import Webcrown.Orm.ValueRows
import Webcrown.Sql.Statements

/-!
# Inserts, as the server reads them

The text of an insert is read as a statement with the columns and the literals of its object
exactly if the values are plain and no inserted member carries `primarykey` beside another flag,
where the names of the table and the columns need no quotes.
-/

namespace Webcrown.Orm

open Common Sql

def Value.literal (lib : DateLibrary) : Value → Option (List Token)
  | .int v | .long v | .short v =>
    some (if v < 0 then [.symbol minus, .number (decimal v.natAbs)]
      else [.number (decimal v.natAbs)])
  | .bool v => some [.word (if v then ascii "true" else ascii "false")]
  | .string v => some [.string v]
  | .yearMonthDay v => (lib.format (ascii "%Y-%m-%d") v).map fun s => [.string s]
  | .dateTime v => (v.str lib).map fun s => [.string s]
  | .timeOfDay _ => none

theorem Value.denotes_of_literal {lib : DateLibrary} {v : Value} {ts : List Token}
    (h : v.literal lib = some ts) : v.Denotes ts := by
  cases v with
  | int v | long v | short v =>
    obtain rfl := Option.some.inj h
    split_ifs
    · exact .inr (.inl ⟨_, .inr (.inl rfl)⟩)
    · exact .inr (.inl ⟨_, .inl rfl⟩)
  | bool v =>
    obtain rfl := Option.some.inj h
    cases v
    · exact .inr (.inr (.inr (by decide)))
    · exact .inr (.inr (.inl (by decide)))
  | string v => exact (Option.some.inj h).symm
  | yearMonthDay v =>
    obtain ⟨s, -, rfl⟩ := Option.map_eq_some_iff.mp h
    exact .inl ⟨s, rfl⟩
  | dateTime v =>
    obtain ⟨s, -, rfl⟩ := Option.map_eq_some_iff.mp h
    exact .inl ⟨s, rfl⟩
  | timeOfDay v => cases h

theorem lex_integer (z : ℤ) {r : Text} (hr : EndsLiteral r) :
    lex (toStdString z ++ r) = (lex r).map
      ((if z < 0 then [.symbol minus, .number (decimal z.natAbs)]
        else [.number (decimal z.natAbs)]) ++ ·) := by
  have hdigits : ∀ c ∈ decimal z.natAbs, Sql.isDigit c = true := fun _ hc =>
    isDigit_of_isDigit (isDigit_of_mem_decimal hc)
  have hnumber := lex_digits (decimal_ne_nil z.natAbs) hdigits hr
  unfold toStdString
  split_ifs with hz
  · rw [List.cons_append]
    change lex (minus :: (decimal z.natAbs ++ r)) = _
    rw [lex_minus r (decimal_ne_nil _) hdigits, hnumber, Option.map_map]
    rfl
  · exact hnumber

/-- A plain value is written as its literal in whatever row it stands. -/
theorem lex_literal {lib : DateLibrary} (hlib : lib.Documented) {v : Value} {text : ByteString}
    (h : normalizeType lib v = some text) (hv : v.Plain) {r : Text} (hr : EndsLiteral r) :
    ∃ ts, v.literal lib = some ts ∧ lex (text ++ r) = (lex r).map (ts ++ ·) := by
  have hquoted : ∀ s, quote ∉ s → ascii "'" ++ s ++ ascii "'" = text →
      lex (text ++ r) = (lex r).map ([Token.string s] ++ ·) := by
    rintro s hs rfl
    rw [quoted_append, lex_quoted hs hr]
  cases v with
  | int v | long v | short v =>
    obtain rfl := Option.some.inj h
    exact ⟨_, rfl, lex_integer v hr⟩
  | bool v =>
    obtain rfl := Option.some.inj h
    refine ⟨_, rfl, lex_isWord (by cases v <;> decide) fun d hd => ?_⟩
    exact ⟨(hr.separates d hd).1, (hr.separates d hd).2.2⟩
  | timeOfDay v => exact hv.elim
  | string v => exact ⟨_, rfl, hquoted v hv (Option.some.inj h)⟩
  | yearMonthDay v =>
    obtain ⟨s, hs, htext⟩ := Option.map_eq_some_iff.mp h
    exact ⟨[.string s], by rw [Value.literal, hs]; rfl, hquoted s (hlib.date v s hs) htext⟩
  | dateTime v =>
    obtain ⟨s, hs, htext⟩ := Option.map_eq_some_iff.mp h
    refine ⟨[.string s], by rw [Value.literal, hs]; rfl, hquoted s ?_ htext⟩
    obtain ⟨date, hdate, htime⟩ := Option.bind_eq_some_iff.mp hs
    obtain ⟨clock, hclock, rfl⟩ := Option.map_eq_some_iff.mp htime
    rw [List.mem_append, not_or]
    exact ⟨hlib.dateBlank _ _ hdate, hlib.clock _ _ hclock⟩

section Statement

variable {reserved : Text → Bool}

/-- A name that needs no quotes: a word that is not reserved. -/
def IsName (reserved : Text → Bool) (w : ByteString) : Prop :=
  IsWord w ∧ reserved (foldName w) = false

instance (reserved : Text → Bool) (w : ByteString) : Decidable (IsName reserved w) :=
  inferInstanceAs (Decidable (_ ∧ _))

/-- The table and the columns of an insert have names that need no quotes. -/
structure HasNames (reserved : Text → Bool) (t : Reflected) : Prop where
  table : IsName reserved t.table.name
  columns : ∀ m ∈ t.members, Query.namesColumn m = true → IsName reserved m.column.name

def columnNames (t : Reflected) : List Text :=
  (t.members.filter Query.namesColumn).map fun m => m.column.name

theorem lex_insert {t : Reflected} (hnames : HasNames reserved t) {text : Member → ByteString}
    {statement : ByteString} (h : insert t text = some statement) :
    columnNames t ≠ [] ∧
      lex statement = (lex (valueList t text)).map fun tokens =>
        .word (ascii "INSERT") :: .word (ascii "INTO") :: .word t.table.name ::
          .symbol lparen :: (nameRow (columnNames t) ++
            .word (ascii "VALUES") :: .symbol lparen :: tokens) := by
  obtain ⟨front, hfront, -⟩ := Option.map_eq_some_iff.mp h
  obtain ⟨m, hm⟩ := List.exists_mem_of_ne_nil _ (filter_appendsValue_ne_nil hfront)
  obtain ⟨hm, happends⟩ := List.mem_filter.mp hm
  have hne : columnNames t ≠ [] := by
    refine List.ne_nil_of_mem (List.mem_map.mpr ⟨m, List.mem_filter.mpr ⟨hm, ?_⟩, rfl⟩)
    exact namesColumn_of_appendsValue happends
  refine ⟨hne, ?_⟩
  have hwords : ∀ w ∈ columnNames t, IsWord w := by
    intro w hw
    obtain ⟨m, hm, rfl⟩ := List.mem_map.mp hw
    obtain ⟨hm, hcolumn⟩ := List.mem_filter.mp hm
    exact (hnames.columns m hm hcolumn).1
  have hcolumns : ((t.members.filter Query.namesColumn).flatMap
      fun m => ascii ",\n\t " ++ m.column.name) =
      (columnNames t).flatMap fun w => comma :: ([10, 9, 32] ++ w) := by
    rw [columnNames, List.flatMap_map]
    rfl
  obtain ⟨w, ws, hws⟩ := List.exists_cons_of_ne_nil hne
  rw [hws] at hwords hcolumns ⊢
  have hopen : ascii "INSERT INTO " = ascii "INSERT" ++ 32 :: (ascii "INTO" ++ [32]) := by decide
  have hlparen : ascii " (\n" = [32, lparen, 10] := by decide
  have hvalues : ascii "\n) VALUES (" = 10 :: rparen :: 32 :: (ascii "VALUES" ++ [32, lparen]) := by
    decide
  have htext : statement = ascii "INSERT" ++ 32 :: (ascii "INTO" ++ 32 :: (t.table.name ++
      32 :: lparen :: ([10, 9, 32] ++ (w ++ moreNames [10, 9, 32] ws
        (32 :: (ascii "VALUES" ++ 32 :: lparen :: valueList t text)))))) := by
    rw [insert_eq h, hcolumns, valueList, accumulate_if, hopen, hlparen, hvalues, moreNames,
      List.flatMap_cons]
    simp only [List.append_assoc, List.cons_append, List.nil_append, List.drop_succ_cons,
      List.drop_zero]
  have hblank : ∀ b ∈ [10, 9, 32], isBlank b = true := by simp [isBlank]
  rw [htext, lex_word_space (by decide),
    lex_word_space (by decide), lex_word_space hnames.table.1,
    lex_punctuation (by simp), lex_blanks hblank, lex_names hblank hwords,
    lex_blank (by decide), lex_word_space (by decide),
    lex_punctuation (by simp)]
  simp only [Option.map_map]
  rfl

theorem foldName_insert : foldName (ascii "INSERT") = insertWord ∧
    foldName (ascii "INTO") = intoWord ∧ foldName (ascii "VALUES") = valuesWord := by
  decide

theorem readInsert_insert {t : Reflected} (hnames : HasNames reserved t)
    {text : Member → ByteString} {statement : ByteString} (h : insert t text = some statement) :
    readInsert reserved statement = (lex (valueList t text)).bind fun tokens =>
      (literals tokens.length tokens).map fun tss =>
        ⟨foldName t.table.name, (columnNames t).map foldName, tss⟩ := by
  obtain ⟨hne, hlex⟩ := lex_insert hnames h
  have hreserved : ∀ w ∈ columnNames t, reserved (foldName w) = false := by
    intro w hw
    obtain ⟨m, hm, rfl⟩ := List.mem_map.mp hw
    obtain ⟨hm, hcolumn⟩ := List.mem_filter.mp hm
    exact (hnames.columns m hm hcolumn).2
  rw [readInsert, hlex, Option.bind_map]
  refine Option.bind_congr fun tokens _ => ?_
  exact parseInsert_append foldName_insert.1 foldName_insert.2.1 foldName_insert.2.2
    hnames.table.2 hne hreserved tokens

variable {lib : DateLibrary} {t : Reflected} {value : Member → Value} {text : Member → ByteString}

/-- The statement that an insert is meant to be. -/
def Intended (lib : DateLibrary) (t : Reflected) (value : Member → Value) (i : Sql.Insert) : Prop :=
  i.table = foldName t.table.name ∧
    i.columns = (t.members.filter appendsValue).map (fun m => foldName m.column.name) ∧
    List.Forall₂ (fun m ts => (value m).literal lib = some ts) (t.members.filter appendsValue)
      i.values

/-- The value list is the row of the values' literals exactly if the values are plain. -/
theorem lex_literals_iff (hlib : lib.Documented)
    (htext : ∀ m ∈ t.members.filter appendsValue, normalizeType lib (value m) = some (text m))
    (hne : t.members.filter appendsValue ≠ []) :
    (∃ tss, List.Forall₂ (fun m ts => (value m).literal lib = some ts)
        (t.members.filter appendsValue) tss ∧
        lex (valueList t text) = some (literalRow tss)) ↔
      ∀ m ∈ t.members.filter appendsValue, (value m).Plain := by
  rw [valueList_eq text hne]
  refine lex_rowText_iff
    (fun m ts hts => (Value.denotes_of_literal hts).oneLiteral.not_isSeparator)
    (fun m hm hp r hr => lex_literal hlib (htext m hm) hp hr) ?_ hne
  intro m hm ts s rest r hp hts hs hr
  refine lex_normalizeType_ne hlib (htext m hm) hp (Value.denotes_of_literal hts) (s :: rest) ?_
    r ?_
  · rintro u hu
    rwa [← Option.some.inj hu]
  · exact hr.imp_right fun hend => by rw [hend]; decide

/-- The flags with which the column list and the value list agree. -/
def FlagsAgree (t : Reflected) : Prop :=
  ∀ m ∈ t.members, hasFlag m.column.attributes .primarykey = true →
    hasFlag m.column.attributes .ignoreInsert = false → m.column.attributes = .primarykey

instance (t : Reflected) : Decidable (FlagsAgree t) := inferInstanceAs (Decidable (∀ _ ∈ _, _))

theorem length_appendsValue_le :
    (t.members.filter appendsValue).length ≤ (columnNames t).length := by
  rw [columnNames, List.length_map]
  exact (sublist_namesColumn t).length_le

theorem flagsAgree_iff_length : FlagsAgree t ↔
    (columnNames t).length = (t.members.filter appendsValue).length := by
  have hflags : t.members.filter Query.namesColumn = t.members.filter appendsValue ↔
      FlagsAgree t :=
    filter_eq_filter_iff.trans (forall₂_congr fun m _ => namesColumn_eq_iff m)
  rw [← hflags, columnNames, List.length_map]
  exact ⟨congrArg _, fun h => ((sublist_namesColumn t).eq_of_length h.symm).symm⟩

theorem columnNames_of_flagsAgree (h : FlagsAgree t) : (columnNames t).map foldName =
    (t.members.filter appendsValue).map fun m => foldName m.column.name := by
  rw [columnNames, List.map_map, filter_eq_filter_iff.mpr fun m hm =>
    (namesColumn_eq_iff m).mpr (h m hm)]
  rfl

/-- Plain values are read as the literals of the statement, whatever its columns. -/
theorem readInsert_of_plain (hlib : lib.Documented) (hnames : HasNames reserved t)
    (htext : ∀ m ∈ t.members.filter appendsValue, normalizeType lib (value m) = some (text m))
    {statement : ByteString} (h : insert t text = some statement)
    (hplain : ∀ m ∈ t.members.filter appendsValue, (value m).Plain) :
    ∃ tss, List.Forall₂ (fun m ts => (value m).literal lib = some ts)
        (t.members.filter appendsValue) tss ∧
      readInsert reserved statement =
        some ⟨foldName t.table.name, (columnNames t).map foldName, tss⟩ := by
  obtain ⟨front, hfront, -⟩ := Option.map_eq_some_iff.mp h
  have hne := filter_appendsValue_ne_nil hfront
  obtain ⟨tss, hliterals, hlex⟩ := (lex_literals_iff hlib htext hne).mpr hplain
  refine ⟨tss, hliterals, ?_⟩
  have htss : tss ≠ [] := by
    rintro rfl
    exact hne (List.forall₂_nil_right_iff.mp hliterals)
  have hone : ∀ ts ∈ tss, OneLiteral ts := by
    intro ts hts
    obtain ⟨k, hk, rfl⟩ := List.getElem_of_mem hts
    have hget := hliterals.get (by rw [hliterals.length_eq]; exact hk) hk
    exact (Value.denotes_of_literal hget).oneLiteral
  rw [readInsert_insert hnames h, hlex, Option.bind_some,
    literals_literalRow htss hone (length_le_literalRow tss)]
  rfl

def reservedWords (w : Text) : Bool :=
  [ascii "select", ascii "table", ascii "user", ascii "order"].contains w

theorem hasNames_visits : HasNames reservedWords visits where
  table := by decide
  columns := by decide

end Statement

end Webcrown.Orm
