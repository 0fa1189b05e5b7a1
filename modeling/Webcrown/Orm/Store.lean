import Webcrown.Orm.InsertStatement
import Webcrown.Orm.Updates
import Webcrown.Sql.Commands

/-!
# A table as a store of entities

Any run of inserts, updates, deletes and queries does to the table of a type what it says about
a multiset of entities, each the cells of the members: an insert adds one, an update gives new
cells to the fields of those for which its condition is true, a delete removes those and a query
answers with them. The server is a parameter of which only the documented part is used.
-/

namespace Webcrown.Orm

open Common Sql

def Query.delete (t : Reflected) : ByteString := ascii "DELETE FROM " ++ t.table.name ++ ascii " "

/-- `orm::delete_`, as the text that it executes. -/
def deleteText (t : Reflected) (cond : ByteString) : ByteString := Query.delete t ++ cond

/-- `orm::select` and `orm::select_many`, as the text that they execute. -/
def selectText (t : Reflected) (cond : ByteString) : ByteString := Query.select t ++ cond

section Literals

/-- A text behind which no value goes on. -/
structure EndsValue (r : Text) : Prop where
  head : ∀ c, r.head? = some c → c = comma ∨ c = 32
  ends : continuation r = some none

theorem EndsValue.separates {r : Text} (h : EndsValue r) :
    ∀ d, r.head? = some d → inWord d = false ∧ d ≠ 46 ∧ d ≠ quote ∧ d ≠ 38 := by
  intro d hd
  rcases h.head d hd with rfl | rfl <;> decide

theorem endsValue_comma (r : Text) : EndsValue (comma :: r) :=
  ⟨fun _ hc => .inl (Option.some.inj hc).symm, (endsLiteral_comma r).ends⟩

/-- An assigned text: it is read as its literal, also right behind an equals sign. -/
structure WrittenAs (text : ByteString) (ts : List Token) : Prop where
  literal : OneLiteral ts
  head : text ≠ [] ∧ ∀ r, (text ++ r).head?.any isOperator = false ∨
    (text ++ r).head? = some minus ∧ (text ++ r).tail.head?.any isOperator = false
  read : ∀ r, EndsValue r → tokens (text ++ r) = (tokens r).map (ts ++ ·)

theorem writtenAs_digits {n : Text} (hne : n ≠ []) (hn : ∀ c ∈ n, Sql.isDigit c = true) :
    WrittenAs n [.number n] where
  literal := .inr (.inl ⟨n, .inl rfl⟩)
  head := by
    obtain ⟨c, n, rfl⟩ := List.exists_cons_of_ne_nil hne
    refine ⟨hne, fun r => .inl ?_⟩
    simp [(not_isOperator_of_isDigit (hn c (by simp))).1]
  read r hr := tokens_number hne hn fun d hd => ⟨(hr.separates d hd).1, (hr.separates d hd).2.1⟩

theorem writtenAs_integer (z : ℤ) : WrittenAs (toStdString z)
    (if z < 0 then [.symbol minus, .number (decimal z.natAbs)]
      else [.number (decimal z.natAbs)]) := by
  have hne := decimal_ne_nil z.natAbs
  have hdigits : ∀ c ∈ decimal z.natAbs, Sql.isDigit c = true := fun _ hc =>
    isDigit_of_isDigit (isDigit_of_mem_decimal hc)
  have hdecimal := writtenAs_digits hne hdigits
  unfold toStdString
  split_ifs with hz
  · refine ⟨.inr (.inl ⟨_, .inr (.inl rfl)⟩), ⟨by simp, fun r => .inr ⟨rfl, ?_⟩⟩, fun r hr => ?_⟩
    · rcases hdecimal.head.2 r with h | ⟨hminus, -⟩
      · exact h
      · obtain ⟨c, n, hcons⟩ := List.exists_cons_of_ne_nil hne
        rw [hcons] at hminus hdigits
        obtain rfl := Option.some.inj hminus
        exact absurd (hdigits minus (by simp)) (by decide)
    · have hread := hdecimal.read r hr
      change tokens (minus :: (decimal z.natAbs ++ r)) = _
      rw [tokens_minus hne hdigits, hread, Option.map_map]
      rfl
  · exact hdecimal

theorem writtenAs_quoted {s : ByteString} (hs : quote ∉ s) :
    WrittenAs (ascii "'" ++ s ++ ascii "'") [.string s] where
  literal := .inl ⟨s, rfl⟩
  head := by
    rw [show ascii "'" = [quote] by decide]
    exact ⟨by simp, fun r => .inl (by simp [quote, isOperator])⟩
  read r hr := by
    rw [quoted_append]
    exact tokens_string hs (fun hq => (hr.separates _ hq).2.2.1 rfl) hr.ends

theorem writtenAs_bool (b : Bool) : WrittenAs (if b then ascii "true" else ascii "false")
    [.word (if b then ascii "true" else ascii "false")] where
  literal := by cases b <;> exact .inr (.inr (by decide))
  head := by
    cases b
    · exact ⟨by decide, fun r => .inl rfl⟩
    · exact ⟨by decide, fun r => .inl rfl⟩
  read r hr := by
    refine tokens_word (by cases b <;> decide) fun d hd => ?_
    exact ⟨(hr.separates d hd).1, (hr.separates d hd).2.2⟩

/-- A plain value is assigned as its literal. -/
theorem writtenAs_literal {lib : DateLibrary} (hlib : lib.Documented) {v : Value}
    {text : ByteString} (h : normalizeType lib v = some text) (hv : v.Plain) :
    ∃ ts, v.literal lib = some ts ∧ WrittenAs text ts := by
  cases v with
  | int v | long v | short v =>
    obtain rfl := Option.some.inj h
    exact ⟨_, rfl, writtenAs_integer v⟩
  | bool v =>
    obtain rfl := Option.some.inj h
    exact ⟨_, rfl, writtenAs_bool v⟩
  | timeOfDay v => exact hv.elim
  | string v =>
    obtain rfl := Option.some.inj h
    exact ⟨_, rfl, writtenAs_quoted hv⟩
  | yearMonthDay v =>
    obtain ⟨s, hs, rfl⟩ := Option.map_eq_some_iff.mp h
    exact ⟨[.string s], by rw [Value.literal, hs]; rfl, writtenAs_quoted (hlib.date v s hs)⟩
  | dateTime v =>
    obtain ⟨s, hs, rfl⟩ := Option.map_eq_some_iff.mp h
    refine ⟨[.string s], by rw [Value.literal, hs]; rfl, writtenAs_quoted ?_⟩
    obtain ⟨date, hdate, htime⟩ := Option.bind_eq_some_iff.mp hs
    obtain ⟨clock, hclock, rfl⟩ := Option.map_eq_some_iff.mp htime
    rw [List.mem_append, not_or]
    exact ⟨hlib.dateBlank _ _ hdate, hlib.clock _ _ hclock⟩

end Literals

section Texts

variable {reserved : Text → Bool}

def itemText (item : ByteString × ByteString) : ByteString :=
  ascii "\n\t" ++ item.1 ++ ascii "=" ++ item.2

theorem tokens_item {item : ByteString × ByteString} {a : Text × List Token}
    (hname : item.1 = a.1) (hword : IsWord a.1) (hvalue : WrittenAs item.2 a.2) {r : Text}
    (hr : EndsValue r) :
    tokens (itemText item ++ r) =
      (tokens r).map fun ts => .word a.1 :: .symbol equals :: (a.2 ++ ts) := by
  have htext : itemText item ++ r = [10, 9] ++ (a.1 ++ equals :: (item.2 ++ r)) := by
    rw [itemText, hname, show ascii "\n\t" = [10, 9] by decide,
      show ascii "=" = [equals] by decide]
    simp
  rw [htext, tokens_blanks (by simp [isBlank]), tokens_word hword,
    tokens_equals (hvalue.head.2 r), hvalue.read r hr, Option.map_map, Option.map_map]
  · rfl
  · rintro d hd
    obtain rfl := Option.some.inj hd
    decide

theorem tokens_items {items : List (ByteString × ByteString)} {sets : List (Text × List Token)}
    (h : List.Forall₂ (fun item a => item.1 = a.1 ∧ IsWord a.1 ∧ WrittenAs item.2 a.2) items sets)
    (hne : items ≠ []) {r : Text} (hr : EndsValue r) :
    tokens ((ascii ",").intercalate (items.map itemText) ++ r) =
      (tokens r).map (assignmentRow sets ++ ·) := by
  induction h with
  | nil => exact absurd rfl hne
  | @cons item a items sets hitem hrest ih =>
    obtain ⟨hname, hword, hvalue⟩ := hitem
    cases hrest with
    | nil =>
      have hone : (ascii ",").intercalate ([item].map itemText) = itemText item := by
        simp [List.intercalate]
      rw [hone, tokens_item hname hword hvalue hr]
      rfl
    | @cons item' a' items sets hitem' hrest =>
      have ih := ih (by simp)
      have hmore : (ascii ",").intercalate ((item :: item' :: items).map itemText) ++ r =
          itemText item ++ comma ::
            ((ascii ",").intercalate ((item' :: items).map itemText) ++ r) := by
        simp [List.intercalate, show ascii "," = [comma] by decide]
      rw [hmore, tokens_item hname hword hvalue (endsValue_comma _),
        tokens_punctuation (by simp), ih, Option.map_map, Option.map_map, assignmentRow]
      simp [Function.comp_def]

/-- A condition as it is written behind a statement, and the tokens that are read from it. -/
structure Search where
  text : ByteString
  condition : List Token
  written : text = [] ∧ condition = [] ∨ ∃ s, text = ascii "WHERE " ++ s ∧
    tokens s = some condition ∧ condition ≠ [] ∧ Token.symbol semicolon ∉ condition

namespace Search

variable (c : Search)

theorem endsValue : EndsValue (32 :: c.text) := by
  refine ⟨fun d hd => .inr (Option.some.inj hd).symm, ?_⟩
  rcases c.written with ⟨htext, -⟩ | ⟨s, htext, -⟩
  · rw [htext]
    rfl
  · rw [htext]
    rfl

theorem tokens_text : ∃ behind, tokens c.text = some behind ∧
    searchCondition behind = some c.condition ∧ ∀ d, behind.head? ≠ some (.symbol d) := by
  rcases c.written with ⟨htext, hcondition⟩ | ⟨s, htext, hread, hne, hsemicolon⟩
  · exact ⟨[], by rw [htext]; rfl, by rw [hcondition]; rfl, by simp⟩
  · refine ⟨.word (ascii "WHERE") :: c.condition, ?_, ?_, by simp⟩
    · rw [htext, show ascii "WHERE " ++ s = ascii "WHERE" ++ 32 :: s by
        rw [show ascii "WHERE " = ascii "WHERE" ++ [32] by decide]; simp]
      rw [tokens_word_space (by decide), hread]
      rfl
    · exact searchCondition_where (by decide) hne hsemicolon

end Search

variable {t : Reflected}

theorem foldName_commands : foldName (ascii "UPDATE") = updateWord ∧
    foldName (ascii "SET") = setWord ∧ foldName (ascii "DELETE") = deleteWord ∧
    foldName (ascii "FROM") = fromWord ∧ foldName (ascii "SELECT") = selectWord := by
  decide

theorem readCommand_updateText (htable : IsName reserved t.table.name)
    {items : List (ByteString × ByteString)} {sets : List (Text × List Token)}
    (h : List.Forall₂ (fun item a => item.1 = a.1 ∧ IsWord a.1 ∧ WrittenAs item.2 a.2) items sets)
    (hsets : ∀ a ∈ sets, reserved (foldName a.1) = false ∧ OneLiteral a.2) (hne : items ≠ [])
    (c : Search) :
    readCommand reserved (updateText t c.text items) = some (.update (foldName t.table.name)
      (sets.map fun a => (foldName a.1, a.2)) c.condition) := by
  obtain ⟨behind, hbehind, hcondition, hhead⟩ := c.tokens_text
  have hupdate : ascii "UPDATE " = ascii "UPDATE" ++ [32] := by decide
  have hset : ascii " SET " = 32 :: (ascii "SET" ++ [32]) := by decide
  have htext : updateText t c.text items = ascii "UPDATE" ++ 32 :: (t.table.name ++
      32 :: (ascii "SET" ++ 32 :: ((ascii ",").intercalate (items.map itemText) ++
        32 :: c.text))) := by
    change ascii "UPDATE " ++ t.table.name ++ ascii " SET " ++
      (ascii ",").intercalate (items.map itemText) ++ ascii " " ++ c.text = _
    rw [hupdate, hset, show ascii " " = [32] by decide]
    simp
  have hnonempty : sets ≠ [] := by
    rintro rfl
    exact hne (List.forall₂_nil_right_iff.mp h)
  rw [readCommand, htext, tokens_word_space (by decide), tokens_word_space htable.1,
    tokens_word_space (by decide), tokens_items h hne c.endsValue, tokens_space c.text, hbehind]
  obtain ⟨hupdate, hset, -⟩ := foldName_commands
  exact parseCommand_update hupdate htable.2 hset hnonempty hsets hhead hcondition

theorem readCommand_deleteText (htable : IsName reserved t.table.name) (c : Search) :
    readCommand reserved (deleteText t c.text) =
      some (.delete (foldName t.table.name) c.condition) := by
  obtain ⟨behind, hbehind, hcondition, -⟩ := c.tokens_text
  have htext : deleteText t c.text = ascii "DELETE" ++ 32 :: (ascii "FROM" ++
      32 :: (t.table.name ++ 32 :: c.text)) := by
    rw [deleteText, Query.delete, show ascii "DELETE FROM " = ascii "DELETE" ++
      32 :: (ascii "FROM" ++ [32]) by decide, show ascii " " = [32] by decide]
    simp
  rw [readCommand, htext, tokens_word_space (by decide), tokens_word_space (by decide),
    tokens_word_space htable.1, hbehind]
  obtain ⟨-, -, hdelete, hfrom, -⟩ := foldName_commands
  exact parseCommand_delete hdelete hfrom htable.2 hcondition

theorem readCommand_selectText (htable : IsName reserved t.table.name) (c : Search) :
    readCommand reserved (selectText t c.text) =
      some (.select (foldName t.table.name) c.condition) := by
  obtain ⟨behind, hbehind, hcondition, -⟩ := c.tokens_text
  have htext : selectText t c.text = ascii "SELECT" ++ 32 :: 42 :: 32 :: (ascii "FROM" ++
      32 :: (t.table.name ++ 32 :: c.text)) := by
    rw [selectText, Query.select, show ascii "SELECT * FROM " = ascii "SELECT" ++
      32 :: 42 :: 32 :: (ascii "FROM" ++ [32]) by decide, show ascii " " = [32] by decide]
    simp
  have hstar := tokens_step (nextToken_operator (c := 42) (s := 32 :: (ascii "FROM" ++
    32 :: (t.table.name ++ 32 :: c.text))) (.inr rfl) rfl)
  rw [readCommand, htext, tokens_word_space (by decide), hstar, tokens_space,
    tokens_word_space (by decide), tokens_word_space htable.1, hbehind]
  obtain ⟨-, -, -, hfrom, hselect⟩ := foldName_commands
  exact parseCommand_select hselect hfrom htable.2 hcondition

end Texts

section Entities

variable {σ κ : Type*}

/-- An entity: the cells of the members of a type. -/
abbrev Entity (t : Reflected) (κ : Type*) := {m // m ∈ t.members} → κ

def Entity.ofRow (t : Reflected) (row : Row κ) : Entity t κ :=
  fun m => row (foldName m.1.column.name)

variable (server : Server σ κ) (lib : DateLibrary) (t : Reflected)

def entities (s : σ) : Multiset (Entity t κ) :=
  (server.rows s (foldName t.table.name)).map (Entity.ofRow t)

/-- What the column of a member holds for a value. -/
def cellOf (m : Member) (v : Value) : Option κ :=
  (v.literal lib).map (server.cell (foldName t.table.name) (foldName m.column.name))

/-- An entity holds the values of an object that an insert appends; the server chooses the other
cells. -/
def Entity.Holds (value : Member → Value) (e : Entity t κ) : Prop :=
  ∀ m, appendsValue m.1 = true → some (e m) = cellOf server lib t m.1 (value m.1)

/-- An entity with new values for the fields of an update. -/
def Entity.given (args : List Argument) (e : Entity t κ) : Entity t κ := fun m =>
  ((args.lookup m.1.displayName).bind (cellOf server lib t m.1)).getD (e m)

/-- A condition that the server decides by the cells of the members. -/
structure Condition extends Search where
  rowwise : server.rowwise (foldName t.table.name) condition
  holds : Entity t κ → Bool
  decides : ∀ s row, server.selects s (foldName t.table.name) condition row =
    holds (Entity.ofRow t row)

variable {server lib t} {args : List Argument}

/-- The assignments of an update, with the literals of the values. -/
def assignedLiterals (lib : DateLibrary) (t : Reflected) (args : List Argument) :
    List (Text × List Token) :=
  t.members.filterMap fun m => ((args.lookup m.displayName).bind (Value.literal lib)).map
    fun l => (m.column.name, l)

/-- The arguments of an update: two or more distinct fields of the type, each with a plain
value. -/
structure Gives (lib : DateLibrary) (t : Reflected) (args : List Argument) : Prop where
  two_le : 2 ≤ args.length
  distinct : (args.map Prod.fst).Nodup
  displayed : ∀ arg ∈ args, ∃ m ∈ t.members, m.displayName = arg.1
  plain : ∀ arg ∈ args, arg.2.Plain ∧ (normalizeType lib arg.2).isSome = true

theorem Gives.ne_nil (h : Gives lib t args) : args ≠ [] := by
  rintro rfl
  exact absurd h.two_le (by decide)

theorem Gives.written (h : Gives lib t args) (hlib : lib.Documented) {m : Member} {v : Value}
    (hv : args.lookup m.displayName = some v) :
    ∃ nv ts, normalizeType lib v = some nv ∧ v.literal lib = some ts ∧ WrittenAs nv ts := by
  obtain ⟨hplain, hsome⟩ := h.plain _ (mem_of_lookup_eq_some hv)
  obtain ⟨nv, hnv⟩ := Option.isSome_iff_exists.mp hsome
  obtain ⟨ts, hts, hwritten⟩ := writtenAs_literal hlib hnv hplain
  exact ⟨nv, ts, hnv, hts, hwritten⟩

theorem Gives.assigned (h : Gives lib t args) (hlib : lib.Documented) {m : Member} {v : Value}
    (hv : args.lookup m.displayName = some v) :
    ∃ nv, normalizeType lib v = some nv ∧ nv ≠ [] ∧ assigned lib args m = some nv := by
  obtain ⟨nv, ts, hnv, -, hwritten⟩ := h.written hlib hv
  exact ⟨nv, hnv, hwritten.head.1, by rw [Orm.assigned, hv, Option.bind_some, hnv]⟩

theorem forall₂_filterMap {α β γ : Type*} {R : β → γ → Prop} {f : α → Option β} {g : α → Option γ}
    {xs : List α} (h : ∀ x ∈ xs, Option.Rel R (f x) (g x)) :
    List.Forall₂ R (xs.filterMap f) (xs.filterMap g) := by
  have hrel : Relator.LiftFun (fun x y => x = y ∧ x ∈ xs) (Option.Rel R) f g := by
    rintro x _ ⟨rfl, hx⟩
    exact h x hx
  exact List.rel_filterMap hrel (List.forall₂_same.mpr fun x hx => ⟨rfl, hx⟩)

theorem Gives.items (h : Gives lib t args) (hlib : lib.Documented)
    (hwords : ∀ m ∈ t.members, IsWord m.column.name) :
    List.Forall₂ (fun item a => item.1 = a.1 ∧ IsWord a.1 ∧ WrittenAs item.2 a.2)
      (updatedItems t (Orm.assigned lib args)) (assignedLiterals lib t args) := by
  refine forall₂_filterMap fun m hm => ?_
  cases hv : args.lookup m.displayName with
  | none =>
    rw [assigned_of_lookup_none hv]
    exact .none
  | some v =>
    obtain ⟨nv, ts, hnv, hts, hwritten⟩ := h.written hlib hv
    rw [Orm.assigned, hv, Option.bind_some, Option.bind_some, hnv, hts]
    exact .some ⟨rfl, hwords m hm, hwritten⟩

theorem map_assignedLiterals : (assignedLiterals lib t args).map (fun a => (foldName a.1, a.2)) =
    t.members.filterMap fun m => ((args.lookup m.displayName).bind (Value.literal lib)).map
      fun l => (foldName m.column.name, l) := by
  rw [assignedLiterals, List.map_filterMap]
  simp only [Option.map_map, Function.comp_def]

/-- An update of a row is one of its entity. -/
theorem Entity.ofRow_replaced (hnodup : (t.members.map fun m => foldName m.column.name).Nodup)
    (row : Row κ) :
    Entity.ofRow t (server.replaced (foldName t.table.name)
        ((assignedLiterals lib t args).map fun a => (foldName a.1, a.2)) row) =
      (Entity.ofRow t row).given server lib t args := by
  funext m
  rw [map_assignedLiterals, Entity.ofRow, Server.replaced, assign_converted,
    lookup_given hnodup m.2, Entity.given, Option.map_bind]
  rfl

end Entities

section Store

variable {σ κ : Type*}

/-- A table and columns that can be named, with a column for each member. -/
structure HasColumns (reserved : Text → Bool) (t : Reflected) : Prop where
  table : IsName reserved t.table.name
  names : ∀ m ∈ t.members, IsName reserved m.column.name
  nodup : (t.members.map fun m => foldName m.column.name).Nodup

/-- The text that `orm::insert` executes for an object. -/
def Inserts (lib : DateLibrary) (t : Reflected) (value : Member → Value) (statement : Text) :
    Prop :=
  ∃ text, (∀ m ∈ t.members.filter appendsValue, normalizeType lib (value m) = some (text m)) ∧
    insert t text = some statement

/-- A call that works on the table of a type. -/
inductive Call (server : Server σ κ) (t : Reflected)
  | insert (value : Member → Value)
  | update (args : List Argument) (c : Condition server t)
  | delete (c : Condition server t)
  | select (c : Condition server t)

namespace Call

variable {server : Server σ κ} {lib : DateLibrary} {t : Reflected}

/-- What a call says about the entities, and with which it is answered. -/
def Effect (lib : DateLibrary) (es es' answer : Multiset (Entity t κ)) : Call server t → Prop
  | .insert value => answer = 0 ∧ ∃ e, e.Holds server lib t value ∧ es' = e ::ₘ es
  | .update args c => answer = 0 ∧
    es' = es.map fun e => if c.holds e then e.given server lib t args else e
  | .delete c => answer = 0 ∧ es' = es.filter fun e => ¬ c.holds e
  | .select c => es' = es ∧ answer = es.filter fun e => c.holds e

def Executes (lib : DateLibrary) : Call server t → Text → Prop
  | .insert value, s => Inserts lib t value s
  | .update args c, s => updateArguments lib t c.text args = some s
  | .delete c, s => deleteText t c.text = s
  | .select c, s => selectText t c.text = s

/-- All the values that a call is given are plain. -/
def Plain (lib : DateLibrary) : Call server t → Prop
  | .insert value => ∀ m ∈ t.members.filter appendsValue, (value m).Plain
  | .update args _ => Gives lib t args
  | _ => True

/-- Calls one after the other, with their answers; one that is refused changes nothing. -/
inductive Effects (lib : DateLibrary) : List (Call server t) → Multiset (Entity t κ) →
    List (Option (Multiset (Entity t κ))) → Multiset (Entity t κ) → Prop
  | nil (es) : Effects lib [] es [] es
  | refused {call calls es answers es'} :
      Effects lib calls es answers es' → Effects lib (call :: calls) es (none :: answers) es'
  | accepted {call calls es es₁ answer answers es'} : call.Effect lib es es₁ answer →
      Effects lib calls es₁ answers es' →
        Effects lib (call :: calls) es (some answer :: answers) es'

variable {reserved : Text → Bool} {s s' : σ} {text : Text} {answer : Multiset (Row κ)}

theorem effect_insert (hserver : server.Documented reserved (foldName t.table.name))
    (hlib : lib.Documented) (h : HasColumns reserved t) {value : Member → Value}
    (hinserts : Inserts lib t value text)
    (hplain : ∀ m ∈ t.members.filter appendsValue, (value m).Plain)
    (hs : server.execute s text = (s', some answer)) :
    (Call.insert value : Call server t).Effect lib (entities server t s) (entities server t s')
      (answer.map (Entity.ofRow t)) := by
  obtain ⟨text, htext, hinsert⟩ := hinserts
  obtain ⟨tss, hliterals, hread⟩ := readInsert_of_plain hlib
    ⟨h.table, fun m hm _ => h.names m hm⟩ htext hinsert hplain
  obtain ⟨rfl, hlength, row, hrows, hcells⟩ :=
    hserver.accepted hs (readCommand_of_readInsert hread) rfl trivial
  -- a statement with more columns than values is refused, so the two lists are of the same members
  have hflags : FlagsAgree t := by
    rw [List.length_map, ← hliterals.length_eq] at hlength
    exact flagsAgree_iff_length.mpr hlength
  rw [columnNames_of_flagsAgree hflags] at hcells
  refine ⟨Multiset.map_zero _, Entity.ofRow t row, fun m happends => ?_, ?_⟩
  · have hnodup : ((t.members.filter appendsValue).map fun m => foldName m.column.name).Nodup :=
      h.nodup.sublist (List.filter_sublist.map _)
    obtain ⟨l, hl, hlookup⟩ :=
      lookup_zip_of_mem hliterals hnodup (List.mem_filter.mpr ⟨m.2, happends⟩)
    rw [cellOf, hl, Option.map_some, ← hcells _ _ hlookup]
    rfl
  · rw [entities, hrows, Multiset.map_cons]
    rfl

theorem effect_update (hserver : server.Documented reserved (foldName t.table.name))
    (hlib : lib.Documented) (h : HasColumns reserved t) {args : List Argument}
    {c : Condition server t} (hgives : Gives lib t args)
    (htext : updateArguments lib t c.text args = some text)
    (hs : server.execute s text = (s', some answer)) :
    (Call.update args c).Effect lib (entities server t s) (entities server t s')
      (answer.map (Entity.ofRow t)) := by
  have hassigned : ∀ m ∈ t.members, ∀ v, args.lookup m.displayName = some v →
      ∃ nv, normalizeType lib v = some nv ∧ nv ≠ [] ∧ assigned lib args m = some nv :=
    fun m _ v hv => hgives.assigned hlib hv
  have hne := updatedItems_ne_nil hgives.ne_nil hgives.displayed hassigned
  rw [updateArguments_eq hgives.two_le hgives.distinct hgives.displayed hassigned,
    update_eq_updateText t c.text hne] at htext
  obtain rfl := Option.some.inj htext
  have hitems := hgives.items hlib fun m hm => (h.names m hm).1
  have hsets : ∀ a ∈ assignedLiterals lib t args,
      reserved (foldName a.1) = false ∧ OneLiteral a.2 := by
    intro a ha
    obtain ⟨item, -, -, -, hwritten⟩ := exists_of_forall₂ hitems ha
    obtain ⟨m, hm, hmap⟩ := List.mem_filterMap.mp ha
    obtain ⟨l, -, rfl⟩ := Option.map_eq_some_iff.mp hmap
    exact ⟨(h.names m hm).2, hwritten.literal⟩
  obtain ⟨rfl, hrows⟩ :=
    hserver.accepted hs (readCommand_updateText h.table hitems hsets hne c.toSearch) rfl c.rowwise
  refine ⟨Multiset.map_zero _, ?_⟩
  rw [entities, hrows, entities, Multiset.map_map, Multiset.map_map]
  refine Multiset.map_congr rfl fun row _ => ?_
  dsimp only [Function.comp]
  rw [c.decides]
  split_ifs
  · exact Entity.ofRow_replaced h.nodup row
  · rfl

theorem effect_delete (hserver : server.Documented reserved (foldName t.table.name))
    (h : HasColumns reserved t) (c : Condition server t)
    (hs : server.execute s (deleteText t c.text) = (s', some answer)) :
    (Call.delete c).Effect lib (entities server t s) (entities server t s')
      (answer.map (Entity.ofRow t)) := by
  obtain ⟨rfl, hrows⟩ :=
    hserver.accepted hs (readCommand_deleteText h.table c.toSearch) rfl c.rowwise
  refine ⟨Multiset.map_zero _, ?_⟩
  rw [entities, hrows, entities, Multiset.filter_map]
  simp only [Function.comp_def, c.decides]

theorem effect_select (hserver : server.Documented reserved (foldName t.table.name))
    (h : HasColumns reserved t) (c : Condition server t)
    (hs : server.execute s (selectText t c.text) = (s', some answer)) :
    (Call.select c).Effect lib (entities server t s) (entities server t s')
      (answer.map (Entity.ofRow t)) := by
  obtain ⟨hrows, rfl⟩ :=
    hserver.accepted hs (readCommand_selectText h.table c.toSearch) rfl c.rowwise
  refine ⟨by rw [entities, hrows, entities], ?_⟩
  rw [entities, Multiset.filter_map]
  simp only [Function.comp_def, c.decides]

theorem effect (hserver : server.Documented reserved (foldName t.table.name))
    (hlib : lib.Documented) (h : HasColumns reserved t) {call : Call server t}
    (hplain : call.Plain lib) (htext : call.Executes lib text)
    (hs : server.execute s text = (s', some answer)) :
    call.Effect lib (entities server t s) (entities server t s')
      (answer.map (Entity.ofRow t)) := by
  cases call with
  | insert value => exact effect_insert hserver hlib h htext hplain hs
  | update args c => exact effect_update hserver hlib h hplain htext hs
  | delete c =>
    obtain rfl : deleteText t c.text = text := htext
    exact effect_delete hserver h c hs
  | select c =>
    obtain rfl : selectText t c.text = text := htext
    exact effect_select hserver h c hs

end Call

variable {server : Server σ κ} {lib : DateLibrary} {t : Reflected} {reserved : Text → Bool}

structure VisitTable where
  nextId : ℕ
  rows : Multiset (Row Cell)

namespace VisitTable

def columns : List Text := [ascii "id", ascii "name", ascii "day"]

def literalText : List Token → Cell
  | [.string v] | [.number v] | [.word v] => some v
  | [.symbol c, .number v] => some (c :: v)
  | _ => none

def comparison (row : Row Cell) : List Token → Bool
  | [.word c, .symbol e, .string v] => e == equals && row (foldName c) == some v
  | _ => false

def matching (condition : List Token) (row : Row Cell) : Bool :=
  condition.isEmpty || comparison row condition

/-- The row of an insert, which takes the next id unless it gives one. -/
def newRow (s : VisitTable) (i : Sql.Insert) : Row Cell := fun c =>
  (((i.columns.zip i.values).lookup c).map literalText).getD
    (if c = ascii "id" then some (decimal s.nextId) else none)

/-- A command on the table, which is refused if its columns do not fit. -/
def apply (s : VisitTable) : Command → VisitTable × Option (Multiset (Row Cell))
  | .insert i =>
    if i.columns.length = i.values.length ∧ i.columns.Nodup ∧ ∀ c ∈ i.columns, c ∈ columns then
      (⟨s.nextId + 1, s.newRow i ::ₘ s.rows⟩, some 0)
    else (s, none)
  | .update _ sets condition =>
    if ∀ a ∈ sets, a.1 ∈ columns then
      (⟨s.nextId, s.rows.map fun row => if matching condition row then
        assign (sets.map fun a => (a.1, literalText a.2)) row else row⟩, some 0)
    else (s, none)
  | .delete _ condition =>
    (⟨s.nextId, s.rows.filter fun row => ¬ matching condition row⟩, some 0)
  | .select _ condition => (s, some (s.rows.filter fun row => matching condition row))

end VisitTable

/-- A server with the table of visits alone. -/
def visitServer : Server VisitTable Cell where
  execute s text := match readCommand reservedWords text with
    | some c => if c.table = ascii "visits" then s.apply c else (s, none)
    | none => (s, none)
  rows s table := if table = ascii "visits" then s.rows else 0
  cell _ _ := VisitTable.literalText
  rowwise _ _ := True
  holds _ _ condition row := VisitTable.comparison row condition

theorem VisitTable.apply_refused {s s' : VisitTable} {c : Command}
    (h : s.apply c = (s', none)) : s' = s := by
  cases c with
  | insert i | update table sets condition =>
    simp only [VisitTable.apply] at h
    split_ifs at h
    · cases (Prod.mk.inj h).2
    · exact (Prod.mk.inj h).1.symm
  | delete table condition | select table condition => cases (Prod.mk.inj h).2

theorem VisitTable.does_apply {s s' : VisitTable} {answer : Multiset (Row Cell)} {c : Command}
    (htable : c.table = ascii "visits") (h : s.apply c = (s', some answer)) :
    c.Does visitServer s s' answer := by
  cases c with
  | insert i =>
    simp only [VisitTable.apply] at h
    split_ifs at h with hfits
    · obtain ⟨rfl, hanswer⟩ := Prod.mk.inj h
      refine ⟨(Option.some.inj hanswer).symm, hfits.1, s.newRow i, ?_, fun c l hlookup => ?_⟩
      · simp only [visitServer, show i.table = ascii "visits" from htable, if_true]
      · rw [VisitTable.newRow, hlookup, Option.map_some, Option.getD_some]
        rfl
    · cases (Prod.mk.inj h).2
  | update table sets condition =>
    obtain rfl : table = ascii "visits" := htable
    simp only [VisitTable.apply] at h
    split_ifs at h
    · obtain ⟨rfl, hanswer⟩ := Prod.mk.inj h
      exact ⟨(Option.some.inj hanswer).symm, rfl⟩
    · cases (Prod.mk.inj h).2
  | delete table condition =>
    obtain rfl : table = ascii "visits" := htable
    obtain ⟨rfl, hanswer⟩ := Prod.mk.inj h
    exact ⟨(Option.some.inj hanswer).symm, rfl⟩
  | select table condition =>
    obtain rfl : table = ascii "visits" := htable
    obtain ⟨rfl, hanswer⟩ := Prod.mk.inj h
    exact ⟨rfl, (Option.some.inj hanswer).symm⟩

theorem documented_visitServer : visitServer.Documented reservedWords (ascii "visits") where
  refused := by
    intro s s' text h
    unfold visitServer at h
    dsimp only at h
    split at h
    · split_ifs at h
      · rw [VisitTable.apply_refused h]
      · rw [(Prod.mk.inj h).1]
    · rw [(Prod.mk.inj h).1]
  accepted := by
    intro s s' text answer c h hread htable _
    unfold visitServer at h
    simp only [hread, htable, if_true] at h
    exact VisitTable.does_apply htable h

def nameMember : {m // m ∈ visits.members} := ⟨_, List.mem_cons_of_mem _ List.mem_cons_self⟩

def isAnn : Condition visitServer visits where
  text := ascii "WHERE name='Ann'"
  condition := [.word (ascii "name"), .symbol equals, .string (ascii "Ann")]
  written := .inr ⟨ascii "name='Ann'", by decide, by decide +kernel, by decide, by decide⟩
  rowwise := trivial
  holds e := e nameMember == some (ascii "Ann")
  decides _ _ := rfl

def everyVisit : Condition visitServer visits where
  text := []
  condition := []
  written := .inl ⟨rfl, rfl⟩
  rowwise := trivial
  holds _ := true
  decides _ _ := rfl

def secondValue (m : Member) : Value :=
  match m.valueType with
  | .string => .string (ascii "Bob")
  | .yearMonthDay => .yearMonthDay ⟨2024, 3, 6⟩
  | _ => .int 2

def newVisit : List Argument :=
  [(ascii "day", .yearMonthDay ⟨2024, 3, 7⟩), (ascii "name", .string (ascii "Eve"))]

def visitCalls : List (Call visitServer visits) :=
  [.insert visitValue, .insert secondValue, .update newVisit isAnn, .select everyVisit,
    .delete isAnn]

theorem hasColumns_visits : HasColumns reservedWords visits where
  table := by decide
  names := by decide
  nodup := by decide +kernel

theorem gives_newVisit : Gives calendar visits newVisit where
  two_le := by decide
  distinct := by decide
  displayed := by decide
  plain := by decide +kernel

end Store

end Webcrown.Orm
