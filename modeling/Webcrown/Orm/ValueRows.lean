import Webcrown.Orm.InsertColumns
import Webcrown.Orm.NormalizeType

/-!
# The values of an insert, as the server reads them

The value list is a row of literals, one for each member whose value is appended, if all
these values are plain, and only then. The members are those of the column list where
the flags let the two lists agree.
-/

namespace Webcrown.Orm

open Common Sql

/-- The value list, without the accumulator and the cut at its front. -/
theorem drop_flatMap_eq_rowText (text : Member → ByteString) {members : List Member}
    (hne : members ≠ []) :
    (members.flatMap fun m => ascii ",\n\t" ++ text m).drop 1 ++ ascii "\n);" =
      rowText text members := by
  rw [show ascii ",\n\t" = [comma, 10, 9] by decide, show ascii "\n);" = rowEnd by decide]
  induction members with
  | nil => exact absurd rfl hne
  | cons m members ih =>
    cases members with
    | nil => simp [rowText]
    | cons m' members =>
      have htail := ih (by simp)
      rw [rowText, ← htail]
      simp

theorem valueList_eq {t : Reflected} (text : Member → ByteString)
    (hne : t.members.filter appendsValue ≠ []) :
    valueList t text = rowText text (t.members.filter appendsValue) := by
  rw [valueList, accumulate_if, drop_flatMap_eq_rowText text hne]

/-- The value list is a row of literals, one for each member, exactly if the values are plain. -/
theorem lex_valueList_iff {lib : DateLibrary} (hlib : lib.Documented) {t : Reflected}
    {value : Member → Value} {text : Member → ByteString}
    (htext : ∀ m ∈ t.members.filter appendsValue,
      normalizeType lib (value m) = some (text m))
    (hne : t.members.filter appendsValue ≠ []) :
    (∃ tss, List.Forall₂ (fun m => (value m).Denotes) (t.members.filter appendsValue) tss ∧
        lex (valueList t text) = some (literalRow tss)) ↔
      ∀ m ∈ t.members.filter appendsValue, (value m).Plain := by
  rw [valueList_eq text hne]
  refine lex_rowText_iff (fun m ts hts => hts.oneLiteral.not_isSeparator)
    (fun m hm hp r hr => lex_normalizeType hlib (htext m hm) hp hr) ?_ hne
  intro m hm ts s rest r hp hts hs hr
  refine lex_normalizeType_ne hlib (htext m hm) hp hts (s :: rest) ?_ r ?_
  · rintro u hu
    rwa [← Option.some.inj hu]
  · exact hr.imp_right fun hend => by rw [hend]; decide

/-- A value is written as its literal exactly if it is plain. An insert has one literal for each
column that it names exactly if the values are plain and no inserted member carries `primarykey`
beside another flag. -/
theorem encoded_iff {lib : DateLibrary} (hlib : lib.Documented) :
    (∀ v text, normalizeType lib v = some text →
      ((∃ ts, v.Denotes ts ∧ lex text = some ts) ↔ v.Plain)) ∧
    ∀ (t : Reflected) (value : Member → Value) (text : Member → ByteString)
      (statement : ByteString),
      (∀ m ∈ t.members.filter appendsValue, normalizeType lib (value m) = some (text m)) →
      insert t text = some statement →
      ∃ front, Query.insert t = some front ∧
        statement = front ++ ascii "VALUES (" ++ valueList t text ∧
        ((t.members.filter Query.namesColumn = t.members.filter appendsValue ∧
            ∃ tss, List.Forall₂ (fun m => (value m).Denotes)
                (t.members.filter appendsValue) tss ∧
              lex (valueList t text) = some (literalRow tss)) ↔
          (∀ m ∈ t.members, hasFlag m.column.attributes .primarykey = true →
            hasFlag m.column.attributes .ignoreInsert = false →
            m.column.attributes = .primarykey) ∧
          ∀ m ∈ t.members.filter appendsValue, (value m).Plain) := by
  constructor
  · exact fun v text htext => lex_normalizeType_iff hlib htext
  · intro t value text statement htext hinsert
    obtain ⟨front, hfront, rfl⟩ := Option.map_eq_some_iff.mp hinsert
    refine ⟨front, hfront, rfl, and_congr ?_ ?_⟩
    · rw [filter_eq_filter_iff]
      exact forall₂_congr fun m _ => namesColumn_eq_iff m
    · exact lex_valueList_iff hlib htext (filter_appendsValue_ne_nil hfront)

def twoDigits (n : ℕ) : ByteString := if n < 10 then 48 :: decimal n else decimal n

def clockText (seconds : ℕ) : ByteString :=
  twoDigits (seconds / 3600) ++
    colon :: (twoDigits (seconds / 60 % 60) ++ colon :: twoDigits (seconds % 60))

/-- A calendar with the behaviour of the library on the dates of the years with four digits. -/
def calendar : DateLibrary where
  format f v :=
    if 1 ≤ v.month ∧ v.month ≤ 12 ∧ 1 ≤ v.day ∧ v.day ≤ 31 then
      some (toStdString v.year ++ dash :: (twoDigits v.month ++ dash :: twoDigits v.day) ++
        f.filter (· == sp))
    else none
  formatTime _ v := some (clockText (v / 10 ^ 9 % 86400).toNat)
  sysDays v :=
    let y := if v.month ≤ 2 then v.year - 1 else v.year
    let yearOfEra := y - y / 400 * 400
    let month : ℤ := if v.month > 2 then v.month - 3 else v.month + 9
    let dayOfYear := (153 * month + 2) / 5 + v.day - 1
    y / 400 * 146097 + (yearOfEra * 365 + yearOfEra / 4 - yearOfEra / 100 + dayOfYear) - 719468
  print v := (if v < 0 then [dash] else []) ++ clockText v.natAbs

theorem isDigit_of_mem_twoDigits {n : ℕ} : ∀ c ∈ twoDigits n, Sql.isDigit c = true := by
  intro c hc
  unfold twoDigits at hc
  split_ifs at hc with hn
  · rcases List.mem_cons.mp hc with rfl | hc
    · decide
    · exact isDigit_of_isDigit (isDigit_of_mem_decimal hc)
  · exact isDigit_of_isDigit (isDigit_of_mem_decimal hc)

theorem twoDigits_ne_nil (n : ℕ) : twoDigits n ≠ [] := by
  unfold twoDigits
  split_ifs
  · simp
  · exact decimal_ne_nil n

theorem quote_notMem_twoDigits (n : ℕ) : quote ∉ twoDigits n := fun h =>
  absurd (isDigit_of_mem_twoDigits _ h) (by decide)

theorem quote_notMem_toStdString (z : ℤ) : quote ∉ toStdString z := by
  have hdecimal : quote ∉ decimal z.natAbs := fun h =>
    absurd (isDigit_of_mem_decimal h) (by decide)
  unfold toStdString
  split_ifs
  · exact List.not_mem_cons_of_ne_of_not_mem (by decide) hdecimal
  · exact hdecimal

theorem calendar_format {f : ByteString} {v : YearMonthDay} {s : ByteString}
    (h : calendar.format f v = some s) : quote ∉ s := by
  unfold calendar at h
  dsimp only at h
  split_ifs at h
  rw [← Option.some.inj h]
  simp [quote_notMem_toStdString, quote_notMem_twoDigits, show quote ≠ dash by decide,
    show quote ≠ sp by decide]

theorem calendar_documented : calendar.Documented where
  date _ _ h := calendar_format h
  dateBlank _ _ h := calendar_format h
  clock v s h := by
    rw [← Option.some.inj h, clockText]
    simp [quote_notMem_twoDigits, show quote ≠ colon by decide]
  print v := by
    refine ⟨if v < 0 then [dash] else [], _, _, _, rfl, ?_, twoDigits_ne_nil _,
      twoDigits_ne_nil _, isDigit_of_mem_twoDigits, isDigit_of_mem_twoDigits⟩
    split_ifs
    · exact .inr rfl
    · exact .inl rfl

def visits : Reflected where
  table := ⟨ascii "visits", []⟩
  members :=
    [⟨ascii "id", .int, ⟨ascii "id", .primarykey, 0, .primarykey, []⟩⟩,
      ⟨ascii "name", .string, ⟨ascii "name", .text, -1, .none, []⟩⟩,
      ⟨ascii "day", .yearMonthDay, ⟨ascii "day", .date, -1, .none, []⟩⟩]

def visitValue (m : Member) : Value :=
  match m.valueType with
  | .string => .string (ascii "Ann")
  | .yearMonthDay => .yearMonthDay ⟨2024, 3, 5⟩
  | _ => .int 1

theorem encoded_iff_visits : ∃ text tss,
    List.Forall₂ (fun m => (visitValue m).Denotes) (visits.members.filter appendsValue) tss ∧
      lex (valueList visits text) = some (literalRow tss) := by
  let text := fun m => (normalizeType calendar (visitValue m)).getD []
  have htext : ∀ m ∈ visits.members.filter appendsValue,
      normalizeType calendar (visitValue m) = some (text m) := by decide +kernel
  obtain ⟨front, -, -, hiff⟩ := (encoded_iff calendar_documented).2 visits visitValue text _ htext
    rfl
  obtain ⟨-, tss, htss⟩ := hiff.mpr ⟨by decide +kernel, by decide +kernel⟩
  exact ⟨text, tss, htss⟩

/-- A string with a quote ends its literal, and what stands behind the quote is read as SQL. A
time of day has no quotes. -/
theorem quoted_text_not_encoded :
    (∃ text, normalizeType calendar (.string (ascii "x');--")) = some text ∧
      lex text = some [.string (ascii "x"), .symbol rparen, .symbol semicolon] ∧
      ¬ ∃ ts, (Value.string (ascii "x');--")).Denotes ts ∧ lex text = some ts) ∧
    ∃ text, normalizeType calendar (.timeOfDay 37230) = some text ∧ text = ascii "10:20:30" ∧
      ¬ ∃ ts, (Value.timeOfDay 37230).Denotes ts ∧ lex text = some ts := by
  constructor
  · refine ⟨_, rfl, by decide +kernel, ?_⟩
    rw [lex_normalizeType_iff calendar_documented rfl]
    decide +kernel
  · refine ⟨_, rfl, by decide +kernel, ?_⟩
    rw [lex_normalizeType_iff calendar_documented rfl]
    decide +kernel

end Webcrown.Orm
