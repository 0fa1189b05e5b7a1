import Webcrown.Common.Decimal
import Webcrown.Sql.Rows

/-!
# Values as SQL texts

`normalize_type` of the types of members other than the floating ones. The library
`date` is a parameter. Its formatting functions throw on a date that does not exist;
the text is then `none`.
-/

namespace Webcrown.Orm

open Common Sql

structure YearMonthDay where
  year : ℤ
  month : ℕ
  day : ℕ
  deriving DecidableEq

/-- `date_time`, the time point in nanoseconds since the epoch. -/
structure DateTime where
  ymd : YearMonthDay
  timepoint : ℤ
  deriving DecidableEq

/-- The functions of the library `date` that write a value: `date::format` of a date and of a
time point, the days of `date::sys_days` and the output of a time of day. -/
structure DateLibrary where
  format : ByteString → YearMonthDay → Option ByteString
  formatTime : ByteString → ℤ → Option ByteString
  sysDays : YearMonthDay → ℤ
  print : ℤ → ByteString

def DateTime.str (lib : DateLibrary) (v : DateTime) : Option ByteString :=
  let time := v.timepoint - lib.sysDays v.ymd * (86400 * 10 ^ 9)
  (lib.format (ascii "%Y-%m-%d ") v.ymd).bind fun date =>
    (lib.formatTime (ascii "%X") time).map fun clock => date ++ clock

/-- The values of members, by the overload of `normalize_type` that takes them. -/
inductive Value
  | int (v : ℤ)
  | yearMonthDay (v : YearMonthDay)
  | timeOfDay (seconds : ℤ)
  | bool (v : Bool)
  | dateTime (v : DateTime)
  | long (v : ℤ)
  | short (v : ℤ)
  | string (v : ByteString)
  deriving DecidableEq

def normalizeType (lib : DateLibrary) : Value → Option ByteString
  | .int v => some (toStdString v)
  | .yearMonthDay v => (lib.format (ascii "%Y-%m-%d") v).map fun s => ascii "'" ++ s ++ ascii "'"
  | .timeOfDay v => some (lib.print v)
  | .bool v => some (if v then ascii "true" else ascii "false")
  | .dateTime v => (v.str lib).map fun s => ascii "'" ++ s ++ ascii "'"
  | .long v => some (toStdString v)
  | .short v => some (toStdString v)
  | .string v => some (ascii "'" ++ v ++ ascii "'")

/-- What the library's documentation says of the texts: digits, signs and separators for dates
and times, and hours, minutes and seconds with colons between them for a time of day, which may
be negative. -/
structure DateLibrary.Documented (lib : DateLibrary) : Prop where
  date : ∀ v s, lib.format (ascii "%Y-%m-%d") v = some s → quote ∉ s
  dateBlank : ∀ v s, lib.format (ascii "%Y-%m-%d ") v = some s → quote ∉ s
  clock : ∀ v s, lib.formatTime (ascii "%X") v = some s → quote ∉ s
  print : ∀ v, ∃ sign h m s, lib.print v = sign ++ (h ++ colon :: (m ++ colon :: s)) ∧
    (sign = [] ∨ sign = [minus]) ∧ h ≠ [] ∧ m ≠ [] ∧
    (∀ c ∈ h, Sql.isDigit c = true) ∧ ∀ c ∈ m, Sql.isDigit c = true

namespace Value

/-- The tokens of a value: one literal, and for a string the literal of that string. -/
def Denotes : Value → List Token → Prop
  | .string v, ts => ts = [.string v]
  | _, ts => OneLiteral ts

/-- A value that is no time of day and no string with a quote in it. -/
def Plain : Value → Prop
  | .timeOfDay _ => False
  | .string v => quote ∉ v
  | _ => True

instance : DecidablePred Plain
  | .timeOfDay _ => isFalse id
  | .string v => inferInstanceAs (Decidable (quote ∉ v))
  | .int _ | .yearMonthDay _ | .bool _ | .dateTime _ | .long _ | .short _ => isTrue trivial

theorem Denotes.oneLiteral {v : Value} {ts : List Token} (h : v.Denotes ts) : OneLiteral ts := by
  cases v with
  | string v => exact .inl ⟨v, h⟩
  | _ => exact h

end Value

theorem isDigit_of_isDigit {c : UInt8} (h : Common.isDigit c = true) :
    Sql.isDigit c = true := by
  revert h
  exact forall_byte (P := fun c => Common.isDigit c = true → Sql.isDigit c = true)
    (by decide +kernel) c

theorem lex_toStdString (z : ℤ) {r : Text} (hr : EndsLiteral r) :
    ∃ ts, OneLiteral ts ∧ lex (toStdString z ++ r) = (lex r).map (ts ++ ·) := by
  have hdigits : ∀ c ∈ decimal z.natAbs, Sql.isDigit c = true := fun _ hc =>
    isDigit_of_isDigit (isDigit_of_mem_decimal hc)
  have hnumber := lex_digits (decimal_ne_nil z.natAbs) hdigits hr
  unfold toStdString
  split_ifs with hz
  · refine ⟨[.symbol minus, .number (decimal z.natAbs)], .inr (.inl ⟨_, .inr (.inl rfl)⟩), ?_⟩
    rw [List.cons_append]
    change lex (minus :: (decimal z.natAbs ++ r)) = _
    rw [lex_minus r (decimal_ne_nil _) hdigits, hnumber, Option.map_map]
    rfl
  · exact ⟨[.number (decimal z.natAbs)], .inr (.inl ⟨_, .inl rfl⟩), hnumber⟩

theorem quoted_append (v r : ByteString) :
    ascii "'" ++ v ++ ascii "'" ++ r = quote :: (v ++ quote :: r) := by
  rw [show ascii "'" = [quote] by decide]
  simp

theorem lex_normalizeType {lib : DateLibrary} (hlib : lib.Documented) {v : Value}
    {text : ByteString} (h : normalizeType lib v = some text) (hv : v.Plain) {r : Text}
    (hr : EndsLiteral r) : ∃ ts, v.Denotes ts ∧ lex (text ++ r) = (lex r).map (ts ++ ·) := by
  have hquoted : ∀ s, quote ∉ s → ascii "'" ++ s ++ ascii "'" = text →
      lex (text ++ r) = (lex r).map ([Token.string s] ++ ·) := by
    rintro s hs rfl
    rw [quoted_append, lex_quoted hs hr]
  cases v with
  | int v | long v | short v =>
    obtain rfl := Option.some.inj h
    exact lex_toStdString v hr
  | bool v =>
    obtain rfl := Option.some.inj h
    exact lex_boolean v hr
  | timeOfDay v => exact hv.elim
  | string v =>
    exact ⟨_, rfl, hquoted v hv (Option.some.inj h)⟩
  | yearMonthDay v =>
    obtain ⟨s, hs, htext⟩ := Option.map_eq_some_iff.mp h
    exact ⟨_, .inl ⟨s, rfl⟩, hquoted s (hlib.date v s hs) htext⟩
  | dateTime v =>
    obtain ⟨s, hs, htext⟩ := Option.map_eq_some_iff.mp h
    obtain ⟨date, hdate, htime⟩ := Option.bind_eq_some_iff.mp hs
    obtain ⟨clock, hclock, rfl⟩ := Option.map_eq_some_iff.mp htime
    refine ⟨_, .inl ⟨date ++ clock, rfl⟩, hquoted _ ?_ htext⟩
    rw [List.mem_append, not_or]
    exact ⟨hlib.dateBlank _ _ hdate, hlib.clock _ _ hclock⟩

/-- Any other value is not: a string with a quote is not read as itself, and a colon stands
where the number that a time of day begins with would have ended. -/
theorem lex_normalizeType_ne {lib : DateLibrary} (hlib : lib.Documented) {v : Value}
    {text : ByteString} (h : normalizeType lib v = some text) (hv : ¬ v.Plain)
    {ts : List Token} (hts : v.Denotes ts) (rest : List Token)
    (hrest : ∀ t, rest.head? = some t → isSeparator t = true) (r : Text)
    (hr : r.head? = some comma ∨ quote ∉ r) : lex (text ++ r) ≠ some (ts ++ rest) := by
  cases v with
  | string v =>
    obtain rfl := Option.some.inj h
    obtain rfl : ts = [.string v] := hts
    intro hlex
    rw [quoted_append] at hlex
    exact hv (quote_notMem_of_lex hlex hr)
  | timeOfDay v =>
    obtain rfl := Option.some.inj h
    obtain ⟨sign, hour, m, s, hprint, hsign, hne, hmne, hhour, hm⟩ := hlib.print v
    rw [hprint]
    have hclock := lex_clock_ne hsign hne hhour hmne hm (colon :: s ++ r) hts hrest
    simpa [colon] using hclock
  | int v | yearMonthDay v | bool v | dateTime v | long v | short v => exact absurd trivial hv

theorem lex_normalizeType_iff {lib : DateLibrary} (hlib : lib.Documented) {v : Value}
    {text : ByteString} (h : normalizeType lib v = some text) :
    (∃ ts, v.Denotes ts ∧ lex text = some ts) ↔ v.Plain := by
  constructor
  · rintro ⟨ts, hts, hlex⟩
    by_contra hv
    have hne := lex_normalizeType_ne hlib h hv hts [] (by simp) [] (by simp)
    rw [List.append_nil, List.append_nil] at hne
    exact hne hlex
  · intro hv
    obtain ⟨ts, hts, hlex⟩ := lex_normalizeType hlib h hv endsLiteral_nil
    exact ⟨ts, hts, by simpa using hlex⟩

end Webcrown.Orm
