import Webcrown.Bytes.Search

/-!
# Byte strings and the C character and number functions

A `std::string` is the list of its bytes. The character classes are those of the
C locale, `atoi` is `(int) strtol(s, nullptr, 10)`, and the string utilities are
the ones the HTTP parser calls.
-/

namespace Webcrown.Common

open Bytes

abbrev ByteString := List UInt8

/-- The bytes of a literal of the source. -/
def ascii (s : String) : ByteString :=
  s.toList.map fun c => c.toNat.toUInt8

def cr : UInt8 := 13
def lf : UInt8 := 10
def sp : UInt8 := 32
def tab : UInt8 := 9
def colon : UInt8 := 58
def dash : UInt8 := 45

def crlf : ByteString := [cr, lf]

/-- A property of every byte is decided by running through the 256 of them. -/
theorem forall_byte {P : UInt8 → Prop} (h : ∀ n : Fin 256, P (UInt8.ofNat n.val)) (c : UInt8) :
    P c := by
  have hc := h ⟨c.toNat, c.toNat_lt⟩
  simpa using hc

def isSpace (c : UInt8) : Bool := c == 32 || (9 ≤ c && c ≤ 13)

def isAlpha (c : UInt8) : Bool := (65 ≤ c && c ≤ 90) || (97 ≤ c && c ≤ 122)

def isPrint (c : UInt8) : Bool := 32 ≤ c && c ≤ 126

theorem isPrint_cr : isPrint cr = false := by decide
theorem isPrint_lf : isPrint lf = false := by decide
theorem isPrint_tab : isPrint tab = false := by decide

def toLowerInternal (c : UInt8) : UInt8 := if 65 ≤ c && c ≤ 90 then c + 32 else c

def toLower (s : ByteString) : ByteString := s.map toLowerInternal

/-- The loop of `string_utils::split` from `posLast` on. Every turn but the last
moves past one delimiter, so `str.size() + 1` turns are enough. -/
def splitLoop (str : ByteString) (delimiter : UInt8) (skipEmpty : Bool) :
    ℕ → ℕ → List ByteString
  | 0, _ => []
  | fuel + 1, posLast =>
    let posCurrent := scan (fun k => str[k]?.getD 0 == delimiter) str.length posLast
    let length := posCurrent - posLast
    let token := (str.drop posLast).take length
    let tokens := if !skipEmpty || length != 0 then [token] else []
    if posCurrent = str.length then tokens
    else tokens ++ splitLoop str delimiter skipEmpty fuel (posCurrent + 1)

def split (str : ByteString) (delimiter : UInt8) (skipEmpty : Bool) : List ByteString :=
  splitLoop str delimiter skipEmpty (str.length + 1) 0

theorem slice_getElem? (s : ByteString) : slice (fun k => s[k]?.getD 0) 0 s.length = s := by
  apply List.ext_getElem (by simp)
  intro k hk hk'
  rw [getElem_slice]
  simp [hk']

theorem head?_split (s : ByteString) (d : UInt8) :
    (split s d false).head? = some (s.takeWhile (· != d)) := by
  have hscan := slice_scan (m := fun k => s[k]?.getD 0) (f := (· == d)) (Nat.zero_le s.length)
  have hle : scan (fun k => s[k]?.getD 0 == d) s.length 0 ≤ s.length := scan_le (Nat.zero_le _)
  have htake := take_slice (fun k => s[k]?.getD 0) ((Nat.zero_add _).trans_le hle)
  rw [slice_getElem?, Nat.zero_add, hscan, slice_getElem?] at htake
  simp only [split, splitLoop, Nat.sub_zero, List.drop_zero, Bool.not_false, Bool.true_or, if_true]
  split_ifs <;> simp [htake, bne]

/-- `static_cast<unsigned char>(c - '0') < 10`, as `detail::is_digit` tests it. -/
def isDigit (c : UInt8) : Bool := c - 48 < 10

/-- The value of a digit string read after a prefix of value `acc`. -/
def digitsValue (acc : ℕ) (s : ByteString) : ℕ :=
  s.foldl (fun v c => 10 * v + (c.toNat - 48)) acc

/-- `std::strtol(s, nullptr, 10)`, which saturates at the bounds of a 64-bit `long`. -/
def strtol (s : ByteString) : ℤ :=
  let s := s.dropWhile isSpace
  let negative := s.head? == some dash
  let s := if negative || s.head? == some 43 then s.drop 1 else s
  let n : ℤ := digitsValue 0 (s.takeWhile isDigit)
  max (-2 ^ 63) (min (if negative then -n else n) (2 ^ 63 - 1))

/-- `std::atoi`: the `long` converted to `int`. -/
def atoi (s : ByteString) : ℤ := Int.bmod (strtol s) (2 ^ 32)

/-- A decimal numeral of `n`: digits only, at least one of them. -/
def IsNumeral (s : ByteString) (n : ℕ) : Prop :=
  s ≠ [] ∧ (∀ c ∈ s, isDigit c = true) ∧ digitsValue 0 s = n

instance (s : ByteString) (n : ℕ) : Decidable (IsNumeral s n) :=
  inferInstanceAs (Decidable (s ≠ [] ∧ (∀ c ∈ s, isDigit c = true) ∧ digitsValue 0 s = n))

theorem strtol_numeral {s : ByteString} {n : ℕ} (h : IsNumeral s n) :
    strtol s = min (n : ℤ) (2 ^ 63 - 1) := by
  obtain ⟨hne, hd, hv⟩ := h
  obtain ⟨c, t, rfl⟩ := List.exists_cons_of_ne_nil hne
  have hc : isDigit c = true := hd c (by simp)
  have hspace : isSpace c = false := by
    revert hc
    exact forall_byte (P := fun c => isDigit c = true → isSpace c = false) (by decide +kernel) c
  have hdash : c ≠ dash := by rintro rfl; exact absurd hc (by decide)
  have hplus : c ≠ 43 := by rintro rfl; exact absurd hc (by decide)
  have htake : (c :: t).takeWhile isDigit = c :: t := by
    rw [List.takeWhile_eq_self_iff]
    exact hd
  have hdrop : (c :: t).dropWhile isSpace = c :: t := by simp [hspace]
  have hsign : (some c == some dash) = false ∧ (some c == some 43) = false := by
    simp [hdash, hplus]
  simp only [strtol, hdrop, List.head?_cons, hsign, Bool.or_self, Bool.false_eq_true, if_false,
    htake, hv]
  omega

/-- The `int` that `atoi` makes of a numeral of `n`. -/
def numeralInt (n : ℕ) : ℤ := Int.bmod (min (n : ℤ) (2 ^ 63 - 1)) (2 ^ 32)

theorem atoi_numeral {s : ByteString} {n : ℕ} (h : IsNumeral s n) : atoi s = numeralInt n := by
  rw [atoi, strtol_numeral h, numeralInt]

theorem numeralInt_of_lt {n : ℕ} (h : n < 2 ^ 31) : numeralInt n = n := by
  rw [numeralInt, min_eq_left (by omega)]
  exact Int.bmod_eq_of_le (by omega) (by omega)

end Webcrown.Common
