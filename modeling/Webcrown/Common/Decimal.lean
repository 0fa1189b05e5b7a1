import Webcrown.Common.StringUtils

/-!
# Decimal numbers in texts

`std::to_string` of an integer, as the bytes of Lean's own decimal text of it.
-/

namespace Webcrown.Common

/-- The decimal text of a natural number. -/
def decimal (n : ℕ) : ByteString := ascii (toString n)

/-- `std::to_string` of a signed integer. -/
def toStdString (z : ℤ) : ByteString := if z < 0 then dash :: decimal z.natAbs else decimal z.natAbs

theorem isDigit_of_mem_decimal {n : ℕ} {c : UInt8} (h : c ∈ decimal n) : isDigit c = true := by
  rw [decimal, ascii, show toString n = n.repr from rfl, Nat.toList_repr] at h
  obtain ⟨d, hd, rfl⟩ := List.mem_map.mp h
  have hdigit := Nat.isDigit_of_mem_toDigits (by decide) (by decide) hd
  simp only [Char.isDigit, Bool.and_eq_true, decide_eq_true_eq] at hdigit
  have hlow : 48 ≤ d.toNat := UInt32.le_iff_toNat_le.mp hdigit.1
  have hhigh : d.toNat ≤ 57 := UInt32.le_iff_toNat_le.mp hdigit.2
  generalize d.toNat = k at hlow hhigh
  interval_cases k <;> decide

theorem decimal_ne_nil (n : ℕ) : decimal n ≠ [] := by
  rw [decimal, ascii, show toString n = n.repr from rfl, Nat.toList_repr, ne_eq,
    List.map_eq_nil_iff]
  exact Nat.toDigits_ne_nil

theorem isNumeral_decimal (n : ℕ) : IsNumeral (decimal n) n := by
  refine ⟨decimal_ne_nil n, fun _ => isDigit_of_mem_decimal, ?_⟩
  have hdigits : ∀ v : ℕ, ∀ c ∈ Nat.toDigits 10 n,
      10 * v + (c.toNat.toUInt8.toNat - 48) = 10 * v + (c.toNat - '0'.toNat) := by
    intro v c hc
    have hdigit := Nat.isDigit_of_mem_toDigits (by decide) (by decide) hc
    simp only [Char.isDigit, Bool.and_eq_true, decide_eq_true_eq] at hdigit
    have hhigh : c.toNat ≤ 57 := UInt32.le_iff_toNat_le.mp hdigit.2
    have hbyte : c.toNat.toUInt8.toNat = c.toNat := by
      rw [Nat.toUInt8, UInt8.toNat_ofNat']
      omega
    rw [hbyte]
    rfl
  rw [digitsValue, decimal, ascii, show toString n = n.repr from rfl, Nat.toList_repr,
    List.foldl_map, List.foldl_ext _ _ 0 hdigits]
  exact Nat.ofDigitChars_ten_toDigits

theorem decimal_injective : Function.Injective decimal := by
  intro n k h
  have hn := (isNumeral_decimal n).2.2
  rw [h, (isNumeral_decimal k).2.2] at hn
  exact hn.symm

/-- `strtol` undoes `std::to_string` on the values of a `long`. -/
theorem strtol_toStdString {z : ℤ} (h : -2 ^ 63 ≤ z ∧ z < 2 ^ 63) : strtol (toStdString z) = z := by
  unfold toStdString
  split_ifs with hz
  · have hspace : (dash :: decimal z.natAbs).dropWhile isSpace = dash :: decimal z.natAbs := by
      rw [List.dropWhile_cons, if_neg (by decide)]
    have htake : (decimal z.natAbs).takeWhile isDigit = decimal z.natAbs :=
      List.takeWhile_eq_self_iff.mpr fun _ => isDigit_of_mem_decimal
    simp only [strtol, hspace, List.head?_cons, beq_self_eq_true, Bool.true_or, if_true,
      List.drop_succ_cons, List.drop_zero, htake, (isNumeral_decimal z.natAbs).2.2]
    omega
  · rw [strtol_numeral (isNumeral_decimal z.natAbs)]
    omega

theorem isPrint_of_isDigit {c : UInt8} (h : isDigit c = true) : isPrint c = true ∧ c ≠ sp := by
  revert h
  exact forall_byte (P := fun c => isDigit c = true → isPrint c = true ∧ c ≠ sp)
    (by decide +kernel) c

theorem print_decimal (n : ℕ) :
    (∀ c ∈ decimal n, isPrint c = true) ∧ (decimal n).head? ≠ some sp := by
  refine ⟨fun c hc => (isPrint_of_isDigit (isDigit_of_mem_decimal hc)).1, fun hsp => ?_⟩
  have hmem : sp ∈ decimal n := List.mem_of_mem_head? hsp
  exact (isPrint_of_isDigit (isDigit_of_mem_decimal hmem)).2 rfl

end Webcrown.Common
