import Webcrown.Common.Decimal

/-!
# Numbers as texts at compile time

`meta::to_string` counts the digits of a number, takes a buffer of that size and fills it
from its end. A write outside of the buffer, or a digit outside of the table, is `none`.
-/

namespace Webcrown.Common.Meta

def digits : ByteString := ascii "0123456789ABCDEFGHIJKLMNOPQRSTUVWXYZ"

/-- A base that `to_string_t` accepts: `base > 1 && base < sizeof(digits)`. -/
structure Base where
  value : ℕ
  one_lt : 1 < value
  lt_sizeof : value < digits.length + 1

def ten : Base := ⟨10, by decide, by decide⟩

namespace ToStringT

/-- `for (auto n = N; n; len++, n /= base)`. A nonzero `n` gets smaller by the division, so
`|n|` turns are enough. -/
def lengthLoop (base : Base) : ℕ → ℤ → ℕ → ℕ
  | 0, _, len => len
  | fuel + 1, n, len =>
    if n = 0 then len else lengthLoop base fuel (n.tdiv base.value) (len + 1)

def size (base : Base) (N : ℤ) : ℕ := lengthLoop base N.natAbs N (if N > 0 then 1 else 2)

/-- The pointer into the buffer, as an index, and the buffer. -/
abbrev Fill := ℕ × ByteString

def store (s : Fill) (c : UInt8) : Option Fill :=
  match s with
  | (0, _) => none
  | (ptr + 1, buf) => if ptr < buf.length then some (ptr, buf.set ptr c) else none

def digitAt (i : ℤ) : Option UInt8 := if i < 0 then none else digits[i.toNat]?

/-- `for (auto n = N; n; n /= base)` with the writes of the constructor. -/
def fillLoop (base : Base) (N : ℤ) : ℕ → ℤ → Fill → Option Fill
  | 0, _, s => some s
  | fuel + 1, n, s =>
    if n = 0 then some s
    else do
      let c ← digitAt ((if N < 0 then -1 else 1) * n.tmod base.value)
      let s ← store s c
      fillLoop base N fuel (n.tdiv base.value) s

def construct (base : Base) (N : ℤ) : Option ByteString := do
  let buf := List.replicate (size base N) 0
  let s ← store (buf.length, buf) 0
  if N ≠ 0 then
    let s ← fillLoop base N N.natAbs N s
    let s ← if N < 0 then store s dash else some s
    return s.2
  else if 0 < s.2.length then return s.2.set 0 48
  else none

end ToStringT

open ToStringT

def digit (d : ℕ) : UInt8 := digits[d]?.getD 0

/-- The digits of a number, the most significant one first. -/
def numeral (base : Base) (n : ℕ) : ByteString :=
  if n = 0 then [48] else ((Nat.digits base.value n).map digit).reverse

def text (base : Base) (z : ℤ) : ByteString :=
  (if z < 0 then [dash] else []) ++ numeral base z.natAbs

theorem digitAt_natCast {d : ℕ} (h : d < digits.length) : digitAt d = some (digit d) := by
  rw [digitAt, if_neg (by omega), Int.toNat_natCast, digit, List.getElem?_eq_getElem h,
    Option.getD_some]

theorem store_replicate (k : ℕ) (back : ByteString) (c : UInt8) :
    store (k + 1, List.replicate (k + 1) 0 ++ back) c =
      some (k, List.replicate k 0 ++ c :: back) := by
  rw [store, if_pos (by simp; omega), List.replicate_succ', List.append_assoc,
    List.singleton_append, List.set_append_right _ _ (by simp)]
  simp

section Signed

variable {s : ℤ} (hs : s = 1 ∨ s = -1)
include hs

theorem tdiv_signed (m b : ℕ) : (s * m).tdiv b = s * (m / b : ℕ) := by
  rcases hs with rfl | rfl
  · rw [one_mul, one_mul, Int.ofNat_tdiv]
  · rw [neg_one_mul, neg_one_mul, Int.neg_tdiv, Int.ofNat_tdiv]

theorem mul_tmod_signed (m b : ℕ) : s * (s * m).tmod b = (m % b : ℕ) := by
  rcases hs with rfl | rfl
  · rw [one_mul, one_mul, Int.ofNat_tmod]
  · rw [neg_one_mul, neg_one_mul, Int.neg_tmod, neg_neg, Int.ofNat_tmod]

theorem signed_eq_zero (m : ℕ) : s * m = 0 ↔ m = 0 := by
  rcases hs with rfl | rfl <;> simp

theorem lengthLoop_eq (base : Base) {fuel m : ℕ} (len : ℕ) (hfuel : m ≤ fuel) :
    lengthLoop base fuel (s * m) len = len + (Nat.digits base.value m).length := by
  induction fuel generalizing m len with
  | zero =>
    obtain rfl : m = 0 := by omega
    simp [lengthLoop]
  | succ fuel ih =>
    by_cases hm : m = 0
    · simp [lengthLoop, hm]
    · have hlt : m / base.value < m := Nat.div_lt_self (by omega) base.one_lt
      rw [lengthLoop, if_neg (by rwa [signed_eq_zero hs]), tdiv_signed hs,
        Nat.digits_def' base.one_lt (Nat.pos_of_ne_zero hm), List.length_cons,
        ih (m := m / base.value) _ (by omega)]
      omega

theorem fillLoop_eq (base : Base) {N : ℤ} (hN : (if N < 0 then -1 else 1) = s) {fuel m : ℕ}
    (k : ℕ) (back : ByteString) (hfuel : m ≤ fuel) :
    fillLoop base N fuel (s * m) (k + (Nat.digits base.value m).length,
        List.replicate (k + (Nat.digits base.value m).length) 0 ++ back) =
      some (k, List.replicate k 0 ++
        (((Nat.digits base.value m).map digit).reverse ++ back)) := by
  induction fuel generalizing m back with
  | zero =>
    obtain rfl : m = 0 := by omega
    simp [fillLoop]
  | succ fuel ih =>
    by_cases hm : m = 0
    · simp [fillLoop, hm]
    · have hlt : m / base.value < m := Nat.div_lt_self (by omega) base.one_lt
      have hdigit : m % base.value < digits.length :=
        (Nat.mod_lt m (by have := base.one_lt; omega)).trans_le
          (Nat.lt_succ_iff.mp base.lt_sizeof)
      rw [fillLoop, if_neg (by rwa [signed_eq_zero hs]), hN, mul_tmod_signed hs,
        digitAt_natCast hdigit, Nat.digits_def' base.one_lt (Nat.pos_of_ne_zero hm),
        List.length_cons, ← Nat.add_assoc]
      simp only [Option.bind_eq_bind, Option.bind_some, store_replicate]
      rw [tdiv_signed hs, ih (m := m / base.value) _ (by omega)]
      simp

end Signed

theorem size_eq (base : Base) (N : ℤ) : size base N = (text base N).length + 1 := by
  rcases lt_trichotomy N 0 with hN | rfl | hN
  · obtain ⟨m, rfl⟩ : ∃ m : ℕ, N = -1 * m := ⟨N.natAbs, by omega⟩
    have hm : m ≠ 0 := by rintro rfl; simp at hN
    rw [size, lengthLoop_eq (.inr rfl) base _ (by simp), if_neg hN.not_gt, text, if_pos hN,
      numeral, if_neg (by omega)]
    simp
    omega
  · rfl
  · obtain ⟨m, rfl⟩ : ∃ m : ℕ, N = 1 * m := ⟨N.natAbs, by omega⟩
    have hm : m ≠ 0 := by rintro rfl; simp at hN
    rw [size, lengthLoop_eq (.inl rfl) base _ (by simp), if_pos hN, text, if_neg hN.not_gt,
      numeral, if_neg (by omega)]
    simp
    omega

/-- The constructor stays in its buffer and fills all of it: with the text of the number and the
NUL behind it. -/
theorem construct_eq (base : Base) (N : ℤ) : construct base N = some (text base N ++ [0]) := by
  rcases lt_trichotomy N 0 with hN | rfl | hN
  · obtain ⟨m, rfl⟩ : ∃ m : ℕ, N = -1 * m := ⟨N.natAbs, by omega⟩
    have hm : m ≠ 0 := by rintro rfl; simp at hN
    have hsize : size base (-1 * m) = 1 + (Nat.digits base.value m).length + 1 := by
      rw [size_eq, text, if_pos hN, numeral, if_neg (by omega)]
      simp
      omega
    have hfill := fillLoop_eq (.inr rfl) base (if_pos hN) 1 [0]
      (show m ≤ (-1 * m : ℤ).natAbs by simp)
    have hopen := store_replicate (1 + (Nat.digits base.value m).length) [] 0
    have hsign := store_replicate 0 (((Nat.digits base.value m).map digit).reverse ++ [0]) dash
    rw [List.append_nil] at hopen
    rw [construct]
    simp only [List.length_replicate, hsize, hopen, Option.bind_eq_bind, Option.bind_some, hfill,
      if_pos hN, hsign, if_pos hN.ne, text, numeral]
    simp [hm]
  · rfl
  · obtain ⟨m, rfl⟩ : ∃ m : ℕ, N = 1 * m := ⟨N.natAbs, by omega⟩
    have hm : m ≠ 0 := by rintro rfl; simp at hN
    have hsize : size base (1 * m) = 0 + (Nat.digits base.value m).length + 1 := by
      rw [size_eq, text, if_neg hN.not_gt, numeral, if_neg (by omega)]
      simp
    have hfill := fillLoop_eq (.inl rfl) base (if_neg hN.not_gt) 0 [0]
      (show m ≤ (1 * m : ℤ).natAbs by simp)
    have hopen := store_replicate (0 + (Nat.digits base.value m).length) [] 0
    rw [List.append_nil] at hopen
    rw [construct]
    simp only [List.length_replicate, hsize, hopen, Option.bind_eq_bind, Option.bind_some, hfill,
      if_neg hN.not_gt, if_pos hN.ne', text, numeral]
    simp [hm]

section Reading

theorem digits_nodup : digits.Nodup := by decide

theorem digit_eq {d : ℕ} (h : d < digits.length) : digit d = digits[d] := by
  rw [digit, List.getElem?_eq_getElem h, Option.getD_some]

theorem idxOf_digit {d : ℕ} (h : d < digits.length) : digits.idxOf (digit d) = d := by
  rw [digit_eq h, digits_nodup.idxOf_getElem]

/-- The value of digits in a base. -/
def readDigits (base : Base) (s : ByteString) : ℕ :=
  Nat.ofDigits base.value (s.reverse.map fun c => digits.idxOf c)

def read (base : Base) (s : ByteString) : ℤ :=
  if s.head? = some dash then -readDigits base s.tail else readDigits base s

variable (base : Base)

theorem lt_length_of_mem {n d : ℕ} (h : d ∈ Nat.digits base.value n) : d < digits.length :=
  (Nat.digits_lt_base base.one_lt h).trans_le (Nat.lt_succ_iff.mp base.lt_sizeof)

theorem mem_numeral {n : ℕ} {c : UInt8} (h : c ∈ numeral base n) : c ∈ digits := by
  unfold numeral at h
  split_ifs at h with hn
  · obtain rfl := List.mem_singleton.mp h
    decide
  · obtain ⟨d, hd, rfl⟩ := List.mem_map.mp (List.mem_reverse.mp h)
    rw [digit_eq (lt_length_of_mem base hd)]
    exact List.getElem_mem _

theorem numeral_ne_nil (n : ℕ) : numeral base n ≠ [] := by
  unfold numeral
  split_ifs with hn
  · simp
  · simpa [Nat.digits_eq_nil_iff_eq_zero] using hn

theorem readDigits_numeral (n : ℕ) : readDigits base (numeral base n) = n := by
  unfold readDigits numeral
  split_ifs with hn
  · rw [hn]
    simp [show List.idxOf (48 : UInt8) digits = 0 by decide]
  · have hdigits : (Nat.digits base.value n).map (fun d => digits.idxOf (digit d)) =
        (Nat.digits base.value n).map id :=
      List.map_congr_left fun d hd => idxOf_digit (lt_length_of_mem base hd)
    rw [List.reverse_reverse, List.map_map]
    exact (congrArg _ (hdigits.trans (List.map_id _))).trans (Nat.ofDigits_digits _ _)

theorem read_text (z : ℤ) : read base (text base z) = z := by
  unfold read text
  split_ifs with hz hhead hhead
  · simp only [List.singleton_append, List.tail_cons, readDigits_numeral]
    omega
  · simp at hhead
  · have hmem := mem_numeral base (List.mem_of_mem_head? hhead)
    exact absurd hmem (by decide)
  · rw [List.nil_append, readDigits_numeral]
    omega

theorem head?_numeral {n : ℕ} (hn : n ≠ 0) : (numeral base n).head? ≠ some 48 := by
  rw [numeral, if_neg hn, List.head?_reverse, List.getLast?_map]
  have hne : Nat.digits base.value n ≠ [] := by rwa [Ne, Nat.digits_eq_nil_iff_eq_zero]
  have hlast := Nat.getLast_digit_ne_zero base.value hn
  have hlt := lt_length_of_mem base (List.getLast_mem hne)
  rw [List.getLast?_eq_some_getLast hne, Option.map_some, Ne, Option.some.injEq]
  intro hzero
  rw [← idxOf_digit hlt, hzero] at hlast
  exact hlast (by decide)

end Reading

theorem digit_eq_digitChar {d : ℕ} (h : d < 10) : digit d = d.digitChar.toNat.toUInt8 := by
  interval_cases d <;> decide

theorem numeral_ten (n : ℕ) : numeral ten n = decimal n := by
  rw [decimal, ascii, show toString n = n.repr from rfl, Nat.toList_repr]
  induction n using Nat.strongRecOn with
  | ind n ih =>
    rw [Nat.toDigits_eq_if (by decide)]
    by_cases hlt : n < 10
    · rw [if_pos hlt, List.map_singleton, ← digit_eq_digitChar hlt]
      interval_cases n <;> decide
    · have hdiv : n / 10 ≠ 0 := by omega
      have ih := ih (n / 10) (by omega)
      rw [if_neg hlt, List.map_append, List.map_singleton, ← ih,
        ← digit_eq_digitChar (Nat.mod_lt n (by decide))]
      simp only [numeral, ten, if_neg hdiv, if_neg (show n ≠ 0 by omega)]
      rw [Nat.digits_def' (by decide) (by omega), List.map_cons, List.reverse_cons]

theorem text_ten (z : ℤ) : text ten z = toStdString z := by
  rw [text, toStdString, numeral_ten]
  split_ifs <;> rfl

/-- In every base the constructor stays in its buffer and fills all of it, with a text that is
read as the number, has no needless zero and ends at the NUL. In base ten it is the text of
`std::to_string`. -/
theorem constructed_text (base : Base) (N : ℤ) :
    ∃ s, construct base N = some (s ++ [0]) ∧ size base N = s.length + 1 ∧ 0 ∉ s ∧
      read base s = N ∧ (N ≠ 0 → (s.dropWhile (· == dash)).head? ≠ some 48) ∧
      (base.value = 10 → s = toStdString N) := by
  refine ⟨text base N, construct_eq base N, size_eq base N, ?_, read_text base N, ?_, ?_⟩
  · intro hmem
    rcases List.mem_append.mp hmem with hmem | hmem
    · split_ifs at hmem <;> simp [dash] at hmem
    · exact absurd (mem_numeral base hmem) (by decide)
  · intro hN
    have hdrop : (numeral base N.natAbs).dropWhile (· == dash) = numeral base N.natAbs := by
      obtain ⟨c, t, hct⟩ := List.exists_cons_of_ne_nil (numeral_ne_nil base N.natAbs)
      rw [hct, List.dropWhile_cons_of_neg]
      simp only [beq_iff_eq]
      rintro rfl
      exact absurd (mem_numeral base (n := N.natAbs) (c := dash) (by simp [hct])) (by decide)
    have htext : (text base N).dropWhile (· == dash) = numeral base N.natAbs := by
      unfold text
      split_ifs
      · rw [List.singleton_append, List.dropWhile_cons_of_pos (by simp), hdrop]
      · rw [List.nil_append, hdrop]
    rw [htext]
    exact head?_numeral base (by omega)
  · intro hten
    obtain ⟨value, one_lt, lt_sizeof⟩ := base
    obtain rfl : value = 10 := hten
    exact text_ten N

example : construct ⟨16, by decide, by decide⟩ (-255) = some (ascii "-FF" ++ [0]) := by decide

end Webcrown.Common.Meta
