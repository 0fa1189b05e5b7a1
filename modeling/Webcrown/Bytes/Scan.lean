import Mathlib

/-!
# Scanning loops over addressed memory

A pointer loop `for (; it < last; ++it) if (stop) break;` is the first position
from `it` on at which the test holds, or `last`. Memory is a total function on
positions, so that a look-ahead past `last` has a value, and `slice` turns the
cells of a half-open range into a list.
-/

namespace Webcrown.Bytes

variable {α : Type*}

/-- The cells of `[first, last)`, in order; empty when `last ≤ first`. -/
def slice (m : ℕ → α) (first last : ℕ) : List α :=
  (List.range (last - first)).map fun k => m (first + k)

@[simp] theorem length_slice (m : ℕ → α) (i j : ℕ) : (slice m i j).length = j - i := by
  simp [slice]

theorem slice_of_le (m : ℕ → α) {i j : ℕ} (h : j ≤ i) : slice m i j = [] := by
  simp [slice, Nat.sub_eq_zero_of_le h]

@[simp] theorem slice_self (m : ℕ → α) (i : ℕ) : slice m i i = [] :=
  slice_of_le m le_rfl

theorem slice_cons (m : ℕ → α) {i j : ℕ} (h : i < j) :
    slice m i j = m i :: slice m (i + 1) j := by
  obtain ⟨n, rfl⟩ : ∃ n, j = i + (n + 1) := ⟨j - i - 1, by omega⟩
  have hn : i + (n + 1) - (i + 1) = n := by omega
  simp only [slice, Nat.add_sub_cancel_left, hn, List.range_succ_eq_map, List.map_cons,
    Nat.add_zero, List.map_map, Function.comp_def]
  simp only [Nat.succ_eq_add_one, List.cons.injEq, true_and]
  exact List.map_congr_left fun k _ => by rw [Nat.add_assoc, Nat.add_comm 1 k]

theorem slice_append (m : ℕ → α) {i p j : ℕ} (hip : i ≤ p) (hpj : p ≤ j) :
    slice m i p ++ slice m p j = slice m i j := by
  induction h : p - i generalizing i with
  | zero =>
    have hi : i = p := by omega
    simp [hi]
  | succ n ih =>
    rw [slice_cons m (show i < p by omega), slice_cons m (show i < j by omega), List.cons_append,
      ih (by omega) (by omega)]

theorem mem_slice {m : ℕ → α} {i j : ℕ} {a : α} :
    a ∈ slice m i j ↔ ∃ k, i ≤ k ∧ k < j ∧ m k = a := by
  simp only [slice, List.mem_map, List.mem_range]
  constructor
  · rintro ⟨k, hk, rfl⟩
    exact ⟨i + k, by omega, by omega, rfl⟩
  · rintro ⟨k, hik, hkj, rfl⟩
    exact ⟨k - i, by omega, by congr 1; omega⟩

theorem getElem_slice (m : ℕ → α) {i j k : ℕ} (h : k < (slice m i j).length) :
    (slice m i j)[k] = m (i + k) := by
  simp [slice]

theorem drop_slice (m : ℕ → α) (i j k : ℕ) : (slice m i j).drop k = slice m (i + k) j := by
  rcases le_total (i + k) j with h | h
  · have hs := slice_append m (show i ≤ i + k by omega) h
    rw [← hs, List.drop_append_of_le_length (by simp), List.drop_of_length_le (by simp)]
    rfl
  · rw [slice_of_le m h, List.drop_of_length_le (by simp; omega)]

theorem take_slice (m : ℕ → α) {i j k : ℕ} (h : i + k ≤ j) :
    (slice m i j).take k = slice m i (i + k) := by
  have hs := slice_append m (show i ≤ i + k by omega) h
  rw [← hs, List.take_append_of_le_length (by simp), List.take_of_length_le (by simp)]

theorem slice_eq_append {m : ℕ → α} {i j : ℕ} {s t : List α} (h : slice m i j = s ++ t) :
    slice m i (i + s.length) = s ∧ slice m (i + s.length) j = t := by
  have hl := congrArg List.length h
  simp only [length_slice, List.length_append] at hl
  rcases Nat.eq_zero_or_pos s.length with hs | hs
  · have hs' : s = [] := List.eq_nil_of_length_eq_zero hs
    subst hs'
    simpa using h
  · have hk : i + s.length ≤ j := by omega
    rw [← take_slice m hk, ← drop_slice m i j s.length, h]
    simp

theorem slice_suffix {m : ℕ → α} {i j : ℕ} {s t : List α} (h : slice m i j = s ++ t) :
    slice m (j - t.length) j = t := by
  have hl := congrArg List.length h
  have ht := (slice_eq_append h).2
  simp only [length_slice, List.length_append] at hl
  rcases Nat.lt_or_ge (i + s.length) j with hlt | hge
  · rwa [show j - t.length = i + s.length by omega]
  · have hnil : t = [] := by rw [← ht, slice_of_le m hge]
    subst hnil
    simp

theorem slice_eq_cons {m : ℕ → α} {i j : ℕ} {a : α} {t : List α} (h : slice m i j = a :: t) :
    i < j ∧ m i = a ∧ slice m (i + 1) j = t := by
  have hl := congrArg List.length h
  simp only [length_slice, List.length_cons] at hl
  have hij : i < j := by omega
  rw [slice_cons m hij] at h
  exact ⟨hij, by simpa using h⟩

theorem slice_congr {m m' : ℕ → α} {i j : ℕ} (h : ∀ k, i ≤ k → k < j → m k = m' k) :
    slice m i j = slice m' i j := by
  simp only [slice]
  apply List.map_congr_left
  intro k hk
  have := List.mem_range.mp hk
  exact h _ (by omega) (by omega)

/-- The loop on `fuel` more positions. -/
def scanFuel (stop : ℕ → Bool) : ℕ → ℕ → ℕ
  | 0, it => it
  | fuel + 1, it => if stop it then it else scanFuel stop fuel (it + 1)

/-- `for (; it < last; ++it) if (stop it) break;`, as the value of `it` after it. -/
def scan (stop : ℕ → Bool) (last it : ℕ) : ℕ :=
  scanFuel stop (last - it) it

section Scan

variable {stop : ℕ → Bool} {last it : ℕ}

theorem scan_of_le (h : last ≤ it) : scan stop last it = it := by
  simp [scan, Nat.sub_eq_zero_of_le h, scanFuel]

theorem scan_of_lt (h : it < last) :
    scan stop last it = if stop it then it else scan stop last (it + 1) := by
  have hf : last - it = last - (it + 1) + 1 := by omega
  simp only [scan]
  rw [hf, scanFuel]

theorem le_scan : it ≤ scan stop last it := by
  induction h : last - it generalizing it with
  | zero => rw [scan_of_le (by omega)]
  | succ n ih =>
    rw [scan_of_lt (by omega)]
    split_ifs
    · exact le_rfl
    · exact (Nat.le_succ it).trans (ih (by omega))

theorem scan_le (h : it ≤ last) : scan stop last it ≤ last := by
  induction hn : last - it generalizing it with
  | zero => rw [scan_of_le (by omega)]; exact h
  | succ n ih =>
    rw [scan_of_lt (by omega)]
    split_ifs
    · exact h
    · exact ih (by omega) (by omega)

theorem not_stop_of_lt_scan {k : ℕ} (hk : it ≤ k) (h : k < scan stop last it) :
    stop k = false := by
  induction hn : last - it generalizing it with
  | zero => rw [scan_of_le (by omega)] at h; omega
  | succ n ih =>
    rw [scan_of_lt (by omega)] at h
    split_ifs at h with hs
    · omega
    · rcases Nat.eq_or_lt_of_le hk with rfl | hlt
      · simpa using hs
      · exact ih hlt h (by omega)

theorem exists_not_stop_of_mem_slice_scan {m : ℕ → α} {a : α}
    (h : a ∈ slice m it (scan stop last it)) : ∃ k, m k = a ∧ stop k = false := by
  obtain ⟨k, hk, hkp, hm⟩ := mem_slice.mp h
  exact ⟨k, hm, not_stop_of_lt_scan hk hkp⟩

theorem stop_scan (h : scan stop last it < last) : stop (scan stop last it) = true := by
  induction hn : last - it generalizing it with
  | zero => rw [scan_of_le (by omega)] at h; omega
  | succ n ih =>
    have hlt : it < last := by omega
    rw [scan_of_lt hlt] at h ⊢
    split_ifs at h ⊢ with hs
    · exact hs
    · exact ih h (by omega)

theorem scan_eq {p : ℕ} (hp : it ≤ p) (hl : p < last) (hs : stop p = true)
    (hn : ∀ k, it ≤ k → k < p → stop k = false) : scan stop last it = p := by
  rcases lt_trichotomy (scan stop last it) p with h | h | h
  · have := stop_scan (h.trans hl)
    rw [hn _ le_scan h] at this
    cases this
  · exact h
  · rw [not_stop_of_lt_scan hp h] at hs
    cases hs

theorem scan_eq_last (hl : it ≤ last) (hn : ∀ k, it ≤ k → k < last → stop k = false) :
    scan stop last it = last := by
  rcases Nat.lt_or_ge (scan stop last it) last with h | h
  · have := stop_scan h
    rw [hn _ le_scan h] at this
    cases this
  · exact Nat.le_antisymm (scan_le hl) h

theorem scan_congr {stop' : ℕ → Bool} (h : ∀ k, it ≤ k → k < last → stop k = stop' k) :
    scan stop last it = scan stop' last it := by
  induction hn : last - it generalizing it with
  | zero => rw [scan_of_le (by omega), scan_of_le (by omega)]
  | succ n ih =>
    have hlt : it < last := by omega
    rw [scan_of_lt hlt, scan_of_lt hlt, h it le_rfl hlt,
      ih (fun k hk => h k (by omega)) (by omega)]

end Scan

section CellTest

variable {m : ℕ → α} {f : α → Bool} {last it : ℕ}

/-- A loop whose test looks at the current cell only passes over the longest
prefix of failing cells. -/
theorem slice_scan (h : it ≤ last) :
    slice m it (scan (fun k => f (m k)) last it) = (slice m it last).takeWhile fun a => !f a := by
  induction hn : last - it generalizing it with
  | zero =>
    rw [scan_of_le (by omega), slice_self, slice_of_le m (by omega)]
    rfl
  | succ n ih =>
    have hlt : it < last := by omega
    rw [scan_of_lt hlt, slice_cons m hlt, List.takeWhile_cons]
    cases hf : f (m it) with
    | true => simp
    | false =>
      have hle : it + 1 ≤ scan (fun k => f (m k)) last (it + 1) := le_scan
      simp only [Bool.false_eq_true, if_false, Bool.not_false, if_true]
      rw [slice_cons m (by omega), ih (by omega) (by omega)]

theorem slice_scan_last (h : it ≤ last) :
    slice m (scan (fun k => f (m k)) last it) last =
      (slice m it last).dropWhile fun a => !f a := by
  have hfirst := slice_scan (m := m) (f := f) h
  have hsplit := slice_append m (@le_scan (fun k => f (m k)) last it)
    (scan_le h)
  rw [hfirst] at hsplit
  exact List.append_cancel_left
    (hsplit.trans (List.takeWhile_append_dropWhile (p := fun a => !f a)).symm)

theorem scan_of_slice {s t : List α} (h : it ≤ last) (hst : slice m it last = s ++ t)
    (hs : ∀ a ∈ s, f a = false) (ht : ∀ a, t.head? = some a → f a = true) :
    scan (fun k => f (m k)) last it = it + s.length := by
  have hl := congrArg List.length hst
  simp only [length_slice, List.length_append] at hl
  obtain ⟨hs', ht'⟩ := slice_eq_append hst
  have hskip : ∀ k, it ≤ k → k < it + s.length → f (m k) = false := by
    intro k hk hks
    apply hs
    rw [← hs']
    exact mem_slice.mpr ⟨k, hk, hks, rfl⟩
  cases t with
  | nil =>
    have hle : it + s.length = last := by simp at hl; omega
    rw [hle]
    exact scan_eq_last h fun k hk hks => hskip k hk (by omega)
  | cons a t =>
    obtain ⟨hlt, ha, -⟩ := slice_eq_cons ht'
    exact scan_eq (by omega) hlt (by rw [ha]; exact ht a rfl) hskip

end CellTest

end Webcrown.Bytes
