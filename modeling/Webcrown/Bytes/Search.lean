import Webcrown.Bytes.Scan

/-!
# The first occurrence of a pattern

`find pat s` is the least offset at which `pat` stands in `s`, as a substring
search of a standard library returns it. The results locate it from a split of
the text, and read an occurrence in addressed memory as one in a slice.
-/

namespace Webcrown.Bytes

variable {α : Type*}

section Find

variable [DecidableEq α]

def find (pat : List α) : List α → Option ℕ
  | [] => if pat = [] then some 0 else none
  | a :: s => if pat <+: a :: s then some 0 else (find pat s).map (· + 1)

theorem find_of_startsWith {pat s : List α} (h : pat <+: s) : find pat s = some 0 := by
  cases s with
  | nil => simp [find, List.prefix_nil.mp h]
  | cons a s => rw [find, if_pos h]

theorem find_cons_of_not_startsWith {pat s : List α} {a : α} (h : ¬ pat <+: a :: s) :
    find pat (a :: s) = (find pat s).map (· + 1) := by
  rw [find, if_neg h]

/-- What a successful search says: an occurrence, and none before it. -/
theorem find_spec {pat s : List α} {i : ℕ} (h : find pat s = some i) :
    (∃ x y, s = x ++ pat ++ y ∧ x.length = i) ∧ ∀ j < i, ¬ pat <+: s.drop j := by
  induction s generalizing i with
  | nil =>
    simp only [find] at h
    split_ifs at h with hp
    simp only [Option.some.injEq] at h
    subst h
    exact ⟨⟨[], [], by simp [hp], rfl⟩, by simp⟩
  | cons a s ih =>
    by_cases hp : pat <+: a :: s
    · rw [find_of_startsWith hp, Option.some.injEq] at h
      subst h
      obtain ⟨y, hy⟩ := hp
      exact ⟨⟨[], y, by simp [hy], rfl⟩, by simp⟩
    · rw [find_cons_of_not_startsWith hp] at h
      obtain ⟨k, hk, rfl⟩ := Option.map_eq_some_iff.mp h
      obtain ⟨⟨x, y, hs, hx⟩, hmin⟩ := ih hk
      refine ⟨⟨a :: x, y, by simp [hs], by simp [hx]⟩, ?_⟩
      intro j hj
      cases j with
      | zero => simpa using hp
      | succ j => simpa using hmin j (by omega)

theorem find_eq_some {pat s x y : List α} (hs : s = x ++ pat ++ y)
    (hmin : ∀ j < x.length, ¬ pat <+: s.drop j) : find pat s = some x.length := by
  induction x generalizing s with
  | nil => exact find_of_startsWith ⟨y, by simp [hs]⟩
  | cons a x ih =>
    subst hs
    have h0 : ¬ pat <+: a :: (x ++ pat ++ y) := by simpa using hmin 0 (by simp)
    have hrest := ih rfl fun j hj => by
      have := hmin (j + 1) (by simp; omega)
      simpa using this
    simp only [List.cons_append]
    rw [find_cons_of_not_startsWith h0, hrest]
    simp

theorem find_eq_none_iff {pat s : List α} : find pat s = none ↔ ¬ pat <:+: s := by
  induction s with
  | nil => simp [find]
  | cons a s ih =>
    by_cases hp : pat <+: a :: s
    · simp [find_of_startsWith hp, hp.isInfix]
    · rw [find_cons_of_not_startsWith hp, Option.map_eq_none_iff, ih, List.infix_cons_iff]
      simp [hp]

theorem exists_find_of_occurs {pat s : List α} (h : pat <:+: s) : ∃ i, find pat s = some i := by
  cases hf : find pat s with
  | none => exact absurd h (find_eq_none_iff.mp hf)
  | some i => exact ⟨i, rfl⟩

theorem find_append_of_head {pat x y : List α} {a : α} (ha : pat.head? = some a) (hx : a ∉ x) :
    find pat (x ++ pat ++ y) = some x.length := by
  apply find_eq_some rfl
  rintro j hj ⟨z, hz⟩
  have hget : (pat ++ z).head? = some a := by
    rw [List.head?_append, ha]
    rfl
  rw [hz, List.append_assoc, List.drop_append_of_le_length (by omega), List.head?_append,
    List.head?_drop, List.getElem?_eq_getElem hj, Option.some_or, Option.some.injEq] at hget
  exact hx (hget ▸ List.getElem_mem hj)

/-- A pattern that does not hold `d` is looked for on both sides of it. -/
theorem find_append_cons {pat x s : List α} {d : α} (hne : pat ≠ []) (hd : d ∉ pat)
    (hx : ¬ pat <:+: x) : find pat (x ++ d :: s) = (find pat s).map (· + (x.length + 1)) := by
  induction x with
  | nil =>
    have hno : ¬ pat <+: d :: s := by
      rintro ⟨z, hz⟩
      obtain ⟨a, pat, rfl⟩ := List.exists_cons_of_ne_nil hne
      exact hd (by simp [List.head_eq_of_cons_eq hz])
    rw [List.nil_append, find_cons_of_not_startsWith hno]
    rfl
  | cons a x ih =>
    have hno : ¬ pat <+: (a :: x) ++ d :: s := by
      rintro ⟨z, hz⟩
      rcases List.append_eq_append_iff.mp hz with ⟨w, hw, -⟩ | ⟨w, hw, hz'⟩
      · exact hx ⟨[], w, by simpa using hw.symm⟩
      · cases w with
        | nil => exact hx ⟨[], [], by simp [hw]⟩
        | cons b w =>
          rw [List.cons_append] at hz'
          exact hd (by rw [hw, List.head_eq_of_cons_eq hz']; simp)
    rw [List.infix_cons_iff, not_or] at hx
    rw [List.cons_append] at hno ⊢
    rw [find_cons_of_not_startsWith hno, ih hx.2, Option.map_map]
    rfl

theorem find_append_left {pat s t : List α} {i : ℕ} (h : find pat s = some i) :
    find pat (s ++ t) = some i := by
  obtain ⟨⟨x, y, rfl, rfl⟩, hmin⟩ := find_spec h
  refine find_eq_some (List.append_assoc _ _ _) fun j hj hpre => hmin j hj ?_
  have hle : j ≤ (x ++ pat ++ y).length := by simp; omega
  rw [List.drop_append_of_le_length hle] at hpre
  apply List.prefix_of_prefix_length_le hpre (List.prefix_append _ _)
  simp only [List.length_drop, List.length_append]
  omega

theorem find_pair {a b : α} (hab : a ≠ b) {x : List α} (hx : ¬ [a, b] <:+: x) (y : List α) :
    find [a, b] (x ++ a :: b :: y) = some x.length := by
  induction x with
  | nil => exact find_of_startsWith ⟨y, rfl⟩
  | cons c x ih =>
    rw [List.infix_cons_iff, not_or] at hx
    have hno : ¬ [a, b] <+: c :: (x ++ a :: b :: y) := by
      rintro ⟨z, hz⟩
      cases x with
      | nil =>
        simp only [List.cons_append, List.nil_append, List.cons.injEq] at hz
        exact hab hz.2.1.symm
      | cons d x =>
        simp only [List.cons_append, List.nil_append, List.cons.injEq] at hz
        exact hx.1 ⟨x, by simp [hz.1, hz.2.1]⟩
    rw [List.cons_append, find_cons_of_not_startsWith hno, ih hx.2]
    rfl

theorem find_middle {pat p x q : List α} {i : ℕ} (h : find pat (p ++ (x ++ q)) = some i)
    (hp : p.length ≤ i) (hx : i + pat.length ≤ p.length + x.length) :
    find pat x = some (i - p.length) := by
  obtain ⟨⟨u, v, huv, hu⟩, hmin⟩ := find_spec h
  have hdrop : ∀ j, j ≤ x.length → (p ++ (x ++ q)).drop (p.length + j) = x.drop j ++ q := by
    intro j hj
    rw [← List.drop_drop, List.drop_left, List.drop_append_of_le_length hj]
  have hpat : pat <+: x.drop (i - p.length) := by
    have hwhole : pat <+: x.drop (i - p.length) ++ q := by
      rw [← hdrop _ (by omega), Nat.add_sub_cancel' hp, huv, List.append_assoc, ← hu,
        List.drop_left]
      exact List.prefix_append _ _
    exact List.prefix_of_prefix_length_le hwhole (List.prefix_append _ _)
      (by rw [List.length_drop]; omega)
  obtain ⟨w, hw⟩ := hpat
  have hsplit : x = x.take (i - p.length) ++ pat ++ w := by
    rw [List.append_assoc, hw, List.take_append_drop]
  have hlen : (x.take (i - p.length)).length = i - p.length := by
    rw [List.length_take]
    omega
  have hfind := find_eq_some hsplit fun j hj hpre => by
    rw [hlen] at hj
    apply hmin (p.length + j) (by omega)
    rw [hdrop j (by omega)]
    exact hpre.trans (List.prefix_append _ _)
  rwa [hlen] at hfind

theorem find_none_of_lt {pat p x q : List α} {i : ℕ} (h : find pat (p ++ (x ++ q)) = some i)
    (hne : pat ≠ []) (hi : p.length + x.length ≤ i) : find pat x = none := by
  rw [find_eq_none_iff]
  rintro ⟨u, v, huv⟩
  have hpos := List.length_pos_iff.mpr hne
  have hl := congrArg List.length huv
  simp only [List.length_append] at hl
  apply (find_spec h).2 (p.length + u.length) (by omega)
  rw [← List.drop_drop, List.drop_left, ← huv, List.append_assoc, List.append_assoc, List.drop_left,
    ← List.append_assoc]
  exact ⟨v ++ q, by simp⟩

end Find

/-- The cells from `i` on are those of `pat`. -/
def HoldsAt (m : ℕ → α) (pat : List α) (i : ℕ) : Prop :=
  slice m i (i + pat.length) = pat

theorem holdsAt_iff {m : ℕ → α} {pat : List α} {i : ℕ} :
    HoldsAt m pat i ↔ ∀ k (h : k < pat.length), m (i + k) = pat[k] := by
  constructor
  · intro h k hk
    have hl : k < (slice m i (i + pat.length)).length := by simpa using hk
    rw [← getElem_slice m hl]
    exact List.getElem_of_eq h hl
  · intro h
    apply List.ext_getElem (by simp)
    intro k hk hk'
    rw [getElem_slice, h k hk']

theorem prefix_slice_iff {m : ℕ → α} {pat : List α} {i last : ℕ} (h : i ≤ last) :
    pat <+: slice m i last ↔ i + pat.length ≤ last ∧ HoldsAt m pat i := by
  constructor
  · rintro ⟨y, hy⟩
    have hl := congrArg List.length hy
    simp only [length_slice, List.length_append] at hl
    exact ⟨by omega, (slice_eq_append hy.symm).1⟩
  · rintro ⟨hle, hm⟩
    exact ⟨slice m (i + pat.length) last, by
      have := slice_append m (Nat.le_add_right i pat.length) hle
      rwa [hm] at this⟩

instance [DecidableEq α] (m : ℕ → α) (pat : List α) (i : ℕ) : Decidable (HoldsAt m pat i) :=
  inferInstanceAs (Decidable (slice m i (i + pat.length) = pat))

section ScanFor

variable [DecidableEq α] {m : ℕ → α} {stop : ℕ → Bool} {pat : List α} {last it : ℕ}

/-- A loop that stops where `pat` stands ends at its first occurrence in the text. -/
theorem scan_of_find_some {i : ℕ} (hpat : pat ≠ []) (h : it ≤ last)
    (hstop : ∀ k, it ≤ k → k + pat.length ≤ last → (stop k = true ↔ HoldsAt m pat k))
    (hf : find pat (slice m it last) = some i) : scan stop last it = it + i := by
  obtain ⟨⟨x, y, hxy, hx⟩, hmin⟩ := find_spec hf
  have hpl := List.length_pos_iff.mpr hpat
  have hl := congrArg List.length hxy
  simp only [length_slice, List.length_append, hx] at hl
  have hhold : HoldsAt m pat (it + i) := by
    have hdrop : slice m (it + i) last = pat ++ y := by
      rw [← drop_slice, hxy, ← hx, List.append_assoc, List.drop_left]
    exact (slice_eq_append hdrop).1
  apply scan_eq (by omega) (by omega) ((hstop _ (by omega) (by omega)).mpr hhold)
  intro k hk hki
  have hkl : k + pat.length ≤ last := by omega
  rw [Bool.eq_false_iff]
  intro hs
  have hpre := (prefix_slice_iff (by omega)).mpr ⟨hkl, (hstop k hk hkl).mp hs⟩
  apply hmin (k - it) (by omega)
  rwa [drop_slice, Nat.add_sub_cancel' hk]

theorem scan_holdsAt_of_find_some {i : ℕ} (h : it ≤ last)
    (hf : find pat (slice m it last) = some i) :
    scan (fun k => decide (HoldsAt m pat k)) last it = it + i := by
  rcases eq_or_ne pat [] with hnil | hne
  · have hi : i = 0 := by
      rw [hnil, find_of_startsWith List.nil_prefix, Option.some.injEq] at hf
      exact hf.symm
    rw [hi, Nat.add_zero]
    rcases h.eq_or_lt with he | hlt
    · exact scan_of_le he.ge
    · rw [scan_of_lt hlt, if_pos (by simp [hnil, HoldsAt])]
  · exact scan_of_find_some hne h (fun k _ _ => decide_eq_true_iff) hf

theorem scan_of_find_none (h : it ≤ last)
    (hstop : ∀ k, it ≤ k → k + pat.length ≤ last → (stop k = true ↔ HoldsAt m pat k))
    (hf : find pat (slice m it last) = none) :
    scan stop last it = last ∨
      (scan stop last it < last ∧ stop (scan stop last it) = true ∧
        last < scan stop last it + pat.length) := by
  rcases (@scan_le stop last it h).eq_or_lt with he | hlt
  · exact Or.inl he
  · refine Or.inr ⟨hlt, stop_scan hlt, ?_⟩
    by_contra hge
    have hle : it ≤ scan stop last it := le_scan
    have hpre := (prefix_slice_iff (by omega)).mpr
      ⟨Nat.le_of_not_lt hge, (hstop _ hle (by omega)).mp (stop_scan hlt)⟩
    refine find_eq_none_iff.mp hf (hpre.isInfix.trans ?_)
    rw [← slice_append m hle hlt.le]
    exact (List.suffix_append _ _).isInfix

end ScanFor

end Webcrown.Bytes
