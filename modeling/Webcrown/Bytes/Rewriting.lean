import Webcrown.Bytes.Search

/-!
# Cutting a text at a cell and rewriting a pattern in it

`List.splitOn` is read here from addressed memory, one scan for each piece.
`replaced pat new s` rewrites the leftmost non-overlapping occurrences of `pat`
in one pass over `s`; the text put in for an occurrence is never read again.
-/

namespace Webcrown.Bytes

variable {α : Type*} [DecidableEq α]

section SplitOn

variable {d : α} {s t : List α}

theorem not_mem_of_mem_splitOn (h : t ∈ s.splitOn d) : d ∉ t := by
  induction s generalizing t with
  | nil =>
    rw [List.splitOn_nil, List.mem_singleton] at h
    simp [h]
  | cons a s ih =>
    rw [List.splitOn_cons_eq_if_modifyHead] at h
    split_ifs at h with ha
    · rcases List.mem_cons.mp h with rfl | h
      · exact List.not_mem_nil
      · exact ih h
    · obtain ⟨r, rs, hr⟩ := List.exists_cons_of_ne_nil (List.splitOn_ne_nil d s)
      rw [hr, List.modifyHead_cons] at h
      rcases List.mem_cons.mp h with rfl | h
      · rw [List.mem_cons, not_or]
        exact ⟨fun he => ha (by simp [he]), ih (by simp [hr])⟩
      · exact ih (by simp [hr, h])

theorem length_splitOn (d : α) (s : List α) : (s.splitOn d).length = s.count d + 1 := by
  induction s with
  | nil => simp
  | cons a s ih =>
    rw [List.splitOn_cons_eq_if_modifyHead, List.count_cons]
    split_ifs with ha <;> simp [ih]

theorem splitOn_slice {m : ℕ → α} {it last : ℕ} (h : it ≤ last) :
    (slice m it last).splitOn d =
      let p := scan (fun k => m k == d) last it
      if p = last then [slice m it p] else slice m it p :: (slice m (p + 1) last).splitOn d := by
  have hle : it ≤ scan (fun k => m k == d) last it := le_scan
  have hnot : d ∉ slice m it (scan (fun k => m k == d) last it) := by
    intro hd
    obtain ⟨k, hm, hstop⟩ := exists_not_stop_of_mem_slice_scan hd
    simp [hm] at hstop
  dsimp only
  split_ifs with hp
  · rw [hp] at hnot ⊢
    exact List.splitOn_eq_singleton hnot
  · have hlt : scan (fun k => m k == d) last it < last := lt_of_le_of_ne (scan_le h) hp
    have hd : m (scan (fun k => m k == d) last it) = d := eq_of_beq (stop_scan hlt)
    rw [← slice_append m hle hlt.le, slice_cons m hlt, hd]
    exact List.splitOn_append_cons_self_of_not_mem hnot _

end SplitOn

section Replaced

variable {pat new s : List α}

/-- The rewriting of a text whose first cells still belong to an occurrence
that has been replaced; their number comes first. -/
def replacedFrom (pat new : List α) : ℕ → List α → List α
  | _, [] => []
  | n + 1, _ :: s => replacedFrom pat new n s
  | 0, a :: s =>
    if pat <+: a :: s then new ++ replacedFrom pat new (pat.length - 1) s
    else a :: replacedFrom pat new 0 s

/-- The leftmost non-overlapping occurrences of `pat` in `s`, each replaced by `new`. -/
def replaced (pat new s : List α) : List α := replacedFrom pat new 0 s

theorem replacedFrom_eq_drop (pat new : List α) (n : ℕ) (s : List α) :
    replacedFrom pat new n s = replaced pat new (s.drop n) := by
  induction s generalizing n with
  | nil => cases n <;> simp [replaced, replacedFrom]
  | cons a s ih =>
    cases n with
    | zero => rfl
    | succ n => rw [replacedFrom, ih, List.drop_succ_cons]

@[simp] theorem replaced_nil (pat new : List α) : replaced pat new [] = [] := rfl

theorem replaced_of_startsWith (hne : pat ≠ []) (y : List α) :
    replaced pat new (pat ++ y) = new ++ replaced pat new y := by
  obtain ⟨a, p, rfl⟩ := List.exists_cons_of_ne_nil hne
  have hpre : a :: p <+: a :: (p ++ y) := ⟨y, rfl⟩
  rw [List.cons_append, replaced, replacedFrom, if_pos hpre, replacedFrom_eq_drop]
  simp

theorem replaced_cons_of_not_startsWith {a : α} (h : ¬ pat <+: a :: s) :
    replaced pat new (a :: s) = a :: replaced pat new s := by
  rw [replaced, replacedFrom, if_neg h]
  rfl

/-- The text in front of the first occurrence stays, and the pass goes on behind it. -/
theorem replaced_of_find_some (hne : pat ≠ []) {x y : List α}
    (h : find pat (x ++ pat ++ y) = some x.length) :
    replaced pat new (x ++ pat ++ y) = x ++ new ++ replaced pat new y := by
  have hmin := (find_spec h).2
  clear h
  induction x with
  | nil => exact replaced_of_startsWith hne y
  | cons a x ih =>
    have h0 : ¬ pat <+: a :: (x ++ pat ++ y) := by simpa using hmin 0 (by simp)
    have hrest := ih fun j hj => by simpa using hmin (j + 1) (by simpa using hj)
    rw [List.cons_append, List.cons_append, replaced_cons_of_not_startsWith h0, hrest]
    rfl

theorem replaced_of_find_none (h : find pat s = none) : replaced pat new s = s := by
  induction s with
  | nil => rfl
  | cons a s ih =>
    rw [find_eq_none_iff, List.infix_cons_iff, not_or] at h
    rw [replaced_cons_of_not_startsWith h.1, ih (find_eq_none_iff.mpr h.2)]

theorem length_le_replaced (hne : pat ≠ []) (h : pat.length ≤ new.length) (s : List α) :
    s.length ≤ (replaced pat new s).length := by
  induction hn : s.length using Nat.strong_induction_on generalizing s with
  | _ n ih =>
    cases hf : find pat s with
    | none => rw [replaced_of_find_none hf, hn]
    | some i =>
      obtain ⟨⟨x, y, rfl, rfl⟩, -⟩ := find_spec hf
      have hpos := List.length_pos_iff.mpr hne
      simp only [List.length_append] at hn
      have hy := ih y.length (by omega) y rfl
      rw [replaced_of_find_some hne hf]
      simp only [List.length_append]
      omega

end Replaced

end Webcrown.Bytes
