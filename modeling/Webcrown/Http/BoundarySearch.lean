import Webcrown.Http.UploadText

/-!
# What the search for a boundary finds

`verify_boundary_value` compares all bytes at each position and counts the matches, so
that a mismatch starts the count anew within one comparison. For a boundary that does
not begin with a dash its verdict is that of a substring search, and so is the iterator.
-/

namespace Webcrown.Http

open Bytes Common

/-- The outer loop of `verify_boundary_value`, as what the call returns and the iterator it
leaves; no outcome where `turns` are not enough. -/
def verifyBoundaryTurns (m : ℕ → UInt8) (last len : ℕ) (b : ByteString) :
    ℕ → ℕ → Option (Bool × ℕ)
  | 0, _ => none
  | turns + 1, it =>
    if it < last then
      if boundaryMatchCount m it len b = len then some (true, it)
      else verifyBoundaryTurns m last len b turns (it + 1)
    else some (false, it)

variable {m : ℕ → UInt8} {last it turns : ℕ} {b : ByteString}

theorem verifyBoundaryTurns_eq (len : ℕ) (hturns : last - it < turns) :
    verifyBoundaryTurns m last len b turns it =
      some (decide (verifyBoundaryValue m last it len b < last),
        verifyBoundaryValue m last it len b) := by
  induction turns generalizing it with
  | zero => omega
  | succ turns ih =>
    rw [verifyBoundaryTurns]
    split_ifs with hlt hcount
    · have hstop : verifyBoundaryValue m last it len b = it := by
        rw [verifyBoundaryValue, scan_of_lt hlt, if_pos (beq_iff_eq.mpr hcount)]
      rw [hstop, decide_eq_true hlt]
    · have hnext : verifyBoundaryValue m last it len b =
          verifyBoundaryValue m last (it + 1) len b := by
        rw [verifyBoundaryValue, scan_of_lt hlt, if_neg (by simpa using hcount)]
        rfl
      rw [hnext]
      apply ih
      omega
    · have hend : verifyBoundaryValue m last it len b = it := scan_of_le (by omega)
      rw [hend, decide_eq_false hlt]

/-- A search loop without an occurrence in the chunk ends with it, if the bytes behind the chunk
complete none. -/
theorem scan_holdsAt_of_no_occurrence (hle : it ≤ last)
    (hpast : ∀ k, it ≤ k → k < last → last < k + b.length →
      ∃ c, ∃ hc : c < b.length, last ≤ k + c ∧ m (k + c) ≠ b[c])
    (h : ¬ b <:+: slice m it last) :
    scan (fun k => decide (HoldsAt m b k)) last it = last := by
  rcases scan_of_find_none hle (fun _ _ _ => decide_eq_true_iff) (find_eq_none_iff.mpr h) with
    hend | ⟨hlt, hstop, hover⟩
  · exact hend
  · obtain ⟨c, hc, -, hne⟩ := hpast _ le_scan hlt hover
    exact absurd (holdsAt_iff.mp (of_decide_eq_true hstop) c hc) hne

/-- With a nonempty boundary that does not begin with a dash, and with bytes behind the chunk that
do not match, the call returns true at the first place from `it` on where all of the boundary
stands in the chunk, and false at the end of the chunk if there is none. A start behind the end
is left where it is. -/
theorem verifyBoundary_finds (hb : b ≠ []) (hdash : b.head? ≠ some dash)
    (hpast : ∀ k, it ≤ k → k < last → last < k + b.length →
      ∃ c, ∃ hc : c < b.length, last ≤ k + c ∧ m (k + c) ≠ b[c])
    (hturns : last - it < turns) :
    (b <:+: slice m it last → ∃ k, it ≤ k ∧ k + b.length ≤ last ∧ HoldsAt m b k ∧
      (∀ j, it ≤ j → j < k → ¬ HoldsAt m b j) ∧
      verifyBoundaryTurns m last b.length b turns it = some (true, k)) ∧
    (¬ b <:+: slice m it last →
      verifyBoundaryTurns m last b.length b turns it = some (false, max it last)) := by
  rw [verifyBoundaryTurns_eq b.length hturns, verifyBoundaryValue_eq m last it le_rfl hdash,
    List.take_length]
  rcases Nat.lt_or_ge last it with hlt | hle
  · have hnone : ¬ b <:+: slice m it last := by
      rw [slice_of_le m hlt.le, List.infix_nil]
      exact hb
    refine ⟨fun h => absurd h hnone, fun _ => ?_⟩
    rw [scan_of_le hlt.le, max_eq_left hlt.le, decide_eq_false (by omega)]
  · constructor
    · intro h
      obtain ⟨i, hi⟩ := exists_find_of_occurs h
      have hscan := scan_holdsAt_of_find_some hle hi
      obtain ⟨⟨x, y, hxy, rfl⟩, hmin⟩ := find_spec hi
      have hpre : b <+: slice m (it + x.length) last := by
        rw [← drop_slice, hxy, List.append_assoc, List.drop_left]
        exact List.prefix_append b y
      have hlen := congrArg List.length hxy
      simp only [length_slice, List.length_append] at hlen
      obtain ⟨hend, hhold⟩ := (prefix_slice_iff (by omega)).mp hpre
      have hpos := List.length_pos_iff.mpr hb
      refine ⟨it + x.length, Nat.le_add_right _ _, hend, hhold, fun j hj hjk hat => ?_, ?_⟩
      · apply hmin (j - it) (by omega)
        rw [drop_slice, Nat.add_sub_cancel' hj]
        exact (prefix_slice_iff (by omega)).mpr ⟨by omega, hat⟩
      · rw [hscan, decide_eq_true (by omega)]
    · intro h
      rw [scan_holdsAt_of_no_occurrence hle hpast h, max_eq_right hle,
        decide_eq_false (lt_irrefl _)]

theorem verifyBoundary_finds_overlap :
    verifyBoundaryTurns (fun k => (ascii "ab-aab-ab")[k]?.getD 0) 9 5 (ascii "ab-ab") 10 0 =
      some (true, 4) := by
  have hpast : ∀ k, 0 ≤ k → k < 9 → 9 < k + (ascii "ab-ab").length →
      ∃ c, ∃ hc : c < (ascii "ab-ab").length,
        9 ≤ k + c ∧ (ascii "ab-aab-ab")[k + c]?.getD 0 ≠ (ascii "ab-ab")[c] := by
    intro k _ hk hover
    have hlen : (ascii "ab-ab").length = 5 := by decide
    have hend : (ascii "ab-aab-ab").length ≤ k + 4 := by
      have : (ascii "ab-aab-ab").length = 9 := by decide
      omega
    refine ⟨4, by decide, by omega, ?_⟩
    rw [List.getElem?_eq_none hend]
    decide
  obtain ⟨hfound, -⟩ := verifyBoundary_finds (m := fun k => (ascii "ab-aab-ab")[k]?.getD 0)
    (by decide) (by decide) hpast (show 9 - 0 < 10 by decide)
  obtain ⟨k, -, hend, hhold, hfirst, hrun⟩ := hfound (by decide)
  have hupper : k ≤ 4 := by
    by_contra hlt
    exact hfirst 4 (Nat.zero_le 4) (Nat.lt_of_not_le hlt) (by decide)
  have hlower : 4 ≤ k := by
    by_contra hlt
    interval_cases k <;> revert hhold <;> decide
  obtain rfl : k = 4 := Nat.le_antisymm hupper hlower
  exact hrun

end Webcrown.Http
