import Webcrown.Http.Middlewares.RouteRewriting

/-!
# The targets of the common routes

A path without parameters accepts itself. A path with one parameter at its end accepts
the literals in front of it, alone or with one more segment, also an empty one.
-/

namespace Webcrown.Http

open Bytes Common

/-- A nonempty segment that binds nothing. -/
def PlainSegment (s : ByteString) : Prop := s ≠ [] ∧ slash ∉ s ∧ s.head? ≠ some colon

instance (s : ByteString) : Decidable (PlainSegment s) :=
  inferInstanceAs (Decidable (_ ∧ _ ∧ _))

def rooted (segs : List ByteString) : ByteString := if segs = [] then [slash] else joined segs

theorem head?_rooted (segs : List ByteString) : (rooted segs).head? = some slash := by
  cases segs <;> rfl

theorem not_pair_infix_rooted {segs : List ByteString} (h : ∀ s ∈ segs, PlainSegment s) :
    ¬ [slash, colon] <:+: rooted segs := by
  unfold rooted
  split_ifs
  · decide
  · exact not_pair_infix_joined h

namespace Route

variable {r : Route} {method method' : HttpMethod} {front target n : ByteString}

theorem Reads.isMatch_literal_iff (hr : r.Reads method front [] []) :
    (r.isMatchWithTargetRequest target method').1 = .ok true ↔
      target = front ∧ method' = method := by
  by_cases heven : Even (trailingSlashes front)
  · rw [hr.isMatch_iff heven, and_comm]
    refine and_congr_left fun _ => ⟨?_, Or.inl⟩
    rintro (h | ⟨rest, y, htarget, hy, hend⟩)
    · exact h
    · obtain rfl : y = front := hy
      rw [hend] at htarget
      simp at htarget
  · rw [isMatch_true_of_not_binds fun rest hb => heven (hr.uriTarget ▸ hb.even), hr.method,
      hr.uriTarget, and_comm]

/-- One parameter whose name is not found in front of its place. -/
theorem Reads.isMatch_single_iff (hr : r.Reads method front [n] [])
    (heven : Even (trailingSlashes front)) (hne : n ≠ []) (hslash : slash ∉ n)
    (hcolon : colon ∉ n) (hfront : ¬ n <:+: front) :
    (r.isMatchWithTargetRequest target method').1 = .ok true ↔
      method' = method ∧ (target = front ∨ ∃ v, slash ∉ v ∧ target = front ++ slash :: v) := by
  have hstands : ∀ v, Places front n v (front ++ slash :: v) := fun v =>
    Stands.places (Or.inl (find_own hne hslash hcolon hfront))
  rw [hr.isMatch_iff heven]
  refine and_congr_right fun _ => or_congr_right ?_
  constructor
  · rintro ⟨rest, y, htarget, ⟨w, hw, rfl⟩, hend⟩
    have hy : y = front ++ slash :: nextSegment rest := hw.unique (hstands _)
    exact ⟨nextSegment rest, slash_notMem_nextSegment rest, by rw [hend, hy, List.append_nil]⟩
  · rintro ⟨v, hv, htarget⟩
    have hnext : nextSegment v = v := by
      have := (nextSegment_append (t := []) hv (by simp)).1
      rwa [List.append_nil] at this
    refine ⟨v, front ++ slash :: v, htarget, ⟨_, hstands _, ?_⟩, by rw [htarget, List.append_nil]⟩
    rw [hnext]
    rfl

/-- The language of a path without parameters and of a path with one at its end, after every
history of requests. -/
theorem common_routes_language (method : HttpMethod) (segs : List ByteString)
    (hsegs : ∀ s ∈ segs, PlainSegment s) :
    (∃ r, make method (rooted segs) = .ok r ∧ ∀ h target method',
      ((r.after h).isMatchWithTargetRequest target method').1 = .ok true ↔
        target = rooted segs ∧ method' = method) ∧
    ∀ n, segs ≠ [] → n ≠ [] → slash ∉ n → colon ∉ n → ¬ n <:+: joined segs →
      ∃ r, make method (joined segs ++ slash :: colon :: n) = .ok r ∧ ∀ h target method',
        (((r.after h).isMatchWithTargetRequest target method').1 = .ok true ↔
          method' = method ∧
            (target = joined segs ∨ ∃ v, slash ∉ v ∧ target = joined segs ++ slash :: v)) ∧
        ∀ v, slash ∉ v → method' = method → target = joined segs ++ slash :: v →
          ((r.after h).isMatchWithTargetRequest target method').2.pathParameters.map
            (fun p => (p.name, p.value)) = [(n, v)] := by
  constructor
  · obtain ⟨r, hmake, hr⟩ :=
      make_literal method (head?_rooted segs) (not_pair_infix_rooted hsegs)
    exact ⟨r, hmake, fun h target method' =>
      (hr.congr (r.samePattern_after h)).isMatch_literal_iff⟩
  · intro n hne hn hslash hcolon hfront
    have hhead : (joined segs).head? = some slash := by
      cases segs with
      | nil => exact absurd rfl hne
      | cons => rfl
    have heven := even_trailingSlashes_joined hne fun s hs => ⟨(hsegs s hs).1, (hsegs s hs).2.1⟩
    obtain ⟨r, hmake, hr, -⟩ := @make_keys (joined segs) [] method [] n hhead
      (not_pair_infix_joined hsegs) (by simp) ⟨hn, hslash⟩ (by simp)
    refine ⟨r, by simpa using hmake, fun h target method' => ?_⟩
    have hafter := hr.congr (r.samePattern_after h)
    have hiff : ((r.after h).isMatchWithTargetRequest target method').1 = .ok true ↔
        method' = method ∧ (target = joined segs ∨
          ∃ v, slash ∉ v ∧ target = joined segs ++ slash :: v) :=
      hafter.isMatch_single_iff heven hn hslash hcolon hfront
    refine ⟨hiff, ?_⟩
    rintro v hv rfl htarget
    have hvalues := hafter.values heven htarget (hiff.mpr ⟨rfl, Or.inr ⟨v, hv, htarget⟩⟩)
    have hsegments : segments [v].length (joined [v] ++ []).tail = [v] :=
      segments_joined (by simpa using hv) (by simp)
    rw [List.append_nil, joined_cons, joined_nil, List.append_nil, List.tail_cons] at hsegments
    rw [hvalues]
    simp only [List.nil_append, List.length_cons, List.length_nil] at hsegments ⊢
    rw [hsegments]
    rfl

theorem common_routes_language_users :
    ∃ r, make .get (joined [ascii "users"] ++ slash :: colon :: ascii "id") = .ok r ∧
      ∀ h target method',
        (((r.after h).isMatchWithTargetRequest target method').1 = .ok true ↔
          method' = .get ∧ (target = joined [ascii "users"] ∨
            ∃ v, slash ∉ v ∧ target = joined [ascii "users"] ++ slash :: v)) ∧
        ∀ v, slash ∉ v → method' = .get → target = joined [ascii "users"] ++ slash :: v →
          ((r.after h).isMatchWithTargetRequest target method').2.pathParameters.map
            (fun p => (p.name, p.value)) = [(ascii "id", v)] :=
  (common_routes_language .get [ascii "users"] (by decide)).2 (ascii "id") (by decide) (by decide)
    (by decide) (by decide) (by decide)

end Route

end Webcrown.Http
