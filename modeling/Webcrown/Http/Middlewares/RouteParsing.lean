import Webcrown.Http.Middlewares.RouteSoundness

/-!
# What the constructor of a route reads

The leading literals, and for each `:` segment its name and where its `:` stands. A literal
between two parameters is read into the name in front of it, and a position from 2^31 on
does not fit `bind_pos`.
-/

namespace Webcrown.Http

open Bytes Common

/-- Where the `:` of each parameter stands if the segments begin behind that many bytes. -/
def colonPositions (start : ℕ) : List Segment → List ℕ
  | [] => []
  | .literal s :: segs => colonPositions (start + 1 + s.length) segs
  | .parameter n :: segs => (start + 1) :: colonPositions (start + 1 + (n.length + 1)) segs

/-- The parameters of the route are the `:` segments, and its target are the literals in
front of the first one. -/
structure Route.Parses (r : Route) (segs : List Segment) : Prop where
  names : r.pathParameters.map RouteParameter.name = segs.filterMap Segment.name?
  bindPos : r.pathParameters.map RouteParameter.bindPos =
    (colonPositions 0 segs).map fun i : ℕ => (i : ℤ)
  uriTarget : r.uriTarget = joined (cut segs).1
  whole : segs.filterMap Segment.name? = [] → r.uriTarget = r.path

section Positions

variable {segs : List Segment}

theorem names_cut (segs : List Segment) :
    segs.filterMap Segment.name? = (cut segs).2.map Prod.fst := by
  induction segs with
  | nil => rfl
  | cons s segs ih =>
    cases s with
    | literal s => exact ih
    | parameter n => exact congrArg (n :: ·) ih

theorem readKeys_eq_names_iff {groups : List (ByteString × List ByteString)} :
    readKeys groups = groups.map Prod.fst ↔ groups.dropLast.flatMap Prod.snd = [] := by
  obtain rfl | ⟨gs, g, rfl⟩ := List.eq_nil_or_concat' groups
  · exact iff_of_true rfl rfl
  · have hkey : ∀ g : ByteString × List ByteString, g.1 ++ joined g.2 = g.1 ↔ g.2 = [] := by
      intro g
      rw [List.append_right_eq_self]
      cases g.2 <;> simp
    simp only [readKeys, List.dropLast_concat, List.getLast?_concat, Option.toList_some,
      List.map_append, List.map_cons, List.map_nil, List.append_left_inj, List.map_inj_left,
      List.flatMap_eq_nil_iff, hkey]

/-- Without literals between parameters each position is the `it` of a turn that finds a key. -/
theorem bindPos_readKeys {start : ℕ} (h : (cut segs).2.dropLast.flatMap Prod.snd = []) :
    (keyParameters (start + (joined (cut segs).1).length + 1) (readKeys (cut segs).2)).map
        RouteParameter.bindPos =
      (colonPositions start segs).map fun i : ℕ => (i : ℤ).bmod (2 ^ 32) := by
  induction segs generalizing start with
  | nil => rfl
  | cons s segs ih =>
    cases s with
    | literal s =>
      have hlen : start + (joined (s :: (cut segs).1)).length + 1 =
          start + 1 + s.length + (joined (cut segs).1).length + 1 := by
        simp only [joined_cons, List.length_cons, List.length_append]
        omega
      simp only [cut, hlen, colonPositions]
      exact ih h
    | parameter n =>
      simp only [cut] at h ⊢
      cases hgroups : (cut segs).2 with
      | nil =>
        have hrest := @ih (start + 1 + (n.length + 1)) (by rw [hgroups]; rfl)
        have hnone : readKeys [] = [] := rfl
        have hkey : readKeys [(n, (cut segs).1)] = [n] := by simp [readKeys]
        rw [hgroups, hnone, keyParameters, List.map_nil] at hrest
        rw [hkey, joined_nil, List.length_nil, Nat.add_zero, keyParameters, keyParameters,
          colonPositions, List.map_cons, List.map_cons, List.map_nil, ← hrest]
      | cons g gs =>
        rw [hgroups, List.dropLast_cons_cons, List.flatMap_cons, List.append_eq_nil_iff] at h
        have hrest := @ih (start + 1 + (n.length + 1)) (by rw [hgroups]; exact h.2)
        have hnil : (cut segs).1 = [] := h.1
        have hkeys : readKeys ((n, []) :: g :: gs) = n :: readKeys (g :: gs) := by
          simp [readKeys]
        have hlen : start + 1 + n.length + 2 = start + 1 + (n.length + 1) + 0 + 1 := by omega
        rw [hgroups, hnil, joined_nil, List.length_nil] at hrest
        rw [hnil, hkeys, joined_nil, List.length_nil, Nat.add_zero, keyParameters, hlen,
          colonPositions, List.map_cons, List.map_cons, hrest]

theorem bmod_eq_self_iff {i : ℕ} : (i : ℤ).bmod (2 ^ 32) = i ↔ i < 2 ^ 31 := by
  rw [Int.bmod_def]
  split <;> omega

end Positions

namespace Route

variable {segs : List Segment}

/-- The constructor reads a path of segments as it should exactly if no literal stands between
two parameters and `bind_pos` can hold each position. -/
theorem parses_iff (method : HttpMethod) (hsegs : ∀ s ∈ segs, s.WellFormed)
    (hhead : (cut segs).1 ≠ []) :
    (∃ r, Route.make method (joined (segs.map Segment.text)) = .ok r ∧ r.Parses segs) ↔
      (cut segs).2.dropLast.flatMap Prod.snd = [] ∧ ∀ i ∈ colonPositions 0 segs, i < 2 ^ 31 := by
  obtain ⟨r, hmake, hr, hparameters⟩ := make_segments method hsegs hhead
  have hread : (∃ r, Route.make method (joined (segs.map Segment.text)) = .ok r ∧
      r.Parses segs) ↔ r.Parses segs := by
    rw [hmake]
    simp
  have hnames : r.pathParameters.map RouteParameter.name = segs.filterMap Segment.name? ↔
      (cut segs).2.dropLast.flatMap Prod.snd = [] := by
    rw [hr.names, names_cut, readKeys_eq_names_iff]
  have hpositions : (cut segs).2.dropLast.flatMap Prod.snd = [] →
      (r.pathParameters.map RouteParameter.bindPos =
          (colonPositions 0 segs).map (fun i : ℕ => (i : ℤ)) ↔
        ∀ i ∈ colonPositions 0 segs, i < 2 ^ 31) := by
    intro hbetween
    have hread := @bindPos_readKeys segs 0 hbetween
    rw [Nat.zero_add] at hread
    rw [hparameters, hread, List.map_inj_left]
    simp only [bmod_eq_self_iff]
  rw [hread]
  constructor
  · intro h
    have hbetween := hnames.mp h.names
    exact ⟨hbetween, (hpositions hbetween).mp h.bindPos⟩
  · rintro ⟨hbetween, hbound⟩
    refine ⟨hnames.mpr hbetween, (hpositions hbetween).mpr hbound, hr.uriTarget, fun hnone => ?_⟩
    rw [names_cut, List.map_eq_nil_iff] at hnone
    rw [hr.uriTarget, hr.path, hnone]
    simp [readKeys]

theorem parses_iff_usersId :
    ∃ r, Route.make .get (ascii "/users/:id/posts") = .ok r ∧
      r.Parses [.literal (ascii "users"), .parameter (ascii "id"), .literal (ascii "posts")] :=
  (@parses_iff [.literal (ascii "users"), .parameter (ascii "id"), .literal (ascii "posts")]
    .get (by decide) (by decide)).mpr (by decide)

/-- Of `/a/:x/lit/:y` the first parameter is read as `x/lit`. -/
theorem literal_in_name :
    ¬ ∀ (method : HttpMethod) (segs : List Segment),
      (∀ s ∈ segs, s.WellFormed ∧ ∀ n ∈ s.name?, colon ∉ n) → (cut segs).1 ≠ [] →
        ∃ r, Route.make method (joined (segs.map Segment.text)) = .ok r ∧ r.Parses segs := by
  intro h
  obtain ⟨r, hmake, hr⟩ := h .get
    [.literal (ascii "a"), .parameter (ascii "x"), .literal (ascii "lit"), .parameter (ascii "y")]
    (by decide) (by decide)
  have hnames : r.pathParameters.map RouteParameter.name = [ascii "x/lit", ascii "y"] := by
    cases hmake
    decide
  rw [hr.names] at hnames
  revert hnames
  decide

end Route

end Webcrown.Http
