import Webcrown.Http.Middlewares.RouteRewriting

/-!
# Values that contain later names

The name of a parameter is looked for from the beginning of the text, in which the values
of the earlier parameters stand by then. The requests that spell a pattern out are matched
but for those with such a name in an earlier value.
-/

namespace Webcrown.Http

open Bytes Common

/-- Where a text begins with a pattern. -/
def occurrences (pat s : ByteString) : List ℕ :=
  (List.range (s.length + 1)).filter fun i => pat.isPrefixOf (s.drop i)

def Literal (s : ByteString) : Prop := s ≠ [] ∧ slash ∉ s ∧ colon ∉ s

instance (s : ByteString) : Decidable (Literal s) := inferInstanceAs (Decidable (_ ∧ _ ∧ _))

/-- A name that occurs in the text in front of its own place, the literals and the values of
the earlier parameters, occurs first behind a `:`, and `:name` is the value too. -/
def NamesStand (literals names values : List ByteString) : Prop :=
  ∀ i n v k, names[i]? = some n → values[i]? = some v →
    find n (joined (literals ++ values.take i)) = some k →
      v = colon :: n ∧ ∃ j, k = j + 1 ∧ (joined (literals ++ values.take i))[j]? = some colon

theorem stands_iff {x n v : ByteString} (hne : n ≠ []) (hslash : slash ∉ n) (hcolon : colon ∉ n) :
    Stands x n v ↔
      ∀ k, find n x = some k → v = colon :: n ∧ ∃ j, k = j + 1 ∧ x[j]? = some colon := by
  cases hx : find n x with
  | none =>
    exact iff_of_true (Or.inl (find_own hne hslash hcolon (find_eq_none_iff.mp hx))) (by simp)
  | some k =>
    have hle : k + n.length ≤ x.length := by
      obtain ⟨⟨u, w, huw, hu⟩, -⟩ := find_spec hx
      have hlen := congrArg List.length huw
      simp only [List.length_append] at hlen
      omega
    have hpos := List.length_pos_iff.mpr hne
    unfold Stands
    rw [find_append_left hx]
    constructor
    · rintro (h | ⟨hv, j, hj, hcell⟩)
      · rw [Option.some.injEq] at h
        omega
      · rintro k' ⟨⟩
        rw [Option.some.injEq] at hj
        rw [List.getElem?_append_left (by omega)] at hcell
        exact ⟨hv, j, hj, hcell⟩
    · intro h
      obtain ⟨hv, j, rfl, hcell⟩ := h k rfl
      refine Or.inr ⟨hv, j, rfl, ?_⟩
      rwa [List.getElem?_append_left (by omega)]

theorem allStand_iff {literals names values : List ByteString}
    (hnames : ∀ n ∈ names, Literal n) (hlen : values.length = names.length) :
    AllStand (joined literals) (names.zip values) ↔ NamesStand literals names values := by
  induction names generalizing literals values with
  | nil => simp [AllStand, NamesStand]
  | cons n names ih =>
    cases values with
    | nil => cases hlen
    | cons v values =>
      obtain ⟨hne, hslash, hcolon⟩ := hnames n (by simp)
      have hrest : AllStand (joined (literals ++ [v])) (names.zip values) ↔
          NamesStand (literals ++ [v]) names values :=
        ih (fun n' hn' => hnames n' (by simp [hn'])) (by simpa using hlen)
      have htext : joined literals ++ slash :: v = joined (literals ++ [v]) := by simp
      rw [List.zip_cons_cons, AllStand, htext, hrest, stands_iff hne hslash hcolon]
      constructor
      · rintro ⟨hfirst, hlater⟩ i m u k hm hu hk
        cases i with
        | zero =>
          rw [List.getElem?_cons_zero, Option.some.injEq] at hm hu
          subst hm hu
          simpa using hfirst k (by simpa using hk)
        | succ i =>
          have := hlater i m u k hm hu (by simpa using hk)
          simpa using this
      · intro hall
        refine ⟨fun k hk => ?_, fun i m u k hm hu hk => ?_⟩
        · simpa using hall 0 n v k rfl rfl (by simpa using hk)
        · simpa using hall (i + 1) m u k hm hu (by simpa using hk)

namespace Route

/-- A request is matched and its segments are stored under the names. -/
def Answers (r : Route) (target : ByteString) (method : HttpMethod)
    (parameters : List (ByteString × ByteString)) : Prop :=
  (r.isMatchWithTargetRequest target method).1 = .ok true ∧
    (r.isMatchWithTargetRequest target method).2.pathParameters.map (fun p => (p.name, p.value)) =
      parameters

instance (r : Route) (target : ByteString) (method : HttpMethod)
    (parameters : List (ByteString × ByteString)) :
    Decidable (r.Answers target method parameters) := inferInstanceAs (Decidable (_ ∧ _))

theorem joined_values (literals : List ByteString) {values : List ByteString} (hne : values ≠ [])
    (hvalues : ∀ v ∈ values, slash ∉ v) :
    ∃ rest, joined (literals ++ values) = joined literals ++ slash :: rest ∧
      segments values.length rest = values := by
  obtain ⟨v, vs, rfl⟩ := List.exists_cons_of_ne_nil hne
  refine ⟨v ++ joined vs, by simp, ?_⟩
  have hsegments : segments (v :: vs).length (joined (v :: vs) ++ []).tail = v :: vs :=
    segments_joined hvalues (by simp)
  rwa [List.append_nil, joined_cons, List.tail_cons] at hsegments

/-- The names of a route, written over in a target that spells the pattern out, all stand where
they are looked for exactly if the target is matched. -/
theorem Reads.isMatch_spelled_iff {r : Route} {method : HttpMethod}
    {literals names values : List ByteString} (hr : r.Reads method (joined literals) names [])
    (heven : Even (trailingSlashes (joined literals)))
    (hnames : names ≠ [] ∧ ∀ n ∈ names, Literal n) (hlen : values.length = names.length)
    (hvalues : ∀ v ∈ values, slash ∉ v) :
    (r.isMatchWithTargetRequest (joined (literals ++ values)) method).1 = .ok true ↔
      AllStand (joined literals) (names.zip values) := by
  constructor
  · rw [hr.isMatch_iff heven, and_iff_right rfl]
    have hne : values ≠ [] := by
      rw [← List.length_pos_iff, hlen]
      exact List.length_pos_iff.mpr hnames.1
    obtain ⟨rest, htarget, hsegments⟩ := joined_values literals hne hvalues
    rw [hlen] at hsegments
    rintro (hfront | ⟨rest', y, hrest, hy, hend⟩)
    · rw [htarget] at hfront
      simp at hfront
    · obtain ⟨-, rfl⟩ := List.cons.inj (List.append_cancel_left (hrest.symm.trans htarget))
      rw [hsegments] at hy
      refine Rewrites.allStand (fun b hb => ?_) ?_
      · obtain ⟨hb1, hb2⟩ := List.of_mem_zip hb
        exact ⟨(hnames.2 _ hb1).2.1, hvalues _ hb2⟩
      · rw [List.map_snd_zip hlen.le, ← joined_append, hend, List.append_nil]
        exact hy
  · intro hall
    have hmatch := hr.isMatch_of_allStand heven hnames.1 hlen hvalues (by simp) hall
    rwa [List.append_nil, ← joined_append] at hmatch

/-- A request that spells the pattern out is answered exactly if no name stands in an earlier
value, up to values that change nothing. -/
theorem answers_iff (method : HttpMethod) {literals names values : List ByteString}
    (hliterals : literals ≠ [] ∧ ∀ s ∈ literals, Literal s)
    (hnames : names ≠ [] ∧ ∀ n ∈ names, Literal n) (hlen : values.length = names.length)
    (hvalues : ∀ v ∈ values, slash ∉ v) :
    ∃ r, make method (joined (literals ++ names.map (colon :: ·))) = .ok r ∧ ∀ h,
      (r.after h).Answers (joined (literals ++ values)) method (names.zip values) ↔
        NamesStand literals names values := by
  obtain ⟨hne, hplain⟩ := hliterals
  have hhead : (joined literals).head? = some slash := by
    cases literals with
    | nil => exact absurd rfl hne
    | cons => rfl
  have hno : ¬ [slash, colon] <:+: joined literals := by
    refine not_pair_infix_joined fun s hs => ⟨(hplain s hs).1, (hplain s hs).2.1, fun h => ?_⟩
    exact (hplain s hs).2.2 (List.mem_of_mem_head? h)
  have heven := even_trailingSlashes_joined hne fun s hs => ⟨(hplain s hs).1, (hplain s hs).2.1⟩
  obtain rfl | ⟨keys, n, rfl⟩ := List.eq_nil_or_concat' names
  · exact absurd rfl hnames.1
  have hkeys : ∀ k ∈ keys, ¬ [slash, colon] <:+: k := by
    intro k hk
    have := not_infix_pair (t := []) (hnames.2 k (by simp [hk])).2.1 (by simp)
    rwa [List.append_nil] at this
  have hn := hnames.2 n (by simp)
  obtain ⟨r, hmake, hr, -⟩ := @make_keys _ keys method [] n hhead hno hkeys ⟨hn.1, hn.2.1⟩
    (by simp)
  rw [joined_nil, List.append_nil, ← joined_append] at hmake
  rw [joined_nil] at hr
  refine ⟨r, hmake, fun h => ?_⟩
  have hafter := hr.congr (r.samePattern_after h)
  have hmatch := (hafter.isMatch_spelled_iff heven hnames hlen hvalues).trans
    (allStand_iff hnames.2 hlen)
  refine ⟨fun hans => hmatch.mp hans.1, fun hstand => ⟨hmatch.mpr hstand, ?_⟩⟩
  have hvaluesNe : values ≠ [] := by
    rw [← List.length_pos_iff, hlen]
    exact List.length_pos_iff.mpr hnames.1
  obtain ⟨rest, htarget, hsegments⟩ := joined_values literals hvaluesNe hvalues
  rw [hafter.values heven htarget (hmatch.mpr hstand), ← hlen, hsegments]

theorem answers_iff_users :
    ∃ r, make .get
        (joined ([ascii "users"] ++ [ascii "name", ascii "id"].map (colon :: ·))) = .ok r ∧
      ∀ h, (r.after h).Answers (joined ([ascii "users"] ++ [ascii "ann", ascii "7"])) .get
          ([ascii "name", ascii "id"].zip [ascii "ann", ascii "7"]) ↔
        NamesStand [ascii "users"] [ascii "name", ascii "id"] [ascii "ann", ascii "7"] :=
  answers_iff .get (by decide) (by decide) (by decide) (by decide)

/-- The pattern `/users/:id/:name`, in which each name occurs once, does not match
`/users/name/5`: the value `name` of the first parameter is overwritten by the second. -/
theorem usersName_not_answered :
    ¬ ∀ (method : HttpMethod) (literals names values : List ByteString),
      (literals ≠ [] ∧ ∀ s ∈ literals, Literal s) → (names ≠ [] ∧ ∀ n ∈ names, Literal n) →
      (∀ n ∈ names, (occurrences n (joined (literals ++ names.map (colon :: ·)))).length = 1) →
      values.length = names.length → (∀ v ∈ values, v ≠ [] ∧ slash ∉ v) →
      ∀ r, make method (joined (literals ++ names.map (colon :: ·))) = .ok r → ∀ h,
        (r.after h).Answers (joined (literals ++ values)) method (names.zip values) := by
  intro hall
  obtain ⟨r, hr⟩ : ∃ r, make .get (joined ([ascii "users"] ++
      [ascii "id", ascii "name"].map (colon :: ·))) = .ok r := ⟨_, rfl⟩
  have hans := hall .get [ascii "users"] [ascii "id", ascii "name"] [ascii "name", ascii "5"]
    (by decide) (by decide) (by decide) (by decide) (by decide) r hr []
  cases hr
  revert hans
  decide +kernel

end Route

end Webcrown.Http
