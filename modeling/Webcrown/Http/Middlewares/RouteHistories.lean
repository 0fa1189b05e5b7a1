import Webcrown.Http.Middlewares.RouteBinding

/-!
# What earlier requests leave in a route

Match attempts change nothing of a route but the stored parameter values. The
verdict does not read those values; the parameters handed to the callback are
read back where the target is the route's own, without having been written.
-/

namespace Webcrown.Http

open Common

/-- What a parameter keeps through all match attempts. -/
def RouteParameter.key (p : RouteParameter) : ByteString × ℤ := (p.name, p.bindPos)

/-- Two states of one route. -/
structure Route.SamePattern (r r' : Route) : Prop where
  path : r.path = r'.path
  uriTarget : r.uriTarget = r'.uriTarget
  method : r.method = r'.method
  keys : r.pathParameters.map RouteParameter.key = r'.pathParameters.map RouteParameter.key

namespace Route

variable {r r' r'' : Route}

@[refl] theorem SamePattern.refl (r : Route) : SamePattern r r := ⟨rfl, rfl, rfl, rfl⟩

theorem SamePattern.symm (h : SamePattern r r') : SamePattern r' r :=
  ⟨h.path.symm, h.uriTarget.symm, h.method.symm, h.keys.symm⟩

theorem SamePattern.trans (h : SamePattern r r') (h' : SamePattern r' r'') : SamePattern r r'' :=
  ⟨h.path.trans h'.path, h.uriTarget.trans h'.uriTarget, h.method.trans h'.method,
    h.keys.trans h'.keys⟩

end Route

section Bind

variable (target : ByteString)

theorem key_bindValues (ps : PathParameters) (it : ℕ) (full : ByteString) :
    (bindValues target ps it full).2.map RouteParameter.key = ps.map RouteParameter.key := by
  induction ps generalizing it full with
  | nil => rfl
  | cons p ps ih =>
    simp only [bindValues]
    cases replaceKey full p.name (findNextPathParameterValue target it).1 with
    | error e => rfl
    | ok full' =>
      simp only [List.map_cons, ih]
      rfl

theorem bindValues_congr {ps ps' : PathParameters} (it : ℕ) (full : ByteString)
    (h : ps.map RouteParameter.key = ps'.map RouteParameter.key) :
    (bindValues target ps it full).1 = (bindValues target ps' it full).1 ∧
      ∀ full', (bindValues target ps it full).1 = .ok full' →
        (bindValues target ps it full).2 = (bindValues target ps' it full).2 := by
  induction ps generalizing ps' it full with
  | nil =>
    rw [List.map_nil, eq_comm, List.map_eq_nil_iff] at h
    subst h
    exact ⟨rfl, fun _ _ => rfl⟩
  | cons p ps ih =>
    obtain ⟨p', qs, rfl, hp, hps⟩ := List.map_eq_cons_iff.mp h.symm
    obtain ⟨hname, hpos⟩ := Prod.mk.inj hp
    simp only [bindValues, hname]
    cases replaceKey full p.name (findNextPathParameterValue target it).1 with
    | error e => exact ⟨rfl, fun _ hok => by cases hok⟩
    | ok full' =>
      obtain ⟨hverdict, hvalues⟩ := ih _ full' hps.symm
      refine ⟨hverdict, fun t ht => ?_⟩
      dsimp only
      rw [hvalues t ht, hpos]

end Bind

namespace Route

variable {r r' : Route}

theorem samePattern_isMatch (r : Route) (target : ByteString) (method : HttpMethod) :
    SamePattern r (r.isMatchWithTargetRequest target method).2 := by
  unfold isMatchWithTargetRequest
  split_ifs
  · rfl
  · rfl
  · rfl
  · rfl
  · cases findBindingTarget target r.uriTarget target.length 0 with
    | none => rfl
    | some it => exact ⟨rfl, rfl, rfl, (key_bindValues target r.pathParameters it r.path).symm⟩

/-- The verdict is the same in all states of a route, and so are, where it is `true` and
the target is not the route's own, the parameters. -/
theorem isMatch_congr (h : SamePattern r r') (target : ByteString) (method : HttpMethod) :
    (r.isMatchWithTargetRequest target method).1 = (r'.isMatchWithTargetRequest target method).1 ∧
      (target ≠ r.uriTarget → (r.isMatchWithTargetRequest target method).1 = .ok true →
        (r.isMatchWithTargetRequest target method).2.pathParameters =
          (r'.isMatchWithTargetRequest target method).2.pathParameters) := by
  obtain ⟨path, uriTarget, method', ps, huri⟩ := r
  obtain ⟨path', uriTarget', method'', ps', huri'⟩ := r'
  obtain ⟨rfl, rfl, rfl, hkeys⟩ := h
  unfold isMatchWithTargetRequest
  dsimp only at hkeys ⊢
  split_ifs with hslash hempty hmethod htarget
  · exact ⟨rfl, fun _ ht => by cases ht⟩
  · exact ⟨rfl, fun _ ht => by cases ht⟩
  · exact ⟨rfl, fun _ ht => by cases ht⟩
  · exact ⟨rfl, fun hne => absurd htarget hne⟩
  · cases findBindingTarget target uriTarget target.length 0 with
    | none => exact ⟨rfl, fun _ ht => by cases ht⟩
    | some it =>
      obtain ⟨hverdict, hvalues⟩ := bindValues_congr target it path hkeys
      refine ⟨by dsimp only; rw [hverdict], fun _ ht => ?_⟩
      cases hfull : (bindValues target ps it path).1 with
      | error e =>
        simp only [hfull] at ht
        cases ht
      | ok full => exact hvalues full hfull

theorem isMatch_uriTarget (r : Route) :
    r.isMatchWithTargetRequest r.uriTarget r.method = (.ok true, r) := by
  have hslash : startsWith r.uriTarget [slash] = true :=
    startsWith_slash_iff.mpr r.uriTarget_head
  have hempty : r.uriTarget.isEmpty = false := by
    cases h : r.uriTarget with
    | nil => simpa [h] using r.uriTarget_head
    | cons => rfl
  simp [isMatchWithTargetRequest, hslash, hempty]

/-- The route after earlier calls, some of which may have thrown. -/
def after (r : Route) (history : List (ByteString × HttpMethod)) : Route :=
  history.foldl (fun r call => (r.isMatchWithTargetRequest call.1 call.2).2) r

theorem samePattern_after (r : Route) (history : List (ByteString × HttpMethod)) :
    SamePattern r (r.after history) := by
  induction history generalizing r with
  | nil => rfl
  | cons call history ih =>
    exact (samePattern_isMatch r call.1 call.2).trans (ih (r.isMatchWithTargetRequest _ _).2)

/-- No request reaches the parameters of a route whose target ends in an odd number of slashes. -/
theorem after_of_odd (hodd : ¬ Even (trailingSlashes r.uriTarget))
    (history : List (ByteString × HttpMethod)) : r.after history = r := by
  induction history with
  | nil => rfl
  | cons call history ih =>
    obtain ⟨verdict, hcall⟩ := @isMatch_of_not_binds r call.1 call.2 fun _ hb => hodd hb.even
    rw [after, List.foldl_cons, hcall]
    exact ih

/-- The next call cannot be told apart: the same verdict, and with the verdict `true`
the same parameters for the callback. -/
def SameOutcome (r r' : Route) (target : ByteString) (method : HttpMethod) : Prop :=
  (r.isMatchWithTargetRequest target method).1 = (r'.isMatchWithTargetRequest target method).1 ∧
    ((r.isMatchWithTargetRequest target method).1 = .ok true →
      (r.isMatchWithTargetRequest target method).2.pathParameters =
        (r'.isMatchWithTargetRequest target method).2.pathParameters)

theorem sameOutcome_uriTarget_iff (h : SamePattern r r') :
    SameOutcome r r' r.uriTarget r.method ↔ r.pathParameters = r'.pathParameters := by
  unfold SameOutcome
  rw [isMatch_uriTarget, h.uriTarget, h.method, isMatch_uriTarget]
  simp

/-- Two states of a route show in the next call exactly when it asks for the route's own
target and they store different values. -/
theorem sameOutcome_iff (h : SamePattern r r') (target : ByteString) (method : HttpMethod) :
    SameOutcome r r' target method ↔
      (target = r.uriTarget → method = r.method → r.pathParameters = r'.pathParameters) := by
  obtain ⟨hverdict, hparams⟩ := isMatch_congr h target method
  by_cases hown : target = r.uriTarget ∧ method = r.method
  · obtain ⟨rfl, rfl⟩ := hown
    rw [sameOutcome_uriTarget_iff h]
    simp
  · refine iff_of_true ⟨hverdict, fun htrue => hparams ?_ htrue⟩ fun ht hm => absurd ⟨ht, hm⟩ hown
    rintro rfl
    have hne : method ≠ r.method := fun hm => hown ⟨rfl, hm⟩
    have hfalse : (r.isMatchWithTargetRequest r.uriTarget method).1 ≠ .ok true := by
      simp only [isMatchWithTargetRequest, bne_iff_ne, ne_eq, hne, not_false_eq_true, if_true]
      split_ifs <;> simp
    exact hfalse htrue

/-- A request whose first value is `c`. -/
def bindingCall (r : Route) (c : UInt8) : ByteString × HttpMethod :=
  (r.uriTarget ++ [slash, c], r.method)

theorem head?_after_bindingCall {p : RouteParameter} {ps : PathParameters} {c : UInt8}
    (hps : r.pathParameters = p :: ps) (heven : Even (trailingSlashes r.uriTarget))
    (hc : c ≠ slash) :
    (r.after [r.bindingCall c]).pathParameters.head?.map RouteParameter.value = some [c] := by
  have hbinds : r.Binds (r.uriTarget ++ [slash, c]) r.method [c] := ⟨rfl, rfl, heven⟩
  have hle : r.uriTarget.length + 1 ≤ (r.uriTarget ++ [slash, c]).length := by simp
  have hdrop : (r.uriTarget ++ [slash, c]).drop (r.uriTarget.length + 1) = [c] := by
    rw [← List.drop_drop, List.drop_left]
    rfl
  have hhead := head?_bindValues p ps r.path hle
  rw [hdrop, ← hps] at hhead
  rw [after, List.foldl_cons, List.foldl_nil, bindingCall, isMatch_of_binds hbinds]
  simpa [nextSegment, hc] using hhead

/-- Any two histories look alike in the next call, exactly when they left the same values
or it does not ask for the route's own target; so all histories do, for a route that has
parameters which some request can reach, when it does not. -/
theorem histories_hidden_iff (r : Route) (target : ByteString) (method : HttpMethod) :
    (∀ h h', SameOutcome (r.after h) (r.after h') target method ↔
      (target = r.uriTarget → method = r.method →
        (r.after h).pathParameters = (r.after h').pathParameters)) ∧
    ((∀ h h', SameOutcome (r.after h) (r.after h') target method) ↔
      (target = r.uriTarget → method = r.method →
        r.pathParameters = [] ∨ ¬ Even (trailingSlashes r.uriTarget))) := by
  have hiff : ∀ h h', SameOutcome (r.after h) (r.after h') target method ↔
      (target = r.uriTarget → method = r.method →
        (r.after h).pathParameters = (r.after h').pathParameters) := by
    intro h h'
    have hr := r.samePattern_after h
    rw [sameOutcome_iff (hr.symm.trans (r.samePattern_after h')), ← hr.uriTarget, ← hr.method]
  refine ⟨hiff, ?_⟩
  simp only [hiff]
  constructor
  · intro hall htarget hmethod
    cases hps : r.pathParameters with
    | nil => exact Or.inl rfl
    | cons p ps =>
      apply Or.inr
      intro heven
      have hsame := hall [r.bindingCall 48] [r.bindingCall 49] htarget hmethod
      have h0 := head?_after_bindingCall (c := 48) hps heven (by decide)
      have h1 := head?_after_bindingCall (c := 49) hps heven (by decide)
      rw [hsame, h1] at h0
      exact absurd h0 (by decide)
  · intro hsafe h h' htarget hmethod
    have hfixed : ∀ h, (r.after h).pathParameters = r.pathParameters := by
      intro h
      rcases hsafe htarget hmethod with hnil | hodd
      · have hkeys := (r.samePattern_after h).keys
        rw [hnil, List.map_nil, eq_comm, List.map_eq_nil_iff] at hkeys
        rw [hkeys, hnil]
      · rw [after_of_odd hodd]
    rw [hfixed h, hfixed h']

/-- `/users` is answered with the user that an earlier request named. -/
theorem users_parameters_kept :
    ¬ ∀ (path : ByteString) (method : HttpMethod) (r : Route), Route.make method path = .ok r →
      ∀ h h' target method', SameOutcome (r.after h) (r.after h') target method' := by
  intro hall
  obtain ⟨r, hr⟩ : ∃ r, Route.make .get (ascii "/users/:id") = .ok r := ⟨_, rfl⟩
  have hsame := (hall _ _ r hr [] [(ascii "/users/7", .get)] (ascii "/users") .get).2
  cases hr
  revert hsame
  decide +kernel

end Route

end Webcrown.Http
