import Webcrown.Http.Middlewares.Middleware

/-!
# Authorization of protected routes

Both middlewares match the request against the routes for themselves. The verdicts
agree whatever the attempts before have stored, so a route that is dispatched to has
been seen, and let through, by the authorization loop under all its levels.
-/

namespace Webcrown.Http

open Bytes Common

namespace Shared

variable {s s' s'' : Shared} {request : HttpRequest}

/-- Two states of the same route objects. -/
def SameRoutes (s s' : Shared) : Prop :=
  ∀ route, Route.SamePattern (s.routes route) (s'.routes route)

theorem SameRoutes.refl (s : Shared) : SameRoutes s s := fun _ => Route.SamePattern.refl _

theorem SameRoutes.trans (h : SameRoutes s s') (h' : SameRoutes s' s'') : SameRoutes s s'' :=
  fun route => (h route).trans (h' route)

theorem sameRoutes_isMatch (s : Shared) (route : RouteRef) (request : HttpRequest) :
    SameRoutes s (s.isMatch route request).2 := by
  intro other
  by_cases h : other = route
  · subst h
    simpa [isMatch] using Route.samePattern_isMatch (s.routes other) request.target request.method
  · simp only [isMatch, Function.update_of_ne h]
    exact Route.SamePattern.refl _

theorem SameRoutes.verdict (h : SameRoutes s s') (route : RouteRef) :
    (s.isMatch route request).1 = (s'.isMatch route request).1 :=
  (Route.isMatch_congr (h route) request.target request.method).1

@[simp] theorem log_isMatch (s : Shared) (route : RouteRef) (request : HttpRequest) :
    (s.isMatch route request).2.log = s.log := rfl

@[simp] theorem log_record (s : Shared) (i : Invocation) : (s.record i).log = s.log ++ [i] := rfl

theorem sameRoutes_record (s : Shared) (i : Invocation) : SameRoutes s (s.record i) :=
  SameRoutes.refl s

end Shared

open Shared

/-- A nonempty token behind a `Bearer ` in the authorization header of the request. -/
def TokenOf (request : HttpRequest) (token : ByteString) : Prop :=
  token ≠ [] ∧ ∃ x, AuthMiddleware.authHeader request.headers = some (x ++ ascii "Bearer " ++ token)

/-- The authorization callback was invoked with a token of the request and let it pass. -/
inductive Invocation.Granted (request : HttpRequest) (route : RouteRef)
    (level : AuthAuthorizationLevel) : Invocation → Prop
  | intro {token : ByteString} {result : AuthResult} (htoken : TokenOf request token)
      (hsuccess : result.success = true) :
      Granted request route level (.authorize token route level (.ok result))

namespace AuthMiddleware

variable (a : AuthMiddleware) (request : HttpRequest)

theorem tokenOf_extractToken {value : ByteString}
    (hvalue : authHeader request.headers = some value)
    (hne : (extractToken value).isEmpty = false) : TokenOf request (extractToken value) := by
  refine ⟨by simpa using hne, ?_⟩
  unfold extractToken at hne ⊢
  cases hf : find (ascii "Bearer ") value with
  | none => simp [hf] at hne
  | some index =>
    obtain ⟨⟨x, y, hxy, hx⟩, -⟩ := find_spec hf
    have hlen : (x ++ ascii "Bearer ").length = index + 7 := by
      rw [List.length_append, hx]
      rfl
    refine ⟨x, hvalue.trans (congrArg some ?_)⟩
    dsimp only
    rw [← hlen]
    nth_rewrite 1 [hxy]
    rw [hxy, List.drop_left]

end AuthMiddleware

/-- What a loop over the protected `routes` has done from `s` on when it ends with `e`: it kept
the routes, invoked `new` and no route callback, and where it lets the request pass, it was
granted every protected route that the request matches, and nothing else was invoked. -/
structure Checks (request : HttpRequest) (routes : List (RouteRef × AuthAuthorizationLevel))
    (s : Shared) (e : Executed) (new : List Invocation) : Prop where
  sameRoutes : SameRoutes s e.shared
  log : e.shared.log = s.log ++ new
  noCallback : ∀ route parameters, Invocation.callback route parameters ∉ new
  onlyGranted : e.result = .ok true →
    ∀ i ∈ new, ∃ route level, Invocation.Granted request route level i
  granted : e.result = .ok true → ∀ route level, (route, level) ∈ routes →
    (s.isMatch route request).1 = .ok true → ∃ i ∈ new, Invocation.Granted request route level i

namespace Checks

variable {request : HttpRequest} {routes : List (RouteRef × AuthAuthorizationLevel)}
  {route : RouteRef} {level : AuthAuthorizationLevel} {s s' : Shared} {e : Executed}
  {new : List Invocation}

theorem stopped (hsame : SameRoutes s e.shared) (hlog : e.shared.log = s.log ++ new)
    (hnone : ∀ route parameters, Invocation.callback route parameters ∉ new)
    (hresult : e.result ≠ .ok true) : Checks request routes s e new :=
  ⟨hsame, hlog, hnone, fun h => absurd h hresult, fun h => absurd h hresult⟩

theorem skip (hsame : SameRoutes s s') (hlog : s'.log = s.log)
    (hverdict : (s.isMatch route request).1 = .ok false) (h : Checks request routes s' e new) :
    Checks request ((route, level) :: routes) s e new := by
  refine ⟨hsame.trans h.sameRoutes, by rw [h.log, hlog], h.noCallback, h.onlyGranted, ?_⟩
  intro htrue r l hmem hr
  rcases List.mem_cons.mp hmem with heq | hmem
  · obtain ⟨rfl, rfl⟩ := Prod.mk.inj heq
    rw [hverdict] at hr
    cases hr
  · exact h.granted htrue r l hmem (hsame.verdict r ▸ hr)

theorem grant {i : Invocation} (hsame : SameRoutes s s') (hlog : s'.log = s.log ++ [i])
    (hgrant : Invocation.Granted request route level i) (h : Checks request routes s' e new) :
    Checks request ((route, level) :: routes) s e (i :: new) := by
  refine ⟨hsame.trans h.sameRoutes, by simp [h.log, hlog], ?_, ?_, ?_⟩
  · intro r parameters hmem
    rcases List.mem_cons.mp hmem with rfl | hmem
    · cases hgrant
    · exact h.noCallback r parameters hmem
  · intro htrue j hmem
    rcases List.mem_cons.mp hmem with rfl | hmem
    · exact ⟨route, level, hgrant⟩
    · exact h.onlyGranted htrue j hmem
  · intro htrue r l hmem hr
    rcases List.mem_cons.mp hmem with heq | hmem
    · obtain ⟨rfl, rfl⟩ := Prod.mk.inj heq
      exact ⟨i, List.mem_cons_self, hgrant⟩
    · obtain ⟨j, hj, hgranted⟩ := h.granted htrue r l hmem (hsame.verdict r ▸ hr)
      exact ⟨j, List.mem_cons_of_mem i hj, hgranted⟩

end Checks

namespace AuthMiddleware

variable (a : AuthMiddleware) (request : HttpRequest)

theorem loop_checks (routes : List (RouteRef × AuthAuthorizationLevel)) (response : HttpResponse)
    (s : Shared) : ∃ new, Checks request routes s (a.loop request routes response s) new := by
  induction routes generalizing response s with
  | nil => exact ⟨[], SameRoutes.refl s, by simp [loop], by simp, by simp, by simp⟩
  | cons entry routes ih =>
    obtain ⟨route, level⟩ := entry
    have hmatch := s.sameRoutes_isMatch route request
    simp only [loop]
    cases hverdict : (s.isMatch route request).1 with
    | error e => exact ⟨[], .stopped hmatch (by simp) (by simp) (by simp)⟩
    | ok verdict =>
      cases verdict with
      | false =>
        obtain ⟨new, h⟩ := ih response (s.isMatch route request).2
        exact ⟨new, h.skip hmatch (log_isMatch s route request) hverdict⟩
      | true =>
        cases hheader : authHeader request.headers with
        | none => exact ⟨[], .stopped hmatch (by simp) (by simp) (by simp)⟩
        | some value =>
          dsimp only
          cases htoken : (extractToken value).isEmpty with
          | true =>
            rw [if_pos rfl]
            exact ⟨[], .stopped hmatch (by simp) (by simp) (by simp)⟩
          | false =>
            rw [if_neg Bool.false_ne_true]
            obtain ⟨m, hm⟩ : ∃ m, (s.isMatch route request).2 = m := ⟨_, rfl⟩
            obtain ⟨result, hresult⟩ :
                ∃ result, a.cb m.log (extractToken value) route (m.routes route) level = result :=
              ⟨_, rfl⟩
            rw [hm] at hmatch
            rw [hm, hresult]
            obtain ⟨i, hi⟩ :
                ∃ i, Invocation.authorize (extractToken value) route level result = i := ⟨_, rfl⟩
            have hlog : (m.record i).log = s.log ++ [i] := by
              rw [log_record, ← hm, log_isMatch]
            have hrecord := hmatch.trans (sameRoutes_record m i)
            have hnone : ∀ r parameters, Invocation.callback r parameters ∉ [i] := by
              simp [← hi]
            rw [hi]
            cases result with
            | error t => exact ⟨[i], .stopped hrecord hlog hnone (by simp)⟩
            | ok r =>
              dsimp only
              cases hsuccess : r.success with
              | false =>
                rw [if_neg Bool.false_ne_true]
                exact ⟨[i], .stopped hrecord hlog hnone (by simp)⟩
              | true =>
                rw [if_pos rfl]
                have hgrant : Invocation.Granted request route level i :=
                  hi ▸ ⟨tokenOf_extractToken request hheader htoken, hsuccess⟩
                obtain ⟨new, h⟩ := ih response (m.record i)
                exact ⟨i :: new, h.grant hrecord hlog hgrant⟩

/-- The same for `execute`, whose handler turns exceptions into denials. -/
theorem execute_checks (response : HttpResponse) (s : Shared) :
    ∃ new, Checks request a.routes s (a.execute request response s) new := by
  obtain ⟨new, h⟩ := a.loop_checks request a.routes response s
  refine ⟨new, ?_⟩
  simp only [execute]
  generalize a.loop request a.routes response s = e at h
  split
  · exact .stopped h.sameRoutes h.log h.noCallback (by simp)
  · exact h

end AuthMiddleware

namespace RoutingMiddleware

variable (a : RoutingMiddleware) (request : HttpRequest)

/-- The loop invokes one callback at most, that of a route which the request matches. -/
theorem loop_spec (routers : List RouteRef) (response : HttpResponse) (s : Shared) :
    (a.loop request routers response s).shared.log = s.log ∨
      ∃ route parameters, (s.isMatch route request).1 = .ok true ∧
        (a.loop request routers response s).shared.log = s.log ++ [.callback route parameters] := by
  induction routers generalizing s with
  | nil => exact Or.inl rfl
  | cons route routers ih =>
    simp only [loop]
    cases hverdict : (s.isMatch route request).1 with
    | error e => exact Or.inl rfl
    | ok verdict =>
      cases verdict with
      | false =>
        rcases ih (s.isMatch route request).2 with h | ⟨route', parameters, hmatch, h⟩
        · exact Or.inl h
        · exact Or.inr ⟨route', parameters,
            ((s.sameRoutes_isMatch route request).verdict route').trans hmatch, h⟩
      | true =>
        refine Or.inr ⟨route, ((s.isMatch route request).2.routes route).pathParameters,
          hverdict, ?_⟩
        dsimp only
        split <;> rfl

theorem log_execute (response : HttpResponse) (s : Shared) :
    (a.execute request response s).shared.log =
      (a.loop request a.routers response s).shared.log := by
  simp only [execute]
  split <;> rfl

end RoutingMiddleware

/-- In the chain of both middlewares, when the callback of a protected route is invoked, the
authorization callback has been invoked under every level of that route with a token of the
request, and every invocation of it has let the request pass. -/
theorem protected_routes_authorized (auth : AuthMiddleware) (routing : RoutingMiddleware)
    (request : HttpRequest) (response : HttpResponse) (s : Shared) (new : List Invocation)
    (hlog : (runMiddlewares [auth.execute, routing.execute] request response s).2.log =
      s.log ++ new)
    (route : RouteRef) (parameters : PathParameters) (before after : List Invocation)
    (hnew : new = before ++ .callback route parameters :: after) :
    (∀ level, (route, level) ∈ auth.routes →
      ∃ i ∈ before, Invocation.Granted request route level i) ∧
    ∀ i ∈ before ++ after, ∃ r level, Invocation.Granted request r level i := by
  obtain ⟨authLog, hchecks⟩ := auth.execute_checks request response s
  simp only [runMiddlewares] at hlog
  generalize auth.execute request response s = e at hlog hchecks
  obtain ⟨hsame, hauth, hnone, honly, hgranted⟩ := hchecks
  -- a chain that ends in the first middleware has invoked no route callback
  have hstopped : e.shared.log = s.log ++ new → False := by
    intro h
    rw [hauth] at h
    obtain rfl := List.append_cancel_left h
    exact hnone route parameters (by simp [hnew])
  cases hresult : e.result with
  | error t =>
    simp only [hresult] at hlog
    exact (hstopped hlog).elim
  | ok verdict =>
    cases verdict with
    | false =>
      simp only [hresult] at hlog
      exact (hstopped hlog).elim
    | true =>
      have hrouting : (routing.execute request e.response e.shared).shared.log = s.log ++ new := by
        simp only [hresult] at hlog
        rw [← hlog]
        split <;> rfl
      rw [routing.log_execute] at hrouting
      rcases routing.loop_spec request routing.routers e.response e.shared with
        h | ⟨route', parameters', hmatch, h⟩
      · exact (hstopped (h.symm.trans hrouting)).elim
      · rw [h, hauth, List.append_assoc] at hrouting
        have hsplit : authLog ++ [.callback route' parameters'] =
            before ++ .callback route parameters :: after :=
          (List.append_cancel_left hrouting).trans hnew
        have hnil : after = [] := by
          rcases List.eq_nil_or_concat after with hnil | ⟨after', i, rfl⟩
          · exact hnil
          · have hmem : authLog = before ++ .callback route parameters :: after' := by
              have hlast : authLog ++ [.callback route' parameters'] =
                  (before ++ .callback route parameters :: after') ++ [i] := by simpa using hsplit
              exact List.append_inj_left' hlast rfl
            exact (hnone route parameters (by simp [hmem])).elim
        subst hnil
        obtain ⟨rfl, hcall⟩ := List.append_inj' hsplit rfl
        obtain ⟨rfl, rfl⟩ : route' = route ∧ parameters' = parameters := by simpa using hcall
        refine ⟨fun level hmem => hgranted hresult route' level hmem
            ((hsame.verdict route').trans hmatch),
          fun i hi => honly hresult i (by simpa using hi)⟩

section OwnerRoute

def ownerShared : Shared where
  routes := fun _ => ⟨ascii "/x", ascii "/x", .get, [], by decide +kernel⟩
  log := []

def ownerAuth : AuthMiddleware where
  routes := [(0, .owner)]
  cb := fun _ _ _ _ _ => .ok ⟨true, []⟩

def ownerRouting : RoutingMiddleware where
  routers := [0]
  cb := fun _ _ _ response _ => (.ok (), response.setStatus .ok)

def ownerRequest : HttpRequest where
  method := .get
  protocolVersion := 1
  target := ascii "/x"
  headers := Headers.insertNew ∅ (ascii "authorization") (ascii "Bearer t")
  body := []
  uploads := []

theorem protected_routes_authorized_ownerRequest :
    (∀ level, (0, level) ∈ ownerAuth.routes →
      ∃ i ∈ [Invocation.authorize (ascii "t") 0 .owner (.ok ⟨true, []⟩)],
        Invocation.Granted ownerRequest 0 level i) ∧
    ∀ i ∈ [Invocation.authorize (ascii "t") 0 .owner (.ok ⟨true, []⟩)] ++ [],
      ∃ r level, Invocation.Granted ownerRequest r level i :=
  protected_routes_authorized ownerAuth ownerRouting ownerRequest {} ownerShared
    [.authorize (ascii "t") 0 .owner (.ok ⟨true, []⟩), .callback 0 []] (by decide +kernel)
    0 [] [.authorize (ascii "t") 0 .owner (.ok ⟨true, []⟩)] [] (by decide +kernel)

end OwnerRoute

end Webcrown.Http
