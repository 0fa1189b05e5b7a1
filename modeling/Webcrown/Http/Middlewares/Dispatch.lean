import Webcrown.Http.Middlewares.Authorization

/-!
# Dispatch to the first matching route

One flag says both that a route was found and that its callback returned, so the status
of a callback that throws is overwritten by that of a request which no route matches.
-/

namespace Webcrown.Http

open Bytes Common

namespace Shared

variable {s : Shared} {route other : RouteRef} {request : HttpRequest}

def Accepts (s : Shared) (request : HttpRequest) (route : RouteRef) : Bool :=
  match (s.isMatch route request).1 with
  | .ok verdict => verdict
  | .error _ => false

def bound (s : Shared) (request : HttpRequest) (route : RouteRef) : PathParameters :=
  ((s.isMatch route request).2.routes route).pathParameters

theorem accepts_iff : s.Accepts request route = true ↔ (s.isMatch route request).1 = .ok true := by
  unfold Accepts
  split
  · rename_i verdict hverdict
    rw [hverdict]
    simp
  · rename_i e herror
    rw [herror]
    simp

theorem not_accepts (h : (s.isMatch route request).1 = .ok false) :
    ¬ s.Accepts request route = true := by
  rw [accepts_iff, h]
  simp

/-- Attempts on other routes change neither the verdict nor the parameters. -/
theorem accepts_isMatch (s : Shared) (other : RouteRef) (request : HttpRequest) :
    (s.isMatch other request).2.Accepts request = s.Accepts request := by
  funext route
  simp only [Accepts, (s.sameRoutes_isMatch other request).verdict route]

theorem verdicts_isMatch {routers : List RouteRef} (other : RouteRef)
    (h : ∀ route ∈ routers, ∃ b, (s.isMatch route request).1 = .ok b) :
    ∀ route ∈ routers, ∃ b, ((s.isMatch other request).2.isMatch route request).1 = .ok b := by
  intro route hroute
  obtain ⟨b, hb⟩ := h route hroute
  exact ⟨b, ((s.sameRoutes_isMatch other request).verdict route).symm.trans hb⟩

theorem bound_isMatch (h : route ≠ other) :
    (s.isMatch other request).2.bound request route = s.bound request route := by
  simp only [bound, isMatch, Function.update_self, Function.update_of_ne h]

end Shared

open Shared

namespace RoutingMiddleware

variable (a : RoutingMiddleware) (request : HttpRequest)

/-- The first route in the order of registration that the request matches. -/
def firstMatch (s : Shared) : Option RouteRef := a.routers.find? (s.Accepts request)

/-- What the callback of a matching route does. -/
def outcome (response : HttpResponse) (s : Shared) (route : RouteRef) :
    Except Thrown Unit × HttpResponse :=
  a.cb route s.log request response (s.bound request route)

variable {a request} {routers : List RouteRef} {response : HttpResponse} {s : Shared}

theorem loop_cons_of_not_accepts {route : RouteRef}
    (h : (s.isMatch route request).1 = .ok false) :
    a.loop request (route :: routers) response s =
      a.loop request routers response (s.isMatch route request).2 := by
  simp only [loop, h]

theorem loop_of_find_none (a : RoutingMiddleware) (response : HttpResponse)
    (hmatch : ∀ route ∈ routers, ∃ b, (s.isMatch route request).1 = .ok b)
    (h : routers.find? (s.Accepts request) = none) :
    (a.loop request routers response s).result = .ok false ∧
      (a.loop request routers response s).response = response ∧
      (a.loop request routers response s).shared.log = s.log := by
  induction routers generalizing s with
  | nil => exact ⟨rfl, rfl, rfl⟩
  | cons route routers ih =>
    obtain ⟨⟨verdict, hverdict⟩, hrest⟩ := List.forall_mem_cons.mp hmatch
    cases verdict with
    | true => rw [List.find?_cons_of_pos (accepts_iff.mpr hverdict)] at h; cases h
    | false =>
      rw [List.find?_cons_of_neg (not_accepts hverdict), ← accepts_isMatch s route request] at h
      rw [loop_cons_of_not_accepts hverdict]
      exact ih (verdicts_isMatch route hrest) h

/-- The loop ends with the first route that the request matches, whose callback is given the
parameters of this match. -/
theorem loop_of_find_some (a : RoutingMiddleware) (response : HttpResponse) {route : RouteRef}
    (hmatch : ∀ route ∈ routers, ∃ b, (s.isMatch route request).1 = .ok b)
    (h : routers.find? (s.Accepts request) = some route) :
    (a.loop request routers response s).shared.log =
        s.log ++ [.callback route (s.bound request route)] ∧
      ((a.loop request routers response s).result, (a.loop request routers response s).response) =
        match a.outcome request response s route with
        | (.ok (), left) => (.ok true, left)
        | (.error .stdException, left) => (.ok false, left.setStatus .internalServerError)
        | (.error .other, left) => (.error .other, left) := by
  induction routers generalizing s with
  | nil => cases h
  | cons first routers ih =>
    obtain ⟨⟨verdict, hverdict⟩, hrest⟩ := List.forall_mem_cons.mp hmatch
    cases verdict with
    | true =>
      rw [List.find?_cons_of_pos (accepts_iff.mpr hverdict), Option.some.injEq] at h
      subst h
      simp only [loop, hverdict, outcome, bound, log_isMatch]
      generalize a.cb first s.log request response _ = c
      obtain ⟨result, left⟩ := c
      rcases result with (_ | _) | _ <;> exact ⟨rfl, rfl⟩
    | false =>
      rw [List.find?_cons_of_neg (not_accepts hverdict)] at h
      have hne : route ≠ first := by
        rintro rfl
        exact not_accepts hverdict (List.find?_some h)
      rw [← accepts_isMatch s first request] at h
      rw [loop_cons_of_not_accepts hverdict, outcome, ← bound_isMatch hne]
      exact ih (verdicts_isMatch first hrest) h

theorem log_execute_of_firstMatch {route : RouteRef}
    (hmatch : ∀ route ∈ a.routers, ∃ b, (s.isMatch route request).1 = .ok b)
    (h : a.firstMatch request s = some route) :
    (a.execute request response s).shared.log =
      s.log ++ [.callback route (s.bound request route)] := by
  rw [log_execute]
  exact (loop_of_find_some a response hmatch h).1

theorem response_execute {route : RouteRef}
    (hmatch : ∀ route ∈ a.routers, ∃ b, (s.isMatch route request).1 = .ok b)
    (h : a.firstMatch request s = some route) :
    (a.execute request response s).response =
      match a.outcome request response s route with
      | (.ok (), left) => left
      | (.error .stdException, left) => (left.setStatus .internalServerError).setStatus .notFound
      | (.error .other, left) => left := by
  have hend := (loop_of_find_some a response hmatch h).2
  simp only [execute]
  generalize a.loop request a.routers response s = e at hend
  generalize a.outcome request response s route = c at hend
  obtain ⟨result, left⟩ := c
  rcases result with (_ | _) | _ <;> obtain ⟨hresult, hresponse⟩ := Prod.mk.inj hend <;>
    rw [hresult, hresponse]

theorem execute_of_no_match
    (hmatch : ∀ route ∈ a.routers, ∃ b, (s.isMatch route request).1 = .ok b)
    (h : a.firstMatch request s = none) :
    (a.execute request response s).shared.log = s.log ∧
      (a.execute request response s).response = response.setStatus .notFound := by
  obtain ⟨hresult, hresponse, hlog⟩ := loop_of_find_none a response hmatch h
  rw [log_execute]
  refine ⟨hlog, ?_⟩
  simp only [execute]
  rw [hresult, hresponse]

/-- What a caller of the middleware relies on. The one callback that is invoked is that of the
first matching route, with the parameters of the match; the response is as it leaves it, or a
500 where it throws; and a 404 is for a request that no route matches. -/
structure Dispatches (a : RoutingMiddleware) (request : HttpRequest) (response : HttpResponse)
    (s : Shared) : Prop where
  invoked : ∀ route, a.firstMatch request s = some route →
    (a.execute request response s).shared.log =
      s.log ++ [.callback route (s.bound request route)]
  returned : ∀ route left, a.firstMatch request s = some route →
    a.outcome request response s route = (.ok (), left) →
    (a.execute request response s).response = left
  thrown : ∀ route left, a.firstMatch request s = some route →
    a.outcome request response s route = (.error .stdException, left) →
    (a.execute request response s).response.status = .internalServerError
  notFound : a.firstMatch request s = none →
    (a.execute request response s).shared.log = s.log ∧
      (a.execute request response s).response = response.setStatus .notFound

/-- Where matching does not throw and callbacks throw nothing but `std::exception`s, requests
are dispatched as they should be exactly if the callback of the first matching route returns. -/
theorem dispatches_iff {a : RoutingMiddleware} {request : HttpRequest} {response : HttpResponse}
    {s : Shared} (hmatch : ∀ route ∈ a.routers, ∃ b, (s.isMatch route request).1 = .ok b)
    (hcb : ∀ route log request response parameters,
      (a.cb route log request response parameters).1 ≠ .error .other) :
    Dispatches a request response s ↔ ∀ route, a.firstMatch request s = some route →
      (a.outcome request response s route).1 = .ok () := by
  constructor
  · intro h route hfirst
    have hresponse : (a.execute request response s).response = _ := response_execute hmatch hfirst
    cases houtcome : a.outcome request response s route with
    | mk result left =>
      cases result with
      | ok u => rfl
      | error t =>
        cases t with
        | other => exact absurd (congrArg Prod.fst houtcome) (hcb _ _ _ _ _)
        | stdException =>
          have hstatus := h.thrown route left hfirst houtcome
          rw [hresponse, houtcome] at hstatus
          cases hstatus
  · intro h
    refine ⟨fun route hfirst => log_execute_of_firstMatch hmatch hfirst,
      fun route left hfirst houtcome => ?_, fun route left hfirst houtcome => ?_,
      execute_of_no_match hmatch⟩
    · rw [response_execute hmatch hfirst, houtcome]
    · have hreturned := h route hfirst
      rw [houtcome] at hreturned
      cases hreturned

theorem accepts_ownerRequest :
    ∀ route ∈ [0], ∃ b, (ownerShared.isMatch route ownerRequest).1 = .ok b := by
  intro route hroute
  obtain rfl := List.mem_singleton.mp hroute
  exact ⟨true, by decide +kernel⟩

theorem dispatches_iff_ownerRequest : Dispatches ownerRouting ownerRequest {} ownerShared :=
  (dispatches_iff accepts_ownerRequest fun _ _ _ _ _ => by simp [ownerRouting]).mpr fun _ _ => rfl

def throwingRouting : RoutingMiddleware where
  routers := [0]
  cb := fun _ _ _ response _ => (.error .stdException, response)

/-- The request matches the route, and is answered as if it did not. -/
theorem throwingRouting_not_found :
    throwingRouting.firstMatch ownerRequest ownerShared = some 0 ∧
      (throwingRouting.execute ownerRequest {} ownerShared).response.status = .notFound ∧
      ¬ Dispatches throwingRouting ownerRequest {} ownerShared := by
  have hfirst : throwingRouting.firstMatch ownerRequest ownerShared = some 0 := by decide +kernel
  have hstatus : (throwingRouting.execute ownerRequest {} ownerShared).response.status =
      .notFound := by decide +kernel
  refine ⟨hfirst, hstatus, fun h => ?_⟩
  have hthrown := h.thrown 0 {} hfirst rfl
  rw [hstatus] at hthrown
  cases hthrown

end RoutingMiddleware

end Webcrown.Http
