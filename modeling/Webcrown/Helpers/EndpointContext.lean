import Webcrown.Server.Application

/-!
# Endpoint contexts

A context collects the routes of an application, and those of them that need authorization
in an authorization middleware of its own. `should_add_auth_middleware` asserts more than
it returns.
-/

namespace Webcrown.Helpers

open Bytes Common Http

/-- The data of an `endpoint_context`: the routes, what its `auth_middleware` holds, and the
callback that it keeps for itself. -/
structure EndpointContext where
  routes : List RouteRef
  authorizedRoutes : List (RouteRef × AuthAuthorizationLevel)
  callback : Option AuthCallback
  authCallback : Option AuthCallback

/-- A call on a context. -/
inductive ContextCall
  | add (rt : RouteRef) (requireAuthorize : Bool) (authLevel : AuthAuthorizationLevel)
  | configureAuthCallback (cb : Option AuthCallback)

namespace EndpointContext

def empty : EndpointContext := ⟨[], [], none, none⟩

def add (rt : RouteRef) (requireAuthorize : Bool) (authLevel : AuthAuthorizationLevel)
    (c : EndpointContext) : EndpointContext :=
  { c with
    routes := c.routes ++ [rt]
    authorizedRoutes :=
      if requireAuthorize then c.authorizedRoutes ++ [(rt, authLevel)] else c.authorizedRoutes }

def configureAuthCallback (cb : Option AuthCallback) (c : EndpointContext) : EndpointContext :=
  { c with authCallback := cb, callback := cb }

/-- `should_add_auth_middleware`, which does not return where its assertion fails. -/
def shouldAddAuthMiddleware (c : EndpointContext) : Option Bool :=
  let any := !c.authorizedRoutes.isEmpty
  let cbIsDefined := any && c.authCallback.isSome
  if cbIsDefined then some any else none

/-- `auth_middl`, where a callback is configured. Without one `execute` fails its assertion. -/
def authMiddl (c : EndpointContext) : Option AuthMiddleware :=
  c.callback.map fun cb => ⟨c.authorizedRoutes, cb⟩

def step (c : EndpointContext) : ContextCall → EndpointContext
  | .add rt requireAuthorize authLevel => c.add rt requireAuthorize authLevel
  | .configureAuthCallback cb => c.configureAuthCallback cb

def run (calls : List ContextCall) : EndpointContext := calls.foldl step empty

end EndpointContext

def addedRoutes (calls : List ContextCall) : List RouteRef :=
  calls.filterMap fun
    | .add rt _ _ => some rt
    | .configureAuthCallback _ => none

/-- The routes that need authorization, with the levels under which they were added. -/
def protectedRoutes (calls : List ContextCall) : List (RouteRef × AuthAuthorizationLevel) :=
  calls.filterMap fun
    | .add rt true authLevel => some (rt, authLevel)
    | _ => none

/-- The callback that was configured last. -/
def configured (calls : List ContextCall) : Option AuthCallback :=
  (calls.filterMap fun
    | .configureAuthCallback cb => some cb
    | .add _ _ _ => none).getLast?.join

namespace EndpointContext

theorem run_eq (calls : List ContextCall) :
    run calls = ⟨addedRoutes calls, protectedRoutes calls, configured calls, configured calls⟩ := by
  induction calls using List.reverseRecOn with
  | nil => rfl
  | append_singleton calls call ih =>
    rw [run, List.foldl_append, List.foldl_cons, List.foldl_nil, ← run, ih]
    cases call with
    | add rt requireAuthorize authLevel =>
      cases requireAuthorize <;>
        simp [step, add, addedRoutes, protectedRoutes, configured, List.filterMap_append]
    | configureAuthCallback cb =>
      simp [step, configureAuthCallback, addedRoutes, protectedRoutes, configured,
        List.filterMap_append]

theorem mem_protectedRoutes {calls : List ContextCall} {rt : RouteRef}
    {level : AuthAuthorizationLevel} :
    (rt, level) ∈ protectedRoutes calls ↔ ContextCall.add rt true level ∈ calls := by
  rw [protectedRoutes, List.mem_filterMap]
  constructor
  · rintro ⟨call, hcall, hroute⟩
    split at hroute
    · obtain ⟨rfl, rfl⟩ := Prod.mk.inj (Option.some.inj hroute)
      exact hcall
    · cases hroute
  · exact fun hcall => ⟨_, hcall, rfl⟩

/-- A context never tells its caller to leave authorization out: where no route needs it, the
assertion fails. -/
theorem shouldAddAuthMiddleware_iff (calls : List ContextCall) (any : Bool) :
    (run calls).shouldAddAuthMiddleware = some any ↔
      any = true ∧ (∃ rt level, ContextCall.add rt true level ∈ calls) ∧
        (configured calls).isSome = true := by
  have hroutes : (∃ rt level, ContextCall.add rt true level ∈ calls) ↔
      (protectedRoutes calls).isEmpty = false := by
    rw [List.isEmpty_eq_false_iff_exists_mem, Prod.exists]
    simp only [mem_protectedRoutes]
  rw [hroutes, run_eq, shouldAddAuthMiddleware]
  cases (protectedRoutes calls).isEmpty <;> cases (configured calls).isSome <;> cases any <;> simp

/-- What a server gets from a context after any calls: `should_add_auth_middleware` returns, and
returns true, exactly if some route was added with authorization and the callback configured
last is one. In every run of a server with the middleware of the context in front of its
routes, the callback of a route is invoked only after the request has been granted every
level under which the route was added with authorization. -/
theorem context_protects (calls : List ContextCall) :
    (∀ any, (run calls).shouldAddAuthMiddleware = some any ↔
        any = true ∧ (∃ rt level, ContextCall.add rt true level ∈ calls) ∧
          (configured calls).isSome = true) ∧
      ∀ auth cb order m s₀ ts a, (run calls).authMiddl = some auth → s₀.log = [] →
        Server.Application.Run [auth.execute, RoutingMiddleware.execute ⟨(run calls).routes, cb⟩]
          order (.listening m s₀) ts a →
        ∀ before route parameters after,
          a.shared.log = before ++ .callback route parameters :: after →
          ∃ tr ∈ ts, ∃ request front, tr.before.server.requested tr.event = some request ∧
            before = tr.before.shared.log ++ front ∧
            ∀ level, ContextCall.add route true level ∈ calls →
              ∃ i ∈ front, Invocation.Granted request route level i := by
  refine ⟨shouldAddAuthMiddleware_iff calls, ?_⟩
  intro auth cb order m s₀ ts a hauth hlog₀ hrun before route parameters after hend
  obtain ⟨tr, htr, request, front, hrequest, hbefore, hgranted, -⟩ :=
    Server.Application.callbacks_granted hlog₀ hrun hend
  refine ⟨tr, htr, request, front, hrequest, hbefore, fun level hcall => hgranted level ?_⟩
  rw [run_eq, authMiddl] at hauth
  obtain ⟨cb', -, rfl⟩ := Option.map_eq_some_iff.mp hauth
  exact mem_protectedRoutes.mpr hcall

section OwnerContext

def ownerCalls : List ContextCall :=
  [.configureAuthCallback (some ownerAuth.cb), .add 0 true .owner]

theorem context_protects_ownerCalls :
    ∃ ts a, Server.Application.Run [ownerAuth.execute, ownerRouting.execute] .byKey
        (.listening Server.zeroed ownerShared) ts a ∧
      ∃ tr ∈ ts, ∃ request front, tr.before.server.requested tr.event = some request ∧
        [.authorize (ascii "t") 0 .owner (.ok ⟨true, []⟩)] = tr.before.shared.log ++ front ∧
        ∀ level, ContextCall.add 0 true level ∈ ownerCalls →
          ∃ i ∈ front, Invocation.Granted request 0 level i := by
  obtain ⟨ts, a, s, hrun, hlog, -⟩ := Server.Application.exec_ownerEvents
  have hreach := (Transitions.Run.of_exec hrun).1
  exact ⟨ts, a, hreach, (context_protects ownerCalls).2 ownerAuth ownerRouting.cb .byKey
    Server.zeroed ownerShared ts a rfl rfl hreach
      [.authorize (ascii "t") 0 .owner (.ok ⟨true, []⟩)] 0 [] [] hlog⟩

end OwnerContext

end EndpointContext

end Webcrown.Helpers
