import Webcrown.Http.Middlewares.Authorization
import Webcrown.Http.ResponseRuns

/-!
# Cross-origin requests

The middleware in front of a chain. Nothing that a middleware or a callback can call on a
response takes a header back, so the headers that it enters are in whatever is built later.
-/

namespace Webcrown.Http

open Bytes Common

namespace CorsMiddleware

def allowHeaders : List (ByteString × ByteString) :=
  [(ascii "Access-Control-Allow-Origin", ascii "*"),
    (ascii "Access-Control-Allow-Headers", ascii "*"),
    (ascii "Access-Control-Allow-Methods", ascii "*")]

def execute : Middleware := fun request response s =>
  match request.headers.lookup (ascii "origin") with
  | none => ⟨.ok true, response, s⟩
  | some origin =>
    match request.headers.lookup (ascii "host") with
    | none => ⟨.ok false, response, s⟩
    | some host =>
      if origin = ascii "http://" ++ host ∨ origin = ascii "https://" ++ host then
        ⟨.ok true, response, s⟩
      else
        let response := response.addHeader (ascii "Access-Control-Allow-Origin") (ascii "*")
        let response := response.addHeader (ascii "Access-Control-Allow-Headers") (ascii "*")
        let response := response.addHeader (ascii "Access-Control-Allow-Methods") (ascii "*")
        if request.method = .options then ⟨.ok false, response.setStatus .noContent, s⟩
        else ⟨.ok true, response, s⟩

end CorsMiddleware

/-- The request comes from a page of another origin than the host it names. -/
def HttpRequest.CrossOrigin (request : HttpRequest) : Prop :=
  ∃ origin host, request.headers.lookup (ascii "origin") = some origin ∧
    request.headers.lookup (ascii "host") = some host ∧
    origin ≠ ascii "http://" ++ host ∧ origin ≠ ascii "https://" ++ host

/-- The request has an origin and names no host. -/
def HttpRequest.Hostless (request : HttpRequest) : Prop :=
  (∃ origin, request.headers.lookup (ascii "origin") = some origin) ∧
    request.headers.lookup (ascii "host") = none

def Middleware.Calls (middleware : Middleware) : Prop :=
  ∀ request response s, ∃ calls : List ResponseCall,
    (middleware request response s).response = response.run calls

namespace HttpResponse

theorem run_append (r : HttpResponse) (calls calls' : List ResponseCall) :
    r.run (calls ++ calls') = (r.run calls).run calls' := List.foldl_append

theorem lookup_addHeader_of_some {r : HttpResponse} {k v : ByteString} (key value : ByteString)
    (h : r.headers.lookup k = some v) : (r.addHeader key value).headers.lookup k = some v := by
  rw [addHeader, Headers.lookup_insertNew, h, Option.some_or]

/-- No call takes a header back, or changes it. -/
theorem lookup_run_of_some {r : HttpResponse} {k v : ByteString}
    (h : r.headers.lookup k = some v) (calls : List ResponseCall) :
    (r.run calls).headers.lookup k = some v := by
  induction calls generalizing r with
  | nil => exact h
  | cons call calls ih =>
    have hstep : (r.step call).headers.lookup k = some v := by
      cases call with
      | setStatus status => exact h
      | addHeader key value => exact lookup_addHeader_of_some key value h
      | setBody body => exact h
      | build order =>
        simp only [step, build]
        split_ifs
        · exact h
        · exact lookup_addHeader_of_some _ _ h
    exact ih hstep

theorem headerLine_infix_build {order : IterationOrder} {r : HttpResponse} {k v : ByteString}
    (h : r.headers.lookup k = some v) : headerLine (k, v) <:+: (r.build order).1 := by
  have hmem : (k, v) ∈ writtenHeaders order r :=
    (order.mem_entries _ k v).mpr (lookup_run_of_some h [.build order])
  obtain ⟨before, after, hsplit⟩ := List.append_of_mem hmem
  rw [build_eq, hsplit]
  refine ⟨statusLine r.status ++ (before.map headerLine).flatten,
    (after.map headerLine).flatten ++ (crlf ++ r.body), ?_⟩
  simp [List.append_assoc]

end HttpResponse

namespace AuthMiddleware

theorem calls_loop (a : AuthMiddleware) (request : HttpRequest)
    (routes : List (RouteRef × AuthAuthorizationLevel)) (response : HttpResponse) (s : Shared) :
    ∃ calls, (a.loop request routes response s).response = response.run calls := by
  induction routes generalizing s with
  | nil => exact ⟨[], rfl⟩
  | cons entry routes ih =>
    simp only [loop]
    split
    · exact ⟨[], rfl⟩
    · exact ih _
    · split
      · exact ⟨[.setStatus .forbidden], rfl⟩
      · split_ifs
        · exact ⟨[.setStatus .forbidden], rfl⟩
        · split
          · exact ⟨[], rfl⟩
          · rename_i result hresult
            split_ifs
            · exact ih _
            · exact ⟨[.setBody (errorBody result.reason), .setStatus .unauthorized], rfl⟩

theorem calls_execute (a : AuthMiddleware) : Middleware.Calls a.execute := by
  intro request response s
  obtain ⟨calls, hcalls⟩ := a.calls_loop request a.routes response s
  simp only [execute]
  split
  · exact ⟨calls ++ [.setStatus .internalServerError], by
      rw [HttpResponse.run_append, ← hcalls]; rfl⟩
  · exact ⟨calls, hcalls⟩

end AuthMiddleware

namespace RoutingMiddleware

variable {a : RoutingMiddleware}

def CallbacksCall (a : RoutingMiddleware) : Prop :=
  ∀ route log request response parameters, ∃ calls : List ResponseCall,
    (a.cb route log request response parameters).2 = response.run calls

theorem calls_loop (hcb : a.CallbacksCall) (request : HttpRequest) (routers : List RouteRef)
    (response : HttpResponse) (s : Shared) :
    ∃ calls, (a.loop request routers response s).response = response.run calls := by
  induction routers generalizing s with
  | nil => exact ⟨[], rfl⟩
  | cons route routers ih =>
    simp only [loop]
    split
    · exact ⟨[], rfl⟩
    · exact ih _
    · obtain ⟨calls, hcalls⟩ := hcb route (s.isMatch route request).2.log request response
        ((s.isMatch route request).2.routes route).pathParameters
      split
      · exact ⟨calls ++ [.setStatus .internalServerError], by
          rw [HttpResponse.run_append, ← hcalls]; rfl⟩
      · exact ⟨calls, hcalls⟩
      · exact ⟨calls, hcalls⟩

theorem calls_execute (hcb : a.CallbacksCall) : Middleware.Calls a.execute := by
  intro request response s
  obtain ⟨calls, hcalls⟩ := calls_loop hcb request a.routers response s
  simp only [execute]
  split
  · exact ⟨calls, hcalls⟩
  · exact ⟨calls, hcalls⟩
  · exact ⟨calls ++ [.setStatus .notFound], by rw [HttpResponse.run_append, ← hcalls]; rfl⟩

end RoutingMiddleware

/-- What a chain of such middlewares does to a response, its calls do. -/
theorem calls_runMiddlewares {middlewares : List Middleware}
    (h : ∀ middleware ∈ middlewares, Middleware.Calls middleware) (request : HttpRequest)
    (response : HttpResponse) (s : Shared) {left : HttpResponse}
    (hleft : (runMiddlewares middlewares request response s).1 = .ok left) :
    ∃ calls, left = response.run calls := by
  induction middlewares generalizing response s with
  | nil =>
    obtain rfl := Except.ok.inj hleft
    exact ⟨[], rfl⟩
  | cons middleware middlewares ih =>
    obtain ⟨hfirst, hrest⟩ := List.forall_mem_cons.mp h
    obtain ⟨calls, hcalls⟩ := hfirst request response s
    simp only [runMiddlewares] at hleft
    split at hleft
    · cases hleft
    · obtain ⟨calls', rfl⟩ := ih hrest _ _ hleft
      exact ⟨calls ++ calls', by rw [HttpResponse.run_append, hcalls]⟩
    · obtain rfl := Except.ok.inj hleft
      exact ⟨calls, hcalls⟩

namespace CorsMiddleware

variable {request : HttpRequest} {response : HttpResponse} {s : Shared}

/-- What a cross-origin request gets from the middleware. -/
def allowed (response : HttpResponse) : HttpResponse :=
  response.run (allowHeaders.map fun header => .addHeader header.1 header.2)

theorem execute_of_crossOrigin (h : request.CrossOrigin) :
    execute request response s =
      if request.method = .options then ⟨.ok false, (allowed response).setStatus .noContent, s⟩
      else ⟨.ok true, allowed response, s⟩ := by
  obtain ⟨origin, host, horigin, hhost, hhttp, hhttps⟩ := h
  simp only [execute, horigin, hhost]
  rw [if_neg (not_or.mpr ⟨hhttp, hhttps⟩)]
  rfl

theorem execute_of_hostless (h : request.Hostless) :
    execute request response s = ⟨.ok false, response, s⟩ := by
  obtain ⟨⟨origin, horigin⟩, hhost⟩ := h
  simp only [execute, horigin, hhost]

theorem execute_of_sameOrigin (hcross : ¬ request.CrossOrigin) (hhost : ¬ request.Hostless) :
    execute request response s = ⟨.ok true, response, s⟩ := by
  unfold execute
  split
  · rfl
  · rename_i origin horigin
    split
    · rename_i hnone
      exact absurd ⟨⟨origin, horigin⟩, hnone⟩ hhost
    · rename_i host hsome
      refine if_pos ?_
      by_contra hother
      obtain ⟨hhttp, hhttps⟩ := not_or.mp hother
      exact hcross ⟨origin, host, horigin, hsome, hhttp, hhttps⟩

theorem lookup_allowed {header : ByteString × ByteString} (h : header ∈ allowHeaders) :
    (allowed {}).headers.lookup header.1 = some header.2 := by
  revert h header
  decide +kernel

end CorsMiddleware

section Preflight

def preflight : HttpRequest where
  method := .options
  protocolVersion := 1
  target := ascii "/x"
  headers := (Headers.insertNew ∅ (ascii "origin") (ascii "http://a")).insertNew (ascii "host")
    (ascii "b")
  body := []
  uploads := []

theorem crossOrigin_preflight : preflight.CrossOrigin :=
  ⟨ascii "http://a", ascii "b", by decide +kernel, by decide +kernel, by decide +kernel,
    by decide +kernel⟩

end Preflight

end Webcrown.Http
