import Webcrown.Http.Response
import Webcrown.Http.Middlewares.RouteHistories

/-!
# Middlewares

The middlewares of a server share route objects, which stand in a table by their
identity, and call back into the application. The callbacks may do anything but
alter routes: what one returns is any function of the invocations so far, which are
kept in a log.
-/

namespace Webcrown.Http

open Bytes Common

/-- An exception that leaves a call: one that `catch(std::exception const&)` catches, or another. -/
inductive Thrown
  | stdException
  | other
  deriving DecidableEq, Repr

/-- The identity of a shared route object. -/
abbrev RouteRef := ℕ

inductive AuthAuthorizationLevel
  | none
  | guest
  | owner
  | admin
  deriving DecidableEq, Repr

structure AuthResult where
  success : Bool
  reason : ByteString
  deriving DecidableEq

/-- A call into the application. -/
inductive Invocation
  | authorize (token : ByteString) (route : RouteRef) (level : AuthAuthorizationLevel)
      (result : Except Thrown AuthResult)
  | callback (route : RouteRef) (parameters : PathParameters)
  deriving DecidableEq

/-- What the middlewares of one server share. -/
structure Shared where
  routes : RouteRef → Route
  log : List Invocation

/-- What `execute` does: the value it returns or the exception, the response it leaves in the
argument, and the shared objects. -/
structure Executed where
  result : Except Thrown Bool
  response : HttpResponse
  shared : Shared

abbrev Middleware := HttpRequest → HttpResponse → Shared → Executed

/-- The loop of `on_receive` over the middlewares of the server. -/
def runMiddlewares : List Middleware → HttpRequest → HttpResponse → Shared →
    Except Thrown HttpResponse × Shared
  | [], _, response, s => (.ok response, s)
  | middleware :: middlewares, request, response, s =>
    let e := middleware request response s
    match e.result with
    | .error t => (.error t, e.shared)
    | .ok true => runMiddlewares middlewares request e.response e.shared
    | .ok false => (.ok e.response, e.shared)

namespace Shared

def isMatch (s : Shared) (route : RouteRef) (request : HttpRequest) :
    Except OutOfRange Bool × Shared :=
  let m := (s.routes route).isMatchWithTargetRequest request.target request.method
  (m.1, { s with routes := Function.update s.routes route m.2 })

def record (s : Shared) (invocation : Invocation) : Shared :=
  { s with log := s.log ++ [invocation] }

end Shared

/-- The authorization callback, given the token, the route and its state, and the level. -/
abbrev AuthCallback :=
  List Invocation → ByteString → RouteRef → Route → AuthAuthorizationLevel →
    Except Thrown AuthResult

structure AuthMiddleware where
  routes : List (RouteRef × AuthAuthorizationLevel)
  cb : AuthCallback

namespace AuthMiddleware

/-- `extract_token`: what stands behind the first `Bearer `. -/
def extractToken (headerValue : ByteString) : ByteString :=
  match find (ascii "Bearer ") headerValue with
  | none => []
  | some index => headerValue.drop (index + 7)

def authHeader (headers : Headers) : Option ByteString :=
  (headers.lookup (ascii "Authorization")).or (headers.lookup (ascii "authorization"))

def errorBody (reason : ByteString) : ByteString :=
  ascii "\x7b\"error\": \"" ++ reason ++ ascii "\"\x7d"

/-- The loop of `execute` over the protected routes. -/
def loop (a : AuthMiddleware) (request : HttpRequest) :
    List (RouteRef × AuthAuthorizationLevel) → HttpResponse → Shared → Executed
  | [], response, s => ⟨.ok true, response, s⟩
  | (route, level) :: routes, response, s =>
    let m := s.isMatch route request
    match m.1 with
    | .error _ => ⟨.error .stdException, response, m.2⟩
    | .ok false => loop a request routes response m.2
    | .ok true =>
      match authHeader request.headers with
      | none => ⟨.ok false, response.setStatus .forbidden, m.2⟩
      | some value =>
        let token := extractToken value
        if token.isEmpty then ⟨.ok false, response.setStatus .forbidden, m.2⟩
        else
          let result := a.cb m.2.log token route (m.2.routes route) level
          let s' := m.2.record (.authorize token route level result)
          match result with
          | .error t => ⟨.error t, response, s'⟩
          | .ok r =>
            if r.success then loop a request routes response s'
            else ⟨.ok false, (response.setBody (errorBody r.reason)).setStatus .unauthorized, s'⟩

/-- `auth_middleware::execute`, which catches what its loop throws. -/
def execute (a : AuthMiddleware) : Middleware := fun request response s =>
  let e := a.loop request a.routes response s
  match e.result with
  | .error .stdException => ⟨.ok false, e.response.setStatus .internalServerError, e.shared⟩
  | _ => e

end AuthMiddleware

/-- The callback of a route, with what it makes of the response. -/
abbrev RouteCallback :=
  List Invocation → HttpRequest → HttpResponse → PathParameters → Except Thrown Unit × HttpResponse

structure RoutingMiddleware where
  routers : List RouteRef
  cb : RouteRef → RouteCallback

namespace RoutingMiddleware

/-- The loop of `execute` over the routes: whether a callback was found and returned. Matching
stands outside the `try` block. -/
def loop (a : RoutingMiddleware) (request : HttpRequest) :
    List RouteRef → HttpResponse → Shared → Executed
  | [], response, s => ⟨.ok false, response, s⟩
  | route :: routers, response, s =>
    let m := s.isMatch route request
    match m.1 with
    | .error _ => ⟨.error .stdException, response, m.2⟩
    | .ok false => loop a request routers response m.2
    | .ok true =>
      let parameters := (m.2.routes route).pathParameters
      let c := a.cb route m.2.log request response parameters
      let s' := m.2.record (.callback route parameters)
      match c.1 with
      | .error .stdException => ⟨.ok false, c.2.setStatus .internalServerError, s'⟩
      | .error .other => ⟨.error .other, c.2, s'⟩
      | .ok () => ⟨.ok true, c.2, s'⟩

/-- `routing_middleware::execute`. -/
def execute (a : RoutingMiddleware) : Middleware := fun request response s =>
  let e := a.loop request a.routers response s
  match e.result with
  | .error t => ⟨.error t, e.response, e.shared⟩
  | .ok true => ⟨.ok false, e.response, e.shared⟩
  | .ok false => ⟨.ok false, e.response.setStatus .notFound, e.shared⟩

end RoutingMiddleware

end Webcrown.Http
