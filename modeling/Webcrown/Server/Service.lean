import Webcrown.Http.BodyFraming
import Webcrown.Http.Middlewares.CommonRoutes
import Webcrown.Server.Application
import Webcrown.Server.Requests

/-!
# Requests as they are served

A session whose first read brings a whole request serves it in the handler of that read: the
middlewares get the head that was sent, and what begins with the empty line behind it for the
body. The socket takes as much of the built response as it has room for, and nothing that
happens afterwards adds to that.
-/

namespace Webcrown.Server

open Bytes Common Http Transitions

namespace Session

open State

variable {s : Session} {o o' : Option Session} {d : Sessions × SessionEvent}
  {trs : List (Transition (Option Session) (Sessions × SessionEvent))}

/-- A session object, if there is one yet, has not answered. -/
def Waiting (o : Option Session) : Prop := ∀ s, o = some s → s.Unanswered

theorem answered_of_not_delivered {tr : Transition (Option Session) (Sessions × SessionEvent)}
    (h : delivered tr = none) : answered tr = none := by
  cases hanswered : answered tr with
  | none => rfl
  | some a =>
    obtain ⟨-, chunk, -, -, hchunk, -⟩ := delivered_of_answered hanswered
    rw [h] at hchunk
    cases hchunk

theorem Waiting.next (h : Waiting o) (hsends : ¬ Sends ⟨o, d, o'⟩)
    (hnone : delivered ⟨o, d, o'⟩ = none) (hnext : Session.next o d = some o') : Waiting o' := by
  cases o with
  | none =>
    obtain ⟨sessions, e⟩ := d
    cases e with
    | create id m =>
      obtain rfl := Option.some.inj hnext
      rintro s hs
      rw [← Option.some.inj hs]
      exact unanswered_fresh id m
    | accepted failed => cases hnext
    | connect bufferSize => cases hnext
    | own e => cases hnext
    | expired env => cases hnext
  | some s =>
    obtain ⟨t, rfl, ht⟩ :=
      (h s rfl).next hsends (answered_of_not_delivered hnone) hnext
    intro u hu
    rw [← Option.some.inj hu]
    exact ht

theorem Waiting.run (h : Waiting o) (hrun : Session.Run o trs o')
    (hsends : ∀ tr ∈ trs, ¬ Sends tr) (hnone : ∀ tr ∈ trs, delivered tr = none) : Waiting o' :=
  (hrun.invariant h fun tr htr hnext hbefore =>
    hbefore.next (hsends tr htr) (hnone tr htr) hnext).1

theorem Fed.parser_fresh (h : Fed [] (some s)) : ∃ t, s.parser = Parser.fresh t := by
  obtain ⟨t, cs, hrun, hchunks⟩ := h
  obtain rfl := List.map_eq_nil_iff.mp hchunks
  refine ⟨t, ?_⟩
  generalize s.parser = p, Parser.fresh t = q at hrun ⊢
  cases hrun
  rfl

/-- The handler of a first read that brings a whole head. -/
theorem requested_head (hparser : ∃ t, s.parser = Parser.fresh t) {i : ℕ} {c : Chunk}
    {head : RequestHead} {rest : ByteString}
    (hread : s.reads[i]? = some (some (.received c))) (hc : c.bytes = head.bytes ++ rest)
    (htype : head.contentType.takesBody = true)
    (hwait : ¬(rest = [] ∧ ∃ v, head.field (ascii "content-length") = some v ∧ 0 < atoi v)) :
    s.requested i = some (head.request (crlf ++ crlf ++ rest)) := by
  obtain ⟨t, ht⟩ := hparser
  have hsize : c.size ≠ 0 := by
    have hhead := head.four_le_bytes
    rw [Chunk.size, hc, List.length_append]
    omega
  have hcall := head.call_body t hc htype hwait
  rw [← ht] at hcall
  rw [requested_eq (s := ⟨s, ∅⟩) hread hsize hcall]
  simp [handed]

/-- What is sent first starts a write, unless `sending_` is set without one. -/
theorem Quiet.exists_sendAsync {s : State} (h : s.Quiet) (hsending : s.sending = false)
    {text : ByteString} (htext : text ≠ []) (hfits : text.length ≤ maxSize) (env : Env) :
    ∃ t, s.sendAsync .io env text = some t ∧ t.writes.isEmpty = false := by
  have hroom : ¬ maxSize < s.sendBufferMain.length + text.length := by
    rw [h.main, List.length_nil, Nat.zero_add]
    exact Nat.not_lt.mpr hfits
  refine ⟨trySend env { s with
    sendBufferMain := s.sendBufferMain ++ text
    bytesPending := UInt64.ofNat (s.sendBufferMain ++ text).length }, ?_, ?_⟩
  · simp [State.sendAsync, htext, h.main, hfits]
  · simp [writes_trySend, hsending, htext]

theorem isEmpty_writes_disconnect (s : State) (env : Env) :
    (s.disconnect .io env).writes.isEmpty = s.writes.isEmpty := by
  unfold State.disconnect State.disconnectHandler
  split_ifs <;> simp [shutdownSession, closeSocket, clearBuffers, unregisterSession, record]

/-- The part of the read handler that answers a request leaves a write outstanding. -/
theorem Quiet.onReceive_answer {s : State} (h : s.Quiet) (hsending : s.sending = false) {i : ℕ}
    {respond : Respond} {request : HttpRequest} {text : ByteString}
    (hrequest : s.requested i = some request) (hrespond : respond request = .ok text)
    (htext : text ≠ []) (hfits : text.length ≤ maxSize) (env : Env) :
    ∃ chunk t, s.reads[i]? = some (some (.received chunk)) ∧ chunk.size ≠ 0 ∧
      (s.received i chunk).onReceive env respond chunk = some t ∧ t.writes.isEmpty = false := by
  obtain ⟨chunk, r, hget, hsize, hcall, hhanded⟩ := requested_eq_some hrequest
  obtain ⟨hec, hphase, hrequest'⟩ := handed_eq_some hhanded
  have hreceive : (s.received i chunk).onReceive env respond chunk =
      ((((s.received i chunk).parsed r.parser).record
        (.execute (s.received i chunk).connected)).sendAsync .io env text).map
        (State.disconnect .io env) :=
    onReceive_of_response hcall hec hphase hrequest' hrespond
  have hquiet : (((s.received i chunk).parsed r.parser).record
      (.execute (s.received i chunk).connected)).Quiet :=
    ⟨h.wire, h.main, h.flush, h.writes, h.trySends⟩
  obtain ⟨u, hu, hwrites⟩ := hquiet.exists_sendAsync hsending htext hfits env
  refine ⟨chunk, u.disconnect .io env, hget, hsize, ?_, ?_⟩
  · rw [hreceive, hu, Option.map_some]
  · rw [isEmpty_writes_disconnect, hwrites]

theorem Quiet.exists_answer {s : State} (h : s.Quiet) (hsending : s.sending = false) {i : ℕ}
    {env : Env} {respond : Respond} {request : HttpRequest} {text : ByteString}
    (hrequest : s.requested i = some request) (hrespond : respond request = .ok text)
    (htext : text ≠ []) (hfits : text.length ≤ maxSize) :
    ∃ t, s.readHandler i env respond = some t := by
  obtain ⟨chunk, t, hget, hsize, hreceive, -⟩ :=
    h.onReceive_answer hsending hrequest hrespond htext hfits env
  simp only [State.readHandler, hget, asyncReceiveHandler, if_neg hsize]
  exact ⟨_, Option.map_eq_some_iff.mpr ⟨_, hreceive, rfl⟩⟩

/-- A session that `sessions_` holds is there to the end of the handler that answers. -/
theorem Quiet.dangles_answer {s : State} (h : s.Quiet) (hsending : s.sending = false)
    (hid : s.sessionId ∈ s.sessions) {i : ℕ} {env : Env} {respond : Respond}
    {request : HttpRequest} {text : ByteString} (hrequest : s.requested i = some request)
    (hrespond : respond request = .ok text) (htext : text ≠ []) (hfits : text.length ≤ maxSize)
    (held : Bool) (wild : State) : s.dangles ⟨.readHandler i env respond, held, wild⟩ = false := by
  obtain ⟨chunk, t, hget, -, hreceive, hwrites⟩ :=
    h.onReceive_answer hsending hrequest hrespond htext hfits env
  simp [dangles, hget, hreceive, owned, hid, hwrites]

end Session

namespace WebServer

open Session State

variable {v v' w : WebServer} {ts us : List (Transition WebServer Event)} {m : Uninitialised}
  {r : SessionRef} {s : Session}

theorem waiting_listening (m : Uninitialised) (r : SessionRef) :
    Waiting (listening.accept m).objects[r]? := by
  cases r with
  | zero =>
    intro s hs
    rw [← Option.some.inj hs]
    exact unanswered_fresh 1 m
  | succ r =>
    intro s hs
    cases hs

theorem before_first_read (hrun : Run (listening.accept m) ts v) (hs : v.objects[r]? = some s)
    (hsends : ∀ tr ∈ ts, ∀ thread env buffer,
      tr.event ≠ .session r (.sendAsync thread env buffer))
    (hfirst : ∀ tr ∈ trace r ts, delivered tr = none) :
    s.Unanswered ∧ ∃ t, s.parser = Parser.fresh t := by
  have hsession := run_trace (pending_listening m) hrun r
  rw [hs] at hsession
  have hfed := (fed_listening m r).run hsession
  rw [List.filterMap_eq_nil_iff.mpr hfirst] at hfed
  exact ⟨(waiting_listening m r).run hsession (sends_trace hsends) hfirst s rfl,
    hfed.parser_fresh⟩

/-- The handler that finishes a request returns where its answer fits, and the socket takes what
it takes of the answer at once, for good. -/
theorem wire_answer (hpending : v.Pending) (hs : v.objects[r]? = some s) (hwaits : s.Unanswered)
    (hsending : s.sending = false) {i : ℕ} {env : Env} {respond : Respond} {request : HttpRequest}
    {text : ByteString} (hrequest : s.requested i = some request)
    (hrespond : respond request = .ok text) (htext : text ≠ []) (hfits : text.length ≤ maxSize) :
    ∃ v', v.next (.session r (.readHandler i env respond)) = some v' ∧
      ∀ us w, Run v' us w → ∃ u, w.objects[r]? = some u ∧
        u.wire = if s.isOpen then text.take env.taken else [] := by
  obtain ⟨t, ht⟩ : ∃ t, State.readHandler i env respond ⟨s, v.sessions⟩ = some t :=
    Quiet.exists_answer hwaits.quiet hsending hrequest hrespond htext hfits
  obtain ⟨hlt, -⟩ := List.getElem?_eq_some_iff.mp hs
  set v' : WebServer := { v with objects := v.objects.set r t.toSession, sessions := t.sessions }
  have hnext : v.next (.session r (.readHandler i env respond)) = some v' := by
    simp only [WebServer.next, onSession, hs]
    exact congrArg (Option.map _) ht
  refine ⟨v', hnext, fun us w hlater => ?_⟩
  have hanswers : answered ⟨some s, (v.sessions, .own (.readHandler i env respond)),
      some t.toSession⟩ = some (request, respond) := by
    simp [answered, hrequest]
  have hstep : Session.next (some s) (v.sessions, .own (.readHandler i env respond)) =
      some (some t.toSession) := by
    simp [Session.next, State.next, ht]
  obtain ⟨u, text', i', env', hu, hanswered, hrespond', hevent, hwire⟩ :=
    hwaits.answer hanswers hstep
  obtain ⟨rfl, rfl⟩ : i = i' ∧ env = env' := by simpa using hevent
  simp only [hsending, and_true] at hwire
  obtain rfl : text = text' := Except.ok.inj (hrespond.symm.trans hrespond')
  obtain rfl := Option.some.inj hu
  have hrest := run_trace (hpending.next hnext) hlater r
  rw [show v'.objects[r]? = some t.toSession from List.getElem?_set_self hlt] at hrest
  obtain ⟨u, hu, hsame, -⟩ := hanswered.run hrest
  exact ⟨u, hu, hsame.trans hwire⟩

end WebServer

/-- In the run to `a`, the session has not read before and the application has sent nothing of its
own there; the read `i` has brought a whole head, with `rest` behind it. `sessions_` holds the
session, and `sending_` is not set without a write. -/
structure Application.FirstRead (middlewares : List Middleware) (order : IterationOrder)
    (ts : List (Transition Application WebServer.Event)) (a : Application) (r : SessionRef)
    (s : Session) (i : ℕ) (head : RequestHead) (rest : ByteString) : Prop where
  object : a.server.objects[r]? = some s
  registered : s.sessionId ∈ a.server.sessions
  idle : s.sending = false
  silent : ∀ tr ∈ ts, ∀ thread env buffer, tr.event ≠ .session r (.sendAsync thread env buffer)
  first : ∀ tr ∈ WebServer.trace r (serverTrace middlewares order ts),
    Session.delivered tr = none
  read : ∃ c, s.reads[i]? = some (some (.received c)) ∧ c.bytes = head.bytes ++ rest
  body : head.contentType.takesBody = true
  whole : ¬(rest = [] ∧ ∃ v, head.field (ascii "content-length") = some v ∧ 0 < atoi v)

namespace Application

open Session

variable {middlewares : List Middleware} {order : IterationOrder} {a a' b : Application}
  {ts us : List (Transition Application WebServer.Event)} {m : Uninitialised} {s₀ : Shared}
  {r : SessionRef} {s : Session} {i : ℕ} {env : Env} {respond : Respond}
  {head : RequestHead} {rest : ByteString}

theorem sends_serverTrace (hsends : ∀ tr ∈ ts, ∀ thread env buffer,
      tr.event ≠ .session r (.sendAsync thread env buffer)) :
    ∀ tr ∈ serverTrace middlewares order ts, ∀ thread env buffer,
      tr.event ≠ .session r (.sendAsync thread env buffer) := by
  intro tr' htr' thread env buffer hevent
  obtain ⟨tr, htr, rfl⟩ := List.mem_map.mp htr'
  rcases eq_of_answering hevent with ⟨he, -⟩ | ⟨i, env, respond, -, he⟩
  · exact hsends tr htr thread env buffer he
  · cases he

/-- The handler of the read `i` uses nothing that is gone and returns, and leaves what the
middlewares share as `shared`. From then on the socket of the session holds what it takes at once
of the built response, if it is open. -/
def Serves (middlewares : List Middleware) (order : IterationOrder) (a : Application)
    (r : SessionRef) (i : ℕ) (s : Session) (response : HttpResponse) (shared : Shared) : Prop :=
  ∀ env respond,
    (∀ held wild, State.dangles ⟨s, a.server.sessions⟩
      ⟨.readHandler i env (respondWith middlewares order a.shared), held, wild⟩ = false) ∧
    ∃ a', a.next middlewares order (.session r (.readHandler i env respond)) = some a' ∧
      a'.shared = shared ∧ ∀ us b, Run middlewares order a' us b →
        ∃ u, b.server.objects[r]? = some u ∧
          u.wire = if s.isOpen then (response.build order).1.take env.taken else []

theorem FirstRead.serves (hrun : Run middlewares order (listening m s₀) ts a)
    (h : FirstRead middlewares order ts a r s i head rest) {response : HttpResponse}
    {shared : Shared}
    (hchain : runMiddlewares middlewares (head.request (crlf ++ crlf ++ rest)) {} a.shared =
      (.ok response, shared))
    (hfits : (response.build order).1.length ≤ maxSize) :
    a.Serves middlewares order r i s response shared := by
  obtain ⟨c, hread, hc⟩ := h.read
  obtain ⟨hwaits, hparser⟩ := WebServer.before_first_read (run_server hrun) h.object
    (sends_serverTrace h.silent) h.first
  have hrequest := requested_head hparser hread hc h.body h.whole
  have hpending : a.server.Pending := ((run_server hrun).invariant (WebServer.pending_listening m)
    fun tr _ hnext hbefore => hbefore.next hnext).1
  have hrespond : respondWith middlewares order a.shared (head.request (crlf ++ crlf ++ rest)) =
      .ok (response.build order).1 := by
    rw [respondWith, hchain]
    rfl
  have htext : (response.build order).1 ≠ [] := HttpResponse.build_ne_nil order response
  intro env respond
  refine ⟨Quiet.dangles_answer (s := ⟨s, a.server.sessions⟩) hwaits.quiet h.idle h.registered
    hrequest hrespond htext hfits, ?_⟩
  obtain ⟨v', hnext, hlater⟩ :=
    WebServer.wire_answer hpending h.object hwaits h.idle hrequest hrespond htext hfits
  have hrequested : a.server.requested (.session r (.readHandler i env respond)) =
      some (head.request (crlf ++ crlf ++ rest)) := by
    rw [WebServer.requested, h.object, Option.bind_some, hrequest]
  refine ⟨⟨v', shared⟩, ?_, rfl, fun us b hus => hlater _ _ (run_server hus)⟩
  simp only [Application.next, hrequested, hchain]
  exact congrArg (Option.map _) hnext

/-- In every run of a server with any middlewares, a session in `sessions_` whose first read brings
a whole head is served in the handler of this read, where the middlewares return a response whose
text fits into a buffer. They run on the head that was sent; the body begins with the CR LF CR LF
that ends the head. The socket takes of what `build()` makes of their response as much as it has
room for at once, and no later event of any session adds to that or takes from it. -/
theorem first_read_served (hrun : Run middlewares order (listening m s₀) ts a)
    (h : FirstRead middlewares order ts a r s i head rest) {response : HttpResponse}
    {shared : Shared}
    (hchain : runMiddlewares middlewares (head.request (crlf ++ crlf ++ rest)) {} a.shared =
      (.ok response, shared))
    (hfits : (response.build order).1.length ≤ maxSize) :
    a.Serves middlewares order r i s response shared :=
  h.serves hrun hchain hfits

section Routes

variable {routing : RoutingMiddleware} {paths : RouteRef → CommonPath}

theorem hasTable_run (h : routing.HasTable paths s₀)
    (hrun : Run [routing.execute] order (listening m s₀) ts a) :
    routing.HasTable paths a.shared := by
  refine (hrun.invariant (I := fun a => routing.HasTable paths a.shared) h
    fun tr _ hnext hbefore => ?_).1
  obtain ⟨-, hshared⟩ := next_cases hnext
  rw [hshared]
  split
  · exact hbefore
  · rename_i request _
    rw [shared_runMiddlewares_singleton]
    exact hbefore.congr (routing.sameRoutes_execute request {} tr.before.shared)

/-- Routing a request whose first matching route has a callback that returns. -/
theorem runMiddlewares_of_firstMatch {request : HttpRequest} {shared : Shared} {route : RouteRef}
    {left : HttpResponse}
    (hreturns : ∀ route ∈ routing.routers, ∃ b, (shared.isMatch route request).1 = .ok b)
    (hfirst : routing.firstMatch request shared = some route)
    (hleft : routing.outcome request {} shared route = (.ok (), left)) :
    runMiddlewares [routing.execute] request {} shared =
      (.ok left, (routing.execute request {} shared).shared) := by
  have hend := (routing.loop_of_find_some {} hreturns hfirst).2
  rw [hleft] at hend
  obtain ⟨hresult, hresponse⟩ := Prod.mk.inj hend
  simp [runMiddlewares, RoutingMiddleware.execute, hresult, hresponse]

theorem runMiddlewares_of_no_match {request : HttpRequest} {shared : Shared}
    (hreturns : ∀ route ∈ routing.routers, ∃ b, (shared.isMatch route request).1 = .ok b)
    (hnone : routing.firstMatch request shared = none) :
    runMiddlewares [routing.execute] request {} shared =
      (.ok (({} : HttpResponse).setStatus .notFound),
        (routing.execute request {} shared).shared) := by
  obtain ⟨hresult, hresponse, -⟩ := routing.loop_of_find_none {} hreturns hnone
  simp [runMiddlewares, RoutingMiddleware.execute, hresult, hresponse]

theorem build_notFound (order : IterationOrder) :
    ((({} : HttpResponse).setStatus .notFound).build order).1 =
      ascii "HTTP/1.1 404 Not Found\r\n\r\n" := by
  have htext : ascii "HTTP/1.1" ++ ascii " " ++ HttpResponse.toDecimal 404 ++ ascii " " ++
      ascii "Not Found" ++ crlf ++ crlf = ascii "HTTP/1.1 404 Not Found\r\n\r\n" := by
    decide +kernel
  simpa [HttpResponse.build, HttpResponse.setStatus, makeStatus, order.entries_empty] using htext

end Routes

section UsersExchange

def usersPaths : RouteRef → CommonPath := fun _ => {
  method := .get
  segs := [ascii "users"]
  key := some (ascii "id")
  plain := by decide +kernel
  key_free := by
    intro n hn
    rw [← Option.some.inj hn]
    decide +kernel }

def usersRouting : RoutingMiddleware where
  routers := [0]
  cb := fun _ _ _ response _ => (.ok (), response.setStatus .ok)

def usersShared : Shared where
  routes := fun _ =>
    ⟨ascii "/users/:id", ascii "/users", .get, [⟨ascii "id", [], 7⟩], by decide +kernel⟩
  log := []

def usersHead : RequestHead where
  method := ascii "GET"
  target := ascii "/users/7"
  lines := hostHead.lines
  method_ne := hostHead.method_ne
  method_alpha := hostHead.method_alpha
  target_ne := by decide +kernel
  target_path := by decide +kernel
  lines_ne := hostHead.lines_ne
  lines_named := hostHead.lines_named

def usersChunk : Chunk where
  bytes := usersHead.bytes
  stale := fun _ => 0
  size_le := by decide +kernel

def usersEvents : List WebServer.Event :=
  [.completeAccept 0 false, .acceptHandler 0 64 zeroed,
    .session 0 (.completeRead 0 (.received usersChunk))]

def brought (s : Session) (i : ℕ) : Option ByteString :=
  match s.reads[i]? with
  | some (some (.received c)) => some c.bytes
  | _ => none

theorem make_usersPaths : ∀ route ∈ usersRouting.routers,
    Route.make (usersPaths route).method (usersPaths route).path =
      .ok (usersShared.routes route) := by
  intro route _
  change Route.make .get (usersPaths 0).path = .ok (usersShared.routes 0)
  decide +kernel

theorem exec_usersEvents :
    ∃ ts a s shared, exec (next [usersRouting.execute] .byKey) (listening zeroed usersShared)
        usersEvents = some (ts, a) ∧
      FirstRead [usersRouting.execute] .byKey ts a 0 s 0 usersHead [] ∧ s.isOpen = true ∧
      runMiddlewares [usersRouting.execute] (usersHead.request (crlf ++ crlf ++ [])) {} a.shared =
        (.ok (({} : HttpResponse).setStatus .ok), shared) := by
  have hend : (exec (next [usersRouting.execute] .byKey) (listening zeroed usersShared)
      usersEvents).map (fun r => (r.2.server.objects[0]?.any fun s =>
          s.isOpen && !s.sending && decide (s.sessionId ∈ r.2.server.sessions) &&
            brought s 0 == some usersHead.bytes,
        (WebServer.trace 0 (serverTrace [usersRouting.execute] .byKey r.1)).all fun tr =>
          (Session.delivered tr).isNone,
        (runMiddlewares [usersRouting.execute] (usersHead.request (crlf ++ crlf ++ [])) {}
          r.2.shared).1.toOption)) =
      some (true, true, some (({} : HttpResponse).setStatus .ok)) := by
    decide +kernel
  obtain ⟨⟨ts, a⟩, hexec, hend⟩ := Option.map_eq_some_iff.mp hend
  obtain ⟨hobject, hfirst, hresponse⟩ : _ = true ∧ _ = true ∧ _ = some _ := by
    simpa only [Prod.mk.injEq] using hend
  obtain ⟨s, hs, hobject⟩ := (Option.any_eq_true _ _).mp hobject
  simp only [Bool.and_eq_true, Bool.not_eq_true', decide_eq_true_eq, beq_iff_eq] at hobject
  obtain ⟨⟨⟨hopen, hsending⟩, hregistered⟩, hread⟩ := hobject
  refine ⟨ts, a, s, _, hexec, ⟨hs, hregistered, hsending, ?_, ?_, ?_, by decide +kernel, ?_⟩,
    hopen, Prod.ext ?_ rfl⟩
  · exact Transitions.Run.forall_of_exec
      (P := fun e => ∀ thread env buffer, e ≠ .session 0 (.sendAsync thread env buffer)) hexec (by
        simp [usersEvents])
  · intro tr htr
    simpa using List.all_eq_true.mp hfirst tr htr
  · rw [brought] at hread
    split at hread
    · rename_i c hget
      exact ⟨c, hget, by simpa using hread⟩
    · cases hread
  · rintro ⟨-, v, hv, -⟩
    have hnone : usersHead.field (ascii "content-length") = none := by
      decide +kernel
    rw [hnone] at hv
    cases hv
  · cases hresult : (runMiddlewares [usersRouting.execute]
        (usersHead.request (crlf ++ crlf ++ [])) {} a.shared).1 with
    | error thrown =>
      rw [hresult] at hresponse
      cases hresponse
    | ok response =>
      rw [hresult] at hresponse
      exact congrArg Except.ok (Option.some.inj hresponse)

theorem first_read_served_users :
    ∃ ts a s shared, exec (next [usersRouting.execute] .byKey) (listening zeroed usersShared)
        usersEvents = some (ts, a) ∧
      s.isOpen = true ∧
      a.Serves [usersRouting.execute] .byKey 0 0 s (({} : HttpResponse).setStatus .ok) shared := by
  obtain ⟨ts, a, s, shared, hexec, hread, hopen, hchain⟩ := exec_usersEvents
  exact ⟨ts, a, s, shared, hexec, hopen,
    first_read_served (Transitions.Run.of_exec hexec).1 hread hchain (by decide +kernel)⟩

end UsersExchange

end Application

end Webcrown.Server
