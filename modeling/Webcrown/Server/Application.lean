import Webcrown.Http.Middlewares.Authorization
import Webcrown.Server.Exchanges

/-!
# The server with its middlewares

All sessions of a server share its middlewares, and with them the route objects. The
handler of a read runs them on the request that it finishes, so the log of what they
invoke is that of all sessions, in the order of their requests.
-/

namespace Webcrown.Http

open Bytes Common Shared

theorem shared_runMiddlewares_singleton (middleware : Middleware) (request : HttpRequest)
    (response : HttpResponse) (s : Shared) :
    (runMiddlewares [middleware] request response s).2 =
      (middleware request response s).shared := by
  simp only [runMiddlewares]
  split <;> rfl

/-- One request adds to the log what authorization has invoked, which is no route callback, and
then one route callback at most, that of a route which has been granted under all its levels. -/
theorem log_runMiddlewares (auth : AuthMiddleware) (routing : RoutingMiddleware)
    (request : HttpRequest) (response : HttpResponse) (s : Shared) :
    ∃ front, (∀ route parameters, Invocation.callback route parameters ∉ front) ∧
      ((runMiddlewares [auth.execute, routing.execute] request response s).2.log =
          s.log ++ front ∨
        ∃ route parameters,
          (runMiddlewares [auth.execute, routing.execute] request response s).2.log =
            s.log ++ front ++ [.callback route parameters] ∧
          (∀ level, (route, level) ∈ auth.routes →
            ∃ i ∈ front, Invocation.Granted request route level i) ∧
          ∀ i ∈ front, ∃ r level, Invocation.Granted request r level i) := by
  obtain ⟨front, hsame, hlog, hnone, honly, hgranted⟩ := auth.execute_checks request response s
  refine ⟨front, hnone, ?_⟩
  rw [runMiddlewares]
  generalize auth.execute request response s = e at hsame hlog honly hgranted
  split
  · exact .inl hlog
  · rename_i hresult
    rw [shared_runMiddlewares_singleton, routing.log_execute]
    rcases routing.loop_spec request routing.routers e.response e.shared with
      h | ⟨route, parameters, hmatch, h⟩
    · exact .inl (h.trans hlog)
    · exact .inr ⟨route, parameters, by rw [h, hlog], fun level hmem =>
        hgranted hresult route level hmem ((hsame.verdict route).trans hmatch), honly hresult⟩
  · exact .inl hlog

end Webcrown.Http

namespace Webcrown.Server

open Bytes Common Http Transitions

/-- What `on_receive` sends in answer to a request: what `build()` makes of the response that the
middlewares leave. -/
def respondWith (middlewares : List Middleware) (order : IterationOrder) (s : Shared) : Respond :=
  fun request => (runMiddlewares middlewares request {} s).1.map fun response =>
    (response.build order).1

/-- A server and what its middlewares share. -/
structure Application where
  server : WebServer
  shared : Shared

namespace WebServer

/-- The request that the handler of an event finishes. -/
def requested (v : WebServer) : Event → Option HttpRequest
  | .session r (.readHandler i _ _) => v.objects[r]?.bind fun s => s.requested i
  | _ => none

/-- The event whose handler answers with `respond`. -/
def Event.answering (respond : Respond) : Event → Event
  | .session r (.readHandler i env _) => .session r (.readHandler i env respond)
  | e => e

end WebServer

namespace Application

/-- The state after an event. The handler of a read runs the middlewares on what the routes have
come to. -/
def next (middlewares : List Middleware) (order : IterationOrder) (a : Application)
    (e : WebServer.Event) : Option Application :=
  (a.server.next (e.answering (respondWith middlewares order a.shared))).map fun server =>
    { server := server
      shared := match a.server.requested e with
        | none => a.shared
        | some request => (runMiddlewares middlewares request {} a.shared).2 }

/-- A run of the server with its middlewares. -/
abbrev Run (middlewares : List Middleware) (order : IterationOrder) :
    Application → List (Transition Application WebServer.Event) → Application → Prop :=
  Transitions.Run (next middlewares order)

def listening (m : Uninitialised) (s : Shared) : Application where
  server := WebServer.listening.accept m
  shared := s

variable {middlewares : List Middleware} {order : IterationOrder} {a a' : Application}
  {e : WebServer.Event} {ts : List (Transition Application WebServer.Event)} {m : Uninitialised}
  {s₀ : Shared}

theorem next_cases (h : a.next middlewares order e = some a') :
    a.server.next (e.answering (respondWith middlewares order a.shared)) = some a'.server ∧
      a'.shared = match a.server.requested e with
        | none => a.shared
        | some request => (runMiddlewares middlewares request {} a.shared).2 := by
  obtain ⟨server, hserver, rfl⟩ := Option.map_eq_some_iff.mp h
  exact ⟨hserver, rfl⟩

/-- The transitions of the server in a run. -/
def serverTrace (middlewares : List Middleware) (order : IterationOrder)
    (ts : List (Transition Application WebServer.Event)) :
    List (Transition WebServer WebServer.Event) :=
  ts.map fun tr => ⟨tr.before.server,
    tr.event.answering (respondWith middlewares order tr.before.shared), tr.after.server⟩

theorem run_server (h : Run middlewares order a ts a') :
    WebServer.Run a.server (serverTrace middlewares order ts) a'.server := by
  induction h with
  | nil a => exact .nil a.server
  | cons hnext _ ih => exact .cons (next_cases hnext).1 ih

end Application

namespace WebServer

variable {v v' : WebServer} {r : SessionRef} {e : Event}

/-- The sessions whose parsers have finished. -/
def finished (v : WebServer) : Finset SessionRef :=
  (Finset.range v.objects.length).filter fun r =>
    v.objects[r]?.any fun s => s.parser.parsePhase == .finished

theorem mem_finished : r ∈ v.finished ↔ Session.Finished v.objects[r]? := by
  rw [finished, Finset.mem_filter, Finset.mem_range, Option.any_eq_true]
  constructor
  · rintro ⟨-, s, hs, hphase⟩
    exact ⟨s, hs, by simpa using hphase⟩
  · rintro ⟨s, hs, hphase⟩
    exact ⟨(List.getElem?_eq_some_iff.mp hs).1, s, hs, by simpa using hphase⟩

theorem finished_subset (hpending : v.Pending) (hv : v.next e = some v') :
    v.finished ⊆ v'.finished := by
  intro r hr
  rw [mem_finished] at hr ⊢
  have hrun := run_trace hpending (.cons hv (.nil v')) r
  exact (hrun.invariant hr fun tr _ hnext hbefore => Session.finished_next hbefore hnext).1

theorem requested_cases {request : HttpRequest} (h : v.requested e = some request) :
    ∃ r i env respond s, e = .session r (.readHandler i env respond) ∧
      v.objects[r]? = some s ∧ s.requested i = some request := by
  unfold requested at h
  split at h
  · rename_i r i env respond
    obtain ⟨s, hs, hrequest⟩ := Option.bind_eq_some_iff.mp h
    exact ⟨r, i, env, respond, s, rfl, hs, hrequest⟩
  · cases h

/-- The handler that answers a request finishes the parser of its session. -/
theorem finished_ssubset {respond : Respond} (hpending : v.Pending)
    (hrequested : (v.requested e).isSome) (hv : v.next (e.answering respond) = some v') :
    v.finished ⊂ v'.finished := by
  obtain ⟨request, hrequest⟩ := Option.isSome_iff_exists.mp hrequested
  obtain ⟨r, i, env, respond', s, rfl, hs, hrequest⟩ := requested_cases hrequest
  obtain ⟨s', t, hs', ht, ht', -⟩ := objects_onSession (onSession_next hv)
  obtain rfl : s = s' := Option.some.inj (hs.symm.trans hs')
  have hbefore : r ∉ v.finished := by
    rw [mem_finished]
    rintro ⟨s', hs', hphase⟩
    obtain rfl : s = s' := Option.some.inj (hs.symm.trans hs')
    rw [State.requested_of_finished (s := ⟨s, v.sessions⟩) hphase i] at hrequest
    cases hrequest
  have hafter : r ∈ v'.finished := mem_finished.mpr
    ⟨t.toSession, ht', State.finished_of_requested (s := ⟨s, v.sessions⟩) hrequest ht⟩
  exact Finset.ssubset_iff_subset_ne.mpr ⟨finished_subset hpending hv, fun heq =>
    hbefore (heq ▸ hafter)⟩

end WebServer

namespace Application

section Protected

variable {auth : AuthMiddleware} {routing : RoutingMiddleware} {order : IterationOrder}
  {a a' : Application} {e : WebServer.Event} {ts : List (Transition Application WebServer.Event)}
  {m : Uninitialised} {s₀ : Shared}

theorem log_next (h : a.next [auth.execute, routing.execute] order e = some a') :
    ∃ front, (∀ route parameters, Invocation.callback route parameters ∉ front) ∧
      (a'.shared.log = a.shared.log ++ front ∨
        ∃ request route parameters, a.server.requested e = some request ∧
          a'.shared.log = a.shared.log ++ front ++ [.callback route parameters] ∧
          (∀ level, (route, level) ∈ auth.routes →
            ∃ i ∈ front, Invocation.Granted request route level i) ∧
          ∀ i ∈ front, ∃ r level, Invocation.Granted request r level i) := by
  obtain ⟨-, hshared⟩ := next_cases h
  rw [hshared]
  cases hrequest : a.server.requested e with
  | none => exact ⟨[], by simp, .inl (List.append_nil _).symm⟩
  | some request =>
    obtain ⟨front, hnone, hlog | ⟨route, parameters, hlog, hgranted, honly⟩⟩ :=
      log_runMiddlewares auth routing request {} a.shared
    · exact ⟨front, hnone, .inl hlog⟩
    · exact ⟨front, hnone, .inr ⟨request, route, parameters, rfl, hlog, hgranted, honly⟩⟩

def isCallback : Invocation → Bool
  | .callback _ _ => true
  | .authorize _ _ _ _ => false

theorem countP_isCallback {front : List Invocation}
    (h : ∀ route parameters, Invocation.callback route parameters ∉ front) :
    front.countP isCallback = 0 := by
  rw [List.countP_eq_zero]
  intro i hi
  cases i with
  | callback route parameters => exact absurd hi (h route parameters)
  | authorize token route level result => exact Bool.false_ne_true

theorem callbacks_next (hpending : a.server.Pending)
    (hcount : a.shared.log.countP isCallback ≤ a.server.finished.card)
    (h : a.next [auth.execute, routing.execute] order e = some a') :
    a'.shared.log.countP isCallback ≤ a'.server.finished.card := by
  obtain ⟨hserver, -⟩ := next_cases h
  obtain ⟨front, hnone, hlog | ⟨request, route, parameters, hrequest, hlog, -⟩⟩ := log_next h
  · rw [hlog, List.countP_append, countP_isCallback hnone, Nat.add_zero]
    exact hcount.trans (Finset.card_le_card (WebServer.finished_subset hpending hserver))
  · have hcard := Finset.card_lt_card
      (WebServer.finished_ssubset hpending (by rw [hrequest]; rfl) hserver)
    rw [hlog, List.countP_append, List.countP_append, countP_isCallback hnone]
    simp only [List.countP_singleton, isCallback, if_true]
    omega

theorem eq_of_append_singleton {α : Type*} {front middle back : List α} {x y : α}
    (h : front ++ [x] = middle ++ y :: back) (hy : y ∉ front) : middle = front ∧ y = x := by
  rcases List.append_eq_append_iff.mp h with ⟨rest, rfl, hrest⟩ | ⟨rest, rfl, hrest⟩
  · cases rest with
    | nil => exact ⟨List.append_nil _, (List.cons.inj hrest).1.symm⟩
    | cons z rest => simp at hrest
  · cases rest with
    | nil => exact ⟨(List.append_nil _).symm, (List.cons.inj hrest).1⟩
    | cons z rest =>
      rw [(List.cons.inj hrest).1] at hy
      simp at hy

/-- Before a callback of a run stands what its request has been granted. -/
theorem callbacks_granted (hlog₀ : s₀.log = [])
    (hrun : Run [auth.execute, routing.execute] order (listening m s₀) ts a)
    {before after : List Invocation} {route : RouteRef} {parameters : PathParameters}
    (hend : a.shared.log = before ++ .callback route parameters :: after) :
    ∃ tr ∈ ts, ∃ request front, tr.before.server.requested tr.event = some request ∧
      before = tr.before.shared.log ++ front ∧
      (∀ level, (route, level) ∈ auth.routes →
        ∃ i ∈ front, Invocation.Granted request route level i) ∧
      ∀ i ∈ front, ∃ r level, Invocation.Granted request r level i := by
  have hgrow : ∀ tr ∈ ts, tr.before.shared.log <+: tr.after.shared.log := by
    intro tr htr
    obtain ⟨front, -, hlog | ⟨request, route, parameters, -, hlog, -⟩⟩ :=
      log_next (hrun.step_of_mem htr)
    · exact ⟨front, hlog.symm⟩
    · exact ⟨front ++ [.callback route parameters], by rw [hlog, List.append_assoc]⟩
  obtain ⟨tr, htr, middle, back, hbefore, hafter⟩ :=
    hrun.written (f := fun a => a.shared.log) hgrow hend (by simp [listening, hlog₀])
  obtain ⟨front, hnone, hlog | ⟨request, route', parameters', hrequest, hlog, hgranted, honly⟩⟩ :=
    log_next (hrun.step_of_mem htr)
  · rw [hlog, List.append_assoc, List.append_cancel_left_eq] at hafter
    exact absurd (by simp [hafter]) (hnone route parameters)
  · rw [hlog, List.append_assoc, List.append_assoc, List.append_cancel_left_eq] at hafter
    obtain ⟨rfl, hcall⟩ := eq_of_append_singleton hafter (hnone route parameters)
    obtain ⟨rfl, rfl⟩ : route = route' ∧ parameters = parameters' := by simpa using hcall
    exact ⟨tr, htr, request, _, hrequest, hbefore, hgranted, honly⟩

/-- In every run of a server whose middlewares are authorization and routing, with any number of
sessions and in any order of their handlers: before the callback of a route is invoked, the
authorization callback has been invoked under every level of that route, in answer to the same
request and with a token of that request, and has let it pass; and no session invokes more than
one callback. -/
theorem callbacks_authorized (hlog₀ : s₀.log = [])
    (hrun : Run [auth.execute, routing.execute] order (listening m s₀) ts a) :
    (∀ before route parameters after,
        a.shared.log = before ++ .callback route parameters :: after →
        ∃ tr ∈ ts, ∃ request front, tr.before.server.requested tr.event = some request ∧
          before = tr.before.shared.log ++ front ∧
          (∀ level, (route, level) ∈ auth.routes →
            ∃ i ∈ front, Invocation.Granted request route level i) ∧
          ∀ i ∈ front, ∃ r level, Invocation.Granted request r level i) ∧
      a.shared.log.countP isCallback ≤ a.server.objects.length := by
  refine ⟨fun before route parameters after => callbacks_granted hlog₀ hrun, ?_⟩
  have hcount := (hrun.invariant (I := fun a => a.server.Pending ∧
      a.shared.log.countP isCallback ≤ a.server.finished.card)
    ⟨WebServer.pending_listening m, by simp [listening, hlog₀]⟩ fun tr _ hnext hbefore =>
      ⟨hbefore.1.next (next_cases hnext).1, callbacks_next hbefore.1 hbefore.2 hnext⟩).1.2
  refine hcount.trans ((Finset.card_filter_le _ _).trans ?_)
  rw [Finset.card_range]

end Protected

section Answers

variable {middlewares : List Middleware} {order : IterationOrder} {a : Application}
  {ts : List (Transition Application WebServer.Event)} {m : Uninitialised} {s₀ : Shared}
  {r : SessionRef}

theorem eq_of_answering {respond : Respond} {e : WebServer.Event} {e' : Event}
    (h : e.answering respond = .session r e') :
    e = .session r e' ∧ (∀ i env respond', e' ≠ .readHandler i env respond') ∨
      ∃ i env respond', e = .session r (.readHandler i env respond') ∧
        e' = .readHandler i env respond := by
  unfold WebServer.Event.answering at h
  split at h
  · rename_i r' i env respond'
    obtain ⟨rfl, rfl⟩ : r' = r ∧ Event.readHandler i env respond = e' := by simpa using h
    exact .inr ⟨i, env, respond', rfl, rfl⟩
  · rename_i hnot
    exact .inl ⟨h, fun i env respond' he => hnot r i env respond' (he ▸ h)⟩

/-- A request that a session answers in a run of the server, in the run of the application. -/
theorem answered_serverTrace {request : HttpRequest} {respond : Respond}
    (h : (request, respond) ∈ (WebServer.trace r (serverTrace middlewares order ts)).filterMap
      Session.answered) :
    ∃ tr ∈ ts, ∃ i env respond', tr.event = .session r (.readHandler i env respond') ∧
      tr.before.server.requested tr.event = some request ∧
      respond = respondWith middlewares order tr.before.shared := by
  obtain ⟨tr', htr', hanswered⟩ := List.mem_filterMap.mp h
  obtain ⟨tr'', htr'', hseen⟩ := List.mem_filterMap.mp htr'
  obtain ⟨d, hd, rfl⟩ := Option.map_eq_some_iff.mp hseen
  obtain ⟨tr, htr, rfl⟩ := List.mem_map.mp htr''
  unfold Session.answered at hanswered
  split at hanswered
  · rename_i s i env respond' hs hevent
    obtain ⟨request', hrequest, hpair⟩ := Option.map_eq_some_iff.mp hanswered
    obtain ⟨rfl, rfl⟩ := Prod.mk.inj hpair
    rcases eq_of_answering (WebServer.seen_own hd hevent) with
      ⟨-, hnot⟩ | ⟨i', env', respond'', he, he'⟩
    · exact absurd rfl (hnot i env respond')
    · obtain ⟨rfl, rfl, rfl⟩ : i = i' ∧ env = env' ∧
          respond' = respondWith middlewares order tr.before.shared := by simpa using he'
      have hs' : tr.before.server.objects[r]? = some s := hs
      refine ⟨tr, htr, i, env, respond'', he, ?_, rfl⟩
      rw [he, WebServer.requested, hs', Option.bind_some]
      exact hrequest
  · cases hanswered

/-- In every run of a server with any middlewares: where the application sends nothing of its own,
all that the client of a session ever gets is the beginning of what `build()` makes of the
response that the middlewares have left for the request which this session has sent. -/
theorem wire_of_middlewares (hrun : Run middlewares order (listening m s₀) ts a) {s : Session}
    (hs : a.server.objects[r]? = some s)
    (hsends : ∀ tr ∈ ts, ∀ thread env buffer,
      tr.event ≠ .session r (.sendAsync thread env buffer)) :
    s.wire = [] ∨ ∃ tr ∈ ts, ∃ i env respond request response,
      tr.event = .session r (.readHandler i env respond) ∧
      tr.before.server.requested tr.event = some request ∧
      (runMiddlewares middlewares request {} tr.before.shared).1 = .ok response ∧
      s.wire <+: (response.build order).1 := by
  have hsends' : ∀ tr ∈ serverTrace middlewares order ts, ∀ thread env buffer,
      tr.event ≠ .session r (.sendAsync thread env buffer) := by
    intro tr' htr' thread env buffer hevent
    obtain ⟨tr, htr, rfl⟩ := List.mem_map.mp htr'
    rcases eq_of_answering hevent with ⟨he, -⟩ | ⟨i, env, respond, -, he⟩
    · exact hsends tr htr thread env buffer he
    · cases he
  rcases WebServer.wire_run (run_server hrun) hs hsends' with
    ⟨-, hwire⟩ | ⟨request, respond, text, hanswers, hrespond, hwire⟩
  · exact .inl hwire
  · have hmem : (request, respond) ∈
        (WebServer.trace r (serverTrace middlewares order ts)).filterMap Session.answered := by
      rw [hanswers]
      exact List.mem_singleton_self _
    obtain ⟨tr, htr, i, env, respond', hevent, hrequest, rfl⟩ := answered_serverTrace hmem
    unfold respondWith at hrespond
    cases hresponse : (runMiddlewares middlewares request {} tr.before.shared).1 with
    | error thrown =>
      rw [hresponse] at hrespond
      cases hrespond
    | ok response =>
      rw [hresponse] at hrespond
      rw [← Except.ok.inj hrespond] at hwire
      exact .inr ⟨tr, htr, i, env, respond', request, response, hevent, hrequest, hresponse, hwire⟩

end Answers

section OwnerExchange

def ownerChunk : Chunk where
  bytes := ascii "GET /x HTTP/1.1\r\nhost: a\r\nauthorization: Bearer t\r\n\r\n"
  stale := fun _ => 0
  size_le := by decide +kernel

def ownerEvents : List WebServer.Event :=
  [.completeAccept 0 false, .acceptHandler 0 64 zeroed,
    .session 0 (.completeRead 0 (.received ownerChunk)),
    .session 0 (.readHandler 0 ⟨64, false⟩ fun _ => .ok [])]

theorem exec_ownerEvents :
    ∃ ts a s, exec (next [ownerAuth.execute, ownerRouting.execute] .byKey)
        (listening zeroed ownerShared) ownerEvents = some (ts, a) ∧
      a.shared.log = [.authorize (ascii "t") 0 .owner (.ok ⟨true, []⟩), .callback 0 []] ∧
      a.server.objects[0]? = some s := by
  have hend : (exec (next [ownerAuth.execute, ownerRouting.execute] .byKey)
      (listening zeroed ownerShared) ownerEvents).map (fun r =>
        (decide (r.2.shared.log =
          [.authorize (ascii "t") 0 .owner (.ok ⟨true, []⟩), .callback 0 []]),
          r.2.server.objects[0]?.isSome)) = some (true, true) := by
    decide +kernel
  obtain ⟨⟨ts, a⟩, hrun, hend⟩ := Option.map_eq_some_iff.mp hend
  obtain ⟨hlog, hsome⟩ := Prod.mk.inj hend
  obtain ⟨s, hs⟩ := Option.isSome_iff_exists.mp hsome
  exact ⟨ts, a, s, hrun, of_decide_eq_true hlog, hs⟩

theorem callbacks_authorized_ownerEvents :
    ∃ ts a, exec (next [ownerAuth.execute, ownerRouting.execute] .byKey)
        (listening zeroed ownerShared) ownerEvents = some (ts, a) ∧
      (∃ tr ∈ ts, ∃ request front, tr.before.server.requested tr.event = some request ∧
          [Invocation.authorize (ascii "t") 0 .owner (.ok ⟨true, []⟩)] =
            tr.before.shared.log ++ front ∧
          (∀ level, (0, level) ∈ ownerAuth.routes →
            ∃ i ∈ front, Invocation.Granted request 0 level i) ∧
          ∀ i ∈ front, ∃ r level, Invocation.Granted request r level i) ∧
      a.shared.log.countP isCallback ≤ a.server.objects.length := by
  obtain ⟨ts, a, s, hexec, hlog, -⟩ := exec_ownerEvents
  obtain ⟨hgranted, hcount⟩ := callbacks_authorized rfl (Transitions.Run.of_exec hexec).1
  exact ⟨ts, a, hexec, hgranted _ 0 [] [] hlog, hcount⟩

theorem wire_of_middlewares_ownerEvents :
    ∃ ts a s, exec (next [ownerAuth.execute, ownerRouting.execute] .byKey)
        (listening zeroed ownerShared) ownerEvents = some (ts, a) ∧
      a.server.objects[0]? = some s ∧
      (s.wire = [] ∨ ∃ tr ∈ ts, ∃ i env respond request response,
        tr.event = .session 0 (.readHandler i env respond) ∧
        tr.before.server.requested tr.event = some request ∧
        (runMiddlewares [ownerAuth.execute, ownerRouting.execute] request {}
          tr.before.shared).1 = .ok response ∧
        s.wire <+: (response.build .byKey).1) := by
  obtain ⟨ts, a, s, hexec, -, hs⟩ := exec_ownerEvents
  have hsends : ∀ tr ∈ ts, ∀ thread env buffer,
      tr.event ≠ .session 0 (.sendAsync thread env buffer) :=
    Transitions.Run.forall_of_exec
      (P := fun e => ∀ thread env buffer, e ≠ .session 0 (.sendAsync thread env buffer)) hexec (by
        simp [ownerEvents])
  exact ⟨ts, a, s, hexec, hs, wire_of_middlewares (Transitions.Run.of_exec hexec).1 hs hsends⟩

end OwnerExchange

end Application

end Webcrown.Server
