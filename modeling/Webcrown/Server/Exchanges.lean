import Webcrown.Server.Delivery
import Webcrown.Server.SessionTraces

/-!
# Exchanges

A session answers one request, whatever handlers run for it afterwards: its parser is
finished by then. While the application sends nothing of its own, all that a client ever
gets is the beginning of the answer to its request.
-/

namespace Webcrown.Server

open Bytes Common Http Transitions

/-- The request that `on_receive` hands to the middlewares after a call of the parser. -/
def handed (r : CallResult) : Option HttpRequest :=
  if r.ec.isSome then none
  else if r.parser.parsePhase ≠ .finished then none
  else r.request

/-- The request that the handler of a completed read finishes. -/
def Session.requested (s : Session) (i : ℕ) : Option HttpRequest :=
  match s.reads[i]? with
  | some (some (.received chunk)) =>
    if chunk.size = 0 then none else (s.parser.call chunk).toOption.bind handed
  | _ => none

/-- The request that a session answers in a transition, with what makes the answer. -/
def Session.answered (tr : Transition (Option Session) (Sessions × SessionEvent)) :
    Option (HttpRequest × Respond) :=
  match tr.before, tr.event.2 with
  | some s, .own (.readHandler i _ respond) =>
    (s.requested i).map fun request => (request, respond)
  | _, _ => none

namespace State

variable {s t u : State} {env : Env} {thread : Thread} {e : Event}

theorem handed_eq_some {r : CallResult} {request : HttpRequest}
    (h : handed r = some request) :
    r.ec = none ∧ r.parser.parsePhase = .finished ∧ r.request = some request := by
  unfold handed at h
  split_ifs at h with hec hphase
  exact ⟨by simpa using hec, not_not.mp hphase, h⟩

theorem requested_eq {i : ℕ} {chunk : Chunk} {r : CallResult}
    (hget : s.reads[i]? = some (some (.received chunk))) (hsize : chunk.size ≠ 0)
    (hcall : s.parser.call chunk = .ok r) : s.requested i = handed r := by
  simp [Session.requested, hget, hsize, hcall, Except.toOption]

theorem requested_eq_some {i : ℕ} {request : HttpRequest} (h : s.requested i = some request) :
    ∃ chunk r, s.reads[i]? = some (some (.received chunk)) ∧ chunk.size ≠ 0 ∧
      s.parser.call chunk = .ok r ∧ handed r = some request := by
  unfold Session.requested at h
  split at h
  · rename_i chunk hget
    split_ifs at h with hsize
    cases hcall : s.parser.call chunk with
    | error e => simp [hcall, Except.toOption] at h
    | ok r => exact ⟨chunk, r, hget, hsize, hcall, by simpa [hcall, Except.toOption] using h⟩
  · cases h

/-- `on_receive` sends what is made of the request that the parser hands over, if there is one. -/
theorem onReceive_handed {respond : Respond} {chunk : Chunk}
    (h : s.onReceive env respond chunk = some t) :
    ∃ r, s.parser.call chunk = .ok r ∧
      (handed r = none ∧ (t = (s.parsed r.parser).disconnect .io env ∨ t = s.parsed r.parser) ∨
        ∃ request text u, handed r = some request ∧ respond request = .ok text ∧
          ((s.parsed r.parser).record (.execute s.connected)).sendAsync .io env text = some u ∧
          t = u.disconnect .io env) := by
  simp only [State.onReceive] at h
  cases hcall : (s.record (.parse s.connected)).parser.call chunk with
  | error e =>
    rw [hcall] at h
    cases h
  | ok r =>
    rw [hcall] at h
    refine ⟨r, hcall, ?_⟩
    simp only at h
    unfold handed
    split_ifs at h ⊢
    · exact .inl ⟨rfl, .inl (Option.some.inj h).symm⟩
    · exact .inl ⟨rfl, .inr (Option.some.inj h).symm⟩
    · split at h
      · rename_i hrequest
        exact .inl ⟨hrequest, .inl (Option.some.inj h).symm⟩
      · rename_i request hrequest
        split at h
        · cases h
        · rename_i text hrespond
          obtain ⟨u, hsend, htext⟩ := Option.map_eq_some_iff.mp h
          exact .inr ⟨request, text, u, hrequest, hrespond, hsend, htext.symm⟩

theorem requested_of_finished (h : s.parser.parsePhase = .finished) (i : ℕ) :
    s.requested i = none := by
  cases hrequest : s.requested i with
  | none => rfl
  | some request =>
    obtain ⟨chunk, r, -, -, hcall, hhanded⟩ := requested_eq_some hrequest
    rw [Parser.call_idle (Parser.idle_of_finished h), Except.ok.injEq] at hcall
    rw [← hcall] at hhanded
    obtain ⟨-, -, hnone⟩ := handed_eq_some hhanded
    cases hnone

theorem finished_next (h : s.parser.parsePhase = .finished) (ht : s.next e = some t) :
    t.parser.parsePhase = .finished := by
  rcases parser_next ht with hsame | ⟨i, env, respond, chunk, r, -, -, -, hcall, hr⟩
  · rw [hsame, h]
  · rw [Parser.call_idle (Parser.idle_of_finished h), Except.ok.injEq] at hcall
    rw [hr, ← hcall, h]

theorem finished_of_requested {i : ℕ} {respond : Respond} {request : HttpRequest}
    (h : s.requested i = some request) (ht : s.readHandler i env respond = some t) :
    t.parser.parsePhase = .finished := by
  obtain ⟨chunk, r, hget, hsize, hcall, hhanded⟩ := requested_eq_some h
  rcases readHandler_cases ht with
    ⟨hget', -⟩ | ⟨chunk', hget', ⟨hzero, -⟩ | ⟨-, received, size, u, hu, rfl⟩⟩
  · simp [hget] at hget'
  · obtain rfl : chunk = chunk' := by simpa [hget] using hget'
    exact absurd hzero hsize
  · obtain rfl : chunk = chunk' := by simpa [hget] using hget'
    obtain ⟨r', hcall', hr'⟩ := parser_onReceive hu
    obtain rfl : r = r' := Except.ok.inj (hcall.symm.trans hcall')
    rw [parser_tryReceive]
    exact (congrArg Parser.parsePhase hr').trans (handed_eq_some hhanded).2.1

end State

namespace Session

open State

section Quiet

variable {s t : State} {env : Env} {thread : Thread} {e : Event}

/-- Nothing has been sent, and nothing waits to be sent. -/
structure Quiet (s : Session) : Prop where
  wire : s.wire = []
  main : s.sendBufferMain = []
  flush : s.sendBufferFlush = []
  writes : s.writes = []
  trySends : s.trySends = 0

theorem Quiet.disconnectHandler (h : s.Quiet) : (s.disconnectHandler env).Quiet := by
  rcases disconnectHandler_cases s env with ht | ⟨-, ht⟩ <;> rw [ht]
  · exact ⟨h.wire, h.main, h.flush, by simp [closeSocket, h.writes], h.trySends⟩
  · exact ⟨h.wire, rfl, rfl, by simp [disconnected, h.writes], h.trySends⟩

theorem Quiet.disconnect (h : s.Quiet) : (s.disconnect thread env).Quiet := by
  unfold State.disconnect
  split_ifs
  · exact h
  · cases thread with
    | io => exact h.disconnectHandler
    | other => exact ⟨h.wire, h.main, h.flush, h.writes, h.trySends⟩

theorem Quiet.tryReceive (h : s.Quiet) : s.tryReceive.Quiet := by
  unfold State.tryReceive
  split_ifs <;> exact ⟨h.wire, h.main, h.flush, h.writes, h.trySends⟩

/-- What is sent first is written at once, as far as the socket takes it, unless `sending_` is
set without a write. -/
theorem Quiet.sendAsync (h : s.Quiet) {text : ByteString}
    (ht : s.sendAsync .io env text = some t) :
    t.wire = if s.isOpen ∧ s.sending = false then text.take env.taken else [] := by
  rcases sendAsync_cases ht with ⟨rfl, rfl⟩ | ⟨htext, u, ⟨pending, n, rfl⟩, ⟨-, hflush⟩ | ⟨-, rfl⟩⟩
  · rw [wire_disconnect, h.wire, List.take_nil, ite_self]
  · exact absurd h.flush (hflush rfl)
  · set s' : State := { s with
      sendBufferMain := s.sendBufferMain ++ text, bytesPending := pending, trySends := n } with hs'
    cases hsending : s.sending with
    | true =>
      rw [trySend_of_sending (s := s') hsending, if_neg (by simp)]
      exact h.wire
    | false =>
      rw [trySend_of_swap (s := s') hsending h.flush, if_neg (by simp [hs', htext])]
      by_cases hopen : s.isOpen = true
      · rw [startWrite_of_open (s := { s'.swapBuffers with sending := true }) hopen]
        simp [hs', h.wire, h.main, hopen, swapBuffers, rest, List.take_eq_take_min]
      · rw [if_neg fun hcond => hopen hcond.1]
        have hlater : State.Later { s'.swapBuffers with sending := true }
            (startWrite env { s'.swapBuffers with sending := true }) := (Later.refl _).startWrite
        have hclosed : s.isOpen = false := by simpa using hopen
        exact (hlater.wire hclosed).trans h.wire

theorem Quiet.next (h : s.Quiet) (hsends : ∀ thread env buffer, e ≠ .sendAsync thread env buffer)
    (hanswers : ∀ i env respond, e = .readHandler i env respond → s.requested i = none)
    (ht : s.next e = some t) : t.Quiet := by
  cases e with
  | completeRead i result =>
    obtain ⟨-, rfl, -⟩ := completeRead_cases ht
    exact ⟨h.wire, h.main, h.flush, h.writes, h.trySends⟩
  | completeWrite i result =>
    obtain ⟨-, requested, hget, -, -⟩ := completeWrite_cases ht
    simp [h.writes] at hget
  | readHandler i env respond =>
    have htake : (s.takeRead i).Quiet :=
      ⟨h.wire, h.main, h.flush, h.writes, h.trySends⟩
    rcases readHandler_cases ht with
      ⟨-, rfl⟩ | ⟨chunk, hget, ⟨-, rfl⟩ | ⟨hsize, received, size, u, hu, rfl⟩⟩
    · exact htake.disconnect
    · exact htake.tryReceive
    · obtain ⟨r, hcall, hcases⟩ := onReceive_handed hu
      have hnone : handed r = none :=
        (requested_eq hget hsize hcall).symm.trans (hanswers i env respond rfl)
      have hparsed : Session.Quiet
          (State.parsed r.parser { s.takeRead i with bytesReceived := received }).toSession :=
        ⟨h.wire, h.main, h.flush, h.writes, h.trySends⟩
      have hquiet : u.Quiet := by
        rcases hcases with ⟨-, rfl | rfl⟩ | ⟨request, text, w, hhanded, -⟩
        · exact hparsed.disconnect
        · exact hparsed
        · rw [hnone] at hhanded
          cases hhanded
      exact Quiet.tryReceive ⟨hquiet.wire, hquiet.main, hquiet.flush,
        hquiet.writes, hquiet.trySends⟩
  | writeHandler i env =>
    obtain ⟨requested, r, hget, -⟩ := writeHandler_cases ht
    simp [h.writes] at hget
  | trySend env =>
    simp only [State.next, h.trySends, if_true] at ht
    cases ht
  | disconnectHandler env =>
    obtain rfl := next_disconnectHandler ht
    exact Quiet.disconnectHandler ⟨h.wire, h.main, h.flush, h.writes, h.trySends⟩
  | disconnectSession env failed =>
    obtain rfl := Option.some.inj ht
    rw [disconnectSession_eq]
    exact h.disconnect
  | sendAsync thread env buffer => exact absurd rfl (hsends thread env buffer)
  | disconnect thread env =>
    obtain rfl := Option.some.inj ht
    exact h.disconnect

/-- The read handler that answers a request writes as much of the answer as the socket takes at
once, and it leaves the socket closed. -/
theorem Quiet.answer (h : s.Quiet) (hopen : s.isOpen = true → s.connected = true) {i : ℕ}
    {respond : Respond} {request : HttpRequest} (hrequest : s.requested i = some request)
    (ht : s.readHandler i env respond = some t) :
    t.isOpen = false ∧ ∃ text, respond request = .ok text ∧
      t.wire = if s.isOpen ∧ s.sending = false then text.take env.taken else [] := by
  obtain ⟨chunk, r, hget, hsize, hcall, hhanded⟩ := requested_eq_some hrequest
  obtain ⟨hec, hphase, hrequest'⟩ := handed_eq_some hhanded
  rcases readHandler_cases ht with
    ⟨hget', -⟩ | ⟨chunk', hget', ⟨hzero, -⟩ | ⟨-, received, size, u, hu, rfl⟩⟩
  · simp [hget] at hget'
  · obtain rfl : chunk = chunk' := by simpa [hget] using hget'
    exact absurd hzero hsize
  · obtain rfl : chunk = chunk' := by simpa [hget] using hget'
    obtain ⟨r', hcall', hcases⟩ := onReceive_handed hu
    obtain rfl : r = r' := Except.ok.inj (hcall.symm.trans hcall')
    rcases hcases with ⟨hnone, -⟩ | ⟨request', text, w, hrequest'', hrespond, hsend, rfl⟩
    · rw [hhanded] at hnone
      cases hnone
    obtain rfl : request = request' := Option.some.inj (hhanded.symm.trans hrequest'')
    set before := (State.parsed r.parser { s.takeRead i with bytesReceived := received }).record
      (.execute s.connected) with hbefore
    have hquiet : before.Quiet :=
      ⟨h.wire, h.main, h.flush, h.writes, h.trySends⟩
    have hwriting : before.Writing :=
      ⟨hopen, fun _ => by simp [hbefore, record, parsed, takeRead, h.writes]⟩
    have hclosed : (w.disconnect .io env).isOpen = false :=
      (hwriting.sendAsync hsend).isOpen_disconnect
    have hlater : State.Later (w.disconnect .io env)
        ({ w.disconnect .io env with receiveBufferSize := size }.tryReceive) :=
      Later.tryReceive (.of_eq rfl rfl rfl rfl rfl)
    refine ⟨?_, text, hrespond, ?_⟩
    · by_contra hback
      rw [hlater.isOpen (by simpa using hback)] at hclosed
      cases hclosed
    · rw [hlater.wire hclosed, wire_disconnect]
      exact hquiet.sendAsync hsend

end Quiet

variable {o o' : Option Session} {d : Sessions × SessionEvent}
  {trs : List (Transition (Option Session) (Sessions × SessionEvent))}

/-- The parser of a session has finished. -/
def Finished (o : Option Session) : Prop := ∃ s, o = some s ∧ s.parser.parsePhase = .finished

theorem finished_next (h : Finished o) (hnext : Session.next o d = some o') : Finished o' := by
  obtain ⟨s, rfl, hs⟩ := h
  have hold : s.isNew = false := by
    simp [isNew, hs]
  obtain ⟨sessions, e⟩ := d
  cases e with
  | create id m => simp [Session.next] at hnext
  | accepted failed => simp [Session.next, hold] at hnext
  | connect bufferSize => simp [Session.next, hold] at hnext
  | own e =>
    obtain ⟨t, ht, rfl⟩ := Option.map_eq_some_iff.mp hnext
    exact ⟨t.toSession, rfl, State.finished_next (s := ⟨s, sessions⟩) hs ht⟩
  | expired env =>
    obtain rfl := Option.some.inj hnext
    refine ⟨_, rfl, ?_⟩
    rw [disconnectSession_eq, parser_disconnect]
    exact hs

theorem finished_of_answered {tr : Transition (Option Session) (Sessions × SessionEvent)}
    (h : (answered tr).isSome) (hnext : Session.next tr.before tr.event = some tr.after) :
    Finished tr.after := by
  obtain ⟨before, ⟨sessions, e⟩, after⟩ := tr
  unfold answered at h
  split at h
  · rename_i s i env respond hbefore hevent
    obtain rfl : before = some s := hbefore
    obtain rfl : e = .own (.readHandler i env respond) := hevent
    rw [Option.isSome_map, Option.isSome_iff_exists] at h
    obtain ⟨request, hrequest⟩ := h
    obtain ⟨t, ht, hafter⟩ := Option.map_eq_some_iff.mp hnext
    exact ⟨t.toSession, hafter.symm,
      finished_of_requested (s := ⟨s, sessions⟩) hrequest ht⟩
  · cases h

theorem answered_of_finished {tr : Transition (Option Session) (Sessions × SessionEvent)}
    (h : Finished tr.before) : answered tr = none := by
  obtain ⟨s, hs, hfinished⟩ := h
  unfold answered
  split
  · rename_i s' i env respond hbefore hevent
    obtain rfl : s = s' := Option.some.inj (hs.symm.trans hbefore)
    rw [requested_of_finished (s := ⟨s, ∅⟩) hfinished i]
    rfl
  · rfl

theorem answers_of_finished (h : Session.Run o trs o') (hfinished : Finished o) :
    trs.filterMap answered = [] := by
  have hall := (h.invariant hfinished fun tr _ hnext hbefore => finished_next hbefore hnext).2
  rw [List.filterMap_eq_nil_iff]
  exact fun tr htr => answered_of_finished (hall tr htr).1

theorem answers_le_one (h : Session.Run o trs o') : (trs.filterMap answered).length ≤ 1 := by
  induction h with
  | nil => exact Nat.zero_le 1
  | @cons o p q d trs hnext hrest ih =>
    rw [List.filterMap_cons]
    cases hanswered : answered ⟨o, d, p⟩ with
    | none => exact ih
    | some a =>
      have hfinished : Finished p :=
        @finished_of_answered ⟨o, d, p⟩ (by rw [hanswered]; rfl) hnext
      rw [answers_of_finished hrest hfinished]
      exact le_rfl

def Sends (tr : Transition (Option Session) (Sessions × SessionEvent)) : Prop :=
  ∃ thread env buffer, tr.event.2 = .own (.sendAsync thread env buffer)

/-- A session before its answer: nothing is sent, and an open socket is that of a connected
session, or of a new one. -/
structure Unanswered (s : Session) : Prop where
  quiet : s.Quiet
  isOpen : s.isNew = true ∨ (s.isOpen = true → s.connected = true)

theorem Unanswered.next {s : Session} {o : Option Session} (h : s.Unanswered)
    (hsends : ¬ Sends ⟨some s, d, o⟩) (hanswers : answered ⟨some s, d, o⟩ = none)
    (hnext : Session.next (some s) d = some o) : ∃ t, o = some t ∧ t.Unanswered := by
  obtain ⟨sessions, e⟩ := d
  cases e with
  | create id m => simp [Session.next] at hnext
  | accepted failed =>
    simp only [Session.next, Option.bind_some] at hnext
    split_ifs at hnext with hnew
    obtain rfl := Option.some.inj hnext
    exact ⟨_, rfl, ⟨h.quiet.wire, h.quiet.main, h.quiet.flush, h.quiet.writes,
      h.quiet.trySends⟩, .inl hnew⟩
  | connect bufferSize =>
    simp only [Session.next, Option.bind_some] at hnext
    split_ifs at hnext with hnew
    obtain rfl := Option.some.inj hnext
    refine ⟨_, rfl, ?_, .inr fun _ => ?_⟩
    · exact Quiet.tryReceive (s := ⟨_, sessions⟩)
        ⟨h.quiet.wire, h.quiet.main, h.quiet.flush, h.quiet.writes, h.quiet.trySends⟩
    · exact (WebServer.unregisters_connect ⟨s, sessions⟩ bufferSize).2
  | own e =>
    obtain ⟨t, ht, rfl⟩ := Option.map_eq_some_iff.mp hnext
    have hquiet : t.Quiet := by
      refine h.quiet.next (s := ⟨s, sessions⟩) ?_ ?_ ht
      · rintro thread env buffer rfl
        exact hsends ⟨thread, env, buffer, rfl⟩
      · rintro i env respond rfl
        exact Option.map_eq_none_iff.mp hanswers
    refine ⟨t.toSession, rfl, hquiet, ?_⟩
    rcases h.isOpen with hnew | hopen
    · exact .inl (isNew_next (s := ⟨s, sessions⟩) hnew ht)
    · have hwriting : State.Writing ⟨s, sessions⟩ :=
        ⟨hopen, fun _ => by simp [h.quiet.writes]⟩
      exact .inr (hwriting.next ht).connected
  | expired env =>
    obtain rfl := Option.some.inj hnext
    refine ⟨(State.disconnectSession env ⟨s, sessions⟩).toSession, rfl, ?_⟩
    rw [disconnectSession_eq]
    refine ⟨Quiet.disconnect (s := ⟨s, sessions⟩) h.quiet, ?_⟩
    rcases h.isOpen with hnew | hopen
    · have hconnected : s.connected = false := (isNew_iff (s := ⟨s, sessions⟩).mp hnew).1
      rw [disconnect_of_not_connected (s := ⟨s, sessions⟩) hconnected]
      exact .inl hnew
    · have hwriting : State.Writing ⟨s, sessions⟩ :=
        ⟨hopen, fun _ => by simp [h.quiet.writes]⟩
      exact .inr hwriting.disconnect.connected

/-- A session that has answered: nothing that it sends afterwards reaches the socket. -/
structure Answered (s : Session) : Prop where
  parser : s.parser.parsePhase = .finished
  isOpen : s.isOpen = false

theorem Answered.next {s : Session} {o : Option Session} (h : s.Answered)
    (hnext : Session.next (some s) d = some o) :
    ∃ t, o = some t ∧ t.Answered ∧ t.wire = s.wire := by
  have hafter : ∀ {sessions : Sessions} {t : State}, State.Later ⟨s, sessions⟩ t →
      t.parser.parsePhase = .finished → t.Answered ∧ t.wire = s.wire := by
    intro sessions t hlater hparser
    refine ⟨⟨hparser, ?_⟩, hlater.wire h.isOpen⟩
    by_contra hopen
    exact absurd (hlater.isOpen (by simpa using hopen)) (by simp [h.isOpen])
  have hold : s.isNew = false := by
    simp [isNew, h.parser]
  obtain ⟨sessions, e⟩ := d
  cases e with
  | create id m => simp [Session.next] at hnext
  | accepted failed => simp [Session.next, hold] at hnext
  | connect bufferSize => simp [Session.next, hold] at hnext
  | own e =>
    obtain ⟨t, ht, rfl⟩ := Option.map_eq_some_iff.mp hnext
    exact ⟨t.toSession, rfl, hafter (later_next ht)
      (State.finished_next (s := ⟨s, sessions⟩) h.parser ht)⟩
  | expired env =>
    obtain rfl := Option.some.inj hnext
    refine ⟨(State.disconnectSession env ⟨s, sessions⟩).toSession, rfl, ?_⟩
    rw [disconnectSession_eq]
    exact hafter (State.Later.refl _).disconnect
      ((congrArg Parser.parsePhase (parser_disconnect _)).trans h.parser)

theorem Answered.run {s : Session} {o : Option Session} (h : s.Answered)
    (hrun : Session.Run (some s) trs o) :
    ∃ t, o = some t ∧ t.wire = s.wire ∧ trs.filterMap answered = [] := by
  have hanswers := answers_of_finished hrun ⟨s, rfl, h.parser⟩
  have hsame := (hrun.invariant (I := fun o => ∃ t, o = some t ∧ t.Answered ∧ t.wire = s.wire)
    ⟨s, rfl, h, rfl⟩ fun tr _ hnext hbefore => by
      obtain ⟨t, ht, hanswered, hwire⟩ := hbefore
      rw [ht] at hnext
      obtain ⟨u, hu, hanswered', hwire'⟩ := hanswered.next hnext
      exact ⟨u, hu, hanswered', hwire'.trans hwire⟩).1
  obtain ⟨t, ht, -, hwire⟩ := hsame
  exact ⟨t, ht, hwire, hanswers⟩

theorem Unanswered.answer {s : Session} {o : Option Session} (h : s.Unanswered)
    {request : HttpRequest} {respond : Respond}
    (hanswered : answered ⟨some s, d, o⟩ = some (request, respond))
    (hnext : Session.next (some s) d = some o) :
    ∃ t text i env, o = some t ∧ t.Answered ∧ respond request = .ok text ∧
      d.2 = .own (.readHandler i env respond) ∧
      t.wire = if s.isOpen ∧ s.sending = false then text.take env.taken else [] := by
  have hfinished : Finished o :=
    @finished_of_answered ⟨some s, d, o⟩ (by rw [hanswered]; rfl) hnext
  obtain ⟨sessions, e⟩ := d
  unfold answered at hanswered
  split at hanswered
  · rename_i s' i env respond' hbefore hevent
    obtain rfl : s = s' := Option.some.inj hbefore
    obtain rfl : e = .own (.readHandler i env respond') := hevent
    obtain ⟨request', hrequest, hpair⟩ := Option.map_eq_some_iff.mp hanswered
    obtain ⟨rfl, rfl⟩ := Prod.mk.inj hpair
    obtain ⟨t, ht, rfl⟩ := Option.map_eq_some_iff.mp hnext
    obtain ⟨u, hu, hphase⟩ := hfinished
    obtain rfl := Option.some.inj hu
    have hopen : s.isOpen = true → s.connected = true := by
      rcases h.isOpen with hnew | hopen
      · -- a new session has no read to handle
        have hreads : s.reads = [] := (isNew_iff (s := ⟨s, sessions⟩).mp hnew).2.1
        obtain ⟨chunk, r, hget, -⟩ := requested_eq_some (s := ⟨s, sessions⟩) hrequest
        simp [hreads] at hget
      · exact hopen
    obtain ⟨hclosed, text, hrespond, hwire⟩ :=
      h.quiet.answer (s := ⟨s, sessions⟩) hopen hrequest ht
    exact ⟨t.toSession, text, i, env, rfl, ⟨hphase, hclosed⟩, hrespond, rfl, hwire⟩
  · cases hanswered

/-- While the application sends nothing of its own, the socket takes the beginning of the answer
to the one request of the session. -/
theorem wire_prefix {s t : Session} (h : Session.Run (some s) trs (some t)) (hs : s.Unanswered)
    (hsends : ∀ tr ∈ trs, ¬ Sends tr) :
    trs.filterMap answered = [] ∧ t.wire = [] ∨
      ∃ request respond text, trs.filterMap answered = [(request, respond)] ∧
        respond request = .ok text ∧ t.wire <+: text := by
  induction trs generalizing s with
  | nil =>
    cases h
    exact .inl ⟨rfl, hs.quiet.wire⟩
  | cons tr trs ih =>
    cases h with
    | @cons _ p _ d _ hnext hrest =>
      cases hanswered : answered ⟨some s, d, p⟩ with
      | none =>
        obtain ⟨u, rfl, hu⟩ := hs.next (hsends _ List.mem_cons_self) hanswered hnext
        rw [List.filterMap_cons_none hanswered]
        exact ih hrest hu fun tr htr => hsends tr (List.mem_cons_of_mem _ htr)
      | some a =>
        obtain ⟨u, text, i, env, rfl, hu, hrespond, -, hwire⟩ := hs.answer hanswered hnext
        obtain ⟨t', ht', hsame, hnone⟩ := hu.run hrest
        obtain rfl := Option.some.inj ht'
        rw [List.filterMap_cons_some hanswered, hnone, hsame]
        refine .inr ⟨a.1, a.2, text, rfl, hrespond, ?_⟩
        rw [hwire]
        split_ifs
        · exact List.take_prefix _ _
        · exact List.nil_prefix

theorem unanswered_fresh (id : UInt64) (m : Uninitialised) : (Session.fresh id m).Unanswered :=
  ⟨⟨rfl, rfl, rfl, rfl, rfl⟩, .inl rfl⟩

theorem wire_prefix_of_none {t : Session} (h : Session.Run none trs (some t))
    (hsends : ∀ tr ∈ trs, ¬ Sends tr) :
    trs.filterMap answered = [] ∧ t.wire = [] ∨
      ∃ request respond text, trs.filterMap answered = [(request, respond)] ∧
        respond request = .ok text ∧ t.wire <+: text := by
  cases h with
  | @cons _ p _ d trs hnext hrest =>
    obtain ⟨sessions, e⟩ := d
    cases e with
    | create id m =>
      obtain rfl := Option.some.inj hnext
      rw [List.filterMap_cons_none rfl]
      exact wire_prefix hrest (unanswered_fresh id m)
        fun tr htr => hsends tr (List.mem_cons_of_mem _ htr)
    | accepted failed => cases hnext
    | connect bufferSize => cases hnext
    | own e => cases hnext
    | expired env => cases hnext

end Session

namespace WebServer

variable {v : WebServer} {ts : List (Transition WebServer Event)} {m : Uninitialised}

theorem sends_trace {r : SessionRef} (hsends : ∀ tr ∈ ts, ∀ thread env buffer,
    tr.event ≠ .session r (.sendAsync thread env buffer)) :
    ∀ tr ∈ trace r ts, ¬ Session.Sends tr := by
  rintro tr' htr' ⟨thread, env, buffer, hevent⟩
  obtain ⟨tr, htr, hseen⟩ := List.mem_filterMap.mp htr'
  obtain ⟨d, hd, rfl⟩ := Option.map_eq_some_iff.mp hseen
  exact hsends tr htr thread env buffer (seen_own hd hevent)

theorem wire_run (h : Run (listening.accept m) ts v) {r : SessionRef} {s : Session}
    (hs : v.objects[r]? = some s) (hsends : ∀ tr ∈ ts, ∀ thread env buffer,
      tr.event ≠ .session r (.sendAsync thread env buffer)) :
    (trace r ts).filterMap Session.answered = [] ∧ s.wire = [] ∨
      ∃ request respond text, (trace r ts).filterMap Session.answered = [(request, respond)] ∧
        respond request = .ok text ∧ s.wire <+: text := by
  have hrun := run_trace (pending_listening m) h r
  rw [hs] at hrun
  cases r with
  | zero => exact Session.wire_prefix hrun (Session.unanswered_fresh 1 m) (sends_trace hsends)
  | succ r => exact Session.wire_prefix_of_none hrun (sends_trace hsends)

/-- Over every run of the server, a session answers one request at most. If the application sends
nothing of its own in that session, then all that its socket takes is the beginning of the
answer to that request, and nothing at all without one. -/
theorem session_exchange (h : Run (listening.accept m) ts v) {r : SessionRef} {s : Session}
    (hs : v.objects[r]? = some s) :
    ((trace r ts).filterMap Session.answered).length ≤ 1 ∧
      ((∀ tr ∈ ts, ∀ thread env buffer,
          tr.event ≠ .session r (.sendAsync thread env buffer)) →
        (trace r ts).filterMap Session.answered = [] ∧ s.wire = [] ∨
          ∃ request respond text,
            (trace r ts).filterMap Session.answered = [(request, respond)] ∧
            respond request = .ok text ∧ s.wire <+: text) :=
  ⟨Session.answers_le_one (run_trace (pending_listening m) h r), fun hsends =>
    wire_run h hs hsends⟩

section FirstExchange

open State

def firstExchangeEvents : List Event :=
  [.completeAccept 0 false, .acceptHandler 0 64 zeroed,
    .session 0 (.completeRead 0 (.received getChunk)),
    .session 0 (.readHandler 0 ⟨64, false⟩ respondDefault)]

theorem session_exchange_firstExchange :
    ∃ ts v s, exec next (listening.accept zeroed) firstExchangeEvents = some (ts, v) ∧
      v.objects[0]? = some s ∧ ((trace 0 ts).filterMap Session.answered).length ≤ 1 ∧
      ((trace 0 ts).filterMap Session.answered = [] ∧ s.wire = [] ∨
        ∃ request respond text, (trace 0 ts).filterMap Session.answered = [(request, respond)] ∧
          respond request = .ok text ∧ s.wire <+: text) := by
  have hend : (exec next (listening.accept zeroed) firstExchangeEvents).map
      (fun r => r.2.objects[0]?.isSome) = some true := by
    decide +kernel
  obtain ⟨⟨ts, v⟩, hrun, hsome⟩ := Option.map_eq_some_iff.mp hend
  obtain ⟨s, hs⟩ := Option.isSome_iff_exists.mp hsome
  have hsends : ∀ tr ∈ ts, ∀ thread env buffer,
      tr.event ≠ .session 0 (.sendAsync thread env buffer) :=
    Transitions.Run.forall_of_exec
      (P := fun e => ∀ thread env buffer, e ≠ .session 0 (.sendAsync thread env buffer)) hrun (by
        simp [firstExchangeEvents])
  obtain ⟨hone, hwire⟩ := session_exchange (Transitions.Run.of_exec hrun).1 hs
  exact ⟨ts, v, s, hrun, hs, hone, hwire hsends⟩

end FirstExchange

end WebServer

end Webcrown.Server
