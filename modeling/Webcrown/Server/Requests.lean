import Webcrown.Http.Provenance
import Webcrown.Server.Exchanges

/-!
# The requests of a session

The parser of a session makes one call for each read of that session, in their order, so that
what is known of a run of calls holds of a session among others. In particular a request is
made of bytes of its own connection.
-/

namespace Webcrown.Server

open Bytes Common Http Transitions

/-- The bytes that the handler of a completed read hands to `on_receive`. -/
def Session.delivered (tr : Transition (Option Session) (Sessions × SessionEvent)) :
    Option Chunk :=
  match tr.before, tr.event.2 with
  | some s, .own (.readHandler i _ _) =>
    match s.reads[i]? with
    | some (some (.received chunk)) => if chunk.size = 0 then none else some chunk
    | _ => none
  | _, _ => none

/-- What the reads of a session have got, one behind the other. -/
def Session.input (trs : List (Transition (Option Session) (Sessions × SessionEvent))) :
    ByteString :=
  ((trs.filterMap Session.delivered).map Chunk.bytes).flatten

/-- The parser of a session object has been called on these chunks. -/
def Session.Fed (chunks : List Chunk) : Option Session → Prop
  | none => chunks = []
  | some s => ∃ t cs, Http.Run (Parser.fresh t) cs s.parser ∧ cs.map Call.chunk = chunks

namespace Session

open State

variable {s t : Session} {o o' : Option Session} {d : Sessions × SessionEvent}
  {trs : List (Transition (Option Session) (Sessions × SessionEvent))} {chunks : List Chunk}

theorem delivered_eq_some {chunk : Chunk} (h : delivered ⟨some s, d, o⟩ = some chunk) :
    ∃ i env respond, d.2 = .own (.readHandler i env respond) ∧
      s.reads[i]? = some (some (.received chunk)) ∧ chunk.size ≠ 0 := by
  unfold delivered at h
  split at h
  · rename_i s' i env respond hbefore hevent
    obtain rfl : s = s' := Option.some.inj hbefore
    split at h
    · rename_i chunk' hget
      split_ifs at h with hsize
      obtain rfl := Option.some.inj h
      exact ⟨i, env, respond, hevent, hget, hsize⟩
    · cases h
  · cases h

theorem parser_own {e : Event} {sessions : Sessions}
    (hnext : Session.next (some s) (sessions, .own e) = some (some t)) :
    (delivered ⟨some s, (sessions, .own e), some t⟩ = none ∧ t.parser = s.parser) ∨
      ∃ chunk r, delivered ⟨some s, (sessions, .own e), some t⟩ = some chunk ∧
        s.parser.call chunk = .ok r ∧ t.parser = r.parser := by
  obtain ⟨u, hu, hut⟩ := Option.map_eq_some_iff.mp hnext
  obtain rfl := Option.some.inj hut
  cases hchunk : delivered ⟨some s, (sessions, .own e), some u.toSession⟩ with
  | none =>
    refine .inl ⟨rfl, ?_⟩
    rcases parser_next hu with hsame | ⟨i, env, respond, chunk, r, rfl, hget, hsize, -, -⟩
    · exact hsame
    · have hget' : s.reads[i]? = some (some (.received chunk)) := hget
      simp [delivered, hget', hsize] at hchunk
  | some chunk =>
    obtain ⟨i, env, respond, he, hget, hsize⟩ := delivered_eq_some hchunk
    obtain rfl := SessionEvent.own.inj he
    refine .inr ⟨chunk, ?_⟩
    rcases readHandler_cases (s := ⟨s, sessions⟩) hu with
      ⟨hget', -⟩ | ⟨chunk', hget', hcases⟩
    · simp [hget] at hget'
    · obtain rfl : chunk = chunk' := by simpa [hget] using hget'
      rcases hcases with ⟨hzero, -⟩ | ⟨-, received, size, w, hw, rfl⟩
      · exact absurd hzero hsize
      · obtain ⟨r, hcall, hr⟩ := parser_onReceive hw
        exact ⟨r, rfl, hcall, (parser_tryReceive _).trans hr⟩

theorem Fed.next (h : Fed chunks o) (hnext : Session.next o d = some o') :
    Fed (chunks ++ (delivered ⟨o, d, o'⟩).toList) o' := by
  obtain ⟨sessions, e⟩ := d
  cases o with
  | none =>
    cases e with
    | create id m =>
      obtain rfl := Option.some.inj hnext
      exact ⟨m.contentType, [], Run.nil _, by rw [show chunks = [] from h]; rfl⟩
    | accepted failed => cases hnext
    | connect bufferSize => cases hnext
    | own e => cases hnext
    | expired env => cases hnext
  | some s =>
    obtain ⟨t, cs, hrun, hchunks⟩ := h
    cases e with
    | create id m => simp [Session.next] at hnext
    | accepted failed =>
      simp only [Session.next, Option.bind_some] at hnext
      split_ifs at hnext
      obtain rfl := Option.some.inj hnext
      exact ⟨t, cs, hrun, by rw [hchunks]; simp [delivered]⟩
    | connect bufferSize =>
      simp only [Session.next, Option.bind_some] at hnext
      split_ifs at hnext
      obtain rfl := Option.some.inj hnext
      refine ⟨t, cs, ?_, by rw [hchunks]; simp [delivered]⟩
      rw [State.connect, parser_tryReceive]
      exact hrun
    | own e =>
      obtain ⟨u, hu, rfl⟩ := Option.map_eq_some_iff.mp hnext
      rcases parser_own hnext with ⟨hnone, hsame⟩ | ⟨chunk, r, hsome, hcall, hr⟩
      · exact ⟨t, cs, hsame ▸ hrun, by rw [hchunks, hnone]; simp⟩
      · refine ⟨t, cs ++ [⟨s.parser, chunk, r, hcall⟩], ?_, by rw [hsome, ← hchunks]; simp⟩
        rw [hr]
        exact hrun.snoc (c := ⟨s.parser, chunk, r, hcall⟩) rfl
    | expired env =>
      obtain rfl := Option.some.inj hnext
      refine ⟨t, cs, ?_, by rw [hchunks]; simp [delivered]⟩
      rw [disconnectSession_eq, parser_disconnect]
      exact hrun

theorem Fed.run (h : Fed chunks o) (hrun : Session.Run o trs o') :
    Fed (chunks ++ trs.filterMap delivered) o' := by
  induction hrun generalizing chunks with
  | nil o => simpa using h
  | @cons o p o' d trs hnext _ ih =>
    have hrest := ih (h.next hnext)
    rw [List.append_assoc] at hrest
    rw [List.filterMap_cons]
    cases hchunk : delivered ⟨o, d, p⟩ <;> simpa [hchunk] using hrest

/-- A request that is answered is returned by the call on the chunk that is delivered then. -/
theorem delivered_of_answered {tr : Transition (Option Session) (Sessions × SessionEvent)}
    {a : HttpRequest × Respond} (h : answered tr = some a) :
    ∃ s chunk r, tr.before = some s ∧ delivered tr = some chunk ∧
      s.parser.call chunk = .ok r ∧ r.request = some a.1 := by
  obtain ⟨before, ⟨sessions, e⟩, after⟩ := tr
  unfold answered at h
  split at h
  · rename_i s i env respond hbefore hevent
    obtain rfl : before = some s := hbefore
    obtain rfl : e = .own (.readHandler i env respond) := hevent
    obtain ⟨request, hrequest, rfl⟩ := Option.map_eq_some_iff.mp h
    obtain ⟨chunk, r, hget, hsize, hcall, hhanded⟩ :=
      requested_eq_some (s := ⟨s, sessions⟩) hrequest
    have hget' : s.reads[i]? = some (some (.received chunk)) := hget
    exact ⟨s, chunk, r, rfl, by simp [delivered, hget', hsize], hcall,
      (handed_eq_some hhanded).2.2⟩
  · cases h

end Session

namespace WebServer

variable {v : WebServer} {ts : List (Transition WebServer Event)} {m : Uninitialised}

theorem fed_listening (m : Uninitialised) (r : SessionRef) :
    Session.Fed [] (listening.accept m).objects[r]? := by
  cases r with
  | zero => exact ⟨m.contentType, [], Run.nil _, rfl⟩
  | succ r => rfl

/-- Over every run of the server, a session hands requests to the middlewares only that stand in
the bytes which its own reads have got until then, with the body at the end of the last read; no
byte of another connection, or of an earlier use of the buffer, becomes part of one. -/
theorem request_of_own_bytes (h : Run (listening.accept m) ts v) {r : SessionRef}
    {before after : List (Transition (Option Session) (Sessions × SessionEvent))}
    {tr : Transition (Option Session) (Sessions × SessionEvent)} {a : HttpRequest × Respond}
    (htrace : trace r ts = before ++ tr :: after) (ha : Session.answered tr = some a) :
    ∃ chunk, Session.delivered tr = some chunk ∧
      a.1.From (Session.input (before ++ [tr])) chunk := by
  obtain ⟨s, chunk, result, hs, hchunk, hcall, hrequest⟩ := Session.delivered_of_answered ha
  refine ⟨chunk, hchunk, ?_⟩
  have hrun := run_trace (pending_listening m) h r
  rw [htrace] at hrun
  obtain ⟨o, hbefore, hrest⟩ := hrun.split
  have hfed := (fed_listening m r).run hbefore
  cases hrest with
  | @cons _ p _ d _ hnext _ =>
    obtain rfl : o = some s := hs
    obtain ⟨t', cs, hcalls, hchunks⟩ := hfed
    have hsnoc := hcalls.snoc (c := ⟨s.parser, chunk, result, hcall⟩) rfl
    have hfrom := hsnoc.request_from hrequest
    have hinput : Session.input (before ++ [⟨some s, d, p⟩]) =
        input (cs ++ [⟨s.parser, chunk, result, hcall⟩]) := by
      rw [Session.input, List.filterMap_append, ← List.nil_append (before.filterMap _), ← hchunks]
      simp [input, hchunk, Function.comp_def]
    rw [hinput]
    exact hfrom

section FirstRequest

open State

theorem request_of_own_bytes_firstExchange :
    ∃ ts v before tr after a,
      exec next (listening.accept zeroed) firstExchangeEvents = some (ts, v) ∧
      trace 0 ts = before ++ tr :: after ∧ Session.answered tr = some a ∧
      ∃ chunk, Session.delivered tr = some chunk ∧
        a.1.From (Session.input (before ++ [tr])) chunk := by
  have hend : (exec next (listening.accept zeroed) firstExchangeEvents).map
      (fun r => (trace 0 r.1).any fun tr => (Session.answered tr).isSome) = some true := by
    decide +kernel
  obtain ⟨⟨ts, v⟩, hrun, hany⟩ := Option.map_eq_some_iff.mp hend
  obtain ⟨tr, htr, hsome⟩ := List.any_eq_true.mp hany
  obtain ⟨a, ha⟩ := Option.isSome_iff_exists.mp hsome
  obtain ⟨before, after, htrace⟩ := List.append_of_mem htr
  exact ⟨ts, v, before, tr, after, a, hrun, htrace, ha,
    request_of_own_bytes (Transitions.Run.of_exec hrun).1 htrace ha⟩

end FirstRequest

end WebServer

end Webcrown.Server
