import Webcrown.Server.Lifecycle
import Webcrown.Server.SendQueue

/-!
# Stranded data

While a session is connected, what waits in its buffers has an outstanding write or a
queued `try_send`, as long as no write completes without a byte: the handler of such a
write returns before it looks at the error.
-/

namespace Webcrown.Server

open Bytes Common Http Transitions

namespace State

variable {s t : State} {env : Env} {e : Event} {failures : Bool} {spare : ℕ}

theorem SendInv.receiving (h : s.SendInv failures spare) {receiving : Bool} {size disconnects : ℕ}
    {parser : Parser} {received : UInt64} {reads : List Read} {log : List Action} :
    { s with
      receiving := receiving
      receiveBufferSize := size
      parser := parser
      bytesReceived := received
      reads := reads
      disconnects := disconnects
      log := log }.SendInv failures spare where
  connected := h.connected
  isOpen := h.isOpen
  offset_le := h.offset_le
  offset_idle := h.offset_idle
  idle := h.idle
  busy := h.busy
  queued := h.queued
  wire := h.wire

/-- The invariant of the sending side, while the session is connected. -/
def Flowing (spare : ℕ) (s : State) : Prop := s.connected = true → s.SendInv true spare

theorem flowing_of_not_connected (h : s.connected = false) : s.Flowing spare := fun hconnected => by
  rw [h] at hconnected
  cases hconnected

theorem SendInv.disconnect (h : s.SendInv true spare) {thread : Thread}
    (hclose : env.closeFails = false) : (s.disconnect thread env).Flowing spare := by
  cases thread with
  | io =>
    rw [disconnect_io_of_connected h.connected,
      disconnectHandler_of_connected h.connected fun _ => hclose]
    exact flowing_of_not_connected rfl
  | other =>
    rw [disconnect_other_of_connected h.connected]
    exact fun _ => h.receiving

theorem SendInv.tryReceive (h : s.SendInv failures spare) :
    s.tryReceive.SendInv failures spare := by
  unfold State.tryReceive
  split_ifs
  · exact h
  · exact h
  · exact h.receiving

theorem Flowing.tryReceive (h : s.Flowing spare) {size : ℕ} :
    { s with receiveBufferSize := size }.tryReceive.Flowing spare := by
  by_cases hconnected : s.connected = true
  · exact fun _ => SendInv.tryReceive (h hconnected).receiving
  · rw [Bool.not_eq_true] at hconnected
    rw [tryReceive_of_not_connected (s := { s with receiveBufferSize := size }) hconnected]
    exact flowing_of_not_connected hconnected

theorem SendInv.onReceive (h : s.SendInv true spare) {respond : Respond} {chunk : Chunk}
    (hclose : env.closeFails = false) (ht : s.onReceive env respond chunk = some t) :
    t.Flowing spare := by
  obtain ⟨r, -, rfl | rfl | ⟨request, text, u, -, -, hsend, rfl⟩⟩ := onReceive_cases ht
  · exact SendInv.disconnect h.receiving hclose
  · exact fun _ => h.receiving
  · have hrecord : ((s.parsed r.parser).record (.execute s.connected)).SendInv true spare :=
      h.receiving
    by_cases hu : u.connected = true
    · refine SendInv.disconnect ?_ hclose
      rcases sendAsync_cases hsend with ⟨-, rfl⟩ | ⟨htext, -⟩
      · exact hrecord.disconnect hclose hu
      · exact (hrecord.sendAsync htext hsend).1
    · rw [Bool.not_eq_true] at hu
      rw [disconnect_of_not_connected hu]
      exact flowing_of_not_connected hu

theorem SendInv.readHandler (h : s.SendInv true spare) {i : ℕ} {respond : Respond}
    (hclose : env.closeFails = false) (ht : s.readHandler i env respond = some t) :
    t.Flowing spare := by
  have htake : (s.takeRead i).SendInv true spare := h.receiving
  rcases readHandler_cases ht with
    ⟨-, rfl⟩ | ⟨chunk, -, ⟨-, rfl⟩ | ⟨-, received, size, u, hreceive, rfl⟩⟩
  · exact htake.disconnect hclose
  · exact fun _ => htake.tryReceive
  · have hcount : { s.takeRead i with bytesReceived := received }.SendInv true spare :=
      htake.receiving
    exact (hcount.onReceive hclose hreceive).tryReceive

/-- One step keeps the invariant, unless a write completes without a byte. -/
theorem Flowing.next (h : s.Flowing spare) (hclose : e.CloseSucceeds)
    (hsize : ∀ i r, e = .completeWrite i r → 0 < r.size) (ht : s.next e = some t) :
    t.Flowing spare := by
  by_cases hconnected : s.connected = true
  · have hinv := h hconnected
    have hsends : e.Sends → t.Flowing spare := by
      intro he
      rcases hinv.step he (fun i r hw => ⟨hsize i r hw, fun _ => rfl⟩) ht with
        ⟨hinv, -⟩ | ⟨i, env, r, rfl, -, -, -, hend⟩
      · exact fun _ => hinv
      · exact flowing_of_not_connected (hend (hclose env rfl)).1
    cases e with
    | completeRead i result =>
      obtain ⟨-, rfl, -⟩ := completeRead_cases ht
      exact fun _ => hinv.receiving
    | readHandler i env respond => exact hinv.readHandler (hclose env rfl) ht
    | disconnectHandler env =>
      obtain rfl := next_disconnectHandler ht
      rw [disconnectHandler_of_connected (by exact hconnected) fun _ => hclose env rfl]
      exact flowing_of_not_connected rfl
    | disconnectSession env failed =>
      obtain rfl := Option.some.inj ht
      rw [disconnectSession_eq]
      exact hinv.disconnect (hclose env rfl)
    | sendAsync thread env buffer =>
      rcases sendAsync_cases ht with ⟨-, rfl⟩ | ⟨hbuffer, -⟩
      · exact hinv.disconnect (hclose env rfl)
      · exact hsends hbuffer
    | disconnect thread env =>
      obtain rfl := Option.some.inj ht
      exact hinv.disconnect (hclose env rfl)
    | completeWrite i r => exact hsends trivial
    | writeHandler i env => exact hsends trivial
    | trySend env => exact hsends trivial
  · apply flowing_of_not_connected
    by_contra hlater
    exact hconnected ((later_next ht).connected (by simpa using hlater))

/-- A write that fails disconnects the session and leaves nothing in its buffers. -/
theorem Flowing.failedWrite (h : s.Flowing spare) (hconnected : s.connected = true) {i : ℕ}
    {requested : ByteString} {r : WriteResult} (hget : s.writes[i]? = some ⟨requested, some r⟩)
    (hfailed : r.failed = true) (hclose : env.closeFails = false)
    (ht : s.writeHandler i env = some t) :
    t.connected = false ∧ t.sendBufferMain = [] ∧ t.sendBufferFlush = [] := by
  obtain ⟨r', hget', -, -, hend⟩ := (h hconnected).writeHandler ht
  obtain rfl : r = r' := by simpa [hget] using congrArg (Option.map Write.result) hget'
  exact hend hfailed hclose

theorem sendInv_connect {id : UInt64} {m : Uninitialised} {sessions : Sessions}
    (hsending : m.sending = false) (bufferSize : ℕ) :
    ((incoming id m sessions).connect bufferSize).SendInv true m.sendBufferFlushOffset :=
  SendInv.tryReceive ⟨rfl, rfl, fun hflush => absurd rfl hflush, fun _ => le_rfl,
    fun _ => ⟨rfl, rfl⟩, fun hs => by simp [incoming, Session.fresh, hsending] at hs,
    fun hmain => absurd rfl hmain, rfl⟩

/-- In every run after `connect`, if `sending_` happens to be clear then, no write completes
without a byte and closing the socket succeeds: what waits to be sent by the connected session
has an outstanding write or a queued `try_send`, and a write that fails leaves the session
disconnected with empty buffers. -/
theorem no_stranded_data {id : UInt64} {m : Uninitialised} {sessions : Sessions} {bufferSize : ℕ}
    {t : State} {ts : List (Transition State Event)} (hsending : m.sending = false)
    (hrun : Run ((incoming id m sessions).connect bufferSize) ts t)
    (hclose : ∀ tr ∈ ts, tr.event.CloseSucceeds)
    (hsize : ∀ tr ∈ ts, ∀ i r, tr.event = .completeWrite i r → 0 < r.size) :
    (t.connected = true → t.rest ≠ [] ∨ t.sendBufferMain ≠ [] → t.writes ≠ [] ∨ 0 < t.trySends) ∧
      ∀ tr ∈ ts, ∀ i env requested r, tr.event = .writeHandler i env →
        tr.before.connected = true → tr.before.writes[i]? = some ⟨requested, some r⟩ →
        r.failed = true → tr.after.connected = false ∧ tr.after.sendBufferMain = [] ∧
          tr.after.sendBufferFlush = [] := by
  obtain ⟨ht, hall⟩ := hrun.invariant (I := Flowing m.sendBufferFlushOffset)
    (fun _ => sendInv_connect hsending bufferSize)
    fun tr htr hnext hinv => hinv.next (hclose tr htr) (hsize tr htr) hnext
  constructor
  · intro hconnected hwaits
    have hinv := ht hconnected
    cases hsending : t.sending with
    | true =>
      obtain ⟨-, r, hwrites, -⟩ := hinv.busy hsending
      exact Or.inl (by simp [hwrites])
    | false =>
      have hmain : t.sendBufferMain ≠ [] :=
        hwaits.resolve_left fun hrest => hrest (by simp [rest, (hinv.idle hsending).2])
      exact (hinv.queued hmain).imp_left fun h => by simp [hsending] at h
  · intro tr htr i env requested r he hconnected hget hfailed
    have hnext := hrun.step_of_mem htr
    have hclose := hclose tr htr
    rw [he] at hnext hclose
    exact (hall tr htr).1.failedWrite hconnected hget hfailed (hclose env rfl) hnext

section FailedWrites

def failedWriteEvents (k : ℕ) : List Event :=
  [.sendAsync .io ⟨0, false⟩ (ascii "ab"), .completeWrite 0 ⟨true, k⟩, .writeHandler 0 ⟨0, false⟩]

theorem no_stranded_data_oneByte :
    ∃ ts t, exec next (onlySession zeroed) (failedWriteEvents 1) = some (ts, t) ∧
      t.wire = ascii "a" ∧
      (t.connected = true → t.rest ≠ [] ∨ t.sendBufferMain ≠ [] →
        t.writes ≠ [] ∨ 0 < t.trySends) ∧
      ∀ tr ∈ ts, ∀ i env requested r, tr.event = .writeHandler i env →
        tr.before.connected = true → tr.before.writes[i]? = some ⟨requested, some r⟩ →
        r.failed = true → tr.after.connected = false ∧ tr.after.sendBufferMain = [] ∧
          tr.after.sendBufferFlush = [] := by
  have hwire : (exec next (onlySession zeroed) (failedWriteEvents 1)).map (fun r => r.2.wire) =
      some (ascii "a") := by
    decide
  obtain ⟨⟨ts, t⟩, hrun, hwire⟩ := Option.map_eq_some_iff.mp hwire
  have hevent : ∀ tr ∈ ts, tr.event.CloseSucceeds ∧
      ∀ i r, tr.event = .completeWrite i r → 0 < r.size :=
    Transitions.Run.forall_of_exec
      (P := fun e => e.CloseSucceeds ∧ ∀ i r, e = .completeWrite i r → 0 < r.size) hrun (by
        simp [failedWriteEvents, Event.CloseSucceeds, Event.env])
  exact ⟨ts, t, hrun, hwire, no_stranded_data rfl (Transitions.Run.of_exec hrun).1
    (fun tr htr => (hevent tr htr).1) fun tr htr => (hevent tr htr).2⟩

/-- A write that fails before a byte is taken leaves two bytes that nothing will send, in a
session that stays connected. Where `sending_` happens to be set when a session is connected,
nothing that is given to `send_async` is ever written. -/
theorem failed_write_strands_data :
    (∃ ts t, Run (onlySession zeroed) ts t ∧ (∀ tr ∈ ts, tr.event.Sends) ∧
      (∀ tr ∈ ts, tr.event.CloseSucceeds) ∧
      t.connected = true ∧ t.rest = ascii "ab" ∧ t.writes = [] ∧ t.trySends = 0) ∧
    ∃ ts t, Run (onlySession { zeroed with sending := true }) ts t ∧
      ts.map Transition.event = [.sendAsync .io ⟨0, false⟩ (ascii "ab")] ∧
      t.connected = true ∧ t.sendBufferMain = ascii "ab" ∧ t.writes = [] ∧ t.trySends = 0 := by
  constructor
  · obtain ⟨⟨ts, t⟩, hrun⟩ : ∃ r, exec next (onlySession zeroed) (failedWriteEvents 0) = some r :=
      ⟨_, rfl⟩
    have hend : (exec next (onlySession zeroed) (failedWriteEvents 0)).map (fun r =>
        (r.2.connected, r.2.rest, r.2.writes, r.2.trySends)) = some (true, ascii "ab", [], 0) := by
      decide
    have hevent : ∀ tr ∈ ts, tr.event.Sends ∧ tr.event.CloseSucceeds :=
      Transitions.Run.forall_of_exec (P := fun e => e.Sends ∧ e.CloseSucceeds) hrun (by
        have hbytes : ascii "ab" ≠ [] := by decide
        simp [failedWriteEvents, Event.Sends, Event.CloseSucceeds, Event.env, hbytes])
    simp only [hrun, Option.map_some, Option.some.injEq, Prod.mk.injEq] at hend
    exact ⟨ts, t, (Transitions.Run.of_exec hrun).1, fun tr htr => (hevent tr htr).1,
      fun tr htr => (hevent tr htr).2, hend⟩
  · exact ⟨_, _, .cons rfl (.nil _), rfl, rfl, rfl, rfl, rfl⟩

end FailedWrites

end State

end Webcrown.Server
