import Webcrown.Server.Ownership

/-!
# The life of a session

A session is in `sessions_` as long as it is connected, and then one read is outstanding
for it; it is disconnected and erased once. Nothing of this looks at the sending side.
-/

namespace Webcrown.Server

open Bytes Common Http Transitions

/-- What the sending side of a session leaves alone. -/
structure Standing where
  sessionId : UInt64
  connected : Bool
  receiving : Bool
  isOpen : Bool
  reads : List Read
  sessions : Sessions
  log : List Action

/-- The invariant at a handler boundary, where `armed` is true; in the read handler, before the
next read, it is false. -/
structure Standing.Live (armed : Bool) (v : Standing) : Prop where
  registered : v.connected = true ↔ v.sessionId ∈ v.sessions
  reading : v.connected = true → v.receiving = armed ∧ v.reads.length = armed.toNat
  erased : v.log.count (.unregister true) = if v.connected then 0 else 1

namespace State

variable {s t : State} {env : Env} {thread : Thread} {e : Event} {armed armed' : Bool}

def standing (s : State) : Standing where
  sessionId := s.sessionId
  connected := s.connected
  receiving := s.receiving
  isOpen := s.isOpen
  reads := s.reads
  sessions := s.sessions
  log := s.log

theorem standing_startWrite (s : State) : (s.startWrite env).standing = s.standing := by
  unfold startWrite
  split_ifs <;> rfl

theorem standing_trySend (s : State) : (s.trySend env).standing = s.standing := by
  rcases trySend_cases s env with ⟨-, h⟩ | ⟨-, h | h | h⟩ <;> rw [h]
  · rfl
  · exact standing_startWrite { s with sending := true }
  · exact standing_startWrite { s.swapBuffers with sending := true }

theorem standing_sendAsync {buffer : ByteString} (hbuffer : buffer ≠ [])
    (h : s.sendAsync thread env buffer = some t) : t.standing = s.standing := by
  rcases sendAsync_cases h with ⟨hempty, -⟩ | ⟨-, u, ⟨pending, n, rfl⟩, ⟨rfl, -⟩ | ⟨-, rfl⟩⟩
  · exact absurd hempty hbuffer
  · rfl
  · exact standing_trySend { s with
      sendBufferMain := s.sendBufferMain ++ buffer, bytesPending := pending, trySends := n }

theorem live_disconnected (h : s.standing.Live armed) (hconnected : s.connected = true) :
    s.disconnected.standing.Live armed' where
  registered := by simp [standing, disconnected]
  reading := fun hback => (Bool.false_ne_true hback).elim
  erased := by
    have hlog : s.log.count (.unregister true) = 0 := by
      simpa [standing, hconnected] using h.erased
    have hmem : s.sessionId ∈ s.sessions := h.registered.mp hconnected
    simp [standing, disconnected, hlog, hmem]

theorem live_of_not_connected (h : s.standing.Live armed) (hconnected : s.connected = false) :
    s.standing.Live armed' where
  registered := h.registered
  reading := fun hback => by simp [standing, hconnected] at hback
  erased := h.erased

theorem live_disconnect_io (h : s.standing.Live armed) (hclose : env.closeFails = false) :
    (s.disconnect .io env).standing.Live armed' := by
  by_cases hconnected : s.connected = true
  · rw [disconnect_io_of_connected hconnected,
      disconnectHandler_of_connected hconnected fun _ => hclose]
    exact live_disconnected h hconnected
  · rw [Bool.not_eq_true] at hconnected
    rw [disconnect_of_not_connected hconnected]
    exact live_of_not_connected h hconnected

theorem live_disconnect (h : s.standing.Live armed) (hclose : env.closeFails = false) :
    (s.disconnect thread env).standing.Live armed := by
  cases thread with
  | io => exact live_disconnect_io h hclose
  | other =>
    unfold disconnect
    split_ifs <;> exact h

theorem live_disconnectHandler (h : s.standing.Live armed) (hclose : env.closeFails = false) :
    (s.disconnectHandler env).standing.Live armed := by
  by_cases hconnected : s.connected = true
  · rw [disconnectHandler_of_connected hconnected fun _ => hclose]
    exact live_disconnected h hconnected
  · rw [Bool.not_eq_true] at hconnected
    rw [disconnectHandler_of_not_connected hconnected]
    exact ⟨h.registered, fun hback => by simp [standing, closeSocket, hconnected] at hback,
      h.erased⟩

theorem live_tryReceive (h : s.standing.Live false) : s.tryReceive.standing.Live true := by
  by_cases hconnected : s.connected = true
  · obtain ⟨hreceiving, hreads⟩ := h.reading hconnected
    have hnil : s.reads = [] := List.length_eq_zero_iff.mp hreads
    have hstart : s.tryReceive = { s with receiving := true }.startRead := by
      simp [tryReceive, show s.receiving = false from hreceiving, hconnected]
    rw [hstart]
    exact ⟨h.registered, fun _ => ⟨rfl, by simp [standing, startRead, hnil]⟩, h.erased⟩
  · rw [Bool.not_eq_true] at hconnected
    rw [tryReceive_of_not_connected hconnected]
    exact live_of_not_connected h hconnected

theorem live_record (h : s.standing.Live armed) {a : Action} (ha : a ≠ .unregister true) :
    (s.record a).standing.Live armed where
  registered := h.registered
  reading := h.reading
  erased := by
    have hcount : (s.log ++ [a]).count (.unregister true) = s.log.count (.unregister true) := by
      simp [ha]
    exact hcount.trans h.erased

theorem live_onReceive {respond : Respond} {chunk : Chunk} (h : s.standing.Live false)
    (hclose : env.closeFails = false) (ht : s.onReceive env respond chunk = some t) :
    t.standing.Live false := by
  obtain ⟨r, -, hcases⟩ := onReceive_cases ht
  have hparsed : (s.parsed r.parser).standing.Live false :=
    live_record (a := .parse s.connected) h (by simp)
  rcases hcases with rfl | rfl | ⟨request, text, u, -, -, hsend, rfl⟩
  · exact live_disconnect_io hparsed hclose
  · exact hparsed
  · have hrecord : ((s.parsed r.parser).record (.execute s.connected)).standing.Live false :=
      live_record hparsed (by simp)
    refine live_disconnect_io (?_ : u.standing.Live false) hclose
    by_cases htext : text = []
    · rcases sendAsync_cases hsend with ⟨-, rfl⟩ | ⟨hne, -⟩
      · exact live_disconnect_io hrecord hclose
      · exact absurd htext hne
    · rw [standing_sendAsync htext hsend]
      exact hrecord

theorem live_readHandler {i : ℕ} {respond : Respond} (h : s.standing.Live true)
    (hclose : env.closeFails = false) (ht : s.readHandler i env respond = some t) :
    t.standing.Live true := by
  have htake : ∀ r, s.reads[i]? = some r → (s.takeRead i).standing.Live false := by
    intro r hget
    obtain ⟨hi, -⟩ := List.getElem?_eq_some_iff.mp hget
    refine ⟨h.registered, fun hconnected => ⟨rfl, ?_⟩, h.erased⟩
    have hlength : s.reads.length = 1 := (h.reading hconnected).2
    exact (List.length_eraseIdx_of_lt hi).trans (by rw [hlength]; rfl)
  rcases readHandler_cases ht with
    ⟨hget, rfl⟩ | ⟨chunk, hget, ⟨-, rfl⟩ | ⟨-, received, size, u, hreceive, rfl⟩⟩
  · exact live_disconnect_io (htake _ hget) hclose
  · exact live_tryReceive (htake _ hget)
  · have hu : u.standing.Live false :=
      live_onReceive (s := { s.takeRead i with bytesReceived := received }) (htake _ hget) hclose
        hreceive
    exact live_tryReceive (s := { u with receiveBufferSize := size }) hu

theorem live_writeHandler {i : ℕ} (h : s.standing.Live true) (hclose : env.closeFails = false)
    (ht : s.writeHandler i env = some t) : t.standing.Live true := by
  obtain ⟨requested, r, -, ⟨-, rfl⟩ | ⟨-, -, rfl⟩ | ⟨-, -, rfl⟩⟩ := writeHandler_cases ht
  · exact h
  · exact live_disconnect_io (s := (s.reportWrite i requested r).advance r.size) h hclose
  · rw [standing_trySend]
    exact h

/-- Every step whose close succeeds keeps the invariant. -/
theorem live_next (h : s.standing.Live true) (hclose : e.CloseSucceeds) (ht : s.next e = some t) :
    t.standing.Live true := by
  cases e with
  | completeRead i result =>
    obtain ⟨-, rfl, -⟩ := completeRead_cases ht
    refine ⟨h.registered, fun hconnected => ⟨(h.reading hconnected).1, ?_⟩, h.erased⟩
    exact (List.length_set).trans (h.reading hconnected).2
  | completeWrite i result =>
    obtain ⟨-, requested, -, -, rfl⟩ := completeWrite_cases ht
    exact h
  | readHandler i env respond => exact live_readHandler h (hclose env rfl) ht
  | writeHandler i env => exact live_writeHandler h (hclose env rfl) ht
  | trySend env =>
    obtain rfl := next_trySend ht
    rw [standing_trySend]
    exact h
  | disconnectHandler env =>
    obtain rfl := next_disconnectHandler ht
    exact live_disconnectHandler (s := { s with disconnects := s.disconnects - 1 }) h
      (hclose env rfl)
  | disconnectSession env failed =>
    obtain rfl := Option.some.inj ht
    rw [disconnectSession_eq]
    exact live_disconnect_io h (hclose env rfl)
  | sendAsync thread env buffer =>
    by_cases hbuffer : buffer = []
    · rcases sendAsync_cases ht with ⟨-, rfl⟩ | ⟨hne, -⟩
      · exact live_disconnect h (hclose env rfl)
      · exact absurd hbuffer hne
    · rw [standing_sendAsync hbuffer ht]
      exact h
  | disconnect thread env =>
    obtain rfl := Option.some.inj ht
    exact live_disconnect h (hclose env rfl)

/-- A session as the server accepts it, registered with `sessions_` and not yet connected. -/
def incoming (id : UInt64) (m : Uninitialised) (sessions : Sessions) : State where
  toSession := { Session.fresh id m with isOpen := true }
  sessions := sessions

theorem live_connect {id : UInt64} {m : Uninitialised} {sessions : Sessions} (hid : id ∈ sessions)
    (hreceiving : m.receiving = false) (bufferSize : ℕ) :
    ((incoming id m sessions).connect bufferSize).standing.Live true :=
  live_tryReceive ⟨by simpa [standing, incoming, Session.fresh] using hid,
    fun _ => ⟨hreceiving, rfl⟩, rfl⟩

/-- In every run after `connect`, if `receiving_` happens to be clear then, closing the socket
succeeds, no `disconnect_handler` of another thread runs and every handler that keeps only `this`
finds the session owned and does not orphan it, in every order of completions, timers and calls of
any thread: the session is in `sessions_` exactly while it is connected, one read is
outstanding for it then and `receiving_` is set, it is disconnected once at most and never comes
back, and `unregister_session` erases it once it is disconnected. -/
theorem session_lifecycle {id : UInt64} {m : Uninitialised} {sessions : Sessions} {bufferSize : ℕ}
    {t : State} {ts : List (Transition State Occurrence)} (hid : id ∈ sessions)
    (hreceiving : m.receiving = false)
    (hrun : Transitions.Run step ((incoming id m sessions).connect bufferSize) ts t)
    (hclose : ∀ tr ∈ ts, tr.event.event.CloseSucceeds)
    (howner : ∀ tr ∈ ts, tr.before.holdsOwner tr.event = true) :
    (t.connected = true ↔ id ∈ t.sessions) ∧
      (t.connected = true → t.reads.length = 1 ∧ t.receiving = true) ∧
      (∀ tr ∈ ts, tr.after.connected = true → tr.before.connected = true) ∧
      (ts.countP fun tr => tr.before.connected && !tr.after.connected) =
        (if t.connected then 0 else 1) ∧
      t.log.count (.unregister true) = if t.connected then 0 else 1 := by
  have htext := run_of_step hrun hclose howner
  have hlive : t.standing.Live true :=
    (htext.invariant (I := fun s => s.standing.Live true) (live_connect hid hreceiving bufferSize)
      fun tr htr hnext hinv => by
        obtain ⟨tr', htr', rfl⟩ := List.mem_map.mp htr
        exact live_next hinv (hclose tr' htr') hnext).1
  have hback : ∀ tr ∈ ts, tr.after.connected = true → tr.before.connected = true := fun tr htr =>
    (later_next (htext.step_of_mem (List.mem_map_of_mem htr))).connected
  have hsessionId : t.sessionId = id :=
    (later_run htext).sessionId.trans (sessionId_connect _ bufferSize)
  refine ⟨hsessionId ▸ hlive.registered, fun hconnected => (hlive.reading hconnected).symm, hback,
    ?_, hlive.erased⟩
  rw [hrun.falls (p := fun s => s.connected) hback, connected_connect]
  cases t.connected <;> rfl

section WaitingForBody

def waitingChunk : Chunk :=
  ⟨ascii "POST / HTTP/1.1\r\nContent-Length: 1\r\n\r\n", fun _ => 0, by decide +kernel⟩

def onlySession (m : Uninitialised) : State :=
  (incoming 1 m (Finmap.singleton 1 0)).connect 64

def waitingEvents : List Event :=
  [.completeRead 0 (.received waitingChunk), .readHandler 0 ⟨0, false⟩ fun _ => .ok [],
    .disconnectSession ⟨0, false⟩ true, .readHandler 0 ⟨0, false⟩ fun _ => .ok []]

def waitingOccurrences : List Occurrence :=
  (waitingEvents.zip [false, false, true, true]).map fun e => ⟨e.1, e.2, onlySession zeroed⟩

theorem session_lifecycle_waiting :
    ∃ ts t, exec step (onlySession zeroed) waitingOccurrences = some (ts, t) ∧
      t.log = [.parse true, .unregister true] ∧
      (t.connected = true ↔ 1 ∈ t.sessions) ∧
      (t.connected = true → t.reads.length = 1 ∧ t.receiving = true) ∧
      (∀ tr ∈ ts, tr.after.connected = true → tr.before.connected = true) ∧
      (ts.countP fun tr => tr.before.connected && !tr.after.connected) =
        (if t.connected then 0 else 1) ∧
      t.log.count (.unregister true) = if t.connected then 0 else 1 := by
  have hend : (exec step (onlySession zeroed) waitingOccurrences).map (fun r =>
      (r.2.log, r.1.all fun tr => tr.before.holdsOwner tr.event)) =
      some ([.parse true, .unregister true], true) := by
    decide +kernel
  obtain ⟨⟨ts, t⟩, hrun, hend⟩ := Option.map_eq_some_iff.mp hend
  obtain ⟨hlog, howner⟩ := Prod.mk.inj hend
  have hclose : ∀ tr ∈ ts, tr.event.event.CloseSucceeds :=
    Transitions.Run.forall_of_exec (P := fun o => o.event.CloseSucceeds) hrun (by
      simp [waitingOccurrences, waitingEvents, Event.CloseSucceeds, Event.env])
  exact ⟨ts, t, hrun, hlog, session_lifecycle (by simp) rfl (Transitions.Run.of_exec hrun).1 hclose
    fun tr htr => List.all_eq_true.mp howner tr htr⟩

/-- Where `receiving_` happens to be set, the connected session starts no read. Where another
thread disconnects the session, or the timer does while a read is outstanding, a handler uses an
object that is gone, and may leave the session connected without its entry in `sessions_`. -/
theorem session_lifecycle_broken :
    ((onlySession { zeroed with receiving := true }).connected = true ∧
        (onlySession { zeroed with receiving := true }).reads = []) ∧
      ∃ t : State, t.connected = true ∧ 1 ∉ t.sessions ∧
        (∃ ts, Transitions.Run step (onlySession zeroed) ts t ∧ ts.map (·.event.event) =
          [.disconnect .other ⟨0, false⟩, .disconnectHandler ⟨0, false⟩]) ∧
        ∀ respond, ∃ ts, Transitions.Run step (onlySession zeroed) ts t ∧
          ts.map (·.event.event) =
            [.disconnectSession ⟨0, false⟩ true, .readHandler 0 ⟨0, false⟩ respond] := by
  refine ⟨⟨rfl, rfl⟩, { onlySession zeroed with sessions := ∅ }, rfl, Finmap.notMem_empty, ?_,
    fun respond => ?_⟩
  · exact ⟨_, .cons (e := ⟨.disconnect .other ⟨0, false⟩, true, onlySession zeroed⟩) rfl
      (.cons (e := ⟨.disconnectHandler ⟨0, false⟩, false, _⟩) rfl (.nil _)), rfl⟩
  · exact ⟨_, .cons (e := ⟨.disconnectSession ⟨0, false⟩ true, true, onlySession zeroed⟩) rfl
      (.cons (e := ⟨.readHandler 0 ⟨0, false⟩ respond, false, _⟩) rfl (.nil _)), rfl⟩

end WaitingForBody

end State

end Webcrown.Server
