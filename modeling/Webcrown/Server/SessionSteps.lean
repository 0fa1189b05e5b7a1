import Webcrown.Server.SessionRuns

/-!
# What a step of a session can do

A disconnect whose close succeeds has one outcome; a session that is disconnected stays
so and its socket stays closed; and the sending side leaves the receiving side, the
flag `connected_` and `sessions_` alone. The read handler is taken apart once.
-/

namespace Webcrown.Server

open Bytes Common Http Transitions

/-- The environment of the handler that an event runs. -/
def Event.env : Event → Option Env
  | .completeRead _ _ | .completeWrite _ _ => none
  | .readHandler _ env _ | .writeHandler _ env | .trySend env | .disconnectHandler env
  | .disconnectSession env _ | .sendAsync _ env _ | .disconnect _ env => some env

/-- Closing the socket succeeds in the handler that an event runs. -/
def Event.CloseSucceeds (e : Event) : Prop := ∀ env, e.env = some env → env.closeFails = false

namespace State

variable {s t u : State} {env : Env} {thread : Thread} {e : Event}

def disconnected (s : State) : State :=
  { s with
    connected := false
    receiving := false
    sending := false
    sendBufferMain := []
    sendBufferFlush := []
    bytesPending := 0
    bytesSending := 0
    isOpen := false
    reads := s.reads.map fun r => r.or (some .failed)
    writes := s.writes.map fun w => { w with result := w.result.or (some ⟨true, 0⟩) }
    sessions := s.sessions.erase s.sessionId
    log := s.log ++ [.unregister (decide (s.sessionId ∈ s.sessions))] }

theorem disconnectHandler_of_connected (h : s.connected = true)
    (hclose : s.isOpen = true → env.closeFails = false) :
    s.disconnectHandler env = s.disconnected := by
  have hfails : (s.isOpen && env.closeFails) = false := by
    cases hopen : s.isOpen with
    | true => simp [hclose hopen]
    | false => rfl
  simp [disconnectHandler, h, hfails, disconnected, clearBuffers, shutdownSession, closeSocket,
    unregisterSession, record, Function.comp_def]

theorem disconnectHandler_of_not_connected (h : s.connected = false) :
    s.disconnectHandler env = s.closeSocket := by
  simp [disconnectHandler, h, shutdownSession]

theorem disconnectHandler_of_close_fails (h : s.connected = true) (hopen : s.isOpen = true)
    (hclose : env.closeFails = true) : s.disconnectHandler env = s.closeSocket := by
  simp [disconnectHandler, h, hopen, hclose, shutdownSession, closeSocket, Function.comp_def]

theorem disconnect_of_not_connected (h : s.connected = false) : s.disconnect thread env = s := by
  simp [disconnect, h]

/-- The timer's handler makes the test of `disconnect` once more. -/
theorem disconnectSession_eq (s : State) : s.disconnectSession env = s.disconnect .io env := by
  unfold disconnectSession
  split_ifs with hconnected
  · exact (if_pos hconnected).symm
  · rfl

theorem disconnect_io_of_connected (h : s.connected = true) :
    s.disconnect .io env = s.disconnectHandler env := by
  simp [disconnect, h]

theorem disconnect_other_of_connected (h : s.connected = true) :
    s.disconnect .other env = { s with disconnects := s.disconnects + 1 } :=
  if_neg (by simp [h])

theorem disconnectHandler_cases (s : State) (env : Env) :
    s.disconnectHandler env = s.closeSocket ∨
      s.connected = true ∧ s.disconnectHandler env = s.disconnected := by
  cases hconnected : s.connected with
  | false => exact Or.inl (disconnectHandler_of_not_connected hconnected)
  | true =>
    by_cases hclose : s.isOpen = true ∧ env.closeFails = true
    · exact Or.inl (disconnectHandler_of_close_fails hconnected hclose.1 hclose.2)
    · refine Or.inr ⟨rfl, disconnectHandler_of_connected hconnected fun hopen => ?_⟩
      simpa [hopen] using hclose

/-- What cannot come back: the state `t` may follow the state `s`. -/
structure Later (s t : State) : Prop where
  sessionId : t.sessionId = s.sessionId
  connected : t.connected = true → s.connected = true
  isOpen : t.isOpen = true → s.isOpen = true
  wire : s.isOpen = false → t.wire = s.wire
  sessions : ∀ id r, t.sessions.lookup id = some r → s.sessions.lookup id = some r
  erased : s.connected = true → t.connected = false → s.sessionId ∉ t.sessions

theorem Later.of_eq (hsessionId : t.sessionId = s.sessionId)
    (hconnected : t.connected = s.connected) (hisOpen : t.isOpen = s.isOpen)
    (hwire : t.wire = s.wire) (hsessions : t.sessions = s.sessions) : s.Later t where
  sessionId := hsessionId
  connected := fun h => hconnected ▸ h
  isOpen := fun h => hisOpen ▸ h
  wire := fun _ => hwire
  sessions := fun _ _ h => hsessions ▸ h
  erased := fun h h' => by simp [← hconnected, h'] at h

theorem Later.refl (s : State) : s.Later s := .of_eq rfl rfl rfl rfl rfl

theorem Later.trans (h : s.Later t) (h' : t.Later u) : s.Later u where
  sessionId := h'.sessionId.trans h.sessionId
  connected := h.connected ∘ h'.connected
  isOpen := h.isOpen ∘ h'.isOpen
  wire hclosed := by
    have hclosed' : t.isOpen = false := by
      by_contra hopen
      rw [h.isOpen (by simpa using hopen)] at hclosed
      cases hclosed
    exact (h'.wire hclosed').trans (h.wire hclosed)
  sessions id r hr := h.sessions id r (h'.sessions id r hr)
  erased hconnected hend hmem := by
    by_cases hbetween : t.connected = true
    · exact h'.erased hbetween hend (h.sessionId ▸ hmem)
    · obtain ⟨r, hr⟩ := Finmap.mem_iff.mp hmem
      exact h.erased hconnected (by simpa using hbetween)
        (Finmap.mem_of_lookup_eq_some (h'.sessions _ r hr))

theorem later_closeSocket (s : State) : s.Later s.closeSocket where
  sessionId := rfl
  connected := id
  isOpen := fun h => (Bool.false_ne_true h).elim
  wire := fun _ => rfl
  sessions := fun _ _ => id
  erased := fun h h' => by simp [closeSocket, h] at h'

theorem later_disconnected (s : State) : s.Later s.disconnected where
  sessionId := rfl
  connected := fun h => (Bool.false_ne_true h).elim
  isOpen := fun h => (Bool.false_ne_true h).elim
  wire := fun _ => rfl
  sessions := fun id r hr => by
    by_cases hid : id = s.sessionId
    · subst hid
      simp [disconnected] at hr
    · rwa [disconnected, Finmap.lookup_erase_ne hid] at hr
  erased := fun _ _ => Finmap.notMem_erase_self

theorem Later.disconnectHandler (h : s.Later t) : s.Later (t.disconnectHandler env) := by
  rcases disconnectHandler_cases t env with ht | ⟨-, ht⟩ <;> rw [ht]
  · exact h.trans (later_closeSocket t)
  · exact h.trans (later_disconnected t)

theorem Later.disconnect (h : s.Later t) : s.Later (t.disconnect thread env) := by
  unfold State.disconnect
  split
  · exact h
  · cases thread with
    | io => exact h.disconnectHandler
    | other => exact ⟨h.sessionId, h.connected, h.isOpen, h.wire, h.sessions, h.erased⟩

theorem Later.startWrite (h : s.Later t) : s.Later (t.startWrite env) := by
  unfold State.startWrite
  split_ifs with hopen
  · exact ⟨h.sessionId, h.connected, h.isOpen, fun hclosed => by simp [h.isOpen hopen] at hclosed,
      h.sessions, h.erased⟩
  · exact ⟨h.sessionId, h.connected, h.isOpen, h.wire, h.sessions, h.erased⟩

theorem trySend_of_sending (h : s.sending = true) : s.trySend env = s := if_pos h

theorem trySend_of_flush (hsending : s.sending = false) (hflush : s.sendBufferFlush ≠ []) :
    s.trySend env = { s with sending := true }.startWrite env := by
  have hempty : s.sendBufferFlush.isEmpty = false := by simpa using hflush
  simp only [trySend, hsending, Bool.false_eq_true, if_false, hempty]

theorem trySend_of_swap (hsending : s.sending = false) (hflush : s.sendBufferFlush = []) :
    s.trySend env =
      if s.sendBufferMain = [] then s.swapBuffers
      else { s.swapBuffers with sending := true }.startWrite env := by
  have hmain : s.swapBuffers.sendBufferFlush = s.sendBufferMain := rfl
  simp only [trySend, hsending, Bool.false_eq_true, if_false, hflush, List.isEmpty_nil, if_true,
    hmain, List.isEmpty_iff]

theorem trySend_cases (s : State) (env : Env) :
    s.sending = true ∧ s.trySend env = s ∨
      s.sending = false ∧ (s.trySend env = s.swapBuffers ∨
        s.trySend env = { s with sending := true }.startWrite env ∨
        s.trySend env = { s.swapBuffers with sending := true }.startWrite env) := by
  cases hsending : s.sending with
  | true => exact Or.inl ⟨rfl, trySend_of_sending hsending⟩
  | false =>
    refine Or.inr ⟨rfl, ?_⟩
    by_cases hflush : s.sendBufferFlush = []
    · rw [trySend_of_swap hsending hflush]
      split_ifs
      · exact Or.inl rfl
      · exact Or.inr (Or.inr rfl)
    · exact Or.inr (Or.inl (trySend_of_flush hsending hflush))

theorem Later.trySend (h : s.Later t) : s.Later (t.trySend env) := by
  rcases trySend_cases t env with ⟨-, ht⟩ | ⟨-, ht | ht | ht⟩ <;> rw [ht]
  · exact h
  · exact ⟨h.sessionId, h.connected, h.isOpen, h.wire, h.sessions, h.erased⟩
  · exact Later.startWrite ⟨h.sessionId, h.connected, h.isOpen, h.wire, h.sessions, h.erased⟩
  · exact Later.startWrite ⟨h.sessionId, h.connected, h.isOpen, h.wire, h.sessions, h.erased⟩

/-- `send_async` without a buffer disconnects; with one it adds to the main buffer, and it queues
a `try_send` or runs it unless both buffers are in use. -/
theorem sendAsync_cases {buffer : ByteString} (h : s.sendAsync thread env buffer = some t) :
    buffer = [] ∧ t = s.disconnect thread env ∨
      buffer ≠ [] ∧ ∃ u, (∃ pending n, u = { s with
          sendBufferMain := s.sendBufferMain ++ buffer
          bytesPending := pending
          trySends := n }) ∧
        (t = u ∧ (thread = .io → s.sendBufferFlush ≠ []) ∨ thread = .io ∧ t = u.trySend env) := by
  simp only [State.sendAsync] at h
  split_ifs at h with hempty hlarge hrequired
  · exact Or.inl ⟨by simpa using hempty, (Option.some.inj h).symm⟩
  · have hflush : s.sendBufferFlush ≠ [] := by
      intro hflush
      simp [hflush] at hrequired
    exact Or.inr ⟨by simpa using hempty, _, ⟨_, _, rfl⟩,
      Or.inl ⟨(Option.some.inj h).symm, fun _ => hflush⟩⟩
  · refine Or.inr ⟨by simpa using hempty, ?_⟩
    cases thread with
    | io => exact ⟨_, ⟨_, s.trySends, rfl⟩, Or.inr ⟨rfl, (Option.some.inj h).symm⟩⟩
    | other =>
      exact ⟨_, ⟨_, _, rfl⟩, Or.inl ⟨(Option.some.inj h).symm, fun hio => by cases hio⟩⟩

theorem Later.sendAsync {buffer : ByteString} (h : s.Later t)
    (ht : t.sendAsync thread env buffer = some u) : s.Later u := by
  rcases sendAsync_cases ht with ⟨-, rfl⟩ | ⟨-, u, ⟨pending, n, rfl⟩, ⟨rfl, -⟩ | ⟨-, rfl⟩⟩
  · exact h.disconnect
  · exact ⟨h.sessionId, h.connected, h.isOpen, h.wire, h.sessions, h.erased⟩
  · exact Later.trySend ⟨h.sessionId, h.connected, h.isOpen, h.wire, h.sessions, h.erased⟩

theorem Later.tryReceive (h : s.Later t) : s.Later t.tryReceive := by
  unfold State.tryReceive
  split_ifs
  · exact h
  · exact h
  · exact ⟨h.sessionId, h.connected, h.isOpen, h.wire, h.sessions, h.erased⟩

def reportWrite (i : ℕ) (requested : ByteString) (r : WriteResult) (s : State) : State :=
  { s with
    writes := s.writes.eraseIdx i
    reported := s.reported ++ requested.take r.size
    sending := false }

theorem writeHandler_cases {i : ℕ} (h : s.writeHandler i env = some t) :
    ∃ requested r, s.writes[i]? = some ⟨requested, some r⟩ ∧
      (r.size = 0 ∧ t = s.reportWrite i requested r ∨
        r.size ≠ 0 ∧ r.failed = true ∧
          t = ((s.reportWrite i requested r).advance r.size).disconnect .io env ∨
        r.size ≠ 0 ∧ r.failed = false ∧
          t = ((s.reportWrite i requested r).advance r.size).trySend env) := by
  unfold State.writeHandler at h
  split at h
  · rename_i requested r hget
    have h := Option.some.inj h
    refine ⟨requested, r, hget, ?_⟩
    simp only [asyncWriteHandler] at h
    split_ifs at h with hsize hfailed
    · exact Or.inl ⟨hsize, h.symm⟩
    · exact Or.inr (Or.inl ⟨hsize, hfailed, h.symm⟩)
    · exact Or.inr (Or.inr ⟨hsize, by simpa using hfailed, h.symm⟩)
  · cases h

theorem Later.advance (h : s.Later t) (size : ℕ) : s.Later (t.advance size) :=
  ⟨h.sessionId, h.connected, h.isOpen, h.wire, h.sessions, h.erased⟩

theorem Later.writeHandler {i : ℕ} (h : s.Later t) (ht : t.writeHandler i env = some u) :
    s.Later u := by
  obtain ⟨requested, r, -, hcases⟩ := writeHandler_cases ht
  have hreport : s.Later (t.reportWrite i requested r) :=
    ⟨h.sessionId, h.connected, h.isOpen, h.wire, h.sessions, h.erased⟩
  rcases hcases with ⟨-, rfl⟩ | ⟨-, -, rfl⟩ | ⟨-, -, rfl⟩
  · exact hreport
  · exact (hreport.advance _).disconnect
  · exact (hreport.advance _).trySend

def parsed (parser : Parser) (s : State) : State :=
  { s.record (.parse s.connected) with parser := parser }

/-- `on_receive` parses; then it disconnects, waits for more, or sends a response and
disconnects. -/
theorem onReceive_cases {respond : Respond} {chunk : Chunk}
    (h : s.onReceive env respond chunk = some t) :
    ∃ r, s.parser.call chunk = .ok r ∧
      (t = (s.parsed r.parser).disconnect .io env ∨
        t = s.parsed r.parser ∨
        ∃ request text u, r.request = some request ∧ respond request = .ok text ∧
          ((s.parsed r.parser).record (.execute s.connected)).sendAsync .io env text = some u ∧
          t = u.disconnect .io env) := by
  simp only [State.onReceive] at h
  cases hcall : (s.record (.parse s.connected)).parser.call chunk with
  | error e =>
    rw [hcall] at h
    cases h
  | ok r =>
    rw [hcall] at h
    refine ⟨r, hcall, ?_⟩
    simp only at h
    split_ifs at h
    · exact Or.inl (Option.some.inj h).symm
    · exact Or.inr (Or.inl (Option.some.inj h).symm)
    · split at h
      · exact Or.inl (Option.some.inj h).symm
      · rename_i request hrequest
        split at h
        · cases h
        · rename_i text hrespond
          obtain ⟨u, hsend, htext⟩ := Option.map_eq_some_iff.mp h
          exact Or.inr (Or.inr ⟨request, text, u, hrequest, hrespond, hsend, htext.symm⟩)

theorem Later.onReceive {respond : Respond} {chunk : Chunk} (h : s.Later t)
    (ht : t.onReceive env respond chunk = some u) : s.Later u := by
  obtain ⟨r, -, hcases⟩ := onReceive_cases ht
  have hparsed : s.Later (t.parsed r.parser) :=
    ⟨h.sessionId, h.connected, h.isOpen, h.wire, h.sessions, h.erased⟩
  rcases hcases with rfl | rfl | ⟨request, text, u, -, -, hsend, rfl⟩
  · exact hparsed.disconnect
  · exact hparsed
  · have hrecord : s.Later ((t.parsed r.parser).record (.execute t.connected)) :=
      ⟨h.sessionId, h.connected, h.isOpen, h.wire, h.sessions, h.erased⟩
    exact (hrecord.sendAsync hsend).disconnect

theorem tryReceive_of_not_connected (h : s.connected = false) : s.tryReceive = s := by
  simp [tryReceive, h]

theorem connected_connect (s : State) (bufferSize : ℕ) :
    (s.connect bufferSize).connected = true := by
  unfold connect tryReceive
  split_ifs <;> rfl

theorem sessionId_connect (s : State) (bufferSize : ℕ) :
    (s.connect bufferSize).sessionId = s.sessionId := by
  unfold connect tryReceive
  split_ifs <;> rfl

theorem sessions_connect (s : State) (bufferSize : ℕ) :
    (s.connect bufferSize).sessions = s.sessions := by
  unfold connect tryReceive
  split_ifs <;> rfl

theorem resume_eq (s : State) (size : ℕ) :
    (let s' := if s.receiveBufferSize ≤ size then { s with receiveBufferSize := 2 * size } else s
      if !s'.connected then s' else s'.tryReceive) =
      { s with receiveBufferSize :=
        if s.receiveBufferSize ≤ size then 2 * size else s.receiveBufferSize }.tryReceive := by
  have hgrow :
      (if s.receiveBufferSize ≤ size then { s with receiveBufferSize := 2 * size } else s) =
      { s with receiveBufferSize :=
        if s.receiveBufferSize ≤ size then 2 * size else s.receiveBufferSize } := by
    split_ifs <;> rfl
  simp only [hgrow]
  generalize (if s.receiveBufferSize ≤ size then 2 * size else s.receiveBufferSize) = n
  by_cases hconnected : s.connected = true
  · exact if_neg (by simp [hconnected])
  · rw [Bool.not_eq_true] at hconnected
    exact (if_pos (by simp [hconnected])).trans
      (tryReceive_of_not_connected (s := { s with receiveBufferSize := n }) hconnected).symm

def takeRead (i : ℕ) (s : State) : State :=
  { s with reads := s.reads.eraseIdx i, receiving := false }

theorem readHandler_cases {i : ℕ} {respond : Respond} (h : s.readHandler i env respond = some t) :
    s.reads[i]? = some (some .failed) ∧ t = (s.takeRead i).disconnect .io env ∨
      ∃ chunk, s.reads[i]? = some (some (.received chunk)) ∧
        (chunk.size = 0 ∧ t = (s.takeRead i).tryReceive ∨
          chunk.size ≠ 0 ∧ ∃ received size u,
            { s.takeRead i with bytesReceived := received }.onReceive env respond chunk = some u ∧
            t = { u with receiveBufferSize := size }.tryReceive) := by
  unfold State.readHandler at h
  split at h
  · rename_i result hget
    cases result with
    | failed => exact Or.inl ⟨hget, (Option.some.inj h).symm⟩
    | received chunk =>
      refine Or.inr ⟨chunk, hget, ?_⟩
      simp only [asyncReceiveHandler] at h
      split_ifs at h with hsize
      · exact Or.inl ⟨hsize, (Option.some.inj h).symm⟩
      · obtain ⟨u, hu, ht⟩ := Option.map_eq_some_iff.mp h
        refine Or.inr ⟨hsize, _, _, u, hu, ht.symm.trans (resume_eq u chunk.size)⟩
  · cases h

theorem Later.readHandler {i : ℕ} {respond : Respond} (h : s.Later t)
    (ht : t.readHandler i env respond = some u) : s.Later u := by
  have htake : s.Later (t.takeRead i) :=
    ⟨h.sessionId, h.connected, h.isOpen, h.wire, h.sessions, h.erased⟩
  rcases readHandler_cases ht with
    ⟨-, rfl⟩ | ⟨chunk, -, ⟨-, rfl⟩ | ⟨-, received, size, u, hreceive, rfl⟩⟩
  · exact htake.disconnect
  · exact htake.tryReceive
  · have hcount : s.Later { t.takeRead i with bytesReceived := received } :=
      ⟨h.sessionId, h.connected, h.isOpen, h.wire, h.sessions, h.erased⟩
    have hu := hcount.onReceive hreceive
    exact Later.tryReceive ⟨hu.sessionId, hu.connected, hu.isOpen, hu.wire, hu.sessions, hu.erased⟩

theorem completeRead_cases {i : ℕ} {result : ReadResult} (h : s.completeRead i result = some t) :
    s.reads[i]? = some none ∧ t = { s with reads := s.reads.set i (some result) } ∧
      (result = .failed ∨ s.isOpen = true) := by
  unfold completeRead at h
  split at h
  · rename_i hget
    cases result with
    | failed => exact ⟨hget, (Option.some.inj h).symm, Or.inl rfl⟩
    | received chunk =>
      simp only at h
      split_ifs at h with hcond
      simp only [Bool.and_eq_true] at hcond
      exact ⟨hget, (Option.some.inj h).symm, Or.inr hcond.1⟩
  · cases h

theorem completeWrite_cases {i : ℕ} {result : WriteResult}
    (h : s.completeWrite i result = some t) :
    s.isOpen = true ∧ ∃ requested, s.writes[i]? = some ⟨requested, none⟩ ∧
      result.size ≤ requested.length ∧ t = { s with
        wire := s.wire ++ requested.take result.size
        writes := s.writes.set i ⟨requested, some result⟩ } := by
  unfold completeWrite at h
  split at h
  · rename_i requested hget
    split_ifs at h with hcond
    simp only [Bool.and_eq_true, decide_eq_true_eq] at hcond
    exact ⟨hcond.1.1, requested, hget, hcond.1.2, (Option.some.inj h).symm⟩
  · cases h

theorem next_trySend (h : s.next (.trySend env) = some t) :
    t = { s with trySends := s.trySends - 1 }.trySend env := by
  simp only [next] at h
  split_ifs at h
  exact (Option.some.inj h).symm

theorem next_disconnectHandler (h : s.next (.disconnectHandler env) = some t) :
    t = { s with disconnects := s.disconnects - 1 }.disconnectHandler env := by
  simp only [next] at h
  split_ifs at h
  exact (Option.some.inj h).symm

/-- One step after another: nothing comes back. -/
theorem later_next (h : s.next e = some t) : s.Later t := by
  cases e with
  | completeRead i result =>
    obtain ⟨-, rfl, -⟩ := completeRead_cases h
    exact .of_eq rfl rfl rfl rfl rfl
  | completeWrite i result =>
    obtain ⟨hopen, requested, -, -, rfl⟩ := completeWrite_cases h
    exact ⟨rfl, id, id, fun hclosed => by simp [hopen] at hclosed, fun _ _ => id,
      fun h h' => by simp [h] at h'⟩
  | readHandler i env respond => exact (Later.refl s).readHandler h
  | writeHandler i env => exact (Later.refl s).writeHandler h
  | trySend env =>
    obtain rfl := next_trySend h
    exact Later.trySend (.of_eq rfl rfl rfl rfl rfl)
  | disconnectHandler env =>
    obtain rfl := next_disconnectHandler h
    exact Later.disconnectHandler (.of_eq rfl rfl rfl rfl rfl)
  | disconnectSession env failed =>
    obtain rfl := Option.some.inj h
    rw [disconnectSession_eq]
    exact (Later.refl s).disconnect
  | sendAsync thread env buffer => exact (Later.refl s).sendAsync h
  | disconnect thread env =>
    obtain rfl := Option.some.inj h
    exact (Later.refl s).disconnect

theorem later_run {ts : List (Transition State Event)} (h : Run s ts t) : s.Later t := by
  induction h with
  | nil s => exact Later.refl s
  | cons hstep _ ih => exact (later_next hstep).trans ih

end State

end Webcrown.Server
