import Webcrown.Server.SessionSteps

/-!
# The owners of a session

`next` runs the text of the handlers. Some of them may use an object that is gone, which
is undefined behaviour: a queued `disconnect_handler` calls a local variable of the
`disconnect` that queued it, and the handlers that keep only `this` need another owner.
-/

namespace Webcrown.Server

open Bytes Common Http Transitions

/-- An event, whether the timer or a caller holds the session meanwhile, and the state in which
undefined behaviour would leave it. -/
structure Occurrence where
  event : Event
  held : Bool
  wild : State

namespace State

variable {s t : State}

/-- The session is destroyed unless `sessions_`, the handler of an outstanding write or somebody
else owns it. -/
def owned (held : Bool) (s : State) : Bool :=
  decide (s.sessionId ∈ s.sessions) || !s.writes.isEmpty || held

/-- `send_async` of a text on the I/O thread starts a write. -/
def startsWrite (text : ByteString) (s : State) : Bool :=
  !text.isEmpty && !s.sending && (s.sendBufferMain.isEmpty || s.sendBufferFlush.isEmpty)

/-- `on_receive` comes to a `disconnect` without having started a write. -/
def endsUnwritten (respond : Respond) (chunk : Chunk) (s : State) : Bool :=
  match s.parser.call chunk with
  | .error _ => false
  | .ok r =>
    if r.ec.isSome then true
    else if r.parser.parsePhase ≠ .finished then false
    else
      match r.request with
      | none => true
      | some request =>
        match respond request with
        | .error _ => false
        | .ok text => !s.startsWrite text

/-- `on_receive` takes the session from `sessions_`, its only owner, where closing the socket
succeeds. -/
def orphans (respond : Respond) (chunk : Chunk) (held : Bool) (s : State) : Bool :=
  s.connected && s.writes.isEmpty && !held && s.endsUnwritten respond chunk

/-- The session when the read handler calls `on_receive`. -/
def received (i : ℕ) (chunk : Chunk) (s : State) : State :=
  { s with
    reads := s.reads.eraseIdx i
    receiving := false
    bytesReceived := s.bytesReceived + UInt64.ofNat chunk.size }

/-- The handler of an event uses an object that is gone. -/
def dangles (s : State) (o : Occurrence) : Bool :=
  match o.event with
  | .disconnectHandler _ =>
    -- `shutdown_session` lived on the stack of `disconnect`
    decide (0 < s.disconnects)
  | .trySend _ => decide (0 < s.trySends) && !s.owned o.held
  | .readHandler i env respond =>
    match s.reads[i]? with
    | some (some .failed) => !s.owned o.held
    | some (some (.received chunk)) =>
      -- the handler goes on with `this` behind `on_receive`
      !s.owned o.held || chunk.size != 0 &&
        ((s.received i chunk).onReceive env respond chunk).any fun t => !t.owned o.held
    | _ => false
  | _ => false

/-- The state after an event, whatever it is where a handler uses an object that is gone. -/
def step (s : State) (o : Occurrence) : Option State :=
  if s.dangles o then some o.wild else s.next o.event

/-- No `disconnect_handler` of another thread runs, and the handlers that keep only `this` find
the session owned, and do not orphan it. -/
def holdsOwner (s : State) (o : Occurrence) : Bool :=
  match o.event with
  | .disconnectHandler _ => false
  | .trySend _ => s.owned o.held
  | .readHandler i _ respond =>
    s.owned o.held &&
      match s.reads[i]? with
      | some (some (.received chunk)) => chunk.size == 0 || !s.orphans respond chunk o.held
      | _ => true
  | _ => true

section Orphans

variable {env : Env} {respond : Respond} {chunk : Chunk} {held : Bool}

theorem writes_trySend (s : State) : (s.trySend env).writes.isEmpty =
    (s.writes.isEmpty && (s.sending || s.sendBufferMain.isEmpty && s.sendBufferFlush.isEmpty)) := by
  unfold trySend startWrite swapBuffers
  cases hmain : s.sendBufferMain <;> cases hflush : s.sendBufferFlush <;>
    cases hsending : s.sending <;> cases hopen : s.isOpen <;> simp [*]

theorem owned_disconnect (s : State) (hclose : env.closeFails = false) :
    (s.disconnect .io env).owned held =
      if s.connected then !s.writes.isEmpty || held else s.owned held := by
  unfold disconnect disconnectHandler
  cases hconnected : s.connected with
  | false => simp
  | true =>
    simp [hclose, owned, shutdownSession, closeSocket, clearBuffers, unregisterSession, record]

/-- A `disconnect` leaves the session without an owner exactly if only `sessions_` owned it. -/
theorem not_owned_disconnect {s : State} (hclose : env.closeFails = false)
    (howned : s.owned held = true) :
    (!(s.disconnect .io env).owned held) = (s.connected && s.writes.isEmpty && !held) := by
  rw [owned_disconnect s hclose]
  cases hconnected : s.connected
  · simp [howned]
  · simp

theorem disconnect_disconnect (s : State) (hclose : env.closeFails = false) :
    (s.disconnect .io env).disconnect .io env = s.disconnect .io env := by
  have hconnected : (s.disconnect .io env).connected = false := by
    unfold disconnect disconnectHandler
    cases hconnected : s.connected
    · simp [hconnected]
    · simp [hclose, shutdownSession, closeSocket, clearBuffers, unregisterSession, record]
  rw [disconnect, hconnected]
  rfl

theorem owned_startWrite (s : State) : (s.startWrite env).owned held = true := by
  unfold startWrite owned
  split_ifs <;> simp

theorem connected_trySend (s : State) : (s.trySend env).connected = s.connected := by
  have hwrite : ∀ s : State, (s.startWrite env).connected = s.connected := by
    intro s
    unfold startWrite
    split_ifs <;> rfl
  rcases trySend_cases s env with ⟨-, h⟩ | ⟨-, h | h | h⟩ <;> rw [h]
  · rfl
  · exact hwrite _
  · exact hwrite _

theorem owned_trySend (howned : s.owned held = true) : (s.trySend env).owned held = true := by
  rcases trySend_cases s env with ⟨-, h⟩ | ⟨-, h | h | h⟩ <;> rw [h]
  · exact howned
  · exact howned
  · exact owned_startWrite _
  · exact owned_startWrite _

/-- A response that is written keeps its session. -/
theorem not_owned_sendAsync {text : ByteString} {u : State} (hclose : env.closeFails = false)
    (howned : s.owned held = true) (h : s.sendAsync .io env text = some u) :
    (!(u.disconnect .io env).owned held) =
      (s.connected && s.writes.isEmpty && !held && !s.startsWrite text) := by
  let v : State := { s with
    sendBufferMain := s.sendBufferMain ++ text
    bytesPending := UInt64.ofNat (s.sendBufferMain ++ text).length }
  have hv : v.owned held = true := howned
  simp only [State.sendAsync] at h
  unfold startsWrite
  split_ifs at h with hempty hmax hrequired
  · obtain rfl := Option.some.inj h
    rw [disconnect_disconnect s hclose, not_owned_disconnect hclose howned, hempty]
    simp
  · obtain rfl : v = u := Option.some.inj h
    rw [not_owned_disconnect hclose hv]
    rw [Bool.not_eq_true'] at hrequired
    simp [hrequired, v]
  · obtain rfl : v.trySend env = u := Option.some.inj h
    have hmain : v.sendBufferMain.isEmpty = false := by
      simp only [List.isEmpty_iff] at hempty
      simp [v, hempty]
    rw [not_owned_disconnect hclose (owned_trySend hv), connected_trySend, writes_trySend, hmain]
    rw [Bool.not_eq_true', Bool.not_eq_false] at hrequired
    rw [Bool.not_eq_true] at hempty
    rw [hempty, hrequired]
    cases s.connected <;> cases hsending : s.sending <;> cases held <;> simp [v]

/-- The branches of `on_receive` behind which nothing owns the session. -/
theorem orphans_eq (hclose : env.closeFails = false) (howned : s.owned held = true)
    (h : s.onReceive env respond chunk = some t) :
    s.orphans respond chunk held = !t.owned held := by
  have hparser : (s.record (.parse s.connected)).parser = s.parser := rfl
  simp only [onReceive, hparser] at h
  unfold orphans endsUnwritten
  cases hcall : s.parser.call chunk with
  | error e =>
    rw [hcall] at h
    cases h
  | ok r =>
    have hparsed : (s.parsed r.parser).owned held = true := howned
    rw [hcall] at h
    dsimp only at h ⊢
    split_ifs at h ⊢ with hec hphase
    · obtain rfl := Option.some.inj h
      rw [Bool.and_true]
      exact (not_owned_disconnect hclose hparsed).symm
    · obtain rfl := Option.some.inj h
      rw [Bool.and_false]
      exact (congrArg (!·) hparsed).symm
    · cases hrequest : r.request with
      | none =>
        rw [hrequest] at h
        obtain rfl := Option.some.inj h
        rw [Bool.and_true]
        exact (not_owned_disconnect hclose hparsed).symm
      | some request =>
        rw [hrequest] at h
        dsimp only at h ⊢
        cases hrespond : respond request with
        | error e =>
          rw [hrespond] at h
          cases h
        | ok text =>
          rw [hrespond] at h
          obtain ⟨u, hsend, rfl⟩ := Option.map_eq_some_iff.mp h
          exact (not_owned_sendAsync (s := (s.parsed r.parser).record (.execute s.connected)) hclose
            hparsed hsend).symm

/-- A handler that finds the session owned and does not orphan it uses nothing that is gone. -/
theorem dangles_eq_false {o : Occurrence} (hclose : o.event.CloseSucceeds)
    (h : s.holdsOwner o = true) : s.dangles o = false := by
  obtain ⟨event, held, wild⟩ := o
  cases event with
  | disconnectHandler env => cases h
  | trySend env =>
    have howned : s.owned held = true := h
    simp [dangles, howned]
  | readHandler i env respond =>
    have hclose : env.closeFails = false := by
      simpa [Event.CloseSucceeds, Event.env] using hclose
    simp only [holdsOwner, Bool.and_eq_true] at h
    obtain ⟨howned, hkept⟩ := h
    simp only [dangles]
    split
    · simp [howned]
    · rename_i chunk hread
      rw [hread] at hkept
      rw [howned, Bool.not_true, Bool.false_or, Bool.and_eq_false_iff]
      rcases Bool.or_eq_true_iff.mp hkept with hsize | hkept
      · exact .inl (by simpa using hsize)
      · cases hreceive : (s.received i chunk).onReceive env respond chunk with
        | none => exact .inr rfl
        | some t =>
          have hends := orphans_eq (s := s.received i chunk) hclose howned hreceive
          have hsame : (s.received i chunk).orphans respond chunk held = false :=
            (Bool.not_eq_true' _).mp hkept
          rw [hsame] at hends
          exact .inr hends.symm
    · rfl
  | _ => rfl

end Orphans

/-- In a run whose handlers use no object that is gone, they do what their text says. -/
theorem run_of_step {ts : List (Transition State Occurrence)} (h : Transitions.Run step s ts t)
    (hclose : ∀ tr ∈ ts, tr.event.event.CloseSucceeds)
    (howner : ∀ tr ∈ ts, tr.before.holdsOwner tr.event = true) :
    Run s (ts.map fun tr => ⟨tr.before, tr.event.event, tr.after⟩) t := by
  induction h with
  | nil s => exact .nil s
  | @cons s u t o ts hstep _ ih =>
    obtain ⟨hclose, hcloses⟩ := List.forall_mem_cons.mp hclose
    obtain ⟨howner, howners⟩ := List.forall_mem_cons.mp howner
    rw [step, dangles_eq_false hclose howner, if_neg Bool.false_ne_true] at hstep
    exact .cons hstep (ih hcloses howners)

end State

end Webcrown.Server
