import Webcrown.Http.Phases
import Webcrown.Server.Lifecycle

/-!
# Reads that are queued when a session is disconnected

The read handler does not look at `connected_` before it calls `on_receive`. Input is
parsed, and middlewares run, for a disconnected session only where a read has completed
with data and its handler still waits when another handler disconnects the session.
-/

namespace Webcrown.Server

open Bytes Common Http Transitions

/-- The read has completed with data, and its handler waits. -/
def Read.CarriesData (r : Read) : Prop := ∃ chunk, r = some (.received chunk) ∧ chunk.size ≠ 0

/-- The invariant, whether closing the socket succeeds or not. -/
structure Standing.Guarded (v : Standing) : Prop where
  reading : v.connected = true → v.reads.length ≤ v.receiving.toNat
  closed : v.connected = false → v.isOpen = false ∧ ∀ r ∈ v.reads, ¬ Read.CarriesData r
  log : ∀ a ∈ v.log, a ≠ .parse false ∧ a ≠ .execute false

namespace State

variable {s t : State} {env : Env} {thread : Thread} {e : Event}

/-- The environment of `disconnect_handler`, if an event other than the read handler runs it. -/
def disconnectEnv (s : State) : Event → Option Env
  | .writeHandler i env =>
    match s.writes[i]? with
    | some ⟨_, some r⟩ => if r.failed && r.size != 0 then some env else none
    | _ => none
  | .disconnectHandler env | .disconnectSession env _ | .disconnect .io env => some env
  | .sendAsync .io env buffer => if buffer.isEmpty then some env else none
  | _ => none

/-- An event other than the read handler disconnects the session. -/
def Disconnects (s : State) (e : Event) : Prop :=
  s.connected = true ∧
    ∃ env, s.disconnectEnv e = some env ∧ (s.isOpen = true → env.closeFails = false)

theorem not_carriesData_or_failed {r : Read} (h : ¬ r.CarriesData) :
    ¬ Read.CarriesData (r.or (some .failed)) := by
  rintro ⟨chunk, hr, hsize⟩
  cases r with
  | none => cases hr
  | some result => exact h ⟨chunk, hr, hsize⟩

theorem guarded_closeSocket (h : s.standing.Guarded) : s.closeSocket.standing.Guarded where
  reading := fun hconnected => (List.length_map _).trans_le (h.reading hconnected)
  closed := fun hconnected => by
    refine ⟨rfl, fun r hr => ?_⟩
    obtain ⟨r', hr', rfl⟩ := List.mem_map.mp hr
    exact not_carriesData_or_failed ((h.closed hconnected).2 r' hr')
  log := h.log

theorem guarded_disconnected (h : s.standing.Guarded)
    (hdata : ∀ r ∈ s.reads, ¬ Read.CarriesData r) : s.disconnected.standing.Guarded where
  reading := fun hconnected => (Bool.false_ne_true hconnected).elim
  closed := fun _ => by
    refine ⟨rfl, fun r hr => ?_⟩
    obtain ⟨r', hr', rfl⟩ := List.mem_map.mp hr
    exact not_carriesData_or_failed (hdata r' hr')
  log := by
    intro a ha
    rcases List.mem_append.mp ha with ha | ha
    · exact h.log a ha
    · obtain rfl := List.mem_singleton.mp ha
      simp

theorem guarded_disconnectHandler (h : s.standing.Guarded)
    (hdata : s.connected = true → (s.isOpen = true → env.closeFails = false) →
      ∀ r ∈ s.reads, ¬ Read.CarriesData r) : (s.disconnectHandler env).standing.Guarded := by
  by_cases hconnected : s.connected = true
  · by_cases hclose : s.isOpen = true ∧ env.closeFails = true
    · rw [disconnectHandler_of_close_fails hconnected hclose.1 hclose.2]
      exact guarded_closeSocket h
    · have hclose : s.isOpen = true → env.closeFails = false := fun hopen => by
        simpa [hopen] using hclose
      rw [disconnectHandler_of_connected hconnected hclose]
      exact guarded_disconnected h (hdata hconnected hclose)
  · rw [Bool.not_eq_true] at hconnected
    rw [disconnectHandler_of_not_connected hconnected]
    exact guarded_closeSocket h

theorem guarded_disconnect_io (h : s.standing.Guarded)
    (hdata : s.connected = true → (s.isOpen = true → env.closeFails = false) →
      ∀ r ∈ s.reads, ¬ Read.CarriesData r) : (s.disconnect .io env).standing.Guarded := by
  by_cases hconnected : s.connected = true
  · rw [disconnect_io_of_connected hconnected]
    exact guarded_disconnectHandler h hdata
  · rw [Bool.not_eq_true] at hconnected
    rw [disconnect_of_not_connected hconnected]
    exact h

theorem guarded_disconnect (h : s.standing.Guarded)
    (hdata : thread = .io → s.connected = true → (s.isOpen = true → env.closeFails = false) →
      ∀ r ∈ s.reads, ¬ Read.CarriesData r) : (s.disconnect thread env).standing.Guarded := by
  cases thread with
  | io => exact guarded_disconnect_io h (hdata rfl)
  | other =>
    unfold disconnect
    split_ifs <;> exact h

theorem guarded_tryReceive (h : s.standing.Guarded) : s.tryReceive.standing.Guarded := by
  unfold tryReceive
  split_ifs with hreceiving hconnected
  · exact h
  · exact h
  · have hconnected : s.connected = true := by simpa using hconnected
    have hnil : s.reads = [] := by
      have hlength : s.reads.length ≤ s.receiving.toNat := h.reading hconnected
      simpa [hreceiving] using hlength
    refine ⟨fun _ => ?_, fun hclosed => ?_, h.log⟩
    · simp [standing, startRead, hnil]
    · simp [standing, startRead, hconnected] at hclosed

/-- No read is outstanding, as in the read handler of a connected session. -/
structure Reading (s : State) : Prop where
  guarded : s.standing.Guarded
  reads : s.reads = []

theorem Reading.disconnect (h : s.Reading) : (s.disconnect .io env).Reading where
  guarded := guarded_disconnect_io h.guarded fun _ _ r hr => by simp [h.reads] at hr
  reads := by
    by_cases hconnected : s.connected = true
    · rw [disconnect_io_of_connected hconnected]
      rcases disconnectHandler_cases s env with hend | ⟨-, hend⟩ <;> rw [hend]
      · simp [closeSocket, h.reads]
      · simp [disconnected, h.reads]
    · rw [Bool.not_eq_true] at hconnected
      rw [disconnect_of_not_connected hconnected]
      exact h.reads

theorem Reading.record (h : s.Reading) {a : Action} (ha : a ≠ .parse false ∧ a ≠ .execute false) :
    (s.record a).Reading := by
  refine ⟨⟨h.guarded.reading, h.guarded.closed, fun b hb => ?_⟩, h.reads⟩
  rcases List.mem_append.mp hb with hb | hb
  · exact h.guarded.log b hb
  · rwa [List.mem_singleton.mp hb]

theorem Reading.of_standing (h : s.Reading) (ht : t.standing = s.standing) : t.Reading where
  guarded := ht ▸ h.guarded
  reads := (congrArg Standing.reads ht).trans h.reads

theorem Reading.onReceive {respond : Respond} {chunk : Chunk} (h : s.Reading)
    (hconnected : s.connected = true) (ht : s.onReceive env respond chunk = some t) :
    t.Reading := by
  obtain ⟨r, -, hcases⟩ := onReceive_cases ht
  have hparsed : (s.parsed r.parser).Reading :=
    (h.record (a := .parse s.connected) (by simp [hconnected])).of_standing rfl
  rcases hcases with rfl | rfl | ⟨request, text, u, -, -, hsend, rfl⟩
  · exact hparsed.disconnect
  · exact hparsed
  · have hrecord : ((s.parsed r.parser).record (.execute s.connected)).Reading :=
      hparsed.record (by simp [hconnected])
    apply Reading.disconnect
    by_cases htext : text = []
    · rcases sendAsync_cases hsend with ⟨-, rfl⟩ | ⟨hne, -⟩
      · exact hrecord.disconnect
      · exact absurd htext hne
    · exact hrecord.of_standing (standing_sendAsync htext hsend)

theorem reads_takeRead (h : s.standing.Guarded) (hconnected : s.connected = true) {i : ℕ} {r : Read}
    (hget : s.reads[i]? = some r) : (s.takeRead i).reads = [] := by
  obtain ⟨hi, -⟩ := List.getElem?_eq_some_iff.mp hget
  have hlength : s.reads.length ≤ s.receiving.toNat := h.reading hconnected
  have hone : s.receiving.toNat ≤ 1 := Bool.toNat_le _
  refine List.eq_nil_of_length_eq_zero ((List.length_eraseIdx_of_lt hi).trans ?_)
  omega

theorem guarded_takeRead (h : s.standing.Guarded) {i : ℕ} {r : Read}
    (hget : s.reads[i]? = some r) : (s.takeRead i).standing.Guarded where
  reading := fun hconnected => (congrArg List.length (reads_takeRead h hconnected hget)).le
  closed := fun hconnected =>
    ⟨(h.closed hconnected).1, fun r hr => (h.closed hconnected).2 r (List.mem_of_mem_eraseIdx hr)⟩
  log := h.log

theorem guarded_readHandler {i : ℕ} {respond : Respond} (h : s.standing.Guarded)
    (ht : s.readHandler i env respond = some t) : t.standing.Guarded := by
  by_cases hconnected : s.connected = true
  · have htake : ∀ r, s.reads[i]? = some r → (s.takeRead i).Reading :=
      fun r hget => ⟨guarded_takeRead h hget, reads_takeRead h hconnected hget⟩
    rcases readHandler_cases ht with
      ⟨hget, rfl⟩ | ⟨chunk, hget, ⟨-, rfl⟩ | ⟨-, received, size, u, hreceive, rfl⟩⟩
    · exact (htake _ hget).disconnect.guarded
    · exact guarded_tryReceive (htake _ hget).guarded
    · have hcount : State.Reading { s.takeRead i with bytesReceived := received } :=
        (htake _ hget).of_standing rfl
      have hu : u.Reading := hcount.onReceive hconnected hreceive
      exact guarded_tryReceive (s := { u with receiveBufferSize := size }) hu.guarded
  · rw [Bool.not_eq_true] at hconnected
    rcases readHandler_cases ht with ⟨hget, rfl⟩ | ⟨chunk, hget, ⟨-, rfl⟩ | ⟨hsize, -⟩⟩
    · rw [disconnect_of_not_connected (s := s.takeRead i) hconnected]
      exact guarded_takeRead h hget
    · exact guarded_tryReceive (guarded_takeRead h hget)
    · exact absurd ⟨chunk, rfl, hsize⟩ ((h.closed hconnected).2 _ (List.mem_of_getElem? hget))

theorem guarded_writeHandler {i : ℕ} (h : s.standing.Guarded)
    (hdata : s.Disconnects (.writeHandler i env) → ∀ r ∈ s.reads, ¬ Read.CarriesData r)
    (ht : s.writeHandler i env = some t) : t.standing.Guarded := by
  obtain ⟨requested, r, hget, ⟨-, rfl⟩ | ⟨hsize, hfailed, rfl⟩ | ⟨-, -, rfl⟩⟩ :=
    writeHandler_cases ht
  · exact h
  · refine guarded_disconnect_io (s := (s.reportWrite i requested r).advance r.size) h
      fun hconnected hclose => hdata ⟨hconnected, env, ?_, hclose⟩
    simp [disconnectEnv, hget, hfailed, hsize]
  · rw [standing_trySend]
    exact h

/-- Every step keeps the invariant, unless it disconnects the session while a read that carries
data is queued. -/
theorem guarded_next (h : s.standing.Guarded)
    (hdata : s.Disconnects e → ∀ r ∈ s.reads, ¬ Read.CarriesData r) (ht : s.next e = some t) :
    t.standing.Guarded := by
  cases e with
  | completeRead i result =>
    obtain ⟨-, rfl, hresult⟩ := completeRead_cases ht
    refine ⟨fun hconnected => List.length_set.trans_le (h.reading hconnected),
      fun hconnected => ⟨(h.closed hconnected).1, fun r hr => ?_⟩, h.log⟩
    rcases List.mem_or_eq_of_mem_set hr with hr | rfl
    · exact (h.closed hconnected).2 r hr
    · rcases hresult with rfl | hopen
      · rintro ⟨chunk, hchunk, -⟩
        cases hchunk
      · have hclosed : s.isOpen = false := (h.closed hconnected).1
        rw [hopen] at hclosed
        cases hclosed
  | completeWrite i result =>
    obtain ⟨-, requested, -, -, rfl⟩ := completeWrite_cases ht
    exact h
  | readHandler i env respond => exact guarded_readHandler h ht
  | writeHandler i env => exact guarded_writeHandler h hdata ht
  | trySend env =>
    obtain rfl := next_trySend ht
    rw [standing_trySend]
    exact h
  | disconnectHandler env =>
    obtain rfl := next_disconnectHandler ht
    exact guarded_disconnectHandler (s := { s with disconnects := s.disconnects - 1 }) h
      fun hconnected hclose => hdata ⟨hconnected, env, rfl, hclose⟩
  | disconnectSession env failed =>
    obtain rfl := Option.some.inj ht
    rw [disconnectSession_eq]
    exact guarded_disconnect_io h fun hconnected hclose => hdata ⟨hconnected, env, rfl, hclose⟩
  | sendAsync thread env buffer =>
    rcases sendAsync_cases ht with ⟨rfl, rfl⟩ | ⟨hbuffer, -⟩
    · exact guarded_disconnect h fun hio hconnected hclose =>
        hdata ⟨hconnected, env, by rw [hio]; rfl, hclose⟩
    · rw [standing_sendAsync hbuffer ht]
      exact h
  | disconnect thread env =>
    obtain rfl := Option.some.inj ht
    exact guarded_disconnect h fun hio hconnected hclose =>
      hdata ⟨hconnected, env, by rw [hio]; rfl, hclose⟩

/-- In every run after `connect` in which no read that carries data is queued when another
handler disconnects the session, input is parsed and middlewares run only while it is
connected. -/
theorem no_work_after_disconnect {id : UInt64} {m : Uninitialised} {sessions : Sessions}
    {bufferSize : ℕ} {t : State} {ts : List (Transition State Event)}
    (hrun : Run ((incoming id m sessions).connect bufferSize) ts t)
    (hdata : ∀ tr ∈ ts, tr.before.Disconnects tr.event →
      ∀ r ∈ tr.before.reads, ¬ Read.CarriesData r) :
    ∀ a ∈ t.log, a ≠ .parse false ∧ a ≠ .execute false := by
  have hstart : ((incoming id m sessions).connect bufferSize).standing.Guarded :=
    guarded_tryReceive ⟨fun _ => Nat.zero_le _, fun hconnected => by simp [standing] at hconnected,
      fun a ha => by simp [standing, incoming, Session.fresh] at ha⟩
  exact (hrun.invariant (I := fun s : State => s.standing.Guarded) hstart
    fun tr htr hnext hinv => guarded_next hinv (hdata tr htr) hnext).1.log

theorem no_work_after_disconnect_waiting :
    ∃ ts t, exec next (onlySession zeroed) waitingEvents = some (ts, t) ∧
      t.log = [.parse true, .unregister true] ∧
      (∃ tr ∈ ts, tr.before.Disconnects tr.event) ∧
      ∀ a ∈ t.log, a ≠ .parse false ∧ a ≠ .execute false := by
  have hend : (exec next (onlySession zeroed) waitingEvents).map (fun r =>
      (r.2.log, r.1.any fun tr =>
        tr.before.connected && decide (tr.before.disconnectEnv tr.event = some ⟨0, false⟩),
        r.1.all fun tr =>
          (tr.before.disconnectEnv tr.event).isNone || tr.before.reads.all Option.isNone)) =
      some ([.parse true, .unregister true], true, true) := by
    decide +kernel
  obtain ⟨⟨ts, t⟩, hrun, hend⟩ := Option.map_eq_some_iff.mp hend
  obtain ⟨hlog, hany, hall⟩ : _ ∧ _ ∧ _ := by simpa only [Prod.mk.injEq] using hend
  obtain ⟨tr, htr, hends⟩ := List.any_eq_true.mp hany
  simp only [Bool.and_eq_true, decide_eq_true_eq] at hends
  refine ⟨ts, t, hrun, hlog, ⟨tr, htr, hends.1, _, hends.2, fun _ => rfl⟩,
    no_work_after_disconnect (Transitions.Run.of_exec hrun).1 fun tr htr hdisconnects r hr => ?_⟩
  obtain ⟨-, env, henv, -⟩ := hdisconnects
  have hnone := List.all_eq_true.mp hall tr htr
  simp only [henv, Option.isNone_some, Bool.false_or, List.all_eq_true, Option.isNone_iff_eq_none]
    at hnone
  rintro ⟨chunk, hchunk, -⟩
  rw [hnone r hr] at hchunk
  cases hchunk

section QueuedRequest

def queuedRequestEvents : List Event :=
  [.completeRead 0 (.received getChunk), .disconnectSession ⟨0, false⟩ true,
    .readHandler 0 ⟨0, false⟩ fun _ => .ok []]

theorem queued_request_executed :
    ∃ ts t, Run (onlySession zeroed) ts t ∧
      t.log = [.unregister true, .parse false, .execute false] := by
  have hlog : (exec next (onlySession zeroed)
      queuedRequestEvents).map (fun r => r.2.log) =
        some [.unregister true, .parse false, .execute false] := by
    decide +kernel
  obtain ⟨⟨ts, t⟩, hrun, hlog⟩ := Option.map_eq_some_iff.mp hlog
  exact ⟨ts, t, (Transitions.Run.of_exec hrun).1, hlog⟩

end QueuedRequest

end State

end Webcrown.Server
