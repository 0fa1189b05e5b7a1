import Webcrown.Http.Phases
import Webcrown.Server.SessionTraces

/-!
# The receive buffer

One read at most is outstanding for a session, and the buffer is resized in its handler,
when it is outstanding no more. The buffer doubles whenever a read has filled it, so it is
never larger than it was at first together with the bytes that have come in.
-/

namespace Webcrown.Server

open Common Http Transitions

/-- The receiving side: one read at most is outstanding, none that has not set `receiving_`, and
it has completed with no more bytes than the buffer holds. -/
structure Session.Intake (s : Session) : Prop where
  reads : s.reads.length ≤ 1
  idle : s.connected = true → s.receiving = false → s.reads = []
  fits : ∀ chunk, some (.received chunk) ∈ s.reads → chunk.size ≤ s.receiveBufferSize

/-- The bytes that the handler of a completed read hands to `on_receive`, and those that the
buffer holds. -/
def Session.received (tr : Transition (Option Session) (Sessions × SessionEvent)) :
    Option (ℕ × ℕ) :=
  match tr.before, tr.event.2 with
  | some s, .own (.readHandler i _ _) =>
    match s.reads[i]? with
    | some (some (.received chunk)) =>
      if chunk.size = 0 then none else some (chunk.size, s.receiveBufferSize)
    | _ => none
  | _, _ => none

namespace State

variable {s t : State} {env : Env} {thread : Thread} {e : Event}

/-- The counters of the receiving side. -/
def counters (s : State) : ℕ × UInt64 := (s.receiveBufferSize, s.bytesReceived)

theorem counters_startWrite (s : State) : (s.startWrite env).counters = s.counters := by
  unfold startWrite
  split_ifs <;> rfl

theorem counters_trySend (s : State) : (s.trySend env).counters = s.counters := by
  rcases trySend_cases s env with ⟨-, h⟩ | ⟨-, h | h | h⟩ <;> rw [h]
  · rfl
  · exact counters_startWrite { s with sending := true }
  · exact counters_startWrite { s.swapBuffers with sending := true }

theorem counters_disconnectHandler (s : State) :
    (s.disconnectHandler env).counters = s.counters := by
  rcases disconnectHandler_cases s env with h | ⟨-, h⟩ <;> rw [h] <;> rfl

theorem counters_disconnect (s : State) : (s.disconnect thread env).counters = s.counters := by
  unfold disconnect
  split_ifs
  · rfl
  · cases thread with
    | io => exact counters_disconnectHandler s
    | other => rfl

theorem counters_sendAsync {buffer : ByteString} (h : s.sendAsync thread env buffer = some t) :
    t.counters = s.counters := by
  rcases sendAsync_cases h with ⟨-, rfl⟩ | ⟨-, u, ⟨pending, n, rfl⟩, ⟨rfl, -⟩ | ⟨-, rfl⟩⟩
  · exact counters_disconnect s
  · rfl
  · exact counters_trySend _

theorem counters_tryReceive (s : State) : s.tryReceive.counters = s.counters := by
  unfold tryReceive
  split_ifs <;> rfl

theorem counters_onReceive {respond : Respond} {chunk : Chunk}
    (h : s.onReceive env respond chunk = some t) : t.counters = s.counters := by
  obtain ⟨r, -, rfl | rfl | ⟨request, text, u, -, -, hsend, rfl⟩⟩ := onReceive_cases h
  · exact counters_disconnect _
  · rfl
  · have hrecord : ((s.parsed r.parser).record (.execute s.connected)).counters = s.counters := rfl
    rw [counters_disconnect, counters_sendAsync hsend, hrecord]

theorem counters_readHandler {i : ℕ} {respond : Respond}
    (h : s.readHandler i env respond = some t) :
    t.counters = s.counters ∧ (∀ chunk, s.reads[i]? = some (some (.received chunk)) →
        chunk.size = 0) ∨
      ∃ chunk, s.reads[i]? = some (some (.received chunk)) ∧ chunk.size ≠ 0 ∧
        t.counters = (if s.receiveBufferSize ≤ chunk.size then 2 * chunk.size
          else s.receiveBufferSize, s.bytesReceived + UInt64.ofNat chunk.size) := by
  unfold readHandler at h
  split at h
  · rename_i result hget
    cases result with
    | failed =>
      obtain rfl := Option.some.inj h
      exact .inl ⟨counters_disconnect _, fun chunk hchunk => by simp [hget] at hchunk⟩
    | received chunk =>
      simp only [asyncReceiveHandler] at h
      split_ifs at h with hsize
      · obtain rfl := Option.some.inj h
        refine .inl ⟨counters_tryReceive _, fun chunk' hchunk => ?_⟩
        obtain rfl : chunk = chunk' := by simpa [hget] using hchunk
        exact hsize
      · obtain ⟨u, hu, rfl⟩ := Option.map_eq_some_iff.mp h
        refine .inr ⟨chunk, hget, hsize, ?_⟩
        obtain ⟨hbuffer, hreceived⟩ := Prod.mk.inj (counters_onReceive hu)
        rw [resume_eq u chunk.size, counters_tryReceive]
        exact Prod.ext (by simp only [counters, hbuffer]) hreceived
  · cases h

theorem Intake.of_reads (h : s.Intake) (hreads : t.reads = s.reads)
    (hconnected : t.connected = true → s.connected = true)
    (hreceiving : t.connected = true → t.receiving = s.receiving)
    (hsize : t.receiveBufferSize = s.receiveBufferSize) : t.Intake :=
  ⟨hreads ▸ h.reads, fun ht hidle => by
    rw [hreads]
    exact h.idle (hconnected ht) ((hreceiving ht).symm.trans hidle), by
    rw [hreads, hsize]
    exact h.fits⟩

theorem mem_map_or {reads : List Read} {chunk : Chunk}
    (h : some (.received chunk) ∈ reads.map fun r => r.or (some .failed)) :
    some (.received chunk) ∈ reads := by
  obtain ⟨r, hr, hread⟩ := List.mem_map.mp h
  cases r with
  | none => cases hread
  | some result =>
    rw [Option.some_or] at hread
    rwa [← hread]

theorem Intake.closeSocket (h : s.Intake) : s.closeSocket.Intake where
  reads := (List.length_map _).trans_le h.reads
  idle hconnected hidle := by
    simp [State.closeSocket, h.idle hconnected hidle]
  fits chunk hchunk := h.fits chunk (mem_map_or hchunk)

theorem Intake.disconnectHandler (h : s.Intake) : (s.disconnectHandler env).Intake := by
  rcases disconnectHandler_cases s env with ht | ⟨-, ht⟩ <;> rw [ht]
  · exact Intake.closeSocket h
  · exact ⟨(List.length_map _).trans_le h.reads, fun hback => (Bool.false_ne_true hback).elim,
      fun chunk hchunk => h.fits chunk (mem_map_or hchunk)⟩

theorem Intake.disconnect (h : s.Intake) : (s.disconnect thread env).Intake := by
  unfold State.disconnect
  split_ifs
  · exact h
  · cases thread with
    | io => exact Intake.disconnectHandler h
    | other => exact ⟨h.reads, h.idle, h.fits⟩

theorem Intake.tryReceive (h : s.Intake) : s.tryReceive.Intake := by
  unfold State.tryReceive
  split_ifs with hreceiving hconnected
  · exact h
  · exact h
  · have hnil : s.reads = [] := h.idle (by simpa using hconnected) (by simpa using hreceiving)
    refine ⟨by simp [startRead, hnil], fun _ hidle => by simp [startRead] at hidle,
      fun chunk hchunk => ?_⟩
    simp only [startRead, hnil, List.nil_append, List.mem_singleton] at hchunk
    split_ifs at hchunk
    cases hchunk

theorem Intake.of_standing (h : s.Intake) (hstanding : t.standing = s.standing)
    (hcounters : t.counters = s.counters) : t.Intake :=
  Intake.of_reads h (congrArg Standing.reads hstanding)
    (fun ht => (congrArg Standing.connected hstanding).symm.trans ht)
    (fun _ => congrArg Standing.receiving hstanding) (congrArg Prod.fst hcounters)

theorem Intake.sendAsync {buffer : ByteString} (h : s.Intake)
    (ht : s.sendAsync thread env buffer = some t) : t.Intake := by
  by_cases hbuffer : buffer = []
  · rcases sendAsync_cases ht with ⟨-, rfl⟩ | ⟨hne, -⟩
    · exact Intake.disconnect h
    · exact absurd hbuffer hne
  · exact Intake.of_standing h (standing_sendAsync hbuffer ht) (counters_sendAsync ht)

theorem Intake.onReceive {respond : Respond} {chunk : Chunk} (h : s.Intake)
    (ht : s.onReceive env respond chunk = some t) : t.Intake := by
  obtain ⟨r, -, hcases⟩ := onReceive_cases ht
  have hparsed : (s.parsed r.parser).Intake := ⟨h.reads, h.idle, h.fits⟩
  rcases hcases with rfl | rfl | ⟨request, text, u, -, -, hsend, rfl⟩
  · exact Intake.disconnect hparsed
  · exact hparsed
  · have hrecord : ((s.parsed r.parser).record (.execute s.connected)).Intake :=
      ⟨h.reads, h.idle, h.fits⟩
    exact Intake.disconnect (Intake.sendAsync hrecord hsend)

theorem Intake.takeRead (h : s.Intake) {i : ℕ} {result : Read} (hget : s.reads[i]? = some result) :
    (s.takeRead i).reads = [] := by
  obtain ⟨hi, -⟩ := List.getElem?_eq_some_iff.mp hget
  refine List.eq_nil_of_length_eq_zero ?_
  rw [State.takeRead, List.length_eraseIdx_of_lt hi]
  have hone := h.reads
  omega

theorem Intake.readHandler {i : ℕ} {respond : Respond} (h : s.Intake)
    (ht : s.readHandler i env respond = some t) : t.Intake := by
  have htake : ∀ result, s.reads[i]? = some result → (s.takeRead i).Intake := by
    intro result hget
    have hnil := Intake.takeRead h hget
    exact ⟨by simp [hnil], fun _ _ => hnil, fun chunk hchunk => by simp [hnil] at hchunk⟩
  have hcounters := counters_readHandler ht
  rcases readHandler_cases ht with
    ⟨hget, rfl⟩ | ⟨chunk, hget, ⟨-, rfl⟩ | ⟨hsize, received, size, u, hreceive, rfl⟩⟩
  · exact Intake.disconnect (htake _ hget)
  · exact Intake.tryReceive (htake _ hget)
  · have hcount : Session.Intake
        (State.toSession { s.takeRead i with bytesReceived := received }) :=
      ⟨(htake _ hget).reads, (htake _ hget).idle, (htake _ hget).fits⟩
    have hu := Intake.onReceive hcount hreceive
    have hbuffer : u.receiveBufferSize = s.receiveBufferSize :=
      congrArg Prod.fst (counters_onReceive hreceive)
    have hgrow : u.receiveBufferSize ≤ size := by
      rw [counters_tryReceive] at hcounters
      rcases hcounters with ⟨-, hzero⟩ | ⟨chunk', hget', -, hresize⟩
      · exact absurd (hzero chunk hget) hsize
      · obtain rfl : chunk = chunk' := by simpa [hget] using hget'
        have hnew : size = _ := congrArg Prod.fst hresize
        rw [hnew, hbuffer]
        simp only
        split_ifs <;> omega
    exact Intake.tryReceive ⟨hu.reads, hu.idle, fun chunk hchunk =>
      (hu.fits chunk hchunk).trans hgrow⟩

theorem Intake.next (h : s.Intake) (ht : s.next e = some t) : t.Intake := by
  cases e with
  | completeRead i result =>
    have hfits : ∀ chunk, result = .received chunk → chunk.size ≤ s.receiveBufferSize := by
      rintro chunk rfl
      simp only [State.next, completeRead] at ht
      split at ht
      · split_ifs at ht with hcond
        simp only [Bool.and_eq_true, decide_eq_true_eq] at hcond
        exact hcond.2
      · cases ht
    obtain ⟨hget, rfl, -⟩ := completeRead_cases ht
    have hsome : s.reads ≠ [] := fun hnil => by simp [hnil] at hget
    refine ⟨(@List.length_set _ s.reads _ _).trans_le h.reads,
      fun hconnected hidle => absurd (h.idle hconnected hidle) hsome, fun chunk hchunk => ?_⟩
    rcases List.mem_or_eq_of_mem_set hchunk with hold | hnew
    · exact h.fits chunk hold
    · exact hfits chunk (Option.some.inj hnew).symm
  | completeWrite i result =>
    obtain ⟨-, requested, -, -, rfl⟩ := completeWrite_cases ht
    exact ⟨h.reads, h.idle, h.fits⟩
  | readHandler i env respond => exact Intake.readHandler h ht
  | writeHandler i env =>
    obtain ⟨requested, r, -, ⟨-, rfl⟩ | ⟨-, -, rfl⟩ | ⟨-, -, rfl⟩⟩ := writeHandler_cases ht
    · exact ⟨h.reads, h.idle, h.fits⟩
    · exact Intake.disconnect (s := (s.reportWrite i requested r).advance r.size)
        ⟨h.reads, h.idle, h.fits⟩
    · exact Intake.of_standing h (standing_trySend _) (counters_trySend _)
  | trySend env =>
    obtain rfl := next_trySend ht
    exact Intake.of_standing h (standing_trySend _) (counters_trySend _)
  | disconnectHandler env =>
    obtain rfl := next_disconnectHandler ht
    exact Intake.disconnectHandler (s := { s with disconnects := s.disconnects - 1 })
      ⟨h.reads, h.idle, h.fits⟩
  | disconnectSession env failed =>
    obtain rfl := Option.some.inj ht
    rw [disconnectSession_eq]
    exact Intake.disconnect h
  | sendAsync thread env buffer => exact Intake.sendAsync h ht
  | disconnect thread env =>
    obtain rfl := Option.some.inj ht
    exact Intake.disconnect h

/-- Only the handler of a read that has got bytes changes the counters. -/
theorem counters_next (ht : s.next e = some t)
    (hidle : ∀ i env respond, e = .readHandler i env respond → ∀ chunk,
      s.reads[i]? = some (some (.received chunk)) → chunk.size = 0) :
    t.counters = s.counters := by
  cases e with
  | completeRead i result =>
    obtain ⟨-, rfl, -⟩ := completeRead_cases ht
    rfl
  | completeWrite i result =>
    obtain ⟨-, requested, -, -, rfl⟩ := completeWrite_cases ht
    rfl
  | readHandler i env respond =>
    rcases counters_readHandler ht with ⟨hsame, -⟩ | ⟨chunk, hget, hsize, -⟩
    · exact hsame
    · exact absurd (hidle i env respond rfl chunk hget) hsize
  | writeHandler i env =>
    obtain ⟨requested, r, -, ⟨-, rfl⟩ | ⟨-, -, rfl⟩ | ⟨-, -, rfl⟩⟩ := writeHandler_cases ht
    · rfl
    · exact counters_disconnect _
    · exact counters_trySend _
  | trySend env =>
    obtain rfl := next_trySend ht
    exact counters_trySend _
  | disconnectHandler env =>
    obtain rfl := next_disconnectHandler ht
    exact counters_disconnectHandler _
  | disconnectSession env failed =>
    obtain rfl := Option.some.inj ht
    rw [disconnectSession_eq]
    exact counters_disconnect s
  | sendAsync thread env buffer => exact counters_sendAsync ht
  | disconnect thread env =>
    obtain rfl := Option.some.inj ht
    exact counters_disconnect s

end State

namespace Session

open State

variable {s : Session} {o : Option Session} {d : Sessions × SessionEvent}

theorem Intake.next (h : s.Intake) (hnext : Session.next (some s) d = some o) :
    ∃ t, o = some t ∧ t.Intake := by
  obtain ⟨sessions, e⟩ := d
  cases e with
  | create id m => simp [Session.next] at hnext
  | accepted failed =>
    simp only [Session.next, Option.bind_some] at hnext
    split_ifs at hnext
    obtain rfl := Option.some.inj hnext
    exact ⟨_, rfl, h.reads, h.idle, h.fits⟩
  | connect bufferSize =>
    simp only [Session.next, Option.bind_some] at hnext
    split_ifs at hnext with hnew
    obtain rfl := Option.some.inj hnext
    have hnil : s.reads = [] := (isNew_iff (s := ⟨s, sessions⟩).mp hnew).2.1
    refine ⟨_, rfl, State.Intake.tryReceive ?_⟩
    exact ⟨h.reads, fun _ _ => hnil, fun chunk hchunk => by simp [hnil] at hchunk⟩
  | own e =>
    obtain ⟨t, ht, rfl⟩ := Option.map_eq_some_iff.mp hnext
    exact ⟨t.toSession, rfl, State.Intake.next (s := ⟨s, sessions⟩) h ht⟩
  | expired env =>
    obtain rfl := Option.some.inj hnext
    refine ⟨(State.disconnectSession env ⟨s, sessions⟩).toSession, rfl, ?_⟩
    rw [disconnectSession_eq]
    exact State.Intake.disconnect (s := ⟨s, sessions⟩) h

variable {trs : List (Transition (Option Session) (Sessions × SessionEvent))}

/-- What a session gets in a run: the bytes, and how often they fill its buffer. -/
def total (trs : List (Transition (Option Session) (Sessions × SessionEvent))) : ℕ :=
  ((trs.filterMap received).map Prod.fst).sum

def fills (trs : List (Transition (Option Session) (Sessions × SessionEvent))) : ℕ :=
  (trs.filterMap received).countP fun p => p.1 = p.2

def Own (tr : Transition (Option Session) (Sessions × SessionEvent)) : Prop :=
  (∃ e, tr.event.2 = .own e) ∨ ∃ env, tr.event.2 = .expired env

theorem counters_of_not_received {t : Session} (hown : Own ⟨some s, d, some t⟩)
    (hnone : received ⟨some s, d, some t⟩ = none)
    (hnext : Session.next (some s) d = some (some t)) :
    t.receiveBufferSize = s.receiveBufferSize ∧ t.bytesReceived = s.bytesReceived := by
  obtain ⟨sessions, e⟩ := d
  rcases hown with ⟨e, rfl⟩ | ⟨env, rfl⟩
  · obtain ⟨u, hu, hut⟩ := Option.map_eq_some_iff.mp hnext
    obtain rfl := Option.some.inj hut
    refine Prod.mk.inj (counters_next (s := ⟨s, sessions⟩) hu ?_)
    rintro i env respond rfl chunk hget
    by_contra hsize
    have hget' : s.reads[i]? = some (some (.received chunk)) := hget
    simp [received, hget', hsize] at hnone
  · obtain rfl := Option.some.inj (Option.some.inj hnext)
    rw [disconnectSession_eq]
    exact Prod.mk.inj (counters_disconnect ⟨s, sessions⟩)

/-- New bytes come from the only read that is outstanding, and they double a buffer that they
fill. -/
theorem counters_of_received {t : Session} (h : s.Intake) {size buffer : ℕ}
    (hsome : received ⟨some s, d, some t⟩ = some (size, buffer))
    (hnext : Session.next (some s) d = some (some t)) :
    (∃ chunk, s.reads = [some (.received chunk)] ∧ chunk.size = size) ∧
      buffer = s.receiveBufferSize ∧ size ≤ buffer ∧
      t.receiveBufferSize = (if size = buffer then 2 * buffer else buffer) ∧
      t.bytesReceived = s.bytesReceived + UInt64.ofNat size := by
  obtain ⟨sessions, e⟩ := d
  unfold received at hsome
  split at hsome
  · rename_i s' i env respond hbefore hevent
    obtain rfl : s = s' := Option.some.inj hbefore
    obtain rfl : e = .own (.readHandler i env respond) := hevent
    split at hsome
    · rename_i chunk hget
      split_ifs at hsome with hsize
      obtain ⟨rfl, rfl⟩ := Prod.mk.inj (Option.some.inj hsome)
      have hfits : chunk.size ≤ s.receiveBufferSize := h.fits chunk (List.mem_of_getElem? hget)
      obtain ⟨u, hu, hut⟩ := Option.map_eq_some_iff.mp hnext
      obtain rfl := Option.some.inj hut
      refine ⟨⟨chunk, ?_, rfl⟩, rfl, hfits, ?_⟩
      · obtain ⟨hi, hget'⟩ := List.getElem?_eq_some_iff.mp hget
        obtain ⟨read, hread⟩ := List.length_eq_one_iff.mp
          (le_antisymm h.reads (Nat.one_le_of_lt hi))
        rw [hread] at hget ⊢
        rw [List.getElem?_singleton] at hget
        split_ifs at hget
        rw [Option.some.inj hget]
      · rcases counters_readHandler (s := ⟨s, sessions⟩) hu with
          ⟨-, hzero⟩ | ⟨chunk', hget', -, hcounters⟩
        · exact absurd (hzero chunk hget) hsize
        · obtain rfl : chunk = chunk' := by simpa [hget] using hget'
          obtain ⟨hbuffer, hreceived⟩ := Prod.mk.inj hcounters
          refine ⟨?_, hreceived⟩
          rcases hfits.lt_or_eq with hlt | hfull
          · rw [if_neg hlt.ne]
            exact hbuffer.trans (if_neg (Nat.not_le.mpr hlt))
          · rw [if_pos hfull, ← hfull]
            exact hbuffer.trans (if_pos hfull.ge)
    · cases hsome
  · cases hsome

theorem counters_run {t : Session} (h : s.Intake) (hrun : Session.Run (some s) trs (some t))
    (hown : ∀ tr ∈ trs, Own tr) :
    t.receiveBufferSize = s.receiveBufferSize * 2 ^ fills trs ∧
      t.receiveBufferSize ≤ s.receiveBufferSize + total trs ∧
      t.bytesReceived = s.bytesReceived + UInt64.ofNat (total trs) := by
  induction trs generalizing s with
  | nil =>
    cases hrun
    simp [fills, total]
  | cons tr trs ih =>
    cases hrun with
    | @cons _ p _ d _ hnext hrest =>
      obtain ⟨u, rfl, hu⟩ := h.next hnext
      obtain ⟨hsize, hle, hbytes⟩ := ih hu hrest fun tr htr => hown tr (List.mem_cons_of_mem _ htr)
      cases hreceived : received ⟨some s, d, some u⟩ with
      | none =>
        obtain ⟨hbuffer, hcount⟩ :=
          counters_of_not_received (hown _ List.mem_cons_self) hreceived hnext
        simp only [fills, total, List.filterMap_cons_none hreceived]
        rw [← hbuffer, ← hcount]
        exact ⟨hsize, hle, hbytes⟩
      | some p =>
        obtain ⟨-, hp, hfit, hbuffer, hcount⟩ := counters_of_received h hreceived hnext
        have htotal : total (⟨some s, d, some u⟩ :: trs) = p.1 + total trs := by
          simp [total, List.filterMap_cons_some hreceived]
        have hfills : fills (⟨some s, d, some u⟩ :: trs) =
            fills trs + if p.1 = p.2 then 1 else 0 := by
          simp [fills, List.filterMap_cons_some hreceived, List.countP_cons]
        rw [htotal, hfills, hsize, hbytes, hbuffer, hcount, ← hp, UInt64.ofNat_add,
          UInt64.add_assoc]
        rw [hsize, hbuffer] at hle
        refine ⟨?_, ?_, rfl⟩
        · split_ifs with hfull
          · rw [pow_succ]
            ring
          · rfl
        · split_ifs at hle ⊢ with hfull <;> omega

end Session

namespace WebServer

variable {v v₀ : WebServer} {r : SessionRef} {ts₀ ts : List (Transition WebServer Event)}
  {m : Uninitialised}

theorem intake_fresh (id : UInt64) (m : Uninitialised) : (Session.fresh id m).Intake :=
  ⟨Nat.zero_le 1, fun _ _ => rfl, fun chunk hchunk => by cases hchunk⟩

theorem intake_run (h : Run (listening.accept m) ts v) {s : Session}
    (hs : v.objects[r]? = some s) : s.Intake := by
  have hrun := run_trace (pending_listening m) h r
  have hstart : ∀ s, (listening.accept m).objects[r]? = some s → s.Intake := by
    intro s hs
    cases r with
    | zero =>
      obtain rfl := Option.some.inj hs
      exact intake_fresh 1 m
    | succ r => cases hs
  refine (hrun.invariant (I := fun o => ∀ s, o = some s → s.Intake) hstart
    fun tr _ hnext hbefore u hu => ?_).1 s hs
  obtain ⟨before, ⟨sessions, e⟩, after⟩ := tr
  cases before with
  | some s =>
    obtain ⟨u', hu', hintake⟩ := (hbefore s rfl).next hnext
    obtain rfl : u' = u := Option.some.inj (hu'.symm.trans hu)
    exact hintake
  | none =>
    cases e with
    | create id m =>
      obtain rfl := Option.some.inj hnext
      obtain rfl := Option.some.inj hu
      exact intake_fresh id m
    | accepted failed => cases hnext
    | connect bufferSize => cases hnext
    | own e => cases hnext
    | expired env => cases hnext

/-- In every run of the server, from any state in which a session is connected: its receive buffer
changes only in the handler of the one read that is outstanding for it, it doubles then, and it
does so exactly as often as a read fills it; it never holds more than it held at first and the
bytes that have come in since; and `bytes_received_` counts these. -/
theorem receive_buffer (h₀ : Run (listening.accept m) ts₀ v₀) (h : Run v₀ ts v) {s₀ s : Session}
    (hs₀ : v₀.objects[r]? = some s₀) (hconnected : s₀.connected = true)
    (hs : v.objects[r]? = some s) :
    (∀ tr ∈ trace r ts, ∀ a b, tr.before = some a → tr.after = some b →
        b.receiveBufferSize ≠ a.receiveBufferSize →
          b.receiveBufferSize = 2 * a.receiveBufferSize ∧
          ∃ chunk, a.reads = [some (.received chunk)] ∧ chunk.size = a.receiveBufferSize) ∧
      s.receiveBufferSize = s₀.receiveBufferSize * 2 ^ Session.fills (trace r ts) ∧
      s.receiveBufferSize ≤ s₀.receiveBufferSize + Session.total (trace r ts) ∧
      s.bytesReceived = s₀.bytesReceived + UInt64.ofNat (Session.total (trace r ts)) := by
  have hpending : v₀.Pending :=
    (h₀.invariant (pending_listening m) fun tr _ hnext hbefore => hbefore.next hnext).1
  have hown := trace_own h (hpending.admitted hs₀ hconnected)
  have hrun := run_trace hpending h r
  rw [hs₀, hs] at hrun
  have hintake := intake_run h₀ hs₀
  refine ⟨fun tr htr a b ha hb hne => ?_, Session.counters_run hintake hrun hown⟩
  have hkeep := (hrun.invariant (I := fun o => ∀ s, o = some s → s.Intake)
    (fun s hs => Option.some.inj hs ▸ hintake) fun tr htr hnext hbefore u hu => by
      obtain ⟨before, d, after⟩ := tr
      cases before with
      | some s =>
        obtain ⟨u', hu', hintake⟩ := (hbefore s rfl).next hnext
        obtain rfl : u' = u := Option.some.inj (hu'.symm.trans hu)
        exact hintake
      | none =>
        obtain ⟨sessions, e⟩ := d
        rcases hown _ htr with ⟨e, rfl⟩ | ⟨env, rfl⟩ <;> cases hnext).2 tr htr
  have hnext := hrun.step_of_mem htr
  obtain ⟨before, d, after⟩ := tr
  obtain rfl : before = some a := ha
  obtain rfl : after = some b := hb
  cases hreceived : Session.received ⟨some a, d, some b⟩ with
  | none =>
    exact absurd (Session.counters_of_not_received (hown _ htr) hreceived hnext).1 hne
  | some p =>
    obtain ⟨⟨chunk, hreads, hsize⟩, hp, -, hbuffer, -⟩ :=
      Session.counters_of_received (hkeep.1 a rfl) hreceived hnext
    rw [hp] at hbuffer
    split_ifs at hbuffer with hfull
    · exact ⟨hbuffer, chunk, hreads, hsize.trans hfull⟩
    · exact absurd hbuffer hne

section FirstRead

def firstReadEvents : List Event :=
  [.session 0 (.completeRead 0 (.received getChunk)),
    .session 0 (.readHandler 0 ⟨0, false⟩ fun _ => .ok [])]

theorem receive_buffer_firstRead :
    ∃ ts₀ v₀ ts v s₀ s,
      exec next (listening.accept zeroed) (firstAcceptEvents false) = some (ts₀, v₀) ∧
      exec next v₀ firstReadEvents = some (ts, v) ∧
      v₀.objects[0]? = some s₀ ∧ s₀.connected = true ∧ v.objects[0]? = some s ∧
      (∀ tr ∈ trace 0 ts, ∀ a b, tr.before = some a → tr.after = some b →
          b.receiveBufferSize ≠ a.receiveBufferSize →
            b.receiveBufferSize = 2 * a.receiveBufferSize ∧
            ∃ chunk, a.reads = [some (.received chunk)] ∧ chunk.size = a.receiveBufferSize) ∧
        s.receiveBufferSize = s₀.receiveBufferSize * 2 ^ Session.fills (trace 0 ts) ∧
        s.receiveBufferSize ≤ s₀.receiveBufferSize + Session.total (trace 0 ts) ∧
        s.bytesReceived = s₀.bytesReceived + UInt64.ofNat (Session.total (trace 0 ts)) := by
  have hend : (exec next (listening.accept zeroed) (firstAcceptEvents false)).bind (fun r =>
      (exec next r.2 firstReadEvents).map fun r' =>
        (r.2.objects[0]?.map (·.connected), r'.2.objects[0]?.isSome)) =
      some (some true, true) := by
    decide +kernel
  obtain ⟨⟨ts₀, v₀⟩, hrun₀, hend⟩ := Option.bind_eq_some_iff.mp hend
  obtain ⟨⟨ts, v⟩, hrun, hend⟩ := Option.map_eq_some_iff.mp hend
  obtain ⟨hfirst, hlast⟩ := Prod.mk.inj hend
  obtain ⟨s₀, hs₀, hconnected⟩ := Option.map_eq_some_iff.mp hfirst
  obtain ⟨s, hs⟩ := Option.isSome_iff_exists.mp hlast
  exact ⟨ts₀, v₀, ts, v, s₀, s, hrun₀, hrun, hs₀, hconnected, hs,
    receive_buffer (Transitions.Run.of_exec hrun₀).1 (Transitions.Run.of_exec hrun).1 hs₀
      hconnected hs⟩

end FirstRead

end WebServer

end Webcrown.Server
