import Webcrown.Server.SessionSteps
import Webcrown.Transitions.Fifo

/-!
# The send queue

The two buffers of a connected session are a channel: what has been reported as written
has left it, and the rest of the flush buffer and the main buffer wait in it. The
invariant says what each of the flag, the offset and the outstanding write tells about
the others; every step of the sending side keeps it and moves the channel.
-/

namespace Webcrown.Server

open Common Http Transitions

namespace State

/-- The part of the flush buffer that is not reported as written. -/
def rest (s : State) : ByteString := s.sendBufferFlush.drop s.sendBufferFlushOffset

/-- The bytes that the socket took from a write whose handler has not run. -/
def Write.moved (w : Write) : ByteString :=
  match w.result with
  | some r => w.requested.take r.size
  | none => []

def inFlight (s : State) : ByteString := s.writes.flatMap Write.moved

def channel (s : State) : Fifo UInt8 := ⟨s.reported, s.rest ++ s.sendBufferMain⟩

/-- A connected session with nothing to send. -/
structure SendIdle (s : State) : Prop where
  connected : s.connected = true
  isOpen : s.isOpen = true
  sending : s.sending = false
  main : s.sendBufferMain = []
  flush : s.sendBufferFlush = []
  offset : s.sendBufferFlushOffset = 0
  writes : s.writes = []
  trySends : s.trySends = 0
  wire : s.wire = s.reported

/-- The sending side of a connected session. A write is outstanding, for the rest of the flush
buffer, exactly while the flag is set; while it is not, the flush buffer is empty, and what is
in the main buffer has a queued `try_send`. A write may have failed if `failures` says so. The
offset behind an empty flush buffer means nothing, and is at most `spare`. -/
structure SendInv (failures : Bool) (spare : ℕ) (s : State) : Prop where
  connected : s.connected = true
  isOpen : s.isOpen = true
  offset_le : s.sendBufferFlush ≠ [] → s.sendBufferFlushOffset ≤ s.sendBufferFlush.length
  offset_idle : s.sendBufferFlush = [] → s.sendBufferFlushOffset ≤ spare
  idle : s.sending = false → s.writes = [] ∧ s.sendBufferFlush = []
  busy : s.sending = true → s.rest ≠ [] ∧ ∃ result, s.writes = [⟨s.rest, result⟩] ∧
    ∀ r, result = some r → 0 < r.size ∧ r.size ≤ s.rest.length ∧ (r.failed = true → failures = true)
  queued : s.sendBufferMain ≠ [] → s.sending = true ∨ 0 < s.trySends
  wire : s.wire = s.reported ++ s.inFlight

variable {s : State} {env : Env} {failures : Bool} {spare : ℕ}

theorem rest_of_flush_nil (h : s.sendBufferFlush = []) : s.rest = [] := by
  rw [rest, h, List.drop_nil]

theorem SendInv.offset_le_length (h : s.SendInv failures 0) :
    s.sendBufferFlushOffset ≤ s.sendBufferFlush.length := by
  by_cases hflush : s.sendBufferFlush = []
  · exact (h.offset_idle hflush).trans (Nat.zero_le _)
  · exact h.offset_le hflush

theorem SendIdle.inv (h : s.SendIdle) : s.SendInv failures spare where
  connected := h.connected
  isOpen := h.isOpen
  offset_le := fun _ => by simp [h.offset]
  offset_idle := fun _ => h.offset.le.trans (Nat.zero_le _)
  idle := fun _ => ⟨h.writes, h.flush⟩
  busy := fun hs => by simp [h.sending] at hs
  queued := fun hm => absurd h.main hm
  wire := by simp [inFlight, h.writes, h.wire]

/-- What `try_send` finds when no write is outstanding. -/
structure SendReady (s : State) : Prop where
  connected : s.connected = true
  isOpen : s.isOpen = true
  sending : s.sending = false
  writes : s.writes = []
  wire : s.wire = s.reported
  flush : s.sendBufferFlush = [] ∨ s.rest ≠ []

theorem startWrite_of_open (h : s.isOpen = true) :
    s.startWrite env =
      { s with
        wire := s.wire ++ s.rest.take (min env.taken s.rest.length)
        writes := s.writes ++ [⟨s.rest, if min env.taken s.rest.length = 0 then none
          else some ⟨false, min env.taken s.rest.length⟩⟩] } :=
  if_pos h

theorem SendReady.startWrite (h : s.SendReady) (env : Env) (hrest : s.rest ≠ [])
    (hoffset : s.sendBufferFlushOffset ≤ s.sendBufferFlush.length) :
    ({ s with sending := true }.startWrite env).SendInv failures spare ∧
      ({ s with sending := true }.startWrite env).channel = s.channel := by
  rw [startWrite_of_open (s := { s with sending := true }) h.isOpen]
  refine ⟨⟨h.connected, h.isOpen, fun _ => hoffset,
    fun hflush => absurd (rest_of_flush_nil hflush) hrest, fun hs => by simp at hs,
    fun _ => ⟨hrest, _, by rw [h.writes]; rfl, ?_⟩, fun _ => Or.inl rfl, ?_⟩, rfl⟩
  · intro r hr
    split_ifs at hr with hsize
    obtain rfl := Option.some.inj hr
    exact ⟨Nat.pos_of_ne_zero hsize, min_le_right _ _, fun hf => by cases hf⟩
  · simp only [inFlight, h.writes, List.nil_append, List.flatMap_singleton, Write.moved, h.wire]
    split_ifs with hsize
    · rw [hsize, List.take_zero]
    · rfl

/-- `try_send` on a session that is not sending starts the next write, if there is anything
to write, and loses nothing. -/
theorem SendReady.trySend (h : s.SendReady) (env : Env)
    (hoffset : s.sendBufferFlush ≠ [] → s.sendBufferFlushOffset ≤ s.sendBufferFlush.length) :
    (s.trySend env).SendInv failures spare ∧ (s.trySend env).channel = s.channel := by
  by_cases hflush : s.sendBufferFlush = []
  · have hswap : s.swapBuffers.channel = s.channel := by
      simp [channel, swapBuffers, rest, hflush]
    rw [trySend_of_swap h.sending hflush]
    split_ifs with hmain
    · refine ⟨⟨h.connected, h.isOpen, fun _ => Nat.zero_le _, fun _ => Nat.zero_le _,
        fun _ => ⟨h.writes, hmain⟩, fun hs => ?_, fun hm => absurd hflush hm, ?_⟩, hswap⟩
      · simp [swapBuffers, h.sending] at hs
      · simp [inFlight, swapBuffers, h.writes, h.wire]
    · have hready : s.swapBuffers.SendReady :=
        ⟨h.connected, h.isOpen, h.sending, h.writes, h.wire, Or.inr hmain⟩
      obtain ⟨hinv, hchannel⟩ := hready.startWrite env hmain (Nat.zero_le _)
      exact ⟨hinv, hchannel.trans hswap⟩
  · rw [trySend_of_flush h.sending hflush]
    exact h.startWrite env (h.flush.resolve_left hflush) (hoffset hflush)

theorem SendInv.ready (h : s.SendInv failures spare) (hidle : s.sending = false) {main : ByteString}
    {pending : UInt64} {n : ℕ} :
    { s with sendBufferMain := main, bytesPending := pending, trySends := n }.SendReady := by
  obtain ⟨hwrites, hflush⟩ := h.idle hidle
  have hwire : s.wire = s.reported := by simpa [inFlight, hwrites] using h.wire
  exact ⟨h.connected, h.isOpen, hidle, hwrites, hwire, Or.inl hflush⟩

theorem SendInv.grow (h : s.SendInv failures spare) {main : ByteString} {pending : UInt64} {n : ℕ}
    (hqueued : main ≠ [] → s.sending = true ∨ 0 < n) :
    { s with sendBufferMain := main, bytesPending := pending, trySends := n }.SendInv failures
      spare where
  connected := h.connected
  isOpen := h.isOpen
  offset_le := h.offset_le
  offset_idle := h.offset_idle
  idle := h.idle
  busy := h.busy
  queued := hqueued
  wire := h.wire

theorem SendInv.sendAsync (h : s.SendInv failures spare) {thread : Thread} {buffer : ByteString}
    {t : State} (hne : buffer ≠ []) (ht : s.sendAsync thread env buffer = some t) :
    t.SendInv failures spare ∧ t.channel = s.channel.apply (.push buffer) := by
  have hempty : buffer.isEmpty = false := by simpa using hne
  simp only [State.sendAsync, hempty, Bool.false_eq_true, if_false] at ht
  split_ifs at ht with hlarge hrequired
  · -- another handler is pending
    obtain rfl := Option.some.inj ht
    have hmain : s.sendBufferMain ≠ [] := by
      intro hm
      simp [hm] at hrequired
    exact ⟨h.grow fun _ => h.queued hmain, by simp [channel, rest, Fifo.apply]⟩
  · cases thread with
    | other =>
      obtain rfl := Option.some.inj ht
      exact ⟨h.grow fun _ => Or.inr (Nat.succ_pos _), by simp [channel, rest, Fifo.apply]⟩
    | io =>
      obtain rfl := Option.some.inj ht
      set s' : State := { s with
        sendBufferMain := s.sendBufferMain ++ buffer
        bytesPending := UInt64.ofNat (s.sendBufferMain ++ buffer).length } with hs'
      have hchannel : s'.channel = s.channel.apply (.push buffer) := by
        simp [hs', channel, rest, Fifo.apply]
      by_cases hsending : s.sending = true
      · rw [trySend_of_sending (s := s') hsending]
        exact ⟨h.grow fun _ => Or.inl hsending, hchannel⟩
      · have hready : s'.SendReady := h.ready (by simpa using hsending)
        obtain ⟨hinv, hsame⟩ := hready.trySend env h.offset_le
        exact ⟨hinv, hsame.trans hchannel⟩

theorem SendInv.outstanding (h : s.SendInv failures spare) {i : ℕ} {w : Write}
    (hget : s.writes[i]? = some w) :
    i = 0 ∧ s.sending = true ∧ s.rest ≠ [] ∧ w.requested = s.rest ∧ s.writes = [w] ∧
      ∀ r, w.result = some r →
        0 < r.size ∧ r.size ≤ s.rest.length ∧ (r.failed = true → failures = true) := by
  have hsending : s.sending = true := by
    by_contra hidle
    rw [(h.idle (by simpa using hidle)).1] at hget
    cases hget
  obtain ⟨hrest, result, hwrites, hresult⟩ := h.busy hsending
  rw [hwrites, List.getElem?_singleton] at hget
  split_ifs at hget with hi
  obtain rfl := Option.some.inj hget
  exact ⟨hi, hsending, hrest, rfl, hwrites, hresult⟩

theorem SendInv.completeWrite (h : s.SendInv failures spare) {i : ℕ} {result : WriteResult}
    {t : State} (hsize : 0 < result.size) (hfailed : result.failed = true → failures = true)
    (ht : s.completeWrite i result = some t) :
    t.SendInv failures spare ∧ t.channel = s.channel := by
  obtain ⟨-, requested, hget, hle, rfl⟩ := completeWrite_cases ht
  obtain ⟨rfl, hsending, hrest, rfl, hwrites, -⟩ := h.outstanding hget
  refine ⟨⟨h.connected, h.isOpen, h.offset_le, h.offset_idle, fun hs => ?_,
    fun _ => ⟨hrest, some result, ?_, ?_⟩, h.queued, ?_⟩, rfl⟩
  · simp [hsending] at hs
  · simp only [hwrites, List.set_cons_zero]
    rfl
  · intro r hr
    obtain rfl := Option.some.inj hr
    exact ⟨hsize, hle, hfailed⟩
  · have hwire := h.wire
    simp only [inFlight, hwrites, List.flatMap_singleton, Write.moved, List.append_nil] at hwire
    simp [inFlight, hwrites, Write.moved, hwire]

theorem rest_advance (s : State) (size : ℕ) :
    (s.advance size).rest = s.rest.drop size := by
  unfold rest
  simp only [advance]
  split_ifs with hdone
  · rw [List.drop_drop, hdone]
    simp
  · rw [List.drop_drop]

theorem SendInv.writeHandler (h : s.SendInv failures spare) {i : ℕ} {t : State}
    (ht : s.writeHandler i env = some t) :
    ∃ r, s.writes[i]? = some ⟨s.rest, some r⟩ ∧ (r.failed = true → failures = true) ∧
      (r.failed = false → t.SendInv failures spare ∧ t.channel = s.channel.apply (.pop r.size)) ∧
      (r.failed = true → env.closeFails = false →
        t.connected = false ∧ t.sendBufferMain = [] ∧ t.sendBufferFlush = []) := by
  obtain ⟨requested, r, hget, hcases⟩ := writeHandler_cases ht
  obtain ⟨rfl, -, hrest, hrequested, hwrites, hresult⟩ := h.outstanding hget
  obtain rfl : requested = s.rest := hrequested
  obtain ⟨hpos, hle, hfailed⟩ := hresult r rfl
  refine ⟨r, hget, hfailed, fun hok => ?_, fun hfail hclose => ?_⟩
  · rcases hcases with ⟨hzero, -⟩ | ⟨-, hfail, -⟩ | ⟨-, -, rfl⟩
    · exact absurd hzero hpos.ne'
    · simp [hok] at hfail
    set s' := s.reportWrite 0 s.rest r with hs'
    have hrest' : (s'.advance r.size).rest = s.rest.drop r.size := rest_advance s' _
    have hchannel : (s'.advance r.size).channel = s.channel.apply (.pop r.size) := by
      simp only [channel, Fifo.apply, hrest', List.take_append_of_le_length hle,
        List.drop_append_of_le_length hle]
      rfl
    have hwire : s.wire = s.reported ++ s.rest.take r.size := by
      simpa [inFlight, hwrites, Write.moved] using h.wire
    have hlength : s.rest.length = s.sendBufferFlush.length - s.sendBufferFlushOffset :=
      List.length_drop
    have hle_flush := h.offset_le fun hflush => hrest (rest_of_flush_nil hflush)
    have hready : (s'.advance r.size).SendReady := by
      refine ⟨h.connected, h.isOpen, rfl, by simp [hs', reportWrite, advance, hwrites], hwire, ?_⟩
      rw [hrest']
      by_cases hdone : s.sendBufferFlushOffset + r.size = s.sendBufferFlush.length
      · exact Or.inl (if_pos hdone)
      · refine Or.inr fun hnil => hdone ?_
        have := congrArg List.length hnil
        rw [List.length_drop, List.length_nil] at this
        omega
    have hoffset : (s'.advance r.size).sendBufferFlush ≠ [] →
        (s'.advance r.size).sendBufferFlushOffset ≤ (s'.advance r.size).sendBufferFlush.length := by
      intro _
      simp only [hs', reportWrite, advance]
      split_ifs
      · exact le_rfl
      · omega
    obtain ⟨hinv, hsame⟩ := hready.trySend env hoffset
    exact ⟨hinv, hsame.trans hchannel⟩
  · rcases hcases with ⟨hzero, -⟩ | ⟨-, -, rfl⟩ | ⟨-, hok, -⟩
    · exact absurd hzero hpos.ne'
    · rw [disconnect_io_of_connected (by exact h.connected),
        disconnectHandler_of_connected (by exact h.connected) fun _ => hclose]
      exact ⟨rfl, rfl, rfl⟩
    · simp [hok] at hfail

/-- What an event does to the channel. -/
def channelOps (s : State) : Event → List (FifoOp UInt8)
  | .sendAsync _ _ buffer => [.push buffer]
  | .writeHandler i _ =>
    match s.writes[i]? with
    | some ⟨_, some r⟩ => [.pop r.size]
    | _ => []
  | _ => []

/-- One step of the sending side. A failed write that took some bytes disconnects the session. -/
theorem SendInv.step (h : s.SendInv failures spare) {e : Event} {t : State} (he : e.Sends)
    (hsize : ∀ i r, e = .completeWrite i r →
      0 < r.size ∧ (r.failed = true → failures = true)) (ht : s.next e = some t) :
    (t.SendInv failures spare ∧ t.channel = (s.channelOps e).foldl Fifo.apply s.channel) ∨
      ∃ i env r, e = .writeHandler i env ∧ s.writes[i]? = some ⟨s.rest, some r⟩ ∧
        r.failed = true ∧ failures = true ∧ (env.closeFails = false →
          t.connected = false ∧ t.sendBufferMain = [] ∧ t.sendBufferFlush = []) := by
  cases e with
  | sendAsync thread env buffer => exact Or.inl (h.sendAsync he ht)
  | trySend env =>
    obtain rfl := next_trySend ht
    apply Or.inl
    by_cases hsending : s.sending = true
    · rw [trySend_of_sending (s := { s with trySends := s.trySends - 1 }) hsending]
      exact ⟨h.grow fun _ => Or.inl hsending, rfl⟩
    · have hready : SendReady { s with trySends := s.trySends - 1 } :=
        h.ready (by simpa using hsending)
      obtain ⟨hinv, hchannel⟩ := hready.trySend env h.offset_le
      exact ⟨hinv, hchannel⟩
  | completeWrite i r =>
    obtain ⟨hpos, hfailed⟩ := hsize i r rfl
    exact Or.inl (h.completeWrite hpos hfailed ht)
  | writeHandler i env =>
    obtain ⟨r, hget, hfailed, hok, hfail⟩ := h.writeHandler ht
    cases hr : r.failed with
    | false =>
      obtain ⟨hinv, hchannel⟩ := hok hr
      exact Or.inl ⟨hinv, by simpa [channelOps, hget] using hchannel⟩
    | true => exact Or.inr ⟨i, env, r, rfl, hget, hr, hfailed hr, hfail hr⟩
  | _ => cases he

/-- The buffers that the `send_async` calls of a run have accepted, in order. -/
def accepted (ts : List (Transition State Event)) : ByteString :=
  ts.flatMap fun tr =>
    match tr.event with
    | .sendAsync _ _ buffer => buffer
    | _ => []

theorem pushed_channelOps (ts : List (Transition State Event)) :
    Fifo.pushed (ts.flatMap fun tr => tr.before.channelOps tr.event) = accepted ts := by
  induction ts with
  | nil => rfl
  | cons tr ts ih =>
    have hops : Fifo.pushed (tr.before.channelOps tr.event) = accepted [tr] := by
      cases hev : tr.event with
      | writeHandler i env =>
        simp only [channelOps, accepted, hev, List.flatMap_singleton]
        split <;> rfl
      | _ => simp [channelOps, accepted, hev, Fifo.pushed]
    rw [List.flatMap_cons, Fifo.pushed, List.flatMap_append, ← Fifo.pushed, ← Fifo.pushed, hops, ih]
    simp [accepted]

/-- In every run of calls that send, queued `try_send`s and successful writes on a connected
session with nothing to send, what is reported as written, the rest of the flush buffer and
the main buffer are the accepted buffers in order; the flag tells whether a write is
outstanding, and there is one at most, for the rest of the flush buffer. -/
theorem send_queue_fifo {s t : State} {ts : List (Transition State Event)} (hs : s.SendIdle)
    (hrun : Run s ts t) (hsends : ∀ tr ∈ ts, tr.event.Sends)
    (hwrites : ∀ tr ∈ ts, ∀ i r, tr.event = .completeWrite i r → r.failed = false) :
    t.reported ++ t.rest ++ t.sendBufferMain = s.reported ++ accepted ts ∧
      t.wire = t.reported ++ t.inFlight ∧
      t.sendBufferFlushOffset ≤ t.sendBufferFlush.length ∧
      (t.sending = true ↔ t.writes ≠ []) ∧
      t.writes.length ≤ 1 ∧ ∀ w ∈ t.writes, w.requested = t.rest := by
  have hsize : ∀ tr ∈ ts, tr.before.next tr.event = some tr.after →
      ∀ i r, tr.event = .completeWrite i r → 0 < r.size ∧ (r.failed = true → false = true) := by
    intro tr htr hnext i r he
    have hok := hwrites tr htr i r he
    rw [he, next, completeWrite] at hnext
    split at hnext
    · split_ifs at hnext with hcond
      simp only [hok, Bool.false_or, Bool.and_eq_true, bne_iff_ne] at hcond
      exact ⟨Nat.pos_of_ne_zero hcond.2, fun hf => by simp [hok] at hf⟩
    · cases hnext
  have hstep : ∀ tr ∈ ts, tr.before.next tr.event = some tr.after →
      tr.before.SendInv false 0 → tr.after.SendInv false 0 ∧
        tr.after.channel = (tr.before.channelOps tr.event).foldl Fifo.apply tr.before.channel := by
    intro tr htr hnext hinv
    rcases hinv.step (hsends tr htr) (hsize tr htr hnext) hnext with h | ⟨-, -, -, -, -, -, h, -⟩
    · exact h
    · cases h
  obtain ⟨ht, hall⟩ := hrun.invariant hs.inv fun tr htr hnext hinv => (hstep tr htr hnext hinv).1
  have hchannel := hrun.simulation (f := channel) (g := Fifo.apply)
    (o := fun tr => tr.before.channelOps tr.event)
    fun tr htr => (hstep tr htr (hrun.step_of_mem htr) (hall tr htr).1).2
  have hcontent := Fifo.content_foldl s.channel (ts.flatMap fun tr => tr.before.channelOps tr.event)
  rw [← hchannel, pushed_channelOps] at hcontent
  simp only [Fifo.content, channel, rest, hs.flush, hs.main, List.drop_nil, List.append_nil]
    at hcontent
  refine ⟨by rw [List.append_assoc]; exact hcontent, ht.wire, ht.offset_le_length, ?_⟩
  cases hsending : t.sending with
  | true =>
    obtain ⟨-, r, hw, -⟩ := ht.busy hsending
    simp [hw]
  | false =>
    obtain ⟨hw, -⟩ := ht.idle hsending
    simp [hw]

section TwoBytes

def idleSession : State where
  toSession := { Session.fresh 1 zeroed with connected := true, isOpen := true }
  sessions := ∅

def twoBytesRun : Option (List (Transition State Event) × State) :=
  exec next idleSession [.sendAsync .other ⟨0, false⟩ (ascii "ab"), .trySend ⟨1, false⟩]

theorem send_queue_fifo_twoBytesRun :
    ∃ ts t, twoBytesRun = some (ts, t) ∧
      t.reported ++ t.rest ++ t.sendBufferMain = idleSession.reported ++ accepted ts ∧
      t.wire = t.reported ++ t.inFlight ∧
      t.sendBufferFlushOffset ≤ t.sendBufferFlush.length ∧
      (t.sending = true ↔ t.writes ≠ []) ∧
      t.writes.length ≤ 1 ∧ ∀ w ∈ t.writes, w.requested = t.rest := by
  obtain ⟨⟨ts, t⟩, hrun⟩ : ∃ r, twoBytesRun = some r := ⟨_, rfl⟩
  have hevent : ∀ tr ∈ ts, tr.event.Sends ∧
      ∀ i r, tr.event = .completeWrite i r → r.failed = false :=
    Transitions.Run.forall_of_exec
      (P := fun e => e.Sends ∧ ∀ i r, e = .completeWrite i r → r.failed = false) hrun (by
        have hbytes : ascii "ab" ≠ [] := by decide
        simp [Event.Sends, hbytes])
  exact ⟨ts, t, hrun, send_queue_fifo ⟨rfl, rfl, rfl, rfl, rfl, rfl, rfl, rfl, rfl⟩
    (Transitions.Run.of_exec hrun).1 (fun tr htr => (hevent tr htr).1)
    fun tr htr => (hevent tr htr).2⟩

end TwoBytes

end State

end Webcrown.Server
