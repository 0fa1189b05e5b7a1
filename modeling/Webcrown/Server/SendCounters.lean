import Webcrown.Server.SendQueue

/-!
# The counters of the send buffers

While a session is connected, one write is outstanding at most, and the counters give the
sizes of the buffers. A disconnect clears buffers and counters, but neither the offset nor
the outstanding write, whose handler subtracts its bytes all the same.
-/

namespace Webcrown.Server

open Common Http Transitions

namespace State

variable {s t u : State} {env : Env} {thread : Thread}

/-- The counters and the offset, as the buffers have them. -/
structure Counted (s : State) : Prop where
  pending : s.bytesPending.toNat = s.sendBufferMain.length
  offset_le : s.sendBufferFlushOffset ≤ s.sendBufferFlush.length
  sending : s.bytesSending.toNat = s.rest.length

/-- The counters, with what is outstanding on a connected session. -/
structure CountInv (s : State) : Prop extends Counted s where
  idle : s.connected = true → s.sending = false → s.writes = []
  busy : s.connected = true → s.sending = true → ∃ result, s.writes = [⟨s.rest, result⟩] ∧
    ∀ r, result = some r → r.size ≤ s.rest.length

theorem length_rest (s : State) :
    s.rest.length = s.sendBufferFlush.length - s.sendBufferFlushOffset := List.length_drop

theorem CountInv.receiving (h : s.CountInv) {receiving : Bool} {size trySends disconnects : ℕ}
    {parser : Parser} {received : UInt64} {reads : List Read} {log : List Action} :
    { s with
      receiving := receiving
      receiveBufferSize := size
      parser := parser
      bytesReceived := received
      reads := reads
      trySends := trySends
      disconnects := disconnects
      log := log }.CountInv where
  toCounted := ⟨h.pending, h.offset_le, h.sending⟩
  idle := h.idle
  busy := h.busy

theorem CountInv.tryReceive (h : s.CountInv) : s.tryReceive.CountInv := by
  unfold State.tryReceive
  split_ifs
  · exact h
  · exact h
  · exact h.receiving

theorem CountInv.closeSocket (h : s.CountInv) : s.closeSocket.CountInv where
  toCounted := ⟨h.pending, h.offset_le, h.sending⟩
  idle hconnected hsending := by simp [State.closeSocket, h.idle hconnected hsending]
  busy hconnected hsending := by
    obtain ⟨result, hwrites, hresult⟩ := h.busy hconnected hsending
    refine ⟨result.or (some ⟨true, 0⟩), by simp [State.closeSocket, hwrites, rest], ?_⟩
    intro r hr
    cases result with
    | none =>
      obtain rfl := Option.some.inj hr
      exact Nat.zero_le _
    | some r' => exact hresult r hr

/-- Clearing the buffers agrees with the offset only if it is zero. -/
theorem CountInv.disconnected (hoffset : s.sendBufferFlushOffset = 0) :
    s.disconnected.CountInv where
  pending := rfl
  offset_le := hoffset.le
  sending := by simp [rest, State.disconnected]
  idle hconnected := nomatch hconnected
  busy hconnected := nomatch hconnected

/-- From `s` to `t` the session is not disconnected with a flush buffer that is partly written. -/
def Clean (s t : State) : Prop :=
  s.connected = true → t.connected = false → s.sendBufferFlushOffset = 0

theorem Clean.left (h : Clean s t) (hut : u.Later t) : Clean s u := by
  intro hconnected hend
  apply h hconnected
  by_contra hlater
  rw [hut.connected (by simpa using hlater)] at hend
  cases hend

theorem Clean.right (h : Clean s t) (hsu : s.Later u)
    (hoffset : s.sendBufferFlushOffset = 0 → u.sendBufferFlushOffset = 0) : Clean u t :=
  fun hconnected hend => hoffset (h (hsu.connected hconnected) hend)

theorem CountInv.disconnectHandler (h : s.CountInv) (hclean : Clean s (s.disconnectHandler env)) :
    (s.disconnectHandler env).CountInv := by
  rcases disconnectHandler_cases s env with ht | ⟨hconnected, ht⟩
  · rw [ht]
    exact h.closeSocket
  · rw [ht] at hclean ⊢
    exact .disconnected (hclean hconnected rfl)

theorem CountInv.disconnect (h : s.CountInv) (hclean : Clean s (s.disconnect thread env)) :
    (s.disconnect thread env).CountInv := by
  by_cases hconnected : s.connected = true
  · cases thread with
    | io =>
      rw [disconnect_io_of_connected hconnected] at hclean ⊢
      exact h.disconnectHandler hclean
    | other =>
      rw [disconnect_other_of_connected hconnected]
      exact h.receiving
  · rw [disconnect_of_not_connected (by simpa using hconnected)]
    exact h

theorem offset_disconnect (s : State) :
    (s.disconnect thread env).sendBufferFlushOffset = s.sendBufferFlushOffset := by
  by_cases hconnected : s.connected = true
  · cases thread with
    | io =>
      rw [disconnect_io_of_connected hconnected]
      rcases disconnectHandler_cases s env with ht | ⟨-, ht⟩ <;> rw [ht] <;> rfl
    | other => rw [disconnect_other_of_connected hconnected]
  · rw [disconnect_of_not_connected (by simpa using hconnected)]

theorem CountInv.startWrite (h : s.CountInv) (hsending : s.sending = false) :
    ({ s with sending := true }.startWrite env).CountInv := by
  unfold State.startWrite
  split_ifs
  · refine ⟨⟨h.pending, h.offset_le, h.sending⟩, fun _ hs => by simp at hs, fun hc _ => ?_⟩
    refine ⟨_, by rw [h.idle hc hsending]; rfl, fun r hr => ?_⟩
    split_ifs at hr
    obtain rfl := Option.some.inj hr
    exact min_le_right _ _
  · refine ⟨⟨h.pending, h.offset_le, h.sending⟩, fun _ hs => by simp at hs, fun hc _ => ?_⟩
    refine ⟨_, by rw [h.idle hc hsending]; rfl, fun r hr => ?_⟩
    obtain rfl := Option.some.inj hr
    exact Nat.zero_le _

theorem CountInv.swapBuffers (h : s.CountInv) (hsending : s.sending = false)
    (hflush : s.sendBufferFlush = []) : s.swapBuffers.CountInv where
  pending := by simp [State.swapBuffers, hflush]
  offset_le := Nat.zero_le _
  sending := by
    have hzero : s.bytesSending.toNat = 0 := by
      rw [h.sending, rest, hflush, List.drop_nil, List.length_nil]
    have hsmall : s.sendBufferMain.length < 2 ^ 64 := by
      rw [← h.pending]
      exact s.bytesPending.toNat_lt
    simp only [State.swapBuffers, rest, List.drop_zero, UInt64.toNat_add, hzero,
      UInt64.toNat_ofNat', Nat.zero_add, Nat.mod_mod]
    exact Nat.mod_eq_of_lt hsmall
  idle hconnected hs := h.idle hconnected hs
  busy hconnected hs := by
    rw [show s.swapBuffers.sending = s.sending from rfl, hsending] at hs
    cases hs

theorem CountInv.trySend (h : s.CountInv) (env : Env) : (s.trySend env).CountInv := by
  by_cases hsending : s.sending = true
  · rw [trySend_of_sending hsending]
    exact h
  rw [Bool.not_eq_true] at hsending
  by_cases hflush : s.sendBufferFlush = []
  · have hswap := h.swapBuffers hsending hflush
    rw [trySend_of_swap hsending hflush]
    split_ifs
    · exact hswap
    · exact hswap.startWrite hsending
  · rw [trySend_of_flush hsending hflush]
    exact h.startWrite hsending

theorem offset_startWrite (s : State) :
    (s.startWrite env).sendBufferFlushOffset = s.sendBufferFlushOffset := by
  unfold State.startWrite
  split_ifs <;> rfl

theorem offset_trySend (s : State) (env : Env) (h : s.sendBufferFlushOffset = 0) :
    (s.trySend env).sendBufferFlushOffset = 0 := by
  rcases trySend_cases s env with ⟨-, ht⟩ | ⟨-, ht | ht | ht⟩ <;> rw [ht]
  · exact h
  · rfl
  · rw [offset_startWrite]
    exact h
  · rw [offset_startWrite]
    rfl

theorem offset_sendAsync {buffer : ByteString} (ht : s.sendAsync thread env buffer = some t)
    (h : s.sendBufferFlushOffset = 0) : t.sendBufferFlushOffset = 0 := by
  rcases sendAsync_cases ht with ⟨-, rfl⟩ | ⟨-, u, ⟨pending, n, rfl⟩, ⟨rfl, -⟩ | ⟨-, rfl⟩⟩
  · rw [offset_disconnect, h]
  · exact h
  · exact offset_trySend _ env h

theorem CountInv.sendAsync (h : s.CountInv) {buffer : ByteString}
    (ht : s.sendAsync thread env buffer = some t) (hclean : Clean s t) : t.CountInv := by
  simp only [State.sendAsync] at ht
  split_ifs at ht with hempty hlarge hrequired
  · obtain rfl := Option.some.inj ht
    exact h.disconnect hclean
  all_goals
    have hpending : (UInt64.ofNat (s.sendBufferMain ++ buffer).length).toNat =
        (s.sendBufferMain ++ buffer).length := by
      rw [List.length_append, UInt64.toNat_ofNat']
      exact Nat.mod_eq_of_lt (by unfold maxSize at hlarge; omega)
    have hpushed : CountInv { s with
        sendBufferMain := s.sendBufferMain ++ buffer
        bytesPending := UInt64.ofNat (s.sendBufferMain ++ buffer).length } :=
      ⟨⟨hpending, h.offset_le, h.sending⟩, h.idle, h.busy⟩
  · obtain rfl := Option.some.inj ht
    exact hpushed
  · cases thread with
    | io =>
      obtain rfl := Option.some.inj ht
      exact hpushed.trySend env
    | other =>
      obtain rfl := Option.some.inj ht
      exact hpushed.receiving

theorem CountInv.completeWrite (h : s.CountInv) {i : ℕ} {result : WriteResult}
    (ht : s.completeWrite i result = some t) : t.CountInv := by
  obtain ⟨-, requested, hget, hle, rfl⟩ := completeWrite_cases ht
  refine ⟨⟨h.pending, h.offset_le, h.sending⟩, fun hc hs => ?_, fun hc hs => ?_⟩
  · rw [h.idle hc hs] at hget
    cases hget
  · obtain ⟨result', hwrites, -⟩ := h.busy hc hs
    rw [hwrites, List.getElem?_singleton] at hget
    split_ifs at hget with hi
    obtain ⟨rfl, rfl⟩ := Write.mk.inj (Option.some.inj hget)
    refine ⟨some result, by simp [hwrites, hi, rest], fun r hr => ?_⟩
    obtain rfl := Option.some.inj hr
    exact hle

theorem CountInv.onReceive (h : s.CountInv) {respond : Respond} {chunk : Chunk}
    (ht : s.onReceive env respond chunk = some t) (hclean : Clean s t) : t.CountInv := by
  obtain ⟨r, -, rfl | rfl | ⟨request, text, u, -, -, hsend, rfl⟩⟩ := onReceive_cases ht
  · exact CountInv.disconnect h.receiving hclean
  · exact h.receiving
  · have hrecord : ((s.parsed r.parser).record (.execute s.connected)).CountInv := h.receiving
    have hclean : Clean ((s.parsed r.parser).record (.execute s.connected))
        (u.disconnect .io env) := hclean
    have hu := hrecord.sendAsync hsend (hclean.left (Later.refl u).disconnect)
    exact hu.disconnect (hclean.right ((Later.refl _).sendAsync hsend) (offset_sendAsync hsend))

theorem CountInv.readHandler (h : s.CountInv) {i : ℕ} {respond : Respond}
    (ht : s.readHandler i env respond = some t) (hclean : Clean s t) : t.CountInv := by
  have htake : (s.takeRead i).CountInv := h.receiving
  rcases readHandler_cases ht with
    ⟨-, rfl⟩ | ⟨chunk, -, ⟨-, rfl⟩ | ⟨-, received, size, u, hreceive, rfl⟩⟩
  · exact htake.disconnect hclean
  · exact htake.tryReceive
  · have hcount : { s.takeRead i with bytesReceived := received }.CountInv := htake.receiving
    have hclean : Clean { s.takeRead i with bytesReceived := received } _ := hclean
    have hlater : u.Later { u with receiveBufferSize := size } := .of_eq rfl rfl rfl rfl rfl
    have hu := hcount.onReceive hreceive (hclean.left hlater.tryReceive)
    exact CountInv.tryReceive hu.receiving

/-- The bytes that the handler of a write is told of. -/
def told (s : State) : Event → ℕ
  | .writeHandler i _ =>
    match s.writes[i]? with
    | some ⟨_, some r⟩ => r.size
    | _ => 0
  | _ => 0

/-- A step that keeps the counters. It does not disconnect a session whose flush buffer is partly
written, after the bytes that it is told of itself, and a session that is not connected is told
of no more bytes than its flush buffer holds. -/
structure Orderly (tr : Transition State Event) : Prop where
  flushed : tr.before.connected = true → tr.after.connected = false →
    if tr.before.told tr.event = 0 then tr.before.sendBufferFlushOffset = 0
    else tr.before.sendBufferFlushOffset + tr.before.told tr.event =
      tr.before.sendBufferFlush.length
  told_le : tr.before.connected = false → tr.before.told tr.event ≤ tr.before.rest.length

instance (tr : Transition State Event) : Decidable (Orderly tr) :=
  decidable_of_iff
    ((tr.before.connected = true → tr.after.connected = false →
        if tr.before.told tr.event = 0 then tr.before.sendBufferFlushOffset = 0
        else tr.before.sendBufferFlushOffset + tr.before.told tr.event =
          tr.before.sendBufferFlush.length) ∧
      (tr.before.connected = false → tr.before.told tr.event ≤ tr.before.rest.length))
    ⟨fun h => ⟨h.1, h.2⟩, fun h => ⟨h.flushed, h.told_le⟩⟩

theorem told_eq {i : ℕ} {requested : ByteString} {r : WriteResult}
    (hget : s.writes[i]? = some ⟨requested, some r⟩) :
    s.told (.writeHandler i env) = r.size := by
  simp only [told, hget]

theorem CountInv.outstanding (h : s.CountInv) (hconnected : s.connected = true) {i : ℕ} {w : Write}
    (hget : s.writes[i]? = some w) :
    i = 0 ∧ s.writes = [w] ∧ ∀ r, w.result = some r → r.size ≤ s.rest.length := by
  have hsending : s.sending = true := by
    by_contra hidle
    rw [h.idle hconnected (by simpa using hidle)] at hget
    cases hget
  obtain ⟨result, hwrites, hresult⟩ := h.busy hconnected hsending
  rw [hwrites, List.getElem?_singleton] at hget
  split_ifs at hget with hi
  obtain rfl := Option.some.inj hget
  exact ⟨hi, hwrites, hresult⟩

theorem CountInv.told_le (h : s.CountInv) {e : Event}
    (hlate : s.connected = false → s.told e ≤ s.rest.length) : s.told e ≤ s.rest.length := by
  cases hconnected : s.connected with
  | false => exact hlate hconnected
  | true =>
    cases e with
    | writeHandler i env =>
      simp only [told]
      split
      · rename_i requested r hget
        exact (h.outstanding hconnected hget).2.2 r rfl
      · exact Nat.zero_le _
    | _ => exact Nat.zero_le _

theorem CountInv.reportWrite (h : s.CountInv) {i : ℕ} {requested : ByteString} {r : WriteResult}
    (hget : s.writes[i]? = some ⟨requested, some r⟩) : (s.reportWrite i requested r).CountInv where
  toCounted := ⟨h.pending, h.offset_le, h.sending⟩
  idle hconnected _ := by
    obtain ⟨rfl, hwrites, -⟩ := h.outstanding hconnected hget
    simp [State.reportWrite, hwrites]
  busy _ hsending := nomatch hsending

theorem CountInv.advance (h : s.CountInv) {size : ℕ} (hsize : size ≤ s.rest.length)
    (hsending : s.sending = false) : (s.advance size).CountInv where
  pending := h.pending
  offset_le := by
    have hoffset := h.offset_le
    rw [length_rest] at hsize
    simp only [State.advance]
    split_ifs
    · exact le_rfl
    · omega
  sending := by
    have hlt : s.rest.length < 2 ^ 64 := by
      rw [← h.sending]
      exact s.bytesSending.toNat_lt
    have hofNat : (UInt64.ofNat size).toNat = size := by
      rw [UInt64.toNat_ofNat']
      exact Nat.mod_eq_of_lt (by omega)
    have hle : UInt64.ofNat size ≤ s.bytesSending := by
      rw [UInt64.le_iff_toNat_le, hofNat, h.sending]
      exact hsize
    rw [rest_advance, List.length_drop]
    simp only [State.advance]
    rw [UInt64.toNat_sub_of_le _ _ hle, hofNat, h.sending]
  idle hconnected _ := h.idle hconnected hsending
  busy _ hs := by
    rw [show (s.advance size).sending = s.sending from rfl, hsending] at hs
    cases hs

theorem CountInv.writeHandler (h : s.CountInv) {i : ℕ} (ht : s.writeHandler i env = some t)
    (horderly : Orderly ⟨s, .writeHandler i env, t⟩) : t.CountInv := by
  obtain ⟨requested, r, hget, hcases⟩ := writeHandler_cases ht
  have hreport := h.reportWrite hget
  have htold : s.told (.writeHandler i env) = r.size := told_eq hget
  have hsize : r.size ≤ s.rest.length := htold ▸ h.told_le horderly.told_le
  have hadvance : ((s.reportWrite i requested r).advance r.size).CountInv :=
    hreport.advance hsize rfl
  rcases hcases with ⟨-, rfl⟩ | ⟨hne, -, rfl⟩ | ⟨-, -, rfl⟩
  · exact hreport
  · apply hadvance.disconnect
    intro hconnected hend
    have hflushed := horderly.flushed hconnected hend
    rw [if_neg (by rwa [htold]), htold] at hflushed
    exact if_pos hflushed
  · exact hadvance.trySend env

theorem CountInv.next (h : s.CountInv) {e : Event} (ht : s.next e = some t)
    (horderly : Orderly ⟨s, e, t⟩) : t.CountInv := by
  have hclean (hzero : s.told e = 0) : Clean s t := by
    intro hconnected hend
    have hflushed := horderly.flushed hconnected hend
    rwa [if_pos hzero] at hflushed
  cases e with
  | completeRead i result =>
    obtain ⟨-, rfl, -⟩ := completeRead_cases ht
    exact h.receiving
  | completeWrite i result => exact h.completeWrite ht
  | readHandler i env respond => exact h.readHandler ht (hclean rfl)
  | writeHandler i env => exact h.writeHandler ht horderly
  | trySend env =>
    obtain rfl := next_trySend ht
    exact CountInv.trySend h.receiving env
  | disconnectHandler env =>
    obtain rfl := next_disconnectHandler ht
    exact CountInv.disconnectHandler h.receiving (hclean rfl)
  | disconnectSession env failed =>
    obtain rfl := Option.some.inj ht
    rw [disconnectSession_eq] at hclean ⊢
    exact h.disconnect (hclean rfl)
  | sendAsync thread env buffer => exact h.sendAsync ht (hclean rfl)
  | disconnect thread env =>
    obtain rfl := Option.some.inj ht
    exact h.disconnect (hclean rfl)

/-- The offset is `k`. The flush buffer of a connected session holds something, and that of a
disconnected one is empty. -/
structure Offset (k : ℕ) (s : State) : Prop where
  offset : s.sendBufferFlushOffset = k
  connected : s.connected = true → s.sendBufferFlush ≠ []
  disconnected : s.connected = false → s.sendBufferFlush = []

section Offset

variable {k : ℕ}

theorem Offset.of_eq (h : Offset k s) (hconnected : t.connected = s.connected)
    (hoffset : t.sendBufferFlushOffset = s.sendBufferFlushOffset)
    (hflush : t.sendBufferFlush = s.sendBufferFlush) : Offset k t where
  offset := hoffset.trans h.offset
  connected := by
    rw [hconnected, hflush]
    exact h.connected
  disconnected := by
    rw [hconnected, hflush]
    exact h.disconnected

theorem Offset.tryReceive (h : Offset k s) : Offset k s.tryReceive := by
  unfold State.tryReceive
  split_ifs
  · exact h
  · exact h
  · exact h.of_eq rfl rfl rfl

theorem Offset.disconnectHandler (h : Offset k s) : Offset k (s.disconnectHandler env) := by
  rcases disconnectHandler_cases s env with ht | ⟨-, ht⟩ <;> rw [ht]
  · exact h.of_eq rfl rfl rfl
  · exact ⟨h.offset, (nomatch ·), fun _ => rfl⟩

theorem Offset.disconnect (h : Offset k s) : Offset k (s.disconnect thread env) := by
  by_cases hconnected : s.connected = true
  · cases thread with
    | io =>
      rw [disconnect_io_of_connected hconnected]
      exact h.disconnectHandler
    | other =>
      rw [disconnect_other_of_connected hconnected]
      exact h.of_eq rfl rfl rfl
  · rw [disconnect_of_not_connected (by simpa using hconnected)]
    exact h

/-- There is nothing to swap as long as the flush buffer holds something. -/
theorem Offset.trySend (h : Offset k s) (hconnected : s.connected = true) (env : Env) :
    Offset k (s.trySend env) := by
  cases hsending : s.sending with
  | true =>
    rw [trySend_of_sending hsending]
    exact h
  | false =>
    rw [trySend_of_flush hsending (h.connected hconnected)]
    unfold State.startWrite
    split_ifs <;> exact h.of_eq rfl rfl rfl

theorem Offset.sendAsync (h : Offset k s) (hconnected : s.connected = true) {buffer : ByteString}
    (ht : s.sendAsync thread env buffer = some t) : Offset k t := by
  rcases sendAsync_cases ht with ⟨-, rfl⟩ | ⟨-, u, ⟨pending, n, rfl⟩, ⟨rfl, -⟩ | ⟨-, rfl⟩⟩
  · exact h.disconnect
  · exact h.of_eq rfl rfl rfl
  · apply Offset.trySend
    · exact h.of_eq rfl rfl rfl
    · exact hconnected

theorem Offset.onReceive (h : Offset k s) (hconnected : s.connected = true) {respond : Respond}
    {chunk : Chunk} (ht : s.onReceive env respond chunk = some t) : Offset k t := by
  obtain ⟨r, -, rfl | rfl | ⟨request, text, u, -, -, hsend, rfl⟩⟩ := onReceive_cases ht
  · exact Offset.disconnect (h.of_eq rfl rfl rfl)
  · exact h.of_eq rfl rfl rfl
  · have hrecord : Offset k ((s.parsed r.parser).record (.execute s.connected)) :=
      h.of_eq rfl rfl rfl
    exact (hrecord.sendAsync hconnected hsend).disconnect

theorem Offset.readHandler (h : Offset k s) (hconnected : s.connected = true) {i : ℕ}
    {respond : Respond} (ht : s.readHandler i env respond = some t) : Offset k t := by
  have htake : Offset k (s.takeRead i) := h.of_eq rfl rfl rfl
  rcases readHandler_cases ht with
    ⟨-, rfl⟩ | ⟨chunk, -, ⟨-, rfl⟩ | ⟨-, received, size, u, hreceive, rfl⟩⟩
  · exact htake.disconnect
  · exact htake.tryReceive
  · have hcount : Offset k { s.takeRead i with bytesReceived := received } :=
      htake.of_eq rfl rfl rfl
    have hu : Offset k u := hcount.onReceive hconnected hreceive
    exact Offset.tryReceive (hu.of_eq rfl rfl rfl)

theorem Offset.advance (h : Offset k s) {size : ℕ} (hend : k + size ≠ s.sendBufferFlush.length) :
    Offset (k + size) (s.advance size) := by
  have hne : ¬ s.sendBufferFlushOffset + size = s.sendBufferFlush.length := by rwa [h.offset]
  refine ⟨?_, fun hconnected => ?_, fun hconnected => ?_⟩
  · simp only [State.advance, if_neg hne]
    rw [h.offset]
  · simp only [State.advance, if_neg hne]
    exact h.connected hconnected
  · simp only [State.advance, if_neg hne]
    exact h.disconnected hconnected

theorem Offset.writeHandler (h : Offset k s) (hconnected : s.connected = true) {i : ℕ}
    (ht : s.writeHandler i env = some t)
    (hend : s.told (.writeHandler i env) ≠ 0 →
      k + s.told (.writeHandler i env) ≠ s.sendBufferFlush.length) :
    Offset (k + s.told (.writeHandler i env)) t := by
  obtain ⟨requested, r, hget, hcases⟩ := writeHandler_cases ht
  rw [told_eq hget] at hend ⊢
  have hreport : Offset k (s.reportWrite i requested r) := h.of_eq rfl rfl rfl
  rcases hcases with ⟨hzero, rfl⟩ | ⟨hne, -, rfl⟩ | ⟨hne, -, rfl⟩
  · rw [hzero]
    exact hreport
  · exact (hreport.advance (hend hne)).disconnect
  · exact (hreport.advance (hend hne)).trySend hconnected env

theorem Offset.next (h : Offset k s) (hconnected : s.connected = true) {e : Event}
    (ht : s.next e = some t)
    (hend : s.told e ≠ 0 → k + s.told e ≠ s.sendBufferFlush.length) : Offset (k + s.told e) t := by
  cases e with
  | completeRead i result =>
    obtain ⟨-, rfl, -⟩ := completeRead_cases ht
    exact h.of_eq rfl rfl rfl
  | completeWrite i result =>
    obtain ⟨-, requested, -, -, rfl⟩ := completeWrite_cases ht
    exact h.of_eq rfl rfl rfl
  | readHandler i env respond => exact h.readHandler hconnected ht
  | writeHandler i env => exact h.writeHandler hconnected ht hend
  | trySend env =>
    obtain rfl := next_trySend ht
    apply Offset.trySend
    · exact h.of_eq rfl rfl rfl
    · exact hconnected
  | disconnectHandler env =>
    obtain rfl := next_disconnectHandler ht
    exact Offset.disconnectHandler (h.of_eq rfl rfl rfl)
  | disconnectSession env failed =>
    obtain rfl := Option.some.inj ht
    rw [disconnectSession_eq]
    exact h.disconnect
  | sendAsync thread env buffer => exact h.sendAsync hconnected ht
  | disconnect thread env =>
    obtain rfl := Option.some.inj ht
    exact h.disconnect

end Offset

/-- A step that disconnects a session with a partly written buffer leaves the offset behind it. -/
theorem CountInv.flushed (h : s.CountInv) {e : Event} (ht : s.next e = some t) (hafter : t.Counted)
    (htold : s.told e ≤ s.rest.length) (hconnected : s.connected = true)
    (hend : t.connected = false) :
    if s.told e = 0 then s.sendBufferFlushOffset = 0
    else s.sendBufferFlushOffset + s.told e = s.sendBufferFlush.length := by
  have hstranded (hflush : s.sendBufferFlush ≠ [])
      (hrest : s.told e ≠ 0 → s.sendBufferFlushOffset + s.told e ≠ s.sendBufferFlush.length) :
      s.sendBufferFlushOffset + s.told e = 0 := by
    have hoffset : Offset s.sendBufferFlushOffset s :=
      ⟨rfl, fun _ => hflush, fun hnot => by simp [hconnected] at hnot⟩
    have hleft := hoffset.next hconnected ht hrest
    have hle := hafter.offset_le
    rw [hleft.disconnected hend, hleft.offset] at hle
    exact Nat.le_zero.mp hle
  have hoffset := h.offset_le
  rw [length_rest] at htold
  split_ifs with hzero
  · by_contra hne
    have hflush : s.sendBufferFlush ≠ [] := List.length_pos_iff.mp (by omega)
    have := hstranded hflush fun hnot => absurd hzero hnot
    omega
  · by_contra hne
    have hflush : s.sendBufferFlush ≠ [] := List.length_pos_iff.mp (by omega)
    have := hstranded hflush fun _ => hne
    omega

/-- A step that is not orderly breaks the counters. -/
theorem CountInv.orderly (h : s.CountInv) {e : Event} (ht : s.next e = some t) (hafter : t.Counted)
    (htold : s.told e ≤ s.bytesSending.toNat) : Orderly ⟨s, e, t⟩ := by
  rw [h.sending] at htold
  exact ⟨h.flushed ht hafter htold, fun _ => htold⟩

/-- A session that has not sent anything. -/
structure Unsent (s : State) : Prop where
  main : s.sendBufferMain = []
  flush : s.sendBufferFlush = []
  offset : s.sendBufferFlushOffset = 0
  sending : s.sending = false
  writes : s.writes = []

theorem Unsent.connect (h : s.Unsent) (bufferSize : ℕ) : (s.connect bufferSize).CountInv := by
  apply CountInv.tryReceive
  refine ⟨⟨?_, h.offset.le.trans (Nat.zero_le _), ?_⟩, fun _ _ => h.writes, fun _ hs => ?_⟩
  · simp [h.main]
  · simp [rest, h.flush]
  · simp [h.sending] at hs

/-- In a run of a session from `connect` on the counters give the sizes of the buffers wherever a
handler begins or ends, and no handler subtracts more than there is, exactly if all its steps are
orderly. -/
theorem counters_agree {s t : State} {ts : List (Transition State Event)} (hs : s.Unsent)
    (bufferSize : ℕ) (hrun : Run (s.connect bufferSize) ts t) :
    (t.Counted ∧ ∀ tr ∈ ts, tr.before.Counted ∧ tr.after.Counted ∧
      tr.before.told tr.event ≤ tr.before.bytesSending.toNat) ↔ ∀ tr ∈ ts, Orderly tr := by
  constructor
  · rintro ⟨-, hcounted⟩
    have horderly : ∀ tr ∈ ts, tr.before.next tr.event = some tr.after → tr.before.CountInv →
        Orderly tr := by
      intro tr htr hnext hinv
      obtain ⟨-, hafter, htold⟩ := hcounted tr htr
      exact hinv.orderly hnext hafter htold
    obtain ⟨-, hall⟩ := hrun.invariant (hs.connect bufferSize)
      fun tr htr hnext hinv => CountInv.next hinv hnext (horderly tr htr hnext hinv)
    exact fun tr htr => horderly tr htr (hrun.step_of_mem htr) (hall tr htr).1
  · intro horderly
    obtain ⟨ht, hall⟩ := hrun.invariant (hs.connect bufferSize)
      fun tr htr hnext hinv => CountInv.next hinv hnext (horderly tr htr)
    refine ⟨ht.toCounted, fun tr htr => ?_⟩
    obtain ⟨hbefore, hafter⟩ := hall tr htr
    refine ⟨hbefore.toCounted, hafter.toCounted, ?_⟩
    rw [hbefore.sending]
    exact hbefore.told_le (horderly tr htr).told_le

section TwoBytes

def openSession : State where
  toSession := { Session.fresh 1 zeroed with isOpen := true }
  sessions := ∅

theorem unsent_openSession : openSession.Unsent := ⟨rfl, rfl, rfl, rfl, rfl⟩

def writtenRun : Option (List (Transition State Event) × State) :=
  exec next (openSession.connect 8192)
    [.sendAsync .io ⟨1, false⟩ (ascii "ab"), .writeHandler 0 ⟨1, false⟩, .writeHandler 0 ⟨0, false⟩,
      .disconnect .io ⟨0, false⟩]

theorem counters_agree_writtenRun : ∃ ts t, writtenRun = some (ts, t) ∧
    t.Counted ∧ ∀ tr ∈ ts, tr.before.Counted ∧ tr.after.Counted ∧
      tr.before.told tr.event ≤ tr.before.bytesSending.toNat := by
  obtain ⟨⟨ts, t⟩, hrun⟩ : ∃ r, writtenRun = some r := ⟨_, rfl⟩
  have hall : writtenRun.map (fun r => r.1.all fun tr => decide (Orderly tr)) = some true := by
    decide
  rw [hrun, Option.map_some, Option.some.injEq, List.all_eq_true] at hall
  exact ⟨ts, t, hrun, (counters_agree unsent_openSession 8192 (Transitions.Run.of_exec hrun).1).mpr
    fun tr htr => of_decide_eq_true (hall tr htr)⟩

def lateHandlerRun : Option (List (Transition State Event) × State) :=
  exec next (openSession.connect 8192)
    [.sendAsync .io ⟨1, false⟩ (ascii "ab"), .disconnect .io ⟨0, false⟩, .writeHandler 0 ⟨0, false⟩]

def partlyWrittenRun : Option (List (Transition State Event) × State) :=
  exec next (openSession.connect 8192)
    [.sendAsync .io ⟨1, false⟩ (ascii "ab"), .writeHandler 0 ⟨0, false⟩, .disconnect .io ⟨0, false⟩]

theorem counters_disagree :
    (∃ ts t, Run (openSession.connect 8192) ts t ∧ t.bytesSending.toNat = 2 ^ 64 - 1 ∧
      ¬ t.Counted) ∧
    ∃ ts t, Run (openSession.connect 8192) ts t ∧
      t.sendBufferFlush.length < t.sendBufferFlushOffset := by
  constructor
  · obtain ⟨⟨ts, t⟩, hrun⟩ : ∃ r, lateHandlerRun = some r := ⟨_, rfl⟩
    have hend : lateHandlerRun.map (fun r => (r.2.bytesSending.toNat, r.2.rest)) =
        some (2 ^ 64 - 1, []) := by decide +kernel
    rw [hrun, Option.map_some, Option.some.injEq, Prod.mk.injEq] at hend
    refine ⟨ts, t, (Transitions.Run.of_exec hrun).1, hend.1, fun h => ?_⟩
    have hsending := h.sending
    rw [hend.1, hend.2, List.length_nil] at hsending
    omega
  · obtain ⟨⟨ts, t⟩, hrun⟩ : ∃ r, partlyWrittenRun = some r := ⟨_, rfl⟩
    have hend : partlyWrittenRun.map
        (fun r => (r.2.sendBufferFlush, r.2.sendBufferFlushOffset)) = some ([], 1) := by decide
    rw [hrun, Option.map_some, Option.some.injEq, Prod.mk.injEq] at hend
    refine ⟨ts, t, (Transitions.Run.of_exec hrun).1, ?_⟩
    rw [hend.1, hend.2]
    decide

end TwoBytes

end State

end Webcrown.Server
