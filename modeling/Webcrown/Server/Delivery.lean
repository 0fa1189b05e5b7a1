import Webcrown.Http.Phases
import Webcrown.Http.Response
import Webcrown.Server.Lifecycle
import Webcrown.Server.SendQueue

/-!
# Delivery of a response

`on_receive` disconnects right after `send_async`, which closes the socket under the
first write. The response is delivered whole only if the socket takes it, and all that
waits before it, at once.
-/

namespace Webcrown.Server

open Bytes Common Http Transitions

namespace State

variable {s t u : State} {env : Env} {thread : Thread} {e : Event}

/-- An open socket is that of a connected session, and no write is outstanding on it while the
flag is not set. -/
structure Writing (s : State) : Prop where
  connected : s.isOpen = true → s.connected = true
  writes : s.isOpen = true → s.writes.length ≤ s.sending.toNat

theorem SendIdle.writing (h : s.SendIdle) : s.Writing :=
  ⟨fun _ => h.connected, fun _ => by simp [h.writes, h.sending]⟩

theorem writing_of_closed (h : s.isOpen = false) : s.Writing :=
  ⟨fun hopen => by simp [h] at hopen, fun hopen => by simp [h] at hopen⟩

/-- A disconnect closes the socket, whether closing it reports an error or not. -/
theorem isOpen_disconnectHandler (s : State) : (s.disconnectHandler env).isOpen = false := by
  rcases disconnectHandler_cases s env with h | ⟨-, h⟩ <;> rw [h] <;> rfl

theorem Writing.isOpen_disconnect (h : s.Writing) : (s.disconnect .io env).isOpen = false := by
  by_cases hconnected : s.connected = true
  · rw [disconnect_io_of_connected hconnected]
    exact isOpen_disconnectHandler s
  · rw [Bool.not_eq_true] at hconnected
    rw [disconnect_of_not_connected hconnected]
    by_contra hopen
    rw [h.connected (by simpa using hopen)] at hconnected
    cases hconnected

theorem wire_disconnect (s : State) : (s.disconnect thread env).wire = s.wire := by
  unfold State.disconnect
  split_ifs
  · rfl
  · cases thread with
    | io => rcases disconnectHandler_cases s env with h | ⟨-, h⟩ <;> simp only [h] <;> rfl
    | other => rfl

theorem Writing.disconnect (h : s.Writing) : (s.disconnect thread env).Writing := by
  cases thread with
  | io => exact writing_of_closed h.isOpen_disconnect
  | other =>
    unfold State.disconnect
    split_ifs <;> exact ⟨h.connected, h.writes⟩

theorem Writing.startWrite (h : s.Writing) (hsending : s.sending = false) :
    { s with sending := true }.startWrite env |>.Writing := by
  have hwrites : s.isOpen = true → s.writes = [] := fun hopen => by
    simpa [hsending] using h.writes hopen
  unfold State.startWrite
  split_ifs with hopen
  · exact ⟨h.connected, fun _ => by simp [hwrites hopen]⟩
  · exact writing_of_closed (by simpa using hopen)

theorem Writing.trySend (h : s.Writing) : (s.trySend env).Writing := by
  rcases trySend_cases s env with ⟨-, ht⟩ | ⟨hsending, ht | ht | ht⟩ <;> rw [ht]
  · exact h
  · exact ⟨h.connected, h.writes⟩
  · exact h.startWrite hsending
  · exact Writing.startWrite (s := s.swapBuffers) ⟨h.connected, h.writes⟩ hsending

theorem Writing.sendAsync {buffer : ByteString} (h : s.Writing)
    (ht : s.sendAsync thread env buffer = some t) : t.Writing := by
  rcases sendAsync_cases ht with ⟨-, rfl⟩ | ⟨-, u, ⟨pending, n, rfl⟩, ⟨rfl, -⟩ | ⟨-, rfl⟩⟩
  · exact h.disconnect
  · exact ⟨h.connected, h.writes⟩
  · exact Writing.trySend ⟨h.connected, h.writes⟩

theorem Writing.tryReceive (h : s.Writing) : s.tryReceive.Writing := by
  unfold State.tryReceive
  split_ifs <;> exact ⟨h.connected, h.writes⟩

theorem Writing.onReceive {respond : Respond} {chunk : Chunk} (h : s.Writing)
    (ht : s.onReceive env respond chunk = some t) : t.Writing := by
  obtain ⟨r, -, hcases⟩ := onReceive_cases ht
  have hparsed : (s.parsed r.parser).Writing := ⟨h.connected, h.writes⟩
  rcases hcases with rfl | rfl | ⟨request, text, u, -, -, hsend, rfl⟩
  · exact hparsed.disconnect
  · exact hparsed
  · have hrecord : ((s.parsed r.parser).record (.execute s.connected)).Writing :=
      ⟨h.connected, h.writes⟩
    exact (hrecord.sendAsync hsend).disconnect

theorem Writing.readHandler {i : ℕ} {respond : Respond} (h : s.Writing)
    (ht : s.readHandler i env respond = some t) : t.Writing := by
  have htake : (s.takeRead i).Writing := ⟨h.connected, h.writes⟩
  rcases readHandler_cases ht with
    ⟨-, rfl⟩ | ⟨chunk, -, ⟨-, rfl⟩ | ⟨-, received, size, u, hreceive, rfl⟩⟩
  · exact htake.disconnect
  · exact htake.tryReceive
  · have hcount : State.Writing { s.takeRead i with bytesReceived := received } :=
      ⟨h.connected, h.writes⟩
    have hu := hcount.onReceive hreceive
    exact Writing.tryReceive ⟨hu.connected, hu.writes⟩

theorem Writing.writeHandler {i : ℕ} (h : s.Writing) (ht : s.writeHandler i env = some t) :
    t.Writing := by
  obtain ⟨requested, r, hget, hcases⟩ := writeHandler_cases ht
  have hreport : (s.reportWrite i requested r).Writing := by
    refine ⟨h.connected, fun hopen => ?_⟩
    obtain ⟨hi, -⟩ := List.getElem?_eq_some_iff.mp hget
    have hlength : s.writes.length ≤ s.sending.toNat := h.writes hopen
    have hone : s.sending.toNat ≤ 1 := Bool.toNat_le _
    have hnone : s.writes.length - 1 ≤ false.toNat := by
      rw [Bool.toNat_false]
      omega
    exact (List.length_eraseIdx_of_lt hi).trans_le hnone
  have hadvance : ((s.reportWrite i requested r).advance r.size).Writing :=
    ⟨hreport.connected, hreport.writes⟩
  rcases hcases with ⟨-, rfl⟩ | ⟨-, -, rfl⟩ | ⟨-, -, rfl⟩
  · exact hreport
  · exact hadvance.disconnect
  · exact hadvance.trySend

theorem Writing.next (h : s.Writing) (ht : s.next e = some t) : t.Writing := by
  cases e with
  | completeRead i result =>
    obtain ⟨-, rfl, -⟩ := completeRead_cases ht
    exact ⟨h.connected, h.writes⟩
  | completeWrite i result =>
    obtain ⟨-, requested, -, -, rfl⟩ := completeWrite_cases ht
    exact ⟨h.connected, fun hopen => List.length_set.trans_le (h.writes hopen)⟩
  | readHandler i env respond => exact h.readHandler ht
  | writeHandler i env => exact h.writeHandler ht
  | trySend env =>
    obtain rfl := next_trySend ht
    exact Writing.trySend ⟨h.connected, h.writes⟩
  | disconnectHandler env =>
    obtain rfl := next_disconnectHandler ht
    exact writing_of_closed (isOpen_disconnectHandler _)
  | disconnectSession env failed =>
    obtain rfl := Option.some.inj ht
    rw [disconnectSession_eq]
    exact h.disconnect
  | sendAsync thread env buffer => exact h.sendAsync ht
  | disconnect thread env =>
    obtain rfl := Option.some.inj ht
    exact h.disconnect

/-- What the session has accepted and the socket has not taken. -/
def unsent (s : State) : ByteString := (s.rest ++ s.sendBufferMain).drop s.inFlight.length

/-- The read handler gets the bytes that finish a request, to which the response is `text`. -/
def Responds (s : State) (i : ℕ) (respond : Respond) (text : ByteString) : Prop :=
  ∃ chunk r request, s.reads[i]? = some (some (.received chunk)) ∧ chunk.size ≠ 0 ∧
    s.parser.call chunk = .ok r ∧ r.ec = none ∧ r.parser.parsePhase = .finished ∧
    r.request = some request ∧ respond request = .ok text

theorem onReceive_of_response {respond : Respond} {chunk : Chunk} {r : CallResult}
    {request : HttpRequest} {text : ByteString} (hcall : s.parser.call chunk = .ok r)
    (hec : r.ec = none) (hphase : r.parser.parsePhase = .finished)
    (hrequest : r.request = some request) (hrespond : respond request = .ok text) :
    s.onReceive env respond chunk =
      (((s.parsed r.parser).record (.execute s.connected)).sendAsync .io env text).map
        (State.disconnect .io env) := by
  have hcall' : (s.record (.parse s.connected)).parser.call chunk = .ok r := hcall
  simp [State.onReceive, hcall', hec, hphase, hrequest, hrespond]
  rfl

theorem readHandler_of_responds {i : ℕ} {respond : Respond} {text : ByteString}
    (h : s.Responds i respond text) (ht : s.readHandler i env respond = some t) :
    ∃ parser received log size u,
      { s.takeRead i with parser := parser, bytesReceived := received, log := log }.sendAsync
        .io env text = some u ∧
      t = { u.disconnect .io env with receiveBufferSize := size }.tryReceive := by
  obtain ⟨chunk, r, request, hget, hsize, hcall, hec, hphase, hrequest, hrespond⟩ := h
  rcases readHandler_cases ht with
    ⟨hget', -⟩ | ⟨chunk', hget', ⟨hzero, -⟩ | ⟨-, received, size, v, hv, rfl⟩⟩
  · simp [hget] at hget'
  · obtain rfl : chunk = chunk' := by simpa [hget] using hget'
    exact absurd hzero hsize
  · obtain rfl : chunk = chunk' := by simpa [hget] using hget'
    rw [onReceive_of_response (s := { s.takeRead i with bytesReceived := received }) hcall hec
      hphase hrequest hrespond] at hv
    obtain ⟨u, hu, rfl⟩ := Option.map_eq_some_iff.mp hv
    exact ⟨_, _, _, size, u, hu, rfl⟩

/-- A write of `requested` takes all of it if the socket takes that many bytes at once. -/
theorem take_min_eq_iff (requested : ByteString) (k : ℕ) :
    requested.take (min k requested.length) = requested ↔ requested.length ≤ k := by
  rw [List.take_eq_self_iff]
  omega

/-- The first write takes the response, with what waits in the main buffer before it, exactly if
nothing else is being written and the socket takes them at once. -/
theorem Writing.sendAsync_whole_iff (h : s.Writing) {text : ByteString} (htext : text ≠ [])
    (hu : s.sendAsync .io env text = some u) :
    u.wire = s.wire ++ s.unsent ++ text ↔
      s.isOpen = true ∧ s.sending = false ∧ s.sendBufferFlush = [] ∧
        s.sendBufferMain.length + text.length ≤ env.taken := by
  have hpos : 0 < text.length := List.length_pos_iff.mpr htext
  have hsame : s.wire ≠ s.wire ++ s.unsent ++ text := by
    intro heq
    have hlength := congrArg List.length heq
    simp only [List.length_append] at hlength
    omega
  rcases sendAsync_cases hu with ⟨hempty, -⟩ | ⟨-, s', ⟨pending, n, rfl⟩, ⟨rfl, hflush⟩ | ⟨-, rfl⟩⟩
  · exact absurd hempty htext
  · exact ⟨fun heq => absurd heq hsame, fun hcond => absurd hcond.2.2.1 (hflush rfl)⟩
  set s' : State := { s with
    sendBufferMain := s.sendBufferMain ++ text, bytesPending := pending, trySends := n } with hs'
  by_cases hsending : s.sending = true
  · rw [trySend_of_sending (s := s') hsending]
    exact ⟨fun heq => absurd heq hsame, fun hcond => by simp [hsending] at hcond⟩
  rw [Bool.not_eq_true] at hsending
  by_cases hopen : s.isOpen = true
  · have hwrites : s.writes = [] := by
      have hlength := h.writes hopen
      rw [hsending] at hlength
      exact List.eq_nil_of_length_eq_zero (Nat.le_zero.mp hlength)
    have hunsent : s.unsent = s.rest ++ s.sendBufferMain := by
      simp [unsent, inFlight, hwrites]
    by_cases hflush : s.sendBufferFlush = []
    · have hmain : s'.sendBufferMain ≠ [] := by simp [hs', htext]
      rw [trySend_of_swap (s := s') hsending hflush, if_neg hmain,
        startWrite_of_open (s := { s'.swapBuffers with sending := true }) hopen]
      have hrest : State.rest { s'.swapBuffers with sending := true } = s.sendBufferMain ++ text :=
        List.drop_zero
      have hold : s.rest = [] := by simp [rest, hflush]
      simp only [hrest, hunsent, hold, List.nil_append, List.append_assoc]
      calc s.wire ++ (s.sendBufferMain ++ text).take
              (min env.taken (s.sendBufferMain ++ text).length) =
            s.wire ++ (s.sendBufferMain ++ text)
          ↔ (s.sendBufferMain ++ text).length ≤ env.taken := by
            rw [List.append_cancel_left_eq, take_min_eq_iff]
        _ ↔ _ := by simp [hopen, hsending, hflush]
    · rw [trySend_of_flush (s := s') hsending hflush,
        startWrite_of_open (s := { s' with sending := true }) hopen]
      refine ⟨fun heq => ?_, fun hcond => absurd hcond.2.2.1 hflush⟩
      -- the write takes at most what was in the flush buffer
      have hwire : s.wire ++ s.rest.take (min env.taken s.rest.length) =
          s.wire ++ s.unsent ++ text := heq
      have hlength := congrArg List.length hwire
      simp only [hunsent, List.length_append, List.length_take] at hlength
      omega
  · have hclosed : s.isOpen = false := by simpa using hopen
    have hwire : (s'.trySend env).wire = s.wire := (Later.refl s').trySend.wire hclosed
    rw [hwire]
    exact ⟨fun heq => absurd heq hsame, fun hcond => absurd hcond.1 hopen⟩

/-- A response of which the read handler writes the first bytes is delivered whole, whatever
happens afterwards, exactly if the socket is open, no write is outstanding, nothing waits in the
flush buffer, and the socket takes at once what waits in the main buffer and the response: the
handler leaves the socket closed. -/
theorem response_whole_iff {s₀ s t u : State} {ts ts' : List (Transition State Event)}
    (hs : s₀.SendIdle) (hrun : Run s₀ ts s) {i : ℕ} {env : Env} {respond : Respond}
    {order : IterationOrder} {response : HttpResponse}
    (hresponds : s.Responds i respond (response.build order).1)
    (hstep : s.next (.readHandler i env respond) = some t) (hrun' : Run t ts' u) :
    t.isOpen = false ∧
      (u.wire = s.wire ++ s.unsent ++ (response.build order).1 ↔
        s.isOpen = true ∧ s.sending = false ∧ s.sendBufferFlush = [] ∧
          s.sendBufferMain.length + (response.build order).1.length ≤ env.taken) := by
  have hwriting : s.Writing :=
    (hrun.invariant hs.writing fun tr _ hnext hinv => Writing.next hinv hnext).1
  obtain ⟨parser, received, log, size, v, hsend, rfl⟩ := readHandler_of_responds hresponds hstep
  have htake : State.Writing
      { s.takeRead i with parser := parser, bytesReceived := received, log := log } :=
    ⟨hwriting.connected, hwriting.writes⟩
  set d := v.disconnect .io env with hd
  have hclosed : d.isOpen = false := (htake.sendAsync hsend).isOpen_disconnect
  have hlater : State.Later d ({ d with receiveBufferSize := size }.tryReceive) :=
    Later.tryReceive (.of_eq rfl rfl rfl rfl rfl)
  have hclosed' : ({ d with receiveBufferSize := size }.tryReceive).isOpen = false := by
    by_contra hopen
    rw [hlater.isOpen (by simpa using hopen)] at hclosed
    cases hclosed
  have hwire : u.wire = v.wire := by
    rw [(later_run hrun').wire hclosed', hlater.wire hclosed, hd, wire_disconnect]
  refine ⟨hclosed', ?_⟩
  rw [hwire]
  exact htake.sendAsync_whole_iff (HttpResponse.build_ne_nil order response) hsend

section DefaultResponse

def getSession : State := onlySession zeroed

def getQueued : State := { getSession with reads := [some (.received getChunk)] }

theorem run_getQueued :
    Run getSession [⟨getSession, .completeRead 0 (.received getChunk), getQueued⟩] getQueued :=
  .cons rfl (.nil _)

def respondDefault : Respond := fun _ =>
  .ok (ascii "HTTP/1.1 500 Internal Server Error\r\n\r\n")

theorem responds_getQueued :
    getQueued.Responds 0 respondDefault (HttpResponse.build .byKey {}).1 := by
  have hrequest : getCall.result.request.isSome = true := by decide +kernel
  obtain ⟨request, hrequest⟩ := Option.isSome_iff_exists.mp hrequest
  rw [HttpResponse.build_default]
  exact ⟨getChunk, getCall.result, request, rfl, by decide, getCall.returned, by decide +kernel,
    by decide +kernel, hrequest, rfl⟩

theorem response_whole_iff_getQueued :
    ∃ t, getQueued.next (.readHandler 0 ⟨64, false⟩ respondDefault) = some t ∧
      t.isOpen = false ∧
      (t.wire = getQueued.wire ++ getQueued.unsent ++ (HttpResponse.build .byKey {}).1 ↔
        getQueued.isOpen = true ∧ getQueued.sending = false ∧ getQueued.sendBufferFlush = [] ∧
          getQueued.sendBufferMain.length + (HttpResponse.build .byKey {}).1.length ≤ 64) := by
  have hstep : (getQueued.next (.readHandler 0 ⟨64, false⟩ respondDefault)).isSome = true := by
    decide +kernel
  obtain ⟨t, hstep⟩ := Option.isSome_iff_exists.mp hstep
  exact ⟨t, hstep, response_whole_iff ⟨rfl, rfl, rfl, rfl, rfl, rfl, rfl, rfl, rfl⟩ run_getQueued
    responds_getQueued hstep (.nil t)⟩

/-- Where the socket takes five bytes at once, nothing is written after them. -/
theorem response_cut_short :
    ∃ t, Run getSession [⟨getSession, .completeRead 0 (.received getChunk), getQueued⟩] getQueued ∧
      getQueued.Responds 0 respondDefault (HttpResponse.build .byKey {}).1 ∧
      getQueued.next (.readHandler 0 ⟨5, false⟩ respondDefault) = some t ∧
      ∀ ts u, Run t ts u →
        u.wire = ascii "HTTP/" ∧ u.wire ≠ (HttpResponse.build .byKey {}).1 := by
  have hwire : (getQueued.next (.readHandler 0 ⟨5, false⟩ respondDefault)).map
      (fun t => (t.isOpen, t.wire)) = some (false, ascii "HTTP/") := by
    decide +kernel
  obtain ⟨t, hstep, hwire⟩ := Option.map_eq_some_iff.mp hwire
  obtain ⟨hclosed, hwire⟩ := Prod.mk.inj hwire
  refine ⟨t, run_getQueued, responds_getQueued, hstep, fun ts u hrun => ?_⟩
  have hsame : u.wire = ascii "HTTP/" := ((later_run hrun).wire hclosed).trans hwire
  refine ⟨hsame, ?_⟩
  rw [hsame, HttpResponse.build_default]
  decide +kernel

end DefaultResponse

end State

end Webcrown.Server
