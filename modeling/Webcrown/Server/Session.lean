import Webcrown.Http.Calls
import Webcrown.Http.Middlewares.Middleware

/-!
# Sessions

A session with its socket, as the I/O thread runs its handlers. An asynchronous
operation is outstanding until its handler runs; a result is set when the socket has
completed it and the handler is queued. `dispatch` runs a handler inline on the I/O
thread and queues it when another thread calls.
-/

namespace Webcrown.Server

open Bytes Common Http

/-- The thread that makes a call. -/
inductive Thread
  | io
  | other
  deriving DecidableEq, Repr

/-- What the handler of a completed write is given. -/
structure WriteResult where
  failed : Bool
  size : ℕ
  deriving DecidableEq, Repr

/-- An outstanding `async_write_some` with the bytes of its range. -/
structure Write where
  requested : ByteString
  result : Option WriteResult
  deriving DecidableEq

/-- What the handler of a completed read is given: the bytes with the receive buffer behind
them, or an error. -/
inductive ReadResult
  | received (chunk : Chunk)
  | failed

/-- An outstanding `async_read_some`. -/
abbrev Read := Option ReadResult

/-- What the operating system does while a handler runs: the bytes that the socket takes from
a write at once, and whether closing an open socket reports an error. -/
structure Env where
  taken : ℕ
  closeFails : Bool
  deriving DecidableEq, Repr

/-- What the middlewares and `build()` make of a request, unless one throws. -/
abbrev Respond := HttpRequest → Except Thrown ByteString

/-- What is recorded of a session's doings; the flag is `connected_` at that time. -/
inductive Action
  | parse (connected : Bool)
  | execute (connected : Bool)
  | unregister (erased : Bool)
  deriving DecidableEq, Repr

/-- The identity of a session object. -/
abbrev SessionRef := ℕ

abbrev Sessions := Finmap fun _ : UInt64 => SessionRef

/-- The members of a `WebSession`, then its socket (`wire` is all that it has taken), the
operations outstanding on it, and the queued handlers of other threads' calls. -/
structure Session where
  sessionId : UInt64
  connected : Bool
  receiving : Bool
  receiveBufferSize : ℕ
  sendBufferMain : ByteString
  sendBufferFlush : ByteString
  sendBufferFlushOffset : ℕ
  sending : Bool
  parser : Parser
  bytesPending : UInt64
  bytesSending : UInt64
  bytesReceived : UInt64
  bytesSent : UInt64
  isOpen : Bool
  wire : ByteString
  reported : ByteString
  reads : List Read
  writes : List Write
  trySends : ℕ
  disconnects : ℕ
  log : List Action

/-- The members of a session that no code initialises; the content type is that of its parser.
`connected_` is one more, but nothing reads it before `connect` sets it. -/
structure Uninitialised where
  contentType : ContentType
  receiving : Bool
  sendBufferFlushOffset : ℕ
  sending : Bool
  deriving DecidableEq, Repr

/-- What these members hold in memory that is zeroed. -/
def zeroed : Uninitialised := ⟨.unknown, false, 0, false⟩

/-- A session as `create_session` makes it, with whatever its uninitialised members hold. -/
def Session.fresh (id : UInt64) (m : Uninitialised) : Session where
  sessionId := id
  connected := false
  receiving := m.receiving
  receiveBufferSize := 0
  sendBufferMain := []
  sendBufferFlush := []
  sendBufferFlushOffset := m.sendBufferFlushOffset
  sending := m.sending
  parser := Parser.fresh m.contentType
  bytesPending := 0
  bytesSending := 0
  bytesReceived := 0
  bytesSent := 0
  isOpen := false
  wire := []
  reported := []
  reads := []
  writes := []
  trySends := 0
  disconnects := 0
  log := []

/-- A session together with the server's `sessions_`. -/
structure State extends Session where
  sessions : Sessions

namespace State

def record (s : State) (a : Action) : State := { s with log := s.log ++ [a] }

/-- `socket_.async_read_some`; on a closed socket it completes with an error. -/
def startRead (s : State) : State :=
  { s with reads := s.reads ++ [if s.isOpen then none else some .failed] }

/-- `try_receive`. The error it reports for a session that is not connected goes to the
server's error callback. -/
def tryReceive (s : State) : State :=
  if s.receiving then s
  else if !s.connected then s
  else { s with receiving := true }.startRead

/-- `connect`, with the value of `option_receive_buffer_size()`. -/
def connect (bufferSize : ℕ) (s : State) : State :=
  { s with
    bytesPending := 0
    bytesSending := 0
    bytesReceived := 0
    bytesSent := 0
    receiveBufferSize := bufferSize
    connected := true }.tryReceive

/-- `clear_buffers`, which leaves the offset. -/
def clearBuffers (s : State) : State :=
  { s with sendBufferMain := [], sendBufferFlush := [], bytesPending := 0, bytesSending := 0 }

/-- `socket_.close()`: what is outstanding and not completed completes with
`operation_aborted`. -/
def closeSocket (s : State) : State :=
  { s with
    isOpen := false
    reads := s.reads.map fun r => r.or (some .failed)
    writes := s.writes.map fun w => { w with result := w.result.or (some ⟨true, 0⟩) } }

def shutdownSession (s : State) : State := s.closeSocket

def unregisterSession (id : UInt64) (s : State) : State :=
  { s with sessions := s.sessions.erase id }.record (.unregister (decide (id ∈ s.sessions)))

/-- The text of `disconnect_handler`; queued, it calls a `shutdown_session` that is gone. The
operating system releases the socket also when closing it reports an error. -/
def disconnectHandler (env : Env) (s : State) : State :=
  if !s.connected then s.shutdownSession
  else if s.isOpen && env.closeFails then s.closeSocket.shutdownSession
  else
    let s' := { s.closeSocket with connected := false, receiving := false, sending := false }
    s'.clearBuffers.shutdownSession.unregisterSession s.sessionId

/-- `disconnect`. No caller uses the value it returns. -/
def disconnect (thread : Thread) (env : Env) (s : State) : State :=
  if !s.connected then s
  else
    match thread with
    | .io => s.disconnectHandler env
    | .other => { s with disconnects := s.disconnects + 1 }

/-- `socket_.async_write_some` with the rest of the flush buffer. A socket that takes bytes at
once has completed the write. -/
def startWrite (env : Env) (s : State) : State :=
  let requested := s.sendBufferFlush.drop s.sendBufferFlushOffset
  if s.isOpen then
    let size := min env.taken requested.length
    { s with
      wire := s.wire ++ requested.take size
      writes := s.writes ++ [⟨requested, if size = 0 then none else some ⟨false, size⟩⟩] }
  else { s with writes := s.writes ++ [⟨requested, some ⟨true, 0⟩⟩] }

def swapBuffers (s : State) : State :=
  { s with
    sendBufferFlush := s.sendBufferMain
    sendBufferMain := s.sendBufferFlush
    sendBufferFlushOffset := 0
    bytesPending := 0
    bytesSending := s.bytesSending + UInt64.ofNat s.sendBufferMain.length }

def trySend (env : Env) (s : State) : State :=
  if s.sending then s
  else
    let s := if s.sendBufferFlush.isEmpty then s.swapBuffers else s
    if s.sendBufferFlush.isEmpty then s
    else { s with sending := true }.startWrite env

/-- `send_async`. A vector that would grow past its largest size throws. -/
def sendAsync (thread : Thread) (env : Env) (buffer : ByteString) (s : State) : Option State :=
  if buffer.isEmpty then some (s.disconnect thread env)
  else if maxSize < s.sendBufferMain.length + buffer.length then none
  else
    let sendRequired := s.sendBufferMain.isEmpty || s.sendBufferFlush.isEmpty
    let main := s.sendBufferMain ++ buffer
    let s := { s with sendBufferMain := main, bytesPending := UInt64.ofNat main.length }
    if !sendRequired then some s
    else
      match thread with
      | .io => some (s.trySend env)
      | .other => some { s with trySends := s.trySends + 1 }

/-- The part of `async_write_handler` that moves the offset over the written bytes. -/
def advance (size : ℕ) (s : State) : State :=
  let offset := s.sendBufferFlushOffset + size
  let done := offset = s.sendBufferFlush.length
  { s with
    bytesSending := s.bytesSending - UInt64.ofNat size
    bytesSent := s.bytesSent + UInt64.ofNat size
    sendBufferFlush := if done then [] else s.sendBufferFlush
    sendBufferFlushOffset := if done then 0 else offset }

def asyncWriteHandler (env : Env) (result : WriteResult) (s : State) : State :=
  let s := { s with sending := false }
  if result.size = 0 then s
  else
    let s := s.advance result.size
    if result.failed then s.disconnect .io env else s.trySend env

/-- `on_receive`. An exception leaves the handler, and the I/O thread ends. -/
def onReceive (env : Env) (respond : Respond) (chunk : Chunk) (s : State) : Option State :=
  let s := s.record (.parse s.connected)
  match s.parser.call chunk with
  | .error _ => none
  | .ok r =>
    let s := { s with parser := r.parser }
    if r.ec.isSome then some (s.disconnect .io env)
    else if r.parser.parsePhase ≠ .finished then some s
    else
      match r.request with
      | none => some (s.disconnect .io env)
      | some request =>
        let s := s.record (.execute s.connected)
        match respond request with
        | .error _ => none
        | .ok text => (s.sendAsync .io env text).map (disconnect .io env)

/-- The text of `async_receive_handler`, which keeps only `this`. -/
def asyncReceiveHandler (env : Env) (respond : Respond) (result : ReadResult) (s : State) :
    Option State :=
  let s := { s with receiving := false }
  match result with
  | .failed => some (s.disconnect .io env)
  | .received chunk =>
    if chunk.size = 0 then some s.tryReceive
    else
      let s := { s with bytesReceived := s.bytesReceived + UInt64.ofNat chunk.size }
      (s.onReceive env respond chunk).map fun s =>
        let s :=
          if s.receiveBufferSize ≤ chunk.size then { s with receiveBufferSize := 2 * chunk.size }
          else s
        if !s.connected then s else s.tryReceive

/-- The timer's handler `disconnect_session` of `WebServer::accept`, which does not look at the
error it is given. -/
def disconnectSession (env : Env) (s : State) : State :=
  if !s.connected then s else s.disconnect .io env

end State

end Webcrown.Server
