import Webcrown.Server.Session
import Webcrown.Transitions.Runs

/-!
# Runs of a session

Every event is one handler on the I/O thread, one call from another thread, or one
completion by the socket. Queued handlers run in any order.
-/

namespace Webcrown.Server

open Common Http Transitions

inductive Event
  /-- the socket completes an outstanding read -/
  | completeRead (i : ℕ) (result : ReadResult)
  /-- the socket takes bytes from an outstanding write, which completes it -/
  | completeWrite (i : ℕ) (result : WriteResult)
  /-- the handler of a completed read runs -/
  | readHandler (i : ℕ) (env : Env) (respond : Respond)
  /-- the handler of a completed write runs -/
  | writeHandler (i : ℕ) (env : Env)
  /-- a queued `try_send` runs -/
  | trySend (env : Env)
  /-- a queued `disconnect_handler` runs -/
  | disconnectHandler (env : Env)
  /-- the handler of the expiry timer runs, with or without an error -/
  | disconnectSession (env : Env) (failed : Bool)
  | sendAsync (thread : Thread) (env : Env) (buffer : ByteString)
  | disconnect (thread : Thread) (env : Env)

/-- Calls that send something, and what follows from them. -/
def Event.Sends : Event → Prop
  | .sendAsync _ _ buffer => buffer ≠ []
  | .trySend _ | .completeWrite _ _ | .writeHandler _ _ => True
  | _ => False

namespace State

/-- A read completes on an open socket, with no more bytes than the receive buffer holds. -/
def completeRead (i : ℕ) (result : ReadResult) (s : State) : Option State :=
  match s.reads[i]? with
  | some none =>
    match result with
    | .failed => some { s with reads := s.reads.set i (some .failed) }
    | .received chunk =>
      if s.isOpen && chunk.size ≤ s.receiveBufferSize then
        some { s with reads := s.reads.set i (some (.received chunk)) }
      else none
  | _ => none

/-- A write completes on an open socket, after it has taken some of the requested bytes; without
an error it has taken at least one. -/
def completeWrite (i : ℕ) (result : WriteResult) (s : State) : Option State :=
  match s.writes[i]? with
  | some ⟨requested, none⟩ =>
    if s.isOpen && result.size ≤ requested.length && (result.failed || result.size != 0) then
      some { s with
        wire := s.wire ++ requested.take result.size
        writes := s.writes.set i ⟨requested, some result⟩ }
    else none
  | _ => none

def readHandler (i : ℕ) (env : Env) (respond : Respond) (s : State) : Option State :=
  match s.reads[i]? with
  | some (some result) =>
    { s with reads := s.reads.eraseIdx i }.asyncReceiveHandler env respond result
  | _ => none

/-- The bytes that a write's handler is told of are reported. -/
def writeHandler (i : ℕ) (env : Env) (s : State) : Option State :=
  match s.writes[i]? with
  | some ⟨requested, some result⟩ =>
    some ({ s with
      writes := s.writes.eraseIdx i
      reported := s.reported ++ requested.take result.size }.asyncWriteHandler env result)
  | _ => none

/-- The state after an event, if the event can happen and no exception leaves the handler. -/
def next (s : State) : Event → Option State
  | .completeRead i result => s.completeRead i result
  | .completeWrite i result => s.completeWrite i result
  | .readHandler i env respond => s.readHandler i env respond
  | .writeHandler i env => s.writeHandler i env
  | .trySend env =>
    if s.trySends = 0 then none else some ({ s with trySends := s.trySends - 1 }.trySend env)
  | .disconnectHandler env =>
    if s.disconnects = 0 then none
    else some ({ s with disconnects := s.disconnects - 1 }.disconnectHandler env)
  | .disconnectSession env _ => some (s.disconnectSession env)
  | .sendAsync thread env buffer => s.sendAsync thread env buffer
  | .disconnect thread env => some (s.disconnect thread env)

abbrev Run : State → List (Transition State Event) → State → Prop := Transitions.Run next

end State

end Webcrown.Server
