import Webcrown.Server.SessionRuns

/-!
# The server

The accept loop over the sessions it creates. A session object is its index among those
created; `sessions_` and the handlers refer to it. The timer of a session is a local
variable of the accept handler, so its wait is still pending when it is destroyed.
-/

namespace Webcrown.Server

open Http Transitions

/-- An outstanding `async_accept` for a session, with whether it has failed once completed. -/
structure Accept where
  session : SessionRef
  failed : Option Bool
  deriving DecidableEq

/-- An outstanding `async_wait` on the timer of a session, likewise. -/
structure Timer where
  session : SessionRef
  failed : Option Bool
  deriving DecidableEq

structure WebServer where
  started : Bool
  lastSessionId : UInt64
  objects : List Session
  sessions : Sessions
  accepts : List Accept
  timers : List Timer

namespace WebServer

def listening : WebServer where
  started := true
  lastSessionId := 0
  objects := []
  sessions := ∅
  accepts := []
  timers := []

/-- A call that a session makes or a handler of its own. -/
def onSession (r : SessionRef) (f : State → Option State) (v : WebServer) : Option WebServer :=
  match v.objects[r]? with
  | none => none
  | some s =>
    (f ⟨s, v.sessions⟩).map fun t =>
      { v with objects := v.objects.set r t.toSession, sessions := t.sessions }

def createSession (id : UInt64) (m : Uninitialised) (v : WebServer) : SessionRef × WebServer :=
  (v.objects.length, { v with objects := v.objects ++ [Session.fresh id m] })

/-- `register_session`, whose `emplace` keeps a session already there. -/
def registerSession (id : UInt64) (r : SessionRef) (v : WebServer) : WebServer :=
  { v with sessions := if id ∈ v.sessions then v.sessions else v.sessions.insert id r }

/-- `accept` on the I/O thread, which makes a session with the uninitialised members `m`. -/
def accept (m : Uninitialised) (v : WebServer) : WebServer :=
  if !v.started then v
  else
    let sessionId := v.lastSessionId + 1
    let (r, v) := { v with lastSessionId := sessionId }.createSession sessionId m
    let v := v.registerSession sessionId r
    { v with accepts := v.accepts ++ [⟨r, none⟩] }

def asyncWait (r : SessionRef) (v : WebServer) : WebServer :=
  { v with timers := v.timers ++ [⟨r, none⟩] }

/-- The destructor of a timer: a pending wait completes with `operation_aborted`. -/
def destroyTimer (i : ℕ) (v : WebServer) : WebServer :=
  { v with timers := v.timers.modify i fun w => { w with failed := w.failed.or (some true) } }

/-- `async_accept_handler`. The timer goes out of scope when the handler returns. -/
def asyncAcceptHandler (bufferSize : ℕ) (m : Uninitialised) (a : SessionRef) (failed : Bool)
    (v : WebServer) : Option WebServer :=
  if failed then some v
  else
    (v.onSession a fun s => some (s.connect bufferSize)).map fun v =>
      ((v.asyncWait a).accept m).destroyTimer v.timers.length

/-- `stop` without its assertion, which says the opposite of its test. -/
def stop (v : WebServer) : WebServer := if !v.started then v else { v with started := false }

inductive Event
  /-- a handler or a call of a session, not of its timer -/
  | session (r : SessionRef) (e : Server.Event)
  /-- an accept completes, which opens the session's socket unless it fails -/
  | completeAccept (i : ℕ) (failed : Bool)
  /-- the handler of a completed accept runs -/
  | acceptHandler (i bufferSize : ℕ) (m : Uninitialised)
  /-- a timer runs out -/
  | expire (i : ℕ)
  /-- the handler `disconnect_session` of a completed wait runs -/
  | timerHandler (i : ℕ) (env : Env)
  | stop

def completeAccept (i : ℕ) (failed : Bool) (v : WebServer) : Option WebServer :=
  match v.accepts[i]? with
  | some ⟨r, none⟩ =>
    { v with accepts := v.accepts.set i ⟨r, some failed⟩ }.onSession r fun s =>
      some { s with isOpen := s.isOpen || !failed }
  | _ => none

def acceptHandler (i bufferSize : ℕ) (m : Uninitialised) (v : WebServer) : Option WebServer :=
  match v.accepts[i]? with
  | some ⟨r, some failed⟩ =>
    { v with accepts := v.accepts.eraseIdx i }.asyncAcceptHandler bufferSize m r failed
  | _ => none

def expire (i : ℕ) (v : WebServer) : Option WebServer :=
  match v.timers[i]? with
  | some ⟨r, none⟩ => some { v with timers := v.timers.set i ⟨r, some false⟩ }
  | _ => none

def timerHandler (i : ℕ) (env : Env) (v : WebServer) : Option WebServer :=
  match v.timers[i]? with
  | some ⟨r, some _⟩ =>
    { v with timers := v.timers.eraseIdx i }.onSession r fun s => some (s.disconnectSession env)
  | _ => none

/-- The state after an event, if the event can happen and no exception leaves the handler. -/
def next (v : WebServer) : Event → Option WebServer
  | .session _ (.disconnectSession _ _) => none
  | .session r e => v.onSession r fun s => s.next e
  | .completeAccept i failed => v.completeAccept i failed
  | .acceptHandler i bufferSize m => v.acceptHandler i bufferSize m
  | .expire i => v.expire i
  | .timerHandler i env => v.timerHandler i env
  | .stop => some v.stop

abbrev Run : WebServer → List (Transition WebServer Event) → WebServer → Prop :=
  Transitions.Run next

end WebServer

end Webcrown.Server
