import Mathlib.Data.List.AList
import Manytrace.Core.Machine
import Manytrace.Mpscbuf.Common

/-! The agent's side of the control protocol: `AgentState`, its three handlers, and the
listener loop that removes every client a handler has asked to delete. What the system
and the extension answer is part of each event. -/
namespace Manytrace.Agent
open Manytrace.Core

/-- `protocol::VERSION`. -/
def version : String := "0.1"

/-- `RANDOM_PROCESS_ID_OPTION`. -/
def randomProcessIdOption : String := "random_process_id"

inductive TimestampType
  | monotonic
  | boottime
  | realtime
deriving DecidableEq, Repr

structure TracingArgs where
  logFilter : String
  timestampType : TimestampType
deriving DecidableEq, Repr

/-- A float is its 64 bits. -/
inductive Value
  | string (s : String)
  | int (i : ℤ)
  | float (bits : UInt64)
  | bool (b : Bool)
deriving DecidableEq, Repr

structure Args where
  tracing : Option TracingArgs
  options : List (String × Value)
deriving DecidableEq, Repr

inductive ControlMessage
  | start (bufferSize : ℕ) (args : Args)
  | stop
  | continue_
  | ack
  | nack (error : String)
  | version
  | versionResponse (version : String)
deriving DecidableEq, Repr

inductive Action
  | sendMessage (clientId : ℕ) (message : ControlMessage)
  | deleteEpoll (clientId : ℕ)
deriving DecidableEq, Repr

/-- The state of one client. -/
inductive Phase
  | pending
  | started
deriving DecidableEq, Repr

structure AgentClientState where
  state : Phase
  timestampNs : ℕ
deriving DecidableEq, Repr

/-- `current_time.saturating_sub(timestamp) <= timeout`. -/
def AgentClientState.timer (client : AgentClientState) (timeoutNs currentTime : ℕ) : Bool :=
  currentTime - client.timestampNs ≤ timeoutNs

inductive MessageResult
  | continue_
  | started
  | disconnect
  | error (e : Mpscbuf.MpscBufError)
deriving DecidableEq, Repr

structure AgentState where
  clients : AList (fun _ : ℕ => AgentClientState)
  startedClient : Option ℕ
  nextClientId : ℕ
  anotherStarted : Bool
  timeoutNs : ℕ
  /-- Whether there is a tracing extension. -/
  tracingExtension : Bool
  extensionActive : Bool

inductive Panic
  | missingClient
  | arithmeticOverflow
deriving DecidableEq, Repr

/-- What a handler does to the outside, in order. -/
inductive Output
  | action (a : Action)
  | extensionStart (args : TracingArgs) (result : Except String Unit)
  | extensionStop
  | submitProcess (name : String) (pid : ℤ)
  | panicked (p : Panic)

namespace AgentState

def new (timeoutMs : ℕ) (tracingExtension : Bool) : AgentState where
  clients := ∅
  startedClient := none
  nextClientId := 1
  anotherStarted := false
  timeoutNs := timeoutMs * 1000000
  tracingExtension := tracingExtension
  extensionActive := false

def removeClient (st : AgentState) (token : ℕ) : AgentState :=
  { st with clients := st.clients.erase token }

/-- `get_next_client_id` and `register_client`. -/
def accept (st : AgentState) (now : ℕ) : AgentState × List Output :=
  if st.nextClientId + 1 < 2 ^ 64 then
    ({ st with
        clients := st.clients.insert st.nextClientId ⟨.pending, now⟩
        nextClientId := st.nextClientId + 1 }, [])
  else (st, [.panicked .arithmeticOverflow])

/-- The stop of the extension, as in `handle_disconnect` and in `timer`. -/
def stopExtension (st : AgentState) : AgentState × List Output :=
  if st.extensionActive && st.tracingExtension then
    ({ st with extensionActive := false }, [.extensionStop])
  else (st, [])

def handleDisconnect (st : AgentState) (clientId : ℕ) : AgentState × List Output :=
  if st.startedClient = some clientId then
    let r := st.stopExtension
    ({ r.1 with anotherStarted := false, startedClient := none },
      r.2 ++ [.action (.deleteEpoll clientId)])
  else (st, [.action (.deleteEpoll clientId)])

/-- The pending clients that have timed out. Each reads the clock on its own. -/
def expiredPending (st : AgentState) (clock : ℕ → ℕ) : List ℕ :=
  st.clients.entries.filterMap fun e =>
    if some e.1 = st.startedClient then none
    else if e.2.timer st.timeoutNs (clock e.1) then none
    else some e.1

def timer (st : AgentState) (clock : ℕ → ℕ) : AgentState × List Output :=
  let pending := (st.expiredPending clock).map fun c => .action (.deleteEpoll c)
  match st.startedClient with
  | none => (st, pending)
  | some clientId =>
    match st.clients.lookup clientId with
    | none => (st, [.panicked .missingClient])
    | some client =>
      if client.timer st.timeoutNs (clock clientId) then (st, pending)
      else
        let r := st.stopExtension
        ({ r.1 with startedClient := none, anotherStarted := false },
          pending ++ .action (.deleteEpoll clientId) :: r.2)

end AgentState

/-- The agent and the process id it reports in its events. -/
structure AgentProcess where
  state : AgentState
  processId : ℤ

/-- What the system and the extension answer during one `handle_message`. -/
structure Env where
  /-- Whether `fcntl(F_GETFD)` succeeds. -/
  fdValid : ℤ → Bool
  producerNew : ℕ → Except Mpscbuf.MpscBufError Unit
  random : ℤ
  /-- The file name of `current_exe`, if there is one and it is UTF-8. -/
  currentExe : Option (Option String)
  extensionStart : Except String Unit
  now : ℕ

def validateAndConvertFd (env : Env) (rawFd : ℤ) : Bool := 0 ≤ rawFd && env.fdValid rawFd

/-- The process id after a start, `none` if `i32::abs` overflows. -/
def chooseProcessId (osPid current random : ℤ) : Option Value → Option ℤ
  | some (.bool true) => if random = -2 ^ 31 then none else some |random|
  | some (.bool false) | none => some osPid
  | some _ => some current

def reply (clientId : ℕ) (message : ControlMessage) : Output :=
  .action (.sendMessage clientId message)

/-- The process track the agent submits before it starts the extension. -/
def processTrack (env : Env) (pid : ℤ) : List Output :=
  env.currentExe.toList.map fun name => .submitProcess (name.getD "unknown") pid

/-- A `Start` from a pending client. The result is `none` where the source returns early. -/
def handleStart (osPid : ℤ) (a : AgentProcess) (clientId bufferSize : ℕ) (args : Args)
    (rawFds : List ℤ) (env : Env) : AgentProcess × List Output × Option MessageResult :=
  if a.state.anotherStarted then
    (a, [reply clientId (.nack "another client already started")], none)
  else
    match args.tracing, rawFds with
    | none, _ => (a, [reply clientId (.nack "at least one arg must be non-empty")], none)
    | some tracingArgs, memoryFd :: notificationFd :: _ =>
      if !validateAndConvertFd env memoryFd || !validateAndConvertFd env notificationFd then
        (a, [reply clientId (.nack "invalid file descriptors")], none)
      else
        match env.producerNew bufferSize with
        | .error e => (a, [], some (.error e))
        | .ok () =>
          match chooseProcessId osPid a.processId env.random
              (args.options.lookup randomProcessIdOption) with
          | none => (a, [.panicked .arithmeticOverflow], none)
          | some pid =>
            if a.state.tracingExtension then
              match env.extensionStart with
              | .ok () =>
                (⟨{ a.state with extensionActive := true }, pid⟩,
                  processTrack env pid ++
                    [.extensionStart tracingArgs (.ok ()), reply clientId .ack],
                  some .started)
              | .error msg =>
                (⟨a.state, pid⟩,
                  processTrack env pid ++
                    [.extensionStart tracingArgs (.error msg), reply clientId (.nack msg)],
                  none)
            else (⟨a.state, pid⟩, processTrack env pid ++ [reply clientId .ack], some .started)
    | some _, _ => (a, [reply clientId (.nack "missing file descriptors")], none)

/-- The reaction to a message from a known client. -/
def handleClient (osPid : ℤ) (a : AgentProcess) (clientId : ℕ) (client : AgentClientState)
    (msg : ControlMessage) (rawFds : List ℤ) (env : Env) :
    AgentProcess × List Output × Option MessageResult :=
  match client.state, msg with
  | .pending, .start bufferSize args => handleStart osPid a clientId bufferSize args rawFds env
  | .started, .stop => (a, [reply clientId .ack], some .disconnect)
  | .started, .continue_ =>
    ({ a with state.clients :=
        a.state.clients.insert clientId { client with timestampNs := env.now } },
      [reply clientId .ack], some .continue_)
  | _, _ => (a, [], some .continue_)

def handleMessage (osPid : ℤ) (a : AgentProcess) (clientId : ℕ) (msg : ControlMessage)
    (rawFds : List ℤ) (env : Env) : AgentProcess × List Output :=
  if msg = .version then (a, [reply clientId (.versionResponse version)])
  else
    match a.state.clients.lookup clientId with
    | none => (a, [])
    | some client =>
      let r := handleClient osPid a clientId client msg rawFds env
      match r.2.2 with
      | none | some .continue_ => (r.1, r.2.1)
      | some .started =>
        ({ r.1 with state := { r.1.state with
            anotherStarted := true
            startedClient := some clientId
            clients := r.1.state.clients.insert clientId ⟨.started, env.now⟩ } }, r.2.1)
      | some .disconnect | some (.error _) =>
        let d := r.1.state.handleDisconnect clientId
        ({ r.1 with state := d.1 }, r.2.1 ++ d.2)

inductive AgentEvent
  | accept (now : ℕ)
  | message (clientId : ℕ) (msg : ControlMessage) (rawFds : List ℤ) (env : Env)
  | disconnect (clientId : ℕ)
  | timer (clock : ℕ → ℕ)

def Output.deleted? : Output → Option ℕ
  | .action (.deleteEpoll c) => some c
  | _ => none

/-- The clients `process_actions` reports for removal. -/
def deletedClients (os : List Output) : List ℕ := os.filterMap Output.deleted?

/-- The listener removes what the handler has asked to delete. -/
def removeDeleted (r : AgentProcess × List Output) : AgentProcess × List Output :=
  ({ r.1 with state := (deletedClients r.2).foldl AgentState.removeClient r.1.state }, r.2)

/-- The events of `epoll_listener_thread`, one handler call each. -/
def agentLoop (osPid : ℤ) : Machine AgentProcess AgentEvent Output where
  step a
    | .accept now =>
      let r := a.state.accept now
      removeDeleted ({ a with state := r.1 }, r.2)
    | .message clientId msg rawFds env =>
      removeDeleted (handleMessage osPid a clientId msg rawFds env)
    | .disconnect clientId =>
      let r := a.state.handleDisconnect clientId
      removeDeleted ({ a with state := r.1 }, r.2)
    | .timer clock =>
      let r := a.state.timer clock
      removeDeleted ({ a with state := r.1 }, r.2)

end Manytrace.Agent
