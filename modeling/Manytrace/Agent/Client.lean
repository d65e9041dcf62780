import Manytrace.Core.Op
import Manytrace.Agent.AgentState

/-! The client of an agent. It opens its stream when it first needs one and drops it by hand
on some of the error paths; the stream is also how it tells whether it is enabled. -/
namespace Manytrace.Agent
open Manytrace.Core

inductive Errno
  | eagain
  | epipe
  | other (code : ℕ)
deriving DecidableEq, Repr

inductive IoErrorKind
  | timedOut
  | wouldBlock
  | other
deriving DecidableEq, Repr

inductive AgentError
  | io (kind : IoErrorKind) (message : String)
  | nix (e : Errno)
  | mpscbuf (e : Mpscbuf.MpscBufError)
  | archive
  | notEnabled
deriving DecidableEq, Repr

/-- A stream is the number of its connection. -/
structure AgentClient where
  stream : Option ℕ
  connections : ℕ
deriving DecidableEq, Repr

def AgentClient.new : AgentClient := ⟨none, 0⟩

def AgentClient.enabled (c : AgentClient) : Bool := c.stream.isSome

abbrev ClientOp (α : Type) := Op AgentClient AgentError α

/-- What the system answers when a connection is opened. -/
structure Connecting where
  connect : Except AgentError Unit
  setNonblocking : Except AgentError Unit
deriving DecidableEq

/-- What the client finds when it waits for a reply: an error of `epoll`, nothing in time, or
what `recv` returns, with the message in it if it is one. -/
inductive Answer
  | failed (e : Errno)
  | timeout
  | received (r : Except Errno (Option ControlMessage))
deriving DecidableEq

/-- A request: its serialization, its way out, and what comes back. -/
structure Exchange where
  serialize : Except AgentError Unit
  send : Except Errno Unit
  answer : Answer
deriving DecidableEq

def waitForResponse : Answer → Except AgentError (Option ControlMessage)
  | .failed e => .error (.nix e)
  | .timeout => .error (.io .timedOut "timeout waiting for agent response")
  | .received (.error .eagain) => .error (.io .wouldBlock "no data available")
  | .received (.error e) => .error (.nix e)
  | .received (.ok r) => .ok r

def connectOrReuse (k : Connecting) : ClientOp ℕ := do
  let c ← Op.get
  match c.stream with
  | some stream => pure stream
  | none =>
    Op.lift k.connect
    Op.lift k.setNonblocking
    Op.modify fun c => ⟨some c.connections, c.connections + 1⟩
    pure c.connections

def dropStream : ClientOp Unit := Op.modify fun c => { c with stream := none }

/-- The version that the agent reports is not looked at. -/
def checkVersion (k : Connecting) (x : Exchange) : ClientOp String := do
  let _ ← connectOrReuse k
  Op.lift x.serialize
  Op.lift (x.send.mapError .nix)
  match ← Op.lift (waitForResponse x.answer) with
  | none => Op.fail .archive
  | some (.versionResponse _) => pure version
  | some _ => Op.fail (.io .other "unexpected response from agent")

/-- What a start is about; `dataSize` is the size of the consumer's data. -/
structure StartOptions where
  dataSize : ℕ
  logFilter : String
  timestampType : TimestampType
  options : List (String × Value)
deriving DecidableEq, Repr

def StartOptions.message (o : StartOptions) : ControlMessage :=
  .start o.dataSize ⟨some ⟨o.logFilter, o.timestampType⟩, o.options⟩

/-- `v` is the request for the version, `x` the start itself. -/
def startWithOptions (k : Connecting) (v x : Exchange) : ClientOp Unit := do
  let found ← checkVersion k v
  if found ≠ version then
    dropStream
    Op.fail (.io .other ("version mismatch: agent version " ++ found ++ " != client version " ++
      version))
  else
    let _ ← connectOrReuse k
    Op.lift x.serialize
    match x.send with
    | .error e =>
      dropStream
      Op.fail (.nix e)
    | .ok () =>
      match waitForResponse x.answer with
      | .error e =>
        dropStream
        Op.fail e
      | .ok none =>
        dropStream
        Op.fail .archive
      | .ok (some .ack) => pure ()
      | .ok (some (.nack error)) =>
        dropStream
        Op.fail (.io .other ("agent rejected start: " ++ error))
      | .ok (some _) =>
        dropStream
        Op.fail (.io .other "unexpected response from agent")

/-- What comes back is read and not looked at. -/
def stop (x : Exchange) : ClientOp Unit := do
  let c ← Op.get
  match c.stream with
  | none => pure ()
  | some _ =>
    Op.lift x.serialize
    match x.send with
    | .ok () => dropStream
    | .error .eagain => Op.fail (.io .wouldBlock "stop message would block")
    | .error .epipe => dropStream
    | .error e => Op.fail (.nix e)

def sendContinue (x : Exchange) : ClientOp Unit := do
  let c ← Op.get
  match c.stream with
  | none => pure ()
  | some _ =>
    Op.lift x.serialize
    match x.send with
    | .ok () =>
      match ← Op.lift (waitForResponse x.answer) with
      | none => Op.fail .archive
      | some .ack => pure ()
      | some (.nack error) => Op.fail (.io .other error)
      | some _ => Op.fail (.io .other "unexpected response from agent")
    | .error .eagain => Op.fail (.io .wouldBlock "continue message would block")
    | .error e => Op.fail (.nix e)

def keepalive (x : Exchange) : ClientOp Unit := do
  let c ← Op.get
  if c.enabled then sendContinue x else Op.fail .notEnabled

inductive ClientCall
  | checkVersion (k : Connecting) (x : Exchange)
  | start (k : Connecting) (v x : Exchange)
  | stop (x : Exchange)
  | sendContinue (x : Exchange)
  | keepalive (x : Exchange)
deriving DecidableEq

/-- A client, and whether the most recent start has succeeded with no completed stop since
then, which is history. -/
structure ClientRun where
  client : AgentClient
  session : Bool
deriving DecidableEq

def ClientRun.new : ClientRun := ⟨.new, false⟩

/-- The calls one after another, with what they return. -/
def clientLoop : Machine ClientRun ClientCall (Except AgentError Unit) where
  step s
    | .checkVersion k x =>
      let r := checkVersion k x s.client
      (⟨r.2, s.session⟩, [r.1.map fun _ => ()])
    | .start k v x =>
      let r := startWithOptions k v x s.client
      (⟨r.2, r.1.isOk⟩, [r.1])
    | .stop x =>
      let r := stop x s.client
      (⟨r.2, s.session && !r.1.isOk⟩, [r.1])
    | .sendContinue x =>
      let r := sendContinue x s.client
      (⟨r.2, s.session⟩, [r.1])
    | .keepalive x =>
      let r := keepalive x s.client
      (⟨r.2, s.session⟩, [r.1])

end Manytrace.Agent
