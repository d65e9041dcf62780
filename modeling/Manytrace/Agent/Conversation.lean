import Manytrace.Core.Channel
import Manytrace.Agent.Client

/-! One client and the agent on a stream, in atomic steps: a call sends its request and waits,
the agent takes what lies in its socket, and the wait ends with a reply, with an error or too
late. `access` is what `rkyv` makes of the messages that are read at once. -/
namespace Manytrace.Agent
open Manytrace.Core

/-- What becomes of a request before it is out. -/
structure Posting where
  serialize : Except AgentError Unit
  send : Except Errno Unit
deriving DecidableEq

def Posting.goesOut (p : Posting) : Bool := p.serialize.isOk && p.send.isOk

def Posting.answered (p : Posting) (a : Answer) : Exchange := ⟨p.serialize, p.send, a⟩

/-- A call of the client, without what comes back. -/
inductive Operation
  | checkVersion (k : Connecting) (p : Posting)
  | startWithOptions (k : Connecting) (p : Posting) (o : StartOptions) (q : Posting)
  | stop (p : Posting)
  | sendContinue (p : Posting)
deriving DecidableEq

namespace Operation

/-- The call that the operation is once its answers are there. Only a start has two. -/
def call (first second : Answer) : Operation → ClientCall
  | checkVersion k p => .checkVersion k (p.answered first)
  | startWithOptions k p _ q => .start k (p.answered first) (q.answered second)
  | stop p => .stop (p.answered first)
  | sendContinue p => .sendContinue (p.answered first)

/-- The client when the first request is sent. -/
def opened (c : AgentClient) : Operation → AgentClient
  | checkVersion k _ | startWithOptions k _ _ _ => (connectOrReuse k c).2
  | stop _ | sendContinue _ => c

def posting : Operation → Posting
  | checkVersion _ p | startWithOptions _ p _ _ | stop p | sendContinue p => p

def request : Operation → ControlMessage
  | checkVersion _ _ | startWithOptions _ _ _ _ => .version
  | stop _ => .stop
  | sendContinue _ => .continue_

end Operation

/-- An operation whose request `number` is out. -/
structure Waiting where
  op : Operation
  number : ℕ
  /-- What a start has heard about the version, when it waits for its second answer. -/
  versionAnswer : Option Answer
deriving DecidableEq

/-- The agent's end of the stream. -/
inductive Link
  | connecting
  | accepted (clientId : ℕ)
  | closed
deriving DecidableEq

structure Conversation where
  run : ClientRun
  agent : AgentProcess
  link : Link
  channel : Channel ControlMessage ControlMessage
  waiting : Option Waiting
  sent : ℕ

inductive Wake
  | timeout
  | failed (e : Errno)
  | recvFailed (e : Errno)
  /-- The client finds at most `n + 1` replies. -/
  | recv (n : ℕ)

inductive TalkEvent
  | call (op : Operation)
  | wake (w : Wake)
  | accept (now : ℕ)
  /-- The agent finds at most `n + 1` requests and these descriptors; `delivered` says whether
  its reply can be sent. -/
  | receive (n : ℕ) (rawFds : List ℤ) (env : Env) (delivered : Bool)
  /-- What the agent does about its other clients, and its timer. -/
  | agent (ev : AgentEvent)

inductive TalkOutput
  | returned (call : ClientCall) (result : Except AgentError Unit)
  /-- The operation that waits for the answer to `number` has read `data`. -/
  | read (number : ℕ) (data : List (List ℕ × ControlMessage))
deriving DecidableEq

/-- The message that `process_actions` sends to the client, if it is one. -/
def Output.replyTo? (clientId : ℕ) : Output → Option ControlMessage
  | .action (.sendMessage c message) => if c = clientId then some message else none
  | _ => none

def repliesTo (clientId : ℕ) (os : List Output) : List ControlMessage :=
  os.filterMap (Output.replyTo? clientId)

/-- A message from the client itself. -/
def AgentEvent.isFrom (clientId : ℕ) : AgentEvent → Bool
  | .message c _ _ _ => c = clientId
  | _ => false

namespace Conversation

def new (a : AgentProcess) : Conversation := ⟨.new, a, .connecting, .empty, none, 0⟩

def post (s : Conversation) (op : Operation) (versionAnswer : Option Answer)
    (request : ControlMessage) : Conversation :=
  { s with
    channel := if s.link = .closed then s.channel else s.channel.post s.sent request
    waiting := some ⟨op, s.sent, versionAnswer⟩
    sent := s.sent + 1 }

/-- The call returns. A stream that it has dropped is gone with what was under way. -/
def finish (s : Conversation) (op : Operation) (first second : Answer) :
    Conversation × List TalkOutput :=
  let r := clientLoop.step s.run (op.call first second)
  let s := { s with run := r.1, waiting := none }
  (if r.1.client.enabled then s else { s with link := .connecting, channel := .empty },
    r.2.map (.returned (op.call first second)))

def call (s : Conversation) (op : Operation) : Conversation × List TalkOutput :=
  match s.waiting with
  | some _ => (s, [])
  | none =>
    let client := op.opened s.run.client
    if client.enabled && op.posting.goesOut then
      (post { s with run.client := client } op none op.request, [])
    else s.finish op .timeout .timeout

/-- The operation goes on with its answer. A start that has heard about the version sends its
own message. -/
def resume (s : Conversation) (w : Waiting) (a : Answer) : Conversation × List TalkOutput :=
  match w.versionAnswer, w.op with
  | some v, op => s.finish op v a
  | none, .startWithOptions k p o q =>
    if (checkVersion k (p.answered a) s.run.client).1.isOk && q.goesOut then
      (s.post w.op (some a) o.message, [])
    else s.finish w.op a .timeout
  | none, op => s.finish op a .timeout

/-- `epoll` reports nothing. -/
def silent (s : Conversation) : Bool := s.channel.replies.isEmpty && s.link ≠ .closed

def wake (access : List ControlMessage → Option ControlMessage) (s : Conversation) (k : Wake) :
    Conversation × List TalkOutput :=
  match s.waiting with
  | none => (s, [])
  | some w =>
    match k with
    | .timeout => if s.silent then s.resume w .timeout else (s, [])
    | .failed e => s.resume w (.failed e)
    | .recvFailed e => s.resume w (.received (.error e))
    | .recv n =>
      if s.silent then (s, [])
      else
        let data := s.channel.replies.take (n + 1)
        let r := resume { s with channel := s.channel.take (n + 1) } w
          (.received (.ok (access (data.map Prod.snd))))
        (r.1, .read w.number data :: r.2)

/-- The agent has done `r` about its client `c`, having taken `n` requests. -/
def absorb (s : Conversation) (c n : ℕ) (delivered : Bool) (r : AgentProcess × List Output) :
    Conversation :=
  let channel := s.channel.serve n (if delivered then repliesTo c r.2 else [])
  if c ∈ deletedClients r.2 then
    { s with agent := r.1, link := .closed, channel := channel.hangUp }
  else { s with agent := r.1, channel := channel }

def receive (access : List ControlMessage → Option ControlMessage) (osPid : ℤ)
    (s : Conversation) (n : ℕ) (rawFds : List ℤ) (env : Env) (delivered : Bool) :
    Conversation :=
  match s.link with
  | .accepted c =>
    if s.channel.requests = [] then s
    else
      match access ((s.channel.requests.take (n + 1)).map Prod.snd) with
      | none => { s with channel := s.channel.serve (n + 1) [] }
      | some m =>
        s.absorb c (n + 1) delivered
          ((agentLoop osPid).step s.agent (.message c m rawFds env))
  | _ => s

def accept (osPid : ℤ) (s : Conversation) (now : ℕ) : Conversation :=
  if s.link = .connecting ∧ s.run.client.enabled = true then
    { s with
      agent := ((agentLoop osPid).step s.agent (.accept now)).1
      link := if s.agent.state.nextClientId + 1 < 2 ^ 64 then
        .accepted s.agent.state.nextClientId else .connecting }
  else s

def agentEvent (osPid : ℤ) (s : Conversation) (ev : AgentEvent) : Conversation :=
  let r := (agentLoop osPid).step s.agent ev
  match s.link with
  | .accepted c => if ev.isFrom c then s else s.absorb c 0 true r
  | _ => { s with agent := r.1 }

end Conversation

def conversation (access : List ControlMessage → Option ControlMessage) (osPid : ℤ) :
    Machine Conversation TalkEvent TalkOutput where
  step s
    | .call op => s.call op
    | .wake w => s.wake access w
    | .accept now => (s.accept osPid now, [])
    | .receive n rawFds env delivered => (s.receive access osPid n rawFds env delivered, [])
    | .agent ev => (s.agentEvent osPid ev, [])

end Manytrace.Agent
