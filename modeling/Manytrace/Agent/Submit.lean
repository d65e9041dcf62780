import Manytrace.Mpscbuf.RingBuf

/-! Submission of events: `Producer::submit` and `AgentHandle::submit` over the ring, for any
number of threads. The outputs of the machine are the steps of the ring. -/
namespace Manytrace.Agent
open Manytrace.Core Manytrace.Mpscbuf

/-- A record to submit: its length, or `none` if `compute_length` fails, what
`serialize_to_buf` stores into the buffer, and whether it succeeds. -/
structure Submission where
  length : Option ℕ
  stores : List (ℕ × UInt8)
  serialized : Bool
deriving DecidableEq, Repr

/-- Where a thread is in `Producer::submit`. The event that is to follow the track of the
thread is `next`. -/
inductive SubmitPc
  | idle
  | reserving (x : Submission) (next : Option Submission)
  | serializing (stores : List (ℕ × UInt8)) (serialized : Bool) (next : Option Submission)
  | dropping (serialized : Bool) (next : Option Submission)
deriving DecidableEq, Repr

/-- The submissions so far, and those that returned an error: for lack of space, or for
another reason. Of the latter `cut` have left a record. This is history. -/
structure Tally where
  attempted : ℕ
  noSpace : ℕ
  failed : ℕ
  cut : ℕ
deriving DecidableEq, Repr

def lacksSpace : Failure → Bool
  | .error (.insufficientSpace _ _ _) => true
  | _ => false

def Tally.fail (t : Tally) (f : Failure) : Tally :=
  if lacksSpace f then { t with noSpace := t.noSpace + 1 } else { t with failed := t.failed + 1 }

/-- The ring, the threads, and `thread_names_sent`. -/
structure Submitting (ι : Type*) where
  ring : State ι
  threads : ι → SubmitPc
  nameSent : ι → Bool
  tally : Tally

inductive SubmitAct (ι : Type*)
  /-- `Producer::submit`. -/
  | submit (p : ι) (x : Submission)
  /-- `AgentHandle::submit`; `track` names the thread, if it has a name. -/
  | handleSubmit (p : ι) (track : Option Submission) (x : Submission)
  /-- The next atomic step of a thread; at the lock it may give up. -/
  | advance (p : ι) (timeout : Bool)
  | consumer (a : ConsumerAct)
deriving DecidableEq

/-- The next step of a `reserve`. -/
def reserveAct (timeout : Bool) : ProducerPc → ProducerAct
  | .loadedConsumer _ _ _ => if timeout then .timeout else .lock
  | .locked _ _ _ => .loadProducer
  | .admitted _ _ _ => .writeHeader
  | .headerWritten _ _ _ => .storeProducer
  | _ => .unlock

/-- The next step of the drop of a buffer, after its first. -/
def dropAct : ProducerPc → ProducerAct
  | .committing _ => .commitLoad
  | .commitLoaded _ _ => .commitStore
  | _ => .notify

def failure? {ι : Type*} (evs : List (Event ι)) : Option Failure :=
  evs.findSome? fun
    | .failed _ f => some f
    | _ => none

namespace Submitting
variable {ι : Type*}

def init : Submitting ι := ⟨.init, fun _ => .idle, fun _ => false, ⟨0, 0, 0, 0⟩⟩

variable [DecidableEq ι] (M : Memory) (wakeup : ι → WakeupStrategy)

def setThread (s : Submitting ι) (p : ι) (pc : SubmitPc) : Submitting ι :=
  { s with threads := Function.update s.threads p pc }

def fail (s : Submitting ι) (p : ι) (f : Failure) : Submitting ι :=
  { s.setThread p .idle with tally := s.tally.fail f }

/-- `Producer::submit` up to the first step of `reserve`. -/
def submit (s : Submitting ι) (p : ι) (x : Submission) (next : Option Submission) :
    Submitting ι × List (Act ι) :=
  let s := { s with tally.attempted := s.tally.attempted + 1 }
  match x.length with
  | none => ({ s.setThread p .idle with tally.failed := s.tally.failed + 1 }, [])
  | some size =>
    let r := producerStep M wakeup s.ring p (.reserve size)
    let s := { s with ring := r.1 }
    (match failure? r.2 with
      | some f => s.fail p f
      | none => s.setThread p (.reserving x next), [.producer p (.reserve size)])

/-- `AgentHandle::submit`. -/
def handleSubmit (s : Submitting ι) (p : ι) (track : Option Submission) (x : Submission) :
    Submitting ι × List (Act ι) :=
  if s.nameSent p then s.submit M wakeup p x none
  else
    match track with
    | some t => s.submit M wakeup p t (some x)
    | none => submit M wakeup { s with nameSent := Function.update s.nameSent p true } p x none

/-- `Producer::submit` returns after the drop of its buffer. The drop has committed the record
even if the serialization failed. -/
def finish (s : Submitting ι) (p : ι) (serialized : Bool) (next : Option Submission) :
    Submitting ι × List (Act ι) :=
  if serialized then
    match next with
    | some x => submit M wakeup { s with nameSent := Function.update s.nameSent p true } p x none
    | none => (s.setThread p .idle, [])
  else
    ({ s.setThread p .idle with
        tally := { s.tally with failed := s.tally.failed + 1, cut := s.tally.cut + 1 } }, [])

/-- After a step of `reserve`: it has failed, it has returned a buffer, or it goes on. -/
def reserved (s : Submitting ι) (p : ι) (x : Submission) (next : Option Submission)
    (r : State ι × List (Event ι)) : Submitting ι :=
  let s := { s with ring := r.1 }
  match failure? r.2, r.1.procs p with
  | some f, _ => s.fail p f
  | none, .owning _ => s.setThread p (.serializing x.stores x.serialized next)
  | none, _ => s

def advance (s : Submitting ι) (p : ι) (timeout : Bool) : Submitting ι × List (Act ι) :=
  match s.threads p with
  | .idle => (s, [])
  | .reserving x next =>
    let a := reserveAct timeout (s.ring.procs p)
    (s.reserved p x next (producerStep M wakeup s.ring p a), [.producer p a])
  | .serializing ((i, v) :: stores) serialized next =>
    let r := producerStep M wakeup s.ring p (.write i v)
    (setThread { s with ring := r.1 } p (.serializing stores serialized next),
      [.producer p (.write i v)])
  | .serializing [] serialized next =>
    let r := producerStep M wakeup s.ring p .drop
    (setThread { s with ring := r.1 } p (.dropping serialized next), [.producer p .drop])
  | .dropping serialized next =>
    let a := dropAct (s.ring.procs p)
    let r := producerStep M wakeup s.ring p a
    let s := { s with ring := r.1 }
    match r.1.procs p with
    | .idle =>
      let t := s.finish M wakeup p serialized next
      (t.1, .producer p a :: t.2)
    | _ => (s, [.producer p a])

end Submitting

section Machine
variable {ι : Type*} [DecidableEq ι] (M : Memory) (wakeup : ι → WakeupStrategy)

def submission : Machine (Submitting ι) (SubmitAct ι) (Act ι) where
  step s
    | .submit p x => if s.threads p = .idle then s.submit M wakeup p x none else (s, [])
    | .handleSubmit p track x =>
      if s.threads p = .idle then s.handleSubmit M wakeup p track x else (s, [])
    | .advance p timeout => s.advance M wakeup p timeout
    | .consumer a => ({ s with ring := (consumerStep M s.ring a).1 }, [.consumer a])

end Machine
end Manytrace.Agent
