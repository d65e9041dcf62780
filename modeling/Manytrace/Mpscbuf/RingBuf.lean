import Manytrace.Core.Machine
import Manytrace.Mpscbuf.Common

/-! The ring buffer as a machine: one input is one atomic step of one reservation or of
the consumer, so a list of inputs is an interleaving. A thread that holds several
buffers at once is several indices of `ι`. Local computation is joined to the shared
access before it. -/
namespace Manytrace.Mpscbuf
open Manytrace.Core Manytrace.Core.MirroredMemory

inductive WakeupStrategy
  | forced
  | noWakeup
deriving DecidableEq, Repr

/-- A `reserve` that does not return a buffer. -/
inductive Failure
  | error (e : MpscBufError)
  | panic
deriving DecidableEq, Repr

/-- The space check of `Producer::reserve`, once both positions are read. -/
def spaceCheck (o : OverflowMode) (M : Memory) (producerPos consumerPos total : ℕ) :
    Except Failure ℕ :=
  match o.add producerPos total with
  | none => .error .panic
  | some newProdPos =>
    match o.sub newProdPos consumerPos with
    | none => .error .panic
    | some used =>
      if M.sizeMask < used then
        .error (.error (.insufficientSpace newProdPos consumerPos M.sizeMask))
      else .ok newProdPos

/-- `position`, `bytes` and `discarded` are history: where the record was reserved, what
its owner sees in the buffer, and whether the owner has stored the discard header. -/
structure ReservedBuffer where
  recordPos : ℕ
  size : ℕ
  position : ℕ
  bytes : List UInt8
  discarded : Bool
deriving DecidableEq, Repr

/-- What a reservation has done so far; the next step is named by the constructor's
successor in `producerStep`. -/
inductive ProducerPc
  | idle
  | loadedConsumer (size total consumerPos : ℕ)
  | locked (size total consumerPos : ℕ)
  | admitted (size producerPos newProdPos : ℕ)
  | headerWritten (size producerPos newProdPos : ℕ)
  | published (size producerPos : ℕ)
  | refused (f : Failure)
  | owning (b : ReservedBuffer)
  | discarding (b : ReservedBuffer) (current : ℕ)
  | discarded (b : ReservedBuffer)
  | committing (b : ReservedBuffer)
  | commitLoaded (b : ReservedBuffer) (current : ℕ)
  | notifying
deriving DecidableEq, Repr

structure Record where
  dataOffset : ℕ
  len : ℕ
  totalLen : ℕ
deriving DecidableEq, Repr

/-- `looping` is inside `consume` after a discarded record, `drained` is after `consume`
has returned `None`. -/
inductive ConsumerPc
  | idle
  | drained
  | looping
  | loadedConsumer (consPos : ℕ)
  | loadedProducer (consPos : ℕ)
  | skipping (newConsPos : ℕ)
  | holding (r : Record)
  | waiting
deriving DecidableEq, Repr

inductive Status (ι : Type*)
  | busy (owner : ι)
  | committed (payload : List UInt8)
  | discarded
deriving DecidableEq

def Status.payload? {ι : Type*} : Status ι → Option (List UInt8)
  | .committed bs => some bs
  | _ => none

/-- A successful reservation, recorded when the producer position is stored. -/
structure Reservation (ι : Type*) where
  position : ℕ
  size : ℕ
  status : Status ι
deriving DecidableEq

namespace Reservation
variable {ι : Type*}

def total (r : Reservation ι) : ℕ := totalLen r.size

def setStatus (position : ℕ) (st : Status ι) (rs : List (Reservation ι)) :
    List (Reservation ι) :=
  rs.map fun r => if r.position = position then { r with status := st } else r

end Reservation

/-- The shared memory and the local state of every party. The holder of the spinlock and
the last three fields are history. -/
structure State (ι : Type*) where
  spinlock : Option ι
  producer : ℕ
  consumer : ℕ
  dropped : ℕ
  mem : ℕ → UInt8
  eventfd : ℕ
  procs : ι → ProducerPc
  reader : ConsumerPc
  released : List (Reservation ι)
  live : List (Reservation ι)
  delivered : List (List UInt8)

namespace State
variable {ι : Type*}

def init : State ι where
  spinlock := none
  producer := 0
  consumer := 0
  dropped := 0
  mem := fun _ => 0
  eventfd := 0
  procs := fun _ => .idle
  reader := .idle
  released := []
  live := []
  delivered := []

/-- All successful reservations, in the order of their positions. -/
def reservations (s : State ι) : List (Reservation ι) := s.released ++ s.live

def setPc [DecidableEq ι] (s : State ι) (p : ι) (pc : ProducerPc) : State ι :=
  { s with procs := Function.update s.procs p pc }

def setReader (s : State ι) (pc : ConsumerPc) : State ι := { s with reader := pc }

/-- The store of the consumer position releases the oldest live reservation. -/
def release (s : State ι) (pos : ℕ) : State ι :=
  { s with consumer := pos, released := s.released ++ s.live.take 1, live := s.live.drop 1 }

end State

inductive ProducerAct
  | reserve (size : ℕ)
  | lock
  | timeout
  | loadProducer
  | writeHeader
  | storeProducer
  | unlock
  | write (i : ℕ) (b : UInt8)
  | discard
  | discardStore
  | drop
  | commitLoad
  | commitStore
  | notify
  | incrementDropped
deriving DecidableEq, Repr

inductive ConsumerAct
  | loadConsumer
  | loadProducer
  | loadHeader
  | advanceConsumer
  | dropRecord
  | wait
  | wake
deriving DecidableEq, Repr

inductive Act (ι : Type*)
  | producer (p : ι) (a : ProducerAct)
  | consumer (a : ConsumerAct)
deriving DecidableEq

inductive Event (ι : Type*)
  | reserved (p : ι) (position size : ℕ)
  | failed (p : ι) (f : Failure)
  | committed (p : ι) (position : ℕ) (payload : List UInt8)
  | discarded (p : ι) (position : ℕ)
  | returned (r : Option (List UInt8))
deriving DecidableEq

section Steps
variable {ι : Type*} [DecidableEq ι] (M : Memory) (wakeup : ι → WakeupStrategy)

/-- The buffer `reserve` returns. Its bytes are whatever the ring held before. -/
def newBuffer (s : State ι) (size producerPos : ℕ) : ReservedBuffer where
  recordPos := producerPos &&& M.sizeMask
  size := size
  position := producerPos
  bytes := load M.dataSize s.mem ((producerPos &&& M.sizeMask) + headerSize) size
  discarded := false

/-- `Producer::reserve`, the writes through the buffer, `ReservedBuffer::discard` and
`Drop`, in the order of the source. -/
def producerStep (s : State ι) (p : ι) : ProducerAct → State ι × List (Event ι)
  | .reserve size =>
    match s.procs p with
    | .idle =>
      match totalSize .checked size with
      | none => (s, [.failed p .panic])
      | some total => (s.setPc p (.loadedConsumer size total s.consumer), [])
    | _ => (s, [])
  | .lock =>
    match s.procs p, s.spinlock with
    | .loadedConsumer size total consumerPos, none =>
      ({ s.setPc p (.locked size total consumerPos) with spinlock := some p }, [])
    | _, _ => (s, [])
  | .timeout =>
    match s.procs p with
    | .loadedConsumer _ _ _ => (s.setPc p .idle, [.failed p (.error .lockTimeout)])
    | _ => (s, [])
  | .loadProducer =>
    match s.procs p with
    | .locked size total consumerPos =>
      match spaceCheck .checked M s.producer consumerPos total with
      | .ok newProdPos => (s.setPc p (.admitted size s.producer newProdPos), [])
      | .error f => (s.setPc p (.refused f), [])
    | _ => (s, [])
  | .writeHeader =>
    match s.procs p with
    | .admitted size producerPos newProdPos =>
      ({ s.setPc p (.headerWritten size producerPos newProdPos) with
          mem := M.storeHeader s.mem (producerPos &&& M.sizeMask) (RecordHeader.new size) }, [])
    | _ => (s, [])
  | .storeProducer =>
    match s.procs p with
    | .headerWritten size producerPos newProdPos =>
      ({ s.setPc p (.published size producerPos) with
          producer := newProdPos
          live := s.live ++ [⟨producerPos, size, .busy p⟩] },
        [.reserved p producerPos size])
    | _ => (s, [])
  | .unlock =>
    match s.procs p with
    | .published size producerPos =>
      ({ s.setPc p (.owning (newBuffer M s size producerPos)) with spinlock := none }, [])
    | .refused f => ({ s.setPc p .idle with spinlock := none }, [.failed p f])
    | _ => (s, [])
  | .write i v =>
    match s.procs p with
    | .owning b =>
      if i < b.size then
        ({ s.setPc p (.owning { b with bytes := b.bytes.set i v }) with
            mem := store M.dataSize s.mem (b.recordPos + headerSize + i) [v] }, [])
      else (s, [])
    | _ => (s, [])
  | .discard =>
    match s.procs p with
    | .owning b => (s.setPc p (.discarding b (M.loadHeader s.mem b.recordPos)), [])
    | _ => (s, [])
  | .discardStore =>
    match s.procs p with
    | .discarding b current =>
      ({ s.setPc p (.discarded { b with discarded := true }) with
          mem := M.storeHeader s.mem b.recordPos (RecordHeader.discard current)
          live := Reservation.setStatus b.position .discarded s.live },
        [.discarded p b.position])
    | _ => (s, [])
  | .drop =>
    match s.procs p with
    | .owning b | .discarded b =>
      if RecordHeader.isDiscarded (M.loadHeader s.mem b.recordPos) then
        (s.setPc p .notifying, [])
      else (s.setPc p (.committing b), [])
    | _ => (s, [])
  | .commitLoad =>
    match s.procs p with
    | .committing b => (s.setPc p (.commitLoaded b (M.loadHeader s.mem b.recordPos)), [])
    | _ => (s, [])
  | .commitStore =>
    match s.procs p with
    | .commitLoaded b current =>
      ({ s.setPc p .notifying with
          mem := M.storeHeader s.mem b.recordPos (RecordHeader.commit current)
          live := if b.discarded then s.live
            else Reservation.setStatus b.position (.committed b.bytes) s.live },
        [.committed p b.position b.bytes])
    | _ => (s, [])
  | .notify =>
    match s.procs p with
    | .notifying =>
      match wakeup p with
      | .forced => ({ s.setPc p .idle with eventfd := s.eventfd + 1 }, [])
      | .noWakeup => (s.setPc p .idle, [])
    | _ => (s, [])
  | .incrementDropped => ({ s with dropped := s.dropped + 1 }, [])

/-- `Consumer::consume`, the drop of a `Record` and `Consumer::wait`. -/
def consumerStep (s : State ι) : ConsumerAct → State ι × List (Event ι)
  | .loadConsumer =>
    match s.reader with
    | .idle | .drained | .looping => (s.setReader (.loadedConsumer s.consumer), [])
    | _ => (s, [])
  | .loadProducer =>
    match s.reader with
    | .loadedConsumer consPos =>
      if s.producer ≤ consPos then (s.setReader .drained, [.returned none])
      else (s.setReader (.loadedProducer consPos), [])
    | _ => (s, [])
  | .loadHeader =>
    match s.reader with
    | .loadedProducer consPos =>
      let offset := consPos &&& M.sizeMask
      let header := M.loadHeader s.mem offset
      let recordLen := RecordHeader.len header
      if RecordHeader.isBusy header then (s.setReader .drained, [.returned none])
      else if RecordHeader.isDiscarded header then
        (s.setReader (.skipping (consPos + totalLen recordLen)), [])
      else
        let data := load M.dataSize s.mem (offset + headerSize) recordLen
        ({ s.setReader (.holding ⟨offset + headerSize, recordLen,
              consPos + totalLen recordLen⟩) with delivered := s.delivered ++ [data] },
          [.returned (some data)])
    | _ => (s, [])
  | .advanceConsumer =>
    match s.reader with
    | .skipping newConsPos => ((s.release newConsPos).setReader .looping, [])
    | _ => (s, [])
  | .dropRecord =>
    match s.reader with
    | .holding r => ((s.release r.totalLen).setReader .idle, [])
    | _ => (s, [])
  | .wait =>
    match s.reader with
    | .idle | .drained => (s.setReader .waiting, [])
    | _ => (s, [])
  | .wake =>
    match s.reader with
    | .waiting =>
      if 0 < s.eventfd then ({ s.setReader .idle with eventfd := 0 }, []) else (s, [])
    | _ => (s, [])

def ringBuf : Machine (State ι) (Act ι) (Event ι) where
  step s
    | .producer p a => producerStep M wakeup s p a
    | .consumer a => consumerStep M s a

/-- What a step of the producer `p` can do: the act, the state after it and its events. An act
that is not the next one of `p` changes nothing. -/
inductive ProducerMove (s : State ι) (p : ι) : ProducerAct → State ι × List (Event ι) → Prop
  | stay (a : ProducerAct) : ProducerMove s p a (s, [])
  | overflow {size : ℕ} (hpc : s.procs p = .idle) (htotal : totalSize .checked size = none) :
    ProducerMove s p (.reserve size) (s, [.failed p .panic])
  | reserve {size total : ℕ} (hpc : s.procs p = .idle)
    (htotal : totalSize .checked size = some total) :
    ProducerMove s p (.reserve size) (s.setPc p (.loadedConsumer size total s.consumer), [])
  | lock {size total c : ℕ} (hpc : s.procs p = .loadedConsumer size total c)
    (hlock : s.spinlock = none) :
    ProducerMove s p .lock ({ s.setPc p (.locked size total c) with spinlock := some p }, [])
  | timeout {size total c : ℕ} (hpc : s.procs p = .loadedConsumer size total c) :
    ProducerMove s p .timeout (s.setPc p .idle, [.failed p (.error .lockTimeout)])
  | admitted {size total c np : ℕ} (hpc : s.procs p = .locked size total c)
    (hcheck : spaceCheck .checked M s.producer c total = .ok np) :
    ProducerMove s p .loadProducer (s.setPc p (.admitted size s.producer np), [])
  | refuse {size total c : ℕ} {f : Failure} (hpc : s.procs p = .locked size total c)
    (hcheck : spaceCheck .checked M s.producer c total = .error f) :
    ProducerMove s p .loadProducer (s.setPc p (.refused f), [])
  | writeHeader {size pp np : ℕ} (hpc : s.procs p = .admitted size pp np) :
    ProducerMove s p .writeHeader ({ s.setPc p (.headerWritten size pp np) with
      mem := M.storeHeader s.mem (pp &&& M.sizeMask) (RecordHeader.new size) }, [])
  | publish {size pp np : ℕ} (hpc : s.procs p = .headerWritten size pp np) :
    ProducerMove s p .storeProducer ({ s.setPc p (.published size pp) with
      producer := np
      live := s.live ++ [⟨pp, size, .busy p⟩] }, [.reserved p pp size])
  | own {size pp : ℕ} (hpc : s.procs p = .published size pp) :
    ProducerMove s p .unlock
      ({ s.setPc p (.owning (newBuffer M s size pp)) with spinlock := none }, [])
  | fail {f : Failure} (hpc : s.procs p = .refused f) :
    ProducerMove s p .unlock ({ s.setPc p .idle with spinlock := none }, [.failed p f])
  | write {b : ReservedBuffer} {i : ℕ} (v : UInt8) (hpc : s.procs p = .owning b)
    (hi : i < b.size) :
    ProducerMove s p (.write i v) ({ s.setPc p (.owning { b with bytes := b.bytes.set i v }) with
      mem := store M.dataSize s.mem (b.recordPos + headerSize + i) [v] }, [])
  | discard {b : ReservedBuffer} (hpc : s.procs p = .owning b) :
    ProducerMove s p .discard
      (s.setPc p (.discarding b (M.loadHeader s.mem b.recordPos)), [])
  | discardStore {b : ReservedBuffer} {current : ℕ} (hpc : s.procs p = .discarding b current) :
    ProducerMove s p .discardStore ({ s.setPc p (.discarded { b with discarded := true }) with
      mem := M.storeHeader s.mem b.recordPos (RecordHeader.discard current)
      live := Reservation.setStatus b.position .discarded s.live }, [.discarded p b.position])
  | dropDiscarded {b : ReservedBuffer} (hpc : s.procs p = .owning b ∨ s.procs p = .discarded b)
    (hd : RecordHeader.isDiscarded (M.loadHeader s.mem b.recordPos) = true) :
    ProducerMove s p .drop (s.setPc p .notifying, [])
  | drop {b : ReservedBuffer} (hpc : s.procs p = .owning b ∨ s.procs p = .discarded b)
    (hd : RecordHeader.isDiscarded (M.loadHeader s.mem b.recordPos) = false) :
    ProducerMove s p .drop (s.setPc p (.committing b), [])
  | commitLoad {b : ReservedBuffer} (hpc : s.procs p = .committing b) :
    ProducerMove s p .commitLoad
      (s.setPc p (.commitLoaded b (M.loadHeader s.mem b.recordPos)), [])
  | commitStore {b : ReservedBuffer} {current : ℕ} (hpc : s.procs p = .commitLoaded b current) :
    ProducerMove s p .commitStore ({ s.setPc p .notifying with
      mem := M.storeHeader s.mem b.recordPos (RecordHeader.commit current)
      live := if b.discarded then s.live
        else Reservation.setStatus b.position (.committed b.bytes) s.live },
      [.committed p b.position b.bytes])
  | notify (hpc : s.procs p = .notifying) (hwakeup : wakeup p = .forced) :
    ProducerMove s p .notify ({ s.setPc p .idle with eventfd := s.eventfd + 1 }, [])
  | finish (hpc : s.procs p = .notifying) (hwakeup : wakeup p = .noWakeup) :
    ProducerMove s p .notify (s.setPc p .idle, [])
  | incrementDropped :
    ProducerMove s p .incrementDropped ({ s with dropped := s.dropped + 1 }, [])

theorem producerStep_move (s : State ι) (p : ι) (a : ProducerAct) :
    ProducerMove M wakeup s p a (producerStep M wakeup s p a) := by
  cases a with
  | reserve size =>
    simp only [producerStep]
    cases hpc : s.procs p with
    | idle =>
      cases htotal : totalSize .checked size with
      | none => exact .overflow hpc htotal
      | some total => exact .reserve hpc htotal
    | _ => exact .stay _
  | lock =>
    simp only [producerStep]
    cases hpc : s.procs p with
    | loadedConsumer size total c =>
      cases hlock : s.spinlock with
      | none => exact .lock hpc hlock
      | some q => exact .stay _
    | _ => exact .stay _
  | timeout =>
    simp only [producerStep]
    cases hpc : s.procs p with
    | loadedConsumer size total c => exact .timeout hpc
    | _ => exact .stay _
  | loadProducer =>
    simp only [producerStep]
    cases hpc : s.procs p with
    | locked size total c =>
      cases hcheck : spaceCheck .checked M s.producer c total with
      | ok np =>
        simp only [hcheck]
        exact .admitted hpc hcheck
      | error f =>
        simp only [hcheck]
        exact .refuse hpc hcheck
    | _ => exact .stay _
  | writeHeader =>
    simp only [producerStep]
    cases hpc : s.procs p with
    | admitted size pp np => exact .writeHeader hpc
    | _ => exact .stay _
  | storeProducer =>
    simp only [producerStep]
    cases hpc : s.procs p with
    | headerWritten size pp np => exact .publish hpc
    | _ => exact .stay _
  | unlock =>
    simp only [producerStep]
    cases hpc : s.procs p with
    | published size pp => exact .own hpc
    | refused f => exact .fail hpc
    | _ => exact .stay _
  | write i v =>
    simp only [producerStep]
    cases hpc : s.procs p with
    | owning b =>
      by_cases hi : i < b.size
      · simp only [if_pos hi]
        exact .write v hpc hi
      · simp only [if_neg hi]
        exact .stay _
    | _ => exact .stay _
  | discard =>
    simp only [producerStep]
    cases hpc : s.procs p with
    | owning b => exact .discard hpc
    | _ => exact .stay _
  | discardStore =>
    simp only [producerStep]
    cases hpc : s.procs p with
    | discarding b current => exact .discardStore hpc
    | _ => exact .stay _
  | drop =>
    have hdrop : ∀ b, (s.procs p = .owning b ∨ s.procs p = .discarded b) →
        ProducerMove M wakeup s p .drop
          (if RecordHeader.isDiscarded (M.loadHeader s.mem b.recordPos) then
            (s.setPc p .notifying, [])
          else (s.setPc p (.committing b), [])) := by
      intro b hpc
      cases hd : RecordHeader.isDiscarded (M.loadHeader s.mem b.recordPos) with
      | true => exact .dropDiscarded hpc hd
      | false => exact .drop hpc hd
    simp only [producerStep]
    cases hpc : s.procs p with
    | owning b => exact hdrop b (Or.inl hpc)
    | discarded b => exact hdrop b (Or.inr hpc)
    | _ => exact .stay _
  | commitLoad =>
    simp only [producerStep]
    cases hpc : s.procs p with
    | committing b => exact .commitLoad hpc
    | _ => exact .stay _
  | commitStore =>
    simp only [producerStep]
    cases hpc : s.procs p with
    | commitLoaded b current => exact .commitStore hpc
    | _ => exact .stay _
  | notify =>
    simp only [producerStep]
    cases hpc : s.procs p with
    | notifying =>
      cases hwakeup : wakeup p with
      | forced => exact .notify hpc hwakeup
      | noWakeup => exact .finish hpc hwakeup
    | _ => exact .stay _
  | incrementDropped => exact .incrementDropped

end Steps
end Manytrace.Mpscbuf
