import Manytrace.Core.Tally
import Manytrace.Bpf.BlockTrack

/-! The updates of the statistics of one device step by step, on any number of CPUs, and the
snapshots that user space takes meanwhile. -/
namespace Manytrace.Bpf.BlockTrack
open Manytrace.Core

inductive OperationCounter
  | bytes
  | operations
  | errors
  | queueLatencyNs
  | serviceLatencyNs
  | totalLatencyNs
  | serviceHistogram (bucket : Fin histogramBuckets)
  | totalHistogram (bucket : Fin histogramBuckets)
deriving DecidableEq

inductive DeviceCounter
  | operation (operation : BlockOperation) (counter : OperationCounter)
  | requeues
  | lostRequests
  | timelineDrops
deriving DecidableEq

def BlockOperation.all : List BlockOperation := [.read, .write, .flush, .discard, .other]

/-- The counters in the order of `struct operation_stats`. -/
def OperationCounter.all : List OperationCounter :=
  [.bytes, .operations, .errors, .queueLatencyNs, .serviceLatencyNs, .totalLatencyNs] ++
    (List.finRange histogramBuckets).map .serviceHistogram ++
    (List.finRange histogramBuckets).map .totalHistogram

/-- The counters in the order of `struct device_stats`, where the two times come after them. -/
def DeviceCounter.all : List DeviceCounter :=
  BlockOperation.all.flatMap (fun op => OperationCounter.all.map (.operation op)) ++
    [.requeues, .lostRequests, .timelineDrops]

theorem OperationCounter.mem_all (c : OperationCounter) : c ∈ all := by
  cases c <;> simp [all]

theorem DeviceCounter.mem_all (c : DeviceCounter) : c ∈ all := by
  cases c with
  | operation op c =>
    have hop : op ∈ BlockOperation.all := by cases op <;> simp [BlockOperation.all]
    exact List.mem_append_left _
      (List.mem_flatMap.mpr ⟨op, hop, List.mem_map_of_mem c.mem_all⟩)
  | requeues => simp [all]
  | lostRequests => simp [all]
  | timelineDrops => simp [all]

def OperationStats.count (o : OperationStats) : OperationCounter → ℕ
  | .bytes => o.bytes
  | .operations => o.operations
  | .errors => o.errors
  | .queueLatencyNs => o.queueLatencyNs
  | .serviceLatencyNs => o.serviceLatencyNs
  | .totalLatencyNs => o.totalLatencyNs
  | .serviceHistogram bucket => o.serviceHistogram bucket
  | .totalHistogram bucket => o.totalHistogram bucket

def DeviceStats.tally (s : DeviceStats) : Tally DeviceCounter
  | .count (.operation op c) => (s.operations op).count c
  | .count .requeues => s.requeues
  | .count .lostRequests => s.lostRequests
  | .count .timelineDrops => s.timelineDrops
  | .first => s.firstSeenNs
  | .last => s.lastSeenNs

def OperationStats.ofCount (f : OperationCounter → ℕ) : OperationStats where
  bytes := f .bytes
  operations := f .operations
  errors := f .errors
  queueLatencyNs := f .queueLatencyNs
  serviceLatencyNs := f .serviceLatencyNs
  totalLatencyNs := f .totalLatencyNs
  serviceHistogram i := if h : i < histogramBuckets then f (.serviceHistogram ⟨i, h⟩) else 0
  totalHistogram i := if h : i < histogramBuckets then f (.totalHistogram ⟨i, h⟩) else 0

/-- The value user space parses from the words it has copied. -/
def DeviceStats.ofTally (t : Tally DeviceCounter) : DeviceStats where
  operations op := .ofCount fun c => t (.count (.operation op c))
  requeues := t (.count .requeues)
  lostRequests := t (.count .lostRequests)
  timelineDrops := t (.count .timelineDrops)
  firstSeenNs := t .first
  lastSeenNs := t .last

@[simp] theorem OperationStats.count_ofCount (f : OperationCounter → ℕ) (c : OperationCounter) :
    (OperationStats.ofCount f).count c = f c := by
  cases c <;> simp [ofCount, count]

@[simp] theorem DeviceStats.tally_ofTally (t : Tally DeviceCounter) : (ofTally t).tally = t := by
  funext w
  rcases w with ⟨c⟩ | _ | _
  · cases c <;> simp [ofTally, tally]
  · rfl
  · rfl

/-! ## Differences between snapshots -/

def OperationStats.delta (self previous : OperationStats) : OperationStats where
  bytes := self.bytes - previous.bytes
  operations := self.operations - previous.operations
  errors := self.errors - previous.errors
  queueLatencyNs := self.queueLatencyNs - previous.queueLatencyNs
  serviceLatencyNs := self.serviceLatencyNs - previous.serviceLatencyNs
  totalLatencyNs := self.totalLatencyNs - previous.totalLatencyNs
  serviceHistogram i := self.serviceHistogram i - previous.serviceHistogram i
  totalHistogram i := self.totalHistogram i - previous.totalHistogram i

def DeviceStats.delta (self : DeviceStats) (previous : Option DeviceStats) : DeviceStats :=
  match previous.filter fun value => value.firstSeenNs == self.firstSeenNs with
  | none => self
  | some previous => {
      operations := fun op => (self.operations op).delta (previous.operations op)
      requeues := self.requeues - previous.requeues
      lostRequests := self.lostRequests - previous.lostRequests
      timelineDrops := self.timelineDrops - previous.timelineDrops
      firstSeenNs := self.firstSeenNs
      lastSeenNs := self.lastSeenNs }

theorem OperationStats.count_delta (o p : OperationStats) (c : OperationCounter) :
    (o.delta p).count c = o.count c - p.count c := by
  cases c <;> rfl

theorem DeviceStats.tally_delta (s : DeviceStats) (previous : Option DeviceStats) :
    (s.delta previous).tally = s.tally.delta (previous.map tally) := by
  cases previous with
  | none => rfl
  | some p =>
    by_cases hfirst : p.firstSeenNs = s.firstSeenNs
    · have hsame : p.tally .first = s.tally .first := hfirst
      simp only [delta, Tally.delta, Option.map_some, Option.filter, hfirst, hsame,
        beq_self_eq_true, if_true]
      funext w
      rcases w with ⟨c⟩ | _ | _
      · cases c with
        | operation op c => exact OperationStats.count_delta _ _ c
        | requeues => rfl
        | lostRequests => rfl
        | timelineDrops => rfl
      · rfl
      · rfl
    · have hother : ¬p.tally .first = s.tally .first := hfirst
      simp [delta, Tally.delta, Option.filter, hfirst, hother]

/-! ## The programs -/

/-- What is recorded about a device, in the functions that call `get_device_stats`. -/
inductive Recording
  | bytes (operation : BlockOperation) (bytes error : ℕ)
  | completion (operation : BlockOperation) (queueNs serviceNs totalNs : ℕ)
  | lostRequest
  | requeue
  | timelineDrop

structure StatsCall where
  recording : Recording
  now : ℕ

/-- The bucket of a histogram that a latency is counted in. -/
def bucketOf (latencyNs : ℕ) : Fin histogramBuckets :=
  ⟨latencyBucket latencyNs, latencyBucket_lt latencyNs⟩

/-- What a call does with the statistics it gets, if it asks for them at all. -/
def StatsCall.writes (cfg : Cfg) (call : StatsCall) : Option (List (Tally.Write DeviceCounter)) :=
  match call.recording with
  | .bytes operation bytes error =>
    if !cfg.bytesEnabled && (!cfg.errorsEnabled || error == 0) then none
    else some (.seen call.now ::
      (if cfg.bytesEnabled && bytes != 0 then [.add (.operation operation .bytes) bytes]
        else []) ++
      (if cfg.errorsEnabled && error != 0 then [.add (.operation operation .errors) 1] else []))
  | .completion operation queueNs serviceNs totalNs =>
    if !cfg.operationsEnabled && !cfg.latencyEnabled then none
    else some (.seen call.now ::
      (if cfg.operationsEnabled then [.add (.operation operation .operations) 1] else []) ++
      (if !cfg.latencyEnabled then []
        else [.add (.operation operation .queueLatencyNs) queueNs,
          .add (.operation operation .serviceLatencyNs) serviceNs,
          .add (.operation operation .totalLatencyNs) totalNs,
          .add (.operation operation (.serviceHistogram (bucketOf serviceNs))) 1,
          .add (.operation operation (.totalHistogram (bucketOf totalNs))) 1]))
  | .lostRequest => if !cfg.errorsEnabled then none else some [.add .lostRequests 1]
  | .requeue => if cfg.errorsEnabled then some [.add .requeues 1] else none
  | .timelineDrop => some [.add .timelineDrops 1]

/-- Where a CPU is in `get_device_stats`, or after it in the caller. -/
inductive Stage
  | lookup
  | check
  | swap
  | insert
  | lookupAgain
  | swapNew
  | touch
  | write
deriving DecidableEq, Repr

structure Update where
  stage : Stage
  now : ℕ
  writes : List (Tally.Write DeviceCounter)

structure Cpu where
  todo : List StatsCall
  update : Option Update

/-- The compare-and-swap of `first_seen_ns` from 0. -/
def swapFirst (now : ℕ) (t : Tally DeviceCounter) : Tally DeviceCounter :=
  if t .first = 0 then Function.update t .first now else t

/-- One step of an update. A new entry is made of zeros, if the map has room for it. -/
def Update.step (room : Bool) (u : Update) (entry : Option (Tally DeviceCounter)) :
    Option (Tally DeviceCounter) × Option Update :=
  match u.stage, entry with
  | .lookup, some _ => (entry, some { u with stage := .check })
  | .lookup, none => (entry, some { u with stage := .insert })
  | .check, some t =>
    (entry, some { u with stage := if t .first = 0 then .swap else .write })
  | .swap, some t => (some (swapFirst u.now t), some { u with stage := .write })
  | .insert, some _ => (entry, some { u with stage := .lookupAgain })
  | .insert, none =>
    (if room then some Tally.zero else none, some { u with stage := .lookupAgain })
  | .lookupAgain, some _ => (entry, some { u with stage := .swapNew })
  | .lookupAgain, none => (entry, none)
  | .swapNew, some t => (some (swapFirst u.now t), some { u with stage := .touch })
  | .touch, some t => (some (Function.update t .last u.now), some { u with stage := .write })
  | .write, some t =>
    match u.writes with
    | [] => (entry, none)
    | w :: ws => (some (w.apply t), some { u with writes := ws })
  -- entries are never removed
  | _, none => (entry, some u)

def Cpu.step (cfg : Cfg) (room : Bool) (cpu : Cpu) (entry : Option (Tally DeviceCounter)) :
    Option (Tally DeviceCounter) × Cpu :=
  match cpu.update, cpu.todo with
  | some u, _ => ((u.step room entry).1, { cpu with update := (u.step room entry).2 })
  | none, [] => (entry, cpu)
  | none, call :: todo =>
    (entry, ⟨todo, (call.writes cfg).map fun ws => ⟨.lookup, call.now, ws⟩⟩)

/-- The entry of the device, the CPUs, and user space with the snapshot it is taking and the
one before. -/
structure StatsState (ι : Type*) where
  entry : Option (Tally DeviceCounter)
  cpu : ι → Cpu
  copy : Option (Copy (Word DeviceCounter))
  previous : Option DeviceStats

inductive StatsAct (ι : Type*)
  | step (i : ι) (room : Bool)
  | snapshot
  | read
  | abandon

structure StatsSample where
  current : DeviceStats
  delta : DeviceStats

section Machine
variable {ι : Type*} [DecidableEq ι]

/-- The next word of the snapshot is read. After the last one the snapshot is sampled. -/
def StatsState.read (s : StatsState ι) : StatsState ι × List StatsSample :=
  match s.copy, s.entry with
  | some r, some t =>
    match r.left with
    | [] =>
      let current := DeviceStats.ofTally r.got
      ({ s with copy := none, previous := some current }, [⟨current, current.delta s.previous⟩])
    | _ :: _ => ({ s with copy := some (r.read t) }, [])
  | _, _ => (s, [])

def statsMachine (cfg : Cfg) : Machine (StatsState ι) (StatsAct ι) StatsSample where
  step s
    | .step i room =>
      let r := (s.cpu i).step cfg room s.entry
      ({ s with entry := r.1, cpu := Function.update s.cpu i r.2 }, [])
    | .snapshot =>
      match s.copy, s.entry with
      | none, some _ => ({ s with copy := some (.start (Word.order DeviceCounter.all)) }, [])
      | _, _ => (s, [])
    | .read => s.read
    -- reading another map failed, and the sample is given up
    | .abandon => ({ s with copy := none }, [])

/-- No entry yet, and on every CPU the calls it is going to make. -/
def StatsState.start (calls : ι → List StatsCall) : StatsState ι where
  entry := none
  cpu i := ⟨calls i, none⟩
  copy := none
  previous := none

end Machine

end Manytrace.Bpf.BlockTrack
