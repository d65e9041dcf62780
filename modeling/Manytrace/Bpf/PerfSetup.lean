import Manytrace.Bpf.PerfCounter

/-! Opening the perf events behind the counters: user space opens one for each counter and each
processor and puts it into a slot of a map, and the program reads it from there. -/
namespace Manytrace.Bpf.PerfCounter
open Manytrace.Core Manytrace.Protocol

/-! ## The kernel -/

inductive Sampling
  | frequency (hz : ℕ)
  | period (count : ℕ)
deriving DecidableEq, Repr

structure PerfEvent where
  type : UInt32
  config : UInt64
  sampling : Sampling
  cpu : ℕ
deriving DecidableEq, Repr

/-- The perf events by their descriptors, and the map `perf_counters`. -/
structure Kernel where
  events : List PerfEvent
  maxEntries : ℕ
  slots : ℕ → Option ℕ

/-- `bpf_perf_event_read_value` on a processor: the flags may only be an index, and an event is
read where it counts. The values of the events come from `counts`, and may be missing. -/
def Kernel.readValue (k : Kernel) (cpu : ℕ) (counts : ℕ → Option ℕ) (flags : ℕ) : Option ℕ :=
  if 2 ^ 32 ≤ flags ∨ k.maxEntries ≤ flags then none
  else do
    let fd ← k.slots flags
    let event ← k.events[fd]?
    if event.cpu = cpu then counts fd else none

/-! ## Setting up -/

inductive Call
  | openSkeleton
  | setRingbufSize
  | cpuCount
  | setMapSize
  | load
  | openTimer (cpu : ℕ)
  | attachTimers
  | openCounter (idx cpu : ℕ)
  | update (idx cpu : ℕ)
  | enable (idx cpu : ℕ)
  | addRingbuf
  | buildRingbuf
deriving DecidableEq, Repr

/-- The number of processors, and the errors of the calls that fail for reasons of their own. -/
structure Host where
  nprocs : ℕ
  failure : Call → Option String

inductive BuildError
  | failed (e : BpfError)
  | panicked
deriving DecidableEq, Repr

abbrev SetupOp (α : Type) := Op Kernel BuildError α

structure PerfCounterConfig where
  frequency : ℕ
  counters : List CounterConfig

/-- What is there after the set-up. -/
structure Built (F : Type) where
  expansion : Expansion
  kernel : Kernel
  reports : List (Report F)

section SetUp
variable (host : Host)

def attempt (call : Call) (error : String → BpfError) : SetupOp Unit :=
  match host.failure call with
  | none => pure ()
  | some e => Op.fail (.failed (error e))

/-- The processor is passed as a signed word, and a negative one is refused. -/
def perfEventOpen (call : Call) (error : String → BpfError) (type config : UInt32)
    (sampling : Sampling) (cpu : ℕ) : SetupOp ℕ := do
  attempt host call error
  if 2 ^ 31 ≤ cpu % 2 ^ 32 then Op.fail (.failed (error "Invalid argument (os error 22)"))
  else
    let k ← Op.get
    Op.modify fun k =>
      { k with events := k.events ++ [⟨type, config.toUInt64, sampling, cpu % 2 ^ 32⟩] }
    pure k.events.length

def perfEventPerCpu (type config : UInt32) (freq : ℕ) : List ℕ → SetupOp Unit
  | [] => pure ()
  | cpu :: cpus => do
    let _ ← perfEventOpen host (.openTimer cpu)
      (fun e => .attachError s!"failed to create timer perf events: {e}") type config
      (.frequency freq) cpu
    perfEventPerCpu type config freq cpus

/-- The slot is passed as the bytes of a signed word. -/
def updateSlot (countersLen counterIdx cpu fd : ℕ) : SetupOp Unit := do
  let key := (cpu * countersLen + counterIdx) % 2 ^ 32
  let idx := asI32 (UInt32.ofNat key)
  let error := fun e => BpfError.mapError s!"failed to update perf counter map at idx {idx}: {e}"
  attempt host (.update counterIdx cpu) error
  let k ← Op.get
  if key < k.maxEntries then
    Op.modify fun k => { k with slots := Function.update k.slots key (some fd) }
  else Op.fail (.failed (error "Argument list too long (os error 7)"))

/-- The loop over the processors. -/
def openCounter (countersLen counterIdx : ℕ) (name : String) (type : UInt32) (config : UInt64) :
    List ℕ → SetupOp Unit
  | [] => pure ()
  | cpu :: cpus => do
    let fd ← perfEventOpen host (.openCounter counterIdx cpu)
      (fun e => .attachError
        s!"failed to open perf event for counter {name} on cpu {cpu}: {e}")
      type config.toUInt32 (.period 0) cpu
    updateSlot host countersLen counterIdx cpu fd
    attempt host (.enable counterIdx cpu)
      fun e => .attachError s!"failed to enable perf counter: {e}"
    openCounter countersLen counterIdx name type config cpus

def openCounters (countersLen : ℕ) : List (CounterConfig × ℕ) → SetupOp Unit
  | [] => pure ()
  | (counter, counterIdx) :: rest =>
    match counter.toPerfConfig with
    | .error e => Op.fail (.failed e)
    | .ok (name, type, config) => do
      openCounter host countersLen counterIdx name type config (List.range host.nprocs)
      openCounters countersLen rest

def declare {F : Type} (callback : ℕ → ℤ) (x : Expansion) : SetupOp (List (Report F)) :=
  match declareTracks callback x host.nprocs (List.range host.nprocs) .new with
  | (.ok (), c) => pure c.reports
  | (.error .refused, _) => Op.fail (.failed (.loadError "callback terminated"))
  | (.error .panicked, _) => Op.fail .panicked

def build {F : Type} (callback : ℕ → ℤ) (config : PerfCounterConfig) : SetupOp (Built F) :=
  match validate config.counters with
  | .error e => Op.fail (.failed e)
  | .ok x => do
    attempt host .openSkeleton fun e => .loadError s!"failed to open bpf skeleton: {e}"
    attempt host .setRingbufSize fun e => .loadError s!"failed to set ring buffer size: {e}"
    attempt host .cpuCount fun e => .loadError s!"failed to get cpu count: {e}"
    attempt host .setMapSize fun e => .loadError s!"failed to set perf counters map size: {e}"
    Op.modify fun k => { k with maxEntries := host.nprocs * x.counters.length % 2 ^ 32 }
    attempt host .load fun e => .loadError s!"failed to load bpf program: {e}"
    perfEventPerCpu host perfTypeSoftware 0 config.frequency (List.range host.nprocs)
    attempt host .attachTimers fun e => .attachError s!"failed to attach timer perf event: {e}"
    openCounters host x.counters.length x.counters.zipIdx
    let reports ← declare host callback x
    attempt host .addRingbuf fun e => .loadError s!"failed to add ring buffer: {e}"
    attempt host .buildRingbuf fun e => .loadError s!"failed to build ring buffer: {e}"
    let k ← Op.get
    pure ⟨x, k, reports⟩

end SetUp

/-- No event is open, and the map has the size that it is declared with. -/
def Kernel.new : Kernel := ⟨[], 1, fun _ => none⟩

end Manytrace.Bpf.PerfCounter
