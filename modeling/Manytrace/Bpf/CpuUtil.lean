import Mathlib.Algebra.Order.Field.Rat
import Mathlib.Logic.Function.Basic
import Manytrace.Core.Machine
import Manytrace.Core.Op
import Manytrace.Protocol.Event

/-! The CPU utilisation tracer: the programs that cut the time of each processor into
intervals, and the callback that adds the intervals of each thread up and reports them
whenever every processor has passed a boundary. Times are 64-bit words on both sides. -/
namespace Manytrace.Bpf.CpuUtil
open Manytrace.Core Manytrace.Protocol

structure CpuState where
  tid : UInt32
  tgid : UInt32
  startTime : UInt64
  kernelStartTime : UInt64
  kernelTimeAcc : UInt64
  inKernel : Bool
deriving DecidableEq, Repr

/-- The entry of a new per-CPU array. -/
def CpuState.zero : CpuState := ⟨0, 0, 0, 0, 0, false⟩

structure CpuEvent where
  tid : UInt32
  tgid : UInt32
  endTime : UInt64
  kernelTimeNs : UInt64
  startTime : UInt64
  cpu : ℕ
  boundary : Bool
deriving DecidableEq, Repr

structure Task where
  pid : UInt32
  tgid : UInt32
deriving DecidableEq, Repr

inductive Program
  | schedSwitch (prev next : Task)
  | sysEnter (current : Task)
  | sysExit (current : Task)
  | boundaryEvent (current : Task)
deriving DecidableEq, Repr

/-- A program is run on some processor. It finds the clock, the filter map, and room in the
ring buffer or not. -/
structure Tracepoint where
  now : UInt64
  trackedTgids : List UInt32
  room : Bool
  program : Program
deriving DecidableEq, Repr

section Programs
variable (filterEnabled : Bool) (cpu : ℕ) (tp : Tracepoint)

def shouldTrackTgid (tgid : UInt32) : Bool :=
  if !filterEnabled then true
  else if tgid = 0 then true
  else tp.trackedTgids.contains tgid

def submitCpuEvent (state : CpuState) (endTime : UInt64) (boundary : Bool) : List CpuEvent :=
  if !tp.room then []
  else
    let kernelTime :=
      if state.inKernel && 0 < state.kernelStartTime then
        state.kernelTimeAcc + (endTime - state.kernelStartTime)
      else state.kernelTimeAcc
    [{
      tid := state.tid, tgid := state.tgid, endTime, kernelTimeNs := kernelTime
      startTime := state.startTime, cpu, boundary }]

def handleSchedSwitch (prev next : Task) (state : CpuState) : CpuState × List CpuEvent :=
  let events :=
    if state.tid = prev.pid ∧ state.tid ≠ 0 ∧ shouldTrackTgid filterEnabled tp prev.tgid then
      submitCpuEvent cpu tp { state with tgid := prev.tgid } tp.now false
    else []
  (⟨next.pid, 0, tp.now, 0, 0, false⟩, events)

def handleSysEnter (current : Task) (state : CpuState) : CpuState :=
  if state.tid ≠ current.pid then state
  else if !state.inKernel then { state with inKernel := true, kernelStartTime := tp.now }
  else state

def handleSysExit (current : Task) (state : CpuState) : CpuState :=
  if state.tid ≠ current.pid then state
  else
    let state :=
      if state.inKernel && 0 < state.kernelStartTime then
        { state with
          kernelTimeAcc := state.kernelTimeAcc + (tp.now - state.kernelStartTime)
          kernelStartTime := 0 }
      else state
    { state with inKernel := false }

def handleBoundaryEvent (current : Task) (state : CpuState) : CpuState × List CpuEvent :=
  let state :=
    if shouldTrackTgid filterEnabled tp current.tgid then { state with tgid := current.tgid }
    else state
  ({ state with
      startTime := tp.now
      kernelStartTime := if state.inKernel then tp.now else state.kernelStartTime
      kernelTimeAcc := 0 },
    submitCpuEvent cpu tp state tp.now true)

/-- The programs on one processor. -/
def cpuPrograms : Machine CpuState Tracepoint CpuEvent where
  step state tp :=
    match tp.program with
    | .schedSwitch prev next => handleSchedSwitch filterEnabled cpu tp prev next state
    | .sysEnter current => (handleSysEnter tp current state, [])
    | .sysExit current => (handleSysExit tp current state, [])
    | .boundaryEvent current => handleBoundaryEvent filterEnabled cpu tp current state

end Programs

/-! ## The callback -/

/-- The process and the thread of an entry. -/
abbrev ThreadKey := ℤ × ℤ

def CpuEvent.accepted (e : CpuEvent) : Bool := e.tgid != 0 && e.tid != 0 && e.startTime != 0

def CpuEvent.key (e : CpuEvent) : ThreadKey := (asI32 e.tgid, asI32 e.tid)

structure ThreadStats where
  cpuTimeNs : UInt64 := 0
  kernelTimeNs : UInt64 := 0
  minTimestamp : UInt64 := 0xFFFFFFFFFFFFFFFF
deriving DecidableEq, Repr

def ThreadStats.add (stats : ThreadStats) (e : CpuEvent) : ThreadStats where
  cpuTimeNs := stats.cpuTimeNs + (e.endTime - e.startTime)
  kernelTimeNs := stats.kernelTimeNs + e.kernelTimeNs
  minTimestamp := min stats.minTimestamp e.startTime

/-- How the results of float operations are rounded. It respects the order, and the
constants that occur are floats. -/
structure Rounding where
  round : ℚ → ℚ
  monotone : Monotone round
  zero : round 0 = 0
  one : round 1 = 1
  hundred : round 100 = 100

/-- The rounding of a format that has all rationals. -/
def Rounding.exact : Rounding := ⟨id, monotone_id, rfl, rfl, rfl⟩

inductive Percentage
  | nan
  | infinite
  | value (q : ℚ)
deriving DecidableEq, Repr

def percentage (F : Rounding) (part elapsed : UInt64) : Percentage :=
  let p := F.round part.toNat
  let e := F.round elapsed.toNat
  if e = 0 then if p = 0 then .nan else .infinite
  else .value (F.round (F.round (p / e) * 100))

def Percentage.Exceeds (bound : ℚ) : Percentage → Prop
  | .nan => False
  | .infinite => True
  | .value q => bound < q

structure CounterSample where
  name : String
  value : Percentage
  timestamp : UInt64
  trackId : TrackId
  unit : Option String
deriving DecidableEq, Repr

inductive Report
  | track (t : Track)
  | counter (c : CounterSample)
deriving DecidableEq, Repr

/-- What the closure captures, and the messages it has handed on. -/
structure Collector where
  threadStats : ThreadKey → Option ThreadStats
  submittedTracks : TrackId → Bool
  trackIdMapping : ThreadKey → Option (ℕ × ℕ)
  boundariesReported : ℕ
  maxTimestamp : UInt64
  reports : List Report

def Collector.new : Collector where
  threadStats := fun _ => none
  submittedTracks := fun _ => false
  trackIdMapping := fun _ => none
  boundariesReported := 0
  maxTimestamp := 0
  reports := []

/-- A record of the ring buffer, with the order in which the entries are visited if it
completes a round, and the ids that are drawn for new entries. -/
structure Delivery where
  event : CpuEvent
  order : List ThreadKey
  ids : ThreadKey → ℕ × ℕ

/-- A failure is the code that the user's callback has returned. -/
abbrev CollectOp (α : Type) := Op Collector ℤ α

namespace Collector

/-- What is done for every record: the interval is added if it is accepted. -/
def record (e : CpuEvent) (c : Collector) : Collector where
  threadStats :=
    if e.accepted then
      Function.update c.threadStats e.key (some (((c.threadStats e.key).getD {}).add e))
    else c.threadStats
  submittedTracks := c.submittedTracks
  trackIdMapping := c.trackIdMapping
  boundariesReported := c.boundariesReported
  maxTimestamp := max c.maxTimestamp e.endTime
  reports := c.reports

/-- The counts start again, from the latest time seen. -/
def reset (key : ThreadKey) (c : Collector) : Collector :=
  { c with threadStats :=
      Function.update c.threadStats key (some { minTimestamp := c.maxTimestamp }) }

end Collector

section Callback
variable (F : Rounding) (callback : ℕ → ℤ)

def emit (r : Report) : CollectOp Unit := fun c =>
  let code := callback c.reports.length
  (if code = 0 then .ok () else .error code, { c with reports := c.reports ++ [r] })

/-- The ids of the two counters of a thread. -/
def trackIds (ids : ThreadKey → ℕ × ℕ) (key : ThreadKey) : CollectOp (ℕ × ℕ) := do
  let c ← Op.get
  match c.trackIdMapping key with
  | some pair => pure pair
  | none =>
    Op.modify fun c =>
      { c with trackIdMapping := Function.update c.trackIdMapping key (some (ids key)) }
    pure (ids key)

/-- A counter, after its track if that has not been announced. -/
def emitCounter (name : String) (key : ThreadKey) (id : ℕ) (value : Percentage)
    (timestamp : UInt64) : CollectOp Unit := do
  let c ← Op.get
  if c.submittedTracks (.counter id) then pure ()
  else
    emit callback (.track ⟨name, .counter id (some "%"), some (.thread key.2 key.1)⟩)
    Op.modify fun c =>
      { c with submittedTracks := Function.update c.submittedTracks (.counter id) true }
  emit callback (.counter ⟨name, value, timestamp, .counter id, some "%"⟩)

def flushThread (ids : ThreadKey → ℕ × ℕ) (key : ThreadKey) : CollectOp Unit := do
  let c ← Op.get
  match c.threadStats key with
  | none => pure ()
  | some stats =>
    let elapsedNs := c.maxTimestamp - stats.minTimestamp
    let pair ← trackIds ids key
    emitCounter callback "cpu_time" key pair.1 (percentage F stats.cpuTimeNs elapsedNs)
      stats.minTimestamp
    emitCounter callback "kernel_time" key pair.2 (percentage F stats.kernelTimeNs elapsedNs)
      stats.minTimestamp
    Op.modify (Collector.reset key)

def flush (ids : ThreadKey → ℕ × ℕ) : List ThreadKey → CollectOp Unit
  | [] => pure ()
  | key :: keys => do
    flushThread F callback ids key
    flush ids keys

def handleEvent (nprocs : ℕ) (d : Delivery) : CollectOp Unit := do
  Op.modify (Collector.record d.event)
  if d.event.boundary then
    Op.modify fun c => { c with boundariesReported := c.boundariesReported + 1 }
    let c ← Op.get
    if c.boundariesReported = nprocs then
      Op.modify fun c => { c with boundariesReported := 0 }
      flush F callback d.ids d.order
    else pure ()
  else pure ()

/-- The records one after another; the outputs are the codes that are returned. -/
def collector (nprocs : ℕ) : Machine Collector Delivery ℤ where
  step c d :=
    let r := handleEvent F callback nprocs d c
    (r.2, [match r.1 with | .ok () => 0 | .error code => code])

end Callback
end Manytrace.Bpf.CpuUtil
