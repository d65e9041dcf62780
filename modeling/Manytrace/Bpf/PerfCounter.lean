import Mathlib.Algebra.Field.Rat
import Mathlib.Logic.Function.Basic
import Manytrace.Bpf.Common
import Manytrace.Core.Machine
import Manytrace.Core.Op
import Manytrace.Protocol.Event

/-! The performance counters: the list that is configured and what it is expanded to, the
program that reads the counters of a processor on every tick of a timer, and the callback that
turns two readings into a sample. What the floats of the samples are is left open. -/
namespace Manytrace.Bpf.PerfCounter
open Manytrace.Core Manytrace.Protocol

def maxPerfCounters : ℕ := 8

/-! ## The configuration -/

inductive CounterConfig
  | named (name : String)
  | custom (name : String) (perfType : UInt32) (config : UInt64)
deriving DecidableEq, Repr

def CounterConfig.name : CounterConfig → String
  | .named name => name
  | .custom name _ _ => name

inductive DerivedCounter
  | ipc (cyclesIdx instructionsIdx : ℕ)
deriving DecidableEq, Repr

def perfTypeHardware : UInt32 := 0

def perfTypeSoftware : UInt32 := 1

/-- The names that stand for a type and a config. -/
def knownCounters : List (String × UInt32 × UInt64) :=
  [("cpu-cycles", perfTypeHardware, 0),
    ("cpu-instructions", perfTypeHardware, 1),
    ("instructions", perfTypeHardware, 1),
    ("cache-references", perfTypeHardware, 2),
    ("cache-misses", perfTypeHardware, 3),
    ("branch-instructions", perfTypeHardware, 4),
    ("branches", perfTypeHardware, 4),
    ("branch-misses", perfTypeHardware, 5),
    ("stalled-cycles-frontend", perfTypeHardware, 7),
    ("stalled-cycles-backend", perfTypeHardware, 8),
    ("cpu-clock", perfTypeSoftware, 0),
    ("task-clock", perfTypeSoftware, 1),
    ("page-faults", perfTypeSoftware, 2),
    ("faults", perfTypeSoftware, 2),
    ("context-switches", perfTypeSoftware, 3),
    ("cs", perfTypeSoftware, 3),
    ("cpu-migrations", perfTypeSoftware, 4),
    ("migrations", perfTypeSoftware, 4),
    ("minor-faults", perfTypeSoftware, 5),
    ("major-faults", perfTypeSoftware, 6)]

def CounterConfig.toPerfConfig : CounterConfig → Except BpfError (String × UInt32 × UInt64)
  | .named name =>
    match knownCounters.lookup name with
    | some (perfType, config) => .ok (name, perfType, config)
    | none => .error (.loadError s!"unknown performance counter: {name}")
  | .custom name perfType config => .ok (name, perfType, config)

/-- The lists that the loop of `expand_counters` fills. -/
structure Expansion where
  counters : List CounterConfig := []
  derived : List (String × DerivedCounter) := []
  isDerivedOnly : List Bool := []
  currentIdx : ℕ := 0
deriving DecidableEq, Repr

def Expansion.push (x : Expansion) (counter : CounterConfig) : Expansion :=
  if counter = .named "ipc" then
    { counters := x.counters ++ [.named "cpu-cycles", .named "cpu-instructions"]
      derived := x.derived ++ [("ipc", .ipc x.currentIdx (x.currentIdx + 1))]
      isDerivedOnly := x.isDerivedOnly ++ [true, true]
      currentIdx := x.currentIdx + 2 }
  else
    { x with
      counters := x.counters ++ [counter]
      isDerivedOnly := x.isDerivedOnly ++ [false]
      currentIdx := x.currentIdx + 1 }

def expandCounters (counters : List CounterConfig) : Expansion := counters.foldl .push {}

def checkCounters : List CounterConfig → Except BpfError Unit
  | [] => .ok ()
  | counter :: counters => do
    let _ ← counter.toPerfConfig
    checkCounters counters

def validate (counters : List CounterConfig) : Except BpfError Expansion :=
  let x := expandCounters counters
  let len := x.counters.length
  if x.counters.isEmpty then .error (.loadError "no performance counters configured")
  else if maxPerfCounters < len then
    .error (.loadError s!"too many performance counters: {len} (max: {maxPerfCounters})")
  else do
    checkCounters x.counters
    pure x

/-! ## The program -/

structure PerfCounterEvent where
  timestamp : ℕ
  cpuId : ℕ
  counters : Vector ℕ maxPerfCounters

/-- The timer of a processor fires. The program finds room in the ring buffer or not, and
`bpf_perf_event_read_value` answers its flags with a value or fails. -/
structure Tick where
  timestamp : ℕ
  cpu : ℕ
  cpu_lt : cpu < 2 ^ 32
  room : Bool
  readValue : ℕ → Option ℕ

/-- A signed slot is widened to the flags of the helper. -/
def slotFlags (cpu counterCount i : ℕ) : ℕ :=
  let idx := (cpu * counterCount + i) % 2 ^ 32
  if idx < 2 ^ 31 then idx else idx + (2 ^ 64 - 2 ^ 32)

def perfcounterTimer (counterCount : ℕ) (t : Tick) : Option PerfCounterEvent :=
  if !t.room then none
  else
    let counterCount := min counterCount maxPerfCounters
    some
      { timestamp := t.timestamp
        cpuId := t.cpu
        counters := Vector.ofFn fun i =>
          if i < counterCount then (t.readValue (slotFlags t.cpu counterCount i)).getD 0 else 0 }

/-! ## The callback -/

/-- What the callback computes with floats: a number as a float, a quotient, and `0.0`. -/
structure Conversions (F : Type) where
  asF64 : ℕ → F
  div : F → F → F
  zero : F

/-- Without rounding. -/
def unrounded : Conversions ℚ := ⟨fun n => n, fun a b => a / b, 0⟩

structure CounterSample (F : Type) where
  name : String
  value : F
  timestamp : ℕ
  trackId : TrackId
  unit : Option String
deriving DecidableEq

inductive Report (F : Type)
  | track (t : Track)
  | counter (c : CounterSample F)
deriving DecidableEq

/-- What the closure captures, and the messages it has handed on. -/
structure Collector (F : Type) where
  previousValues : ℕ × ℕ → Option ℕ
  reports : List (Report F)

def Collector.new {F : Type} : Collector F := ⟨fun _ => none, []⟩

/-- An index is out of bounds, or the user's callback has returned a code. -/
inductive Stop
  | panicked
  | refused
deriving DecidableEq, Repr

abbrev CollectOp (F α : Type) := Op (Collector F) Stop α

section Collect
variable {F : Type}

def index {α : Type} (xs : List α) (i : ℕ) : CollectOp F α :=
  match xs[i]? with
  | some a => pure a
  | none => Op.fail .panicked

/-- The slice `event.counters[..counters_len]`, with the indices. -/
def PerfCounterEvent.enumerate (event : PerfCounterEvent) (countersLen : ℕ) :
    CollectOp F (List (ℕ × ℕ)) :=
  if countersLen ≤ maxPerfCounters then pure (event.counters.toList.take countersLen).zipIdx
  else Op.fail .panicked

def trackId (cpu series : ℕ) : ℕ := (cpu <<< 32) % 2 ^ 64 ||| series

def delta (previous : Option ℕ) (value : ℕ) : ℕ :=
  match previous with
  | some prev => if prev ≤ value then value - prev else value
  | none => 0

def updatePreviousValues (event : PerfCounterEvent) (countersLen : ℕ) : CollectOp F Unit := do
  let values ← event.enumerate countersLen
  Op.modify fun c =>
    { c with
      previousValues := values.foldl
        (fun previous x => Function.update previous (event.cpuId, x.2) (some x.1))
        c.previousValues }

def formatTrackName (name : String) (cpu cpuCount : ℕ) : String :=
  let width := (Nat.toDigits 10 (cpuCount - 1)).length
  let digits := Nat.toDigits 10 cpu
  let number := String.ofList (List.replicate (width - digits.length) '0' ++ digits)
  s!"{name} #{number}"

variable (conv : Conversions F) (callback : ℕ → ℤ)

def emit (r : Report F) : CollectOp F Unit := fun c =>
  (if callback c.reports.length = 0 then .ok () else .error .refused,
    { c with reports := c.reports ++ [r] })

/-- A report for each of the counters that are not only there for a derived one. -/
def emitRegular {α : Type} (isDerivedOnly : List Bool) (report : α → ℕ → Report F) :
    List (α × ℕ) → CollectOp F Unit
  | [] => pure ()
  | (a, i) :: rest => do
    let derivedOnly ← index isDerivedOnly i
    if derivedOnly then emitRegular isDerivedOnly report rest
    else
      emit callback (report a i)
      emitRegular isDerivedOnly report rest

def processRegularCounters (event : PerfCounterEvent) (countersLen : ℕ)
    (previousValues : ℕ × ℕ → Option ℕ) (isDerivedOnly : List Bool) : CollectOp F Unit := do
  let values ← event.enumerate countersLen
  emitRegular callback isDerivedOnly
    (fun value i => .counter ⟨"", conv.asF64 (delta (previousValues (event.cpuId, i)) value),
      event.timestamp, .counter (trackId event.cpuId i), none⟩) values

/-- The value is looked at only if there is one before it. -/
def deltaAt (event : PerfCounterEvent) (previousValues : ℕ × ℕ → Option ℕ) (i : ℕ) :
    CollectOp F ℕ :=
  match previousValues (event.cpuId, i) with
  | some prev => do
    let current ← index event.counters.toList i
    pure (delta (some prev) current)
  | none => pure 0

def ipc (instructionsDelta cyclesDelta : ℕ) : F :=
  if 0 < cyclesDelta then conv.div (conv.asF64 instructionsDelta) (conv.asF64 cyclesDelta)
  else conv.zero

def processDerivedCounters (event : PerfCounterEvent) (countersLen : ℕ)
    (previousValues : ℕ × ℕ → Option ℕ) : List ((String × DerivedCounter) × ℕ) → CollectOp F Unit
  | [] => pure ()
  | ((_, .ipc cyclesIdx instructionsIdx), idx) :: rest => do
    let cyclesDelta ← deltaAt event previousValues cyclesIdx
    let instructionsDelta ← deltaAt event previousValues instructionsIdx
    emit callback (.counter ⟨"", ipc conv instructionsDelta cyclesDelta, event.timestamp,
      .counter (trackId event.cpuId (countersLen + idx)), none⟩)
    processDerivedCounters event countersLen previousValues rest

def handleEvent (x : Expansion) (event : PerfCounterEvent) : CollectOp F Unit := do
  let c ← Op.get
  processRegularCounters conv callback event x.counters.length c.previousValues x.isDerivedOnly
  processDerivedCounters conv callback event x.counters.length c.previousValues x.derived.zipIdx
  updatePreviousValues event x.counters.length

/-- The ticks one after another, with the outcome of the callback for those that have left
an event. -/
def tracer (x : Expansion) : Machine (Collector F) Tick (Except Stop Unit) where
  step c t :=
    match perfcounterTimer x.counters.length t with
    | none => (c, [])
    | some event => let r := handleEvent conv callback x event c; (r.2, [r.1])

/-! ## The declaration of the tracks -/

def counterTrack (name : String) (cpu nprocs series : ℕ) : Report F :=
  .track ⟨formatTrackName name cpu nprocs, .counter (trackId cpu series) none,
    some (.cpu (cpu % 2 ^ 32))⟩

def declareDerived (x : Expansion) (cpu nprocs : ℕ) :
    List ((String × DerivedCounter) × ℕ) → CollectOp F Unit
  | [] => pure ()
  | ((name, _), idx) :: rest => do
    emit callback (counterTrack name cpu nprocs (x.counters.length + idx))
    declareDerived x cpu nprocs rest

def declareTracks (x : Expansion) (nprocs : ℕ) : List ℕ → CollectOp F Unit
  | [] => pure ()
  | cpu :: cpus => do
    emitRegular callback x.isDerivedOnly
      (fun counter i => counterTrack counter.name cpu nprocs i) x.counters.zipIdx
    declareDerived callback x cpu nprocs x.derived.zipIdx
    declareTracks x nprocs cpus

end Collect
end Manytrace.Bpf.PerfCounter
