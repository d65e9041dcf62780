import Manytrace.Core.Machine
import Manytrace.Symbolizer.InternedSymbolizer

/-! The sampling profiler. The program of the kernel stores the stacks in a stack map and sends
their ids through a ring buffer; user space looks the stacks up when it comes to the record. -/
namespace Manytrace.Bpf.Profiler
open Manytrace.Core Manytrace.Protocol Manytrace.Symbolizer

structure PerfEvent where
  timestamp : ℕ
  tgid : UInt32
  pid : UInt32
  cpuId : ℕ
  ustackId : ℤ
  kstackId : ℤ
deriving DecidableEq, Repr

structure Config where
  filterTgid : Bool
  collectUstack : Bool
  collectKstack : Bool
deriving DecidableEq, Repr

def perfMaxStackDepth : ℕ := 127

/-- The 10000 entries of the map, rounded up to a power of two. -/
def stackmapBuckets : ℕ := 16384

/-- The buckets of the stack map. -/
abbrev Stackmap := ℕ → Option (List ℕ)

/-- What a sample finds: the task, the clock, the filter map, the stacks as the kernel walks them
if it can, and whether the ring buffer has room. -/
structure Context where
  now : ℕ
  tgid : UInt32
  pid : UInt32
  cpu : ℕ
  filterTgid : List UInt32
  userStack : Option (List ℕ)
  kernelStack : Option (List ℕ)
  room : Bool
deriving DecidableEq, Repr

section Kernel
variable (hash : List ℕ → ℕ)

def bucketOf (stack : List ℕ) : ℕ := hash stack % stackmapBuckets

/-- `bpf_get_stackid` as it is called here. A stack whose hash is that of the bucket is taken to be
in it (`BPF_F_FAST_STACK_CMP`), any other takes the place of what was there
(`BPF_F_REUSE_STACKID`). -/
def bpfGetStackid (m : Stackmap) (stack : List ℕ) : Stackmap :=
  if (m (bucketOf hash stack)).map hash = some (hash stack) then m
  else Function.update m (bucketOf hash stack) (some stack)

/-- The id of a stack, or of an error if there is none. -/
def collect (enabled : Bool) (stack : Option (List ℕ)) (m : Stackmap) : ℤ × Stackmap :=
  if enabled then
    match stack with
    | some stack => (bucketOf hash stack, bpfGetStackid hash m stack)
    | none => (-14, m)
  else (-1, m)

def applyTgidFilter (cfg : Config) (ctx : Context) : Bool :=
  cfg.filterTgid && !ctx.filterTgid.contains ctx.tgid

def profilerPerfEvent (cfg : Config) (ctx : Context) (m : Stackmap) :
    Option PerfEvent × Stackmap :=
  if ctx.pid = 0 then (none, m)
  else if applyTgidFilter cfg ctx then (none, m)
  else if !ctx.room then (none, m)
  else
    let u := collect hash cfg.collectUstack ctx.userStack m
    let k := collect hash cfg.collectKstack ctx.kernelStack u.2
    (some ⟨ctx.now, ctx.tgid, ctx.pid, ctx.cpu, u.1, k.1⟩, k.2)

end Kernel

/-! ## User space -/

/-- The last position with the property. -/
def rposition (p : ℕ → Bool) (l : List ℕ) : Option ℕ :=
  (l.reverse.findIdx? p).map fun i => l.length - 1 - i

/-- A bucket is copied into 127 words, and the zeros at the end are cut off. -/
def getStackFrames (m : Stackmap) (stackId : ℤ) : List ℕ :=
  match m stackId.toNat with
  | none => []
  | some stack =>
    let frames := stack ++ List.replicate (perfMaxStackDepth - stack.length) 0
    frames.take ((rposition (fun x => x != 0) frames).getD 0 + 1)

def framesOf (m : Stackmap) (stackId : ℤ) : List ℕ :=
  if 0 ≤ stackId then getStackFrames m stackId else []

/-- What blazesym answers, and whether the callback refuses the definitions. -/
structure Answers where
  userResult : Except String (List (Option String))
  kernelResult : Except String (List (Option String))
  refused : Bool

/-- The call of the symbolizer, if there is something to symbolize. -/
def requestOf (m : Stackmap) (event : PerfEvent) (x : Answers) : Option Request :=
  let user := framesOf m event.ustackId
  let kernel := framesOf m event.kstackId
  if user.isEmpty && kernel.isEmpty then none
  else some ⟨asI32 event.tgid, user, kernel, x.userResult, x.kernelResult⟩

def createSample (event : PerfEvent) (callstackIid : ℕ) : Sample where
  cpu := event.cpuId
  trackId := .thread (asI32 event.pid) (asI32 event.tgid)
  timestamp := event.timestamp
  callstackIid := callstackIid
  cpuMode := .unknown

section Callback
variable (hashCallstack : List ℕ → ℕ) (streamId : ℕ)

/-- The messages of a stack: what is new about it, then the sample. -/
def stackMessages (event : PerfEvent) (refused : Bool) (callstackIid : ℕ) :
    Option InternedData → List Message
  | some data =>
    ⟨.internedData data, some streamId⟩ ::
      if refused then [] else [⟨.sample (createSample event callstackIid), some streamId⟩]
  | none => [⟨.sample (createSample event callstackIid), some streamId⟩]

/-- The callback of the ring buffer. -/
def callback (m : Stackmap) (event : PerfEvent) (x : Answers) (c : InternedCache) :
    InternedCache × List Message :=
  match requestOf m event x with
  | none => (c, [])
  | some r =>
    match symbolize r with
    | .error _ => (c, [])
    | .ok i =>
      let a := i.data hashCallstack c
      (a.2, stackMessages streamId event x.refused a.1.1 a.1.2)

variable {hashCallstack streamId} {m : Stackmap} {event : PerfEvent} {x : Answers}
  {c : InternedCache} {r : Request}

theorem callback_none (h : requestOf m event x = none) :
    callback hashCallstack streamId m event x c = (c, []) := by
  simp [callback, h]

theorem callback_error (h : requestOf m event x = some r) {e : SymbolizerError}
    (hr : symbolize r = .error e) : callback hashCallstack streamId m event x c = (c, []) := by
  simp [callback, h, hr]

theorem callback_ok (h : requestOf m event x = some r) {i : Interned} (hr : symbolize r = .ok i) :
    callback hashCallstack streamId m event x c = ((i.data hashCallstack c).2,
      stackMessages streamId event x.refused (i.data hashCallstack c).1.1
        (i.data hashCallstack c).1.2) := by
  simp [callback, h, hr]

end Callback

/-! ## Both sides -/

/-- A record of the ring buffer, with the stacks that were on the thread when it was made. They
are not in the record itself. -/
structure Record where
  event : PerfEvent
  user : List ℕ
  kernel : List ℕ
deriving DecidableEq, Repr

structure State where
  ring : List Record
  stackmap : Stackmap
  cache : InternedCache

def State.new : State := ⟨[], fun _ => none, .new⟩

inductive Act
  | perfEvent (ctx : Context)
  | consume (x : Answers)

section Machine
variable (cfg : Config) (hash hashCallstack : List ℕ → ℕ) (streamId : ℕ)

def collected (enabled : Bool) (stack : Option (List ℕ)) : List ℕ :=
  if enabled then stack.getD [] else []

/-- A sample comes in, or the oldest record is consumed. The outputs are the messages of the
callback. -/
def profiler : Machine State Act Message where
  step s
    | .perfEvent ctx =>
      let r := profilerPerfEvent hash cfg ctx s.stackmap
      let record := r.1.map fun event =>
        (⟨event, collected cfg.collectUstack ctx.userStack,
          collected cfg.collectKstack ctx.kernelStack⟩ : Record)
      ({ s with ring := s.ring ++ record.toList, stackmap := r.2 }, [])
    | .consume x =>
      match s.ring with
      | [] => (s, [])
      | record :: ring =>
        let r := callback hashCallstack streamId s.stackmap record.event x s.cache
        ({ s with ring := ring, cache := r.1 }, r.2)

variable {cfg hash hashCallstack streamId} {s : State} {x : Answers}

theorem step_consume_nil (h : s.ring = []) :
    (profiler cfg hash hashCallstack streamId).step s (.consume x) = (s, []) := by
  simp [profiler, h]

theorem step_consume_cons {record : Record} {ring : List Record} (h : s.ring = record :: ring) :
    (profiler cfg hash hashCallstack streamId).step s (.consume x) =
      ({ s with
        ring := ring
        cache := (callback hashCallstack streamId s.stackmap record.event x s.cache).1 },
        (callback hashCallstack streamId s.stackmap record.event x s.cache).2) := by
  simp [profiler, h]

end Machine
end Manytrace.Bpf.Profiler
