import Manytrace.Bpf.BlockShown
import Manytrace.Bpf.DepthIntegral
import Manytrace.Bpf.DeviceDeltas
import Manytrace.Bpf.Percentiles
import Manytrace.Core.Lists

/-! The samples of the block tracer. What the counters of a device show in the trace adds up to the
statistics that were last read for it. -/
namespace Manytrace.Bpf.BlockTrack
open Manytrace.Core Manytrace.Protocol Manytrace.Converter

inductive BlockMetric
  | throughput
  | iops
  | latency
  | saturation
  | errors
deriving DecidableEq, Repr

structure BlockIoConfig where
  operations : List BlockOperation := [.read, .write]
  metrics : List BlockMetric := [.throughput, .iops, .latency, .saturation, .errors]
  timeline : Bool := false
deriving DecidableEq, Repr

def BlockIoConfig.hasMetric (cfg : BlockIoConfig) (m : BlockMetric) : Bool := m ∈ cfg.metrics

inductive Quantile
  | p50
  | p95
  | p99
deriving DecidableEq, Repr

/-- The floats of the samples: a number, a number in so many nanoseconds as a rate per second, the
average of so many nanoseconds over a number of operations in microseconds, and the percentage and
the ratio of two times. The rank of a quantile is rounded up to a number. -/
structure Floats where
  asF64 : ℕ → UInt64
  perSecond : (count elapsedNs : ℕ) → UInt64
  averageMicros : (latencyNs operations : ℕ) → UInt64
  percent : (ns elapsedNs : ℕ) → UInt64
  ratio : (ns elapsedNs : ℕ) → UInt64
  rank : Quantile → ℕ → ℕ

section Samples
variable (cfg : BlockIoConfig) (f : Floats)

/-- The sums over the buckets wrap, as in a release build. -/
def Floats.percentile (histogram : ℕ → ℕ) (q : Quantile) : UInt64 :=
  f.asF64 ((histogramPercentile .wrapping histogram (f.rank q)).getD 0)

def latencySamples (operation : BlockOperation) (stats : OperationStats) : List CounterSample :=
  let operations := max stats.operations 1
  [(.queueAverage, "queue_latency_avg", f.averageMicros stats.queueLatencyNs operations),
    (.serviceAverage, "service_latency_avg", f.averageMicros stats.serviceLatencyNs operations),
    (.totalAverage, "total_latency_avg", f.averageMicros stats.totalLatencyNs operations),
    (.serviceP50, "service_latency_p50", f.percentile stats.serviceHistogram .p50),
    (.serviceP95, "service_latency_p95", f.percentile stats.serviceHistogram .p95),
    (.serviceP99, "service_latency_p99", f.percentile stats.serviceHistogram .p99),
    (.totalP50, "total_latency_p50", f.percentile stats.totalHistogram .p50),
    (.totalP95, "total_latency_p95", f.percentile stats.totalHistogram .p95),
    (.totalP99, "total_latency_p99", f.percentile stats.totalHistogram .p99)].map
      fun x => ⟨some operation, x.1, operation.name ++ "_" ++ x.2.1, x.2.2, "us"⟩

def operationSamples (operation : BlockOperation) (stats : OperationStats) (elapsedNs : ℕ) :
    List CounterSample :=
  (if cfg.hasMetric .throughput then
    [⟨some operation, .throughput, operation.name ++ "_throughput",
      f.perSecond stats.bytes elapsedNs, "bytes/s"⟩] else []) ++
  (if cfg.hasMetric .iops then
    [⟨some operation, .iops, operation.name ++ "_iops",
      f.perSecond stats.operations elapsedNs, "operations/s"⟩] else []) ++
  (if cfg.hasMetric .latency then latencySamples f operation stats else []) ++
  (if cfg.hasMetric .errors then
    [⟨some operation, .errors, operation.name ++ "_errors", f.asF64 stats.errors, "count"⟩]
    else [])

def errorSamples (delta : DeviceStats) : List CounterSample :=
  if cfg.hasMetric .errors then
    [⟨none, .requeues, "requeues", f.asF64 delta.requeues, "count"⟩,
      ⟨none, .lostRequests, "lost_requests", f.asF64 delta.lostRequests, "count"⟩] else []

def timelineSamples (delta : DeviceStats) : List CounterSample :=
  if cfg.timeline then
    [⟨none, .timelineDrops, "timeline_drops", f.asF64 delta.timelineDrops, "count"⟩] else []

def depthSamples (depth : DepthSnapshot) (elapsedNs : ℕ) : List CounterSample :=
  let elapsed := max elapsedNs 1
  [⟨none, .busyPercent, "busy_percent", f.percent depth.busyNs elapsed, "percent"⟩,
    ⟨none, .saturatedPercent, "saturated_percent", f.percent depth.saturatedNs elapsed, "percent"⟩,
    ⟨none, .averageInflight, "average_inflight", f.ratio depth.inflightNs elapsed, "requests"⟩,
    ⟨none, .averageQueued, "average_queued", f.ratio depth.queuedNs elapsed, "requests"⟩,
    ⟨none, .inflight, "inflight", f.asF64 depth.inflight, "requests"⟩,
    ⟨none, .queued, "queued", f.asF64 depth.queued, "requests"⟩,
    ⟨none, .maxInflight, "max_inflight", f.asF64 depth.maxInflight, "requests"⟩,
    ⟨none, .maxQueued, "max_queued", f.asF64 depth.maxQueued, "requests"⟩]

end Samples

/-! ## A pass over the devices -/

def DeviceDepth.active (d : DeviceDepth) : Bool :=
  0 < d.busyNs || 0 < d.saturatedNs || 0 < d.inflight || 0 < d.queued || 0 < d.maxInflight ||
    0 < d.maxQueued

/-- The maps as they are read at a time. -/
structure Reading where
  now : ℕ
  stats : ℕ → Option DeviceStats
  deviceDepths : ℕ → Option DeviceDepth

def Reading.depths (cfg : BlockIoConfig) (r : Reading) (dev : ℕ) : Option DeviceDepth :=
  if cfg.hasMetric .saturation then r.deviceDepths dev else none

def Reading.covers (cfg : BlockIoConfig) (r : Reading) (dev : ℕ) : Bool :=
  (r.stats dev).isSome || (r.depths cfg dev).any DeviceDepth.active

/-- A hash set has the devices, and gives them in some order. -/
structure Pass (cfg : BlockIoConfig) extends Reading where
  devices : List ℕ
  nodup : devices.Nodup
  mem_devices : ∀ dev, dev ∈ devices ↔ toReading.covers cfg dev = true

structure Memory where
  previousStats : ℕ → Option DeviceStats
  previousDepth : ℕ → Option DepthSnapshot
  lastSampleNs : ℕ

structure BlockIo where
  memory : Memory
  registry : Registry

section Sampling
variable (env : Surroundings) (random : ℕ → ℕ) (callback : List (Event × ℤ) → Event → ℤ)
  (cfg : BlockIoConfig) (f : Floats)

/-- The samples are emitted up to the first that is refused. -/
def Registry.emitAll (dev now : ℕ) : Registry → List CounterSample → ℤ × Registry
  | s, [] => (0, s)
  | s, sample :: rest =>
    let (result, s) := s.emitCounter env random callback ⟨dev, sample, now⟩
    if result ≠ 0 then (result, s) else Registry.emitAll dev now s rest

/-- The statistics of a device. The result is that of the last counter. -/
def BlockIo.sampleStats (elapsedNs now dev : ℕ) (s : BlockIo) (current : DeviceStats) :
    ℤ × BlockIo :=
  let delta := current.delta (s.memory.previousStats dev)
  let registry := cfg.operations.foldl (fun r operation =>
    (r.emitAll env random callback dev now
      (operationSamples cfg f operation (delta.operations operation) elapsedNs)).2) s.registry
  let registry := (registry.emitAll env random callback dev now (errorSamples cfg f delta)).2
  let (result, registry) :=
    registry.emitAll env random callback dev now (timelineSamples cfg f delta)
  (result,
    ⟨{ s.memory with
        previousStats := Function.update s.memory.previousStats dev (some current) }, registry⟩)

def BlockIo.sampleDepth (elapsedNs now dev : ℕ) (s : BlockIo) (current : DeviceDepth) : BlockIo :=
  let snapshot := current.snapshot now
  let delta := snapshot.delta (s.memory.previousDepth dev)
  ⟨{ s.memory with
      previousDepth := Function.update s.memory.previousDepth dev (some snapshot) },
    (s.registry.emitAll env random callback dev now (depthSamples f delta elapsedNs)).2⟩

def BlockIo.sampleDevice (r : Reading) (elapsedNs : ℕ) (s : BlockIo) (dev : ℕ) : BlockIo :=
  let (result, s) :=
    match r.stats dev with
    | some current => s.sampleStats env random callback cfg f elapsedNs r.now dev current
    | none => (0, s)
  -- the depth of the device is left out if its last counter was refused
  if result ≠ 0 then s
  else
    match r.depths cfg dev with
    | some current => s.sampleDepth env random callback f elapsedNs r.now dev current
    | none => s

def Memory.elapsedNs (m : Memory) (now : ℕ) : ℕ := max (now - m.lastSampleNs) 1

def BlockIo.sample (s : BlockIo) (p : Pass cfg) : BlockIo :=
  let s' := p.devices.foldl (BlockIo.sampleDevice env random callback cfg f p.toReading
    (s.memory.elapsedNs p.now)) s
  { s' with memory := { s'.memory with lastSampleNs := p.now } }

/-- What user space handles: the maps at the times of the passes, and the spans in between. -/
inductive Input (cfg : BlockIoConfig)
  | pass (p : Pass cfg)
  | span (e : RequestSpanEvent)

def BlockIo.handle (s : BlockIo) : Input cfg → BlockIo
  | .pass p => s.sample env random callback cfg f p
  | .span e => { s with registry := (s.registry.emitRequestSpan env random callback e).2 }

def BlockIo.new (startNs : ℕ) : BlockIo :=
  ⟨⟨fun _ => none, fun _ => none, startNs⟩, .new⟩

end Sampling

/-! ## What a pass reports -/

section Reports
variable (cfg : BlockIoConfig) (f : Floats)

def statsSamples (delta : DeviceStats) (elapsedNs : ℕ) : List CounterSample :=
  cfg.operations.flatMap (fun op => operationSamples cfg f op (delta.operations op) elapsedNs) ++
    errorSamples cfg f delta ++ timelineSamples cfg f delta

/-- The samples of a device with the differences from the readings before. -/
def Memory.samples (m : Memory) (r : Reading) (elapsedNs dev : ℕ) : List CounterSample :=
  ((r.stats dev).map fun x => statsSamples cfg f (x.delta (m.previousStats dev)) elapsedNs).getD
      [] ++
    ((r.depths cfg dev).map fun x =>
      depthSamples f ((x.snapshot r.now).delta (m.previousDepth dev)) elapsedNs).getD []

def Memory.remember (m : Memory) (r : Reading) (dev : ℕ) : Memory :=
  { m with
    previousStats := Function.update m.previousStats dev
      ((r.stats dev).or (m.previousStats dev))
    previousDepth := Function.update m.previousDepth dev
      (((r.depths cfg dev).map fun x => x.snapshot r.now).or (m.previousDepth dev)) }

/-- One device after the other, each with all its samples. -/
def deviceMachine (r : Reading) (elapsedNs : ℕ) : Machine Memory ℕ Report where
  step m dev := (m.remember cfg r dev,
    (m.samples cfg f r elapsedNs dev).map fun y => .counter ⟨dev, y, r.now⟩)

def samplingMachine : Machine Memory (Input cfg) Report where
  step m
    | .pass p =>
      ({ (deviceMachine cfg f p.toReading (m.elapsedNs p.now)).final m p.devices with
          lastSampleNs := p.now },
        (deviceMachine cfg f p.toReading (m.elapsedNs p.now)).outputs m p.devices)
    | .span e => (m, [.span e])

end Reports

section Accepted
variable (env : Surroundings) (random : ℕ → ℕ) (cfg : BlockIoConfig) (f : Floats)

/-- The registry after these reports. -/
def Registry.after (s : Registry) (rs : List Report) : Registry :=
  rs.foldl (fun s r => (s.report env random accepting r).2) s

theorem Registry.after_append (s : Registry) (rs rs' : List Report) :
    s.after env random (rs ++ rs') = (s.after env random rs).after env random rs' :=
  List.foldl_append

theorem ensureTrack_accepting (s : Registry) (dev : ℕ) :
    (s.ensureTrack env random accepting dev).2.1 = 0 := by
  unfold Registry.ensureTrack
  cases s.trackIds dev <;> rfl

theorem emitCounter_accepting (s : Registry) (v : Value) :
    (s.emitCounter env random accepting v).1 = 0 := by
  unfold Registry.emitCounter
  simp only [ensureTrack_accepting, ne_eq, not_true_eq_false, if_false]
  unfold Registry.emitBelow
  split <;> rfl

theorem emitAll_accepting (dev now : ℕ) (s : Registry) (ys : List CounterSample) :
    s.emitAll env random accepting dev now ys =
      (0, s.after env random (ys.map fun y => .counter ⟨dev, y, now⟩)) := by
  induction ys generalizing s with
  | nil => rfl
  | cons y ys ih =>
    simp only [Registry.emitAll, emitCounter_accepting, ne_eq, not_true_eq_false, if_false, ih]
    rfl

theorem foldl_after (report : CounterSample → Report)
    (samples : BlockOperation → List CounterSample)
    (s : Registry) (ops : List BlockOperation) :
    ops.foldl (fun r op => r.after env random ((samples op).map report)) s =
      s.after env random ((ops.flatMap samples).map report) := by
  induction ops generalizing s with
  | nil => rfl
  | cons op ops ih =>
    rw [List.foldl_cons, ih, List.flatMap_cons, List.map_append, Registry.after_append]

theorem sampleStats_accepting (elapsedNs now dev : ℕ) (s : BlockIo) (current : DeviceStats) :
    s.sampleStats env random accepting cfg f elapsedNs now dev current =
      (0, ⟨{ s.memory with
              previousStats := Function.update s.memory.previousStats dev (some current) },
        s.registry.after env random ((statsSamples cfg f
          (current.delta (s.memory.previousStats dev)) elapsedNs).map
            fun y => .counter ⟨dev, y, now⟩)⟩) := by
  simp only [BlockIo.sampleStats, emitAll_accepting, statsSamples, List.map_append,
    Registry.after_append, foldl_after]

theorem sampleDevice_accepting (r : Reading) (elapsedNs : ℕ) (s : BlockIo) (dev : ℕ) :
    s.sampleDevice env random accepting cfg f r elapsedNs dev =
      ⟨((deviceMachine cfg f r elapsedNs).step s.memory dev).1,
        s.registry.after env random ((deviceMachine cfg f r elapsedNs).step s.memory dev).2⟩ := by
  obtain ⟨m, registry⟩ := s
  cases hstats : r.stats dev <;> cases hdepth : r.depths cfg dev <;>
    simp [BlockIo.sampleDevice, BlockIo.sampleDepth, sampleStats_accepting, emitAll_accepting,
      deviceMachine, Memory.samples, Memory.remember, hstats, hdepth, Registry.after]

theorem foldl_sampleDevice (r : Reading) (elapsedNs : ℕ) (s : BlockIo) (devices : List ℕ) :
    devices.foldl (BlockIo.sampleDevice env random accepting cfg f r elapsedNs) s =
      ⟨(deviceMachine cfg f r elapsedNs).final s.memory devices,
        s.registry.after env random
          ((deviceMachine cfg f r elapsedNs).outputs s.memory devices)⟩ := by
  induction devices generalizing s with
  | nil => rfl
  | cons dev devices ih =>
    rw [List.foldl_cons, ih, sampleDevice_accepting, Machine.final_cons, Machine.outputs_cons,
      Registry.after_append]

/-- A callback that accepts everything gets what the passes and the spans report. -/
theorem handle_accepting (s : BlockIo) (xs : List (Input cfg)) :
    xs.foldl (BlockIo.handle env random accepting cfg f) s =
      ⟨(samplingMachine cfg f).final s.memory xs,
        s.registry.after env random ((samplingMachine cfg f).outputs s.memory xs)⟩ := by
  induction xs generalizing s with
  | nil => rfl
  | cons x xs ih =>
    rw [List.foldl_cons, ih, Machine.final_cons, Machine.outputs_cons, Registry.after_append]
    cases x with
    | pass p =>
      rw [BlockIo.handle, BlockIo.sample, foldl_sampleDevice]
      rfl
    | span e => rfl

end Accepted

/-! ## The series of a counter -/

/-- The counters that are shown by how much they have grown. -/
inductive Cumulative
  | throughput (op : BlockOperation)
  | iops (op : BlockOperation)
  | errors (op : BlockOperation)
  | requeues
  | lostRequests
  | timelineDrops
deriving DecidableEq, Repr

/-- By how much a counter had grown at a time, and since when. -/
structure Growing where
  now : ℕ
  elapsedNs : ℕ
  count : ℕ
deriving DecidableEq, Repr

namespace Cumulative

def counter : Cumulative → DeviceCounter
  | throughput op => .operation op .bytes
  | iops op => .operation op .operations
  | errors op => .operation op .errors
  | requeues => .requeues
  | lostRequests => .lostRequests
  | timelineDrops => .timelineDrops

def enabled (cfg : BlockIoConfig) : Cumulative → Bool
  | throughput op => op ∈ cfg.operations && cfg.hasMetric .throughput
  | iops op => op ∈ cfg.operations && cfg.hasMetric .iops
  | errors op => op ∈ cfg.operations && cfg.hasMetric .errors
  | requeues | lostRequests => cfg.hasMetric .errors
  | timelineDrops => cfg.timeline

def operation? : Cumulative → Option BlockOperation
  | throughput op | iops op | errors op => some op
  | _ => none

def kind : Cumulative → CounterKind
  | throughput _ => .throughput
  | iops _ => .iops
  | errors _ => .errors
  | requeues => .requeues
  | lostRequests => .lostRequests
  | timelineDrops => .timelineDrops

def label : Cumulative → String
  | throughput op => op.name ++ "_throughput"
  | iops op => op.name ++ "_iops"
  | errors op => op.name ++ "_errors"
  | requeues => "requeues"
  | lostRequests => "lost_requests"
  | timelineDrops => "timeline_drops"

def unit : Cumulative → String
  | throughput _ => "bytes/s"
  | iops _ => "operations/s"
  | _ => "count"

def value (f : Floats) (g : Growing) : Cumulative → UInt64
  | throughput _ | iops _ => f.perSecond g.count g.elapsedNs
  | _ => f.asF64 g.count

def sample (f : Floats) (c : Cumulative) (g : Growing) : CounterSample :=
  ⟨c.operation?, c.kind, c.label, c.value f g, c.unit⟩

def event (f : Floats) (id : ℕ) (c : Cumulative) (g : Growing) : Event :=
  .counter ⟨c.label, c.value f g, g.now, .counter id, ⟨[], [], [], []⟩, some c.unit⟩

def shows (c : Cumulative) (y : CounterSample) : Bool :=
  y.operation = c.operation? && y.kind = c.kind

end Cumulative

section Series
variable {cfg : BlockIoConfig} {f : Floats} {c : Cumulative}

theorem filter_latencySamples (op : BlockOperation) (stats : OperationStats) :
    (latencySamples f op stats).filter c.shows = [] := by
  cases c <;> simp [latencySamples, Cumulative.shows, Cumulative.kind]

theorem filter_depthSamples (depth : DepthSnapshot) (elapsedNs : ℕ) :
    (depthSamples f depth elapsedNs).filter c.shows = [] := by
  cases c <;> simp [depthSamples, Cumulative.shows, Cumulative.kind]

/-- What a counter of the device shows of a difference. -/
def Cumulative.growing (c : Cumulative) (delta : DeviceStats) (now elapsedNs : ℕ) : Growing :=
  ⟨now, elapsedNs, delta.tally (.count c.counter)⟩

theorem filter_operationSamples (op : BlockOperation) (delta : DeviceStats) (now elapsedNs : ℕ)
    (h : c.enabled cfg = true) :
    (operationSamples cfg f op (delta.operations op) elapsedNs).filter c.shows =
      if c.operation? = some op then [c.sample f (c.growing delta now elapsedNs)] else [] := by
  simp only [operationSamples, List.filter_append, apply_ite (List.filter c.shows),
    List.filter_nil, filter_latencySamples, ite_self, List.append_nil]
  cases c with
  | throughput op' | iops op' | errors op' =>
    obtain ⟨-, hmetric⟩ := Bool.and_eq_true_iff.mp h
    by_cases hop : op' = op
    · subst hop
      simp [Cumulative.shows, Cumulative.kind, Cumulative.operation?, hmetric]
      rfl
    · simp [Cumulative.shows, Cumulative.operation?, hop, Ne.symm hop]
  | requeues | lostRequests | timelineDrops =>
    simp [Cumulative.shows, Cumulative.operation?]

/-- Of the statistics of a device a counter shows one sample, as long as no operation is
configured twice. -/
theorem filter_statsSamples (hops : cfg.operations.Nodup) (h : c.enabled cfg = true)
    (delta : DeviceStats) (now elapsedNs : ℕ) :
    (statsSamples cfg f delta elapsedNs).filter c.shows =
      [c.sample f (c.growing delta now elapsedNs)] := by
  have hoperations : (cfg.operations.flatMap fun op =>
      operationSamples cfg f op (delta.operations op) elapsedNs).filter c.shows =
        if c.operation?.isSome then [c.sample f (c.growing delta now elapsedNs)] else [] := by
    simp only [List.filter_flatMap, filter_operationSamples _ delta now elapsedNs h]
    cases hop : c.operation? with
    | none => simp
    | some op =>
      have hmem : op ∈ cfg.operations := by
        cases c <;> cases hop <;> simpa using (Bool.and_eq_true_iff.mp h).1
      rw [flatMap_eq_of_nodup hops hmem]
      · simp
      · intro x _ hne
        simp [Ne.symm hne]
  rw [statsSamples, List.filter_append, List.filter_append, hoperations]
  cases c with
  | throughput op | iops op | errors op =>
    simp [errorSamples, timelineSamples, apply_ite (List.filter _), Cumulative.shows,
      Cumulative.operation?]
  | requeues | lostRequests =>
    change cfg.hasMetric .errors = true at h
    simp [errorSamples, timelineSamples, apply_ite (List.filter _), h, Cumulative.shows,
      Cumulative.operation?, Cumulative.kind]
    rfl
  | timelineDrops =>
    change cfg.timeline = true at h
    simp [errorSamples, timelineSamples, apply_ite (List.filter _), h, Cumulative.shows,
      Cumulative.operation?, Cumulative.kind]
    rfl

end Series

def Cumulative.key (dev : ℕ) (c : Cumulative) : SeriesKey := ⟨dev, c.operation?, c.kind⟩

def Cumulative.point (f : Floats) (dev : ℕ) (c : Cumulative) (g : Growing) : Value :=
  ⟨dev, c.sample f g, g.now⟩

/-- The values of a series among the reports. -/
def valuesOf (k : SeriesKey) (rs : List Report) : List Value :=
  (rs.filterMap Report.value?).filter fun v => v.key = k

theorem valuesOf_append (k : SeriesKey) (rs rs' : List Report) :
    valuesOf k (rs ++ rs') = valuesOf k rs ++ valuesOf k rs' := by
  rw [valuesOf, List.filterMap_append, List.filter_append]
  rfl

def Input.stats? {cfg : BlockIoConfig} (dev : ℕ) : Input cfg → Option DeviceStats
  | .pass p => p.stats dev
  | .span _ => none

/-- How a counter of a device grows from reading to reading. The time of a growth is that of its
pass, and it took the time since the pass before, at least a nanosecond. -/
def growths (cfg : BlockIoConfig) (c : Cumulative) (dev : ℕ) :
    Machine (Option DeviceStats × ℕ) (Input cfg) Growing where
  step s
    | .pass p =>
      match p.stats dev with
      | some current => ((some current, p.now),
          [c.growing (current.delta s.1) p.now (max (p.now - s.2) 1)])
      | none => ((s.1, p.now), [])
    | .span _ => (s, [])

section Passes
variable {cfg : BlockIoConfig} (f : Floats) {c : Cumulative} (dev : ℕ)

theorem valuesOf_counters_of_ne {d : ℕ} (hne : d ≠ dev) (ys : List CounterSample) (now : ℕ) :
    valuesOf (c.key dev) (ys.map fun y => .counter ⟨d, y, now⟩) = [] := by
  refine List.filter_eq_nil_iff.mpr fun v hv => ?_
  obtain ⟨r, hr, hvr⟩ := List.mem_filterMap.mp hv
  obtain ⟨y, -, rfl⟩ := List.mem_map.mp hr
  cases hvr
  simp [Value.key, Cumulative.key, hne]

theorem valuesOf_counters (ys : List CounterSample) (now : ℕ) :
    valuesOf (c.key dev) (ys.map fun y => .counter ⟨dev, y, now⟩) =
      (ys.filter c.shows).map fun y => ⟨dev, y, now⟩ := by
  have hvalues : (ys.map fun y => Report.counter ⟨dev, y, now⟩).filterMap Report.value? =
      ys.map fun y => ⟨dev, y, now⟩ := by
    rw [List.filterMap_map]
    exact congrFun List.filterMap_eq_map ys
  rw [valuesOf, hvalues, List.filter_map]
  congr 2
  funext y
  simp [Value.key, Cumulative.key, Cumulative.shows]

theorem deviceMachine_other (m : Memory) (r : Reading) (elapsedNs : ℕ) {devices : List ℕ}
    (hdev : dev ∉ devices) :
    valuesOf (c.key dev) ((deviceMachine cfg f r elapsedNs).outputs m devices) = [] ∧
      ((deviceMachine cfg f r elapsedNs).final m devices).previousStats dev =
        m.previousStats dev := by
  induction devices generalizing m with
  | nil => exact ⟨rfl, rfl⟩
  | cons d devices ih =>
    obtain ⟨hne, hrest⟩ : dev ≠ d ∧ dev ∉ devices := by simpa using hdev
    obtain ⟨hvalues, hprevious⟩ := ih (m.remember cfg r d) hrest
    constructor
    · rw [Machine.outputs_cons, valuesOf_append]
      change valuesOf (c.key dev) ((m.samples cfg f r elapsedNs d).map _) ++ _ = []
      rw [valuesOf_counters_of_ne dev (Ne.symm hne)]
      exact hvalues
    · exact hprevious.trans (Function.update_of_ne hne ..)

variable (hops : cfg.operations.Nodup) (henabled : c.enabled cfg = true)
include hops henabled

theorem valuesOf_device (m : Memory) (r : Reading) (elapsedNs : ℕ) :
    valuesOf (c.key dev) ((deviceMachine cfg f r elapsedNs).step m dev).2 =
      ((r.stats dev).map fun x => c.point f dev
        (c.growing (x.delta (m.previousStats dev)) r.now elapsedNs)).toList := by
  change valuesOf (c.key dev) ((m.samples cfg f r elapsedNs dev).map _) = _
  have hdepth : (((r.depths cfg dev).map fun x =>
      depthSamples f ((x.snapshot r.now).delta (m.previousDepth dev)) elapsedNs).getD []).filter
        c.shows = [] := by
    cases r.depths cfg dev with
    | none => rfl
    | some x => exact filter_depthSamples _ _
  rw [valuesOf_counters, Memory.samples, List.filter_append, hdepth, List.append_nil]
  cases r.stats dev with
  | none => rfl
  | some x =>
    rw [Option.map_some, Option.getD_some, filter_statsSamples hops henabled _ r.now]
    rfl

/-- In a pass every device has its turn once. -/
theorem deviceMachine_own (m : Memory) (r : Reading) (elapsedNs : ℕ) {devices : List ℕ}
    (hnodup : devices.Nodup) (hdev : (r.stats dev).isSome → dev ∈ devices) :
    valuesOf (c.key dev) ((deviceMachine cfg f r elapsedNs).outputs m devices) =
        ((r.stats dev).map fun x => c.point f dev
          (c.growing (x.delta (m.previousStats dev)) r.now elapsedNs)).toList ∧
      ((deviceMachine cfg f r elapsedNs).final m devices).previousStats dev =
        (r.stats dev).or (m.previousStats dev) := by
  by_cases hmem : dev ∈ devices
  · obtain ⟨before, after, rfl⟩ := List.append_of_mem hmem
    have hbefore : dev ∉ before := fun h =>
      (List.nodup_append.mp hnodup).2.2 dev h dev List.mem_cons_self rfl
    have hafter : dev ∉ after := (List.nodup_cons.mp (List.nodup_append.mp hnodup).2.1).1
    obtain ⟨hnone, hprevious⟩ := deviceMachine_other f dev m r elapsedNs hbefore
    rw [Machine.outputs_append, Machine.final_append, Machine.outputs_cons, Machine.final_cons,
      valuesOf_append, valuesOf_append, hnone, List.nil_append, ← hprevious]
    generalize (deviceMachine cfg f r elapsedNs).final m before = m'
    obtain ⟨hnone', hprevious'⟩ := deviceMachine_other f dev
      ((deviceMachine cfg f r elapsedNs).step m' dev).1 r elapsedNs hafter
    constructor
    · rw [hnone', List.append_nil]
      exact valuesOf_device f dev hops henabled m' r elapsedNs
    · rw [hprevious']
      exact Function.update_self ..
  · have hstats : r.stats dev = none := by
      cases h : r.stats dev with
      | none => rfl
      | some x => exact absurd (hdev (by rw [h]; rfl)) hmem
    rw [hstats]
    exact deviceMachine_other f dev m r elapsedNs hmem

/-- The values of a counter are its growths. -/
theorem valuesOf_sampling (m : Memory) (xs : List (Input cfg)) :
    valuesOf (c.key dev) ((samplingMachine cfg f).outputs m xs) =
      ((growths cfg c dev).outputs (m.previousStats dev, m.lastSampleNs) xs).map
        (c.point f dev) := by
  induction xs generalizing m with
  | nil => rfl
  | cons x xs ih =>
    rw [Machine.outputs_cons, valuesOf_append, ih, Machine.outputs_cons, List.map_append]
    cases x with
    | span e => rfl
    | pass p =>
      have hcovers : (p.stats dev).isSome → dev ∈ p.devices := by
        intro hsome
        rw [p.mem_devices]
        simp [Reading.covers, hsome]
      obtain ⟨hvalues, hprevious⟩ :=
        deviceMachine_own f dev hops henabled m p.toReading (m.elapsedNs p.now) p.nodup hcovers
      simp only [samplingMachine, hvalues, hprevious, growths]
      cases p.stats dev <;> rfl

end Passes

/-! ## Sums -/

/-- Each reading of the statistics and how they have changed since the one before. -/
def differences : Machine (Option DeviceStats) DeviceStats DeviceStats where
  step previous current := (some current, [current.delta previous])

theorem counts_growths {cfg : BlockIoConfig} (c : Cumulative) (dev : ℕ)
    (s : Option DeviceStats × ℕ) (xs : List (Input cfg)) :
    ((growths cfg c dev).outputs s xs).map Growing.count =
      (differences.outputs s.1 (xs.filterMap (Input.stats? dev))).map
        fun d => d.tally (.count c.counter) := by
  induction xs generalizing s with
  | nil => rfl
  | cons x xs ih =>
    rw [Machine.outputs_cons, List.map_append, ih]
    cases x with
    | span e => rfl
    | pass p =>
      cases hstats : p.stats dev <;>
        simp [growths, hstats, Input.stats?, differences, Cumulative.growing]

section Snapshots
variable {ι : Type*} [DecidableEq ι]

/-- The machine of the device takes its differences in the same way. -/
theorem outputs_statsMachine (cfg : Cfg) (calls : ι → List StatsCall) (acts : List (StatsAct ι)) :
    ((statsMachine cfg).outputs (.start calls) acts).map StatsSample.delta =
      differences.outputs none
        (((statsMachine cfg).outputs (.start calls) acts).map StatsSample.current) := by
  have h : ((statsMachine cfg).final (.start calls) acts).previous =
        differences.final none
          (((statsMachine cfg).outputs (.start calls) acts).map StatsSample.current) ∧
      ((statsMachine cfg).outputs (.start calls) acts).map StatsSample.delta =
        differences.outputs none
          (((statsMachine cfg).outputs (.start calls) acts).map StatsSample.current) := by
    refine Machine.history_all (I := fun (s : StatsState ι) os =>
      s.previous = differences.final none (os.map StatsSample.current) ∧
        os.map StatsSample.delta = differences.outputs none (os.map StatsSample.current))
      (fun s os a h => ?_) ⟨rfl, rfl⟩ acts
    obtain ⟨entry, cpu, copy, previous⟩ := s
    cases a with
    | step i room => simpa [statsMachine] using h
    | snapshot => cases copy <;> cases entry <;> simpa [statsMachine] using h
    | abandon => simpa [statsMachine] using h
    | read =>
      cases copy with
      | none => simpa [statsMachine, StatsState.read] using h
      | some r =>
        cases entry with
        | none => simpa [statsMachine, StatsState.read] using h
        | some t =>
          obtain ⟨got, left⟩ := r
          cases left with
          | cons w rest => simpa [statsMachine, StatsState.read] using h
          | nil =>
            obtain ⟨hprevious, houtputs⟩ := h
            simp only [statsMachine, StatsState.read, List.map_append, List.map_cons, List.map_nil,
              Machine.final_append, Machine.outputs_append, ← houtputs, ← hprevious]
            exact ⟨rfl, rfl⟩
  exact h.2

theorem sum_differences [Fintype ι] (cfg : Cfg) {calls : ι → List StatsCall}
    {acts : List (StatsAct ι)} (hnow : ∀ i, ∀ call ∈ calls i, call.now ≠ 0)
    (htotal : ∀ c, totalAmount cfg calls c < 2 ^ 64) {c : DeviceCounter} :
    let read := ((statsMachine cfg).outputs (.start calls) acts).map StatsSample.current
    ((differences.outputs none read).map fun d => d.tally (.count c)).sum =
      (read.getLast?.map fun x => x.tally (.count c)).getD 0 := by
  intro read
  have h := sampled_run hnow htotal acts
  have hsum := h.sum c
  rw [StatsState.reported, h.previous] at hsum
  rw [← outputs_statsMachine, List.map_map, List.getLast?_map]
  refine Eq.trans hsum ?_
  cases ((statsMachine cfg).outputs (.start calls) acts).getLast? <;> rfl

end Snapshots

/-- What the callback is told if it accepts everything. -/
def handed (env : Surroundings) (random : ℕ → ℕ) (cfg : BlockIoConfig) (f : Floats) (startNs : ℕ)
    (xs : List (Input cfg)) : List Event :=
  (xs.foldl (BlockIo.handle env random accepting cfg f) (.new startNs)).registry.told.map Prod.fst

/-- However the CPUs update the statistics of a device while they are read, the trace shows every
counter of the device that is on below the track of the device, with one value for each growth
from reading to reading. The growths add up to what was read last. -/
theorem device_counters_add_up {ι : Type*} [Fintype ι] [DecidableEq ι] (bpf : Cfg)
    (calls : ι → List StatsCall) (acts : List (StatsAct ι)) (env : Surroundings) (random : ℕ → ℕ)
    (cfg : BlockIoConfig) (f : Floats) (startNs dev : ℕ) (xs : List (Input cfg))
    (last : DeviceStats) (messages : List Message) (io : ℕ → Bool)
    (hops : cfg.operations.Nodup) (hnow : ∀ i, ∀ call ∈ calls i, call.now ≠ 0)
    (htotal : ∀ c, totalAmount bpf calls c < 2 ^ 64)
    (hread : xs.filterMap (Input.stats? dev) =
      ((statsMachine bpf).outputs (.start calls) acts).map StatsSample.current)
    (hlast : (xs.filterMap (Input.stats? dev)).getLast? = some last)
    (hrandom : Function.Injective random)
    (hothers : Undisturbed (handed env random cfg f startNs xs) (messages.map fun m => m.event))
    (hok : ∀ r ∈ (converter io).outputs .new messages, r = .ok ()) :
    let t := (converter io).final .new messages
    ∃ id, ∀ c : Cumulative, c.enabled cfg = true →
      (∃ u, descriptors t (.custom id) = [describe ((env.device dev).track id) 0 u]) ∧
      let gs := (growths cfg c dev).outputs (none, startNs) xs
      (gs.map Growing.count).sum = last.tally (.count c.counter) ∧
      ∃ i w, Faithful t ⟨c.label, .counter i (some c.unit), some (.custom id)⟩
        (gs.map (c.event f i)) w := by
  intro t
  rw [handed, handle_accepting] at hothers
  generalize hrs : (samplingMachine cfg f).outputs (BlockIo.new startNs).memory xs = rs at hothers
  obtain ⟨as, has, hshows⟩ := shows_run env hrandom rs
  change Undisturbed ((Registry.new.after env random rs).told.map Prod.fst) _ at hothers
  change (Registry.new.after env random rs).Shows env random rs as at hshows
  generalize Registry.new.after env random rs = s at hothers hshows
  refine ⟨(s.trackIds dev).getD 0, fun c henabled => ?_⟩
  dsimp only
  have hvalues := valuesOf_sampling f dev hops henabled (BlockIo.new startNs).memory xs
  rw [hrs] at hvalues
  have hcounts := counts_growths c dev (none, startNs) xs
  change valuesOf (c.key dev) rs =
    ((growths cfg c dev).outputs (none, startNs) xs).map (c.point f dev) at hvalues
  generalize (growths cfg c dev).outputs (none, startNs) xs = gs at hvalues hcounts
  have hsum : (gs.map Growing.count).sum = last.tally (.count c.counter) := by
    rw [hcounts, hread, sum_differences bpf hnow htotal, ← hread, hlast]
    rfl
  obtain ⟨g, rest, rfl⟩ : ∃ g rest, gs = g :: rest := by
    refine List.exists_cons_of_ne_nil fun hnil => ?_
    obtain ⟨x, ys, hxs⟩ := List.exists_cons_of_ne_nil (List.getLast?_isSome.mp (by rw [hlast]; rfl))
    rw [hnil, hxs] at hcounts
    cases hcounts
  have hv : c.point f dev g ∈ rs.filterMap Report.value? :=
    List.mem_of_mem_filter (p := fun v => v.key = c.key dev) (by
      change c.point f dev g ∈ valuesOf (c.key dev) rs
      rw [hvalues]
      exact List.mem_cons_self)
  cases hid : s.trackIds dev with
  | none =>
    obtain ⟨r, hr, hvr⟩ := List.mem_filterMap.mp hv
    cases r with
    | span e => cases hvr
    | counter v =>
      cases hvr
      exact absurd rfl (hshows.devices.absent _ hid _ hr)
  | some id =>
    obtain ⟨u, hu⟩ := hshows.deviceShown hothers hok hid
    obtain ⟨parent, hdescribed, hzero, -⟩ := hu.descriptor
    obtain rfl := hzero rfl
    obtain ⟨first, i, w, hfirst, hw⟩ := hshows.seriesShown hothers hok has hv hid
    rw [← List.head?_filter] at hfirst
    change (valuesOf (c.key dev) rs).head? = some first at hfirst
    change Faithful t (first.track id i) ((valuesOf (c.key dev) rs).map fun x => x.event i) w at hw
    rw [hvalues] at hfirst hw
    obtain rfl : c.point f dev g = first := Option.some.inj hfirst
    rw [List.map_map] at hw
    exact ⟨⟨u, hdescribed⟩, hsum, i, w, hw⟩

/-! ### A lost request -/

def oneLost : Fin 1 → List StatsCall := fun _ => [⟨.lostRequest, 5⟩]

/-- The entry is read once before the request is counted, and once after. -/
def oneLostActs : List (StatsAct (Fin 1)) :=
  stepsOf (Fin.last 0) 3 ++ wholeSnapshot _ ++ stepsOf (Fin.last 0) 6 ++ wholeSnapshot _

def readErrors : BlockIoConfig := ⟨[.read], [.errors], false⟩

/-- A pass that finds the statistics of device 8. -/
def passOf (current : DeviceStats) : Pass readErrors where
  now := 10
  stats dev := if dev = 8 then some current else none
  deviceDepths _ := none
  devices := [8]
  nodup := by decide
  mem_devices dev := by
    by_cases h : dev = 8 <;> simp [Reading.covers, Reading.depths, readErrors,
      BlockIoConfig.hasMetric, h]

def oneLostSamples : List StatsSample := (statsMachine {}).outputs (.start oneLost) oneLostActs

def oneLostInputs : List (Input readErrors) := oneLostSamples.map fun x => .pass (passOf x.current)

def plainFloats : Floats where
  asF64 := UInt64.ofNat
  perSecond count _ := UInt64.ofNat count
  averageMicros latencyNs _ := UInt64.ofNat latencyNs
  percent ns _ := UInt64.ofNat ns
  ratio ns _ := UInt64.ofNat ns
  rank _ total := total

theorem device_counters_add_up_oneLost :
    let t := (converter fun _ => true).final .new
      ((handed noMounts (fun n => n) readErrors plainFloats 0 oneLostInputs).map fun e => ⟨e, none⟩)
    let gs := (growths readErrors .lostRequests 8).outputs (none, 0) oneLostInputs
    gs = [⟨10, 10, 0⟩, ⟨10, 1, 1⟩] ∧ (gs.map Growing.count).sum = 1 ∧
      ∃ id i w, Faithful t ⟨"lost_requests", .counter i (some "count"), some (.custom id)⟩
        (gs.map (Cumulative.lostRequests.event plainFloats i)) w := by
  intro t gs
  have hread : oneLostInputs.filterMap (Input.stats? 8) =
      oneLostSamples.map StatsSample.current := by
    rw [oneLostInputs, List.filterMap_map]
    exact congrFun List.filterMap_eq_map oneLostSamples
  have hlast : (oneLostSamples.getLast?.map fun x => x.current.tally (.count .lostRequests)) =
      some 1 := by
    decide +kernel
  cases hx : oneLostSamples.getLast? with
  | none =>
    rw [hx] at hlast
    cases hlast
  | some x =>
    have htotal : ∀ c, totalAmount {} oneLost c < 2 ^ 64 := by
      intro c
      change (if DeviceCounter.lostRequests = c then 1 else 0) + 0 + 0 + 0 < 2 ^ 64
      split <;> decide
    obtain ⟨id, hid⟩ := device_counters_add_up {} oneLost oneLostActs noMounts (fun n => n)
      readErrors plainFloats 0 8 oneLostInputs x.current _ (fun _ => true) (by decide) (by decide)
      htotal hread (by rw [hread, List.getLast?_map, hx]; rfl) (fun _ _ h => h) (.alone _)
      (by decide +kernel)
    obtain ⟨-, hsum, i, w, hw⟩ := hid .lostRequests rfl
    rw [hx] at hlast
    exact ⟨by decide +kernel, hsum.trans (Option.some.inj hlast), id, i, w, hw⟩

end Manytrace.Bpf.BlockTrack
