import Mathlib.Algebra.Group.Nat.Defs
import Mathlib.Data.Int.Notation
import Mathlib.Logic.Function.Basic
import Manytrace.Core.BoundedMap
import Manytrace.Core.Machine

/-! The block I/O tracker: five programs that follow every request from the queue to its
completion. They are run one at a time. -/
namespace Manytrace.Bpf.BlockTrack
open Manytrace.Core

inductive BlockOperation
  | read
  | write
  | flush
  | discard
  | other
deriving DecidableEq, Repr

def BlockOperation.index : BlockOperation → ℕ
  | .read => 0
  | .write => 1
  | .flush => 2
  | .discard => 3
  | .other => 4

def histogramBuckets : ℕ := 32

def reqOpMask : ℕ := 0xff

/-- What the programs read of a `struct request`. The device of its disk is missing if the
disk or its first partition is. -/
structure Request where
  id : ℕ
  cmdFlags : ℕ
  dataLen : ℕ
  sector : ℕ
  disk : Option ℕ
  part : Option ℕ
deriving DecidableEq, Repr

structure OperationStats where
  bytes : ℕ := 0
  operations : ℕ := 0
  errors : ℕ := 0
  queueLatencyNs : ℕ := 0
  serviceLatencyNs : ℕ := 0
  totalLatencyNs : ℕ := 0
  serviceHistogram : ℕ → ℕ := fun _ => 0
  totalHistogram : ℕ → ℕ := fun _ => 0

structure DeviceStats where
  operations : BlockOperation → OperationStats := fun _ => {}
  requeues : ℕ := 0
  lostRequests : ℕ := 0
  timelineDrops : ℕ := 0
  firstSeenNs : ℕ := 0
  lastSeenNs : ℕ := 0

structure DeviceDepth where
  firstSeenNs : ℕ
  lastUpdateNs : ℕ
  busyNs : ℕ
  saturatedNs : ℕ
  inflightNs : ℕ
  queuedNs : ℕ
  inflight : ℕ
  queued : ℕ
  maxInflight : ℕ
  maxQueued : ℕ
deriving DecidableEq, Repr

structure RequestState where
  firstSeenNs : ℕ
  insertNs : ℕ
  issueNs : ℕ
  serviceNs : ℕ
  sector : ℕ
  bytes : ℕ
  remainingBytes : ℕ
  dev : ℕ
  partitionDev : ℕ
  tgid : ℕ
  pid : ℕ
  requeues : ℕ
  operation : BlockOperation
  inserted : Bool
  issued : Bool
  comm : String
deriving DecidableEq, Repr

structure RequestSpanEvent where
  requestId : ℕ
  startNs : ℕ
  endNs : ℕ
  queueNs : ℕ
  serviceNs : ℕ
  totalNs : ℕ
  sector : ℕ
  dev : ℕ
  partitionDev : ℕ
  bytes : ℕ
  tgid : ℕ
  pid : ℕ
  requeues : ℕ
  error : ℕ
  operation : BlockOperation
  completed : Bool
  comm : String
deriving DecidableEq, Repr

structure Cfg where
  operationMask : ℕ := 3
  timelineSampleEvery : ℕ := 1
  timelineMinLatencyNs : ℕ := 0
  bytesEnabled : Bool := true
  operationsEnabled : Bool := true
  latencyEnabled : Bool := true
  saturationEnabled : Bool := true
  errorsEnabled : Bool := true
  timelineEnabled : Bool := false
  filterEnabled : Bool := false
  requestTrackingEnabled : Bool := true
deriving DecidableEq, Repr

/-- What a program finds when it runs: the clock, the device filter, the current task, a random
number, and whether an entry of `requests`, one of `device_stats` and a span can be allocated. -/
structure Context where
  now : ℕ
  trackedDevices : List ℕ
  tgid : ℕ
  pid : ℕ
  comm : String
  prandom : ℕ
  requestsRoom : Bool
  statsRoom : Bool
  eventsRoom : Bool
deriving DecidableEq, Repr

/-- The maps of the programs. Depth entries are made by user space alone. -/
structure Maps where
  deviceStats : ℕ → Option DeviceStats
  deviceDepths : ℕ → Option DeviceDepth
  requests : BoundedMap ℕ RequestState 32768

def add64 (a b : ℕ) : ℕ := (a + b) % 2 ^ 64

def sub64 (a b : ℕ) : ℕ := (a + 2 ^ 64 - b) % 2 ^ 64

def requestOperation (rq : Request) : BlockOperation :=
  match rq.cmdFlags &&& reqOpMask with
  | 0 => .read
  | 1 => .write
  | 9 => .write
  | 13 => .write
  | 2 => .flush
  | 3 => .discard
  | 5 => .discard
  | _ => .other

def requestDevice (rq : Request) : ℕ := rq.disk.getD 0

def requestPartition (rq : Request) : ℕ := rq.part.getD (requestDevice rq)

section Programs
variable (cfg : Cfg) (ctx : Context)

def shouldTrack (dev : ℕ) (operation : BlockOperation) : Bool :=
  if dev = 0 then false
  else if cfg.operationMask.testBit operation.index = false then false
  else if !cfg.filterEnabled then true
  else ctx.trackedDevices.contains dev

/-- The statistics of a device, which are made if there is room for them. -/
def getDeviceStats : Option DeviceStats → Option DeviceStats
  | some stats =>
    some (if stats.firstSeenNs = 0 then { stats with firstSeenNs := ctx.now } else stats)
  | none => if ctx.statsRoom then some { firstSeenNs := ctx.now, lastSeenNs := ctx.now } else none

def withDeviceStats (dev : ℕ) (f : DeviceStats → DeviceStats) (s : Maps) : Maps :=
  let stats := (getDeviceStats ctx (s.deviceStats dev)).map f
  { s with deviceStats := Function.update s.deviceStats dev stats }

/-- The time since the last update is charged to the depth that was kept until now. -/
def DeviceDepth.charge (now : ℕ) (d : DeviceDepth) : DeviceDepth :=
  if d.lastUpdateNs ≠ 0 ∧ d.lastUpdateNs < now then
    let elapsed := now - d.lastUpdateNs
    { d with
      busyNs := if d.inflight ≠ 0 then add64 d.busyNs elapsed else d.busyNs
      saturatedNs := if d.queued ≠ 0 then add64 d.saturatedNs elapsed else d.saturatedNs
      inflightNs := add64 d.inflightNs (elapsed * d.inflight)
      queuedNs := add64 d.queuedNs (elapsed * d.queued) }
  else d

/-- One more, or one less but not below zero. -/
def stepCounter (n : ℕ) (delta : ℤ) : ℕ :=
  if 0 < delta then (n + 1) % 2 ^ 32
  else if delta < 0 ∧ n ≠ 0 then n - 1
  else n

def DeviceDepth.adjust (queuedDelta inflightDelta : ℤ) (now : ℕ) (d : DeviceDepth) :
    DeviceDepth :=
  let d := d.charge now
  let queued := stepCounter d.queued queuedDelta
  let inflight := stepCounter d.inflight inflightDelta
  { d with
    queued, inflight
    maxQueued := if d.maxQueued < queued then queued else d.maxQueued
    maxInflight := if d.maxInflight < inflight then inflight else d.maxInflight
    lastUpdateNs := now }

def adjustDepth (dev : ℕ) (queuedDelta inflightDelta : ℤ) (s : Maps) : Maps :=
  if !cfg.saturationEnabled then s
  else
    let depth := (s.deviceDepths dev).map (DeviceDepth.adjust queuedDelta inflightDelta ctx.now)
    { s with deviceDepths := Function.update s.deviceDepths dev depth }

def latencyBucket (latencyNs : ℕ) : ℕ :=
  let micros := latencyNs / 1000
  if micros ≤ 1 then 0
  else if 1 <<< (histogramBuckets - 1) ≤ micros then histogramBuckets - 1
  else
    let r := if 1 <<< 16 ≤ micros then (micros >>> 16, 16) else (micros, 0)
    let r := if 1 <<< 8 ≤ r.1 then (r.1 >>> 8, r.2 + 8) else r
    let r := if 1 <<< 4 ≤ r.1 then (r.1 >>> 4, r.2 + 4) else r
    let r := if 1 <<< 2 ≤ r.1 then (r.1 >>> 2, r.2 + 2) else r
    if 1 <<< 1 ≤ r.1 then r.2 + 1 else r.2

/-- One round of the search for the highest bit, in `latency_bucket`. -/
def halve (k : ℕ) (r : ℕ × ℕ) : ℕ × ℕ := if 1 <<< k ≤ r.1 then (r.1 >>> k, r.2 + k) else r

theorem snd_halve_le (k : ℕ) {r : ℕ × ℕ} {m : ℕ} (hr : r.2 ≤ m) : (halve k r).2 ≤ m + k := by
  unfold halve
  split
  · exact Nat.add_le_add_right hr k
  · exact Nat.le_trans hr (Nat.le_add_right m k)

theorem latencyBucket_lt (latencyNs : ℕ) : latencyBucket latencyNs < histogramBuckets := by
  unfold latencyBucket
  dsimp only
  split
  · decide
  split
  · decide
  have hlow : (halve 16 (latencyNs / 1000, 0)).2 ≤ 0 + 16 := snd_halve_le 16 (Nat.le_refl 0)
  have hrounds := snd_halve_le 2 (snd_halve_le 4 (snd_halve_le 8 hlow))
  change (if 1 <<< 1 ≤ (halve 2 (halve 4 (halve 8 (halve 16 (latencyNs / 1000, 0))))).1 then
    (halve 2 (halve 4 (halve 8 (halve 16 (latencyNs / 1000, 0))))).2 + 1
    else (halve 2 (halve 4 (halve 8 (halve 16 (latencyNs / 1000, 0))))).2) < 32
  split <;> omega

def DeviceStats.onOperation (operation : BlockOperation) (f : OperationStats → OperationStats)
    (stats : DeviceStats) : DeviceStats :=
  { stats with
    operations := Function.update stats.operations operation (f (stats.operations operation)) }

def recordBytes (dev : ℕ) (operation : BlockOperation) (bytes error : ℕ) (s : Maps) : Maps :=
  if !cfg.bytesEnabled && (!cfg.errorsEnabled || error == 0) then s
  else
    withDeviceStats ctx dev (fun stats =>
      { stats with lastSeenNs := ctx.now }.onOperation operation fun o =>
        { o with
          bytes := if cfg.bytesEnabled && bytes != 0 then add64 o.bytes bytes else o.bytes
          errors := if cfg.errorsEnabled && error != 0 then add64 o.errors 1 else o.errors }) s

def bump (f : ℕ → ℕ) (i : ℕ) : ℕ → ℕ := Function.update f i (add64 (f i) 1)

def recordCompletion (dev : ℕ) (operation : BlockOperation) (queueNs serviceNs totalNs : ℕ)
    (s : Maps) : Maps :=
  if !cfg.operationsEnabled && !cfg.latencyEnabled then s
  else
    withDeviceStats ctx dev (fun stats =>
      { stats with lastSeenNs := ctx.now }.onOperation operation fun o =>
        let o := { o with
          operations := if cfg.operationsEnabled then add64 o.operations 1 else o.operations }
        if !cfg.latencyEnabled then o
        else
          { o with
            queueLatencyNs := add64 o.queueLatencyNs queueNs
            serviceLatencyNs := add64 o.serviceLatencyNs serviceNs
            totalLatencyNs := add64 o.totalLatencyNs totalNs
            serviceHistogram := bump o.serviceHistogram (latencyBucket serviceNs)
            totalHistogram := bump o.totalHistogram (latencyBucket totalNs) }) s

def recordLostRequest (dev : ℕ) (s : Maps) : Maps :=
  if !cfg.errorsEnabled then s
  else
    withDeviceStats ctx dev
      (fun stats => { stats with lostRequests := add64 stats.lostRequests 1 }) s

def initialRequest (rq : Request) (dev partitionDev : ℕ) (operation : BlockOperation)
    (inserted : Bool) : RequestState where
  firstSeenNs := ctx.now
  insertNs := if inserted then ctx.now else 0
  issueNs := 0
  serviceNs := 0
  sector := rq.sector
  bytes := rq.dataLen
  remainingBytes := rq.dataLen
  dev := dev
  partitionDev := partitionDev
  tgid := ctx.tgid
  pid := ctx.pid
  requeues := 0
  operation := operation
  inserted := inserted
  issued := false
  comm := ctx.comm

/-- The maps with a new request, if `requests` takes it. -/
def createRequest (rq : Request) (dev partitionDev : ℕ) (operation : BlockOperation)
    (inserted : Bool) (s : Maps) : Maps × Bool :=
  let created :=
    if ctx.requestsRoom then
      s.requests.insertNew rq.id (initialRequest ctx rq dev partitionDev operation inserted)
    else none
  match created with
  | none => (recordLostRequest cfg ctx dev s, false)
  | some requests =>
    let s := { s with requests }
    (if inserted then adjustDepth cfg ctx dev 1 0 s else s, true)

/-- A store through the pointer into `requests`. -/
def Maps.modifyRequest (id : ℕ) (f : RequestState → RequestState) (s : Maps) : Maps :=
  { s with requests := s.requests.modify id f }

def emitRequestSpan (id : ℕ) (state : RequestState)
    (startNs queueNs serviceNs totalNs error : ℕ) (completed : Bool) (s : Maps) :
    Maps × List RequestSpanEvent :=
  if !cfg.timelineEnabled || ctx.now ≤ startNs || totalNs < cfg.timelineMinLatencyNs then (s, [])
  else if 1 < cfg.timelineSampleEvery ∧ ctx.prandom % cfg.timelineSampleEvery ≠ 0 then (s, [])
  else if !ctx.eventsRoom then
    (withDeviceStats ctx state.dev
      (fun stats => { stats with timelineDrops := add64 stats.timelineDrops 1 }) s, [])
  else
    (s, [{
      requestId := id, startNs, endNs := ctx.now, queueNs, serviceNs, totalNs
      sector := state.sector, dev := state.dev, partitionDev := state.partitionDev
      bytes := state.bytes, tgid := state.tgid, pid := state.pid, requeues := state.requeues
      error, operation := state.operation, completed, comm := state.comm }])

def traceBlockRqInsert (rq : Request) (s : Maps) : Maps :=
  let dev := requestDevice rq
  let operation := requestOperation rq
  if !cfg.requestTrackingEnabled || !shouldTrack cfg ctx dev operation then s
  else
    match s.requests.lookup rq.id with
    | none => (createRequest cfg ctx rq dev (requestPartition rq) operation true s).1
    | some state =>
      let s := s.modifyRequest rq.id fun st => { st with
        bytes := rq.dataLen
        remainingBytes := if st.remainingBytes < rq.dataLen then rq.dataLen else st.remainingBytes }
      if !state.inserted && !state.issued then
        adjustDepth cfg ctx dev 1 0
          (s.modifyRequest rq.id fun st => { st with insertNs := ctx.now, inserted := true })
      else s

def traceBlockRqMerge (rq : Request) (s : Maps) : Maps :=
  if !cfg.requestTrackingEnabled then s
  else s.modifyRequest rq.id fun st => { st with
    bytes := rq.dataLen, remainingBytes := rq.dataLen }

/-- The request leaves the queue, if it is in it. -/
def leaveQueue (dev id : ℕ) (s : Maps) : Maps :=
  match s.requests.lookup id with
  | some state =>
    if state.inserted then
      (adjustDepth cfg ctx dev (-1) 0 s).modifyRequest id fun st => { st with inserted := false }
    else s
  | none => s

def enterService (dev id : ℕ) (s : Maps) : Maps :=
  match s.requests.lookup id with
  | some state =>
    if !state.issued then
      (adjustDepth cfg ctx dev 0 1 s).modifyRequest id fun st => { st with issued := true }
    else s
  | none => s

/-- The service of the request ends, if it has begun earlier than now. -/
def leaveService (id : ℕ) (s : Maps) : Maps :=
  match s.requests.lookup id with
  | some state =>
    if state.issued && state.issueNs < ctx.now then
      (adjustDepth cfg ctx state.dev 0 (-1) s).modifyRequest id fun st => { st with
        serviceNs := add64 st.serviceNs (ctx.now - st.issueNs), issued := false }
    else s
  | none => s

/-- The rest of `block_rq_issue`, once the request has an entry. -/
def issueRequest (rq : Request) (dev : ℕ) (s : Maps) : Maps :=
  let s := leaveQueue cfg ctx dev rq.id s
  let s := enterService cfg ctx dev rq.id s
  s.modifyRequest rq.id fun st => { st with
    issueNs := ctx.now
    bytes := rq.dataLen
    remainingBytes := if st.remainingBytes = 0 then rq.dataLen else st.remainingBytes }

def traceBlockRqIssue (rq : Request) (s : Maps) : Maps :=
  let dev := requestDevice rq
  let operation := requestOperation rq
  if !cfg.requestTrackingEnabled || !shouldTrack cfg ctx dev operation then s
  else
    match s.requests.lookup rq.id with
    | some _ => issueRequest cfg ctx rq dev s
    | none =>
      let r := createRequest cfg ctx rq dev (requestPartition rq) operation false s
      if r.2 then issueRequest cfg ctx rq dev r.1 else r.1

def traceBlockRqRequeue (rq : Request) (s : Maps) : Maps × List RequestSpanEvent :=
  let dev := requestDevice rq
  let operation := requestOperation rq
  if (!cfg.errorsEnabled && !cfg.requestTrackingEnabled) || !shouldTrack cfg ctx dev operation then
    (s, [])
  else
    let s :=
      if cfg.errorsEnabled then
        withDeviceStats ctx dev (fun stats => { stats with requeues := add64 stats.requeues 1 }) s
      else s
    if !cfg.requestTrackingEnabled then (s, [])
    else
      match s.requests.lookup rq.id with
      | none => (s, [])
      | some state =>
        let attemptNs :=
          if state.issued && state.issueNs < ctx.now then ctx.now - state.issueNs else 0
        let s := leaveService cfg ctx rq.id s
        let s := s.modifyRequest rq.id fun st => { st with requeues := (st.requeues + 1) % 2 ^ 32 }
        let r := emitRequestSpan cfg ctx rq.id
          { state with requeues := (state.requeues + 1) % 2 ^ 32 } state.issueNs 0 attemptNs
          (sub64 ctx.now state.firstSeenNs) 0 false s
        (r.1.modifyRequest rq.id fun st => { st with issueNs := 0 }, r.2)

/-- The last completion of a request, whose entry is `state` by then. -/
def finishRequest (id error : ℕ) (state : RequestState) (s : Maps) :
    Maps × List RequestSpanEvent :=
  let totalNs := if state.firstSeenNs < ctx.now then ctx.now - state.firstSeenNs else 0
  let queueNs := if state.serviceNs < totalNs then totalNs - state.serviceNs else 0
  let s := recordCompletion cfg ctx state.dev state.operation queueNs state.serviceNs totalNs s
  let spanStartNs := if state.issueNs ≠ 0 then state.issueNs else state.firstSeenNs
  let r := emitRequestSpan cfg ctx id state spanStartNs queueNs state.serviceNs totalNs error true s
  ({ r.1 with requests := r.1.requests.delete id }, r.2)

def traceBlockRqComplete (rq : Request) (error nrBytes : ℕ) (s : Maps) :
    Maps × List RequestSpanEvent :=
  let dev := requestDevice rq
  let operation := requestOperation rq
  if !shouldTrack cfg ctx dev operation then (s, [])
  else
    let s := recordBytes cfg ctx dev operation nrBytes error s
    if !cfg.requestTrackingEnabled then (s, [])
    else
      match s.requests.lookup rq.id with
      | none => (recordCompletion cfg ctx dev operation 0 0 0 s, [])
      | some state =>
        if error ≠ 0 ∨ state.remainingBytes ≤ nrBytes then
          let s := leaveService cfg ctx rq.id s
          let s := leaveQueue cfg ctx state.dev rq.id s
          match s.requests.lookup rq.id with
          | some state => finishRequest cfg ctx rq.id error state s
          | none => (s, [])
        else
          (s.modifyRequest rq.id fun st => { st with
            remainingBytes := st.remainingBytes - nrBytes }, [])

end Programs

inductive Program
  | insert
  | merge
  | issue
  | requeue
  | complete (error nrBytes : ℕ)
deriving DecidableEq, Repr

structure Tracepoint where
  ctx : Context
  rq : Request
  program : Program
deriving DecidableEq, Repr

def blockTrack (cfg : Cfg) : Machine Maps Tracepoint RequestSpanEvent where
  step s tp :=
    match tp.program with
    | .insert => (traceBlockRqInsert cfg tp.ctx tp.rq s, [])
    | .merge => (traceBlockRqMerge cfg tp.rq s, [])
    | .issue => (traceBlockRqIssue cfg tp.ctx tp.rq s, [])
    | .requeue => traceBlockRqRequeue cfg tp.ctx tp.rq s
    | .complete error nrBytes => traceBlockRqComplete cfg tp.ctx tp.rq error nrBytes s

end Manytrace.Bpf.BlockTrack
