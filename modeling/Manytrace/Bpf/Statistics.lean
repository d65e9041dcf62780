import Manytrace.Bpf.RequestLife

/-! What the programs add to the statistics of an operation. Only completions add anything. -/
namespace Manytrace.Bpf.BlockTrack
open Manytrace.Core

/-- The statistics of an operation of a device, all zero as long as the device has none. -/
def operationStats (s : Maps) (dev : ℕ) (op : BlockOperation) : OperationStats :=
  match s.deviceStats dev with
  | some stats => stats.operations op
  | none => {}

/-- The device has statistics, or gets them when it needs them. -/
def statsKept (ctx : Context) (s : Maps) (dev : ℕ) : Bool :=
  (s.deviceStats dev).isSome || ctx.statsRoom

def OperationStats.addBytes (cfg : Cfg) (bytes error : ℕ) (o : OperationStats) : OperationStats :=
  { o with
    bytes := if cfg.bytesEnabled && bytes != 0 then add64 o.bytes bytes else o.bytes
    errors := if cfg.errorsEnabled && error != 0 then add64 o.errors 1 else o.errors }

def OperationStats.addCompletion (cfg : Cfg) (times : CompletionTimes) (o : OperationStats) :
    OperationStats :=
  let o := { o with
    operations := if cfg.operationsEnabled then add64 o.operations 1 else o.operations }
  if !cfg.latencyEnabled then o
  else
    { o with
      queueLatencyNs := add64 o.queueLatencyNs times.queueNs
      serviceLatencyNs := add64 o.serviceLatencyNs times.serviceNs
      totalLatencyNs := add64 o.totalLatencyNs times.totalNs
      serviceHistogram := bump o.serviceHistogram (latencyBucket times.serviceNs)
      totalHistogram := bump o.totalHistogram (latencyBucket times.totalNs) }

section Device
variable (cfg : Cfg) (ctx : Context) (s : Maps) (d dev : ℕ) (o op : BlockOperation)

theorem statsKept_withDeviceStats (f : DeviceStats → DeviceStats) :
    statsKept ctx (withDeviceStats ctx d f s) dev = statsKept ctx s dev := by
  unfold statsKept withDeviceStats
  by_cases hd : dev = d
  · subst hd
    dsimp only
    rw [Function.update_self]
    cases hs : s.deviceStats dev with
    | some stats => rfl
    | none => cases hroom : ctx.statsRoom <;> simp [getDeviceStats, hroom]
  · dsimp only
    rw [Function.update_of_ne hd]

/-- A change of the device's own counters. -/
theorem operationStats_withDeviceStats {f : DeviceStats → DeviceStats}
    (hf : ∀ stats, (f stats).operations = stats.operations) :
    operationStats (withDeviceStats ctx d f s) dev op = operationStats s dev op := by
  unfold operationStats withDeviceStats
  by_cases hd : dev = d
  · subst hd
    dsimp only
    rw [Function.update_self]
    cases hs : s.deviceStats dev with
    | some stats =>
      simp only [getDeviceStats, Option.map_some, hf]
      split <;> rfl
    | none => cases hroom : ctx.statsRoom <;> simp [getDeviceStats, hroom, hf]
  · dsimp only
    rw [Function.update_of_ne hd]

/-- A change of one operation. -/
theorem operationStats_onOperation (g : OperationStats → OperationStats) :
    operationStats (withDeviceStats ctx d
        (fun stats => { stats with lastSeenNs := ctx.now }.onOperation o g) s) dev op =
      if dev = d ∧ op = o ∧ statsKept ctx s d = true then g (operationStats s dev op)
      else operationStats s dev op := by
  unfold operationStats withDeviceStats statsKept
  by_cases hd : dev = d
  · subst hd
    dsimp only
    rw [Function.update_self]
    cases hs : s.deviceStats dev with
    | some stats =>
      by_cases ho : op = o
      · subst ho
        by_cases hfirst : stats.firstSeenNs = 0 <;>
          simp [getDeviceStats, DeviceStats.onOperation, hfirst]
      · by_cases hfirst : stats.firstSeenNs = 0 <;>
          simp [getDeviceStats, DeviceStats.onOperation, hfirst, ho]
    | none =>
      cases hroom : ctx.statsRoom with
      | false => simp [getDeviceStats, hroom]
      | true =>
        by_cases ho : op = o
        · subst ho
          simp [getDeviceStats, DeviceStats.onOperation, hroom]
        · simp [getDeviceStats, DeviceStats.onOperation, hroom, ho]
  · simp [hd]

theorem statsKept_recordBytes (bytes error : ℕ) :
    statsKept ctx (recordBytes cfg ctx d o bytes error s) dev = statsKept ctx s dev := by
  unfold recordBytes
  split
  · rfl
  · exact statsKept_withDeviceStats ..

theorem operationStats_recordBytes (bytes error : ℕ) :
    operationStats (recordBytes cfg ctx d o bytes error s) dev op =
      if dev = d ∧ op = o ∧ statsKept ctx s d = true then
        (operationStats s dev op).addBytes cfg bytes error
      else operationStats s dev op := by
  unfold recordBytes
  split
  · next hoff =>
    have hsame : (operationStats s dev op).addBytes cfg bytes error = operationStats s dev op := by
      simp only [Bool.and_eq_true, Bool.not_eq_true', Bool.or_eq_true, beq_iff_eq] at hoff
      unfold OperationStats.addBytes
      rw [hoff.1]
      rcases hoff.2 with herrors | herror
      · simp [herrors]
      · simp [herror]
    rw [hsame, ite_self]
  · exact operationStats_onOperation ..

theorem operationStats_recordCompletion (times : CompletionTimes) :
    operationStats (recordCompletion cfg ctx d o times.queueNs times.serviceNs times.totalNs s)
        dev op =
      if dev = d ∧ op = o ∧ statsKept ctx s d = true then
        (operationStats s dev op).addCompletion cfg times
      else operationStats s dev op := by
  unfold recordCompletion
  split
  · next hoff =>
    have hsame : (operationStats s dev op).addCompletion cfg times = operationStats s dev op := by
      simp only [Bool.and_eq_true, Bool.not_eq_true'] at hoff
      simp [OperationStats.addCompletion, hoff.1, hoff.2]
    rw [hsame, ite_self]
  · exact operationStats_onOperation ..

theorem operationStats_emitRequestSpan (id : ℕ) (state : RequestState)
    (startNs queueNs serviceNs totalNs error : ℕ) (completed : Bool) :
    operationStats (emitRequestSpan cfg ctx id state startNs queueNs serviceNs totalNs error
      completed s).1 dev op = operationStats s dev op := by
  unfold emitRequestSpan
  split_ifs
  · rfl
  · rfl
  · exact operationStats_withDeviceStats _ _ _ _ _ fun _ => rfl
  · rfl

theorem operationStats_recordLostRequest :
    operationStats (recordLostRequest cfg ctx d s) dev op = operationStats s dev op := by
  unfold recordLostRequest
  split
  · rfl
  · exact operationStats_withDeviceStats _ _ _ _ _ fun _ => rfl

end Device

/-! ## The programs -/

section Programs
variable (cfg : Cfg) (ctx : Context) (rq : Request) (s : Maps) (dev : ℕ) (op : BlockOperation)

theorem deviceStats_adjustDepth (d : ℕ) (q i : ℤ) :
    (adjustDepth cfg ctx d q i s).deviceStats = s.deviceStats := by
  unfold adjustDepth
  split <;> rfl

theorem deviceStats_leaveQueue (d id : ℕ) :
    (leaveQueue cfg ctx d id s).deviceStats = s.deviceStats := by
  unfold leaveQueue
  split
  · split
    · exact deviceStats_adjustDepth ..
    · rfl
  · rfl

theorem deviceStats_enterService (d id : ℕ) :
    (enterService cfg ctx d id s).deviceStats = s.deviceStats := by
  unfold enterService
  split
  · split
    · exact deviceStats_adjustDepth ..
    · rfl
  · rfl

theorem deviceStats_leaveService (id : ℕ) :
    (leaveService cfg ctx id s).deviceStats = s.deviceStats := by
  unfold leaveService
  split
  · split
    · exact deviceStats_adjustDepth ..
    · rfl
  · rfl

theorem operationStats_congr {s t : Maps} (h : t.deviceStats = s.deviceStats) (dev : ℕ)
    (op : BlockOperation) : operationStats t dev op = operationStats s dev op := by
  unfold operationStats
  rw [h]

theorem statsKept_congr {s t : Maps} (h : t.deviceStats = s.deviceStats) (ctx : Context)
    (dev : ℕ) : statsKept ctx t dev = statsKept ctx s dev := by
  unfold statsKept
  rw [h]

theorem operationStats_createRequest (d p : ℕ) (o : BlockOperation) (inserted : Bool) :
    operationStats (createRequest cfg ctx rq d p o inserted s).1 dev op =
      operationStats s dev op := by
  unfold createRequest
  dsimp only
  split
  · exact operationStats_recordLostRequest ..
  · dsimp only
    split
    · exact operationStats_congr (deviceStats_adjustDepth ..) dev op
    · rfl

theorem operationStats_issueRequest (d : ℕ) :
    operationStats (issueRequest cfg ctx rq d s) dev op = operationStats s dev op := by
  refine operationStats_congr ?_ dev op
  change (enterService cfg ctx d rq.id (leaveQueue cfg ctx d rq.id s)).deviceStats = _
  rw [deviceStats_enterService, deviceStats_leaveQueue]

theorem operationStats_insert :
    operationStats (traceBlockRqInsert cfg ctx rq s) dev op = operationStats s dev op := by
  unfold traceBlockRqInsert
  dsimp only
  split
  · rfl
  split
  · exact operationStats_createRequest ..
  · split
    · exact operationStats_congr (deviceStats_adjustDepth ..) dev op
    · rfl

theorem operationStats_issue :
    operationStats (traceBlockRqIssue cfg ctx rq s) dev op = operationStats s dev op := by
  unfold traceBlockRqIssue
  dsimp only
  split
  · rfl
  split
  · exact operationStats_issueRequest ..
  · split
    · rw [operationStats_issueRequest, operationStats_createRequest]
    · exact operationStats_createRequest ..

theorem operationStats_requeue :
    operationStats (traceBlockRqRequeue cfg ctx rq s).1 dev op = operationStats s dev op := by
  unfold traceBlockRqRequeue
  dsimp only
  split
  · rfl
  generalize hs₁ : (if cfg.errorsEnabled = true then withDeviceStats ctx (requestDevice rq)
    (fun stats => { stats with requeues := add64 stats.requeues 1 }) s else s) = s₁
  have hstats : operationStats s₁ dev op = operationStats s dev op := by
    rw [← hs₁]
    split
    · exact operationStats_withDeviceStats _ _ _ _ _ fun _ => rfl
    · rfl
  rw [← hstats]
  split
  · rfl
  split
  · rfl
  · refine (operationStats_emitRequestSpan ..).trans ?_
    exact operationStats_congr (deviceStats_leaveService ..) dev op

theorem operationStats_merge :
    operationStats (traceBlockRqMerge cfg rq s) dev op = operationStats s dev op := by
  unfold traceBlockRqMerge
  split <;> rfl

theorem operationStats_step {tp : Tracepoint}
    (htp : ∀ error nrBytes, tp.program ≠ .complete error nrBytes) :
    operationStats ((blockTrack cfg).step s tp).1 dev op = operationStats s dev op := by
  obtain ⟨ctx, rq, program⟩ := tp
  cases program with
  | insert => exact operationStats_insert ..
  | merge => exact operationStats_merge ..
  | issue => exact operationStats_issue ..
  | requeue => exact operationStats_requeue ..
  | complete error nrBytes => exact absurd rfl (htp error nrBytes)

theorem operationStats_finishRequest (id error : ℕ) (st : RequestState) :
    operationStats (finishRequest cfg ctx id error st s).1 dev op =
      if dev = st.dev ∧ op = st.operation ∧ statsKept ctx s st.dev = true then
        (operationStats s dev op).addCompletion cfg (completionTimes ctx st)
      else operationStats s dev op := by
  refine Eq.trans ?_ (operationStats_recordCompletion cfg ctx s st.dev dev st.operation op
    (completionTimes ctx st))
  exact operationStats_emitRequestSpan ..

theorem served_owner (st : RequestState) :
    (st.served ctx).dequeued.dev = st.dev ∧ (st.served ctx).dequeued.operation = st.operation := by
  unfold RequestState.served
  split <;> exact ⟨rfl, rfl⟩

/-- What a completion that is looked at adds: the bytes, and the operation if it finds no entry
or if it is the last one of its entry. -/
theorem operationStats_complete (error nrBytes : ℕ)
    (htrack : shouldTrack cfg ctx (requestDevice rq) (requestOperation rq) = true)
    (hreq : cfg.requestTrackingEnabled = true) :
    operationStats (traceBlockRqComplete cfg ctx rq error nrBytes s).1 dev op =
      let o :=
        if dev = requestDevice rq ∧ op = requestOperation rq ∧
            statsKept ctx s (requestDevice rq) = true then
          (operationStats s dev op).addBytes cfg nrBytes error
        else operationStats s dev op
      match s.requests.lookup rq.id with
      | none =>
        if dev = requestDevice rq ∧ op = requestOperation rq ∧
            statsKept ctx s (requestDevice rq) = true then o.addCompletion cfg ⟨0, 0, 0⟩
        else o
      | some st =>
        if (error ≠ 0 ∨ st.remainingBytes ≤ nrBytes) ∧ dev = st.dev ∧ op = st.operation ∧
            statsKept ctx s st.dev = true then
          o.addCompletion cfg (completionTimes ctx (st.served ctx).dequeued)
        else o := by
  unfold traceBlockRqComplete
  simp only [htrack, hreq, Bool.not_true, Bool.false_eq_true, if_false]
  rw [← operationStats_recordBytes]
  generalize hs₁ : recordBytes cfg ctx _ _ nrBytes error s = s₁
  have hrequests : s₁.requests = s.requests := hs₁ ▸ (recordBytes_frame ..).2
  have hkept : ∀ d, statsKept ctx s d = statsKept ctx s₁ d := fun d =>
    hs₁ ▸ (statsKept_recordBytes ..).symm
  simp only [hkept, ← hrequests]
  cases hl : s₁.requests.lookup rq.id with
  | none => exact operationStats_recordCompletion cfg ctx s₁ _ _ _ _ ⟨0, 0, 0⟩
  | some st =>
    dsimp only
    by_cases hfinal : error ≠ 0 ∨ st.remainingBytes ≤ nrBytes
    · have hstats : (leaveQueue cfg ctx st.dev rq.id
          (leaveService cfg ctx rq.id s₁)).deviceStats = s₁.deviceStats := by
        rw [deviceStats_leaveQueue, deviceStats_leaveService]
      simp only [hfinal, lookup_leaveQueue, lookup_leaveService, hl, if_true, Option.map_some,
        true_and]
      rw [operationStats_finishRequest, (served_owner ctx st).1, (served_owner ctx st).2,
        operationStats_congr hstats, statsKept_congr hstats]
    · simp only [hfinal, false_and, if_false]
      rfl

end Programs

/-! ## Statistics are never taken away -/

def HasStats (dev : ℕ) (s : Maps) : Prop := (s.deviceStats dev).isSome = true

section Stay
variable {cfg : Cfg} {ctx : Context} {s t : Maps} {dev : ℕ}

theorem HasStats.congr (h : HasStats dev s) (hsame : t.deviceStats = s.deviceStats) :
    HasStats dev t := by
  unfold HasStats
  rw [hsame]
  exact h

theorem hasStats_withDeviceStats (h : statsKept ctx s dev = true) (f : DeviceStats → DeviceStats) :
    HasStats dev (withDeviceStats ctx dev f s) := by
  unfold HasStats withDeviceStats
  dsimp only
  rw [Function.update_self, Option.isSome_map]
  unfold statsKept at h
  cases hs : s.deviceStats dev with
  | some stats => rfl
  | none =>
    have hroom : ctx.statsRoom = true := by simpa [hs] using h
    simp [getDeviceStats, hroom]

theorem HasStats.kept (h : HasStats dev s) (ctx : Context) : statsKept ctx s dev = true := by
  unfold statsKept
  rw [show (s.deviceStats dev).isSome = true from h, Bool.true_or]

theorem HasStats.withDeviceStats (h : HasStats dev s) (d : ℕ) (f : DeviceStats → DeviceStats) :
    HasStats dev (withDeviceStats ctx d f s) := by
  by_cases hd : dev = d
  · subst hd
    exact hasStats_withDeviceStats (h.kept ctx) f
  · unfold HasStats BlockTrack.withDeviceStats
    dsimp only
    rw [Function.update_of_ne hd]
    exact h

theorem HasStats.recordBytes (h : HasStats dev s) (d : ℕ) (o : BlockOperation)
    (bytes error : ℕ) : HasStats dev (recordBytes cfg ctx d o bytes error s) := by
  unfold BlockTrack.recordBytes
  split
  · exact h
  · exact h.withDeviceStats ..

theorem HasStats.recordCompletion (h : HasStats dev s) (d : ℕ) (o : BlockOperation)
    (queueNs serviceNs totalNs : ℕ) :
    HasStats dev (recordCompletion cfg ctx d o queueNs serviceNs totalNs s) := by
  unfold BlockTrack.recordCompletion
  split
  · exact h
  · exact h.withDeviceStats ..

theorem HasStats.emitRequestSpan (h : HasStats dev s) (id : ℕ) (state : RequestState)
    (startNs queueNs serviceNs totalNs error : ℕ) (completed : Bool) :
    HasStats dev (emitRequestSpan cfg ctx id state startNs queueNs serviceNs totalNs error
      completed s).1 := by
  unfold BlockTrack.emitRequestSpan
  split_ifs
  · exact h
  · exact h
  · exact h.withDeviceStats ..
  · exact h

theorem HasStats.createRequest (h : HasStats dev s) (rq : Request) (d p : ℕ)
    (o : BlockOperation) (inserted : Bool) :
    HasStats dev (createRequest cfg ctx rq d p o inserted s).1 := by
  unfold BlockTrack.createRequest recordLostRequest
  dsimp only
  split
  · split
    · exact h
    · exact h.withDeviceStats ..
  · dsimp only
    split
    · exact h.congr (deviceStats_adjustDepth ..)
    · exact h

theorem HasStats.issueRequest (h : HasStats dev s) (rq : Request) (d : ℕ) :
    HasStats dev (issueRequest cfg ctx rq d s) := by
  refine h.congr ?_
  change (enterService cfg ctx d rq.id (leaveQueue cfg ctx d rq.id s)).deviceStats = _
  rw [deviceStats_enterService, deviceStats_leaveQueue]

/-- The rest of a completion, once the bytes are recorded. -/
theorem HasStats.complete (rq : Request) (error nrBytes : ℕ)
    (h : HasStats dev (BlockTrack.recordBytes cfg ctx (requestDevice rq) (requestOperation rq)
      nrBytes error s))
    (htrack : shouldTrack cfg ctx (requestDevice rq) (requestOperation rq) = true) :
    HasStats dev (traceBlockRqComplete cfg ctx rq error nrBytes s).1 := by
  unfold traceBlockRqComplete
  simp only [htrack, Bool.not_true, Bool.false_eq_true, if_false]
  generalize BlockTrack.recordBytes cfg ctx _ _ nrBytes error s = s₁ at h
  split
  · exact h
  cases hl : s₁.requests.lookup rq.id with
  | none => exact h.recordCompletion ..
  | some st =>
    dsimp only
    split
    · have hleft : HasStats dev (leaveQueue cfg ctx st.dev rq.id (leaveService cfg ctx rq.id s₁)) :=
        h.congr (by rw [deviceStats_leaveQueue, deviceStats_leaveService])
      split
      · exact (hleft.recordCompletion ..).emitRequestSpan ..
      · exact hleft
    · exact h

theorem HasStats.step (h : HasStats dev s) (tp : Tracepoint) :
    HasStats dev ((blockTrack cfg).step s tp).1 := by
  obtain ⟨ctx, rq, program⟩ := tp
  cases program with
  | insert =>
    change HasStats dev (traceBlockRqInsert cfg ctx rq s)
    unfold traceBlockRqInsert
    dsimp only
    split
    · exact h
    split
    · exact h.createRequest ..
    · split
      · exact h.congr (deviceStats_adjustDepth ..)
      · exact h
  | merge =>
    change HasStats dev (traceBlockRqMerge cfg rq s)
    unfold traceBlockRqMerge
    split <;> exact h
  | issue =>
    change HasStats dev (traceBlockRqIssue cfg ctx rq s)
    unfold traceBlockRqIssue
    dsimp only
    split
    · exact h
    split
    · exact h.issueRequest ..
    · split
      · exact (h.createRequest ..).issueRequest ..
      · exact h.createRequest ..
  | requeue =>
    change HasStats dev (traceBlockRqRequeue cfg ctx rq s).1
    unfold traceBlockRqRequeue
    dsimp only
    split
    · exact h
    generalize hs₁ : (if cfg.errorsEnabled = true then BlockTrack.withDeviceStats ctx
      (requestDevice rq) (fun stats => { stats with requeues := add64 stats.requeues 1 }) s
      else s) = s₁
    have h₁ : HasStats dev s₁ := by
      rw [← hs₁]
      split
      · exact h.withDeviceStats ..
      · exact h
    split
    · exact h₁
    split
    · exact h₁
    · have h₂ : HasStats dev ((leaveService cfg ctx rq.id s₁).modifyRequest rq.id fun st =>
        { st with requeues := (st.requeues + 1) % 2 ^ 32 }) :=
        h₁.congr (deviceStats_leaveService cfg ctx s₁ rq.id)
      exact (h₂.emitRequestSpan ..).congr rfl
  | complete error nrBytes =>
    cases htrack : shouldTrack cfg ctx (requestDevice rq) (requestOperation rq) with
    | true => exact HasStats.complete rq error nrBytes (h.recordBytes ..) htrack
    | false =>
      change HasStats dev (traceBlockRqComplete cfg ctx rq error nrBytes s).1
      unfold traceBlockRqComplete
      simpa only [htrack, Bool.not_false, if_true] using h

end Stay
end Manytrace.Bpf.BlockTrack
