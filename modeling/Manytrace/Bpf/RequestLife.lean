import Manytrace.Bpf.Depth

/-! The life of one request. What the programs do to the entry of a request and which spans they
submit for it depends on the events of that request alone. -/
namespace Manytrace.Bpf.BlockTrack
open Manytrace.Core

/-! ## The programs on one entry -/

section Entry
variable (cfg : Cfg) (ctx : Context) (rq : Request)

def RequestState.reinserted (st : RequestState) : RequestState :=
  let st := { st with
    bytes := rq.dataLen
    remainingBytes := if st.remainingBytes < rq.dataLen then rq.dataLen else st.remainingBytes }
  if !st.inserted && !st.issued then { st with insertNs := ctx.now, inserted := true } else st

def RequestState.merged (st : RequestState) : RequestState :=
  { st with bytes := rq.dataLen, remainingBytes := rq.dataLen }

def RequestState.dequeued (st : RequestState) : RequestState := { st with inserted := false }

def RequestState.dispatched (st : RequestState) : RequestState :=
  { st with
    inserted := false, issued := true, issueNs := ctx.now, bytes := rq.dataLen
    remainingBytes := if st.remainingBytes = 0 then rq.dataLen else st.remainingBytes }

/-- The attempt under way, if there is one, is over. -/
def RequestState.served (st : RequestState) : RequestState :=
  if st.issued && st.issueNs < ctx.now then
    { st with serviceNs := add64 st.serviceNs (ctx.now - st.issueNs), issued := false }
  else st

def RequestState.requeued (st : RequestState) : RequestState :=
  { st.served ctx with requeues := (st.requeues + 1) % 2 ^ 32, issueNs := 0 }

def RequestState.reduced (nrBytes : ℕ) (st : RequestState) : RequestState :=
  { st with remainingBytes := st.remainingBytes - nrBytes }

/-- `emit_request_span` submits the span. -/
def submits (startNs totalNs : ℕ) : Bool :=
  if !cfg.timelineEnabled || ctx.now ≤ startNs || totalNs < cfg.timelineMinLatencyNs then false
  else if 1 < cfg.timelineSampleEvery ∧ ctx.prandom % cfg.timelineSampleEvery ≠ 0 then false
  else ctx.eventsRoom

def requestSpan (id : ℕ) (state : RequestState) (startNs queueNs serviceNs totalNs error : ℕ)
    (completed : Bool) : RequestSpanEvent where
  requestId := id
  startNs := startNs
  endNs := ctx.now
  queueNs := queueNs
  serviceNs := serviceNs
  totalNs := totalNs
  sector := state.sector
  dev := state.dev
  partitionDev := state.partitionDev
  bytes := state.bytes
  tgid := state.tgid
  pid := state.pid
  requeues := state.requeues
  error := error
  operation := state.operation
  completed := completed
  comm := state.comm

def spans (id : ℕ) (state : RequestState) (startNs queueNs serviceNs totalNs error : ℕ)
    (completed : Bool) : List RequestSpanEvent :=
  if submits cfg ctx startNs totalNs then
    [requestSpan ctx id state startNs queueNs serviceNs totalNs error completed]
  else []

theorem emitRequestSpan_spans (id : ℕ) (state : RequestState)
    (startNs queueNs serviceNs totalNs error : ℕ) (completed : Bool) (s : Maps) :
    (emitRequestSpan cfg ctx id state startNs queueNs serviceNs totalNs error completed s).2 =
      spans cfg ctx id state startNs queueNs serviceNs totalNs error completed := by
  unfold emitRequestSpan spans submits
  split
  · rfl
  split
  · rfl
  cases ctx.eventsRoom <;> rfl

theorem mem_spans_iff {id : ℕ} {state : RequestState}
    {startNs queueNs serviceNs totalNs error : ℕ} {completed : Bool} {e : RequestSpanEvent} :
    e ∈ spans cfg ctx id state startNs queueNs serviceNs totalNs error completed ↔
      submits cfg ctx startNs totalNs = true ∧
        e = requestSpan ctx id state startNs queueNs serviceNs totalNs error completed := by
  unfold spans
  split
  · next h => simp [h]
  · next h => simp [h]

/-- The time that a request has spent on the whole, in service and in the queue. -/
structure CompletionTimes where
  queueNs : ℕ
  serviceNs : ℕ
  totalNs : ℕ
deriving DecidableEq, Repr

def completionTimes (st : RequestState) : CompletionTimes :=
  let totalNs := if st.firstSeenNs < ctx.now then ctx.now - st.firstSeenNs else 0
  ⟨if st.serviceNs < totalNs then totalNs - st.serviceNs else 0, st.serviceNs, totalNs⟩

def requeueSpans (id : ℕ) (st : RequestState) : List RequestSpanEvent :=
  spans cfg ctx id { st with requeues := (st.requeues + 1) % 2 ^ 32 } st.issueNs 0
    (if st.issued && st.issueNs < ctx.now then ctx.now - st.issueNs else 0)
    (sub64 ctx.now st.firstSeenNs) 0 false

/-- The span of the last completion, of an entry that has left service and the queue. -/
def completionSpans (id error : ℕ) (st : RequestState) : List RequestSpanEvent :=
  let times := completionTimes ctx st
  spans cfg ctx id st (if st.issueNs ≠ 0 then st.issueNs else st.firstSeenNs)
    times.queueNs times.serviceNs times.totalNs error true

end Entry

/-- The programs look at the request at all. -/
def Tracepoint.tracked (cfg : Cfg) (tp : Tracepoint) : Bool :=
  cfg.requestTrackingEnabled && (tp.program = .merge ||
    shouldTrack cfg tp.ctx (requestDevice tp.rq) (requestOperation tp.rq))

/-- A new entry, if there is room for one. -/
def createEntry (ctx : Context) (rq : Request) (inserted room : Bool) : Option RequestState :=
  if room then
    some (initialRequest ctx rq (requestDevice rq) (requestPartition rq) (requestOperation rq)
      inserted)
  else none

/-- The entry of a request after a tracepoint that is looked at, and the spans submitted there. -/
def advance (cfg : Cfg) (room : Bool) (tp : Tracepoint) :
    Option RequestState → Option RequestState × List RequestSpanEvent
  | none =>
    match tp.program with
    | .insert => (createEntry tp.ctx tp.rq true room, [])
    | .issue =>
      ((createEntry tp.ctx tp.rq false room).map (RequestState.dispatched tp.ctx tp.rq), [])
    | _ => (none, [])
  | some st =>
    match tp.program with
    | .insert => (some (st.reinserted tp.ctx tp.rq), [])
    | .merge => (some (st.merged tp.rq), [])
    | .issue => (some (st.dispatched tp.ctx tp.rq), [])
    | .requeue => (some (st.requeued tp.ctx), requeueSpans cfg tp.ctx tp.rq.id st)
    | .complete error nrBytes =>
      if error ≠ 0 ∨ st.remainingBytes ≤ nrBytes then
        (none, completionSpans cfg tp.ctx tp.rq.id error (st.served tp.ctx).dequeued)
      else (some (st.reduced nrBytes), [])

def entryStep (cfg : Cfg) (room : Bool) (tp : Tracepoint) (entry : Option RequestState) :
    Option RequestState × List RequestSpanEvent :=
  if tp.tracked cfg then advance cfg room tp entry else (entry, [])

/-- There is room for an entry, if one is asked for. -/
def hasRoom (s : Maps) (ctx : Context) : Bool :=
  ctx.requestsRoom && s.requests.entries.length < 32768

/-! ## The programs act on the entry in that way -/

section Lookup
variable (cfg : Cfg) (ctx : Context) (s : Maps) (d id j : ℕ)

theorem lookup_modifyRequest (f : RequestState → RequestState) :
    (s.modifyRequest id f).requests.lookup j =
      if j = id then (s.requests.lookup id).map f else s.requests.lookup j :=
  s.requests.lookup_modify_eq id j f

/-- A store that comes after a change of the depth. -/
theorem lookup_move_eq (q i : ℤ) (f : RequestState → RequestState) :
    ((adjustDepth cfg ctx d q i s).modifyRequest id f).requests.lookup j =
      if j = id then (s.requests.lookup id).map f else s.requests.lookup j := by
  rw [lookup_modifyRequest, requests_adjustDepth]

theorem lookup_leaveQueue :
    (leaveQueue cfg ctx d id s).requests.lookup j =
      if j = id then (s.requests.lookup id).map RequestState.dequeued
      else s.requests.lookup j := by
  unfold leaveQueue
  cases hl : s.requests.lookup id with
  | none =>
    by_cases hj : j = id
    · simp [hj, hl]
    · simp [hj]
  | some st =>
    by_cases hins : st.inserted = true
    · simp only [if_pos hins, lookup_move_eq, hl]
      rfl
    · have hst : st.dequeued = st := by
        obtain ⟨⟩ := st
        simpa [RequestState.dequeued] using hins
      by_cases hj : j = id
      · simp [hins, hj, hl, hst]
      · simp [hins, hj]

theorem lookup_enterService :
    (enterService cfg ctx d id s).requests.lookup j =
      if j = id then (s.requests.lookup id).map fun st => { st with issued := true }
      else s.requests.lookup j := by
  unfold enterService
  cases hl : s.requests.lookup id with
  | none =>
    by_cases hj : j = id
    · simp [hj, hl]
    · simp [hj]
  | some st =>
    by_cases hiss : st.issued = true
    · have hst : { st with issued := true } = st := by
        obtain ⟨⟩ := st
        simpa using hiss.symm
      by_cases hj : j = id
      · simp [hiss, hj, hl, hst]
      · simp [hiss, hj]
    · simp only [Bool.not_eq_true] at hiss
      simp only [hiss, Bool.not_false, if_true, lookup_move_eq, hl]

theorem lookup_leaveService :
    (leaveService cfg ctx id s).requests.lookup j =
      if j = id then (s.requests.lookup id).map (RequestState.served ctx)
      else s.requests.lookup j := by
  unfold leaveService
  cases hl : s.requests.lookup id with
  | none =>
    by_cases hj : j = id
    · simp [hj, hl]
    · simp [hj]
  | some st =>
    by_cases hc : (st.issued && decide (st.issueNs < ctx.now)) = true
    · simp only [if_pos hc, lookup_move_eq, hl, Option.map_some, RequestState.served]
    · by_cases hj : j = id
      · simp only [if_neg hc, hj, hl, if_true, Option.map_some, RequestState.served]
      · simp only [if_neg hc, if_neg hj]

theorem lookup_issueRequest (rq : Request) :
    (issueRequest cfg ctx rq d s).requests.lookup j =
      if j = rq.id then (s.requests.lookup rq.id).map (RequestState.dispatched ctx rq)
      else s.requests.lookup j := by
  unfold issueRequest
  simp only [lookup_modifyRequest, lookup_enterService, lookup_leaveQueue, if_true,
    Option.map_map]
  by_cases hj : j = rq.id
  · simp only [if_pos hj]
    rfl
  · simp only [if_neg hj]

theorem insertNew_of_hasRoom (st : RequestState) (hl : s.requests.lookup id = none) :
    (if ctx.requestsRoom then s.requests.insertNew id st else none).isSome = hasRoom s ctx := by
  unfold hasRoom
  cases ctx.requestsRoom with
  | false => rfl
  | true =>
    have hiff := s.requests.insertNew_isSome_iff id st
    rw [if_pos rfl, Bool.true_and, Bool.eq_iff_iff, hiff, decide_eq_true_iff]
    exact and_iff_right hl

theorem createRequest_entry (rq : Request) (inserted : Bool)
    (hl : s.requests.lookup rq.id = none) :
    (createRequest cfg ctx rq (requestDevice rq) (requestPartition rq) (requestOperation rq)
        inserted s).2 = hasRoom s ctx ∧
      (createRequest cfg ctx rq (requestDevice rq) (requestPartition rq) (requestOperation rq)
        inserted s).1.requests.lookup j =
        if j = rq.id then createEntry ctx rq inserted (hasRoom s ctx)
        else s.requests.lookup j := by
  have hroom := insertNew_of_hasRoom ctx s rq.id (initialRequest ctx rq (requestDevice rq)
    (requestPartition rq) (requestOperation rq) inserted) hl
  unfold createRequest createEntry
  dsimp only
  rw [← hroom]
  generalize hr : (if ctx.requestsRoom = true then s.requests.insertNew rq.id _ else none) = created
  cases created with
  | none =>
    refine ⟨rfl, ?_⟩
    rw [(recordLostRequest_frame cfg ctx s _).2]
    by_cases hj : j = rq.id
    · simp [hj, hl]
    · simp [hj]
  | some r =>
    refine ⟨rfl, ?_⟩
    split_ifs at hr
    have hrequests : (if inserted = true then
        adjustDepth cfg ctx (requestDevice rq) 1 0 { s with requests := r }
        else { s with requests := r }).requests = r := by
      cases inserted with
      | false => rfl
      | true => exact requests_adjustDepth ..
    rw [hrequests]
    by_cases hj : j = rq.id
    · rw [if_pos hj, hj, BoundedMap.lookup_insertNew hr]
      rfl
    · rw [if_neg hj, BoundedMap.lookup_insertNew_of_ne hr hj]

end Lookup

section Programs
variable (cfg : Cfg) (ctx : Context) (rq : Request) (s : Maps) (j : ℕ)

theorem lookup_unchanged :
    s.requests.lookup j =
      if j = rq.id then s.requests.lookup rq.id else s.requests.lookup j := by
  split_ifs with hj
  · rw [hj]
  · rfl

theorem insert_entry :
    (traceBlockRqInsert cfg ctx rq s).requests.lookup j =
      if j = rq.id then
        (entryStep cfg (hasRoom s ctx) ⟨ctx, rq, .insert⟩ (s.requests.lookup rq.id)).1
      else s.requests.lookup j := by
  have htracked : Tracepoint.tracked cfg ⟨ctx, rq, .insert⟩ = !(!cfg.requestTrackingEnabled ||
      !shouldTrack cfg ctx (requestDevice rq) (requestOperation rq)) := by
    simp [Tracepoint.tracked]
  unfold traceBlockRqInsert entryStep
  rw [htracked]
  dsimp only
  split
  · next hoff =>
    rw [hoff]
    exact lookup_unchanged rq s j
  next hon =>
  rw [Bool.not_eq_true] at hon
  rw [hon, Bool.not_false, if_pos rfl]
  cases hl : s.requests.lookup rq.id with
  | none => exact (createRequest_entry cfg ctx s j rq true hl).2
  | some st =>
    dsimp only [advance]
    unfold RequestState.reinserted
    by_cases hfresh : (!st.inserted && !st.issued) = true
    · simp only [if_pos hfresh, requests_adjustDepth, lookup_modifyRequest, hl, if_true,
        Option.map_some]
      split_ifs <;> rfl
    · simp only [if_neg hfresh, lookup_modifyRequest, hl, Option.map_some]

theorem merge_entry :
    (traceBlockRqMerge cfg rq s).requests.lookup j =
      if j = rq.id then
        (entryStep cfg (hasRoom s ctx) ⟨ctx, rq, .merge⟩ (s.requests.lookup rq.id)).1
      else s.requests.lookup j := by
  have htracked : Tracepoint.tracked cfg ⟨ctx, rq, .merge⟩ = cfg.requestTrackingEnabled := by
    simp [Tracepoint.tracked]
  unfold traceBlockRqMerge entryStep
  rw [htracked]
  cases cfg.requestTrackingEnabled with
  | false => exact lookup_unchanged rq s j
  | true =>
    simp only [Bool.not_true, Bool.false_eq_true, if_false, if_true, lookup_modifyRequest]
    cases s.requests.lookup rq.id <;> rfl

theorem issue_entry :
    (traceBlockRqIssue cfg ctx rq s).requests.lookup j =
      if j = rq.id then
        (entryStep cfg (hasRoom s ctx) ⟨ctx, rq, .issue⟩ (s.requests.lookup rq.id)).1
      else s.requests.lookup j := by
  have htracked : Tracepoint.tracked cfg ⟨ctx, rq, .issue⟩ = !(!cfg.requestTrackingEnabled ||
      !shouldTrack cfg ctx (requestDevice rq) (requestOperation rq)) := by
    simp [Tracepoint.tracked]
  unfold traceBlockRqIssue entryStep
  rw [htracked]
  dsimp only
  split
  · next hoff =>
    rw [hoff]
    exact lookup_unchanged rq s j
  next hon =>
  rw [Bool.not_eq_true] at hon
  rw [hon, Bool.not_false, if_pos rfl]
  cases hl : s.requests.lookup rq.id with
  | some st =>
    dsimp only
    rw [lookup_issueRequest, hl, Option.map_some]
    rfl
  | none =>
    have hcreate := createRequest_entry cfg ctx s
    dsimp only
    split
    · rw [lookup_issueRequest, (hcreate rq.id rq false hl).2, if_pos rfl]
      split_ifs with hj
      · rfl
      · rw [(hcreate j rq false hl).2, if_neg hj]
    · next hroom =>
      rw [(hcreate j rq false hl).1, Bool.not_eq_true] at hroom
      rw [(hcreate j rq false hl).2, hroom]
      rfl

theorem requeue_entry :
    (traceBlockRqRequeue cfg ctx rq s).1.requests.lookup j =
        (if j = rq.id then
          (entryStep cfg (hasRoom s ctx) ⟨ctx, rq, .requeue⟩ (s.requests.lookup rq.id)).1
        else s.requests.lookup j) ∧
      (traceBlockRqRequeue cfg ctx rq s).2 =
        (entryStep cfg (hasRoom s ctx) ⟨ctx, rq, .requeue⟩ (s.requests.lookup rq.id)).2 := by
  have htracked : Tracepoint.tracked cfg ⟨ctx, rq, .requeue⟩ = (cfg.requestTrackingEnabled &&
      shouldTrack cfg ctx (requestDevice rq) (requestOperation rq)) := by
    simp [Tracepoint.tracked]
  unfold traceBlockRqRequeue entryStep
  rw [htracked]
  dsimp only
  split
  · next hoff =>
    have hnot : (cfg.requestTrackingEnabled &&
        shouldTrack cfg ctx (requestDevice rq) (requestOperation rq)) = false := by
      revert hoff
      cases cfg.requestTrackingEnabled <;> simp
    rw [hnot]
    exact ⟨lookup_unchanged rq s j, rfl⟩
  next hon =>
  generalize hs₁ : (if cfg.errorsEnabled = true then withDeviceStats ctx (requestDevice rq)
    (fun stats => { stats with requeues := add64 stats.requeues 1 }) s else s) = s₁
  have hrequests : s₁.requests = s.requests := by
    rw [← hs₁]
    split_ifs <;> rfl
  split
  · next hoff =>
    have hreq : cfg.requestTrackingEnabled = false := by simpa using hoff
    rw [hreq, hrequests]
    exact ⟨lookup_unchanged rq s j, rfl⟩
  next hreq =>
  have hyes : (cfg.requestTrackingEnabled &&
      shouldTrack cfg ctx (requestDevice rq) (requestOperation rq)) = true := by
    simp only [Bool.not_eq_true, Bool.not_eq_false'] at hreq
    simpa [hreq] using hon
  rw [hyes, ← hrequests]
  cases hl : s₁.requests.lookup rq.id with
  | none =>
    refine ⟨?_, rfl⟩
    have hsame := lookup_unchanged rq s₁ j
    rw [hl] at hsame
    exact hsame
  | some st =>
    dsimp only [advance]
    rw [emitRequestSpan_spans, lookup_modifyRequest, (emitRequestSpan_frame ..).2]
    refine ⟨?_, rfl⟩
    simp only [lookup_modifyRequest, lookup_leaveService, hl, if_true, Option.map_some]
    split_ifs
    · unfold RequestState.requeued RequestState.served
      split_ifs <;> rfl
    · rfl

theorem finishRequest_entry (id error : ℕ) (st : RequestState) :
    (finishRequest cfg ctx id error st s).1.requests.lookup j =
        (if j = id then none else s.requests.lookup j) ∧
      (finishRequest cfg ctx id error st s).2 = completionSpans cfg ctx id error st := by
  unfold finishRequest
  dsimp only
  rw [emitRequestSpan_spans, BoundedMap.lookup_delete, (emitRequestSpan_frame ..).2,
    (recordCompletion_frame ..).2]
  exact ⟨rfl, rfl⟩

theorem complete_entry (error nrBytes : ℕ) :
    (traceBlockRqComplete cfg ctx rq error nrBytes s).1.requests.lookup j =
        (if j = rq.id then
          (entryStep cfg (hasRoom s ctx) ⟨ctx, rq, .complete error nrBytes⟩
            (s.requests.lookup rq.id)).1
        else s.requests.lookup j) ∧
      (traceBlockRqComplete cfg ctx rq error nrBytes s).2 =
        (entryStep cfg (hasRoom s ctx) ⟨ctx, rq, .complete error nrBytes⟩
          (s.requests.lookup rq.id)).2 := by
  have htracked : Tracepoint.tracked cfg ⟨ctx, rq, .complete error nrBytes⟩ =
      (cfg.requestTrackingEnabled &&
        shouldTrack cfg ctx (requestDevice rq) (requestOperation rq)) := by
    simp [Tracepoint.tracked]
  unfold traceBlockRqComplete entryStep
  rw [htracked]
  dsimp only
  split
  · next hoff =>
    have hnot : shouldTrack cfg ctx (requestDevice rq) (requestOperation rq) = false := by
      simpa using hoff
    rw [hnot, Bool.and_false]
    exact ⟨lookup_unchanged rq s j, rfl⟩
  next hon =>
  generalize hs₁ : recordBytes cfg ctx _ _ nrBytes error s = s₁
  have hrequests : s₁.requests = s.requests := hs₁ ▸ (recordBytes_frame ..).2
  have hyes : shouldTrack cfg ctx (requestDevice rq) (requestOperation rq) = true := by
    simpa using hon
  rw [hyes, Bool.and_true, ← hrequests]
  cases cfg.requestTrackingEnabled with
  | false => exact ⟨lookup_unchanged rq s₁ j, rfl⟩
  | true =>
    simp only [Bool.not_true, Bool.false_eq_true, if_false, if_true]
    cases hl : s₁.requests.lookup rq.id with
    | none =>
      dsimp only
      rw [(recordCompletion_frame ..).2]
      refine ⟨?_, rfl⟩
      have hsame := lookup_unchanged rq s₁ j
      rw [hl] at hsame
      exact hsame
    | some st =>
      dsimp only [advance]
      by_cases hfinal : error ≠ 0 ∨ st.remainingBytes ≤ nrBytes
      · simp only [if_pos hfinal, lookup_leaveQueue, lookup_leaveService, hl, if_true,
          Option.map_some]
        obtain ⟨hlookup, hspans⟩ := finishRequest_entry cfg ctx (leaveQueue cfg ctx st.dev rq.id
          (leaveService cfg ctx rq.id s₁)) j rq.id error (st.served ctx).dequeued
        refine ⟨?_, hspans⟩
        rw [hlookup]
        by_cases hj : j = rq.id
        · rw [if_pos hj, if_pos hj]
        · rw [if_neg hj, if_neg hj, lookup_leaveQueue, if_neg hj, lookup_leaveService, if_neg hj]
      · simp only [if_neg hfinal, lookup_modifyRequest, hl, Option.map_some]
        exact ⟨rfl, trivial⟩

/-- Spans are submitted by `block_rq_requeue` and `block_rq_complete` alone. -/
theorem entryStep_quiet (room : Bool) (entry : Option RequestState) {program : Program}
    (hquiet : program = .insert ∨ program = .merge ∨ program = .issue) :
    (entryStep cfg room ⟨ctx, rq, program⟩ entry).2 = [] := by
  unfold entryStep
  split
  · rcases hquiet with rfl | rfl | rfl <;> cases entry <;> rfl
  · rfl

/-- Only the entry of its own request is changed by a tracepoint. -/
theorem step_entry (tp : Tracepoint) :
    ((blockTrack cfg).step s tp).1.requests.lookup j =
        (if j = tp.rq.id then
          (entryStep cfg (hasRoom s tp.ctx) tp (s.requests.lookup tp.rq.id)).1
        else s.requests.lookup j) ∧
      ((blockTrack cfg).step s tp).2 =
        (entryStep cfg (hasRoom s tp.ctx) tp (s.requests.lookup tp.rq.id)).2 := by
  obtain ⟨ctx, rq, program⟩ := tp
  cases program with
  | insert =>
    exact ⟨insert_entry cfg ctx rq s j, (entryStep_quiet cfg ctx rq _ _ (Or.inl rfl)).symm⟩
  | merge =>
    exact ⟨merge_entry cfg ctx rq s j, (entryStep_quiet cfg ctx rq _ _ (Or.inr (Or.inl rfl))).symm⟩
  | issue =>
    exact ⟨issue_entry cfg ctx rq s j, (entryStep_quiet cfg ctx rq _ _ (Or.inr (Or.inr rfl))).symm⟩
  | requeue => exact requeue_entry cfg ctx rq s j
  | complete error nrBytes => exact complete_entry cfg ctx rq s j error nrBytes

theorem requestId_entryStep {room : Bool} {tp : Tracepoint} {entry : Option RequestState}
    {e : RequestSpanEvent} (he : e ∈ (entryStep cfg room tp entry).2) :
    e.requestId = tp.rq.id := by
  unfold entryStep at he
  split at he
  · obtain ⟨ctx, rq, program⟩ := tp
    cases entry with
    | none => cases program <;> cases he
    | some st =>
      cases program with
      | insert => cases he
      | merge => cases he
      | issue => cases he
      | requeue =>
        rw [((mem_spans_iff cfg ctx).mp he).2]
        rfl
      | complete error nrBytes =>
        dsimp only [advance] at he
        split at he
        · rw [((mem_spans_iff cfg ctx).mp he).2]
          rfl
        · cases he
  · cases he

end Programs

/-! ## Runs -/

/-- The entry of a request, and the time of its last event. -/
structure Life where
  clock : ℕ
  entry : Option RequestState
deriving DecidableEq, Repr

/-- The tracker as one request sees it. With each of its events comes whether there was room for
a new entry. -/
def requestLife (cfg : Cfg) : Machine Life (Bool × Tracepoint) RequestSpanEvent where
  step l o :=
    let r := entryStep cfg o.1 o.2 l.entry
    (⟨o.2.ctx.now, r.1⟩, r.2)

def ownEvents (id : ℕ) (tps : List Tracepoint) : List Tracepoint :=
  tps.filter fun tp => tp.rq.id = id

/-- What one request sees of a run of the tracker. -/
def observations (cfg : Cfg) (id : ℕ) : Maps → List Tracepoint → List (Bool × Tracepoint)
  | _, [] => []
  | s, tp :: tps =>
    (if tp.rq.id = id then [(hasRoom s tp.ctx, tp)] else []) ++
      observations cfg id ((blockTrack cfg).step s tp).1 tps

section Runs
variable (cfg : Cfg) (id : ℕ)

theorem observations_events (s : Maps) (tps : List Tracepoint) :
    (observations cfg id s tps).map Prod.snd = ownEvents id tps := by
  unfold ownEvents
  induction tps generalizing s with
  | nil => rfl
  | cons tp tps ih =>
    rw [observations, List.map_append, ih, List.filter_cons]
    by_cases h : tp.rq.id = id <;> simp [h]

theorem observations_append (s : Maps) (pre post : List Tracepoint) :
    observations cfg id s (pre ++ post) =
      observations cfg id s pre ++ observations cfg id ((blockTrack cfg).final s pre) post := by
  induction pre generalizing s with
  | nil => rfl
  | cons tp pre ih =>
    simp only [List.cons_append, observations, ih, List.append_assoc, Machine.final_cons]

/-- A run of the tracker is a run of the life of every request. -/
theorem life_of_run (s : Maps) (clock : ℕ) (tps : List Tracepoint) :
    ((requestLife cfg).final ⟨clock, s.requests.lookup id⟩ (observations cfg id s tps)).entry =
        ((blockTrack cfg).final s tps).requests.lookup id ∧
      (requestLife cfg).outputs ⟨clock, s.requests.lookup id⟩ (observations cfg id s tps) =
        ((blockTrack cfg).outputs s tps).filter fun e => e.requestId = id := by
  induction tps generalizing s clock with
  | nil => exact ⟨rfl, rfl⟩
  | cons tp tps ih =>
    obtain ⟨hlookup, hspans⟩ := step_entry cfg s id tp
    have hids : ∀ e ∈ ((blockTrack cfg).step s tp).2, e.requestId = tp.rq.id := fun e he =>
      requestId_entryStep cfg (hspans ▸ he)
    rw [Machine.final_cons, Machine.outputs_cons, observations, List.filter_append]
    by_cases hid : tp.rq.id = id
    · subst hid
      rw [if_pos rfl] at hlookup ⊢
      have hall : ((blockTrack cfg).step s tp).2.filter (fun e => e.requestId = tp.rq.id) =
          ((blockTrack cfg).step s tp).2 :=
        List.filter_eq_self.mpr fun e he => decide_eq_true (hids e he)
      obtain ⟨hfinal, houts⟩ := ih ((blockTrack cfg).step s tp).1 tp.ctx.now
      rw [hlookup] at hfinal houts
      rw [hall, ← houts, ← hfinal, hspans]
      exact ⟨rfl, rfl⟩
    · rw [if_neg (Ne.symm hid)] at hlookup
      have hnone : ((blockTrack cfg).step s tp).2.filter (fun e => e.requestId = id) = [] :=
        List.filter_eq_nil_iff.mpr fun e he => by simpa [hids e he] using hid
      rw [hnone, if_neg hid, ← hlookup]
      exact ih ((blockTrack cfg).step s tp).1 clock

/-- A condition on the entry and the event, along a run of the tracker and along the life. -/
theorem meets_observations_iff (Q : Option RequestState → Bool × Tracepoint → Prop) (s : Maps)
    (clock : ℕ) (tps : List Tracepoint) :
    (requestLife cfg).Meets (fun l o => Q l.entry o) ⟨clock, s.requests.lookup id⟩
        (observations cfg id s tps) ↔
      (blockTrack cfg).Meets (fun s tp => tp.rq.id = id →
        Q (s.requests.lookup id) (hasRoom s tp.ctx, tp)) s tps := by
  induction tps generalizing s clock with
  | nil => exact Iff.rfl
  | cons tp tps ih =>
    have hlookup := (step_entry cfg s id tp).1
    rw [Machine.meets_cons, observations]
    by_cases hid : tp.rq.id = id
    · subst hid
      rw [if_pos rfl] at hlookup ⊢
      rw [← ih ((blockTrack cfg).step s tp).1 tp.ctx.now, hlookup]
      exact and_congr_left' ⟨fun hq _ => hq, fun hq => hq rfl⟩
    · rw [if_neg (Ne.symm hid)] at hlookup
      rw [if_neg hid, ← ih ((blockTrack cfg).step s tp).1 clock, hlookup]
      exact (and_iff_right fun h => absurd h hid).symm

end Runs
end Manytrace.Bpf.BlockTrack
