import Manytrace.Bpf.Latency
import Manytrace.Core.Intervals

/-! The spans of a request: one for each attempt. They begin where the attempt was issued, if
the programs find it issued. -/
namespace Manytrace.Bpf.BlockTrack
open Manytrace.Core

def RequestSpanEvent.interval (e : RequestSpanEvent) : ℕ × ℕ := (e.startNs, e.endNs)

/-- The spans that the event submits begin no earlier than the request, and end with the event. -/
def SpansInLife (cfg : Cfg) (s : Maps) (tp : Tracepoint) : Prop :=
  ∀ e ∈ ((blockTrack cfg).step s tp).2, ∃ st, s.requests.lookup tp.rq.id = some st ∧
    st.firstSeenNs ≤ e.startNs ∧ e.startNs < e.endNs ∧ e.endNs = tp.ctx.now

/-- The same, as the request sees it. -/
def InLifeOf (cfg : Cfg) (entry : Option RequestState) (o : Bool × Tracepoint) : Prop :=
  ∀ e ∈ (entryStep cfg o.1 o.2 entry).2, ∃ st, entry = some st ∧ st.firstSeenNs ≤ e.startNs ∧
    e.startNs < e.endNs ∧ e.endNs = o.2.ctx.now

/-- A requeue that submits a span finds the request issued. The final completion, if it submits
one, finds it issued or finds that it has not been served at all. -/
def SpanBegins (cfg : Cfg) (entry : Option RequestState) (tp : Tracepoint) : Prop :=
  ∀ st, entry = some st → tp.tracked cfg = true →
    (tp.program = .requeue →
      submits cfg tp.ctx st.issueNs (tp.ctx.now - st.firstSeenNs) = true → st.issueNs ≠ 0) ∧
    ∀ error nrBytes, tp.program = .complete error nrBytes →
      (error ≠ 0 ∨ st.remainingBytes ≤ nrBytes) →
      submits cfg tp.ctx st.firstSeenNs (tp.ctx.now - st.firstSeenNs) = true →
      st.issueNs ≠ 0 ∨ st.serviceNs = 0

section Spans
variable {cfg : Cfg} {ctx : Context} {clock startNs totalNs : ℕ} {st : RequestState}

theorem lt_of_submits (h : submits cfg ctx startNs totalNs = true) : startNs < ctx.now := by
  unfold submits at h
  split at h
  · cases h
  · next hoff =>
    simp only [Bool.or_eq_true, decide_eq_true_eq, not_or, Nat.not_le] at hoff
    exact hoff.1.2

/-- The spans so far of a request, and its entry. -/
structure SpannedEntry (clock : ℕ) (outs : List RequestSpanEvent) (st : RequestState) : Prop where
  timely : Timely clock st
  seen_pos : 0 < st.firstSeenNs
  issued_iff : st.issued = true ↔ st.issueNs ≠ 0
  of_issued : st.issued = true → ∀ e ∈ outs, e.endNs ≤ st.issueNs
  of_unserved : st.serviceNs = 0 → ∀ e ∈ outs, e.endNs ≤ st.firstSeenNs

structure Spanned (l : Life) (outs : List RequestSpanEvent) : Prop where
  disjoint : outs.Pairwise fun e e' => NoOverlap e.interval e'.interval
  ended : ∀ e ∈ outs, e.endNs ≤ l.clock
  entry : ∀ st, l.entry = some st → SpannedEntry l.clock outs st

section Entries
variable {outs : List RequestSpanEvent} {st' : RequestState} {rq : Request}

theorem SpannedEntry.keep (h : SpannedEntry clock outs st) {now : ℕ} (hle : clock ≤ now)
    (hsame : (st'.firstSeenNs, st'.issueNs, st'.serviceNs, st'.issued) =
      (st.firstSeenNs, st.issueNs, st.serviceNs, st.issued)) : SpannedEntry now outs st' := by
  obtain ⟨h₁, h₂, h₃, h₄⟩ : st'.firstSeenNs = st.firstSeenNs ∧ st'.issueNs = st.issueNs ∧
      st'.serviceNs = st.serviceNs ∧ st'.issued = st.issued := by simpa using hsame
  refine ⟨h.timely.mono hle hsame, ?_, ?_, ?_, ?_⟩
  · rw [h₁]
    exact h.seen_pos
  · rw [h₂, h₄]
    exact h.issued_iff
  · rw [h₂, h₄]
    exact h.of_issued
  · rw [h₁, h₃]
    exact h.of_unserved

theorem spannedEntry_initialRequest (hover : ∀ e ∈ outs, e.endNs ≤ clock)
    (hlt : clock < ctx.now) (dev partitionDev : ℕ) (operation : BlockOperation)
    (inserted : Bool) :
    SpannedEntry ctx.now outs (initialRequest ctx rq dev partitionDev operation inserted) where
  timely := initialRequest_timely ..
  seen_pos := Nat.lt_of_le_of_lt (Nat.zero_le _) hlt
  issued_iff := iff_of_false Bool.false_ne_true fun h => h rfl
  of_issued h := absurd h Bool.false_ne_true
  of_unserved _ e he := Nat.le_trans (hover e he) (Nat.le_of_lt hlt)

theorem SpannedEntry.dispatched (h : SpannedEntry clock outs st)
    (hover : ∀ e ∈ outs, e.endNs ≤ ctx.now) (hle : clock ≤ ctx.now) :
    SpannedEntry ctx.now outs (st.dispatched ctx rq) where
  timely := h.timely.dispatched hle
  seen_pos := h.seen_pos
  issued_iff := by
    have hpos := h.seen_pos
    have hseen := h.timely.seen_le
    refine iff_of_true rfl ?_
    change ctx.now ≠ 0
    omega
  of_issued _ := hover
  of_unserved := h.of_unserved

/-- The spans of a requeue: at most one, from the issue until now. -/
theorem mem_requeueSpans (ht : Timely clock st) (hlt : clock < ctx.now) (h64 : ctx.now < 2 ^ 64)
    {id : ℕ} {e : RequestSpanEvent} (he : e ∈ requeueSpans cfg ctx id st) :
    submits cfg ctx st.issueNs (ctx.now - st.firstSeenNs) = true ∧ e.startNs = st.issueNs ∧
      e.endNs = ctx.now := by
  have htotal : sub64 ctx.now st.firstSeenNs = ctx.now - st.firstSeenNs := by
    have hseen := ht.seen_le
    unfold sub64
    omega
  unfold requeueSpans at he
  rw [htotal] at he
  obtain ⟨hsubmits, rfl⟩ := (mem_spans_iff cfg ctx).mp he
  exact ⟨hsubmits, rfl, rfl⟩

/-- The spans of the final completion: at most one, from the issue if there was one. -/
theorem mem_completionSpans (ht : Timely clock st) (hlt : clock < ctx.now)
    (h64 : ctx.now < 2 ^ 64) {id error : ℕ} {e : RequestSpanEvent}
    (he : e ∈ completionSpans cfg ctx id error (st.served ctx).dequeued) :
    submits cfg ctx e.startNs (ctx.now - st.firstSeenNs) = true ∧
      e.startNs = (if st.issueNs ≠ 0 then st.issueNs else st.firstSeenNs) ∧
      e.endNs = ctx.now := by
  have hseen : st.firstSeenNs < ctx.now := Nat.lt_of_le_of_lt ht.seen_le hlt
  have htotal : (completionTimes ctx (st.served ctx).dequeued).totalNs =
      ctx.now - st.firstSeenNs := by
    rw [ht.served_eq hlt h64]
    exact if_pos hseen
  have hfields : (st.served ctx).dequeued.issueNs = st.issueNs ∧
      (st.served ctx).dequeued.firstSeenNs = st.firstSeenNs := by
    rw [ht.served_eq hlt h64]
    exact ⟨rfl, rfl⟩
  unfold completionSpans at he
  rw [hfields.1, hfields.2] at he
  obtain ⟨hsubmits, rfl⟩ := (mem_spans_iff cfg ctx).mp he
  rw [htotal] at hsubmits
  exact ⟨hsubmits, rfl, rfl⟩

theorem SpannedEntry.requeued (h : SpannedEntry clock outs st) (hlt : clock < ctx.now)
    (h64 : ctx.now < 2 ^ 64) {new : List RequestSpanEvent}
    (hnew : st.issued = false → new = []) :
    SpannedEntry ctx.now (outs ++ new) (st.requeued ctx) := by
  have hissue := h.timely.issue_le
  have htimely := h.timely.requeued hlt h64
  have hserved := h.timely.served_eq hlt h64
  unfold RequestState.requeued at *
  rw [hserved] at htimely ⊢
  refine ⟨htimely, h.seen_pos, iff_of_false Bool.false_ne_true fun h => h rfl,
    fun hiss => absurd hiss Bool.false_ne_true, fun hzero => ?_⟩
  change st.serviceUntil ctx.now = 0 at hzero
  unfold RequestState.serviceUntil at hzero
  cases hiss : st.issued with
  | false =>
    rw [hiss] at hzero
    rw [hnew hiss, List.append_nil]
    exact h.of_unserved hzero
  | true =>
    have hle := hissue hiss
    rw [hiss, if_pos rfl] at hzero
    omega

end Entries

section Steps
variable {outs : List RequestSpanEvent} {l : Life} {o : Bool × Tracepoint}

/-- Where a span may begin. -/
theorem SpannedEntry.start {e : RequestSpanEvent} (h : SpannedEntry clock outs st)
    (hend : e.endNs = ctx.now) (hlt : e.startNs < ctx.now)
    (hstart : (st.issueNs ≠ 0 ∧ e.startNs = st.issueNs) ∨
      (st.serviceNs = 0 ∧ e.startNs = st.firstSeenNs)) :
    (st.firstSeenNs ≤ e.startNs ∧ e.startNs < e.endNs ∧ e.endNs = ctx.now) ∧
      ∀ e' ∈ outs, NoOverlap e'.interval e.interval := by
  rcases hstart with ⟨hissue, hs⟩ | ⟨hservice, hs⟩
  · have hiss := h.issued_iff.mpr hissue
    refine ⟨⟨hs ▸ h.timely.seen_le_issue hiss, hend ▸ hlt, hend⟩, fun e' he' => Or.inl ?_⟩
    exact Nat.le_trans (h.of_issued hiss e' he') (Nat.le_of_eq hs.symm)
  · exact ⟨⟨Nat.le_of_eq hs.symm, hend ▸ hlt, hend⟩,
      fun e' he' => Or.inl (Nat.le_trans (h.of_unserved hservice e' he') (Nat.le_of_eq hs.symm))⟩

/-- The spans of one event begin and end where they should. -/
def Placed (outs : List RequestSpanEvent) (entry : Option RequestState) (tp : Tracepoint)
    (e : RequestSpanEvent) : Prop :=
  (∃ st, entry = some st ∧ st.firstSeenNs ≤ e.startNs ∧ e.startNs < e.endNs ∧
    e.endNs = tp.ctx.now) ∧ ∀ e' ∈ outs, NoOverlap e'.interval e.interval

theorem Spanned.placed (h : Spanned l outs) (hlater : Later l o)
    (hbegins : SpanBegins cfg l.entry o.2) :
    ∀ e ∈ (entryStep cfg o.1 o.2 l.entry).2, Placed outs l.entry o.2 e := by
  obtain ⟨room, ctx, rq, program⟩ := o
  intro e he
  unfold entryStep at he
  split at he
  · next htracked =>
    cases hentry : l.entry with
    | none =>
      rw [hentry] at he
      cases program <;> cases he
    | some st =>
      have hst := h.entry st hentry
      obtain ⟨hrequeue, hcomplete⟩ := hbegins st hentry htracked
      rw [hentry] at he
      cases program with
      | insert => cases he
      | merge => cases he
      | issue => cases he
      | requeue =>
        obtain ⟨hsubmits, hstart, hend⟩ := mem_requeueSpans hst.timely hlater.1 hlater.2 he
        have hissue := hrequeue rfl hsubmits
        obtain ⟨hin, hout⟩ := hst.start hend (hstart ▸ lt_of_submits hsubmits)
          (Or.inl ⟨hissue, hstart⟩)
        exact ⟨⟨st, rfl, hin⟩, hout⟩
      | complete error nrBytes =>
        dsimp only [advance] at he
        split at he
        · next hfinal =>
          obtain ⟨hsubmits, hstart, hend⟩ := mem_completionSpans hst.timely hlater.1 hlater.2 he
          have hlt : e.startNs < ctx.now := lt_of_submits hsubmits
          suffices hwhere : (st.issueNs ≠ 0 ∧ e.startNs = st.issueNs) ∨
              (st.serviceNs = 0 ∧ e.startNs = st.firstSeenNs) by
            obtain ⟨hin, hout⟩ := hst.start hend hlt hwhere
            exact ⟨⟨st, rfl, hin⟩, hout⟩
          by_cases hissue : st.issueNs ≠ 0
          · rw [if_pos hissue] at hstart
            exact Or.inl ⟨hissue, hstart⟩
          · rw [if_neg hissue] at hstart
            rw [hstart] at hsubmits
            have hunserved := (hcomplete error nrBytes rfl hfinal hsubmits).resolve_left hissue
            exact Or.inr ⟨hunserved, hstart⟩
        · cases he
  · cases he

/-- One event submits one span at the most. -/
theorem entryStep_pairwise (R : RequestSpanEvent → RequestSpanEvent → Prop) (room : Bool)
    (tp : Tracepoint) (entry : Option RequestState) :
    (entryStep cfg room tp entry).2.Pairwise R := by
  have hspans : ∀ id st startNs queueNs serviceNs totalNs error completed,
      (spans cfg tp.ctx id st startNs queueNs serviceNs totalNs error completed).Pairwise R := by
    intros
    unfold spans
    split <;> simp
  unfold entryStep
  split
  · obtain ⟨ctx, rq, program⟩ := tp
    cases entry with
    | none => cases program <;> exact List.Pairwise.nil
    | some st =>
      cases program with
      | insert => exact List.Pairwise.nil
      | merge => exact List.Pairwise.nil
      | issue => exact List.Pairwise.nil
      | requeue => exact hspans ..
      | complete error nrBytes =>
        dsimp only [advance]
        split
        · exact hspans ..
        · exact List.Pairwise.nil
  · exact List.Pairwise.nil

theorem Spanned.entry_step (h : Spanned l outs) (hlater : Later l o)
    (hbegins : SpanBegins cfg l.entry o.2) {st' : RequestState}
    (hst' : (entryStep cfg o.1 o.2 l.entry).1 = some st') :
    SpannedEntry o.2.ctx.now (outs ++ (entryStep cfg o.1 o.2 l.entry).2) st' := by
  obtain ⟨room, ctx, rq, program⟩ := o
  have hle : l.clock ≤ ctx.now := Nat.le_of_lt hlater.1
  have hover : ∀ e ∈ outs, e.endNs ≤ ctx.now := fun e he => Nat.le_trans (h.ended e he) hle
  unfold entryStep at hst' ⊢
  split at hst'
  · next htracked =>
    rw [if_pos htracked]
    cases hentry : l.entry with
    | none =>
      rw [hentry] at hst'
      cases program <;> simp only [advance, createEntry, List.append_nil] at hst' ⊢ <;>
        try cases hst'
      · split at hst' <;> cases hst'
        exact spannedEntry_initialRequest h.ended hlater.1 ..
      · split at hst' <;> cases hst'
        exact (spannedEntry_initialRequest h.ended hlater.1 ..).dispatched hover (Nat.le_refl _)
    | some st =>
      have hst := h.entry st hentry
      rw [hentry] at hst'
      cases program with
      | insert =>
        cases hst'
        rw [advance, List.append_nil]
        exact hst.keep hle reinserted_times
      | merge =>
        cases hst'
        rw [advance, List.append_nil]
        exact hst.keep hle rfl
      | issue =>
        cases hst'
        rw [advance, List.append_nil]
        exact hst.dispatched hover hle
      | requeue =>
        cases hst'
        refine hst.requeued hlater.1 hlater.2 fun hiss => ?_
        -- a request that is not issued has no span to submit
        rw [List.eq_nil_iff_forall_not_mem]
        intro e he
        obtain ⟨hsubmits, -, -⟩ := mem_requeueSpans hst.timely hlater.1 hlater.2 he
        have hissue := (hbegins st hentry htracked).1 rfl hsubmits
        rw [hst.issued_iff.mpr hissue] at hiss
        cases hiss
      | complete error nrBytes =>
        dsimp only [advance] at hst' ⊢
        split at hst' <;> cases hst'
        next hmore =>
        rw [if_neg hmore, List.append_nil]
        exact hst.keep hle rfl
  · next hoff =>
    rw [if_neg hoff, List.append_nil]
    exact (h.entry st' hst').keep hle rfl

theorem Spanned.step (h : Spanned l outs) (hlater : Later l o)
    (hbegins : SpanBegins cfg l.entry o.2) :
    Spanned ((requestLife cfg).step l o).1 (outs ++ ((requestLife cfg).step l o).2) := by
  have hplaced := h.placed hlater hbegins
  refine ⟨?_, ?_, fun st hst => h.entry_step hlater hbegins hst⟩
  · refine List.pairwise_append.mpr ⟨h.disjoint, entryStep_pairwise _ _ _ _, ?_⟩
    exact fun e' he' e he => (hplaced e he).2 e' he'
  · intro e he
    rcases List.mem_append.mp he with he | he
    · exact Nat.le_trans (h.ended e he) (Nat.le_of_lt hlater.1)
    · obtain ⟨st, -, -, -, hend⟩ := (hplaced e he).1
      exact Nat.le_of_eq hend

end Steps
end Spans

/-- Every span lies in the life of its request, and the spans of one request do not overlap, if
no span is submitted for a request that is found without its issue. -/
theorem request_spans_in_life (cfg : Cfg) (id : ℕ) (s : Maps)
    (hfresh : s.requests.lookup id = none) (tps : List Tracepoint)
    (hincreasing : (ownEvents id tps).Pairwise fun tp tp' => tp.ctx.now < tp'.ctx.now)
    (htimes : ∀ tp ∈ ownEvents id tps, 0 < tp.ctx.now ∧ tp.ctx.now < 2 ^ 64)
    (hbegins : (blockTrack cfg).Meets
      (fun s tp => tp.rq.id = id → SpanBegins cfg (s.requests.lookup id) tp) s tps) :
    (blockTrack cfg).Meets (fun s tp => tp.rq.id = id → SpansInLife cfg s tp) s tps ∧
      (((blockTrack cfg).outputs s tps).filter fun e => e.requestId = id).Pairwise
        fun e e' => NoOverlap e.interval e'.interval := by
  have hevents := observations_events cfg id s tps
  rw [← hevents] at hincreasing htimes
  have hlater : (requestLife cfg).Meets Later ⟨0, s.requests.lookup id⟩
      (observations cfg id s tps) := by
    refine meets_later (fun o ho => (htimes o.2 (List.mem_map_of_mem ho)).1)
      (fun o ho => (htimes o.2 (List.mem_map_of_mem ho)).2) ?_
    have hseen := List.pairwise_map.mp hincreasing
    exact hseen
  have hlife : (requestLife cfg).Meets (fun l o => SpanBegins cfg l.entry o.2)
      ⟨0, s.requests.lookup id⟩ (observations cfg id s tps) :=
    (meets_observations_iff cfg id (fun entry o => SpanBegins cfg entry o.2) s 0 tps).mpr hbegins
  have hstart : Spanned ⟨0, s.requests.lookup id⟩ [] := by
    refine ⟨List.Pairwise.nil, fun e he => (nomatch he), fun st hst => ?_⟩
    rw [hfresh] at hst
    cases hst
  have hstep : ∀ l outs o, Spanned l outs → Later l o ∧ SpanBegins cfg l.entry o.2 →
      Spanned ((requestLife cfg).step l o).1 (outs ++ ((requestLife cfg).step l o).2) :=
    fun _ _ _ h hG => h.step hG.1 hG.2
  constructor
  · have hplaced : (requestLife cfg).Meets (fun l o => InLifeOf cfg l.entry o)
        ⟨0, s.requests.lookup id⟩ (observations cfg id s tps) := by
      refine Machine.Meets.of_invariant (I := fun l => ∃ outs, Spanned l outs) ?_ ?_ ⟨[], hstart⟩
        (hlater.and hlife)
      · rintro l o ⟨outs, h⟩ hG
        exact ⟨_, hstep l outs o h hG⟩
      · rintro l o ⟨outs, h⟩ hG e he
        exact (h.placed hG.1 hG.2 e he).1
    refine ((meets_observations_iff cfg id (InLifeOf cfg) s 0 tps).mp hplaced).mono ?_
    rintro s tp hin rfl e he
    rw [(step_entry cfg s tp.rq.id tp).2] at he
    exact hin rfl e he
  · rw [← (life_of_run cfg id s 0 tps).2]
    exact (Machine.history hstep hstart (hlater.and hlife)).disjoint

section Runs

/-- The timeline is on and every span is wanted. -/
def timelineCfg : Cfg := { timelineEnabled := true }

theorem request_spans_retried_read :
    (((blockTrack timelineCfg).outputs (captureStart 8 50)
        (readEvent 64 100 .insert :: retriedRead ++ [readEvent 64 300 (.complete 0 4096)])).filter
      fun e => e.requestId = 64).Pairwise fun e e' => NoOverlap e.interval e'.interval := by
  refine (request_spans_in_life timelineCfg 64 (captureStart 8 50) rfl _ (by decide) (by decide)
    ?_).2
  refine ⟨?_, ?_, ?_, ?_, ?_, ?_, ?_, trivial⟩ <;> intro hid st hst _ <;>
    first
      | exact absurd hid (by decide)
      | cases hst <;> refine ⟨fun hp _ => ?_, fun _ _ hp _ _ => ?_⟩ <;> cases hp <;> decide

/-- The read goes back to the queue before it has been issued. Its span begins at zero, long
before the request. -/
theorem requeue_unissued_span_begins_at_zero :
    ((blockTrack timelineCfg).outputs (captureStart 8 50)
      [readEvent 64 100 .insert, readEvent 64 150 .requeue]).map RequestSpanEvent.interval =
        [(0, 150)] ∧
    ¬ (blockTrack timelineCfg).Meets (fun s tp => tp.rq.id = 64 → SpansInLife timelineCfg s tp)
      (captureStart 8 50) [readEvent 64 100 .insert, readEvent 64 150 .requeue] := by
  refine ⟨rfl, fun h => ?_⟩
  obtain ⟨st, hst, hseen, -, -⟩ := h.2.1 rfl _ List.mem_cons_self
  cases hst
  exact absurd hseen (by decide)

end Runs
end Manytrace.Bpf.BlockTrack
