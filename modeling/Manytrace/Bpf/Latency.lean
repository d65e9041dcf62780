import Mathlib.Algebra.Order.Ring.Nat
import Manytrace.Bpf.Statistics

/-! The latency of a request, split into the time in service and the time in the queue. -/
namespace Manytrace.Bpf.BlockTrack
open Manytrace.Core

/-! ## Times of an entry -/

/-- The times of an entry whose request has had its last event at `clock`. -/
structure Timely (clock : ℕ) (st : RequestState) : Prop where
  seen_le : st.firstSeenNs ≤ clock
  seen_le_issue : st.issued = true → st.firstSeenNs ≤ st.issueNs
  issue_le : st.issued = true → st.issueNs ≤ clock
  service_le : st.firstSeenNs + st.serviceNs ≤ if st.issued then st.issueNs else clock

/-- The next event of a request comes later than the last one. -/
def Later (l : Life) (o : Bool × Tracepoint) : Prop :=
  l.clock < o.2.ctx.now ∧ o.2.ctx.now < 2 ^ 64

section Times
variable {cfg : Cfg} {ctx : Context} {rq : Request} {clock : ℕ} {st st' : RequestState}

theorem Timely.mono (h : Timely clock st) {now : ℕ} (hle : clock ≤ now)
    (hsame : (st'.firstSeenNs, st'.issueNs, st'.serviceNs, st'.issued) =
      (st.firstSeenNs, st.issueNs, st.serviceNs, st.issued)) : Timely now st' := by
  obtain ⟨hseen, hseen_issue, hissue, hservice⟩ := h
  obtain ⟨h₁, h₂, h₃, h₄⟩ : st'.firstSeenNs = st.firstSeenNs ∧ st'.issueNs = st.issueNs ∧
      st'.serviceNs = st.serviceNs ∧ st'.issued = st.issued := by simpa using hsame
  refine ⟨by omega, ?_, ?_, ?_⟩ <;> rw [h₄]
  · intro hiss
    have := hseen_issue hiss
    omega
  · intro hiss
    have := hissue hiss
    omega
  · split_ifs at hservice ⊢ <;> omega

theorem initialRequest_timely (dev partitionDev : ℕ) (operation : BlockOperation)
    (inserted : Bool) :
    Timely ctx.now (initialRequest ctx rq dev partitionDev operation inserted) :=
  ⟨Nat.le_refl _, fun h => (nomatch h), fun h => (nomatch h), Nat.le_refl _⟩

theorem Timely.dispatched (h : Timely clock st) (hle : clock ≤ ctx.now) :
    Timely ctx.now (st.dispatched ctx rq) := by
  obtain ⟨hseen, -, hissue, hservice⟩ := h
  refine ⟨Nat.le_trans hseen hle, fun _ => Nat.le_trans hseen hle, fun _ => Nat.le_refl _, ?_⟩
  change st.firstSeenNs + st.serviceNs ≤ ctx.now
  split_ifs at hservice with hiss
  · have := hissue hiss
    omega
  · omega

/-- The time in service that is over by `now`. -/
def RequestState.serviceUntil (now : ℕ) (st : RequestState) : ℕ :=
  st.serviceNs + if st.issued then now - st.issueNs else 0

theorem Timely.serviceUntil_le (h : Timely clock st) {now : ℕ} (hle : clock ≤ now) :
    st.firstSeenNs + st.serviceUntil now ≤ now := by
  obtain ⟨hseen, -, hissue, hservice⟩ := h
  unfold RequestState.serviceUntil
  split_ifs at hservice ⊢ with hiss
  · have := hissue hiss
    omega
  · omega

/-- An attempt is added up without overflow. -/
theorem Timely.served_eq (h : Timely clock st) (hlt : clock < ctx.now) (h64 : ctx.now < 2 ^ 64) :
    st.served ctx = { st with serviceNs := st.serviceUntil ctx.now, issued := false } := by
  have hle := h.serviceUntil_le (Nat.le_of_lt hlt)
  unfold RequestState.served RequestState.serviceUntil at *
  cases hiss : st.issued with
  | false =>
    obtain ⟨⟩ := st
    simp_all
  | true =>
    have hissue : st.issueNs < ctx.now := Nat.lt_of_le_of_lt (h.issue_le hiss) hlt
    rw [hiss, if_pos rfl] at hle
    rw [if_pos (by simpa using hissue), if_pos rfl, add64, Nat.mod_eq_of_lt (by omega)]

theorem Timely.served (h : Timely clock st) (hlt : clock < ctx.now) (h64 : ctx.now < 2 ^ 64) :
    Timely ctx.now (st.served ctx) := by
  rw [h.served_eq hlt h64]
  exact ⟨Nat.le_trans h.seen_le (Nat.le_of_lt hlt), fun hiss => (nomatch hiss),
    fun hiss => (nomatch hiss), h.serviceUntil_le (Nat.le_of_lt hlt)⟩

theorem Timely.requeued (h : Timely clock st) (hlt : clock < ctx.now) (h64 : ctx.now < 2 ^ 64) :
    Timely ctx.now (st.requeued ctx) := by
  have hserved := h.served hlt h64
  unfold RequestState.requeued
  rw [h.served_eq hlt h64] at hserved ⊢
  exact ⟨hserved.seen_le, fun hiss => (nomatch hiss), fun hiss => (nomatch hiss),
    hserved.service_le⟩

theorem reinserted_times :
    ((st.reinserted ctx rq).firstSeenNs, (st.reinserted ctx rq).issueNs,
      (st.reinserted ctx rq).serviceNs, (st.reinserted ctx rq).issued) =
      (st.firstSeenNs, st.issueNs, st.serviceNs, st.issued) := by
  unfold RequestState.reinserted
  dsimp only
  split <;> rfl

theorem entryStep_timely {room : Bool} {tp : Tracepoint} {entry : Option RequestState}
    (h : ∀ st, entry = some st → Timely clock st ∧ clock < tp.ctx.now)
    (h64 : tp.ctx.now < 2 ^ 64) {st' : RequestState}
    (hst' : (entryStep cfg room tp entry).1 = some st') : Timely tp.ctx.now st' := by
  unfold entryStep at hst'
  split at hst'
  · obtain ⟨ctx, rq, program⟩ := tp
    cases entry with
    | none =>
      cases program <;> simp only [advance, createEntry] at hst' <;> try cases hst'
      · split at hst' <;> cases hst'
        exact initialRequest_timely ..
      · split at hst' <;> cases hst'
        exact (initialRequest_timely ..).dispatched (Nat.le_refl _)
    | some st =>
      obtain ⟨hst, hlt⟩ := h st rfl
      cases program with
      | insert =>
        cases hst'
        exact hst.mono (Nat.le_of_lt hlt) reinserted_times
      | merge =>
        cases hst'
        exact hst.mono (Nat.le_of_lt hlt) rfl
      | issue =>
        cases hst'
        exact hst.dispatched (Nat.le_of_lt hlt)
      | requeue =>
        cases hst'
        exact hst.requeued hlt h64
      | complete error nrBytes =>
        dsimp only [advance] at hst'
        split at hst' <;> cases hst'
        exact hst.mono (Nat.le_of_lt hlt) rfl
  · obtain ⟨hst, hlt⟩ := h st' hst'
    exact hst.mono (Nat.le_of_lt hlt) rfl

theorem timely_step {l : Life} {o : Bool × Tracepoint}
    (h : ∀ st, l.entry = some st → Timely l.clock st) (ho : Later l o) :
    ∀ st, ((requestLife cfg).step l o).1.entry = some st →
      Timely ((requestLife cfg).step l o).1.clock st :=
  fun _ hst => entryStep_timely (fun st hst => ⟨h st hst, ho.1⟩) ho.2 hst

theorem meets_later {l : Life} {obs : List (Bool × Tracepoint)}
    (hclock : ∀ o ∈ obs, l.clock < o.2.ctx.now) (h64 : ∀ o ∈ obs, o.2.ctx.now < 2 ^ 64)
    (hsorted : obs.Pairwise fun o o' => o.2.ctx.now < o'.2.ctx.now) :
    (requestLife cfg).Meets Later l obs := by
  induction obs generalizing l with
  | nil => trivial
  | cons o obs ih =>
    obtain ⟨hfirst, hrest⟩ := List.pairwise_cons.mp hsorted
    have ho : o ∈ o :: obs := List.mem_cons_self
    exact ⟨⟨hclock o ho, h64 o ho⟩,
      ih hfirst (fun o' ho' => h64 o' (List.mem_cons_of_mem o ho')) hrest⟩

end Times

/-! ## Attempts -/

/-- The attempts to serve a request: when the one under way was issued last, and those that are
over, each from its last issue to its end. -/
structure Attempts where
  running : Option ℕ := none
  ended : List (ℕ × ℕ) := []

def Attempts.close (now : ℕ) (a : Attempts) : Attempts :=
  ⟨none, a.ended ++ (a.running.map fun issued => (issued, now)).toList⟩

def Attempts.next (a : Attempts) (tp : Tracepoint) : Attempts :=
  match tp.program with
  | .issue => { a with running := some tp.ctx.now }
  | .requeue => a.close tp.ctx.now
  | _ => a

def Attempts.lengths (a : Attempts) : ℕ := (a.ended.map fun x => x.2 - x.1).sum

/-- The time in service of a request that had these events and is completed at `done`. -/
def serviceTime (events : List Tracepoint) (done : ℕ) : ℕ :=
  ((events.foldl Attempts.next {}).close done).lengths

/-- The event is looked at and leaves an entry. -/
def StaysTracked (cfg : Cfg) (id : ℕ) (s : Maps) (tp : Tracepoint) : Prop :=
  tp.rq.id = id → tp.tracked cfg = true ∧
    ((blockTrack cfg).step s tp).1.requests.lookup id ≠ none

/-- The life of a request: `first` makes its entry, `last` is its final completion, and in
between come its other events, among those of other requests. -/
structure LifeCycle (cfg : Cfg) (id : ℕ) (s : Maps) (first : Tracepoint)
    (between : List Tracepoint) (last : Tracepoint) : Prop where
  fresh : s.requests.lookup id = none
  first_own : first.rq.id = id
  last_own : last.rq.id = id
  stays : (blockTrack cfg).Meets (StaysTracked cfg id) s (first :: between)
  final : last.tracked cfg = true ∧ ∃ error nrBytes, last.program = .complete error nrBytes ∧
    ∀ st, ((blockTrack cfg).final s (first :: between)).requests.lookup id = some st →
      error ≠ 0 ∨ st.remainingBytes ≤ nrBytes
  increasing : (ownEvents id (first :: between ++ [last])).Pairwise
    fun tp tp' => tp.ctx.now < tp'.ctx.now
  u64 : ∀ tp ∈ ownEvents id (first :: between ++ [last]), tp.ctx.now < 2 ^ 64

/-- The step adds these times to the latencies of the operation, and puts them in its spans. -/
def Records (cfg : Cfg) (s : Maps) (tp : Tracepoint) (dev : ℕ) (op : BlockOperation)
    (times : CompletionTimes) : Prop :=
  (cfg.latencyEnabled = true → statsKept tp.ctx s dev = true →
    let o := operationStats s dev op
    let o' := operationStats ((blockTrack cfg).step s tp).1 dev op
    o'.queueLatencyNs = add64 o.queueLatencyNs times.queueNs ∧
      o'.serviceLatencyNs = add64 o.serviceLatencyNs times.serviceNs ∧
      o'.totalLatencyNs = add64 o.totalLatencyNs times.totalNs ∧
      o'.serviceHistogram = bump o.serviceHistogram (latencyBucket times.serviceNs) ∧
      o'.totalHistogram = bump o.totalHistogram (latencyBucket times.totalNs)) ∧
    ∀ e ∈ ((blockTrack cfg).step s tp).2,
      e.queueNs = times.queueNs ∧ e.serviceNs = times.serviceNs ∧ e.totalNs = times.totalNs

/-- In every difference that `block_rq_requeue` and `block_rq_complete` take, what is taken away
is the smaller one. -/
def NoWrap (entry : Option RequestState) (tp : Tracepoint) : Prop :=
  ∀ st, entry = some st → st.firstSeenNs ≤ tp.ctx.now ∧
    (st.issued = true → st.issueNs ≤ tp.ctx.now) ∧
    (st.served tp.ctx).serviceNs ≤ tp.ctx.now - st.firstSeenNs

section Decomposition
variable {cfg : Cfg} {clock : ℕ} {first tp : Tracepoint} {st : RequestState} {a : Attempts}

/-- The entry of a request whose first event was `first` and which has had the attempts `a`. -/
structure Accounts (first : Tracepoint) (a : Attempts) (st : RequestState) : Prop where
  seen : st.firstSeenNs = first.ctx.now
  dev : st.dev = requestDevice first.rq
  operation : st.operation = requestOperation first.rq
  running : a.running = if st.issued then some st.issueNs else none
  service : st.serviceNs = a.lengths

theorem Attempts.close_lengths (a : Attempts) (now : ℕ) :
    (a.close now).lengths = a.lengths + (a.running.map fun issued => now - issued).getD 0 := by
  unfold Attempts.close Attempts.lengths
  cases a.running <;> simp

/-- All the time in service up to now, with that of the attempt under way. -/
theorem Accounts.serviceUntil (h : Accounts first a st) (now : ℕ) :
    st.serviceUntil now = (a.close now).lengths := by
  rw [a.close_lengths, h.running, ← h.service]
  unfold RequestState.serviceUntil
  cases st.issued <;> rfl

theorem Accounts.mono (h : Accounts first a st) {st' : RequestState}
    (htimes : (st'.firstSeenNs, st'.issueNs, st'.serviceNs, st'.issued) =
      (st.firstSeenNs, st.issueNs, st.serviceNs, st.issued))
    (howner : st'.dev = st.dev ∧ st'.operation = st.operation) : Accounts first a st' := by
  obtain ⟨h₁, h₂, h₃, h₄⟩ : st'.firstSeenNs = st.firstSeenNs ∧ st'.issueNs = st.issueNs ∧
      st'.serviceNs = st.serviceNs ∧ st'.issued = st.issued := by simpa using htimes
  exact ⟨h₁.trans h.seen, howner.1.trans h.dev, howner.2.trans h.operation,
    by rw [h₂, h₄, h.running], h₃.trans h.service⟩

theorem Accounts.requeued (h : Accounts first a st) (ht : Timely clock st) {ctx : Context}
    (hlt : clock < ctx.now) (h64 : ctx.now < 2 ^ 64) :
    Accounts first (a.close ctx.now) (st.requeued ctx) := by
  unfold RequestState.requeued
  rw [ht.served_eq hlt h64]
  exact ⟨h.seen, h.dev, h.operation, rfl, h.serviceUntil ctx.now⟩

theorem reinserted_owner (ctx : Context) (rq : Request) (st : RequestState) :
    (st.reinserted ctx rq).dev = st.dev ∧ (st.reinserted ctx rq).operation = st.operation := by
  unfold RequestState.reinserted
  dsimp only
  split <;> exact ⟨rfl, rfl⟩

/-- A further event of the request. -/
theorem Accounts.step {room : Bool} (h : Accounts first a st) (ht : Timely clock st)
    (hlt : clock < tp.ctx.now) (h64 : tp.ctx.now < 2 ^ 64) {st' : RequestState}
    (htracked : tp.tracked cfg = true) (hst' : (entryStep cfg room tp (some st)).1 = some st') :
    Accounts first (a.next tp) st' := by
  unfold entryStep at hst'
  rw [htracked, if_pos rfl] at hst'
  obtain ⟨ctx, rq, program⟩ := tp
  cases program with
  | insert =>
    cases hst'
    exact h.mono reinserted_times (reinserted_owner ctx rq st)
  | merge =>
    cases hst'
    exact h.mono rfl ⟨rfl, rfl⟩
  | issue =>
    cases hst'
    exact ⟨h.seen, h.dev, h.operation, rfl, h.service⟩
  | requeue =>
    cases hst'
    exact h.requeued ht hlt h64
  | complete error nrBytes =>
    dsimp only [advance] at hst'
    split at hst' <;> cases hst'
    exact h.mono rfl ⟨rfl, rfl⟩

/-- The first event of the request makes the entry. -/
theorem accounts_first {room : Bool} (htracked : first.tracked cfg = true)
    (hst : (entryStep cfg room first none).1 = some st) :
    Accounts first (Attempts.next {} first) st := by
  unfold entryStep at hst
  rw [htracked, if_pos rfl] at hst
  obtain ⟨ctx, rq, program⟩ := first
  cases program <;> simp only [advance, createEntry] at hst <;> try cases hst
  · split at hst <;> cases hst
    exact ⟨rfl, rfl, rfl, rfl, rfl⟩
  · split at hst <;> cases hst
    exact ⟨rfl, rfl, rfl, rfl, rfl⟩

/-- The event is looked at and leaves an entry, as the request sees it. -/
def Survives (cfg : Cfg) (entry : Option RequestState) (o : Bool × Tracepoint) : Prop :=
  o.2.tracked cfg = true ∧ (entryStep cfg o.1 o.2 entry).1 ≠ none

theorem survives_iff {id : ℕ} {s : Maps} {clock : ℕ} {tps : List Tracepoint} :
    (requestLife cfg).Meets (fun l o => Survives cfg l.entry o) ⟨clock, s.requests.lookup id⟩
        (observations cfg id s tps) ↔ (blockTrack cfg).Meets (StaysTracked cfg id) s tps := by
  rw [meets_observations_iff]
  have hsame : ∀ s tp, StaysTracked cfg id s tp ↔
      (tp.rq.id = id → Survives cfg (s.requests.lookup id) (hasRoom s tp.ctx, tp)) := by
    intro s tp
    refine forall_congr' fun hid => ?_
    rw [(step_entry cfg s id tp).1, if_pos hid.symm, hid]
    rfl
  exact ⟨fun h => h.mono fun s tp => (hsame s tp).mpr, fun h => h.mono fun s tp => (hsame s tp).mp⟩

/-- What is known of a life between its first event and the last. -/
def InLife (first : Tracepoint) (l : Life) (events : List (Bool × Tracepoint)) : Prop :=
  ∃ st, l.entry = some st ∧ Timely l.clock st ∧
    Accounts first ((first :: events.map Prod.snd).foldl Attempts.next {}) st

theorem InLife.step {l : Life} {events : List (Bool × Tracepoint)} (h : InLife first l events)
    {o : Bool × Tracepoint} (hlater : Later l o) (hsurvives : Survives cfg l.entry o) :
    InLife first ((requestLife cfg).step l o).1 (events ++ [o]) := by
  obtain ⟨st, hst, htimely, haccounts⟩ := h
  obtain ⟨htracked, halive⟩ := hsurvives
  rw [hst] at halive
  obtain ⟨st', hst'⟩ := Option.ne_none_iff_exists'.mp halive
  have hentry : ((requestLife cfg).step l o).1.entry = some st' := by
    change (entryStep cfg o.1 o.2 l.entry).1 = some st'
    rw [hst, hst']
  refine ⟨st', hentry, timely_step (fun st₀ h₀ => ?_) hlater st' hentry, ?_⟩
  · cases hst.symm.trans h₀
    exact htimely
  · have hnext := haccounts.step htimely hlater.1 hlater.2 htracked hst'
    rw [List.map_append, ← List.cons_append, List.foldl_append]
    exact hnext

theorem inLife_first {room : Bool} (h64 : first.ctx.now < 2 ^ 64)
    (hsurvives : Survives cfg none (room, first)) :
    InLife first ⟨first.ctx.now, (entryStep cfg room first none).1⟩ [] := by
  obtain ⟨htracked, halive⟩ := hsurvives
  obtain ⟨st, hst⟩ := Option.ne_none_iff_exists'.mp halive
  have hnew : ∀ st, (none : Option RequestState) = some st → Timely 0 st ∧ 0 < first.ctx.now :=
    fun _ hnone => nomatch hnone
  have htimely : Timely first.ctx.now st := entryStep_timely hnew h64 hst
  exact ⟨st, hst, htimely, accounts_first htracked hst⟩

theorem InLife.noWrap {l : Life} {events : List (Bool × Tracepoint)} (h : InLife first l events)
    {o : Bool × Tracepoint} (hlater : Later l o) : NoWrap l.entry o.2 := by
  obtain ⟨st, hst, htimely, -⟩ := h
  intro st' hst'
  cases hst.symm.trans hst'
  have hle := htimely.serviceUntil_le (Nat.le_of_lt hlater.1)
  refine ⟨Nat.le_trans htimely.seen_le (Nat.le_of_lt hlater.1),
    fun hiss => Nat.le_trans (htimely.issue_le hiss) (Nat.le_of_lt hlater.1), ?_⟩
  rw [htimely.served_eq hlater.1 hlater.2]
  change st.serviceUntil o.2.ctx.now ≤ _
  omega

/-- The times that the last completion records. -/
theorem InLife.completionTimes {l : Life} {events : List (Bool × Tracepoint)}
    (h : InLife first l events) {o : Bool × Tracepoint} (hlater : Later l o)
    {st : RequestState} (hst : l.entry = some st) :
    let serviceNs := serviceTime (first :: events.map Prod.snd) o.2.ctx.now
    completionTimes o.2.ctx (st.served o.2.ctx).dequeued =
        ⟨o.2.ctx.now - first.ctx.now - serviceNs, serviceNs, o.2.ctx.now - first.ctx.now⟩ ∧
      serviceNs ≤ o.2.ctx.now - first.ctx.now := by
  obtain ⟨st', hst', htimely, haccounts⟩ := h
  obtain rfl : st' = st := Option.some.inj (hst'.symm.trans hst)
  have hle := htimely.serviceUntil_le (Nat.le_of_lt hlater.1)
  have hlt : st'.firstSeenNs < o.2.ctx.now := Nat.lt_of_le_of_lt htimely.seen_le hlater.1
  have hservice : st'.serviceUntil o.2.ctx.now =
    serviceTime (first :: events.map Prod.snd) o.2.ctx.now := haccounts.serviceUntil _
  dsimp only
  rw [htimely.served_eq hlater.1 hlater.2, ← hservice, ← haccounts.seen]
  refine ⟨?_, by omega⟩
  unfold BlockTrack.completionTimes RequestState.dequeued
  dsimp only
  rw [if_pos hlt]
  congr 1
  split_ifs <;> omega

end Decomposition

section LifeCycles
variable {cfg : Cfg} {id : ℕ} {s : Maps} {first last : Tracepoint} {between : List Tracepoint}

/-- The request after its first event. -/
def lifeAfter (cfg : Cfg) (id : ℕ) (s : Maps) (first : Tracepoint) : Life :=
  ⟨first.ctx.now, ((blockTrack cfg).step s first).1.requests.lookup id⟩

/-- What the request sees of the events after its first one. -/
def seenAfter (cfg : Cfg) (id : ℕ) (s : Maps) (first : Tracepoint) (tps : List Tracepoint) :
    List (Bool × Tracepoint) :=
  observations cfg id ((blockTrack cfg).step s first).1 tps

theorem LifeCycle.inLife_first (h : LifeCycle cfg id s first between last) :
    InLife first (lifeAfter cfg id s first) [] := by
  have hown : first ∈ ownEvents id (first :: between ++ [last]) := by
    simp [ownEvents, h.first_own]
  have hentry : ((blockTrack cfg).step s first).1.requests.lookup id =
      (entryStep cfg (hasRoom s first.ctx) first none).1 := by
    rw [(step_entry cfg s id first).1, if_pos h.first_own.symm, h.first_own, h.fresh]
  obtain ⟨htracked, halive⟩ := h.stays.1 h.first_own
  unfold lifeAfter
  rw [hentry] at halive ⊢
  exact BlockTrack.inLife_first (h.u64 first hown) ⟨htracked, halive⟩

theorem LifeCycle.seenAfter_last (h : LifeCycle cfg id s first between last) :
    seenAfter cfg id s first (between ++ [last]) = seenAfter cfg id s first between ++
      [(hasRoom ((blockTrack cfg).final s (first :: between)) last.ctx, last)] := by
  unfold seenAfter
  rw [observations_append, observations, if_pos h.last_own]
  rfl

/-- Every later event of the request comes later than the one before. -/
theorem LifeCycle.later (h : LifeCycle cfg id s first between last) :
    (requestLife cfg).Meets Later (lifeAfter cfg id s first)
      (seenAfter cfg id s first (between ++ [last])) := by
  have hevents := observations_events cfg id ((blockTrack cfg).step s first).1 (between ++ [last])
  have hown : ownEvents id (first :: between ++ [last]) =
      first :: ownEvents id (between ++ [last]) := by simp [ownEvents, h.first_own]
  have hincreasing := h.increasing
  have h64 := h.u64
  rw [hown, ← hevents] at hincreasing h64
  obtain ⟨hfirst, hrest⟩ := List.pairwise_cons.mp hincreasing
  refine meets_later (fun o ho => ?_) (fun o ho => ?_) ?_
  · exact hfirst o.2 (List.mem_map_of_mem ho)
  · exact h64 o.2 (List.mem_cons_of_mem _ (List.mem_map_of_mem ho))
  · have hseen := List.pairwise_map.mp hrest
    exact hseen

theorem LifeCycle.survives (h : LifeCycle cfg id s first between last) :
    (requestLife cfg).Meets (fun l o => Survives cfg l.entry o) (lifeAfter cfg id s first)
      (seenAfter cfg id s first between) :=
  survives_iff.mpr h.stays.2

theorem LifeCycle.inLife (h : LifeCycle cfg id s first between last) :
    InLife first ((requestLife cfg).final (lifeAfter cfg id s first)
      (seenAfter cfg id s first between)) (seenAfter cfg id s first between) := by
  have hlater := h.later
  rw [h.seenAfter_last, Machine.meets_append] at hlater
  exact Machine.history_inputs (fun _ _ _ hin hG => hin.step hG.1 hG.2) h.inLife_first
    (hlater.1.and h.survives)

theorem LifeCycle.noWrap (h : LifeCycle cfg id s first between last) :
    (blockTrack cfg).Meets (fun s tp => tp.rq.id = id → NoWrap (s.requests.lookup id) tp) s
      (first :: between ++ [last]) := by
  have hlater := h.later
  refine ⟨fun _ st hst => ?_, ?_⟩
  · rw [h.fresh] at hst
    cases hst
  · refine (meets_observations_iff cfg id (fun entry o => NoWrap entry o.2) _ first.ctx.now _).mp ?_
    change (requestLife cfg).Meets _ (lifeAfter cfg id s first)
      (seenAfter cfg id s first (between ++ [last]))
    rw [h.seenAfter_last, Machine.meets_append] at hlater ⊢
    have hstep : ∀ l o, (∃ events, InLife first l events) → Later l o ∧ Survives cfg l.entry o →
        ∃ events, InLife first ((requestLife cfg).step l o).1 events := by
      rintro l o ⟨events, hin⟩ hG
      exact ⟨events ++ [o], hin.step hG.1 hG.2⟩
    have hwrap : ∀ l o, (∃ events, InLife first l events) → Later l o ∧ Survives cfg l.entry o →
        NoWrap l.entry o.2 := by
      rintro l o ⟨events, hin⟩ hG
      exact hin.noWrap hG.1
    exact ⟨Machine.Meets.of_invariant hstep hwrap ⟨[], h.inLife_first⟩ (hlater.1.and h.survives),
      h.inLife.noWrap hlater.2.1, trivial⟩

/-- The final completion adds what it says to the latencies, whatever bytes it adds as well. -/
theorem records_of_final {tp : Tracepoint} {error nrBytes : ℕ} {st : RequestState}
    (htracked : tp.tracked cfg = true) (hprogram : tp.program = .complete error nrBytes)
    (hst : s.requests.lookup tp.rq.id = some st)
    (hfinal : error ≠ 0 ∨ st.remainingBytes ≤ nrBytes) :
    Records cfg s tp st.dev st.operation (completionTimes tp.ctx (st.served tp.ctx).dequeued) := by
  obtain ⟨ctx, rq, program⟩ := tp
  cases hprogram
  obtain ⟨hreq, htrack⟩ : cfg.requestTrackingEnabled = true ∧
      shouldTrack cfg ctx (requestDevice rq) (requestOperation rq) = true := by
    simpa [Tracepoint.tracked] using htracked
  constructor
  · intro hlatency hkept
    have hstats :=
      operationStats_complete cfg ctx rq s st.dev st.operation error nrBytes htrack hreq
    simp only [hst, hfinal, true_and, hkept, if_true] at hstats
    have hstep : operationStats ((blockTrack cfg).step s ⟨ctx, rq, .complete error nrBytes⟩).1
      st.dev st.operation = _ := hstats
    dsimp only
    rw [hstep]
    split <;> simp [OperationStats.addCompletion, OperationStats.addBytes, hlatency]
  · intro e he
    rw [(step_entry cfg s rq.id ⟨ctx, rq, .complete error nrBytes⟩).2, hst] at he
    unfold entryStep at he
    rw [htracked, if_pos rfl] at he
    dsimp only [advance] at he
    rw [if_pos hfinal] at he
    rw [((mem_spans_iff cfg ctx).mp he).2]
    exact ⟨rfl, rfl, rfl⟩

end LifeCycles

/-- The final completion records the time since the first event, and splits it into the time of
the attempts and the rest. -/
theorem latency_decomposed (cfg : Cfg) (id : ℕ) (s : Maps) (first : Tracepoint)
    (between : List Tracepoint) (last : Tracepoint)
    (h : LifeCycle cfg id s first between last) :
    let totalNs := last.ctx.now - first.ctx.now
    let serviceNs := serviceTime (ownEvents id (first :: between)) last.ctx.now
    Records cfg ((blockTrack cfg).final s (first :: between)) last (requestDevice first.rq)
        (requestOperation first.rq) ⟨totalNs - serviceNs, serviceNs, totalNs⟩ ∧
      serviceNs ≤ totalNs ∧
      (blockTrack cfg).Meets (fun s tp => tp.rq.id = id → NoWrap (s.requests.lookup id) tp) s
        (first :: between ++ [last]) := by
  have hlater := h.later
  rw [h.seenAfter_last, Machine.meets_append] at hlater
  obtain ⟨htracked, error, nrBytes, hprogram, hfinal⟩ := h.final
  have hentry := (life_of_run cfg id ((blockTrack cfg).step s first).1 first.ctx.now between).1
  obtain ⟨st, hst, htimely, haccounts⟩ := h.inLife
  have hlookup : ((blockTrack cfg).final s (first :: between)).requests.lookup id = some st :=
    hentry.symm.trans hst
  obtain ⟨htimes, hle⟩ := h.inLife.completionTimes hlater.2.1 hst
  have hevents : first :: (seenAfter cfg id s first between).map Prod.snd =
      ownEvents id (first :: between) := by
    rw [seenAfter, observations_events]
    simp [ownEvents, h.first_own]
  rw [hevents] at htimes hle
  refine ⟨?_, hle, h.noWrap⟩
  rw [← htimes, ← haccounts.dev, ← haccounts.operation]
  exact records_of_final htracked hprogram (h.last_own ▸ hlookup) (hfinal st hlookup)

section Runs

/-- An event of a read of 4096 bytes from device 8. -/
def readEvent (id now : ℕ) (program : Program) : Tracepoint :=
  ⟨⟨now, [], 1, 1, "dd", 0, true, true, true⟩, ⟨id, 0, 4096, 2048, some 8, none⟩, program⟩

/-- The read is issued, goes back to the queue at 200 and is issued again. -/
def retriedRead : List Tracepoint :=
  [readEvent 64 150 .issue, readEvent 65 170 .insert, readEvent 64 200 .requeue,
    readEvent 64 220 .insert, readEvent 64 260 .issue]

theorem lifeCycle_retriedRead :
    LifeCycle {} 64 (captureStart 8 50) (readEvent 64 100 .insert) retriedRead
      (readEvent 64 300 (.complete 0 4096)) where
  fresh := rfl
  first_own := rfl
  last_own := rfl
  stays := by
    refine ⟨?_, ?_, ?_, ?_, ?_, ?_, trivial⟩ <;> intro hid <;> first
      | exact absurd hid (by decide)
      | exact ⟨rfl, Option.some_ne_none _⟩
  final := by
    refine ⟨rfl, 0, 4096, rfl, fun st hst => Or.inr ?_⟩
    cases hst
    decide
  increasing := by decide
  u64 := by decide

/-- The attempts took 50 and 40 of its 200 nanoseconds. -/
theorem latency_retried_read :
    Records {} ((blockTrack {}).final (captureStart 8 50) (readEvent 64 100 .insert :: retriedRead))
      (readEvent 64 300 (.complete 0 4096)) 8 .read ⟨110, 90, 200⟩ :=
  (latency_decomposed {} 64 (captureStart 8 50) (readEvent 64 100 .insert) retriedRead
    (readEvent 64 300 (.complete 0 4096)) lifeCycle_retriedRead).1

end Runs
end Manytrace.Bpf.BlockTrack
