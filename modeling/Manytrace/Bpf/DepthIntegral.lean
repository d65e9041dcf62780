import Manytrace.Bpf.DepthTime
import Manytrace.Core.Signal

/-! The depth of a device as user space samples it. The programs charge the time up to the last
update, and a sample adds the time since. -/
namespace Manytrace.Bpf.BlockTrack
open Manytrace.Core

structure DepthSnapshot where
  firstSeenNs : ℕ
  busyNs : ℕ
  saturatedNs : ℕ
  inflightNs : ℕ
  queuedNs : ℕ
  inflight : ℕ
  queued : ℕ
  maxInflight : ℕ
  maxQueued : ℕ
deriving DecidableEq, Repr

def saturatingAdd (a b : ℕ) : ℕ := min (a + b) (2 ^ 64 - 1)

def saturatingMul (a b : ℕ) : ℕ := min (a * b) (2 ^ 64 - 1)

def DeviceDepth.snapshot (d : DeviceDepth) (now : ℕ) : DepthSnapshot :=
  let elapsed := now - d.lastUpdateNs
  { firstSeenNs := d.firstSeenNs
    busyNs := saturatingAdd d.busyNs (if 0 < d.inflight then elapsed else 0)
    saturatedNs := saturatingAdd d.saturatedNs (if 0 < d.queued then elapsed else 0)
    inflightNs := saturatingAdd d.inflightNs (saturatingMul elapsed d.inflight)
    queuedNs := saturatingAdd d.queuedNs (saturatingMul elapsed d.queued)
    inflight := d.inflight
    queued := d.queued
    maxInflight := d.maxInflight
    maxQueued := d.maxQueued }

def DepthSnapshot.delta (x : DepthSnapshot) (previous : Option DepthSnapshot) : DepthSnapshot :=
  match previous.filter fun p => p.firstSeenNs == x.firstSeenNs with
  | none => x
  | some p =>
    { x with
      busyNs := x.busyNs - p.busyNs
      saturatedNs := x.saturatedNs - p.saturatedNs
      inflightNs := x.inflightNs - p.inflightNs
      queuedNs := x.queuedNs - p.queuedNs }

inductive DepthAct
  | adjust (c : DepthCall)
  | sample (now : ℕ)
deriving DecidableEq, Repr

structure DepthSample where
  now : ℕ
  snapshot : DepthSnapshot
  delta : DepthSnapshot
deriving DecidableEq, Repr

structure DepthSampling where
  maps : Maps
  previousDepth : Option DepthSnapshot := none

/-- Calls for one device, and samples of it. -/
def depthSampling (cfg : Cfg) (dev : ℕ) : Machine DepthSampling DepthAct DepthSample where
  step s
    | .adjust c =>
      ({ s with maps := adjustDepth cfg c.ctx dev c.queuedDelta c.inflightDelta s.maps }, [])
    | .sample now =>
      match (if cfg.saturationEnabled then s.maps.deviceDepths dev else none) with
      | none => (s, [])
      | some current =>
        let snapshot := current.snapshot now
        ({ s with previousDepth := some snapshot },
          [⟨now, snapshot, snapshot.delta s.previousDepth⟩])

/-! ## Depth over time -/

/-- The two depths, as the calls change them at their times. -/
def depthSignal : Signal DepthCall (ℕ × ℕ) where
  time c := c.ctx.now
  next d c := (stepCounter d.1 c.inflightDelta, stepCounter d.2 c.queuedDelta)
  start := (0, 0)

def inflightAt (calls : List DepthCall) (t : ℕ) : ℕ := (depthSignal.stateAt calls t).1

def queuedAt (calls : List DepthCall) (t : ℕ) : ℕ := (depthSignal.stateAt calls t).2

inductive DepthField
  | busy
  | saturated
  | inflight
  | queued

def DeviceDepth.field (d : DeviceDepth) : DepthField → ℕ
  | .busy => d.busyNs
  | .saturated => d.saturatedNs
  | .inflight => d.inflightNs
  | .queued => d.queuedNs

def DepthSnapshot.field (x : DepthSnapshot) : DepthField → ℕ
  | .busy => x.busyNs
  | .saturated => x.saturatedNs
  | .inflight => x.inflightNs
  | .queued => x.queuedNs

/-- How fast a field grows at a depth. -/
def DepthField.rate : DepthField → ℕ × ℕ → ℕ
  | .busy, d => if d.1 ≠ 0 then 1 else 0
  | .saturated, d => if d.2 ≠ 0 then 1 else 0
  | .inflight, d => d.1
  | .queued, d => d.2

def DepthField.integral (f : DepthField) (calls : List DepthCall) (a b : ℕ) : ℕ :=
  depthSignal.integral f.rate calls a b

/-- The integrals of the depth from `start` to `now`. -/
structure Exact (start : ℕ) (calls : List DepthCall) (now : ℕ) (x : DepthSnapshot) : Prop where
  busy : x.busyNs = ((Finset.Ico start now).filter fun t => 0 < inflightAt calls t).card
  saturated : x.saturatedNs = ((Finset.Ico start now).filter fun t => 0 < queuedAt calls t).card
  inflight : x.inflightNs = ∑ t ∈ Finset.Ico start now, inflightAt calls t
  queued : x.queuedNs = ∑ t ∈ Finset.Ico start now, queuedAt calls t

section Snapshots
variable {start now : ℕ} {calls : List DepthCall} {d : DeviceDepth} {x : DepthSnapshot}

theorem exact_of_fields (h : ∀ f, x.field f = DepthField.integral f calls start now) :
    Exact start calls now x := by
  refine ⟨?_, ?_, h .inflight, h .queued⟩
  · have hbusy : x.busyNs = _ := h .busy
    rw [hbusy, Finset.card_filter]
    simp only [DepthField.integral, Signal.integral, DepthField.rate, inflightAt,
      Nat.pos_iff_ne_zero]
  · have hsaturated : x.saturatedNs = _ := h .saturated
    rw [hsaturated, Finset.card_filter]
    simp only [DepthField.integral, Signal.integral, DepthField.rate, queuedAt,
      Nat.pos_iff_ne_zero]

/-- The entry has been charged for these calls, up to its last update. -/
structure ChargedFor (start : ℕ) (calls : List DepthCall) (d : DeviceDepth) : Prop where
  firstSeen : d.firstSeenNs = start
  start_le : start ≤ d.lastUpdateNs
  times_le : ∀ c ∈ calls, c.ctx.now ≤ d.lastUpdateNs
  depth : (d.inflight, d.queued) = depthSignal.state calls
  charged : ∀ f, d.field f = DepthField.integral f calls start d.lastUpdateNs % 2 ^ 64

theorem chargedFor_initialDepth (start : ℕ) : ChargedFor start [] (initialDepth start) where
  firstSeen := rfl
  start_le := Nat.le_refl start
  times_le _ h := absurd h List.not_mem_nil
  depth := rfl
  charged f := by
    have hzero : DepthField.integral f [] start start = 0 := Signal.integral_self start
    change (initialDepth start).field f = DepthField.integral f [] start start % 2 ^ 64
    rw [hzero]
    cases f <;> rfl

/-- Up to a time after the last update, the rest is at the depth of the entry. -/
theorem ChargedFor.integral_eq (h : ChargedFor start calls d) (hle : d.lastUpdateNs ≤ now)
    (f : DepthField) : f.integral calls start now =
      f.integral calls start d.lastUpdateNs +
        (now - d.lastUpdateNs) * f.rate (d.inflight, d.queued) := by
  have hafter : f.integral calls d.lastUpdateNs now =
      (now - d.lastUpdateNs) * f.rate (depthSignal.state calls) :=
    Signal.integral_after h.times_le
  rw [h.depth, ← hafter]
  exact (Signal.integral_add h.start_le hle).symm

theorem field_charge (hpos : 0 < d.lastUpdateNs) (hle : d.lastUpdateNs ≤ now) (f : DepthField)
    (hlt : d.field f < 2 ^ 64) : (d.charge now).field f =
      add64 (d.field f) ((now - d.lastUpdateNs) * f.rate (d.inflight, d.queued)) := by
  have hsame : add64 (d.field f) 0 = d.field f := Nat.mod_eq_of_lt hlt
  unfold DeviceDepth.charge
  by_cases hnow : d.lastUpdateNs < now
  · rw [if_pos ⟨Nat.ne_of_gt hpos, hnow⟩]
    cases f with
    | busy =>
      change (if d.inflight ≠ 0 then _ else _) =
        add64 d.busyNs (_ * if d.inflight ≠ 0 then 1 else 0)
      split
      · rw [Nat.mul_one]
      · exact hsame.symm
    | saturated =>
      change (if d.queued ≠ 0 then _ else _) =
        add64 d.saturatedNs (_ * if d.queued ≠ 0 then 1 else 0)
      split
      · rw [Nat.mul_one]
      · exact hsame.symm
    | inflight => rfl
    | queued => rfl
  · have heq : now - d.lastUpdateNs = 0 := by omega
    rw [if_neg fun h => hnow h.2, heq, Nat.zero_mul, hsame]

theorem ChargedFor.adjust (h : ChargedFor start calls d) (hpos : 0 < start) (c : DepthCall)
    (hle : d.lastUpdateNs ≤ c.ctx.now) :
    ChargedFor start (calls ++ [c]) (d.adjust c.queuedDelta c.inflightDelta c.ctx.now) := by
  have hkeep : (d.charge c.ctx.now).firstSeenNs = d.firstSeenNs ∧
      (d.charge c.ctx.now).inflight = d.inflight ∧ (d.charge c.ctx.now).queued = d.queued := by
    unfold DeviceDepth.charge
    split <;> exact ⟨rfl, rfl, rfl⟩
  obtain ⟨hfirst, hinflight, hqueued⟩ := hkeep
  refine ⟨hfirst.trans h.firstSeen, Nat.le_trans h.start_le hle, ?_, ?_, ?_⟩
  · intro c' hc'
    rcases List.mem_append.mp hc' with hold | hnew
    · exact Nat.le_trans (h.times_le c' hold) hle
    · rw [List.mem_singleton.mp hnew]
      exact Nat.le_refl _
  · rw [Signal.state, List.foldl_append, ← Signal.state, ← h.depth]
    change (stepCounter (d.charge c.ctx.now).inflight _,
      stepCounter (d.charge c.ctx.now).queued _) = _
    rw [hinflight, hqueued]
    rfl
  · intro f
    have hfield : (d.adjust c.queuedDelta c.inflightDelta c.ctx.now).field f =
        (d.charge c.ctx.now).field f := by
      cases f <;> rfl
    have hlt : d.field f < 2 ^ 64 := by
      rw [h.charged f]
      exact Nat.mod_lt _ (Nat.two_pow_pos 64)
    have happend : f.integral (calls ++ [c]) start c.ctx.now = f.integral calls start c.ctx.now :=
      Signal.integral_append fun e he => by
        rw [List.mem_singleton.mp he]
        exact Nat.le_refl _
    have hupdated : (d.adjust c.queuedDelta c.inflightDelta c.ctx.now).lastUpdateNs =
        c.ctx.now := rfl
    rw [hfield, field_charge (Nat.lt_of_lt_of_le hpos h.start_le) hle f hlt, hupdated, happend,
      h.integral_eq hle f, h.charged f, add64, Nat.mod_add_mod]

theorem saturatingAdd_mul (a b c : ℕ) :
    saturatingAdd a (saturatingMul b c) = min (a + b * c) (2 ^ 64 - 1) := by
  unfold saturatingAdd saturatingMul
  omega

theorem field_snapshot (d : DeviceDepth) (now : ℕ) (f : DepthField) :
    (d.snapshot now).field f = min (d.field f +
      (now - d.lastUpdateNs) * f.rate (d.inflight, d.queued)) (2 ^ 64 - 1) := by
  cases f with
  | busy => simp [DeviceDepth.snapshot, DepthSnapshot.field, DeviceDepth.field, saturatingAdd,
      DepthField.rate, Nat.pos_iff_ne_zero]
  | saturated => simp [DeviceDepth.snapshot, DepthSnapshot.field, DeviceDepth.field,
      saturatingAdd, DepthField.rate, Nat.pos_iff_ne_zero]
  | inflight => exact saturatingAdd_mul ..
  | queued => exact saturatingAdd_mul ..

/-- A snapshot extends the entry to its own time. -/
theorem ChargedFor.snapshot (h : ChargedFor start calls d) (hle : d.lastUpdateNs ≤ now)
    (f : DepthField) (hfit : f.integral calls start now < 2 ^ 64) :
    (d.snapshot now).field f = f.integral calls start now := by
  have hsplit := h.integral_eq hle f
  have hfield : d.field f = f.integral calls start d.lastUpdateNs := by
    rw [h.charged f, Nat.mod_eq_of_lt (by omega)]
  rw [field_snapshot, hfield, ← hsplit]
  omega

end Snapshots

/-! ## Runs -/

/-- The calls are in the order of their times, and so are the samples. No sample is earlier than
the last call before it. -/
def InTimeOrder : List DepthAct → ℕ → ℕ → Prop
  | [], _, _ => True
  | .adjust c :: acts, lastUpdate, lastSample =>
    lastUpdate ≤ c.ctx.now ∧ InTimeOrder acts c.ctx.now lastSample
  | .sample now :: acts, lastUpdate, lastSample =>
    lastUpdate ≤ now ∧ lastSample < now ∧ InTimeOrder acts lastUpdate now

/-- No call is earlier than a sample before it. -/
def NoneLate : List DepthAct → ℕ → Prop
  | [], _ => True
  | .adjust c :: acts, lastSample => lastSample ≤ c.ctx.now ∧ NoneLate acts lastSample
  | .sample now :: acts, _ => NoneLate acts now

/-- The calls before each sample, and its time. -/
def sampled : List DepthCall → List DepthAct → List (List DepthCall × ℕ)
  | _, [] => []
  | calls, .adjust c :: acts => sampled (calls ++ [c]) acts
  | calls, .sample now :: acts => (calls, now) :: sampled calls acts

/-- The integrals are values of 64 bits. -/
def Fits (start : ℕ) (ys : List (List DepthCall × ℕ)) : Prop :=
  ∀ y ∈ ys, ∀ f : DepthField, f.integral y.1 start y.2 < 2 ^ 64

/-- Between two samples, no more time is counted than has passed. -/
def WithinElapsed (now : ℕ) (x : DepthSample) : Prop :=
  x.delta.busyNs ≤ x.now - now ∧ x.delta.saturatedNs ≤ x.now - now

section Runs
variable {cfg : Cfg} {dev start lastSample : ℕ} {s : DepthSampling} {d : DeviceDepth}
  {calls : List DepthCall} {acts : List DepthAct}

theorem depthSampling_adjust (hsat : cfg.saturationEnabled = true)
    (hd : s.maps.deviceDepths dev = some d) (c : DepthCall) :
    ((depthSampling cfg dev).step s (.adjust c)).1.maps.deviceDepths dev =
      some (d.adjust c.queuedDelta c.inflightDelta c.ctx.now) := by
  have h := depthCalls_step cfg hd c
  rwa [if_pos hsat] at h

theorem depthSampling_sample (hsat : cfg.saturationEnabled = true)
    (hd : s.maps.deviceDepths dev = some d) (now : ℕ) :
    (depthSampling cfg dev).step s (.sample now) =
      ({ s with previousDepth := some (d.snapshot now) },
        [⟨now, d.snapshot now, (d.snapshot now).delta s.previousDepth⟩]) := by
  simp [depthSampling, hsat, hd]

/-- Every sample is exact for the calls before it. -/
theorem samples_exact (hsat : cfg.saturationEnabled = true) (hpos : 0 < start)
    (hd : s.maps.deviceDepths dev = some d) (h : ChargedFor start calls d)
    (horder : InTimeOrder acts d.lastUpdateNs lastSample)
    (hfit : Fits start (sampled calls acts)) :
    List.Forall₂ (fun y x => x.now = y.2 ∧ Exact start y.1 y.2 x.snapshot) (sampled calls acts)
      ((depthSampling cfg dev).outputs s acts) := by
  induction acts generalizing s d calls lastSample with
  | nil => exact .nil
  | cons a acts ih =>
    cases a with
    | adjust c =>
      exact ih (depthSampling_adjust hsat hd c) (h.adjust hpos c horder.1) horder.2 hfit
    | sample now =>
      rw [Machine.outputs_cons, depthSampling_sample hsat hd]
      refine .cons ⟨rfl, ?_⟩ ?_
      · exact exact_of_fields fun f => h.snapshot horder.1 f (hfit _ List.mem_cons_self f)
      · exact ih hd h horder.2.2 fun y hy => hfit y (List.mem_cons_of_mem _ hy)

/-- The last snapshot, if there is one, is that of the calls before `lastSample`. -/
def Remembers (start : ℕ) (calls : List DepthCall) (lastSample : ℕ)
    (previous : Option DepthSnapshot) : Prop :=
  ∀ p, previous = some p → start ≤ lastSample ∧ p.firstSeenNs = start ∧
    ∀ f, p.field f = DepthField.integral f calls start lastSample

theorem Remembers.adjust {previous : Option DepthSnapshot}
    (h : Remembers start calls lastSample previous) {c : DepthCall}
    (hlate : lastSample ≤ c.ctx.now) : Remembers start (calls ++ [c]) lastSample previous := by
  intro p hp
  obtain ⟨hle, hfirst, hfield⟩ := h p hp
  refine ⟨hle, hfirst, fun f => (hfield f).trans ?_⟩
  refine (Signal.integral_append fun e he => ?_).symm
  rw [List.mem_singleton.mp he]
  exact hlate

theorem DepthSnapshot.field_delta {x p : DepthSnapshot} (h : p.firstSeenNs = x.firstSeenNs)
    (f : DepthField) : (x.delta (some p)).field f = x.field f - p.field f := by
  simp only [delta, Option.filter_some, h, beq_self_eq_true, if_true]
  cases f <;> rfl

/-- What a sample adds to the one before it. -/
theorem Remembers.delta {previous : Option DepthSnapshot} {now : ℕ}
    (h : Remembers start calls lastSample previous) (hlt : lastSample < now) {x : DepthSnapshot}
    (hx : x.firstSeenNs = start) (hfield : ∀ f, x.field f = DepthField.integral f calls start now)
    (f : DepthField) :
    (x.delta previous).field f + (previous.map fun p => p.field f).getD 0 = x.field f ∧
      (previous.isSome = true →
        (x.delta previous).field f = f.integral calls lastSample now) := by
  cases previous with
  | none => exact ⟨rfl, fun hnone => absurd hnone Bool.false_ne_true⟩
  | some p =>
    obtain ⟨hle, hfirst, hp⟩ := h p rfl
    have hsplit : f.integral calls start lastSample + f.integral calls lastSample now =
        f.integral calls start now :=
      Signal.integral_add hle (Nat.le_of_lt hlt)
    rw [DepthSnapshot.field_delta (hfirst.trans hx.symm), hfield f, hp f, Option.map_some,
      Option.getD_some, hp f]
    constructor
    · omega
    · intro _
      omega

theorem busy_rate_le (d : ℕ × ℕ) : DepthField.busy.rate d ≤ 1 := by
  unfold DepthField.rate
  dsimp only
  split <;> omega

theorem saturated_rate_le (d : ℕ × ℕ) : DepthField.saturated.rate d ≤ 1 := by
  unfold DepthField.rate
  dsimp only
  split <;> omega

/-- The deltas of the samples lead from the previous snapshot to the last one. -/
structure Telescopes (lastSample : ℕ) (previous : Option DepthSnapshot)
    (xs : List DepthSample) : Prop where
  sum_eq : ∀ f, (xs.map fun x => x.delta.field f).sum + (previous.map fun p => p.field f).getD 0 =
    (xs.getLast?.map fun x => x.snapshot.field f).getD ((previous.map fun p => p.field f).getD 0)
  head : previous.isSome = true → ∀ x ∈ xs.head?, WithinElapsed lastSample x
  chain : xs.IsChain fun x y => WithinElapsed x.now y

theorem deltas_telescope (hsat : cfg.saturationEnabled = true) (hpos : 0 < start)
    (hd : s.maps.deviceDepths dev = some d) (h : ChargedFor start calls d)
    (hseen : Remembers start calls lastSample s.previousDepth)
    (horder : InTimeOrder acts d.lastUpdateNs lastSample) (hlate : NoneLate acts lastSample)
    (hfit : Fits start (sampled calls acts)) :
    Telescopes lastSample s.previousDepth ((depthSampling cfg dev).outputs s acts) := by
  induction acts generalizing s d calls lastSample with
  | nil =>
    exact ⟨fun f => Nat.zero_add _, fun _ x hx => absurd hx (Option.not_mem_none x), .nil⟩
  | cons a acts ih =>
    cases a with
    | adjust c =>
      exact ih (depthSampling_adjust hsat hd c) (h.adjust hpos c horder.1)
        (hseen.adjust hlate.1) horder.2 hlate.2 hfit
    | sample now =>
      have hfield : ∀ f, (d.snapshot now).field f = f.integral calls start now :=
        fun f => h.snapshot horder.1 f (hfit _ List.mem_cons_self f)
      have hnext : Remembers start calls now (some (d.snapshot now)) := by
        rintro _ ⟨⟩
        exact ⟨Nat.le_trans h.start_le horder.1, h.firstSeen, hfield⟩
      have hrest := ih (s := { s with previousDepth := some (d.snapshot now) }) hd h hnext
        horder.2.2 hlate fun y hy => hfit y (List.mem_cons_of_mem _ hy)
      have hdelta := hseen.delta horder.2.1 (x := d.snapshot now) h.firstSeen hfield
      rw [Machine.outputs_cons, depthSampling_sample hsat hd, List.singleton_append]
      dsimp only
      refine ⟨fun f => ?_, fun hsome x hx => ?_, ?_⟩
      · have hsum := hrest.sum_eq f
        rw [Option.map_some, Option.getD_some] at hsum
        have hlast := (hdelta f).1
        rw [List.map_cons, List.sum_cons, List.getLast?_cons, Option.map_some, Option.getD_some,
          ← Option.getD_map (fun x : DepthSample => x.snapshot.field f), ← hsum]
        dsimp only
        omega
      · rw [List.head?_cons, Option.mem_some_iff] at hx
        subst hx
        have hbusy := (hdelta .busy).2 hsome
        have hsaturated := (hdelta .saturated).2 hsome
        exact ⟨hbusy.trans_le (Signal.integral_le busy_rate_le ..),
          hsaturated.trans_le (Signal.integral_le saturated_rate_le ..)⟩
      · exact List.isChain_cons.mpr ⟨fun y hy => hrest.head rfl y hy, hrest.chain⟩

end Runs

/-- Every sample has the integrals of the depth up to its time. The deltas add up to the last
sample, if no call takes the lock behind a later sample. -/
theorem depth_integrals_exact (cfg : Cfg) (hsat : cfg.saturationEnabled = true) (dev start : ℕ)
    (hpos : 0 < start) (s : Maps) (h₀ : s.deviceDepths dev = some (initialDepth start))
    (acts : List DepthAct) (horder : InTimeOrder acts start 0)
    (hfit : Fits start (sampled [] acts)) :
    List.Forall₂ (fun y x => x.now = y.2 ∧ Exact start y.1 y.2 x.snapshot) (sampled [] acts)
        ((depthSampling cfg dev).outputs ⟨s, none⟩ acts) ∧
      (NoneLate acts 0 →
        (∀ f, (((depthSampling cfg dev).outputs ⟨s, none⟩ acts).map fun x => x.delta.field f).sum =
          (((depthSampling cfg dev).outputs ⟨s, none⟩ acts).getLast?.map
            fun x => x.snapshot.field f).getD 0) ∧
        ((depthSampling cfg dev).outputs ⟨s, none⟩ acts).IsChain
          fun x y => WithinElapsed x.now y) := by
  have hcharged := chargedFor_initialDepth start
  refine ⟨samples_exact hsat hpos h₀ hcharged horder hfit, fun hlate => ?_⟩
  have h := deltas_telescope (s := ⟨s, none⟩) hsat hpos h₀ hcharged (fun _ hp => nomatch hp) horder
    hlate hfit
  exact ⟨h.sum_eq, h.chain⟩

section Acts

/-- A call at this time that changes the number of requests in service. -/
def serviceCall (now : ℕ) (inflightDelta : ℤ) : DepthAct :=
  .adjust ⟨⟨now, [], 1, 1, "dd", 0, true, true, true⟩, 0, inflightDelta⟩

instance decidableInTimeOrder : ∀ acts a b, Decidable (InTimeOrder acts a b)
  | [], _, _ => .isTrue trivial
  | .adjust c :: acts, a, b =>
    haveI := decidableInTimeOrder acts c.ctx.now b
    inferInstanceAs (Decidable (a ≤ c.ctx.now ∧ InTimeOrder acts c.ctx.now b))
  | .sample now :: acts, a, b =>
    haveI := decidableInTimeOrder acts a now
    inferInstanceAs (Decidable (a ≤ now ∧ b < now ∧ InTimeOrder acts a now))

/-- A request is in service from 1 to 6, with a sample in between and one after it. -/
def servedInTime : List DepthAct :=
  [serviceCall 1 1, .sample 5, serviceCall 6 (-1), .sample 9]

theorem depth_integrals_served_in_time :
    (((depthSampling {} 8).outputs ⟨captureStart 8 1, none⟩ servedInTime).map
        fun x => x.delta.field .busy).sum =
      (((depthSampling {} 8).outputs ⟨captureStart 8 1, none⟩ servedInTime).getLast?.map
        fun x => x.snapshot.field .busy).getD 0 := by
  have hfit : Fits 1 (sampled [] servedInTime) := by
    intro y hy f
    revert y
    cases f <;> decide
  exact ((depth_integrals_exact {} rfl 8 1 (by decide) (captureStart 8 1) rfl servedInTime
    (by decide) hfit).2 ⟨by decide, by decide, trivial⟩).1 .busy

/-- The call that ends the service at 3 takes the lock behind the sample at 9. -/
def servedLate : List DepthAct :=
  [serviceCall 1 1, .sample 9, serviceCall 3 (-1), .sample 12]

/-- The samples show 8 ns and then 2 ns, and the deltas add up to 8 ns. -/
theorem depth_deltas_served_late :
    InTimeOrder servedLate 1 0 ∧ Fits 1 (sampled [] servedLate) ∧
      ((depthSampling {} 8).outputs ⟨captureStart 8 1, none⟩ servedLate).map
          (fun x => (x.snapshot.busyNs, x.delta.busyNs)) = [(8, 8), (2, 0)] ∧
      (((depthSampling {} 8).outputs ⟨captureStart 8 1, none⟩ servedLate).map
          fun x => x.delta.field .busy).sum ≠
        (((depthSampling {} 8).outputs ⟨captureStart 8 1, none⟩ servedLate).getLast?.map
          fun x => x.snapshot.field .busy).getD 0 := by
  refine ⟨by decide, ?_, by decide, by decide⟩
  intro y hy f
  revert y
  cases f <;> decide

end Acts

end Manytrace.Bpf.BlockTrack
