import Manytrace.Bpf.Depth

/-! The time that is charged to the depth of a device. Every CPU reads its clock before it takes
the lock of the entry, so the calls may come to the lock in another order than their times. -/
namespace Manytrace.Bpf.BlockTrack
open Manytrace.Core

/-- A call of `adjust_depth`, with the time that its CPU has read. -/
structure DepthCall where
  ctx : Context
  queuedDelta : ℤ
  inflightDelta : ℤ
deriving DecidableEq, Repr

/-- The calls for one device, in the order in which they take the lock. -/
def depthCalls (cfg : Cfg) (dev : ℕ) : Machine Maps DepthCall Empty where
  step s c := (adjustDepth cfg c.ctx dev c.queuedDelta c.inflightDelta s, [])

/-- The entry that user space makes for a device. -/
def initialDepth (initializedAt : ℕ) : DeviceDepth where
  firstSeenNs := initializedAt
  lastUpdateNs := initializedAt
  busyNs := 0
  saturatedNs := 0
  inflightNs := 0
  queuedNs := 0
  inflight := 0
  queued := 0
  maxInflight := 0
  maxQueued := 0

def latest (calls : List DepthCall) : ℕ := (calls.map fun c => c.ctx.now).foldr max 0

structure WithinRealTime (start now : ℕ) (d : DeviceDepth) : Prop where
  busy_le : d.busyNs ≤ now - start
  saturated_le : d.saturatedNs ≤ now - start
  inflight_le : d.inflightNs ≤ d.maxInflight * (now - start)

/-- A call that does not come after a later one. -/
def InOrder (dev : ℕ) (s : Maps) (c : DepthCall) : Prop :=
  ∀ d, s.deviceDepths dev = some d → d.lastUpdateNs ≤ c.ctx.now

theorem add64_le (a b : ℕ) : add64 a b ≤ a + b := Nat.mod_le _ _

theorem latest_concat (calls : List DepthCall) (c : DepthCall) :
    latest (calls ++ [c]) = max (latest calls) c.ctx.now := by
  induction calls with
  | nil => simp [latest]
  | cons a calls ih =>
    simp only [latest, List.cons_append, List.map_cons, List.foldr_cons] at ih ⊢
    rw [ih, Nat.max_assoc]

section Charge
variable {start now : ℕ} {d : DeviceDepth}

/-- What one call charges is at most the time since the last update. -/
theorem charge_le (now : ℕ) (d : DeviceDepth) :
    (d.charge now).busyNs ≤ d.busyNs + (now - d.lastUpdateNs) ∧
      (d.charge now).saturatedNs ≤ d.saturatedNs + (now - d.lastUpdateNs) ∧
      (d.charge now).inflightNs ≤ d.inflightNs + (now - d.lastUpdateNs) * d.inflight := by
  have hbusy := add64_le d.busyNs (now - d.lastUpdateNs)
  have hsaturated := add64_le d.saturatedNs (now - d.lastUpdateNs)
  have hinflight := add64_le d.inflightNs ((now - d.lastUpdateNs) * d.inflight)
  unfold DeviceDepth.charge
  split
  · refine ⟨?_, ?_, hinflight⟩ <;> dsimp only <;> split <;> omega
  · exact ⟨Nat.le_add_right _ _, Nat.le_add_right _ _, Nat.le_add_right _ _⟩

/-- The invariant of a run in order: everything up to the last update has been charged. -/
structure Charged (start : ℕ) (d : DeviceDepth) : Prop where
  start_le : start ≤ d.lastUpdateNs
  within : WithinRealTime start d.lastUpdateNs d
  inflight_le : d.inflight ≤ d.maxInflight

theorem charged_initialDepth (start : ℕ) : Charged start (initialDepth start) :=
  ⟨Nat.le_refl _, ⟨Nat.zero_le _, Nat.zero_le _, Nat.zero_le _⟩, Nat.le_refl _⟩

theorem adjust_fields (q i : ℤ) (now : ℕ) (d : DeviceDepth) :
    (d.adjust q i now).busyNs = (d.charge now).busyNs ∧
      (d.adjust q i now).saturatedNs = (d.charge now).saturatedNs ∧
      (d.adjust q i now).inflightNs = (d.charge now).inflightNs ∧
      (d.adjust q i now).lastUpdateNs = now :=
  ⟨rfl, rfl, rfl, rfl⟩

theorem le_maxInflight_adjust (q i : ℤ) (now : ℕ) (d : DeviceDepth) :
    (d.adjust q i now).inflight ≤ (d.adjust q i now).maxInflight ∧
      d.maxInflight ≤ (d.adjust q i now).maxInflight := by
  have hmax : (d.charge now).maxInflight = d.maxInflight := by
    unfold DeviceDepth.charge
    split <;> rfl
  unfold DeviceDepth.adjust
  dsimp only
  rw [hmax]
  split <;> constructor <;> omega

theorem Charged.adjust (h : Charged start d) (horder : d.lastUpdateNs ≤ now) (q i : ℤ) :
    Charged start (d.adjust q i now) := by
  obtain ⟨hstart, hwithin, hinflight⟩ := h
  obtain ⟨hbusy, hsaturated, htime, hlast⟩ := adjust_fields q i now d
  obtain ⟨hle, hmax⟩ := le_maxInflight_adjust q i now d
  obtain ⟨hcb, hcs, hci⟩ := charge_le now d
  have hsplit : now - start = (d.lastUpdateNs - start) + (now - d.lastUpdateNs) := by omega
  refine ⟨by omega, ⟨?_, ?_, ?_⟩, hle⟩
  · have := hwithin.busy_le
    omega
  · have := hwithin.saturated_le
    omega
  · rw [htime, hlast]
    calc (d.charge now).inflightNs
        ≤ d.inflightNs + (now - d.lastUpdateNs) * d.inflight := hci
      _ ≤ d.maxInflight * (d.lastUpdateNs - start) + (now - d.lastUpdateNs) * d.maxInflight :=
        Nat.add_le_add hwithin.inflight_le (Nat.mul_le_mul_left _ hinflight)
      _ = d.maxInflight * (now - start) := by rw [hsplit, Nat.mul_add, Nat.mul_comm d.maxInflight
          (now - d.lastUpdateNs)]
      _ ≤ (d.adjust q i now).maxInflight * (now - start) := Nat.mul_le_mul_right _ hmax

end Charge

section Calls
variable {cfg : Cfg} {dev start : ℕ} {s : Maps} {d : DeviceDepth}

/-- Either the metric is off, or the entry is adjusted. -/
theorem depthCalls_step (cfg : Cfg) (h : s.deviceDepths dev = some d) (c : DepthCall) :
    ((depthCalls cfg dev).step s c).1.deviceDepths dev =
      some (if cfg.saturationEnabled then d.adjust c.queuedDelta c.inflightDelta c.ctx.now
        else d) := by
  change (adjustDepth cfg c.ctx dev _ _ s).deviceDepths dev = _
  unfold adjustDepth
  cases cfg.saturationEnabled with
  | false => exact h
  | true => simp [h]

/-- The calls so far have charged the entry, and the last of them is the latest. -/
def ChargedBy (cfg : Cfg) (dev start : ℕ) (s : Maps) (calls : List DepthCall) : Prop :=
  ∃ d, s.deviceDepths dev = some d ∧ Charged start d ∧
    (cfg.saturationEnabled = true → d.lastUpdateNs = max start (latest calls)) ∧
    (cfg.saturationEnabled = false → d = initialDepth start)

theorem chargedBy_nil (cfg : Cfg) (h : s.deviceDepths dev = some (initialDepth start)) :
    ChargedBy cfg dev start s [] :=
  ⟨_, h, charged_initialDepth start, fun _ => (Nat.max_zero start).symm, fun _ => rfl⟩

theorem ChargedBy.step {calls : List DepthCall} (h : ChargedBy cfg dev start s calls)
    (c : DepthCall) (horder : InOrder dev s c) :
    ChargedBy cfg dev start ((depthCalls cfg dev).step s c).1 (calls ++ [c]) := by
  obtain ⟨d, hd, hcharged, hlast, hoff⟩ := h
  have hstep := depthCalls_step cfg hd c
  cases hsat : cfg.saturationEnabled with
  | false =>
    rw [hsat, if_neg Bool.false_ne_true] at hstep
    exact ⟨d, hstep, hcharged, fun hon => absurd (hsat.symm.trans hon) Bool.false_ne_true,
      fun _ => hoff hsat⟩
  | true =>
    rw [hsat, if_pos rfl] at hstep
    have hle : d.lastUpdateNs ≤ c.ctx.now := horder d hd
    refine ⟨_, hstep, hcharged.adjust hle _ _, fun _ => ?_,
      fun hoff => absurd (hoff.symm.trans hsat) Bool.false_ne_true⟩
    have hmax := hlast hsat
    rw [latest_concat]
    change c.ctx.now = _
    omega

theorem ChargedBy.within {calls : List DepthCall} (h : ChargedBy cfg dev start s calls) :
    ∃ d, s.deviceDepths dev = some d ∧ WithinRealTime start (latest calls) d := by
  obtain ⟨d, hd, hcharged, hlast, hoff⟩ := h
  refine ⟨d, hd, ?_⟩
  cases hsat : cfg.saturationEnabled with
  | false =>
    rw [hoff hsat]
    exact ⟨Nat.zero_le _, Nat.zero_le _, Nat.zero_le _⟩
  | true =>
    have hsub : d.lastUpdateNs - start = latest calls - start := by
      rw [hlast hsat]
      omega
    obtain ⟨hbusy, hsaturated, hinflight⟩ := hcharged.within
    rw [hsub] at hbusy hsaturated hinflight
    exact ⟨hbusy, hsaturated, hinflight⟩

end Calls

/-- No more time is charged than has passed, if no call overtakes a later one. -/
theorem depth_time_within_real_time (cfg : Cfg) (dev start : ℕ) (s : Maps)
    (h₀ : s.deviceDepths dev = some (initialDepth start)) (calls : List DepthCall)
    (horder : (depthCalls cfg dev).Meets (InOrder dev) s calls) :
    ∀ pre post, calls = pre ++ post →
      ∃ d, ((depthCalls cfg dev).final s pre).deviceDepths dev = some d ∧
        WithinRealTime start (latest pre) d := by
  rintro pre post rfl
  rw [Machine.meets_append] at horder
  exact (Machine.history_inputs (fun _ _ c h hc => h.step c hc) (chargedBy_nil cfg h₀)
    horder.1).within

section Runs

/-- A request goes into service at 10. Then two CPUs take turns with the times of the list. -/
def takeTurns (times : List ℕ) : List DepthCall :=
  ⟨⟨10, [], 1, 1, "dd", 0, true, true, true⟩, 0, 1⟩ ::
    times.map fun now => ⟨⟨now, [], 1, 1, "dd", 0, true, true, true⟩, 1, 0⟩

theorem depth_time_take_turns_20_30 :
    ∃ d, ((depthCalls {} 8).final (captureStart 8 5) (takeTurns [20, 30])).deviceDepths 8 =
      some d ∧ WithinRealTime 5 30 d := by
  have horder : (depthCalls {} 8).Meets (InOrder 8) (captureStart 8 5) (takeTurns [20, 30]) := by
    refine ⟨?_, ?_, ?_, trivial⟩ <;> rintro _ ⟨⟩ <;> decide
  exact depth_time_within_real_time {} 8 5 (captureStart 8 5) rfl (takeTurns [20, 30]) horder
    (takeTurns [20, 30]) [] rfl

/-- The times 20 and 10 come to the lock by turns. The same ten nanoseconds are charged each
time, and after three turns the device has been busy for 30 ns in a life of 15 ns. -/
theorem take_turns_charge_again :
    (((depthCalls {} 8).final (captureStart 8 5)
        (takeTurns [20, 10, 20, 10, 20])).deviceDepths 8).map DeviceDepth.busyNs = some 30 ∧
      latest (takeTurns [20, 10, 20, 10, 20]) = 20 ∧
      ¬ ∃ d, ((depthCalls {} 8).final (captureStart 8 5)
          (takeTurns [20, 10, 20, 10, 20])).deviceDepths 8 = some d ∧
        WithinRealTime 5 (latest (takeTurns [20, 10, 20, 10, 20])) d := by
  refine ⟨rfl, rfl, ?_⟩
  rintro ⟨d, ⟨⟩, hwithin⟩
  exact absurd hwithin.busy_le (by decide)

end Runs
end Manytrace.Bpf.BlockTrack
