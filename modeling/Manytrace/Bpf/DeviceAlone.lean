import Mathlib.Logic.Relation
import Manytrace.Bpf.DeviceUpdates

/-! A call that no other CPU interrupts updates the statistics as the programs that run at once. -/
namespace Manytrace.Bpf.BlockTrack
open Manytrace.Core

section Alone
variable (cfg : Cfg) (ctx : Context)

/-- The entry after a call that nothing interrupts. -/
def atomically (call : StatsCall) (e : Option DeviceStats) : Option (Tally DeviceCounter) :=
  match call.writes cfg with
  | none => e.map DeviceStats.tally
  | some ws => (getDeviceStats ctx e).map fun stats => ws.foldl Tally.Write.apply stats.tally

/-- Steps of one CPU with nothing in between. -/
def RunsAlone (room : Bool) : Option (Tally DeviceCounter) × Cpu →
    Option (Tally DeviceCounter) × Cpu → Prop :=
  Relation.ReflTransGen fun p q => p.2.step cfg room p.1 = q

variable {cfg ctx} {room : Bool}

theorem RunsAlone.head {p q : Option (Tally DeviceCounter) × Cpu}
    (h : RunsAlone cfg room (p.2.step cfg room p.1) q) : RunsAlone cfg room p q :=
  Relation.ReflTransGen.head rfl h

theorem runsAlone_writes (todo : List StatsCall) (now : ℕ)
    (ws : List (Tally.Write DeviceCounter)) (t : Tally DeviceCounter) :
    RunsAlone cfg room (some t, ⟨todo, some ⟨.write, now, ws⟩⟩)
      (some (ws.foldl Tally.Write.apply t), ⟨todo, none⟩) := by
  induction ws generalizing t with
  | nil => exact .head .refl
  | cons w ws ih => exact .head (ih (w.apply t))

theorem tally_withFirst (stats : DeviceStats) (now : ℕ) :
    { stats with firstSeenNs := now }.tally = Function.update stats.tally .first now := by
  funext w
  rcases w with ⟨_ | _ | _ | _⟩ | _ | _ <;> simp [DeviceStats.tally]

theorem tally_withLast (stats : DeviceStats) (now : ℕ) :
    { stats with lastSeenNs := now }.tally = Function.update stats.tally .last now := by
  funext w
  rcases w with ⟨_ | _ | _ | _⟩ | _ | _ <;> simp [DeviceStats.tally]

/-- The steps of `get_device_stats` when the device has an entry, -/
theorem runsAlone_found (todo : List StatsCall) (ws : List (Tally.Write DeviceCounter))
    (stats : DeviceStats) :
    RunsAlone cfg room (some stats.tally, ⟨todo, some ⟨.lookup, ctx.now, ws⟩⟩)
      ((getDeviceStats ctx (some stats)).map fun stats => ws.foldl Tally.Write.apply stats.tally,
        ⟨todo, none⟩) := by
  refine .head (.head ?_)
  change RunsAlone cfg room (some stats.tally,
    ⟨todo, some ⟨if stats.firstSeenNs = 0 then .swap else .write, ctx.now, ws⟩⟩) _
  by_cases hfirst : stats.firstSeenNs = 0
  · have hget : getDeviceStats ctx (some stats) = some { stats with firstSeenNs := ctx.now } :=
      congrArg some (if_pos hfirst)
    rw [if_pos hfirst, hget]
    have hswap : swapFirst ctx.now stats.tally = { stats with firstSeenNs := ctx.now }.tally :=
      (if_pos hfirst).trans (tally_withFirst stats ctx.now).symm
    refine .head ?_
    change RunsAlone cfg room (some (swapFirst ctx.now stats.tally), _) _
    rw [hswap]
    exact runsAlone_writes todo ctx.now ws _
  · have hget : getDeviceStats ctx (some stats) = some stats := congrArg some (if_neg hfirst)
    rw [if_neg hfirst, hget]
    exact runsAlone_writes todo ctx.now ws _

/-- and when it has none. -/
theorem runsAlone_missing (todo : List StatsCall) (ws : List (Tally.Write DeviceCounter)) :
    RunsAlone cfg ctx.statsRoom (none, ⟨todo, some ⟨.lookup, ctx.now, ws⟩⟩)
      ((getDeviceStats ctx none).map fun stats => ws.foldl Tally.Write.apply stats.tally,
        ⟨todo, none⟩) := by
  refine .head (.head ?_)
  change RunsAlone cfg ctx.statsRoom (if ctx.statsRoom then some .zero else none,
    ⟨todo, some ⟨.lookupAgain, ctx.now, ws⟩⟩) _
  unfold getDeviceStats
  cases ctx.statsRoom with
  | false => exact .head .refl
  | true =>
    have htouch : Function.update (swapFirst ctx.now .zero) .last ctx.now =
        ({ firstSeenNs := ctx.now, lastSeenNs := ctx.now } : DeviceStats).tally := by
      funext w
      rcases w with ⟨⟨_, c⟩ | _ | _ | _⟩ | _ | _
      · cases c <;> rfl
      all_goals rfl
    refine .head (.head (.head ?_))
    change RunsAlone cfg true (some (Function.update (swapFirst ctx.now .zero) .last ctx.now), _) _
    rw [htouch]
    exact runsAlone_writes todo ctx.now ws _

/-- A call that runs alone does what the program that runs at once does. -/
theorem runsAlone_call (call : StatsCall) (todo : List StatsCall) (e : Option DeviceStats)
    (hnow : call.now = ctx.now) :
    RunsAlone cfg ctx.statsRoom (e.map DeviceStats.tally, ⟨call :: todo, none⟩)
      (atomically cfg ctx call e, ⟨todo, none⟩) := by
  refine .head ?_
  change RunsAlone cfg ctx.statsRoom (e.map DeviceStats.tally,
    ⟨todo, (call.writes cfg).map fun ws => ⟨.lookup, call.now, ws⟩⟩) _
  rw [hnow, atomically]
  cases call.writes cfg with
  | none => exact .refl
  | some ws =>
    cases e with
    | none => exact runsAlone_missing todo ws
    | some stats => exact runsAlone_found todo ws stats

/-! ## The programs that run at once -/

def OperationStats.add (c : OperationCounter) (n : ℕ) (o : OperationStats) : OperationStats :=
  match c with
  | .bytes => { o with bytes := add64 o.bytes n }
  | .operations => { o with operations := add64 o.operations n }
  | .errors => { o with errors := add64 o.errors n }
  | .queueLatencyNs => { o with queueLatencyNs := add64 o.queueLatencyNs n }
  | .serviceLatencyNs => { o with serviceLatencyNs := add64 o.serviceLatencyNs n }
  | .totalLatencyNs => { o with totalLatencyNs := add64 o.totalLatencyNs n }
  | .serviceHistogram i =>
    { o with
      serviceHistogram := Function.update o.serviceHistogram i (add64 (o.serviceHistogram i) n) }
  | .totalHistogram i =>
    { o with
      totalHistogram := Function.update o.totalHistogram i (add64 (o.totalHistogram i) n) }

theorem OperationStats.count_add (c : OperationCounter) (n : ℕ) (o : OperationStats) :
    (o.add c n).count = Function.update o.count c (add64 (o.count c) n) := by
  funext c'
  cases c <;> cases c' <;> simp [add, count, Function.update_apply, Fin.val_inj]

theorem tally_add_operation (op : BlockOperation) (c : OperationCounter) (n : ℕ)
    (stats : DeviceStats) :
    (stats.onOperation op (.add c n)).tally =
      (Tally.Write.add (.operation op c) n).apply stats.tally := by
  funext w
  rcases w with ⟨⟨o, c'⟩ | _ | _ | _⟩ | _ | _
  · by_cases ho : o = op
    · subst ho
      simp [DeviceStats.tally, DeviceStats.onOperation, OperationStats.count_add,
        Tally.Write.apply, Function.update_apply, add64]
    · simp [DeviceStats.tally, DeviceStats.onOperation, Tally.Write.apply, ho]
  all_goals simp [DeviceStats.tally, DeviceStats.onOperation, Tally.Write.apply]

theorem onOperation_onOperation (op : BlockOperation) (f g : OperationStats → OperationStats)
    (stats : DeviceStats) :
    (stats.onOperation op f).onOperation op g = stats.onOperation op fun o => g (f o) := by
  simp [DeviceStats.onOperation]

theorem tally_add_if (op : BlockOperation) (c : OperationCounter) (n : ℕ) (b : Bool)
    (stats : DeviceStats) :
    (if b then [Tally.Write.add (.operation op c) n] else []).foldl Tally.Write.apply stats.tally =
      (stats.onOperation op fun o => if b then o.add c n else o).tally := by
  cases b with
  | false => simp [DeviceStats.onOperation]
  | true => simp [tally_add_operation]

theorem withDeviceStats_atomically (call : StatsCall) {ws : List (Tally.Write DeviceCounter)}
    {f : DeviceStats → DeviceStats} (hws : call.writes cfg = some ws)
    (hf : ∀ stats, (f stats).tally = ws.foldl Tally.Write.apply stats.tally) (dev : ℕ) (s : Maps) :
    ((withDeviceStats ctx dev f s).deviceStats dev).map DeviceStats.tally =
      atomically cfg ctx call (s.deviceStats dev) := by
  unfold withDeviceStats atomically
  dsimp only
  rw [Function.update_self, hws, Option.map_map]
  exact congrArg (Option.map · _) (funext hf)

theorem recordBytes_atomically (dev : ℕ) (operation : BlockOperation) (bytes error : ℕ)
    (s : Maps) :
    ((recordBytes cfg ctx dev operation bytes error s).deviceStats dev).map DeviceStats.tally =
      atomically cfg ctx ⟨.bytes operation bytes error, ctx.now⟩ (s.deviceStats dev) := by
  unfold recordBytes
  by_cases hoff : (!cfg.bytesEnabled && (!cfg.errorsEnabled || error == 0)) = true
  · rw [if_pos hoff]
    simp only [atomically, StatsCall.writes, if_pos hoff]
  · rw [if_neg hoff]
    refine withDeviceStats_atomically ⟨.bytes operation bytes error, ctx.now⟩
      (if_neg hoff) (fun stats => ?_) dev s
    rw [List.cons_append, List.foldl_cons, List.foldl_append, Tally.Write.apply, ← tally_withLast,
      tally_add_if, tally_add_if, onOperation_onOperation]
    congr 2
    funext o
    cases cfg.bytesEnabled && bytes != 0 <;> cases cfg.errorsEnabled && error != 0 <;> rfl

theorem recordCompletion_atomically (dev : ℕ) (operation : BlockOperation)
    (queueNs serviceNs totalNs : ℕ) (s : Maps) :
    ((recordCompletion cfg ctx dev operation queueNs serviceNs totalNs s).deviceStats dev).map
        DeviceStats.tally =
      atomically cfg ctx ⟨.completion operation queueNs serviceNs totalNs, ctx.now⟩
        (s.deviceStats dev) := by
  unfold recordCompletion
  by_cases hoff : (!cfg.operationsEnabled && !cfg.latencyEnabled) = true
  · rw [if_pos hoff]
    simp only [atomically, StatsCall.writes, if_pos hoff]
  · rw [if_neg hoff]
    refine withDeviceStats_atomically ⟨.completion operation queueNs serviceNs totalNs, ctx.now⟩
      (if_neg hoff) (fun stats => ?_) dev s
    rw [List.cons_append, List.foldl_cons, List.foldl_append, Tally.Write.apply, ← tally_withLast,
      tally_add_if]
    cases cfg.latencyEnabled with
    | false => cases cfg.operationsEnabled <;> rfl
    | true =>
      simp only [Bool.not_true, Bool.false_eq_true, if_false, List.foldl_cons, List.foldl_nil,
        ← tally_add_operation, onOperation_onOperation]
      cases cfg.operationsEnabled <;> rfl

theorem recordLostRequest_atomically (dev : ℕ) (s : Maps) :
    ((recordLostRequest cfg ctx dev s).deviceStats dev).map DeviceStats.tally =
      atomically cfg ctx ⟨.lostRequest, ctx.now⟩ (s.deviceStats dev) := by
  unfold recordLostRequest
  by_cases hoff : (!cfg.errorsEnabled) = true
  · rw [if_pos hoff]
    simp only [atomically, StatsCall.writes, if_pos hoff]
  · rw [if_neg hoff]
    refine withDeviceStats_atomically ⟨.lostRequest, ctx.now⟩
      (if_neg hoff) (fun stats => ?_) dev s
    funext w
    rcases w with ⟨⟨_, _⟩ | _ | _ | _⟩ | _ | _ <;> rfl

theorem requeue_atomically (hon : cfg.errorsEnabled = true) (dev : ℕ) (s : Maps) :
    ((withDeviceStats ctx dev (fun stats => { stats with requeues := add64 stats.requeues 1 })
        s).deviceStats dev).map DeviceStats.tally =
      atomically cfg ctx ⟨.requeue, ctx.now⟩ (s.deviceStats dev) := by
  refine withDeviceStats_atomically ⟨.requeue, ctx.now⟩ (if_pos hon) (fun stats => ?_) dev s
  funext w
  rcases w with ⟨⟨_, _⟩ | _ | _ | _⟩ | _ | _ <;> rfl

theorem timelineDrop_atomically (dev : ℕ) (s : Maps) :
    ((withDeviceStats ctx dev
        (fun stats => { stats with timelineDrops := add64 stats.timelineDrops 1 })
        s).deviceStats dev).map DeviceStats.tally =
      atomically cfg ctx ⟨.timelineDrop, ctx.now⟩ (s.deviceStats dev) := by
  refine withDeviceStats_atomically ⟨.timelineDrop, ctx.now⟩ rfl (fun stats => ?_) dev s
  funext w
  rcases w with ⟨⟨_, _⟩ | _ | _ | _⟩ | _ | _ <;> rfl

end Alone

end Manytrace.Bpf.BlockTrack
