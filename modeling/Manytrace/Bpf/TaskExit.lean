import Manytrace.Bpf.Timeline

/-! What is left of a thread that exits. The mark that its exit puts on the entry is used up by
the next switch off the processor, which need not be the last one. -/
namespace Manytrace.Bpf.SchedTrace
open Manytrace.Core

/-- No entry is left, and a later thread with the same id has no span that starts before its
own first event. -/
def LeavesNothing (filterEnabled : Bool) (tid : ℕ) (m : TaskStates) : Prop :=
  m tid = none ∧ ∀ tps first rest, history filterEnabled tid tps = first :: rest →
    (∀ e ∈ rest, first.now ≤ e.now) →
      ∀ s ∈ ofTask tid ((schedTrace filterEnabled).outputs m tps), first.now ≤ s.startTime

section Marks
variable {tid : ℕ} {entry : Option TaskState} {e : TaskEvent} {h : List TaskEvent}

/-- The entry is marked for deletion. -/
def marked (entry : Option TaskState) : Bool := entry.any fun s => s.exiting

theorem marked_exit (tid : ℕ) (entry : Option TaskState) (hk : e.kind = .exit) :
    marked ((taskTrace tid).step entry e).1 = true := by
  cases entry <;> simp [taskTrace, hk, Kind.handler, handleProcessExit, marked]

/-- Only a wakeup keeps the mark. -/
theorem marked_step (tid : ℕ) (entry : Option TaskState) (hk : e.kind ≠ .exit) :
    marked ((taskTrace tid).step entry e).1 = (marked entry && e.kind == .wakeup) := by
  obtain ⟨ctx, tgid, kind⟩ := e
  cases kind with
  | switchOut preempt prevState =>
    cases entry with
    | none => rfl
    | some s =>
      simp only [taskTrace, Kind.handler, handleTaskOffCpu, marked]
      split_ifs <;> simp [offCpuState]
  | switchIn => cases entry <;> simp [taskTrace, Kind.handler, handleTaskOnCpu, onCpuState, marked]
  | wakeup =>
    cases entry with
    | none => rfl
    | some s =>
      simp only [taskTrace, Kind.handler, handleTaskWakeup, marked]
      split_ifs <;> simp
  | exit => exact absurd rfl hk
  | evict => simp [taskTrace, Kind.handler, marked]

theorem marked_run (tid : ℕ) (entry : Option TaskState) (hk : ∀ e ∈ h, e.kind ≠ .exit) :
    marked ((taskTrace tid).final entry h) =
      (marked entry && h.all fun e => e.kind == .wakeup) := by
  induction h generalizing entry with
  | nil => simp
  | cons e h ih =>
    obtain ⟨he, hrest⟩ := List.forall_mem_cons.mp hk
    rw [Machine.final_cons, ih _ hrest, marked_step tid entry he, List.all_cons, Bool.and_assoc]

/-- A switch off the processor deletes exactly the entries that are marked. -/
theorem switchOut_eq_none_iff
    (hk : e.kind.isSwitch = true ∧ e.kind.isSwitchIn = false) :
    ((taskTrace tid).step entry e).1 = none ↔ marked entry = true := by
  cases hkind : e.kind with
  | switchOut preempt prevState =>
    simp only [taskTrace, hkind, Kind.handler, marked]
    cases entry with
    | none => simp [handleTaskOffCpu]
    | some s =>
      simp only [handleTaskOffCpu, Option.any_some]
      split_ifs with hs <;> simp [hs]
  | _ => simp [hkind, Kind.isSwitch, Kind.isSwitchIn] at hk

end Marks

section Fresh
variable {t : ℕ}

/-- The interval of the entry is not older than `t`. -/
def Fresh (t : ℕ) (entry : Option TaskState) : Prop :=
  ∀ s, entry = some s → t ≤ s.stateTimestamp

theorem fresh_step (tid : ℕ) {entry : Option TaskState} {e : TaskEvent} (h : Fresh t entry)
    (he : t ≤ e.now) :
    Fresh t ((taskTrace tid).step entry e).1 ∧
      ∀ x ∈ ((taskTrace tid).step entry e).2, t ≤ x.startTime := by
  obtain ⟨ctx, tgid, kind⟩ := e
  have hspan : ∀ (s : TaskState) (y : SchedSpanEvent), entry = some s →
      y.startTime = s.stateTimestamp → ∀ x ∈ emitSpan ctx y, t ≤ x.startTime := by
    intro s y hs hy x hx
    rw [mem_emitSpan hx, hy]
    exact h s hs
  have hnew : ∀ s : TaskState, s.stateTimestamp = ctx.now → Fresh t (some s) := by
    intro s hs s' hs'
    rw [← Option.some.inj hs', hs]
    exact he
  have hnone : ∀ x ∈ ([] : List SchedSpanEvent), t ≤ x.startTime := by simp
  cases kind with
  | switchOut preempt prevState =>
    cases entry with
    | none => exact ⟨hnew _ rfl, hnone⟩
    | some s =>
      have hx := hspan s (runningSpan ctx ⟨tid, tgid⟩ s) rfl rfl
      have hspans : ∀ x ∈ if s.state = .running then
          emitSpan ctx (runningSpan ctx ⟨tid, tgid⟩ s) else [], t ≤ x.startTime := by
        split_ifs <;> assumption
      simp only [taskTrace, Kind.handler, handleTaskOffCpu]
      by_cases hexit : s.exiting = true
      · rw [if_pos hexit]
        exact ⟨by simp [Fresh], hspans⟩
      · rw [if_neg hexit]
        exact ⟨hnew (offCpuState ctx ⟨tid, tgid⟩ preempt prevState) rfl, hspans⟩
  | switchIn =>
    cases entry with
    | none => exact ⟨hnew _ rfl, hnone⟩
    | some s =>
      refine ⟨hnew _ rfl, ?_⟩
      simp only [taskTrace, Kind.handler, handleTaskOnCpu]
      cases s.state with
      | runnable => exact hspan s (runnableSpan ctx ⟨tid, tgid⟩ s) rfl rfl
      | blocked => exact hspan s (blockedSpan ctx ⟨tid, tgid⟩ s) rfl rfl
      | running => exact hnone
      | unknown => exact hnone
  | wakeup =>
    cases entry with
    | none => exact ⟨hnew _ rfl, hnone⟩
    | some s =>
      simp only [taskTrace, Kind.handler, handleTaskWakeup]
      split_ifs
      · exact ⟨h, hnone⟩
      · exact ⟨hnew _ rfl, hspan s (blockedSpan ctx ⟨tid, tgid⟩ s) rfl rfl⟩
  | exit =>
    cases entry with
    | none => exact ⟨hnew _ rfl, hnone⟩
    | some s =>
      refine ⟨?_, hnone⟩
      intro s' hs'
      rw [← Option.some.inj hs']
      exact h s rfl
  | evict => exact ⟨by simp [Fresh, taskTrace, Kind.handler], hnone⟩

/-- From an entry that is not older than `t`, no span starts before `t`. -/
theorem fresh_run {tid : ℕ} {entry : Option TaskState} {h : List TaskEvent} (hf : Fresh t entry)
    (hh : ∀ e ∈ h, t ≤ e.now) : ∀ x ∈ (taskTrace tid).outputs entry h, t ≤ x.startTime := by
  have hrun := Machine.history (M := taskTrace tid) (G := fun _ e => t ≤ e.now)
    (I := fun entry os => Fresh t entry ∧ ∀ x ∈ os, t ≤ x.startTime) ?_ ⟨hf, by simp⟩
    (Machine.meets_of_forall hh entry)
  · exact hrun.2
  · intro entry os e hi he
    obtain ⟨hstep, hspans⟩ := fresh_step tid hi.1 he
    exact ⟨hstep, List.forall_mem_append.mpr ⟨hi.2, hspans⟩⟩

end Fresh

/-- After its exit a thread leaves nothing behind exactly if its next switch off the processor
is the last one and the map has not dropped the mark before. -/
theorem exit_leaves_nothing_iff (filterEnabled : Bool) (m : TaskStates) (tps : List Tracepoint)
    (tid : ℕ) (pre mid : List TaskEvent) (exit out : TaskEvent)
    (hh : history filterEnabled tid tps = pre ++ exit :: (mid ++ [out]))
    (hexit : exit.kind = .exit) (hmid : ∀ e ∈ mid, e.kind ≠ .exit)
    (hout : out.kind.isSwitch = true ∧ out.kind.isSwitchIn = false) :
    LeavesNothing filterEnabled tid ((schedTrace filterEnabled).final m tps) ↔
      ∀ e ∈ mid, e.kind.isSwitch = false ∧ e.kind ≠ .evict := by
  obtain ⟨hfinal, -⟩ := history_exec filterEnabled tid m tps
  rw [hh, Machine.final_append, Machine.final_cons, Machine.final_append] at hfinal
  simp only [Machine.final_cons, Machine.final_nil] at hfinal
  have hnone : (schedTrace filterEnabled).final m tps tid = none ↔
      ∀ e ∈ mid, e.kind.isSwitch = false ∧ e.kind ≠ .evict := by
    rw [← hfinal, switchOut_eq_none_iff hout, marked_run tid _ hmid, marked_exit tid _ hexit,
      Bool.true_and, List.all_eq_true]
    refine forall₂_congr fun e he => ?_
    have hne := hmid e he
    cases hk : e.kind <;> simp_all [Kind.isSwitch]
  constructor
  · intro hl
    exact hnone.mp hl.1
  · intro hc
    refine ⟨hnone.mpr hc, ?_⟩
    intro tps' first rest hh' hrest x hx
    rw [← (history_exec filterEnabled tid _ tps').2, hnone.mpr hc, hh'] at hx
    exact fresh_run (by simp [Fresh]) (List.forall_mem_cons.mpr ⟨Nat.le_refl _, hrest⟩) x hx

section Exits

/-- An exit of thread 7 at 300, with what follows it on processor 0. -/
def exitThen (after : List (ℕ × Program)) : List Tracepoint :=
  ((100, .schedSwitch false (some ⟨9, 9⟩) (some ⟨7, 7⟩) 1 true) ::
    (300, .schedProcessExit (some ⟨7, 7⟩)) :: after).map fun p => ⟨⟨p.1, 0, [], none, true⟩, p.2⟩

/-- The last switch, in the state of a dead task. -/
def finalSwitch : ℕ × Program := (400, .schedSwitch false (some ⟨7, 7⟩) (some ⟨9, 9⟩) 128 true)

theorem exit_leaves_nothing_at_once :
    LeavesNothing false 7 ((schedTrace false).final (fun _ => none) (exitThen [finalSwitch])) ↔
      ∀ e ∈ ([] : List TaskEvent), e.kind.isSwitch = false ∧ e.kind ≠ .evict :=
  exit_leaves_nothing_iff false (fun _ => none) (exitThen [finalSwitch]) 7
    [⟨⟨100, 0, [], none, true⟩, 7, .switchIn⟩] [] ⟨⟨300, 0, [], none, true⟩, 7, .exit⟩
    ⟨⟨400, 0, [], none, true⟩, 7, .switchOut false 128⟩ (by decide) rfl (by simp) ⟨rfl, rfl⟩

/-- The exit path is preempted once before the last switch. -/
def preemptedExit : List Tracepoint :=
  exitThen [(320, .schedSwitch true (some ⟨7, 7⟩) (some ⟨9, 9⟩) 0 true),
    (340, .schedSwitch true (some ⟨9, 9⟩) (some ⟨7, 7⟩) 0 true), finalSwitch]

/-- The entry survives, and the first event of a new thread 7 closes an interval that began
with the death of the old one. -/
theorem preempted_exit_leaves_entry :
    ¬ LeavesNothing false 7 ((schedTrace false).final (fun _ => none) preemptedExit) ∧
    ((schedTrace false).outputs ((schedTrace false).final (fun _ => none) preemptedExit)
      [⟨⟨900, 0, [], none, true⟩, .schedWakeupNew (some ⟨7, 5⟩)⟩]).map
        (fun s => (s.startTime, s.endTime)) = [(400, 900)] := by
  refine ⟨fun h => ?_, by decide⟩
  exact absurd h.1 (by decide)

end Exits
end Manytrace.Bpf.SchedTrace
