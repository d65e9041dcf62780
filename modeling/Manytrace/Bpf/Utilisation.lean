import Mathlib.Algebra.Order.BigOperators.Group.List
import Mathlib.Algebra.Order.Field.Basic
import Mathlib.Algebra.Order.Field.Rat
import Mathlib.Tactic.Linarith
import Manytrace.Core.Intervals
import Manytrace.Bpf.CpuUtil

/-! The time of a thread is bounded by the time that has passed: the intervals of a
processor follow each other, a thread is on one processor at a time, and so the intervals
that are added up between two reports do not overlap, in whatever order they arrive. -/
namespace Manytrace.Bpf.CpuUtil
open Manytrace.Core Manytrace.Protocol

/-! ## One processor -/

/-- The time up to which the kernel time of the current interval is accounted for. -/
def CpuState.accounted (s : CpuState) (t : UInt64) : UInt64 :=
  if s.inKernel && 0 < s.kernelStartTime then s.kernelStartTime else t

/-- The entry of a processor whose clock has reached `t`. -/
structure Sound (t : UInt64) (s : CpuState) : Prop where
  started : s.startTime.toNat ≤ t.toNat
  reached : (s.accounted t).toNat ≤ t.toNat
  kernel : s.startTime.toNat + s.kernelTimeAcc.toNat ≤ (s.accounted t).toNat

def CpuEvent.interval (e : CpuEvent) : ℕ × ℕ := (e.startTime.toNat, e.endTime.toNat)

/-- An event with its kernel time inside its interval. -/
structure CpuEvent.Ok (e : CpuEvent) : Prop where
  ordered : e.startTime ≤ e.endTime
  kernel : e.kernelTimeNs ≤ e.endTime - e.startTime

section Words
variable {a b c : UInt64}

theorem toNat_sub_of_toNat_le (h : b.toNat ≤ a.toNat) : (a - b).toNat = a.toNat - b.toNat :=
  UInt64.toNat_sub_of_le _ _ (UInt64.le_iff_toNat_le.mpr h)

theorem toNat_add_of_toNat_le (h : a.toNat + b.toNat ≤ c.toNat) :
    (a + b).toNat = a.toNat + b.toNat := by
  have hc := c.toNat_lt
  rw [UInt64.toNat_add, Nat.mod_eq_of_lt (by omega)]

end Words

section Processor
variable {filterEnabled : Bool} {cpu : ℕ} {t : UInt64} {s : CpuState} {tp : Tracepoint}

theorem Sound.later (h : Sound t s) {t' : UInt64} (ht : t.toNat ≤ t'.toNat) : Sound t' s := by
  obtain ⟨hstarted, hreached, hkernel⟩ := h
  unfold CpuState.accounted at hreached hkernel
  refine ⟨by omega, ?_, ?_⟩ <;> unfold CpuState.accounted <;> split_ifs at * <;> omega

/-- An interval that begins now. -/
theorem sound_of_start (hstart : s.startTime = t) (hacc : s.kernelTimeAcc = 0)
    (hkernel : s.inKernel = true → s.kernelStartTime = t) : Sound t s := by
  have haccounted : s.accounted t = t := by
    unfold CpuState.accounted
    split_ifs with hin
    · exact hkernel (by simp_all)
    · rfl
  refine ⟨by rw [hstart], by rw [haccounted], ?_⟩
  rw [haccounted, hstart, hacc]
  exact Nat.le_refl _

theorem Sound.sysEnter (h : Sound t s) (ht : t.toNat ≤ tp.now.toNat) (current : Task) :
    Sound tp.now (handleSysEnter tp current s) := by
  have hlater := h.later ht
  unfold handleSysEnter
  split_ifs with htid hin
  · exact hlater
  · obtain ⟨hstarted, -, hkernel⟩ := hlater
    have hout : s.accounted tp.now = tp.now := by
      unfold CpuState.accounted
      simp_all
    have haccounted : CpuState.accounted { s with inKernel := true, kernelStartTime := tp.now }
        tp.now = tp.now := by
      unfold CpuState.accounted
      split_ifs <;> rfl
    rw [hout] at hkernel
    exact ⟨hstarted, by rw [haccounted], by rwa [haccounted]⟩
  · exact hlater

/-- The kernel time at `tp.now`, as `submit_cpu_event` and `sys_exit` compute it. -/
def CpuState.kernelTime (s : CpuState) (now : UInt64) : UInt64 :=
  if s.inKernel && 0 < s.kernelStartTime then s.kernelTimeAcc + (now - s.kernelStartTime)
  else s.kernelTimeAcc

theorem Sound.kernelTime_le (h : Sound t s) :
    s.startTime.toNat + (s.kernelTime t).toNat ≤ t.toNat := by
  obtain ⟨hstarted, hreached, hkernel⟩ := h
  unfold CpuState.accounted at hreached hkernel
  unfold CpuState.kernelTime
  split_ifs at * with hin
  · have hsub := toNat_sub_of_toNat_le hreached
    have hadd : (s.kernelTimeAcc + (t - s.kernelStartTime)).toNat =
        s.kernelTimeAcc.toNat + (t - s.kernelStartTime).toNat :=
      toNat_add_of_toNat_le (c := t) (by omega)
    omega
  · exact hkernel

theorem Sound.sysExit (h : Sound t s) (ht : t.toNat ≤ tp.now.toNat) (current : Task) :
    Sound tp.now (handleSysExit tp current s) := by
  have hlater := h.later ht
  have hle := hlater.kernelTime_le
  have hout : ∀ s' : CpuState, s'.inKernel = false → s'.startTime = s.startTime →
      s'.kernelTimeAcc = s.kernelTime tp.now → Sound tp.now s' := by
    intro s' hin hstart hacc
    have haccounted : s'.accounted tp.now = tp.now := by simp [CpuState.accounted, hin]
    refine ⟨by rw [hstart]; exact hlater.started, by rw [haccounted], ?_⟩
    rw [haccounted, hstart, hacc]
    exact hle
  unfold handleSysExit
  split_ifs with htid hin
  · exact hlater
  · exact hout _ rfl rfl (if_pos hin).symm
  · exact hout _ rfl rfl (if_neg hin).symm

theorem mem_submitCpuEvent {s : CpuState} {endTime : UInt64} {boundary : Bool} {e : CpuEvent}
    (he : e ∈ submitCpuEvent cpu tp s endTime boundary) :
    e = ⟨s.tid, s.tgid, endTime, s.kernelTime endTime, s.startTime, cpu, boundary⟩ := by
  change e ∈ if !tp.room then [] else
    [⟨s.tid, s.tgid, endTime, s.kernelTime endTime, s.startTime, cpu, boundary⟩] at he
  split_ifs at he
  · cases he
  · exact List.mem_singleton.mp he

theorem submitCpuEvent_length (s : CpuState) (endTime : UInt64) (boundary : Bool) :
    (submitCpuEvent cpu tp s endTime boundary).length ≤ 1 := by
  unfold submitCpuEvent
  split_ifs <;> simp

/-- The thread that comes with a switch. -/
def Tracepoint.next? (tp : Tracepoint) : Option UInt32 :=
  match tp.program with
  | .schedSwitch _ next => some next.pid
  | _ => none

/-- What one program does: at most one event is sent, it covers the time from the beginning
of the interval until now, and then the next interval begins now. -/
structure Stepped (cpu : ℕ) (s : CpuState) (tp : Tracepoint) (s' : CpuState)
    (es : List CpuEvent) : Prop where
  sound : Sound tp.now s'
  forward : s.startTime.toNat ≤ s'.startTime.toNat
  stays : tp.next? = none → s'.tid = s.tid
  switches : ∀ tid, tp.next? = some tid → s'.tid = tid ∧ s'.startTime = tp.now
  single : es.length ≤ 1
  sent : ∀ e ∈ es, e.Ok ∧ e.cpu = cpu ∧ e.tid = s.tid ∧ e.startTime = s.startTime ∧
    e.endTime = tp.now ∧ s'.startTime = tp.now

theorem Sound.ok_submit (h : Sound t s) {e : CpuEvent} {boundary : Bool} (tgid : UInt32)
    (he : e ∈ submitCpuEvent cpu tp { s with tgid } t boundary) :
    e.Ok ∧ e.cpu = cpu ∧ e.tid = s.tid ∧ e.startTime = s.startTime ∧ e.endTime = t := by
  have hle : s.startTime.toNat + (s.kernelTime t).toNat ≤ t.toNat := h.kernelTime_le
  rw [mem_submitCpuEvent he]
  refine ⟨⟨UInt64.le_iff_toNat_le.mpr h.started, ?_⟩, rfl, rfl, rfl, rfl⟩
  rw [UInt64.le_iff_toNat_le, toNat_sub_of_toNat_le h.started]
  exact Nat.le_sub_of_add_le (by rwa [Nat.add_comm] at hle)

theorem Sound.step (h : Sound t s) (ht : t.toNat ≤ tp.now.toNat) :
    Stepped cpu s tp ((cpuPrograms filterEnabled cpu).step s tp).1
      ((cpuPrograms filterEnabled cpu).step s tp).2 := by
  have hlater := h.later ht
  cases hprogram : tp.program with
  | schedSwitch prev next =>
    simp only [cpuPrograms, hprogram, handleSchedSwitch]
    refine ⟨sound_of_start rfl rfl (by simp), hlater.started, by simp [Tracepoint.next?, hprogram],
      by simp [Tracepoint.next?, hprogram], ?_, ?_⟩
    · split_ifs
      · exact submitCpuEvent_length _ _ _
      · simp
    · intro e he
      split_ifs at he
      · obtain ⟨hok, hcpu, htid, hstart, hend⟩ := hlater.ok_submit prev.tgid he
        exact ⟨hok, hcpu, htid, hstart, hend, rfl⟩
      · cases he
  | sysEnter current =>
    have hkeep : (handleSysEnter tp current s).startTime = s.startTime ∧
        (handleSysEnter tp current s).tid = s.tid := by
      unfold handleSysEnter
      split_ifs <;> exact ⟨rfl, rfl⟩
    simp only [cpuPrograms, hprogram]
    exact ⟨h.sysEnter ht current, by rw [hkeep.1], fun _ => hkeep.2,
      by simp [Tracepoint.next?, hprogram], by simp, by simp⟩
  | sysExit current =>
    have hkeep : (handleSysExit tp current s).startTime = s.startTime ∧
        (handleSysExit tp current s).tid = s.tid := by
      unfold handleSysExit
      split_ifs <;> exact ⟨rfl, rfl⟩
    simp only [cpuPrograms, hprogram]
    exact ⟨h.sysExit ht current, by rw [hkeep.1], fun _ => hkeep.2,
      by simp [Tracepoint.next?, hprogram], by simp, by simp⟩
  | boundaryEvent current =>
    obtain ⟨tgid, htgid⟩ : ∃ tgid, (if shouldTrackTgid filterEnabled tp current.tgid then
        { s with tgid := current.tgid } else s) = { s with tgid } := by
      split_ifs
      · exact ⟨_, rfl⟩
      · exact ⟨s.tgid, rfl⟩
    simp only [cpuPrograms, hprogram, handleBoundaryEvent, htgid]
    refine ⟨sound_of_start rfl rfl fun hin => if_pos hin, hlater.started, fun _ => rfl,
      by simp [Tracepoint.next?, hprogram], submitCpuEvent_length _ _ _, ?_⟩
    intro e he
    obtain ⟨hok, hcpu, htid, hstart, hend⟩ := hlater.ok_submit tgid he
    exact ⟨hok, hcpu, htid, hstart, hend, rfl⟩

/-- A thread is on a processor from the switch that brings it to the next one, or as far as
the processor is seen. -/
structure Stay where
  tid : UInt32
  since : UInt64
  upTo : UInt64
deriving DecidableEq, Repr

def leaves (t : UInt64) : List Tracepoint → UInt64
  | [] => t
  | tp :: tps => if tp.next?.isSome then tp.now else leaves tp.now tps

def stays : List Tracepoint → List Stay
  | [] => []
  | tp :: tps => (tp.next?.map fun tid => ⟨tid, tp.now, leaves tp.now tps⟩).toList ++ stays tps

def Stay.Holds (x : Stay) (e : CpuEvent) : Prop :=
  x.tid = e.tid ∧ x.since.toNat ≤ e.startTime.toNat ∧ e.endTime.toNat ≤ x.upTo.toNat

/-- The clock of a processor that has reached `t` does not go back. -/
def Forward (t : UInt64) (tps : List Tracepoint) : Prop :=
  (∀ tp ∈ tps, t.toNat ≤ tp.now.toNat) ∧ tps.Pairwise fun x y => x.now.toNat ≤ y.now.toNat

theorem Forward.tail {tps : List Tracepoint} (h : Forward t (tp :: tps)) :
    t.toNat ≤ tp.now.toNat ∧ Forward tp.now tps := by
  obtain ⟨hle, hpair⟩ := h
  obtain ⟨hhead, htail⟩ := List.pairwise_cons.mp hpair
  exact ⟨hle tp List.mem_cons_self, hhead, htail⟩

theorem Forward.le_leaves {tps : List Tracepoint} (h : Forward t tps) :
    t.toNat ≤ (leaves t tps).toNat := by
  induction tps generalizing t with
  | nil => exact Nat.le_refl _
  | cons tp tps ih =>
    obtain ⟨hle, htail⟩ := h.tail
    unfold leaves
    split_ifs
    · exact hle
    · exact Nat.le_trans hle (ih htail)

/-- Every event of a processor lies in a stay of its thread, the first of which may have
begun before. -/
theorem Sound.run_holds {tps : List Tracepoint} (h : Sound t s) (hf : Forward t tps) :
    ∀ e ∈ (cpuPrograms filterEnabled cpu).outputs s tps, e.Ok ∧ e.cpu = cpu ∧
      s.startTime.toNat ≤ e.startTime.toNat ∧
      (Stay.Holds ⟨s.tid, s.startTime, leaves t tps⟩ e ∨ ∃ x ∈ stays tps, x.Holds e) := by
  induction tps generalizing s t with
  | nil => simp
  | cons tp tps ih =>
    obtain ⟨hle, htail⟩ := hf.tail
    have hstep : Stepped cpu s tp ((cpuPrograms filterEnabled cpu).step s tp).1 _ := h.step hle
    intro e he
    rw [Machine.outputs_cons, List.mem_append] at he
    rcases he with he | he
    · obtain ⟨hok, hcpu, htid, hstart, hend, -⟩ := hstep.sent e he
      refine ⟨hok, hcpu, by rw [hstart], Or.inl ⟨htid.symm, by rw [hstart], ?_⟩⟩
      rw [hend]
      unfold leaves
      split_ifs
      · exact Nat.le_refl _
      · exact htail.le_leaves
    · obtain ⟨hok, hcpu, hstart, hheld⟩ := ih hstep.sound htail e he
      refine ⟨hok, hcpu, Nat.le_trans hstep.forward hstart, ?_⟩
      cases hnext : tp.next? with
      | none =>
        have hleaves : leaves t (tp :: tps) = leaves tp.now tps := by simp [leaves, hnext]
        have hstays : stays (tp :: tps) = stays tps := by simp [stays, hnext]
        rw [hleaves, hstays]
        rcases hheld with ⟨htid, hsince, hupTo⟩ | hheld
        · exact Or.inl ⟨(hstep.stays hnext).symm.trans htid,
            Nat.le_trans hstep.forward hsince, hupTo⟩
        · exact Or.inr hheld
      | some tid =>
        obtain ⟨htid', hstart'⟩ := hstep.switches tid hnext
        have hstays : stays (tp :: tps) = ⟨tid, tp.now, leaves tp.now tps⟩ :: stays tps := by
          simp [stays, hnext]
        rw [htid', hstart'] at hheld
        rw [hstays]
        rcases hheld with hheld | ⟨x, hx, hheld⟩
        · exact Or.inr ⟨_, List.mem_cons_self, hheld⟩
        · exact Or.inr ⟨x, List.mem_cons_of_mem _ hx, hheld⟩

/-- The events of a processor follow each other. -/
theorem Sound.run_pairwise {tps : List Tracepoint} (h : Sound t s) (hf : Forward t tps) :
    ((cpuPrograms filterEnabled cpu).outputs s tps).Pairwise fun e e' =>
      e.endTime.toNat ≤ e'.startTime.toNat := by
  induction tps generalizing s t with
  | nil => exact List.Pairwise.nil
  | cons tp tps ih =>
    obtain ⟨hle, htail⟩ := hf.tail
    have hstep : Stepped cpu s tp ((cpuPrograms filterEnabled cpu).step s tp).1 _ := h.step hle
    rw [Machine.outputs_cons, List.pairwise_append]
    refine ⟨?_, ih hstep.sound htail, ?_⟩
    · have hsingle := hstep.single
      generalize ((cpuPrograms filterEnabled cpu).step s tp).2 = es at hsingle
      match es with
      | [] => exact List.Pairwise.nil
      | [e] => exact List.pairwise_singleton _ e
    · intro e he e' he'
      obtain ⟨-, -, -, -, hend, hnow⟩ := hstep.sent e he
      obtain ⟨-, -, hstart, -⟩ := hstep.sound.run_holds htail e' he'
      rwa [hend, ← hnow]

end Processor
/-! ## The window of a thread -/

/-- What the callback can rely on: the intervals of one thread do not overlap. -/
structure Separate (es : List CpuEvent) : Prop where
  ok : ∀ e ∈ es, e.Ok
  apart : es.Pairwise fun e e' => e.accepted → e'.accepted → e.key = e'.key →
    NoOverlap e.interval e'.interval

theorem Separate.sublist {es es' : List CpuEvent} (h : Separate es) (hsub : es'.Sublist es) :
    Separate es' :=
  ⟨fun e he => h.ok e (hsub.subset he), h.apart.sublist hsub⟩

/-- The counts of a thread are those of the intervals since its last report. -/
structure Tally (es : List CpuEvent) (key : ThreadKey) (stats : ThreadStats)
    (recent : List CpuEvent) : Prop where
  sub : recent.Sublist es
  mine : ∀ e ∈ recent, e.accepted ∧ e.key = key ∧
    stats.minTimestamp.toNat ≤ e.startTime.toNat
  cpu : stats.cpuTimeNs.toNat = (recent.map fun e => e.endTime.toNat - e.startTime.toNat).sum
  kernel : stats.kernelTimeNs.toNat = (recent.map fun e => e.kernelTimeNs.toNat).sum

/-- Kernel time, processor time and elapsed time of a thread, without underflow. -/
structure ThreadStats.Bounded (maxTimestamp : UInt64) (stats : ThreadStats) : Prop where
  elapsed : stats.minTimestamp ≤ maxTimestamp
  kernel : stats.kernelTimeNs ≤ stats.cpuTimeNs
  cpu : stats.cpuTimeNs ≤ maxTimestamp - stats.minTimestamp

section Window
variable {es : List CpuEvent} {e : CpuEvent} {key : ThreadKey} {lo hi : ℕ}

theorem CpuEvent.Ok.toNat_le (h : e.Ok) : e.startTime.toNat ≤ e.endTime.toNat ∧
    e.kernelTimeNs.toNat ≤ e.endTime.toNat - e.startTime.toNat := by
  have hordered := UInt64.le_iff_toNat_le.mp h.ordered
  have hkernel := UInt64.le_iff_toNat_le.mp h.kernel
  rw [toNat_sub_of_toNat_le hordered] at hkernel
  exact ⟨hordered, hkernel⟩

theorem Separate.sum_le (h : Separate es)
    (hmine : ∀ e ∈ es, e.accepted ∧ e.key = key ∧ lo ≤ e.startTime.toNat)
    (hends : ∀ e ∈ es, e.endTime.toNat ≤ hi) :
    (es.map fun e => e.endTime.toNat - e.startTime.toNat).sum ≤ hi - lo := by
  have hapart : (es.map CpuEvent.interval).Pairwise NoOverlap := by
    rw [List.pairwise_map]
    refine h.apart.imp_of_mem ?_
    intro e e' he he' hno
    obtain ⟨hacc, hkey, -⟩ := hmine e he
    obtain ⟨hacc', hkey', -⟩ := hmine e' he'
    exact hno hacc hacc' (hkey.trans hkey'.symm)
  have hin : ∀ x ∈ es.map CpuEvent.interval, lo ≤ x.1 ∧ x.2 ≤ hi := by
    intro x hx
    obtain ⟨e, he, rfl⟩ := List.mem_map.mp hx
    exact ⟨(hmine e he).2.2, hends e he⟩
  have hsum := sum_lengths_le hapart hin
  rwa [List.map_map] at hsum

theorem Separate.sum_kernel_le (h : Separate es) :
    (es.map fun e => e.kernelTimeNs.toNat).sum ≤
      (es.map fun e => e.endTime.toNat - e.startTime.toNat).sum :=
  List.sum_le_sum fun e he => (h.ok e he).toNat_le.2

theorem Tally.bounded {stats : ThreadStats} {recent : List CpuEvent} {maxTimestamp : UInt64}
    (h : Tally es key stats recent) (hsep : Separate es)
    (hends : ∀ e ∈ es, e.endTime.toNat ≤ maxTimestamp.toNat)
    (hmin : stats.minTimestamp.toNat ≤ maxTimestamp.toNat) : stats.Bounded maxTimestamp := by
  have hrecent := hsep.sublist h.sub
  have hsum := hrecent.sum_le h.mine fun e he => hends e (h.sub.subset he)
  constructor
  · exact UInt64.le_iff_toNat_le.mpr hmin
  · rw [UInt64.le_iff_toNat_le, h.kernel, h.cpu]
    exact hrecent.sum_kernel_le
  · rw [UInt64.le_iff_toNat_le, toNat_sub_of_toNat_le hmin, h.cpu]
    exact hsum

/-- One more interval: neither count wraps, since both are bounded by the new window. -/
theorem Tally.add {stats : ThreadStats} {recent : List CpuEvent}
    (h : Tally es e.key stats recent) (hsep : Separate (es ++ [e])) (hacc : e.accepted)
    {maxTimestamp : UInt64} (hends : ∀ x ∈ es ++ [e], x.endTime.toNat ≤ maxTimestamp.toNat) :
    Tally (es ++ [e]) e.key (stats.add e) (recent ++ [e]) := by
  have hmin : (stats.add e).minTimestamp.toNat =
      min stats.minTimestamp.toNat e.startTime.toNat := by
    simp only [ThreadStats.add, UInt64.toNat_min]
  have hsub : (recent ++ [e]).Sublist (es ++ [e]) := h.sub.append (List.Sublist.refl _)
  have hmine : ∀ x ∈ recent ++ [e], x.accepted ∧ x.key = e.key ∧
      (stats.add e).minTimestamp.toNat ≤ x.startTime.toNat := by
    intro x hx
    rw [hmin]
    rcases List.mem_append.mp hx with hx | hx
    · obtain ⟨hxacc, hxkey, hxmin⟩ := h.mine x hx
      exact ⟨hxacc, hxkey, by omega⟩
    · rw [List.mem_singleton] at hx
      subst hx
      exact ⟨hacc, rfl, by omega⟩
  have hsep' := hsep.sublist hsub
  have hcpu := hsep'.sum_le hmine fun x hx => hends x (hsub.subset hx)
  have hkernel := hsep'.sum_kernel_le
  have hlen : (e.endTime - e.startTime).toNat = e.endTime.toNat - e.startTime.toNat :=
    toNat_sub_of_toNat_le (hsep.ok e (by simp)).toNat_le.1
  simp only [List.map_append, List.map_cons, List.map_nil, List.sum_append, List.sum_cons,
    List.sum_nil, Nat.add_zero] at hcpu hkernel
  rw [← h.cpu] at hcpu hkernel
  rw [← h.kernel] at hkernel
  refine ⟨hsub, hmine, ?_, ?_⟩
  · change (stats.cpuTimeNs + (e.endTime - e.startTime)).toNat = _
    rw [toNat_add_of_toNat_le (c := maxTimestamp) (by omega), hlen, h.cpu]
    simp
  · change (stats.kernelTimeNs + e.kernelTimeNs).toNat = _
    rw [toNat_add_of_toNat_le (c := maxTimestamp) (by omega), h.kernel]
    simp

theorem Tally.append {stats : ThreadStats} {recent : List CpuEvent}
    (h : Tally es key stats recent) (es' : List CpuEvent) :
    Tally (es ++ es') key stats recent :=
  ⟨h.sub.trans (List.sublist_append_left es es'), h.mine, h.cpu, h.kernel⟩

/-- Nothing is counted yet. -/
theorem Tally.empty {stats : ThreadStats} (hcpu : stats.cpuTimeNs = 0)
    (hkernel : stats.kernelTimeNs = 0) : Tally es key stats [] :=
  ⟨List.nil_sublist es, by simp, by simp [hcpu], by simp [hkernel]⟩

end Window

/-! ## The reports -/

theorem not_exceeds_percentage (F : Rounding) {part elapsed : UInt64} (h : part ≤ elapsed) :
    ¬ (percentage F part elapsed).Exceeds 100 := by
  have hle : F.round part.toNat ≤ F.round elapsed.toNat :=
    F.monotone (Nat.cast_le.mpr (UInt64.le_iff_toNat_le.mp h))
  have hnonneg : 0 ≤ F.round part.toNat := F.zero ▸ F.monotone (Nat.cast_nonneg _)
  unfold percentage
  dsimp only
  split_ifs with he hp
  · exact id
  · exact absurd (le_antisymm (he ▸ hle) hnonneg) hp
  · have hpos : 0 < F.round elapsed.toNat := lt_of_le_of_ne (hnonneg.trans hle) (Ne.symm he)
    have hquot : F.round (F.round part.toNat / F.round elapsed.toNat) ≤ 1 :=
      F.one ▸ F.monotone ((div_le_one hpos).mpr hle)
    have hpercent : F.round (F.round (F.round part.toNat / F.round elapsed.toNat) * 100) ≤ 100 := by
      calc F.round (F.round (F.round part.toNat / F.round elapsed.toNat) * 100)
          ≤ F.round 100 := F.monotone (by linarith)
        _ = 100 := F.hundred
    exact not_lt.mpr hpercent

/-- The callback after the events `es`: every thread has its tally, and nothing above 100
percent has been reported. -/
structure Collector.Fine (es : List CpuEvent) (c : Collector) : Prop where
  ends : ∀ e ∈ es, e.endTime.toNat ≤ c.maxTimestamp.toNat
  tally : ∀ key stats, c.threadStats key = some stats →
    stats.minTimestamp.toNat ≤ c.maxTimestamp.toNat ∧ ∃ recent, Tally es key stats recent
  reported : ∀ sample, Report.counter sample ∈ c.reports → ¬ sample.value.Exceeds 100

section Reports
variable {F : Rounding} {callback : ℕ → ℤ} {nprocs : ℕ} {es : List CpuEvent} {c : Collector}

theorem Collector.fine_new : Collector.new.Fine [] :=
  ⟨by simp, by simp [Collector.new], by simp [Collector.new]⟩

theorem Collector.Fine.bounded (h : c.Fine es) (hsep : Separate es) {key : ThreadKey}
    {stats : ThreadStats} (hkey : c.threadStats key = some stats) :
    stats.Bounded c.maxTimestamp := by
  obtain ⟨hmin, recent, htally⟩ := h.tally key stats hkey
  exact htally.bounded hsep h.ends hmin

theorem Collector.Fine.record (h : c.Fine es) {e : CpuEvent} (hsep : Separate (es ++ [e])) :
    (c.record e).Fine (es ++ [e]) := by
  have hmax : (c.record e).maxTimestamp.toNat = max c.maxTimestamp.toNat e.endTime.toNat := by
    simp only [Collector.record, UInt64.toNat_max]
  have hends : ∀ x ∈ es ++ [e], x.endTime.toNat ≤ (c.record e).maxTimestamp.toNat := by
    intro x hx
    rw [hmax]
    rcases List.mem_append.mp hx with hx | hx
    · exact Nat.le_trans (h.ends x hx) (Nat.le_max_left _ _)
    · rw [List.mem_singleton] at hx
      exact hx ▸ Nat.le_max_right _ _
  have hold : ∀ key stats, c.threadStats key = some stats →
      stats.minTimestamp.toNat ≤ (c.record e).maxTimestamp.toNat ∧
        ∃ recent, Tally (es ++ [e]) key stats recent := by
    intro key stats hkey
    obtain ⟨hmin, recent, htally⟩ := h.tally key stats hkey
    exact ⟨by omega, recent, htally.append [e]⟩
  refine ⟨hends, ?_, h.reported⟩
  intro key stats hkey
  by_cases hnew : e.accepted ∧ key = e.key
  · obtain ⟨hacc, rfl⟩ := hnew
    -- The entry is there, or it is the default one, which has counted nothing.
    have hprev : ∃ recent, Tally es e.key ((c.threadStats e.key).getD {}) recent := by
      cases hentry : c.threadStats e.key with
      | none => exact ⟨[], Tally.empty rfl rfl⟩
      | some old => exact (h.tally e.key old hentry).2
    obtain ⟨recent, htally⟩ := hprev
    have hstats : stats = ((c.threadStats e.key).getD {}).add e := by
      simpa [Collector.record, hacc, eq_comm] using hkey
    have hok := (hsep.ok e (by simp)).toNat_le.1
    subst hstats
    refine ⟨?_, _, htally.add hsep hacc hends⟩
    rw [hmax]
    simp only [ThreadStats.add, UInt64.toNat_min]
    omega
  · refine hold key stats ?_
    rw [← hkey]
    unfold Collector.record
    dsimp only
    split_ifs with hacc
    · rw [Function.update_of_ne fun heq => hnew ⟨hacc, heq⟩]
    · rfl

theorem Collector.Fine.reset (h : c.Fine es) (key : ThreadKey) : (c.reset key).Fine es := by
  refine ⟨h.ends, ?_, h.reported⟩
  intro k stats hk
  by_cases hkey : k = key
  · subst hkey
    have hstats : stats = { minTimestamp := c.maxTimestamp } := by
      simpa [Collector.reset, eq_comm] using hk
    subst hstats
    exact ⟨Nat.le_refl _, [], Tally.empty rfl rfl⟩
  · refine h.tally k stats ?_
    rw [← hk]
    exact (Function.update_of_ne hkey _ _).symm

theorem fine_emit (h : c.Fine es) {r : Report}
    (hr : ∀ sample, r = .counter sample → ¬ sample.value.Exceeds 100) :
    (emit callback r).Keeps (Collector.Fine es) c := by
  have hfine : Collector.Fine es { c with reports := c.reports ++ [r] } := by
    refine ⟨h.ends, h.tally, ?_⟩
    intro sample hsample
    rcases List.mem_append.mp hsample with hsample | hsample
    · exact h.reported sample hsample
    · exact hr sample (List.mem_singleton.mp hsample).symm
  unfold emit Op.Keeps Op.Post
  dsimp only
  split_ifs
  · exact hfine
  · exact hfine

theorem fine_trackIds (h : c.Fine es) (ids : ThreadKey → ℕ × ℕ) (key : ThreadKey) :
    (trackIds ids key).Keeps (Collector.Fine es) c := by
  apply Op.keeps_get_bind
  cases c.trackIdMapping key with
  | some pair => exact Op.keeps_pure h
  | none =>
    refine Op.Keeps.bind (Op.keeps_modify ⟨h.ends, h.tally, h.reported⟩) ?_
    exact fun _ _ hfine => Op.keeps_pure hfine

theorem fine_emitCounter (h : c.Fine es) (name : String) (key : ThreadKey) (id : ℕ)
    {value : Percentage} (hvalue : ¬ value.Exceeds 100) (timestamp : UInt64) :
    (emitCounter callback name key id value timestamp).Keeps (Collector.Fine es) c := by
  have hcounter : ∀ (_ : Unit) (d : Collector), d.Fine es →
      (emit callback (.counter ⟨name, value, timestamp, .counter id, some "%"⟩)).Keeps
        (Collector.Fine es) d := by
    intro _ d hd
    refine fine_emit hd ?_
    rintro sample ⟨⟩
    exact hvalue
  apply Op.keeps_get_bind
  split_ifs
  · exact hcounter () c h
  · refine Op.Keeps.bind (fine_emit h (by simp)) fun _ d hd => ?_
    exact Op.Keeps.bind (Op.keeps_modify ⟨hd.ends, hd.tally, hd.reported⟩) hcounter

theorem fine_flushThread (h : c.Fine es) (hsep : Separate es) (ids : ThreadKey → ℕ × ℕ)
    (key : ThreadKey) : (flushThread F callback ids key).Keeps (Collector.Fine es) c := by
  apply Op.keeps_get_bind
  cases hkey : c.threadStats key with
  | none => exact Op.keeps_pure h
  | some stats =>
    obtain ⟨-, hkernel, hcpu⟩ := h.bounded hsep hkey
    have hcpuPercent := not_exceeds_percentage F hcpu
    have hkernelPercent := not_exceeds_percentage F (UInt64.le_trans hkernel hcpu)
    refine Op.Keeps.bind (fine_trackIds h ids key) fun pair d hd => ?_
    refine Op.Keeps.bind (fine_emitCounter hd _ key _ hcpuPercent _) fun _ d hd => ?_
    refine Op.Keeps.bind (fine_emitCounter hd _ key _ hkernelPercent _) fun _ d hd => ?_
    exact Op.keeps_modify (hd.reset key)

theorem fine_flush (h : c.Fine es) (hsep : Separate es) (ids : ThreadKey → ℕ × ℕ)
    (keys : List ThreadKey) : (flush F callback ids keys).Keeps (Collector.Fine es) c := by
  induction keys generalizing c with
  | nil => exact Op.keeps_pure h
  | cons key keys ih => exact Op.Keeps.bind (fine_flushThread h hsep ids key) fun _ _ hd => ih hd

theorem fine_handleEvent (h : c.Fine es) {d : Delivery} (hsep : Separate (es ++ [d.event])) :
    (handleEvent F callback nprocs d).Keeps (Collector.Fine (es ++ [d.event])) c := by
  refine Op.Keeps.bind (Op.keeps_modify (h.record hsep)) fun _ c hc => ?_
  split_ifs
  · refine Op.Keeps.bind (Op.keeps_modify ⟨hc.ends, hc.tally, hc.reported⟩) fun _ c hc => ?_
    apply Op.keeps_get_bind
    split_ifs
    · refine Op.Keeps.bind (Op.keeps_modify ⟨hc.ends, hc.tally, hc.reported⟩) fun _ c hc => ?_
      exact fine_flush hc hsep d.ids d.order
    · exact Op.keeps_pure hc
  · exact Op.keeps_pure hc

theorem fine_run {ds : List Delivery} (hsep : Separate (ds.map Delivery.event)) :
    ((collector F callback nprocs).final Collector.new ds).Fine (ds.map Delivery.event) := by
  induction ds using List.reverseRecOn with
  | nil => exact Collector.fine_new
  | append_singleton ds d ih =>
    rw [List.map_append] at hsep ⊢
    have hc := ih (hsep.sublist (List.sublist_append_left _ _))
    rw [Machine.final_append]
    exact Op.Post.always (fine_handleEvent hc hsep)

end Reports

/-! ## All processors -/

/-- A thread other than the idle one is not on two processors at once. -/
def OneCpuAtATime (traces : ℕ → List Tracepoint) : Prop :=
  ∀ c c', c ≠ c' → ∀ x ∈ stays (traces c), ∀ y ∈ stays (traces c'), x.tid = y.tid →
    x.tid ≠ 0 → x.upTo ≤ y.since ∨ y.upTo ≤ x.since

section Processors
variable {filterEnabled : Bool} {traces : ℕ → List Tracepoint}

/-- The events of the processor `c`. -/
def eventsOf (filterEnabled : Bool) (traces : ℕ → List Tracepoint) (c : ℕ) : List CpuEvent :=
  (cpuPrograms filterEnabled c).outputs CpuState.zero (traces c)

theorem sound_zero : Sound 0 CpuState.zero := sound_of_start rfl rfl (by simp [CpuState.zero])

/-- An accepted event lies in a stay, since the entry starts with the idle thread. -/
theorem exists_stay (hf : ∀ c, Forward 0 (traces c)) {c : ℕ} {e : CpuEvent}
    (he : e ∈ eventsOf filterEnabled traces c) (hacc : e.accepted) :
    ∃ x ∈ stays (traces c), x.Holds e := by
  obtain ⟨-, -, -, hheld⟩ := sound_zero.run_holds (hf c) e he
  rcases hheld with ⟨htid, -⟩ | hheld
  · simp [CpuEvent.accepted, ← htid, CpuState.zero] at hacc
  · exact hheld

theorem separate_of_streams (hf : ∀ c, Forward 0 (traces c)) (hone : OneCpuAtATime traces)
    {es : List CpuEvent}
    (hes : ∀ c, (es.filter fun e => e.cpu = c).Sublist (eventsOf filterEnabled traces c)) :
    Separate es := by
  constructor
  · intro e he
    exact (sound_zero.run_holds (hf e.cpu) e (mem_stream hes he)).1
  · refine pairwise_of_streams hes ?_ ?_
    · intro c
      exact (sound_zero.run_pairwise (hf c)).imp fun hle _ _ _ => Or.inl hle
    · intro c c' hne e he e' he' hacc hacc' hkey
      obtain ⟨x, hx, htid, hsince, hupTo⟩ := exists_stay hf he hacc
      obtain ⟨y, hy, htid', hsince', hupTo'⟩ := exists_stay hf he' hacc'
      have htids : e.tid = e'.tid := asI32_inj (congrArg Prod.snd hkey)
      have hbusy : x.tid ≠ 0 := by
        intro hidle
        simp [CpuEvent.accepted, ← htid, hidle] at hacc
      have hstays : x.upTo.toNat ≤ y.since.toNat ∨ y.upTo.toNat ≤ x.since.toNat := by
        simpa only [UInt64.le_iff_toNat_le] using
          hone c c' hne x hx y hy (htid.trans (htids.trans htid'.symm)) hbusy
      unfold NoOverlap CpuEvent.interval
      dsimp only
      omega

end Processors

/-- The records of the processors arrive in any order that keeps the one of each processor,
and some are lost. Then no interval is negative or shorter than its kernel time, when a
report is due every thread has no more kernel than processor time, and no more of that than
has passed since its earliest interval, and no percentage is over 100. A processor that does
not exist has an empty trace. -/
theorem utilisation_bounded (filterEnabled : Bool) (traces : ℕ → List Tracepoint)
    (hclock : ∀ c, (traces c).Pairwise fun x y => x.now ≤ y.now) (hone : OneCpuAtATime traces)
    (F : Rounding) (callback : ℕ → ℤ) (nprocs : ℕ) (ds : List Delivery)
    (hds : ∀ c, ((ds.map Delivery.event).filter fun e => e.cpu = c).Sublist
      (eventsOf filterEnabled traces c)) :
    (∀ d ∈ ds, d.event.Ok) ∧
      (∀ pre d post, ds = pre ++ d :: post → ∀ key stats,
        (((collector F callback nprocs).final Collector.new pre).record d.event).threadStats key
          = some stats →
        stats.Bounded (((collector F callback nprocs).final Collector.new pre).record
          d.event).maxTimestamp) ∧
      ∀ sample, .counter sample ∈ ((collector F callback nprocs).final Collector.new ds).reports →
        ¬ sample.value.Exceeds 100 := by
  have hf : ∀ c, Forward 0 (traces c) := by
    intro c
    refine ⟨by simp, ?_⟩
    simpa only [UInt64.le_iff_toNat_le] using hclock c
  have hsep := separate_of_streams hf hone hds
  refine ⟨?_, ?_, (fine_run hsep).reported⟩
  · intro d hd
    exact hsep.ok _ (List.mem_map_of_mem hd)
  · rintro pre d post rfl key stats hkey
    have hhere : Separate (pre.map Delivery.event ++ [d.event]) := by
      refine hsep.sublist ?_
      rw [List.map_append]
      exact (List.Sublist.refl _).append (List.singleton_sublist.mpr (by simp))
    have hpre := hhere.sublist (List.sublist_append_left _ _)
    exact ((fine_run hpre).record hhere).bounded hhere hkey

/-- A thread runs on the first processor, then on the second. -/
def migration : ℕ → List Tracepoint
  | 0 => [⟨10, [], true, .schedSwitch ⟨0, 0⟩ ⟨7, 3⟩⟩, ⟨20, [], true, .schedSwitch ⟨7, 3⟩ ⟨0, 0⟩⟩,
      ⟨40, [], true, .boundaryEvent ⟨0, 0⟩⟩]
  | 1 => [⟨30, [], true, .schedSwitch ⟨0, 0⟩ ⟨7, 3⟩⟩, ⟨35, [], true, .sysEnter ⟨7, 3⟩⟩,
      ⟨50, [], true, .boundaryEvent ⟨7, 3⟩⟩]
  | _ => []

/-- The second processor is heard first. -/
def migrationRecords : List Delivery :=
  [⟨⟨7, 3, 50, 15, 30, 1, true⟩, [], fun _ => (1, 2)⟩,
    ⟨⟨7, 3, 20, 0, 10, 0, false⟩, [], fun _ => (1, 2)⟩,
    ⟨⟨0, 0, 40, 0, 20, 0, true⟩, [(3, 7)], fun _ => (1, 2)⟩]

theorem migration_clock (c : ℕ) : (migration c).Pairwise fun x y => x.now ≤ y.now := by
  rcases c with _ | _ | c
  · decide
  · decide
  · exact List.Pairwise.nil

theorem migration_oneCpuAtATime : OneCpuAtATime migration := by
  rintro (_ | _ | c) (_ | _ | c') hne
  all_goals first | exact absurd rfl hne | decide | simp [migration, stays]

theorem migration_sublist {ds : List Delivery}
    (h : ds.map Delivery.event = migrationRecords.map Delivery.event) (c : ℕ) :
    ((ds.map Delivery.event).filter fun e => e.cpu = c).Sublist (eventsOf false migration c) := by
  rw [h]
  rcases c with _ | _ | c
  · decide
  · decide
  · simp [migrationRecords]

theorem utilisation_bounded_migration :
    (((collector Rounding.exact (fun _ => 0) 2).final Collector.new migrationRecords).reports.length
      = 4) ∧
      ∀ sample, .counter sample ∈
        ((collector Rounding.exact (fun _ => 0) 2).final Collector.new migrationRecords).reports →
        ¬ sample.value.Exceeds 100 :=
  ⟨by decide, (utilisation_bounded false migration migration_clock migration_oneCpuAtATime _ _ _
    migrationRecords (migration_sublist rfl)).2.2⟩

end Manytrace.Bpf.CpuUtil
