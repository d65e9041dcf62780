import Mathlib.Data.List.Chain
import Mathlib.Data.List.Induction
import Manytrace.Core.Tiling
import Manytrace.Bpf.SchedTrace

/-! The spans of a thread tile its timeline, each with the state that the thread was in. -/
namespace Manytrace.Bpf.SchedTrace
open Manytrace.Core

/-! ## What the thread does -/

def Kind.isSwitch : Kind → Bool
  | .switchOut _ _ => true
  | .switchIn => true
  | _ => false

def Kind.isSwitchIn : Kind → Bool
  | .switchIn => true
  | _ => false

/-- A switch off the processor after which the thread waits. -/
def Kind.blocks : Kind → Bool
  | .switchOut preempt prevState => !preempt && prevState != 0
  | _ => false

def Kind.resumes : Kind → Bool
  | .switchIn => true
  | .wakeup => true
  | _ => false

/-- The last switch was onto the processor. -/
def onCpu (h : List TaskEvent) : Bool :=
  (h.filter fun e => e.kind.isSwitch).getLast?.any fun e => e.kind.isSwitchIn

/-- Since the last switch that blocks there was no wakeup and no switch onto the processor. -/
def awaitsWakeup (h : List TaskEvent) : Bool :=
  (h.filter fun e => e.kind.blocks || e.kind.resumes).getLast?.any fun e => e.kind.blocks

def trueState (h : List TaskEvent) : SchedEventType :=
  if onCpu h then .running else if awaitsWakeup h then .blocked else .runnable

/-- What has happened by the time `t`. -/
def upto (t : ℕ) (h : List TaskEvent) : List TaskEvent := h.filter fun e => e.now ≤ t

/-- The state was entered at `t` and has been kept since. -/
def IsLastChange (h : List TaskEvent) (t : ℕ) : Prop :=
  ∃ pre e post, h = pre ++ e :: post ∧ e.now = t ∧
    (pre = [] ∨ trueState pre ≠ trueState (pre ++ [e])) ∧
    ∀ post', post' <+: post → trueState (pre ++ e :: post') = trueState (pre ++ [e])

/-- The events of a thread that neither exits nor loses its entry or a span: they start with
a switch, and it goes off and on the processor in turn. -/
structure Orderly (h : List TaskEvent) : Prop where
  starts : ∃ e, h.head? = some e ∧ e.kind.isSwitch = true
  alternates : (h.filter fun e => e.kind.isSwitch).IsChain fun a b =>
    a.kind.isSwitchIn ≠ b.kind.isSwitchIn
  ordered : h.Pairwise fun a b => a.now ≤ b.now
  positive : ∀ e ∈ h, 0 < e.now
  kinds : ∀ e ∈ h, e.kind.isSwitch = true ∨ e.kind = .wakeup
  room : ∀ e ∈ h, e.ctx.room = true

/-- The spans follow each other from the first switch to the last change of state, and at every
moment the span that contains it shows the state of the thread. -/
structure TilesTimeline (h : List TaskEvent) (spans : List SchedSpanEvent) : Prop where
  proper : ∀ s ∈ spans, s.startTime < s.endTime
  tiles : ∃ first last, h.head?.map TaskEvent.now = some first ∧ IsLastChange h last ∧
    Tiling SchedSpanEvent.startTime SchedSpanEvent.endTime first spans last ∧
    ∀ t, first ≤ t → t < last → ∃ s ∈ spans, s.startTime ≤ t ∧ t < s.endTime
  states : ∀ s ∈ spans, ∀ t, s.startTime ≤ t → t < s.endTime → s.eventType = trueState (upto t h)

section Events
variable {h : List TaskEvent} {e : TaskEvent}

theorem onCpu_concat (h : List TaskEvent) (e : TaskEvent) :
    onCpu (h ++ [e]) = if e.kind.isSwitch then e.kind.isSwitchIn else onCpu h := by
  unfold onCpu
  rw [List.filter_append]
  by_cases hs : e.kind.isSwitch = true
  · simp [hs]
  · simp [hs]

theorem awaitsWakeup_concat (h : List TaskEvent) (e : TaskEvent) :
    awaitsWakeup (h ++ [e]) =
      if e.kind.blocks || e.kind.resumes then e.kind.blocks else awaitsWakeup h := by
  unfold awaitsWakeup
  rw [List.filter_append]
  by_cases hs : (e.kind.blocks || e.kind.resumes) = true
  · simp [hs]
  · simp [hs]

/-- A thread on the processor does not wait. -/
theorem awaitsWakeup_of_onCpu (hon : onCpu h = true) : awaitsWakeup h = false := by
  induction h using List.reverseRecOn with
  | nil => rfl
  | append_singleton h e ih =>
    rw [onCpu_concat] at hon
    rw [awaitsWakeup_concat]
    cases hk : e.kind <;> simp_all [Kind.isSwitch, Kind.isSwitchIn, Kind.blocks, Kind.resumes]

theorem trueState_switchIn (hk : e.kind = .switchIn) : trueState (h ++ [e]) = .running := by
  simp [trueState, onCpu_concat, hk, Kind.isSwitch, Kind.isSwitchIn]

theorem trueState_switchOut {preempt : Bool} {prevState : ℕ}
    (hk : e.kind = .switchOut preempt prevState) (ha : awaitsWakeup h = false) :
    trueState (h ++ [e]) = if preempt || prevState == 0 then .runnable else .blocked := by
  unfold trueState
  rw [onCpu_concat, awaitsWakeup_concat, ha, hk]
  cases preempt <;> by_cases hp : prevState = 0 <;>
    simp [Kind.isSwitch, Kind.isSwitchIn, Kind.blocks, Kind.resumes, hp]

theorem trueState_wakeup (hk : e.kind = .wakeup) :
    trueState (h ++ [e]) = if trueState h = .blocked then .runnable else trueState h := by
  have hon : onCpu (h ++ [e]) = onCpu h := by simp [onCpu_concat, hk, Kind.isSwitch]
  have haw : awaitsWakeup (h ++ [e]) = false := by
    simp [awaitsWakeup_concat, hk, Kind.blocks, Kind.resumes]
  unfold trueState
  rw [hon, haw]
  cases onCpu h <;> cases awaitsWakeup h <;> rfl

theorem upto_concat_of_lt {t : ℕ} (ht : t < e.now) : upto t (h ++ [e]) = upto t h := by
  simp [upto, List.filter_append, ht]

theorem upto_of_forall {t : ℕ} (ht : ∀ e ∈ h, e.now ≤ t) : upto t h = h :=
  List.filter_eq_self.mpr fun e he => by simpa using ht e he

theorem isLastChange_of_change (hc : h = [] ∨ trueState h ≠ trueState (h ++ [e])) :
    IsLastChange (h ++ [e]) e.now := by
  refine ⟨h, e, [], rfl, rfl, hc, ?_⟩
  intro post' hpost
  rw [List.prefix_nil.mp hpost]

theorem IsLastChange.of_same {t : ℕ} (hl : IsLastChange h t)
    (hs : trueState (h ++ [e]) = trueState h) : IsLastChange (h ++ [e]) t := by
  obtain ⟨pre, x, post, rfl, hx, hc, hpost⟩ := hl
  refine ⟨pre, x, post ++ [e], by simp, hx, hc, ?_⟩
  intro post' hpre
  rcases List.prefix_concat_iff.mp hpre with rfl | hpre
  · have hall := hpost post (List.prefix_refl post)
    simpa using hs.trans hall
  · exact hpost post' hpre

namespace Orderly

theorem of_concat (ho : Orderly (h ++ [e])) (hne : h ≠ []) : Orderly h where
  starts := by
    obtain ⟨x, hx, hs⟩ := ho.starts
    exact ⟨x, by simpa [List.head?_append_of_ne_nil _ hne] using hx, hs⟩
  alternates := by
    have hch := ho.alternates
    rw [List.filter_append, List.isChain_append] at hch
    exact hch.1
  ordered := (List.pairwise_append.mp ho.ordered).1
  positive := fun x hx => ho.positive x (List.mem_append_left _ hx)
  kinds := fun x hx => ho.kinds x (List.mem_append_left _ hx)
  room := fun x hx => ho.room x (List.mem_append_left _ hx)

theorem le_last (ho : Orderly (h ++ [e])) : ∀ x ∈ h, x.now ≤ e.now := fun x hx =>
  (List.pairwise_append.mp ho.ordered).2.2 x hx e (List.mem_singleton_self e)

theorem le_last' (ho : Orderly (h ++ [e])) : ∀ x ∈ h ++ [e], x.now ≤ e.now := by
  intro x hx
  rcases List.mem_append.mp hx with hx | hx
  · exact ho.le_last x hx
  · rw [List.mem_singleton.mp hx]

/-- A switch finds the thread where the other kind of switch left it. -/
theorem onCpu_before (ho : Orderly (h ++ [e])) (hne : h ≠ []) (hs : e.kind.isSwitch = true) :
    onCpu h = !e.kind.isSwitchIn := by
  obtain ⟨x, hx, hxs⟩ := (ho.of_concat hne).starts
  have hmem : x ∈ h.filter fun e => e.kind.isSwitch :=
    List.mem_filter.mpr ⟨List.mem_of_mem_head? hx, hxs⟩
  obtain ⟨l, hl⟩ := Option.isSome_iff_exists.mp
    (List.getLast?_isSome.mpr (List.ne_nil_of_mem hmem))
  have hch := ho.alternates
  rw [List.filter_append, List.isChain_append] at hch
  have hle := hch.2.2 l hl e (by simp [hs])
  unfold onCpu
  rw [hl]
  cases hk : e.kind.isSwitchIn <;> simp_all

end Orderly

end Events

/-! ## What the entry knows about it -/

def SchedEventType.tracked : SchedEventType → TrackedTaskState
  | .running => .running
  | .blocked => .blocked
  | .runnable => .runnable

/-- The entry holds the state and the time of its last change, up to which the spans reach. -/
structure Timeline (first : ℕ) (h : List TaskEvent) (s : TaskState)
    (spans : List SchedSpanEvent) : Prop where
  state : s.state = (trueState h).tracked
  exiting : s.exiting = false
  last : IsLastChange h s.stateTimestamp
  tiles : Tiling SchedSpanEvent.startTime SchedSpanEvent.endTime first spans s.stateTimestamp
  proper : ∀ x ∈ spans, x.startTime < x.endTime
  recent : ∀ t, s.stateTimestamp ≤ t → trueState (upto t h) = trueState h
  states : ∀ x ∈ spans, ∀ t, x.startTime ≤ t → t < x.endTime → x.eventType = trueState (upto t h)

section Steps
variable {first : ℕ} {h : List TaskEvent} {e : TaskEvent} {s s' : TaskState}
  {spans : List SchedSpanEvent}

theorem IsLastChange.mem {t : ℕ} (hl : IsLastChange h t) : ∃ x ∈ h, x.now = t := by
  obtain ⟨pre, x, post, rfl, hx, -⟩ := hl
  exact ⟨x, by simp, hx⟩

/-- An old moment is not touched by a new event. -/
theorem Timeline.states_concat (ht : Timeline first h s spans) (ho : Orderly (h ++ [e])) :
    ∀ x ∈ spans, ∀ t, x.startTime ≤ t → t < x.endTime →
      x.eventType = trueState (upto t (h ++ [e])) := by
  intro x hx t hlo hhi
  have hend := (ht.tiles.mem (fun y hy => Nat.le_of_lt (ht.proper y hy)) hx).2
  obtain ⟨y, hy, hyt⟩ := ht.last.mem
  have hle := ho.le_last y hy
  rw [upto_concat_of_lt (by omega)]
  exact ht.states x hx t hlo hhi

/-- An event that leaves the state alone leaves the timeline alone. -/
theorem Timeline.stay (ht : Timeline first h s spans) (ho : Orderly (h ++ [e]))
    (hs : trueState (h ++ [e]) = trueState h) : Timeline first (h ++ [e]) s spans where
  state := by rw [hs, ht.state]
  exiting := ht.exiting
  last := ht.last.of_same hs
  tiles := ht.tiles
  proper := ht.proper
  recent := by
    intro t hle
    by_cases hlt : t < e.now
    · rw [upto_concat_of_lt hlt, hs]
      exact ht.recent t hle
    · rw [upto_of_forall fun x hx => (ho.le_last' x hx).trans (by omega)]
  states := ht.states_concat ho

/-- An event that changes the state closes the interval since the last change. A span of no
length is not sent, and none is missing. -/
theorem Timeline.advance (ht : Timeline first h s spans) (ho : Orderly (h ++ [e]))
    (hc : trueState h ≠ trueState (h ++ [e])) {x : SchedSpanEvent}
    (hx : x.startTime = s.stateTimestamp ∧ x.endTime = e.now ∧ x.eventType = trueState h)
    (hs' : s'.stateTimestamp = e.now ∧ s'.exiting = false ∧
      s'.state = (trueState (h ++ [e])).tracked) :
    Timeline first (h ++ [e]) s' (spans ++ emitSpan e.ctx x) := by
  obtain ⟨hstart, hend, htype⟩ := hx
  obtain ⟨htime, hexit, hstate⟩ := hs'
  obtain ⟨y, hy, hyt⟩ := ht.last.mem
  have hle := ho.le_last y hy
  have hpos := ho.positive y (List.mem_append_left _ hy)
  have hroom := ho.room e (by simp)
  have hspan : emitSpan e.ctx x = if s.stateTimestamp < e.now then [x] else [] := by
    unfold emitSpan
    rw [hstart, hend, hroom]
    by_cases hlt : s.stateTimestamp < e.now
    · rw [if_neg (by omega), if_pos hlt, if_pos rfl]
    · rw [if_pos (by omega), if_neg hlt]
  rw [hspan]
  refine ⟨hstate, hexit, htime ▸ isLastChange_of_change (Or.inr hc), ?_, ?_, ?_, ?_⟩
  · rw [htime]
    by_cases hlt : s.stateTimestamp < e.now
    · rw [if_pos hlt, Tiling.concat_iff, hstart]
      exact ⟨ht.tiles, hend⟩
    · rw [if_neg hlt, List.append_nil, (by omega : e.now = s.stateTimestamp)]
      exact ht.tiles
  · intro z hz
    rcases List.mem_append.mp hz with hz | hz
    · exact ht.proper z hz
    · split_ifs at hz with hlt
      · rw [List.mem_singleton.mp hz, hstart, hend]
        exact hlt
      · simp at hz
  · intro t hlt
    rw [htime] at hlt
    rw [upto_of_forall fun z hz => (ho.le_last' z hz).trans hlt]
  · intro z hz t hlo hhi
    rcases List.mem_append.mp hz with hz | hz
    · exact ht.states_concat ho z hz t hlo hhi
    · split_ifs at hz with hlt
      · rw [List.mem_singleton.mp hz] at hlo hhi ⊢
        rw [hstart] at hlo
        rw [hend] at hhi
        rw [upto_concat_of_lt hhi, ht.recent t hlo, htype]
      · simp at hz

theorem Timeline.switchOut (ht : Timeline first h s spans) (ho : Orderly (h ++ [e]))
    (hne : h ≠ []) {preempt : Bool} {prevState : ℕ} (hk : e.kind = .switchOut preempt prevState)
    (task : Task) :
    ∃ s', (handleTaskOffCpu e.ctx preempt prevState task (some s)).1 = some s' ∧
      Timeline first (h ++ [e]) s'
        (spans ++ (handleTaskOffCpu e.ctx preempt prevState task (some s)).2) := by
  have hon : onCpu h = true := by
    have hb := ho.onCpu_before hne (by simp [hk, Kind.isSwitch])
    simpa [hk, Kind.isSwitchIn] using hb
  have hrun : trueState h = .running := by simp [trueState, hon]
  have hnext := trueState_switchOut hk (awaitsWakeup_of_onCpu hon)
  have hstate : s.state = .running := by rw [ht.state, hrun]; rfl
  simp only [handleTaskOffCpu, hstate, ht.exiting, if_true, Bool.false_eq_true, if_false]
  refine ⟨_, rfl, ht.advance ho ?_ ⟨rfl, rfl, hrun.symm⟩ ⟨rfl, rfl, ?_⟩⟩
  · rw [hrun, hnext]
    split_ifs <;> simp
  · rw [hnext]
    unfold offCpuState
    cases preempt || prevState == 0 <;> rfl

theorem Timeline.switchIn (ht : Timeline first h s spans) (ho : Orderly (h ++ [e]))
    (hne : h ≠ []) (hk : e.kind = .switchIn) (task : Task) :
    ∃ s', (handleTaskOnCpu e.ctx task (some s)).1 = some s' ∧
      Timeline first (h ++ [e]) s' (spans ++ (handleTaskOnCpu e.ctx task (some s)).2) := by
  have hon : onCpu h = false := by
    have hb := ho.onCpu_before hne (by simp [hk, Kind.isSwitch])
    simpa [hk, Kind.isSwitchIn] using hb
  have hnext := trueState_switchIn (h := h) hk
  have hstate := ht.state
  cases hs : trueState h with
  | running => simp [trueState, hon] at hs; split_ifs at hs
  | blocked =>
    rw [hs] at hstate
    simp only [handleTaskOnCpu, hstate, SchedEventType.tracked]
    refine ⟨_, rfl, ht.advance ho ?_ ⟨rfl, rfl, hs.symm⟩ ⟨rfl, rfl, by rw [hnext]; rfl⟩⟩
    simp [hs, hnext]
  | runnable =>
    rw [hs] at hstate
    simp only [handleTaskOnCpu, hstate, SchedEventType.tracked]
    refine ⟨_, rfl, ht.advance ho ?_ ⟨rfl, rfl, hs.symm⟩ ⟨rfl, rfl, by rw [hnext]; rfl⟩⟩
    simp [hs, hnext]

/-- A wakeup counts only while the thread waits. -/
theorem Timeline.wakeup (ht : Timeline first h s spans) (ho : Orderly (h ++ [e]))
    (hk : e.kind = .wakeup) (task : Task) :
    ∃ s', (handleTaskWakeup e.ctx task (some s)).1 = some s' ∧
      Timeline first (h ++ [e]) s' (spans ++ (handleTaskWakeup e.ctx task (some s)).2) := by
  have hnext := trueState_wakeup (h := h) hk
  have hstate := ht.state
  by_cases hb : trueState h = .blocked
  · rw [hb] at hstate
    rw [if_pos hb] at hnext
    simp only [handleTaskWakeup, hstate, SchedEventType.tracked, ne_eq, not_true_eq_false, if_false]
    refine ⟨_, rfl, ht.advance ho ?_ ⟨rfl, rfl, hb.symm⟩ ⟨rfl, ht.exiting, by rw [hnext]; rfl⟩⟩
    simp [hb, hnext]
  · rw [if_neg hb] at hnext
    have hnb : s.state ≠ .blocked := by
      rw [hstate]
      cases hs : trueState h <;> simp_all [SchedEventType.tracked]
    simp only [handleTaskWakeup, if_pos hnb, List.append_nil]
    exact ⟨s, rfl, ht.stay ho hnext⟩

theorem Timeline.step (ht : Timeline first h s spans) (ho : Orderly (h ++ [e])) (hne : h ≠ [])
    (tid : ℕ) :
    ∃ s', ((taskTrace tid).step (some s) e).1 = some s' ∧
      Timeline first (h ++ [e]) s' (spans ++ ((taskTrace tid).step (some s) e).2) := by
  have hkind := ho.kinds e (by simp)
  unfold taskTrace
  cases hk : e.kind with
  | switchOut preempt prevState => simpa [hk, Kind.handler] using ht.switchOut ho hne hk _
  | switchIn => simpa [hk, Kind.handler] using ht.switchIn ho hne hk _
  | wakeup => simpa [hk, Kind.handler] using ht.wakeup ho hk _
  | exit => simp [hk, Kind.isSwitch] at hkind
  | evict => simp [hk, Kind.isSwitch] at hkind

theorem timeline_singleton (hs : s.stateTimestamp = e.now ∧ s.exiting = false ∧
    s.state = (trueState [e]).tracked) : Timeline e.now [e] s [] where
  state := hs.2.2
  exiting := hs.2.1
  last := by
    rw [hs.1]
    exact isLastChange_of_change (h := []) (Or.inl rfl)
  tiles := hs.1.symm
  proper := by simp
  recent := by
    intro t hle
    rw [hs.1] at hle
    rw [upto_of_forall (by simpa using hle)]
  states := by simp

/-- The first switch opens the timeline. -/
theorem timeline_first (ho : Orderly [e]) (tid : ℕ) :
    ∃ s, ((taskTrace tid).step none e).1 = some s ∧
      Timeline e.now [e] s ((taskTrace tid).step none e).2 := by
  obtain ⟨x, hx, hswitch⟩ := ho.starts
  obtain rfl : e = x := by simpa using hx
  cases hk : e.kind with
  | switchOut preempt prevState =>
    have hstate := trueState_switchOut (h := []) hk rfl
    rw [List.nil_append] at hstate
    simp only [taskTrace, hk, Kind.handler, handleTaskOffCpu]
    refine ⟨_, rfl, timeline_singleton ⟨rfl, rfl, ?_⟩⟩
    rw [hstate]
    unfold offCpuState
    cases preempt || prevState == 0 <;> rfl
  | switchIn =>
    have hstate := trueState_switchIn (h := []) hk
    rw [List.nil_append] at hstate
    simp only [taskTrace, hk, Kind.handler, handleTaskOnCpu]
    exact ⟨_, rfl, timeline_singleton ⟨rfl, rfl, by rw [hstate]; rfl⟩⟩
  | wakeup => simp [hk, Kind.isSwitch] at hswitch
  | exit => simp [hk, Kind.isSwitch] at hswitch
  | evict => simp [hk, Kind.isSwitch] at hswitch

theorem timeline_run (ho : Orderly h) (tid : ℕ) :
    ∃ s first, h.head?.map TaskEvent.now = some first ∧
      (taskTrace tid).final none h = some s ∧
      Timeline first h s ((taskTrace tid).outputs none h) := by
  induction h using List.reverseRecOn with
  | nil =>
    obtain ⟨e, he, -⟩ := ho.starts
    simp at he
  | append_singleton h e ih =>
    rw [Machine.final_append, Machine.outputs_append]
    simp only [Machine.final_cons, Machine.final_nil, Machine.outputs_cons, Machine.outputs_nil,
      List.append_nil]
    by_cases hne : h = []
    · subst hne
      obtain ⟨s, hs, ht⟩ := timeline_first ho tid
      exact ⟨s, e.now, rfl, hs, ht⟩
    · obtain ⟨s, first, hfirst, hfinal, ht⟩ := ih (ho.of_concat hne)
      obtain ⟨s', hs', ht'⟩ := ht.step ho hne tid
      rw [hfinal]
      exact ⟨s', first, by rwa [List.head?_append_of_ne_nil _ hne], hs', ht'⟩

theorem Timeline.tilesTimeline (ht : Timeline first h s spans)
    (hfirst : h.head?.map TaskEvent.now = some first) : TilesTimeline h spans where
  proper := ht.proper
  tiles := ⟨first, s.stateTimestamp, hfirst, ht.last, ht.tiles, fun _ => ht.tiles.exists_mem⟩
  states := ht.states

end Steps

/-- However the tracepoints of the system follow each other, the spans of a thread whose own
events are orderly tile its timeline. -/
theorem spans_tile_timeline (filterEnabled : Bool) (m : TaskStates) (tps : List Tracepoint)
    (tid : ℕ) (hm : m tid = none) (ho : Orderly (history filterEnabled tid tps)) :
    TilesTimeline (history filterEnabled tid tps)
      (ofTask tid ((schedTrace filterEnabled).outputs m tps)) := by
  obtain ⟨s, first, hfirst, -, ht⟩ := timeline_run ho tid
  have hrun := (history_exec filterEnabled tid m tps).2
  rw [hm] at hrun
  rw [← hrun]
  exact ht.tilesTimeline hfirst

/-- Thread 7 blocks, is woken twice, runs again and is preempted while thread 8 shares the
processor with it. -/
def sharedCpu : List Tracepoint :=
  let ctx (now : ℕ) : Context := ⟨now, 0, [], some 4096, true⟩
  [⟨ctx 100, .schedSwitch false (some ⟨7, 7⟩) (some ⟨8, 8⟩) 1 true⟩,
    ⟨ctx 150, .schedWakeup (some ⟨7, 7⟩)⟩,
    ⟨ctx 160, .schedWakeup (some ⟨7, 7⟩)⟩,
    ⟨ctx 200, .schedSwitch true (some ⟨8, 8⟩) (some ⟨7, 7⟩) 0 true⟩,
    ⟨ctx 250, .schedSwitch true (some ⟨7, 7⟩) (some ⟨8, 8⟩) 0 true⟩]

theorem spans_tile_sharedCpu :
    (ofTask 7 ((schedTrace false).outputs (fun _ => none) sharedCpu)).length = 3 ∧
    TilesTimeline (history false 7 sharedCpu)
      (ofTask 7 ((schedTrace false).outputs (fun _ => none) sharedCpu)) :=
  ⟨by decide, spans_tile_timeline false (fun _ => none) sharedCpu 7 rfl
    ⟨⟨_, rfl, rfl⟩, by decide, by decide, by decide, by decide, by decide⟩⟩

end Manytrace.Bpf.SchedTrace
