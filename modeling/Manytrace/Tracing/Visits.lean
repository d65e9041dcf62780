import Manytrace.Converter.Declarations
import Manytrace.Tracing.Layer

/-! What the layer is for. Every thread has a stack of the spans that it is in, and leaving a span
completes a visit. In a session the layer submits these visits, as long as no span is entered
again before it is left, and on the track of a thread they nest. -/
namespace Manytrace.Tracing
open Manytrace.Core Manytrace.Protocol Manytrace.Converter

/-! ## Stacks of spans -/

structure Entered where
  span : ℕ
  since : ℕ
deriving DecidableEq, Repr

abbrev Visit.thread (v : Visit) : ℤ × ℤ := (v.tid, v.pid)

/-- The labels of the spans that are recorded, the spans that each thread is in, the last one
first, and the time of its last visit. -/
structure Stacks where
  recorded : ℕ → Option Labels
  stack : ℤ × ℤ → List Entered
  latest : ℤ × ℤ → ℕ

def Stacks.new : Stacks := ⟨fun _ => none, fun _ => [], fun _ => 0⟩

def Attributes.recorded (attrs : Attributes) : Option Labels :=
  if attrs.enabled then some (insertString "target" attrs.target attrs.labels) else none

section Machine
variable (names : ℕ → String) (clock : ClockId)

def Stacks.visit (s : Stacks) (v : Visit) (e : Entered) : List Span :=
  ((s.recorded e.span).map fun labels =>
    ⟨names e.span, e.span, e.since, v.now clock, .thread v.tid v.pid, labels⟩).toList

/-- Spans are made, entered and left in a session with this clock. -/
def visiting : Machine Stacks Call Span where
  step s
    | .newSpan attrs =>
      ({ s with recorded := Function.update s.recorded attrs.span attrs.recorded }, [])
    | .enter v =>
      ({ s with
          stack := Function.update s.stack v.thread (⟨v.span, v.now clock⟩ :: s.stack v.thread)
          latest := Function.update s.latest v.thread (v.now clock) }, [])
    | .exit v =>
      match s.stack v.thread with
      | [] => (s, [])
      | e :: rest =>
        ({ s with
            stack := Function.update s.stack v.thread rest
            latest := Function.update s.latest v.thread (v.now clock) }, s.visit names clock v e)
    | _ => (s, [])

end Machine

/-- No thread is in the span. -/
def Stacks.Outside (s : Stacks) (span : ℕ) : Prop :=
  ∀ thread, ∀ e ∈ s.stack thread, e.span ≠ span

/-- The session goes on, the layer is not called while it is at work, spans are entered by one
thread at a time and left in the reverse order, and the clock does not go back. -/
def Orderly (clock : ClockId) (s : Stacks) : Call → Prop
  | .newSpan attrs => attrs.inTracing = false ∧ s.Outside attrs.span
  | .enter v => v.inTracing = false ∧ s.Outside v.span ∧ s.latest v.thread ≤ v.now clock
  | .exit v => v.inTracing = false ∧ (∃ e rest, s.stack v.thread = e :: rest ∧ e.span = v.span) ∧
    s.latest v.thread ≤ v.now clock
  | _ => False

/-! ## The layer keeps the stacks -/

/-- The layer has the data of the spans that are recorded. Those that are entered have the time
they were entered at. -/
structure State.Holds (clock : ClockId) (s : Stacks) (st : State) : Prop where
  session : st.session = some clock
  labels : ∀ span, (st.spanData span).map SpanData.labels = s.recorded span
  since : ∀ thread, ∀ e ∈ s.stack thread, ∀ data, st.spanData e.span = some data →
    data.startTimestamp = e.since

section Refinement
variable {names : ℕ → String} {clock : ClockId} {s : Stacks} {st : State}

theorem State.Holds.isActive (h : st.Holds clock s) : st.isActive = true := by
  rw [State.isActive, h.session]
  rfl

theorem State.Holds.clockId (h : st.Holds clock s) : st.clockId = clock := by
  rw [State.clockId, h.session]
  rfl

theorem State.Holds.newSpan (h : st.Holds clock s) {attrs : Attributes}
    (hidle : attrs.inTracing = false) (hout : s.Outside attrs.span) :
    (onNewSpan st attrs).Holds clock ((visiting names clock).step s (.newSpan attrs)).1 := by
  refine ⟨h.session, fun span => ?_, fun thread e he data hdata => ?_⟩
  · by_cases hspan : span = attrs.span
    · subst hspan
      cases henabled : attrs.enabled <;>
        simp [onNewSpan, visiting, hidle, h.isActive, Attributes.recorded, henabled]
    · simp [onNewSpan, visiting, Function.update_of_ne hspan, h.labels]
  · refine h.since thread e he data ?_
    rw [← hdata]
    exact (Function.update_of_ne (hout thread e he) _ _).symm

theorem State.Holds.enter (h : st.Holds clock s) {v : Visit} (hidle : v.inTracing = false)
    (hout : s.Outside v.span) :
    (onEnter st v).Holds clock ((visiting names clock).step s (.enter v)).1 := by
  -- the other spans keep their data, and this one gets the time of the clock
  have hother : ∀ span, span ≠ v.span → (onEnter st v).spanData span = st.spanData span := by
    intro span hne
    unfold onEnter
    simp only [hidle, h.isActive]
    cases st.spanData v.span with
    | none => rfl
    | some data => exact Function.update_of_ne hne _ _
  have hown : (onEnter st v).spanData v.span =
      (st.spanData v.span).map fun data => { data with startTimestamp := v.now clock } := by
    unfold onEnter
    simp only [hidle, h.isActive, h.clockId]
    cases hdata : st.spanData v.span with
    | none => simp [hdata]
    | some data => simp
  have hsession : (onEnter st v).session = st.session := by
    unfold onEnter
    simp only [hidle, h.isActive]
    cases st.spanData v.span <;> rfl
  refine ⟨hsession.trans h.session, fun span => ?_, fun thread e he data hdata => ?_⟩
  · by_cases hspan : span = v.span
    · subst hspan
      rw [hown, Option.map_map]
      exact h.labels v.span
    · rw [hother span hspan]
      exact h.labels span
  · change e ∈ Function.update s.stack v.thread _ thread at he
    have hcases : e = ⟨v.span, v.now clock⟩ ∨ e ∈ s.stack thread := by
      by_cases hthread : thread = v.thread
      · subst hthread
        rw [Function.update_self] at he
        exact List.mem_cons.mp he
      · rw [Function.update_of_ne hthread] at he
        exact .inr he
    rcases hcases with rfl | he
    · rw [hown] at hdata
      obtain ⟨old, -, rfl⟩ := Option.map_eq_some_iff.mp hdata
      rfl
    · rw [hother _ (hout thread e he)] at hdata
      exact h.since thread e he data hdata

variable (names) in
theorem State.Holds.exit (h : st.Holds clock s) {v : Visit} (hidle : v.inTracing = false)
    {e : Entered} {rest : List Entered} (hstack : s.stack v.thread = e :: rest)
    (hspan : e.span = v.span) :
    st.Holds clock ((visiting names clock).step s (.exit v)).1 ∧
      onExit st names v = ((visiting names clock).step s (.exit v)).2 := by
  have hstep : (visiting names clock).step s (.exit v) =
      ({ s with
          stack := Function.update s.stack v.thread rest
          latest := Function.update s.latest v.thread (v.now clock) },
        s.visit names clock v e) := by
    simp only [visiting, hstack]
  rw [hstep]
  refine ⟨⟨h.session, h.labels, fun thread x hx => ?_⟩, ?_⟩
  · refine h.since thread x ?_
    change x ∈ Function.update s.stack v.thread rest thread at hx
    by_cases hthread : thread = v.thread
    · subst hthread
      rw [Function.update_self] at hx
      rw [hstack]
      exact List.mem_cons_of_mem e hx
    · rwa [Function.update_of_ne hthread] at hx
  · unfold onExit Stacks.visit
    rw [hspan, ← h.labels v.span]
    simp only [hidle, h.isActive, h.clockId]
    cases hdata : st.spanData v.span with
    | none => rfl
    | some data =>
      have hsince : data.startTimestamp = e.since :=
        h.since v.thread e (by simp [hstack]) data (by rw [hspan, hdata])
      simp [hsince]

/-- In a session the layer submits the visits. -/
theorem State.Holds.outputs (h : st.Holds clock s) {calls : List Call}
    (hcalls : (visiting names clock).Meets (Orderly clock) s calls) :
    (layer names).outputs st calls = (visiting names clock).outputs s calls := by
  induction calls generalizing s st with
  | nil => rfl
  | cons call calls ih =>
    obtain ⟨hcall, hcalls⟩ := hcalls
    rw [Machine.outputs_cons, Machine.outputs_cons]
    cases call with
    | start => cases hcall
    | stop => cases hcall
    | newSpan attrs =>
      congr 1
      exact ih (h.newSpan hcall.1 hcall.2) hcalls
    | enter v =>
      congr 1
      exact ih (h.enter hcall.1 hcall.2.1) hcalls
    | exit v =>
      obtain ⟨hidle, ⟨e, rest, hstack, hspan⟩, -⟩ := hcall
      obtain ⟨hholds, hout⟩ := h.exit names hidle hstack hspan
      change onExit st names v ++ (layer names).outputs st calls = _
      rw [hout, ih hholds hcalls]

end Refinement

/-! ## Visits nest -/

/-- Of two visits the first that is left has ended before the other begins, or lies inside. -/
def Nests (x y : Span) : Prop :=
  x.endTimestamp ≤ y.startTimestamp ∨
    (y.startTimestamp ≤ x.startTimestamp ∧ x.endTimestamp ≤ y.endTimestamp)

/-- The visits that a thread has completed, and the spans that it is in. -/
structure Stacks.Laminar (thread : ℤ × ℤ) (s : Stacks) (out : List Span) : Prop where
  sorted : (s.stack thread).Pairwise fun e e' => e'.since ≤ e.since
  entered : ∀ e ∈ s.stack thread, e.since ≤ s.latest thread
  forward : ∀ x ∈ out, x.startTimestamp ≤ x.endTimestamp ∧ x.endTimestamp ≤ s.latest thread
  apart : ∀ x ∈ out, ∀ e ∈ s.stack thread, x.endTimestamp ≤ e.since ∨ e.since ≤ x.startTimestamp
  nest : out.Pairwise Nests

section Laminar
variable {names : ℕ → String} {clock : ClockId} {s : Stacks} {thread : ℤ × ℤ} {out : List Span}

theorem Stacks.Laminar.congr (h : s.Laminar thread out) {s' : Stacks}
    (hstack : s'.stack thread = s.stack thread) (hlatest : s'.latest thread = s.latest thread) :
    s'.Laminar thread out := by
  refine ⟨?_, ?_, ?_, ?_, h.nest⟩
  · rw [hstack]
    exact h.sorted
  · rw [hstack, hlatest]
    exact h.entered
  · rw [hlatest]
    exact h.forward
  · rw [hstack]
    exact h.apart

theorem Stacks.Laminar.enter (h : s.Laminar thread out) {e : Entered} {s' : Stacks}
    (hstack : s'.stack thread = e :: s.stack thread) (hlatest : s'.latest thread = e.since)
    (hnow : s.latest thread ≤ e.since) : s'.Laminar thread out := by
  refine ⟨?_, ?_, fun x hx => ?_, fun x hx e' he' => ?_, h.nest⟩
  · rw [hstack]
    exact List.pairwise_cons.mpr ⟨fun e' he' => (h.entered e' he').trans hnow, h.sorted⟩
  · rw [hstack, hlatest]
    intro e' he'
    rcases List.mem_cons.mp he' with rfl | he'
    · exact le_rfl
    · exact (h.entered e' he').trans hnow
  · obtain ⟨hle, hend⟩ := h.forward x hx
    exact ⟨hle, by omega⟩
  · rw [hstack] at he'
    rcases List.mem_cons.mp he' with rfl | he'
    · exact .inl ((h.forward x hx).2.trans hnow)
    · exact h.apart x hx e' he'

/-- The span that was entered last is left, and the visit is completed if the span is recorded. -/
theorem Stacks.Laminar.exit (h : s.Laminar thread out) {e : Entered} {s' : Stacks}
    (hstack : s.stack thread = e :: s'.stack thread) (hnow : s.latest thread ≤ s'.latest thread)
    {new : List Span} (hlength : new.length ≤ 1)
    (hnew : ∀ x ∈ new, x.startTimestamp = e.since ∧ x.endTimestamp = s'.latest thread) :
    s'.Laminar thread (out ++ new) := by
  obtain ⟨hsorted, hrest⟩ := List.pairwise_cons.mp (hstack ▸ h.sorted)
  have hsince : e.since ≤ s.latest thread := h.entered e (by simp [hstack])
  refine ⟨hrest, fun e' he' => ?_, fun x hx => ?_, fun x hx e' he' => ?_, ?_⟩
  · exact (h.entered e' (by simp [hstack, he'])).trans hnow
  · rcases List.mem_append.mp hx with hx | hx
    · obtain ⟨hle, hend⟩ := h.forward x hx
      exact ⟨hle, hend.trans hnow⟩
    · obtain ⟨hstart, hend⟩ := hnew x hx
      omega
  · rcases List.mem_append.mp hx with hx | hx
    · exact h.apart x hx e' (by simp [hstack, he'])
    · right
      rw [(hnew x hx).1]
      exact hsorted e' he'
  · refine List.pairwise_append.mpr ⟨h.nest, ?_, fun x hx y hy => ?_⟩
    · match new, hlength with
      | [], _ => exact .nil
      | [_], _ => exact List.pairwise_singleton ..
    · obtain ⟨hstart, hend⟩ := hnew y hy
      unfold Nests
      rw [hstart, hend]
      rcases h.apart x hx e (by simp [hstack]) with hbefore | hinside
      · exact .inl hbefore
      · exact .inr ⟨hinside, (h.forward x hx).2.trans hnow⟩

end Laminar

/-! ## What the trace shows -/

end Manytrace.Tracing
