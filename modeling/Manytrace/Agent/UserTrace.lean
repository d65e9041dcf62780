import Manytrace.Agent.ThreadOrder
import Manytrace.Converter.Declarations

/-! From `submit` to the trace: the main loop converts what it receives, so the track of a thread
shows the events that the thread has submitted, in the order of its calls. How an event is
serialized and accessed is a parameter. -/
namespace Manytrace.Agent
open Manytrace.Core Manytrace.Mpscbuf Manytrace.Protocol Manytrace.Converter

variable {ι : Type*} [DecidableEq ι] {M : Memory} {wakeup : ι → WakeupStrategy}

section Submitted
variable {s : Calling ι} {q : ι} {v : Serializer}

theorem record_event {p : ι} {event : Option Serializer} {r : Submitting ι × List (Act ι)} :
    ((s.record M wakeup p event r).1.event q = some v → s.event q = some v ∨
        (q = p ∧ event = some v)) ∧
      ∀ ok, .returned q v ok ∈ (s.record M wakeup p event r).2 → q = p ∧ event = some v := by
  have hevent : ∀ x : Option Serializer, Function.update s.event p x q = some v →
      s.event q = some v ∨ (q = p ∧ x = some v) := by
    intro x hx
    by_cases hq : q = p
    · subst hq
      exact .inr ⟨rfl, by simpa using hx⟩
    · rw [Function.update_of_ne hq] at hx
      exact .inl hx
  unfold Calling.record
  split
  · refine ⟨fun h => ?_, fun ok hmem => ?_⟩
    · rcases hevent none h with h | ⟨-, h⟩
      · exact .inl h
      · cases h
    · simp only [List.mem_append, List.mem_map, List.mem_singleton] at hmem
      rcases hmem with ⟨e, -, he⟩ | he
      · cases he
      · cases he
        exact ⟨rfl, rfl⟩
  · refine ⟨fun h => hevent _ h, fun ok hmem => ?_⟩
    obtain ⟨e, -, he⟩ := List.mem_map.mp hmem
    cases he

variable (M wakeup s q v) in
/-- The event of a call, and what a call returns for, is an event that was submitted. -/
theorem submit_of_step (a : EventAct ι) :
    (((submitCalls M wakeup).step s a).1.event q = some v →
        s.event q = some v ∨ a = .submit q v) ∧
      ∀ ok, .returned q v ok ∈ ((submitCalls M wakeup).step s a).2 →
        s.event q = some v ∨ a = .submit q v := by
  cases a with
  | submit p w =>
    have hsource : q = p ∧ (if s.sub.threads p = .idle then some w else s.event p) = some v →
        s.event q = some v ∨ EventAct.submit p w = .submit q v := by
      rintro ⟨rfl, hv⟩
      split_ifs at hv
      · cases hv
        exact .inr rfl
      · exact .inl hv
    exact ⟨fun h => (record_event.1 h).elim .inl hsource, fun ok h => hsource (record_event.2 ok h)⟩
  | advance p timeout =>
    have hsource : q = p ∧ s.event p = some v →
        s.event q = some v ∨ EventAct.advance p timeout = .submit q v := by
      rintro ⟨rfl, hv⟩
      exact .inl hv
    exact ⟨fun h => (record_event.1 h).elim .inl hsource, fun ok h => hsource (record_event.2 ok h)⟩
  | consumer a =>
    refine ⟨.inl, fun ok h => ?_⟩
    obtain ⟨e, -, he⟩ := List.mem_map.mp h
    cases he

theorem submit_of_returned (acts : List (EventAct ι)) {ok : Bool}
    (h : .returned q v ok ∈ (submitCalls M wakeup).outputs s acts) :
    s.event q = some v ∨ .submit q v ∈ acts := by
  induction acts generalizing s with
  | nil => cases h
  | cons a acts ih =>
    rw [Machine.outputs_cons] at h
    have hstep := submit_of_step M wakeup s q v a
    rcases List.mem_append.mp h with h | h
    · exact (hstep.2 ok h).imp id fun ha => by simp [ha]
    · rcases ih h with h | h
      · exact (hstep.1 h).imp id fun ha => by simp [ha]
      · exact .inr (List.mem_cons_of_mem a h)

theorem submit_of_submittedBy (acts : List (EventAct ι)) {payload : List UInt8}
    (h : payload ∈ submittedBy q ((submitCalls M wakeup).outputs Calling.init acts)) :
    ∃ v, .submit q v ∈ acts ∧ payload = serialization v := by
  obtain ⟨o, ho, hsome⟩ := List.mem_filterMap.mp h
  rcases o with _ | ⟨r, v, ok⟩
  · cases hsome
  · cases ok with
    | false => cases hsome
    | true =>
      simp only [Option.ite_none_right_eq_some, Option.some.injEq] at hsome
      obtain ⟨rfl, rfl⟩ := hsome
      rcases submit_of_returned acts ho with hinit | hacts
      · cases hinit
      · exact ⟨v, hacts, rfl⟩

end Submitted

section Trace
variable (access : List UInt8 → Option Protocol.Event)

/-- The events for which `submit` has returned `Ok` to `p`. -/
def submittedEvents (p : ι) (os : List (CallEvent ι)) : List Protocol.Event :=
  (submittedBy p os).filterMap access

/-- The events that the main loop takes from the ring. -/
def receivedEvents (os : List (CallEvent ι)) : List Protocol.Event :=
  (received os).filterMap access

variable {access}

/-- If only `p` submits events that `f` keeps, then they are received as `p` has submitted
them. -/
theorem receivedEvents_filter {acts : List (EventAct ι)} {p : ι} {f : Protocol.Event → Bool}
    (hown : ∀ q v, .submit q v ∈ acts → ∃ e, access (serialization v) = some e ∧
      (f e = true → q = p))
    (hall : InterleavesAll
      (fun q => submittedBy q ((submitCalls M wakeup).outputs Calling.init acts))
      (received ((submitCalls M wakeup).outputs Calling.init acts))) :
    (receivedEvents access ((submitCalls M wakeup).outputs Calling.init acts)).filter f =
      (submittedEvents access p ((submitCalls M wakeup).outputs Calling.init acts)).filter f := by
  obtain ⟨tagged, hvalues, hentries⟩ := hall
  dsimp only at hentries
  unfold receivedEvents submittedEvents
  rw [← hvalues, ← hentries p, List.filter_filterMap, List.filter_filterMap]
  refine filterMap_entriesOf p _ tagged ?_
  rintro ⟨q, payload⟩ hmem hq
  rw [← mem_entriesOf, hentries q] at hmem
  obtain ⟨v, hv, rfl⟩ := submit_of_submittedBy acts hmem
  obtain ⟨e, haccess, he⟩ := hown q v hv
  rw [haccess, Option.filter_some]
  exact if_neg fun hf => hq (he hf)

end Trace

/-- The track of a thread shows the spans and instants for which `submit` has returned `Ok` to
it, in the order of its calls, once everything is consumed: nobody else submits to the track, the
messages from elsewhere leave it alone, and all writes succeed. -/
theorem thread_track_shows_submissions (M : Memory) (wakeup : ι → WakeupStrategy)
    (io : ℕ → Bool) (access : List UInt8 → Option Protocol.Event)
    (acts : List (EventAct ι)) (hshort : ∀ a ∈ acts, a.Short) (p : ι) (tid pid : ℤ)
    (hown : ∀ q v, .submit q v ∈ acts → ∃ e, access (serialization v) = some e ∧
      (trackOf e = some (.thread tid pid) → q = p ∧ bringsThread e = true))
    (a : ConsumerAct)
    (hidle : ∀ q, ((submitCalls M wakeup).final Calling.init acts).sub.threads q = .idle)
    (hdrained : .ring (.returned none) ∈ ((submitCalls M wakeup).step
      ((submitCalls M wakeup).final Calling.init acts) (.consumer a)).2)
    (messages : List Message)
    (hmessages : (messages.map fun m => m.event).filter
        (fun e => trackOf e = some (.thread tid pid)) =
      (receivedEvents access ((submitCalls M wakeup).outputs Calling.init acts)).filter
        fun e => trackOf e = some (.thread tid pid))
    (hok : ∀ r ∈ (converter io).outputs .new messages, r = .ok ()) :
    let c := (converter io).final .new messages
    let mine := (submittedEvents access p ((submitCalls M wakeup).outputs Calling.init acts)).filter
      fun e => trackOf e = some (.thread tid pid)
    (mine ≠ [] → (c.trackMap (.thread tid pid)).isSome) ∧
      ∀ u, c.trackMap (.thread tid pid) = some u → timeline c u = mine.flatMap (drawn u) := by
  intro c mine
  have hran := ran_of_short M wakeup hshort
  have hmine : (messages.map fun m => m.event).filter
      (fun e => trackOf e = some (.thread tid pid)) = mine := by
    rw [hmessages]
    refine receivedEvents_filter (fun q v hv => ?_) (interleavesAll_received hran hidle hdrained)
    obtain ⟨e, haccess, he⟩ := hown q v hv
    exact ⟨e, haccess, fun hf => (he (of_decide_eq_true hf)).1⟩
  refine thread_shown io messages hok hmine fun e he => ?_
  obtain ⟨hmem, htrack⟩ := List.mem_filter.mp he
  obtain ⟨payload, hpayload, hsome⟩ := List.mem_filterMap.mp hmem
  obtain ⟨v, hv, rfl⟩ := submit_of_submittedBy acts hpayload
  obtain ⟨e', haccess, he'⟩ := hown p v hv
  obtain rfl : e' = e := Option.some.inj (haccess.symm.trans hsome)
  exact (he' (of_decide_eq_true htrack)).2

/-- A format with three events, on the tracks of two threads. -/
def threeSpans : List UInt8 → Option Protocol.Event
  | [1] => some (.span ⟨"first", 1, 10, 20, .thread 7 3, ⟨[], [], [], []⟩⟩)
  | [2] => some (.span ⟨"other", 2, 12, 22, .thread 8 3, ⟨[], [], [], []⟩⟩)
  | [3] => some (.span ⟨"second", 3, 30, 40, .thread 7 3, ⟨[], [], [], []⟩⟩)
  | _ => none

theorem thread_track_shows_alternating :
    let messages : List Message := [[1], [2], [3]].filterMap fun payload =>
      (threeSpans payload).map fun e => ⟨e, none⟩
    let c := (converter fun _ => true).final .new messages
    c.trackMap (.thread 7 3) = some 1001 ∧
      timeline c 1001 = ([[1], [3]].filterMap threeSpans).flatMap (drawn 1001) := by
  intro messages c
  have hmapped : c.trackMap (.thread 7 3) = some 1001 := by decide +kernel
  have hown : ∀ q v, .submit q v ∈ alternatingCalls → ∃ e,
      threeSpans (serialization v) = some e ∧
        (trackOf e = some (.thread 7 3) → q = true ∧ bringsThread e = true) := by
    intro q v hv
    rcases submit_mem_alternating hv with ⟨rfl, rfl⟩ | ⟨rfl, rfl⟩ | ⟨rfl, rfl⟩
    · exact ⟨_, rfl, fun _ => ⟨rfl, rfl⟩⟩
    · exact ⟨_, rfl, fun h => absurd h (by decide)⟩
    · exact ⟨_, rfl, fun _ => ⟨rfl, rfl⟩⟩
  have hshows := thread_track_shows_submissions pageRing (fun _ => .forced) (fun _ => true)
    threeSpans alternatingCalls short_alternating true 7 3 hown .loadProducer (by decide +kernel)
    alternating_drained messages (by decide +kernel) (by decide +kernel)
  refine ⟨hmapped, (hshows.2 1001 hmapped).trans ?_⟩
  decide +kernel

end Manytrace.Agent
