import Manytrace.Tracing.Layer

/-! The times of a span event. The start time of a span belongs to the last enter that was
recorded in it, which need not be the one that an exit matches. -/
namespace Manytrace.Tracing
open Manytrace.Core Manytrace.Protocol

/-- The clock that an enter reads, and what it shows, if the enter is recorded. -/
def State.reading (st : State) (v : Visit) : Option (ClockId × ℕ) :=
  if !v.inTracing && st.isActive && (st.spanData v.span).isSome then
    some (st.clockId, v.now st.clockId)
  else none

/-- The visits of one span by one thread between an enter and its exit pair up among
themselves, `depth` of them being open, and the span is not made anew. -/
def paired (span : ℕ) (tid : ℤ) : ℕ → List Call → Bool
  | depth, [] => depth = 0
  | depth, .enter v :: calls =>
    if v.span = span ∧ v.tid = tid then paired span tid (depth + 1) calls
    else paired span tid depth calls
  | depth, .exit v :: calls =>
    if v.span = span ∧ v.tid = tid then
      match depth with
      | 0 => false
      | depth + 1 => paired span tid depth calls
    else paired span tid depth calls
  | depth, .newSpan attrs :: calls => attrs.span ≠ span && paired span tid depth calls
  | depth, .start _ _ :: calls => paired span tid depth calls
  | depth, .stop :: calls => paired span tid depth calls

/-- The exit `x` matches the enter `v`, with `calls` between them. -/
def Matches (v : Visit) (calls : List Call) (x : Visit) : Prop :=
  x.span = v.span ∧ x.tid = v.tid ∧ paired v.span v.tid 0 calls

/-- What a call reads from the clock for the start time of the span. -/
def Call.reads (span : ℕ) (st : State) : Call → Option ℕ
  | .enter v => if v.span = span then (st.reading v).map Prod.snd else none
  | _ => none

/-- What the last enter of the span has read, of those among the calls that are recorded. -/
def lastReading (names : ℕ → String) (span : ℕ) : State → List Call → Option ℕ
  | _, [] => none
  | st, call :: calls =>
    (lastReading names span ((layer names).step st call).1 calls).or (call.reads span st)

/-- The event has the time that the enter `v` has read when it was called in `before`, by the
clock in force in `after`, with which its end is taken. -/
def HasTimeOf (before : State) (v : Visit) (after : State) (e : Span) : Prop :=
  before.reading v = some (after.clockId, e.startTimestamp)

def State.startTimestamp (st : State) (span : ℕ) : Option ℕ :=
  (st.spanData span).map SpanData.startTimestamp

section StartTimestamp
variable {names : ℕ → String} {st : State} {span : ℕ}

theorem startTimestamp_onEnter (v : Visit) : (onEnter st v).startTimestamp span =
    ((Call.enter v).reads span st).or (st.startTimestamp span) := by
  unfold onEnter Call.reads State.reading
  cases hin : v.inTracing with
  | true => simp [hin]
  | false =>
    cases hactive : st.isActive with
    | false => simp
    | true =>
      cases hdata : st.spanData v.span with
      | none => simp [hdata]
      | some data =>
        by_cases hspan : v.span = span
        · subst hspan
          simp [State.startTimestamp, hin, hdata]
        · simp [State.startTimestamp, hspan, Function.update_of_ne (Ne.symm hspan)]

theorem startTimestamp_step {tid : ℤ} {depth : ℕ} {call : Call} {calls : List Call}
    (h : paired span tid depth (call :: calls)) :
    ((layer names).step st call).1.startTimestamp span =
      (call.reads span st).or (st.startTimestamp span) := by
  cases call with
  | enter v => exact startTimestamp_onEnter v
  | newSpan attrs =>
    have hspan : attrs.span ≠ span := by
      simp only [paired, Bool.and_eq_true, decide_eq_true_eq] at h
      exact h.1
    simp [layer, onNewSpan, Call.reads, State.startTimestamp,
      Function.update_of_ne (Ne.symm hspan)]
  | start timestampType validFilter =>
    change (start st timestampType validFilter).startTimestamp span = _
    unfold start
    split_ifs <;> rfl
  | stop => rfl
  | exit v => rfl

theorem paired_tail {tid : ℤ} {depth : ℕ} {call : Call} {calls : List Call}
    (h : paired span tid depth (call :: calls)) : ∃ depth', paired span tid depth' calls := by
  cases call with
  | enter v =>
    unfold paired at h
    split_ifs at h
    · exact ⟨_, h⟩
    · exact ⟨_, h⟩
  | newSpan attrs =>
    simp only [paired, Bool.and_eq_true] at h
    exact ⟨_, h.2⟩
  | start timestampType validFilter => exact ⟨_, h⟩
  | stop => exact ⟨_, h⟩
  | exit v =>
    unfold paired at h
    split_ifs at h
    · cases depth with
      | zero => cases h
      | succ depth => exact ⟨depth, h⟩
    · exact ⟨_, h⟩

/-- The start time in a span is what the last recorded enter has read. -/
theorem startTimestamp_final {tid : ℤ} {depth : ℕ} {calls : List Call}
    (h : paired span tid depth calls) : ((layer names).final st calls).startTimestamp span =
      (lastReading names span st calls).or (st.startTimestamp span) := by
  induction calls generalizing st depth with
  | nil => rfl
  | cons call calls ih =>
    obtain ⟨depth', htail⟩ := paired_tail h
    rw [Machine.final_cons, ih htail, startTimestamp_step h, lastReading, Option.or_assoc]

end StartTimestamp

theorem mem_onExit {names : ℕ → String} {st : State} {x : Visit} {e : Span}
    (h : e ∈ onExit st names x) : st.startTimestamp x.span = some e.startTimestamp ∧
      e.endTimestamp = x.now st.clockId := by
  unfold onExit at h
  split_ifs at h
  · cases h
  · cases h
  · unfold State.startTimestamp
    cases hdata : st.spanData x.span with
    | none => simp [hdata] at h
    | some data =>
      simp only [hdata, List.mem_singleton] at h
      subst h
      exact ⟨rfl, rfl⟩

theorem eq_now_of_reading {st : State} {v : Visit} {c : ClockId} {n : ℕ}
    (h : st.reading v = some (c, n)) : n = v.now c := by
  unfold State.reading at h
  split_ifs at h
  cases h
  rfl

/-- An exit submits the time of the enter that it matches, by its own clock, exactly if that
enter was recorded, under the same clock, and no enter of the span that was recorded since
then leaves another time. -/
theorem exit_hasTimeOf_iff (names : ℕ → String) (pre calls : List Call) (v x : Visit)
    (hmatch : Matches v calls x) (e : Span)
    (he : e ∈ ((layer names).step ((layer names).final State.new
      (pre ++ .enter v :: calls)) (.exit x)).2) :
    let before := (layer names).final State.new pre
    let after := (layer names).final State.new (pre ++ .enter v :: calls)
    (HasTimeOf before v after e ↔ ∃ n, before.reading v = some (after.clockId, n) ∧
      ∀ m, lastReading names v.span (onEnter before v) calls = some m → m = n) ∧
      (HasTimeOf before v after e → (∀ c, 0 < v.now c) → 0 < e.startTimestamp) ∧
      (HasTimeOf before v after e → (∀ c, v.now c ≤ x.now c) →
        e.startTimestamp ≤ e.endTimestamp) := by
  intro before after
  obtain ⟨hspan, -, hpaired⟩ := hmatch
  obtain ⟨hstart, hend⟩ := mem_onExit he
  have hafter : after = (layer names).final (onEnter before v) calls := Machine.final_append ..
  have hslot : some e.startTimestamp = (lastReading names v.span (onEnter before v) calls).or
      (((before.reading v).map Prod.snd).or (before.startTimestamp v.span)) := by
    change after.startTimestamp x.span = _ at hstart
    rw [← hstart, hspan, hafter, startTimestamp_final hpaired, startTimestamp_onEnter]
    simp [Call.reads]
  refine ⟨?_, ?_, ?_⟩
  · unfold HasTimeOf
    cases hread : before.reading v with
    | none => simp
    | some r =>
      obtain ⟨c, n⟩ := r
      rw [hread] at hslot
      cases hlast : lastReading names v.span (onEnter before v) calls with
      | none =>
        have hn : e.startTimestamp = n := by simpa [hlast] using hslot
        simp [hn]
      | some m =>
        have hm : e.startTimestamp = m := by simpa [hlast] using hslot
        simp [hm, eq_comm]
  · intro hown hpos
    exact (eq_now_of_reading hown).symm ▸ hpos _
  · intro hown hmono
    change e.endTimestamp = x.now after.clockId at hend
    rw [eq_now_of_reading hown, hend]
    exact hmono _

/-- The thread `tid` enters or leaves span 1 when the monotonic clock shows `t`. -/
def visitAt (tid : ℤ) (t : ℕ) : Visit where
  span := 1
  tid := tid
  pid := 3
  inTracing := false
  now
    | .monotonic => t
    | .boottime => t + 1000
    | .realtime => t + 9000

/-- Span 1 is made in a session. -/
def sessionWithSpan : List Call :=
  [.start .monotonic true, .newSpan ⟨1, false, true, ⟨[], [], [], []⟩, "app"⟩]

theorem exit_hasTimeOf_enter :
    HasTimeOf ((layer fun _ => "work").final State.new sessionWithSpan) (visitAt 7 100)
      ((layer fun _ => "work").final State.new
        (sessionWithSpan ++ [.enter (visitAt 7 100), .exit (visitAt 8 150)]))
      ⟨"work", 1, 100, 200, .thread 7 3, ⟨[("target", "app")], [], [], []⟩⟩ := by
  have hiff := (exit_hasTimeOf_iff (fun _ => "work") sessionWithSpan [.exit (visitAt 8 150)]
    (visitAt 7 100) (visitAt 7 200) ⟨rfl, rfl, rfl⟩ _ List.mem_cons_self).1
  exact hiff.mpr ⟨100, rfl, fun m hm => nomatch hm⟩

/-- The start times of other enters: none at all if the session was stopped at the enter, the
time of another thread that has entered the span meanwhile, and the time of another clock. -/
theorem exit_has_other_times :
    ((layer fun _ => "work").outputs State.new (sessionWithSpan ++
      [.stop, .enter (visitAt 7 100), .start .monotonic true, .exit (visitAt 7 200)])).map
        (fun e => (e.startTimestamp, e.endTimestamp)) = [(0, 200)] ∧
    ((layer fun _ => "work").outputs State.new (sessionWithSpan ++
      [.enter (visitAt 7 100), .enter (visitAt 8 150), .exit (visitAt 7 200)])).map
        (fun e => (e.startTimestamp, e.endTimestamp)) = [(150, 200)] ∧
    ((layer fun _ => "work").outputs State.new (sessionWithSpan ++
      [.start .realtime true, .enter (visitAt 7 100), .stop, .start .monotonic true,
        .exit (visitAt 7 200)])).map
        (fun e => (e.startTimestamp, e.endTimestamp)) = [(9100, 200)] := by
  decide

end Manytrace.Tracing
