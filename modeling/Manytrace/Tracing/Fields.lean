import Mathlib.Data.List.Induction
import Manytrace.Converter.Rendering
import Manytrace.Tracing.Layer

/-! The fields of spans and events. The visitor puts each field among the labels of its type,
and the converter turns the labels into the annotations of the slice or the instant. -/
namespace Manytrace.Tracing
open Manytrace.Core Manytrace.Protocol Manytrace.Converter

/-- A value as the visitor is handed it. Of a value that is only printed there is the text. -/
inductive FieldValue
  | i64 (v : ℤ)
  | u64 (v : ℕ)
  | f64 (bits : UInt64)
  | bool (v : Bool)
  | str (v : String)
  | debug (text : String)
deriving DecidableEq, Repr

abbrev Field := String × FieldValue

/-- A call site with the values of its fields, in the order in which they are visited. -/
structure Callsite where
  fields : List Field
  target : String
deriving DecidableEq, Repr

def i64Max : ℕ := 2 ^ 63 - 1

section Visitor
variable (asF64 : ℕ → UInt64)

/-- The methods of the visitor. -/
def recordField (labels : Labels) : Field → Labels
  | (name, .i64 v) => { labels with ints := insertLabel name v labels.ints }
  | (name, .u64 v) =>
    if v ≤ i64Max then { labels with ints := insertLabel name (v : ℤ) labels.ints }
    else { labels with floats := insertLabel name (asF64 v) labels.floats }
  | (name, .f64 bits) => { labels with floats := insertLabel name bits labels.floats }
  | (name, .bool v) => { labels with bools := insertLabel name v labels.bools }
  | (name, .str v) => { labels with strings := insertLabel name v labels.strings }
  | (name, .debug text) => { labels with strings := insertLabel name text labels.strings }

def recordFields (fields : List Field) : Labels :=
  fields.foldl (recordField asF64) ⟨[], [], [], []⟩

def Callsite.labels (site : Callsite) : Labels :=
  insertString "target" site.target (recordFields asF64 site.fields)

end Visitor

/-! ## What is expected -/

inductive LabelKind
  | string
  | int
  | bool
  | float
deriving DecidableEq, Repr

def kindOf : DebugValue → LabelKind
  | .string _ => .string
  | .int _ => .int
  | .bool _ => .bool
  | .double _ => .float

/-- An annotation with this name and a value of this kind. -/
def isNamed (key : String) (kind : LabelKind) (a : DebugAnnotation) : Bool :=
  a.name = key ∧ kindOf a.value = kind

section Annotations
variable (asF64 : ℕ → UInt64)

def annotationOf : Field → DebugAnnotation
  | (name, .i64 v) => ⟨name, .int v⟩
  | (name, .u64 v) => ⟨name, if v ≤ i64Max then .int v else .double (asF64 v)⟩
  | (name, .f64 bits) => ⟨name, .double bits⟩
  | (name, .bool v) => ⟨name, .bool v⟩
  | (name, .str v) => ⟨name, .string v⟩
  | (name, .debug text) => ⟨name, .string text⟩

/-- The last of the fields that has this name and kind. -/
def lastNamed (key : String) (kind : LabelKind) (fields : List Field) : Option DebugAnnotation :=
  ((fields.map (annotationOf asF64)).filter (isNamed key kind)).getLast?

variable {asF64} {key : String} {kind : LabelKind}

theorem filter_insertLabel {α : Type} (name : String) (value : α) (entries : List (String × α)) :
    (insertLabel name value entries).filter (fun e => e.1 = key) =
      if name = key then [(name, value)] else entries.filter fun e => e.1 = key := by
  unfold insertLabel
  rw [List.filter_append, List.filter_filter]
  by_cases h : name = key
  · subst h
    have hnone : entries.filter (fun e => decide (e.1 = name) && decide (e.1 ≠ name)) = [] := by
      rw [List.filter_eq_nil_iff]
      simp
    rw [hnone]
    simp
  · have hsame : entries.filter (fun e => decide (e.1 = key) && decide (e.1 ≠ name)) =
        entries.filter fun e => e.1 = key := by
      apply List.filter_congr
      intro e _
      by_cases he : e.1 = key
      · simp [he, Ne.symm h]
      · simp [he]
    rw [hsame]
    simp [h]

/-- The annotations of one kind come from the labels of that type. -/
theorem filter_annotations (labels : Labels) :
    (createDebugAnnotations labels).filter (isNamed key kind) =
      match kind with
      | .string => (labels.strings.filter fun e => e.1 = key).map fun e => ⟨e.1, .string e.2⟩
      | .int => (labels.ints.filter fun e => e.1 = key).map fun e => ⟨e.1, .int e.2⟩
      | .bool => (labels.bools.filter fun e => e.1 = key).map fun e => ⟨e.1, .bool e.2⟩
      | .float => (labels.floats.filter fun e => e.1 = key).map fun e => ⟨e.1, .double e.2⟩ := by
  unfold createDebugAnnotations
  cases kind <;>
    simp [List.filter_append, List.filter_map, Function.comp_def, isNamed, kindOf]

/-- A field replaces the one before it that has its name and kind, and no other. -/
theorem filter_recordField (labels : Labels) (f : Field) :
    (createDebugAnnotations (recordField asF64 labels f)).filter (isNamed key kind) =
      if isNamed key kind (annotationOf asF64 f) then [annotationOf asF64 f]
      else (createDebugAnnotations labels).filter (isNamed key kind) := by
  obtain ⟨name, value⟩ := f
  rw [filter_annotations, filter_annotations]
  cases value with
  | u64 v =>
    by_cases hv : v ≤ i64Max <;> cases kind <;> by_cases hname : name = key <;>
      simp [recordField, annotationOf, isNamed, kindOf, filter_insertLabel, hv, hname]
  | _ =>
    cases kind <;> by_cases hname : name = key <;>
      simp [recordField, annotationOf, isNamed, kindOf, filter_insertLabel, hname]

theorem filter_recordFields (fields : List Field) :
    (createDebugAnnotations (recordFields asF64 fields)).filter (isNamed key kind) =
      (lastNamed asF64 key kind fields).toList := by
  unfold recordFields lastNamed
  induction fields using List.reverseRecOn with
  | nil => rfl
  | append_singleton fields f ih =>
    rw [List.foldl_append, List.foldl_cons, List.foldl_nil, filter_recordField, ih,
      List.map_append, List.filter_append]
    by_cases hf : isNamed key kind (annotationOf asF64 f) = true
    · simp [hf]
    · simp [hf]

/-- The target is one more field, after all others. -/
theorem Callsite.labels_eq (site : Callsite) :
    site.labels asF64 = recordFields asF64 (site.fields ++ [("target", .str site.target)]) := by
  unfold recordFields
  rw [List.foldl_append]
  rfl

end Annotations

/-! ## The calls of a process -/

/-- An event of a thread, when the clocks show `now`. -/
structure EventCall where
  name : String
  tid : ℤ
  pid : ℤ
  inTracing : Bool
  enabled : Bool
  now : ClockId → ℕ
  site : Callsite

def onEvent (asF64 : ℕ → UInt64) (st : State) (e : EventCall) : List Instant :=
  if e.inTracing then []
  else if !st.isActive then []
  else if !e.enabled then []
  else
    [{
      name := e.name
      timestamp := e.now st.clockId
      trackId := .thread e.tid e.pid
      labels := e.site.labels asF64 }]

/-- What the threads and the agent do. A span can be given values after it has been made, but
the layer does not listen to that. -/
inductive Traced
  | start (timestampType : Agent.TimestampType) (validFilter : Bool)
  | stop
  | newSpan (span : ℕ) (inTracing enabled : Bool) (site : Callsite)
  | record (span : ℕ) (fields : List Field)
  | enter (v : Visit)
  | exit (v : Visit)
  | event (e : EventCall)

section Tracing
variable (spanName : ℕ → String) (asF64 : ℕ → UInt64)

def tracing : Machine State Traced Event where
  step st
    | .start timestampType validFilter => (start st timestampType validFilter, [])
    | .stop => (stop st, [])
    | .newSpan span inTracing enabled site =>
      (onNewSpan st ⟨span, inTracing, enabled, recordFields asF64 site.fields, site.target⟩, [])
    | .record _ _ => (st, [])
    | .enter v => (onEnter st v, [])
    | .exit v => (st, (onExit st spanName v).map .span)
    | .event e => (st, (onEvent asF64 st e).map .instant)

end Tracing

def Traced.makes (span : ℕ) : Traced → Option Callsite
  | .newSpan span' _ _ site => if span' = span then some site else none
  | _ => none

/-- The call site of the span that has this id. -/
def madeAt (span : ℕ) (xs : List Traced) : Option Callsite :=
  (xs.filterMap (Traced.makes span)).getLast?

/-- The call site of what is submitted. -/
def Traced.origin (before : List Traced) : Traced → Option Callsite
  | .exit v => madeAt v.span before
  | .event e => some e.site
  | _ => none

section Run
variable {spanName : ℕ → String} {asF64 : ℕ → UInt64}

theorem madeAt_concat (span : ℕ) (xs : List Traced) (x : Traced) :
    madeAt span (xs ++ [x]) = (x.makes span).or (madeAt span xs) := by
  unfold madeAt
  rw [List.filterMap_append]
  cases hx : x.makes span with
  | none => simp [hx]
  | some site => simp [hx]

/-- The labels in a span are those of its call site. -/
def LabelledBy (asF64 : ℕ → UInt64) (st : State) (xs : List Traced) : Prop :=
  ∀ span data, st.spanData span = some data →
    ∃ site, madeAt span xs = some site ∧ data.labels = site.labels asF64

theorem labels_onEnter {st : State} {v : Visit} {span : ℕ} {data : SpanData}
    (h : (onEnter st v).spanData span = some data) :
    ∃ old, st.spanData span = some old ∧ old.labels = data.labels := by
  unfold onEnter at h
  split_ifs at h
  · exact ⟨data, h, rfl⟩
  · exact ⟨data, h, rfl⟩
  · cases hv : st.spanData v.span with
    | none =>
      rw [hv] at h
      exact ⟨data, h, rfl⟩
    | some old =>
      rw [hv] at h
      change Function.update st.spanData v.span _ span = some data at h
      by_cases hspan : span = v.span
      · subst hspan
        rw [Function.update_self] at h
        obtain rfl := Option.some.inj h
        exact ⟨old, hv, rfl⟩
      · rw [Function.update_of_ne hspan] at h
        exact ⟨data, h, rfl⟩

theorem labels_onExit {st : State} {v : Visit} {s : Span} (h : s ∈ onExit st spanName v) :
    ∃ data, st.spanData v.span = some data ∧ s.labels = data.labels := by
  unfold onExit at h
  split_ifs at h
  · cases h
  · cases h
  · cases hv : st.spanData v.span with
    | none =>
      rw [hv] at h
      cases h
    | some data =>
      rw [hv] at h
      obtain rfl := List.mem_singleton.mp h
      exact ⟨data, rfl, rfl⟩

theorem LabelledBy.step {st : State} {xs : List Traced} (h : LabelledBy asF64 st xs)
    (x : Traced) :
    LabelledBy asF64 ((tracing spanName asF64).step st x).1 (xs ++ [x]) := by
  -- only a new span changes where the spans come from
  have hsame : (∀ span, x.makes span = none) → LabelledBy asF64 st (xs ++ [x]) := by
    intro hx span data hdata
    rw [madeAt_concat, hx]
    exact h span data hdata
  cases x with
  | newSpan made inTracing enabled site =>
    intro span data hdata
    rw [madeAt_concat]
    change Function.update st.spanData made _ span = some data at hdata
    by_cases hspan : made = span
    · subst hspan
      rw [Function.update_self] at hdata
      refine ⟨site, by simp [Traced.makes], ?_⟩
      split_ifs at hdata
      obtain rfl := Option.some.inj hdata
      rfl
    · rw [Function.update_of_ne (Ne.symm hspan)] at hdata
      simpa [Traced.makes, hspan] using h span data hdata
  | enter v =>
    intro span data hdata
    rw [madeAt_concat]
    obtain ⟨old, hold, hlabels⟩ := labels_onEnter hdata
    rw [← hlabels]
    exact h span old hold
  | start timestampType validFilter =>
    change LabelledBy asF64 (start st timestampType validFilter) _
    unfold start
    split_ifs
    · exact hsame fun _ => rfl
    · exact hsame fun _ => rfl
  | _ => exact hsame fun _ => rfl

theorem labelledBy_run (xs : List Traced) :
    LabelledBy asF64 ((tracing spanName asF64).final .new xs) xs :=
  Machine.history_inputs (G := fun _ _ => True) (fun _ _ x h _ => h.step x)
    (fun _ _ h => by cases h)
    (Machine.meets_of_forall (P := fun _ => True) (fun _ _ => trivial) _)

/-- What is submitted has the labels of its call site. -/
theorem labels_of_step (before : List Traced) (x : Traced) {e : Event}
    (h : e ∈ ((tracing spanName asF64).step ((tracing spanName asF64).final .new before) x).2) :
    ∃ site, x.origin before = some site ∧
      ((∃ s, e = .span s ∧ s.labels = site.labels asF64) ∨
        ∃ i, e = .instant i ∧ i.labels = site.labels asF64) := by
  cases x with
  | exit v =>
    obtain ⟨s, hs, rfl⟩ := List.mem_map.mp h
    obtain ⟨data, hdata, hlabels⟩ := labels_onExit hs
    obtain ⟨site, hsite, heq⟩ := labelledBy_run before v.span data hdata
    exact ⟨site, hsite, Or.inl ⟨s, rfl, hlabels.trans heq⟩⟩
  | event e =>
    obtain ⟨i, hi, rfl⟩ := List.mem_map.mp h
    refine ⟨e.site, rfl, Or.inr ⟨i, rfl, ?_⟩⟩
    unfold onEvent at hi
    split_ifs at hi
    · cases hi
    · cases hi
    · cases hi
    · obtain rfl := List.mem_singleton.mp hi
      rfl
  | _ => cases h


end Run

/-- In whatever state of the process, the slice or instant that a call leads to is annotated with
the fields that were there when its span was made or its event happened: under each name and kind
with the last one, where the target counts as a text after all of them. -/
theorem annotated_with_fields (spanName : ℕ → String) (asF64 : ℕ → UInt64)
    (before : List Traced) (x : Traced) (e : Event)
    (he : e ∈ ((tracing spanName asF64).step
      ((tracing spanName asF64).final .new before) x).2) :
    ∃ site, x.origin before = some site ∧ ∀ u, ∃ first rest, drawn u e = first :: rest ∧
      ∀ key kind, first.2.debugAnnotations.filter (isNamed key kind) =
        (lastNamed asF64 key kind (site.fields ++ [("target", .str site.target)])).toList := by
  obtain ⟨site, hsite, hlabels⟩ := labels_of_step before x he
  refine ⟨site, hsite, fun u => ?_⟩
  rcases hlabels with ⟨s, rfl, hs⟩ | ⟨i, rfl, hi⟩
  · refine ⟨sliceBegin u s, [sliceEnd u s], rfl, fun key kind => ?_⟩
    change (createDebugAnnotations s.labels).filter _ = _
    rw [hs, site.labels_eq, filter_recordFields]
  · refine ⟨_, [], rfl, fun key kind => ?_⟩
    change (createDebugAnnotations i.labels).filter _ = _
    rw [hi, site.labels_eq, filter_recordFields]

/-- A span with a number, which is changed later, and a text called `target`. -/
def requestSpan : List Traced :=
  let visit t : Visit := ⟨1, 7, 3, false, fun _ => t⟩
  [.start .boottime true,
    .newSpan 1 false true ⟨[("size", .u64 3), ("target", .str "disk")], "app"⟩,
    .record 1 [("size", .u64 9)], .enter (visit 10)]

theorem annotated_with_fields_request :
    ∃ e ∈ ((tracing (fun _ => "request") UInt64.ofNat).step
        ((tracing (fun _ => "request") UInt64.ofNat).final .new requestSpan)
        (.exit ⟨1, 7, 3, false, fun _ => 20⟩)).2,
      ∃ first rest, drawn 4 e = first :: rest ∧
        first.2.debugAnnotations.filter (isNamed "size" .int) = [⟨"size", .int 3⟩] ∧
        first.2.debugAnnotations.filter (isNamed "target" .string) =
          [⟨"target", .string "app"⟩] := by
  refine ⟨_, List.mem_singleton.mpr rfl, ?_⟩
  obtain ⟨site, hsite, hdrawn⟩ := annotated_with_fields (fun _ => "request") UInt64.ofNat
    requestSpan (.exit ⟨1, 7, 3, false, fun _ => 20⟩) _ (List.mem_singleton.mpr rfl)
  obtain rfl := Option.some.inj hsite
  obtain ⟨first, rest, hfirst, hfilter⟩ := hdrawn 4
  exact ⟨first, rest, hfirst, hfilter "size" .int, hfilter "target" .string⟩

end Manytrace.Tracing
