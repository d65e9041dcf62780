import Mathlib.Logic.Function.Basic
import Manytrace.Agent.AgentState
import Manytrace.Protocol.Event

/-! The tracing extension and the layer that turns the spans of a process into span events.
A span keeps one start time, which every enter overwrites. -/
namespace Manytrace.Tracing
open Manytrace.Core Manytrace.Protocol

inductive ClockId
  | monotonic
  | boottime
  | realtime
deriving DecidableEq, Repr

def ClockId.ofTimestampType : Agent.TimestampType → ClockId
  | .monotonic => .monotonic
  | .boottime => .boottime
  | .realtime => .realtime

/-- The data of the layer in a span of the registry. -/
structure SpanData where
  labels : Labels
  startTimestamp : ℕ
deriving DecidableEq, Repr

/-- The session of the extension is its clock; what its filter says is part of each call. -/
structure State where
  session : Option ClockId
  spanData : ℕ → Option SpanData

def State.new : State := ⟨none, fun _ => none⟩

def State.isActive (st : State) : Bool := st.session.isSome

def State.clockId (st : State) : ClockId := st.session.getD .monotonic

/-- A span that has just been made. `inTracing` is the flag of the thread, which is set while
the layer is at work on it. -/
structure Attributes where
  span : ℕ
  inTracing : Bool
  enabled : Bool
  labels : Labels
  target : String

/-- An enter or exit of a span by a thread, when the clocks show `now`. -/
structure Visit where
  span : ℕ
  tid : ℤ
  pid : ℤ
  inTracing : Bool
  now : ClockId → ℕ

def insertLabel {α : Type} (key : String) (value : α) (entries : List (String × α)) :
    List (String × α) :=
  (entries.filter fun e => e.1 ≠ key) ++ [(key, value)]

def insertString (key value : String) (labels : Labels) : Labels :=
  { labels with strings := insertLabel key value labels.strings }

section Layer
variable (st : State)

/-- The new span starts without data of the layer. -/
def onNewSpan (attrs : Attributes) : State :=
  let data : Option SpanData :=
    if attrs.inTracing then none
    else if !st.isActive then none
    else if !attrs.enabled then none
    else some ⟨insertString "target" attrs.target attrs.labels, 0⟩
  { st with spanData := Function.update st.spanData attrs.span data }

def onEnter (v : Visit) : State :=
  if v.inTracing then st
  else if !st.isActive then st
  else
    match st.spanData v.span with
    | none => st
    | some data =>
      let entered := { data with startTimestamp := v.now st.clockId }
      { st with spanData := Function.update st.spanData v.span (some entered) }

/-- The span event that is submitted; `names` are the names in the metadata. -/
def onExit (names : ℕ → String) (v : Visit) : List Span :=
  if v.inTracing then []
  else if !st.isActive then []
  else
    match st.spanData v.span with
    | none => []
    | some data =>
      [{
        name := names v.span
        spanId := v.span
        startTimestamp := data.startTimestamp
        endTimestamp := v.now st.clockId
        trackId := .thread v.tid v.pid
        labels := data.labels }]

/-- `TracingExtension::start`, which fails if the filter cannot be parsed. -/
def start (timestampType : Agent.TimestampType) (validFilter : Bool) : State :=
  if validFilter then { st with session := some (.ofTimestampType timestampType) } else st

def stop : State := { st with session := none }

end Layer

inductive Call
  | start (timestampType : Agent.TimestampType) (validFilter : Bool)
  | stop
  | newSpan (attrs : Attributes)
  | enter (v : Visit)
  | exit (v : Visit)

/-- The calls of all threads and of the agent, with the span events that are submitted. -/
def layer (names : ℕ → String) : Machine State Call Span where
  step st
    | .start timestampType validFilter => (start st timestampType validFilter, [])
    | .stop => (stop st, [])
    | .newSpan attrs => (onNewSpan st attrs, [])
    | .enter v => (onEnter st v, [])
    | .exit v => (st, onExit st names v)

end Manytrace.Tracing
