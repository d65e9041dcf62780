import Manytrace.Core.Introduction
import Manytrace.Converter.Declarations
import Manytrace.Bpf.Timeline

/-! From the ring buffer of the scheduler tracer to the trace. Every thread gets a track for its
spans, and what the trace shows there is what the thread has done. -/
namespace Manytrace.Bpf.SchedTrace
open Manytrace.Core Manytrace.Protocol Manytrace.Converter

/-- A span as it is taken from the ring buffer, and the name of the kernel symbol at its frame,
if one is found. -/
structure Received where
  event : SchedSpanEvent
  symbol : Option String
deriving DecidableEq, Repr

def Received.key (r : Received) : ℤ × ℤ :=
  (asI32 (UInt32.ofNat r.event.pid), asI32 (UInt32.ofNat r.event.tid))

def runnableReason : RunnableReason → Option String
  | .preempted => some "preempted"
  | .stillRunning => some "still_running"
  | .wakeup => some "wakeup"
  | .none => none

def Received.spanName (r : Received) : String :=
  match r.event.eventType with
  | .blocked =>
    if r.event.frame ≠ 0 then
      match r.symbol with
      | some name => "blocked [" ++ name ++ "]"
      | none => "blocked [0x" ++ String.ofList (Nat.toDigits 16 r.event.frame) ++ "]"
    else "blocked"
  | .runnable => "runnable"
  | .running => "running"

def Received.labels (r : Received) : Labels where
  strings := ((runnableReason r.event.reason).map fun reason => ("reason", reason)).toList
  ints := ("cpu", (r.event.cpu : ℤ)) ::
    if r.event.eventType = .blocked then [("task_state", (r.event.taskState : ℤ))] else []
  bools := []
  floats := []

section Callback
variable (random : ℕ → ℕ)

/-- The track of a thread under the number that was drawn for it. -/
def Received.track (r : Received) (n : ℕ) : Track where
  name := "scheduler"
  trackType := .custom (random n)
  parent := some (.thread r.key.2 r.key.1)

def Received.span (r : Received) (n : ℕ) : Span where
  name := r.spanName
  spanId := r.event.startTime
  startTimestamp := r.event.startTime
  endTimestamp := r.event.endTime
  trackId := .custom (random n)
  labels := r.labels

end Callback

/-! ## What the spans say -/

def SchedEventType.text : SchedEventType → String
  | .running => "running"
  | .blocked => "blocked"
  | .runnable => "runnable"

/-- The spans follow each other from the first switch to the last change of state, and each has
the name of the state that the thread was in all the time. -/
structure ShowsTimeline (h : List TaskEvent) (spans : List Span) : Prop where
  tiles : ∃ first last, h.head?.map TaskEvent.now = some first ∧ IsLastChange h last ∧
    Tiling Span.startTimestamp Span.endTimestamp first spans last
  states : ∀ s ∈ spans, ∀ t, s.startTimestamp ≤ t → t < s.endTimestamp →
    (trueState (upto t h)).text.toList <+: s.name.toList

theorem text_prefix_spanName (r : Received) :
    r.event.eventType.text.toList <+: r.spanName.toList := by
  unfold Received.spanName
  cases r.event.eventType with
  | running => exact List.prefix_refl _
  | runnable => exact List.prefix_refl _
  | blocked =>
    split_ifs
    · cases r.symbol with
      | none => simp [SchedEventType.text, String.toList_append]
      | some name => simp [SchedEventType.text, String.toList_append]
    · exact List.prefix_refl _

/-- Spans that tile the timeline show it. -/
theorem TilesTimeline.shows {h : List TaskEvent} {rs : List Received} (random : ℕ → ℕ) (n : ℕ)
    (ht : TilesTimeline h (rs.map Received.event)) :
    ShowsTimeline h (rs.map fun r => r.span random n) := by
  obtain ⟨first, last, hfirst, hlast, htiles, -⟩ := ht.tiles
  refine ⟨⟨first, last, hfirst, hlast, ?_⟩, ?_⟩
  · rw [Tiling.map_iff] at htiles ⊢
    exact htiles
  · intro s hs t hlo hhi
    obtain ⟨r, hr, rfl⟩ := List.mem_map.mp hs
    rw [← ht.states r.event (List.mem_map_of_mem hr) t hlo hhi]
    exact text_prefix_spanName r

/-! ## The whole way -/

/-- Nobody else declares or uses the tracks whose numbers are drawn here. -/
def Undisturbed (random : ℕ → ℕ) (told messages : List Message) : Prop :=
  ∀ n, messages.filter (fun m => concerns (.custom (random n)) m.event) =
    told.filter fun m => concerns (.custom (random n)) m.event

end Manytrace.Bpf.SchedTrace
