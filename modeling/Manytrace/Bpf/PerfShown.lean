import Manytrace.Bpf.PerfMeasures
import Manytrace.Converter.Declarations

/-! The performance counters in the trace. A series of a processor has a track of its own, with
one value for each tick of the processor that is recorded. The track names the processor as its
parent, but no processor has a track. -/
namespace Manytrace.Bpf.PerfCounter
open Manytrace.Core Manytrace.Protocol Manytrace.Converter

def Report.event : Report UInt64 → Event
  | .track t => .track t
  | .counter c => .counter ⟨c.name, c.value, c.timestamp, c.trackId, ⟨[], [], [], []⟩, c.unit⟩

def Expansion.seriesName (x : Expansion) (s : ℕ) : String :=
  if s < x.counters.length then (x.counters.getD s (.named "")).name
  else (x.derived.getD (s - x.counters.length) ("", .ipc 0 0)).1

def Expansion.track (x : Expansion) (nprocs cpu s : ℕ) : Track :=
  ⟨formatTrackName (x.seriesName s) cpu nprocs, .counter (trackId cpu s) none,
    some (.cpu (cpu % 2 ^ 32))⟩

section Tracks
variable {F : Type} {x : Expansion} {nprocs cpu s : ℕ}

end Tracks

/-! ## The trace -/

/-- What the callback of the user is handed: the tracks and then the samples. -/
def Built.handed (b : Built UInt64) (conv : Conversions UInt64) (callback : ℕ → ℤ)
    (ticks : List Tick) : List Event :=
  (b.reports ++ ((tracer conv callback b.expansion).final .new ticks).reports).map Report.event

end Manytrace.Bpf.PerfCounter
