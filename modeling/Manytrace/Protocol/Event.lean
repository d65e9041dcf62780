import Mathlib.Data.Int.Notation
import Mathlib.Data.Nat.Notation

/-! The events of the trace protocol, as producers submit them. A float is its 64 bits. -/
namespace Manytrace.Protocol

/-- The cast of an id of the kernel to one of the protocol. -/
def asI32 (n : UInt32) : ℤ := n.toInt32.toInt

theorem asI32_inj {m n : UInt32} (h : asI32 m = asI32 n) : m = n :=
  congrArg Int32.toUInt32 (Int32.toInt_inj.mp h)

inductive TrackId
  | cpu (cpu : ℕ)
  | thread (tid pid : ℤ)
  | process (pid : ℤ)
  | custom (id : ℕ)
  | counter (id : ℕ)
deriving DecidableEq, Repr

inductive TrackType
  | cpu (cpu : ℕ)
  | thread (tid pid : ℤ)
  | process (pid : ℤ)
  | custom (id : ℕ)
  | counter (id : ℕ) (unit : Option String)
deriving DecidableEq, Repr

def TrackType.toId : TrackType → TrackId
  | .cpu n => .cpu n
  | .thread tid pid => .thread tid pid
  | .process pid => .process pid
  | .custom id => .custom id
  | .counter id _ => .counter id

structure Track where
  name : String
  trackType : TrackType
  parent : Option TrackType
deriving DecidableEq, Repr

/-- The labels in the order in which their maps are iterated. -/
structure Labels where
  strings : List (String × String)
  ints : List (String × ℤ)
  bools : List (String × Bool)
  floats : List (String × UInt64)
deriving DecidableEq, Repr

structure Counter where
  name : String
  value : UInt64
  timestamp : ℕ
  trackId : TrackId
  labels : Labels
  unit : Option String
deriving DecidableEq, Repr

structure Span where
  name : String
  spanId : ℕ
  startTimestamp : ℕ
  endTimestamp : ℕ
  trackId : TrackId
  labels : Labels
deriving DecidableEq, Repr

structure Instant where
  name : String
  timestamp : ℕ
  trackId : TrackId
  labels : Labels
deriving DecidableEq, Repr

structure InternedString where
  iid : ℕ
  str : String
deriving DecidableEq, Repr

structure Frame where
  iid : ℕ
  functionNameId : ℕ
  mappingId : ℕ
  relPc : ℕ
deriving DecidableEq, Repr

structure Callstack where
  iid : ℕ
  frameIds : List ℕ
deriving DecidableEq, Repr

structure Mapping where
  iid : ℕ
  buildId : ℕ
  exactOffset : ℕ
  startOffset : ℕ
  start : ℕ
  end_ : ℕ
  loadBias : ℕ
  pathStringIds : List ℕ
deriving DecidableEq, Repr

structure InternedData where
  functionNames : List InternedString
  frames : List Frame
  callstacks : List Callstack
  mappings : List Mapping
  buildIds : List InternedString
  continuation : Bool
deriving DecidableEq, Repr

inductive CpuMode
  | unknown
  | kernel
  | user
deriving DecidableEq, Repr

structure Sample where
  cpu : ℕ
  trackId : TrackId
  timestamp : ℕ
  callstackIid : ℕ
  cpuMode : CpuMode
deriving DecidableEq, Repr

inductive Event
  | counter (c : Counter)
  | span (s : Span)
  | instant (i : Instant)
  | internedData (d : InternedData)
  | sample (s : Sample)
  | track (t : Track)
deriving DecidableEq, Repr

/-- An event, possibly of a stream. -/
structure Message where
  event : Event
  streamId : Option ℕ
deriving DecidableEq, Repr

end Manytrace.Protocol
