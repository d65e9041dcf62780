import Mathlib.Algebra.Group.Nat.Defs
import Mathlib.Algebra.Ring.Int.Defs
import Mathlib.Logic.Function.Basic
import Manytrace.Core.Machine
import Manytrace.Core.Op
import Manytrace.Protocol.Event

/-! The Perfetto converter and the stream writer under it. Any write of a packet may fail,
and whatever the state was at that moment is kept. Events read from the ring and archived
events are converted alike. -/
namespace Manytrace.Converter
open Manytrace.Core Manytrace.Protocol

structure ThreadDescriptor where
  pid : ℤ
  tid : ℤ
  threadName : Option String
deriving DecidableEq, Repr

structure ProcessDescriptor where
  pid : ℤ
  processName : Option String
deriving DecidableEq, Repr

structure CounterDescriptor where
  unitName : Option String
deriving DecidableEq, Repr

structure TrackDescriptor where
  uuid : ℕ
  parentUuid : Option ℕ := none
  name : Option String := none
  thread : Option ThreadDescriptor := none
  process : Option ProcessDescriptor := none
  counter : Option CounterDescriptor := none
deriving DecidableEq, Repr

inductive DebugValue
  | string (s : String)
  | int (i : ℤ)
  | double (bits : UInt64)
  | bool (b : Bool)
deriving DecidableEq, Repr

structure DebugAnnotation where
  name : String
  value : DebugValue
deriving DecidableEq, Repr

inductive TrackEventType
  | sliceBegin
  | sliceEnd
  | instant
  | counter
deriving DecidableEq, Repr

structure TrackEvent where
  trackUuid : ℕ
  type : TrackEventType
  name : Option String := none
  debugAnnotations : List DebugAnnotation := []
  doubleCounterValue : Option UInt64 := none
deriving DecidableEq, Repr

structure PerfSample where
  cpu : ℕ
  pid : ℕ
  tid : ℕ
  callstackIid : ℕ
  timebaseCount : ℕ
deriving DecidableEq, Repr

inductive SequenceFlags
  | seqIncrementalStateCleared
  | seqNeedsIncrementalState
deriving DecidableEq, Repr

inductive PacketData
  | trackDescriptor (d : TrackDescriptor)
  | trackEvent (e : TrackEvent)
  | perfSample (s : PerfSample)
  | internedData (d : InternedData) (flags : SequenceFlags)
deriving DecidableEq, Repr

structure TracePacket where
  data : PacketData
  timestamp : Option ℕ := none
  trustedPid : Option ℤ := none
  trustedPacketSequenceId : ℕ := 0
deriving DecidableEq, Repr

inductive WriteError
  | io
  | overflow
deriving DecidableEq, Repr

/-- The converter with the fields of its writer. `packets` is what has been written so far,
each packet with the track it is about, and `writes` counts the attempts. -/
structure PerfettoConverter where
  trackUuidCounter : ℕ
  trackMap : TrackId → Option ℕ
  packets : List (Option TrackId × TracePacket)
  writes : ℕ

def PerfettoConverter.new : PerfettoConverter where
  trackUuidCounter := 1000
  trackMap := fun _ => none
  packets := []
  writes := 0

abbrev ConvertOp (α : Type) := Op PerfettoConverter WriteError α

def nextTrackUuid : ConvertOp ℕ := fun c =>
  if c.trackUuidCounter + 1 < 2 ^ 64 then
    (.ok c.trackUuidCounter, { c with trackUuidCounter := c.trackUuidCounter + 1 })
  else (.error .overflow, c)

/-- `self.track_map.insert`. -/
def insertTrack (id : TrackId) (uuid : ℕ) : ConvertOp Unit :=
  Op.modify fun c => { c with trackMap := Function.update c.trackMap id (some uuid) }

section Writer
variable (io : ℕ → Bool)

def writePacket (owner : Option TrackId) (packet : TracePacket) (streamId : Option ℕ) :
    ConvertOp Unit := fun c =>
  if io c.writes then
    (.ok (), { c with
      packets := c.packets ++
        [(owner, { packet with trustedPacketSequenceId := streamId.getD (2 ^ 32 - 1) })]
      writes := c.writes + 1 })
  else (.error .io, { c with writes := c.writes + 1 })

/-- A descriptor for a track that has a uuid already. -/
def writeDescriptor (owner : TrackId) (d : TrackDescriptor) : ConvertOp Unit :=
  writePacket io (some owner) { data := .trackDescriptor d } none

/-- A descriptor under a new uuid, which is used up even if the write fails. -/
def writeNewTrack (owner : TrackId) (descriptor : ℕ → TrackDescriptor) : ConvertOp ℕ := do
  let uuid ← nextTrackUuid
  writeDescriptor io owner (descriptor uuid)
  pure uuid

def threadDescriptor (pid tid : ℤ) (threadName : Option String) (parentUuid uuid : ℕ) :
    TrackDescriptor :=
  { uuid := uuid, parentUuid := some parentUuid, thread := some ⟨pid, tid, threadName⟩ }

def writeThreadDescriptorWithUuid (uuid : ℕ) (pid tid : ℤ) (threadName : Option String)
    (parentUuid : ℕ) : ConvertOp Unit :=
  writeDescriptor io (.thread tid pid) (threadDescriptor pid tid threadName parentUuid uuid)

def writeThreadDescriptor (pid tid : ℤ) (threadName : Option String) (parentUuid : ℕ) :
    ConvertOp ℕ :=
  writeNewTrack io (.thread tid pid) (threadDescriptor pid tid threadName parentUuid)

def writeProcessDescriptor (pid : ℤ) (processName : Option String) : ConvertOp ℕ :=
  writeNewTrack io (.process pid) fun uuid =>
    { uuid := uuid, process := some ⟨pid, processName⟩ }

def writeGenericTrack (owner : TrackId) (name : String) (parentUuid : ℕ) : ConvertOp ℕ :=
  writeNewTrack io owner fun uuid =>
    { uuid := uuid
      parentUuid := if 0 < parentUuid then some parentUuid else none
      name := some name }

def writeCounterTrack (owner : TrackId) (name : String) (unitName : Option String)
    (parentUuid : ℕ) : ConvertOp ℕ :=
  writeNewTrack io owner fun uuid =>
    { uuid := uuid, parentUuid := some parentUuid, name := some name
      counter := some ⟨unitName⟩ }

/-- The four kinds of track events. -/
def writeTrackEvent (owner : TrackId) (e : TrackEvent) (timestamp : ℕ) : ConvertOp Unit :=
  writePacket io (some owner) { data := .trackEvent e, timestamp := some timestamp } none

def writeSliceBegin (owner : TrackId) (uuid : ℕ) (name : String) (timestamp : ℕ)
    (annotations : List DebugAnnotation) : ConvertOp Unit :=
  writeTrackEvent io owner
    { trackUuid := uuid, type := .sliceBegin, name := some name, debugAnnotations := annotations }
    timestamp

def writeSliceEnd (owner : TrackId) (uuid timestamp : ℕ) : ConvertOp Unit :=
  writeTrackEvent io owner { trackUuid := uuid, type := .sliceEnd } timestamp

def writeInstantEvent (owner : TrackId) (uuid : ℕ) (name : String) (timestamp : ℕ)
    (annotations : List DebugAnnotation) : ConvertOp Unit :=
  writeTrackEvent io owner
    { trackUuid := uuid, type := .instant, name := some name, debugAnnotations := annotations }
    timestamp

def writeDoubleCounterValue (owner : TrackId) (uuid : ℕ) (value : UInt64) (timestamp : ℕ) :
    ConvertOp Unit :=
  writeTrackEvent io owner
    { trackUuid := uuid, type := .counter, doubleCounterValue := some value } timestamp

def asU32 (i : ℤ) : ℕ := (i % 2 ^ 32).toNat

def writePerfSample (s : Sample) (pid tid : ℤ) (streamId : Option ℕ) : ConvertOp Unit :=
  writePacket io none
    { data := .perfSample ⟨s.cpu, asU32 pid, asU32 tid, s.callstackIid, 1⟩
      timestamp := some s.timestamp
      trustedPid := some pid } streamId

def writeProtocolInternedData (d : InternedData) (streamId : Option ℕ) : ConvertOp Unit :=
  writePacket io none
    { data := .internedData d (if d.continuation then .seqNeedsIncrementalState
        else .seqIncrementalStateCleared) } streamId

end Writer

section Convert
variable (io : ℕ → Bool)

def ensureProcessTrack (pid : ℤ) (name : Option String) : ConvertOp ℕ := do
  let c ← Op.get
  match c.trackMap (.process pid) with
  | some uuid => pure uuid
  | none =>
    let uuid ← writeProcessDescriptor io pid name
    insertTrack (.process pid) uuid
    pure uuid

def ensureThreadTrack (pid tid : ℤ) (name : Option String) : ConvertOp ℕ := do
  let c ← Op.get
  match c.trackMap (.thread tid pid) with
  | some uuid =>
    if name.isSome then
      let processUuid ← ensureProcessTrack io pid none
      writeThreadDescriptorWithUuid io uuid pid tid name processUuid
      pure uuid
    else pure uuid
  | none =>
    let processUuid ← ensureProcessTrack io pid none
    let uuid ← writeThreadDescriptor io pid tid name processUuid
    insertTrack (.thread tid pid) uuid
    pure uuid

def createDebugAnnotations (labels : Labels) : List DebugAnnotation :=
  labels.strings.map (fun l => ⟨l.1, .string l.2⟩) ++ labels.ints.map (fun l => ⟨l.1, .int l.2⟩) ++
    labels.bools.map (fun l => ⟨l.1, .bool l.2⟩) ++ labels.floats.map (fun l => ⟨l.1, .double l.2⟩)

/-- The track of a span or an instant, created if it is a thread or a process. -/
def eventTrack (id : TrackId) : ConvertOp (Option ℕ) := do
  let c ← Op.get
  match c.trackMap id with
  | some uuid => pure (some uuid)
  | none =>
    match id with
    | .thread tid pid =>
      let uuid ← ensureThreadTrack io pid tid none
      insertTrack id uuid
      pure (some uuid)
    | .process pid =>
      let uuid ← ensureProcessTrack io pid none
      insertTrack id uuid
      pure (some uuid)
    | _ => pure none

def convertCounter (counter : Counter) : ConvertOp Unit := do
  let c ← Op.get
  match c.trackMap counter.trackId with
  | some uuid =>
    writeDoubleCounterValue io counter.trackId uuid counter.value counter.timestamp
  | none => pure ()

def convertSpan (span : Span) : ConvertOp Unit := do
  match ← eventTrack io span.trackId with
  | none => pure ()
  | some uuid =>
    writeSliceBegin io span.trackId uuid span.name span.startTimestamp
      (createDebugAnnotations span.labels)
    writeSliceEnd io span.trackId uuid span.endTimestamp

def convertInstant (instant : Instant) : ConvertOp Unit := do
  match ← eventTrack io instant.trackId with
  | none => pure ()
  | some uuid =>
    writeInstantEvent io instant.trackId uuid instant.name instant.timestamp
      (createDebugAnnotations instant.labels)

/-- The uuid of a track's parent, 0 without one. -/
def parentTrack (parent : Option TrackType) : ConvertOp ℕ := do
  match parent with
  | none => pure 0
  | some parent =>
    let c ← Op.get
    match c.trackMap parent.toId with
    | some uuid => pure uuid
    | none =>
      match parent with
      | .thread tid pid =>
        let uuid ← ensureThreadTrack io pid tid none
        insertTrack parent.toId uuid
        pure uuid
      | .process pid =>
        let uuid ← ensureProcessTrack io pid none
        insertTrack parent.toId uuid
        pure uuid
      | _ => pure 0

/-- The descriptor of the track itself. -/
def ownTrack (track : Track) (parentUuid : ℕ) : ConvertOp ℕ :=
  match track.trackType with
  | .cpu _ | .custom _ => writeGenericTrack io track.trackType.toId track.name parentUuid
  | .counter _ unit => writeCounterTrack io track.trackType.toId track.name unit parentUuid
  | .thread tid pid => ensureThreadTrack io pid tid (some track.name)
  | .process pid => ensureProcessTrack io pid (some track.name)

def convertTrack (track : Track) : ConvertOp Unit := do
  let c ← Op.get
  if (c.trackMap track.trackType.toId).isSome then pure ()
  else
    let parentUuid ← parentTrack io track.parent
    let uuid ← ownTrack io track parentUuid
    insertTrack track.trackType.toId uuid

def convertEvent (event : Event) (streamId : Option ℕ) : ConvertOp Unit :=
  match event with
  | .internedData data => writeProtocolInternedData io data streamId
  | .sample sample =>
    match sample.trackId with
    | .thread tid pid => writePerfSample io sample pid tid streamId
    | _ => pure ()
  | .counter counter => convertCounter io counter
  | .span span => convertSpan io span
  | .instant instant => convertInstant io instant
  | .track track => convertTrack io track

/-- One conversion after another; the outputs are their results. -/
def converter : Machine PerfettoConverter Message (Except WriteError Unit) where
  step c m :=
    let r := convertEvent io m.event m.streamId c
    (r.2, [r.1])

end Convert
end Manytrace.Converter
