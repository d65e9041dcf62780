import Manytrace.Core.Log
import Manytrace.Core.Machine
import Manytrace.Protocol.Event

/-! The interning symbolizer of the profiler. Every call returns the id of a call stack and
whatever definitions the reader of the trace does not have yet. A symbol is the name found
for an address, if any. -/
namespace Manytrace.Symbolizer
open Manytrace.Core Manytrace.Protocol

def fakeMappingId : ℕ := 1

inductive SymbolizerError
  | blazesym (error : String)
  | emptySymbols
deriving DecidableEq, Repr

/-- The two tables have their counter inside: `next_callstack_sequence` counts for
`callstack_hash_to_sequence`, `next_frame_sequence` for `pid_frame_to_sequence`. -/
structure InternedCache where
  callstackHashToSequence : Interner ℕ
  pidFrameToSequence : Interner (ℤ × ℕ)
  unknownFunctionId : Option ℕ
  nextFunctionId : ℕ
  fakeMappingId : Option ℕ
  nextMappingId : ℕ
  isFirstInternedData : Bool

namespace InternedCache

def new : InternedCache where
  callstackHashToSequence := .empty
  pidFrameToSequence := .empty
  unknownFunctionId := none
  nextFunctionId := 0
  fakeMappingId := none
  nextMappingId := 0
  isFirstInternedData := true

def cachedFrame (c : InternedCache) (pid : ℤ) (frame : ℕ) : Option ℕ :=
  c.pidFrameToSequence.ids (pid, frame)

def reserveFrame (c : InternedCache) (pid : ℤ) (frame : ℕ) : ℕ × InternedCache :=
  let r := c.pidFrameToSequence.reserve (pid, frame)
  (r.1, { c with pidFrameToSequence := r.2 })

section Callstacks
variable (hashCallstack : List ℕ → ℕ)

def cachedCallstack (c : InternedCache) (callstack : List ℕ) : Option ℕ :=
  c.callstackHashToSequence.ids (hashCallstack callstack)

def reserveCallstack (c : InternedCache) (callstack : List ℕ) : ℕ × InternedCache :=
  let r := c.callstackHashToSequence.reserve (hashCallstack callstack)
  (r.1, { c with callstackHashToSequence := r.2 })

end Callstacks

def reserveFunctionId (c : InternedCache) : ℕ × InternedCache :=
  (c.nextFunctionId, { c with nextFunctionId := c.nextFunctionId + 1 })

def getOrCreateUnknownFunctionId (c : InternedCache) : ℕ × InternedCache :=
  match c.unknownFunctionId with
  | some id => (id, c)
  | none =>
    (c.nextFunctionId,
      { c with nextFunctionId := c.nextFunctionId + 1, unknownFunctionId := some c.nextFunctionId })

def getOrCreateFakeMappingId (c : InternedCache) : ℕ × InternedCache :=
  match c.fakeMappingId with
  | some id => (id, c)
  | none =>
    (Symbolizer.fakeMappingId,
      { c with
        fakeMappingId := some Symbolizer.fakeMappingId
        nextMappingId := Symbolizer.fakeMappingId + 1 })

def takeIsFirstInternedData (c : InternedCache) : Bool × InternedCache :=
  (c.isFirstInternedData, { c with isFirstInternedData := false })

end InternedCache

/-- A stack with its symbols, one for each address if blazesym keeps its word. -/
structure Interned where
  pid : ℤ
  userAddresses : List ℕ
  kernelAddresses : List ℕ
  userSymbols : List (Option String)
  kernelSymbols : List (Option String)

/-- What `data` builds up, with the cache it works on. -/
structure Draft where
  cache : InternedCache
  allFrameIds : List ℕ
  newFunctionNames : List InternedString
  newFrames : List Frame
  newMappings : List Mapping
  newBuildIds : List InternedString

namespace Draft

def declareUnknownFunction (d : Draft) : Draft :=
  if d.cache.unknownFunctionId.isNone then
    let r := d.cache.getOrCreateUnknownFunctionId
    { d with cache := r.2, newFunctionNames := d.newFunctionNames ++ [⟨r.1, "<unknown>"⟩] }
  else d

def declareFakeMapping (d : Draft) : Draft :=
  if d.cache.fakeMappingId.isNone then
    let r := d.cache.getOrCreateFakeMappingId
    { d with
      cache := r.2
      newMappings := d.newMappings ++ [{
        iid := r.1, buildId := 1, exactOffset := 0, startOffset := 0, start := 0,
        end_ := 0x7fffffffffffffff, loadBias := 0, pathStringIds := [] }]
      newBuildIds := d.newBuildIds ++ [⟨1, "unknown"⟩] }
  else d

/-- The function of a new frame: one of its own if the frame has a symbol. -/
def functionId (d : Draft) (sym : Option String) : ℕ × Draft :=
  match sym with
  | some name =>
    let r := d.cache.reserveFunctionId
    (r.1, { d with cache := r.2, newFunctionNames := d.newFunctionNames ++ [⟨r.1, name⟩] })
  | none =>
    let r := d.cache.getOrCreateUnknownFunctionId
    (r.1, { d with cache := r.2 })

/-- One turn of the loops over the addresses. -/
def internFrame (pid : ℤ) (d : Draft) (s : Option String × ℕ) : Draft :=
  let isNewFrame := (d.cache.cachedFrame pid s.2).isNone
  let r := d.cache.reserveFrame pid s.2
  let d := { d with cache := r.2, allFrameIds := d.allFrameIds ++ [r.1] }
  if isNewFrame then
    let f := d.functionId s.1
    { f.2 with newFrames := f.2.newFrames ++ [⟨r.1, f.1, Symbolizer.fakeMappingId, s.2⟩] }
  else d

end Draft

namespace Interned

/-- The definitions of a stack: the user frames from the outermost on, under the process,
then the kernel frames under -1. -/
def draft (i : Interned) (c : InternedCache) : Draft :=
  let d : Draft := ⟨c, [], [], [], [], []⟩
  let d := d.declareUnknownFunction.declareFakeMapping
  let d := (i.userSymbols.zip i.userAddresses).reverse.foldl (Draft.internFrame i.pid) d
  (i.kernelSymbols.zip i.kernelAddresses).foldl (Draft.internFrame (-1)) d

def data (hashCallstack : List ℕ → ℕ) (i : Interned) (c : InternedCache) :
    (ℕ × Option InternedData) × InternedCache :=
  let d := i.draft c
  let newCallstack := (d.cache.cachedCallstack hashCallstack d.allFrameIds).isNone
  let r := d.cache.reserveCallstack hashCallstack d.allFrameIds
  if newCallstack || !d.newFunctionNames.isEmpty || !d.newFrames.isEmpty
      || !d.newMappings.isEmpty then
    let first := r.2.takeIsFirstInternedData
    ((r.1, some {
      functionNames := d.newFunctionNames
      frames := d.newFrames
      callstacks := [⟨r.1, d.allFrameIds⟩]
      mappings := d.newMappings
      buildIds := d.newBuildIds
      continuation := !first.1 }), first.2)
  else ((r.1, none), r.2)

end Interned

/-- The arguments of `symbolize`, and what blazesym answers if it is asked. -/
structure Request where
  pid : ℤ
  userAddresses : List ℕ
  kernelAddresses : List ℕ
  userResult : Except String (List (Option String))
  kernelResult : Except String (List (Option String))

def blazesym (addresses : List ℕ) (result : Except String (List (Option String))) :
    Except SymbolizerError (List (Option String)) :=
  if addresses.isEmpty then .ok [] else result.mapError .blazesym

def symbolize (r : Request) : Except SymbolizerError Interned :=
  if r.userAddresses.isEmpty && r.kernelAddresses.isEmpty then .error .emptySymbols
  else do
    let userSymbols ← blazesym r.userAddresses r.userResult
    let kernelSymbols ← blazesym r.kernelAddresses r.kernelResult
    if userSymbols.isEmpty && kernelSymbols.isEmpty then .error .emptySymbols
    else .ok ⟨r.pid, r.userAddresses, r.kernelAddresses, userSymbols, kernelSymbols⟩

/-- What a call returns, with the list of frame ids that it hashed. -/
structure Answer where
  frameIds : List ℕ
  callstackId : ℕ
  data : Option InternedData
deriving DecidableEq, Repr

def Interned.answer (hashCallstack : List ℕ → ℕ) (i : Interned) (c : InternedCache) : Answer where
  frameIds := (i.draft c).allFrameIds
  callstackId := (i.data hashCallstack c).1.1
  data := (i.data hashCallstack c).1.2

/-- One symbolizer over a sequence of `symbolize` and `data`. A stack that cannot be
symbolized leaves the cache alone. -/
def symbolizer (hashCallstack : List ℕ → ℕ) :
    Machine InternedCache Request (Except SymbolizerError Answer) where
  step c r :=
    match symbolize r with
    | .error e => (c, [.error e])
    | .ok i => ((i.data hashCallstack c).2, [.ok (i.answer hashCallstack c)])

section Step
variable {hashCallstack : List ℕ → ℕ} {r : Request} (c : InternedCache)

theorem step_error {e : SymbolizerError} (hr : symbolize r = .error e) :
    (symbolizer hashCallstack).step c r = (c, [.error e]) := by
  simp [symbolizer, hr]

theorem step_ok {i : Interned} (hr : symbolize r = .ok i) :
    (symbolizer hashCallstack).step c r =
      ((i.data hashCallstack c).2, [.ok (i.answer hashCallstack c)]) := by
  simp [symbolizer, hr]

end Step
end Manytrace.Symbolizer
