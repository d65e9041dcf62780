import Manytrace.Bpf.Profiler
import Manytrace.Converter.Streams
import Manytrace.Symbolizer.Resolution

/-! The samples in the trace show the stacks that were sampled, if no stack is put over that of
a record which still waits in the ring buffer. -/
namespace Manytrace.Bpf.Profiler
open Manytrace.Core Manytrace.Protocol Manytrace.Symbolizer Manytrace.Converter

/-! ## The stack map -/

/-- A stack that can be read back: it fits, and its last address is not zero. -/
def walked (stack : List ℕ) : Bool :=
  stack.getLast?.any (fun x => x != 0) && decide (stack.length ≤ perfMaxStackDepth)

theorem rposition_padded {l : List ℕ} {x : ℕ} (hx : x ≠ 0) (k : ℕ) :
    rposition (fun x => x != 0) (l ++ x :: List.replicate k 0) = some l.length := by
  have hzeros : (List.replicate k 0 : List ℕ).findIdx? (fun x => x != 0) = none := by simp
  have hfirst : (l ++ x :: List.replicate k 0).reverse.findIdx? (fun x => x != 0) = some k := by
    rw [List.reverse_append, List.reverse_cons, List.reverse_replicate, List.append_assoc,
      List.findIdx?_append, hzeros]
    simp [List.findIdx?_cons, hx]
  unfold rposition
  rw [hfirst, Option.map_some]
  congr 1
  simp

theorem getStackFrames_eq {m : Stackmap} {id : ℤ} {stack : List ℕ}
    (hm : m id.toNat = some stack) (hw : walked stack = true) : getStackFrames m id = stack := by
  obtain ⟨hlast, -⟩ := (Bool.and_eq_true _ _).mp hw
  rcases List.eq_nil_or_concat' stack with rfl | ⟨l, x, rfl⟩
  · simp at hlast
  · have hx : x ≠ 0 := by simpa using hlast
    simp only [getStackFrames, hm, List.append_assoc, List.singleton_append, rposition_padded hx,
      Option.getD_some]
    rw [List.append_cons, List.take_left' (by simp)]

/-- The stack is in the map under the id, or there is none. -/
inductive Stored (hash : List ℕ → ℕ) (m : Stackmap) : ℤ → List ℕ → Prop
  | found {stack : List ℕ} (hm : m (bucketOf hash stack) = some stack)
    (hw : walked stack = true) : Stored hash m (bucketOf hash stack) stack
  | missing {id : ℤ} (hid : id < 0) : Stored hash m id []

/-- The stacks that a context has for the map. -/
def taken (enabled : Bool) (stack : Option (List ℕ)) : List (List ℕ) :=
  if enabled then stack.toList else []

section Stackmap
variable {hash : List ℕ → ℕ} {m : Stackmap}

theorem Stored.framesOf {id : ℤ} {stack : List ℕ} (h : Stored hash m id stack) :
    framesOf m id = stack := by
  cases h with
  | found hm hw =>
    rw [Profiler.framesOf, if_pos (Int.natCast_nonneg _)]
    exact getStackFrames_eq hm hw
  | missing hid => rw [Profiler.framesOf, if_neg (by omega)]

/-- The new stack is not taken for another one. -/
theorem bpfGetStackid_self {stack : List ℕ}
    (h : ∀ old, m (bucketOf hash stack) = some old → hash old = hash stack → old = stack) :
    bpfGetStackid hash m stack (bucketOf hash stack) = some stack := by
  unfold bpfGetStackid
  split_ifs with hsame
  · obtain ⟨old, hold, heq⟩ := Option.map_eq_some_iff.mp hsame
    rw [hold, h old hold heq]
  · exact Function.update_self ..

/-- A stack stays if no other is put into its bucket. -/
theorem bpfGetStackid_other {stack stack' : List ℕ}
    (hm : m (bucketOf hash stack) = some stack)
    (h : bucketOf hash stack = bucketOf hash stack' → stack = stack') :
    bpfGetStackid hash m stack' (bucketOf hash stack) = some stack := by
  unfold bpfGetStackid
  split_ifs with hsame
  · exact hm
  · by_cases hb : bucketOf hash stack = bucketOf hash stack'
    · obtain rfl := h hb
      exact Function.update_self ..
    · rw [Function.update_of_ne hb, hm]

theorem Stored.collect {id : ℤ} {stack : List ℕ} (h : Stored hash m id stack) {enabled : Bool}
    {new : Option (List ℕ)}
    (hsep : ∀ stack' ∈ taken enabled new, 0 ≤ id →
      bucketOf hash stack = bucketOf hash stack' → stack = stack') :
    Stored hash (Profiler.collect hash enabled new m).2 id stack := by
  cases h with
  | missing hid => exact .missing hid
  | found hm hw =>
    refine .found ?_ hw
    unfold Profiler.collect
    cases enabled with
    | false => exact hm
    | true =>
      cases new with
      | none => exact hm
      | some stack' =>
        exact bpfGetStackid_other hm (hsep stack' (by simp [taken]) (Int.natCast_nonneg _))

theorem stored_collect {enabled : Bool} {new : Option (List ℕ)}
    (hnew : ∀ stack ∈ taken enabled new, walked stack = true ∧
      ∀ old, m (bucketOf hash stack) = some old → hash old = hash stack → old = stack) :
    Stored hash (collect hash enabled new m).2 (collect hash enabled new m).1
      (collected enabled new) := by
  unfold collect collected
  cases enabled with
  | false => exact .missing (show (-1 : ℤ) < 0 by decide)
  | true =>
    cases new with
    | none => exact .missing (show (-14 : ℤ) < 0 by decide)
    | some stack =>
      obtain ⟨hw, hold⟩ := hnew stack (by simp [taken])
      exact .found (bpfGetStackid_self hold) hw

theorem mem_taken_of_collect {enabled : Bool} {new : Option (List ℕ)}
    (h : 0 ≤ (collect hash enabled new m).1) : collected enabled new ∈ taken enabled new := by
  cases enabled with
  | false => exact absurd h (show ¬ (0 : ℤ) ≤ -1 by decide)
  | true =>
    cases new with
    | none => exact absurd h (show ¬ (0 : ℤ) ≤ -14 by decide)
    | some stack => simp [collected, taken]

/-- What is in the map afterwards was there before, or is the new stack. -/
theorem collect_bucket {enabled : Bool} {new : Option (List ℕ)} {b : ℕ} {old : List ℕ}
    (h : (collect hash enabled new m).2 b = some old) :
    m b = some old ∨ old ∈ taken enabled new ∧ bucketOf hash old = b := by
  unfold collect at h
  cases enabled with
  | false => exact Or.inl h
  | true =>
    cases new with
    | none => exact Or.inl h
    | some stack =>
      change bpfGetStackid hash m stack b = some old at h
      unfold bpfGetStackid at h
      split_ifs at h
      · exact Or.inl h
      · by_cases hb : b = bucketOf hash stack
        · subst hb
          obtain rfl : stack = old := by simpa using h
          exact Or.inr ⟨by simp [taken], rfl⟩
        · rw [Function.update_of_ne hb] at h
          exact Or.inl h

end Stackmap

/-! ## The ring buffer -/

/-- The stacks that a record has in the map. -/
def Record.storedStacks (r : Record) : List (List ℕ) :=
  (if 0 ≤ r.event.ustackId then [r.user] else []) ++
    if 0 ≤ r.event.kstackId then [r.kernel] else []

section Ring
variable (cfg : Config) (hash : List ℕ → ℕ)

/-- The sample is let through and finds room. -/
def recorded (ctx : Context) : Bool := ctx.pid != 0 && !applyTgidFilter cfg ctx && ctx.room

def Context.takenStacks (ctx : Context) : List (List ℕ) :=
  taken cfg.collectUstack ctx.userStack ++ taken cfg.collectKstack ctx.kernelStack

/-- A sample that is recorded neither finds a different stack with its hash in the map, nor puts
its stacks over those of a record that waits, or over each other. -/
def Separate (s : State) : Act → Prop
  | .perfEvent ctx => recorded cfg ctx = true →
    ∀ stack ∈ ctx.takenStacks cfg, walked stack = true ∧
      (∀ old ∈ s.stackmap (bucketOf hash stack), hash old = hash stack → old = stack) ∧
      ∀ other ∈ s.ring.flatMap Record.storedStacks ++ ctx.takenStacks cfg,
        bucketOf hash other = bucketOf hash stack → other = stack
  | .consume _ => True

instance decidableSeparate (s : State) : ∀ a, Decidable (Separate cfg hash s a)
  | .perfEvent ctx =>
    inferInstanceAs (Decidable (recorded cfg ctx = true →
      ∀ stack ∈ ctx.takenStacks cfg, walked stack = true ∧
        (∀ old ∈ s.stackmap (bucketOf hash stack), hash old = hash stack → old = stack) ∧
        ∀ other ∈ s.ring.flatMap Record.storedStacks ++ ctx.takenStacks cfg,
          bucketOf hash other = bucketOf hash stack → other = stack))
  | .consume _ => .isTrue trivial

def Intact (m : Stackmap) (r : Record) : Prop :=
  Stored hash m r.event.ustackId r.user ∧ Stored hash m r.event.kstackId r.kernel

def AllIntact (s : State) : Prop := ∀ r ∈ s.ring, Intact hash s.stackmap r

end Ring

section Steps
variable {cfg : Config} {hash hashCallstack : List ℕ → ℕ} {streamId : ℕ} {s : State}

theorem profilerPerfEvent_of_recorded {ctx : Context} (h : recorded cfg ctx = true)
    (m : Stackmap) :
    profilerPerfEvent hash cfg ctx m =
      (some ⟨ctx.now, ctx.tgid, ctx.pid, ctx.cpu,
        (collect hash cfg.collectUstack ctx.userStack m).1,
        (collect hash cfg.collectKstack ctx.kernelStack
          (collect hash cfg.collectUstack ctx.userStack m).2).1⟩,
        (collect hash cfg.collectKstack ctx.kernelStack
          (collect hash cfg.collectUstack ctx.userStack m).2).2) := by
  obtain ⟨⟨hpid, hfilter⟩, hroom⟩ : (ctx.pid ≠ 0 ∧ applyTgidFilter cfg ctx = false) ∧
      ctx.room = true := by simpa [recorded] using h
  simp [profilerPerfEvent, hpid, hfilter, hroom]

theorem profilerPerfEvent_of_not_recorded {ctx : Context} (h : ¬ recorded cfg ctx = true)
    (m : Stackmap) : profilerPerfEvent hash cfg ctx m = (none, m) := by
  unfold profilerPerfEvent
  split_ifs with hpid hfilter hroom
  · rfl
  · rfl
  · rfl
  · exact absurd (by simp_all [recorded]) h

/-- A new record finds its stacks. -/
theorem intact_new {m : Stackmap} {ctx : Context} {waiting : List (List ℕ)}
    (h : ∀ stack ∈ ctx.takenStacks cfg, walked stack = true ∧
      (∀ old, m (bucketOf hash stack) = some old → hash old = hash stack → old = stack) ∧
      ∀ other ∈ waiting ++ ctx.takenStacks cfg,
        bucketOf hash other = bucketOf hash stack → other = stack) :
    let u := collect hash cfg.collectUstack ctx.userStack m
    let k := collect hash cfg.collectKstack ctx.kernelStack u.2
    Stored hash k.2 u.1 (collected cfg.collectUstack ctx.userStack) ∧
      Stored hash k.2 k.1 (collected cfg.collectKstack ctx.kernelStack) := by
  intro u k
  have hsame : ∀ stack ∈ ctx.takenStacks cfg, ∀ other ∈ ctx.takenStacks cfg,
      bucketOf hash other = bucketOf hash stack → other = stack :=
    fun stack hs other ho => (h stack hs).2.2 other (List.mem_append_right _ ho)
  have huser : Stored hash u.2 u.1 (collected cfg.collectUstack ctx.userStack) :=
    stored_collect fun stack hs =>
      ⟨(h stack (List.mem_append_left _ hs)).1, (h stack (List.mem_append_left _ hs)).2.1⟩
  constructor
  · refine huser.collect fun stack hs hid => ?_
    exact hsame stack (List.mem_append_right _ hs) _
      (List.mem_append_left _ (mem_taken_of_collect hid))
  · refine stored_collect fun stack hs => ⟨(h stack (List.mem_append_right _ hs)).1, ?_⟩
    intro old hold heq
    rcases collect_bucket hold with hbefore | ⟨htaken, hbucket⟩
    · exact (h stack (List.mem_append_right _ hs)).2.1 old hbefore heq
    · exact hsame stack (List.mem_append_right _ hs) old (List.mem_append_left _ htaken) hbucket

/-- A record that waits keeps its stacks. -/
theorem Intact.perfEvent {m : Stackmap} {r : Record} (h : Intact hash m r) {ctx : Context}
    (hsep : ∀ stack ∈ ctx.takenStacks cfg, ∀ other ∈ r.storedStacks,
      bucketOf hash other = bucketOf hash stack → other = stack) :
    Intact hash (collect hash cfg.collectKstack ctx.kernelStack
      (collect hash cfg.collectUstack ctx.userStack m).2).2 r := by
  have huser : ∀ stack ∈ ctx.takenStacks cfg, 0 ≤ r.event.ustackId →
      bucketOf hash r.user = bucketOf hash stack → r.user = stack :=
    fun stack hstack hid => hsep stack hstack r.user (by simp [Record.storedStacks, hid])
  have hkernel : ∀ stack ∈ ctx.takenStacks cfg, 0 ≤ r.event.kstackId →
      bucketOf hash r.kernel = bucketOf hash stack → r.kernel = stack :=
    fun stack hstack hid => hsep stack hstack r.kernel (by simp [Record.storedStacks, hid])
  constructor
  · exact (h.1.collect fun stack hs => huser stack (List.mem_append_left _ hs)).collect
      fun stack hs => huser stack (List.mem_append_right _ hs)
  · exact (h.2.collect fun stack hs => hkernel stack (List.mem_append_left _ hs)).collect
      fun stack hs => hkernel stack (List.mem_append_right _ hs)

theorem AllIntact.step (h : AllIntact hash s) {a : Act} (hsep : Separate cfg hash s a) :
    AllIntact hash ((profiler cfg hash hashCallstack streamId).step s a).1 := by
  cases a with
  | consume x =>
    cases hring : s.ring with
    | nil =>
      rw [step_consume_nil hring]
      exact h
    | cons r ring =>
      rw [step_consume_cons hring]
      intro r' hr'
      apply h r'
      rw [hring]
      exact List.mem_cons_of_mem r hr'
  | perfEvent ctx =>
    by_cases hrec : recorded cfg ctx = true
    · have hstacks := hsep hrec
      intro r hr
      simp only [profiler, profilerPerfEvent_of_recorded hrec, Option.map_some,
        Option.toList_some] at hr ⊢
      rcases List.mem_append.mp hr with hold | hnew
      · refine (h r hold).perfEvent fun stack hstack other hother => ?_
        exact (hstacks stack hstack).2.2 other
          (List.mem_append_left _ (List.mem_flatMap.mpr ⟨r, hold, hother⟩))
      · rw [List.mem_singleton.mp hnew]
        exact intact_new hstacks
    · simpa [profiler, profilerPerfEvent_of_not_recorded hrec] using h

theorem run_intact {acts : List Act}
    (hsep : (profiler cfg hash hashCallstack streamId).Meets (Separate cfg hash) .new acts) :
    AllIntact hash ((profiler cfg hash hashCallstack streamId).final .new acts) := by
  refine Machine.invariant (fun s a h hsep => h.step hsep) ?_ hsep
  simp [AllIntact, State.new]

end Steps

/-! ## The packets of the samples -/

/-- The samples as they are consumed, with the answers of blazesym. Those that are recorded wait
in line. -/
def sampling (cfg : Config) : Machine (List Context) Act (Context × Answers) where
  step queue
    | .perfEvent ctx => (if recorded cfg ctx then queue ++ [ctx] else queue, [])
    | .consume x =>
      match queue with
      | [] => ([], [])
      | ctx :: queue => (queue, [(ctx, x)])

/-- The call of the symbolizer with the stacks that were on the thread. -/
def Context.request (cfg : Config) (ctx : Context) (x : Answers) : Request where
  pid := asI32 ctx.tgid
  userAddresses := collected cfg.collectUstack ctx.userStack
  kernelAddresses := collected cfg.collectKstack ctx.kernelStack
  userResult := x.userResult
  kernelResult := x.kernelResult

def requests (cfg : Config) (rs : List (Context × Answers)) : List Request :=
  rs.map fun p => p.1.request cfg p.2

/-- The definitions in a sequence of packets. -/
def definitions (ps : List TracePacket) : List InternedData :=
  ps.filterMap fun p =>
    match p.data with
    | .internedData d _ => some d
    | _ => none

def definitionPacket (id : ℕ) (d : InternedData) : TracePacket :=
  { data := .internedData d (if d.continuation then .seqNeedsIncrementalState
      else .seqIncrementalStateCleared)
    trustedPacketSequenceId := id }

def samplePacket (id : ℕ) (ctx : Context) (callstackIid : ℕ) : TracePacket :=
  { data := .perfSample ⟨ctx.cpu, ctx.tgid.toNat, ctx.pid.toNat, callstackIid, 1⟩
    timestamp := some ctx.now
    trustedPid := some (asI32 ctx.tgid)
    trustedPacketSequenceId := id }

/-- The packets that show the samples, one after the other: nothing for a sample that cannot be
symbolized, and otherwise what is new about its stack and then the sample. What is defined by
then gives its frames, those of the user from the outermost on and then those of the kernel as
they were collected, with the names found when they were first seen. Only the first definitions
clear the state of the sequence. -/
inductive ShowsSamples (cfg : Config) (id : ℕ) :
    List (Context × Answers) → List TracePacket → Prop
  | nil : ShowsSamples cfg id [] []
  | skipped {rs : List (Context × Answers)} {ps : List TracePacket} {ctx : Context} {x : Answers}
    (h : ShowsSamples cfg id rs ps) (hnot : ¬ (ctx.request cfg x).Answerable) :
    ShowsSamples cfg id (rs ++ [(ctx, x)]) ps
  | shown {rs : List (Context × Answers)} {ps : List TracePacket} {ctx : Context} {x : Answers}
    {new : Option InternedData} {iid : ℕ} (h : ShowsSamples cfg id rs ps)
    (hsome : (ctx.request cfg x).Answerable)
    (hcleared : ∀ d, new = some d → (d.continuation = false ↔ definitions ps = []))
    (hresolves : (dictionary (definitions ps ++ new.toList)).resolve iid =
      some ((ctx.request cfg x).keys.map fun k =>
        (k.2, firstName ((requests cfg (rs ++ [(ctx, x)])).flatMap Request.sightings) k))) :
    ShowsSamples cfg id (rs ++ [(ctx, x)])
      (ps ++ (new.toList.map (definitionPacket id) ++ [samplePacket id ctx iid]))

section Packets
variable {cfg : Config} {streamId : ℕ}

theorem requests_concat (rs : List (Context × Answers)) (ctx : Context) (x : Answers) :
    requests cfg (rs ++ [(ctx, x)]) = requests cfg rs ++ [ctx.request cfg x] :=
  List.map_append

theorem definitions_append (ps ps' : List TracePacket) :
    definitions (ps ++ ps') = definitions ps ++ definitions ps' :=
  List.filterMap_append

theorem definitions_told (new : Option InternedData) (id : ℕ) (ctx : Context) (iid : ℕ) :
    definitions (new.toList.map (definitionPacket id) ++ [samplePacket id ctx iid]) =
      new.toList := by
  cases new <;> rfl

theorem asU32_asI32 (n : UInt32) : asU32 (asI32 n) = n.toNat := by
  have hmod : asI32 n = (n.toNat : ℤ).bmod (2 ^ 32) := BitVec.toInt_eq_toNat_bmod n.toBitVec
  have hrem : (n.toNat : ℤ).bmod (2 ^ 32) % ((2 ^ 32 : ℕ) : ℤ) = n.toNat % ((2 ^ 32 : ℕ) : ℤ) :=
    Int.bmod_emod
  have hlt := n.toNat_lt
  unfold asU32
  rw [hmod]
  omega

/-- The record was made of the sample. -/
structure Records (cfg : Config) (ctx : Context) (r : Record) : Prop where
  timestamp : r.event.timestamp = ctx.now
  tgid : r.event.tgid = ctx.tgid
  pid : r.event.pid = ctx.pid
  cpuId : r.event.cpuId = ctx.cpu
  user : r.user = collected cfg.collectUstack ctx.userStack
  kernel : r.kernel = collected cfg.collectKstack ctx.kernelStack

/-- The definitions come before the sample that needs them. -/
theorem Records.streamed_stackMessages {ctx : Context} {r : Record} (h : Records cfg ctx r)
    (callstackIid : ℕ) (data : Option InternedData) :
    (stackMessages streamId r.event false callstackIid data).filterMap (streamed streamId) =
      data.toList.map (definitionPacket streamId) ++
        [samplePacket streamId ctx callstackIid] := by
  have hsample : streamed streamId ⟨.sample (createSample r.event callstackIid), some streamId⟩ =
      some (samplePacket streamId ctx callstackIid) := by
    simp [streamed, createSample, samplePacket, asU32_asI32, h.timestamp, h.tgid, h.pid, h.cpuId]
  cases data with
  | none => simp [stackMessages, hsample]
  | some d =>
    have hdata : streamed streamId ⟨.internedData d, some streamId⟩ =
        some (definitionPacket streamId d) := by
      simp [streamed, definitionPacket]
    simp [stackMessages, hsample, hdata]

end Packets

/-! ## Whole runs -/

section Runs
variable {cfg : Config} {hash hashCallstack : List ℕ → ℕ} {streamId : ℕ}

theorem emitted_append (os os' : List (Except SymbolizerError Answer)) :
    emitted (os ++ os') = emitted os ++ emitted os' := by
  simp [emitted, answers, List.filterMap_append]

/-- The symbolizer is asked for the stacks of the sample. -/
theorem requestOf_eq {m : Stackmap} {r : Record} {ctx : Context} (hintact : Intact hash m r)
    (h : Records cfg ctx r) (x : Answers) :
    requestOf m r.event x =
      if (ctx.request cfg x).userAddresses.isEmpty && (ctx.request cfg x).kernelAddresses.isEmpty
      then none else some (ctx.request cfg x) := by
  unfold requestOf
  rw [hintact.1.framesOf, hintact.2.framesOf, h.user, h.kernel, h.tgid]
  rfl

section Callback
variable {m : Stackmap} {r : Record} {ctx : Context} {x : Answers}

theorem callback_unanswered (hintact : Intact hash m r) (h : Records cfg ctx r)
    {e : SymbolizerError} (he : symbolize (ctx.request cfg x) = .error e) (c : InternedCache) :
    callback hashCallstack streamId m r.event x c = (c, []) := by
  have hreq := requestOf_eq hintact h x
  split_ifs at hreq
  · exact callback_none hreq
  · exact callback_error hreq he

theorem callback_answered (hintact : Intact hash m r) (h : Records cfg ctx r) {i : Interned}
    (hi : symbolize (ctx.request cfg x) = .ok i) (c : InternedCache) :
    callback hashCallstack streamId m r.event x c = ((i.data hashCallstack c).2,
      stackMessages streamId r.event x.refused (i.data hashCallstack c).1.1
        (i.data hashCallstack c).1.2) := by
  have hreq := requestOf_eq hintact h x
  split_ifs at hreq with hempty
  · simp [symbolize, hempty] at hi
  · exact callback_ok hreq hi

end Callback

/-- The messages so far show the samples that were consumed, and the rest waits. -/
structure Followed (cfg : Config) (hashCallstack : List ℕ → ℕ) (streamId : ℕ) (s : State)
    (queue : List Context) (rs : List (Context × Answers)) (ms : List Message) : Prop where
  ring : List.Forall₂ (Records cfg) queue s.ring
  cache : s.cache = (symbolizer hashCallstack).final .new (requests cfg rs)
  defined : definitions (ms.filterMap (streamed streamId)) =
    emitted ((symbolizer hashCallstack).outputs .new (requests cfg rs))
  shown : ShowsSamples cfg streamId rs (ms.filterMap (streamed streamId))

namespace Followed
variable {s : State} {queue : List Context} {rs : List (Context × Answers)} {ms : List Message}
  (h : Followed cfg hashCallstack streamId s queue rs ms)
include h

theorem perfEvent (ctx : Context) :
    Followed cfg hashCallstack streamId
      ((profiler cfg hash hashCallstack streamId).step s (.perfEvent ctx)).1
      ((sampling cfg).step queue (.perfEvent ctx)).1 rs ms := by
  refine ⟨?_, h.cache, h.defined, h.shown⟩
  by_cases hrec : recorded cfg ctx = true
  · simp only [profiler, sampling, profilerPerfEvent_of_recorded hrec, if_pos hrec,
      Option.map_some, Option.toList_some]
    exact List.rel_append h.ring (.cons ⟨rfl, rfl, rfl, rfl, rfl, rfl⟩ .nil)
  · simpa [profiler, sampling, profilerPerfEvent_of_not_recorded hrec, hrec] using h.ring

/-- A sample that cannot be symbolized. -/
theorem unanswered {record : Record} {ring : List Record} (hring : s.ring = record :: ring)
    {ctx : Context} {rest : List Context} (hqueue : queue = ctx :: rest) {x : Answers}
    (hintact : Intact hash s.stackmap record) {e : SymbolizerError}
    (he : symbolize (ctx.request cfg x) = .error e) (hone : (ctx.request cfg x).OnePerAddress) :
    Followed cfg hashCallstack streamId
      ((profiler cfg hash hashCallstack streamId).step s (.consume x)).1 rest (rs ++ [(ctx, x)])
      (ms ++ ((profiler cfg hash hashCallstack streamId).step s (.consume x)).2) := by
  subst hqueue
  have hrings := h.ring
  rw [hring] at hrings
  obtain ⟨hrecord, hrest⟩ := List.forall₂_cons.mp hrings
  rw [step_consume_cons hring, callback_unanswered hintact hrecord he, List.append_nil]
  have hnot : ¬ (ctx.request cfg x).Answerable := by
    rw [← symbolize_ok_iff hone, he]
    simp
  refine ⟨hrest, ?_, ?_, h.shown.skipped hnot⟩
  · rw [requests_concat, Machine.final_append, ← h.cache]
    simp [step_error _ he]
  · rw [h.defined, requests_concat, Machine.outputs_append, ← h.cache, emitted_append]
    simp [step_error _ he, emitted, answers, Except.toOption]

/-- A stack that is symbolized: what is new is told first, and then the sample resolves. -/
theorem answered {record : Record} {ring : List Record} (hring : s.ring = record :: ring)
    {ctx : Context} {rest : List Context} (hqueue : queue = ctx :: rest) {x : Answers}
    (hintact : Intact hash s.stackmap record) (hrefused : x.refused = false) {i : Interned}
    (hi : symbolize (ctx.request cfg x) = .ok i) (hone : (ctx.request cfg x).OnePerAddress)
    (hcol : NoCollision hashCallstack
      ((symbolizer hashCallstack).outputs .new (requests cfg (rs ++ [(ctx, x)])))) :
    Followed cfg hashCallstack streamId
      ((profiler cfg hash hashCallstack streamId).step s (.consume x)).1 rest (rs ++ [(ctx, x)])
      (ms ++ ((profiler cfg hash hashCallstack streamId).step s (.consume x)).2) := by
  subst hqueue
  have hrings := h.ring
  rw [hring] at hrings
  obtain ⟨hrecord, hrest⟩ := List.forall₂_cons.mp hrings
  have hstep : (symbolizer hashCallstack).step s.cache (ctx.request cfg x) =
      ((i.data hashCallstack s.cache).2, [.ok (i.answer hashCallstack s.cache)]) := step_ok _ hi
  have hemitted : emitted ((symbolizer hashCallstack).outputs .new
      (requests cfg (rs ++ [(ctx, x)]))) =
      definitions (ms.filterMap (streamed streamId)) ++
        (i.data hashCallstack s.cache).1.2.toList := by
    rw [requests_concat, Machine.outputs_append, ← h.cache, emitted_append, h.defined]
    congr 1
    simp only [Machine.outputs_cons, Machine.outputs_nil, hstep]
    cases hd : (i.data hashCallstack s.cache).1.2 <;>
      simp [emitted, answers, Except.toOption, Interned.answer, hd]
  have hcont := (run_inv hashCallstack _ hcol).continuation
  rw [hemitted] at hcont
  rw [requests_concat] at hcol
  have hresolves := resolves_last (a := i.answer hashCallstack s.cache) hone hcol (by
    rw [← h.cache, hstep]
    simp)
  rw [← requests_concat, hemitted] at hresolves
  have hsome : (ctx.request cfg x).Answerable := (symbolize_ok_iff hone).mp ⟨i, hi⟩
  rw [step_consume_cons hring, callback_answered hintact hrecord hi, hrefused]
  refine ⟨hrest, ?_, ?_, ?_⟩
  · rw [requests_concat, Machine.final_append, ← h.cache]
    simp [hstep]
  · rw [List.filterMap_append, hrecord.streamed_stackMessages, definitions_append,
      definitions_told, hemitted]
  · rw [List.filterMap_append, hrecord.streamed_stackMessages]
    refine h.shown.shown hsome (fun d hd => ?_) hresolves
    -- definitions clear the state exactly if there are none before
    rw [hcont (definitions (ms.filterMap (streamed streamId))).length d (by simp [hd]),
      List.length_eq_zero_iff]

theorem consume {x : Answers} (hintact : AllIntact hash s) (hrefused : x.refused = false)
    (hone : ∀ p ∈ ((sampling cfg).step queue (.consume x)).2, (p.1.request cfg p.2).OnePerAddress)
    (hcol : NoCollision hashCallstack ((symbolizer hashCallstack).outputs .new
      (requests cfg (rs ++ ((sampling cfg).step queue (.consume x)).2)))) :
    Followed cfg hashCallstack streamId
      ((profiler cfg hash hashCallstack streamId).step s (.consume x)).1
      ((sampling cfg).step queue (.consume x)).1
      (rs ++ ((sampling cfg).step queue (.consume x)).2)
      (ms ++ ((profiler cfg hash hashCallstack streamId).step s (.consume x)).2) := by
  cases queue with
  | nil =>
    have hempty : s.ring = [] := by
      have hring := h.ring
      rw [List.forall₂_nil_left_iff] at hring
      exact hring
    rw [step_consume_nil hempty]
    simpa [sampling] using h
  | cons ctx rest =>
    obtain ⟨record, ring, hrecord, -, hring⟩ := List.forall₂_cons_left_iff.mp h.ring
    have hstored := hintact record (by rw [hring]; exact List.mem_cons_self)
    have hone' := hone (ctx, x) (by simp [sampling])
    cases hi : symbolize (ctx.request cfg x) with
    | error e => exact h.unanswered hring rfl hstored hi hone'
    | ok i => exact h.answered hring rfl hstored hrefused hi hone' hcol

end Followed

theorem run_followed {acts : List Act}
    (hsep : (profiler cfg hash hashCallstack streamId).Meets (Separate cfg hash) .new acts)
    (hrefused : ∀ x, .consume x ∈ acts → x.refused = false)
    (hone : ∀ p ∈ (sampling cfg).outputs [] acts, (p.1.request cfg p.2).OnePerAddress)
    (hcol : NoCollision hashCallstack ((symbolizer hashCallstack).outputs .new
      (requests cfg ((sampling cfg).outputs [] acts)))) :
    Followed cfg hashCallstack streamId
      ((profiler cfg hash hashCallstack streamId).final .new acts)
      ((sampling cfg).final [] acts) ((sampling cfg).outputs [] acts)
      ((profiler cfg hash hashCallstack streamId).outputs .new acts) := by
  induction acts using List.reverseRecOn with
  | nil => exact ⟨.nil, rfl, rfl, .nil⟩
  | append_singleton acts a ih =>
    obtain ⟨hbefore, -⟩ := (Machine.meets_append _ _ _ _ _).mp hsep
    rw [Machine.outputs_append] at hone hcol
    have h := ih hbefore (fun x hx => hrefused x (List.mem_append_left _ hx))
      (fun p hp => hone p (List.mem_append_left _ hp)) (by
        rw [requests, List.map_append, Machine.outputs_append] at hcol
        exact hcol.of_append)
    simp only [Machine.final_append, Machine.outputs_append, Machine.final_cons,
      Machine.final_nil, Machine.outputs_cons, Machine.outputs_nil, List.append_nil]
      at hone hcol ⊢
    cases a with
    | perfEvent ctx =>
      have hnone : ∀ q, ((sampling cfg).step q (.perfEvent ctx)).2 = [] := fun _ => rfl
      have hsilent : ∀ s, ((profiler cfg hash hashCallstack streamId).step s
        (.perfEvent ctx)).2 = [] := fun _ => rfl
      rw [hnone, hsilent, List.append_nil, List.append_nil]
      exact h.perfEvent ctx
    | consume x =>
      exact h.consume (run_intact hbefore) (hrefused x (by simp))
        (fun p hp => hone p (List.mem_append_right _ hp)) hcol

end Runs

/-- If no stack is put over that of a record which waits, the packets of the profiler's sequence
show every sample that is consumed and can be symbolized: on its thread, at its time, and with
its frames. Other messages may come in between, and may fail. -/
theorem samples_show_own_stacks (cfg : Config) (hash hashCallstack : List ℕ → ℕ) (streamId : ℕ)
    (hid : streamId ≠ sharedSequence) (acts : List Act)
    (hsep : (profiler cfg hash hashCallstack streamId).Meets (Separate cfg hash) .new acts)
    (hrefused : ∀ x, .consume x ∈ acts → x.refused = false)
    (hone : ∀ p ∈ (sampling cfg).outputs [] acts, (p.1.request cfg p.2).OnePerAddress)
    (hcol : NoCollision hashCallstack ((symbolizer hashCallstack).outputs .new
      (requests cfg ((sampling cfg).outputs [] acts))))
    (io : ℕ → Bool) (messages : List Message)
    (htold : messages.filter (fun m => m.streamId = some streamId) =
      (profiler cfg hash hashCallstack streamId).outputs .new acts)
    (hwritten : StreamWritten io streamId .new messages) :
    ShowsSamples cfg streamId ((sampling cfg).outputs [] acts)
      (sequencePackets streamId ((converter io).final .new messages)) := by
  have hpackets : sequencePackets streamId ((converter io).final .new messages) =
      ((profiler cfg hash hashCallstack streamId).outputs .new acts).filterMap
        (streamed streamId) := by
    rw [run_sequence io hid hwritten, ← htold, ← filterMap_streamed]
    rfl
  rw [hpackets]
  exact (run_followed hsep hrefused hone hcol).shown

/-- Two samples wait in the ring buffer before the first is consumed. -/
def twoSamples : List Act :=
  let ctx (now : ℕ) (stack : List ℕ) : Context := ⟨now, 5, 6, 0, [], some stack, none, true⟩
  [.perfEvent (ctx 10 [16, 32]), .perfEvent (ctx 20 [48, 32]),
    .consume ⟨.ok [some "leaf", some "main"], .ok [], false⟩,
    .consume ⟨.ok [none, some "main"], .ok [], false⟩]

def twoSamplesProfiler : Machine State Act Message :=
  profiler ⟨false, true, false⟩ sampledHash sampledHash 1

/-- The messages of the two samples, with a span of another producer in between. -/
def twoSamplesMessages : List Message :=
  let told := twoSamplesProfiler.outputs .new twoSamples
  told.take 1 ++ ⟨.span ⟨"work", 1, 5, 9, .thread 7 3, ⟨[], [], [], []⟩⟩, none⟩ :: told.drop 1

set_option maxRecDepth 4000 in
theorem samples_show_own_stacks_twoSamples :
    let ps := sequencePackets 1 ((converter fun _ => true).final .new twoSamplesMessages)
    ShowsSamples ⟨false, true, false⟩ 1 ((sampling ⟨false, true, false⟩).outputs [] twoSamples) ps ∧
      ps.map TracePacket.timestamp = [none, some 10, none, some 20] ∧
      [0, 1].map (dictionary (definitions ps)).resolve =
        [some [(32, "main"), (16, "leaf")], some [(32, "main"), (48, "<unknown>")]] :=
  ⟨samples_show_own_stacks ⟨false, true, false⟩ sampledHash sampledHash 1 (by decide) twoSamples
    (by decide) (by simp [twoSamples])
    (by simp [twoSamples, sampling, recorded, applyTgidFilter, Context.request, collected,
      Request.OnePerAddress])
    (by unfold NoCollision; decide +kernel) (fun _ => true) twoSamplesMessages
    (by decide +kernel) (by unfold StreamWritten; decide +kernel), by decide +kernel,
    by decide +kernel⟩

end Manytrace.Bpf.Profiler
