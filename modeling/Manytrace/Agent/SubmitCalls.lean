import Manytrace.Agent.SubmitEvent

/-! The steps of a thread that submits an event: where each of them leaves the call, and what it
commits. -/
namespace Manytrace.Agent
open Manytrace.Core Manytrace.Mpscbuf Manytrace.Protocol

variable {ι : Type*}

/-- A `reserve` of `n` bytes is under way. -/
def ProducerPc.Reserving (n : ℕ) : ProducerPc → Prop
  | .loadedConsumer size _ _ | .locked size _ _ | .admitted size _ _ | .headerWritten size _ _
  | .published size _ => size = n
  | .refused _ => True
  | _ => False

/-- Where a thread and its reservation are in the submission of an event. The stores that are
left will complete the serialization. -/
inductive CallOk : SubmitPc → ProducerPc → Option Serializer → Prop
  | idle : CallOk .idle .idle none
  | reserving {v : Serializer} {n : ℕ} {pc : ProducerPc}
    (hlength : computeLength .checked v = some n) (hpc : ProducerPc.Reserving n pc) :
    CallOk (.reserving (.ofEvent v) none) pc (some v)
  | serializing {v : Serializer} {b : ReservedBuffer} {stores : List (ℕ × UInt8)}
    (hinside : ∀ st ∈ stores, st.1 < b.size)
    (hstores : stores.foldl applyStore b.bytes = serialization v) :
    CallOk (.serializing stores true none) (.owning b) (some v)
  | committing {v : Serializer} {b : ReservedBuffer} (hbytes : b.bytes = serialization v) :
    CallOk (.dropping true none) (.committing b) (some v)
  | commitLoaded {v : Serializer} {b : ReservedBuffer} {current : ℕ}
    (hbytes : b.bytes = serialization v) :
    CallOk (.dropping true none) (.commitLoaded b current) (some v)
  | notifying {v : Serializer} : CallOk (.dropping true none) .notifying (some v)

theorem CallOk.coupled {th : SubmitPc} {pc : ProducerPc} {event : Option Serializer}
    (h : CallOk th pc event) : Coupled th pc = true := by
  cases h with
  | @reserving v n pc hlength hpc =>
    cases pc with
    | idle | owning | discarding | discarded | committing | commitLoaded | notifying => cases hpc
    | _ => rfl
  | _ => rfl

/-- The record of a call that is committed and has not returned yet. -/
def unreturned : ProducerPc → Option Serializer → List (List UInt8)
  | .notifying, some v => [serialization v]
  | _, _ => []

section Lists
variable [DecidableEq ι] (p : ι)

/-- The payloads that `p` has committed. -/
def committedBy (os : List (CallEvent ι)) : List (List UInt8) :=
  os.filterMap fun
    | .ring (.committed q _ payload) => if q = p then some payload else none
    | _ => none

/-- The serializations of the events for which `submit` has returned `Ok` to `p`. -/
def submittedBy (os : List (CallEvent ι)) : List (List UInt8) :=
  os.filterMap fun
    | .returned q v true => if q = p then some (serialization v) else none
    | _ => none

theorem committedBy_append (os os' : List (CallEvent ι)) :
    committedBy p (os ++ os') = committedBy p os ++ committedBy p os' :=
  List.filterMap_append

theorem submittedBy_append (os os' : List (CallEvent ι)) :
    submittedBy p (os ++ os') = submittedBy p os ++ submittedBy p os' :=
  List.filterMap_append

end Lists

/-- What a step of `p` does to the calls. -/
structure SubmitStep [DecidableEq ι] (s : Calling ι) (p : ι)
    (r : Calling ι × List (CallEvent ι)) : Prop where
  threads : ∀ q, q ≠ p → r.1.sub.threads q = s.sub.threads q
  procs : ∀ q, q ≠ p → r.1.sub.ring.procs q = s.sub.ring.procs q
  event : ∀ q, q ≠ p → r.1.event q = s.event q
  others : ∀ q, q ≠ p → committedBy q r.2 = [] ∧ submittedBy q r.2 = []
  call : CallOk (r.1.sub.threads p) (r.1.sub.ring.procs p) (r.1.event p)
  settled : unreturned (s.sub.ring.procs p) (s.event p) ++ committedBy p r.2 =
    submittedBy p r.2 ++ unreturned (r.1.sub.ring.procs p) (r.1.event p)

section Steps
variable [DecidableEq ι] {M : Memory} {wakeup : ι → WakeupStrategy} {s : Calling ι} {p : ι}
  {r : Submitting ι × List (Act ι)} {evs : List (Event ι)}

/-- An event of a step of `p`. -/
def Event.OfProducer (p : ι) : Event ι → Prop
  | .reserved q _ _ | .failed q _ | .committed q _ _ | .discarded q _ => q = p
  | .returned _ => False

theorem committedBy_ring_of_ne {q : ι} (hq : q ≠ p) (h : ∀ e ∈ evs, Event.OfProducer p e) :
    committedBy q (evs.map .ring) = [] := by
  unfold committedBy
  rw [List.filterMap_map, List.filterMap_eq_nil_iff]
  intro e he
  have hp := h e he
  cases e with
  | committed q' pos bs =>
    obtain rfl : q' = p := hp
    simp [hq.symm]
  | _ => rfl

theorem submittedBy_ring (q : ι) (evs : List (Event ι)) :
    submittedBy q (evs.map .ring) = [] := by
  unfold submittedBy
  rw [List.filterMap_map, List.filterMap_eq_nil_iff]
  intro e _
  rfl

theorem record_going {event : Option Serializer}
    (h : event = none ∨ r.1.threads p ≠ .idle) :
    s.record M wakeup p event r = (⟨r.1, Function.update s.event p event⟩,
      ((ringBuf M wakeup).outputs s.sub.ring r.2).map .ring) := by
  unfold Calling.record
  split
  · next hidle =>
    rcases h with h | h
    · cases h
    · exact absurd hidle h
  · rfl

theorem record_returned {v : Serializer} (h : r.1.threads p = .idle) :
    s.record M wakeup p (some v) r = (⟨r.1, Function.update s.event p none⟩,
      ((ringBuf M wakeup).outputs s.sub.ring r.2).map .ring ++
        [.returned p v (s.sub.threads p).succeeds]) := by
  simp only [Calling.record, h]

/-- The ring part of a step of `p`, and where it leaves `p`. -/
structure ProducerRun (M : Memory) (wakeup : ι → WakeupStrategy) (s : Calling ι) (p : ι)
    (r : Submitting ι × List (Act ι)) (th : SubmitPc) (pc : ProducerPc) (evs : List (Event ι)) :
    Prop where
  threads : ∀ q, q ≠ p → r.1.threads q = s.sub.threads q
  procs : ∀ q, q ≠ p → r.1.ring.procs q = s.sub.ring.procs q
  thread : r.1.threads p = th
  proc : r.1.ring.procs p = pc
  events : (ringBuf M wakeup).outputs s.sub.ring r.2 = evs
  own : ∀ e ∈ evs, Event.OfProducer p e

theorem ProducerRun.going {th : SubmitPc} {pc : ProducerPc} {event : Option Serializer}
    (h : ProducerRun M wakeup s p r th pc evs) (hgoing : event = none ∨ th ≠ .idle)
    (hcall : CallOk th pc event)
    (hsettled : unreturned (s.sub.ring.procs p) (s.event p) ++ committedBy p (evs.map .ring) =
      unreturned pc event) :
    SubmitStep s p (s.record M wakeup p event r) := by
  rw [record_going (by rw [h.thread]; exact hgoing), h.events]
  refine ⟨h.threads, h.procs, fun q hq => Function.update_of_ne hq _ _, fun q hq => ?_, ?_, ?_⟩
  · exact ⟨committedBy_ring_of_ne hq h.own, submittedBy_ring q evs⟩
  · dsimp only
    rw [h.thread, h.proc, Function.update_self]
    exact hcall
  · dsimp only
    rw [h.proc, Function.update_self, submittedBy_ring, List.nil_append]
    exact hsettled

theorem ProducerRun.returned {v : Serializer} (h : ProducerRun M wakeup s p r .idle .idle evs)
    (hsettled : unreturned (s.sub.ring.procs p) (s.event p) ++ committedBy p (evs.map .ring) =
      if (s.sub.threads p).succeeds then [serialization v] else []) :
    SubmitStep s p (s.record M wakeup p (some v) r) := by
  rw [record_returned h.thread, h.events]
  refine ⟨h.threads, h.procs, fun q hq => Function.update_of_ne hq _ _, fun q hq => ?_, ?_, ?_⟩
  · rw [committedBy_append, submittedBy_append, committedBy_ring_of_ne hq h.own,
      submittedBy_ring]
    cases (s.sub.threads p).succeeds <;> simp [committedBy, submittedBy, hq.symm]
  · dsimp only
    rw [h.thread, h.proc, Function.update_self]
    exact .idle
  · dsimp only
    rw [committedBy_append, submittedBy_append, submittedBy_ring, ← List.append_assoc, hsettled,
      h.proc, Function.update_self]
    cases (s.sub.threads p).succeeds <;> simp [committedBy, submittedBy, unreturned]

section Reserving
variable {v : Serializer} {n : ℕ} {timeout : Bool} {ring' : State ι} {a : ProducerAct}

/-- The steps of a thread that is in `reserve`. -/
theorem producerRun_reserving (timeout : Bool) {x : Submission}
    (hth : s.sub.threads p = .reserving x none)
    (ha : reserveAct timeout (s.sub.ring.procs p) = a)
    (hstep : producerStep M wakeup s.sub.ring p a = (ring', evs))
    (hown : ∀ e ∈ evs, Event.OfProducer p e) {th : SubmitPc} {pc : ProducerPc}
    (hthread : (s.sub.reserved p x none (ring', evs)).threads = Function.update s.sub.threads p th)
    (hproc : ring'.procs p = pc) :
    ProducerRun M wakeup s p ((submission M wakeup).step s.sub (.advance p timeout)) th pc evs := by
  have hadvance : (submission M wakeup).step s.sub (.advance p timeout) =
      (s.sub.reserved p x none (ring', evs), [.producer p a]) := by
    simp only [submission, Submitting.advance, hth, ha, hstep]
  have hring : (s.sub.reserved p x none (ring', evs)).ring = ring' := by
    unfold Submitting.reserved
    dsimp only
    split <;> rfl
  rw [hadvance]
  refine ⟨fun q hq => ?_, fun q hq => ?_, ?_, ?_, ?_, hown⟩
  · rw [hthread, Function.update_of_ne hq]
  · have hne : (producerStep M wakeup s.sub.ring p a).1.procs q = s.sub.ring.procs q :=
      producerStep_procs_of_ne a hq
    rw [hstep] at hne
    rw [hring]
    exact hne
  · rw [hthread, Function.update_self]
  · rw [hring, hproc]
  · simp only [Machine.outputs_cons, Machine.outputs_nil, List.append_nil]
    change (producerStep M wakeup s.sub.ring p a).2 = evs
    rw [hstep]

/-- The reservation goes on. -/
theorem submitStep_reserving_going (a : ProducerAct) (evs : List (Event ι)) (pc : ProducerPc)
    (hth : s.sub.threads p = .reserving (.ofEvent v) none)
    (hevent : s.event p = some v) (hlength : computeLength .checked v = some n)
    (ha : reserveAct timeout (s.sub.ring.procs p) = a)
    (hstep : producerStep M wakeup s.sub.ring p a = (ring', evs))
    (hown : ∀ e ∈ evs, Event.OfProducer p e) (hfailure : failure? evs = none)
    (hproc : ring'.procs p = pc) (hpc : ProducerPc.Reserving n pc)
    (hcommits : unreturned (s.sub.ring.procs p) (some v) ++ committedBy p (evs.map .ring) = []) :
    SubmitStep s p ((submitCalls M wakeup).step s (.advance p timeout)) := by
  have hthread : (s.sub.reserved p (.ofEvent v) none (ring', evs)).threads =
      Function.update s.sub.threads p (.reserving (.ofEvent v) none) := by
    rw [← hth, Function.update_eq_self]
    unfold Submitting.reserved
    simp only [hfailure, hproc]
    cases pc with
    | owning b => cases hpc
    | _ => rfl
  have hrun := producerRun_reserving timeout hth ha hstep hown hthread hproc
  refine hrun.going (Or.inr (by simp)) ?_ ?_
  · rw [hevent]
    exact .reserving hlength hpc
  · rw [hevent, hcommits]
    cases pc with
    | notifying => cases hpc
    | _ => rfl

/-- The reservation fails and the call returns. -/
theorem submitStep_reserving_failed {x : Submission} (hth : s.sub.threads p = .reserving x none)
    (hevent : s.event p = some v) (ha : reserveAct timeout (s.sub.ring.procs p) = a) {f : Failure}
    (hstep : producerStep M wakeup s.sub.ring p a = (ring', [.failed p f]))
    (hproc : ring'.procs p = .idle)
    (hcommits : unreturned (s.sub.ring.procs p) (some v) = []) :
    SubmitStep s p ((submitCalls M wakeup).step s (.advance p timeout)) := by
  have hthread : (s.sub.reserved p x none (ring', [.failed p f])).threads =
      Function.update s.sub.threads p .idle := by
    simp [Submitting.reserved, failure?, Submitting.fail, Submitting.setThread]
  have hrun := producerRun_reserving timeout hth ha hstep (by simp [Event.OfProducer]) hthread hproc
  change SubmitStep s p (s.record M wakeup p (s.event p) _)
  rw [hevent]
  refine hrun.returned ?_
  rw [hevent, hcommits, hth]
  simp [committedBy, SubmitPc.succeeds]

theorem threads_reserved_owning {s : Submitting ι} {x : Submission}
    {b : ReservedBuffer} (hproc : ring'.procs p = .owning b) :
    (s.reserved p x none (ring', [])).threads =
      Function.update s.threads p (.serializing x.stores x.serialized none) := by
  unfold Submitting.reserved
  simp only [failure?, List.findSome?_nil, hproc]
  rfl

/-- The reservation returns a buffer, which the second pass is going to fill. -/
theorem submitStep_reserving_owning (hth : s.sub.threads p = .reserving (.ofEvent v) none)
    (hevent : s.event p = some v) (hlength : computeLength .checked v = some n) {pp : ℕ}
    (hpc : s.sub.ring.procs p = .published n pp) :
    SubmitStep s p ((submitCalls M wakeup).step s (.advance p timeout)) := by
  obtain ⟨-, hserialized, hinside, hstores⟩ := ofEvent_spec hlength
  have hstep : producerStep M wakeup s.sub.ring p .unlock =
      ({ s.sub.ring.setPc p (.owning (newBuffer M s.sub.ring n pp)) with spinlock := none },
        []) := by
    simp only [producerStep, hpc]
  have hproc : ({ s.sub.ring.setPc p (.owning (newBuffer M s.sub.ring n pp)) with
      spinlock := none } : State ι).procs p = .owning (newBuffer M s.sub.ring n pp) :=
    Function.update_self ..
  have hthread := threads_reserved_owning (s := s.sub) (x := .ofEvent v) hproc
  rw [hserialized] at hthread
  have hrun := producerRun_reserving timeout hth (by rw [hpc]; rfl) hstep (by simp)
    hthread hproc
  refine hrun.going (Or.inr (by simp)) ?_ ?_
  · rw [hevent]
    exact .serializing hinside (hstores _ (by simp [newBuffer]))
  · rw [hevent, hpc]
    rfl

/-- Every step of a thread in `reserve`. -/
theorem submitStep_reserving (hth : s.sub.threads p = .reserving (.ofEvent v) none)
    (hevent : s.event p = some v) (hlength : computeLength .checked v = some n)
    (hres : ProducerPc.Reserving n (s.sub.ring.procs p)) (timeout : Bool) :
    SubmitStep s p ((submitCalls M wakeup).step s (.advance p timeout)) := by
  cases hpc : s.sub.ring.procs p with
  | loadedConsumer size total c =>
    rw [hpc] at hres
    cases timeout with
    | true =>
      exact submitStep_reserving_failed (a := .timeout) (f := .error .lockTimeout) hth hevent
        (by rw [hpc]; rfl) (by simp only [producerStep, hpc]; rfl)
        (by simp [State.setPc]) (by rw [hpc]; rfl)
    | false =>
      cases hlock : s.sub.ring.spinlock with
      | none =>
        exact submitStep_reserving_going .lock [] (.locked size total c) hth hevent hlength
          (by rw [hpc]; rfl) (by simp only [producerStep, hpc, hlock]; rfl) (by simp) rfl
          (by simp [State.setPc]) hres (by rw [hpc]; rfl)
      | some q =>
        exact submitStep_reserving_going .lock [] _ hth hevent hlength
          (by rw [hpc]; rfl) (by simp only [producerStep, hpc, hlock]) (by simp) rfl hpc hres
          (by rw [hpc]; rfl)
  | locked size total c =>
    rw [hpc] at hres
    cases hcheck : spaceCheck .checked M s.sub.ring.producer c total with
    | ok np =>
      exact submitStep_reserving_going .loadProducer [] (.admitted size s.sub.ring.producer np)
        hth hevent hlength (by rw [hpc]; rfl) (by simp only [producerStep, hpc, hcheck]; rfl)
        (by simp) rfl (by simp [State.setPc]) hres (by rw [hpc]; rfl)
    | error f =>
      exact submitStep_reserving_going .loadProducer [] (.refused f) hth hevent hlength
        (by rw [hpc]; rfl) (by simp only [producerStep, hpc, hcheck]; rfl) (by simp) rfl
        (by simp [State.setPc]) trivial (by rw [hpc]; rfl)
  | admitted size pp np =>
    rw [hpc] at hres
    exact submitStep_reserving_going .writeHeader [] (.headerWritten size pp np) hth hevent
      hlength (by rw [hpc]; rfl) (by simp only [producerStep, hpc]; rfl) (by simp) rfl
      (by simp [State.setPc]) hres (by rw [hpc]; rfl)
  | headerWritten size pp np =>
    rw [hpc] at hres
    exact submitStep_reserving_going .storeProducer [.reserved p pp size] (.published size pp)
      hth hevent hlength (by rw [hpc]; rfl) (by simp only [producerStep, hpc]; rfl)
      (by simp [Event.OfProducer]) rfl (by simp [State.setPc]) hres (by rw [hpc]; rfl)
  | published size pp =>
    rw [hpc] at hres
    obtain rfl : size = n := hres
    exact submitStep_reserving_owning hth hevent hlength hpc
  | refused f =>
    exact submitStep_reserving_failed (a := .unlock) (f := f) hth hevent (by rw [hpc]; rfl)
      (by simp only [producerStep, hpc]; rfl) (by simp [State.setPc]) (by rw [hpc]; rfl)
  | _ =>
    rw [hpc] at hres
    cases hres

end Reserving

section Finishing
variable {v : Serializer} {timeout : Bool} {ring' : State ι} {a : ProducerAct}

/-- A step of the ring by a thread that owns its buffer. -/
theorem producerRun_of_step (s' : Submitting ι) (th : SubmitPc) (pc : ProducerPc)
    (hstep : producerStep M wakeup s.sub.ring p a = (ring', evs))
    (hown : ∀ e ∈ evs, Event.OfProducer p e) (hring : s'.ring = ring')
    (hthread : s'.threads = Function.update s.sub.threads p th) (hproc : ring'.procs p = pc) :
    ProducerRun M wakeup s p (s', [.producer p a]) th pc evs := by
  have hne : ∀ q, q ≠ p → ring'.procs q = s.sub.ring.procs q := by
    intro q hq
    have hq' : (producerStep M wakeup s.sub.ring p a).1.procs q = s.sub.ring.procs q :=
      producerStep_procs_of_ne a hq
    rwa [hstep] at hq'
  refine ⟨fun q hq => ?_, fun q hq => ?_, ?_, ?_, ?_, hown⟩
  · rw [hthread, Function.update_of_ne hq]
  · rw [hring]
    exact hne q hq
  · rw [hthread, Function.update_self]
  · rw [hring, hproc]
  · simp only [Machine.outputs_cons, Machine.outputs_nil, List.append_nil]
    change (producerStep M wakeup s.sub.ring p a).2 = evs
    rw [hstep]

theorem submitStep_serializing {b : ReservedBuffer} {stores : List (ℕ × UInt8)}
    (hinv : Mpscbuf.Inv M s.sub.ring) (hth : s.sub.threads p = .serializing stores true none)
    (hpc : s.sub.ring.procs p = .owning b) (hevent : s.event p = some v)
    (hinside : ∀ st ∈ stores, st.1 < b.size)
    (hstores : stores.foldl applyStore b.bytes = serialization v) :
    SubmitStep s p ((submitCalls M wakeup).step s (.advance p timeout)) := by
  change SubmitStep s p (s.record M wakeup p (s.event p)
    (s.sub.advance M wakeup p timeout))
  rw [hevent]
  cases stores with
  | cons st stores =>
    obtain ⟨i, x⟩ := st
    have hi : i < b.size := hinside (i, x) (List.mem_cons_self ..)
    have hstep : producerStep M wakeup s.sub.ring p (.write i x) =
        ({ s.sub.ring.setPc p (.owning { b with bytes := b.bytes.set i x }) with
          mem := MirroredMemory.store M.dataSize s.sub.ring.mem
            (b.recordPos + headerSize + i) [x] }, []) := by
      simp only [producerStep, hpc, if_pos hi]
    have hadvance : s.sub.advance M wakeup p timeout =
        (Submitting.setThread
          { s.sub with ring := (producerStep M wakeup s.sub.ring p (.write i x)).1 } p
          (.serializing stores true none), [.producer p (.write i x)]) := by
      simp only [Submitting.advance, hth]
    rw [hadvance]
    have hrun := producerRun_of_step
      (Submitting.setThread
        { s.sub with ring := (producerStep M wakeup s.sub.ring p (.write i x)).1 } p
        (.serializing stores true none))
      (.serializing stores true none) (.owning { b with bytes := b.bytes.set i x }) hstep
      (by simp) (congrArg Prod.fst hstep) rfl (by simp [State.setPc])
    refine hrun.going (Or.inr (by simp)) ?_ (by rw [hevent, hpc]; rfl)
    exact .serializing (fun st hst => hinside st (List.mem_cons_of_mem _ hst)) hstores
  | nil =>
    -- the header is still the one of the reservation, so the drop commits
    have howns : Owns M s.sub.ring p b := by
      have hp := hinv.pcs p
      rwa [hpc] at hp
    have hheader := hinv.owns_header howns
    have hstep : producerStep M wakeup s.sub.ring p .drop =
        (s.sub.ring.setPc p (.committing b), []) := by
      simp only [producerStep, hpc, hheader, RecordHeader.isDiscarded_new]
      rfl
    have hadvance : s.sub.advance M wakeup p timeout =
        (Submitting.setThread { s.sub with ring := (producerStep M wakeup s.sub.ring p .drop).1 } p
          (.dropping true none), [.producer p .drop]) := by
      simp only [Submitting.advance, hth]
    rw [hadvance]
    have hrun := producerRun_of_step
      (Submitting.setThread
        { s.sub with ring := (producerStep M wakeup s.sub.ring p .drop).1 } p
        (.dropping true none))
      (.dropping true none) (.committing b) hstep (by simp) (congrArg Prod.fst hstep) rfl
      (by simp [State.setPc])
    exact hrun.going (Or.inr (by simp)) (.committing hstores) (by rw [hevent, hpc]; rfl)

/-- The drop goes on. -/
theorem submitStep_dropping_going (a : ProducerAct) (evs : List (Event ι)) (pc : ProducerPc)
    (hth : s.sub.threads p = .dropping true none)
    (hevent : s.event p = some v) (ha : dropAct (s.sub.ring.procs p) = a)
    (hstep : producerStep M wakeup s.sub.ring p a = (ring', evs))
    (hown : ∀ e ∈ evs, Event.OfProducer p e) (hproc : ring'.procs p = pc)
    (hne : pc ≠ .idle) (hcall : CallOk (.dropping true none) pc (some v))
    (hsettled : unreturned (s.sub.ring.procs p) (some v) ++ committedBy p (evs.map .ring) =
      unreturned pc (some v)) :
    SubmitStep s p ((submitCalls M wakeup).step s (.advance p timeout)) := by
  have hadvance : s.sub.advance M wakeup p timeout =
      ({ s.sub with ring := ring' }, [.producer p a]) := by
    simp only [Submitting.advance, hth, ha, hstep, hproc]
  change SubmitStep s p (s.record M wakeup p (s.event p) (s.sub.advance M wakeup p timeout))
  rw [hevent, hadvance]
  have hrun := producerRun_of_step { s.sub with ring := ring' } (.dropping true none) pc hstep
    hown rfl (by rw [← hth, Function.update_eq_self]) hproc
  exact hrun.going (Or.inr (by simp)) hcall (by rw [hevent]; exact hsettled)

theorem submitStep_committing {b : ReservedBuffer} (hth : s.sub.threads p = .dropping true none)
    (hpc : s.sub.ring.procs p = .committing b) (hevent : s.event p = some v)
    (hbytes : b.bytes = serialization v) :
    SubmitStep s p ((submitCalls M wakeup).step s (.advance p timeout)) :=
  submitStep_dropping_going .commitLoad []
    (.commitLoaded b (M.loadHeader s.sub.ring.mem b.recordPos)) hth hevent (by rw [hpc]; rfl)
    (by simp only [producerStep, hpc]; rfl) (by simp) (by simp [State.setPc]) (by simp)
    (.commitLoaded hbytes) (by rw [hpc]; rfl)

/-- The store that commits the record. -/
theorem submitStep_commitLoaded {b : ReservedBuffer} {current : ℕ}
    (hth : s.sub.threads p = .dropping true none)
    (hpc : s.sub.ring.procs p = .commitLoaded b current) (hevent : s.event p = some v)
    (hbytes : b.bytes = serialization v) :
    SubmitStep s p ((submitCalls M wakeup).step s (.advance p timeout)) :=
  submitStep_dropping_going .commitStore [.committed p b.position b.bytes] .notifying hth
    hevent (by rw [hpc]; rfl) (by simp only [producerStep, hpc]; rfl)
    (by simp [Event.OfProducer]) (by simp [State.setPc]) (by simp) .notifying
    (by rw [hpc]; simp [unreturned, committedBy, hbytes])

/-- The call returns `Ok`. -/
theorem submitStep_notifying (hth : s.sub.threads p = .dropping true none)
    (hpc : s.sub.ring.procs p = .notifying) (hevent : s.event p = some v) :
    SubmitStep s p ((submitCalls M wakeup).step s (.advance p timeout)) := by
  obtain ⟨ring', hstep, hproc⟩ : ∃ ring', producerStep M wakeup s.sub.ring p .notify =
      (ring', []) ∧ ring'.procs p = .idle := by
    simp only [producerStep, hpc]
    cases wakeup p with
    | forced => exact ⟨_, rfl, by simp [State.setPc]⟩
    | noWakeup => exact ⟨_, rfl, by simp [State.setPc]⟩
  have hadvance : s.sub.advance M wakeup p timeout =
      (Submitting.setThread { s.sub with ring := ring' } p .idle, [.producer p .notify]) := by
    simp only [Submitting.advance, hth, hpc, dropAct, hstep, hproc, Submitting.finish, if_true]
  change SubmitStep s p (s.record M wakeup p (s.event p) (s.sub.advance M wakeup p timeout))
  rw [hevent, hadvance]
  have hrun := producerRun_of_step (Submitting.setThread { s.sub with ring := ring' } p .idle)
    .idle .idle hstep (by simp) rfl rfl hproc
  refine hrun.returned ?_
  rw [hevent, hpc, hth]
  rfl

end Finishing

/-- Every step of a thread in a call. -/
theorem submitStep_advance (hinv : Mpscbuf.Inv M s.sub.ring)
    (h : CallOk (s.sub.threads p) (s.sub.ring.procs p) (s.event p)) (timeout : Bool) :
    SubmitStep s p ((submitCalls M wakeup).step s (.advance p timeout)) := by
  generalize hth : s.sub.threads p = th, hpc : s.sub.ring.procs p = pc,
    hevent : s.event p = event at h
  cases h with
  | idle =>
    have hadvance : s.sub.advance M wakeup p timeout = (s.sub, []) := by
      simp only [Submitting.advance, hth]
    change SubmitStep s p (s.record M wakeup p (s.event p) (s.sub.advance M wakeup p timeout))
    rw [hadvance]
    have hrun : ProducerRun M wakeup s p (s.sub, []) .idle .idle [] :=
      ⟨fun _ _ => rfl, fun _ _ => rfl, hth, hpc, rfl, by simp⟩
    refine hrun.going (Or.inl hevent) ?_ ?_
    · rw [hevent]
      exact .idle
    · rw [hpc]
      rfl
  | reserving hlength hres => exact submitStep_reserving hth hevent hlength (hpc ▸ hres) timeout
  | serializing hinside hstores =>
    exact submitStep_serializing hinv hth hpc hevent hinside hstores
  | committing hbytes => exact submitStep_committing hth hpc hevent hbytes
  | commitLoaded hbytes => exact submitStep_commitLoaded hth hpc hevent hbytes
  | notifying => exact submitStep_notifying hth hpc hevent

/-- A call of `Producer::submit` up to the first step of `reserve`. -/
theorem submitStep_begin (hth : s.sub.threads p = .idle) (hpc : s.sub.ring.procs p = .idle)
    (v : Serializer) : SubmitStep s p (s.record M wakeup p (some v)
      (s.sub.submit M wakeup p (.ofEvent v) none)) := by
  have hunreturned : unreturned (s.sub.ring.procs p) (s.event p) = [] := by
    rw [hpc]
    rfl
  have hsucceeds : (s.sub.threads p).succeeds = false := by
    rw [hth]
    rfl
  cases hlength : computeLength .checked v with
  | none =>
    have hnone : (Submission.ofEvent v).length = none := hlength
    have hrun : ProducerRun M wakeup s p (s.sub.submit M wakeup p (.ofEvent v) none) .idle .idle
        [] := by
      simp only [Submitting.submit, hnone]
      exact ⟨fun _ hq => Function.update_of_ne hq _ _, fun _ _ => rfl, Function.update_self ..,
        hpc, rfl, by simp⟩
    exact hrun.returned (by rw [hunreturned, hsucceeds]; rfl)
  | some n =>
    have hsome : (Submission.ofEvent v).length = some n := hlength
    cases htotal : totalSize .checked n with
    | none =>
      have hstep : producerStep M wakeup s.sub.ring p (.reserve n) =
          (s.sub.ring, [.failed p .panic]) := by
        simp only [producerStep, hpc, htotal]
      have hrun : ProducerRun M wakeup s p (s.sub.submit M wakeup p (.ofEvent v) none) .idle .idle
          [.failed p .panic] := by
        simp only [Submitting.submit, hsome, hstep, failure?]
        exact producerRun_of_step _ _ _ hstep (by simp [Event.OfProducer]) rfl rfl hpc
      exact hrun.returned (by rw [hunreturned, hsucceeds]; rfl)
    | some total =>
      have hstep : producerStep M wakeup s.sub.ring p (.reserve n) =
          (s.sub.ring.setPc p (.loadedConsumer n total s.sub.ring.consumer), []) := by
        simp only [producerStep, hpc, htotal]
      have hrun : ProducerRun M wakeup s p (s.sub.submit M wakeup p (.ofEvent v) none)
          (.reserving (.ofEvent v) none) (.loadedConsumer n total s.sub.ring.consumer) [] := by
        simp only [Submitting.submit, hsome, hstep, failure?, List.findSome?_nil]
        exact producerRun_of_step _ _ _ hstep (by simp) rfl rfl (by simp [State.setPc])
      exact hrun.going (Or.inr (by simp)) (.reserving hlength rfl) (by rw [hunreturned]; rfl)

theorem submitStep_submit (h : CallOk (s.sub.threads p) (s.sub.ring.procs p) (s.event p))
    (v : Serializer) : SubmitStep s p ((submitCalls M wakeup).step s (.submit p v)) := by
  by_cases hth : s.sub.threads p = .idle
  · have hidle : s.sub.ring.procs p = .idle := eq_idle_of_coupled (hth ▸ h.coupled)
    have hstep : (submitCalls M wakeup).step s (.submit p v) = s.record M wakeup p (some v)
        (s.sub.submit M wakeup p (.ofEvent v) none) := by
      simp only [submitCalls, EventAct.lower, submission, if_pos hth]
    rw [hstep]
    exact submitStep_begin hth hidle v
  · -- the thread is still in another call
    have hstep : (submitCalls M wakeup).step s (.submit p v) =
        s.record M wakeup p (s.event p) (s.sub, []) := by
      simp only [submitCalls, EventAct.lower, submission, if_neg hth]
    have hrun : ProducerRun M wakeup s p (s.sub, []) (s.sub.threads p) (s.sub.ring.procs p) [] :=
      ⟨fun _ _ => rfl, fun _ _ => rfl, rfl, rfl, rfl, by simp⟩
    rw [hstep]
    exact hrun.going (Or.inr hth) h (by simp [committedBy])

end Steps
end Manytrace.Agent
