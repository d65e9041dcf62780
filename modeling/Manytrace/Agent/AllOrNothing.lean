import Manytrace.Mpscbuf.Delivery
import Manytrace.Agent.SubmitCalls

/-! A call of `Producer::submit` returns an error and commits nothing, or it commits one record
with the whole serialization of its event. -/
namespace Manytrace.Agent
open Manytrace.Core Manytrace.Mpscbuf Manytrace.Protocol

variable {ι : Type*}

section Runs
variable [DecidableEq ι] {M : Memory} {wakeup : ι → WakeupStrategy} {s : Calling ι} {p : ι}

/-- What is left to do for a thread that does not wait for the lock. -/
def stepsLeft : SubmitPc → ProducerPc → ℕ
  | .idle, _ => 0
  | .reserving x _, .published _ _ => x.stores.length + 7
  | .reserving x _, .headerWritten _ _ _ => x.stores.length + 8
  | .reserving x _, .admitted _ _ _ => x.stores.length + 9
  | .reserving x _, .locked _ _ _ => x.stores.length + 10
  | .reserving _ _, _ => 1
  | .serializing stores _ _, _ => stores.length + 5
  | .dropping _ _, .committing _ => 4
  | .dropping _ _, .commitLoaded _ _ => 3
  | .dropping _ _, _ => 2

theorem stepsLeft_dropping_le (serialized : Bool) (next : Option Submission) (pc : ProducerPc) :
    stepsLeft (.dropping serialized next) pc ≤ 4 := by
  cases pc <;> simp [stepsLeft]

theorem stepsLeft_advance (M : Memory) (wakeup : ι → WakeupStrategy) {s : Submitting ι}
    (hc : Coupled (s.threads p) (s.ring.procs p) = true)
    (hnext : (s.threads p).next? = none) (hbusy : s.threads p ≠ .idle) :
    stepsLeft ((s.advance M wakeup p true).1.threads p)
        ((s.advance M wakeup p true).1.ring.procs p) <
      stepsLeft (s.threads p) (s.ring.procs p) := by
  cases hth : s.threads p with
  | idle => exact absurd hth hbusy
  | reserving x next =>
    cases hpc : s.ring.procs p with
    | locked size total c =>
      cases hcheck : spaceCheck .checked M s.ring.producer c total <;>
        simp [Submitting.advance, hth, hpc, reserveAct, producerStep, hcheck,
          Submitting.reserved, failure?, State.setPc, stepsLeft]
    | loadedConsumer | admitted | headerWritten | published | refused =>
      simp [Submitting.advance, hth, hpc, reserveAct, producerStep, Submitting.reserved,
        failure?, Submitting.fail, Submitting.setThread, State.setPc, stepsLeft]
    | _ =>
      rw [hth, hpc] at hc
      cases hc
  | serializing stores serialized next =>
    cases stores with
    | cons st stores => simp [Submitting.advance, hth, Submitting.setThread, stepsLeft]
    | nil =>
      simp only [Submitting.advance, hth, Submitting.setThread, Function.update_self]
      exact Nat.lt_of_le_of_lt (stepsLeft_dropping_le ..) (Nat.lt_succ_self 4)
  | dropping serialized next =>
    obtain rfl : next = none := by simpa [hth, SubmitPc.next?] using hnext
    cases hpc : s.ring.procs p with
    | committing b =>
      simp [Submitting.advance, hth, hpc, dropAct, producerStep, State.setPc, stepsLeft]
    | commitLoaded b current =>
      simp [Submitting.advance, hth, hpc, dropAct, producerStep, State.setPc, stepsLeft]
    | notifying =>
      cases hw : wakeup p <;> cases serialized <;>
        simp [Submitting.advance, hth, hpc, hw, dropAct, producerStep, State.setPc,
          Submitting.finish, Submitting.setThread, stepsLeft]
    | idle =>
      cases serialized <;>
        simp [Submitting.advance, hth, hpc, dropAct, producerStep, Submitting.finish,
          Submitting.setThread, stepsLeft]
    | _ =>
      rw [hth, hpc] at hc
      cases hc

/-- The events of the ring among the others. -/
def ringEvents (os : List (CallEvent ι)) : List (Event ι) :=
  os.filterMap fun
    | .ring e => some e
    | .returned _ _ _ => none

omit [DecidableEq ι] in
theorem ringEvents_map (evs : List (Event ι)) : ringEvents (evs.map .ring) = evs := by
  unfold ringEvents
  rw [List.filterMap_map]
  exact List.filterMap_some

omit [DecidableEq ι] in
theorem ringEvents_append (os os' : List (CallEvent ι)) :
    ringEvents (os ++ os') = ringEvents os ++ ringEvents os' :=
  List.filterMap_append

omit [DecidableEq ι] in
theorem mem_ringEvents {os : List (CallEvent ι)} {e : Event ι} :
    e ∈ ringEvents os ↔ .ring e ∈ os := by
  unfold ringEvents
  rw [List.mem_filterMap]
  constructor
  · rintro ⟨o, ho, heq⟩
    cases o with
    | ring e' =>
      cases heq
      exact ho
    | returned p v ok => cases heq
  · intro h
    exact ⟨_, h, rfl⟩

/-- Every step is one of the submissions below it. -/
theorem submitCalls_step (M : Memory) (wakeup : ι → WakeupStrategy) (s : Calling ι)
    (a : EventAct ι) :
    ((submitCalls M wakeup).step s a).1.sub =
        ((submission M wakeup).step s.sub a.lower).1 ∧
      ringEvents ((submitCalls M wakeup).step s a).2 = (ringBuf M wakeup).outputs s.sub.ring
        ((submission M wakeup).step s.sub a.lower).2 := by
  have hrecord : ∀ p event r, (s.record M wakeup p event r).1.sub = r.1 ∧
      ringEvents (s.record M wakeup p event r).2 =
        (ringBuf M wakeup).outputs s.sub.ring r.2 := by
    intro p event r
    unfold Calling.record
    split
    · rw [ringEvents_append, ringEvents_map]
      exact ⟨rfl, List.append_nil _⟩
    · exact ⟨rfl, ringEvents_map _⟩
  cases a with
  | submit p v => exact hrecord p _ _
  | advance p timeout => exact hrecord p _ _
  | consumer a => exact ⟨rfl, ringEvents_map _⟩

/-- The serialization is shorter than 4 GiB and the writes can be counted. -/
structure Short (v : Serializer) : Prop where
  countsFit : CountsFit v
  bytes : (serialization v).length < 2 ^ 32

def EventAct.Short : EventAct ι → Prop
  | .submit _ v => Agent.Short v
  | _ => True

omit [DecidableEq ι] in
theorem EventAct.Short.lower {a : EventAct ι} (h : a.Short) : SmallRecords a.lower := by
  cases a with
  | submit p v =>
    intro n hn
    rw [← (computeLength_checked hn).2]
    exact h.bytes
  | _ => trivial

/-- What holds after a run with the outputs `os`. -/
structure Ran (M : Memory) (wakeup : ι → WakeupStrategy) (s : Calling ι)
    (os : List (CallEvent ι)) : Prop where
  calls : ∀ p, CallOk (s.sub.threads p) (s.sub.ring.procs p) (s.event p)
  settled : ∀ p, committedBy p os =
    submittedBy p os ++ unreturned (s.sub.ring.procs p) (s.event p)
  ring : ∃ acts, (∀ a ∈ acts, CommitsOnly a) ∧
    s.sub.ring = (ringBuf M wakeup).final State.init acts ∧
    ringEvents os = (ringBuf M wakeup).outputs State.init acts
  small : SmallNext s.sub.threads

theorem ran_init : Ran M wakeup Calling.init ([] : List (CallEvent ι)) where
  calls := fun _ => .idle
  settled := fun _ => rfl
  ring := ⟨[], by simp, rfl, rfl⟩
  small := by simp [SmallNext, Calling.init, Submitting.init, SubmitPc.next?]

theorem Ran.inv {os : List (CallEvent ι)} (h : Ran M wakeup s os) : Mpscbuf.Inv M s.sub.ring := by
  obtain ⟨acts, hcommits, hring, -⟩ := h.ring
  rw [hring]
  exact inv_of_commitsOnly hcommits

/-- The ring part of a step. -/
theorem Ran.ring_step {os : List (CallEvent ι)} (h : Ran M wakeup s os) {a : EventAct ι}
    (ha : a.Short) :
    (∃ acts, (∀ a ∈ acts, CommitsOnly a) ∧
      ((submitCalls M wakeup).step s a).1.sub.ring = (ringBuf M wakeup).final State.init acts ∧
      ringEvents (os ++ ((submitCalls M wakeup).step s a).2) =
        (ringBuf M wakeup).outputs State.init acts) ∧
    SmallNext ((submitCalls M wakeup).step s a).1.sub.threads := by
  obtain ⟨acts, hcommits, hring, hevents⟩ := h.ring
  obtain ⟨hsub, hout⟩ := submitCalls_step M wakeup s a
  have hemits : Emits M wakeup s.sub ((submission M wakeup).step s.sub a.lower) :=
    emits_step h.small ha.lower
  rw [hsub]
  refine ⟨⟨acts ++ ((submission M wakeup).step s.sub a.lower).2, ?_, ?_, ?_⟩, hemits.small⟩
  · exact List.forall_mem_append.mpr ⟨hcommits, hemits.commits⟩
  · rw [hemits.ring, Machine.final_append, ← hring]
  · rw [ringEvents_append, hevents, hout, Machine.outputs_append, ← hring]

theorem Ran.of_submitStep {os : List (CallEvent ι)} (h : Ran M wakeup s os) {a : EventAct ι}
    (ha : a.Short) (hstep : SubmitStep s p ((submitCalls M wakeup).step s a)) :
    Ran M wakeup ((submitCalls M wakeup).step s a).1
      (os ++ ((submitCalls M wakeup).step s a).2) := by
  obtain ⟨hring, hsmall⟩ := h.ring_step ha
  refine ⟨fun q => ?_, fun q => ?_, hring, hsmall⟩
  · by_cases hq : q = p
    · exact hq ▸ hstep.call
    · rw [hstep.threads q hq, hstep.procs q hq, hstep.event q hq]
      exact h.calls q
  · rw [committedBy_append, submittedBy_append, h.settled q]
    by_cases hq : q = p
    · subst hq
      rw [List.append_assoc, List.append_assoc, hstep.settled]
    · rw [(hstep.others q hq).1, (hstep.others q hq).2, hstep.procs q hq, hstep.event q hq,
        List.append_nil, List.append_nil]

omit [DecidableEq ι] in
theorem consumerStep_returned {s : State ι} (a : ConsumerAct) :
    ∀ e ∈ (consumerStep M s a).2, ∃ r, e = .returned r := by
  cases a <;> simp only [consumerStep] <;> repeat' split
  all_goals simp

theorem Ran.consumer {os : List (CallEvent ι)} (h : Ran M wakeup s os) (a : ConsumerAct) :
    Ran M wakeup ((submitCalls M wakeup).step s (.consumer a)).1
      (os ++ ((submitCalls M wakeup).step s (.consumer a)).2) := by
  obtain ⟨hring, hsmall⟩ := h.ring_step (a := .consumer a) trivial
  have hprocs : ((submitCalls M wakeup).step s (.consumer a)).1.sub.ring.procs =
      s.sub.ring.procs := consumerStep_procs s.sub.ring a
  have hout : ((submitCalls M wakeup).step s (.consumer a)).2 =
      (consumerStep M s.sub.ring a).2.map .ring := by
    simp only [submitCalls, EventAct.lower, submission, Machine.outputs_cons,
      Machine.outputs_nil, List.append_nil]
    rfl
  have hcommitted : ∀ q, committedBy q ((consumerStep M s.sub.ring a).2.map .ring) = [] := by
    intro q
    unfold committedBy
    rw [List.filterMap_map, List.filterMap_eq_nil_iff]
    intro e he
    obtain ⟨r, rfl⟩ := consumerStep_returned a e he
    rfl
  refine ⟨fun q => ?_, fun q => ?_, hring, hsmall⟩
  · rw [hprocs]
    exact h.calls q
  · rw [hprocs, hout, committedBy_append, submittedBy_append, hcommitted, submittedBy_ring,
      List.append_nil, List.append_nil]
    exact h.settled q

theorem Ran.step {os : List (CallEvent ι)} (h : Ran M wakeup s os) {a : EventAct ι}
    (ha : a.Short) :
    Ran M wakeup ((submitCalls M wakeup).step s a).1
      (os ++ ((submitCalls M wakeup).step s a).2) := by
  cases a with
  | submit p v => exact h.of_submitStep ha (submitStep_submit (h.calls p) v)
  | advance p timeout => exact h.of_submitStep ha (submitStep_advance h.inv (h.calls p) timeout)
  | consumer a => exact h.consumer a

theorem ran_of_short (M : Memory) (wakeup : ι → WakeupStrategy) {acts : List (EventAct ι)}
    (h : ∀ a ∈ acts, a.Short) :
    Ran M wakeup ((submitCalls M wakeup).final Calling.init acts)
      ((submitCalls M wakeup).outputs Calling.init acts) :=
  Machine.history (fun _ _ _ hran ha => hran.step ha) ran_init
    (Machine.meets_of_forall h Calling.init)

/-- Every call comes to an end: if nobody helps it, by giving up at the lock. -/
theorem Ran.returns {os : List (CallEvent ι)} (h : Ran M wakeup s os) (p : ι) :
    ∃ k, ((submitCalls M wakeup).final s
      (List.replicate k (.advance p true))).sub.threads p = .idle := by
  generalize hn : stepsLeft (s.sub.threads p) (s.sub.ring.procs p) = n
  induction n using Nat.strongRecOn generalizing s os with
  | ind n ih =>
    by_cases hth : s.sub.threads p = .idle
    · exact ⟨0, hth⟩
    · have hnext : (s.sub.threads p).next? = none := by
        have hp := h.calls p
        generalize s.sub.threads p = th, s.sub.ring.procs p = pc, s.event p = event at hp
        cases hp <;> rfl
      have hless := stepsLeft_advance M wakeup (h.calls p).coupled hnext hth
      obtain ⟨hsub, -⟩ := submitCalls_step M wakeup s (.advance p true)
      have hran := h.step (a := .advance p true) trivial
      rw [← hn] at ih
      obtain ⟨k, hk⟩ := ih _ (by rw [hsub]; exact hless) hran rfl
      exact ⟨k + 1, by rw [List.replicate_succ, Machine.final_cons]; exact hk⟩

end Runs

/-! ## A serialization of 4 GiB -/

section Solo
variable (M : Memory) (wakeup : Unit → WakeupStrategy) {s : Submitting Unit} {b : ReservedBuffer}

/-- The stores of the second pass leave the header alone. -/
theorem final_stores {stores : List (ℕ × UInt8)}
    (hth : s.threads () = .serializing stores true none) (hpc : s.ring.procs () = .owning b)
    (hinside : ∀ st ∈ stores, st.1 < b.size) (hfits : headerSize + b.size ≤ M.dataSize) :
    ∃ s' b', (submission M wakeup).final s
        (List.replicate stores.length (.advance () false)) = s' ∧
      s'.threads () = .serializing [] true none ∧ s'.ring.procs () = .owning b' ∧
      b'.recordPos = b.recordPos ∧ s'.tally = s.tally ∧
      M.loadHeader s'.ring.mem b.recordPos = M.loadHeader s.ring.mem b.recordPos := by
  induction stores generalizing s b with
  | nil => exact ⟨s, b, rfl, hth, hpc, rfl, rfl, rfl⟩
  | cons st stores ih =>
    obtain ⟨i, x⟩ := st
    have hi : i < b.size := hinside (i, x) (List.mem_cons_self ..)
    have hstep : ((submission M wakeup).step s (.advance () false)).1 =
        Submitting.setThread { s with
          ring := { s.ring.setPc () (.owning { b with bytes := b.bytes.set i x }) with
            mem := MirroredMemory.store M.dataSize s.ring.mem
              (b.recordPos + headerSize + i) [x] } } () (.serializing stores true none) := by
      simp only [submission, Submitting.advance, hth, producerStep, hpc, if_pos hi]
    have happart : MirroredMemory.Apart M.dataSize b.recordPos headerSize
        (b.recordPos + headerSize + i) [x].length :=
      MirroredMemory.apart_of_le (by omega) (by simp only [List.length_singleton]; omega)
    have hheader : M.loadHeader (MirroredMemory.store M.dataSize s.ring.mem
        (b.recordPos + headerSize + i) [x]) b.recordPos = M.loadHeader s.ring.mem b.recordPos :=
      congrArg MirroredMemory.ofBytes ((MirroredMemory.store_agree s.ring.mem happart).load_eq
        (Nat.le_refl _) (Nat.le_refl _))
    obtain ⟨s', b', hfinal, hth', hpc', hpos, htally, hrest⟩ :=
      ih (s := ((submission M wakeup).step s (.advance () false)).1)
        (b := { b with bytes := b.bytes.set i x })
        (by rw [hstep]; simp [Submitting.setThread])
        (by rw [hstep]; simp [Submitting.setThread, State.setPc])
        (fun st hst => hinside st (List.mem_cons_of_mem _ hst)) hfits
    refine ⟨s', b', hfinal, hth', hpc', hpos, ?_, ?_⟩
    · rw [htally, hstep]
      rfl
    · refine hrest.trans ?_
      rw [hstep]
      exact hheader

theorem final_drop {n : ℕ} (hth : s.threads () = .serializing [] true none)
    (hpc : s.ring.procs () = .owning b)
    (hheader : M.loadHeader s.ring.mem b.recordPos = RecordHeader.new n) :
    ∃ s', (submission M wakeup).final s (List.replicate 4 (.advance () false)) = s' ∧
      s'.threads () = .idle ∧ s'.tally = s.tally ∧
      M.loadHeader s'.ring.mem b.recordPos = RecordHeader.commit (RecordHeader.new n) := by
  refine ⟨_, rfl, ?_⟩
  cases hw : wakeup () <;>
    simp [List.replicate, Machine.final_cons, submission, Submitting.advance, hth, hpc, hw,
      producerStep, hheader, RecordHeader.isDiscarded_new, Submitting.setThread, State.setPc,
      dropAct, Submitting.finish, M.loadHeader_storeHeader _ _ (RecordHeader.commit_lt _)]

/-- The reservation of the first event of a run. -/
theorem final_reserve {v : Serializer} {n : ℕ} (total newProdPos : ℕ)
    (hlength : computeLength .checked v = some n) (htotal : totalSize .checked n = some total)
    (hcheck : spaceCheck .checked M 0 0 total = .ok newProdPos) :
    ∃ s', (submission M wakeup).final .init
        (.submit () (.ofEvent v) :: List.replicate 5 (.advance () false)) = s' ∧
      s'.threads () = .serializing (Submission.ofEvent v).stores true none ∧
      (∃ b, s'.ring.procs () = .owning b ∧ b.recordPos = 0 ∧ b.size = n) ∧
      s'.tally = ⟨1, 0, 0, 0⟩ ∧ M.loadHeader s'.ring.mem 0 = RecordHeader.new n := by
  obtain ⟨hsome, hserialized, -, -⟩ := ofEvent_spec hlength
  refine ⟨_, rfl, ?_⟩
  simp [List.replicate, Machine.final_cons, submission, Submitting.init, State.init,
    Submitting.submit, hsome, htotal, hcheck, hserialized, producerStep, failure?,
    Submitting.setThread, Submitting.advance, reserveAct, Submitting.reserved, State.setPc,
    newBuffer, M.loadHeader_storeHeader _ _ (RecordHeader.new_lt _)]

end Solo

/-- One write of 4 GiB. -/
def wideEvent : Serializer := .write (List.replicate (2 ^ 32) 7) .done

theorem serialization_wideEvent : (serialization wideEvent).length = 2 ^ 32 := by
  simp only [serialization, wideEvent, WriteProgram.run, List.flatten_cons, List.flatten_nil,
    List.append_nil, List.length_replicate]

theorem computeLength_wideEvent : computeLength .checked wideEvent = some (2 ^ 32) := by
  have hfit : CountsFit wideEvent :=
    ⟨by simp only [wideEvent, WriteProgram.run, List.length_singleton]; decide,
      by rw [serialization_wideEvent]; decide⟩
  rw [computeLength_of_countsFit hfit, serialization_wideEvent]
  rfl

/-! ## All or nothing -/

/-- What a consumer at `position` finds: a committed header with the length of the payload, and
the payload behind it. -/
structure Readable (M : Memory) (mem : ℕ → UInt8) (position : ℕ) (payload : List UInt8) :
    Prop where
  busy : RecordHeader.isBusy (M.loadHeader mem position) = false
  kept : RecordHeader.isDiscarded (M.loadHeader mem position) = false
  length : RecordHeader.len (M.loadHeader mem position) = payload.length
  bytes : MirroredMemory.load M.dataSize mem (position + headerSize) payload.length = payload

theorem readable_of_inv {M : Memory} {s : State ι} (h : Mpscbuf.Inv M s) {r : Reservation ι}
    (hr : r ∈ s.live) {payload : List UInt8} (hstatus : r.status = .committed payload) :
    Readable M s.mem r.position payload := by
  have hstored := h.stored r hr
  unfold Stored at hstored
  rw [hstatus] at hstored
  obtain ⟨hheader, hload⟩ := hstored
  have hlength : payload.length = r.size := by
    rw [← hload, MirroredMemory.length_load]
  refine ⟨?_, ?_, ?_, ?_⟩
  · rw [hheader, RecordHeader.isBusy_commit]
  · rw [hheader, RecordHeader.isDiscarded_commit]
  · rw [hheader, RecordHeader.len_commit, RecordHeader.len_new (h.small r hr), hlength]
  · rw [hlength, hload]

/-- A call that has returned `Ok` has committed one record, with the serialization of its event,
and a call that has returned an error has committed none. -/
structure AllOrNothing [DecidableEq ι] (M : Memory) (wakeup : ι → WakeupStrategy) (s : Calling ι)
    (os : List (CallEvent ι)) : Prop where
  calls : ∀ p, committedBy p os =
    submittedBy p os ++ unreturned (s.sub.ring.procs p) (s.event p)
  between : ∀ p, s.sub.threads p = .idle → committedBy p os = submittedBy p os
  /-- The committed records are those in the ring, and they can be read until they are
  released. -/
  records : ∀ position payload, (∃ p, .ring (.committed p position payload) ∈ os) ↔
    (position, .ready payload) ∈ s.sub.ring.mailbox.slots
  readable : ∀ r ∈ s.sub.ring.live, ∀ payload, r.status = .committed payload →
    Readable M s.sub.ring.mem r.position payload
  returns : ∀ p, ∃ k, ((submitCalls M wakeup).final s
    (List.replicate k (.advance p true))).sub.threads p = .idle

/-- The two passes agree for every serializer whose writes can be counted, and `submit` is all
or nothing in every run with serializations below 4 GiB. -/
theorem submit_all_or_nothing [DecidableEq ι] (M : Memory) (wakeup : ι → WakeupStrategy) :
    (∀ o v n, CountsFit v → (computeLength o v = some n ↔ WritesExactly v n)) ∧
    ∀ acts : List (EventAct ι), (∀ a ∈ acts, a.Short) →
      AllOrNothing M wakeup ((submitCalls M wakeup).final Calling.init acts)
        ((submitCalls M wakeup).outputs Calling.init acts) := by
  refine ⟨fun o v n hv => computeLength_eq_some_iff hv, fun acts h => ?_⟩
  have hran := ran_of_short M wakeup h
  obtain ⟨ring, hcommits, hring, hevents⟩ := hran.ring
  have hagrees := (run_refines wakeup (sparesDiscarded_of_commitsOnly (M := M) hcommits)).agrees
  rw [← hring, ← hevents] at hagrees
  refine ⟨hran.settled, fun p hp => ?_, fun position payload => ?_,
    fun r hr payload => readable_of_inv hran.inv hr, hran.returns⟩
  · have hidle := eq_idle_of_coupled (hp ▸ (hran.calls p).coupled)
    rw [hran.settled p, hidle]
    exact List.append_nil _
  · rw [← committed_iff hagrees]
    exact exists_congr fun p => mem_ringEvents.symm

/-- One byte, padding to a multiple of four, and four more bytes. -/
def alignedEvent : Serializer :=
  .write [7] (.pos fun n => .write (List.replicate (4 - n % 4) 0) (.write [1, 2, 3, 4] .done))

theorem short_alignedEvent : Short alignedEvent := ⟨⟨by decide, by decide⟩, by decide⟩

/-- Thread `true` submits an event while `false` fails to serialize another one. -/
def alignedCalls : List (EventAct Bool) :=
  .submit true alignedEvent :: .submit false .fail :: List.replicate 17 (.advance true false)

theorem submit_all_or_nothing_aligned :
    committedBy true ((submitCalls pageRing fun _ => .forced).outputs Calling.init alignedCalls) =
        [[7, 0, 0, 0, 1, 2, 3, 4]] ∧
      AllOrNothing pageRing (fun _ => .forced)
        ((submitCalls pageRing fun _ => .forced).final Calling.init alignedCalls)
        ((submitCalls pageRing fun _ => .forced).outputs Calling.init alignedCalls) := by
  refine ⟨by decide +kernel, (submit_all_or_nothing pageRing _).2 alignedCalls ?_⟩
  intro a ha
  simp only [alignedCalls, List.mem_cons, List.mem_replicate] at ha
  rcases ha with rfl | rfl | ⟨-, rfl⟩
  · exact short_alignedEvent
  · exact ⟨⟨by decide, by decide⟩, by decide⟩
  · trivial

/-- `submit` returns `Ok` for an event of 4 GiB, and its record has the length 0. -/
theorem submit_cuts_wide_event : ∃ acts : List (SubmitAct Unit),
    let s := (submission hugeRing fun _ => .forced).final .init
      (.submit () (.ofEvent wideEvent) :: acts)
    (∀ a ∈ acts, a = .advance () false) ∧ s.threads () = .idle ∧ s.tally = ⟨1, 0, 0, 0⟩ ∧
      (serialization wideEvent).length = 2 ^ 32 ∧
      RecordHeader.isBusy (hugeRing.loadHeader s.ring.mem 0) = false ∧
      RecordHeader.len (hugeRing.loadHeader s.ring.mem 0) = 0 := by
  obtain ⟨s₁, hfinal₁, hth₁, ⟨b, hpc₁, hpos, hsize⟩, htally₁, hheader₁⟩ :=
    final_reserve hugeRing (fun _ => .forced) (2 ^ 32 + 8) (2 ^ 32 + 8) computeLength_wideEvent
      (by decide) (by decide)
  obtain ⟨-, -, hinside, -⟩ := ofEvent_spec computeLength_wideEvent
  obtain ⟨s₂, b₂, hfinal₂, hth₂, hpc₂, hpos₂, htally₂, hheader₂⟩ :=
    final_stores hugeRing (fun _ => .forced) hth₁ hpc₁
      (by rw [hsize]; exact hinside) (by rw [hsize]; decide)
  rw [hpos] at hheader₂ hpos₂
  obtain ⟨s₃, hfinal₃, hth₃, htally₃, hheader₃⟩ :=
    final_drop hugeRing (fun _ => .forced) (n := 2 ^ 32) hth₂ hpc₂
      (by rw [hpos₂, hheader₂, hheader₁])
  rw [hpos₂] at hheader₃
  refine ⟨List.replicate 5 (.advance () false) ++
    (List.replicate (Submission.ofEvent wideEvent).stores.length (.advance () false) ++
      List.replicate 4 (.advance () false)), ?_⟩
  have hfinal : (submission hugeRing fun _ => .forced).final .init
      (.submit () (.ofEvent wideEvent) :: (List.replicate 5 (.advance () false) ++
        (List.replicate (Submission.ofEvent wideEvent).stores.length (.advance () false) ++
          List.replicate 4 (.advance () false)))) = s₃ := by
    rw [← List.cons_append, Machine.final_append, hfinal₁, Machine.final_append, hfinal₂, hfinal₃]
  rw [hfinal]
  refine ⟨?_, hth₃, ?_, serialization_wideEvent, ?_, ?_⟩
  · intro a ha
    rcases List.mem_append.mp ha with ha | ha
    · exact List.eq_of_mem_replicate ha
    · rcases List.mem_append.mp ha with ha | ha <;> exact List.eq_of_mem_replicate ha
  · rw [htally₃, htally₂, htally₁]
  · rw [hheader₃, RecordHeader.isBusy_commit]
  · rw [hheader₃, RecordHeader.len_commit, RecordHeader.len, RecordHeader.lenAndFlags_new]
    exact Nat.mod_self _

end Manytrace.Agent
