import Manytrace.Agent.AllOrNothing
import Manytrace.Mpscbuf.Tickets

/-! From `submit` to the consumer: the records that arrive are an interleaving of what the threads
have submitted, each thread's in the order of its calls. -/
namespace Manytrace.Agent
open Manytrace.Core Manytrace.Mpscbuf Manytrace.Protocol

variable {ι : Type*}

/-- The payloads that `consume` has returned. -/
def received (os : List (CallEvent ι)) : List (List UInt8) :=
  (ringEvents os).filterMap Event.payload?

variable [DecidableEq ι] {M : Memory} {wakeup : ι → WakeupStrategy} {s : Calling ι}
  {os : List (CallEvent ι)}

theorem committedBy_eq (p : ι) (os : List (CallEvent ι)) :
    committedBy p os = (entriesOf p (settled (ringEvents os))).map Prod.snd := by
  unfold committedBy entriesOf settled ringEvents
  rw [List.map_filterMap, List.filterMap_filterMap, List.filterMap_filterMap]
  refine List.filterMap_congr fun o _ => ?_
  rcases o with (_ | _ | ⟨q, position, payload⟩ | _ | _) | _
  case ring.committed => by_cases hq : q = p <;> simp [Event.settled?, hq]
  all_goals rfl

section Received
variable (h : Ran M wakeup s os)
include h

theorem deliversInOrder_of_ran : DeliversInOrder M s.sub.ring (ringEvents os) := by
  obtain ⟨acts, hcommits, hring, hevents⟩ := h.ring
  have hagrees := (run_refines wakeup (sparesDiscarded_of_commitsOnly (M := M) hcommits)).agrees
  have hvoid := run_no_void (M := M) wakeup hcommits
  rw [← hevents] at hagrees hvoid
  rw [← hring] at hagrees
  exact h.inv.deliversInOrder hagrees hvoid

theorem ticketed_of_ran :
    Ticketed (tickets (ringEvents os)) (settled (ringEvents os))
      fun p => (s.sub.ring.procs p).pending := by
  obtain ⟨acts, hcommits, hring, hevents⟩ := h.ring
  have hdrawn := drawn_run M wakeup hcommits
  rw [← hring, ← hevents] at hdrawn
  exact (deliversInOrder_of_ran h).ticketed hdrawn

theorem interleaves_received : Interleaves (fun p => committedBy p os) (received os) := by
  have hdelivers := deliversInOrder_of_ran h
  simp only [committedBy_eq]
  exact (ticketed_of_ran h).interleaves hdelivers.settles

theorem pending_of_idle (hidle : ∀ p, s.sub.threads p = .idle) (p : ι) :
    (s.sub.ring.procs p).pending = [] := by
  have hproc : s.sub.ring.procs p = .idle :=
    eq_idle_of_coupled (hidle p ▸ (h.calls p).coupled)
  rw [hproc]
  rfl

/-- Without a call under way, every position that was reserved is committed. -/
theorem committed_of_idle (hidle : ∀ p, s.sub.threads p = .idle) {position : ℕ}
    (hpos : position ∈ (ringEvents os).filterMap Event.position?) :
    ∃ p payload, .committed p position payload ∈ ringEvents os := by
  rw [← tickets_positions] at hpos
  obtain ⟨⟨p, k⟩, hmem, rfl⟩ := List.mem_map.mp hpos
  have hentry := mem_entriesOf.mpr hmem
  rw [(ticketed_of_ran h).own p, pending_of_idle h hidle p, List.append_nil] at hentry
  obtain ⟨⟨k', payload⟩, hsettled, rfl⟩ := List.mem_map.mp hentry
  exact ⟨p, payload, mem_settled.mp (mem_entriesOf.mp hsettled)⟩

theorem committedBy_of_idle (hidle : ∀ p, s.sub.threads p = .idle) (p : ι) :
    committedBy p os = submittedBy p os := by
  have hproc : s.sub.ring.procs p = .idle :=
    eq_idle_of_coupled (hidle p ▸ (h.calls p).coupled)
  rw [h.settled p, hproc]
  exact List.append_nil _

theorem interleavesAll_received (hidle : ∀ p, s.sub.threads p = .idle) {a : ConsumerAct}
    (hnone : .ring (.returned none) ∈ ((submitCalls M wakeup).step s (.consumer a)).2) :
    InterleavesAll (fun p => submittedBy p os) (received os) := by
  have hring : .returned none ∈ ((ringBuf M wakeup).step s.sub.ring (.consumer a)).2 := by
    rw [← mem_ringEvents, (submitCalls_step M wakeup s _).2] at hnone
    simpa [EventAct.lower, submission] using hnone
  have hdelivers := deliversInOrder_of_ran h
  obtain ⟨acts, hcommits, hacts, hevents⟩ := h.ring
  have hagrees := (run_refines wakeup (sparesDiscarded_of_commitsOnly (M := M) hcommits)).agrees
  rw [← hevents, ← hacts] at hagrees
  have hlength := h.inv.all_delivered hagrees hring fun _ => committed_of_idle h hidle
  simp only [← committedBy_of_idle h hidle, committedBy_eq]
  refine (ticketed_of_ran h).interleavesAll hdelivers.settles ?_ (pending_of_idle h hidle)
  rw [received, hlength, ← tickets_positions, List.length_map]

end Received

/-- What the consumer has received is an interleaving of first parts of what the threads have
submitted, of each thread in the order of its calls. When `consume` finds nothing and no call is
under way, nothing of it is missing. -/
theorem threads_received_in_order (M : Memory) (wakeup : ι → WakeupStrategy)
    (acts : List (EventAct ι)) (h : ∀ a ∈ acts, a.Short) :
    let s := (submitCalls M wakeup).final Calling.init acts
    let os := (submitCalls M wakeup).outputs Calling.init acts
    Interleaves (fun p => submittedBy p os ++ unreturned (s.sub.ring.procs p) (s.event p))
        (received os) ∧
      ∀ a, (∀ p, s.sub.threads p = .idle) →
        .ring (.returned none) ∈ ((submitCalls M wakeup).step s (.consumer a)).2 →
        InterleavesAll (fun p => submittedBy p os) (received os) := by
  intro s os
  have hran : Ran M wakeup s os := ran_of_short M wakeup h
  refine ⟨?_, fun a hidle hnone => interleavesAll_received hran hidle hnone⟩
  have hall := interleaves_received hran
  simpa only [hran.settled] using hall

/-- Two threads submit in turn, and everything is consumed. -/
def alternatingCalls : List (EventAct Bool) :=
  .submit true (.write [1] .done) :: .submit false (.write [2] .done) ::
    List.replicate 10 (.advance true false) ++ List.replicate 4 (.advance false false) ++
    .submit true (.write [3] .done) :: List.replicate 6 (.advance false false) ++
    List.replicate 10 (.advance true false) ++
    (List.replicate 3 [.loadConsumer, .loadProducer, .loadHeader, .dropRecord]).flatten.map
      .consumer ++ [.consumer .loadConsumer]

theorem submit_mem_alternating {q : Bool} {v : Serializer}
    (h : .submit q v ∈ alternatingCalls) : (q = true ∧ v = .write [1] .done) ∨
      (q = false ∧ v = .write [2] .done) ∨ (q = true ∧ v = .write [3] .done) := by
  simpa [alternatingCalls] using h

theorem short_alternating : ∀ a ∈ alternatingCalls, a.Short := by
  have hshort : ∀ b, Short (.write [b] .done) := fun b =>
    ⟨⟨by simp [WriteProgram.run], by simp [serialization, WriteProgram.run]⟩,
      by simp [serialization, WriteProgram.run]⟩
  intro a ha
  cases a with
  | submit q v =>
    rcases submit_mem_alternating ha with ⟨-, rfl⟩ | ⟨-, rfl⟩ | ⟨-, rfl⟩ <;> exact hshort _
  | _ => trivial

theorem alternating_drained : .ring (.returned none) ∈ ((submitCalls pageRing fun _ => .forced).step
    ((submitCalls pageRing fun _ => .forced).final Calling.init alternatingCalls)
    (.consumer .loadProducer)).2 := by
  rw [← mem_ringEvents]
  decide +kernel

theorem threads_received_alternating :
    let os := (submitCalls pageRing fun _ => .forced).outputs Calling.init alternatingCalls
    received os = [[1], [2], [3]] ∧ submittedBy true os = [[1], [3]] ∧
      submittedBy false os = [[2]] ∧ InterleavesAll (fun p => submittedBy p os) (received os) := by
  intro os
  refine ⟨by decide +kernel, by decide +kernel, by decide +kernel, ?_⟩
  exact (threads_received_in_order pageRing (fun _ => .forced) alternatingCalls
    short_alternating).2 .loadProducer (by decide +kernel) alternating_drained

end Manytrace.Agent
