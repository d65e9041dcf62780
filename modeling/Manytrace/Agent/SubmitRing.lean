import Manytrace.Mpscbuf.Space
import Manytrace.Agent.Submit

/-! The submissions of any number of threads as a run of the ring. -/
namespace Manytrace.Agent
open Manytrace.Core Manytrace.Mpscbuf

variable {ι : Type*}

def Submission.Small (x : Submission) : Prop := ∀ n ∈ x.length, n < 2 ^ 32

def SmallRecords : SubmitAct ι → Prop
  | .submit _ x => x.Small
  | .handleSubmit _ track x => (∀ t ∈ track, t.Small) ∧ x.Small
  | _ => True

instance (x : Submission) : Decidable x.Small :=
  inferInstanceAs (Decidable (∀ n ∈ x.length, n < 2 ^ 32))

instance : DecidablePred (SmallRecords : SubmitAct ι → Prop)
  | .submit _ x => inferInstanceAs (Decidable x.Small)
  | .handleSubmit _ track x => inferInstanceAs (Decidable ((∀ t ∈ track, t.Small) ∧ x.Small))
  | .advance _ _ | .consumer _ => .isTrue trivial

def SubmitPc.next? : SubmitPc → Option Submission
  | .idle => none
  | .reserving _ next | .serializing _ _ next | .dropping _ next => next

def SmallNext (threads : ι → SubmitPc) : Prop := ∀ p, ∀ x ∈ (threads p).next?, x.Small

section Below
variable [DecidableEq ι] (M : Memory) (wakeup : ι → WakeupStrategy)

/-- The acts of a step are what happens to the ring, and they only commit. -/
structure Emits (s : Submitting ι) (r : Submitting ι × List (Act ι)) : Prop where
  ring : r.1.ring = (ringBuf M wakeup).final s.ring r.2
  commits : ∀ a ∈ r.2, CommitsOnly a
  small : SmallNext r.1.threads

variable {M wakeup} {s : Submitting ι} {p : ι}

theorem SmallNext.update {threads : ι → SubmitPc} (h : SmallNext threads) {pc : SubmitPc}
    (hpc : ∀ x ∈ pc.next?, x.Small) : SmallNext (Function.update threads p pc) := by
  intro q
  by_cases hq : q = p
  · subst hq
    rw [Function.update_self]
    exact hpc
  · rw [Function.update_of_ne hq]
    exact h q

theorem emits_submit (h : SmallNext s.threads) {x : Submission} {next : Option Submission}
    (hx : x.Small) (hnext : ∀ y ∈ next, y.Small) :
    Emits M wakeup s (s.submit M wakeup p x next) := by
  unfold Submitting.submit
  cases hlength : x.length with
  | none => exact ⟨rfl, by simp, h.update (by simp [SubmitPc.next?])⟩
  | some size =>
    have hcommits : ∀ a ∈ [Act.producer p (.reserve size)], CommitsOnly a := by
      simpa [CommitsOnly] using hx size hlength
    dsimp only
    cases failure? (producerStep M wakeup s.ring p (.reserve size)).2 with
    | some f => exact ⟨rfl, hcommits, h.update (by simp [SubmitPc.next?])⟩
    | none => exact ⟨rfl, hcommits, h.update hnext⟩

theorem emits_submit_named (h : SmallNext s.threads) {x : Submission} (hx : x.Small) :
    Emits M wakeup s (Submitting.submit M wakeup
      { s with nameSent := Function.update s.nameSent p true } p x none) := by
  have hs : Emits M wakeup { s with nameSent := Function.update s.nameSent p true }
      (Submitting.submit M wakeup
        { s with nameSent := Function.update s.nameSent p true } p x none) :=
    emits_submit (s := { s with nameSent := Function.update s.nameSent p true }) h hx
      (fun y hy => by cases hy)
  exact ⟨hs.ring, hs.commits, hs.small⟩

theorem emits_finish (h : SmallNext s.threads) {serialized : Bool} {next : Option Submission}
    (hnext : ∀ y ∈ next, y.Small) : Emits M wakeup s (s.finish M wakeup p serialized next) := by
  have hidle : ∀ x ∈ SubmitPc.idle.next?, x.Small := by simp [SubmitPc.next?]
  unfold Submitting.finish
  split_ifs
  · cases next with
    | none => exact ⟨rfl, by simp, h.update hidle⟩
    | some x => exact emits_submit_named h (hnext x rfl)
  · exact ⟨rfl, by simp, h.update hidle⟩

omit [DecidableEq ι] in
theorem commitsOnly_reserveAct (timeout : Bool) (pc : ProducerPc) :
    CommitsOnly (.producer p (reserveAct timeout pc)) := by
  cases pc with
  | loadedConsumer size total c => cases timeout <;> trivial
  | _ => trivial

omit [DecidableEq ι] in
theorem commitsOnly_dropAct (pc : ProducerPc) : CommitsOnly (.producer p (dropAct pc)) := by
  cases pc <;> trivial

theorem emits_reserved (h : SmallNext s.threads) {x : Submission} {next : Option Submission}
    (hnext : ∀ y ∈ next, y.Small) {a : ProducerAct} (ha : CommitsOnly (.producer p a)) :
    Emits M wakeup s (s.reserved p x next (producerStep M wakeup s.ring p a),
      [.producer p a]) := by
  refine ⟨?_, by simpa using ha, ?_⟩
  · unfold Submitting.reserved
    dsimp only
    split <;> rfl
  · unfold Submitting.reserved
    dsimp only
    split
    · exact h.update (by simp [SubmitPc.next?])
    · exact h.update hnext
    · exact h

theorem emits_advance (h : SmallNext s.threads) (timeout : Bool) :
    Emits M wakeup s (s.advance M wakeup p timeout) := by
  have hp := h p
  unfold Submitting.advance
  cases hth : s.threads p with
  | idle => exact ⟨rfl, by simp, h⟩
  | reserving x next =>
    rw [hth] at hp
    exact emits_reserved h hp (commitsOnly_reserveAct timeout _)
  | serializing stores serialized next =>
    rw [hth] at hp
    cases stores with
    | nil => exact ⟨rfl, by simp [CommitsOnly], h.update hp⟩
    | cons v stores => exact ⟨rfl, by simp [CommitsOnly], h.update hp⟩
  | dropping serialized next =>
    rw [hth] at hp
    have hdrop : CommitsOnly (.producer p (dropAct (s.ring.procs p))) := commitsOnly_dropAct _
    dsimp only
    split
    · have hfinish : Emits M wakeup
          { s with ring := (producerStep M wakeup s.ring p (dropAct (s.ring.procs p))).1 }
          (Submitting.finish M wakeup
            { s with ring := (producerStep M wakeup s.ring p (dropAct (s.ring.procs p))).1 }
            p serialized next) :=
        emits_finish
          (s := { s with
            ring := (producerStep M wakeup s.ring p (dropAct (s.ring.procs p))).1 }) h hp
      exact ⟨hfinish.ring, List.forall_mem_cons.mpr ⟨hdrop, hfinish.commits⟩, hfinish.small⟩
    · exact ⟨rfl, by simpa using hdrop, h⟩

theorem emits_handleSubmit (h : SmallNext s.threads) {track : Option Submission}
    {x : Submission} (htrack : ∀ t ∈ track, t.Small) (hx : x.Small) :
    Emits M wakeup s (s.handleSubmit M wakeup p track x) := by
  unfold Submitting.handleSubmit
  split_ifs
  · exact emits_submit h hx (by simp)
  · cases track with
    | some t => exact emits_submit h (htrack t rfl) (by simpa using hx)
    | none => exact emits_submit_named h hx

theorem emits_step (h : SmallNext s.threads) {a : SubmitAct ι} (ha : SmallRecords a) :
    Emits M wakeup s ((submission M wakeup).step s a) := by
  have hself : Emits M wakeup s (s, []) := ⟨rfl, by simp, h⟩
  cases a with
  | submit p x =>
    simp only [submission]
    split_ifs
    · exact emits_submit h ha (by simp)
    · exact hself
  | handleSubmit p track x =>
    simp only [submission]
    split_ifs
    · exact emits_handleSubmit h ha.1 ha.2
    · exact hself
  | advance p timeout => exact emits_advance h timeout
  | consumer a => exact ⟨rfl, by simp [submission, CommitsOnly], h⟩

/-- The ring has made a run of its own. -/
theorem submission_ring (M : Memory) (wakeup : ι → WakeupStrategy) {acts : List (SubmitAct ι)}
    (h : ∀ a ∈ acts, SmallRecords a) :
    ((submission M wakeup).final .init acts).ring =
        (ringBuf M wakeup).final State.init ((submission M wakeup).outputs .init acts) ∧
      ∀ a ∈ (submission M wakeup).outputs .init acts, CommitsOnly a := by
  have hrun := Machine.history (M := submission M wakeup)
    (I := fun s os => (s.ring = (ringBuf M wakeup).final State.init os ∧
      ∀ a ∈ os, CommitsOnly a) ∧ SmallNext s.threads) ?_ ?_
    (Machine.meets_of_forall h Submitting.init)
  · exact hrun.1
  · rintro s os a ⟨⟨hring, hcommits⟩, hsmall⟩ ha
    have hemits : Emits M wakeup s ((submission M wakeup).step s a) := emits_step hsmall ha
    refine ⟨⟨?_, ?_⟩, hemits.small⟩
    · rw [hemits.ring, hring, Machine.final_append]
    · exact List.forall_mem_append.mpr ⟨hcommits, hemits.commits⟩
  · exact ⟨⟨rfl, by simp⟩, by simp [SmallNext, Submitting.init, SubmitPc.next?]⟩

end Below

end Manytrace.Agent
