import Manytrace.Mpscbuf.Space

/-! Wakeups. A consumer that waits only after it has found nothing is not left waiting with
a record it could take, unless a producer is still about to notify it. -/
namespace Manytrace.Mpscbuf
open Manytrace.Core

variable {ι : Type*}

/-- There is nothing to take: no record, or the oldest is busy. -/
def HeadBusy (s : State ι) : Prop := ∀ r rest, s.live = r :: rest → ∃ p, r.status = .busy p

/-- The consumer has been notified, or is about to be. -/
def Alerted (s : State ι) : Prop := (∃ p, s.procs p = .notifying) ∨ 0 < s.eventfd

/-- A consumer that has found nothing has missed nothing. -/
def Watched (s : State ι) : Prop :=
  s.reader = .drained ∨ s.reader = .waiting → HeadBusy s ∨ Alerted s

/-- `wait` is called after `consume` has returned `None`. -/
def WaitsDrained (s : State ι) (a : Act ι) : Prop := a = .consumer .wait → s.reader = .drained

instance [DecidableEq ι] (s : State ι) (a : Act ι) : Decidable (WaitsDrained s a) :=
  inferInstanceAs (Decidable (a = .consumer .wait → s.reader = .drained))

/-- What a step of a forced producer means for a waiting consumer. -/
structure Unnoticed (s : State ι) (p : ι) (s' : State ι) : Prop where
  reader : s'.reader = s.reader
  others : ∀ q, q ≠ p → s'.procs q = s.procs q
  outcome : s'.procs p = .notifying ∨ 0 < s'.eventfd ∨
    (s.procs p ≠ .notifying ∧ s'.eventfd = s.eventfd ∧
      ∃ new, s'.live = s.live ++ new ∧ ∀ r ∈ new, ∃ q, r.status = .busy q)

section Producers
variable {M : Memory} {wakeup : ι → WakeupStrategy} {s s' : State ι} {p : ι}

theorem unnoticed_self (s : State ι) (p : ι) : Unnoticed s p s := by
  refine ⟨rfl, fun _ _ => rfl, ?_⟩
  by_cases hp : s.procs p = .notifying
  · exact Or.inl hp
  · exact Or.inr (Or.inr ⟨hp, rfl, [], by simp, by simp⟩)

variable [DecidableEq ι]

/-- A step that moves one reservation and leaves the records alone. -/
theorem unnoticed_of_move {old pc : ProducerPc} (hpc : s.procs p = old) (hold : old ≠ .notifying)
    (hreader : s'.reader = s.reader) (hprocs : s'.procs = Function.update s.procs p pc)
    (heventfd : s'.eventfd = s.eventfd) (hlive : s'.live = s.live) : Unnoticed s p s' := by
  refine ⟨hreader, ?_, ?_⟩
  · intro q hq
    rw [hprocs, Function.update_of_ne hq]
  · exact Or.inr (Or.inr ⟨hpc ▸ hold, heventfd, [], by rw [hlive, List.append_nil],
      by simp⟩)

/-- A step after which the reservation is about to notify. -/
theorem unnoticed_of_notifying (hreader : s'.reader = s.reader)
    (hprocs : s'.procs = Function.update s.procs p .notifying) : Unnoticed s p s' := by
  refine ⟨hreader, ?_, ?_⟩
  · intro q hq
    rw [hprocs, Function.update_of_ne hq]
  · exact Or.inl (by rw [hprocs, Function.update_self])

theorem producerStep_unnoticed (hforced : wakeup p = .forced) (hplain : (s.procs p).Plain)
    (a : ProducerAct) : Unnoticed s p (producerStep M wakeup s p a).1 := by
  have hself := unnoticed_self s p
  have hmove := producerStep_move M wakeup s p a
  generalize producerStep M wakeup s p a = r at hmove ⊢
  cases hmove with
  | stay | overflow => exact hself
  | publish hpc =>
    refine ⟨rfl, fun q hq => Function.update_of_ne hq _ _, Or.inr (Or.inr ⟨?_, rfl, ?_⟩)⟩
    · rw [hpc]
      simp
    · exact ⟨[_], rfl, by simp⟩
  | discardStore hpc =>
    rw [hpc] at hplain
    exact hplain.elim
  | drop hpc =>
    rcases hpc with hpc | hpc
    · exact unnoticed_of_move hpc (by simp) rfl rfl rfl rfl
    · rw [hpc] at hplain
      exact hplain.elim
  | dropDiscarded | commitStore => exact unnoticed_of_notifying rfl rfl
  | notify =>
    exact ⟨rfl, fun q hq => Function.update_of_ne hq _ _, Or.inr (Or.inl (Nat.succ_pos _))⟩
  | finish _ hwakeup =>
    rw [hforced] at hwakeup
    cases hwakeup
  | incrementDropped => exact ⟨rfl, fun _ _ => rfl, hself.outcome⟩
  | reserve hpc | lock hpc | timeout hpc | admitted hpc | refuse hpc | writeHeader hpc | own hpc
  | fail hpc | write _ hpc | discard hpc | commitLoad hpc =>
    exact unnoticed_of_move hpc (by simp) rfl rfl rfl rfl

omit [DecidableEq ι] in
theorem Unnoticed.watched (h : Unnoticed s p s') (hs : Watched s) : Watched s' := by
  intro hreader
  rw [h.reader] at hreader
  rcases h.outcome with hnotifying | heventfd | ⟨hnot, heventfd, new, hlive, hnew⟩
  · exact Or.inr (Or.inl ⟨p, hnotifying⟩)
  · exact Or.inr (Or.inr heventfd)
  · rcases hs hreader with hbusy | ⟨q, hq⟩ | hpos
    · refine Or.inl ?_
      intro r rest hr
      rw [hlive] at hr
      cases hold : s.live with
      | nil =>
        rw [hold, List.nil_append] at hr
        exact hnew r (hr ▸ List.mem_cons_self)
      | cons r' rest' =>
        rw [hold, List.cons_append] at hr
        obtain ⟨rfl, -⟩ := List.cons.inj hr
        exact hbusy r' rest' hold
    · have hqp : q ≠ p := fun heq => hnot (heq ▸ hq)
      exact Or.inr (Or.inl ⟨q, (h.others q hqp).trans hq⟩)
    · exact Or.inr (Or.inr (heventfd ▸ hpos))

end Producers

section Consumer
variable {M : Memory} {s : State ι}

def ConsumerPc.blocked : ConsumerPc → Bool
  | .drained | .waiting => true
  | _ => false

/-- A step that leaves the reader busy with `consume`. -/
theorem watched_of_reader {s' : State ι} (h : s'.reader.blocked = false) : Watched s' := by
  rintro (hdrained | hwaiting)
  · rw [hdrained] at h
    cases h
  · rw [hwaiting] at h
    cases h

theorem consumerStep_watched (h : Inv M s) (hs : Watched s) {a : ConsumerAct}
    (hwait : a = .wait → s.reader = .drained) : Watched (consumerStep M s a).1 := by
  cases a with
  | loadConsumer =>
    simp only [consumerStep]
    cases hreader : s.reader <;> first
      | exact hs
      | exact watched_of_reader rfl
  | loadProducer =>
    simp only [consumerStep]
    cases hreader : s.reader with
    | loadedConsumer c =>
      have hc : c = s.consumer := (hreader ▸ h.reader : ReaderOk M s (.loadedConsumer c)).1
      dsimp only
      split_ifs with hempty
      · -- The consumer has caught up, so there is no record.
        have hnil := h.live_eq_nil_iff.mpr (hc ▸ hempty)
        refine fun _ => Or.inl fun r rest hr => ?_
        change s.live = r :: rest at hr
        rw [hnil] at hr
        cases hr
      · exact watched_of_reader rfl
    | _ => exact hs
  | loadHeader =>
    cases hreader : s.reader with
    | loadedProducer c =>
      obtain ⟨r, rest, hlive, hstep⟩ := h.loadHeader_eq hreader
      rw [hstep]
      cases hstatus : r.status with
      | busy p =>
        refine fun _ => Or.inl fun r' rest' hr => ?_
        change s.live = r' :: rest' at hr
        rw [hlive] at hr
        obtain ⟨rfl, -⟩ := List.cons.inj hr
        exact ⟨p, hstatus⟩
      | committed bs => exact watched_of_reader rfl
      | discarded => exact watched_of_reader rfl
    | _ =>
      simp only [consumerStep, hreader]
      exact hs
  | advanceConsumer =>
    simp only [consumerStep]
    cases s.reader <;> first
      | exact hs
      | exact watched_of_reader rfl
  | dropRecord =>
    simp only [consumerStep]
    cases s.reader <;> first
      | exact hs
      | exact watched_of_reader rfl
  | wait =>
    have hdrained := hwait rfl
    simp only [consumerStep, hdrained]
    exact fun _ => hs (Or.inl hdrained)
  | wake =>
    simp only [consumerStep]
    cases s.reader with
    | waiting =>
      dsimp only
      split_ifs
      · exact watched_of_reader rfl
      · exact hs
    | _ => exact hs

/-- With a busy record or none at the head, `consume` finds nothing. -/
theorem HeadBusy.consume [DecidableEq ι] (h : Inv M s) (hbusy : HeadBusy s)
    (wakeup : ι → WakeupStrategy) :
    (s.consumer < s.producer →
      RecordHeader.isBusy (M.loadHeader s.mem (s.consumer &&& M.sizeMask)) = true) ∧
      (ringBuf M wakeup).outputs (s.setReader .idle) consumeActs = [.returned none] := by
  have hhead : s.consumer < s.producer →
      RecordHeader.isBusy (M.loadHeader s.mem (s.consumer &&& M.sizeMask)) = true := by
    intro hlt
    have hne : s.live ≠ [] := fun hnil => by
      have := h.live_eq_nil_iff.mp hnil
      omega
    obtain ⟨r, rest, hlive, hpos, -, hstored⟩ := h.head hne
    obtain ⟨p, hstatus⟩ := hbusy r rest hlive
    simp only [Stored, hstatus, hpos] at hstored
    rw [M.and_sizeMask, M.loadHeader_mod, hstored]
    exact RecordHeader.isBusy_new r.size
  refine ⟨hhead, ?_⟩
  by_cases hempty : s.producer ≤ s.consumer
  · simp [consumeActs, ringBuf, consumerStep, State.setReader, hempty]
  · have hheader := hhead (by omega)
    simp [consumeActs, ringBuf, consumerStep, State.setReader, hempty, hheader]

end Consumer

section Runs
variable [DecidableEq ι]

/-- In every interleaving of producers with `Forced` that reserve less than 4 GiB at a time
and commit, and a consumer that waits after it has found nothing: while it is blocked and no
producer is about to notify it, there is nothing to consume. -/
theorem no_lost_wakeup (M : Memory) (wakeup : ι → WakeupStrategy)
    (hforced : ∀ p, wakeup p = .forced) (acts : List (Act ι))
    (hacts : ∀ a ∈ acts, CommitsOnly a)
    (hwait : (ringBuf M wakeup).Meets WaitsDrained State.init acts) :
    let s := (ringBuf M wakeup).final State.init acts
    s.reader = .waiting → s.eventfd = 0 → (∀ p, s.procs p ≠ .notifying) →
      (s.consumer < s.producer →
        RecordHeader.isBusy (M.loadHeader s.mem (s.consumer &&& M.sizeMask)) = true) ∧
      (ringBuf M wakeup).outputs (s.setReader .idle) consumeActs = [.returned none] := by
  intro s hreader heventfd hnotifying
  have hs : Inv M s ∧ (∀ q, (s.procs q).Plain) ∧ Watched s := by
    refine Machine.invariant (I := fun s => Inv M s ∧ (∀ q, (s.procs q).Plain) ∧ Watched s)
      ?_ ⟨inv_init M, fun _ => trivial, nofun⟩
      ((Machine.meets_of_forall hacts State.init).and hwait)
    rintro s a ⟨hinv, hplain, hwatched⟩ ⟨hcommits, hdrained⟩
    refine ⟨step_inv wakeup hinv a (sparesDiscarded_of_plain hplain a),
      plain_step hplain a hcommits, ?_⟩
    cases a with
    | producer p a =>
      exact (producerStep_unnoticed (hforced p) (hplain p) a).watched hwatched
    | consumer a =>
      exact consumerStep_watched hinv hwatched fun ha => hdrained (ha ▸ rfl)
  obtain ⟨hinv, -, hwatched⟩ := hs
  rcases hwatched (Or.inr hreader) with hbusy | ⟨p, hp⟩ | hpos
  · exact hbusy.consume hinv wakeup
  · exact absurd hp (hnotifying p)
  · omega

end Runs

/-- A record that is committed behind a busy one wakes the consumer in vain. -/
def committedBehindBusy : List (Act Bool) :=
  reserveActs false 8 ++ consumeActs ++ .consumer .wait :: reserveActs true 8 ++
    commitActs true ++ .consumer .wake :: consumeActs ++ [.consumer .wait]

theorem no_lost_wakeup_behind_busy :
    ((ringBuf pageRing fun _ : Bool => .forced).final State.init committedBehindBusy).reader =
        .waiting ∧
      (ringBuf pageRing fun _ => .forced).outputs
        (((ringBuf pageRing fun _ => .forced).final State.init committedBehindBusy).setReader
          .idle) consumeActs = [.returned none] := by
  refine ⟨by decide, (no_lost_wakeup pageRing _ (fun _ => rfl) committedBehindBusy ?_ ?_ ?_ ?_
    ?_).2⟩
  · simp [committedBehindBusy, reserveActs, commitActs, consumeActs, CommitsOnly]
  all_goals decide

/-- The length of the first record does not fit in its header, which says 0. The consumer
goes on in the payload of that record and ends up in the payload of the second one. -/
def wrappedLength : List (Act Bool) :=
  reserveActs false (2 ^ 32) ++
    [.write 0 255, .write 1 255, .write 2 255, .write 3 255].map (.producer false) ++
    commitActs false ++ reserveActs true 8 ++ .producer true (.write 7 128) :: consumeActs ++
    .consumer .dropRecord :: consumeActs ++ .consumer .dropRecord :: consumeActs ++
    [.consumer .wait, .consumer .wake] ++ consumeActs ++
    [.consumer .wait, .producer true (.write 7 0)]

def stuckState : State Bool :=
  (ringBuf hugeRing fun _ => .forced).final State.init wrappedLength

/-- The consumer waits although `consume` would return a record. -/
theorem wrapped_length_loses_wakeup :
    (ringBuf hugeRing fun _ => .forced).Meets WaitsDrained State.init wrappedLength ∧
      stuckState.reader = .waiting ∧ stuckState.eventfd = 0 ∧
      (∀ p, stuckState.procs p ≠ .notifying) ∧ stuckState.consumer < stuckState.producer ∧
      (ringBuf hugeRing fun _ => .forced).outputs (stuckState.setReader .idle) consumeActs =
        [.returned (some [])] := by
  refine ⟨?_, ?_, ?_, ?_, ?_, ?_⟩ <;> decide +kernel

end Manytrace.Mpscbuf
