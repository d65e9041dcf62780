import Manytrace.Core.Interleaving
import Manytrace.Mpscbuf.Delivery

/-! The positions of the ring as tickets: a reservation draws one with `reserve`, settles it with
its commit, and has no other one in between. So the consumer gets what each of them has
committed in the order of its commits. -/
namespace Manytrace.Mpscbuf
open Manytrace.Core

variable {ι : Type*}

def Event.ticket? : Event ι → Option (ι × ℕ)
  | .reserved p position _ => some (p, position)
  | _ => none

def Event.settled? : Event ι → Option (ι × ℕ × List UInt8)
  | .committed p position payload => some (p, position, payload)
  | _ => none

def tickets (evs : List (Event ι)) : List (ι × ℕ) := evs.filterMap Event.ticket?

def settled (evs : List (Event ι)) : List (ι × ℕ × List UInt8) := evs.filterMap Event.settled?

theorem tickets_positions (evs : List (Event ι)) :
    (tickets evs).map Prod.snd = evs.filterMap Event.position? := by
  unfold tickets
  rw [List.map_filterMap]
  refine List.filterMap_congr fun e _ => ?_
  cases e <;> rfl

theorem mem_settled {evs : List (Event ι)} {p : ι} {position : ℕ} {payload : List UInt8} :
    (p, position, payload) ∈ settled evs ↔ .committed p position payload ∈ evs := by
  unfold settled
  rw [List.mem_filterMap]
  constructor
  · rintro ⟨e, he, heq⟩
    cases e <;> cases heq
    exact he
  · exact fun h => ⟨_, h, rfl⟩

/-- The ticket that is drawn and not settled. -/
def ProducerPc.pending : ProducerPc → List ℕ
  | .published _ position => [position]
  | .owning b | .committing b | .commitLoaded b _ => [b.position]
  | _ => []

section Steps
variable [DecidableEq ι] {M : Memory} {wakeup : ι → WakeupStrategy} {s s' : State ι}
  {evs es : List (Event ι)} {p : ι}

/-- What each reservation has drawn is what it has settled and what is pending. -/
def Drawn (s : State ι) (evs : List (Event ι)) : Prop :=
  ∀ p, entriesOf p (tickets evs) =
    (entriesOf p (settled evs)).map Prod.fst ++ (s.procs p).pending

theorem Drawn.same (h : Drawn s evs) (hpending : ∀ p, (s'.procs p).pending = (s.procs p).pending)
    (ht : tickets es = []) (hs : settled es = []) : Drawn s' (evs ++ es) := by
  intro p
  unfold tickets at ht ⊢
  unfold settled at hs ⊢
  rw [List.filterMap_append, ht, List.filterMap_append, hs, List.append_nil, List.append_nil,
    hpending p]
  exact h p

theorem pending_update (procs : ι → ProducerPc) {pc : ProducerPc}
    (hpc : pc.pending = (procs p).pending) (q : ι) :
    (Function.update procs p pc q).pending = (procs q).pending := by
  by_cases hq : q = p
  · subst hq
    rw [Function.update_self, hpc]
  · rw [Function.update_of_ne hq]

/-- The store of the producer position draws a ticket. -/
theorem Drawn.publish (h : Drawn s evs) {size position : ℕ} (hnone : (s.procs p).pending = [])
    (hprocs : s'.procs = Function.update s.procs p (.published size position)) :
    Drawn s' (evs ++ [.reserved p position size]) := by
  intro q
  have hq := h q
  have htickets : tickets (evs ++ [.reserved p position size]) =
      tickets evs ++ [(p, position)] := List.filterMap_append
  have hsettled : settled (evs ++ [.reserved p position size]) = settled evs := by
    simp [settled, Event.settled?]
  rw [htickets, hsettled, hprocs, entriesOf_append, hq]
  by_cases hpq : q = p
  · subst hpq
    rw [Function.update_self, hnone, entriesOf_singleton_self, List.append_nil]
    rfl
  · rw [Function.update_of_ne hpq, entriesOf_singleton_ne (Ne.symm hpq), List.append_nil]

/-- The store of the header settles it. -/
theorem Drawn.commit (h : Drawn s evs) {position : ℕ} {payload : List UInt8}
    (hone : (s.procs p).pending = [position])
    (hprocs : s'.procs = Function.update s.procs p .notifying) :
    Drawn s' (evs ++ [.committed p position payload]) := by
  intro q
  have hq := h q
  have htickets : tickets (evs ++ [.committed p position payload]) = tickets evs := by
    simp [tickets, Event.ticket?]
  have hsettled : settled (evs ++ [.committed p position payload]) =
      settled evs ++ [(p, position, payload)] := List.filterMap_append
  rw [htickets, hsettled, hprocs, entriesOf_append, hq]
  by_cases hpq : q = p
  · subst hpq
    rw [Function.update_self, hone, entriesOf_singleton_self, List.map_append]
    simp [ProducerPc.pending]
  · rw [Function.update_of_ne hpq, entriesOf_singleton_ne (Ne.symm hpq), List.append_nil]

theorem drawn_producerStep (h : Drawn s evs) (hinv : Inv M s) (hplain : ∀ q, (s.procs q).Plain)
    {a : ProducerAct} (ha : CommitsOnly (.producer p a)) :
    Drawn (producerStep M wakeup s p a).1 (evs ++ (producerStep M wakeup s p a).2) := by
  have hp := hplain p
  have hok := hinv.pcs p
  have hmove := producerStep_move M wakeup s p a
  generalize producerStep M wakeup s p a = r at hmove ⊢
  cases hmove with
  | stay | overflow | incrementDropped => exact h.same (fun _ => rfl) rfl rfl
  | publish hpc => exact h.publish (by rw [hpc]; rfl) rfl
  | commitStore hpc => exact h.commit (by rw [hpc]; rfl) rfl
  | discard => exact ha.elim
  | discardStore hpc =>
    rw [hpc] at hp
    exact hp.elim
  | dropDiscarded hpc hd =>
    rcases hpc with hpc | hpc
    · rw [hpc] at hok
      rw [hinv.owns_header hok, RecordHeader.isDiscarded_new] at hd
      cases hd
    · rw [hpc] at hp
      exact hp.elim
  | drop hpc hd =>
    rcases hpc with hpc | hpc
    · exact h.same (pending_update s.procs (by rw [hpc]; rfl)) rfl rfl
    · rw [hpc] at hp
      exact hp.elim
  | reserve hpc | lock hpc | timeout hpc | admitted hpc | refuse hpc | writeHeader hpc | own hpc
  | fail hpc | write _ hpc | commitLoad hpc | notify hpc | finish hpc =>
    exact h.same (pending_update s.procs (by rw [hpc]; rfl)) rfl rfl

omit [DecidableEq ι] in
theorem consumerStep_events (s : State ι) (a : ConsumerAct) :
    tickets (consumerStep M s a).2 = [] ∧ settled (consumerStep M s a).2 = [] := by
  cases a with
  | loadConsumer | advanceConsumer | dropRecord | wait =>
    simp only [consumerStep]
    cases s.reader <;> exact ⟨rfl, rfl⟩
  | loadProducer | loadHeader | wake =>
    simp only [consumerStep]
    cases s.reader <;> first | exact ⟨rfl, rfl⟩ | (dsimp only; split_ifs <;> exact ⟨rfl, rfl⟩)

theorem drawn_step (h : Drawn s evs) (hinv : Inv M s) (hplain : ∀ q, (s.procs q).Plain)
    {a : Act ι} (ha : CommitsOnly a) :
    Drawn ((ringBuf M wakeup).step s a).1 (evs ++ ((ringBuf M wakeup).step s a).2) := by
  cases a with
  | producer p a => exact drawn_producerStep h hinv hplain ha
  | consumer a =>
    obtain ⟨ht, hs⟩ := consumerStep_events (M := M) s a
    refine h.same (fun p => ?_) ht hs
    change ((consumerStep M s a).1.procs p).pending = (s.procs p).pending
    rw [consumerStep_procs]

variable {acts : List (Act ι)}

variable (M wakeup) in
theorem drawn_run (h : ∀ a ∈ acts, CommitsOnly a) :
    Drawn ((ringBuf M wakeup).final State.init acts)
      ((ringBuf M wakeup).outputs State.init acts) := by
  have hrun := Machine.history (M := ringBuf M wakeup) (I := fun s os => Inv M s ∧ Drawn s os) ?_
    ⟨inv_init M, fun _ => rfl⟩ (meets_commitsOnly h)
  · exact hrun.2
  · rintro s os a ⟨hinv, hdrawn⟩ ⟨hplain, ha⟩
    exact ⟨step_inv wakeup hinv a (sparesDiscarded_of_plain hplain a),
      drawn_step hdrawn hinv hplain ha⟩

omit [DecidableEq ι] in
theorem DeliversInOrder.settles (h : DeliversInOrder M s evs) :
    Settles (tickets evs) (settled evs) (evs.filterMap Event.payload?) := by
  intro i d hd
  obtain ⟨position, p, hpos, hmem⟩ := h.committed i d hd
  exact ⟨p, position, by rw [tickets_positions, hpos], mem_settled.mpr hmem⟩

theorem DeliversInOrder.ticketed (h : DeliversInOrder M s evs) (hdrawn : Drawn s evs) :
    Ticketed (tickets evs) (settled evs) fun p => (s.procs p).pending where
  nodup := by
    rw [tickets_positions]
    exact h.ordered.imp fun hlt => hlt.ne
  own := hdrawn

end Steps

end Manytrace.Mpscbuf
