import Manytrace.Mpscbuf.ConsumerSteps

/-! The ring space invariant of runs in which every buffer is committed. -/
namespace Manytrace.Mpscbuf
open Manytrace.Core Manytrace.Core.MirroredMemory

variable {ι : Type*}

/-- No buffer is discarded and every length fits the 32 bits of its header. -/
def CommitsOnly : Act ι → Prop
  | .producer _ (.reserve size) => size < 2 ^ 32
  | .producer _ .discard => False
  | _ => True

def ProducerPc.Plain : ProducerPc → Prop
  | .loadedConsumer size _ _ | .locked size _ _ | .admitted size _ _ => size < 2 ^ 32
  | .discarding _ _ | .discarded _ => False
  | _ => True

section Runs
variable {M : Memory} {s : State ι} [DecidableEq ι] {wakeup : ι → WakeupStrategy}

theorem plain_setPc (h : ∀ q, (s.procs q).Plain) (p : ι) {pc : ProducerPc} (hpc : pc.Plain) :
    ∀ q, ((s.setPc p pc).procs q).Plain := by
  intro q
  by_cases hq : q = p
  · subst hq
    simpa [State.setPc] using hpc
  · simpa [State.setPc, Function.update_of_ne hq] using h q

theorem plain_producerStep (h : ∀ q, (s.procs q).Plain) (p : ι) (a : ProducerAct)
    (ha : CommitsOnly (.producer p a)) :
    ∀ q, ((producerStep M wakeup s p a).1.procs q).Plain := by
  have hp := h p
  have hmove := producerStep_move M wakeup s p a
  generalize producerStep M wakeup s p a = r at hmove ⊢
  cases hmove with
  | stay | overflow | incrementDropped => exact h
  | reserve => exact plain_setPc h p ha
  | lock hpc | admitted hpc =>
    rw [hpc] at hp
    exact plain_setPc h p hp
  | discard => exact ha.elim
  | discardStore hpc =>
    rw [hpc] at hp
    exact hp.elim
  | _ => exact plain_setPc h p trivial

omit [DecidableEq ι] in
theorem consumerStep_procs (s : State ι) (a : ConsumerAct) :
    (consumerStep M s a).1.procs = s.procs := by
  cases a with
  | loadConsumer | advanceConsumer | dropRecord | wait =>
    simp only [consumerStep]
    cases s.reader <;> rfl
  | loadProducer | loadHeader | wake =>
    simp only [consumerStep]
    cases s.reader <;> first | rfl | (dsimp only; split_ifs <;> rfl)

theorem plain_step (h : ∀ q, (s.procs q).Plain) (a : Act ι) (ha : CommitsOnly a) :
    ∀ q, (((ringBuf M wakeup).step s a).1.procs q).Plain := by
  cases a with
  | producer p a => exact plain_producerStep h p a ha
  | consumer a =>
    intro q
    change ((consumerStep M s a).1.procs q).Plain
    rw [consumerStep_procs]
    exact h q

omit [DecidableEq ι] in
theorem sparesDiscarded_of_plain (h : ∀ q, (s.procs q).Plain) (a : Act ι) :
    SparesDiscarded M s a := by
  cases a with
  | consumer a => trivial
  | producer p a =>
    cases a with
    | writeHeader =>
      intro size pp np hpc
      have hp := h p
      rw [hpc] at hp
      refine ⟨hp, fun q v hq => ?_⟩
      have hplain := h q
      cases hpq : s.procs q with
      | discarded b => simp [hpq, ProducerPc.Plain] at hplain
      | _ => simp [hpq, ProducerPc.staleHeader] at hq
    | _ => trivial

variable {acts : List (Act ι)}

theorem meets_commitsOnly (h : ∀ a ∈ acts, CommitsOnly a) :
    (ringBuf M wakeup).Meets (fun s a => (∀ q, (s.procs q).Plain) ∧ CommitsOnly a)
      State.init acts :=
  Machine.Meets.of_invariant (I := fun s => ∀ q, (s.procs q).Plain)
    (fun _ a hs ha => plain_step hs a ha) (fun _ _ hs ha => ⟨hs, ha⟩)
    (fun _ => trivial) (Machine.meets_of_forall h State.init)

theorem sparesDiscarded_of_commitsOnly (h : ∀ a ∈ acts, CommitsOnly a) :
    (ringBuf M wakeup).Meets (SparesDiscarded M) State.init acts :=
  (meets_commitsOnly h).mono fun _ a hg => sparesDiscarded_of_plain hg.1 a

theorem inv_of_commitsOnly (h : ∀ a ∈ acts, CommitsOnly a) :
    Inv M ((ringBuf M wakeup).final State.init acts) :=
  run_inv wakeup (sparesDiscarded_of_commitsOnly h)

end Runs

/-- The header of a record is not split by the end of the ring, and its bytes are within
the double mapping. -/
structure InBounds (M : Memory) (position size : ℕ) : Prop where
  header : position % M.dataSize + headerSize ≤ M.dataSize
  range : position % M.dataSize + totalLen size ≤ 2 * M.dataSize

theorem inBounds_of {M : Memory} {position size : ℕ} (hpos : 8 ∣ position)
    (hlap : totalLen size ≤ M.dataSize) : InBounds M position size where
  header := M.header_fits hpos
  range := by
    have := Nat.mod_lt position M.dataSize_pos
    omega

/-- What the positions of a state say about the bytes of the ring. -/
structure SpaceInv (M : Memory) (s : State ι) : Prop where
  consumer_le : s.consumer ≤ s.producer
  producer_le : s.producer ≤ s.consumer + M.dataSize - 1
  consumer_dvd : 8 ∣ s.consumer
  producer_dvd : 8 ∣ s.producer
  /-- The subtraction in `reserve`, with the consumer position read before the lock. -/
  no_underflow : ∀ p size total consumerPos, s.procs p = .locked size total consumerPos →
    consumerPos ≤ s.producer + total
  /-- The record `reserve` is about to write or publish. -/
  admitted : ∀ p size producerPos newProdPos,
    s.procs p = .admitted size producerPos newProdPos ∨
      s.procs p = .headerWritten size producerPos newProdPos →
    InBounds M producerPos size ∧
      ∀ r ∈ s.live, Apart M.dataSize r.position r.total producerPos (totalLen size)
  filled : Tiles s.consumer s.live s.producer
  live : ∀ r ∈ s.live, InBounds M r.position r.size
  disjoint : ∀ r ∈ s.live, ∀ t ∈ s.live, r ≠ t →
    Apart M.dataSize r.position r.total t.position t.total
  distinct : s.live.Pairwise fun r t => r.position < t.position

theorem Inv.spaceInv {M : Memory} {s : State ι} (h : Inv M s) : SpaceInv M s := by
  obtain ⟨hcons, -⟩ := h.released.eight_dvd (Nat.dvd_zero 8)
  obtain ⟨hprod, hpos⟩ := h.live.eight_dvd hcons
  have hspace := h.space
  have hle := h.live.le
  refine ⟨hle, by omega, hcons, hprod, ?_, ?_, h.live, ?_, ?_, ?_⟩
  · intro p size total c hpc
    have hp := h.pcs p
    rw [hpc] at hp
    exact hp.2.trans (hle.trans (Nat.le_add_right _ _))
  · intro p size pp np hpc
    have hroom : Room M s size pp np := by
      have hp := h.pcs p
      rcases hpc with hpc | hpc
      · rwa [hpc] at hp
      · rw [hpc] at hp
        exact hp.1
    refine ⟨inBounds_of (hroom.current ▸ hprod) ?_, fun r hr => h.apart_room hroom hr⟩
    have hnext := hroom.next
    have hfits := hroom.fits
    have hcur := hroom.current
    omega
  · intro r hr
    refine inBounds_of (hpos r hr) ?_
    have hmem := h.live.mem hr
    simp only [Reservation.total] at hmem
    omega
  · intro r hr t ht hne
    exact h.live.apart hspace.le hr ht hne
  · refine h.live.pairwise.imp fun {r t} hrt => ?_
    have := r.total_pos
    omega

section Space
variable [DecidableEq ι]

/-- In every interleaving of reservations, commits and the consumer the ring space
invariant holds. -/
theorem ring_space (M : Memory) (wakeup : ι → WakeupStrategy) (acts : List (Act ι))
    (h : ∀ a ∈ acts, CommitsOnly a) :
    SpaceInv M ((ringBuf M wakeup).final State.init acts) :=
  (inv_of_commitsOnly h).spaceInv

end Space

/-- The smallest ring. -/
def pageRing : Memory := ⟨4096, ⟨12, rfl⟩, le_rfl⟩

/-- A ring of 8 GiB. -/
def hugeRing : Memory := ⟨2 ^ 33, ⟨33, rfl⟩, by decide⟩

/-- A whole `reserve` of `p`, undisturbed. -/
def reserveActs (p : ι) (size : ℕ) : List (Act ι) :=
  [.reserve size, .lock, .loadProducer, .writeHeader, .storeProducer, .unlock].map (.producer p)

def commitActs (p : ι) : List (Act ι) :=
  [.drop, .commitLoad, .commitStore, .notify].map (.producer p)

def consumeActs : List (Act ι) := [.loadConsumer, .loadProducer, .loadHeader].map .consumer

/-- Reservation 1 has read the consumer position before a record came and went. -/
def staleReserve : List (Act ℕ) :=
  .producer 1 (.reserve 9) :: (reserveActs 0 5 ++ commitActs 0 ++ consumeActs ++
    [.consumer .dropRecord, .producer 1 .lock])

theorem ring_space_stale_position :
    ((ringBuf pageRing fun _ => .forced).final State.init staleReserve).procs 1 =
        .locked 9 24 0 ∧
      ((ringBuf pageRing fun _ => .forced).final State.init staleReserve).consumer = 16 ∧
      SpaceInv pageRing ((ringBuf pageRing fun _ => .forced).final State.init staleReserve) :=
  ⟨by decide, by decide, ring_space pageRing _ staleReserve
    (by simp [staleReserve, reserveActs, commitActs, consumeActs, CommitsOnly])⟩

end Manytrace.Mpscbuf
