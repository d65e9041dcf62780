import Mathlib.Data.Fintype.Basic
import Manytrace.Mpscbuf.Space

/-! Discarding a reservation. Between the store of the discard header and the drop of the
buffer the record may be skipped and its bytes reserved again; the drop then takes the
header of the new record for its own. -/
namespace Manytrace.Mpscbuf
open Manytrace.Core Manytrace.Core.MirroredMemory

variable {ι : Type*}

def ProducerPc.buffer? : ProducerPc → Option ReservedBuffer
  | .owning b | .discarding b _ | .discarded b | .committing b | .commitLoaded b _ => some b
  | _ => none

section Steps
variable [DecidableEq ι] {M : Memory} {wakeup : ι → WakeupStrategy} {s : State ι} {p : ι}
  {b : ReservedBuffer}

/-- No step of a discarded buffer changes a byte of another reservation. -/
def DiscardSparesOthers (M : Memory) (wakeup : ι → WakeupStrategy) (s : State ι) : Prop :=
  ∀ p b a, (s.procs p).buffer? = some b → b.discarded = true →
    ∀ r ∈ s.live, r.position ≠ b.position →
      Agree M.dataSize ((ringBuf M wakeup).step s (.producer p a)).1.mem s.mem
        r.position r.total

omit [DecidableEq ι] in
/-- A buffer that has been discarded is only ever about to be dropped. -/
theorem Inv.pc_of_discarded (h : Inv M s) (hb : (s.procs p).buffer? = some b)
    (hd : b.discarded = true) : s.procs p = .discarded b := by
  have hp := h.pcs p
  have hkept : ∀ {b'}, some b' = some b → ¬ Owns M s p b' := by
    rintro b' ⟨⟩ ho
    simp [ho.kept] at hd
  cases hpc : s.procs p with
  | owning b' | committing b' =>
    rw [hpc] at hp hb
    exact absurd hp (hkept hb)
  | discarding b' current | commitLoaded b' current =>
    rw [hpc] at hp hb
    exact absurd hp.1 (hkept hb)
  | discarded b' =>
    rw [hpc] at hb
    exact congrArg _ (Option.some.inj hb)
  | _ =>
    rw [hpc] at hb
    cases hb

theorem Inv.discarded_step_mem (h : Inv M s) (hpc : s.procs p = .discarded b)
    (a : ProducerAct) : (producerStep M wakeup s p a).1.mem = s.mem := by
  have hst := h.pcs p
  rw [hpc] at hst
  cases a with
  | drop => simp [producerStep, hpc, hst.header, State.setPc]
  | _ => simp [producerStep, hpc]

theorem Inv.discardSparesOthers (h : Inv M s) : DiscardSparesOthers M wakeup s := by
  intro p b a hb hd r _ _
  change Agree M.dataSize (producerStep M wakeup s p a).1.mem s.mem r.position r.total
  rw [h.discarded_step_mem (h.pc_of_discarded hb hd)]
  exact Agree.refl _ _ _

/-- If no record is laid over the header of a discarded buffer before its drop, then in
every state no step of a discarded buffer touches another reservation, and every live
record still holds what its owner has put there: the busy ones are not published, the
committed ones have their bytes. -/
theorem discard_spares_others (M : Memory) (wakeup : ι → WakeupStrategy) (acts : List (Act ι))
    (h : (ringBuf M wakeup).Meets (SparesDiscarded M) State.init acts) :
    DiscardSparesOthers M wakeup ((ringBuf M wakeup).final State.init acts) ∧
      ∀ r ∈ ((ringBuf M wakeup).final State.init acts).live,
        Stored M ((ringBuf M wakeup).final State.init acts).mem r := by
  have hinv := run_inv wakeup h
  exact ⟨hinv.discardSparesOthers, hinv.stored⟩

/-- The size and position of the record whose header a step writes. -/
def State.newRecord? (s : State ι) : Act ι → Option (ℕ × ℕ)
  | .producer p .writeHeader =>
    match s.procs p with
    | .admitted size producerPos _ => some (size, producerPos)
    | _ => none
  | _ => none

omit [DecidableEq ι] in
theorem sparesDiscarded_iff {a : Act ι} :
    SparesDiscarded M s a ↔ ∀ n ∈ s.newRecord? a, n.1 < 2 ^ 32 ∧
      ∀ q, ∀ v ∈ (s.procs q).staleHeader, Apart M.dataSize v headerSize n.2 (totalLen n.1) := by
  cases a with
  | consumer a => simp [SparesDiscarded, State.newRecord?]
  | producer p a =>
    cases a with
    | writeHeader =>
      simp only [SparesDiscarded, State.newRecord?]
      cases s.procs p <;> simp
    | _ => simp [SparesDiscarded, State.newRecord?]

instance [Fintype ι] (s : State ι) (a : Act ι) : Decidable (SparesDiscarded M s a) :=
  decidable_of_iff _ sparesDiscarded_iff.symm

end Steps

def discardActs (p : ι) : List (Act ι) := [.discard, .discardStore].map (.producer p)

/-- The second record is reserved while the discarded buffer is still undropped. -/
def discardThenReserve : List (Act (Fin 2)) :=
  reserveActs 0 8 ++ discardActs 0 ++ reserveActs 1 8

theorem discard_spares_next_record :
    (((ringBuf pageRing fun _ => .forced).final State.init discardThenReserve).procs 0).buffer? =
        some ⟨0, 8, 0, [0, 0, 0, 0, 0, 0, 0, 0], true⟩ ∧
      DiscardSparesOthers pageRing (fun _ => .forced)
        ((ringBuf pageRing fun _ => .forced).final State.init discardThenReserve) :=
  ⟨by decide, (discard_spares_others pageRing _ discardThenReserve (by decide)).1⟩

/-- Buffer 0 is discarded, the consumer skips it, record 1 takes the rest of the ring and
is consumed, and record 2 is reserved over the header of buffer 0 before that is dropped. -/
def discardRace : List (Act ℕ) :=
  reserveActs 0 8 ++ discardActs 0 ++ consumeActs ++ .consumer .advanceConsumer ::
    reserveActs 1 4072 ++ commitActs 1 ++ consumeActs ++ .consumer .dropRecord ::
    reserveActs 2 8 ++ [.producer 0 .drop, .producer 0 .commitLoad]

def raceState : State ℕ := (ringBuf pageRing fun _ => .forced).final State.init discardRace

/-- The drop of buffer 0 clears the busy flag of record 2, which its owner is still
filling. -/
theorem discard_race_publishes_busy_record :
    ⟨4096, 8, .busy 2⟩ ∈ raceState.live ∧
      RecordHeader.isBusy (pageRing.loadHeader raceState.mem 4096) = true ∧
      RecordHeader.isBusy (pageRing.loadHeader ((ringBuf pageRing fun _ => .forced).step raceState
        (.producer 0 .commitStore)).1.mem 4096) = false ∧
      ¬ DiscardSparesOthers pageRing (fun _ => .forced) raceState := by
  refine ⟨by decide, by decide, by decide, fun h => ?_⟩
  have hcell := h 0 ⟨0, 8, 0, [0, 0, 0, 0, 0, 0, 0, 0], true⟩ .commitStore (by decide) rfl
    ⟨4096, 8, .busy 2⟩ (by decide) (by decide) 7 (by decide)
  revert hcell
  decide

end Manytrace.Mpscbuf
