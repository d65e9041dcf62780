import Manytrace.Mpscbuf.Tiles

/-! What holds between any two atomic steps: the live reservations tile the space between
the two positions, every cell of them holds what its owner put there, and every party's
local values agree with the shared ones as far as it still relies on them. -/
namespace Manytrace.Mpscbuf
open Manytrace.Core.MirroredMemory

variable {ι : Type*}

/-- What the cells of a live reservation hold. -/
def Stored (M : Memory) (mem : ℕ → UInt8) (r : Reservation ι) : Prop :=
  match r.status with
  | .busy _ => M.loadHeader mem r.position = RecordHeader.new r.size
  | .committed bs =>
    M.loadHeader mem r.position = RecordHeader.commit (RecordHeader.new r.size) ∧
      load M.dataSize mem (r.position + headerSize) r.size = bs
  | .discarded => M.loadHeader mem r.position = RecordHeader.discard (RecordHeader.new r.size)

/-- A buffer whose reservation is still busy, in the hands of `p`. -/
structure Owns (M : Memory) (s : State ι) (p : ι) (b : ReservedBuffer) : Prop where
  kept : b.discarded = false
  live : ⟨b.position, b.size, .busy p⟩ ∈ s.live
  offset : b.recordPos = b.position % M.dataSize
  bytes : load M.dataSize s.mem (b.position + headerSize) b.size = b.bytes

/-- A buffer between the store of its discard header and its drop. Nobody else may use
the cells of its header, even after the consumer has released the record. -/
structure Stale (M : Memory) (s : State ι) (b : ReservedBuffer) : Prop where
  dropped : b.discarded = true
  header : RecordHeader.isDiscarded (M.loadHeader s.mem b.recordPos) = true
  apart : ∀ r ∈ s.live, (r.position = b.position ∧ r.status = .discarded) ∨
    Apart M.dataSize b.recordPos headerSize r.position r.total

/-- The range between the producer position and the new one is free. -/
structure Room (M : Memory) (s : State ι) (size producerPos newProdPos : ℕ) : Prop where
  current : producerPos = s.producer
  next : newProdPos = producerPos + totalLen size
  fits : newProdPos < s.consumer + M.dataSize

def PcOk (M : Memory) (s : State ι) (p : ι) : ProducerPc → Prop
  | .loadedConsumer size total consumerPos | .locked size total consumerPos =>
    total = totalLen size ∧ consumerPos ≤ s.consumer
  | .admitted size producerPos newProdPos => Room M s size producerPos newProdPos
  | .headerWritten size producerPos newProdPos =>
    Room M s size producerPos newProdPos ∧ size < 2 ^ 32 ∧
      M.loadHeader s.mem producerPos = RecordHeader.new size
  | .published size producerPos => ⟨producerPos, size, .busy p⟩ ∈ s.live
  | .owning b | .committing b => Owns M s p b
  | .discarding b current | .commitLoaded b current =>
    Owns M s p b ∧ current = RecordHeader.new b.size
  | .discarded b => Stale M s b
  | .idle | .refused _ | .notifying => True

def ProducerPc.holdsLock : ProducerPc → Bool
  | .locked .. | .admitted .. | .headerWritten .. | .published .. | .refused _ => true
  | _ => false

/-- The cells whose contents a reservation relies on. -/
def ProducerPc.range : ProducerPc → Option (ℕ × ℕ)
  | .headerWritten size producerPos _ => some (producerPos, totalLen size)
  | .owning b | .committing b | .discarding b _ | .commitLoaded b _ =>
    some (b.position, totalLen b.size)
  | .discarded b => some (b.recordPos, headerSize)
  | _ => none

/-- The payloads of the committed reservations, in order. -/
def payloads (rs : List (Reservation ι)) : List (List UInt8) :=
  rs.filterMap fun r => r.status.payload?

def ReaderOk (M : Memory) (s : State ι) : ConsumerPc → Prop
  | .loadedConsumer consPos => consPos = s.consumer ∧ s.delivered = payloads s.released
  | .loadedProducer consPos =>
    consPos = s.consumer ∧ s.live ≠ [] ∧ s.delivered = payloads s.released
  | .skipping newConsPos =>
    (∃ r rest, s.live = r :: rest ∧ r.status = .discarded ∧ newConsPos = s.consumer + r.total) ∧
      s.delivered = payloads s.released
  | .holding rec =>
    ∃ r rest bs, s.live = r :: rest ∧ r.status = .committed bs ∧
      rec = ⟨s.consumer % M.dataSize + headerSize, r.size, s.consumer + r.total⟩ ∧
      s.delivered = payloads s.released ++ [bs]
  | _ => s.delivered = payloads s.released

structure Inv (M : Memory) (s : State ι) : Prop where
  released : Tiles 0 s.released s.consumer
  live : Tiles s.consumer s.live s.producer
  space : s.producer < s.consumer + M.dataSize
  small : ∀ r ∈ s.live, r.size < 2 ^ 32
  stored : ∀ r ∈ s.live, Stored M s.mem r
  lock : ∀ p, (s.procs p).holdsLock = true ↔ s.spinlock = some p
  pcs : ∀ p, PcOk M s p (s.procs p)
  fresh : ∀ p q size producerPos newProdPos b,
    s.procs p = .headerWritten size producerPos newProdPos → s.procs q = .discarded b →
      Apart M.dataSize b.recordPos headerSize producerPos (totalLen size)
  reader : ReaderOk M s s.reader
  settled : ∀ r ∈ s.released, ∀ p, r.status ≠ .busy p

theorem inv_init (M : Memory) : Inv M (State.init : State ι) where
  released := rfl
  live := rfl
  space := by simpa [State.init] using M.dataSize_pos
  small := by simp [State.init]
  stored := by simp [State.init]
  lock := by simp [State.init, ProducerPc.holdsLock]
  pcs := fun _ => trivial
  fresh := by simp [State.init]
  reader := rfl
  settled := by simp [State.init]

theorem headerSize_le_totalLen (size : ℕ) : headerSize ≤ totalLen size :=
  le_trans (Nat.le_add_right _ _) (totalLen_bounds size).1

section Frame
variable {M : Memory} {s s' : State ι} {p : ι}

theorem loadHeader_of_agree {mem mem' : ℕ → UInt8} {v n : ℕ}
    (h : Agree M.dataSize mem' mem v n) (hn : headerSize ≤ n) :
    M.loadHeader mem' v = M.loadHeader mem v :=
  congrArg ofBytes (h.load_eq le_rfl (Nat.add_le_add_left hn v))

theorem Stored.frame {mem mem' : ℕ → UInt8} {r : Reservation ι} (h : Stored M mem r)
    (ha : Agree M.dataSize mem' mem r.position r.total) : Stored M mem' r := by
  have hr := r.header_le_total
  have hh : M.loadHeader mem' r.position = M.loadHeader mem r.position :=
    loadHeader_of_agree ha (by omega)
  unfold Stored at h ⊢
  cases hs : r.status with
  | busy q => simpa only [hs, hh] using h
  | discarded => simpa only [hs, hh] using h
  | committed bs =>
    have hl := ha.load_eq (w := r.position + headerSize) (k := r.size) (by omega) (by omega)
    simpa only [hs, hh, hl] using h

theorem Owns.frame {b : ReservedBuffer} (h : Owns M s p b)
    (hlive : ∀ pos size, ⟨pos, size, .busy p⟩ ∈ s.live → ⟨pos, size, .busy p⟩ ∈ s'.live)
    (ha : Agree M.dataSize s'.mem s.mem b.position (totalLen b.size)) : Owns M s' p b where
  kept := h.kept
  live := hlive _ _ h.live
  offset := h.offset
  bytes := by
    have hb := (totalLen_bounds b.size).1
    rw [ha.load_eq (by omega) (by omega)]
    exact h.bytes

/-- What a reservation knows survives every step of the others: the consumer position
only grows, the producer position changes under the lock, busy entries stay, and the
cells it relies on are left alone. -/
theorem PcOk.frame {pc : ProducerPc} (h : PcOk M s p pc) (hcons : s.consumer ≤ s'.consumer)
    (hprod : pc.holdsLock = true → s'.producer = s.producer)
    (hlive : ∀ pos size, ⟨pos, size, .busy p⟩ ∈ s.live → ⟨pos, size, .busy p⟩ ∈ s'.live)
    (hmem : ∀ v n, pc.range = some (v, n) → Agree M.dataSize s'.mem s.mem v n)
    (hstale : ∀ b, pc = .discarded b → Stale M s b → ∀ r ∈ s'.live,
      (r.position = b.position ∧ r.status = .discarded) ∨
        Apart M.dataSize b.recordPos headerSize r.position r.total) : PcOk M s' p pc := by
  have hroom : ∀ {size pp np}, pc.holdsLock = true → Room M s size pp np → Room M s' size pp np :=
    fun hl hr => ⟨hr.current.trans (hprod hl).symm, hr.next, lt_of_lt_of_le hr.fits (by omega)⟩
  cases pc with
  | idle => trivial
  | refused f => trivial
  | notifying => trivial
  | loadedConsumer size total c => exact ⟨h.1, h.2.trans hcons⟩
  | locked size total c => exact ⟨h.1, h.2.trans hcons⟩
  | admitted size pp np => exact hroom rfl h
  | headerWritten size pp np =>
    have hb := (totalLen_bounds size).1
    refine ⟨hroom rfl h.1, h.2.1, ?_⟩
    rw [loadHeader_of_agree (hmem _ _ rfl) (by omega)]
    exact h.2.2
  | published size pp => exact hlive _ _ h
  | owning b => exact Owns.frame h hlive (hmem _ _ rfl)
  | committing b => exact Owns.frame h hlive (hmem _ _ rfl)
  | discarding b current => exact ⟨h.1.frame hlive (hmem _ _ rfl), h.2⟩
  | commitLoaded b current => exact ⟨h.1.frame hlive (hmem _ _ rfl), h.2⟩
  | discarded b =>
    refine ⟨h.dropped, ?_, hstale b rfl h⟩
    rw [loadHeader_of_agree (hmem _ _ rfl) le_rfl]
    exact h.header

/-- The reader relies on the head of the live reservations and on nothing else. -/
theorem ReaderOk.frame {pc : ConsumerPc} (h : ReaderOk M s pc) (hcons : s'.consumer = s.consumer)
    (hdel : s'.delivered = s.delivered) (hrel : s'.released = s.released)
    (hlive : ∀ r rest, s.live = r :: rest → (∀ p, r.status ≠ .busy p) →
      ∃ rest', s'.live = r :: rest')
    (hne : s.live ≠ [] → s'.live ≠ []) : ReaderOk M s' pc := by
  cases pc with
  | loadedConsumer c => simpa only [ReaderOk, hcons, hdel, hrel] using h
  | loadedProducer c =>
    obtain ⟨hc, hl, hd⟩ := h
    exact ⟨hc.trans hcons.symm, hne hl, by rw [hdel, hrel, hd]⟩
  | skipping n =>
    obtain ⟨⟨r, rest, hl, hs, hn⟩, hd⟩ := h
    obtain ⟨rest', hl'⟩ := hlive r rest hl (by simp [hs])
    exact ⟨⟨r, rest', hl', hs, by rw [hcons, hn]⟩, by rw [hdel, hrel, hd]⟩
  | holding rec =>
    obtain ⟨r, rest, bs, hl, hs, hrec, hd⟩ := h
    obtain ⟨rest', hl'⟩ := hlive r rest hl (by simp [hs])
    exact ⟨r, rest', bs, hl', hs, by rw [hcons, hrec], by rw [hdel, hrel, hd]⟩
  | idle => simpa only [ReaderOk, hdel, hrel] using h
  | drained => simpa only [ReaderOk, hdel, hrel] using h
  | looping => simpa only [ReaderOk, hdel, hrel] using h
  | waiting => simpa only [ReaderOk, hdel, hrel] using h

end Frame

section Ranges
variable {M : Memory} {s : State ι} {p q : ι}

theorem storeHeader_agree (mem : ℕ → UInt8) (word : ℕ) {v n pos : ℕ}
    (h : Apart M.dataSize v n pos headerSize) :
    Agree M.dataSize (M.storeHeader mem pos word) mem v n :=
  store_agree mem (by rwa [length_toBytes])

/-- A reservation relies on the range it is about to publish, on its own record, or on
the header of the record it has discarded. -/
theorem PcOk.range_cases {pc : ProducerPc} (h : PcOk M s p pc) {v n : ℕ}
    (hr : pc.range = some (v, n)) :
    (∃ size np, pc = .headerWritten size v np ∧ n = totalLen size ∧ Room M s size v np) ∨
      (∃ b, Owns M s p b ∧ v = b.position ∧ n = totalLen b.size) ∨
      ∃ b, pc = .discarded b ∧ Stale M s b ∧ v = b.recordPos ∧ n = headerSize := by
  cases pc with
  | headerWritten size pp np =>
    obtain ⟨rfl, rfl⟩ := Prod.mk.inj (Option.some.inj hr)
    exact Or.inl ⟨size, np, rfl, rfl, h.1⟩
  | owning b =>
    obtain ⟨rfl, rfl⟩ := Prod.mk.inj (Option.some.inj hr)
    exact Or.inr (Or.inl ⟨b, h, rfl, rfl⟩)
  | committing b =>
    obtain ⟨rfl, rfl⟩ := Prod.mk.inj (Option.some.inj hr)
    exact Or.inr (Or.inl ⟨b, h, rfl, rfl⟩)
  | discarding b current =>
    obtain ⟨rfl, rfl⟩ := Prod.mk.inj (Option.some.inj hr)
    exact Or.inr (Or.inl ⟨b, h.1, rfl, rfl⟩)
  | commitLoaded b current =>
    obtain ⟨rfl, rfl⟩ := Prod.mk.inj (Option.some.inj hr)
    exact Or.inr (Or.inl ⟨b, h.1, rfl, rfl⟩)
  | discarded b =>
    obtain ⟨rfl, rfl⟩ := Prod.mk.inj (Option.some.inj hr)
    exact Or.inr (Or.inr ⟨b, rfl, h, rfl, rfl⟩)
  | _ => cases hr

/-- The lock excludes a second holder. -/
theorem Inv.lock_unique (h : Inv M s) (hp : (s.procs p).holdsLock = true)
    (hq : (s.procs q).holdsLock = true) : q = p := by
  have hsp := (h.lock p).mp hp
  have hsq := (h.lock q).mp hq
  exact Option.some.inj (hsq.symm.trans hsp)

theorem Inv.owns_header {b : ReservedBuffer} (h : Inv M s) (hb : Owns M s p b) :
    M.loadHeader s.mem b.recordPos = RecordHeader.new b.size := by
  rw [hb.offset, M.loadHeader_mod]
  exact h.stored _ hb.live

/-- The room for a new record is apart from all live ones. -/
theorem Inv.apart_room (h : Inv M s) {size pp np : ℕ} (hroom : Room M s size pp np)
    {r : Reservation ι} (hr : r ∈ s.live) :
    Apart M.dataSize r.position r.total pp (totalLen size) := by
  have hfit := hroom.fits
  rw [hroom.next, hroom.current] at hfit
  rw [hroom.current]
  exact h.live.apart_next hfit.le hr

/-- The cells another reservation relies on are not those of a busy one. -/
theorem Inv.apart_busy (h : Inv M s) {r : Reservation ι} (hr : r ∈ s.live)
    (hbusy : r.status = .busy p) (hq : q ≠ p) {v n : ℕ}
    (hrange : (s.procs q).range = some (v, n)) :
    Apart M.dataSize v n r.position r.total := by
  rcases (h.pcs q).range_cases hrange with ⟨size, np, -, rfl, hroom⟩ | ⟨b, hb, rfl, rfl⟩ |
    ⟨b, -, hb, rfl, rfl⟩
  · exact (h.apart_room hroom hr).symm
  · have hne : (⟨b.position, b.size, .busy q⟩ : Reservation ι) ≠ r := by
      rintro rfl
      exact hq (Status.busy.inj hbusy)
    exact h.live.apart (r := ⟨b.position, b.size, .busy q⟩) h.space.le hb.live hr hne
  · rcases hb.apart r hr with ⟨-, hst⟩ | hap
    · rw [hst] at hbusy
      cases hbusy
    · exact hap

/-- While one reservation holds the lock, the room it has found is apart from everything
the others rely on, stale headers excepted. -/
theorem Inv.apart_locked (h : Inv M s) (hp : (s.procs p).holdsLock = true) {size pp np : ℕ}
    (hroom : Room M s size pp np) (hq : q ≠ p)
    (hstale : ∀ b, s.procs q = .discarded b →
      Apart M.dataSize b.recordPos headerSize pp (totalLen size))
    {v n : ℕ} (hrange : (s.procs q).range = some (v, n)) :
    Apart M.dataSize v n pp (totalLen size) := by
  rcases (h.pcs q).range_cases hrange with ⟨size', np', hpc, -, -⟩ | ⟨b, hb, rfl, rfl⟩ |
    ⟨b, hpc, -, rfl, rfl⟩
  · exact absurd (h.lock_unique hp (by rw [hpc]; rfl)) hq
  · exact h.apart_room (r := ⟨b.position, b.size, .busy q⟩) hroom hb.live
  · exact hstale b hpc

variable {b : ReservedBuffer}

theorem Inv.owned_eq (h : Inv M s) (hb : Owns M s p b) {r : Reservation ι} (hr : r ∈ s.live)
    (hpos : r.position = b.position) : r = ⟨b.position, b.size, .busy p⟩ :=
  h.live.eq_of_position hr hb.live hpos

theorem Inv.owned_lap (h : Inv M s) (hb : Owns M s p b) : totalLen b.size ≤ M.dataSize := by
  have hm := h.live.mem hb.live
  have hs := h.space
  simp only [Reservation.total] at hm
  omega

/-- A store into the record of `p` leaves alone the other records and everything the
other reservations rely on. -/
theorem Inv.owned_store (h : Inv M s) (hb : Owns M s p b) (w : ℕ) (bs : List UInt8)
    (hw : b.position ≤ w) (hk : w + bs.length ≤ b.position + totalLen b.size) :
    (∀ r ∈ s.live, r.position ≠ b.position →
        Agree M.dataSize (store M.dataSize s.mem w bs) s.mem r.position r.total) ∧
      ∀ q, q ≠ p → ∀ v n, (s.procs q).range = some (v, n) →
        Agree M.dataSize (store M.dataSize s.mem w bs) s.mem v n := by
  refine ⟨fun r hr hne => store_agree s.mem ?_, fun q hq v n hrange => store_agree s.mem ?_⟩
  · have hap := h.live.apart (r := r) (t := ⟨b.position, b.size, .busy p⟩) h.space.le hr hb.live
      (fun he => hne (he ▸ rfl))
    exact hap.mono le_rfl le_rfl hw hk
  · have hap := h.apart_busy (r := ⟨b.position, b.size, .busy p⟩) hb.live rfl hq hrange
    exact hap.mono le_rfl le_rfl hw hk

end Ranges
end Manytrace.Mpscbuf
