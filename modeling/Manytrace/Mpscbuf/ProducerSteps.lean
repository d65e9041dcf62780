import Manytrace.Mpscbuf.Invariant

/-! Every atomic step of a producer preserves the invariant. Besides the steps that only
move the producer along, there are the four stores into the ring and the store of the
producer position. -/
namespace Manytrace.Mpscbuf
open Manytrace.Core.MirroredMemory

variable {ι : Type*} [DecidableEq ι] {M : Memory} {s : State ι} {p q : ι}

section Lock

theorem holdsLock_update {pc : ProducerPc} (h : Inv M s)
    (hpc : pc.holdsLock = (s.procs p).holdsLock) (q : ι) :
    (Function.update s.procs p pc q).holdsLock = true ↔ s.spinlock = some q := by
  by_cases hq : q = p
  · subst q
    rw [Function.update_self, hpc, h.lock]
  · rw [Function.update_of_ne hq, h.lock]

theorem holdsLock_acquire {pc : ProducerPc} (h : Inv M s) (hpc : pc.holdsLock = true)
    (hfree : s.spinlock = none) (q : ι) :
    (Function.update s.procs p pc q).holdsLock = true ↔ some p = some q := by
  by_cases hq : q = p
  · subst q
    simp [hpc]
  · rw [Function.update_of_ne hq, h.lock, hfree]
    simpa using fun he : p = q => hq he.symm

theorem holdsLock_release {pc : ProducerPc} (h : Inv M s) (hpc : pc.holdsLock = false)
    (hheld : (s.procs p).holdsLock = true) (q : ι) :
    (Function.update s.procs p pc q).holdsLock = true ↔ none = some q := by
  have hp := (h.lock p).mp hheld
  by_cases hq : q = p
  · subst q
    simp [hpc]
  · rw [Function.update_of_ne hq, h.lock, hp]
    simpa using fun he : p = q => hq he.symm

end Lock

/-- Steps that touch neither the ring nor the positions. -/
theorem Inv.local_step (h : Inv M s) {pc : ProducerPc} {l : Option ι} {e d : ℕ}
    (hlock : ∀ q, (Function.update s.procs p pc q).holdsLock = true ↔ l = some q)
    (hok : PcOk M s p pc) (hnh : ∀ size pp np, pc ≠ .headerWritten size pp np)
    (hnd : ∀ b, pc ≠ .discarded b) :
    Inv M { s.setPc p pc with spinlock := l, eventfd := e, dropped := d } where
  released := h.released
  live := h.live
  space := h.space
  small := h.small
  stored := h.stored
  lock := hlock
  pcs := by
    intro q
    have hframe : ∀ pc', PcOk M s q pc' →
        PcOk M { s.setPc p pc with spinlock := l, eventfd := e, dropped := d } q pc' :=
      fun _ hpc => hpc.frame le_rfl (fun _ => rfl) (fun _ _ hm => hm)
        (fun _ _ _ => Agree.refl _ _ _) (fun _ _ hst => hst.apart)
    by_cases hq : q = p
    · subst q
      simpa only [State.setPc, Function.update_self] using hframe _ hok
    · simpa only [State.setPc, Function.update_of_ne hq] using hframe _ (h.pcs q)
  fresh := by
    intro q r size pp np b hq hr
    simp only [State.setPc] at hq hr
    by_cases hqp : q = p
    · subst q
      rw [Function.update_self] at hq
      exact absurd hq (hnh _ _ _)
    · by_cases hrp : r = p
      · subst r
        rw [Function.update_self] at hr
        exact absurd hr (hnd _)
      · rw [Function.update_of_ne hqp] at hq
        rw [Function.update_of_ne hrp] at hr
        exact h.fresh q r size pp np b hq hr
  reader := h.reader.frame rfl rfl rfl (fun r rest hl _ => ⟨rest, hl⟩) (fun hl => hl)
  settled := h.settled

/-- Steps that leave the lock alone, too. -/
theorem Inv.move_step (h : Inv M s) {old pc : ProducerPc} {e : ℕ} (hpc : s.procs p = old)
    (hlock : pc.holdsLock = old.holdsLock) (hok : PcOk M s p pc)
    (hnh : ∀ size pp np, pc ≠ .headerWritten size pp np) (hnd : ∀ b, pc ≠ .discarded b) :
    Inv M { s.setPc p pc with eventfd := e } := by
  have hheld : pc.holdsLock = (s.procs p).holdsLock := by rw [hpc, hlock]
  exact h.local_step (holdsLock_update h hheld) hok hnh hnd

/-- The header of a new record goes into room nobody else relies on. -/
theorem Inv.writeHeader_step (h : Inv M s) {size pp np : ℕ}
    (hpc : s.procs p = .admitted size pp np) (hsize : size < 2 ^ 32)
    (hstale : ∀ q b, s.procs q = .discarded b →
      Apart M.dataSize b.recordPos headerSize pp (totalLen size)) :
    Inv M { s.setPc p (.headerWritten size pp np) with
      mem := M.storeHeader s.mem pp (RecordHeader.new size) } := by
  have hroom : Room M s size pp np := by simpa only [hpc, PcOk] using h.pcs p
  have hheld : (s.procs p).holdsLock = true := by rw [hpc]; rfl
  have hle := headerSize_le_totalLen size
  have hothers : ∀ q, q ≠ p → (s.procs q).holdsLock = false := fun q hq => by
    by_contra hl
    exact hq (h.lock_unique hheld (by simpa using hl))
  refine ⟨h.released, h.live, h.space, h.small, ?_, ?_, ?_, ?_, ?_, h.settled⟩
  · intro r hr
    refine (h.stored r hr).frame (storeHeader_agree s.mem _ ?_)
    exact (h.apart_room hroom hr).mono le_rfl le_rfl le_rfl (by omega)
  · exact holdsLock_update h (by rw [hpc]; rfl)
  · intro q
    by_cases hq : q = p
    · subst q
      simp only [State.setPc, Function.update_self]
      exact ⟨⟨hroom.current, hroom.next, hroom.fits⟩, hsize,
        M.loadHeader_storeHeader s.mem pp (RecordHeader.new_lt size)⟩
    · simp only [State.setPc, Function.update_of_ne hq]
      refine (h.pcs q).frame le_rfl (fun _ => rfl) (fun _ _ hm => hm) ?_
        (fun _ _ hst => hst.apart)
      intro v n hrange
      have hap := h.apart_locked hheld hroom hq (hstale q) hrange
      exact storeHeader_agree s.mem _ (hap.mono le_rfl le_rfl le_rfl (by omega))
  · intro q r size' pp' np' b hq hr
    simp only [State.setPc] at hq hr
    have hrp : r ≠ p := by
      rintro rfl
      rw [Function.update_self] at hr
      cases hr
    rw [Function.update_of_ne hrp] at hr
    by_cases hqp : q = p
    · subst q
      rw [Function.update_self] at hq
      cases hq
      exact hstale r b hr
    · rw [Function.update_of_ne hqp] at hq
      have hl := hothers q hqp
      rw [hq] at hl
      cases hl
  · exact h.reader.frame rfl rfl rfl (fun r rest hl _ => ⟨rest, hl⟩) (fun hl => hl)

/-- Storing the producer position turns the room into a live, busy reservation. -/
theorem Inv.storeProducer_step (h : Inv M s) {size pp np : ℕ}
    (hpc : s.procs p = .headerWritten size pp np) :
    Inv M { s.setPc p (.published size pp) with
      producer := np, live := s.live ++ [⟨pp, size, .busy p⟩] } := by
  obtain ⟨hroom, hsize, hheader⟩ : Room M s size pp np ∧ size < 2 ^ 32 ∧
      M.loadHeader s.mem pp = RecordHeader.new size := by simpa only [hpc, PcOk] using h.pcs p
  have hheld : (s.procs p).holdsLock = true := by rw [hpc]; rfl
  have hothers : ∀ q, q ≠ p → (s.procs q).holdsLock = true → False := fun q hq hl =>
    hq (h.lock_unique hheld hl)
  refine ⟨h.released, ?_, hroom.fits, ?_, ?_, ?_, ?_, ?_, ?_, h.settled⟩
  · exact tiles_concat.mpr ⟨hroom.current ▸ h.live, hroom.next.symm⟩
  · intro r hr
    rcases List.mem_append.mp hr with hr | hr
    · exact h.small r hr
    · rw [List.mem_singleton.mp hr]
      exact hsize
  · intro r hr
    rcases List.mem_append.mp hr with hr | hr
    · exact h.stored r hr
    · rw [List.mem_singleton.mp hr]
      exact hheader
  · exact holdsLock_update h (by rw [hpc]; rfl)
  · intro q
    by_cases hq : q = p
    · subst q
      simp only [State.setPc, Function.update_self]
      exact List.mem_append_right _ (List.mem_singleton_self _)
    · simp only [State.setPc, Function.update_of_ne hq]
      refine (h.pcs q).frame le_rfl (fun hl => (hothers q hq hl).elim)
        (fun _ _ hm => List.mem_append_left _ hm) (fun _ _ _ => Agree.refl _ _ _) ?_
      intro b hb hst r hr
      rcases List.mem_append.mp hr with hr | hr
      · exact hst.apart r hr
      · rw [List.mem_singleton.mp hr]
        exact Or.inr (h.fresh p q size pp np b hpc hb)
  · intro q r size' pp' np' b hq hr
    simp only [State.setPc] at hq
    have hqp : q ≠ p := by
      rintro rfl
      rw [Function.update_self] at hq
      cases hq
    rw [Function.update_of_ne hqp] at hq
    exact (hothers q hqp (by rw [hq]; rfl)).elim
  · refine h.reader.frame rfl rfl rfl ?_ (by simp)
    intro r rest hl _
    exact ⟨rest ++ [⟨pp, size, .busy p⟩], by simp [hl]⟩

section Owned
variable {b : ReservedBuffer}

/-- A payload write. -/
theorem Inv.write_step (h : Inv M s) (hpc : s.procs p = .owning b) {i : ℕ} (v : UInt8)
    (hi : i < b.size) :
    Inv M { s.setPc p (.owning { b with bytes := b.bytes.set i v }) with
      mem := store M.dataSize s.mem (b.position + headerSize + i) [v] } := by
  have hb : Owns M s p b := by simpa only [hpc, PcOk] using h.pcs p
  have hlen := (totalLen_bounds b.size).1
  have hlap := h.owned_lap hb
  obtain ⟨hrecords, hothers⟩ := h.owned_store hb (b.position + headerSize + i) [v]
    (by omega) (by simp only [List.length_singleton]; omega)
  refine ⟨h.released, h.live, h.space, h.small, ?_, ?_, ?_, ?_, ?_, h.settled⟩
  · intro r hr
    by_cases hpos : r.position = b.position
    · -- the own record is busy, so only its header counts, and that is before the payload
      have hown := h.stored r hr
      rw [h.owned_eq hb hr hpos] at hown ⊢
      have ha : Agree M.dataSize (store M.dataSize s.mem (b.position + headerSize + i) [v]) s.mem
          b.position headerSize := by
        refine store_agree s.mem (apart_of_le (by omega) ?_)
        simp only [List.length_singleton]
        omega
      exact (loadHeader_of_agree ha le_rfl).trans hown
    · exact (h.stored r hr).frame (hrecords r hr hpos)
  · exact holdsLock_update h (by rw [hpc]; rfl)
  · intro q
    by_cases hq : q = p
    · subst q
      simp only [State.setPc, Function.update_self]
      refine ⟨hb.kept, hb.live, hb.offset, ?_⟩
      rw [load_store_single s.mem v hi (by omega), hb.bytes]
    · simp only [State.setPc, Function.update_of_ne hq]
      exact (h.pcs q).frame le_rfl (fun _ => rfl) (fun _ _ hm => hm) (hothers q hq)
        (fun _ _ hst => hst.apart)
  · intro q r size pp np b' hq hr
    simp only [State.setPc] at hq hr
    have hqp : q ≠ p := by
      rintro rfl
      rw [Function.update_self] at hq
      cases hq
    have hrp : r ≠ p := by
      rintro rfl
      rw [Function.update_self] at hr
      cases hr
    rw [Function.update_of_ne hqp] at hq
    rw [Function.update_of_ne hrp] at hr
    exact h.fresh q r size pp np b' hq hr
  · exact h.reader.frame rfl rfl rfl (fun r rest hl _ => ⟨rest, hl⟩) (fun hl => hl)

/-- The header store of `commit` or `discard`, which ends the busy time of a record. -/
theorem Inv.settle_step (h : Inv M s) (hb : Owns M s p b)
    (hfree : (s.procs p).holdsLock = false) {st : Status ι} {word : ℕ} {pc : ProducerPc}
    (hstored : Stored M (M.storeHeader s.mem b.position word) ⟨b.position, b.size, st⟩)
    (hpc : pc.holdsLock = false)
    (hok : PcOk M { s.setPc p pc with
      mem := M.storeHeader s.mem b.position word
      live := Reservation.setStatus b.position st s.live } p pc)
    (hfresh : ∀ b', pc = .discarded b' → b'.recordPos = b.recordPos) :
    Inv M { s.setPc p pc with
      mem := M.storeHeader s.mem b.position word
      live := Reservation.setStatus b.position st s.live } := by
  have hlen := headerSize_le_totalLen b.size
  obtain ⟨hrecords, hothers⟩ := h.owned_store hb b.position (toBytes headerSize word)
    le_rfl (by rw [length_toBytes]; omega)
  refine ⟨h.released, Reservation.tiles_setStatus.mpr h.live, h.space, ?_, ?_, ?_, ?_, ?_, ?_,
    h.settled⟩
  · intro r hr
    rcases Reservation.mem_setStatus hr with ⟨-, hr⟩ | ⟨t, ht, -, rfl⟩
    · exact h.small r hr
    · exact h.small t ht
  · intro r hr
    rcases Reservation.mem_setStatus hr with ⟨hne, hr⟩ | ⟨t, ht, hpos, rfl⟩
    · exact (h.stored r hr).frame (hrecords r hr hne)
    · rw [h.owned_eq hb ht hpos]
      exact hstored
  · exact holdsLock_update h (by rw [hpc, hfree])
  · intro q
    by_cases hq : q = p
    · subst q
      simp only [State.setPc, Function.update_self]
      exact hok
    · simp only [State.setPc, Function.update_of_ne hq]
      refine (h.pcs q).frame le_rfl (fun _ => rfl) ?_ (hothers q hq) ?_
      · intro pos size hm
        refine Reservation.mem_setStatus_of_ne hm fun hpos => ?_
        exact hq (Status.busy.inj (congrArg Reservation.status (h.owned_eq hb hm hpos)))
      · intro b' _ hst r hr
        rcases Reservation.mem_setStatus hr with ⟨-, hr⟩ | ⟨t, ht, hpos, rfl⟩
        · exact hst.apart r hr
        · rcases hst.apart t ht with ⟨-, hs⟩ | hap
          · rw [h.owned_eq hb ht hpos] at hs
            cases hs
          · exact Or.inr hap
  · intro q r size pp np b' hq hr
    simp only [State.setPc] at hq hr
    have hqp : q ≠ p := by
      rintro rfl
      rw [Function.update_self] at hq
      rw [hq] at hpc
      cases hpc
    rw [Function.update_of_ne hqp] at hq
    by_cases hrp : r = p
    · subst r
      rw [Function.update_self] at hr
      have hroom := h.pcs q
      rw [hq] at hroom
      have hap := h.apart_room (r := ⟨b.position, b.size, .busy p⟩) hroom.1 hb.live
      rw [hfresh b' hr, hb.offset, apart_mod_left]
      exact hap.mono le_rfl (Nat.add_le_add_left hlen _) le_rfl le_rfl
    · rw [Function.update_of_ne hrp] at hr
      exact h.fresh q r size pp np b' hq hr
  · refine h.reader.frame rfl rfl rfl ?_ (by simp [Reservation.setStatus])
    intro r rest hl hr
    have hmem : r ∈ s.live := hl ▸ List.mem_cons_self
    have hne : r.position ≠ b.position := fun hpos =>
      hr p (congrArg Reservation.status (h.owned_eq hb hmem hpos))
    exact ⟨Reservation.setStatus b.position st rest, by
      simp only [hl, Reservation.setStatus_cons_of_ne hne]⟩

theorem Inv.discardStore_step {current : ℕ} (h : Inv M s) (hpc : s.procs p = .discarding b current)
    (hb : Owns M s p b) :
    Inv M { s.setPc p (.discarded { b with discarded := true }) with
      mem := M.storeHeader s.mem b.recordPos (RecordHeader.discard (RecordHeader.new b.size))
      live := Reservation.setStatus b.position .discarded s.live } := by
  have hword := M.loadHeader_storeHeader s.mem b.position
    (RecordHeader.discard_lt (RecordHeader.new b.size))
  have hrec : M.storeHeader s.mem b.recordPos (RecordHeader.discard (RecordHeader.new b.size)) =
      M.storeHeader s.mem b.position (RecordHeader.discard (RecordHeader.new b.size)) := by
    rw [hb.offset, M.storeHeader_mod]
  rw [hrec]
  refine h.settle_step hb (by rw [hpc]; rfl) hword rfl ?_ (by simp)
  refine ⟨rfl, ?_, ?_⟩
  · change RecordHeader.isDiscarded (M.loadHeader _ b.recordPos) = true
    rw [hb.offset, M.loadHeader_mod, hword]
    exact RecordHeader.isDiscarded_discard _
  · intro r hr
    rcases Reservation.mem_setStatus hr with ⟨hne, hr⟩ | ⟨t, -, hpos, rfl⟩
    · have hap := h.live.apart (r := ⟨b.position, b.size, .busy p⟩) h.space.le hb.live hr
        (fun he => hne (he ▸ rfl))
      right
      change Apart M.dataSize b.recordPos headerSize r.position r.total
      rw [hb.offset, apart_mod_left]
      exact hap.mono le_rfl (Nat.add_le_add_left (headerSize_le_totalLen b.size) _) le_rfl le_rfl
    · exact Or.inl ⟨hpos, rfl⟩

theorem Inv.commitStore_step {current : ℕ} (h : Inv M s)
    (hpc : s.procs p = .commitLoaded b current) (hb : Owns M s p b) :
    Inv M { s.setPc p .notifying with
      mem := M.storeHeader s.mem b.recordPos (RecordHeader.commit (RecordHeader.new b.size))
      live := Reservation.setStatus b.position (.committed b.bytes) s.live } := by
  have hword := M.loadHeader_storeHeader s.mem b.position
    (RecordHeader.commit_lt (RecordHeader.new b.size))
  have hrec : M.storeHeader s.mem b.recordPos (RecordHeader.commit (RecordHeader.new b.size)) =
      M.storeHeader s.mem b.position (RecordHeader.commit (RecordHeader.new b.size)) := by
    rw [hb.offset, M.storeHeader_mod]
  rw [hrec]
  refine h.settle_step hb (by rw [hpc]; rfl) ⟨hword, ?_⟩ rfl trivial (by simp)
  have hlen := (totalLen_bounds b.size).1
  have hlap := h.owned_lap hb
  have ha := storeHeader_agree s.mem (RecordHeader.commit (RecordHeader.new b.size))
    (apart_of_le (D := M.dataSize) (v := b.position) (n := headerSize)
      (w := b.position + headerSize) (k := b.size) le_rfl (by omega)).symm
  exact (ha.load_eq le_rfl le_rfl).trans hb.bytes

end Owned

/-- The header position of a discarded buffer that is still to be dropped. -/
def ProducerPc.staleHeader : ProducerPc → Option ℕ
  | .discarded b => some b.recordPos
  | _ => none

/-- The condition on a step: when the header of a new record is written, the length fits
its 32 bits, and the record is not laid over the header of a discarded buffer whose drop
has not looked at it yet. All other steps are free. -/
def SparesDiscarded (M : Memory) (s : State ι) : Act ι → Prop
  | .producer p .writeHeader =>
    ∀ size pp np, s.procs p = .admitted size pp np → size < 2 ^ 32 ∧
      ∀ q v, (s.procs q).staleHeader = some v →
        Apart M.dataSize v headerSize pp (totalLen size)
  | _ => True

theorem spaceCheck_ok {producerPos consumerPos total newProdPos : ℕ}
    (h : spaceCheck .checked M producerPos consumerPos total = .ok newProdPos) :
    newProdPos = producerPos + total ∧ newProdPos < consumerPos + M.dataSize := by
  unfold spaceCheck at h
  split at h
  · cases h
  · rename_i n hn
    split at h
    · cases h
    · rename_i used hu
      split_ifs at h with hm
      cases h
      obtain ⟨hle, hused⟩ := OverflowMode.checked_sub_eq_some hu
      have hD := M.dataSize_pos
      refine ⟨OverflowMode.checked_add_eq_some hn, ?_⟩
      unfold Memory.sizeMask at hm
      omega

theorem producerStep_inv (wakeup : ι → WakeupStrategy) (h : Inv M s) (p : ι) (a : ProducerAct)
    (hG : SparesDiscarded M s (.producer p a)) : Inv M (producerStep M wakeup s p a).1 := by
  have hp := h.pcs p
  have hmove := producerStep_move M wakeup s p a
  generalize producerStep M wakeup s p a = r at hmove ⊢
  cases hmove with
  | stay | overflow => exact h
  | reserve hpc htotal =>
    exact h.move_step hpc rfl ⟨totalSize_checked htotal, le_rfl⟩ (by simp) (by simp)
  | lock hpc hlock =>
    rw [hpc] at hp
    exact h.local_step (holdsLock_acquire h rfl hlock) hp (by simp) (by simp)
  | timeout hpc | refuse hpc => exact h.move_step hpc rfl trivial (by simp) (by simp)
  | @admitted size total c np hpc hcheck =>
    obtain ⟨rfl, hc⟩ : total = totalLen size ∧ c ≤ s.consumer := by
      simpa only [hpc, PcOk] using hp
    obtain ⟨hnp, hfit⟩ := spaceCheck_ok hcheck
    exact h.move_step hpc rfl ⟨rfl, hnp, by omega⟩ (by simp) (by simp)
  | writeHeader hpc =>
    obtain ⟨hsize, hst⟩ := hG _ _ _ hpc
    simp only [M.and_sizeMask, M.storeHeader_mod]
    exact h.writeHeader_step hpc hsize fun q b hq => hst q b.recordPos (by rw [hq]; rfl)
  | publish hpc => exact h.storeProducer_step hpc
  | @own size pp hpc =>
    rw [hpc] at hp
    refine h.local_step (holdsLock_release h rfl (by rw [hpc]; rfl)) ?_ (by simp) (by simp)
    refine ⟨rfl, hp, M.and_sizeMask pp, ?_⟩
    simp only [newBuffer, M.and_sizeMask, load_mod_add]
  | fail hpc =>
    exact h.local_step (holdsLock_release h rfl (by rw [hpc]; rfl)) trivial (by simp) (by simp)
  | @write b i v hpc hi =>
    have hb : Owns M s p b := by simpa only [hpc, PcOk] using hp
    simp only [hb.offset, Nat.add_assoc, store_mod_add]
    simpa only [Nat.add_assoc, hb.offset] using h.write_step hpc v hi
  | @discard b hpc =>
    have hb : Owns M s p b := by simpa only [hpc, PcOk] using hp
    exact h.move_step hpc rfl ⟨hb, h.owns_header hb⟩ (by simp) (by simp)
  | @discardStore b current hpc =>
    obtain ⟨hb, rfl⟩ : Owns M s p b ∧ current = RecordHeader.new b.size := by
      simpa only [hpc, PcOk] using hp
    exact h.discardStore_step hpc hb
  | @dropDiscarded b hpc hd =>
    rcases hpc with hpc | hpc
    · have hb : Owns M s p b := by simpa only [hpc, PcOk] using hp
      rw [h.owns_header hb, RecordHeader.isDiscarded_new] at hd
      cases hd
    · exact h.move_step hpc rfl trivial (by simp) (by simp)
  | @drop b hpc hd =>
    rcases hpc with hpc | hpc
    · have hb : Owns M s p b := by simpa only [hpc, PcOk] using hp
      exact h.move_step hpc rfl hb (by simp) (by simp)
    · have hb : Stale M s b := by simpa only [hpc, PcOk] using hp
      rw [hb.header] at hd
      cases hd
  | @commitLoad b hpc =>
    have hb : Owns M s p b := by simpa only [hpc, PcOk] using hp
    exact h.move_step hpc rfl ⟨hb, h.owns_header hb⟩ (by simp) (by simp)
  | @commitStore b current hpc =>
    obtain ⟨hb, rfl⟩ : Owns M s p b ∧ current = RecordHeader.new b.size := by
      simpa only [hpc, PcOk] using hp
    simp only [hb.kept]
    exact h.commitStore_step hpc hb
  | notify hpc | finish hpc => exact h.move_step hpc rfl trivial (by simp) (by simp)
  | incrementDropped =>
    exact ⟨h.released, h.live, h.space, h.small, h.stored, h.lock,
      fun q => (h.pcs q).frame le_rfl (fun _ => rfl) (fun _ _ hm => hm)
        (fun _ _ _ => Agree.refl _ _ _) (fun _ _ hst => hst.apart),
      h.fresh, h.reader.frame rfl rfl rfl (fun r rest hl _ => ⟨rest, hl⟩) (fun hl => hl),
      h.settled⟩

end Manytrace.Mpscbuf
