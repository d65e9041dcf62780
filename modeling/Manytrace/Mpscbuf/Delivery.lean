import Manytrace.Core.Mailbox
import Manytrace.Mpscbuf.Space

/-! The ring buffer refines the ordered mailbox: its events are the labels of a mailbox
run, so the consumer receives what was committed, in the order of the positions. -/
namespace Manytrace.Mpscbuf
open Manytrace.Core Manytrace.Core.MirroredMemory

variable {ι : Type*}

def Status.slot : Status ι → Slot (List UInt8)
  | .busy _ => .busy
  | .committed bs => .ready bs
  | .discarded => .void

def Reservation.slot (r : Reservation ι) : ℕ × Slot (List UInt8) := (r.position, r.status.slot)

/-- The mailbox a state stands for. -/
def State.mailbox (s : State ι) : Mailbox ℕ (List UInt8) :=
  ⟨s.reservations.map Reservation.slot, s.delivered⟩

theorem State.reservations_release (s : State ι) (pos : ℕ) :
    (s.release pos).reservations = s.reservations := by
  rw [reservations, release, List.append_assoc, List.take_append_drop]
  rfl

theorem State.mailbox_release (s : State ι) (pos : ℕ) : (s.release pos).mailbox = s.mailbox := by
  rw [mailbox, s.reservations_release]
  rfl

def Event.label : Event ι → Option (Mailbox.Label ℕ (List UInt8))
  | .reserved _ position _ => some (.reserve position)
  | .committed _ position payload => some (.settle position (.ready payload))
  | .discarded _ position => some (.settle position .void)
  | .returned (some payload) => some (.deliver payload)
  | .returned none => some .empty
  | .failed _ _ => none

section Steps
variable {M : Memory} {s : State ι}

theorem payloads_eq (rs : List (Reservation ι)) :
    (rs.map Reservation.slot).filterMap (fun e => e.2.value?) = payloads rs := by
  rw [List.filterMap_map]
  refine List.filterMap_congr fun r _ => ?_
  cases hs : r.status <;> simp [Reservation.slot, Status.slot, Slot.value?, Status.payload?, hs]

/-- The released reservations are settled, so the front of the live ones decides. -/
theorem Inv.available (h : Inv M s) :
    Mailbox.available s.mailbox.slots =
      payloads s.released ++ Mailbox.available (s.live.map Reservation.slot) := by
  rw [State.mailbox, State.reservations, List.map_append, Mailbox.available_append,
    payloads_eq]
  intro e he
  obtain ⟨r, hr, rfl⟩ := List.mem_map.mp he
  cases hs : r.status with
  | busy p => exact absurd hs (h.settled r hr p)
  | _ => simp [Reservation.slot, Status.slot, Slot.settled, hs]

/-- Settling the owner's reservation is settling its place. -/
theorem Inv.mailbox_settle (h : Inv M s) {p : ι} {b : ReservedBuffer} (hb : Owns M s p b)
    (st : Status ι) :
    (s.released ++ Reservation.setStatus b.position st s.live).map Reservation.slot =
      Mailbox.setSlot b.position st.slot s.mailbox.slots := by
  have hlt : ∀ r ∈ s.released, r.position ≠ b.position := by
    intro r hr
    have h₁ := h.released.mem hr
    have h₂ := h.live.mem hb.live
    have h₃ := r.total_pos
    simp only at h₂
    omega
  have hrel : s.released.map Reservation.slot =
      Mailbox.setSlot b.position st.slot (s.released.map Reservation.slot) := by
    rw [Mailbox.setSlot, List.map_map]
    exact List.map_congr_left fun r hr => (if_neg (hlt r hr)).symm
  rw [State.mailbox, State.reservations, List.map_append, List.map_append, hrel]
  simp only [Mailbox.setSlot, Reservation.setStatus, List.map_append, List.map_map]
  congr 1
  · refine List.map_congr_left fun r _ => ?_
    simp only [Function.comp_apply]
    split_ifs <;> rfl
  · refine List.map_congr_left fun r _ => ?_
    by_cases hr : r.position = b.position
    · simp [Reservation.slot, hr]
    · simp [Reservation.slot, hr]

theorem Owns.busy_slot {p : ι} {b : ReservedBuffer} (hb : Owns M s p b) :
    (b.position, Slot.busy) ∈ s.mailbox.slots :=
  List.mem_map.mpr ⟨_, List.mem_append_right _ hb.live, rfl⟩

/-- A step either does not show in the mailbox or is one step of it, and only a
discarding reservation makes a place void. -/
def Refines (s : State ι) (r : State ι × List (Event ι)) : Prop :=
  (r.2.filterMap Event.label = [] ∧ r.1.mailbox = s.mailbox) ∨
    ∃ l, r.2.filterMap Event.label = [l] ∧ Mailbox.Step s.mailbox l r.1.mailbox ∧
      ∀ k, l = .settle k .void → ∃ p b current, s.procs p = .discarding b current

variable [DecidableEq ι] (wakeup : ι → WakeupStrategy)

theorem Inv.mailbox_reserve (h : Inv M s) {p : ι} {size pp np : ℕ} (hroom : Room M s size pp np)
    (n : ℕ) :
    Mailbox.Step s.mailbox (.reserve pp) ({ s.setPc p (.published size pp) with
      producer := n, live := s.live ++ [⟨pp, size, .busy p⟩] } : State ι).mailbox := by
  have hslots : ({ s.setPc p (.published size pp) with
      producer := n, live := s.live ++ [⟨pp, size, .busy p⟩] } : State ι).mailbox =
      { s.mailbox with slots := s.mailbox.slots ++ [(pp, .busy)] } := by
    simp [State.mailbox, State.reservations, State.setPc, Reservation.slot, Status.slot]
  rw [hslots]
  refine Mailbox.Step.reserve fun e he => ?_
  obtain ⟨r, hr, rfl⟩ := List.mem_map.mp he
  have htiles : Tiles 0 s.reservations s.producer :=
    tiles_append.mpr ⟨s.consumer, h.released, h.live⟩
  have hmem := htiles.mem hr
  have hpos := r.total_pos
  have hcur := hroom.current
  simp only [Reservation.slot]
  omega

theorem producerStep_refines (h : Inv M s) (p : ι) (a : ProducerAct) :
    Refines s (producerStep M wakeup s p a) := by
  have hp := h.pcs p
  have hmove := producerStep_move M wakeup s p a
  generalize producerStep M wakeup s p a = r at hmove ⊢
  cases hmove with
  | publish hpc =>
    rw [hpc] at hp
    exact Or.inr ⟨_, rfl, h.mailbox_reserve hp.1 _, by simp⟩
  | @discardStore b current hpc =>
    rw [hpc] at hp
    refine Or.inr ⟨_, rfl, ?_, fun _ _ => ⟨p, b, current, hpc⟩⟩
    have hslots := h.mailbox_settle hp.1 .discarded
    exact (congrArg (Mailbox.Step _ _ ⟨·, s.delivered⟩) hslots).mpr
      (Mailbox.Step.settle hp.1.busy_slot rfl)
  | @commitStore b current hpc =>
    rw [hpc] at hp
    refine Or.inr ⟨_, rfl, ?_, by simp⟩
    have hslots := h.mailbox_settle hp.1 (.committed b.bytes)
    simp only [hp.1.kept, Bool.false_eq_true, if_false]
    exact (congrArg (Mailbox.Step _ _ ⟨·, s.delivered⟩) hslots).mpr
      (Mailbox.Step.settle hp.1.busy_slot rfl)
  | _ => exact Or.inl ⟨rfl, rfl⟩

omit [DecidableEq ι] in
theorem consumerStep_refines (h : Inv M s) (a : ConsumerAct) :
    Refines s (consumerStep M s a) := by
  have hr := h.reader
  have hav := h.available
  cases a with
  | loadProducer =>
    simp only [consumerStep]
    cases hpc : s.reader with
    | loadedConsumer c =>
      rw [hpc] at hr
      obtain ⟨rfl, hd⟩ := hr
      by_cases hle : s.producer ≤ s.consumer
      · simp only [if_pos hle]
        refine Or.inr ⟨_, rfl, Mailbox.Step.empty ?_, by simp⟩
        rw [hav, h.live_eq_nil_iff.mpr hle, List.map_nil, Mailbox.available_nil, List.append_nil,
          ← hd]
        exact le_rfl
      · simp only [if_neg hle]
        exact Or.inl ⟨rfl, rfl⟩
    | _ => exact Or.inl ⟨rfl, rfl⟩
  | loadHeader =>
    cases hpc : s.reader with
    | loadedProducer c =>
      rw [hpc] at hr
      have hd := hr.2.2
      obtain ⟨r, rest, hl, hstep⟩ := h.loadHeader_eq hpc
      have hcons : Mailbox.available s.mailbox.slots = payloads s.released ++
          Mailbox.available ((r.position, r.status.slot) :: rest.map Reservation.slot) := by
        rw [hav, hl]
        rfl
      rw [hstep]
      cases hs : r.status with
      | busy p =>
        refine Or.inr ⟨_, rfl, Mailbox.Step.empty ?_, by simp⟩
        rw [hcons, hs, Status.slot, Mailbox.available_cons_busy, List.append_nil, ← hd]
        exact le_rfl
      | discarded => exact Or.inl ⟨rfl, rfl⟩
      | committed bs =>
        refine Or.inr ⟨_, rfl, Mailbox.Step.deliver ?_, by simp⟩
        rw [hcons, hs, Status.slot, Mailbox.available_cons_ready, ← hd]
        simp [State.mailbox]
    | _ =>
      simp only [consumerStep, hpc]
      exact Or.inl ⟨rfl, rfl⟩
  | advanceConsumer =>
    simp only [consumerStep]
    cases s.reader with
    | skipping n =>
      exact Or.inl ⟨rfl, s.mailbox_release n⟩
    | _ => exact Or.inl ⟨rfl, rfl⟩
  | dropRecord =>
    simp only [consumerStep]
    cases s.reader with
    | holding r =>
      exact Or.inl ⟨rfl, s.mailbox_release r.totalLen⟩
    | _ => exact Or.inl ⟨rfl, rfl⟩
  | wake =>
    simp only [consumerStep]
    cases s.reader with
    | waiting =>
      dsimp only
      split_ifs <;> exact Or.inl ⟨rfl, rfl⟩
    | _ => exact Or.inl ⟨rfl, rfl⟩
  | loadConsumer | wait =>
    simp only [consumerStep]
    cases s.reader <;> exact Or.inl ⟨rfl, rfl⟩

theorem step_refines (h : Inv M s) (a : Act ι) : Refines s ((ringBuf M wakeup).step s a) := by
  cases a with
  | producer p a => exact producerStep_refines wakeup h p a
  | consumer a => exact consumerStep_refines h a

/-- The events of a run are the labels of a mailbox run that ends in the mailbox of the
last state. -/
theorem run_refines {acts : List (Act ι)}
    (hG : (ringBuf M wakeup).Meets (SparesDiscarded M) State.init acts) :
    Mailbox.Run Mailbox.init
      (((ringBuf M wakeup).outputs State.init acts).filterMap Event.label)
      ((ringBuf M wakeup).final State.init acts).mailbox := by
  have hrun := Machine.history (M := ringBuf M wakeup) (I := fun s os => Inv M s ∧
    Mailbox.Run Mailbox.init (os.filterMap Event.label) s.mailbox) ?_
    ⟨inv_init M, Mailbox.Run.nil _⟩ hG
  · exact hrun.2
  · rintro s os a ⟨hs, hm⟩ hg
    refine ⟨step_inv wakeup hs a hg, ?_⟩
    rw [List.filterMap_append]
    rcases step_refines wakeup hs a with ⟨hl, he⟩ | ⟨l, hl, hstep, -⟩
    · rw [hl, he, List.append_nil]
      exact hm
    · rw [hl]
      exact hm.snoc hstep

/-- Without discards no place becomes void. -/
theorem run_no_void {acts : List (Act ι)} (h : ∀ a ∈ acts, CommitsOnly a) (k : ℕ) :
    Mailbox.Label.settle k .void ∉
      ((ringBuf M wakeup).outputs State.init acts).filterMap Event.label := by
  have hrun := Machine.history (M := ringBuf M wakeup) (I := fun s os => Inv M s ∧
    Mailbox.Label.settle k .void ∉ os.filterMap Event.label) ?_ ⟨inv_init M, by simp⟩
    (meets_commitsOnly h)
  · exact hrun.2
  · rintro s os a ⟨hs, hv⟩ ⟨hplain, -⟩
    refine ⟨step_inv wakeup hs a (sparesDiscarded_of_plain hplain a), ?_⟩
    rw [List.filterMap_append, List.mem_append]
    rintro (hin | hin)
    · exact hv hin
    · rcases step_refines wakeup hs a with ⟨hl, -⟩ | ⟨l, hl, -, hvoid⟩
      · rw [hl] at hin
        simp at hin
      · rw [hl, List.mem_singleton] at hin
        obtain ⟨p, b, current, hpc⟩ := hvoid k hin.symm
        have hp := hplain p
        rw [hpc] at hp
        exact hp

end Steps

/-- The position of a successful `reserve`. -/
def Event.position? : Event ι → Option ℕ
  | .reserved _ position _ => some position
  | _ => none

/-- The payload a `consume` returned. -/
def Event.payload? : Event ι → Option (List UInt8)
  | .returned r => r
  | _ => none

section Events

theorem filterMap_position (evs : List (Event ι)) :
    (evs.filterMap Event.label).filterMap Mailbox.Label.reserved? =
      evs.filterMap Event.position? := by
  rw [List.filterMap_filterMap]
  refine List.filterMap_congr fun e _ => ?_
  rcases e with _ | _ | _ | _ | (_ | _) <;> rfl

theorem filterMap_payload (evs : List (Event ι)) :
    (evs.filterMap Event.label).filterMap Mailbox.Label.delivered? =
      evs.filterMap Event.payload? := by
  rw [List.filterMap_filterMap]
  refine List.filterMap_congr fun e _ => ?_
  rcases e with _ | _ | _ | _ | (_ | _) <;> rfl

theorem mem_ready_label {evs : List (Event ι)} {k : ℕ} {bs : List UInt8} :
    Mailbox.Label.settle k (.ready bs) ∈ evs.filterMap Event.label ↔
      ∃ p, Event.committed p k bs ∈ evs := by
  rw [List.mem_filterMap]
  constructor
  · intro hex
    obtain ⟨e, he, hl⟩ := hex
    rcases e with _ | _ | ⟨p, pos, bs'⟩ | _ | (_ | _) <;> simp [Event.label] at hl
    obtain ⟨rfl, rfl⟩ := hl
    exact ⟨p, he⟩
  · intro hex
    obtain ⟨p, he⟩ := hex
    exact ⟨_, he, rfl⟩

end Events

/-- The events so far and what the consumer holds now. -/
structure DeliversInOrder (M : Memory) (s : State ι) (evs : List (Event ι)) : Prop where
  ordered : (evs.filterMap Event.position?).Pairwise (· < ·)
  /-- The payloads returned are those committed for a first part of the reservations. -/
  committed : ∀ (i : ℕ) bs, (evs.filterMap Event.payload?)[i]? = some bs →
    ∃ position p, (evs.filterMap Event.position?)[i]? = some position ∧
      .committed p position bs ∈ evs
  once : ∀ p q position bs bs', .committed p position bs ∈ evs →
    .committed q position bs' ∈ evs → bs = bs'
  /-- The bytes behind a record do not change while the consumer holds it. -/
  held : ∀ r, s.reader = .holding r →
    (evs.filterMap Event.payload?).getLast? = some (load M.dataSize s.mem r.dataOffset r.len)

theorem Inv.held_payload {M : Memory} {s : State ι} (h : Inv M s) {r : Record}
    (hr : s.reader = .holding r) :
    s.delivered.getLast? = some (load M.dataSize s.mem r.dataOffset r.len) := by
  have hok := h.reader
  rw [hr] at hok
  obtain ⟨t, rest, bs, hl, hs, rfl, hd⟩ := hok
  obtain ⟨t', rest', hl', hpos, -, hst⟩ := h.head (by simp [hl])
  obtain ⟨rfl, rfl⟩ := List.cons.inj (hl.symm.trans hl')
  simp only [Stored, hs, hpos] at hst
  simp [hd, load_mod_add, hst.2]

section Delivery
variable {M : Memory} {s : State ι} {evs : List (Event ι)}

theorem position_eq (hag : Mailbox.Agrees (evs.filterMap Event.label) s.mailbox) :
    evs.filterMap Event.position? = s.mailbox.slots.map Prod.fst := by
  rw [← filterMap_position, hag.reserved]

theorem payload_eq (hag : Mailbox.Agrees (evs.filterMap Event.label) s.mailbox) :
    evs.filterMap Event.payload? = s.delivered := by
  rw [← filterMap_payload, hag.delivered]
  rfl

theorem committed_iff (hag : Mailbox.Agrees (evs.filterMap Event.label) s.mailbox) {k : ℕ}
    {bs : List UInt8} :
    (∃ p, Event.committed p k bs ∈ evs) ↔ (k, .ready bs) ∈ s.mailbox.slots := by
  rw [← mem_ready_label, hag.settled]
  simp [Slot.settled]

theorem Inv.deliversInOrder (h : Inv M s)
    (hag : Mailbox.Agrees (evs.filterMap Event.label) s.mailbox)
    (hvoid : ∀ k, Mailbox.Label.settle k .void ∉ evs.filterMap Event.label) :
    DeliversInOrder M s evs := by
  refine ⟨?_, ?_, ?_, ?_⟩
  · rw [position_eq hag, List.pairwise_map]
    exact hag.sorted
  · intro i bs hi
    have hnv : ∀ e ∈ s.mailbox.slots, e.2 ≠ .void := by
      rintro ⟨k, st⟩ he rfl
      exact hvoid k ((hag.settled k .void).mpr ⟨he, rfl⟩)
    have hav : (Mailbox.available s.mailbox.slots)[i]? = some bs := by
      rw [payload_eq hag] at hi
      exact hag.available_of_delivered hi
    obtain ⟨k, hk⟩ := Mailbox.getElem?_of_available hnv hav
    obtain ⟨p, hp⟩ := (committed_iff hag).mpr (List.mem_of_getElem? hk)
    exact ⟨k, p, by simp [position_eq hag, hk], hp⟩
  · intro p q pos bs bs' hp hq
    have he := Mailbox.eq_of_key hag.sorted ((committed_iff hag).mp ⟨p, hp⟩)
      ((committed_iff hag).mp ⟨q, hq⟩) rfl
    simpa using he
  · intro r hr
    rw [payload_eq hag]
    exact h.held_payload hr

variable [DecidableEq ι] {wakeup : ι → WakeupStrategy}

/-- `consume` returns nothing only if what precedes the first busy record is delivered. -/
theorem Inv.returned_none (h : Inv M s) {a : Act ι}
    (ha : .returned none ∈ ((ringBuf M wakeup).step s a).2) :
    (Mailbox.available s.mailbox.slots).length ≤ s.mailbox.delivered.length := by
  have hmem : Mailbox.Label.empty ∈ (((ringBuf M wakeup).step s a).2).filterMap Event.label :=
    List.mem_filterMap.mpr ⟨_, ha, rfl⟩
  rcases step_refines wakeup h a with ⟨hl, -⟩ | ⟨l, hl, hstep, -⟩
  · rw [hl] at hmem
    simp at hmem
  · rw [hl, List.mem_singleton] at hmem
    subst hmem
    exact hstep.length_le_of_empty

theorem Inv.all_delivered (h : Inv M s)
    (hag : Mailbox.Agrees (evs.filterMap Event.label) s.mailbox) {a : Act ι}
    (ha : .returned none ∈ ((ringBuf M wakeup).step s a).2)
    (hall : ∀ position ∈ evs.filterMap Event.position?,
      ∃ p bs, .committed p position bs ∈ evs) :
    (evs.filterMap Event.payload?).length = (evs.filterMap Event.position?).length := by
  have hready : ∀ e ∈ s.mailbox.slots, ∃ bs, e.2 = .ready bs := by
    intro e he
    obtain ⟨p, bs, hp⟩ := hall e.1 (position_eq hag ▸ List.mem_map_of_mem he)
    have heq := Mailbox.eq_of_key hag.sorted he ((committed_iff hag).mp ⟨p, hp⟩) rfl
    exact ⟨bs, by rw [heq]⟩
  have hlen := h.returned_none ha
  have hle := hag.taken.length_le
  rw [Mailbox.length_available hready] at hlen hle
  rw [payload_eq hag, position_eq hag, List.length_map]
  exact le_antisymm hle hlen

/-- In every interleaving the consumer receives the committed payloads in the order of
the reserved positions, and when `consume` finds nothing although nothing is outstanding,
it has received all of them. -/
theorem delivers_committed_in_order (M : Memory) (wakeup : ι → WakeupStrategy)
    (acts : List (Act ι)) (h : ∀ a ∈ acts, CommitsOnly a) :
    DeliversInOrder M ((ringBuf M wakeup).final State.init acts)
        ((ringBuf M wakeup).outputs State.init acts) ∧
      ∀ a, .returned none ∈
          ((ringBuf M wakeup).step ((ringBuf M wakeup).final State.init acts) a).2 →
        (∀ position ∈ ((ringBuf M wakeup).outputs State.init acts).filterMap Event.position?,
          ∃ p bs, .committed p position bs ∈ (ringBuf M wakeup).outputs State.init acts) →
        (((ringBuf M wakeup).outputs State.init acts).filterMap Event.payload?).length =
          (((ringBuf M wakeup).outputs State.init acts).filterMap Event.position?).length := by
  have hinv : Inv M ((ringBuf M wakeup).final State.init acts) := inv_of_commitsOnly h
  have hag := (run_refines wakeup (M := M) (sparesDiscarded_of_commitsOnly h)).agrees
  exact ⟨hinv.deliversInOrder hag (run_no_void wakeup h), fun a => hinv.all_delivered hag⟩

end Delivery

/-- Two records are reserved, committed in the other order and consumed. -/
def crossedCommits : List (Act ℕ) :=
  reserveActs 0 1 ++ reserveActs 1 1 ++ .producer 1 (.write 0 9) :: commitActs 1 ++
    .producer 0 (.write 0 7) :: commitActs 0 ++ consumeActs ++ .consumer .dropRecord ::
    consumeActs ++ [.consumer .dropRecord, .consumer .loadConsumer]

theorem delivers_crossedCommits :
    ((ringBuf pageRing fun _ => .forced).outputs State.init crossedCommits).filterMap
        Event.payload? = [[7], [9]] ∧
      DeliversInOrder pageRing
        ((ringBuf pageRing fun _ => .forced).final State.init crossedCommits)
        ((ringBuf pageRing fun _ => .forced).outputs State.init crossedCommits) ∧
      (((ringBuf pageRing fun _ => .forced).outputs State.init crossedCommits).filterMap
          Event.payload?).length =
        (((ringBuf pageRing fun _ => .forced).outputs State.init crossedCommits).filterMap
          Event.position?).length := by
  have hacts : ∀ a ∈ crossedCommits, CommitsOnly a := by
    simp [crossedCommits, reserveActs, commitActs, consumeActs, CommitsOnly]
  have houts : (ringBuf pageRing fun _ => .forced).outputs State.init crossedCommits =
      [.reserved 0 0 1, .reserved 1 16 1, .committed 1 16 [9], .committed 0 0 [7],
        .returned (some [7]), .returned (some [9])] := by decide
  obtain ⟨hdel, hall⟩ := delivers_committed_in_order pageRing (fun _ => .forced) _ hacts
  refine ⟨by decide, hdel, hall (.consumer .loadProducer) (by decide) ?_⟩
  rw [houts]
  simp [Event.position?]

end Manytrace.Mpscbuf
