import Manytrace.Bpf.BlockTrack

/-! The depth counters of a device count its live requests: `inflight` those that have been
issued, `queued` those that are in the queue. -/
namespace Manytrace.Bpf.BlockTrack
open Manytrace.Core

def RequestState.issuedOn (dev : ℕ) (st : RequestState) : Bool := st.dev == dev && st.issued

def RequestState.insertedOn (dev : ℕ) (st : RequestState) : Bool := st.dev == dev && st.inserted

def Balanced (dev : ℕ) (s : Maps) : Prop :=
  ∃ d, s.deviceDepths dev = some d ∧
    d.inflight = s.requests.count (RequestState.issuedOn dev) ∧
    d.queued = s.requests.count (RequestState.insertedOn dev)

/-- The counters are right. In particular they are zero when no request of the device is left. -/
def DepthCounts (dev : ℕ) (s : Maps) : Prop :=
  ∃ d, s.deviceDepths dev = some d ∧
    d.inflight = s.requests.count (RequestState.issuedOn dev) ∧
    d.queued = s.requests.count (RequestState.insertedOn dev) ∧
    ((∀ e ∈ s.requests.entries, e.2.dev ≠ dev) → d.inflight = 0 ∧ d.queued = 0)

/-- A request keeps its device while it has an entry. -/
def SameDevice (s : Maps) (tp : Tracepoint) : Prop :=
  ∀ st, s.requests.lookup tp.rq.id = some st → st.dev = requestDevice tp.rq

/-- The last completion of a request that is in service comes later than its issue. -/
def FinishesLater (cfg : Cfg) (dev : ℕ) (s : Maps) (tp : Tracepoint) : Prop :=
  ∀ error nrBytes st, tp.program = .complete error nrBytes →
    shouldTrack cfg tp.ctx (requestDevice tp.rq) (requestOperation tp.rq) = true →
    cfg.requestTrackingEnabled = true → s.requests.lookup tp.rq.id = some st → st.dev = dev →
    (error ≠ 0 ∨ st.remainingBytes ≤ nrBytes) → st.issued = true → st.issueNs < tp.ctx.now

theorem depthCounts_iff {dev : ℕ} {s : Maps} : DepthCounts dev s ↔ Balanced dev s := by
  constructor
  · intro hex
    obtain ⟨d, hd, hi, hq, -⟩ := hex
    exact ⟨d, hd, hi, hq⟩
  · intro hex
    obtain ⟨d, hd, hi, hq⟩ := hex
    refine ⟨d, hd, hi, hq, fun hnone => ?_⟩
    rw [hi, hq]
    constructor <;> refine List.countP_eq_zero.mpr fun e he => ?_
    · simp [RequestState.issuedOn, hnone e he]
    · simp [RequestState.insertedOn, hnone e he]

section Counters
variable {cfg : Cfg} {ctx : Context} {dev id : ℕ} {s t : Maps} {st : RequestState}

@[simp] theorem inflight_adjust (q i : ℤ) (now : ℕ) (d : DeviceDepth) :
    (d.adjust q i now).inflight = stepCounter d.inflight i := by
  unfold DeviceDepth.adjust DeviceDepth.charge
  split_ifs <;> rfl

@[simp] theorem queued_adjust (q i : ℤ) (now : ℕ) (d : DeviceDepth) :
    (d.adjust q i now).queued = stepCounter d.queued q := by
  unfold DeviceDepth.adjust DeviceDepth.charge
  split_ifs <;> rfl

theorem stepCounter_zero (n : ℕ) : stepCounter n 0 = n := rfl

theorem stepCounter_one {n : ℕ} (hn : n ≤ 32768) : stepCounter n 1 = n + 1 :=
  Nat.mod_eq_of_lt (by omega)

theorem stepCounter_neg_one (n : ℕ) : stepCounter n (-1) = n - 1 := by
  cases n <;> rfl

/-- A counter that follows a flag. -/
theorem stepCounter_toNat {n k : ℕ} {a b : Bool} (h : k + a.toNat = n + b.toNat)
    (hn : n ≤ 32768) : stepCounter n ((b.toNat : ℤ) - a.toNat) = k := by
  cases a <;> cases b <;> simp only [Bool.toNat_false, Bool.toNat_true] at h ⊢
  · exact (stepCounter_zero n).trans h.symm
  · exact (stepCounter_one hn).trans h.symm
  · exact (stepCounter_neg_one n).trans (by omega)
  · exact (stepCounter_zero n).trans (by omega)

theorem Balanced.congr (h : Balanced dev s)
    (hframe : t.deviceDepths = s.deviceDepths ∧ t.requests = s.requests) : Balanced dev t := by
  unfold Balanced
  rw [hframe.1, hframe.2]
  exact h

theorem requests_adjustDepth (d : ℕ) (q i : ℤ) (s : Maps) :
    (adjustDepth cfg ctx d q i s).requests = s.requests := by
  unfold adjustDepth
  split_ifs <;> rfl

/-- The counters of `d` move, and the entries of `d` with them. -/
theorem Balanced.adjust (hsat : cfg.saturationEnabled = true) (h : Balanced dev s) {d : ℕ}
    {q i : ℤ} {r : BoundedMap ℕ RequestState 32768}
    (hi : r.count (RequestState.issuedOn dev) =
      stepCounter (s.requests.count (RequestState.issuedOn dev)) (if d = dev then i else 0))
    (hq : r.count (RequestState.insertedOn dev) =
      stepCounter (s.requests.count (RequestState.insertedOn dev)) (if d = dev then q else 0)) :
    Balanced dev { adjustDepth cfg ctx d q i s with requests := r } := by
  obtain ⟨depth, hdepth, hin, hqu⟩ := h
  unfold Balanced adjustDepth
  rw [← hin] at hi
  rw [← hqu] at hq
  by_cases hd : d = dev
  · subst hd
    rw [if_pos rfl] at hi hq
    refine ⟨depth.adjust q i ctx.now, by simp [hsat, hdepth], ?_, ?_⟩
    · rw [inflight_adjust, ← hi]
    · rw [queued_adjust, ← hq]
  · rw [if_neg hd, stepCounter_zero] at hi hq
    exact ⟨depth, by simp [hsat, Function.update_of_ne (Ne.symm hd), hdepth], hi.symm, hq.symm⟩

/-- A store into an entry together with the change of the counters that it calls for. -/
theorem Balanced.move (hsat : cfg.saturationEnabled = true) (h : Balanced dev s)
    (hl : s.requests.lookup id = some st) {f : RequestState → RequestState}
    (hdev : (f st).dev = st.dev) {q i : ℤ}
    (hq : q = ((f st).inserted.toNat : ℤ) - st.inserted.toNat)
    (hi : i = ((f st).issued.toNat : ℤ) - st.issued.toNat) :
    Balanced dev ((adjustDepth cfg ctx st.dev q i s).modifyRequest id f) := by
  have hissued := BoundedMap.count_modify (RequestState.issuedOn dev) hl f
  have hinserted := BoundedMap.count_modify (RequestState.insertedOn dev) hl f
  simp only [RequestState.issuedOn, RequestState.insertedOn, hdev] at hissued hinserted
  unfold Maps.modifyRequest
  rw [requests_adjustDepth]
  refine h.adjust hsat ?_ ?_
  · rw [← stepCounter_toNat hissued (s.requests.count_le _), hi]
    by_cases hsame : st.dev = dev <;> simp [hsame, beq_eq_false_iff_ne.mpr]
  · rw [← stepCounter_toNat hinserted (s.requests.count_le _), hq]
    by_cases hsame : st.dev = dev <;> simp [hsame, beq_eq_false_iff_ne.mpr]

/-- A store that leaves the device and the flags alone. -/
theorem Balanced.store (h : Balanced dev s) {f : RequestState → RequestState}
    (hf : ∀ st, (f st).dev = st.dev ∧ (f st).issued = st.issued ∧
      (f st).inserted = st.inserted) : Balanced dev (s.modifyRequest id f) := by
  cases hl : s.requests.lookup id with
  | none =>
    unfold Maps.modifyRequest
    rw [BoundedMap.modify_of_none hl]
    exact h
  | some st =>
    obtain ⟨d, hd, hin, hqu⟩ := h
    obtain ⟨hdev, hissued, hinserted⟩ := hf st
    have hci := BoundedMap.count_modify (RequestState.issuedOn dev) hl f
    have hcq := BoundedMap.count_modify (RequestState.insertedOn dev) hl f
    simp only [RequestState.issuedOn, RequestState.insertedOn, hdev, hissued, hinserted] at hci hcq
    exact ⟨d, hd, hin.trans (Nat.add_right_cancel hci).symm,
      hqu.trans (Nat.add_right_cancel hcq).symm⟩

/-- A new entry is not issued, and is counted as queued if it is inserted. -/
theorem Balanced.create (hsat : cfg.saturationEnabled = true) (h : Balanced dev s)
    {r : BoundedMap ℕ RequestState 32768} (hr : s.requests.insertNew id st = some r)
    (hst : st.issued = false) :
    Balanced dev (if st.inserted then adjustDepth cfg ctx st.dev 1 0 { s with requests := r }
      else { s with requests := r }) := by
  have hci := BoundedMap.count_insertNew (RequestState.issuedOn dev) hr
  have hcq := BoundedMap.count_insertNew (RequestState.insertedOn dev) hr
  simp only [RequestState.issuedOn, hst, Bool.and_false, Bool.toNat_false] at hci
  cases hins : st.inserted with
  | false =>
    simp only [RequestState.insertedOn, hins, Bool.and_false, Bool.toNat_false] at hcq
    obtain ⟨d, hd, hin, hqu⟩ := h
    exact ⟨d, hd, hin.trans hci.symm, hqu.trans hcq.symm⟩
  | true =>
    have hadjust : adjustDepth cfg ctx st.dev 1 0 { s with requests := r } =
        { adjustDepth cfg ctx st.dev 1 0 s with requests := r } := by
      simp [adjustDepth, hsat]
    rw [if_pos rfl, hadjust]
    refine h.adjust hsat ?_ ?_
    · rw [ite_self, stepCounter_zero]
      exact hci
    · by_cases hsame : st.dev = dev
      · rw [if_pos hsame, stepCounter_one (s.requests.count_le _)]
        simpa [RequestState.insertedOn, hins, hsame] using hcq
      · rw [if_neg hsame, stepCounter_zero]
        simpa [RequestState.insertedOn, beq_eq_false_iff_ne.mpr hsame] using hcq

/-- An entry may only go once it is not counted any more. -/
theorem Balanced.delete_iff (h : Balanced dev s) (hl : s.requests.lookup id = some st)
    (hst : st.inserted = false) :
    Balanced dev { s with requests := s.requests.delete id } ↔
      (st.dev = dev → st.issued = false) := by
  obtain ⟨d, hd, hin, hqu⟩ := h
  have hci := BoundedMap.count_delete (RequestState.issuedOn dev) hl
  have hcq := BoundedMap.count_delete (RequestState.insertedOn dev) hl
  simp only [RequestState.insertedOn, hst, Bool.and_false, Bool.toNat_false] at hcq
  have hflag : RequestState.issuedOn dev st = false ↔ (st.dev = dev → st.issued = false) := by
    simp [RequestState.issuedOn]
  rw [← hflag]
  constructor
  · intro hex
    obtain ⟨d', hd', hin', -⟩ := hex
    obtain rfl : d = d' := Option.some.inj (hd.symm.trans hd')
    cases hf : RequestState.issuedOn dev st with
    | false => rfl
    | true =>
      rw [hf, Bool.toNat_true] at hci
      simp only at hin'
      omega
  · intro hf
    rw [hf, Bool.toNat_false] at hci
    exact ⟨d, hd, hin.trans hci.symm, hqu.trans hcq.symm⟩

end Counters

/-! ## Statistics and spans leave requests and depths alone -/

section Frame
variable (cfg : Cfg) (ctx : Context) (s : Maps)

theorem recordBytes_frame (dev : ℕ) (operation : BlockOperation) (bytes error : ℕ) :
    (recordBytes cfg ctx dev operation bytes error s).deviceDepths = s.deviceDepths ∧
      (recordBytes cfg ctx dev operation bytes error s).requests = s.requests := by
  unfold recordBytes
  split_ifs <;> exact ⟨rfl, rfl⟩

theorem recordCompletion_frame (dev : ℕ) (operation : BlockOperation)
    (queueNs serviceNs totalNs : ℕ) :
    (recordCompletion cfg ctx dev operation queueNs serviceNs totalNs s).deviceDepths =
        s.deviceDepths ∧
      (recordCompletion cfg ctx dev operation queueNs serviceNs totalNs s).requests =
        s.requests := by
  unfold recordCompletion
  split_ifs <;> exact ⟨rfl, rfl⟩

theorem recordLostRequest_frame (dev : ℕ) :
    (recordLostRequest cfg ctx dev s).deviceDepths = s.deviceDepths ∧
      (recordLostRequest cfg ctx dev s).requests = s.requests := by
  unfold recordLostRequest
  split_ifs <;> exact ⟨rfl, rfl⟩

theorem emitRequestSpan_frame (id : ℕ) (state : RequestState)
    (startNs queueNs serviceNs totalNs error : ℕ) (completed : Bool) :
    (emitRequestSpan cfg ctx id state startNs queueNs serviceNs totalNs error completed
        s).1.deviceDepths = s.deviceDepths ∧
      (emitRequestSpan cfg ctx id state startNs queueNs serviceNs totalNs error completed
        s).1.requests = s.requests := by
  unfold emitRequestSpan
  split_ifs <;> exact ⟨rfl, rfl⟩

end Frame

/-! ## The programs -/

section Programs
variable {cfg : Cfg} (ctx : Context) {dev d id : ℕ} {s : Maps} {st : RequestState} {rq : Request}

theorem lookup_move {f : RequestState → RequestState} (hl : s.requests.lookup id = some st)
    (d : ℕ) (q i : ℤ) :
    ((adjustDepth cfg ctx d q i s).modifyRequest id f).requests.lookup id = some (f st) := by
  unfold Maps.modifyRequest
  rw [requests_adjustDepth]
  exact BoundedMap.lookup_modify hl f

theorem adjustDepth_modifyRequest (d : ℕ) (q i : ℤ) (f : RequestState → RequestState) :
    adjustDepth cfg ctx d q i (s.modifyRequest id f) =
      (adjustDepth cfg ctx d q i s).modifyRequest id f := by
  unfold adjustDepth
  split_ifs <;> rfl

theorem leaveQueue_spec (hsat : cfg.saturationEnabled = true) (h : Balanced dev s)
    (hl : s.requests.lookup id = some st) (hd : st.dev = d) :
    Balanced dev (leaveQueue cfg ctx d id s) ∧
      ∃ st', (leaveQueue cfg ctx d id s).requests.lookup id = some st' ∧ st'.dev = st.dev ∧
        st'.issued = st.issued ∧ st'.inserted = false := by
  subst hd
  by_cases hins : st.inserted = true
  · simp only [leaveQueue, hl, if_pos hins]
    refine ⟨h.move hsat hl rfl ?_ ?_, _, lookup_move ctx hl _ _ _, rfl, rfl, rfl⟩ <;>
      simp [hins]
  · simp only [leaveQueue, hl, if_neg hins]
    exact ⟨h, st, rfl, rfl, rfl, by simpa using hins⟩

theorem enterService_balanced (hsat : cfg.saturationEnabled = true) (h : Balanced dev s)
    (hl : s.requests.lookup id = some st) (hd : st.dev = d) :
    Balanced dev (enterService cfg ctx d id s) := by
  subst hd
  by_cases hiss : (!st.issued) = true
  · simp only [enterService, hl, if_pos hiss]
    have hnot : st.issued = false := by simpa using hiss
    refine h.move hsat hl rfl ?_ ?_ <;> simp [hnot]
  · simpa only [enterService, hl, if_neg hiss] using h

/-- The request stays in service if it was issued just now. -/
theorem leaveService_spec (hsat : cfg.saturationEnabled = true) (h : Balanced dev s)
    (hl : s.requests.lookup id = some st) :
    Balanced dev (leaveService cfg ctx id s) ∧
      ∃ st', (leaveService cfg ctx id s).requests.lookup id = some st' ∧ st'.dev = st.dev ∧
        (st'.issued = false ↔ (st.issued = true → st.issueNs < ctx.now)) := by
  by_cases hc : (st.issued && decide (st.issueNs < ctx.now)) = true
  · obtain ⟨hiss, hlt⟩ : st.issued = true ∧ st.issueNs < ctx.now := by simpa using hc
    simp only [leaveService, hl, if_pos hc]
    refine ⟨h.move hsat hl rfl ?_ ?_, _, lookup_move ctx hl _ _ _, rfl, by simp [hlt]⟩ <;>
      simp [hiss]
  · simp only [leaveService, hl, if_neg hc]
    refine ⟨h, st, rfl, rfl, ?_⟩
    cases hiss : st.issued with
    | false => simp
    | true => simpa [hiss] using hc

theorem create_balanced (hsat : cfg.saturationEnabled = true) (h : Balanced dev s)
    (rq : Request) (d p : ℕ) (operation : BlockOperation) (inserted : Bool) :
    Balanced dev (createRequest cfg ctx rq d p operation inserted s).1 ∧
      ((createRequest cfg ctx rq d p operation inserted s).2 = true →
        ∃ st, (createRequest cfg ctx rq d p operation inserted s).1.requests.lookup rq.id =
          some st ∧ st.dev = d) := by
  unfold createRequest
  dsimp only
  generalize hr : (if ctx.requestsRoom = true then s.requests.insertNew rq.id
    (initialRequest ctx rq d p operation inserted) else none) = created
  cases created with
  | none =>
    exact ⟨h.congr (recordLostRequest_frame cfg ctx s d),
      fun hf => absurd hf Bool.false_ne_true⟩
  | some r =>
    split_ifs at hr with hroom
    refine ⟨h.create hsat hr rfl, fun _ =>
      ⟨initialRequest ctx rq d p operation inserted, ?_, rfl⟩⟩
    have hlook := BoundedMap.lookup_insertNew hr
    cases inserted with
    | false => exact hlook
    | true => simpa only [if_true, requests_adjustDepth] using hlook

theorem insert_balanced (hsat : cfg.saturationEnabled = true)
    (hsame : ∀ st, s.requests.lookup rq.id = some st → st.dev = requestDevice rq)
    (h : Balanced dev s) : Balanced dev (traceBlockRqInsert cfg ctx rq s) := by
  unfold traceBlockRqInsert
  dsimp only
  split
  · exact h
  cases hl : s.requests.lookup rq.id with
  | none => exact (create_balanced ctx hsat h _ _ _ _ _).1
  | some st =>
    dsimp only
    generalize hf : (fun st : RequestState => { st with
      bytes := rq.dataLen
      remainingBytes :=
        if st.remainingBytes < rq.dataLen then rq.dataLen else st.remainingBytes }) = f
    have hstored : Balanced dev (s.modifyRequest rq.id f) :=
      h.store fun st => by rw [← hf]; exact ⟨rfl, rfl, rfl⟩
    split
    · next hfresh =>
      have hflags : st.inserted = false ∧ st.issued = false := by simpa using hfresh
      have hl' : (s.modifyRequest rq.id f).requests.lookup rq.id = some (f st) :=
        BoundedMap.lookup_modify hl f
      rw [adjustDepth_modifyRequest, ← hsame st hl]
      subst hf
      refine hstored.move hsat hl' rfl ?_ ?_ <;> simp [hflags]
    · exact hstored

theorem merge_balanced (h : Balanced dev s) : Balanced dev (traceBlockRqMerge cfg rq s) := by
  unfold traceBlockRqMerge
  split_ifs
  · exact h
  · exact h.store fun _ => ⟨rfl, rfl, rfl⟩

theorem issueRequest_balanced (hsat : cfg.saturationEnabled = true) (h : Balanced dev s)
    (hl : s.requests.lookup rq.id = some st) (hd : st.dev = d) :
    Balanced dev (issueRequest cfg ctx rq d s) := by
  obtain ⟨hq, st', hl', hdev, -, -⟩ := leaveQueue_spec ctx hsat h hl hd
  have hs := enterService_balanced ctx hsat hq hl' (hdev.trans hd)
  exact hs.store fun _ => ⟨rfl, rfl, rfl⟩

theorem issue_balanced (hsat : cfg.saturationEnabled = true)
    (hsame : ∀ st, s.requests.lookup rq.id = some st → st.dev = requestDevice rq)
    (h : Balanced dev s) : Balanced dev (traceBlockRqIssue cfg ctx rq s) := by
  unfold traceBlockRqIssue
  dsimp only
  split
  · exact h
  cases hl : s.requests.lookup rq.id with
  | some st => exact issueRequest_balanced ctx hsat h hl (hsame st hl)
  | none =>
    obtain ⟨hc, hnew⟩ := create_balanced ctx hsat h rq (requestDevice rq)
      (requestPartition rq) (requestOperation rq) false
    dsimp only
    split
    · next hr =>
      obtain ⟨st, hst, hd⟩ := hnew hr
      exact issueRequest_balanced ctx hsat hc hst hd
    · exact hc

theorem requeue_balanced (hsat : cfg.saturationEnabled = true) (h : Balanced dev s) :
    Balanced dev (traceBlockRqRequeue cfg ctx rq s).1 := by
  unfold traceBlockRqRequeue
  dsimp only
  split
  · exact h
  generalize hs₁ : (if cfg.errorsEnabled = true then withDeviceStats ctx (requestDevice rq)
    (fun stats => { stats with requeues := add64 stats.requeues 1 }) s else s) = s₁
  have h₁ : Balanced dev s₁ := by
    rw [← hs₁]
    split_ifs
    · exact h.congr ⟨rfl, rfl⟩
    · exact h
  split
  · exact h₁
  cases hl : s₁.requests.lookup rq.id with
  | none => exact h₁
  | some st =>
    have h₂ := (leaveService_spec ctx hsat h₁ hl).1
    have h₃ : Balanced dev ((leaveService cfg ctx rq.id s₁).modifyRequest rq.id fun st =>
      { st with requeues := (st.requeues + 1) % 2 ^ 32 }) := h₂.store fun _ => ⟨rfl, rfl, rfl⟩
    exact (h₃.congr (emitRequestSpan_frame ..)).store fun _ => ⟨rfl, rfl, rfl⟩

theorem finishRequest_balanced_iff (h : Balanced dev s) (hl : s.requests.lookup id = some st)
    (hst : st.inserted = false) (error : ℕ) :
    Balanced dev (finishRequest cfg ctx id error st s).1 ↔ (st.dev = dev → st.issued = false) := by
  unfold finishRequest
  dsimp only
  generalize hs₁ : recordCompletion cfg ctx st.dev st.operation _ st.serviceNs _ s = s₁
  generalize hs₂ : (emitRequestSpan cfg ctx id st _ _ st.serviceNs _ error true s₁).1 = s₂
  have hframe₁ : s₁.deviceDepths = s.deviceDepths ∧ s₁.requests = s.requests :=
    hs₁ ▸ recordCompletion_frame ..
  have hframe₂ : s₂.deviceDepths = s₁.deviceDepths ∧ s₂.requests = s₁.requests :=
    hs₂ ▸ emitRequestSpan_frame ..
  refine ((h.congr hframe₁).congr hframe₂).delete_iff ?_ hst
  rw [hframe₂.2, hframe₁.2]
  exact hl

/-- The last completion is the only place where an entry goes. -/
theorem complete_balanced_iff (hsat : cfg.saturationEnabled = true) (h : Balanced dev s)
    (error nrBytes : ℕ) :
    Balanced dev (traceBlockRqComplete cfg ctx rq error nrBytes s).1 ↔
      FinishesLater cfg dev s ⟨ctx, rq, .complete error nrBytes⟩ := by
  unfold traceBlockRqComplete FinishesLater
  dsimp only
  split
  · next hoff =>
    exact iff_of_true h fun _ _ _ _ ht => by simp [ht] at hoff
  generalize hs₁ : recordBytes cfg ctx _ _ nrBytes error s = s₁
  have hframe : s₁.deviceDepths = s.deviceDepths ∧ s₁.requests = s.requests :=
    hs₁ ▸ recordBytes_frame ..
  have h₁ : Balanced dev s₁ := h.congr hframe
  split
  · next hoff =>
    exact iff_of_true h₁ fun _ _ _ _ _ ht => by simp [ht] at hoff
  next htrack hreq =>
  rw [← hframe.2]
  cases hl : s₁.requests.lookup rq.id with
  | none =>
    exact iff_of_true (h₁.congr (recordCompletion_frame ..)) fun _ _ _ _ _ _ hst => nomatch hst
  | some st =>
    dsimp only
    split
    · next hlast =>
      obtain ⟨h₂, st₂, hl₂, hdev₂, hiss₂⟩ := leaveService_spec ctx hsat h₁ hl
      obtain ⟨h₃, st₃, hl₃, hdev₃, hiss₃, hins₃⟩ := leaveQueue_spec ctx hsat h₂ hl₂ hdev₂
      simp only [hl₃]
      rw [finishRequest_balanced_iff ctx h₃ hl₃ hins₃, hdev₃, hdev₂, hiss₃, hiss₂]
      constructor
      · rintro hlater _ _ _ ⟨⟩ - - ⟨⟩ hd - hi
        exact hlater hd hi
      · intro hlater hd hi
        exact hlater error nrBytes st rfl (by simpa using htrack) (by simpa using hreq) rfl hd
          hlast hi
    · next hmore =>
      refine iff_of_true (h₁.store fun _ => ⟨rfl, rfl, rfl⟩) ?_
      rintro _ _ _ ⟨⟩ - - ⟨⟩ - hlast
      exact absurd hlast hmore

theorem step_balanced_iff (hsat : cfg.saturationEnabled = true) (tp : Tracepoint)
    (h : Balanced dev s) (hsame : SameDevice s tp) :
    Balanced dev ((blockTrack cfg).step s tp).1 ↔ FinishesLater cfg dev s tp := by
  obtain ⟨ctx, rq, program⟩ := tp
  cases program with
  | insert => exact iff_of_true (insert_balanced ctx hsat hsame h) fun _ _ _ hp => nomatch hp
  | merge => exact iff_of_true (merge_balanced h) fun _ _ _ hp => nomatch hp
  | issue => exact iff_of_true (issue_balanced ctx hsat hsame h) fun _ _ _ hp => nomatch hp
  | requeue => exact iff_of_true (requeue_balanced ctx hsat h) fun _ _ _ hp => nomatch hp
  | complete error nrBytes => exact complete_balanced_iff ctx hsat h error nrBytes

end Programs

theorem depth_counts_iff (cfg : Cfg) (hsat : cfg.saturationEnabled = true) (dev : ℕ) (s : Maps)
    (h₀ : DepthCounts dev s) (tps : List Tracepoint)
    (hsame : (blockTrack cfg).Meets SameDevice s tps) :
    (∀ pre post, tps = pre ++ post → DepthCounts dev ((blockTrack cfg).final s pre)) ↔
      (blockTrack cfg).Meets (FinishesLater cfg dev) s tps := by
  have hstep : ∀ s tp, DepthCounts dev s → SameDevice s tp →
      (DepthCounts dev ((blockTrack cfg).step s tp).1 ↔ FinishesLater cfg dev s tp) := by
    intro s tp h hs
    rw [depthCounts_iff] at h ⊢
    exact step_balanced_iff hsat tp h hs
  exact (blockTrack cfg).forall_reached_iff hstep h₀ hsame

section Runs

/-- The maps as user space leaves them at the start of a capture of one device. -/
def captureStart (dev now : ℕ) : Maps where
  deviceStats _ := none
  deviceDepths := Function.update (fun _ => none) dev
    (some ⟨now, now, 0, 0, 0, 0, 0, 0, 0, 0⟩)
  requests := .empty

/-- A read of 4096 bytes is issued at 100 and completed at `done`. -/
def readUntil (done : ℕ) : List Tracepoint :=
  [(100, .issue), (done, .complete 0 4096)].map fun p =>
    ⟨⟨p.1, [], 1, 1, "dd", 0, true, true, true⟩, ⟨64, 0, 4096, 2048, some 8, none⟩, p.2⟩

theorem sameDevice_readUntil (done : ℕ) :
    (blockTrack {}).Meets SameDevice (captureStart 8 50) (readUntil done) :=
  ⟨fun _ hst => (nomatch hst), fun _ hst => by cases hst; rfl, trivial⟩

theorem depthCounts_captureStart : DepthCounts 8 (captureStart 8 50) :=
  ⟨_, rfl, rfl, rfl, fun _ => ⟨rfl, rfl⟩⟩

theorem depth_counts_read_until_250 :
    DepthCounts 8 ((blockTrack {}).final (captureStart 8 50) (readUntil 250)) := by
  have hlater : (blockTrack {}).Meets (FinishesLater {} 8) (captureStart 8 50) (readUntil 250) := by
    refine ⟨fun _ _ _ hp => (nomatch hp), ?_, trivial⟩
    intro _ _ st _ _ _ hst _ _ _
    cases hst
    decide
  exact (depth_counts_iff {} rfl 8 (captureStart 8 50) depthCounts_captureStart (readUntil 250)
    (sameDevice_readUntil 250)).mpr hlater (readUntil 250) [] (List.append_nil _).symm

/-- The read is completed at the very time of its issue: its entry goes, but it stays counted. -/
theorem read_at_once_stays_inflight :
    (blockTrack {}).Meets SameDevice (captureStart 8 50) (readUntil 100) ∧
    ((blockTrack {}).final (captureStart 8 50) (readUntil 100)).requests.entries = [] ∧
    (((blockTrack {}).final (captureStart 8 50) (readUntil 100)).deviceDepths 8).map
      DeviceDepth.inflight = some 1 ∧
    ¬ DepthCounts 8 ((blockTrack {}).final (captureStart 8 50) (readUntil 100)) := by
  refine ⟨sameDevice_readUntil 100, rfl, rfl, ?_⟩
  intro hex
  obtain ⟨d, hd, hin, -⟩ := hex
  cases hd
  exact absurd hin (by decide)

end Runs
end Manytrace.Bpf.BlockTrack
