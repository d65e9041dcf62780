import Mathlib.Algebra.BigOperators.Group.Finset.Basic
import Mathlib.Algebra.Order.Ring.Nat
import Manytrace.Bpf.Latency

/-! How often a request is counted. It should be one operation, however it is completed. -/
namespace Manytrace.Bpf.BlockTrack
open Manytrace.Core

/-! ## Growth of the counters -/

/-- How much a 64-bit counter has been increased. -/
def grown (before after : ℕ) : ℕ := (after + (2 ^ 64 - before % 2 ^ 64)) % 2 ^ 64

def histogramGrown (before after : ℕ → ℕ) : ℕ :=
  (Finset.range histogramBuckets).sum fun b => grown (before b) (after b)

structure Growth where
  bytes : ℕ
  operations : ℕ
  service : ℕ
  total : ℕ
deriving DecidableEq, Repr

def OperationStats.growthTo (o o' : OperationStats) : Growth where
  bytes := grown o.bytes o'.bytes
  operations := grown o.operations o'.operations
  service := histogramGrown o.serviceHistogram o'.serviceHistogram
  total := histogramGrown o.totalHistogram o'.totalHistogram

theorem grown_self (n : ℕ) : grown n n = 0 := by
  unfold grown
  omega

theorem grown_add64 (n : ℕ) {k : ℕ} (hk : k < 2 ^ 64) : grown n (add64 n k) = k := by
  unfold grown add64
  omega

theorem histogramGrown_self (h : ℕ → ℕ) : histogramGrown h h = 0 :=
  Finset.sum_eq_zero fun b _ => grown_self (h b)

theorem histogramGrown_bump (h : ℕ → ℕ) {i : ℕ} (hi : i < histogramBuckets) :
    histogramGrown h (bump h i) = 1 := by
  unfold histogramGrown bump
  rw [Finset.sum_eq_single i]
  · rw [Function.update_self, grown_add64 _ (by decide)]
  · intro b _ hb
    rw [Function.update_of_ne hb, grown_self]
  · intro hnot
    exact absurd (Finset.mem_range.mpr hi) hnot

section Completion
variable {cfg : Cfg} (hbytes : cfg.bytesEnabled = true) (hops : cfg.operationsEnabled = true)
include hbytes

theorem growthTo_addBytes (o : OperationStats) {nrBytes : ℕ} (hn : nrBytes < 2 ^ 32) :
    o.growthTo (o.addBytes cfg nrBytes 0) = ⟨nrBytes, 0, 0, 0⟩ := by
  have hcounter : grown o.bytes (o.addBytes cfg nrBytes 0).bytes = nrBytes := by
    by_cases hzero : nrBytes = 0
    · simp [OperationStats.addBytes, hzero, grown_self]
    · simp only [OperationStats.addBytes, hbytes, Bool.true_and, bne_iff_ne, ne_eq, hzero,
        not_false_eq_true, if_true]
      exact grown_add64 _ (by omega)
  unfold OperationStats.growthTo
  rw [hcounter]
  simp only [OperationStats.addBytes, grown_self, histogramGrown_self]

include hops

/-- A completion that counts: the bytes, one operation, one entry in each histogram. -/
theorem growthTo_addCompletion (o : OperationStats) (times : CompletionTimes) {nrBytes : ℕ}
    (hn : nrBytes < 2 ^ 32) :
    o.growthTo ((o.addBytes cfg nrBytes 0).addCompletion cfg times) =
      ⟨nrBytes, 1, cfg.latencyEnabled.toNat, cfg.latencyEnabled.toNat⟩ := by
  have hcounter := congrArg Growth.bytes (growthTo_addBytes hbytes o hn)
  have hone : grown o.operations (add64 o.operations 1) = 1 := grown_add64 _ (by decide)
  have hservice := histogramGrown_bump o.serviceHistogram (latencyBucket_lt times.serviceNs)
  have htotal := histogramGrown_bump o.totalHistogram (latencyBucket_lt times.totalNs)
  unfold OperationStats.growthTo at hcounter ⊢
  cases hlatency : cfg.latencyEnabled with
  | false =>
    simp only [OperationStats.addCompletion, hlatency, hops, Bool.not_false, if_true] at hcounter ⊢
    rw [hcounter]
    simp only [OperationStats.addBytes, hone, histogramGrown_self, Bool.toNat_false]
  | true =>
    simp only [OperationStats.addCompletion, hlatency, hops, Bool.not_true, Bool.false_eq_true,
      if_false, if_true] at hcounter ⊢
    rw [hcounter]
    simp only [OperationStats.addBytes, hone, hservice, htotal, Bool.toNat_true]

end Completion
/-! ## The life of a request -/

/-- An event of a request of this device and operation, which are tracked. -/
structure OfOperation (cfg : Cfg) (dev : ℕ) (op : BlockOperation) (tp : Tracepoint) : Prop where
  tracked : shouldTrack cfg tp.ctx dev op = true
  device : requestDevice tp.rq = dev
  operation : requestOperation tp.rq = op
  u32 : ∀ error nrBytes, tp.program = .complete error nrBytes → nrBytes < 2 ^ 32

/-- The events of a request of which `left` bytes are not completed yet. Its length may grow by
merges, with an event or without. Partial completions leave some bytes, and the last event
completes what is left. -/
def Course : ℕ → List Tracepoint → Prop
  | _, [] => False
  | left, tp :: tps =>
    match tp.program with
    | .complete error nrBytes =>
      error = 0 ∧ if tps = [] then nrBytes = left else nrBytes < left ∧ Course (left - nrBytes) tps
    | _ => left ≤ tp.rq.dataLen ∧ Course tp.rq.dataLen tps

def Program.nrBytes : Program → ℕ
  | .complete _ nrBytes => nrBytes
  | _ => 0

def stepGrowth (cfg : Cfg) (dev : ℕ) (op : BlockOperation) (s : Maps) (tp : Tracepoint) : Growth :=
  (operationStats s dev op).growthTo (operationStats ((blockTrack cfg).step s tp).1 dev op)

/-- The sum of a quantity over the events of one request. -/
def overLife (cfg : Cfg) (id : ℕ) (g : Maps → Tracepoint → ℕ) (s : Maps)
    (tps : List Tracepoint) : ℕ :=
  (blockTrack cfg).total (fun s tp => if tp.rq.id = id then g s tp else 0) s tps

/-- The request is one operation, and all its bytes are counted. -/
structure OneOperation (cfg : Cfg) (id dev : ℕ) (op : BlockOperation) (s : Maps)
    (tps : List Tracepoint) : Prop where
  operations : overLife cfg id (fun s tp => (stepGrowth cfg dev op s tp).operations) s tps = 1
  service : cfg.latencyEnabled = true →
    overLife cfg id (fun s tp => (stepGrowth cfg dev op s tp).service) s tps = 1
  total : cfg.latencyEnabled = true →
    overLife cfg id (fun s tp => (stepGrowth cfg dev op s tp).total) s tps = 1
  bytes : overLife cfg id (fun s tp => (stepGrowth cfg dev op s tp).bytes) s tps =
    overLife cfg id (fun _ tp => tp.program.nrBytes) s tps

/-- A completion that is not the last finds an entry with more bytes than it completes, and the
statistics of the device are there for its bytes. -/
def GoesOn (id dev : ℕ) (s : Maps) (tp : Tracepoint) : Prop :=
  tp.rq.id = id → ∀ error nrBytes, tp.program = .complete error nrBytes →
    (nrBytes ≠ 0 → statsKept tp.ctx s dev = true) ∧
    (statsKept tp.ctx s dev = true →
      ∃ st, s.requests.lookup id = some st ∧ nrBytes < st.remainingBytes)

/-- A completion of so many bytes counts as the last one. -/
def countsAsLast (nrBytes : ℕ) : Option RequestState → Bool
  | none => true
  | some st => st.remainingBytes ≤ nrBytes

/-- What an event of the request adds to the number of operations. -/
def counted (dev : ℕ) (s : Maps) (tp : Tracepoint) : ℕ :=
  match tp.program with
  | .complete _ nrBytes =>
    (statsKept tp.ctx s dev && countsAsLast nrBytes (s.requests.lookup tp.rq.id)).toNat
  | _ => 0

def reported (dev : ℕ) (s : Maps) (tp : Tracepoint) : ℕ :=
  if statsKept tp.ctx s dev then tp.program.nrBytes else 0

section Events
variable {cfg : Cfg} {dev : ℕ} {op : BlockOperation} {s : Maps} {tp : Tracepoint}

theorem growthTo_self (o : OperationStats) : o.growthTo o = ⟨0, 0, 0, 0⟩ := by
  unfold OperationStats.growthTo
  simp only [grown_self, histogramGrown_self]

theorem stepGrowth_eq (hbytes : cfg.bytesEnabled = true) (hops : cfg.operationsEnabled = true)
    (hreq : cfg.requestTrackingEnabled = true) (htp : OfOperation cfg dev op tp)
    (herror : ∀ error nrBytes, tp.program = .complete error nrBytes → error = 0)
    (howner : ∀ st, s.requests.lookup tp.rq.id = some st → st.dev = dev ∧ st.operation = op) :
    stepGrowth cfg dev op s tp =
      ⟨reported dev s tp, counted dev s tp, counted dev s tp * cfg.latencyEnabled.toNat,
        counted dev s tp * cfg.latencyEnabled.toNat⟩ := by
  obtain ⟨htracked, hdev, hop, hu32⟩ := htp
  obtain ⟨ctx, rq, program⟩ := tp
  subst hdev hop
  unfold stepGrowth counted reported
  cases program with
  | complete error nrBytes =>
    obtain rfl := herror error nrBytes rfl
    have hn := hu32 0 nrBytes rfl
    have hstats : operationStats ((blockTrack cfg).step s ⟨ctx, rq, .complete 0 nrBytes⟩).1
      (requestDevice rq) (requestOperation rq) = _ :=
      operationStats_complete cfg ctx rq s _ _ 0 nrBytes htracked hreq
    rw [hstats]
    dsimp only [Program.nrBytes]
    cases hkept : statsKept ctx s (requestDevice rq) with
    | false =>
      have hsame : ∀ st, s.requests.lookup rq.id = some st → statsKept ctx s st.dev = false :=
        fun st hst => by rw [(howner st hst).1, hkept]
      cases hl : s.requests.lookup rq.id with
      | none => simp [growthTo_self]
      | some st => simp [growthTo_self, hsame st hl]
    | true =>
      cases hl : s.requests.lookup rq.id with
      | none => simp [countsAsLast, growthTo_addCompletion hbytes hops _ _ hn]
      | some st =>
        obtain ⟨hdev, hop⟩ := howner st hl
        by_cases hfinal : st.remainingBytes ≤ nrBytes
        · simp [countsAsLast, hfinal, hdev, hop, hkept,
            growthTo_addCompletion hbytes hops _ _ hn]
        · simp [countsAsLast, hfinal, growthTo_addBytes hbytes _ hn]
  | _ =>
    rw [operationStats_step cfg s _ _ (by simp), growthTo_self]
    simp [Program.nrBytes]

/-- The owner of an entry does not change. -/
theorem entryStep_owner {room : Bool} {entry : Option RequestState} {st' : RequestState}
    (hentry : ∀ st, entry = some st → st.dev = dev ∧ st.operation = op)
    (htp : OfOperation cfg dev op tp) (hst' : (entryStep cfg room tp entry).1 = some st') :
    st'.dev = dev ∧ st'.operation = op := by
  obtain ⟨-, hdev, hop, -⟩ := htp
  unfold entryStep at hst'
  split at hst'
  · obtain ⟨ctx, rq, program⟩ := tp
    cases entry with
    | none =>
      cases program <;> simp only [advance, createEntry] at hst' <;> try cases hst'
      · split at hst' <;> cases hst'
        exact ⟨hdev, hop⟩
      · split at hst' <;> cases hst'
        exact ⟨hdev, hop⟩
    | some st =>
      obtain ⟨hd, ho⟩ := hentry st rfl
      cases program with
      | insert =>
        cases hst'
        obtain ⟨h₁, h₂⟩ := reinserted_owner ctx rq st
        exact ⟨h₁.trans hd, h₂.trans ho⟩
      | merge =>
        cases hst'
        exact ⟨hd, ho⟩
      | issue =>
        cases hst'
        exact ⟨hd, ho⟩
      | requeue =>
        cases hst'
        obtain ⟨h₁, h₂⟩ := served_owner ctx st
        exact ⟨h₁.trans hd, h₂.trans ho⟩
      | complete error nrBytes =>
        dsimp only [advance] at hst'
        split at hst' <;> cases hst'
        exact ⟨hd, ho⟩
  · exact hentry st' hst'

/-- The entry, if there is one, has at most so many bytes left. -/
def Within (left : ℕ) (entry : Option RequestState) : Prop :=
  ∀ st, entry = some st → st.remainingBytes ≤ left

theorem within_complete {room : Bool} {entry : Option RequestState} {left nrBytes : ℕ}
    (h : Within left entry) (htracked : tp.tracked cfg = true)
    (hprogram : tp.program = .complete 0 nrBytes) :
    Within (left - nrBytes) (entryStep cfg room tp entry).1 := by
  intro st' hst'
  unfold entryStep at hst'
  rw [if_pos htracked] at hst'
  obtain ⟨ctx, rq, program⟩ := tp
  cases hprogram
  cases entry with
  | none => cases hst'
  | some st =>
    have hle := h st rfl
    dsimp only [advance] at hst'
    split at hst' <;> cases hst'
    exact Nat.sub_le_sub_right hle nrBytes

theorem within_other {room : Bool} {entry : Option RequestState} {left : ℕ}
    (h : Within left entry) (hle : left ≤ tp.rq.dataLen)
    (hprogram : ∀ error nrBytes, tp.program ≠ .complete error nrBytes) :
    Within tp.rq.dataLen (entryStep cfg room tp entry).1 := by
  intro st' hst'
  unfold entryStep at hst'
  split at hst'
  · obtain ⟨ctx, rq, program⟩ := tp
    cases entry with
    | none =>
      cases program <;> simp only [advance, createEntry] at hst' <;> try cases hst'
      · split at hst' <;> cases hst'
        exact Nat.le_refl _
      · split at hst' <;> cases hst'
        change (if rq.dataLen = 0 then rq.dataLen else rq.dataLen) ≤ rq.dataLen
        rw [ite_self]
    | some st =>
      have hst : st.remainingBytes ≤ rq.dataLen := Nat.le_trans (h st rfl) hle
      cases program with
      | insert =>
        cases hst'
        unfold RequestState.reinserted
        dsimp only
        split <;> dsimp only <;> split <;> omega
      | merge =>
        cases hst'
        exact Nat.le_refl _
      | issue =>
        cases hst'
        change (if st.remainingBytes = 0 then rq.dataLen else st.remainingBytes) ≤ rq.dataLen
        split <;> omega
      | requeue =>
        cases hst'
        unfold RequestState.requeued RequestState.served
        split <;> exact hst
      | complete error nrBytes => exact absurd rfl (hprogram error nrBytes)
  · exact Nat.le_trans (h st' hst') hle

end Events

section Courses
variable {cfg : Cfg} {id dev : ℕ} {op : BlockOperation} {s : Maps} {last : Tracepoint}
  {before : List Tracepoint}

theorem Course.error_eq_zero {left : ℕ} {tps : List Tracepoint} (h : Course left tps) :
    ∀ tp ∈ tps, ∀ error nrBytes, tp.program = .complete error nrBytes → error = 0 := by
  induction tps generalizing left with
  | nil => exact fun tp htp => nomatch htp
  | cons tp tps ih =>
    intro tp' htp' error nrBytes hprogram
    unfold Course at h
    rcases List.mem_cons.mp htp' with rfl | htail
    · rw [hprogram] at h
      exact h.1
    · split at h
      · obtain ⟨-, hrest⟩ := h
        split at hrest
        · next hnil => simp [hnil] at htail
        · exact ih hrest.2 tp' htail error nrBytes hprogram
      · exact ih h.2 tp' htail error nrBytes hprogram

/-- The last event completes at least what its entry has left. -/
theorem Course.within_last {left : ℕ} (h : Course left (ownEvents id (before ++ [last])))
    (hlast : last.rq.id = id)
    (htracked : ∀ tp ∈ ownEvents id (before ++ [last]), tp.tracked cfg = true)
    (hwithin : Within left (s.requests.lookup id)) :
    ∃ nrBytes, last.program = .complete 0 nrBytes ∧
      Within nrBytes (((blockTrack cfg).final s before).requests.lookup id) := by
  induction before generalizing s left with
  | nil =>
    have hown : ownEvents id ([] ++ [last]) = [last] := by simp [ownEvents, hlast]
    rw [hown] at h
    unfold Course at h
    split at h
    · next error nrBytes hprogram =>
      obtain ⟨rfl, rfl⟩ : error = 0 ∧ nrBytes = left := by simpa using h
      exact ⟨nrBytes, hprogram, hwithin⟩
    · exact absurd h.2 (by simp [Course])
  | cons tp before ih =>
    have hlookup := (step_entry cfg s id tp).1
    by_cases hid : tp.rq.id = id
    · have hown : ownEvents id (tp :: before ++ [last]) =
          tp :: ownEvents id (before ++ [last]) := by simp [ownEvents, hid]
      rw [hown] at h htracked
      rw [if_pos hid.symm, hid] at hlookup
      have hrest : ∀ tp' ∈ ownEvents id (before ++ [last]), tp'.tracked cfg = true :=
        fun tp' htp' => htracked tp' (List.mem_cons_of_mem tp htp')
      unfold Course at h
      split at h
      · next error nrBytes hprogram =>
        obtain ⟨rfl, hmore⟩ := h
        rw [if_neg (by simp [ownEvents, hlast])] at hmore
        refine ih hmore.2 hrest ?_
        rw [hlookup]
        exact within_complete hwithin (htracked tp List.mem_cons_self) hprogram
      · next hprogram =>
        refine ih h.2 hrest ?_
        rw [hlookup]
        exact within_other hwithin h.1 fun error nrBytes hp => hprogram error nrBytes hp
    · have hown : ownEvents id (tp :: before ++ [last]) = ownEvents id (before ++ [last]) := by
        simp [ownEvents, hid]
      rw [hown] at h htracked
      rw [if_neg (Ne.symm hid)] at hlookup
      exact ih h htracked (hlookup ▸ hwithin)

/-- All that is known about every event of the request along the run. -/
theorem stepGrowth_along (hbytes : cfg.bytesEnabled = true) (hops : cfg.operationsEnabled = true)
    (hreq : cfg.requestTrackingEnabled = true) (hfresh : s.requests.lookup id = none)
    {tps : List Tracepoint} (hevents : ∀ tp ∈ ownEvents id tps, OfOperation cfg dev op tp)
    (herrors : ∀ tp ∈ ownEvents id tps, ∀ error nrBytes,
      tp.program = .complete error nrBytes → error = 0) :
    (blockTrack cfg).Meets (fun s tp => tp.rq.id = id → stepGrowth cfg dev op s tp =
      ⟨reported dev s tp, counted dev s tp, counted dev s tp * cfg.latencyEnabled.toNat,
        counted dev s tp * cfg.latencyEnabled.toNat⟩) s tps := by
  have hown : ∀ tp ∈ tps, tp.rq.id = id → OfOperation cfg dev op tp ∧
      ∀ error nrBytes, tp.program = .complete error nrBytes → error = 0 := by
    intro tp htp hid
    have hmem : tp ∈ ownEvents id tps := List.mem_filter.mpr ⟨htp, by simpa using hid⟩
    exact ⟨hevents tp hmem, herrors tp hmem⟩
  refine Machine.Meets.of_invariant (I := fun s => ∀ st, s.requests.lookup id = some st →
    st.dev = dev ∧ st.operation = op) ?_ ?_ (fun st hst => ?_) (Machine.meets_of_forall hown s)
  · intro s tp howner htp st' hst'
    rw [(step_entry cfg s id tp).1] at hst'
    by_cases hid : tp.rq.id = id
    · subst hid
      rw [if_pos rfl] at hst'
      exact entryStep_owner howner (htp rfl).1 hst'
    · rw [if_neg (Ne.symm hid)] at hst'
      exact howner st' hst'
  · intro s tp howner htp hid
    subst hid
    exact stepGrowth_eq hbytes hops hreq (htp rfl).1 (htp rfl).2 howner
  · rw [hfresh] at hst
    cases hst

/-- Once a completion has been counted, the device has its statistics. -/
theorem hasStats_of_counted (hbytes : cfg.bytesEnabled = true) {tps : List Tracepoint}
    (hevents : ∀ tp ∈ ownEvents id tps, OfOperation cfg dev op tp)
    (hcounted : overLife cfg id (counted dev) s tps ≠ 0) :
    HasStats dev ((blockTrack cfg).final s tps) := by
  induction tps generalizing s with
  | nil => exact absurd rfl hcounted
  | cons tp tps ih =>
    have hrest : ∀ tp' ∈ ownEvents id tps, OfOperation cfg dev op tp' := fun tp' htp' =>
      hevents tp' (List.mem_filter.mpr ⟨List.mem_cons_of_mem tp (List.mem_filter.mp htp').1,
        (List.mem_filter.mp htp').2⟩)
    by_cases hlater : overLife cfg id (counted dev) ((blockTrack cfg).step s tp).1 tps = 0
    · have hnow : (if tp.rq.id = id then counted dev s tp else 0) ≠ 0 := by
        intro hzero
        apply hcounted
        unfold overLife at hlater ⊢
        rw [Machine.total_cons, hlater, hzero]
      split at hnow
      · next hid =>
        obtain ⟨htracked, hdev, hop, -⟩ := hevents tp (List.mem_filter.mpr
          ⟨List.mem_cons_self, by simpa using hid⟩)
        have hstep : HasStats dev ((blockTrack cfg).step s tp).1 := by
          obtain ⟨ctx, rq, program⟩ := tp
          cases program with
          | complete error nrBytes =>
            have hkept : statsKept ctx s dev = true := by
              by_contra hnot
              simp [counted, hnot] at hnow
            subst hdev hop
            refine HasStats.complete rq error nrBytes ?_ htracked
            unfold recordBytes
            simp only [hbytes, Bool.not_true, Bool.false_and, Bool.false_eq_true, if_false]
            exact hasStats_withDeviceStats hkept _
          | _ => exact absurd rfl hnow
        rw [Machine.final_cons]
        exact Machine.invariant (G := fun _ _ => True) (fun s tp h _ => h.step tp) hstep
          (Machine.meets_of_forall (fun _ _ => trivial) _)
      · exact absurd rfl hnow
    · exact ih hrest hlater

theorem reported_le (s : Maps) (tp : Tracepoint) : reported dev s tp ≤ tp.program.nrBytes := by
  unfold reported
  split
  · exact Nat.le_refl _
  · exact Nat.zero_le _

/-- One event: nothing is counted and all bytes are reported. -/
theorem goesOn_step_iff (s : Maps) (tp : Tracepoint) :
    GoesOn id dev s tp ↔ (if tp.rq.id = id then counted dev s tp else 0) = 0 ∧
      (if tp.rq.id = id then reported dev s tp else 0) =
        if tp.rq.id = id then tp.program.nrBytes else 0 := by
  unfold GoesOn
  by_cases hid : tp.rq.id = id
  · subst hid
    simp only [if_true, forall_true_left]
    obtain ⟨ctx, rq, program⟩ := tp
    cases program with
    | complete error nrBytes =>
      simp only [Program.complete.injEq, and_imp, counted, reported, Program.nrBytes,
        Bool.toNat_eq_zero]
      cases hkept : statsKept ctx s dev with
      | false =>
        simp only [ne_eq, Bool.false_eq_true, imp_false, Decidable.not_not, IsEmpty.forall_iff,
          and_true, forall_apply_eq_imp_iff, forall_eq', Bool.false_and, if_false, true_and]
        omega
      | true =>
        cases hl : s.requests.lookup rq.id with
        | none => simp [countsAsLast]
        | some st => simp [countsAsLast]
    | _ => simp [counted, reported, Program.nrBytes]
  · simp [hid]

theorem goesOn_iff {tps : List Tracepoint} :
    (blockTrack cfg).Meets (GoesOn id dev) s tps ↔
      overLife cfg id (counted dev) s tps = 0 ∧
        overLife cfg id (reported dev) s tps =
          overLife cfg id (fun _ tp => tp.program.nrBytes) s tps := by
  have hle : (blockTrack cfg).Meets (fun s tp =>
      (if tp.rq.id = id then reported dev s tp else 0) ≤
        if tp.rq.id = id then tp.program.nrBytes else 0) s tps := by
    refine (Machine.meets_of_forall (P := fun _ => True) (fun _ _ => trivial) s).mono ?_
    intro s tp _
    split
    · exact reported_le s tp
    · exact Nat.le_refl 0
  unfold overLife
  rw [Machine.total_eq_zero_iff, (Machine.total_eq_iff hle).2]
  constructor
  · intro h
    exact ⟨h.mono fun s tp hs => ((goesOn_step_iff s tp).mp hs).1,
      h.mono fun s tp hs => ((goesOn_step_iff s tp).mp hs).2⟩
  · intro h
    exact (h.1.and h.2).mono fun s tp => (goesOn_step_iff s tp).mpr

theorem overLife_concat (g : Maps → Tracepoint → ℕ) (hlast : last.rq.id = id) :
    overLife cfg id g s (before ++ [last]) =
      overLife cfg id g s before + g ((blockTrack cfg).final s before) last := by
  unfold overLife
  rw [Machine.total_append, Machine.total_cons, Machine.total_nil, if_pos hlast, Nat.add_zero]

/-- The request is one operation exactly if one completion is counted and all bytes are
reported. -/
theorem oneOperation_iff {tps : List Tracepoint}
    (halong : (blockTrack cfg).Meets (fun s tp => tp.rq.id = id → stepGrowth cfg dev op s tp =
      ⟨reported dev s tp, counted dev s tp, counted dev s tp * cfg.latencyEnabled.toNat,
        counted dev s tp * cfg.latencyEnabled.toNat⟩) s tps) :
    OneOperation cfg id dev op s tps ↔ overLife cfg id (counted dev) s tps = 1 ∧
      overLife cfg id (reported dev) s tps =
        overLife cfg id (fun _ tp => tp.program.nrBytes) s tps := by
  have hcongr : ∀ g g' : Maps → Tracepoint → ℕ,
      (∀ s tp, stepGrowth cfg dev op s tp = ⟨reported dev s tp, counted dev s tp,
        counted dev s tp * cfg.latencyEnabled.toNat,
        counted dev s tp * cfg.latencyEnabled.toNat⟩ → g s tp = g' s tp) →
      overLife cfg id g s tps = overLife cfg id g' s tps := by
    intro g g' hg
    refine Machine.total_congr (halong.mono fun s tp hs => ?_)
    split
    · next hid => exact hg s tp (hs hid)
    · rfl
  have hops := hcongr (fun s tp => (stepGrowth cfg dev op s tp).operations) (counted dev)
    fun s tp h => by rw [h]
  have hbytes := hcongr (fun s tp => (stepGrowth cfg dev op s tp).bytes) (reported dev)
    fun s tp h => by rw [h]
  constructor
  · intro h
    exact ⟨hops ▸ h.operations, hbytes ▸ h.bytes⟩
  · rintro ⟨hone, hall⟩
    refine ⟨hops ▸ hone, fun hlatency => ?_, fun hlatency => ?_, hbytes ▸ hall⟩
    · rw [← hone]
      refine hcongr _ _ fun s tp h => ?_
      rw [h, hlatency, Bool.toNat_true, Nat.mul_one]
    · rw [← hone]
      refine hcongr _ _ fun s tp h => ?_
      rw [h, hlatency, Bool.toNat_true, Nat.mul_one]

end Courses

/-- A request is one operation exactly if every completion but the last finds an entry with more
bytes left than it completes, and the device has statistics for them to be counted. -/
theorem one_operation_iff (cfg : Cfg) (hbytes : cfg.bytesEnabled = true)
    (hops : cfg.operationsEnabled = true) (hreq : cfg.requestTrackingEnabled = true)
    (id dev : ℕ) (op : BlockOperation) (s : Maps) (hfresh : s.requests.lookup id = none)
    (before : List Tracepoint) (last : Tracepoint) (hlast : last.rq.id = id)
    (hevents : ∀ tp ∈ ownEvents id (before ++ [last]), OfOperation cfg dev op tp)
    (hcourse : Course 0 (ownEvents id (before ++ [last]))) :
    OneOperation cfg id dev op s (before ++ [last]) ↔
      (blockTrack cfg).Meets (GoesOn id dev) s before ∧
        statsKept last.ctx ((blockTrack cfg).final s before) dev = true := by
  have htracked : ∀ tp ∈ ownEvents id (before ++ [last]), tp.tracked cfg = true := by
    intro tp htp
    obtain ⟨ht, hdev, hop, -⟩ := hevents tp htp
    simp [Tracepoint.tracked, hreq, hdev, hop, ht]
  have hsome : ∀ st, s.requests.lookup id = some st → st.remainingBytes ≤ 0 := by
    simp [hfresh]
  obtain ⟨nrBytes, hprogram, hwithin⟩ := hcourse.within_last hlast htracked hsome
  rw [oneOperation_iff (stepGrowth_along hbytes hops hreq hfresh hevents hcourse.error_eq_zero),
    goesOn_iff, overLife_concat _ hlast, overLife_concat _ hlast, overLife_concat _ hlast]
  have hcounts : counted dev ((blockTrack cfg).final s before) last =
      (statsKept last.ctx ((blockTrack cfg).final s before) dev).toNat := by
    have hends : countsAsLast nrBytes
        (((blockTrack cfg).final s before).requests.lookup last.rq.id) = true := by
      rw [hlast]
      cases hl : ((blockTrack cfg).final s before).requests.lookup id with
      | none => rfl
      | some st => exact decide_eq_true (hwithin st hl)
    simp [counted, hprogram, hends]
  have hkept : overLife cfg id (counted dev) s before ≠ 0 →
      statsKept last.ctx ((blockTrack cfg).final s before) dev = true := by
    intro hne
    refine (hasStats_of_counted hbytes (fun tp htp => hevents tp ?_) hne).kept last.ctx
    have hmem := List.mem_filter.mp htp
    exact List.mem_filter.mpr ⟨List.mem_append_left _ hmem.1, hmem.2⟩
  rw [hcounts]
  unfold reported
  cases hk : statsKept last.ctx ((blockTrack cfg).final s before) dev with
  | false =>
    rw [hk] at hkept
    have hzero : overLife cfg id (counted dev) s before = 0 := by
      by_contra hne
      exact absurd (hkept hne) Bool.false_ne_true
    simp [hzero]
  | true =>
    rw [if_pos rfl, Bool.toNat_true]
    constructor
    · rintro ⟨hone, hall⟩
      exact ⟨⟨by omega, by omega⟩, rfl⟩
    · rintro ⟨⟨hzero, hall⟩, -⟩
      exact ⟨by omega, by omega⟩

section Runs

/-- An event of a read of two pages, of which `left` bytes are not completed. -/
def pagesEvent (room : Bool) (now left : ℕ) (program : Program) : Tracepoint :=
  ⟨⟨now, [], 1, 1, "dd", 0, room, true, true⟩, ⟨64, 0, left, 2048, some 8, none⟩, program⟩

/-- The read is issued and its first page is completed. -/
def firstPage (room : Bool) : List Tracepoint :=
  [pagesEvent room 100 8192 .issue, pagesEvent room 200 8192 (.complete 0 4096)]

def secondPage (room : Bool) : Tracepoint := pagesEvent room 300 4096 (.complete 0 4096)

theorem ownEvents_pages (room : Bool) :
    ownEvents 64 (firstPage room ++ [secondPage room]) = firstPage room ++ [secondPage room] := rfl

theorem ofOperation_pages (room : Bool) :
    ∀ tp ∈ ownEvents 64 (firstPage room ++ [secondPage room]), OfOperation {} 8 .read tp := by
  rw [ownEvents_pages]
  intro tp htp
  simp only [firstPage, List.cons_append, List.nil_append, List.mem_cons, List.not_mem_nil,
    or_false] at htp
  have hop : requestOperation tp.rq = .read := by
    rcases htp with rfl | rfl | rfl <;> decide +revert
  rcases htp with rfl | rfl | rfl <;> refine ⟨rfl, rfl, hop, ?_⟩ <;> intro _ _ hp <;> cases hp <;>
    decide

theorem course_pages (room : Bool) :
    Course 0 (ownEvents 64 (firstPage room ++ [secondPage room])) := by
  change 0 ≤ 8192 ∧ (0 : ℕ) = 0 ∧ if [secondPage room] = [] then 4096 = 8192
    else 4096 < 8192 ∧ Course (8192 - 4096) [secondPage room]
  rw [if_neg (List.cons_ne_nil _ _)]
  exact ⟨by decide, rfl, by decide, rfl, if_pos rfl ▸ rfl⟩

theorem one_operation_pages :
    OneOperation {} 64 8 .read (captureStart 8 50) (firstPage true ++ [secondPage true]) := by
  refine (one_operation_iff {} rfl rfl rfl 64 8 .read (captureStart 8 50) rfl (firstPage true)
    (secondPage true) rfl (ofOperation_pages true) (course_pages true)).mpr ⟨?_, rfl⟩
  refine ⟨fun _ _ _ hp => (nomatch hp), ?_, trivial⟩
  rintro _ _ _ ⟨⟩
  refine ⟨fun _ => rfl, fun _ => ⟨_, rfl, ?_⟩⟩
  change 4096 < 8192
  decide

/-- There is no room for the entry of the read. Each of its two pages is counted as an
operation. -/
theorem pages_without_entry_counted_twice :
    Course 0 (ownEvents 64 (firstPage false ++ [secondPage false])) ∧
    (∀ tp ∈ ownEvents 64 (firstPage false ++ [secondPage false]), OfOperation {} 8 .read tp) ∧
    (operationStats ((blockTrack {}).final (captureStart 8 50)
      (firstPage false ++ [secondPage false])) 8 .read).operations = 2 ∧
    ¬ OneOperation {} 64 8 .read (captureStart 8 50) (firstPage false ++ [secondPage false]) := by
  refine ⟨course_pages false, ofOperation_pages false, rfl, fun h => ?_⟩
  exact absurd h.operations (by decide)

end Runs
end Manytrace.Bpf.BlockTrack
