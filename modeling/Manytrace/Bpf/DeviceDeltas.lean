import Manytrace.Bpf.DeviceUpdates

/-! The differences between the snapshots of a device's statistics add up to the last snapshot,
however the updates and the snapshots interleave. -/
namespace Manytrace.Bpf.BlockTrack
open Manytrace.Core

/-- The words of an entry, all zero as long as there is none. -/
def memory (entry : Option (Tally DeviceCounter)) : Tally DeviceCounter := entry.getD .zero

/-- Nothing is counted before the time of the first update is set. -/
def Dated (t : Tally DeviceCounter) : Prop := t .first = 0 → ∀ c, t (.count c) = 0

structure Advances (entry entry' : Option (Tally DeviceCounter)) : Prop where
  isSome : entry.isSome → entry'.isSome
  precedes : (memory entry).Precedes (memory entry')
  first : memory entry .first ≠ 0 → memory entry' .first ≠ 0
  dated : Dated (memory entry) → Dated (memory entry')

section Entry
variable {entry : Option (Tally DeviceCounter)} {t : Tally DeviceCounter} {now : ℕ}

theorem Advances.refl (entry : Option (Tally DeviceCounter)) : Advances entry entry :=
  ⟨id, .refl _, id, id⟩

theorem advances_insert (room : Bool) : Advances none (if room then some .zero else none) := by
  cases room <;> exact ⟨by simp, .refl _, id, id⟩

theorem swapFirst_count (now : ℕ) (t : Tally DeviceCounter) (c : DeviceCounter) :
    swapFirst now t (.count c) = t (.count c) := by
  unfold swapFirst
  split
  · exact Function.update_of_ne (by simp) _ _
  · rfl

theorem swapFirst_first (hnow : now ≠ 0) (t : Tally DeviceCounter) :
    swapFirst now t .first ≠ 0 := by
  unfold swapFirst
  split
  · rwa [Function.update_self]
  · assumption

theorem advances_swapFirst (hnow : now ≠ 0) (ht : Dated t) :
    Advances (some t) (some (swapFirst now t)) where
  isSome := id
  precedes := by
    refine ⟨fun c => (swapFirst_count now t c).ge, ?_⟩
    by_cases hfirst : t .first = 0
    · exact .inr (ht hfirst)
    · exact .inl (by simp [memory, swapFirst, hfirst])
  first _ := swapFirst_first hnow t
  dated _ hzero := absurd hzero (swapFirst_first hnow t)

theorem touch_count (now : ℕ) (t : Tally DeviceCounter) (c : DeviceCounter) :
    Function.update t .last now (.count c) = t (.count c) :=
  Function.update_of_ne (by simp) _ _

theorem advances_touch (now : ℕ) (t : Tally DeviceCounter) :
    Advances (some t) (some (Function.update t .last now)) where
  isSome := id
  precedes := ⟨fun c => (touch_count now t c).ge, .inl (by simp [memory])⟩
  first h := by simpa [memory] using h
  dated h := by simpa [memory, Dated] using h

theorem advances_apply {w : Tally.Write DeviceCounter} (hfirst : t .first ≠ 0)
    (hbound : ∀ c, t (.count c) + w.amount c < 2 ^ 64) :
    Advances (some t) (some (w.apply t)) where
  isSome := id
  precedes := Tally.precedes_apply hbound
  first _ := by
    change w.apply t .first ≠ 0
    rwa [w.apply_first]
  dated _ hzero := by
    change w.apply t .first = 0 at hzero
    rw [w.apply_first] at hzero
    exact absurd hzero hfirst

end Entry

/-! ## One CPU -/

/-- The CPU holds a pointer to the entry. -/
def Stage.hasEntry : Stage → Bool
  | .check | .swap | .swapNew | .touch | .write => true
  | .lookup | .insert | .lookupAgain => false

/-- The CPU has seen to it that `first_seen_ns` is set. -/
def Stage.hasFirst : Stage → Bool
  | .touch | .write => true
  | _ => false

structure Update.Valid (entry : Option (Tally DeviceCounter)) (u : Update) : Prop where
  now : u.now ≠ 0
  found : u.stage.hasEntry → entry.isSome
  first : u.stage.hasFirst → memory entry .first ≠ 0

theorem Update.Valid.advance {entry entry' : Option (Tally DeviceCounter)} {u : Update}
    (hu : u.Valid entry) (h : Advances entry entry') : u.Valid entry' where
  now := hu.now
  found hstage := h.isSome (hu.found hstage)
  first hstage := h.first (hu.first hstage)

def Update.owed (c : DeviceCounter) (u : Option Update) : ℕ :=
  (u.map fun u => Tally.amounts c u.writes).getD 0

def StatsCall.amount (cfg : Cfg) (c : DeviceCounter) (call : StatsCall) : ℕ :=
  ((call.writes cfg).map (Tally.amounts c)).getD 0

/-- What a CPU has still to add to a counter. -/
def Cpu.owed (cfg : Cfg) (c : DeviceCounter) (cpu : Cpu) : ℕ :=
  Update.owed c cpu.update + (cpu.todo.map (StatsCall.amount cfg c)).sum

/-- What one step of an update comes to. -/
structure Update.Moves (u : Update) (entry entry' : Option (Tally DeviceCounter))
    (u' : Option Update) : Prop where
  advances : Advances entry entry'
  valid : ∀ v, u' = some v → v.Valid entry'
  owed : ∀ c, memory entry' (.count c) + Update.owed c u' ≤
    memory entry (.count c) + Tally.amounts c u.writes

section Update
variable {u : Update} {entry : Option (Tally DeviceCounter)}

theorem Update.moves_stage {stage : Stage} (hu : u.Valid entry)
    (hentry : stage.hasEntry → entry.isSome)
    (hfirst : stage.hasFirst → memory entry .first ≠ 0) :
    u.Moves entry entry (some { u with stage }) where
  advances := .refl entry
  valid := by
    rintro v ⟨⟩
    exact ⟨hu.now, hentry, hfirst⟩
  owed _ := le_rfl

theorem Update.moves_done (u : Update) (entry : Option (Tally DeviceCounter)) :
    u.Moves entry entry none where
  advances := .refl entry
  valid := by simp
  owed c := by simp [Update.owed]

theorem Update.moves_entry {entry' : Option (Tally DeviceCounter)} {stage : Stage}
    (hu : u.Valid entry) (h : Advances entry entry')
    (hcount : ∀ c, memory entry' (.count c) = memory entry (.count c))
    (hentry : stage.hasEntry → entry'.isSome)
    (hfirst : stage.hasFirst → memory entry' .first ≠ 0) :
    u.Moves entry entry' (some { u with stage }) where
  advances := h
  valid := by
    rintro v ⟨⟩
    exact ⟨hu.now, hentry, hfirst⟩
  owed c := by
    rw [hcount c]
    exact le_rfl

theorem Update.step_moves (room : Bool) (hu : u.Valid entry) (hd : Dated (memory entry))
    (hbound : ∀ c, memory entry (.count c) + Tally.amounts c u.writes < 2 ^ 64) :
    u.Moves entry (u.step room entry).1 (u.step room entry).2 := by
  obtain ⟨stage, now, writes⟩ := u
  cases entry with
  | none =>
    cases stage with
    | lookup => exact moves_stage hu (by simp [Stage.hasEntry]) (by simp [Stage.hasFirst])
    | insert =>
      refine moves_entry hu (advances_insert room) (fun c => ?_) (by simp [Stage.hasEntry])
        (by simp [Stage.hasFirst])
      cases room <;> rfl
    | lookupAgain => exact moves_done _ none
    | check | swap | swapNew | touch | write => exact absurd (hu.found rfl) (by simp)
  | some t =>
    cases stage with
    | lookup => exact moves_stage hu (fun _ => rfl) (by simp [Stage.hasFirst])
    | check =>
      refine moves_stage hu (fun _ => rfl) fun hstage => ?_
      split at hstage
      · simp [Stage.hasFirst] at hstage
      · assumption
    | swap =>
      exact moves_entry hu (advances_swapFirst hu.now hd) (swapFirst_count now t) (fun _ => rfl)
        (fun _ => swapFirst_first hu.now t)
    | insert => exact moves_stage hu (by simp [Stage.hasEntry]) (by simp [Stage.hasFirst])
    | lookupAgain => exact moves_stage hu (fun _ => rfl) (by simp [Stage.hasFirst])
    | swapNew =>
      exact moves_entry hu (advances_swapFirst hu.now hd) (swapFirst_count now t) (fun _ => rfl)
        (fun _ => swapFirst_first hu.now t)
    | touch =>
      have htouch : Advances (some t) (some (Function.update t .last now)) := advances_touch now t
      exact moves_entry hu htouch (touch_count now t) (fun _ => rfl)
        (fun _ => htouch.first (hu.first rfl))
    | write =>
      cases writes with
      | nil => exact moves_done _ (some t)
      | cons w ws =>
        have hw : ∀ c, t (.count c) + w.amount c < 2 ^ 64 := by
          intro c
          have hc : t (.count c) + (w.amount c + Tally.amounts c ws) < 2 ^ 64 := hbound c
          omega
        have happly := advances_apply (hu.first rfl) hw
        refine ⟨happly, ?_, fun c => ?_⟩
        · rintro v ⟨⟩
          exact ⟨hu.now, fun _ => rfl, fun _ => happly.first (hu.first rfl)⟩
        · change w.apply t (.count c) + Tally.amounts c ws ≤
            t (.count c) + (w.amount c + Tally.amounts c ws)
          rw [w.apply_count (hw c), Nat.add_assoc]

end Update

structure Cpu.Valid (entry : Option (Tally DeviceCounter)) (cpu : Cpu) : Prop where
  update : ∀ u, cpu.update = some u → u.Valid entry
  todo : ∀ call ∈ cpu.todo, call.now ≠ 0

theorem Cpu.step_moves {cfg : Cfg} {cpu : Cpu} {entry : Option (Tally DeviceCounter)} (room : Bool)
    (hcpu : cpu.Valid entry) (hd : Dated (memory entry))
    (hbound : ∀ c, memory entry (.count c) + cpu.owed cfg c < 2 ^ 64) :
    Advances entry (cpu.step cfg room entry).1 ∧
      (cpu.step cfg room entry).2.Valid (cpu.step cfg room entry).1 ∧
      ∀ c, memory (cpu.step cfg room entry).1 (.count c) + (cpu.step cfg room entry).2.owed cfg c ≤
        memory entry (.count c) + cpu.owed cfg c := by
  obtain ⟨todo, update⟩ := cpu
  cases update with
  | some u =>
    have hu : u.Moves entry (u.step room entry).1 (u.step room entry).2 := by
      refine u.step_moves room (hcpu.update u rfl) hd fun c => ?_
      have hc : memory entry (.count c) + (Tally.amounts c u.writes + _) < 2 ^ 64 := hbound c
      omega
    refine ⟨hu.advances, ⟨hu.valid, hcpu.todo⟩, fun c => ?_⟩
    have hc := hu.owed c
    change memory (u.step room entry).1 (.count c) +
        (Update.owed c (u.step room entry).2 + (todo.map (StatsCall.amount cfg c)).sum) ≤
      memory entry (.count c) +
        (Tally.amounts c u.writes + (todo.map (StatsCall.amount cfg c)).sum)
    omega
  | none =>
    cases todo with
    | nil => exact ⟨.refl entry, hcpu, fun c => le_rfl⟩
    | cons call todo =>
      have htodo : ∀ later ∈ todo, later.now ≠ 0 :=
        fun later hlater => hcpu.todo later (List.mem_cons_of_mem call hlater)
      refine ⟨.refl entry, ⟨?_, htodo⟩, fun c => ?_⟩
      · intro u hu
        obtain ⟨ws, -, rfl⟩ := Option.map_eq_some_iff.mp hu
        exact ⟨hcpu.todo call List.mem_cons_self, by simp [Stage.hasEntry],
          by simp [Stage.hasFirst]⟩
      · cases hws : call.writes cfg <;>
          simp [Cpu.step, Cpu.owed, Update.owed, StatsCall.amount, hws]

/-! ## Whole runs -/

section Run
variable {ι : Type*}

/-- What user space has reported so far: the snapshot before. -/
def StatsState.reported (s : StatsState ι) : Tally DeviceCounter :=
  (s.previous.map DeviceStats.tally).getD .zero

variable [Fintype ι]

structure StatsState.Valid (cfg : Cfg) (total : DeviceCounter → ℕ) (s : StatsState ι) : Prop where
  dated : Dated (memory s.entry)
  cpu : ∀ i, (s.cpu i).Valid s.entry
  owed : ∀ c, memory s.entry (.count c) + ∑ i, (s.cpu i).owed cfg c ≤ total c
  reported : s.reported.Precedes (memory s.entry)
  copy : ∀ r, s.copy = some r → Tally.Copying s.reported (memory s.entry) r

/-- What the calls on all CPUs add to a counter. -/
def totalAmount (cfg : Cfg) (calls : ι → List StatsCall) (c : DeviceCounter) : ℕ :=
  ∑ i, ((calls i).map (StatsCall.amount cfg c)).sum

variable {cfg : Cfg} {total : DeviceCounter → ℕ} {s : StatsState ι}

theorem valid_start {calls : ι → List StatsCall} (hnow : ∀ i, ∀ call ∈ calls i, call.now ≠ 0) :
    (StatsState.start calls).Valid cfg (totalAmount cfg calls) where
  dated _ _ := rfl
  cpu i := ⟨by simp [StatsState.start], hnow i⟩
  owed c := by simp [StatsState.start, memory, Tally.zero, Cpu.owed, Update.owed, totalAmount]
  reported := .refl _
  copy := by simp [StatsState.start]

/-- What was reported for a counter in all samples. -/
def sumDeltas (samples : List StatsSample) (c : DeviceCounter) : ℕ :=
  (samples.map fun x => x.delta.tally (.count c)).sum

/-- The snapshots that were sampled, and what was reported for them. -/
structure Sampled (cfg : Cfg) (total : DeviceCounter → ℕ) (s : StatsState ι)
    (samples : List StatsSample) : Prop where
  valid : s.Valid cfg total
  previous : s.previous = samples.getLast?.map StatsSample.current
  sum : ∀ c, sumDeltas samples c = s.reported (.count c)

variable {s' : StatsState ι} {samples : List StatsSample}

theorem Sampled.keep (h : Sampled cfg total s samples) (hvalid : s'.Valid cfg total)
    (hprevious : s'.previous = s.previous) : Sampled cfg total s' (samples ++ []) := by
  rw [List.append_nil]
  refine ⟨hvalid, hprevious.trans h.previous, fun c => ?_⟩
  rw [h.sum c, StatsState.reported, StatsState.reported, hprevious]

/-- A finished snapshot is reported as its difference from the one before. -/
theorem Sampled.sample {got : Tally DeviceCounter} (h : Sampled cfg total s samples)
    (hcopy : s.copy = some ⟨got, []⟩) :
    Sampled cfg total { s with copy := none, previous := some (.ofTally got) }
      (samples ++ [⟨.ofTally got, (DeviceStats.ofTally got).delta s.previous⟩]) := by
  have hcurrent : (DeviceStats.ofTally got).tally = got := DeviceStats.tally_ofTally got
  obtain ⟨hlo, hhi⟩ := (h.valid.copy _ hcopy).finished rfl
  refine ⟨⟨h.valid.dated, h.valid.cpu, h.valid.owed, ?_, by simp⟩, by simp, fun c => ?_⟩
  · change (DeviceStats.ofTally got).tally.Precedes (memory s.entry)
    rwa [hcurrent]
  · have hdelta : got.delta (s.previous.map DeviceStats.tally) (.count c) +
        s.reported (.count c) = got (.count c) := Tally.delta_count_add hlo c
    have hsum : sumDeltas samples c = s.reported (.count c) := h.sum c
    change _ = (DeviceStats.ofTally got).tally (.count c)
    rw [sumDeltas, List.map_append, List.sum_append, ← sumDeltas, hsum, List.map_singleton,
      List.sum_singleton, DeviceStats.tally_delta, hcurrent, Nat.add_comm, hdelta]

variable [DecidableEq ι]

theorem valid_step_cpu (htotal : ∀ c, total c < 2 ^ 64) (h : s.Valid cfg total) (i : ι)
    (room : Bool) : ((statsMachine cfg).step s (.step i room)).1.Valid cfg total := by
  have hbound : ∀ c, memory s.entry (.count c) + (s.cpu i).owed cfg c < 2 ^ 64 := by
    intro c
    have hone : (s.cpu i).owed cfg c ≤ ∑ j, (s.cpu j).owed cfg c :=
      Finset.single_le_sum (f := fun j => (s.cpu j).owed cfg c) (fun _ _ => Nat.zero_le _)
        (Finset.mem_univ i)
    have howed := h.owed c
    have hc := htotal c
    omega
  obtain ⟨hadv, hcpu, howed⟩ := Cpu.step_moves room (h.cpu i) h.dated hbound
  refine ⟨hadv.dated h.dated, fun j => ?_, fun c => ?_, h.reported.trans hadv.precedes,
    fun r hr => (h.copy r hr).grow hadv.precedes⟩
  · change (Function.update s.cpu i ((s.cpu i).step cfg room s.entry).2 j).Valid _
    by_cases hj : j = i
    · subst hj
      rwa [Function.update_self]
    · rw [Function.update_of_ne hj]
      exact ⟨fun u hu => ((h.cpu j).update u hu).advance hadv, (h.cpu j).todo⟩
  · have hsum := sum_update_add (Cpu.owed cfg c) s.cpu i ((s.cpu i).step cfg room s.entry).2
    have hold := h.owed c
    have hnew := howed c
    change memory ((s.cpu i).step cfg room s.entry).1 (.count c) +
      ∑ j, (Function.update s.cpu i ((s.cpu i).step cfg room s.entry).2 j).owed cfg c ≤ total c
    omega

theorem sampled_snapshot (h : Sampled cfg total s samples) :
    Sampled cfg total ((statsMachine cfg).step s .snapshot).1
      (samples ++ ((statsMachine cfg).step s .snapshot).2) := by
  obtain ⟨entry, cpu, copy, previous⟩ := s
  cases copy with
  | some r => exact h.keep h.valid rfl
  | none =>
    cases entry with
    | none => exact h.keep h.valid rfl
    | some t =>
      refine h.keep ⟨h.valid.dated, h.valid.cpu, h.valid.owed, h.valid.reported, ?_⟩ rfl
      rintro r ⟨⟩
      exact Tally.copying_start DeviceCounter.mem_all h.valid.reported

omit [DecidableEq ι] in
theorem sampled_read (h : Sampled cfg total s samples) :
    Sampled cfg total s.read.1 (samples ++ s.read.2) := by
  obtain ⟨entry, cpu, copy, previous⟩ := s
  cases copy with
  | none => exact h.keep h.valid rfl
  | some r =>
    cases entry with
    | none => exact h.keep h.valid rfl
    | some t =>
      obtain ⟨got, left⟩ := r
      cases left with
      | nil => exact h.sample rfl
      | cons w rest =>
        refine h.keep ⟨h.valid.dated, h.valid.cpu, h.valid.owed, h.valid.reported, ?_⟩ rfl
        rintro r ⟨⟩
        exact (h.valid.copy _ rfl).read

theorem sampled_step (htotal : ∀ c, total c < 2 ^ 64) (a : StatsAct ι)
    (h : Sampled cfg total s samples) :
    Sampled cfg total ((statsMachine cfg).step s a).1
      (samples ++ ((statsMachine cfg).step s a).2) := by
  cases a with
  | step i room => exact h.keep (valid_step_cpu htotal h.valid i room) rfl
  | snapshot => exact sampled_snapshot h
  | read => exact sampled_read h
  | abandon =>
    exact h.keep ⟨h.valid.dated, h.valid.cpu, h.valid.owed, h.valid.reported, by
      simp [statsMachine]⟩ rfl

theorem sampled_run {calls : ι → List StatsCall} (hnow : ∀ i, ∀ call ∈ calls i, call.now ≠ 0)
    (htotal : ∀ c, totalAmount cfg calls c < 2 ^ 64) (acts : List (StatsAct ι)) :
    Sampled cfg (totalAmount cfg calls) ((statsMachine cfg).final (.start calls) acts)
      ((statsMachine cfg).outputs (.start calls) acts) :=
  Machine.history_all (fun _ _ a hs => sampled_step htotal a hs)
    ⟨valid_start hnow, rfl, fun _ => rfl⟩ acts

/-- Whatever the CPUs and the snapshots do in between, as long as no counter passes 64 bits. -/
theorem device_deltas_add_up (cfg : Cfg) (calls : ι → List StatsCall)
    (hnow : ∀ i, ∀ call ∈ calls i, call.now ≠ 0) (htotal : ∀ c, totalAmount cfg calls c < 2 ^ 64)
    (acts : List (StatsAct ι)) (c : DeviceCounter) :
    sumDeltas ((statsMachine cfg).outputs (.start calls) acts) c =
      (((statsMachine cfg).outputs (.start calls) acts).getLast?.map fun x =>
        x.current.tally (.count c)).getD 0 := by
  have h := sampled_run hnow htotal acts
  rw [h.sum c, StatsState.reported, h.previous]
  cases ((statsMachine cfg).outputs (.start calls) acts).getLast? <;> rfl

end Run

/-- A snapshot that is read in one piece. -/
def wholeSnapshot (ι : Type*) : List (StatsAct ι) :=
  .snapshot :: List.replicate ((Word.order DeviceCounter.all).length + 1) .read

def stepsOf {n : ℕ} (i : Fin n) (k : ℕ) : List (StatsAct (Fin n)) := List.replicate k (.step i true)

/-- A request lost on each of two CPUs. -/
def lostTwice : Fin 2 → List StatsCall := fun i => [⟨.lostRequest, 5 + i⟩]

/-- The first CPU makes the entry, a snapshot reads it before `first_seen_ns` is set, the second
CPU sets it and counts, and a snapshot later the first one counts too. -/
def raceActs (i j : Fin 2) : List (StatsAct (Fin 2)) :=
  stepsOf i 3 ++ wholeSnapshot _ ++ stepsOf j 6 ++ wholeSnapshot _ ++ stepsOf i 5 ++
    wholeSnapshot _

theorem device_deltas_add_up_race :
    sumDeltas ((statsMachine {}).outputs (.start lostTwice) (raceActs 0 1)) .lostRequests =
        (((statsMachine {}).outputs (.start lostTwice) (raceActs 0 1)).getLast?.map fun x =>
          x.current.tally (.count .lostRequests)).getD 0 ∧
      ((statsMachine {}).outputs (.start lostTwice) (raceActs 0 1)).map
        (fun x => (x.current.firstSeenNs, x.delta.lostRequests)) = [(0, 0), (6, 1), (6, 1)] := by
  refine ⟨device_deltas_add_up {} lostTwice (by decide) (fun c => ?_) (raceActs 0 1) .lostRequests,
    by decide +kernel⟩
  have hone : ∀ i, ((lostTwice i).map (StatsCall.amount {} c)).sum ≤ 1 := by
    intro i
    change (if DeviceCounter.lostRequests = c then 1 else 0) + 0 + 0 ≤ 1
    split <;> decide
  have hsum := Finset.sum_le_sum fun i (_ : i ∈ Finset.univ) => hone i
  exact hsum.trans_lt (by decide)

/-- Two reads that were inserted at 5 and 6 and waited 2^63 ns each. -/
def longWaits : Fin 1 → List StatsCall := fun _ =>
  [⟨.completion .read (2 ^ 63) 0 (2 ^ 63), 2 ^ 63 + 5⟩,
    ⟨.completion .read (2 ^ 63) 0 (2 ^ 63), 2 ^ 63 + 6⟩]

def longWaitSamples : List StatsSample :=
  (statsMachine {}).outputs (.start longWaits)
    (stepsOf 0 14 ++ wholeSnapshot _ ++ stepsOf 0 12 ++ wholeSnapshot _)

/-- The counter of the waits wraps between the two snapshots, and the difference is cut off at 0.
The times are reported as they are. -/
theorem device_deltas_wrap :
    sumDeltas longWaitSamples (.operation .read .queueLatencyNs) = 2 ^ 63 ∧
      (longWaitSamples.map fun x => x.delta.firstSeenNs).sum = 2 * (2 ^ 63 + 5) ∧
      longWaitSamples.getLast?.map (fun x =>
        (x.current.tally (.count (.operation .read .queueLatencyNs)), x.current.firstSeenNs)) =
          some (0, 2 ^ 63 + 5) := by
  decide +kernel

end Manytrace.Bpf.BlockTrack
