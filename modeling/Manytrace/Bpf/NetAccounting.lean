import Manytrace.Bpf.NetSampling

/-! A pass that is not cut short emits at least what the maps held when it began. After the last
call, one more pass therefore emits everything that is still missing, and nothing twice. -/
namespace Manytrace.Bpf.NetTrack
open Manytrace.Core

section Covered
variable {n : ℕ}

/-- What was in the copies of the host at `base` has been emitted. -/
def State.HostDone (cfg : Config) (base : Maps n) (s : State n) (p : Protocol) : Prop :=
  cfg.hasProtocol p = true →
    ∀ c, ∑ i, base.globalStats i p (.count c) ≤ s.globalPrevious p (.count c)

def State.ProcessDone (base : Maps n) (s : State n) (k : ProcessKey) : Prop :=
  ∀ c, base.processStats.stats k (.count c) ≤ s.previous k (.count c)

/-- What a pass that began at `base` has emitted or is still going to emit. -/
def Reader.Covered (cfg : Config) (base : Maps n) (s : State n) : Reader n → Prop
  | .host p rest _ _ => ∀ q, q ∉ p :: rest → s.HostDone cfg base q
  | .hostTotal _ => ∀ q, s.HostDone cfg base q
  | .listing due _ | .copying due _ _ _ =>
    (cfg.hostEnabled = true → ∀ q, s.HostDone cfg base q) ∧ ∀ k ∈ base.processStats.keys, k ∈ due
  | .emitting rest =>
    (cfg.hostEnabled = true → ∀ q, s.HostDone cfg base q) ∧
      ∀ k ∈ base.processStats.keys, k ∈ rest.map Prod.fst ∨ s.ProcessDone base k
  | .idle =>
    (cfg.hostEnabled = true → ∀ q, s.HostDone cfg base q) ∧
      (cfg.processEnabled = true → ∀ k ∈ base.processStats.keys, s.ProcessDone base k)

def State.Covered (cfg : Config) (base : Maps n) (s : State n) : Prop := s.reader.Covered cfg base s

variable {cfg : Config} {accepts : Emission → Bool} {base : Maps n} {s : State n}

theorem startProtocols_covered (hostDelta : NetStats) {rest : List Protocol}
    (h : ∀ q, q ∉ rest → s.HostDone cfg base q) :
    (startProtocols cfg hostDelta rest).Covered cfg base s := by
  induction rest with
  | nil => exact fun q => h q (by simp)
  | cons p rest ih =>
    unfold startProtocols
    by_cases hp : cfg.hasProtocol p = true
    · rw [if_pos hp]
      exact h
    · rw [if_neg hp]
      refine ih fun q hq => ?_
      by_cases hqp : q = p
      · subst hqp
        exact fun hon => absurd hon hp
      · exact h q (by simp [hqp, hq])

theorem startProcesses_covered {keys : List ProcessKey}
    (hhost : cfg.hostEnabled = true → ∀ q, s.HostDone cfg base q)
    (hkeys : ∀ k ∈ base.processStats.keys, k ∈ keys) :
    (startProcesses cfg keys).Covered cfg base s := by
  unfold startProcesses
  by_cases hp : cfg.processEnabled = true
  · rw [if_pos hp]
    exact ⟨hhost, hkeys⟩
  · rw [if_neg hp]
    exact ⟨hhost, fun hon => absurd hon hp⟩

theorem Protocol.mem_all (p : Protocol) : p ∈ Protocol.all := by
  cases p <;> decide

theorem startPass_covered :
    { s with reader := startPass cfg s.maps.processStats.keys }.Covered cfg s.maps := by
  change (startPass cfg s.maps.processStats.keys).Covered cfg s.maps _
  unfold startPass
  by_cases hh : cfg.hostEnabled = true
  · rw [if_pos hh]
    exact startProtocols_covered .zero fun q hq => absurd q.mem_all hq
  · rw [if_neg hh]
    exact startProcesses_covered (fun hon => absurd hon hh) fun _ => id

theorem State.Covered.copyKey (h : s.Covered cfg base) (k : ProcessKey) :
    (s.copyKey k).Covered cfg base := by
  obtain ⟨maps, cpu, globalPrevious, processPrevious, reader⟩ := s
  cases reader with
  | listing due values =>
    unfold State.copyKey
    dsimp only
    split
    · exact h
    · exact h
  | _ => exact h

theorem State.Covered.sampleHost {p : Protocol} {rest : List Protocol} {hostDelta : NetStats}
    {current : NetStats} (haccepts : ∀ e, accepts e = true)
    (h : ∀ q, q ∉ p :: rest → s.HostDone cfg base q)
    (hsince : ∀ c, ∑ i, base.globalStats i p (.count c) ≤ current (.count c)) :
    (s.sampleHost cfg accepts p rest hostDelta current).1.Covered cfg base := by
  unfold State.sampleHost State.Covered
  dsimp only
  rw [if_pos (haccepts _)]
  refine startProtocols_covered _ fun q hq hon c => ?_
  change _ ≤ Function.update s.globalPrevious p current q (.count c)
  by_cases hqp : q = p
  · subst hqp
    rw [Function.update_self]
    exact hsince c
  · rw [Function.update_of_ne hqp]
    exact h q (by simp [hqp, hq]) hon c

theorem State.Covered.sampleProcess {k : ProcessKey} {current : NetStats}
    {rest : List (ProcessKey × NetStats)} (haccepts : ∀ e, accepts e = true)
    (h : (Reader.emitting ((k, current) :: rest)).Covered cfg base s)
    (hsince : (base.processStats.stats k).Precedes current) :
    (s.sampleProcess accepts k current rest).1.Covered cfg base := by
  unfold State.sampleProcess State.Covered
  dsimp only
  rw [if_pos (haccepts _)]
  refine ⟨h.1, fun j hj => ?_⟩
  by_cases hjk : j = k
  · subst hjk
    refine .inr fun c => ?_
    change _ ≤ (Function.update s.processPrevious j (some current) j).getD .zero (.count c)
    rw [Function.update_self]
    exact hsince.le c
  · rcases h.2 j hj with hrest | hdone
    · exact .inl ((List.mem_cons.mp hrest).resolve_left hjk)
    · refine .inr fun c => ?_
      change _ ≤ (Function.update s.processPrevious k (some current) j).getD .zero (.count c)
      rw [Function.update_of_ne hjk]
      exact hdone c

theorem State.Covered.read (haccepts : ∀ e, accepts e = true) (hsound : s.Sound base)
    (hbound : ∀ p c, ∑ i, s.maps.globalStats i p (.count c) < 2 ^ 64) (h : s.Covered cfg base) :
    (s.read cfg accepts).1.Covered cfg base := by
  have hreader := hsound.reader
  obtain ⟨maps, cpu, globalPrevious, processPrevious, reader⟩ := s
  cases reader with
  | idle => exact h
  | host p rest hostDelta copy =>
    obtain ⟨got, left⟩ := copy
    cases left with
    | nil => exact sampleHost haccepts h (hostStats_between hsound rfl (hbound p)).2.1
    | cons w left => exact h
  | hostTotal hostDelta => exact startProcesses_covered (fun _ => h) hsound.grows.process.keys
  | listing due values =>
    unfold State.read
    dsimp only
    by_cases hall : ∀ k ∈ due, k ∈ values.map Prod.fst
    · rw [if_pos hall]
      exact ⟨h.1, fun k hk => .inl (hall k (h.2 k hk))⟩
    · rw [if_neg hall]
      exact h
  | copying due values k copy =>
    obtain ⟨got, left⟩ := copy
    cases left with
    | nil => exact h
    | cons w left => exact h
  | emitting rest =>
    cases rest with
    | nil => exact ⟨h.1, fun _ k hk => (h.2 k hk).resolve_left (by simp)⟩
    | cons x rest => exact sampleProcess haccepts h (hreader.1.since x List.mem_cons_self)

end Covered

/-! ## Whole runs -/

section Run
variable {n : ℕ} {cfg : Config} {accepts : Emission → Bool} {calls : Fin n → List SocketCall}
  {base : Maps n} {s s' : State n} {es : List Emission}

/-- A step of the pass leaves the maps and the CPUs alone. -/
theorem read_kernel (s : State n) :
    (s.read cfg accepts).1.maps = s.maps ∧ (s.read cfg accepts).1.cpu = s.cpu := by
  unfold State.read
  split
  all_goals first | exact ⟨rfl, rfl⟩ | (split <;> exact ⟨rfl, rfl⟩)

theorem copyKey_kernel (s : State n) (k : ProcessKey) :
    (s.copyKey k).maps = s.maps ∧ (s.copyKey k).cpu = s.cpu := by
  unfold State.copyKey
  split
  · split <;> exact ⟨rfl, rfl⟩
  · exact ⟨rfl, rfl⟩

theorem copyKey_previous (s : State n) (k : ProcessKey) :
    (s.copyKey k).globalPrevious = s.globalPrevious ∧
      (s.copyKey k).processPrevious = s.processPrevious := by
  unfold State.copyKey
  split
  · split <;> exact ⟨rfl, rfl⟩
  · exact ⟨rfl, rfl⟩

theorem State.Balanced.congr (h : s.Balanced cfg calls) (hs : s'.maps = s.maps ∧ s'.cpu = s.cpu) :
    s'.Balanced cfg calls := by
  obtain ⟨hmaps, hcpu⟩ := hs
  refine ⟨?_, ?_, ?_⟩
  · rw [hmaps, hcpu]
    exact h.ok
  · rw [hmaps, hcpu]
    exact h.host
  · rw [hmaps, hcpu]
    exact h.process

theorem State.Samples.congr {base' : Maps n} (h : s.Samples base es) (hsound : s'.Sound base')
    (hs : s'.globalPrevious = s.globalPrevious ∧ s'.processPrevious = s.processPrevious) :
    s'.Samples base' (es ++ []) := by
  obtain ⟨hglobal, hprocess⟩ := hs
  rw [List.append_nil]
  refine ⟨hsound, ⟨fun p c => ?_, fun k c => ?_⟩⟩
  · rw [hglobal]
    exact h.emitted.host p c
  · rw [State.previous, hprocess]
    exact h.emitted.process k c

section Steps
variable (haccepts : ∀ e, accepts e = true) (hhost : ∀ p c, hostTotal cfg calls p c < 2 ^ 64)
  (hprocess : ∀ k c, processTotal cfg calls k c < 2 ^ 64)

include hhost hprocess in
theorem balanced_step (h : s.Balanced cfg calls) (a : Act n) :
    ((machine cfg accepts).step s a).1.Balanced cfg calls := by
  cases a with
  | step i => exact h.putView (h.moves hhost hprocess i)
  | sample =>
    obtain ⟨maps, cpu, globalPrevious, processPrevious, reader⟩ := s
    cases reader <;> exact h.congr ⟨rfl, rfl⟩
  | read => exact h.congr (read_kernel s)
  | key k => exact h.congr (copyKey_kernel s k)
  | fail =>
    obtain ⟨maps, cpu, globalPrevious, processPrevious, reader⟩ := s
    cases reader <;> exact h.congr ⟨rfl, rfl⟩

include haccepts hhost hprocess in
theorem samples_step (hbalance : s.Balanced cfg calls) (h : s.Samples base es) {a : Act n}
    (ha : a ≠ .sample) :
    ((machine cfg accepts).step s a).1.Samples base
      (es ++ ((machine cfg accepts).step s a).2) := by
  cases a with
  | step i =>
    exact h.congr (h.sound.grow (grows_putView (hbalance.moves hhost hprocess i))) ⟨rfl, rfl⟩
  | sample => exact absurd rfl ha
  | read => exact h.read haccepts fun p c => (hbalance.globalStats_le p c).trans_lt (hhost p c)
  | key k => exact h.congr (h.sound.copyKey k) (copyKey_previous s k)
  | fail =>
    refine h.congr h.sound.fail ?_
    obtain ⟨maps, cpu, globalPrevious, processPrevious, reader⟩ := s
    cases reader <;> exact ⟨rfl, rfl⟩

/-- All along a run. -/
structure State.Accounts (cfg : Config) (calls : Fin n → List SocketCall) (s : State n)
    (es : List Emission) : Prop where
  balanced : s.Balanced cfg calls
  samples : ∃ base, s.Samples base es

theorem samples_sample (h : s.Samples base es) (hidle : s.reader = .idle) :
    ((machine cfg accepts).step s .sample).1.Samples s.maps
      (es ++ ((machine cfg accepts).step s .sample).2) := by
  obtain ⟨maps, cpu, globalPrevious, processPrevious, reader⟩ := s
  subst hidle
  exact h.congr h.sound.startPass ⟨rfl, rfl⟩

include haccepts hhost hprocess in
theorem accounts_step (h : s.Accounts cfg calls es) (a : Act n) :
    ((machine cfg accepts).step s a).1.Accounts cfg calls
      (es ++ ((machine cfg accepts).step s a).2) := by
  obtain ⟨hbalance, base, hsamples⟩ := h
  refine ⟨balanced_step hhost hprocess hbalance a, ?_⟩
  by_cases ha : a = .sample
  · subst ha
    by_cases hidle : s.reader = .idle
    · exact ⟨s.maps, samples_sample hsamples hidle⟩
    · refine ⟨base, ?_⟩
      obtain ⟨maps, cpu, globalPrevious, processPrevious, reader⟩ := s
      cases reader with
      | idle => exact absurd rfl hidle
      | _ => exact hsamples.keep
  · exact ⟨base, samples_step haccepts hhost hprocess hbalance hsamples ha⟩

/-- A pass since `base` that is not cut short. -/
structure State.Flushing (cfg : Config) (calls : Fin n → List SocketCall) (base : Maps n)
    (s : State n) (es : List Emission) : Prop where
  balanced : s.Balanced cfg calls
  samples : s.Samples base es
  covered : s.Covered cfg base

include haccepts hhost hprocess in
theorem flushing_step (h : s.Flushing cfg calls base es) {a : Act n}
    (ha : a ≠ .sample ∧ a ≠ .fail) :
    ((machine cfg accepts).step s a).1.Flushing cfg calls base
      (es ++ ((machine cfg accepts).step s a).2) := by
  refine ⟨balanced_step hhost hprocess h.balanced a,
    samples_step haccepts hhost hprocess h.balanced h.samples ha.1, ?_⟩
  cases a with
  | step i =>
    have hcovered := h.covered
    obtain ⟨maps, cpu, globalPrevious, processPrevious, reader⟩ := s
    cases reader <;> exact hcovered
  | sample => exact absurd rfl ha.1
  | read =>
    exact h.covered.read haccepts h.samples.sound fun p c =>
      (h.balanced.globalStats_le p c).trans_lt (hhost p c)
  | key k => exact h.covered.copyKey k
  | fail => exact absurd rfl ha.2

theorem covered_sample (hidle : s.reader = .idle) :
    ((machine cfg accepts).step s .sample).1.Covered cfg s.maps := by
  obtain ⟨maps, cpu, globalPrevious, processPrevious, reader⟩ := s
  subst hidle
  exact startPass_covered

include haccepts hhost hprocess in
theorem flushing_run (hbalance : s.Balanced cfg calls) (hsamples : s.Samples base es)
    (hidle : s.reader = .idle) {flush : List (Act n)}
    (hflush : ∀ a ∈ flush, a ≠ .sample ∧ a ≠ .fail) :
    ((machine cfg accepts).final s (.sample :: flush)).Flushing cfg calls s.maps
      (es ++ (machine cfg accepts).outputs s (.sample :: flush)) := by
  have hbegin : ((machine cfg accepts).step s .sample).1.Flushing cfg calls s.maps
      (es ++ ((machine cfg accepts).step s .sample).2) :=
    ⟨balanced_step hhost hprocess hbalance .sample, samples_sample hsamples hidle,
      covered_sample hidle⟩
  rw [Machine.final_cons, Machine.outputs_cons, ← List.append_assoc]
  refine Machine.history (I := fun (t : State n) out => t.Flushing cfg calls s.maps
    (es ++ ((machine cfg accepts).step s .sample).2 ++ out)) ?_ ?_
    (Machine.meets_of_forall (P := fun a : Act n => a ≠ .sample ∧ a ≠ .fail) hflush _)
  · intro t out a ht ha
    rw [← List.append_assoc]
    exact flushing_step haccepts hhost hprocess ht ha
  · rwa [List.append_nil]

end Steps

/-- All calls are accounted, and no pass is under way. -/
structure State.Quiet (s : State n) : Prop where
  cpu : ∀ i, s.cpu i = ⟨[], .idle⟩
  reader : s.reader = .idle

theorem hostShare_off {p : Protocol} (h : ¬(cfg.hostEnabled = true ∧ cfg.hasProtocol p = true))
    (c : Counter) (call : SocketCall) : hostShare cfg p c call = 0 := by
  unfold hostShare
  refine if_neg ?_
  rintro ⟨haccounted, hon, rfl⟩
  have hprotocol : cfg.hasProtocol call.protocol = false := by simpa [hon] using h
  simp [accounted, hprotocol] at haccounted

theorem hostTotal_off {p : Protocol} (h : ¬(cfg.hostEnabled = true ∧ cfg.hasProtocol p = true))
    (c : Counter) : hostTotal cfg calls p c = 0 := by
  refine Finset.sum_eq_zero fun i _ => List.sum_eq_zero fun x hx => ?_
  obtain ⟨call, -, rfl⟩ := List.mem_map.mp hx
  exact hostShare_off h c call

theorem processTotal_off (h : ¬cfg.processEnabled = true) (k : ProcessKey) (c : Counter) :
    processTotal cfg calls k c = 0 := by
  refine Finset.sum_eq_zero fun i _ => List.sum_eq_zero fun x hx => ?_
  obtain ⟨call, -, rfl⟩ := List.mem_map.mp hx
  exact if_neg fun hon => h hon.2.1

theorem State.Quiet.hostTotal (h : s.Quiet) (hs : s.Balanced cfg calls) (p : Protocol)
    (c : Counter) : ∑ i, s.maps.globalStats i p (.count c) = NetTrack.hostTotal cfg calls p c := by
  refine Finset.sum_congr rfl fun i _ => ?_
  have hbalance := hs.host i p c
  rwa [h.cpu] at hbalance

theorem State.Quiet.processTotal (h : s.Quiet) (hs : s.Balanced cfg calls) (k : ProcessKey)
    (c : Counter) :
    s.maps.processStats.stats k (.count c) = NetTrack.processTotal cfg calls k c := by
  have hbalance := hs.process k c
  have hzero : ∑ i, (s.cpu i).owedProcess cfg k c = 0 :=
    Finset.sum_eq_zero fun i _ => by rw [h.cpu]; rfl
  rwa [hzero, Nat.add_zero] at hbalance

/-- A finished flush has emitted what the calls are worth. -/
theorem State.Flushing.exact {s₀ : State n} (h : s.Flushing cfg calls s₀.maps es)
    (hidle : s.reader = .idle) (hquiet : s₀.Quiet) (hbalance : s₀.Balanced cfg calls) :
    (∀ p c, emitted (.host p) c es = NetTrack.hostTotal cfg calls p c) ∧
      ∀ k c, emitted (.process k) c es = NetTrack.processTotal cfg calls k c := by
  have hcovered := h.covered
  rw [State.Covered, hidle] at hcovered
  constructor
  · intro p c
    rw [h.samples.emitted.host]
    refine Nat.le_antisymm ((h.samples.sound.host p c).trans (h.balanced.globalStats_le p c)) ?_
    by_cases hon : cfg.hostEnabled = true ∧ cfg.hasProtocol p = true
    · rw [← hquiet.hostTotal hbalance]
      exact hcovered.1 hon.1 p hon.2 c
    · rw [hostTotal_off hon]
      exact Nat.zero_le _
  · intro k c
    rw [h.samples.emitted.process]
    refine Nat.le_antisymm (((h.samples.sound.process k).le c).trans (h.balanced.stats_le k c)) ?_
    by_cases hon : cfg.processEnabled = true
    · rw [← hquiet.processTotal hbalance]
      by_cases hk : k ∈ s₀.maps.processStats.keys
      · exact hcovered.2 hon k hk c
      · rw [stats_of_not_mem hk]
        exact Nat.zero_le _
    · rw [processTotal_off hon]
      exact Nat.zero_le _

/-- A flush after the calls emits what was still missing. -/
theorem emitted_after_flush (haccepts : ∀ e, accepts e = true)
    (hhost : ∀ p c, hostTotal cfg calls p c < 2 ^ 64)
    (hprocess : ∀ k c, processTotal cfg calls k c < 2 ^ 64) (acts flush : List (Act n))
    (hquiet : ((machine cfg accepts).final (.start calls) acts).Quiet)
    (hflush : ∀ a ∈ flush, a ≠ .sample ∧ a ≠ .fail)
    (hdone : ((machine cfg accepts).final (.start calls) (acts ++ .sample :: flush)).reader =
      .idle) :
    (∀ p c, emitted (.host p) c
        ((machine cfg accepts).outputs (.start calls) (acts ++ .sample :: flush)) =
      hostTotal cfg calls p c) ∧
    ∀ k c, emitted (.process k) c
        ((machine cfg accepts).outputs (.start calls) (acts ++ .sample :: flush)) =
      processTotal cfg calls k c := by
  have hstart : (State.start calls).Accounts cfg calls [] :=
    ⟨balanced_start, _, ⟨sound_start, ⟨fun _ _ => rfl, fun _ _ => rfl⟩⟩⟩
  have hcalls : ((machine cfg accepts).final (.start calls) acts).Accounts cfg calls
      ((machine cfg accepts).outputs (.start calls) acts) :=
    Machine.history_all (I := fun s es => State.Accounts cfg calls s es)
      (fun _ _ a h => accounts_step haccepts hhost hprocess h a) hstart acts
  obtain ⟨hbalance, base, hsamples⟩ := hcalls
  have hend := flushing_run haccepts hhost hprocess hbalance hsamples hquiet.reader hflush
  rw [Machine.final_append] at hdone
  rw [Machine.outputs_append]
  exact hend.exact hdone hquiet hbalance

/-- The calls of all CPUs, whatever passes sampled the maps in between, and a flush after them. -/
theorem network_accounting_exact (haccepts : ∀ e, accepts e = true)
    (hhost : ∀ p c, hostTotal cfg calls p c < 2 ^ 64)
    (hprocess : ∀ k c, processTotal cfg calls k c < 2 ^ 64) (acts flush : List (Act n))
    (hquiet : ((machine cfg accepts).final (.start calls) acts).Quiet)
    (hflush : ∀ a ∈ flush, a ≠ .sample ∧ a ≠ .fail)
    (hdone : ((machine cfg accepts).final (.start calls) (acts ++ .sample :: flush)).reader =
      .idle) :
    (∀ p c, emitted (.host p) c
        ((machine cfg accepts).outputs (.start calls) (acts ++ .sample :: flush)) =
      hostTotal cfg calls p c) ∧
    ∀ k c, emitted (.process k) c
        ((machine cfg accepts).outputs (.start calls) (acts ++ .sample :: flush)) =
      processTotal cfg calls k c :=
  emitted_after_flush haccepts hhost hprocess acts flush hquiet hflush hdone

end Run

/-! ## Two CPUs and one process -/

instance decidableIdle {n : ℕ} : (r : Reader n) → Decidable (r = .idle)
  | .idle => .isTrue rfl
  | .host _ _ _ _ => .isFalse (by simp)
  | .hostTotal _ => .isFalse (by simp)
  | .listing _ _ => .isFalse (by simp)
  | .copying _ _ _ _ => .isFalse (by simp)
  | .emitting _ => .isFalse (by simp)

def hostAndProcesses : Config := { processEnabled := true, operationsEnabled := true }

def twoSends : Fin 2 → List SocketCall
  | 0 => [⟨true, .tcp, true, 100, 0, 7, false, 1⟩]
  | 1 => [⟨true, .tcp, true, 50, 0, 7, false, 2⟩]

/-- A whole pass, with one process. -/
def passActs : List (Act 2) :=
  List.replicate 51 .read ++ [.key ⟨7, .tcp⟩] ++ List.replicate 16 .read

/-- Neither CPU finds an entry. The first one makes it, a pass samples it, and the second one,
whose insertion fails, adds to it. -/
def sendActs (i j : Fin 2) : List (Act 2) :=
  List.replicate 8 (.step i) ++ List.replicate 8 (.step j) ++ [.step i, .step j] ++
    .sample :: passActs ++ List.replicate 5 (.step j)

theorem processShare_le (cfg : Config) (k : ProcessKey) (c : Counter) (call : SocketCall) :
    processShare cfg k c call ≤ contribution cfg call c := by
  unfold processShare
  split
  · exact le_rfl
  · exact Nat.zero_le _

theorem network_accounting_two_sends :
    emitted (.host .tcp) .sendBytes ((machine hostAndProcesses fun _ => true).outputs
        (.start twoSends) (sendActs 0 1 ++ .sample :: passActs)) = 150 ∧
      emitted (.process ⟨7, .tcp⟩) .sendBytes ((machine hostAndProcesses fun _ => true).outputs
        (.start twoSends) (sendActs 0 1 ++ .sample :: passActs)) = 150 := by
  have hprocess : ∀ k c, processTotal hostAndProcesses twoSends k c < 2 ^ 64 := by
    intro k c
    have hone : ∀ i, ((twoSends i).map (processShare hostAndProcesses k c)).sum ≤ 100
      | 0 => (processShare_le hostAndProcesses k c _).trans (by cases c <;> decide)
      | 1 => (processShare_le hostAndProcesses k c _).trans (by cases c <;> decide)
    exact (Finset.sum_le_sum fun i (_ : i ∈ Finset.univ) => hone i).trans_lt (by decide)
  obtain ⟨hhosts, hprocesses⟩ := network_accounting_exact (fun _ => rfl)
    (by intro p c; cases p <;> cases c <;> decide) hprocess (sendActs 0 1) passActs
    ⟨by decide +kernel, by decide +kernel⟩ (by decide) (by decide +kernel)
  exact ⟨(hhosts .tcp .sendBytes).trans (by decide), (hprocesses _ _).trans (by decide)⟩

end Manytrace.Bpf.NetTrack
