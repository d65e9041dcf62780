import Manytrace.Bpf.NetUpdates

/-! What the maps hold and what all CPUs owe them is at every moment what the calls are worth. -/
namespace Manytrace.Bpf.NetTrack
open Manytrace.Core

variable {n : ℕ}

structure Maps.Grows (m m' : Maps n) : Prop where
  row : ∀ i, RowGrows (m.globalStats i) (m'.globalStats i)
  process : m.processStats.Grows m'.processStats

theorem Maps.Grows.refl (m : Maps n) : m.Grows m := ⟨fun _ => .refl _, .refl _⟩

theorem Maps.Grows.trans {m₁ m₂ m₃ : Maps n} (h : m₁.Grows m₂) (h' : m₂.Grows m₃) :
    m₁.Grows m₃ where
  row i := ⟨fun p c => ((h.row i).count p c).trans ((h'.row i).count p c),
    fun p => ((h'.row i).first p).trans ((h.row i).first p)⟩
  process := ⟨fun k hk => h'.process.keys k (h.process.keys k hk),
    fun k => (h.process.stats k).trans (h'.process.stats k)⟩

/-- What the accounted calls of a protocol are worth together, -/
def hostTotal (cfg : Config) (calls : Fin n → List SocketCall) (p : Protocol) (c : Counter) : ℕ :=
  ∑ i, ((calls i).map (hostShare cfg p c)).sum

/-- and those of a process. -/
def processTotal (cfg : Config) (calls : Fin n → List SocketCall) (k : ProcessKey) (c : Counter) :
    ℕ :=
  ∑ i, ((calls i).map (processShare cfg k c)).sum

/-- What the maps hold and what the CPUs owe them is what the calls are worth. -/
structure State.Balanced (cfg : Config) (calls : Fin n → List SocketCall) (s : State n) : Prop where
  ok : ∀ i, (s.cpu i).pc.Ok (s.maps.globalStats i) s.maps.processStats
  host : ∀ i p c, s.maps.globalStats i p (.count c) + (s.cpu i).owedHost cfg p c =
    ((calls i).map (hostShare cfg p c)).sum
  process : ∀ k c, s.maps.processStats.stats k (.count c) + ∑ i, (s.cpu i).owedProcess cfg k c =
    processTotal cfg calls k c

variable {cfg : Config} {calls : Fin n → List SocketCall} {s : State n}

theorem balanced_start : (State.start calls).Balanced cfg calls where
  ok _ := trivial
  host i p c := by simp [State.start, Tally.zero, Cpu.owedHost, Pc.owedHost]
  process k c := by
    simp [State.start, ProcessMap.stats, Tally.zero, Cpu.owedProcess, Pc.owedProcess, processTotal]

theorem State.Balanced.globalStats_le (h : s.Balanced cfg calls) (p : Protocol) (c : Counter) :
    ∑ i, s.maps.globalStats i p (.count c) ≤ hostTotal cfg calls p c := by
  refine Finset.sum_le_sum fun i _ => ?_
  rw [← h.host i p c]
  exact Nat.le_add_right _ _

theorem State.Balanced.stats_le (h : s.Balanced cfg calls) (k : ProcessKey) (c : Counter) :
    s.maps.processStats.stats k (.count c) ≤ processTotal cfg calls k c := by
  rw [← h.process k c]
  exact Nat.le_add_right _ _

theorem State.Balanced.moves (h : s.Balanced cfg calls)
    (hhost : ∀ p c, hostTotal cfg calls p c < 2 ^ 64)
    (hprocess : ∀ k c, processTotal cfg calls k c < 2 ^ 64) (i : Fin n) :
    (s.view i).Moves cfg ((s.view i).step cfg) := by
  refine View.step_moves (h.ok i) (fun p c => ?_) (fun k c => ?_)
  · have hone : ((calls i).map (hostShare cfg p c)).sum ≤ hostTotal cfg calls p c :=
      Finset.single_le_sum (f := fun j => ((calls j).map (hostShare cfg p c)).sum)
        (fun _ _ => Nat.zero_le _) (Finset.mem_univ i)
    have hbalance := h.host i p c
    have htotal := hhost p c
    change s.maps.globalStats i p (.count c) + (s.cpu i).owedHost cfg p c < 2 ^ 64
    omega
  · have hone : (s.cpu i).owedProcess cfg k c ≤ ∑ j, (s.cpu j).owedProcess cfg k c :=
      Finset.single_le_sum (f := fun j => (s.cpu j).owedProcess cfg k c)
        (fun _ _ => Nat.zero_le _) (Finset.mem_univ i)
    have hbalance := h.process k c
    have htotal := hprocess k c
    change s.maps.processStats.stats k (.count c) + (s.cpu i).owedProcess cfg k c < 2 ^ 64
    omega

theorem grows_putView {i : Fin n} {v : View} (hv : (s.view i).Moves cfg v) :
    s.maps.Grows (s.putView i v).maps where
  row j := by
    change RowGrows _ (Function.update s.maps.globalStats i v.row j)
    by_cases hj : j = i
    · subst hj
      rw [Function.update_self]
      exact hv.row
    · rw [Function.update_of_ne hj]
      exact .refl _
  process := hv.map

theorem State.Balanced.putView (h : s.Balanced cfg calls) {i : Fin n} {v : View}
    (hv : (s.view i).Moves cfg v) : (s.putView i v).Balanced cfg calls where
  ok j := by
    change (Function.update s.cpu i v.cpu j).pc.Ok (Function.update s.maps.globalStats i v.row j) _
    by_cases hj : j = i
    · subst hj
      rw [Function.update_self, Function.update_self]
      exact hv.ok
    · rw [Function.update_of_ne hj, Function.update_of_ne hj]
      exact (h.ok j).grow hv.map
  host j p c := by
    change Function.update s.maps.globalStats i v.row j p (.count c) +
      (Function.update s.cpu i v.cpu j).owedHost cfg p c = _
    by_cases hj : j = i
    · subst hj
      rw [Function.update_self, Function.update_self, ← h.host]
      exact hv.host p c
    · rw [Function.update_of_ne hj, Function.update_of_ne hj]
      exact h.host j p c
  process k c := by
    have hsum := sum_update_add (Cpu.owedProcess cfg k c) s.cpu i v.cpu
    have hold := h.process k c
    have hnew : v.map.stats k (.count c) + v.cpu.owedProcess cfg k c =
      s.maps.processStats.stats k (.count c) + (s.cpu i).owedProcess cfg k c := hv.process k c
    change v.map.stats k (.count c) +
      ∑ j, (Function.update s.cpu i v.cpu j).owedProcess cfg k c = _
    omega

end Manytrace.Bpf.NetTrack
