import Manytrace.Bpf.NetTrack

/-! A sampling pass can always be finished: nothing that it waits for can stay away. -/
namespace Manytrace.Bpf.NetTrack
open Manytrace.Core

variable {n : ℕ} {cfg : Config} {accepts : Emission → Bool} {s : State n}

/-- Some steps of the sampler alone end the pass. -/
def Finishes (cfg : Config) (accepts : Emission → Bool) (s : State n) : Prop :=
  ∃ flush : List (Act n), (∀ a ∈ flush, a = .read ∨ ∃ k, a = .key k) ∧
    ((machine cfg accepts).final s flush).reader = .idle

theorem finishes_idle (h : s.reader = .idle) : Finishes cfg accepts s := ⟨[], by simp, h⟩

theorem Finishes.act {a : Act n} (ha : a = .read ∨ ∃ k, a = .key k)
    (h : Finishes cfg accepts ((machine cfg accepts).step s a).1) : Finishes cfg accepts s := by
  obtain ⟨flush, hflush, hidle⟩ := h
  exact ⟨a :: flush, List.forall_mem_cons.mpr ⟨ha, hflush⟩, hidle⟩

theorem Finishes.read (h : Finishes cfg accepts (s.read cfg accepts).1) :
    Finishes cfg accepts s :=
  act (.inl rfl) h

variable {maps : Maps n} {cpu : Fin n → Cpu} {globalPrevious : Protocol → NetStats}
  {processPrevious : ProcessKey → Option NetStats}

theorem finishes_emitting (rest : List (ProcessKey × NetStats)) :
    Finishes cfg accepts ⟨maps, cpu, globalPrevious, processPrevious, .emitting rest⟩ := by
  induction rest generalizing processPrevious with
  | nil => exact .read (finishes_idle rfl)
  | cons x rest ih =>
    refine .read ?_
    change Finishes cfg accepts (State.sampleProcess accepts _ x.1 x.2 rest).1
    unfold State.sampleProcess
    dsimp only
    split
    · exact ih
    · exact finishes_idle rfl

theorem finishes_copying {due : List ProcessKey} {values : List (ProcessKey × NetStats)}
    {k : ProcessKey} (h : ∀ got, Finishes cfg accepts
      ⟨maps, cpu, globalPrevious, processPrevious, .listing due (values ++ [(k, got)])⟩)
    (left : List (Word Counter)) (got : Word Counter → ℕ) :
    Finishes cfg accepts
      ⟨maps, cpu, globalPrevious, processPrevious, .copying due values k ⟨got, left⟩⟩ := by
  induction left generalizing got with
  | nil => exact .read (h got)
  | cons w left ih => exact .read (ih _)

/-- The induction is on the keys that the batch has still to hand out. -/
theorem finishes_listing {due : List ProcessKey} (todo : List ProcessKey)
    (htodo : ∀ k ∈ todo, k ∈ maps.processStats.keys) {values : List (ProcessKey × NetStats)}
    (hdue : ∀ k ∈ due, k ∈ values.map Prod.fst ∨ k ∈ todo) :
    Finishes cfg accepts
      ⟨maps, cpu, globalPrevious, processPrevious, .listing due values⟩ := by
  induction todo generalizing values with
  | nil =>
    have hall : ∀ k ∈ due, k ∈ values.map Prod.fst :=
      fun k hk => (hdue k hk).resolve_right (by simp)
    refine .read ?_
    unfold State.read
    dsimp only
    rw [if_pos hall]
    exact finishes_emitting values
  | cons k todo ih =>
    have htail : ∀ j ∈ todo, j ∈ maps.processStats.keys :=
      fun j hj => htodo j (List.mem_cons_of_mem k hj)
    by_cases hk : k ∈ values.map Prod.fst
    · refine ih htail fun j hj => ?_
      rcases hdue j hj with hvalue | hlater
      · exact .inl hvalue
      · rcases List.mem_cons.mp hlater with rfl | hlater
        · exact .inl hk
        · exact .inr hlater
    · have hkey : k ∈ maps.processStats.keys ∧ k ∉ values.map Prod.fst :=
        ⟨htodo k List.mem_cons_self, hk⟩
      refine .act (a := .key k) (.inr ⟨k, rfl⟩) ?_
      change Finishes cfg accepts
        (State.copyKey ⟨maps, cpu, globalPrevious, processPrevious, .listing due values⟩ k)
      unfold State.copyKey
      dsimp only
      rw [if_pos hkey]
      refine finishes_copying (fun got => ih htail fun j hj => ?_) _ _
      rw [List.map_append, List.mem_append]
      rcases hdue j hj with hvalue | hlater
      · exact .inl (.inl hvalue)
      · rcases List.mem_cons.mp hlater with rfl | hlater
        · exact .inl (.inr List.mem_cons_self)
        · exact .inr hlater

theorem finishes_processes :
    Finishes cfg accepts ⟨maps, cpu, globalPrevious, processPrevious,
      startProcesses cfg maps.processStats.keys⟩ := by
  unfold startProcesses
  split
  · exact finishes_listing maps.processStats.keys (fun _ => id) fun _ => .inr
  · exact finishes_idle rfl

theorem finishes_hostTotal (hostDelta : NetStats) :
    Finishes cfg accepts ⟨maps, cpu, globalPrevious, processPrevious, .hostTotal hostDelta⟩ :=
  .read finishes_processes

theorem finishes_host {p : Protocol} {rest : List Protocol} {hostDelta : NetStats}
    (h : ∀ globalPrevious hostDelta, Finishes cfg accepts
      ⟨maps, cpu, globalPrevious, processPrevious, startProtocols cfg hostDelta rest⟩)
    (left : List (Fin n × Word Counter)) (got : Fin n × Word Counter → ℕ) :
    Finishes cfg accepts
      ⟨maps, cpu, globalPrevious, processPrevious, .host p rest hostDelta ⟨got, left⟩⟩ := by
  induction left generalizing got with
  | nil =>
    refine .read ?_
    change Finishes cfg accepts (State.sampleHost cfg accepts _ p rest hostDelta _).1
    unfold State.sampleHost
    dsimp only
    split
    · exact h _ _
    · exact finishes_hostTotal _
  | cons w left ih => exact .read (ih _)

theorem finishes_protocols (rest : List Protocol) (hostDelta : NetStats) :
    Finishes cfg accepts ⟨maps, cpu, globalPrevious, processPrevious,
      startProtocols cfg hostDelta rest⟩ := by
  induction rest generalizing globalPrevious hostDelta with
  | nil => exact finishes_hostTotal hostDelta
  | cons p rest ih =>
    unfold startProtocols
    split
    · exact finishes_host (fun _ hostDelta => ih hostDelta) _ _
    · exact ih hostDelta

/-- A flush can be brought to its end from every state without a pass under way. -/
theorem exists_flush (h : s.reader = .idle) :
    ∃ flush : List (Act n), (∀ a ∈ flush, a = .read ∨ ∃ k, a = .key k) ∧
      ((machine cfg accepts).final s (.sample :: flush)).reader = .idle := by
  obtain ⟨maps, cpu, globalPrevious, processPrevious, reader⟩ := s
  subst h
  change Finishes cfg accepts ⟨maps, cpu, globalPrevious, processPrevious,
    startPass cfg maps.processStats.keys⟩
  unfold startPass
  split
  · exact finishes_protocols Protocol.all .zero
  · exact finishes_processes

end Manytrace.Bpf.NetTrack
