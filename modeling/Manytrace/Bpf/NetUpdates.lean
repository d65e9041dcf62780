import Manytrace.Bpf.NetTrack

/-! What the CPUs still owe to the maps. A step of a CPU pays a part of it or passes it on, and no
call is paid twice. -/
namespace Manytrace.Bpf.NetTrack
open Manytrace.Core

section Shares
variable (cfg : Config)

/-- What a call is worth, whatever map it is counted in. -/
def contribution (call : SocketCall) : Counter → ℕ
  | .sendBytes => if cfg.bytesEnabled ∧ call.send ∧ 0 < call.ret then call.ret.toNat else 0
  | .recvBytes => if cfg.bytesEnabled ∧ ¬call.send ∧ 0 < call.ret then call.ret.toNat else 0
  | .sendOperations => if cfg.operationsEnabled ∧ call.send ∧ 0 ≤ call.ret then 1 else 0
  | .recvOperations => if cfg.operationsEnabled ∧ ¬call.send ∧ 0 ≤ call.ret then 1 else 0
  | .sendErrors => if cfg.errorsEnabled ∧ call.send ∧ call.ret < 0 then 1 else 0
  | .recvErrors => if cfg.errorsEnabled ∧ ¬call.send ∧ call.ret < 0 then 1 else 0
  | .sendWouldBlock => if cfg.errorsEnabled ∧ call.send ∧ call.ret = -eagain then 1 else 0
  | .recvWouldBlock => if cfg.errorsEnabled ∧ ¬call.send ∧ call.ret = -eagain then 1 else 0
  | .tcpRecvEof =>
    if cfg.operationsEnabled ∧ ¬call.send ∧ call.protocol = .tcp ∧ call.ret = 0 then 1 else 0
  | .udpRecvTruncated =>
    if cfg.operationsEnabled ∧ ¬call.send ∧ call.protocol = .udp ∧ 0 ≤ call.ret ∧
      call.msgFlags &&& msgTrunc ≠ 0 then 1 else 0

theorem amounts_if (P : Prop) [Decidable P] (w : Tally.Write Counter) (c : Counter) :
    Tally.amounts c (if P then [w] else []) = if P then w.amount c else 0 := by
  split <;> simp

theorem amounts_updateStats (call : SocketCall) (c : Counter) :
    Tally.amounts c (updateStats cfg call) = contribution cfg call c := by
  unfold updateStats
  by_cases hret : call.ret < 0
  · have hnot : ¬0 ≤ call.ret ∧ ¬0 < call.ret ∧ call.ret ≠ 0 := by omega
    cases hsend : call.send <;> cases herr : cfg.errorsEnabled <;> cases c <;>
      simp [hret, hsend, herr, hnot, amounts_if, Tally.Write.amount, contribution]
  · have hnot : 0 ≤ call.ret := by omega
    have heagain : call.ret ≠ -eagain := by
      unfold eagain
      omega
    cases hsend : call.send <;> cases hops : cfg.operationsEnabled <;> cases c <;>
      simp [hret, hsend, hops, hnot, heagain, amounts_if, Tally.Write.amount, contribution]

def hostShare (p : Protocol) (c : Counter) (call : SocketCall) : ℕ :=
  if accounted cfg call ∧ cfg.hostEnabled ∧ call.protocol = p then contribution cfg call c else 0

def processShare (k : ProcessKey) (c : Counter) (call : SocketCall) : ℕ :=
  if accounted cfg call ∧ cfg.processEnabled ∧ call.key = k then contribution cfg call c else 0

/-- What is still to be added to the copy of the host for the call under way. -/
def Pc.owedHost (p : Protocol) (c : Counter) : Pc → ℕ
  | .host call ws => if call.protocol = p then Tally.amounts c ws else 0
  | .hostLoaded call c' _ n ws =>
    if call.protocol = p then (Tally.Write.add c' n).amount c + Tally.amounts c ws else 0
  | _ => 0

def Pc.owedProcess (k : ProcessKey) (c : Counter) : Pc → ℕ
  | .idle => 0
  | .host call _ | .hostLoaded call _ _ _ _ =>
    if cfg.processEnabled ∧ call.key = k then contribution cfg call c else 0
  | .lookup call | .insert call | .lookupAgain call =>
    if call.key = k then contribution cfg call c else 0
  | .shared key ws => if key = k then Tally.amounts c ws else 0

def Cpu.owedHost (p : Protocol) (c : Counter) (cpu : Cpu) : ℕ :=
  cpu.pc.owedHost p c + (cpu.todo.map (hostShare cfg p c)).sum

def Cpu.owedProcess (k : ProcessKey) (c : Counter) (cpu : Cpu) : ℕ :=
  cpu.pc.owedProcess cfg k c + (cpu.todo.map (processShare cfg k c)).sum

@[simp] theorem owedHost_processPc (call : SocketCall) (p : Protocol) (c : Counter) :
    (processPc cfg call).owedHost p c = 0 := by
  unfold processPc
  split <;> rfl

theorem owedProcess_processPc (call : SocketCall) (k : ProcessKey) (c : Counter) :
    (processPc cfg call).owedProcess cfg k c =
      if cfg.processEnabled ∧ call.key = k then contribution cfg call c else 0 := by
  unfold processPc
  cases cfg.processEnabled <;> simp [Pc.owedProcess]

theorem owedHost_startPc (call : SocketCall) (p : Protocol) (c : Counter) :
    (startPc cfg call).owedHost p c = hostShare cfg p c call := by
  unfold startPc hostShare
  cases accounted cfg call with
  | false => simp [Pc.owedHost]
  | true =>
    cases cfg.hostEnabled with
    | false => simp
    | true => simp [Pc.owedHost, amounts_updateStats]

theorem owedProcess_startPc (call : SocketCall) (k : ProcessKey) (c : Counter) :
    (startPc cfg call).owedProcess cfg k c = processShare cfg k c call := by
  unfold startPc processShare
  cases accounted cfg call with
  | false => simp [Pc.owedProcess]
  | true =>
    cases cfg.hostEnabled with
    | false => simp [owedProcess_processPc]
    | true => simp [Pc.owedProcess]

end Shares

/-! ## The map of the processes -/

section Map
variable {m m' : ProcessMap} {k : ProcessKey} {w : Tally.Write Counter} {t : NetStats}

/-- Entries stay, and their counters only grow. -/
structure ProcessMap.Grows (m m' : ProcessMap) : Prop where
  keys : ∀ k ∈ m.keys, k ∈ m'.keys
  stats : ∀ k, (m.stats k).Precedes (m'.stats k)

theorem ProcessMap.Grows.refl (m : ProcessMap) : m.Grows m := ⟨fun _ => id, fun _ => .refl _⟩

theorem stats_of_mem (h : k ∈ m.keys) : m.stats k = m.value k := if_pos h

theorem stats_of_not_mem (h : k ∉ m.keys) : m.stats k = .zero := if_neg h

theorem stats_write (h : k ∈ m.keys) :
    (m.write k w).stats = Function.update m.stats k (w.apply (m.stats k)) := by
  funext j
  by_cases hj : j = k
  · subst hj
    rw [Function.update_self, stats_of_mem h, ProcessMap.stats, if_pos (by exact h)]
    exact Function.update_self ..
  · rw [Function.update_of_ne hj]
    simp only [ProcessMap.stats, ProcessMap.write, Function.update_of_ne hj]

theorem stats_insert : (m.insert k t).stats = Function.update m.stats k t := by
  funext j
  by_cases hj : j = k
  · subst hj
    simp [ProcessMap.stats, ProcessMap.insert]
  · simp [ProcessMap.stats, ProcessMap.insert, hj]

theorem grows_write (h : k ∈ m.keys)
    (hbound : ∀ c, m.stats k (.count c) + w.amount c < 2 ^ 64) : m.Grows (m.write k w) where
  keys _ := id
  stats j := by
    rw [stats_write h]
    by_cases hj : j = k
    · subst hj
      rw [Function.update_self]
      exact Tally.precedes_apply hbound
    · rw [Function.update_of_ne hj]
      exact .refl _

theorem grows_insert (h : k ∉ m.keys) (t : NetStats) : m.Grows (m.insert k t) where
  keys j hj := List.mem_append_left _ hj
  stats j := by
    rw [stats_insert]
    by_cases hj : j = k
    · subst hj
      rw [Function.update_self, stats_of_not_mem h]
      exact Tally.zero_precedes t
    · rw [Function.update_of_ne hj]
      exact .refl _

end Map

/-! ## Steps of one CPU -/

/-- The counters of a copy of the host only grow, and `first_seen_ns` is never set there. -/
structure RowGrows (row row' : Protocol → NetStats) : Prop where
  count : ∀ p c, row p (.count c) ≤ row' p (.count c)
  first : ∀ p, row' p .first = row p .first

theorem RowGrows.refl (row : Protocol → NetStats) : RowGrows row row :=
  ⟨fun _ _ => le_rfl, fun _ => rfl⟩

theorem rowGrows_apply {row : Protocol → NetStats} {p : Protocol} {w : Tally.Write Counter}
    (hbound : ∀ c, row p (.count c) + w.amount c < 2 ^ 64) :
    RowGrows row (Function.update row p (w.apply (row p))) where
  count q c := by
    by_cases hq : q = p
    · subst hq
      rw [Function.update_self, w.apply_count (hbound c)]
      exact Nat.le_add_right _ _
    · rw [Function.update_of_ne hq]
  first q := by
    by_cases hq : q = p
    · subst hq
      rw [Function.update_self, w.apply_first]
    · rw [Function.update_of_ne hq]

/-- What a CPU knows about the maps. -/
def Pc.Ok (row : Protocol → NetStats) (m : ProcessMap) : Pc → Prop
  | .hostLoaded call c old _ _ => old = row call.protocol (.count c)
  | .lookupAgain call => call.key ∈ m.keys
  | .shared key _ => key ∈ m.keys
  | _ => True

theorem Pc.Ok.grow {row : Protocol → NetStats} {m m' : ProcessMap} {pc : Pc} (h : pc.Ok row m)
    (hm : m.Grows m') : pc.Ok row m' := by
  cases pc with
  | lookupAgain call => exact hm.keys _ h
  | shared key ws => exact hm.keys _ h
  | _ => exact h

variable {cfg : Config}

/-- What one step of a CPU comes to: nothing that it owes is lost. -/
structure View.Moves (cfg : Config) (v v' : View) : Prop where
  row : RowGrows v.row v'.row
  map : v.map.Grows v'.map
  ok : v'.cpu.pc.Ok v'.row v'.map
  host : ∀ p c, v'.row p (.count c) + v'.cpu.owedHost cfg p c =
    v.row p (.count c) + v.cpu.owedHost cfg p c
  process : ∀ k c, v'.map.stats k (.count c) + v'.cpu.owedProcess cfg k c =
    v.map.stats k (.count c) + v.cpu.owedProcess cfg k c

section View
variable {v : View}

theorem View.moves_cpu {cpu : Cpu} (hok : cpu.pc.Ok v.row v.map)
    (hhost : ∀ p c, cpu.owedHost cfg p c = v.cpu.owedHost cfg p c)
    (hprocess : ∀ k c, cpu.owedProcess cfg k c = v.cpu.owedProcess cfg k c) :
    Moves cfg v { v with cpu } where
  row := .refl _
  map := .refl _
  ok := hok
  host p c := by rw [hhost]
  process k c := by rw [hprocess]

theorem View.moves_goto {pc : Pc} (hok : pc.Ok v.row v.map)
    (hhost : ∀ p c, pc.owedHost p c = v.cpu.pc.owedHost p c)
    (hprocess : ∀ k c, pc.owedProcess cfg k c = v.cpu.pc.owedProcess cfg k c) :
    Moves cfg v (v.goto pc) :=
  moves_cpu hok (fun p c => congrArg (· + _) (hhost p c))
    (fun k c => congrArg (· + _) (hprocess k c))

/-- A store into the copy of the host, in one piece or after a load. -/
theorem View.moves_host {call : SocketCall} {w : Tally.Write Counter}
    {ws : List (Tally.Write Counter)}
    (hhost : ∀ p c, v.cpu.pc.owedHost p c =
      if call.protocol = p then w.amount c + Tally.amounts c ws else 0)
    (hprocess : ∀ k c, v.cpu.pc.owedProcess cfg k c = (Pc.host call ws).owedProcess cfg k c)
    (hbound : ∀ p c, v.row p (.count c) + v.cpu.owedHost cfg p c < 2 ^ 64) :
    Moves cfg v ((v.storeRow call.protocol (w.apply (v.row call.protocol))).goto
      (.host call ws)) := by
  have hrow : ∀ c, v.row call.protocol (.count c) + w.amount c < 2 ^ 64 := by
    intro c
    have hc := hbound call.protocol c
    rw [Cpu.owedHost, hhost, if_pos rfl] at hc
    omega
  refine ⟨rowGrows_apply hrow, .refl _, trivial, fun p c => ?_, fun k c => ?_⟩
  · change Function.update v.row call.protocol (w.apply (v.row call.protocol)) p (.count c) +
      ((Pc.host call ws).owedHost p c + _) = v.row p (.count c) + (v.cpu.pc.owedHost p c + _)
    rw [hhost, Pc.owedHost]
    by_cases hp : call.protocol = p
    · subst hp
      rw [Function.update_self, w.apply_count (hrow c), if_pos rfl, if_pos rfl]
      change _ + (_ + (v.cpu.todo.map (hostShare cfg call.protocol c)).sum) = _
      omega
    · rw [Function.update_of_ne (Ne.symm hp), if_neg hp, if_neg hp]
      rfl
  · exact congrArg (v.map.stats k (.count c) + ·) (congrArg (· + _) (hprocess k c).symm)

theorem View.moves_shared {key : ProcessKey} {w : Tally.Write Counter}
    {ws : List (Tally.Write Counter)} (hpc : v.cpu.pc = .shared key (w :: ws))
    (hkey : key ∈ v.map.keys)
    (hbound : ∀ k c, v.map.stats k (.count c) + v.cpu.owedProcess cfg k c < 2 ^ 64) :
    Moves cfg v ({ v with map := v.map.write key w }.goto (.shared key ws)) := by
  have hkeyBound : ∀ c, v.map.stats key (.count c) + w.amount c < 2 ^ 64 := by
    intro c
    have hc := hbound key c
    rw [Cpu.owedProcess, hpc, Pc.owedProcess, if_pos rfl, Tally.amounts_cons] at hc
    omega
  refine ⟨.refl _, grows_write hkey hkeyBound, hkey, fun p c => ?_, fun k c => ?_⟩
  · unfold Cpu.owedHost
    rw [hpc]
    rfl
  · change (v.map.write key w).stats k (.count c) + ((Pc.shared key ws).owedProcess cfg k c + _) = _
    rw [stats_write hkey, Cpu.owedProcess, hpc, Pc.owedProcess, Pc.owedProcess]
    by_cases hk : key = k
    · subst hk
      rw [Function.update_self, w.apply_count (hkeyBound c), if_pos rfl, if_pos rfl,
        Tally.amounts_cons]
      change _ + (_ + (v.cpu.todo.map (processShare cfg key c)).sum) = _
      omega
    · rw [Function.update_of_ne (Ne.symm hk), if_neg hk, if_neg hk]
      rfl

theorem View.moves_insert {call : SocketCall} (hpc : v.cpu.pc = .insert call)
    (hkey : call.key ∉ v.map.keys)
    (hbound : ∀ k c, v.map.stats k (.count c) + v.cpu.owedProcess cfg k c < 2 ^ 64) :
    Moves cfg v ({ v with map := v.map.insert call.key (initialStats cfg call) }.goto .idle) := by
  refine ⟨.refl _, grows_insert hkey _, trivial, fun p c => ?_, fun k c => ?_⟩
  · unfold Cpu.owedHost
    rw [hpc]
    rfl
  · change (v.map.insert call.key (initialStats cfg call)).stats k (.count c) + (0 + _) = _
    rw [stats_insert, Cpu.owedProcess, hpc, Pc.owedProcess]
    by_cases hk : call.key = k
    · subst hk
      have hc := hbound call.key c
      rw [Cpu.owedProcess, hpc, Pc.owedProcess, if_pos rfl, ← amounts_updateStats] at hc
      have hinitial : initialStats cfg call (.count c) = 0 + contribution cfg call c := by
        rw [← amounts_updateStats]
        refine Tally.foldl_apply_count ?_
        change 0 + Tally.amounts c (updateStats cfg call) < 2 ^ 64
        omega
      rw [Function.update_self, hinitial, if_pos rfl, stats_of_not_mem hkey]
      change _ + (0 + (v.cpu.todo.map (processShare cfg call.key c)).sum) = 0 + _
      omega
    · rw [Function.update_of_ne (Ne.symm hk), if_neg hk]
      rfl

theorem processPc_ok (call : SocketCall) (row : Protocol → NetStats) (m : ProcessMap) :
    (processPc cfg call).Ok row m := by
  unfold processPc
  split <;> trivial

theorem startPc_ok (call : SocketCall) (row : Protocol → NetStats) (m : ProcessMap) :
    (startPc cfg call).Ok row m := by
  unfold startPc
  split
  · trivial
  · split
    · trivial
    · exact processPc_ok call row m

/-- From a lookup that finds the entry on, the whole call is owed to it. -/
theorem owedProcess_shared (call : SocketCall) (k : ProcessKey) (c : Counter) :
    (Pc.shared call.key (updateStats cfg call)).owedProcess cfg k c =
      (Pc.lookup call).owedProcess cfg k c := by
  change (if call.key = k then Tally.amounts c (updateStats cfg call) else 0) = _
  rw [amounts_updateStats]
  rfl

theorem View.step_moves (hok : v.cpu.pc.Ok v.row v.map)
    (hhost : ∀ p c, v.row p (.count c) + v.cpu.owedHost cfg p c < 2 ^ 64)
    (hprocess : ∀ k c, v.map.stats k (.count c) + v.cpu.owedProcess cfg k c < 2 ^ 64) :
    Moves cfg v (v.step cfg) := by
  obtain ⟨row, map, todo, pc⟩ := v
  cases pc with
  | idle =>
    cases todo with
    | nil => exact moves_cpu trivial (fun _ _ => rfl) (fun _ _ => rfl)
    | cons call todo =>
      refine moves_cpu (startPc_ok call row map) (fun p c => ?_) (fun k c => ?_)
      · change (startPc cfg call).owedHost p c + _ = 0 + ((call :: todo).map _).sum
        rw [owedHost_startPc, List.map_cons, List.sum_cons, Nat.zero_add]
      · change (startPc cfg call).owedProcess cfg k c + _ = 0 + ((call :: todo).map _).sum
        rw [owedProcess_startPc, List.map_cons, List.sum_cons, Nat.zero_add]
  | host call ws =>
    cases ws with
    | nil =>
      refine moves_goto (processPc_ok call row map) (fun p c => ?_) (owedProcess_processPc cfg call)
      exact (owedHost_processPc cfg call p c).trans (ite_self 0).symm
    | cons w ws =>
      cases w with
      | seen now => exact moves_host (fun _ _ => rfl) (fun _ _ => rfl) hhost
      | add c n => exact moves_goto rfl (fun _ _ => rfl) (fun _ _ => rfl)
  | hostLoaded call c old n ws =>
    have hold : old = row call.protocol (.count c) := hok
    subst hold
    exact moves_host (w := .add c n) (fun _ _ => rfl) (fun _ _ => rfl) hhost
  | lookup call =>
    change Moves cfg _ (if call.key ∈ map.keys then _ else _)
    split
    · exact moves_goto ‹_› (fun _ _ => rfl) (owedProcess_shared call)
    · exact moves_goto trivial (fun _ _ => rfl) (fun _ _ => rfl)
  | insert call =>
    change Moves cfg _ (if call.key ∈ map.keys then _ else _)
    split
    · exact moves_goto ‹_› (fun _ _ => rfl) (fun _ _ => rfl)
    · exact moves_insert rfl ‹_› hprocess
  | lookupAgain call =>
    change Moves cfg _ (if call.key ∈ map.keys then _ else _)
    rw [if_pos (by exact hok)]
    exact moves_goto hok (fun _ _ => rfl) (owedProcess_shared call)
  | shared key ws =>
    cases ws with
    | nil => exact moves_goto trivial (fun _ _ => rfl) (fun k c => (ite_self 0).symm)
    | cons w ws => exact moves_shared rfl hok hprocess

end View

end Manytrace.Bpf.NetTrack
