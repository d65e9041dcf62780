import Manytrace.Bpf.NetBalance

/-! What a sampling pass reads lies between what the maps held when it began and what they hold
now, and what is emitted adds up to what was read last. -/
namespace Manytrace.Bpf.NetTrack
open Manytrace.Core

section Host
variable {n : ℕ}

theorem accumulate_foldl_count (rows : List NetStats) (total : NetStats) (c : Counter)
    (h : total (.count c) + (rows.map fun t => t (.count c)).sum < 2 ^ 64) :
    rows.foldl accumulate total (.count c) =
      total (.count c) + (rows.map fun t => t (.count c)).sum := by
  induction rows generalizing total with
  | nil => rfl
  | cons t rows ih =>
    rw [List.map_cons, List.sum_cons] at h ⊢
    have hadd : accumulate total t (.count c) = total (.count c) + t (.count c) :=
      Nat.min_eq_left (by omega)
    rw [List.foldl_cons, ih _ (by omega), hadd, Nat.add_assoc]

theorem accumulate_foldl_first (rows : List NetStats) (h : ∀ t ∈ rows, t .first = 0) :
    ∀ total : NetStats, total .first = 0 → rows.foldl accumulate total .first = 0 := by
  induction rows with
  | nil => exact fun _ => id
  | cons t rows ih =>
    intro total htotal
    have ht : t .first = 0 := h t List.mem_cons_self
    refine ih (fun t' ht' => h t' (List.mem_cons_of_mem t ht')) (accumulate total t) ?_
    simp [accumulate, htotal, ht]

theorem hostStats_count {got : Fin n × Word Counter → ℕ} {c : Counter}
    (h : ∑ i, got (i, .count c) < 2 ^ 64) : hostStats got (.count c) = ∑ i, got (i, .count c) := by
  have hsum : ∑ i, got (i, .count c) =
      (((List.finRange n).map fun i w => got (i, w)).map fun t : NetStats => t (.count c)).sum := by
    rw [Fin.sum_univ_def, List.map_map]
    rfl
  have hfold := accumulate_foldl_count ((List.finRange n).map fun i w => got (i, w)) .zero c
  rw [← hsum, List.foldl_map] at hfold
  exact (hfold (by simpa [Tally.zero] using h)).trans (Nat.zero_add _)

theorem hostStats_first {got : Fin n × Word Counter → ℕ} (h : ∀ i, got (i, .first) = 0) :
    hostStats got .first = 0 := by
  have hfold := accumulate_foldl_first ((List.finRange n).map fun i w => got (i, w))
    (by simpa using h) .zero rfl
  rwa [List.foldl_map] at hfold

end Host

/-! ## What a pass has read -/

section Reader
variable {n : ℕ}

def Maps.words (m : Maps n) (p : Protocol) (w : Fin n × Word Counter) : ℕ :=
  m.globalStats w.1 p w.2

def State.previous (s : State n) (k : ProcessKey) : NetStats := (s.processPrevious k).getD .zero

/-- Nothing has been emitted in this pass: the values before were read no later than `base`. -/
def State.HostBehind (base : Maps n) (s : State n) (p : Protocol) : Prop :=
  ∀ c, s.globalPrevious p (.count c) ≤ ∑ i, base.globalStats i p (.count c)

def State.ProcessBehind (base : Maps n) (s : State n) (k : ProcessKey) : Prop :=
  (s.previous k).Precedes (base.processStats.stats k)

/-- The values a batch has collected since `base`. -/
structure Collected (base m : Maps n) (values : List (ProcessKey × NetStats)) : Prop where
  nodup : (values.map Prod.fst).Nodup
  since : ∀ x ∈ values, (base.processStats.stats x.1).Precedes x.2
  before : ∀ x ∈ values, x.2.Precedes (m.processStats.stats x.1)

/-- What a pass that began at `base` has read so far. -/
def Reader.Sound (base : Maps n) (s : State n) : Reader n → Prop
  | .idle => True
  | .host p rest _ copy =>
    (p :: rest).Nodup ∧ (∀ q ∈ p :: rest, s.HostBehind base q) ∧
      copy.Within (fun w => w.2 ≠ .last) (base.words p) (s.maps.words p) ∧
      ∀ k, s.ProcessBehind base k
  | .hostTotal _ => ∀ k, s.ProcessBehind base k
  | .listing _ values => Collected base s.maps values ∧ ∀ k, s.ProcessBehind base k
  | .copying _ values k copy =>
    Collected base s.maps values ∧ k ∉ values.map Prod.fst ∧ k ∈ s.maps.processStats.keys ∧
      Tally.Copying (base.processStats.stats k) (s.maps.processStats.stats k) copy ∧
      ∀ k, s.ProcessBehind base k
  | .emitting rest =>
    Collected base s.maps rest ∧ ∀ x ∈ rest, s.ProcessBehind base x.1

structure State.Sound (base : Maps n) (s : State n) : Prop where
  grows : base.Grows s.maps
  first : ∀ i p, s.maps.globalStats i p .first = 0
  previousFirst : ∀ p, s.globalPrevious p .first = 0
  host : ∀ p, s.HostBehind s.maps p
  process : ∀ k, s.ProcessBehind s.maps k
  reader : s.reader.Sound base s

variable {cfg : Config} {base : Maps n} {s s' : State n}

theorem sound_start {calls : Fin n → List SocketCall} :
    (State.start calls).Sound (State.start calls).maps where
  grows := .refl _
  first _ _ := rfl
  previousFirst _ := rfl
  host _ _ := Nat.zero_le _
  process _ := .refl _
  reader := trivial

theorem State.Sound.withReader (h : s.Sound base) {r : Reader n} (hr : r.Sound base s) :
    { s with reader := r }.Sound base :=
  ⟨h.grows, h.first, h.previousFirst, h.host, h.process, by cases r <;> exact hr⟩

/-! ### A step of a CPU -/

theorem words_le {m m' : Maps n} (h : m.Grows m') (p : Protocol) (w : Fin n × Word Counter)
    (hw : w.2 ≠ .last) : m.words p w ≤ m'.words p w := by
  obtain ⟨i, _ | _ | _⟩ := w
  · exact (h.row i).count p _
  · exact ((h.row i).first p).ge
  · exact absurd rfl hw

theorem Collected.grow {m m' : Maps n} {values : List (ProcessKey × NetStats)}
    (h : Collected base m values) (hm : m.Grows m') : Collected base m' values :=
  ⟨h.nodup, h.since, fun x hx => (h.before x hx).trans (hm.process.stats x.1)⟩

theorem Collected.concat {m : Maps n} {values : List (ProcessKey × NetStats)} {k : ProcessKey}
    {t : NetStats} (h : Collected base m values) (hk : k ∉ values.map Prod.fst)
    (hsince : (base.processStats.stats k).Precedes t)
    (hbefore : t.Precedes (m.processStats.stats k)) : Collected base m (values ++ [(k, t)]) where
  nodup := by
    rw [List.map_append, List.map_singleton]
    exact List.nodup_append_comm.mp (List.nodup_cons.mpr ⟨hk, h.nodup⟩)
  since x hx := by
    rcases List.mem_append.mp hx with hx | hx
    · exact h.since x hx
    · rw [List.mem_singleton.mp hx]
      exact hsince
  before x hx := by
    rcases List.mem_append.mp hx with hx | hx
    · exact h.before x hx
    · rw [List.mem_singleton.mp hx]
      exact hbefore

theorem State.Sound.grow {maps : Maps n} {cpu : Fin n → Cpu} (h : s.Sound base)
    (hm : s.maps.Grows maps) : { s with maps, cpu }.Sound base where
  grows := h.grows.trans hm
  first i p := ((hm.row i).first p).trans (h.first i p)
  previousFirst := h.previousFirst
  host p c := (h.host p c).trans (Finset.sum_le_sum fun i _ => (hm.row i).count p c)
  process k := (h.process k).trans (hm.process.stats k)
  reader := by
    have hreader := h.reader
    obtain ⟨smaps, scpu, gprev, pprev, reader⟩ := s
    cases reader with
    | idle => trivial
    | host p rest hostDelta copy =>
      obtain ⟨hnodup, hbehind, hwithin, hprocess⟩ := hreader
      exact ⟨hnodup, hbehind, hwithin.grow (words_le hm p), hprocess⟩
    | hostTotal hostDelta => exact hreader
    | listing due values => exact ⟨hreader.1.grow hm, hreader.2⟩
    | copying due values k copy =>
      obtain ⟨hvalues, hnot, hkey, hcopy, hprocess⟩ := hreader
      exact ⟨hvalues.grow hm, hnot, hm.process.keys k hkey, hcopy.grow (hm.process.stats k),
        hprocess⟩
    | emitting rest => exact ⟨hreader.1.grow hm, hreader.2⟩

/-! ### Steps of the pass -/

theorem mem_hostOrder (w : Fin n × Word Counter) : w ∈ hostOrder n := by
  obtain ⟨i, w⟩ := w
  refine List.mem_flatMap.mpr ⟨i, List.mem_finRange i, List.mem_map_of_mem ?_⟩
  rcases w with ⟨c⟩ | _ | _
  · cases c <;> decide
  · decide
  · decide

theorem Counter.mem_all (c : Counter) : c ∈ Counter.all := by
  cases c <;> decide

theorem startProtocols_sound (hostDelta : NetStats) {rest : List Protocol} (hnodup : rest.Nodup)
    (hhost : ∀ q ∈ rest, s.HostBehind base q) (hprocess : ∀ k, s.ProcessBehind base k) :
    (startProtocols cfg hostDelta rest).Sound base s := by
  induction rest with
  | nil => exact hprocess
  | cons p rest ih =>
    unfold startProtocols
    split
    · exact ⟨hnodup, hhost, Copy.within_start fun w _ => mem_hostOrder w, hprocess⟩
    · exact ih hnodup.of_cons fun q hq => hhost q (List.mem_cons_of_mem p hq)

theorem startProcesses_sound (keys : List ProcessKey) (hprocess : ∀ k, s.ProcessBehind base k) :
    (startProcesses cfg keys).Sound base s := by
  unfold startProcesses
  split
  · exact ⟨⟨List.nodup_nil, by simp, by simp⟩, hprocess⟩
  · trivial

/-- A pass that begins now has everything behind it. -/
theorem State.Sound.startPass (h : s.Sound base) :
    { s with reader := startPass cfg s.maps.processStats.keys }.Sound s.maps := by
  refine ⟨.refl _, h.first, h.previousFirst, h.host, h.process, ?_⟩
  change (NetTrack.startPass cfg s.maps.processStats.keys).Sound s.maps _
  unfold NetTrack.startPass
  split
  · exact startProtocols_sound .zero (by decide) (fun q _ => h.host q) h.process
  · exact startProcesses_sound _ h.process

theorem State.Sound.copyKey (h : s.Sound base) (k : ProcessKey) : (s.copyKey k).Sound base := by
  have hreader := h.reader
  unfold State.copyKey
  split
  · rename_i due values heq
    rw [heq] at hreader
    split
    · rename_i hk
      exact h.withReader ⟨hreader.1, hk.2, hk.1,
        Tally.copying_start Counter.mem_all (h.grows.process.stats k), hreader.2⟩
    · exact h
  · exact h

theorem State.Sound.fail (h : s.Sound base) : s.fail.Sound base := by
  unfold State.fail
  split
  · exact h.withReader trivial
  · exact h.withReader trivial
  · exact h.withReader trivial
  · exact h

/-- The value of a host that has been read completely. -/
theorem hostStats_between {p : Protocol} {rest : List Protocol} {hostDelta : NetStats}
    {got : Fin n × Word Counter → ℕ} (h : s.Sound base)
    (hreader : s.reader = .host p rest hostDelta ⟨got, []⟩)
    (hbound : ∀ c, ∑ i, s.maps.globalStats i p (.count c) < 2 ^ 64) :
    hostStats got .first = 0 ∧
      (∀ c, ∑ i, base.globalStats i p (.count c) ≤ hostStats got (.count c)) ∧
      ∀ c, hostStats got (.count c) ≤ ∑ i, s.maps.globalStats i p (.count c) := by
  have hsound := h.reader
  rw [hreader] at hsound
  obtain ⟨-, -, hwithin, -⟩ := hsound
  have hle : ∀ c, ∑ i, got (i, .count c) ≤ ∑ i, s.maps.globalStats i p (.count c) :=
    fun c => Finset.sum_le_sum fun i _ => hwithin.le (i, .count c) (by simp)
  have hcount : ∀ c, hostStats got (.count c) = ∑ i, got (i, .count c) :=
    fun c => hostStats_count ((hle c).trans_lt (hbound c))
  refine ⟨hostStats_first fun i => ?_, fun c => ?_, fun c => ?_⟩
  · have hfirst : got (i, .first) ≤ s.maps.globalStats i p .first :=
      hwithin.le (i, .first) (by simp)
    rw [h.first] at hfirst
    exact Nat.le_zero.mp hfirst
  · rw [hcount]
    exact Finset.sum_le_sum fun i _ => hwithin.ge (i, .count c) (by simp) (by simp)
  · rw [hcount]
    exact hle c

end Reader

/-! ## What has been emitted -/

/-- What was emitted for a counter in a scope, in all passes. -/
def emitted (scope : Scope) (c : Counter) (es : List Emission) : ℕ :=
  (es.map fun e => if e.scope = scope then e.stats (.count c) else 0).sum

@[simp] theorem emitted_nil (scope : Scope) (c : Counter) : emitted scope c [] = 0 := rfl

theorem emitted_concat (scope : Scope) (c : Counter) (es : List Emission) (e : Emission) :
    emitted scope c (es ++ [e]) =
      emitted scope c es + if e.scope = scope then e.stats (.count c) else 0 := by
  simp [emitted]

section Emitted
variable {n : ℕ} {cfg : Config} {accepts : Emission → Bool} {base : Maps n} {s : State n}
  {es : List Emission}

structure State.Emitted (s : State n) (es : List Emission) : Prop where
  host : ∀ p c, emitted (.host p) c es = s.globalPrevious p (.count c)
  process : ∀ k c, emitted (.process k) c es = s.previous k (.count c)

/-- A pass since `base`, and all that has been emitted up to now. -/
structure State.Samples (base : Maps n) (s : State n) (es : List Emission) : Prop where
  sound : s.Sound base
  emitted : s.Emitted es

theorem State.Samples.withReader (h : s.Samples base es) {r : Reader n} (hr : r.Sound base s) :
    { s with reader := r }.Samples base (es ++ []) := by
  rw [List.append_nil]
  exact ⟨h.sound.withReader hr, ⟨h.emitted.host, h.emitted.process⟩⟩

theorem State.Samples.keep (h : s.Samples base es) : s.Samples base (es ++ []) := by
  rwa [List.append_nil]

theorem emit_of_accepts (haccepts : ∀ e, accepts e = true) (e : Emission) :
    emit accepts e = [e] := if_pos (haccepts e)

/-- The sum over both protocols is emitted besides and changes nothing. -/
theorem State.Samples.withTotal (haccepts : ∀ e, accepts e = true) (h : s.Samples base es)
    (hostDelta : NetStats) {r : Reader n} (hr : r.Sound base s) :
    { s with reader := r }.Samples base
      (es ++ if cfg.bytesEnabled then emit accepts ⟨.hostTotal, hostDelta⟩ else []) := by
  cases cfg.bytesEnabled with
  | false => exact h.withReader hr
  | true =>
    rw [if_pos rfl, emit_of_accepts haccepts]
    refine ⟨h.sound.withReader hr, ⟨fun p c => ?_, fun k c => ?_⟩⟩
    · rw [emitted_concat, h.emitted.host, if_neg (by simp), Nat.add_zero]
    · rw [emitted_concat, h.emitted.process, if_neg (by simp), Nat.add_zero]
      rfl

theorem State.Samples.sampleHost {p : Protocol} {rest : List Protocol} {hostDelta : NetStats}
    {got : Fin n × Word Counter → ℕ} (haccepts : ∀ e, accepts e = true) (h : s.Samples base es)
    (hreader : s.reader = .host p rest hostDelta ⟨got, []⟩)
    (hbound : ∀ c, ∑ i, s.maps.globalStats i p (.count c) < 2 ^ 64) :
    (s.sampleHost cfg accepts p rest hostDelta (hostStats got)).1.Samples base
      (es ++ (s.sampleHost cfg accepts p rest hostDelta (hostStats got)).2) := by
  obtain ⟨hfirst, hsince, hbefore⟩ := hostStats_between h.sound hreader hbound
  have hsound := h.sound.reader
  rw [hreader] at hsound
  obtain ⟨hnodup, hbehind, -, hprocess⟩ := hsound
  have hprevious : ((some (s.globalPrevious p)).getD .zero).Precedes (hostStats got) := by
    refine ⟨fun c => (hbehind p List.mem_cons_self c).trans (hsince c), .inl ?_⟩
    exact (h.sound.previousFirst p).trans hfirst.symm
  unfold State.sampleHost
  dsimp only
  rw [emit_of_accepts haccepts, if_pos (haccepts _)]
  have hupdate : ∀ P : Protocol → NetStats → Prop, P p (hostStats got) →
      (∀ q, q ≠ p → P q (s.globalPrevious q)) →
      ∀ q, P q (Function.update s.globalPrevious p (hostStats got) q) :=
    fun P hp hother => (Function.forall_update_iff _ P).mpr ⟨hp, hother⟩
  refine ⟨⟨h.sound.grows, h.sound.first, ?_, ?_, h.sound.process, ?_⟩, ⟨?_, fun k c => ?_⟩⟩
  · exact hupdate (fun _ t => t .first = 0) hfirst fun q _ => h.sound.previousFirst q
  · exact hupdate (fun q t => ∀ c, t (.count c) ≤ ∑ i, s.maps.globalStats i q (.count c)) hbefore
      fun q _ => h.sound.host q
  · refine startProtocols_sound _ hnodup.of_cons (fun q hq c => ?_) hprocess
    have hne : q ≠ p := fun heq => (List.nodup_cons.mp hnodup).1 (heq ▸ hq)
    change Function.update s.globalPrevious p (hostStats got) q (.count c) ≤ _
    rw [Function.update_of_ne hne]
    exact hbehind q (List.mem_cons_of_mem p hq) c
  · refine hupdate (fun q t => ∀ c, NetTrack.emitted (.host q) c _ = t (.count c))
      (fun c => ?_) (fun q hq c => ?_)
    · rw [emitted_concat, h.emitted.host, if_pos rfl, Nat.add_comm]
      exact Tally.delta_count_add hprevious c
    · rw [emitted_concat, h.emitted.host, if_neg (by simpa using Ne.symm hq), Nat.add_zero]
  · rw [emitted_concat, h.emitted.process, if_neg (by simp), Nat.add_zero]
    rfl

theorem State.Samples.sampleProcess {k : ProcessKey} {current : NetStats}
    {rest : List (ProcessKey × NetStats)} (haccepts : ∀ e, accepts e = true)
    (h : s.Samples base es) (hreader : s.reader = .emitting ((k, current) :: rest)) :
    (s.sampleProcess accepts k current rest).1.Samples base
      (es ++ (s.sampleProcess accepts k current rest).2) := by
  have hsound := h.sound.reader
  rw [hreader] at hsound
  obtain ⟨⟨hnodup, hsince, hbefore⟩, hbehind⟩ := hsound
  have hprevious : (s.previous k).Precedes current :=
    (hbehind _ List.mem_cons_self).trans (hsince _ List.mem_cons_self)
  unfold State.sampleProcess
  dsimp only
  rw [emit_of_accepts haccepts, if_pos (haccepts _)]
  have hself : (Function.update s.processPrevious k (some current) k).getD .zero = current := by
    rw [Function.update_self]
    rfl
  have hother : ∀ j, j ≠ k →
      (Function.update s.processPrevious k (some current) j).getD .zero = s.previous j := by
    intro j hj
    rw [Function.update_of_ne hj]
    rfl
  refine ⟨⟨h.sound.grows, h.sound.first, h.sound.previousFirst, h.sound.host, fun j => ?_, ?_⟩,
    ⟨fun q c => ?_, fun j c => ?_⟩⟩
  · change ((Function.update s.processPrevious k (some current) j).getD .zero).Precedes _
    by_cases hj : j = k
    · subst hj
      rw [hself]
      exact hbefore _ List.mem_cons_self
    · rw [hother j hj]
      exact h.sound.process j
  · refine ⟨⟨hnodup.of_cons, fun x hx => hsince x (List.mem_cons_of_mem _ hx),
      fun x hx => hbefore x (List.mem_cons_of_mem _ hx)⟩, fun x hx => ?_⟩
    have hne : x.1 ≠ k := fun heq =>
      (List.nodup_cons.mp hnodup).1 (List.mem_map.mpr ⟨x, hx, heq⟩)
    change ((Function.update s.processPrevious k (some current) x.1).getD .zero).Precedes _
    rw [hother x.1 hne]
    exact hbehind x (List.mem_cons_of_mem _ hx)
  · rw [emitted_concat, h.emitted.host, if_neg (by simp), Nat.add_zero]
  · change _ = (Function.update s.processPrevious k (some current) j).getD .zero (.count c)
    rw [emitted_concat, h.emitted.process]
    by_cases hj : j = k
    · subst hj
      rw [hself, if_pos rfl, Nat.add_comm]
      exact Tally.delta_count_add hprevious c
    · rw [hother j hj, if_neg (by simpa using Ne.symm hj), Nat.add_zero]

theorem State.Samples.read (haccepts : ∀ e, accepts e = true) (h : s.Samples base es)
    (hbound : ∀ p c, ∑ i, s.maps.globalStats i p (.count c) < 2 ^ 64) :
    (s.read cfg accepts).1.Samples base (es ++ (s.read cfg accepts).2) := by
  have hsound := h.sound.reader
  obtain ⟨maps, cpu, globalPrevious, processPrevious, reader⟩ := s
  cases reader with
  | idle => exact h.keep
  | host p rest hostDelta copy =>
    obtain ⟨got, left⟩ := copy
    cases left with
    | nil => exact h.sampleHost haccepts rfl (hbound p)
    | cons w left =>
      obtain ⟨hnodup, hbehind, hwithin, hprocess⟩ := hsound
      exact h.withReader ⟨hnodup, hbehind, hwithin.read (words_le h.sound.grows p), hprocess⟩
  | hostTotal hostDelta => exact h.withTotal haccepts hostDelta (startProcesses_sound _ hsound)
  | listing due values =>
    unfold State.read
    dsimp only
    by_cases hall : ∀ k ∈ due, k ∈ values.map Prod.fst
    · rw [if_pos hall]
      exact h.withReader (r := .emitting values)
        ⟨hsound.1, fun x _ => hsound.2 x.1⟩
    · rw [if_neg hall]
      exact h.keep
  | copying due values k copy =>
    obtain ⟨hvalues, hnot, hkey, hcopy, hprocess⟩ := hsound
    obtain ⟨got, left⟩ := copy
    cases left with
    | nil =>
      obtain ⟨hsince, hbefore⟩ := hcopy.finished rfl
      exact h.withReader ⟨hvalues.concat hnot hsince hbefore, hprocess⟩
    | cons w left =>
      have hvalue : maps.processStats.stats k = maps.processStats.value k := stats_of_mem hkey
      have hread : Tally.Copying (base.processStats.stats k) (maps.processStats.stats k)
          (Copy.read (maps.processStats.value k) ⟨got, w :: left⟩) := by
        rw [← hvalue]
        exact hcopy.read
      exact h.withReader ⟨hvalues, hnot, hkey, hread, hprocess⟩
  | emitting rest =>
    cases rest with
    | nil => exact h.withReader trivial
    | cons x rest => exact h.sampleProcess haccepts rfl

end Emitted

end Manytrace.Bpf.NetTrack
