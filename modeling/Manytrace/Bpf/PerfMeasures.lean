import Manytrace.Bpf.PerfDeltas
import Manytrace.Bpf.PerfSetup

/-! Which event a series is computed from: the list is expanded, each event is opened with
parameters narrower than what is configured, and the slot of an event is computed twice. -/
namespace Manytrace.Bpf.PerfCounter
open Manytrace.Core Manytrace.Protocol

/-! ## Installing events -/

/-- An event is opened and put into a slot. -/
def Kernel.install (k : Kernel) (e : PerfEvent × ℕ) : Kernel :=
  { k with
    events := k.events ++ [e.1]
    slots := Function.update k.slots e.2 (some k.events.length) }

section Install
variable {k k' : Kernel} {es : List (PerfEvent × ℕ)}

theorem events_install (k : Kernel) (es : List (PerfEvent × ℕ)) :
    (es.foldl Kernel.install k).events = k.events ++ es.map Prod.fst := by
  induction es generalizing k with
  | nil => exact (List.append_nil _).symm
  | cons e es ih =>
    rw [List.foldl_cons, ih, List.map_cons]
    simp [Kernel.install]

theorem maxEntries_install (k : Kernel) (es : List (PerfEvent × ℕ)) :
    (es.foldl Kernel.install k).maxEntries = k.maxEntries := by
  induction es generalizing k with
  | nil => rfl
  | cons e es ih => exact ih _

theorem slots_install_of_notMem {key : ℕ} (h : key ∉ es.map Prod.snd) (k : Kernel) :
    (es.foldl Kernel.install k).slots key = k.slots key := by
  induction es generalizing k with
  | nil => rfl
  | cons e es ih =>
    rw [List.map_cons, List.mem_cons, not_or] at h
    rw [List.foldl_cons, ih h.2]
    exact Function.update_of_ne h.1 _ _

/-- An event is found in its slot if no other takes the slot. -/
theorem slots_install_of_mem {e : PerfEvent} {key : ℕ} (hnodup : (es.map Prod.snd).Nodup)
    (hmem : (e, key) ∈ es) (k : Kernel) :
    ∃ fd, (es.foldl Kernel.install k).slots key = some fd ∧
      (es.foldl Kernel.install k).events[fd]? = some e := by
  induction es generalizing k with
  | nil => cases hmem
  | cons e' es ih =>
    rw [List.map_cons, List.nodup_cons] at hnodup
    rcases List.mem_cons.mp hmem with rfl | hrest
    · refine ⟨k.events.length, ?_, ?_⟩
      · rw [List.foldl_cons, slots_install_of_notMem hnodup.1]
        exact Function.update_self _ _ _
      · rw [List.foldl_cons, events_install]
        simp [Kernel.install]
    · exact ih hnodup.2 hrest _

end Install

/-! ## What the set-up leaves -/

def CounterConfig.typeConfig (counter : CounterConfig) : UInt32 × UInt64 :=
  match counter.toPerfConfig with
  | .ok (_, type, config) => (type, config)
  | .error _ => (0, 0)

/-- The event that is opened for a counter. -/
def openedEvent (counter : CounterConfig) (cpu : ℕ) : PerfEvent :=
  ⟨counter.typeConfig.1, counter.typeConfig.2.toUInt32.toUInt64, .period 0, cpu % 2 ^ 32⟩

def slotKey (countersLen cpu i : ℕ) : ℕ := (cpu * countersLen + i) % 2 ^ 32

def installs (nprocs countersLen : ℕ) (y : CounterConfig × ℕ) : List (PerfEvent × ℕ) :=
  (List.range nprocs).map fun cpu => (openedEvent y.1 cpu, slotKey countersLen cpu y.2)

section SetUp
variable {host : Host} {k k' : Kernel} {n : ℕ}

/-- A call that does not fail changes nothing that is modelled. -/
theorem attempt_bind_ok {call : Call} {error : String → BpfError} {β : Type}
    {f : Unit → SetupOp β} {b : β} (h : (attempt host call error >>= f) k = (.ok b, k')) :
    f () k = (.ok b, k') := by
  unfold attempt at h
  cases hf : host.failure call with
  | none =>
    rw [hf] at h
    exact h
  | some e =>
    rw [hf] at h
    cases h

theorem perfEventOpen_ok {call : Call} {error : String → BpfError} {type config : UInt32}
    {sampling : Sampling} {cpu fd : ℕ}
    (h : perfEventOpen host call error type config sampling cpu k = (.ok fd, k')) :
    cpu % 2 ^ 32 < 2 ^ 31 ∧ fd = k.events.length ∧
      k' = { k with events := k.events ++ [⟨type, config.toUInt64, sampling, cpu % 2 ^ 32⟩] } := by
  unfold perfEventOpen at h
  replace h := attempt_bind_ok h
  split_ifs at h with hcpu
  · cases h
  · cases h
    exact ⟨Nat.lt_of_not_le hcpu, rfl, rfl⟩

theorem updateSlot_ok {i cpu fd : ℕ} {u : Unit}
    (h : updateSlot host n i cpu fd k = (.ok u, k')) :
    slotKey n cpu i < k.maxEntries ∧
      k' = { k with slots := Function.update k.slots (slotKey n cpu i) (some fd) } := by
  unfold updateSlot at h
  replace h := attempt_bind_ok h
  rw [Op.get_bind] at h
  split_ifs at h with hkey
  · cases h
    exact ⟨hkey, rfl⟩
  · cases h

theorem openCounter_ok {counter : CounterConfig} {name : String} {type : UInt32}
    {config : UInt64} (hcounter : counter.typeConfig = (type, config)) {i : ℕ} {cpus : List ℕ}
    {u : Unit} (h : openCounter host n i name type config cpus k = (.ok u, k')) :
    k' = (cpus.map fun cpu => (openedEvent counter cpu, slotKey n cpu i)).foldl
        Kernel.install k ∧
      ∀ cpu ∈ cpus, cpu % 2 ^ 32 < 2 ^ 31 ∧ slotKey n cpu i < k.maxEntries := by
  induction cpus generalizing k with
  | nil =>
    cases h
    simp
  | cons cpu cpus ih =>
    rw [openCounter] at h
    obtain ⟨fd, t, hopen, h⟩ := Op.bind_eq_ok.mp h
    obtain ⟨hcpu, rfl, rfl⟩ := perfEventOpen_ok hopen
    obtain ⟨u', t, hupdate, h⟩ := Op.bind_eq_ok.mp h
    obtain ⟨hkey, rfl⟩ := updateSlot_ok hupdate
    obtain ⟨hk', hrest⟩ := ih (attempt_bind_ok h)
    refine ⟨?_, List.forall_mem_cons.mpr ⟨⟨hcpu, hkey⟩, hrest⟩⟩
    rw [hk', List.map_cons, List.foldl_cons]
    simp [Kernel.install, openedEvent, hcounter]

theorem openCounters_ok {items : List (CounterConfig × ℕ)} {u : Unit}
    (h : openCounters host n items k = (.ok u, k')) :
    k' = (items.flatMap (installs host.nprocs n)).foldl Kernel.install k ∧
      ∀ y ∈ items, ∀ cpu < host.nprocs,
        cpu % 2 ^ 32 < 2 ^ 31 ∧ slotKey n cpu y.2 < k.maxEntries := by
  induction items generalizing k with
  | nil =>
    cases h
    simp
  | cons y items ih =>
    obtain ⟨counter, i⟩ := y
    rw [openCounters] at h
    cases hcounter : counter.toPerfConfig with
    | error e =>
      rw [hcounter] at h
      cases h
    | ok c =>
      obtain ⟨name, type, config⟩ := c
      rw [hcounter] at h
      obtain ⟨u', t, hopen, h⟩ := Op.bind_eq_ok.mp h
      have htypeConfig : counter.typeConfig = (type, config) := by
        rw [CounterConfig.typeConfig, hcounter]
      obtain ⟨rfl, hfirst⟩ := openCounter_ok htypeConfig hopen
      obtain ⟨rfl, hrest⟩ := ih h
      rw [maxEntries_install] at hrest
      refine ⟨?_, List.forall_mem_cons.mpr ⟨?_, hrest⟩⟩
      · rw [List.flatMap_cons, List.foldl_append]
        rfl
      · intro cpu hcpu
        exact hfirst cpu (List.mem_range.mpr hcpu)

def timers (type config : UInt32) (freq : ℕ) (cpus : List ℕ) : List PerfEvent :=
  cpus.map fun cpu => ⟨type, config.toUInt64, .frequency freq, cpu % 2 ^ 32⟩

theorem perfEventPerCpu_ok {type config : UInt32} {freq : ℕ} {cpus : List ℕ} {u : Unit}
    (h : perfEventPerCpu host type config freq cpus k = (.ok u, k')) :
    k' = { k with events := k.events ++ timers type config freq cpus } := by
  induction cpus generalizing k with
  | nil =>
    cases h
    simp [timers]
  | cons cpu cpus ih =>
    rw [perfEventPerCpu] at h
    obtain ⟨fd, t, hopen, h⟩ := Op.bind_eq_ok.mp h
    obtain ⟨-, -, rfl⟩ := perfEventOpen_ok hopen
    rw [ih h]
    simp [timers]

theorem declare_ok {F : Type} {callback : ℕ → ℤ} {x : Expansion} (hx : x.Sound)
    {reports : List (Report F)} (h : declare host callback x k = (.ok reports, k')) :
    k' = k ∧ reports = (List.range host.nprocs).flatMap (x.tracks host.nprocs) := by
  unfold declare at h
  rw [declareTracks_eq hx] at h
  rcases sendAll_cases callback ((List.range host.nprocs).flatMap (x.tracks host.nprocs)) .new
    with hok | ⟨sent, -, hrefused⟩
  · rw [hok] at h
    cases h
    exact ⟨rfl, rfl⟩
  · rw [hrefused] at h
    cases h

end SetUp

/-- What is known after a set-up that succeeds. -/
structure Built.SetUp {F : Type} (b : Built F) (counters : List CounterConfig) (nprocs : ℕ) :
    Prop where
  validated : validate counters = .ok b.expansion
  installed : ∃ timers : List PerfEvent, (∀ e ∈ timers, e.config.toNat < 2 ^ 32) ∧
    b.kernel = (b.expansion.counters.zipIdx.flatMap
      (installs nprocs b.expansion.counters.length)).foldl Kernel.install
        ⟨timers, nprocs * b.expansion.counters.length % 2 ^ 32, fun _ => none⟩
  accepted : ∀ i < b.expansion.counters.length, ∀ cpu < nprocs, cpu % 2 ^ 32 < 2 ^ 31 ∧
    slotKey b.expansion.counters.length cpu i < nprocs * b.expansion.counters.length % 2 ^ 32
  declared : b.reports = (List.range nprocs).flatMap (b.expansion.tracks nprocs)

theorem setUp_of_build {F : Type} {host : Host} {callback : ℕ → ℤ} {config : PerfCounterConfig}
    {b : Built F} {k : Kernel} (h : build host callback config .new = (.ok b, k)) :
    b.SetUp config.counters host.nprocs := by
  unfold build at h
  cases hvalid : validate config.counters with
  | error e =>
    rw [hvalid] at h
    cases h
  | ok x =>
    obtain ⟨-, hx⟩ := valid_of_validate hvalid
    rw [hvalid] at h
    replace h := attempt_bind_ok (attempt_bind_ok (attempt_bind_ok (attempt_bind_ok h)))
    obtain ⟨_, _, hsize, h⟩ := Op.bind_eq_ok.mp h
    cases hsize
    obtain ⟨_, _, htimers, h⟩ := Op.bind_eq_ok.mp (attempt_bind_ok h)
    cases perfEventPerCpu_ok htimers
    obtain ⟨_, _, hopen, h⟩ := Op.bind_eq_ok.mp (attempt_bind_ok h)
    obtain ⟨rfl, haccepted⟩ := openCounters_ok hopen
    obtain ⟨reports, _, hdeclare, h⟩ := Op.bind_eq_ok.mp h
    obtain ⟨rfl, hreports⟩ := declare_ok hx.toSound hdeclare
    replace h := attempt_bind_ok (attempt_bind_ok h)
    cases h
    refine ⟨hvalid, ⟨_, ?_, rfl⟩, ?_, hreports⟩
    · intro e he
      obtain ⟨cpu, -, rfl⟩ := List.mem_map.mp he
      change (UInt32.toUInt64 0).toNat < 2 ^ 32
      decide
    · intro i hi cpu hcpu
      exact haccepted (x.counters[i], i) (List.mk_mem_zipIdx_iff_getElem?.mpr
        (List.getElem?_eq_getElem hi)) cpu hcpu

/-! ## Slots -/

section Slots
variable {F : Type} {b : Built F} {counters : List CounterConfig} {n : ℕ}

theorem Built.SetUp.valid (h : b.SetUp counters n) : b.expansion.Valid :=
  (valid_of_validate h.validated).2

/-- The map cannot have a slot for more events than a word can count. -/
theorem Built.SetUp.slots_lt (h : b.SetUp counters n) :
    n * b.expansion.counters.length < 2 ^ 32 := by
  by_contra hge
  have hpos : 0 < b.expansion.counters.length := List.length_pos_of_ne_nil h.valid.ne_nil
  set len := b.expansion.counters.length
  have hdiv : (2 ^ 32 - 1) / len * len + (2 ^ 32 - 1) % len = 2 ^ 32 - 1 :=
    Nat.div_add_mod' _ _
  have hcpu : (2 ^ 32 - 1) / len < n := by
    rw [Nat.div_lt_iff_lt_mul hpos]
    omega
  have hkey := (h.accepted ((2 ^ 32 - 1) % len) (Nat.mod_lt _ hpos) _ hcpu).2
  rw [slotKey, hdiv] at hkey
  have hmod := Nat.mod_lt (n * len) (Nat.two_pow_pos 32)
  omega

theorem slot_lt {len cpu i : ℕ} (hi : i < len) (hcpu : cpu < n) : cpu * len + i < n * len := by
  have hmul : (cpu + 1) * len ≤ n * len := Nat.mul_le_mul_right len hcpu
  rw [Nat.add_mul, Nat.one_mul] at hmul
  omega

theorem slot_inj {len cpu cpu' i j : ℕ} (hi : i < len) (hj : j < len)
    (h : cpu * len + i = cpu' * len + j) : cpu = cpu' ∧ i = j := by
  rcases Nat.lt_trichotomy cpu cpu' with hlt | rfl | hgt
  · have hbelow := slot_lt hi hlt
    omega
  · exact ⟨rfl, by omega⟩
  · have hbelow := slot_lt hj hgt
    omega

theorem Built.SetUp.slotKey_eq (h : b.SetUp counters n) {cpu i : ℕ}
    (hi : i < b.expansion.counters.length) (hcpu : cpu < n) :
    slotKey b.expansion.counters.length cpu i = cpu * b.expansion.counters.length + i := by
  have hlt := slot_lt hi hcpu
  have hslots := h.slots_lt
  exact Nat.mod_eq_of_lt (by omega)

theorem Built.SetUp.cpu_lt (h : b.SetUp counters n) {cpu : ℕ} (hcpu : cpu < n) :
    cpu < 2 ^ 31 := by
  have hpos : 0 < b.expansion.counters.length := List.length_pos_of_ne_nil h.valid.ne_nil
  have hslots := h.slots_lt
  have hlt := slot_lt hpos hcpu
  have hmul : cpu ≤ cpu * b.expansion.counters.length := Nat.le_mul_of_pos_right cpu hpos
  have haccepted := (h.accepted 0 hpos cpu hcpu).1
  omega

theorem Built.SetUp.keys_nodup (h : b.SetUp counters n) :
    ((b.expansion.counters.zipIdx.flatMap
      (installs n b.expansion.counters.length)).map Prod.snd).Nodup := by
  set len := b.expansion.counters.length
  have hkeys : (b.expansion.counters.zipIdx.flatMap (installs n len)).map Prod.snd =
      (List.range len).flatMap fun i => (List.range n).map fun cpu => slotKey len cpu i := by
    rw [List.map_flatMap, zipIdx_eq_map_range _ (.named ""), List.flatMap_map]
    apply List.flatMap_congr
    intro i _
    rw [installs, List.map_map]
    rfl
  have hkey : ∀ i < len, ∀ j < len, ∀ cpu < n, ∀ cpu' < n,
      slotKey len cpu i = slotKey len cpu' j → cpu = cpu' ∧ i = j := by
    intro i hi j hj cpu hcpu cpu' hcpu' heq
    rw [h.slotKey_eq hi hcpu, h.slotKey_eq hj hcpu'] at heq
    exact slot_inj hi hj heq
  rw [hkeys, List.nodup_flatMap]
  constructor
  · intro i hi
    rw [List.nodup_map_iff_inj_on List.nodup_range]
    intro cpu hcpu cpu' hcpu' heq
    have hi' := List.mem_range.mp hi
    exact (hkey i hi' i hi' cpu (List.mem_range.mp hcpu) cpu' (List.mem_range.mp hcpu') heq).1
  · refine List.nodup_range.pairwise_of_forall_ne ?_
    intro i hi j hj hne key hmem hmem'
    obtain ⟨cpu, hcpu, rfl⟩ := List.mem_map.mp hmem
    obtain ⟨cpu', hcpu', heq⟩ := List.mem_map.mp hmem'
    exact hne (hkey i (List.mem_range.mp hi) j (List.mem_range.mp hj) cpu (List.mem_range.mp hcpu)
      cpu' (List.mem_range.mp hcpu') heq.symm).2

/-- Each slot holds the event that was opened for its counter and its processor. -/
theorem Built.SetUp.slot (h : b.SetUp counters n) {cpu i : ℕ} {counter : CounterConfig}
    (hi : b.expansion.counters[i]? = some counter) (hcpu : cpu < n) :
    ∃ fd, b.kernel.slots (cpu * b.expansion.counters.length + i) = some fd ∧
      b.kernel.events[fd]? = some (openedEvent counter cpu) := by
  obtain ⟨timers, -, hkernel⟩ := h.installed
  obtain ⟨hlt, -⟩ := List.getElem?_eq_some_iff.mp hi
  have hmem : (openedEvent counter cpu, slotKey b.expansion.counters.length cpu i) ∈
      b.expansion.counters.zipIdx.flatMap (installs n b.expansion.counters.length) :=
    List.mem_flatMap.mpr ⟨(counter, i), List.mk_mem_zipIdx_iff_getElem?.mpr hi,
      List.mem_map.mpr ⟨cpu, List.mem_range.mpr hcpu, rfl⟩⟩
  rw [hkernel, ← h.slotKey_eq hlt hcpu]
  exact slots_install_of_mem h.keys_nodup hmem _

theorem Built.SetUp.config_lt (h : b.SetUp counters n) {e : PerfEvent}
    (he : e ∈ b.kernel.events) : e.config.toNat < 2 ^ 32 := by
  obtain ⟨timers, htimers, hkernel⟩ := h.installed
  rw [hkernel, events_install] at he
  rcases List.mem_append.mp he with htimer | hopened
  · exact htimers e htimer
  · obtain ⟨y, hy, rfl⟩ := List.mem_map.mp hopened
    obtain ⟨z, -, hz⟩ := List.mem_flatMap.mp hy
    obtain ⟨cpu, -, rfl⟩ := List.mem_map.mp hz
    have hlt := z.1.typeConfig.2.toUInt32.toNat_lt
    simpa [openedEvent] using hlt

end Slots

/-! ## From the configured list to the expanded one -/

section Corresponds
variable {x : Expansion}

theorem filter_range_append (d bs : List Bool) (m : ℕ) :
    ((List.range (d.length + m)).filter fun i => (d ++ bs)[i]? = some false) =
      ((List.range d.length).filter fun i => d[i]? = some false) ++
        ((List.range m).filter fun i => bs[i]? = some false).map (d.length + ·) := by
  rw [List.range_add, List.filter_append, List.filter_map]
  congr 1
  · apply List.filter_congr
    intro i hi
    rw [List.getElem?_append_left (List.mem_range.mp hi)]
  · congr 1
    apply List.filter_congr
    intro i _
    simp [List.getElem?_append_right (Nat.le_add_right d.length i)]

theorem Expansion.Sound.regularIdx_push_ipc (h : x.Sound) :
    (x.push (.named "ipc")).regularIdx = x.regularIdx := by
  have hfilter := filter_range_append x.isDerivedOnly [true, true] 2
  rw [h.length_eq] at hfilter
  rw [x.push_ipc, Expansion.regularIdx, List.length_append]
  exact hfilter.trans (List.append_nil _)

theorem Expansion.Sound.regularIdx_push_regular (h : x.Sound) {counter : CounterConfig}
    (hcounter : counter ≠ .named "ipc") :
    (x.push counter).regularIdx = x.regularIdx ++ [x.counters.length] := by
  have hfilter := filter_range_append x.isDerivedOnly [false] 1
  rw [h.length_eq] at hfilter
  rw [x.push_regular hcounter, Expansion.regularIdx, List.length_append]
  exact hfilter

theorem expandCounters_concat (counters : List CounterConfig) (counter : CounterConfig) :
    expandCounters (counters ++ [counter]) = (expandCounters counters).push counter :=
  List.foldl_concat _ _ _ _

/-- The entries that are not derived stay in order. -/
theorem expandCounters_regular (counters : List CounterConfig) :
    List.Forall₂ (fun counter i => (expandCounters counters).counters[i]? = some counter)
      (counters.filter (· ≠ .named "ipc")) (expandCounters counters).regularIdx := by
  induction counters using List.reverseRecOn with
  | nil => exact List.Forall₂.nil
  | append_singleton counters counter ih =>
    have hx := sound_expandCounters counters
    rw [expandCounters_concat, List.filter_append]
    by_cases hcounter : counter = .named "ipc"
    · subst hcounter
      have hnone : [CounterConfig.named "ipc"].filter (· ≠ .named "ipc") = [] := by decide
      rw [hx.regularIdx_push_ipc, hnone, List.append_nil]
      exact ih.imp fun _ _ h => getElem?_append_some h
    · have hone : [counter].filter (· ≠ .named "ipc") = [counter] :=
        List.filter_cons_of_pos (decide_eq_true hcounter)
      rw [hx.regularIdx_push_regular hcounter, hone, Expansion.push_regular _ hcounter]
      apply List.rel_append
      · exact ih.imp fun _ _ h => getElem?_append_some h
      · exact List.Forall₂.cons (by simp) List.Forall₂.nil

theorem expandCounters_derived (counters : List CounterConfig) :
    (counters.filter (· = .named "ipc")).length = (expandCounters counters).derived.length := by
  induction counters using List.reverseRecOn with
  | nil => rfl
  | append_singleton counters counter ih =>
    rw [expandCounters_concat, List.filter_append, List.length_append, ih]
    by_cases hcounter : counter = .named "ipc"
    · subst hcounter
      rw [Expansion.push_ipc, List.length_append]
      rfl
    · rw [Expansion.push_regular _ hcounter]
      simp [hcounter]

end Corresponds

/-! ## What is measured -/

/-- The timer of a processor fires, while each event has some value or cannot be read. -/
structure Beat where
  timestamp : ℕ
  cpu : ℕ
  cpu_lt : cpu < 2 ^ 32
  room : Bool
  counts : ℕ → Option ℕ

def Beat.tick (k : Kernel) (t : Beat) : Tick :=
  ⟨t.timestamp, t.cpu, t.cpu_lt, t.room, k.readValue t.cpu t.counts⟩

/-- The values that are written if an event is read on every beat of a processor. -/
def eventValues (fd cpu : ℕ) (beats : List Beat) : List ℕ :=
  (beats.filter fun t => t.cpu = cpu ∧ t.room).map fun t => written (t.counts fd)

namespace Built
variable {F : Type} (conv : Conversions F) (b : Built F)

/-- The program finds this event in the slot of the counter, and reads it. -/
structure Reads (cpu i fd : ℕ) : Prop where
  slot : b.kernel.slots (cpu * b.expansion.counters.length + i) = some fd
  read : ∀ counts,
    b.kernel.readValue cpu counts (slotFlags cpu b.expansion.counters.length i) = counts fd

/-- The event has been opened with what the entry asks for. -/
def OpenedAs (counter : CounterConfig) (cpu fd : ℕ) : Prop :=
  ∃ name type config, counter.toPerfConfig = .ok (name, type, config) ∧
    b.kernel.events[fd]? = some ⟨type, config, .period 0, cpu⟩

/-- The values of a series, in every run whose samples are taken. -/
def Reports (cpu series : ℕ) (values : List Beat → List F) : Prop :=
  ∀ (callback : ℕ → ℤ) (beats : List Beat),
    (∀ r ∈ (tracer conv callback b.expansion).outputs .new (beats.map (Beat.tick b.kernel)),
      r = .ok ()) →
    onTrack (.counter (trackId cpu series))
      ((tracer conv callback b.expansion).final .new (beats.map (Beat.tick b.kernel))).reports =
        values beats

/-- An entry of the list that is not derived, and the series with this index. -/
def MeasuresCounter (nprocs cpu : ℕ) (counter : CounterConfig) (i : ℕ) : Prop :=
  counterTrack counter.name cpu nprocs i ∈ b.reports ∧
    ∃ fd, b.Reads cpu i fd ∧ b.OpenedAs counter cpu fd ∧
      b.Reports conv cpu i fun beats =>
        (deltas none (eventValues fd cpu beats)).map conv.asF64

/-- The ipc of the derived counter with this index. -/
def MeasuresIpc (nprocs cpu j : ℕ) : Prop :=
  counterTrack "ipc" cpu nprocs (b.expansion.counters.length + j) ∈ b.reports ∧
    ∃ cyclesIdx instructionsIdx cycles instructions,
      b.expansion.derived[j]? = some ("ipc", .ipc cyclesIdx instructionsIdx) ∧
      b.Reads cpu cyclesIdx cycles ∧ b.OpenedAs (.named "cpu-cycles") cpu cycles ∧
      b.Reads cpu instructionsIdx instructions ∧
      b.OpenedAs (.named "cpu-instructions") cpu instructions ∧
      b.Reports conv cpu (b.expansion.counters.length + j) fun beats =>
        List.zipWith (ipc conv) (deltas none (eventValues instructions cpu beats))
          (deltas none (eventValues cycles cpu beats))

/-- The entries, in order, are measured by the series of the processor. -/
structure Measures (counters : List CounterConfig) (nprocs cpu : ℕ) : Prop where
  regular : List.Forall₂ (b.MeasuresCounter conv nprocs cpu)
    (counters.filter (· ≠ .named "ipc")) b.expansion.regularIdx
  derived : List.Forall₂ (fun _ j => b.MeasuresIpc conv nprocs cpu j)
    (counters.filter (· = .named "ipc")) (List.range b.expansion.derived.length)

end Built

/-- No custom counter has a config that needs more than 32 bits. -/
def ConfigsFit (counters : List CounterConfig) : Prop :=
  ∀ name type config, .custom name type config ∈ counters → config.toNat < 2 ^ 32

section Measured
variable {F : Type} {conv : Conversions F} {b : Built F} {counters : List CounterConfig}
  {n cpu i fd : ℕ}

theorem slotFlags_eq {len : ℕ} (h : cpu * len + i < 2 ^ 31) :
    slotFlags cpu len i = cpu * len + i := by
  have hmod : (cpu * len + i) % 2 ^ 32 = cpu * len + i := Nat.mod_eq_of_lt (by omega)
  rw [slotFlags, hmod, if_pos h]

theorem slotFlags_ge {len : ℕ} (h : 2 ^ 31 ≤ cpu * len + i) (hlt : cpu * len + i < 2 ^ 32) :
    2 ^ 32 ≤ slotFlags cpu len i := by
  have hmod : (cpu * len + i) % 2 ^ 32 = cpu * len + i := Nat.mod_eq_of_lt hlt
  rw [slotFlags, hmod, if_neg (by omega)]
  omega

theorem Built.SetUp.maxEntries_eq (h : b.SetUp counters n) :
    b.kernel.maxEntries = n * b.expansion.counters.length := by
  obtain ⟨timers, -, hkernel⟩ := h.installed
  rw [hkernel, maxEntries_install]
  exact Nat.mod_eq_of_lt h.slots_lt

theorem Built.SetUp.reads (h : b.SetUp counters n)
    (hslots : n * b.expansion.counters.length ≤ 2 ^ 31) {counter : CounterConfig}
    (hi : b.expansion.counters[i]? = some counter) (hcpu : cpu < n) :
    ∃ fd, b.Reads cpu i fd ∧ b.kernel.events[fd]? = some (openedEvent counter cpu) := by
  obtain ⟨fd, hslot, hevent⟩ := h.slot hi hcpu
  obtain ⟨hlt, -⟩ := List.getElem?_eq_some_iff.mp hi
  have hbelow := slot_lt hlt hcpu
  have hcpu32 := h.cpu_lt hcpu
  have hmod : cpu % 2 ^ 32 = cpu := Nat.mod_eq_of_lt (by omega)
  refine ⟨fd, ⟨hslot, ?_⟩, hevent⟩
  intro counts
  rw [slotFlags_eq (by omega), Kernel.readValue, h.maxEntries_eq, if_neg (by omega), hslot]
  simp only [Option.bind_eq_bind, Option.bind_some, hevent, openedEvent, hmod, if_true]

theorem openedAs_of_fits {counter : CounterConfig} {name : String} {type : UInt32}
    {config : UInt64} (hcounter : counter.toPerfConfig = .ok (name, type, config))
    (hfits : config.toNat < 2 ^ 32) (hcpu : cpu < 2 ^ 31)
    (hevent : b.kernel.events[fd]? = some (openedEvent counter cpu)) :
    b.OpenedAs counter cpu fd := by
  have hmod : cpu % 2 ^ 32 = cpu := Nat.mod_eq_of_lt (by omega)
  have hconfig : config.toUInt32.toUInt64 = config := by
    apply UInt64.toNat_inj.mp
    simpa using hfits
  refine ⟨name, type, config, hcounter, ?_⟩
  rw [hevent, openedEvent, CounterConfig.typeConfig, hcounter]
  simp only [hconfig, hmod]

theorem config_lt_of_named {name name' : String} {type : UInt32} {config : UInt64}
    (h : (CounterConfig.named name).toPerfConfig = .ok (name', type, config)) :
    config.toNat < 2 ^ 32 := by
  have hknown : ∀ entry ∈ knownCounters, entry.2.2.toNat < 2 ^ 32 := by decide
  rw [CounterConfig.toPerfConfig] at h
  cases hlookup : knownCounters.lookup name with
  | none =>
    rw [hlookup] at h
    cases h
  | some entry =>
    rw [hlookup] at h
    cases h
    obtain ⟨before, after, hsplit, -⟩ := List.lookup_eq_some_iff.mp hlookup
    exact hknown (name, entry) (by rw [hsplit]; simp)

theorem readings_eq (h : b.Reads cpu i fd) (beats : List Beat) :
    (readings b.expansion cpu i (beats.map (Beat.tick b.kernel))).map written =
      eventValues fd cpu beats := by
  unfold readings eventValues
  rw [List.filter_map, List.map_map, List.map_map]
  apply List.map_congr_left
  intro t ht
  have hcpu : t.cpu = cpu := (of_decide_eq_true (List.mem_filter.mp ht).2).1
  subst hcpu
  exact congrArg written (h.read t.counts)

theorem counterTrack_mem (h : b.SetUp counters n) (hcpu : cpu < n) {r : Report F}
    (hr : r ∈ b.expansion.tracks n cpu) : r ∈ b.reports := by
  rw [h.declared]
  exact List.mem_flatMap.mpr ⟨cpu, List.mem_range.mpr hcpu, hr⟩

theorem measuresCounter (h : b.SetUp counters n)
    (hslots : n * b.expansion.counters.length ≤ 2 ^ 31) (hfits : ConfigsFit counters)
    (hcpu : cpu < n) {counter : CounterConfig} (hmem : counter ∈ counters)
    (hi : b.expansion.counters[i]? = some counter) (hregular : i ∈ b.expansion.regularIdx) :
    b.MeasuresCounter conv n cpu counter i := by
  have hcpu31 := h.cpu_lt hcpu
  obtain ⟨fd, hreads, hevent⟩ := h.reads hslots hi hcpu
  obtain ⟨⟨name, type, config⟩, hknown⟩ := h.valid.known counter (List.mem_of_getElem? hi)
  have hconfig : config.toNat < 2 ^ 32 := by
    cases counter with
    | named name => exact config_lt_of_named hknown
    | custom name type config =>
      cases hknown
      exact hfits _ _ _ hmem
  refine ⟨?_, fd, hreads, openedAs_of_fits hknown hconfig hcpu31 hevent, ?_⟩
  · apply counterTrack_mem h hcpu
    refine List.mem_append_left _ (List.mem_map.mpr ⟨i, hregular, ?_⟩)
    rw [List.getD_eq_getElem?_getD, hi]
    rfl
  · intro callback beats htaken
    rw [onTrack_regular h.valid hregular (by omega) _ _ htaken, readings_eq hreads]
    rfl

theorem measuresIpc (h : b.SetUp counters n)
    (hslots : n * b.expansion.counters.length ≤ 2 ^ 31) (hcpu : cpu < n) {j : ℕ}
    (hj : j < b.expansion.derived.length) : b.MeasuresIpc conv n cpu j := by
  have hcpu31 := h.cpu_lt hcpu
  have hmem : b.expansion.derived[j] ∈ b.expansion.derived := List.getElem_mem hj
  obtain ⟨⟨k, hk, hcycles, hinstructions⟩, -⟩ := h.valid.backed _ hmem
  have hderived : b.expansion.derived[j]? = some ("ipc", .ipc k (k + 1)) := by
    rw [List.getElem?_eq_getElem hj]
    exact congrArg some (Prod.ext (h.valid.named _ hmem) hk)
  obtain ⟨cycles, hreadsC, heventC⟩ := h.reads hslots hcycles hcpu
  obtain ⟨instructions, hreadsI, heventI⟩ := h.reads hslots hinstructions hcpu
  have hknownC : (CounterConfig.named "cpu-cycles").toPerfConfig =
      .ok ("cpu-cycles", perfTypeHardware, 0) := by decide
  have hknownI : (CounterConfig.named "cpu-instructions").toPerfConfig =
      .ok ("cpu-instructions", perfTypeHardware, 1) := by decide
  refine ⟨?_, k, k + 1, cycles, instructions, hderived, hreadsC,
    openedAs_of_fits hknownC (by decide) hcpu31 heventC, hreadsI,
    openedAs_of_fits hknownI (by decide) hcpu31 heventI, ?_⟩
  · apply counterTrack_mem h hcpu
    exact List.mem_append_right _ (List.mem_map.mpr
      ⟨(("ipc", .ipc k (k + 1)), j), List.mk_mem_zipIdx_iff_getElem?.mpr hderived, rfl⟩)
  · intro callback beats htaken
    rw [onTrack_derived h.valid hderived (by omega) _ _ htaken, readings_eq hreadsC,
      readings_eq hreadsI]
    rfl

/-- Only the configs that fit are passed on. -/
theorem configsFit_of_measures (h : b.SetUp counters n) (hm : b.Measures conv counters n cpu) :
    ConfigsFit counters := by
  intro name type config hmem
  have hfilter : .custom name type config ∈ counters.filter (· ≠ .named "ipc") :=
    List.mem_filter.mpr ⟨hmem, by simp⟩
  obtain ⟨i, -, -, fd, -, ⟨name', type', config', hknown, hevent⟩, -⟩ :=
    exists_of_forall₂_right hm.regular.flip _ hfilter
  cases hknown
  exact h.config_lt (List.mem_of_getElem? hevent)

/-- A slot that does not fit a signed word is not read. -/
theorem not_reads (h : b.SetUp counters n) (hi : i < b.expansion.counters.length)
    (hcpu : cpu < n) (hge : 2 ^ 31 ≤ cpu * b.expansion.counters.length + i) :
    ¬ b.Reads cpu i fd := by
  intro hreads
  have hslots := h.slots_lt
  have hbelow := slot_lt hi hcpu
  have hread := hreads.read fun _ => some 0
  rw [Kernel.readValue, if_pos (Or.inl (slotFlags_ge hge (by omega)))] at hread
  cases hread

theorem slots_le_of_measures (h : b.SetUp counters n)
    (hm : ∀ cpu < n, b.Measures conv counters n cpu) (hn : 0 < n) :
    n * b.expansion.counters.length ≤ 2 ^ 31 := by
  by_contra hmany
  have hpos : 0 < b.expansion.counters.length := List.length_pos_of_ne_nil h.valid.ne_nil
  set len := b.expansion.counters.length with hlen
  -- the last slot, of the last counter on the last processor
  have hlast : 2 ^ 31 ≤ (n - 1) * len + (len - 1) := by
    have hmul : (n - 1) * len + len = n * len := by
      rw [← Nat.succ_mul, Nat.succ_eq_add_one, Nat.sub_add_cancel hn]
    omega
  have hnot : ∀ fd, ¬ b.Reads (n - 1) (len - 1) fd :=
    fun fd => not_reads h (by omega) (by omega) hlast
  have hm := hm (n - 1) (by omega)
  have hderivedOnly : len - 1 < b.expansion.isDerivedOnly.length := by
    rw [h.valid.length_eq]
    omega
  cases hd : b.expansion.isDerivedOnly[len - 1] with
  | false =>
    have hregular : len - 1 ∈ b.expansion.regularIdx :=
      mem_regularIdx.mpr ⟨by omega, by rw [List.getElem?_eq_getElem hderivedOnly, hd]⟩
    obtain ⟨counter, -, -, fd, hreads, -⟩ := exists_of_forall₂_right hm.regular _ hregular
    exact hnot fd hreads
  | true =>
    obtain ⟨d, hmem, hidx⟩ := h.valid.covered (len - 1)
      (by rw [List.getElem?_eq_getElem hderivedOnly, hd])
    obtain ⟨j, hj, rfl⟩ := List.getElem_of_mem hmem
    obtain ⟨entry, -, -, cyclesIdx, instructionsIdx, cycles, instructions, hderived, hcycles, -,
      hinstructions, -⟩ := exists_of_forall₂_right hm.derived _ (List.mem_range.mpr hj)
    rw [List.getElem?_eq_getElem hj, Option.some.injEq] at hderived
    rw [hderived] at hidx
    simp only [DerivedCounter.indices, List.mem_cons, List.not_mem_nil, or_false] at hidx
    rcases hidx with heq | heq
    · rw [← heq] at hcycles
      exact hnot cycles hcycles
    · rw [← heq] at hinstructions
      exact hnot instructions hinstructions

end Measured

/-- The counters of the list are the ones that are measured, on every processor, exactly if no
config is cut to 32 bits and every slot fits a signed word. -/
theorem counters_measured_iff {F : Type} (conv : Conversions F) (host : Host) (callback : ℕ → ℤ)
    (config : PerfCounterConfig) {b : Built F} {k : Kernel}
    (hbuild : build host callback config .new = (.ok b, k)) :
    (∀ cpu < host.nprocs, b.Measures conv config.counters host.nprocs cpu) ↔
      (0 < host.nprocs → ConfigsFit config.counters ∧
        host.nprocs * b.expansion.counters.length ≤ 2 ^ 31) := by
  have h := setUp_of_build hbuild
  constructor
  · intro hm hn
    exact ⟨configsFit_of_measures h (hm 0 hn), slots_le_of_measures h hm hn⟩
  · intro hcond cpu hcpu
    obtain ⟨hfits, hslots⟩ := hcond (by omega)
    obtain ⟨hexpand, -⟩ := valid_of_validate h.validated
    constructor
    · have hregular := expandCounters_regular config.counters
      rw [← hexpand, List.forall₂_iff_zip] at hregular
      refine List.forall₂_iff_zip.mpr ⟨hregular.1, fun {counter i} hmem => ?_⟩
      obtain ⟨hcounter, hi⟩ := List.of_mem_zip hmem
      exact measuresCounter h hslots hfits hcpu (List.mem_filter.mp hcounter).1 (hregular.2 hmem) hi
    · have hlength := expandCounters_derived config.counters
      rw [← hexpand] at hlength
      refine List.forall₂_iff_zip.mpr ⟨hlength.trans List.length_range.symm, fun {_ j} hmem => ?_⟩
      exact measuresIpc h hslots hcpu (List.mem_range.mp (List.of_mem_zip hmem).2)

/-- One processor, and no call that fails. -/
def quietHost : Host := ⟨1, fun _ => none⟩

theorem counters_measured_of_raw_event :
    let config : PerfCounterConfig := ⟨9, [.custom "l2" 4 0x1234, .named "ipc"]⟩
    ∃ (b : Built ℚ) (k : Kernel), build quietHost (fun _ => 0) config .new = (.ok b, k) ∧
      b.Measures unrounded config.counters 1 0 := by
  intro config
  obtain ⟨b, k, hbuild, hlen⟩ : ∃ (b : Built ℚ) (k : Kernel),
      build quietHost (fun _ => 0) config .new = (.ok b, k) ∧
      b.expansion.counters.length = 3 := ⟨_, _, rfl, rfl⟩
  have hfits : ConfigsFit config.counters := by
    intro name type config hmem
    rcases List.mem_cons.mp hmem with heq | hrest
    · cases heq
      decide
    · cases List.mem_singleton.mp hrest
  have hiff := counters_measured_iff unrounded quietHost (fun _ => 0) config hbuild
  refine ⟨b, k, hbuild, hiff.mpr ?_ 0 ?_⟩
  · intro _
    refine ⟨hfits, ?_⟩
    rw [hlen]
    decide
  · decide

/-- The upper half of a raw config is lost. -/
theorem raw_config_truncated :
    let config : PerfCounterConfig := ⟨9, [.custom "offcore" 4 0x1000001b7]⟩
    ∃ (b : Built ℚ) (k : Kernel), build quietHost (fun _ => 0) config .new = (.ok b, k) ∧
      b.kernel.slots 0 = some 1 ∧ b.kernel.events[1]? = some ⟨4, 0x1b7, .period 0, 0⟩ ∧
      ¬ b.Measures unrounded config.counters 1 0 := by
  intro config
  obtain ⟨b, k, hbuild, hslot, hevent⟩ : ∃ (b : Built ℚ) (k : Kernel),
      build quietHost (fun _ => 0) config .new = (.ok b, k) ∧ b.kernel.slots 0 = some 1 ∧
        b.kernel.events[1]? = some ⟨4, 0x1b7, .period 0, 0⟩ := ⟨_, _, rfl, rfl, by decide⟩
  refine ⟨b, k, hbuild, hslot, hevent, ?_⟩
  intro hm
  have hfits := configsFit_of_measures (setUp_of_build hbuild) hm "offcore" 4 0x1000001b7
    List.mem_cons_self
  exact absurd hfits (by decide)

end Manytrace.Bpf.PerfCounter
