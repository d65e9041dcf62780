import Mathlib.Data.List.Induction
import Manytrace.Bpf.Common
import Manytrace.Bpf.CpuUtil
import Manytrace.Bpf.NetTrack
import Manytrace.Bpf.Profiler
import Manytrace.Bpf.SchedTrace
import Manytrace.Core.FirstKeys
import Manytrace.Core.Machine
import Manytrace.Protocol.Event

/-! The tracers that can be restricted to processes, by id or by name. Names are matched by the
callback of the thread tracker, which then puts the process into the filter map of the tracer. -/
namespace Manytrace.Bpf.ProcessFilter
open Manytrace.Core Manytrace.Protocol

inductive Tracer
  | cpuutil
  | profiler
  | schedtrace
  | nettrack
deriving DecidableEq, Repr

structure TracerConfig where
  pidFilters : List ℤ
  filterProcess : List String
deriving DecidableEq, Repr

/-- The part of the configuration that is about processes. -/
structure BpfConfig where
  threadTracker : Bool
  tracer : Tracer → Option TracerConfig
  filterProcess : List String

/-- What `build` makes of it: the tracers with the names that they match. -/
structure BpfObject where
  threadtrack : Bool
  tracer : Tracer → Option TracerConfig

namespace BpfConfig

def globalFilter (c : BpfConfig) : Option (List String) :=
  if !c.filterProcess.isEmpty then some c.filterProcess else none

def needs (c : BpfConfig) (t : Tracer) : Bool :=
  (c.tracer t).any fun cfg => !cfg.filterProcess.isEmpty || c.globalFilter.isSome

def needsProcessFiltering (c : BpfConfig) : Bool :=
  c.needs .cpuutil || c.needs .profiler || c.needs .schedtrace || c.needs .nettrack

/-- The names of all tracers are replaced by the global ones, if there are any. -/
def override (c : BpfConfig) (cfg : TracerConfig) : TracerConfig :=
  match c.globalFilter with
  | some names => { cfg with filterProcess := names }
  | none => cfg

def build (c : BpfConfig) : Except BpfError BpfObject :=
  if c.needsProcessFiltering && !c.threadTracker then
    .error (.loadError "Thread tracker must be enabled when using process name filtering")
  else .ok ⟨c.threadTracker, fun t => (c.tracer t).map c.override⟩

end BpfConfig

/-! ## The filter maps -/

def TracerConfig.filterEnabled (cfg : TracerConfig) : Bool :=
  !cfg.pidFilters.isEmpty || !cfg.filterProcess.isEmpty

/-- `max_entries` of the filter map, which is the same for all. -/
def maxEntries : ℕ := 1024

def asU32 (pid : ℤ) : UInt32 := UInt32.ofInt pid

/-- The key of a process in the filter map. Only the network tracer insists on a number that is
not negative. -/
def Tracer.key (t : Tracer) (pid : ℤ) : Option UInt32 :=
  match t with
  | .nettrack => if 0 ≤ pid then some (asU32 pid) else none
  | _ => some (asU32 pid)

/-- `Filterable::filter`. -/
def Tracer.filter (t : Tracer) (map : List UInt32) (pid : ℤ) : Option (List UInt32) :=
  (t.key pid).bind (addKey maxEntries map)

/-- The map with the ids of the configuration, `none` if one of them is refused. -/
def Tracer.load (t : Tracer) (cfg : TracerConfig) : Option (List UInt32) :=
  cfg.pidFilters.foldlM t.filter []

/-- Whether the program of a tracer looks at a process. The programs differ in what they do with
process 0. -/
def Tracer.shouldTrackTgid (t : Tracer) (cfg : TracerConfig) (map : List UInt32)
    (tgid : UInt32) : Bool :=
  match t with
  | .cpuutil => !cfg.filterEnabled || tgid == 0 || map.contains tgid
  | .profiler => !cfg.filterEnabled || map.contains tgid
  | .schedtrace => !cfg.filterEnabled || (tgid != 0 && map.contains tgid)
  | .nettrack => tgid != 0 && (!cfg.filterEnabled || map.contains tgid)

/-- Where the program of the tracer finds this map, its `should_track_tgid` gives this answer.
The profiler has `apply_tgid_filter`, which asks what is left out. -/
def Tracer.Answers (t : Tracer) (cfg : TracerConfig) (map : List UInt32) (tgid : UInt32)
    (answer : Bool) : Prop :=
  match t with
  | .cpuutil => ∀ tp : CpuUtil.Tracepoint, tp.trackedTgids = map →
    CpuUtil.shouldTrackTgid cfg.filterEnabled tp tgid = answer
  | .profiler => ∀ (settings : Profiler.Config) (ctx : Profiler.Context),
    settings.filterTgid = cfg.filterEnabled → ctx.filterTgid = map → ctx.tgid = tgid →
      Profiler.applyTgidFilter settings ctx = !answer
  | .schedtrace => ∀ ctx : SchedTrace.Context, ctx.trackedTgids = map.map UInt32.toNat →
    SchedTrace.shouldTrackTgid cfg.filterEnabled ctx tgid.toNat = answer
  | .nettrack => ∀ (settings : NetTrack.Config) (call : NetTrack.SocketCall),
    settings.filterEnabled = cfg.filterEnabled → call.tgid = tgid.toNat →
      call.tracked = map.contains tgid → NetTrack.shouldTrackTgid settings call = answer

/-- The part of the name behind the last slash. -/
def baseName (name : String) : String :=
  String.ofList (name.toList.reverse.takeWhile (· ≠ '/')).reverse

def TracerConfig.matches (cfg : TracerConfig) (name : String) : Bool :=
  cfg.filterProcess.contains name || cfg.filterProcess.contains (baseName name)

/-! ## The callback of the thread tracker -/

structure Watch where
  map : Tracer → List UInt32
  watchedTgids : List ℤ

/-- A message of the thread tracker, the clock, and whether the user's callback refuses it. -/
structure Arrival where
  event : Event
  now : ℕ
  refused : Bool

section Callback
variable (obj : BpfObject)

def tracers : List Tracer := [.cpuutil, .profiler, .schedtrace, .nettrack]

/-- All tracers are loaded, or `consumer` fails. -/
def BpfObject.consumer : Option Watch :=
  if tracers.all fun t => (obj.tracer t).all fun cfg => (t.load cfg).isSome then
    some ⟨fun t => ((obj.tracer t).bind t.load).getD [], []⟩
  else none

/-- What the callback does for one tracer when it sees a process. -/
def matchProcess (name : String) (pid : ℤ) (w : Watch) (t : Tracer) : Watch :=
  match obj.tracer t with
  | none => w
  | some cfg =>
    if cfg.matches name then
      match t.filter (w.map t) pid with
      | some map =>
        { map := Function.update w.map t map
          watchedTgids := if w.watchedTgids.contains pid then w.watchedTgids
            else w.watchedTgids ++ [pid] }
      | none => w
    else w

def discovered (tid pid : ℤ) (now : ℕ) : Event :=
  .instant ⟨"discovered", now, .thread tid pid, ⟨[], [], [], []⟩⟩

/-- The callback passes every message on. -/
def wrapperCallback : Machine Watch Arrival Event where
  step w a :=
    match a.event with
    | .track ⟨name, .process pid, _⟩ => (tracers.foldl (matchProcess obj name pid) w, [a.event])
    | .track ⟨_, .thread tid pid, _⟩ =>
      (w, a.event :: if w.watchedTgids.contains pid && !a.refused
        then [discovered tid pid a.now] else [])
    | _ => (w, [a.event])

end Callback

/-! ## What is in the maps -/

/-- The process that an arrival brings to a tracer. -/
def Arrival.matched (cfg : TracerConfig) (a : Arrival) : Option ℤ :=
  match a.event with
  | .track ⟨name, .process pid, _⟩ => if cfg.matches name then some pid else none
  | _ => none

/-- The processes whose names have matched, in the order in which they were seen. -/
def matchedPids (cfg : TracerConfig) (as : List Arrival) : List ℤ :=
  as.filterMap (Arrival.matched cfg)

theorem matchedPids_concat (cfg : TracerConfig) (as : List Arrival) (a : Arrival) :
    matchedPids cfg (as ++ [a]) = matchedPids cfg as ++ (a.matched cfg).toList := by
  unfold matchedPids
  rw [List.filterMap_append]
  cases ha : a.matched cfg <;> simp [ha]

section Maps
variable {obj : BpfObject} {w : Watch} {t : Tracer}

theorem filter_getD_firstKeys (t : Tracer) (pids : List ℤ) (pid : ℤ) :
    (t.filter (firstKeys maxEntries (pids.filterMap t.key)) pid).getD
        (firstKeys maxEntries (pids.filterMap t.key)) =
      firstKeys maxEntries ((pids ++ [pid]).filterMap t.key) := by
  unfold Tracer.filter
  rw [List.filterMap_append]
  cases hk : t.key pid with
  | none => simp [hk]
  | some k =>
    have hone : [pid].filterMap t.key = [k] := by simp [hk]
    rw [hone, firstKeys_concat]
    rfl

theorem load_eq {cfg : TracerConfig} {map : List UInt32} (h : t.load cfg = some map) :
    map = firstKeys maxEntries (cfg.pidFilters.filterMap t.key) := by
  unfold Tracer.load at h
  generalize cfg.pidFilters = pids at h ⊢
  induction pids using List.reverseRecOn generalizing map with
  | nil => simpa [firstKeys] using h.symm
  | append_singleton pids pid ih =>
    rw [List.foldlM_append] at h
    obtain ⟨m, hm, hlast⟩ := Option.bind_eq_some_iff.mp h
    have hstep : t.filter m pid = some map := by simpa using hlast
    rw [← filter_getD_firstKeys, ← ih hm, hstep]
    rfl

/-- A tracer that matches the process changes its own map only. -/
theorem matchProcess_map (name : String) (pid : ℤ) (w : Watch) (t' : Tracer) :
    (matchProcess obj name pid w t').map t =
      if t' = t ∧ (obj.tracer t).any (fun cfg => cfg.matches name) = true then
        (t.filter (w.map t) pid).getD (w.map t)
      else w.map t := by
  unfold matchProcess
  by_cases ht : t' = t
  · subst ht
    cases hcfg : obj.tracer t' with
    | none => simp
    | some cfg =>
      by_cases hmatch : cfg.matches name = true
      · cases t'.filter (w.map t') pid <;> simp [hmatch]
      · simp [hmatch]
  · have hother : ¬ (t' = t ∧ (obj.tracer t).any (fun cfg => cfg.matches name) = true) :=
      fun h => ht h.1
    rw [if_neg hother]
    cases obj.tracer t' with
    | none => rfl
    | some cfg =>
      by_cases hmatch : cfg.matches name = true
      · cases hfilter : t'.filter (w.map t') pid with
        | none => simp [hmatch]
        | some map => simp [hmatch, Function.update_of_ne (Ne.symm ht)]
      · simp [hmatch]

theorem foldl_matchProcess_map (name : String) (pid : ℤ) (w : Watch) :
    (tracers.foldl (matchProcess obj name pid) w).map t =
      if (obj.tracer t).any (fun cfg => cfg.matches name) = true then
        (t.filter (w.map t) pid).getD (w.map t)
      else w.map t := by
  cases t <;> simp [tracers, matchProcess_map]

theorem step_map {cfg : TracerConfig} (hcfg : obj.tracer t = some cfg) (w : Watch) (a : Arrival) :
    ((wrapperCallback obj).step w a).1.map t =
      match a.matched cfg with
      | some pid => (t.filter (w.map t) pid).getD (w.map t)
      | none => w.map t := by
  obtain ⟨event, now, refused⟩ := a
  unfold wrapperCallback Arrival.matched
  cases event with
  | track track =>
    obtain ⟨name, trackType, parent⟩ := track
    cases trackType with
    | process pid =>
      simp only [foldl_matchProcess_map, hcfg, Option.any_some]
      by_cases hmatch : cfg.matches name = true <;> simp [hmatch]
    | _ => rfl
  | _ => rfl

theorem final_map {cfg : TracerConfig} (hcfg : obj.tracer t = some cfg)
    (hw : w.map t = firstKeys maxEntries (cfg.pidFilters.filterMap t.key)) (as : List Arrival) :
    ((wrapperCallback obj).final w as).map t =
      firstKeys maxEntries ((cfg.pidFilters ++ matchedPids cfg as).filterMap t.key) := by
  induction as using List.reverseRecOn with
  | nil => simpa [matchedPids] using hw
  | append_singleton as a ih =>
    rw [Machine.final_append, Machine.final_cons, Machine.final_nil, step_map hcfg, ih,
      matchedPids_concat, ← List.append_assoc]
    cases a.matched cfg with
    | none => simp
    | some pid => exact filter_getD_firstKeys t _ pid

theorem consumer_map {cfg : TracerConfig} (hcfg : obj.tracer t = some cfg)
    (hconsumer : obj.consumer = some w) :
    w.map t = firstKeys maxEntries (cfg.pidFilters.filterMap t.key) := by
  unfold BpfObject.consumer at hconsumer
  split_ifs at hconsumer with hall
  cases hconsumer
  have ht : t ∈ tracers := by cases t <;> simp [tracers]
  have hload := List.all_eq_true.mp hall t ht
  rw [hcfg, Option.all_some] at hload
  obtain ⟨map, hmap⟩ := Option.isSome_iff_exists.mp hload
  simp only [hcfg, Option.bind_some, hmap, Option.getD_some]
  exact load_eq hmap

end Maps

/-- A tracer with names to match needs the thread tracker. -/
theorem filterProcess_of_build {c : BpfConfig} {obj : BpfObject} (hbuild : c.build = .ok obj)
    {t : Tracer} {cfg : TracerConfig} (hcfg : obj.tracer t = some cfg)
    (htracker : obj.threadtrack = false) : cfg.filterProcess = [] := by
  unfold BpfConfig.build at hbuild
  split_ifs at hbuild with hneeds
  cases hbuild
  have hnone : c.needsProcessFiltering = false := by
    simpa [show c.threadTracker = false from htracker] using hneeds
  have hneed : c.needs t = false := by
    simp only [BpfConfig.needsProcessFiltering, Bool.or_eq_false_iff] at hnone
    cases t <;> simp [hnone]
  obtain ⟨own, hown, rfl⟩ := Option.map_eq_some_iff.mp hcfg
  simp only [BpfConfig.needs, hown, Option.any_some, Bool.or_eq_false_iff] at hneed
  have hglobal : c.globalFilter = none := by simpa using hneed.2
  unfold BpfConfig.override
  rw [hglobal]
  simpa using hneed.1

theorem contains_map_toNat (map : List UInt32) (tgid : UInt32) :
    (map.map UInt32.toNat).contains tgid.toNat = map.contains tgid := by
  simp [List.contains_eq_mem, UInt32.toNat_inj]

/-- The four programs decide as it is said here. -/
theorem answers_shouldTrackTgid (t : Tracer) (cfg : TracerConfig) (map : List UInt32)
    (tgid : UInt32) : t.Answers cfg map tgid (t.shouldTrackTgid cfg map tgid) := by
  cases t with
  | cpuutil =>
    intro tp hmap
    unfold CpuUtil.shouldTrackTgid Tracer.shouldTrackTgid
    rw [hmap]
    cases cfg.filterEnabled <;> by_cases h : tgid = 0 <;> simp [h]
  | profiler =>
    intro settings ctx henabled hmap htgid
    unfold Profiler.applyTgidFilter Tracer.shouldTrackTgid
    rw [henabled, hmap, htgid, Bool.not_or, Bool.not_not]
  | schedtrace =>
    intro ctx hmap
    have hzero : tgid.toNat = 0 ↔ tgid = 0 := UInt32.toNat_inj (b := 0)
    unfold SchedTrace.shouldTrackTgid Tracer.shouldTrackTgid
    rw [hmap, contains_map_toNat]
    cases cfg.filterEnabled <;> by_cases h : tgid = 0 <;> simp [h, hzero]
  | nettrack =>
    intro settings call henabled htgid htracked
    have hzero : tgid.toNat = 0 ↔ tgid = 0 := UInt32.toNat_inj (b := 0)
    unfold NetTrack.shouldTrackTgid Tracer.shouldTrackTgid
    rw [henabled, htgid, htracked]
    cases cfg.filterEnabled <;> by_cases h : tgid = 0 <;> simp [h, hzero]

theorem shouldTrackTgid_iff (t : Tracer) (cfg : TracerConfig) (map : List UInt32) {tgid : UInt32}
    (h : tgid ≠ 0) : t.shouldTrackTgid cfg map tgid = true ↔
      (cfg.pidFilters = [] ∧ cfg.filterProcess = []) ∨ tgid ∈ map := by
  cases t <;> simp [Tracer.shouldTrackTgid, TracerConfig.filterEnabled, h]

theorem shouldTrackTgid_zero (t : Tracer) {cfg : TracerConfig} (map : List UInt32)
    (h : cfg.filterEnabled = true) : t.shouldTrackTgid cfg map 0 = true ↔
      t = .cpuutil ∨ t = .profiler ∧ 0 ∈ map := by
  cases t <;> simp [Tracer.shouldTrackTgid, h]

/-- The processes of a tracer: those that its configuration lists by id and, after them, those
whose name or base name was in its filter when the thread tracker saw them. The first 1024
different ones are in its filter map, and with a filter its program looks at no others. If names
are to be matched at all, there is a thread tracker. Process 0 is let through by some programs
only. -/
theorem filter_maps_exact (c : BpfConfig) (obj : BpfObject) (w : Watch)
    (hbuild : c.build = .ok obj) (hconsumer : obj.consumer = some w) (as : List Arrival)
    (t : Tracer) (cfg : TracerConfig) (hcfg : obj.tracer t = some cfg) :
    let map := ((wrapperCallback obj).final w as).map t
    let processes := (cfg.pidFilters ++ matchedPids cfg as).filterMap t.key
    (obj.threadtrack = false → cfg.filterProcess = []) ∧ map = firstKeys maxEntries processes ∧
      (∀ tgid, t.Answers cfg map tgid (t.shouldTrackTgid cfg map tgid)) ∧
      (∀ tgid ≠ 0, t.shouldTrackTgid cfg map tgid = true ↔
        (cfg.pidFilters = [] ∧ cfg.filterProcess = []) ∨
          tgid ∈ firstKeys maxEntries processes) ∧
      (cfg.filterEnabled = true → (t.shouldTrackTgid cfg map 0 = true ↔
        t = .cpuutil ∨ t = .profiler ∧ 0 ∈ firstKeys maxEntries processes)) := by
  intro map processes
  have hmap : map = firstKeys maxEntries processes :=
    final_map hcfg (consumer_map hcfg hconsumer) as
  refine ⟨filterProcess_of_build hbuild hcfg, hmap, answers_shouldTrackTgid t cfg map,
    fun tgid htgid => ?_, fun henabled => ?_⟩
  · rw [hmap]
    exact shouldTrackTgid_iff t cfg _ htgid
  · rw [hmap]
    exact shouldTrackTgid_zero t _ henabled

/-- The profiler is restricted to the process 7 and to the programs called `node`. -/
def nodeConfig : BpfConfig where
  threadTracker := true
  tracer t := if t = .profiler then some ⟨[7], []⟩ else none
  filterProcess := ["node"]

def nodeObject : BpfObject := ⟨true, fun t => (nodeConfig.tracer t).map nodeConfig.override⟩

def nodeArrivals : List Arrival :=
  [⟨.track ⟨"/usr/bin/node", .process 12, none⟩, 5, false⟩,
    ⟨.track ⟨"bash", .process 13, none⟩, 6, false⟩,
    ⟨.track ⟨"worker", .thread 14 12, some (.process 12)⟩, 7, false⟩]

theorem filter_maps_exact_node :
    let map := ((wrapperCallback nodeObject).final
      ⟨fun t => if t = .profiler then [7] else [], []⟩ nodeArrivals).map .profiler
    map = firstKeys maxEntries [7, 12] ∧
      Tracer.profiler.shouldTrackTgid ⟨[7], ["node"]⟩ map 13 = false := by
  have hconsumer : nodeObject.consumer = some ⟨fun t => if t = .profiler then [7] else [], []⟩ := by
    unfold BpfObject.consumer
    rw [if_pos (by decide)]
    congr 2
    funext t
    cases t <;> rfl
  obtain ⟨-, hmap, -, htrack, -⟩ := filter_maps_exact nodeConfig nodeObject _ rfl hconsumer
    nodeArrivals .profiler ⟨[7], ["node"]⟩ rfl
  refine ⟨hmap, ?_⟩
  rw [Bool.eq_false_iff, ne_eq, htrack 13 (by decide)]
  decide

/-! ## The marks of new threads -/

/-- A tracer has taken the process up for its name. -/
def watchedBy (obj : BpfObject) (as : List Arrival) (pid : ℤ) : Bool :=
  tracers.any fun t => (obj.tracer t).any fun cfg =>
    (matchedPids cfg as).contains pid && (t.key pid).isSome

/-- What the user's callback is told about the arrivals after `seen`. -/
def told (obj : BpfObject) : List Arrival → List Arrival → List Event
  | _, [] => []
  | seen, a :: as =>
    (a.event :: match a.event with
      | .track ⟨_, .thread tid pid, _⟩ =>
        if watchedBy obj seen pid && !a.refused then [discovered tid pid a.now] else []
      | _ => []) ++ told obj (seen ++ [a]) as

section Marks
variable {obj : BpfObject} {w : Watch}

/-- All processes that are to be watched find room in the map. -/
def Roomy (obj : BpfObject) (as : List Arrival) : Prop :=
  ∀ t cfg, obj.tracer t = some cfg →
    ((cfg.pidFilters ++ matchedPids cfg as).filterMap t.key).eraseDups.length ≤ maxEntries

theorem matchProcess_watched (name : String) (pid : ℤ) (w : Watch) (t : Tracer) (pid' : ℤ) :
    (matchProcess obj name pid w t).watchedTgids.contains pid' =
      (w.watchedTgids.contains pid' ||
        (pid' == pid && (obj.tracer t).any (fun cfg => cfg.matches name) &&
          (t.filter (w.map t) pid).isSome)) := by
  unfold matchProcess
  cases obj.tracer t with
  | none => simp
  | some cfg =>
    by_cases hmatch : cfg.matches name = true
    · cases hfilter : t.filter (w.map t) pid with
      | none => simp [hmatch]
      | some map =>
        by_cases hin : w.watchedTgids.contains pid = true
        · by_cases hpid : pid' = pid
          · subst hpid
            simp_all
          · simp_all
        · by_cases hpid : pid' = pid <;> simp_all
    · simp [hmatch]

theorem foldl_matchProcess_watched (name : String) (pid : ℤ) (w : Watch) (pid' : ℤ) :
    (tracers.foldl (matchProcess obj name pid) w).watchedTgids.contains pid' =
      (w.watchedTgids.contains pid' || tracers.any fun t =>
        pid' == pid && (obj.tracer t).any (fun cfg => cfg.matches name) &&
          (t.filter (w.map t) pid).isSome) := by
  simp only [tracers, List.foldl_cons, List.foldl_nil, matchProcess_watched, matchProcess_map,
    List.any_cons, List.any_nil, reduceCtorEq, false_and, if_false, Bool.or_false, Bool.or_assoc]

/-- The processes that are watched after one more arrival. -/
theorem step_watched (w : Watch) (a : Arrival) (pid : ℤ) :
    ((wrapperCallback obj).step w a).1.watchedTgids.contains pid =
      (w.watchedTgids.contains pid || tracers.any fun t => (obj.tracer t).any fun cfg =>
        (a.matched cfg).any fun pid' => pid == pid' && (t.filter (w.map t) pid').isSome) := by
  obtain ⟨event, now, refused⟩ := a
  have hsame : (∀ cfg, Arrival.matched cfg ⟨event, now, refused⟩ = none) →
      w.watchedTgids.contains pid = (w.watchedTgids.contains pid || tracers.any fun t =>
        (obj.tracer t).any fun cfg => (Arrival.matched cfg ⟨event, now, refused⟩).any fun pid' =>
          pid == pid' && (t.filter (w.map t) pid').isSome) := by
    intro hnone
    simp [hnone]
  cases event with
  | track track =>
    obtain ⟨name, trackType, parent⟩ := track
    cases trackType with
    | process pid' =>
      change (tracers.foldl (matchProcess obj name pid') w).watchedTgids.contains pid = _
      rw [foldl_matchProcess_watched]
      congr 2
      funext t
      cases obj.tracer t with
      | none => simp
      | some cfg =>
        by_cases hmatch : cfg.matches name = true <;> simp [Arrival.matched, hmatch]
    | _ => exact hsame fun _ => rfl
  | _ => exact hsame fun _ => rfl

theorem any_or (f g : Tracer → Bool) :
    (tracers.any fun t => f t || g t) = (tracers.any f || tracers.any g) := by
  rw [Bool.eq_iff_iff]
  simp [and_or_left, exists_or]

theorem Roomy.of_append {as bs : List Arrival} (h : Roomy obj (as ++ bs)) : Roomy obj as := by
  intro t cfg hcfg
  have hall := h t cfg hcfg
  have hsplit : matchedPids cfg (as ++ bs) = matchedPids cfg as ++ matchedPids cfg bs :=
    List.filterMap_append
  rw [hsplit, ← List.append_assoc, List.filterMap_append, List.eraseDups_append,
    List.length_append] at hall
  exact Nat.le_trans (Nat.le_add_right _ _) hall

/-- If there is room, the only processes that are refused are those without a key. -/
theorem filter_isSome {cfg : TracerConfig} {t : Tracer} (hcfg : obj.tracer t = some cfg)
    (hw : w.map t = firstKeys maxEntries (cfg.pidFilters.filterMap t.key)) {as : List Arrival}
    {a : Arrival} {pid : ℤ} (ha : a.matched cfg = some pid) (hroom : Roomy obj (as ++ [a])) :
    (t.filter (((wrapperCallback obj).final w as).map t) pid).isSome = (t.key pid).isSome := by
  have hall := hroom t cfg hcfg
  rw [matchedPids_concat, ← List.append_assoc, ha, List.filterMap_append] at hall
  rw [final_map hcfg hw, Tracer.filter]
  cases hk : t.key pid with
  | none => rfl
  | some k =>
    have hone : (some pid).toList.filterMap t.key = [k] := by simp [hk]
    rw [hone] at hall
    simpa using addKey_isSome hall

theorem watched_iff (hw : ∀ t cfg, obj.tracer t = some cfg →
      w.map t = firstKeys maxEntries (cfg.pidFilters.filterMap t.key))
    (hnone : w.watchedTgids = []) {as : List Arrival} (hroom : Roomy obj as) (pid : ℤ) :
    ((wrapperCallback obj).final w as).watchedTgids.contains pid = watchedBy obj as pid := by
  induction as using List.reverseRecOn with
  | nil => simp [hnone, watchedBy, matchedPids, tracers]
  | append_singleton as a ih =>
    have ih := ih hroom.of_append
    rw [Machine.final_append, Machine.final_cons, Machine.final_nil, step_watched, ih, watchedBy,
      watchedBy, ← any_or]
    apply congrArg
    funext t
    cases hcfg : obj.tracer t with
    | none => simp
    | some cfg =>
      rw [Option.any_some, Option.any_some, Option.any_some, matchedPids_concat]
      cases ha : a.matched cfg with
      | none => simp
      | some pid' =>
        rw [Option.any_some, filter_isSome hcfg (hw t cfg hcfg) ha hroom]
        by_cases hpid : pid = pid'
        · subst hpid
          cases (t.key pid).isSome <;> simp
        · simp [hpid]

end Marks

/-- While there is room in the maps, a thread that is told after a tracer has taken up its process
for its name is followed by a mark, unless the thread itself was refused; no other message is,
and every message is passed on. -/
theorem discovered_exact (obj : BpfObject) (w : Watch) (hconsumer : obj.consumer = some w)
    (as : List Arrival) (hroom : Roomy obj as) :
    (wrapperCallback obj).outputs w as = told obj [] as := by
  have hw : ∀ t cfg, obj.tracer t = some cfg →
      w.map t = firstKeys maxEntries (cfg.pidFilters.filterMap t.key) :=
    fun _ _ hcfg => consumer_map hcfg hconsumer
  have hnone : w.watchedTgids = [] := by
    unfold BpfObject.consumer at hconsumer
    split_ifs at hconsumer
    cases hconsumer
    rfl
  -- the messages after `seen`, from the state that `seen` leads to
  have hrun : ∀ seen rest, as = seen ++ rest →
      (wrapperCallback obj).outputs ((wrapperCallback obj).final w seen) rest =
        told obj seen rest := by
    intro seen rest has
    induction rest generalizing seen with
    | nil => rfl
    | cons a rest ih =>
      have hseen : Roomy obj seen := by
        rw [has] at hroom
        exact hroom.of_append
      have hwatched := watched_iff hw hnone hseen
      have hnext := ih (seen ++ [a]) (by simpa using has)
      rw [Machine.final_append] at hnext
      rw [Machine.outputs_cons, told, ← hnext]
      congr 1
      obtain ⟨event, now, refused⟩ := a
      cases event with
      | track track =>
        obtain ⟨name, trackType, parent⟩ := track
        cases trackType with
        | thread tid pid =>
          change _ :: (if (((wrapperCallback obj).final w seen).watchedTgids.contains pid &&
            !refused) = true then _ else _) = _
          rw [hwatched]
        | _ => rfl
      | _ => rfl
  exact hrun [] as rfl

theorem discovered_exact_node :
    (wrapperCallback nodeObject).outputs ⟨fun t => if t = .profiler then [7] else [], []⟩
        nodeArrivals = told nodeObject [] nodeArrivals :=
  discovered_exact nodeObject _ (by
    unfold BpfObject.consumer
    rw [if_pos (by decide)]
    congr 2
    funext t
    cases t <;> rfl) nodeArrivals (by
      intro t cfg hcfg
      cases t <;> cases hcfg
      decide)

end Manytrace.Bpf.ProcessFilter
