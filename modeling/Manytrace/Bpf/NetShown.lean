import Manytrace.Core.FirstKeys
import Manytrace.Core.Introduction
import Manytrace.Converter.Declarations
import Manytrace.Bpf.NetSeries

/-! What the trace shows of the network statistics if the callback accepts everything: the series
of the host, of the processes and of the first peers, each with all its values. -/
namespace Manytrace.Bpf.NetTrack
open Manytrace.Core Manytrace.Protocol Manytrace.Converter

def Emit.peer? (x : Emit) : Option PeerKey :=
  match x.scope with
  | .peer key => some key
  | _ => none

/-- The parent of the tracks of a scope, if there are any. -/
def parentIn (peerTrackIds : List (PeerKey × ℕ)) : ScopeKey → Option (Option TrackType)
  | .host => some none
  | .process tgid => some (some (.process (asI32 (.ofNat tgid))))
  | .peer key => (peerTrackIds.lookup key).map fun id => some (.custom id)

section Accepting
variable (cfg : NetTrackConfig) (conv : Conversions) (random : ℕ → ℕ)

/-- The track of the peer is made if there is room for it. -/
def Series.ensurePeer (s : Series) (x : Emit) : Series :=
  match x.peer? with
  | some key => (s.ensurePeerTrack cfg conv random accepting key).2
  | none => s

def Series.accept (s : Series) (x : Emit) : Series :=
  (s.emitSample cfg conv random accepting x).2

end Accepting

section Steps
variable {cfg : NetTrackConfig} {conv : Conversions} {random : ℕ → ℕ} {s : Series}

theorem lookup_concat {table : List (PeerKey × ℕ)} {key : PeerKey} (h : table.lookup key = none)
    (id : ℕ) (key' : PeerKey) : (table ++ [(key, id)]).lookup key' =
      if key' = key then some id else table.lookup key' := by
  rw [List.lookup_append]
  split_ifs with hkey
  · rw [hkey, h]
    simp
  · simp [List.lookup_cons, beq_eq_false_iff_ne.mpr hkey]

theorem Series.ensurePeerTrack_accepting {key : PeerKey} (hkey : s.peerTrackIds.lookup key = none)
    (hroom : ¬cfg.maxPeerTracks ≤ s.peerTrackIds.length) :
    s.ensurePeerTrack cfg conv random accepting key =
      (some (random s.told.length),
        { s with
          peerTrackIds := s.peerTrackIds ++ [(key, random s.told.length)]
          told := s.told ++ [(.track (key.track conv (random s.told.length)), 0)] }) :=
  Series.ensurePeerTrack_accepted hkey hroom rfl

theorem Series.accept_eq (s : Series) (x : Emit) :
    s.accept cfg conv random x =
      match parentIn (s.ensurePeer cfg conv random x).peerTrackIds x.scope with
      | some parent => ((s.ensurePeer cfg conv random x).emitBelow random accepting parent x).2
      | none => s.ensurePeer cfg conv random x := by
  unfold Series.accept Series.emitSample Series.ensurePeer Emit.peer?
  cases x.scope with
  | host => rfl
  | process tgid => rfl
  | peer key =>
    cases hkey : s.peerTrackIds.lookup key with
    | some id =>
      simp only [Series.ensurePeerTrack_known hkey]
      simp [parentIn, hkey]
    | none =>
      by_cases hfull : cfg.maxPeerTracks ≤ s.peerTrackIds.length
      · simp only [Series.ensurePeerTrack_full hkey hfull]
        simp [parentIn, hkey]
      · simp only [Series.ensurePeerTrack_accepting hkey hfull]
        simp [parentIn, lookup_concat hkey]

theorem Series.emitBelow_old {parent : Option TrackType} {x : Emit} {id : ℕ}
    (hid : s.seriesIds x.key = some id) (hsubmitted : TrackId.counter id ∈ s.submittedTracks) :
    (s.emitBelow random accepting parent x).2 =
      { s with told := s.told ++ [(.counter (x.counter id), 0)] } := by
  simp [Series.emitBelow, Series.seriesId, hid, Series.submitTrack, hsubmitted, tell, accepting]

theorem Series.emitBelow_new {parent : Option TrackType} {x : Emit}
    (hid : s.seriesIds x.key = none)
    (hsubmitted : TrackId.counter (random s.told.length) ∉ s.submittedTracks) :
    (s.emitBelow random accepting parent x).2 =
      { s with
        seriesIds := Function.update s.seriesIds x.key (some (random s.told.length))
        submittedTracks := s.submittedTracks ++ [TrackId.counter (random s.told.length)]
        told := s.told ++ [(.track (x.track parent (random s.told.length)), 0),
          (.counter (x.counter (random s.told.length)), 0)] } := by
  simp [Series.emitBelow, Series.seriesId, hid, Series.submitTrack, hsubmitted, tell, accepting]

/-! ## What was told -/

/-- The tables and what was told, after the samples `xs`, of which `as` have come through, each
with its parent. `ps` are the peers so far. -/
structure Series.Shows (cfg : NetTrackConfig) (conv : Conversions) (random : ℕ → ℕ) (s : Series)
    (ps : List PeerKey) (xs : List Emit) (as : List (Emit × Option TrackType)) : Prop where
  drawn : Undrawn random (s.told.map Prod.fst)
  submitted : ∀ id, TrackId.counter id ∈ s.submittedTracks ↔ ∃ k, s.seriesIds k = some id
  series : Introduced (fun a => a.1.key) (fun a id => .track (a.1.track a.2 id))
    (fun a id => [.counter (a.1.counter id)]) (fun id => concerns (.counter id)) s.seriesIds as
    (s.told.map Prod.fst)
  parents : ∀ a ∈ as, parentIn s.peerTrackIds a.1.scope = some a.2
  complete : ∀ k : SeriesKey, (parentIn s.peerTrackIds k.scope).isSome →
    (as.map Prod.fst).filter (fun x => x.key = k) = xs.filter fun x => x.key = k
  known : ∀ x ∈ xs, ∀ p, x.peer? = some p → p ∈ ps
  peers : s.peerTrackIds.map Prod.fst = firstKeys cfg.maxPeerTracks ps
  peerTracks : ∀ p ∈ s.peerTrackIds,
    (s.told.map Prod.fst).filter (concerns (.custom p.2)) = [.track (p.1.track conv p.2)]

variable {ps : List PeerKey} {xs : List Emit} {as : List (Emit × Option TrackType)}

theorem shows_new : Series.new.Shows cfg conv random [] [] [] where
  drawn := by simp [Undrawn, Series.new]
  submitted := by simp [Series.new]
  series := introduced_nil _ _ _ _
  parents := by simp
  complete := by simp
  known := by simp
  peers := by simp [Series.new, firstKeys]
  peerTracks := by simp [Series.new]

variable (hrandom : Function.Injective random)

theorem scope_of_peer {x : Emit} {p : PeerKey} : x.peer? = some p ↔ x.scope = .peer p := by
  unfold Emit.peer?
  cases x.scope <;> simp

theorem parentIn_concat {table : List (PeerKey × ℕ)} {key : PeerKey} (h : table.lookup key = none)
    (id : ℕ) {scope : ScopeKey} (hscope : scope ≠ .peer key) :
    parentIn (table ++ [(key, id)]) scope = parentIn table scope := by
  cases scope with
  | host => rfl
  | process tgid => rfl
  | peer key' =>
    have hne : key' ≠ key := fun heq => hscope (heq ▸ rfl)
    simp [parentIn, lookup_concat h, hne]

/-- A peer that is not in the table while there is room has not been seen. -/
theorem Series.Shows.unseen (h : s.Shows cfg conv random ps xs as) {key : PeerKey}
    (hkey : s.peerTrackIds.lookup key = none)
    (hroom : ¬cfg.maxPeerTracks ≤ s.peerTrackIds.length) : key ∉ ps := by
  have hlen : s.peerTrackIds.length = (firstKeys cfg.maxPeerTracks ps).length := by
    rw [← h.peers, List.length_map]
  intro hmem
  apply not_mem_of_lookup hkey
  rw [h.peers]
  exact mem_firstKeys (by omega) hmem

include hrandom in
/-- A new track of a peer. -/
theorem Series.Shows.newPeer (h : s.Shows cfg conv random ps xs as) {key : PeerKey}
    (hkey : s.peerTrackIds.lookup key = none)
    (hroom : ¬cfg.maxPeerTracks ≤ s.peerTrackIds.length) :
    Series.Shows cfg conv random
      { s with
        peerTrackIds := s.peerTrackIds ++ [(key, random s.told.length)]
        told := s.told ++ [(.track (key.track conv (random s.told.length)), 0)] }
      (ps ++ [key]) xs as := by
  have hold : ∀ a ∈ as, a.1.scope ≠ .peer key := by
    intro a ha hscope
    have hparent := h.parents a ha
    simp [hscope, parentIn, hkey] at hparent
  have hnot : ∀ x ∈ xs, x.scope ≠ .peer key := fun x hx hscope =>
    h.unseen hkey hroom (h.known x hx key (scope_of_peer.mpr hscope))
  have htrack : ∀ id, concerns id (.track (key.track conv (random s.told.length))) =
      decide (.custom (random s.told.length) = id) := fun id => concerns_track id _
  have hfresh : (s.told.map Prod.fst).filter (concerns (.custom (random s.told.length))) = [] :=
    h.drawn.custom (by rw [List.length_map])
  refine ⟨?_, h.submitted, ?_, fun a ha => ?_, fun k hk => ?_,
    fun x hx p hp => List.mem_append_left _ (h.known x hx p hp), ?_, fun p hp => ?_⟩
  · rw [List.map_append]
    refine h.drawn.append fun n hn e he => ?_
    simp only [List.length_map, List.map_cons, List.map_nil, List.length_singleton] at hn
    have hne : s.told.length ≠ n := by omega
    rw [List.mem_singleton.mp he]
    simp [htrack, hrandom.eq_iff, hne]
  · rw [List.map_append]
    refine h.series.other fun m hm id => ?_
    rw [List.mem_singleton.mp hm]
    simp [htrack]
  · rw [parentIn_concat hkey _ (hold a ha)]
    exact h.parents a ha
  · by_cases hscope : k.scope = .peer key
    · have hnone : ∀ x : Emit, x.scope ≠ .peer key → x.key ≠ k := by
        rintro x hx rfl
        exact hx hscope
      rw [List.filter_eq_nil_iff.mpr, List.filter_eq_nil_iff.mpr]
      · exact fun x hx => by simpa using hnone x (hnot x hx)
      · intro x hx
        obtain ⟨a, ha, rfl⟩ := List.mem_map.mp hx
        simpa using hnone a.1 (hold a ha)
    · rw [parentIn_concat hkey _ hscope] at hk
      exact h.complete k hk
  · rw [List.map_append, h.peers, firstKeys_concat, tryKey, addKey, ← h.peers, if_neg, if_pos]
    · rfl
    · rw [List.length_map]
      omega
    · exact not_mem_of_lookup hkey
  · rw [List.map_append, List.filter_append]
    rcases List.mem_append.mp hp with hp | hp
    · have hne : random s.told.length ≠ p.2 := by
        intro heq
        have hone := h.peerTracks p hp
        rw [← heq, hfresh] at hone
        cases hone
      simp [h.peerTracks p hp, htrack, hne]
    · rw [List.mem_singleton.mp hp, hfresh]
      simp [htrack]

include hrandom in
theorem Series.Shows.ensurePeer (h : s.Shows cfg conv random ps xs as) (x : Emit) :
    (s.ensurePeer cfg conv random x).Shows cfg conv random (ps ++ x.peer?.toList) xs as := by
  unfold Series.ensurePeer
  cases hpeer : x.peer? with
  | none => simpa using h
  | some key =>
    have hsame : tryKey cfg.maxPeerTracks (firstKeys cfg.maxPeerTracks ps) key =
        firstKeys cfg.maxPeerTracks ps →
        s.Shows cfg conv random (ps ++ [key]) xs as := fun htry =>
      ⟨h.drawn, h.submitted, h.series, h.parents, h.complete,
        fun y hy p hp => List.mem_append_left _ (h.known y hy p hp),
        by rw [firstKeys_concat, htry, h.peers], h.peerTracks⟩
    change (Series.ensurePeerTrack _ _ _ _ _ key).2.Shows _ _ _ (ps ++ [key]) _ _
    cases hkey : s.peerTrackIds.lookup key with
    | some id =>
      rw [Series.ensurePeerTrack_known hkey]
      apply hsame
      have hmem : key ∈ firstKeys cfg.maxPeerTracks ps := by
        rw [← h.peers]
        exact List.mem_map.mpr ⟨_, mem_of_lookup hkey, rfl⟩
      simp [tryKey, addKey, hmem]
    | none =>
      by_cases hfull : cfg.maxPeerTracks ≤ s.peerTrackIds.length
      · rw [Series.ensurePeerTrack_full hkey hfull]
        apply hsame
        rw [← h.peers]
        simp [tryKey, addKey, not_mem_of_lookup hkey, Nat.not_lt.mpr hfull]
      · rw [Series.ensurePeerTrack_accepting hkey hfull]
        exact h.newPeer hrandom hkey hfull

/-- The number of a series was drawn before. -/
theorem Series.Shows.ne_random (h : s.Shows cfg conv random ps xs as) {k : SeriesKey} {id n : ℕ}
    (hid : s.seriesIds k = some id) (hn : s.told.length ≤ n) : id ≠ random n := by
  rintro rfl
  obtain ⟨a, rest, -, hout⟩ := h.series.present k _ hid
  rw [h.drawn.counter (by rwa [List.length_map])] at hout
  cases hout

theorem exists_update_iff {ids : SeriesKey → Option ℕ} {key : SeriesKey} (h : ids key = none)
    (n id : ℕ) : (∃ k, Function.update ids key (some n) k = some id) ↔
      (∃ k, ids k = some id) ∨ id = n := by
  constructor
  · rintro ⟨k, hk⟩
    by_cases hkey : k = key
    · rw [hkey, Function.update_self] at hk
      exact Or.inr (Option.some.inj hk).symm
    · rw [Function.update_of_ne hkey] at hk
      exact Or.inl ⟨k, hk⟩
  · rintro (⟨k, hk⟩ | rfl)
    · have hne : k ≠ key := by
        rintro rfl
        cases h.symm.trans hk
      exact ⟨k, by rwa [Function.update_of_ne hne]⟩
    · exact ⟨key, Function.update_self ..⟩

include hrandom in
/-- A sample whose parent is there. -/
theorem Series.Shows.emitBelow (h : s.Shows cfg conv random ps xs as) {x : Emit}
    {parent : Option TrackType} (hparent : parentIn s.peerTrackIds x.scope = some parent)
    (hpeer : ∀ p, x.peer? = some p → p ∈ ps) :
    (s.emitBelow random accepting parent x).2.Shows cfg conv random ps (xs ++ [x])
      (as ++ [(x, parent)]) := by
  have hparents : ∀ a ∈ as ++ [(x, parent)], parentIn s.peerTrackIds a.1.scope = some a.2 := by
    intro a ha
    rcases List.mem_append.mp ha with ha | ha
    · exact h.parents a ha
    · rw [List.mem_singleton.mp ha]
      exact hparent
  have hcomplete : ∀ k : SeriesKey, (parentIn s.peerTrackIds k.scope).isSome →
      ((as ++ [(x, parent)]).map Prod.fst).filter (fun x => x.key = k) =
        (xs ++ [x]).filter fun x => x.key = k := by
    intro k hk
    rw [List.map_append, List.filter_append, List.filter_append, h.complete k hk]
    rfl
  have hknown : ∀ y ∈ xs ++ [x], ∀ p, y.peer? = some p → p ∈ ps := by
    intro y hy
    rcases List.mem_append.mp hy with hy | hy
    · exact h.known y hy
    · rw [List.mem_singleton.mp hy]
      exact hpeer
  have hcounter : ∀ i id, concerns id (.counter (x.counter i)) = decide (.counter i = id) :=
    fun i id => concerns_counter id _
  have htrack : ∀ i id, concerns id (.track (x.track parent i)) = decide (.counter i = id) :=
    fun i id => concerns_track id _
  have heach : ∀ (a : Emit × Option TrackType) (i : ℕ), ∀ m ∈ [Event.counter (a.1.counter i)],
      ∀ j, concerns (.counter j) m = decide (i = j) := by
    intro a i m hm j
    rw [List.mem_singleton.mp hm]
    simp [Emit.counter]
  cases hid : s.seriesIds x.key with
  | some id =>
    rw [Series.emitBelow_old hid ((h.submitted id).mpr ⟨_, hid⟩)]
    refine ⟨?_, h.submitted, ?_, hparents, hcomplete, hknown, h.peers, fun p hp => ?_⟩
    · rw [List.map_append]
      refine h.drawn.append fun n hn e he => ?_
      simp only [List.length_map, List.map_cons, List.map_nil, List.length_singleton] at hn
      rw [List.mem_singleton.mp he]
      simp [hcounter, h.ne_random hid (n := n) (by omega)]
    · rw [List.map_append]
      exact h.series.old heach hid
    · simp [List.filter_append, h.peerTracks p hp, hcounter]
  | none =>
    have hunsubmitted : TrackId.counter (random s.told.length) ∉ s.submittedTracks := by
      rw [h.submitted]
      rintro ⟨k, hk⟩
      exact h.ne_random hk (Nat.le_refl _) rfl
    rw [Series.emitBelow_new hid hunsubmitted]
    refine ⟨?_, fun id => ?_, ?_, hparents, hcomplete, hknown, h.peers, fun p hp => ?_⟩
    · rw [List.map_append]
      refine h.drawn.append fun n hn e he => ?_
      simp only [List.length_map, List.map_cons, List.map_nil, List.length_cons,
        List.length_nil] at hn
      have hne : s.told.length ≠ n := by omega
      simp only [List.map_cons, List.map_nil, List.mem_cons, List.not_mem_nil, or_false] at he
      rcases he with rfl | rfl <;> simp [htrack, hcounter, hrandom.eq_iff, hne]
    · rw [List.mem_append, h.submitted, List.mem_singleton, TrackId.counter.injEq]
      exact (exists_update_iff hid _ _).symm
    · rw [List.map_append]
      refine h.series.new heach (fun a i j => ?_) (a := (x, parent)) hid
        (h.drawn.counter (by rw [List.length_map]))
      simp [Emit.track, TrackType.toId]
    · simp [List.filter_append, h.peerTracks p hp, htrack, hcounter]

/-- A sample of a peer that has no track. -/
theorem Series.Shows.skip (h : s.Shows cfg conv random ps xs as) {x : Emit}
    (hparent : parentIn s.peerTrackIds x.scope = none) (hpeer : ∀ p, x.peer? = some p → p ∈ ps) :
    s.Shows cfg conv random ps (xs ++ [x]) as where
  drawn := h.drawn
  submitted := h.submitted
  series := h.series
  parents := h.parents
  complete k hk := by
    have hne : x.key ≠ k := by
      rintro rfl
      change (parentIn s.peerTrackIds x.scope).isSome at hk
      simp [hparent] at hk
    simp [h.complete k hk, List.filter_append, hne]
  known y hy := by
    rcases List.mem_append.mp hy with hy | hy
    · exact h.known y hy
    · rw [List.mem_singleton.mp hy]
      exact hpeer
  peers := h.peers
  peerTracks := h.peerTracks

include hrandom in
theorem Series.Shows.accept (h : s.Shows cfg conv random ps xs as) (x : Emit) :
    ∃ as', (s.accept cfg conv random x).Shows cfg conv random (ps ++ x.peer?.toList) (xs ++ [x])
      as' := by
  have hpeers := h.ensurePeer hrandom x
  have hpeer : ∀ p, x.peer? = some p → p ∈ ps ++ x.peer?.toList := by
    intro p hp
    simp [hp]
  rw [Series.accept_eq]
  cases hparent : parentIn (s.ensurePeer cfg conv random x).peerTrackIds x.scope with
  | some parent => exact ⟨_, hpeers.emitBelow hrandom hparent hpeer⟩
  | none => exact ⟨_, hpeers.skip hparent hpeer⟩

theorem Series.emitBelow_result (s : Series) (parent : Option TrackType) (x : Emit) :
    (s.emitBelow random accepting parent x).1 = 0 := by
  have hsubmit : ∀ (s : Series) (id : ℕ), (s.submitTrack accepting id parent x).1 = 0 := by
    intro s id
    unfold Series.submitTrack
    split_ifs <;> rfl
  simp only [Series.emitBelow, hsubmit, ne_eq, not_true, if_false]
  rfl

theorem Series.emitSample_result (s : Series) (x : Emit) :
    (s.emitSample cfg conv random accepting x).1 = 0 := by
  unfold Series.emitSample
  cases x.scope with
  | host => exact s.emitBelow_result none x
  | process tgid => exact s.emitBelow_result _ x
  | peer key =>
    cases hensure : s.ensurePeerTrack cfg conv random accepting key with
    | mk found s' =>
      simp only [hensure]
      cases found with
      | none => rfl
      | some id => exact s'.emitBelow_result _ x

theorem Series.emitAll_accepting (s : Series) (xs : List Emit) :
    (s.emitAll cfg conv random accepting xs).2 = xs.foldl (Series.accept cfg conv random) s := by
  induction xs generalizing s with
  | nil => rfl
  | cons x xs ih =>
    simp only [Series.emitAll, Series.emitSample_result, ne_eq, not_true, if_false]
    exact ih _

variable (cfg conv) in
/-- All samples reach the callback one after the other. -/
theorem report_accepting (xs : List Sampled) :
    (xs.foldl (User.report cfg conv random accepting) .new).series =
        ((differences cfg conv).outputs (fun _ => none) xs).foldl (Series.accept cfg conv random)
          .new ∧
      (xs.foldl (User.report cfg conv random accepting) .new).peerPrevious =
        (differences cfg conv).final (fun _ => none) xs := by
  induction xs using List.reverseRecOn with
  | nil => exact ⟨rfl, rfl⟩
  | append_singleton xs x ih =>
    obtain ⟨hseries, hprevious⟩ := ih
    rw [List.foldl_append, Machine.outputs_append, Machine.final_append, ← hprevious]
    refine ⟨?_, rfl⟩
    rw [List.foldl_append, ← hseries, ← Series.emitAll_accepting, Machine.outputs_cons,
      Machine.outputs_nil, List.append_nil]
    rfl

variable (cfg conv) in
include hrandom in
theorem shows_run (xs : List Emit) :
    ∃ as, (xs.foldl (Series.accept cfg conv random) .new).Shows cfg conv random
      (xs.filterMap Emit.peer?) xs as := by
  induction xs using List.reverseRecOn with
  | nil => exact ⟨[], shows_new⟩
  | append_singleton xs x ih =>
    obtain ⟨as, h⟩ := ih
    obtain ⟨as', h'⟩ := h.accept hrandom x
    refine ⟨as', ?_⟩
    have hpeers : (xs ++ [x]).filterMap Emit.peer? = xs.filterMap Emit.peer? ++ x.peer?.toList := by
      cases hp : x.peer? <;> simp [hp]
    rw [List.foldl_append, hpeers]
    exact h'

end Steps

/-! ## What the trace shows -/

section Trace
variable {cfg : NetTrackConfig} {conv : Conversions} {random : ℕ → ℕ} {s : Series}
  {ps : List PeerKey} {xs : List Emit} {as : List (Emit × Option TrackType)}

/-- A counter track is declared after the track of the peer that it is below. -/
theorem Series.Sound.parentFirst (h : s.Sound cfg conv) {x : Emit} {parent : Option TrackType}
    {id : ℕ} (hmem : .track (x.track parent id) ∈ s.told.map Prod.fst)
    (hparent : parentIn s.peerTrackIds x.scope = some parent) :
    ∀ p, (x.track parent id).parent = some p → isOther p.toId = false ∨
      ∃ before after, s.told.map Prod.fst = before ++ .track (x.track parent id) :: after ∧
        ∃ e ∈ before, (nameFor p.toId e).isSome := by
  rintro p rfl
  cases hscope : x.scope with
  | host => simp [hscope, parentIn] at hparent
  | process tgid =>
    obtain rfl : TrackType.process _ = p := by simpa [hscope, parentIn] using hparent
    exact Or.inl rfl
  | peer key =>
    obtain ⟨pid, -, rfl⟩ : ∃ pid, s.peerTrackIds.lookup key = some pid ∧ .custom pid = p := by
      simpa [hscope, parentIn] using hparent
    obtain ⟨e, he, htrack⟩ := List.mem_map.mp hmem
    obtain ⟨before, after, htold⟩ := List.append_of_mem he
    have hgrounds := h.grounded before e after htold
    rw [htrack] at hgrounds
    obtain ⟨t, ht, htype⟩ := hgrounds pid rfl
    obtain ⟨y, hy, hpeer⟩ := List.mem_filterMap.mp ht
    refine Or.inr ⟨before.map Prod.fst, after.map Prod.fst, ?_, y.1, List.mem_map_of_mem hy, ?_⟩
    · rw [htold, List.map_append, List.map_cons, htrack]
    · unfold acceptedPeer at hpeer
      split at hpeer
      · rename_i t' heq
        split_ifs at hpeer
        obtain rfl : t' = t := Option.some.inj hpeer
        rw [heq]
        simp [nameFor, htype]
      · cases hpeer

section Undisturbed
variable {messages : List Message} {io : ℕ → Bool}
  (hothers : Undisturbed (s.told.map Prod.fst) (messages.map fun m => m.event))
  (hok : ∀ r ∈ (converter io).outputs .new messages, r = .ok ())
include hothers hok

/-- The samples of a series that has a parent are all on its track. -/
theorem Series.Shows.seriesShown (h : s.Shows cfg conv random ps xs as) (hsound : s.Sound cfg conv)
    {x : Emit} (hx : x ∈ xs) {parent : Option TrackType}
    (hparent : parentIn s.peerTrackIds x.scope = some parent) :
    ∃ first id u, xs.find? (fun y => y.key = x.key) = some first ∧
      Faithful ((converter io).final .new messages) (first.track parent id)
        ((xs.filter fun y => y.key = x.key).map fun y => .counter (y.counter id)) u := by
  have hall : (as.map Prod.fst).filter (fun y => y.key = x.key) =
      xs.filter fun y => y.key = x.key := h.complete x.key (by simp [Emit.key, hparent])
  have hxmem : x ∈ xs.filter fun y => y.key = x.key := List.mem_filter.mpr ⟨hx, by simp⟩
  cases hid : s.seriesIds x.key with
  | none =>
    rw [← hall] at hxmem
    obtain ⟨a, ha, heq⟩ := List.mem_map.mp (List.mem_of_mem_filter hxmem)
    exact absurd (congrArg Emit.key heq) (h.series.absent _ hid a ha)
  | some id =>
    obtain ⟨a, rest, hrest, hout⟩ := h.series.present _ id hid
    have ha : a ∈ as ∧ a.1.key = x.key := by
      have hmem : a ∈ as.filter fun a => a.1.key = x.key := by
        rw [hrest]
        exact List.mem_cons_self
      simpa using List.mem_filter.mp hmem
    have hscope : a.1.scope = x.scope := congrArg SeriesKey.scope ha.2
    have hbelow : a.2 = parent := by
      have hown := h.parents a ha.1
      rw [hscope, hparent] at hown
      exact (Option.some.inj hown).symm
    have hsamples : (xs.filter fun y => y.key = x.key) = (a :: rest).map Prod.fst := by
      rw [← hall, List.filter_map, ← hrest]
      rfl
    rw [hbelow, ← List.map_eq_flatMap] at hout
    have hmem : .track (a.1.track parent id) ∈ s.told.map Prod.fst := by
      refine List.mem_of_mem_filter (p := concerns (.counter id)) ?_
      rw [hout]
      exact List.mem_cons_self
    obtain ⟨u, hu⟩ := hothers.shown io messages hok (t := a.1.track parent id) rfl hout
      (fun e he => by obtain ⟨y, -, rfl⟩ := List.mem_map.mp he; rfl)
      (hsound.parentFirst hmem (hscope ▸ hparent))
    refine ⟨a.1, id, u, ?_, ?_⟩
    · rw [← List.head?_filter, hsamples]
      rfl
    · rw [hsamples, List.map_map]
      exact hu

end Undisturbed

/-- The samples that are due when these rows come up. -/
def samples (cfg : NetTrackConfig) (conv : Conversions) (xs : List Sampled) : List Emit :=
  (differences cfg conv).outputs (fun _ => none) xs

/-- What the callback is told if it accepts everything. -/
def told (cfg : NetTrackConfig) (conv : Conversions) (random : ℕ → ℕ) (xs : List Sampled) :
    List Event :=
  (xs.foldl (User.report cfg conv random accepting) .new).series.told.map Prod.fst

variable (cfg conv) in
theorem told_run (hrandom : Function.Injective random) (xs : List Sampled) :
    ∃ (s : Series) (as : List (Emit × Option TrackType)),
      told cfg conv random xs = s.told.map Prod.fst ∧ s.Sound cfg conv ∧
      s.Shows cfg conv random ((samples cfg conv xs).filterMap Emit.peer?) (samples cfg conv xs)
        as := by
  obtain ⟨as, hshows⟩ := shows_run cfg conv hrandom (samples cfg conv xs)
  unfold samples at hshows
  rw [← (report_accepting cfg conv xs).1] at hshows
  exact ⟨_, as, rfl, sound_run cfg conv random accepting xs, hshows⟩

end Trace

def plain : Conversions := ⟨UInt64.ofNat, fun bytes _ => UInt64.ofNat bytes, fun _ => "::1"⟩

end Manytrace.Bpf.NetTrack
