import Manytrace.Core.Machine
import Manytrace.Protocol.Event
import Manytrace.Bpf.NetTrack

/-! How user space hands the network statistics to its callback. Every series has a counter track
of its own, which is declared before its first value, and the series of a peer are below a track
of the peer. What follows holds whatever the callback answers. -/
namespace Manytrace.Bpf.NetTrack
open Manytrace.Core Manytrace.Protocol

/-! ## Series -/

/-- The settings that only user space reads. -/
structure NetTrackConfig extends Config where
  scaled : Bool := false
  maxPeerTracks : ℕ := 512
deriving DecidableEq, Repr

/-- What the standard library computes: numbers as floats, the rate in bits per second of a
number of bytes in so many nanoseconds, and the text of an address. -/
structure Conversions where
  asF64 : ℕ → UInt64
  bitRate : (bytes elapsedNs : ℕ) → UInt64
  ipv6Text : List ℕ → String

def Protocol.name : Protocol → String
  | .tcp => "tcp"
  | .udp => "udp"

def Protocol.fromIndex : ℕ → Option Protocol
  | 0 => some .tcp
  | 1 => some .udp
  | _ => none

def afInet : ℕ := 2

def afInet6 : ℕ := 10

structure PeerKey where
  tgid : ℕ
  protocol : ℕ
  family : ℕ
  localPort : ℕ
  remotePort : ℕ
  remoteAddr : List ℕ
deriving DecidableEq, Repr

def PeerKey.trackName (conv : Conversions) (key : PeerKey) : String :=
  let protocol := ((Protocol.fromIndex key.protocol).map Protocol.name).getD "network"
  if key.family = afInet then
    protocol ++ " " ++ ".".intercalate ((key.remoteAddr.take 4).map toString) ++ ":" ++
      toString key.remotePort
  else if key.family = afInet6 then
    protocol ++ " [" ++ conv.ipv6Text key.remoteAddr ++ "]:" ++ toString key.remotePort
  else protocol ++ " unknown-peer"

inductive ScopeKey
  | host
  | process (tgid : ℕ)
  | peer (key : PeerKey)
deriving DecidableEq, Repr

inductive CounterKind
  | stat (c : Counter)
  | totalSendBytes
  | totalRecvBytes
deriving DecidableEq, Repr

structure SeriesKey where
  scope : ScopeKey
  protocol : Protocol
  kind : CounterKind
deriving DecidableEq, Repr

structure CounterSample where
  kind : CounterKind
  name : String
  value : UInt64
  unit : String
deriving DecidableEq, Repr

section Samples
variable (cfg : NetTrackConfig) (conv : Conversions)

/-- The samples of the bytes that were sent and received, under these kinds and names. -/
def byteSamples (send recv : CounterKind) (name : String) (stats : NetStats) (elapsed : ℕ) :
    List CounterSample :=
  if cfg.scaled then
    [⟨send, name ++ "_send_rate", conv.bitRate (stats (.count .sendBytes)) elapsed, "bits/s"⟩,
      ⟨recv, name ++ "_recv_rate", conv.bitRate (stats (.count .recvBytes)) elapsed, "bits/s"⟩]
  else
    [⟨send, name ++ "_send", conv.asF64 (stats (.count .sendBytes)), "bytes"⟩,
      ⟨recv, name ++ "_recv", conv.asF64 (stats (.count .recvBytes)), "bytes"⟩]

def countSample (c : Counter) (name : String) (stats : NetStats) : CounterSample :=
  ⟨.stat c, name, conv.asF64 (stats (.count c)), "count"⟩

def samplesFor (protocol : Protocol) (stats : NetStats) (elapsed : ℕ) : List CounterSample :=
  let name := protocol.name
  let operation := if protocol = .udp then "datagrams" else "calls"
  (if cfg.bytesEnabled then
    byteSamples cfg conv (.stat .sendBytes) (.stat .recvBytes) name stats elapsed
  else []) ++
  (if cfg.operationsEnabled then
    [countSample conv .sendOperations (name ++ "_send_" ++ operation) stats,
      countSample conv .recvOperations (name ++ "_recv_" ++ operation) stats,
      if protocol = .tcp then countSample conv .tcpRecvEof "tcp_recv_eof" stats
      else countSample conv .udpRecvTruncated "udp_recv_truncated" stats]
  else []) ++
  if cfg.errorsEnabled then
    [countSample conv .sendErrors (name ++ "_send_errors") stats,
      countSample conv .recvErrors (name ++ "_recv_errors") stats,
      countSample conv .sendWouldBlock (name ++ "_send_would_block") stats,
      countSample conv .recvWouldBlock (name ++ "_recv_would_block") stats]
  else []

end Samples

/-! ## The callback -/

/-- A sample on its way to the callback. -/
structure Emit where
  scope : ScopeKey
  protocol : Protocol
  sample : CounterSample
  timestamp : ℕ
deriving DecidableEq, Repr

def Emit.key (x : Emit) : SeriesKey := ⟨x.scope, x.protocol, x.sample.kind⟩

def Emit.track (x : Emit) (parent : Option TrackType) (id : ℕ) : Track where
  name := x.sample.name
  trackType := .counter id (some x.sample.unit)
  parent := parent

def Emit.counter (x : Emit) (id : ℕ) : Protocol.Counter where
  name := x.sample.name
  value := x.sample.value
  timestamp := x.timestamp
  trackId := .counter id
  labels := ⟨[], [], [], []⟩
  unit := some x.sample.unit

def PeerKey.track (conv : Conversions) (key : PeerKey) (id : ℕ) : Track where
  name := key.trackName conv
  trackType := .custom id
  parent := some (.process (asI32 (.ofNat key.tgid)))

/-- The tables of user space, and what its callback was told and has answered. -/
structure Series where
  seriesIds : SeriesKey → Option ℕ
  submittedTracks : List TrackId
  peerTrackIds : List (PeerKey × ℕ)
  told : List (Event × ℤ)

def Series.new : Series := ⟨fun _ => none, [], [], []⟩

section Emission
variable (cfg : NetTrackConfig) (conv : Conversions) (random : ℕ → ℕ)
  (callback : List (Event × ℤ) → Event → ℤ)

def Series.tell (s : Series) (e : Event) : ℤ × Series :=
  (callback s.told e, { s with told := s.told ++ [(e, callback s.told e)] })

/-- A number is drawn for a track just before the callback is told about the track. -/
def Series.ensurePeerTrack (s : Series) (key : PeerKey) : Option ℕ × Series :=
  match s.peerTrackIds.lookup key with
  | some id => (some id, s)
  | none =>
    if cfg.maxPeerTracks ≤ s.peerTrackIds.length then (none, s)
    else
      let id := random s.told.length
      let (result, s) := s.tell callback (.track (key.track conv id))
      if result ≠ 0 then (none, s)
      else (some id, { s with peerTrackIds := s.peerTrackIds ++ [(key, id)] })

def Series.seriesId (s : Series) (key : SeriesKey) : ℕ × Series :=
  match s.seriesIds key with
  | some id => (id, s)
  | none =>
    let id := random s.told.length
    (id, { s with seriesIds := Function.update s.seriesIds key (some id) })

def Series.submitTrack (s : Series) (id : ℕ) (parent : Option TrackType) (x : Emit) : ℤ × Series :=
  if TrackId.counter id ∈ s.submittedTracks then (0, s)
  else
    { s with submittedTracks := s.submittedTracks ++ [TrackId.counter id] }.tell callback
      (.track (x.track parent id))

/-- The end of `emit_sample`, below this parent. -/
def Series.emitBelow (s : Series) (parent : Option TrackType) (x : Emit) : ℤ × Series :=
  let (id, s) := s.seriesId random x.key
  let (result, s) := s.submitTrack callback id parent x
  if result ≠ 0 then (result, s) else s.tell callback (.counter (x.counter id))

def Series.emitSample (s : Series) (x : Emit) : ℤ × Series :=
  match x.scope with
  | .host => s.emitBelow random callback none x
  | .process tgid => s.emitBelow random callback (some (.process (asI32 (.ofNat tgid)))) x
  | .peer key =>
    match s.ensurePeerTrack cfg conv random callback key with
    | (some id, s) => s.emitBelow random callback (some (.custom id)) x
    | (none, s) => (0, s)

/-- The loops over samples, which end as soon as the callback refuses. -/
def Series.emitAll : Series → List Emit → ℤ × Series
  | s, [] => (0, s)
  | s, x :: xs =>
    let (result, s) := s.emitSample cfg conv random callback x
    if result ≠ 0 then (result, s) else s.emitAll xs

end Emission

/-! ## Sampling -/

/-- What a pass comes to: a difference of the host or of a process, or an entry of a peer. -/
inductive Row
  | emission (e : Emission)
  | peer (key : PeerKey) (current : NetStats)

structure Sampled where
  row : Row
  elapsed : ℕ
  now : ℕ

section Sampling
variable (cfg : NetTrackConfig) (conv : Conversions) (random : ℕ → ℕ)
  (callback : List (Event × ℤ) → Event → ℤ)

def Emission.emits (e : Emission) (elapsed now : ℕ) : List Emit :=
  match e.scope with
  | .host p => (samplesFor cfg conv p e.stats elapsed).map fun x => ⟨.host, p, x, now⟩
  | .hostTotal =>
    (byteSamples cfg conv .totalSendBytes .totalRecvBytes "total" e.stats elapsed).map
      fun x => ⟨.host, .tcp, x, now⟩
  | .process k =>
    (samplesFor cfg conv k.protocol e.stats elapsed).map
      fun x => ⟨.process k.tgid, k.protocol, x, now⟩

/-- The samples that are due, with the values of the peers that were read before. -/
def differences : Machine (PeerKey → Option NetStats) Sampled Emit where
  step previous x :=
    match x.row with
    | .emission e => (previous, e.emits cfg conv x.elapsed x.now)
    | .peer key current =>
      match Protocol.fromIndex key.protocol with
      | none => (previous, [])
      | some p =>
        (Function.update previous key (some current),
          (samplesFor cfg conv p (current.delta (previous key)) x.elapsed).map
            fun y => ⟨.peer key, p, y, x.now⟩)

structure User where
  peerPrevious : PeerKey → Option NetStats
  series : Series

def User.new : User := ⟨fun _ => none, .new⟩

def User.report (u : User) (x : Sampled) : User :=
  let (previous, xs) := (differences cfg conv).step u.peerPrevious x
  ⟨previous, (u.series.emitAll cfg conv random callback xs).2⟩

end Sampling

/-! ## Whatever the callback answers -/

def declares (id : TrackId) : Event → Bool
  | .track t => decide (t.trackType.toId = id)
  | _ => false

def isCustom : TrackType → Bool
  | .custom _ => true
  | _ => false

/-- The track of a peer, if this is one that the callback has accepted. -/
def acceptedPeer (x : Event × ℤ) : Option Track :=
  match x.1 with
  | .track t => if isCustom t.trackType ∧ x.2 = 0 then some t else none
  | _ => none

/-- What has to be told before the event: for a value its track, and for a track that is below
the track of a peer this one, with the consent of the callback. -/
def Grounds (told : List (Event × ℤ)) : Event → Prop
  | .counter c => ∃ x ∈ told, declares c.trackId x.1 = true
  | .track t => ∀ id, t.parent = some (.custom id) →
    ∃ p ∈ told.filterMap acceptedPeer, p.trackType = .custom id
  | _ => True

def Grounded (told : List (Event × ℤ)) : Prop :=
  ∀ before x after, told = before ++ x :: after → Grounds before x.1

theorem Grounded.concat {told : List (Event × ℤ)} (h : Grounded told) {x : Event × ℤ}
    (hx : Grounds told x.1) : Grounded (told ++ [x]) := by
  intro before y after heq
  rcases List.eq_nil_or_concat after with rfl | ⟨after, z, rfl⟩
  · obtain ⟨rfl, hy⟩ := List.append_inj' heq rfl
    cases hy
    exact hx
  · rw [List.concat_eq_append, ← List.cons_append, ← List.append_assoc] at heq
    exact h before y after (List.append_inj' heq rfl).1

/-- The tables agree with what was told. -/
structure Series.Sound (cfg : NetTrackConfig) (conv : Conversions) (s : Series) : Prop where
  grounded : Grounded s.told
  submitted : ∀ id, TrackId.counter id ∈ s.submittedTracks ↔
    ∃ x ∈ s.told, declares (.counter id) x.1 = true
  once : ∀ id, (s.told.filter fun x => declares (.counter id) x.1).length ≤ 1
  peers : s.told.filterMap acceptedPeer = s.peerTrackIds.map fun p => p.1.track conv p.2
  keys : (s.peerTrackIds.map Prod.fst).Nodup
  bounded : s.peerTrackIds.length ≤ cfg.maxPeerTracks

section Answers
variable {cfg : NetTrackConfig} {conv : Conversions} {random : ℕ → ℕ}
  {callback : List (Event × ℤ) → Event → ℤ} {s : Series}

theorem sound_new : Series.new.Sound cfg conv where
  grounded := by
    intro before x after h
    simp [Series.new] at h
  submitted := by simp [Series.new]
  once := by simp [Series.new]
  peers := rfl
  keys := List.nodup_nil
  bounded := Nat.zero_le _

theorem Series.Sound.tellCounter (h : s.Sound cfg conv) {id : ℕ}
    (hid : TrackId.counter id ∈ s.submittedTracks) (x : Emit) :
    (s.tell callback (.counter (x.counter id))).2.Sound cfg conv where
  grounded := h.grounded.concat ((h.submitted id).mp hid)
  submitted i := by simp [tell, h.submitted, declares, or_and_right, exists_or]
  once i := by simpa [tell, List.filter_append, declares] using h.once i
  peers := by simp [tell, h.peers, acceptedPeer]
  keys := h.keys
  bounded := h.bounded

/-- A parent that can be given to a track. -/
def Ready (told : List (Event × ℤ)) (parent : Option TrackType) : Prop :=
  ∀ id, parent = some (.custom id) → ∃ p ∈ told.filterMap acceptedPeer, p.trackType = .custom id

variable (callback) in
theorem Series.Sound.submitTrack (h : s.Sound cfg conv) {parent : Option TrackType}
    (hparent : Ready s.told parent) (id : ℕ) (x : Emit) :
    (s.submitTrack callback id parent x).2.Sound cfg conv ∧
      TrackId.counter id ∈ (s.submitTrack callback id parent x).2.submittedTracks := by
  unfold Series.submitTrack
  split_ifs with hid
  · exact ⟨h, hid⟩
  · have hdeclares : ∀ i, declares (.counter i) (.track (x.track parent id)) = decide (id = i) := by
      simp [declares, Emit.track, TrackType.toId]
    refine ⟨⟨h.grounded.concat hparent, fun i => ?_, fun i => ?_, ?_, h.keys, h.bounded⟩, ?_⟩
    · simp only [tell, List.mem_append, List.mem_singleton, h.submitted, or_and_right, exists_or,
        exists_eq_left, hdeclares, decide_eq_true_eq, TrackId.counter.injEq, eq_comm (a := i)]
    · simp only [tell, List.filter_append, List.filter_cons, List.filter_nil, hdeclares]
      by_cases hi : id = i
      · have hnone : s.told.filter (fun y => declares (.counter i) y.1) = [] := by
          refine List.filter_eq_nil_iff.mpr fun y hy hyes => hid ?_
          rw [hi]
          exact (h.submitted i).mpr ⟨y, hy, hyes⟩
        simp [hi, hnone]
      · simpa [hi] using h.once i
    · simp [tell, h.peers, acceptedPeer, Emit.track, isCustom]
    · simp [tell]

theorem not_mem_of_lookup {key : PeerKey} {table : List (PeerKey × ℕ)}
    (h : table.lookup key = none) : key ∉ table.map Prod.fst := by
  intro hmem
  obtain ⟨p, hp, rfl⟩ := List.mem_map.mp hmem
  simpa using List.lookup_eq_none_iff.mp h p hp

theorem mem_of_lookup {key : PeerKey} {table : List (PeerKey × ℕ)} {id : ℕ}
    (h : table.lookup key = some id) : (key, id) ∈ table := by
  obtain ⟨before, after, rfl, -⟩ := List.lookup_eq_some_iff.mp h
  exact List.mem_append_right _ List.mem_cons_self

section PeerTrack
variable {key : PeerKey}

theorem Series.ensurePeerTrack_known {id : ℕ} (hkey : s.peerTrackIds.lookup key = some id) :
    s.ensurePeerTrack cfg conv random callback key = (some id, s) := by
  simp [Series.ensurePeerTrack, hkey]

variable (hkey : s.peerTrackIds.lookup key = none)
include hkey

theorem Series.ensurePeerTrack_full (hfull : cfg.maxPeerTracks ≤ s.peerTrackIds.length) :
    s.ensurePeerTrack cfg conv random callback key = (none, s) := by
  simp [Series.ensurePeerTrack, hkey, hfull]

variable (hroom : ¬cfg.maxPeerTracks ≤ s.peerTrackIds.length)
include hroom

theorem Series.ensurePeerTrack_refused
    (hresult : callback s.told (.track (key.track conv (random s.told.length))) ≠ 0) :
    s.ensurePeerTrack cfg conv random callback key =
      (none, (s.tell callback (.track (key.track conv (random s.told.length)))).2) := by
  simp [Series.ensurePeerTrack, hkey, hroom, tell, hresult]

theorem Series.ensurePeerTrack_accepted
    (hresult : callback s.told (.track (key.track conv (random s.told.length))) = 0) :
    s.ensurePeerTrack cfg conv random callback key =
      (some (random s.told.length),
        { s with
          peerTrackIds := s.peerTrackIds ++ [(key, random s.told.length)]
          told := s.told ++ [(.track (key.track conv (random s.told.length)), 0)] }) := by
  simp [Series.ensurePeerTrack, hkey, hroom, tell, hresult]

end PeerTrack

variable (random callback)

/-- A track of a peer that the callback accepts is entered, one that it refuses is forgotten. -/
theorem Series.Sound.ensurePeerTrack (h : s.Sound cfg conv) (key : PeerKey) :
    (s.ensurePeerTrack cfg conv random callback key).2.Sound cfg conv ∧
      ∀ id, (s.ensurePeerTrack cfg conv random callback key).1 = some id →
        Ready (s.ensurePeerTrack cfg conv random callback key).2.told (some (.custom id)) := by
  cases hkey : s.peerTrackIds.lookup key with
  | some id =>
    rw [Series.ensurePeerTrack_known hkey]
    refine ⟨h, fun i hi j hj => ?_⟩
    cases hi
    cases hj
    refine ⟨key.track conv id, ?_, rfl⟩
    rw [h.peers]
    exact List.mem_map.mpr ⟨(key, id), mem_of_lookup hkey, rfl⟩
  | none =>
    have hdeclares : ∀ i j, declares (.counter j) (.track (key.track conv i)) = false := by
      simp [declares, PeerKey.track, TrackType.toId]
    have hgrounds : ∀ i, Grounds s.told (.track (key.track conv i)) := by
      simp [Grounds, PeerKey.track]
    by_cases hfull : cfg.maxPeerTracks ≤ s.peerTrackIds.length
    · rw [Series.ensurePeerTrack_full hkey hfull]
      exact ⟨h, by simp⟩
    · by_cases hresult : callback s.told (.track (key.track conv (random s.told.length))) = 0
      · rw [Series.ensurePeerTrack_accepted hkey hfull hresult]
        have hpeers : acceptedPeer (.track (key.track conv (random s.told.length)), 0) =
            some (key.track conv (random s.told.length)) := rfl
        refine ⟨⟨h.grounded.concat (hgrounds _), fun i => ?_, fun i => ?_, ?_, ?_, ?_⟩,
          fun i hi j hj => ?_⟩
        · simp [h.submitted, or_and_right, exists_or, hdeclares]
        · simpa [List.filter_append, hdeclares] using h.once i
        · simp [h.peers, hpeers]
        · rw [List.map_append]
          exact List.nodup_append_comm.mp
            (List.nodup_cons.mpr ⟨not_mem_of_lookup hkey, h.keys⟩)
        · rw [List.length_append, List.length_singleton]
          omega
        · cases hi
          cases hj
          refine ⟨key.track conv (random s.told.length), ?_, rfl⟩
          simp [hpeers]
      · rw [Series.ensurePeerTrack_refused hkey hfull hresult]
        refine ⟨⟨h.grounded.concat (hgrounds _), fun i => ?_, fun i => ?_, ?_, h.keys, h.bounded⟩,
          by simp⟩
        · simp [tell, h.submitted, or_and_right, exists_or, hdeclares]
        · simpa [tell, List.filter_append, hdeclares] using h.once i
        · simp [tell, h.peers, acceptedPeer, hresult]

theorem Series.Sound.emitBelow (h : s.Sound cfg conv) {parent : Option TrackType}
    (hparent : Ready s.told parent) (x : Emit) :
    (s.emitBelow random callback parent x).2.Sound cfg conv := by
  have hseries : (s.seriesId random x.key).2.Sound cfg conv ∧
      (s.seriesId random x.key).2.told = s.told := by
    unfold Series.seriesId
    cases s.seriesIds x.key with
    | some id => exact ⟨h, rfl⟩
    | none => exact ⟨⟨h.grounded, h.submitted, h.once, h.peers, h.keys, h.bounded⟩, rfl⟩
  unfold Series.emitBelow
  rw [← hseries.2] at hparent
  obtain ⟨hsound, hid⟩ := hseries.1.submitTrack callback hparent
    (s.seriesId random x.key).1 x
  simp only
  split_ifs
  · exact hsound
  · exact hsound.tellCounter hid x

theorem Series.Sound.emitSample (h : s.Sound cfg conv) (x : Emit) :
    (s.emitSample cfg conv random callback x).2.Sound cfg conv := by
  have hplain : ∀ parent : Option TrackType, (∀ id, parent ≠ some (.custom id)) →
      (s.emitBelow random callback parent x).2.Sound cfg conv := by
    intro parent hparent
    exact h.emitBelow random callback (fun id hid => absurd hid (hparent id)) x
  unfold Series.emitSample
  cases x.scope with
  | host => exact hplain none (by simp)
  | process tgid => exact hplain _ (by simp)
  | peer key =>
    obtain ⟨hsound, hready⟩ := h.ensurePeerTrack random callback key
    cases hensure : s.ensurePeerTrack cfg conv random callback key with
    | mk found s' =>
      rw [hensure] at hsound hready
      simp only [hensure]
      cases found with
      | none => exact hsound
      | some id => exact hsound.emitBelow random callback (hready id rfl) x

theorem Series.Sound.emitAll (h : s.Sound cfg conv) (xs : List Emit) :
    (s.emitAll cfg conv random callback xs).2.Sound cfg conv := by
  induction xs generalizing s with
  | nil => exact h
  | cons x xs ih =>
    have hx := h.emitSample random callback x
    unfold Series.emitAll
    simp only
    split_ifs
    · exact hx
    · exact ih hx

end Answers

theorem sound_run (cfg : NetTrackConfig) (conv : Conversions) (random : ℕ → ℕ)
    (callback : List (Event × ℤ) → Event → ℤ) (xs : List Sampled) :
    (xs.foldl (User.report cfg conv random callback) .new).series.Sound cfg conv := by
  induction xs using List.reverseRecOn with
  | nil => exact sound_new
  | append_singleton xs x ih =>
    rw [List.foldl_append]
    exact ih.emitAll random callback _

/-- Whatever is sampled and whatever the callback answers: a value is told only on a track that
was declared before, no counter track is declared twice, and no more tracks of peers are accepted
than there may be, no two for the same peer. -/
theorem network_messages_grounded (cfg : NetTrackConfig) (conv : Conversions) (random : ℕ → ℕ)
    (callback : List (Event × ℤ) → Event → ℤ) (xs : List Sampled) :
    let told := (xs.foldl (User.report cfg conv random callback) .new).series.told
    Grounded told ∧
      (∀ id, (told.filter fun x => declares (.counter id) x.1).length ≤ 1) ∧
      ∃ peers : List (PeerKey × ℕ), (peers.map Prod.fst).Nodup ∧
        peers.length ≤ cfg.maxPeerTracks ∧
        told.filterMap acceptedPeer = peers.map fun p => p.1.track conv p.2 := by
  have hsound := sound_run cfg conv random callback xs
  exact ⟨hsound.grounded, hsound.once, _, hsound.keys, hsound.bounded, hsound.peers⟩

end Manytrace.Bpf.NetTrack
