import Manytrace.Converter.Rendering

/-! What the trace keeps of the events when writes fail. A slice is written in two packets, its
begin and its end, and the second write may fail after the first. -/
namespace Manytrace.Converter
open Manytrace.Core Manytrace.Protocol

/-- The track of a span is there and the begin of its slice is written, but not the end. -/
def cutShort (io : ℕ → Bool) (c : PerfettoConverter) (m : Message) : Bool :=
  match m.event with
  | .span s =>
    match eventTrack io s.trackId c with
    | (.ok (some _), t) => io t.writes && !io (t.writes + 1)
    | _ => false
  | _ => false

/-- The begin of a slice alone. -/
def begun (uuid : ℕ) : Event → List (ℕ × TrackEvent)
  | .span s => [sliceBegin uuid s]
  | _ => []

/-- What the conversion of a message leaves on a track, if the event finds the track: all of the
event if the conversion succeeds, and otherwise at most the begin of a slice. -/
def leaves (io : ℕ → Bool) (uuid : ℕ) (c : PerfettoConverter) (m : Message) :
    List (ℕ × TrackEvent) :=
  let r := convertEvent io m.event m.streamId c
  if (trackOf m.event).bind r.2.trackMap = some uuid then
    if r.1.isOk then drawn uuid m.event
    else if cutShort io c m then begun uuid m.event else []
  else []

/-- What conversions leave on a track one after the other. -/
def leaving (io : ℕ → Bool) (uuid : ℕ) : Machine PerfettoConverter Message (ℕ × TrackEvent) where
  step c m := (((converter io).step c m).1, leaves io uuid c m)

def begins (l : List (ℕ × TrackEvent)) : ℕ := l.countP fun e => e.2.type = .sliceBegin

def ends (l : List (ℕ × TrackEvent)) : ℕ := l.countP fun e => e.2.type = .sliceEnd

section Writes
variable (io : ℕ → Bool) {c t : PerfettoConverter}

theorem writeTrackEvent_ok (hio : io c.writes = true) (owner : TrackId) (e : TrackEvent)
    (timestamp : ℕ) :
    ∃ t, writeTrackEvent io owner e timestamp c = (.ok (), t) ∧ t.trackMap = c.trackMap ∧
      t.writes = c.writes + 1 ∧ trackEvents t = trackEvents c ++ [(timestamp, e)] := by
  unfold writeTrackEvent writePacket
  rw [if_pos hio]
  refine ⟨_, rfl, rfl, rfl, ?_⟩
  simp [trackEvents, TracePacket.trackEvent?]

theorem writeTrackEvent_error (hio : io c.writes = false) (owner : TrackId) (e : TrackEvent)
    (timestamp : ℕ) :
    ∃ t, writeTrackEvent io owner e timestamp c = (.error .io, t) ∧ t.trackMap = c.trackMap ∧
      trackEvents t = trackEvents c := by
  unfold writeTrackEvent writePacket
  rw [if_neg (by simp [hio])]
  exact ⟨_, rfl, rfl, rfl⟩

/-- The track of a span, if it is found, is looked up without a trace. -/
theorem eventTrack_ok {id : TrackId} {r : Option ℕ} (h : eventTrack io id c = (.ok r, t)) :
    t.trackMap id = r ∧ trackEvents t = trackEvents c := by
  have hpost := (eventTrack_extends io c id).ok (a := r) (by rw [h])
  rw [h] at hpost
  exact ⟨hpost.1, by rw [hpost.2.events, List.append_nil]⟩

theorem convertSpan_some {s : Span} {uuid : ℕ}
    (h : eventTrack io s.trackId c = (.ok (some uuid), t)) :
    convertSpan io s c =
      (writeSliceBegin io s.trackId uuid s.name s.startTimestamp
          (createDebugAnnotations s.labels) >>= fun _ =>
        writeSliceEnd io s.trackId uuid s.endTimestamp) t :=
  Op.bind_ok h

theorem convertSpan_cutShort {s : Span} {streamId : Option ℕ}
    (h : cutShort io c ⟨.span s, streamId⟩ = true) :
    ∃ uuid t, convertSpan io s c = (.error .io, t) ∧ t.trackMap s.trackId = some uuid ∧
      trackEvents t = trackEvents c ++ [sliceBegin uuid s] := by
  unfold cutShort at h
  rcases htrack : eventTrack io s.trackId c with ⟨e | (_ | uuid), t₀⟩
  · simp [htrack] at h
  · simp [htrack] at h
  · obtain ⟨hbegin, hend⟩ : io t₀.writes = true ∧ io (t₀.writes + 1) = false := by
      simpa [htrack] using h
    obtain ⟨hmap, hsame⟩ := eventTrack_ok io htrack
    obtain ⟨t₁, hwrite, hmap₁, hwrites, hevents⟩ :=
      writeTrackEvent_ok io hbegin s.trackId (sliceBegin uuid s).2 s.startTimestamp
    rw [← hwrites] at hend
    obtain ⟨t₂, hfail, hmap₂, hlast⟩ :=
      writeTrackEvent_error io hend s.trackId (sliceEnd uuid s).2 s.endTimestamp
    refine ⟨uuid, t₂, ?_, by rw [hmap₂, hmap₁, hmap], by rw [hlast, hevents, hsame]; rfl⟩
    rw [convertSpan_some io htrack]
    exact (Op.bind_ok hwrite).trans hfail

/-- A conversion that is not cut short leaves nothing if it fails. -/
theorem convertSpan_failed {s : Span} {streamId : Option ℕ} {e : WriteError}
    (h : cutShort io c ⟨.span s, streamId⟩ = false) (hfail : convertSpan io s c = (.error e, t)) :
    trackEvents t = trackEvents c := by
  unfold cutShort at h
  rcases htrack : eventTrack io s.trackId c with ⟨e' | (_ | uuid), t₀⟩
  · have hconv : convertSpan io s c = (.error e', t₀) := Op.bind_error htrack
    have hquiet := eventTrack_extends io c s.trackId
    rw [Op.Post, htrack] at hquiet
    rw [hconv] at hfail
    cases hfail
    rw [Extends.events hquiet, List.append_nil]
  · have hconv : convertSpan io s c = (.ok (), t₀) := Op.bind_ok htrack
    rw [hconv] at hfail
    cases hfail
  · have hsame := (eventTrack_ok io htrack).2
    rw [convertSpan_some io htrack] at hfail
    cases hbegin : io t₀.writes with
    | false =>
      obtain ⟨t₁, hwrite, -, hevents⟩ :=
        writeTrackEvent_error io hbegin s.trackId (sliceBegin uuid s).2 s.startTimestamp
      cases (Op.bind_error hwrite).symm.trans hfail
      rw [hevents, hsame]
    | true =>
      -- the end is written, as the conversion is not cut short
      have hend : io (t₀.writes + 1) = true := by simpa [htrack, hbegin] using h
      obtain ⟨t₁, hwrite, -, hwrites, -⟩ :=
        writeTrackEvent_ok io hbegin s.trackId (sliceBegin uuid s).2 s.startTimestamp
      rw [← hwrites] at hend
      obtain ⟨t₂, hlast, -⟩ :=
        writeTrackEvent_ok io hend s.trackId (sliceEnd uuid s).2 s.endTimestamp
      cases ((Op.bind_ok hwrite).trans hlast).symm.trans hfail

end Writes

section Steps
variable (io : ℕ → Bool) (c : PerfettoConverter) (m : Message)

theorem cutShort_fails {m : Message} (h : cutShort io c m = true) :
    ∃ s uuid t, m.event = .span s ∧ convertEvent io m.event m.streamId c = (.error .io, t) ∧
      t.trackMap s.trackId = some uuid ∧ trackEvents t = trackEvents c ++ [sliceBegin uuid s] := by
  obtain ⟨event, streamId⟩ := m
  cases event with
  | span s =>
    obtain ⟨uuid, t, hconv, hmap, hevents⟩ := convertSpan_cutShort io h
    exact ⟨s, uuid, t, rfl, hconv, hmap, hevents⟩
  | _ => cases h

section Found
variable {uuid : ℕ}

theorem leaves_of_found
    (hu : (trackOf m.event).bind ((converter io).step c m).1.trackMap = some uuid) :
    leaves io uuid c m = if (convertEvent io m.event m.streamId c).1.isOk then drawn uuid m.event
      else if cutShort io c m then begun uuid m.event else [] :=
  if_pos hu

theorem leaves_of_not_found
    (hu : (trackOf m.event).bind ((converter io).step c m).1.trackMap ≠ some uuid) :
    leaves io uuid c m = [] :=
  if_neg hu

theorem leaves_cutShort (h : cutShort io c m = true)
    (hu : (trackOf m.event).bind ((converter io).step c m).1.trackMap = some uuid) :
    leaves io uuid c m = begun uuid m.event := by
  obtain ⟨s, -, t, -, hconv, -⟩ := cutShort_fails io c h
  rw [leaves_of_found io c m hu, hconv, h]
  rfl

end Found

/-- What a conversion adds to the trace, on whatever track. -/
theorem step_events :
    trackEvents ((converter io).step c m).1 = trackEvents c ++
      (((trackOf m.event).bind ((converter io).step c m).1.trackMap).elim [] fun u =>
        leaves io u c m) := by
  cases hcut : cutShort io c m with
  | true =>
    obtain ⟨s, uuid, t, hs, hconv, hmap, hevents⟩ := cutShort_fails io c hcut
    have hstep : ((converter io).step c m).1 = t := congrArg Prod.snd hconv
    have hu : (trackOf m.event).bind ((converter io).step c m).1.trackMap = some uuid := by
      rw [hstep, hs]
      exact hmap
    rw [hu, Option.elim_some, leaves_cutShort io c m hcut hu, hstep, hevents, hs]
    rfl
  | false =>
    rcases hconv : convertEvent io m.event m.streamId c with ⟨e | _, t⟩
    · have hstep : ((converter io).step c m).1 = t := congrArg Prod.snd hconv
      have hnone : trackEvents t = trackEvents c := by
        obtain ⟨event, streamId⟩ := m
        have hpost := convertEvent_extends io c event streamId
        rw [Op.Post, hconv] at hpost
        cases hpost with
        | silent h => rw [h.events, List.append_nil]
        | «open» h => exact convertSpan_failed io hcut hconv
      cases hu : (trackOf m.event).bind ((converter io).step c m).1.trackMap with
      | none => simp [hstep, hnone]
      | some u => simp [hstep, hnone, leaves_of_found io c m hu, hconv, hcut, Except.isOk,
          Except.toBool]
    · have hstep : ((converter io).step c m).1 = t := congrArg Prod.snd hconv
      have hext := (convertEvent_extends io c m.event m.streamId).ok (a := ()) (by rw [hconv])
      rw [hconv] at hext
      rw [hstep, hext.events]
      cases hu : (trackOf m.event).bind t.trackMap with
      | none => rfl
      | some u =>
        rw [← hstep] at hu
        simp [leaves_of_found io c m hu, hconv, Except.isOk, Except.toBool]

theorem uuid_of_mem_leaves {uuid : ℕ} {e : ℕ × TrackEvent} (h : e ∈ leaves io uuid c m) :
    e.2.trackUuid = uuid := by
  simp only [leaves] at h
  split_ifs at h
  · exact uuid_of_mem_drawn h
  · cases hevent : m.event with
    | span s =>
      rw [hevent] at h
      rw [List.mem_singleton.mp h]
      rfl
    | _ =>
      rw [hevent] at h
      cases h
  · cases h
  · cases h

theorem step_timeline (uuid : ℕ) :
    timeline ((converter io).step c m).1 uuid = timeline c uuid ++ leaves io uuid c m := by
  rw [timeline, step_events, List.filter_append]
  refine congrArg (timeline c uuid ++ ·) ?_
  cases hu : (trackOf m.event).bind ((converter io).step c m).1.trackMap with
  | none =>
    have hskip : leaves io uuid c m = [] := leaves_of_not_found io c m (by simp [hu])
    rw [hskip]
    rfl
  | some u =>
    by_cases hsame : u = uuid
    · subst hsame
      exact List.filter_eq_self.mpr fun e he => decide_eq_true (uuid_of_mem_leaves io c m he)
    · have hskip : leaves io uuid c m = [] := leaves_of_not_found io c m (by simp [hu, hsame])
      rw [hskip, List.filter_eq_nil_iff]
      intro e he
      rw [decide_eq_true_iff, uuid_of_mem_leaves io c m he]
      exact hsame

/-- Only a conversion that is cut short leaves a begin without an end. -/
theorem begins_leaves (uuid : ℕ) :
    begins (leaves io uuid c m) = ends (leaves io uuid c m) +
      if cutShort io c m = true ∧
        (trackOf m.event).bind ((converter io).step c m).1.trackMap = some uuid then 1 else 0 := by
  have hdrawn : begins (drawn uuid m.event) = ends (drawn uuid m.event) := by
    cases m.event <;> rfl
  by_cases hu : (trackOf m.event).bind ((converter io).step c m).1.trackMap = some uuid
  · cases hcut : cutShort io c m with
    | true =>
      obtain ⟨s, -, -, hs, -⟩ := cutShort_fails io c hcut
      rw [leaves_cutShort io c m hcut hu, if_pos ⟨rfl, hu⟩, hs]
      rfl
    | false =>
      rw [leaves_of_found io c m hu, hcut]
      by_cases hconv : (convertEvent io m.event m.streamId c).1.isOk = true
      · simpa [hconv] using hdrawn
      · simp [hconv, begins, ends]
  · rw [leaves_of_not_found io c m hu, if_neg fun h => hu h.2]
    rfl

theorem begins_step (uuid : ℕ) : begins (timeline ((converter io).step c m).1 uuid) =
    begins (timeline c uuid) + begins (leaves io uuid c m) := by
  rw [step_timeline, begins, List.countP_append]
  rfl

theorem ends_step (uuid : ℕ) : ends (timeline ((converter io).step c m).1 uuid) =
    ends (timeline c uuid) + ends (leaves io uuid c m) := by
  rw [step_timeline, ends, List.countP_append]
  rfl

/-- A track is in balance after a step if it was so before and the step is not cut short. A
begin that has no end is never made up for. -/
theorem balanced_step_iff (hle : ∀ u, ends (timeline c u) ≤ begins (timeline c u)) :
    (∀ u, begins (timeline ((converter io).step c m).1 u) =
        ends (timeline ((converter io).step c m).1 u)) ↔
      (∀ u, begins (timeline c u) = ends (timeline c u)) ∧ cutShort io c m = false := by
  have hleaves := begins_leaves io c m
  cases hcut : cutShort io c m with
  | false =>
    simp only [hcut, Bool.false_eq_true, false_and, if_false, Nat.add_zero] at hleaves
    simp only [begins_step, ends_step, hleaves, Nat.add_right_cancel_iff, and_true]
  | true =>
    obtain ⟨s, uuid, t, hs, hconv, hmap, -⟩ := cutShort_fails io c hcut
    have hu : (trackOf m.event).bind ((converter io).step c m).1.trackMap = some uuid := by
      change (trackOf m.event).bind (convertEvent io m.event m.streamId c).2.trackMap = some uuid
      rw [hconv, hs]
      exact hmap
    simp only [Bool.true_eq_false, and_false, iff_false]
    intro hall
    have huuid := hall uuid
    have hmore := hleaves uuid
    rw [if_pos ⟨hcut, hu⟩] at hmore
    rw [begins_step, ends_step] at huuid
    have hold := hle uuid
    omega

end Steps

theorem timeline_run (io : ℕ → Bool) (uuid : ℕ) (c : PerfettoConverter)
    (messages : List Message) : timeline ((converter io).final c messages) uuid =
      timeline c uuid ++ (leaving io uuid).outputs c messages := by
  induction messages generalizing c with
  | nil => simp
  | cons m messages ih =>
    rw [Machine.final_cons, ih, step_timeline, List.append_assoc]
    rfl

/-- Whatever fails, the timeline of a track is made up, message by message, of what each
conversion leaves there: an event that is converted is there as a whole, and of one that is not
there is nothing or the begin of a slice whose end could not be written. Begins and ends are
equal in number on every track exactly if no conversion is cut short. -/
theorem timeline_despite_failures (io : ℕ → Bool) (messages : List Message) :
    let c := (converter io).final .new messages
    (∀ u, timeline c u = (leaving io u).outputs .new messages) ∧
    ((∀ u, begins (timeline c u) = ends (timeline c u)) ↔
      (converter io).Meets (fun s m => cutShort io s m = false) .new messages) := by
  intro c
  refine ⟨fun u => timeline_run io u .new messages, ?_⟩
  have hany : (converter io).Meets (fun _ _ => True) .new messages :=
    Machine.meets_of_forall (P := fun _ => True) (fun _ _ => trivial) _
  have hiff : (∀ u, begins (timeline c u) = ends (timeline c u)) ↔
      (∀ u, begins (timeline .new u) = ends (timeline .new u)) ∧
        (converter io).Meets (fun s m => cutShort io s m = false) .new messages := by
    refine Machine.final_iff (J := fun c => ∀ u, ends (timeline c u) ≤ begins (timeline c u))
      (I := fun c => ∀ u, begins (timeline c u) = ends (timeline c u)) (fun s m hle _ u => ?_)
      (fun s m hle _ => balanced_step_iff io s m hle) (fun _ => Nat.le_refl _) hany
    have hleaves := begins_leaves io s m u
    rw [begins_step, ends_step, hleaves]
    have hold := hle u
    omega
  exact hiff.trans (and_iff_right fun _ => rfl)

end Manytrace.Converter
