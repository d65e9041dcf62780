import Mathlib.Data.List.Chain
import Manytrace.Agent.AgentState

/-! The session invariant: what the client map, the started client and the two flags say
about each other after every event, and that the extension is started and stopped in turn. -/
namespace Manytrace.Agent
open Manytrace.Core

/-- The invariant of the clients that are not about to be removed. -/
structure Inv (deleted : List ℕ) (st : AgentState) : Prop where
  another : st.anotherStarted = true ↔ st.startedClient.isSome
  started : ∀ c, st.startedClient = some c → c ∉ deleted ∧
    ∃ client, st.clients.lookup c = some client ∧ client.state = .started
  unique : ∀ c client, st.clients.lookup c = some client → client.state = .started →
    c ∉ deleted → st.startedClient = some c
  active : st.extensionActive = true → st.startedClient.isSome ∧ st.tracingExtension = true
  ids : ∀ c client, st.clients.lookup c = some client → c < st.nextClientId

theorem inv_new (timeoutMs : ℕ) (tracingExtension : Bool) :
    Inv [] (AgentState.new timeoutMs tracingExtension) := by
  constructor <;> simp [AgentState.new]

section Removal

theorem lookup_foldl_removeClient (cs : List ℕ) (st : AgentState) (c : ℕ) :
    (cs.foldl AgentState.removeClient st).clients.lookup c =
      if c ∈ cs then none else st.clients.lookup c := by
  induction cs generalizing st with
  | nil => simp
  | cons d cs ih =>
    rw [List.foldl_cons, ih]
    by_cases hc : c ∈ cs
    · simp [hc]
    · by_cases hd : c = d
      · subst hd
        simp [hc, AgentState.removeClient]
      · simp [hc, hd, AgentState.removeClient, AList.lookup_erase_ne hd]

theorem foldl_removeClient_eq (cs : List ℕ) (st : AgentState) :
    cs.foldl AgentState.removeClient st =
      { st with clients := (cs.foldl AgentState.removeClient st).clients } := by
  induction cs generalizing st with
  | nil => rfl
  | cons d cs ih => rw [List.foldl_cons, ih]; rfl

theorem Inv.remove {st : AgentState} {deleted : List ℕ} (h : Inv deleted st) :
    Inv [] (deleted.foldl AgentState.removeClient st) := by
  have hlook : ∀ c client, (deleted.foldl AgentState.removeClient st).clients.lookup c =
      some client → c ∉ deleted ∧ st.clients.lookup c = some client := by
    intro c client hc
    rw [lookup_foldl_removeClient] at hc
    split_ifs at hc with hm
    exact ⟨hm, hc⟩
  rw [foldl_removeClient_eq]
  refine ⟨h.another, ?_, ?_, h.active, ?_⟩
  · intro c hc
    obtain ⟨hm, client, hl, hs⟩ := h.started c hc
    exact ⟨by simp, client, by rw [lookup_foldl_removeClient, if_neg hm, hl], hs⟩
  · intro c client hc hs _
    obtain ⟨hm, hl⟩ := hlook c client hc
    exact h.unique c client hl hs hm
  · intro c client hc
    exact h.ids c client (hlook c client hc).2

/-- Removing clients other than the started one is always fine. -/
theorem Inv.delete {st : AgentState} (h : Inv [] st) {deleted : List ℕ}
    (hd : ∀ c ∈ deleted, st.startedClient ≠ some c) : Inv deleted st where
  another := h.another
  started := fun c hc => ⟨fun hm => hd c hm hc, (h.started c hc).2⟩
  unique := fun c client hl hs _ => h.unique c client hl hs (by simp)
  active := h.active
  ids := h.ids

/-- Ending the session of a client that is removed. -/
theorem Inv.end_session {st : AgentState} (h : Inv [] st) {c : ℕ} {deleted : List ℕ}
    (hc : st.startedClient = some c) (hm : c ∈ deleted) :
    Inv deleted { st with
      extensionActive := false, anotherStarted := false, startedClient := none } where
  another := by simp
  started := by simp
  unique := by
    intro d client hl hs hd
    have he : some c = some d := hc.symm.trans (h.unique d client hl hs (by simp))
    exact absurd (Option.some.inj he ▸ hm) hd
  active := by simp
  ids := h.ids

end Removal

inductive Call
  | start
  | stop
deriving DecidableEq, Repr

/-- The successful starts and the stops of the extension. -/
def Output.call? : Output → Option Call
  | .extensionStart _ (.ok ()) => some .start
  | .extensionStop => some .stop
  | _ => none

def calls (os : List Output) : List Call := os.filterMap Output.call?

/-- The calls of one event, with the flag before and after. -/
inductive CallStep : Bool → Bool → List Call → Prop
  | nothing (b : Bool) : CallStep b b []
  | start : CallStep false true [.start]
  | stop : CallStep true false [.stop]

/-- What every handler guarantees. -/
structure Handled (st st' : AgentState) (os : List Output) : Prop where
  inv : Inv (deletedClients os) st'
  called : CallStep st.extensionActive st'.extensionActive (calls os)
  present : .panicked .missingClient ∉ os

section Handlers
variable {st : AgentState}

/-- The stop of the extension does nothing but clear the flag, and reports a call if the
flag was set. -/
theorem Inv.stopExtension_eq (h : Inv [] st) :
    st.stopExtension = ({ st with extensionActive := false },
      if st.extensionActive then [.extensionStop] else []) := by
  unfold AgentState.stopExtension
  cases ha : st.extensionActive with
  | false =>
    obtain ⟨clients, startedClient, nextClientId, anotherStarted, timeoutNs, ext, active⟩ := st
    subst ha
    rfl
  | true => simp [(h.active ha).2]

theorem Inv.accept_handled (h : Inv [] st) (now : ℕ) :
    Handled st (st.accept now).1 (st.accept now).2 := by
  unfold AgentState.accept
  split_ifs with hlt
  · refine ⟨⟨h.another, ?_, ?_, h.active, ?_⟩, .nothing _, by simp⟩
    · intro c hc
      obtain ⟨-, client, hl, hs⟩ := h.started c hc
      have hne : c ≠ st.nextClientId := (h.ids c client hl).ne
      exact ⟨by simp [deletedClients], client, by rw [AList.lookup_insert_ne hne, hl], hs⟩
    · intro c client hl hs _
      by_cases hc : c = st.nextClientId
      · subst hc
        rw [AList.lookup_insert] at hl
        cases Option.some.inj hl
        cases hs
      · rw [AList.lookup_insert_ne hc] at hl
        exact h.unique c client hl hs (by simp)
    · intro c client hl
      by_cases hc : c = st.nextClientId
      · subst hc
        exact Nat.lt_succ_self _
      · rw [AList.lookup_insert_ne hc] at hl
        exact Nat.lt_succ_of_lt (h.ids c client hl)
  · exact ⟨h, .nothing _, by simp⟩

theorem Inv.handleDisconnect_handled (h : Inv [] st) (c : ℕ) :
    Handled st (st.handleDisconnect c).1 (st.handleDisconnect c).2 := by
  unfold AgentState.handleDisconnect
  split_ifs with hc
  · rw [h.stopExtension_eq]
    refine ⟨h.end_session hc (by cases st.extensionActive <;> simp [deletedClients,
      Output.deleted?]), ?_, by cases st.extensionActive <;> simp⟩
    cases st.extensionActive with
    | false => exact .nothing _
    | true => exact .stop
  · refine ⟨h.delete ?_, .nothing _, by simp⟩
    simpa [deletedClients, Output.deleted?] using hc

theorem deletedClients_expired (cs : List ℕ) :
    deletedClients (cs.map fun c => .action (.deleteEpoll c)) = cs := by
  simp [deletedClients, List.filterMap_map, Function.comp_def, Output.deleted?]

theorem calls_expired (cs : List ℕ) :
    calls (cs.map fun c => .action (.deleteEpoll c)) = [] := by
  simp [calls, List.filterMap_map, Function.comp_def, Output.call?]

theorem startedClient_of_expired {clock : ℕ → ℕ} {c : ℕ} (hc : c ∈ st.expiredPending clock) :
    st.startedClient ≠ some c := by
  obtain ⟨e, -, he⟩ := List.mem_filterMap.mp hc
  split_ifs at he with hs ht
  obtain rfl := Option.some.inj he
  exact Ne.symm hs

theorem Inv.timer_handled (h : Inv [] st) (clock : ℕ → ℕ) :
    Handled st (st.timer clock).1 (st.timer clock).2 := by
  have hpending : ∀ c ∈ st.expiredPending clock, st.startedClient ≠ some c :=
    fun c => startedClient_of_expired
  have hquiet : Handled st st
      ((st.expiredPending clock).map fun c => .action (.deleteEpoll c)) := by
    refine ⟨?_, ?_, by simp⟩
    · rw [deletedClients_expired]
      exact h.delete hpending
    · rw [calls_expired]
      exact .nothing _
  unfold AgentState.timer
  cases hc : st.startedClient with
  | none => exact hquiet
  | some c =>
    obtain ⟨-, client, hl, hs⟩ := h.started c hc
    simp only [hl]
    split_ifs with ht
    · exact hquiet
    · rw [h.stopExtension_eq]
      refine ⟨h.end_session hc (by simp [deletedClients, Output.deleted?]), ?_,
        by cases st.extensionActive <;> simp⟩
      rw [calls, List.filterMap_append, ← calls, calls_expired]
      cases st.extensionActive with
      | false => exact .nothing _
      | true => exact .stop

end Handlers

section Messages
variable {a : AgentProcess} {osPid : ℤ} {c : ℕ}

/-- The ways through a `Start` of the client `c`: the agent after it, its outputs and its
result. -/
inductive StartPath (a : AgentProcess) (c : ℕ) (env : Env) :
    AgentProcess × List Output × Option MessageResult → Prop
  | refused (reason : String) : StartPath a c env (a, [reply c (.nack reason)], none)
  | failed (e : Mpscbuf.MpscBufError) : StartPath a c env (a, [], some (.error e))
  | overflowed : StartPath a c env (a, [.panicked .arithmeticOverflow], none)
  | rejected (tracingArgs : TracingArgs) (pid : ℤ) (reason : String) :
    StartPath a c env (⟨a.state, pid⟩, processTrack env pid ++
      [.extensionStart tracingArgs (.error reason), reply c (.nack reason)], none)
  | extended (tracingArgs : TracingArgs) (pid : ℤ) :
    a.state.anotherStarted = false → a.state.tracingExtension = true →
    StartPath a c env (⟨{ a.state with extensionActive := true }, pid⟩, processTrack env pid ++
      [.extensionStart tracingArgs (.ok ()), reply c .ack], some .started)
  | granted (pid : ℤ) :
    a.state.anotherStarted = false → a.state.tracingExtension = false →
    StartPath a c env (⟨a.state, pid⟩, processTrack env pid ++ [reply c .ack], some .started)

theorem handleStart_path (osPid : ℤ) (a : AgentProcess) (c bufferSize : ℕ) (args : Args)
    (rawFds : List ℤ) (env : Env) :
    StartPath a c env (handleStart osPid a c bufferSize args rawFds env) := by
  unfold handleStart
  by_cases hs : a.state.anotherStarted = true
  · rw [if_pos hs]
    exact .refused _
  rw [if_neg hs]
  rw [Bool.not_eq_true] at hs
  cases args.tracing with
  | none => exact .refused _
  | some tracingArgs =>
    match rawFds with
    | [] | [_] => exact .refused _
    | memoryFd :: notificationFd :: _ =>
      dsimp only
      by_cases hfd : (!validateAndConvertFd env memoryFd ||
          !validateAndConvertFd env notificationFd) = true
      · rw [if_pos hfd]
        exact .refused _
      rw [if_neg hfd]
      cases env.producerNew bufferSize with
      | error e => exact .failed e
      | ok u =>
        dsimp only
        cases chooseProcessId osPid a.processId env.random
          (args.options.lookup randomProcessIdOption) with
        | none => exact .overflowed
        | some pid =>
          dsimp only
          by_cases hext : a.state.tracingExtension = true
          · rw [if_pos hext]
            cases env.extensionStart with
            | error msg => exact .rejected tracingArgs pid msg
            | ok v => exact .extended tracingArgs pid hs hext
          · rw [if_neg hext]
            exact .granted pid hs (by simpa using hext)

/-- What a `Start` does to the state, with the calls of the extension and the result. -/
inductive StartOutcome (st : AgentState) : AgentState → List Call → Option MessageResult → Prop
  | refused : StartOutcome st st [] none
  | failed (e : Mpscbuf.MpscBufError) : StartOutcome st st [] (some (.error e))
  | granted : st.anotherStarted = false → StartOutcome st st [] (some .started)
  | extended : st.anotherStarted = false → st.tracingExtension = true →
    StartOutcome st { st with extensionActive := true } [.start] (some .started)

/-- Outputs that remove no client and do not come from the failed lookup. -/
structure Quiet (os : List Output) : Prop where
  deleted : deletedClients os = []
  present : .panicked .missingClient ∉ os

theorem quiet_singleton {o : Output} (hd : o.deleted? = none)
    (hp : o ≠ .panicked .missingClient) : Quiet [o] where
  deleted := by simp [deletedClients, hd]
  present := by simpa using hp.symm

theorem quiet_processTrack (env : Env) (pid : ℤ) {os : List Output} (h : Quiet os) :
    Quiet (processTrack env pid ++ os) := by
  unfold processTrack
  cases env.currentExe with
  | none => exact h
  | some name => exact ⟨by simpa [deletedClients, Output.deleted?] using h.deleted,
      by simpa using h.present⟩

theorem calls_processTrack (env : Env) (pid : ℤ) (os : List Output) :
    calls (processTrack env pid ++ os) = calls os := by
  unfold processTrack
  cases env.currentExe <;> rfl

theorem handleStart_spec (osPid : ℤ) (a : AgentProcess) (c bufferSize : ℕ) (args : Args)
    (rawFds : List ℤ) (env : Env) :
    StartOutcome a.state (handleStart osPid a c bufferSize args rawFds env).1.state
        (calls (handleStart osPid a c bufferSize args rawFds env).2.1)
        (handleStart osPid a c bufferSize args rawFds env).2.2 ∧
      Quiet (handleStart osPid a c bufferSize args rawFds env).2.1 := by
  have hpath := handleStart_path osPid a c bufferSize args rawFds env
  generalize handleStart osPid a c bufferSize args rawFds env = r at hpath ⊢
  cases hpath with
  | refused reason => exact ⟨.refused, quiet_singleton rfl (by simp [reply])⟩
  | failed e => exact ⟨.failed e, rfl, by simp⟩
  | overflowed => exact ⟨.refused, quiet_singleton rfl (by simp)⟩
  | rejected tracingArgs pid reason =>
    refine ⟨?_, quiet_processTrack env pid ⟨rfl, by simp [reply]⟩⟩
    rw [calls_processTrack]
    exact .refused
  | extended tracingArgs pid hs hext =>
    refine ⟨?_, quiet_processTrack env pid ⟨rfl, by simp [reply]⟩⟩
    rw [calls_processTrack]
    exact .extended hs hext
  | granted pid hs _ =>
    refine ⟨?_, quiet_processTrack env pid ⟨rfl, by simp [reply]⟩⟩
    rw [calls_processTrack]
    exact .granted hs

theorem Handled.refl {st : AgentState} {os : List Output} (h : Inv [] st) (hq : Quiet os)
    (hc : calls os = []) : Handled st st os where
  inv := hq.deleted ▸ h
  called := hc ▸ .nothing _
  present := hq.present

/-- A client that changes from pending to started while nobody else has. -/
theorem Inv.start_session {st : AgentState} (h : Inv [] st) {client : AgentClientState}
    (hl : st.clients.lookup c = some client) (hs : st.anotherStarted = false)
    {active : Bool} (hx : active = true → st.tracingExtension = true) (now : ℕ) :
    Inv [] { st with
      extensionActive := active
      anotherStarted := true
      startedClient := some c
      clients := st.clients.insert c ⟨.started, now⟩ } where
  another := by simp
  started := by
    intro d hd
    obtain rfl := Option.some.inj hd
    exact ⟨by simp, _, AList.lookup_insert _, rfl⟩
  unique := by
    intro d client' hl' hs' _
    by_cases hd : d = c
    · rw [hd]
    · rw [AList.lookup_insert_ne hd] at hl'
      have hsome := h.another.mpr (by simp [h.unique d client' hl' hs' (by simp)])
      simp [hs] at hsome
  active := fun ha => ⟨rfl, hx ha⟩
  ids := by
    intro d client' hl'
    by_cases hd : d = c
    · exact hd ▸ h.ids c client hl
    · rw [AList.lookup_insert_ne hd] at hl'
      exact h.ids d client' hl'

/-- A keep-alive changes the time stamp only. -/
theorem Inv.touch {st : AgentState} (h : Inv [] st) {client : AgentClientState}
    (hl : st.clients.lookup c = some client) (now : ℕ) :
    Inv [] { st with clients := st.clients.insert c { client with timestampNs := now } } where
  another := h.another
  started := by
    intro d hd
    obtain ⟨-, client', hl', hs⟩ := h.started d hd
    by_cases hdc : d = c
    · subst hdc
      obtain rfl : client = client' := Option.some.inj (hl.symm.trans hl')
      exact ⟨by simp, _, AList.lookup_insert _, hs⟩
    · exact ⟨by simp, client', by rw [AList.lookup_insert_ne hdc, hl'], hs⟩
  unique := by
    intro d client' hl' hs _
    by_cases hdc : d = c
    · subst hdc
      rw [AList.lookup_insert] at hl'
      obtain rfl := Option.some.inj hl'
      exact h.unique d client hl hs (by simp)
    · rw [AList.lookup_insert_ne hdc] at hl'
      exact h.unique d client' hl' hs (by simp)
  active := h.active
  ids := by
    intro d client' hl'
    by_cases hdc : d = c
    · exact hdc ▸ h.ids c client hl
    · rw [AList.lookup_insert_ne hdc] at hl'
      exact h.ids d client' hl'

/-- A disconnect after outputs that only reply. -/
theorem Handled.disconnect {st : AgentState} (h : Inv [] st) {os : List Output} (hq : Quiet os)
    (hc : calls os = []) :
    Handled st (st.handleDisconnect c).1 (os ++ (st.handleDisconnect c).2) := by
  have hd := h.handleDisconnect_handled c
  refine ⟨?_, ?_, ?_⟩
  · have hdel : deletedClients (os ++ (st.handleDisconnect c).2) =
        deletedClients (st.handleDisconnect c).2 := by
      have hnil := hq.deleted
      unfold deletedClients at hnil ⊢
      rw [List.filterMap_append, hnil, List.nil_append]
    rw [hdel]
    exact hd.inv
  · have hcall : calls (os ++ (st.handleDisconnect c).2) = calls (st.handleDisconnect c).2 := by
      unfold calls at hc ⊢
      rw [List.filterMap_append, hc, List.nil_append]
    rw [hcall]
    exact hd.called
  · exact fun hm => (List.mem_append.mp hm).elim hq.present hd.present

theorem Inv.handleMessage_handled (h : Inv [] a.state) (msg : ControlMessage)
    (rawFds : List ℤ) (env : Env) :
    Handled a.state (handleMessage osPid a c msg rawFds env).1.state
      (handleMessage osPid a c msg rawFds env).2 := by
  have hreply : ∀ m, Quiet [reply c m] := fun m => quiet_singleton rfl (by simp [reply])
  have hnone : Handled a.state a.state [] := Handled.refl h ⟨rfl, by simp⟩ rfl
  unfold handleMessage
  by_cases hv : msg = .version
  · simp only [if_pos hv]
    exact Handled.refl h (hreply _) rfl
  simp only [if_neg hv]
  cases hl : a.state.clients.lookup c with
  | none => exact hnone
  | some client =>
    obtain ⟨phase, timestampNs⟩ := client
    simp only [handleClient]
    cases phase with
    | pending =>
      cases msg with
      | start bufferSize args =>
        obtain ⟨hout, hq⟩ := handleStart_spec osPid a c bufferSize args rawFds env
        dsimp only
        generalize handleStart osPid a c bufferSize args rawFds env = r at hout hq
        obtain ⟨⟨st', pid⟩, os, result⟩ := r
        dsimp only at hout hq ⊢
        generalize hcs : calls os = cs at hout
        cases hout with
        | refused => exact Handled.refl h hq hcs
        | failed e => exact Handled.disconnect h hq hcs
        | granted hs =>
          exact ⟨hq.deleted ▸ h.start_session hl hs (fun ha => (h.active ha).2) env.now,
            hcs ▸ .nothing _, hq.present⟩
        | extended hs hx =>
          have hoff : a.state.extensionActive = false := by
            by_contra hon
            have hsome := h.another.mpr (h.active (by simpa using hon)).1
            simp [hs] at hsome
          refine ⟨hq.deleted ▸ h.start_session hl hs (fun _ => hx) env.now, ?_, hq.present⟩
          rw [hcs, hoff]
          exact .start
      | _ => exact hnone
    | started =>
      cases msg with
      | stop => exact Handled.disconnect h (hreply _) rfl
      | continue_ => exact ⟨h.touch hl env.now, .nothing _, (hreply _).present⟩
      | _ => exact hnone

end Messages

/-- The calls of the extension so far, and whether it is running. -/
structure Alternates (active : Bool) (cs : List Call) : Prop where
  chain : cs.IsChain (· ≠ ·)
  first : ∀ c, cs.head? = some c → c = .start
  running : active = true ↔ cs.getLast? = some .start

theorem Alternates.step {b b' : Bool} {cs ds : List Call} (h : Alternates b cs)
    (hs : CallStep b b' ds) : Alternates b' (cs ++ ds) := by
  cases hs with
  | nothing => simpa using h
  | start =>
    refine ⟨?_, ?_, by simp⟩
    · refine h.chain.append (List.isChain_singleton _) ?_
      rintro x hx y hy rfl
      obtain rfl : x = .start := by simpa using hy.symm
      exact absurd (h.running.mpr hx) (by simp)
    · intro c hc
      cases cs with
      | nil => simpa using hc.symm
      | cons d ds => exact h.first c (by simpa using hc)
  | stop =>
    have hlast : cs.getLast? = some .start := h.running.mp rfl
    refine ⟨?_, ?_, by simp⟩
    · refine h.chain.append (List.isChain_singleton _) ?_
      rintro x hx y hy rfl
      obtain rfl : x = .start := Option.some.inj (Eq.symm (hlast.symm.trans hx))
      simp at hy
    · intro c hc
      cases cs with
      | nil => simp at hlast
      | cons d ds => exact h.first c (by simpa using hc)

/-- What every event of the listener guarantees. -/
theorem step_handled (osPid : ℤ) {a : AgentProcess} (h : Inv [] a.state) (e : AgentEvent) :
    ∃ st', Handled a.state st' ((agentLoop osPid).step a e).2 ∧
      ((agentLoop osPid).step a e).1.state =
        (deletedClients ((agentLoop osPid).step a e).2).foldl AgentState.removeClient st' := by
  cases e with
  | accept now => exact ⟨_, h.accept_handled now, rfl⟩
  | message c msg rawFds env => exact ⟨_, h.handleMessage_handled msg rawFds env, rfl⟩
  | disconnect c => exact ⟨_, h.handleDisconnect_handled c, rfl⟩
  | timer clock => exact ⟨_, h.timer_handled clock, rfl⟩

/-- The state and everything the agent has put out since its creation. -/
structure History (a : AgentProcess) (os : List Output) : Prop where
  inv : Inv [] a.state
  alternates : Alternates a.state.extensionActive (calls os)
  present : .panicked .missingClient ∉ os

theorem History.step (osPid : ℤ) {a : AgentProcess} {os : List Output} (h : History a os)
    (e : AgentEvent) :
    History ((agentLoop osPid).step a e).1 (os ++ ((agentLoop osPid).step a e).2) := by
  obtain ⟨st', hh, hst⟩ := step_handled osPid h.inv e
  refine ⟨?_, ?_, ?_⟩
  · rw [hst]
    exact hh.inv.remove
  · have hactive : ((agentLoop osPid).step a e).1.state.extensionActive = st'.extensionActive := by
      rw [hst, foldl_removeClient_eq]
    rw [hactive, calls, List.filterMap_append]
    exact h.alternates.step hh.called
  · exact fun hm => (List.mem_append.mp hm).elim h.present hh.present

/-- What the redundant parts of the agent's state say about each other. -/
structure SessionOk (st : AgentState) : Prop where
  another : st.anotherStarted = true ↔ ∃ c, st.startedClient = some c
  started : ∀ c, st.startedClient = some c → ∃ client, st.clients.lookup c = some client ∧
    client.state = .started ∧ ∀ d client', st.clients.lookup d = some client' →
      client'.state = .started → d = c
  active : st.extensionActive = true → ∃ c, st.startedClient = some c

theorem Inv.sessionOk {st : AgentState} (h : Inv [] st) : SessionOk st where
  another := by rw [h.another, Option.isSome_iff_exists]
  started := by
    intro c hc
    obtain ⟨-, client, hl, hs⟩ := h.started c hc
    refine ⟨client, hl, hs, fun d client' hl' hs' => ?_⟩
    exact Option.some.inj ((h.unique d client' hl' hs' (by simp)).symm.trans hc)
  active := fun ha => Option.isSome_iff_exists.mp (h.active ha).1

/-- After any sequence of events the session is consistent, the timer has never looked up
a missing client, and the extension has been started and stopped in turn, a start first. -/
theorem agent_session (osPid : ℤ) (timeoutMs : ℕ) (tracingExtension : Bool)
    (events : List AgentEvent) :
    SessionOk ((agentLoop osPid).final ⟨AgentState.new timeoutMs tracingExtension, osPid⟩
        events).state ∧
      .panicked .missingClient ∉ (agentLoop osPid).outputs
        ⟨AgentState.new timeoutMs tracingExtension, osPid⟩ events ∧
      (calls ((agentLoop osPid).outputs
        ⟨AgentState.new timeoutMs tracingExtension, osPid⟩ events)).IsChain (· ≠ ·) ∧
      ∀ c, (calls ((agentLoop osPid).outputs
        ⟨AgentState.new timeoutMs tracingExtension, osPid⟩ events)).head? = some c →
          c = .start := by
  have hinit : History ⟨AgentState.new timeoutMs tracingExtension, osPid⟩ [] :=
    ⟨inv_new _ _, ⟨.nil, by simp [calls], by simp [calls, AgentState.new]⟩, by simp⟩
  have hrun := Machine.history_all (M := agentLoop osPid) (I := History)
    (fun a os e h => h.step osPid e) hinit events
  exact ⟨hrun.inv.sessionOk, hrun.present, hrun.alternates.chain, hrun.alternates.first⟩

end Manytrace.Agent
