import Manytrace.Agent.Session

/-! The session as a lease: a client whose start the agent has granted stays the started
client as long as it renews its lease, whatever the other clients do in between. -/
namespace Manytrace.Agent
open Manytrace.Core

/-- What an event does to the lease of the client `c`, last renewed at `last`. The lease is
over where this is `none`. -/
def renew (timeoutNs c last : ℕ) : AgentEvent → Option ℕ
  | .accept _ => some last
  | .message d msg _ env =>
    if d = c then
      match msg with
      | .stop => none
      | .continue_ => some env.now
      | _ => some last
    else some last
  | .disconnect d => if d = c then none else some last
  | .timer clock => if clock c - last ≤ timeoutNs then some last else none

/-- The time of the last renewal after some events, if the lease has lasted. -/
def lease (timeoutNs c last : ℕ) (events : List AgentEvent) : Option ℕ :=
  events.foldlM (renew timeoutNs c) last

theorem lease_cons (timeoutNs c last : ℕ) (e : AgentEvent) (events : List AgentEvent) :
    lease timeoutNs c last (e :: events) =
      (renew timeoutNs c last e).bind fun last' => lease timeoutNs c last' events := rfl

section Fields
variable (r : AgentProcess × List Output) (st : AgentState) (c d : ℕ)

theorem removeDeleted_eq : (removeDeleted r).1.state =
    { r.1.state with clients := (removeDeleted r).1.state.clients } :=
  foldl_removeClient_eq _ _

theorem removeDeleted_lookup : (removeDeleted r).1.state.clients.lookup c =
    if c ∈ deletedClients r.2 then none else r.1.state.clients.lookup c :=
  lookup_foldl_removeClient _ _ _

@[simp] theorem removeDeleted_startedClient :
    (removeDeleted r).1.state.startedClient = r.1.state.startedClient := by
  rw [removeDeleted_eq]

@[simp] theorem removeDeleted_nextClientId :
    (removeDeleted r).1.state.nextClientId = r.1.state.nextClientId := by
  rw [removeDeleted_eq]

@[simp] theorem removeDeleted_timeoutNs :
    (removeDeleted r).1.state.timeoutNs = r.1.state.timeoutNs := by
  rw [removeDeleted_eq]

@[simp] theorem removeDeleted_extensionActive :
    (removeDeleted r).1.state.extensionActive = r.1.state.extensionActive := by
  rw [removeDeleted_eq]

@[simp] theorem removeDeleted_outputs : (removeDeleted r).2 = r.2 := rfl

theorem stopExtension_eq_with :
    st.stopExtension.1 = { st with extensionActive := st.stopExtension.1.extensionActive } := by
  unfold AgentState.stopExtension
  split_ifs <;> rfl

@[simp] theorem handleDisconnect_startedClient : (st.handleDisconnect d).1.startedClient =
    if st.startedClient = some d then none else st.startedClient := by
  unfold AgentState.handleDisconnect
  split_ifs <;> rfl

@[simp] theorem handleDisconnect_clients :
    (st.handleDisconnect d).1.clients = st.clients := by
  unfold AgentState.handleDisconnect
  split_ifs
  · dsimp only
    rw [stopExtension_eq_with]
  · rfl

@[simp] theorem handleDisconnect_nextClientId :
    (st.handleDisconnect d).1.nextClientId = st.nextClientId := by
  unfold AgentState.handleDisconnect
  split_ifs
  · dsimp only
    rw [stopExtension_eq_with]
  · rfl

/-- The two fields that are set once, when the agent is built. -/
def AgentState.settings : ℕ × Bool := (st.timeoutNs, st.tracingExtension)

@[simp] theorem removeDeleted_settings :
    (removeDeleted r).1.state.settings = r.1.state.settings := by
  rw [removeDeleted_eq]
  rfl

@[simp] theorem handleDisconnect_settings : (st.handleDisconnect d).1.settings = st.settings := by
  unfold AgentState.handleDisconnect
  split_ifs
  · dsimp only
    rw [stopExtension_eq_with]
    rfl
  · rfl

theorem deletedClients_handleDisconnect :
    deletedClients (st.handleDisconnect d).2 = [d] := by
  unfold AgentState.handleDisconnect AgentState.stopExtension
  split_ifs <;> rfl

end Fields

/-- What a message of the client `d` can do to the state. -/
inductive Move (st : AgentState) (d now : ℕ) : AgentState → Prop
  | stay : Move st d now st
  | leave : Move st d now (st.handleDisconnect d).1
  | start (active : Bool) (client : AgentClientState) : st.clients.lookup d = some client →
    Move st d now { st with
      extensionActive := active
      anotherStarted := true
      startedClient := some d
      clients := st.clients.insert d ⟨.started, now⟩ }
  | touch (client : AgentClientState) : st.clients.lookup d = some client →
    Move st d now { st with clients := st.clients.insert d { client with timestampNs := now } }

theorem handleMessage_move (osPid : ℤ) (a : AgentProcess) (d : ℕ) (msg : ControlMessage)
    (rawFds : List ℤ) (env : Env) :
    Move a.state d env.now (handleMessage osPid a d msg rawFds env).1.state := by
  unfold handleMessage
  split_ifs
  · exact .stay
  cases hl : a.state.clients.lookup d with
  | none => exact .stay
  | some client =>
    obtain ⟨phase, timestampNs⟩ := client
    simp only [handleClient]
    cases phase with
    | pending =>
      cases msg with
      | start bufferSize args =>
        have hout := (handleStart_spec osPid a d bufferSize args rawFds env).1
        dsimp only
        generalize handleStart osPid a d bufferSize args rawFds env = r at hout
        obtain ⟨⟨st', pid⟩, os, result⟩ := r
        dsimp only at hout ⊢
        generalize calls os = cs at hout
        cases hout with
        | refused => exact .stay
        | failed e => exact .leave
        | granted _ => exact .start _ _ hl
        | extended _ _ => exact .start _ _ hl
      | _ => exact .stay
    | started =>
      cases msg with
      | stop => exact .leave
      | continue_ => exact .touch _ hl
      | _ => exact .stay

theorem Inv.step (osPid : ℤ) {a : AgentProcess} (h : Inv [] a.state) (e : AgentEvent) :
    Inv [] ((agentLoop osPid).step a e).1.state := by
  obtain ⟨st', hh, hst⟩ := step_handled osPid h e
  rw [hst]
  exact hh.inv.remove

theorem settings_step (osPid : ℤ) (a : AgentProcess) (e : AgentEvent) :
    ((agentLoop osPid).step a e).1.state.settings = a.state.settings := by
  cases e with
  | accept now =>
    rw [agentLoop, removeDeleted_settings, AgentState.accept]
    split_ifs <;> rfl
  | message d msg rawFds env =>
    rw [agentLoop, removeDeleted_settings]
    have hmove := handleMessage_move osPid a d msg rawFds env
    generalize (handleMessage osPid a d msg rawFds env).1.state = st' at hmove ⊢
    cases hmove with
    | leave => exact handleDisconnect_settings a.state d
    | _ => rfl
  | disconnect d =>
    rw [agentLoop, removeDeleted_settings]
    exact handleDisconnect_settings a.state d
  | timer clock =>
    rw [agentLoop, removeDeleted_settings]
    dsimp only
    unfold AgentState.timer
    cases a.state.startedClient with
    | none => rfl
    | some d =>
      dsimp only
      cases a.state.clients.lookup d with
      | none => rfl
      | some client =>
        dsimp only
        split_ifs
        · rfl
        · rw [stopExtension_eq_with]
          rfl

/-- Every state the agent reaches keeps the session invariant and the settings. -/
theorem reached (osPid : ℤ) {a : AgentProcess} (h : Inv [] a.state) (events : List AgentEvent) :
    Inv [] ((agentLoop osPid).final a events).state ∧
      ((agentLoop osPid).final a events).state.settings = a.state.settings := by
  induction events generalizing a with
  | nil => exact ⟨h, rfl⟩
  | cons e events ih =>
    obtain ⟨hinv, hset⟩ := ih (h.step osPid e)
    exact ⟨hinv, hset.trans (settings_step osPid a e)⟩

/-- The client `c` holds the session and has renewed its lease at `last`. -/
structure Holds (timeoutNs c last : ℕ) (active : Bool) (st : AgentState) : Prop where
  inv : Inv [] st
  timeout : st.timeoutNs = timeoutNs
  started : st.startedClient = some c
  client : st.clients.lookup c = some ⟨.started, last⟩
  extension : st.extensionActive = active

/-- The client `c` has lost the session, and its id is never given out again. -/
structure Ended (c : ℕ) (st : AgentState) : Prop where
  started : st.startedClient ≠ some c
  client : st.clients.lookup c = none
  id : c < st.nextClientId

section Steps
variable {osPid : ℤ} {a : AgentProcess} {timeoutNs c last : ℕ} {active : Bool}

/-- A handler that changes no other field than the map, and keeps the entry of `c`. -/
theorem Holds.keep (h : Holds timeoutNs c last active a.state) (e : AgentEvent)
    (r : AgentProcess × List Output) (he : (agentLoop osPid).step a e = removeDeleted r)
    (hr : r.1.state.startedClient = a.state.startedClient ∧
      r.1.state.timeoutNs = a.state.timeoutNs ∧
      r.1.state.extensionActive = a.state.extensionActive)
    {last' : ℕ} (hclient : r.1.state.clients.lookup c = some ⟨.started, last'⟩)
    (hdeleted : c ∉ deletedClients r.2) :
    Holds timeoutNs c last' active ((agentLoop osPid).step a e).1.state where
  inv := h.inv.step osPid e
  timeout := by rw [he, removeDeleted_timeoutNs, hr.2.1, h.timeout]
  started := by rw [he, removeDeleted_startedClient, hr.1, h.started]
  client := by rw [he, removeDeleted_lookup, if_neg hdeleted, hclient]
  extension := by rw [he, removeDeleted_extensionActive, hr.2.2, h.extension]

theorem Holds.id (h : Holds timeoutNs c last active a.state) : c < a.state.nextClientId :=
  h.inv.ids c _ h.client

/-- A handler that ends the session and has the client removed. -/
theorem Holds.leave (h : Holds timeoutNs c last active a.state) (e : AgentEvent)
    (r : AgentProcess × List Output) (he : (agentLoop osPid).step a e = removeDeleted r)
    (hstarted : r.1.state.startedClient = none)
    (hnext : r.1.state.nextClientId = a.state.nextClientId) (hdeleted : c ∈ deletedClients r.2) :
    Ended c ((agentLoop osPid).step a e).1.state where
  started := by simp [he, hstarted]
  client := by rw [he, removeDeleted_lookup, if_pos hdeleted]
  id := by rw [he, removeDeleted_nextClientId, hnext]; exact h.id

/-- A lease that lasts through an event, without a call of the extension. -/
def Lasts (osPid : ℤ) (a : AgentProcess) (timeoutNs c last : ℕ) (active : Bool)
    (e : AgentEvent) : Prop :=
  ∃ last', renew timeoutNs c last e = some last' ∧
    Holds timeoutNs c last' active ((agentLoop osPid).step a e).1.state ∧
    calls ((agentLoop osPid).step a e).2 = []

/-- A lease that an event ends. The extension is stopped if it was running. -/
def Lapses (osPid : ℤ) (a : AgentProcess) (timeoutNs c last : ℕ) (active : Bool)
    (e : AgentEvent) : Prop :=
  renew timeoutNs c last e = none ∧ Ended c ((agentLoop osPid).step a e).1.state ∧
    calls ((agentLoop osPid).step a e).2 = if active then [.stop] else []

theorem Holds.accept (h : Holds timeoutNs c last active a.state) (now : ℕ) :
    Lasts osPid a timeoutNs c last active (.accept now) := by
  refine ⟨last, rfl, h.keep (.accept now) _ rfl ?_ ?_ ?_, ?_⟩
  · dsimp only
    unfold AgentState.accept
    split_ifs <;> exact ⟨rfl, rfl, rfl⟩
  · dsimp only
    unfold AgentState.accept
    split_ifs
    · rw [AList.lookup_insert_ne h.id.ne, h.client]
    · exact h.client
  all_goals
    simp only [agentLoop, removeDeleted_outputs]
    unfold AgentState.accept
    split_ifs <;> simp [deletedClients, calls, Output.deleted?, Output.call?]

/-- An event whose handler changes nothing and only replies. -/
theorem Holds.same (h : Holds timeoutNs c last active a.state) {e : AgentEvent} (os : List Output)
    (hrenew : renew timeoutNs c last e = some last)
    (he : (agentLoop osPid).step a e = removeDeleted (a, os)) (hq : deletedClients os = [])
    (hcalls : calls os = []) : Lasts osPid a timeoutNs c last active e := by
  refine ⟨last, hrenew, h.keep e _ he ⟨rfl, rfl, rfl⟩ h.client ?_, ?_⟩
  · simp [hq]
  · rw [he]
    exact hcalls

theorem calls_handleDisconnect (h : Holds timeoutNs c last active a.state) :
    calls (a.state.handleDisconnect c).2 = if active then [.stop] else [] := by
  unfold AgentState.handleDisconnect
  rw [if_pos h.started, h.inv.stopExtension_eq, h.extension]
  cases active <;> rfl

theorem Holds.disconnect (h : Holds timeoutNs c last active a.state) :
    Lapses osPid a timeoutNs c last active (.disconnect c) := by
  refine ⟨by simp [renew], h.leave _ _ rfl ?_ ?_ ?_, calls_handleDisconnect h⟩
  · simp [h.started]
  · simp
  · simp [deletedClients_handleDisconnect]

theorem Holds.disconnect_other (h : Holds timeoutNs c last active a.state) {d : ℕ} (hd : d ≠ c) :
    Lasts osPid a timeoutNs c last active (.disconnect d) := by
  have hne : a.state.startedClient ≠ some d := by
    rw [h.started]
    simpa using hd.symm
  refine ⟨last, by simp [renew, hd], h.keep _ _ rfl ?_ ?_ ?_, ?_⟩
  all_goals simp only [agentLoop, AgentState.handleDisconnect, if_neg hne, removeDeleted_outputs]
  · exact ⟨trivial, trivial, trivial⟩
  · exact h.client
  · simpa [deletedClients, Output.deleted?] using hd.symm
  · rfl

/-- The timer ends the session of a client that has not renewed its lease in time. -/
theorem Holds.timer (h : Holds timeoutNs c last active a.state) (clock : ℕ → ℕ) :
    Lasts osPid a timeoutNs c last active (.timer clock) ∨
      Lapses osPid a timeoutNs c last active (.timer clock) := by
  have hpending : c ∉ a.state.expiredPending clock := fun hm =>
    startedClient_of_expired hm h.started
  by_cases ht : clock c - last ≤ timeoutNs
  · left
    have htimer : a.state.timer clock = (a.state,
        (a.state.expiredPending clock).map fun c => .action (.deleteEpoll c)) := by
      unfold AgentState.timer
      simp only [h.started, h.client, AgentClientState.timer, h.timeout, decide_eq_true ht, if_true]
    have hstep : (agentLoop osPid).step a (.timer clock) = removeDeleted (a,
        (a.state.expiredPending clock).map fun c => .action (.deleteEpoll c)) := by
      change removeDeleted _ = _
      rw [htimer]
    refine ⟨last, by simp [renew, ht], h.keep _ _ hstep ⟨rfl, rfl, rfl⟩ h.client ?_, ?_⟩
    · rwa [deletedClients_expired]
    · rw [hstep]
      exact calls_expired _
  · right
    have htimer : a.state.timer clock =
        ({ a.state.stopExtension.1 with startedClient := none, anotherStarted := false },
          ((a.state.expiredPending clock).map fun c => .action (.deleteEpoll c)) ++
            .action (.deleteEpoll c) :: a.state.stopExtension.2) := by
      unfold AgentState.timer
      simp [h.started, h.client, AgentClientState.timer, h.timeout, ht]
    refine ⟨by simp [renew, ht], h.leave _ _ rfl ?_ ?_ ?_, ?_⟩
    all_goals simp only [agentLoop, removeDeleted_outputs, htimer]
    · rw [stopExtension_eq_with]
    · rw [deletedClients, List.filterMap_append]
      simp [Output.deleted?]
    · rw [calls, List.filterMap_append, ← calls, calls_expired, h.inv.stopExtension_eq, h.extension]
      cases active <;> rfl

/-- A message of the holder: `Stop` ends the lease, `Continue` renews it. -/
theorem Holds.message_self (h : Holds timeoutNs c last active a.state) (msg : ControlMessage)
    (rawFds : List ℤ) (env : Env) :
    Lasts osPid a timeoutNs c last active (.message c msg rawFds env) ∨
      Lapses osPid a timeoutNs c last active (.message c msg rawFds env) := by
  have hstep : (agentLoop osPid).step a (.message c msg rawFds env) =
      removeDeleted (handleMessage osPid a c msg rawFds env) := rfl
  cases msg with
  | stop =>
    right
    refine ⟨by simp [renew], h.leave _ _ hstep ?_ ?_ ?_, ?_⟩
    all_goals
      simp only [hstep, removeDeleted_outputs, handleMessage, h.client, handleClient, reduceCtorEq,
        if_false]
    · simp [h.started]
    · simp
    · rw [deletedClients, List.filterMap_append, ← deletedClients, ← deletedClients,
        deletedClients_handleDisconnect]
      simp
    · rw [calls, List.filterMap_append, ← calls, ← calls, calls_handleDisconnect h]
      rfl
  | continue_ =>
    left
    refine ⟨env.now, by simp [renew], h.keep _ _ hstep ?_ ?_ ?_, ?_⟩
    all_goals
      simp only [hstep, removeDeleted_outputs, handleMessage, h.client, handleClient, reduceCtorEq,
        if_false]
    · exact ⟨trivial, trivial, trivial⟩
    · rw [AList.lookup_insert]
    · simp [deletedClients, Output.deleted?, reply]
    · rfl
  | version => exact .inl (h.same _ (by simp [renew]) (hstep.trans rfl) rfl rfl)
  | start _ _ | ack | nack _ | versionResponse _ =>
    refine .inl (h.same [] (by simp [renew]) ?_ rfl rfl)
    simp only [hstep, handleMessage, h.client, handleClient, reduceCtorEq, if_false]

/-- No message of another client touches the session. -/
theorem Holds.message_other (h : Holds timeoutNs c last active a.state) {d : ℕ} (hd : d ≠ c)
    (msg : ControlMessage) (rawFds : List ℤ) (env : Env) :
    Lasts osPid a timeoutNs c last active (.message d msg rawFds env) := by
  have hrenew : renew timeoutNs c last (.message d msg rawFds env) = some last := by
    simp [renew, hd]
  have hstep : (agentLoop osPid).step a (.message d msg rawFds env) =
      removeDeleted (handleMessage osPid a d msg rawFds env) := rfl
  by_cases hv : msg = .version
  · rw [handleMessage, if_pos hv] at hstep
    exact h.same _ hrenew hstep rfl rfl
  rw [handleMessage, if_neg hv] at hstep
  cases hl : a.state.clients.lookup d with
  | none =>
    rw [hl] at hstep
    exact h.same _ hrenew hstep rfl rfl
  | some client =>
    have hphase : client.state = .pending := by
      cases hp : client.state with
      | pending => rfl
      | started =>
        have he := h.inv.unique d client hl hp (by simp)
        rw [h.started] at he
        exact absurd (Option.some.inj he).symm hd
    have hanother : a.state.anotherStarted = true := h.inv.another.mpr (by simp [h.started])
    rw [hl] at hstep
    cases msg with
    | start bufferSize args =>
      simp only [handleClient, hphase, handleStart, hanother, if_true] at hstep
      exact h.same _ hrenew hstep rfl rfl
    | _ =>
      simp only [handleClient, hphase] at hstep
      exact h.same _ hrenew hstep rfl rfl

theorem Holds.step (osPid : ℤ) (h : Holds timeoutNs c last active a.state) (e : AgentEvent) :
    Lasts osPid a timeoutNs c last active e ∨ Lapses osPid a timeoutNs c last active e := by
  cases e with
  | accept now => exact .inl (h.accept now)
  | message d msg rawFds env =>
    by_cases hd : d = c
    · subst hd
      exact h.message_self msg rawFds env
    · exact .inl (h.message_other hd msg rawFds env)
  | disconnect d =>
    by_cases hd : d = c
    · subst hd
      exact .inr h.disconnect
    · exact .inl (h.disconnect_other hd)
  | timer clock => exact h.timer clock

theorem Ended.handleDisconnect {st : AgentState} (h : Ended c st) (d : ℕ) :
    Ended c (st.handleDisconnect d).1 where
  started := by
    rw [handleDisconnect_startedClient]
    split_ifs
    · simp
    · exact h.started
  client := by rw [handleDisconnect_clients, h.client]
  id := by rw [handleDisconnect_nextClientId]; exact h.id

theorem Ended.timer {st : AgentState} (h : Ended c st) (clock : ℕ → ℕ) :
    Ended c (st.timer clock).1 := by
  unfold AgentState.timer
  cases hs : st.startedClient with
  | none => exact h
  | some d =>
    dsimp only
    cases hl : st.clients.lookup d with
    | none => exact h
    | some client =>
      dsimp only
      split_ifs
      · exact h
      · rw [stopExtension_eq_with]
        exact ⟨by simp, h.client, h.id⟩

theorem Ended.handleMessage (h : Ended c a.state) (d : ℕ) (msg : ControlMessage)
    (rawFds : List ℤ) (env : Env) : Ended c (handleMessage osPid a d msg rawFds env).1.state := by
  have hne : ∀ client, a.state.clients.lookup d = some client → c ≠ d := by
    rintro client hl rfl
    simp [h.client] at hl
  have hmove := handleMessage_move osPid a d msg rawFds env
  generalize (Agent.handleMessage osPid a d msg rawFds env).1.state = st' at hmove ⊢
  cases hmove with
  | stay => exact h
  | leave => exact h.handleDisconnect d
  | start active client hl =>
    have hd := hne client hl
    exact ⟨by simpa using hd.symm, by rw [AList.lookup_insert_ne hd, h.client], h.id⟩
  | touch client hl =>
    exact ⟨h.started, by rw [AList.lookup_insert_ne (hne client hl), h.client], h.id⟩

theorem Ended.accept {st : AgentState} (h : Ended c st) (now : ℕ) : Ended c (st.accept now).1 := by
  unfold AgentState.accept
  split_ifs
  · exact ⟨h.started, by rw [AList.lookup_insert_ne h.id.ne, h.client], Nat.lt_succ_of_lt h.id⟩
  · exact h

theorem Ended.removeDeleted {r : AgentProcess × List Output} (h : Ended c r.1.state) :
    Ended c (removeDeleted r).1.state where
  started := by rw [removeDeleted_startedClient]; exact h.started
  client := by rw [removeDeleted_lookup, h.client, ite_self]
  id := by rw [removeDeleted_nextClientId]; exact h.id

theorem Ended.step (h : Ended c a.state) (e : AgentEvent) :
    Ended c ((agentLoop osPid).step a e).1.state := by
  cases e with
  | accept now => exact (h.accept now).removeDeleted
  | message d msg rawFds env => exact (h.handleMessage d msg rawFds env).removeDeleted
  | disconnect d => exact (h.handleDisconnect d).removeDeleted
  | timer clock => exact (h.timer clock).removeDeleted

theorem Ended.run (h : Ended c a.state) (events : List AgentEvent) :
    Ended c ((agentLoop osPid).final a events).state := by
  induction events generalizing a with
  | nil => exact h
  | cons e events ih => exact ih (h.step e)

/-- The holder stays the started client exactly as long as its lease lasts. The first call
of the extension, if there is one, is the stop at the end of the lease. -/
theorem Holds.run (osPid : ℤ) (h : Holds timeoutNs c last active a.state)
    (events : List AgentEvent) :
    (((agentLoop osPid).final a events).state.startedClient = some c ↔
        (lease timeoutNs c last events).isSome) ∧
      ((lease timeoutNs c last events).isSome →
        calls ((agentLoop osPid).outputs a events) = []) ∧
      (active → lease timeoutNs c last events = none →
        (calls ((agentLoop osPid).outputs a events)).head? = some .stop) := by
  induction events generalizing a last with
  | nil => exact ⟨by simp [lease, h.started], fun _ => rfl, by simp [lease]⟩
  | cons e events ih =>
    rw [lease_cons, Machine.final_cons, Machine.outputs_cons, calls, List.filterMap_append,
      ← calls, ← calls]
    rcases h.step osPid e with ⟨last', hr, hh, hc⟩ | ⟨hr, hended, hc⟩
    · rw [hr, hc, List.nil_append]
      exact ih hh
    · rw [hr, hc]
      refine ⟨?_, by simp, ?_⟩
      · simpa using (hended.run events).started
      · intro hactive _
        simp [hactive]

/-- A `Start` the agent acknowledges makes the sender the holder, from the time of the start. -/
theorem holds_of_ack (h : Inv [] a.state) {bufferSize : ℕ} {args : Args} {rawFds : List ℤ}
    {env : Env} (hack : reply c .ack ∈
      ((agentLoop osPid).step a (.message c (.start bufferSize args) rawFds env)).2) :
    Holds a.state.timeoutNs c env.now a.state.tracingExtension
      ((agentLoop osPid).step a (.message c (.start bufferSize args) rawFds env)).1.state := by
  have hinv := h.step osPid (.message c (.start bufferSize args) rawFds env)
  have hstep : (agentLoop osPid).step a (.message c (.start bufferSize args) rawFds env) =
      removeDeleted (handleMessage osPid a c (.start bufferSize args) rawFds env) := rfl
  have hidle : a.state.anotherStarted = false → a.state.extensionActive = false := by
    intro hs
    by_contra hon
    have hsome := h.another.mpr (h.active (by simpa using hon)).1
    simp [hs] at hsome
  rw [handleMessage, if_neg (by simp)] at hstep
  rw [hstep] at hinv hack ⊢
  cases hl : a.state.clients.lookup c with
  | none => simp [hl] at hack
  | some client =>
    obtain ⟨phase, timestampNs⟩ := client
    simp only [hl, handleClient] at hinv hack ⊢
    cases phase with
    | started => simp at hack
    | pending =>
      have hpath := handleStart_path osPid a c bufferSize args rawFds env
      have hq := (handleStart_spec osPid a c bufferSize args rawFds env).2
      simp only at hinv hack ⊢
      generalize handleStart osPid a c bufferSize args rawFds env = r at hpath hinv hack hq ⊢
      cases hpath with
      | refused reason => simp [reply] at hack
      | failed e =>
        simp only [removeDeleted_outputs, List.nil_append] at hack
        unfold AgentState.handleDisconnect AgentState.stopExtension at hack
        split_ifs at hack <;> simp [reply] at hack
      | overflowed => simp [reply] at hack
      | rejected tracingArgs pid reason => simp [reply, processTrack] at hack
      | extended tracingArgs pid hs hext =>
        refine ⟨hinv, by simp, by simp, ?_, by simp [hext]⟩
        rw [removeDeleted_lookup, hq.deleted, if_neg (by simp), AList.lookup_insert]
      | granted pid hs hext =>
        refine ⟨hinv, by simp, by simp, ?_, by simp [hext, hidle hs]⟩
        rw [removeDeleted_lookup, hq.deleted, if_neg (by simp), AList.lookup_insert]

end Steps

/-- The same for the agent's run since its creation. -/
theorem holds_of_granted (osPid : ℤ) (timeoutMs : ℕ) (tracingExtension : Bool)
    (before : List AgentEvent) {c bufferSize : ℕ} {args : Args} {rawFds : List ℤ} {env : Env} :
    let a := (agentLoop osPid).final ⟨AgentState.new timeoutMs tracingExtension, osPid⟩ before
    let r := (agentLoop osPid).step a (.message c (.start bufferSize args) rawFds env)
    reply c .ack ∈ r.2 →
      Holds (timeoutMs * 1000000) c env.now tracingExtension r.1.state := by
  intro a r hack
  obtain ⟨hinv, hset⟩ := reached osPid (a := ⟨AgentState.new timeoutMs tracingExtension, osPid⟩)
    (inv_new timeoutMs tracingExtension) before
  have hholds := holds_of_ack hinv hack
  have htimeout : a.state.timeoutNs = timeoutMs * 1000000 := congrArg Prod.fst hset
  have hext : a.state.tracingExtension = tracingExtension := congrArg Prod.snd hset
  rwa [htimeout, hext] at hholds

/-- From the acknowledged start on, the client is the started client exactly as long as its
lease lasts: until it stops, disconnects, or a timer finds that its last `Start` or `Continue`
is older than the timeout. The extension runs through the lease and is stopped at its end. -/
theorem session_lasts_as_leased (osPid : ℤ) (timeoutMs : ℕ) (tracingExtension : Bool)
    (before : List AgentEvent) (c bufferSize : ℕ) (args : Args) (rawFds : List ℤ) (env : Env)
    (events : List AgentEvent) :
    let a := (agentLoop osPid).final ⟨AgentState.new timeoutMs tracingExtension, osPid⟩ before
    let r := (agentLoop osPid).step a (.message c (.start bufferSize args) rawFds env)
    let held := lease (timeoutMs * 1000000) c env.now events
    reply c .ack ∈ r.2 →
      (((agentLoop osPid).final r.1 events).state.startedClient = some c ↔ held.isSome) ∧
      (held.isSome → calls ((agentLoop osPid).outputs r.1 events) = []) ∧
      (tracingExtension → held = none →
        (calls ((agentLoop osPid).outputs r.1 events)).head? = some .stop) := by
  intro a r held hack
  exact (holds_of_granted osPid timeoutMs tracingExtension before hack).run osPid events

/-- The answers of a system on which every start succeeds. -/
def willing (now : ℕ) : Env := ⟨fun _ => true, fun _ => .ok (), 1, none, .ok (), now⟩

theorem ack_firstClient (timeoutMs : ℕ) :
    reply 1 .ack ∈ ((agentLoop 7).step
      ((agentLoop 7).final ⟨AgentState.new timeoutMs true, 7⟩ [.accept 0])
      (.message 1 (.start 4096 ⟨some ⟨"info", .boottime⟩, []⟩) [3, 4] (willing 0))).2 := by
  have hl : AList.lookup 1
      (AList.singleton 1 ⟨.pending, 0⟩ : AList fun _ : ℕ => AgentClientState) =
        some ⟨.pending, 0⟩ := rfl
  simp [willing, hl, agentLoop, removeDeleted, deletedClients, AgentState.accept,
    AgentState.new, handleMessage, handleClient, handleStart, validateAndConvertFd,
    chooseProcessId, processTrack]

/-- A client that keeps its session past the timeout by one `Continue`, while another client
asks for it, and loses it to the next timer. -/
theorem session_lasts_renewedOnce :
    let args : Args := ⟨some ⟨"info", .boottime⟩, []⟩
    let r := (agentLoop 7).step ((agentLoop 7).final ⟨AgentState.new 2 true, 7⟩ [.accept 0])
      (.message 1 (.start 4096 args) [3, 4] (willing 0))
    let events := [.accept 0, .message 1 .continue_ [] (willing 1500000),
      .message 2 (.start 4096 args) [3, 4] (willing 1500000), .timer fun _ => 3000000]
    reply 1 .ack ∈ r.2 ∧
      ((agentLoop 7).final r.1 events).state.startedClient = some 1 ∧
      ((agentLoop 7).final r.1 (events ++ [.timer fun _ => 4000000])).state.startedClient ≠
        some 1 := by
  intro args r events
  have hack : reply 1 .ack ∈ r.2 := ack_firstClient 2
  have hlease : ∀ events, ((agentLoop 7).final r.1 events).state.startedClient = some 1 ↔
      (lease 2000000 1 0 events).isSome := fun events =>
    (session_lasts_as_leased 7 2 true [.accept 0] 1 4096 args [3, 4] (willing 0) events hack).1
  refine ⟨hack, ?_, ?_⟩
  · rw [hlease]
    simp [events, lease, renew, willing]
  · rw [ne_eq, hlease]
    simp [events, lease, renew, willing]

end Manytrace.Agent
