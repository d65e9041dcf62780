import Manytrace.Agent.Session

/-! The file descriptors that arrive with messages. The agent takes ownership of two of
them on one path of `handle_message`; what nobody owns stays open. -/
namespace Manytrace.Agent
open Manytrace.Core

/-- What becomes of the descriptors of a message: the ones that the producer of the client
that is started has, and the ones that are closed. The others stay open. -/
structure Disposal where
  owned : List ℤ
  closed : List ℤ
deriving DecidableEq, Repr

def Disposal.nothing : Disposal := ⟨[], []⟩

section Disposal
variable (osPid : ℤ) (a : AgentProcess) (clientId : ℕ)

/-- The descriptors are converted one after the other, and both go into a producer. That
lives on in the handle of an extension that has been started; otherwise it is dropped. -/
def startDisposal (bufferSize : ℕ) (args : Args) (rawFds : List ℤ) (env : Env) : Disposal :=
  if a.state.anotherStarted then .nothing
  else
    match args.tracing, rawFds with
    | some _, memoryFd :: notificationFd :: _ =>
      if !validateAndConvertFd env memoryFd then .nothing
      else if !validateAndConvertFd env notificationFd then ⟨[], [memoryFd]⟩
      else if (handleStart osPid a clientId bufferSize args rawFds env).2.2 = some .started ∧
          a.state.tracingExtension = true then
        ⟨[memoryFd, notificationFd], []⟩
      else ⟨[], [memoryFd, notificationFd]⟩
    | _, _ => .nothing

def messageDisposal (msg : ControlMessage) (rawFds : List ℤ) (env : Env) : Disposal :=
  if msg = .version then .nothing
  else
    match a.state.clients.lookup clientId with
    | none => .nothing
    | some client =>
      match client.state, msg with
      | .pending, .start bufferSize args =>
        startDisposal osPid a clientId bufferSize args rawFds env
      | _, _ => .nothing

end Disposal

/-- Descriptors as `recvmsg` returns them. -/
structure Received (env : Env) (rawFds : List ℤ) : Prop where
  valid : ∀ fd ∈ rawFds, validateAndConvertFd env fd = true
  distinct : rawFds.Nodup

def Disposal.Settles (d : Disposal) (rawFds : List ℤ) : Prop :=
  ∀ fd ∈ rawFds, fd ∈ d.owned ∨ fd ∈ d.closed

/-- No descriptors, or two of them with a `Start` that gets as far as to convert them. -/
def Releasable (a : AgentProcess) (clientId : ℕ) (msg : ControlMessage) (rawFds : List ℤ) :
    Prop :=
  rawFds = [] ∨ (rawFds.length = 2 ∧ a.state.anotherStarted = false ∧
    ∃ client bufferSize args, a.state.clients.lookup clientId = some client ∧
      client.state = .pending ∧ msg = .start bufferSize args ∧ args.tracing.isSome)

section Calls
variable {osPid : ℤ} {a : AgentProcess} {clientId : ℕ} {msg : ControlMessage} {rawFds : List ℤ}
  {env : Env}

theorem nothing_settles_iff : Disposal.nothing.Settles rawFds ↔ rawFds = [] := by
  simp [Disposal.Settles, Disposal.nothing, List.eq_nil_iff_forall_not_mem]

/-- Two of several distinct descriptors are all of them if there are no more. -/
theorem pair_settles_iff {d : Disposal} {m n : ℤ} {rest : List ℤ}
    (hd : d.owned ++ d.closed = [m, n]) (hnodup : (m :: n :: rest).Nodup) :
    d.Settles (m :: n :: rest) ↔ rest = [] := by
  have hmem : ∀ fd, (fd ∈ d.owned ∨ fd ∈ d.closed) ↔ fd = m ∨ fd = n := by
    intro fd
    rw [← List.mem_append, hd]
    simp
  unfold Disposal.Settles
  simp only [hmem]
  constructor
  · intro h
    rw [List.eq_nil_iff_forall_not_mem]
    intro fd hfd
    rcases h fd (by simp [hfd]) with rfl | rfl
    · simp [hfd] at hnodup
    · simp [hfd] at hnodup
  · rintro rfl
    simp

/-- A `Start` settles everything exactly if it gets to the conversion with two descriptors. -/
theorem startDisposal_settles_iff (h : Received env rawFds) (bufferSize : ℕ) (args : Args) :
    (startDisposal osPid a clientId bufferSize args rawFds env).Settles rawFds ↔
      rawFds = [] ∨ (rawFds.length = 2 ∧ a.state.anotherStarted = false ∧
        args.tracing.isSome) := by
  unfold startDisposal
  cases hanother : a.state.anotherStarted with
  | true => simp [nothing_settles_iff]
  | false =>
    cases htracing : args.tracing with
    | none => simp [nothing_settles_iff]
    | some tracingArgs =>
      match rawFds, h with
      | [], _ => simp [nothing_settles_iff]
      | [m], _ => simp [nothing_settles_iff]
      | m :: n :: rest, h =>
        have hm := h.valid m (by simp)
        have hn := h.valid n (by simp)
        simp only [hm, hn, Bool.not_true, Bool.false_eq_true, if_false]
        rw [pair_settles_iff (by split_ifs <;> rfl) h.distinct]
        simp

theorem messageDisposal_settles_iff (h : Received env rawFds) :
    (messageDisposal osPid a clientId msg rawFds env).Settles rawFds ↔
      Releasable a clientId msg rawFds := by
  unfold messageDisposal Releasable
  by_cases hversion : msg = .version
  · simp [hversion, nothing_settles_iff]
  rw [if_neg hversion]
  cases hlookup : a.state.clients.lookup clientId with
  | none => simp [nothing_settles_iff]
  | some client =>
    obtain ⟨phase, timestampNs⟩ := client
    cases phase with
    | started => simp [nothing_settles_iff]
    | pending =>
      cases msg with
      | start bufferSize args =>
        simp only [startDisposal_settles_iff h]
        simp
      | _ => simp [nothing_settles_iff]

theorem handleStart_active {bufferSize : ℕ} {args : Args} (hext : a.state.tracingExtension = true)
    (hstarted : (handleStart osPid a clientId bufferSize args rawFds env).2.2 = some .started) :
    (handleStart osPid a clientId bufferSize args rawFds env).1.state.extensionActive = true := by
  have hpath := handleStart_path osPid a clientId bufferSize args rawFds env
  generalize handleStart osPid a clientId bufferSize args rawFds env = r at hpath hstarted ⊢
  cases hpath with
  | extended => rfl
  | granted pid _ hno =>
    rw [hext] at hno
    cases hno
  | _ => cases hstarted

theorem startDisposal_owned {bufferSize : ℕ} {args : Args}
    (h : (startDisposal osPid a clientId bufferSize args rawFds env).owned ≠ []) :
    (handleStart osPid a clientId bufferSize args rawFds env).2.2 = some .started ∧
      a.state.tracingExtension = true ∧
      startDisposal osPid a clientId bufferSize args rawFds env = ⟨rawFds.take 2, []⟩ ∧
      2 ≤ rawFds.length := by
  unfold startDisposal at h ⊢
  by_cases hanother : a.state.anotherStarted = true
  · rw [if_pos hanother] at h
    exact absurd rfl h
  rw [if_neg hanother] at h ⊢
  cases htracing : args.tracing with
  | none =>
    rw [htracing] at h
    exact absurd rfl h
  | some tracingArgs =>
    rw [htracing] at h
    match rawFds with
    | [] => exact absurd rfl h
    | [_] => exact absurd rfl h
    | memoryFd :: notificationFd :: rest =>
      dsimp only at h ⊢
      split_ifs at h ⊢ with hm hn hstarted
      · exact absurd rfl h
      · exact absurd rfl h
      · exact ⟨hstarted.1, hstarted.2, rfl, by simp⟩
      · exact absurd rfl h

/-- What is owned is owned for the client that the message has started. -/
theorem started_of_owned (h : (messageDisposal osPid a clientId msg rawFds env).owned ≠ []) :
    (handleMessage osPid a clientId msg rawFds env).1.state.startedClient = some clientId ∧
      (handleMessage osPid a clientId msg rawFds env).1.state.extensionActive = true ∧
      messageDisposal osPid a clientId msg rawFds env = ⟨rawFds.take 2, []⟩ ∧
      2 ≤ rawFds.length := by
  unfold messageDisposal at h ⊢
  unfold handleMessage
  by_cases hversion : msg = .version
  · rw [if_pos hversion] at h
    exact absurd rfl h
  simp only [if_neg hversion] at h ⊢
  cases hlookup : a.state.clients.lookup clientId with
  | none =>
    rw [hlookup] at h
    exact absurd rfl h
  | some client =>
    obtain ⟨phase, timestampNs⟩ := client
    simp only [hlookup] at h ⊢
    cases phase with
    | started => exact absurd rfl h
    | pending =>
      cases msg with
      | start bufferSize args =>
        obtain ⟨hstarted, hext, hpair, hlen⟩ := startDisposal_owned h
        have hactive := handleStart_active hext hstarted
        simp only [handleClient, hstarted]
        exact ⟨trivial, hactive, hpair, hlen⟩
      | _ => exact absurd rfl h

end Calls

/-! ## Whole runs -/

/-- The agent with the received descriptors that are open, and those of them that the
producer of the extension has. -/
structure AgentFds where
  agent : AgentProcess
  received : List ℤ
  producer : List ℤ

def AgentFds.new (agent : AgentProcess) : AgentFds := ⟨agent, [], []⟩

/-- A handle that replaces another one, or a stop, closes what the old producer had. -/
def AgentFds.closeProducer (s : AgentFds) : AgentFds :=
  { s with received := s.received.filter fun fd => fd ∉ s.producer, producer := [] }

def AgentFds.dispose (s : AgentFds) (rawFds : List ℤ) (d : Disposal) : AgentFds :=
  let s := if d.owned = [] then s else { s.closeProducer with producer := d.owned }
  { s with received := s.received ++ rawFds.filter fun fd => fd ∉ d.closed }

/-- What a handler does to the descriptors that come with its event. -/
def AgentFds.handle (osPid : ℤ) (s : AgentFds) : AgentEvent → AgentFds
  | .message clientId msg rawFds env =>
    s.dispose rawFds (messageDisposal osPid s.agent clientId msg rawFds env)
  | _ => s

/-- The events of the listener, and what they do to the descriptors. -/
def agentFds (osPid : ℤ) : Machine AgentFds AgentEvent Output where
  step s e :=
    let r := (agentLoop osPid).step s.agent e
    let t := s.handle osPid e
    let t := if .stop ∈ calls r.2 then t.closeProducer else t
    ({ t with agent := r.1 }, r.2)

/-- Every message comes with descriptors that can be settled. -/
def ReleasesAll (s : AgentFds) : AgentEvent → Prop
  | .message clientId msg rawFds env =>
    Received env rawFds ∧ Releasable s.agent clientId msg rawFds
  | _ => True

/-- The clients that are in a session. -/
def startedClients (st : AgentState) : ℕ :=
  (st.clients.entries.filter fun e => e.2.state = .started).length

/-- What the agent holds: `base` of its own, the sockets of its clients, and what it has
received. -/
def openDescriptors (base : ℕ) (s : AgentFds) : ℕ :=
  base + s.agent.state.clients.entries.length + s.received.length

/-- Only a producer of a running extension has descriptors. -/
structure FdsOk (s : AgentFds) : Prop where
  session : Inv [] s.agent.state
  received : s.received = s.producer
  producer : s.producer ≠ [] → s.producer.length = 2 ∧ s.agent.state.extensionActive = true

section Runs
variable {osPid : ℤ} {s : AgentFds}

theorem agentFds_agent (e : AgentEvent) :
    ((agentFds osPid).step s e).1.agent = ((agentLoop osPid).step s.agent e).1 := rfl

theorem closeProducer_of_eq (h : s.received = s.producer) :
    s.closeProducer.received = [] ∧ s.closeProducer.producer = [] := by
  refine ⟨?_, rfl⟩
  simp [AgentFds.closeProducer, h]

/-- Settled descriptors are those of the new producer, or gone. -/
theorem dispose_of_settles (h : s.received = s.producer) {rawFds : List ℤ} {d : Disposal}
    (hd : d.Settles rawFds) (howned : d.owned ≠ [] → d = ⟨rawFds, []⟩) :
    (s.dispose rawFds d).received = (s.dispose rawFds d).producer ∧
      (s.dispose rawFds d).producer = if d.owned = [] then s.producer else rawFds := by
  unfold AgentFds.dispose
  by_cases hnone : d.owned = []
  · have hclosed : rawFds.filter (fun fd => fd ∉ d.closed) = [] := by
      rw [List.filter_eq_nil_iff]
      intro fd hfd
      simpa [hnone] using hd fd hfd
    simp only [if_pos hnone, hclosed, List.append_nil]
    exact ⟨h, trivial⟩
  · obtain rfl := howned hnone
    simp only [if_neg hnone, (closeProducer_of_eq h).1]
    simp

theorem one_le_startedClients {st : AgentState} (h : Inv [] st) (hs : st.startedClient.isSome) :
    1 ≤ startedClients st := by
  obtain ⟨c, hc⟩ := Option.isSome_iff_exists.mp hs
  obtain ⟨-, client, hlookup, hstate⟩ := h.started c hc
  have hmem : (⟨c, client⟩ : Sigma fun _ : ℕ => AgentClientState) ∈ st.clients.entries :=
    List.of_mem_dlookup hlookup
  have hfilter : (⟨c, client⟩ : Sigma fun _ : ℕ => AgentClientState) ∈
      st.clients.entries.filter fun e => e.2.state = .started :=
    List.mem_filter.mpr ⟨hmem, by simp [hstate]⟩
  exact List.length_pos_of_mem hfilter

theorem FdsOk.received_le (h : FdsOk s) :
    s.received.length ≤ 2 * startedClients s.agent.state := by
  rw [h.received]
  by_cases hproducer : s.producer = []
  · simp [hproducer]
  · obtain ⟨hlen, hactive⟩ := h.producer hproducer
    have hone := one_le_startedClients h.session (h.session.active hactive).1
    omega

/-- The state after a handler, before the descriptors of a stopped extension are closed. -/
theorem FdsOk.handle (h : FdsOk s) {e : AgentEvent} (he : ReleasesAll s e) :
    (s.handle osPid e).received = (s.handle osPid e).producer ∧
      ((s.handle osPid e).producer ≠ [] → (s.handle osPid e).producer.length = 2 ∧
        (s.agent.state.extensionActive = true ∨
          ((agentLoop osPid).step s.agent e).1.state.extensionActive = true)) := by
  have hsame : s.received = s.producer ∧ (s.producer ≠ [] → s.producer.length = 2 ∧
      (s.agent.state.extensionActive = true ∨
        ((agentLoop osPid).step s.agent e).1.state.extensionActive = true)) :=
    ⟨h.received, fun hne => ⟨(h.producer hne).1, Or.inl (h.producer hne).2⟩⟩
  cases e with
  | message clientId msg rawFds env =>
    obtain ⟨hreceived, hreleasable⟩ := he
    have hsettles : (messageDisposal osPid s.agent clientId msg rawFds env).Settles rawFds :=
      (messageDisposal_settles_iff hreceived).mpr hreleasable
    have howned : (messageDisposal osPid s.agent clientId msg rawFds env).owned ≠ [] →
        messageDisposal osPid s.agent clientId msg rawFds env = ⟨rawFds, []⟩ := by
      intro hne
      obtain ⟨-, -, hpair, hlen⟩ := started_of_owned hne
      rcases hreleasable with rfl | ⟨htwo, -⟩
      · simp at hlen
      · rwa [List.take_of_length_le (by omega)] at hpair
    obtain ⟨heq, hproducer⟩ := dispose_of_settles h.received hsettles howned
    refine ⟨heq, ?_⟩
    change (s.dispose rawFds _).producer ≠ [] → (s.dispose rawFds _).producer.length = 2 ∧ _
    rw [hproducer]
    split_ifs with hnone
    · exact hsame.2
    · intro hne
      obtain ⟨-, hactive, -, hlen⟩ := started_of_owned hnone
      refine ⟨?_, Or.inr ?_⟩
      · rcases hreleasable with rfl | ⟨htwo, -⟩
        · exact absurd rfl hne
        · exact htwo
      · simp only [agentLoop, removeDeleted]
        rw [foldl_removeClient_eq]
        exact hactive
  | accept now => exact hsame
  | disconnect clientId => exact hsame
  | timer clock => exact hsame

theorem FdsOk.step (h : FdsOk s) {e : AgentEvent} (he : ReleasesAll s e) :
    FdsOk ((agentFds osPid).step s e).1 := by
  obtain ⟨st', hhandled, hst⟩ := step_handled osPid h.session e
  obtain ⟨heq, hproducer⟩ : (s.handle osPid e).received = _ ∧ _ := h.handle he
  have hactive : ((agentLoop osPid).step s.agent e).1.state.extensionActive =
      st'.extensionActive := by
    rw [hst, foldl_removeClient_eq]
  refine ⟨?_, ?_, ?_⟩
  · rw [agentFds_agent, hst]
    exact hhandled.inv.remove
  · unfold agentFds
    dsimp only
    split_ifs with hstop
    · exact (closeProducer_of_eq heq).1
    · exact heq
  · unfold agentFds
    dsimp only
    split_ifs with hstop
    · exact fun hne => absurd rfl hne
    · intro hne
      obtain ⟨hlen, hor⟩ := hproducer hne
      refine ⟨hlen, ?_⟩
      rcases hor with hbefore | hafter
      · -- Without a stop the extension is still running.
        have hcalled := hhandled.called
        rw [hactive]
        generalize calls ((agentLoop osPid).step s.agent e).2 = cs at hcalled hstop
        rw [hbefore] at hcalled
        generalize st'.extensionActive = active at hcalled ⊢
        cases hcalled with
        | nothing => rfl
        | stop => exact absurd List.mem_cons_self hstop
      · exact hafter

end Runs

/-- In every state, the descriptors of a message end up with the producer of the client that
it has started, or closed, exactly if there are none or they come with a `Start` that gets as
far as to convert two of them. If that is so for all messages, then in every run the agent
holds no more than what its clients and its sessions account for. -/
theorem descriptors_settled_iff (osPid : ℤ) :
    (∀ a clientId msg rawFds env, Received env rawFds →
      ((messageDisposal osPid a clientId msg rawFds env).Settles rawFds ↔
        Releasable a clientId msg rawFds) ∧
      ((messageDisposal osPid a clientId msg rawFds env).owned ≠ [] →
        (handleMessage osPid a clientId msg rawFds env).1.state.startedClient =
          some clientId)) ∧
    ∀ timeoutMs tracingExtension base events,
      let start := AgentFds.new ⟨AgentState.new timeoutMs tracingExtension, osPid⟩
      (agentFds osPid).Meets ReleasesAll start events →
        openDescriptors base ((agentFds osPid).final start events) ≤ base +
          2 * startedClients ((agentFds osPid).final start events).agent.state +
          ((agentFds osPid).final start events).agent.state.clients.entries.length := by
  constructor
  · intro a clientId msg rawFds env h
    exact ⟨messageDisposal_settles_iff h, fun howned => (started_of_owned howned).1⟩
  · intro timeoutMs tracingExtension base events start hmeets
    have hstart : FdsOk start := ⟨inv_new _ _, rfl, fun hne => absurd rfl hne⟩
    have hok := Machine.invariant (I := FdsOk) (fun _ _ hs he => hs.step he) hstart hmeets
    have hle := hok.received_le
    unfold openDescriptors
    omega

/-- Everything the agent asks for is granted. -/
def allGranted : Env where
  fdValid := fun _ => true
  producerNew := fun _ => .ok ()
  random := 4
  currentExe := none
  extensionStart := .ok ()
  now := 7

/-- A client connects and starts a session. -/
def sessionEvents : List AgentEvent :=
  [.accept 5, .message 1 (.start 4096 ⟨some ⟨"info", .monotonic⟩, []⟩) [10, 11] allGranted]

theorem descriptors_settled_session :
    ((agentFds 1).final (AgentFds.new ⟨AgentState.new 1000 true, 1⟩) sessionEvents).received =
        [10, 11] ∧
      openDescriptors 3 ((agentFds 1).final (AgentFds.new ⟨AgentState.new 1000 true, 1⟩)
        sessionEvents) ≤ 3 + 2 * startedClients ((agentFds 1).final
          (AgentFds.new ⟨AgentState.new 1000 true, 1⟩) sessionEvents).agent.state +
        ((agentFds 1).final (AgentFds.new ⟨AgentState.new 1000 true, 1⟩)
          sessionEvents).agent.state.clients.entries.length := by
  refine ⟨by decide, (descriptors_settled_iff 1).2 1000 true 3 sessionEvents ?_⟩
  refine ⟨trivial, ⟨⟨by decide, by decide⟩, Or.inr ⟨rfl, rfl, ?_⟩⟩, trivial⟩
  exact ⟨⟨.pending, 5⟩, 4096, ⟨some ⟨"info", .monotonic⟩, []⟩, rfl, rfl, rfl, rfl⟩

/-- A client asks for the version, twice, and attaches descriptors. -/
def versionEvents : List AgentEvent :=
  [.accept 5, .message 1 .version [10, 11] allGranted, .message 1 .version [12, 13] allGranted]

theorem version_leaks_descriptors :
    ¬ (messageDisposal 1 ⟨AgentState.new 1000 true, 1⟩ 1 .version [10, 11] allGranted).Settles
        [10, 11] ∧
      ((agentFds 1).final (AgentFds.new ⟨AgentState.new 1000 true, 1⟩) versionEvents).received =
        [10, 11, 12, 13] ∧
      ((agentFds 1).final (AgentFds.new ⟨AgentState.new 1000 true, 1⟩)
        versionEvents).producer = [] := by
  refine ⟨?_, by decide, by decide⟩
  intro hsettles
  cases nothing_settles_iff.mp hsettles

end Manytrace.Agent
