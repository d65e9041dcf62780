import Manytrace.Agent.AgentState

/-! A `Start` that is answered with `Nack`. The agent has chosen its process id by the time it
asks the extension, and does not go back if the extension refuses. -/
namespace Manytrace.Agent

/-- Nothing has changed, and the client may start again as if it had not tried. -/
structure AsBefore (osPid : ℤ) (clientId : ℕ) (a a' : AgentProcess) : Prop where
  clients : a'.state.clients = a.state.clients
  startedClient : a'.state.startedClient = a.state.startedClient
  anotherStarted : a'.state.anotherStarted = a.state.anotherStarted
  extensionActive : a'.state.extensionActive = a.state.extensionActive
  processId : a'.processId = a.processId
  again : ∀ bufferSize args rawFds env,
    handleMessage osPid a' clientId (.start bufferSize args) rawFds env =
      handleMessage osPid a clientId (.start bufferSize args) rawFds env

/-- The `Start` passes every check of the agent and gets to the extension. -/
def asksExtension (a : AgentProcess) (bufferSize : ℕ) (args : Args) (rawFds : List ℤ)
    (env : Env) : Bool :=
  !a.state.anotherStarted && args.tracing.isSome &&
    (match rawFds with
    | memoryFd :: notificationFd :: _ =>
      validateAndConvertFd env memoryFd && validateAndConvertFd env notificationFd
    | _ => false) &&
    (env.producerNew bufferSize).isOk && a.state.tracingExtension

/-- The process id that the options of a `Start` ask for. -/
def chosenProcessId (osPid : ℤ) (a : AgentProcess) (args : Args) (env : Env) : Option ℤ :=
  chooseProcessId osPid a.processId env.random (args.options.lookup randomProcessIdOption)

section Start
variable {osPid : ℤ} {a : AgentProcess} {clientId bufferSize : ℕ} {args : Args}
  {rawFds : List ℤ} {env : Env} {error : String}

/-- A `Start` is refused by the agent, which leaves everything as it is, or by the extension,
when the process id has been chosen. -/
theorem handleStart_nack
    (hnack : reply clientId (.nack error) ∈
      (handleStart osPid a clientId bufferSize args rawFds env).2.1) :
    (handleStart osPid a clientId bufferSize args rawFds env).2.2 = none ∧
      ((asksExtension a bufferSize args rawFds env = false ∧
          (handleStart osPid a clientId bufferSize args rawFds env).1 = a) ∨
        (asksExtension a bufferSize args rawFds env = true ∧
          ∃ pid, chosenProcessId osPid a args env = some pid ∧
            (handleStart osPid a clientId bufferSize args rawFds env).1 = ⟨a.state, pid⟩)) := by
  unfold handleStart at hnack ⊢
  unfold asksExtension chosenProcessId
  by_cases hs : a.state.anotherStarted = true
  · rw [if_pos hs]
    exact ⟨rfl, Or.inl ⟨by simp [hs], rfl⟩⟩
  rw [if_neg hs] at hnack ⊢
  rw [Bool.not_eq_true] at hs
  cases htracing : args.tracing with
  | none => exact ⟨rfl, Or.inl ⟨by simp, rfl⟩⟩
  | some tracingArgs =>
    rw [htracing] at hnack
    match rawFds with
    | [] | [_] => exact ⟨rfl, Or.inl ⟨by simp, rfl⟩⟩
    | memoryFd :: notificationFd :: _ =>
      dsimp only at hnack ⊢
      by_cases hfd : (!validateAndConvertFd env memoryFd ||
          !validateAndConvertFd env notificationFd) = true
      · rw [if_pos hfd]
        refine ⟨rfl, Or.inl ⟨?_, rfl⟩⟩
        rw [← Bool.not_and, Bool.not_eq_true'] at hfd
        simp [hfd]
      rw [if_neg hfd] at hnack ⊢
      rw [← Bool.not_and, Bool.not_eq_true', Bool.not_eq_false] at hfd
      cases hnew : env.producerNew bufferSize with
      | error e =>
        rw [hnew] at hnack
        exact absurd hnack List.not_mem_nil
      | ok u =>
        rw [hnew] at hnack
        dsimp only at hnack ⊢
        cases hpid : chooseProcessId osPid a.processId env.random
          (args.options.lookup randomProcessIdOption) with
        | none =>
          rw [hpid] at hnack
          simp [reply] at hnack
        | some pid =>
          rw [hpid] at hnack
          dsimp only at hnack ⊢
          by_cases hext : a.state.tracingExtension = true
          · rw [if_pos hext] at hnack ⊢
            cases hstart : env.extensionStart with
            | error msg =>
              exact ⟨rfl,
                Or.inr ⟨by simp [hs, hfd, hext, Except.isOk, Except.toBool], pid, rfl, rfl⟩⟩
            | ok v =>
              rw [hstart] at hnack
              simp [reply, processTrack] at hnack
          · rw [if_neg hext] at hnack
            simp [reply, processTrack] at hnack

theorem AsBefore.refl (osPid : ℤ) (clientId : ℕ) (a : AgentProcess) :
    AsBefore osPid clientId a a :=
  ⟨rfl, rfl, rfl, rfl, rfl, fun _ _ _ _ => rfl⟩

/-- The answer to a `Start` of a pending client, if nothing comes of it. -/
theorem handleMessage_start {client : AgentClientState}
    (hclient : a.state.clients.lookup clientId = some client) (hpending : client.state = .pending)
    (hnone : (handleStart osPid a clientId bufferSize args rawFds env).2.2 = none) :
    handleMessage osPid a clientId (.start bufferSize args) rawFds env =
      ((handleStart osPid a clientId bufferSize args rawFds env).1,
        (handleStart osPid a clientId bufferSize args rawFds env).2.1) := by
  unfold handleMessage
  rw [if_neg (by simp)]
  simp only [hclient, handleClient, hpending, hnone]

theorem reply_notMem_handleDisconnect (st : AgentState) (message : ControlMessage) :
    reply clientId message ∉ (st.handleDisconnect clientId).2 := by
  unfold AgentState.handleDisconnect AgentState.stopExtension
  split_ifs <;> simp [reply]

/-- The answer `Nack` to a `Start` of a pending client comes from `handleStart`. -/
theorem nack_of_handleMessage {client : AgentClientState}
    (hclient : a.state.clients.lookup clientId = some client) (hpending : client.state = .pending)
    (hnack : reply clientId (.nack error) ∈
      (handleMessage osPid a clientId (.start bufferSize args) rawFds env).2) :
    reply clientId (.nack error) ∈
      (handleStart osPid a clientId bufferSize args rawFds env).2.1 := by
  unfold handleMessage at hnack
  rw [if_neg (by simp)] at hnack
  simp only [hclient, handleClient, hpending] at hnack
  split at hnack
  · exact hnack
  · exact hnack
  · exact hnack
  · exact (List.mem_append.mp hnack).resolve_right (reply_notMem_handleDisconnect _ _)
  · exact (List.mem_append.mp hnack).resolve_right (reply_notMem_handleDisconnect _ _)

end Start

/-- A rejected `Start` leaves no trace exactly if it does not get to the extension, or if the
process id it has chosen there is the one that the agent had. -/
theorem rejected_start_as_before_iff (osPid : ℤ) (a : AgentProcess) (clientId : ℕ)
    (client : AgentClientState) (hclient : a.state.clients.lookup clientId = some client)
    (hpending : client.state = .pending) (bufferSize : ℕ) (args : Args) (rawFds : List ℤ)
    (env : Env) (error : String)
    (hnack : reply clientId (.nack error) ∈
      (handleMessage osPid a clientId (.start bufferSize args) rawFds env).2) :
    AsBefore osPid clientId a
        (handleMessage osPid a clientId (.start bufferSize args) rawFds env).1 ↔
      (asksExtension a bufferSize args rawFds env = true →
        chosenProcessId osPid a args env = some a.processId) := by
  obtain ⟨hnone, hcases⟩ := handleStart_nack (nack_of_handleMessage hclient hpending hnack)
  rw [handleMessage_start hclient hpending hnone]
  rcases hcases with ⟨hask, hsame⟩ | ⟨hask, pid, hpid, hafter⟩
  · rw [hsame, hask]
    exact iff_of_true (AsBefore.refl osPid clientId a) fun h => absurd h Bool.false_ne_true
  · rw [hafter, hask, hpid]
    constructor
    · intro h _
      exact congrArg some h.processId
    · intro h
      obtain rfl : pid = a.processId := Option.some.inj (h rfl)
      exact AsBefore.refl osPid clientId a

section Runs

/-- An agent of process 42 with an extension and one pending client. -/
def waiting : AgentProcess :=
  ⟨{ AgentState.new 1000 true with clients := (∅ : AList _).insert 1 ⟨.pending, 0⟩ }, 42⟩

/-- The descriptors are good, and the extension refuses the filter. -/
def refusal : Env where
  fdValid _ := true
  producerNew _ := .ok ()
  random := 7
  currentExe := some (some "app")
  extensionStart := .error "invalid filter"
  now := 10

def startArgs (options : List (String × Value)) : Args := ⟨some ⟨"[", .monotonic⟩, options⟩

theorem rejected_start_keeps_own_pid :
    AsBefore 42 1 waiting
      (handleMessage 42 waiting 1 (.start 4096 (startArgs [])) [3, 4] refusal).1 := by
  refine (rejected_start_as_before_iff 42 waiting 1 ⟨.pending, 0⟩ (by decide) rfl 4096
    (startArgs []) [3, 4] refusal "invalid filter" ?_).mpr fun _ => by decide
  exact List.mem_cons_of_mem _ (List.mem_cons_of_mem _ List.mem_cons_self)

/-- The rejected `Start` had asked for a random process id. The agent keeps the id, and so does
the next `Start` of the client, whose option is not a `Bool`. -/
theorem rejected_start_changes_pid :
    reply 1 (.nack "invalid filter") ∈ (handleMessage 42 waiting 1
      (.start 4096 (startArgs [(randomProcessIdOption, .bool true)])) [3, 4] refusal).2 ∧
    (handleMessage 42 waiting 1
      (.start 4096 (startArgs [(randomProcessIdOption, .bool true)])) [3, 4] refusal).1.processId =
        7 ∧
    ¬ AsBefore 42 1 waiting (handleMessage 42 waiting 1
      (.start 4096 (startArgs [(randomProcessIdOption, .bool true)])) [3, 4] refusal).1 := by
  refine ⟨List.mem_cons_of_mem _ (List.mem_cons_of_mem _ List.mem_cons_self), rfl, fun h => ?_⟩
  exact absurd h.processId (by decide)

end Runs
end Manytrace.Agent
