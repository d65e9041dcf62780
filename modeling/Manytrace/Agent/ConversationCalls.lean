import Manytrace.Agent.ClientState
import Manytrace.Agent.Conversation

/-! The client of a conversation is the client that makes its calls one after another. -/
namespace Manytrace.Agent
open Manytrace.Core

def TalkOutput.returned? : TalkOutput → Option (ClientCall × Except AgentError Unit)
  | .returned call result => some (call, result)
  | .read _ _ => none

/-- The calls that have returned, with their results. -/
def returnedCalls (os : List TalkOutput) : List (ClientCall × Except AgentError Unit) :=
  os.filterMap TalkOutput.returned?

/-- The client has made the calls that have returned; in a wait it has opened its stream. -/
def Follows (s : Conversation) (os : List TalkOutput) : Prop :=
  ∃ run, clientLoop.exec .new ((returnedCalls os).map Prod.fst) =
      (run, (returnedCalls os).map Prod.snd) ∧
    s.run = match s.waiting with
      | none => run
      | some w => { run with client := w.op.opened run.client }

section Client
variable {s : Conversation} {os : List TalkOutput}

theorem clientLoop_opened (op : Operation) (run : ClientRun) (first second : Answer) :
    clientLoop.step { run with client := op.opened run.client } (op.call first second) =
      clientLoop.step run (op.call first second) := by
  cases op with
  | checkVersion k p =>
    simp only [Operation.call, Operation.opened, clientLoop, checkVersion_again]
  | startWithOptions k p o q =>
    simp only [Operation.call, Operation.opened, clientLoop, startWithOptions_again]
  | stop p => rfl
  | sendContinue p => rfl

theorem clientLoop_outputs (run : ClientRun) (call : ClientCall) :
    ∃ result, (clientLoop.step run call).2 = [result] := by
  cases call <;> exact ⟨_, rfl⟩

theorem follows_finish {run : ClientRun} {op : Operation} {first second : Answer}
    (hexec : clientLoop.exec .new ((returnedCalls os).map Prod.fst) =
      (run, (returnedCalls os).map Prod.snd))
    (hstep : clientLoop.step s.run (op.call first second) =
      clientLoop.step run (op.call first second)) :
    Follows (s.finish op first second).1 (os ++ (s.finish op first second).2) := by
  obtain ⟨result, hresult⟩ := clientLoop_outputs run (op.call first second)
  have hos : returnedCalls (os ++ (s.finish op first second).2) =
      returnedCalls os ++ [(op.call first second, result)] := by
    simp only [Conversation.finish, hstep, hresult, returnedCalls, List.filterMap_append]
    rfl
  have hrun : (s.finish op first second).1.run =
      (clientLoop.step run (op.call first second)).1 := by
    unfold Conversation.finish
    dsimp only
    split_ifs <;> exact congrArg Prod.fst hstep
  have hwaiting : (s.finish op first second).1.waiting = none := by
    unfold Conversation.finish
    dsimp only
    split_ifs <;> rfl
  refine ⟨(clientLoop.step run (op.call first second)).1, ?_, ?_⟩
  · rw [hos, List.map_append, List.map_append, Machine.exec_append, hexec]
    simp [Machine.exec, hresult]
  · rw [hwaiting]
    exact hrun

theorem Follows.resume {w : Waiting} (h : Follows s os) (hw : s.waiting = some w) (a : Answer) :
    Follows (s.resume w a).1 (os ++ (s.resume w a).2) := by
  obtain ⟨op, number, versionAnswer⟩ := w
  obtain ⟨run, hexec, hrun⟩ := h
  rw [hw] at hrun
  have hfinish : ∀ first second, Follows (s.finish op first second).1
      (os ++ (s.finish op first second).2) := by
    intro first second
    refine follows_finish hexec ?_
    rw [hrun]
    exact clientLoop_opened op run first second
  cases versionAnswer with
  | some v => exact hfinish v a
  | none =>
    cases op with
    | startWithOptions k p o q =>
      unfold Conversation.resume
      dsimp only
      split_ifs
      · rw [List.append_nil]
        exact ⟨run, hexec, hrun⟩
      · exact hfinish a .timeout
    | _ => exact hfinish a .timeout

theorem Follows.call (h : Follows s os) (op : Operation) :
    Follows (s.call op).1 (os ++ (s.call op).2) := by
  unfold Conversation.call
  cases hw : s.waiting with
  | some w =>
    rw [List.append_nil]
    exact h
  | none =>
    obtain ⟨run, hexec, hrun⟩ := h
    rw [hw] at hrun
    dsimp only at hrun ⊢
    split_ifs
    · rw [List.append_nil]
      refine ⟨run, hexec, ?_⟩
      rw [← hrun]
      rfl
    · exact follows_finish hexec (by rw [hrun])

theorem Follows.of_run (h : Follows s os) {s' : Conversation} (hrun : s'.run = s.run)
    (hwaiting : s'.waiting = s.waiting) : Follows s' os := by
  unfold Follows
  rw [hrun, hwaiting]
  exact h

theorem Follows.wake (h : Follows s os) (access : List ControlMessage → Option ControlMessage)
    (k : Wake) : Follows (s.wake access k).1 (os ++ (s.wake access k).2) := by
  unfold Conversation.wake
  cases hw : s.waiting with
  | none =>
    rw [List.append_nil]
    exact h
  | some w =>
    dsimp only
    cases k with
    | timeout =>
      dsimp only
      split_ifs
      · exact h.resume hw _
      · rw [List.append_nil]
        exact h
    | failed e => exact h.resume hw _
    | recvFailed e => exact h.resume hw _
    | recv n =>
      dsimp only
      split_ifs
      · rw [List.append_nil]
        exact h
      · have hread : Follows { s with channel := s.channel.take (n + 1) }
            (os ++ [.read w.number (s.channel.replies.take (n + 1))]) := by
          have hos : returnedCalls (os ++ [.read w.number (s.channel.replies.take (n + 1))]) =
              returnedCalls os :=
            List.filterMap_append.trans (List.append_nil _)
          unfold Follows
          rw [hos]
          exact h
        have hresumed := hread.resume hw
          (.received (.ok (access ((s.channel.replies.take (n + 1)).map Prod.snd))))
        rw [List.append_assoc] at hresumed
        exact hresumed

theorem Follows.step {access : List ControlMessage → Option ControlMessage} {osPid : ℤ}
    (h : Follows s os) (ev : TalkEvent) :
    Follows ((conversation access osPid).step s ev).1
      (os ++ ((conversation access osPid).step s ev).2) := by
  have habsorb : ∀ c n delivered r, Follows (s.absorb c n delivered r) os := by
    intro c n delivered r
    unfold Conversation.absorb
    dsimp only
    by_cases hdeleted : c ∈ deletedClients r.2
    · rw [if_pos hdeleted]
      exact h.of_run rfl rfl
    · rw [if_neg hdeleted]
      exact h.of_run rfl rfl
  cases ev with
  | call op => exact h.call op
  | wake k => exact h.wake access k
  | accept now =>
    change Follows (s.accept osPid now) (os ++ [])
    rw [List.append_nil, Conversation.accept]
    by_cases hconnecting : s.link = .connecting ∧ s.run.client.enabled = true
    · rw [if_pos hconnecting]
      exact h.of_run rfl rfl
    · rw [if_neg hconnecting]
      exact h
  | receive n rawFds env delivered =>
    change Follows (s.receive access osPid n rawFds env delivered) (os ++ [])
    rw [List.append_nil, Conversation.receive]
    split
    · split_ifs
      · exact h
      · split
        · exact h.of_run rfl rfl
        · exact habsorb _ _ _ _
    · exact h
  | agent ev =>
    change Follows (s.agentEvent osPid ev) (os ++ [])
    rw [List.append_nil, Conversation.agentEvent]
    split
    · split_ifs
      · exact h
      · exact habsorb _ _ _ _
    · exact h.of_run rfl rfl

end Client

/-- Between calls the client is where the calls that have returned have brought it, with the
results they have given. -/
theorem conversation_refines_client (access : List ControlMessage → Option ControlMessage)
    (osPid : ℤ) (a : AgentProcess) (events : List TalkEvent)
    (hidle : ((conversation access osPid).final (.new a) events).waiting = none) :
    clientLoop.exec .new ((returnedCalls ((conversation access osPid).outputs (.new a)
        events)).map Prod.fst) =
      (((conversation access osPid).final (.new a) events).run,
        (returnedCalls ((conversation access osPid).outputs (.new a) events)).map Prod.snd) := by
  have hfollows := Machine.history_all (M := conversation access osPid) (I := Follows)
    (fun s os ev h => h.step ev) (s := .new a) ⟨.new, rfl, rfl⟩ events
  obtain ⟨run, hexec, hrun⟩ := hfollows
  rw [hidle] at hrun
  rw [hexec, hrun]

end Manytrace.Agent
