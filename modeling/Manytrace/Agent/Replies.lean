import Manytrace.Agent.Session
import Manytrace.Agent.ClientState
import Manytrace.Agent.Conversation

/-! Which request the replies belong to that a client acts on. -/
namespace Manytrace.Agent
open Manytrace.Core

/-! ## Replies of the agent -/

section Agent
variable {c : ℕ} {os : List Output}

@[simp] theorem repliesTo_nil : repliesTo c [] = [] := rfl

@[simp] theorem repliesTo_append (os' : List Output) :
    repliesTo c (os ++ os') = repliesTo c os ++ repliesTo c os' :=
  List.filterMap_append

@[simp] theorem repliesTo_reply (d : ℕ) (m : ControlMessage) :
    repliesTo c (reply d m :: os) = (if d = c then [m] else []) ++ repliesTo c os := by
  by_cases h : d = c <;> simp [repliesTo, reply, Output.replyTo?, h]

theorem repliesTo_eq_nil (h : ∀ o ∈ os, ∀ d m, o ≠ .action (.sendMessage d m)) :
    repliesTo c os = [] := by
  refine List.filterMap_eq_nil_iff.mpr ?_
  intro o ho
  cases o with
  | action a =>
    cases a with
    | sendMessage d m => exact absurd rfl (h _ ho d m)
    | deleteEpoll d => rfl
  | _ => rfl

@[simp] theorem repliesTo_processTrack (env : Env) (pid : ℤ) :
    repliesTo c (processTrack env pid) = [] :=
  repliesTo_eq_nil (by simp [processTrack])

@[simp] theorem repliesTo_handleDisconnect (st : AgentState) (d : ℕ) :
    repliesTo c (st.handleDisconnect d).2 = [] := by
  refine repliesTo_eq_nil ?_
  unfold AgentState.handleDisconnect AgentState.stopExtension
  split_ifs <;> simp

@[simp] theorem repliesTo_timer (st : AgentState) (clock : ℕ → ℕ) :
    repliesTo c (st.timer clock).2 = [] := by
  refine repliesTo_eq_nil ?_
  unfold AgentState.timer AgentState.stopExtension
  dsimp only
  split
  · simp
  · split
    · simp
    · split_ifs <;> aesop

/-- The outputs contain at most one reply, and none but to `d`. -/
def AnswersOnce (d : ℕ) (os : List Output) : Prop :=
  ∃ m : Option ControlMessage, ∀ c, repliesTo c os = if d = c then m.toList else []

variable {osPid : ℤ} {a : AgentProcess} {d : ℕ} {rawFds : List ℤ} {env : Env}

theorem answersOnce_nil : AnswersOnce d [] := ⟨none, by simp⟩

theorem answersOnce_reply (m : ControlMessage) : AnswersOnce d [reply d m] := ⟨some m, by simp⟩

theorem answersOnce_start (o : Output) (ho : ∀ c, repliesTo c [o] = []) (m : ControlMessage)
    (pid : ℤ) : AnswersOnce d (processTrack env pid ++ [o, reply d m]) := by
  refine ⟨some m, fun c => ?_⟩
  rw [show [o, reply d m] = [o] ++ [reply d m] from rfl, repliesTo_append, repliesTo_append, ho]
  simp

theorem answersOnce_handleStart (bufferSize : ℕ) (args : Args) :
    AnswersOnce d (handleStart osPid a d bufferSize args rawFds env).2.1 := by
  have hpath := handleStart_path osPid a d bufferSize args rawFds env
  generalize handleStart osPid a d bufferSize args rawFds env = r at hpath ⊢
  cases hpath with
  | refused reason => exact answersOnce_reply _
  | failed e => exact answersOnce_nil
  | overflowed => exact ⟨none, fun c => by simp [repliesTo, Output.replyTo?]⟩
  | rejected => exact answersOnce_start _ (fun _ => rfl) _ _
  | extended => exact answersOnce_start _ (fun _ => rfl) _ _
  | granted pid => exact ⟨some .ack, by simp⟩

theorem answersOnce_handleClient (client : AgentClientState) (msg : ControlMessage) :
    AnswersOnce d (handleClient osPid a d client msg rawFds env).2.1 := by
  unfold handleClient
  split
  · exact answersOnce_handleStart _ _
  · exact answersOnce_reply _
  · exact answersOnce_reply _
  · exact answersOnce_nil

/-- A message is answered at most once, and to its sender only. -/
theorem answersOnce_handleMessage (osPid : ℤ) (a : AgentProcess) (d : ℕ) (msg : ControlMessage)
    (rawFds : List ℤ) (env : Env) :
    AnswersOnce d (handleMessage osPid a d msg rawFds env).2 := by
  unfold handleMessage
  split_ifs with hversion
  · exact answersOnce_reply _
  · split
    · exact answersOnce_nil
    · dsimp only
      obtain ⟨m, hm⟩ := answersOnce_handleClient _ msg
      split
      · exact ⟨m, hm⟩
      · exact ⟨m, hm⟩
      · exact ⟨m, hm⟩
      · exact ⟨m, fun c => by simp [hm]⟩
      · exact ⟨m, fun c => by simp [hm]⟩

/-- In an event that is not a message of the client it gets no reply. -/
theorem repliesTo_other {ev : AgentEvent} (h : ev.isFrom c = false) :
    repliesTo c ((agentLoop osPid).step a ev).2 = [] := by
  cases ev with
  | accept now =>
    change repliesTo c (a.state.accept now).2 = []
    unfold AgentState.accept
    split_ifs <;> rfl
  | message d msg rawFds env =>
    obtain ⟨m, hm⟩ := answersOnce_handleMessage osPid a d msg rawFds env
    exact (hm c).trans (if_neg (by simpa [AgentEvent.isFrom] using h))
  | disconnect d => exact repliesTo_handleDisconnect a.state d
  | timer clock => exact repliesTo_timer a.state clock

theorem length_repliesTo_message (msg : ControlMessage) :
    (repliesTo c ((agentLoop osPid).step a (.message c msg rawFds env)).2).length ≤ 1 := by
  obtain ⟨m, hm⟩ := answersOnce_handleMessage osPid a c msg rawFds env
  have hreplies : repliesTo c ((agentLoop osPid).step a (.message c msg rawFds env)).2 =
      m.toList := (hm c).trans (if_pos rfl)
  rw [hreplies]
  cases m <;> simp

end Agent

/-! ## Calls of the client -/

/-- Whatever ends the wait, the stream may stay open: no error branch drops it. -/
def Waiting.keepsStream (w : Waiting) : Bool :=
  match w.versionAnswer, w.op with
  | some _, _ | none, .stop _ => false
  | none, _ => true

/-- The requests up to now have gone out; the second one of a start after a version. -/
def Waiting.Out (w : Waiting) : Prop :=
  match w.versionAnswer, w.op with
  | none, op => op.posting.goesOut = true
  | some v, .startWithOptions _ p _ q => (p.answered v).AnswersVersion ∧ q.goesOut = true
  | some _, _ => False

theorem Posting.goesOut_iff {p : Posting} :
    p.goesOut = true ↔ p.serialize = .ok () ∧ p.send = .ok () := by
  obtain ⟨_ | _, _ | _⟩ := p <;> simp [goesOut, Except.isOk, Except.toBool]

/-- Between calls nothing is under way; during a call nothing but what belongs to it. -/
structure Orderly (s : Conversation) : Prop where
  idle : s.waiting = none → s.channel = .empty
  holds : ∀ w, s.waiting = some w → s.channel.Holds w.number ∧ w.Out
  closed : s.link = .closed → s.channel.requests = []

section Calls
variable {s : Conversation} {op : Operation} {w : Waiting} {first second a : Answer}

theorem orderly_finish
    (h : (clientLoop.step s.run (op.call first second)).1.client.enabled = true →
      s.channel = .empty) : Orderly (s.finish op first second).1 := by
  unfold Conversation.finish
  dsimp only
  split_ifs with henabled
  · refine ⟨fun _ => h henabled, by simp, fun _ => ?_⟩
    rw [h henabled]
    rfl
  · exact ⟨fun _ => rfl, by simp, by simp⟩

theorem orderly_post {v : Option Answer} (hidle : s.channel = .empty) (m : ControlMessage)
    (hout : ∀ n, Waiting.Out ⟨op, n, v⟩) : Orderly (s.post op v m) := by
  refine ⟨by simp [Conversation.post], ?_, ?_⟩
  · rintro w hw
    cases hw
    refine ⟨?_, hout _⟩
    change Channel.Holds s.sent (if s.link = .closed then s.channel else _)
    rw [hidle]
    split_ifs
    · exact Channel.holds_empty
    · exact Channel.holds_post m
  · intro hlink
    have hclosed : s.link = .closed := hlink
    change (if s.link = .closed then s.channel else _).requests = []
    rw [if_pos hclosed, hidle]
    rfl

theorem orderly_resume (hout : w.Out)
    (h : s.channel = .empty ∨ w.keepsStream = false ∧ ∀ r, a ≠ .received (.ok r)) :
    Orderly (s.resume w a).1 := by
  obtain ⟨op, number, versionAnswer⟩ := w
  cases versionAnswer with
  | some v =>
    refine orderly_finish fun henabled => h.resolve_right ?_
    rintro ⟨-, hanswer⟩
    cases op with
    | startWithOptions k p o q =>
      obtain ⟨hversion, hq⟩ : (p.answered v).AnswersVersion ∧ q.goesOut = true := hout
      have hclosed := startWithOptions_closes (k := k) (c := s.run.client) hversion
        (x := q.answered a) (Posting.goesOut_iff.mp hq).1 hanswer
      exact Bool.false_ne_true (hclosed.symm.trans henabled)
    | _ => exact hout
  | none =>
    cases op with
    | startWithOptions k p o q =>
      have hidle : s.channel = .empty := h.resolve_right fun hfalse => by cases hfalse.1
      change Orderly (ite _ _ _ : Conversation × List TalkOutput).1
      split_ifs with hgo
      · rw [Bool.and_eq_true] at hgo
        have hposted : ∀ n, Waiting.Out ⟨.startWithOptions k p o q, n, some a⟩ :=
          fun _ => ⟨answersVersion_of_checkVersion hgo.1, hgo.2⟩
        exact orderly_post hidle o.message hposted
      · exact orderly_finish fun _ => hidle
    | stop p =>
      refine orderly_finish fun henabled => absurd henabled ?_
      have hp := Posting.goesOut_iff.mp hout
      have hclosed := stop_closes (c := s.run.client) (x := p.answered a) hp.1 hp.2
      exact Bool.eq_false_iff.mp hclosed
    | _ => exact orderly_finish fun _ => h.resolve_right fun hfalse => by cases hfalse.1

theorem orderly_call (h : Orderly s) (op : Operation) : Orderly (s.call op).1 := by
  unfold Conversation.call
  cases hw : s.waiting with
  | some w => exact h
  | none =>
    dsimp only
    split_ifs with hout
    · rw [Bool.and_eq_true] at hout
      have hposted : ∀ n, Waiting.Out ⟨op, n, none⟩ := fun _ => hout.2
      refine orderly_post ?_ op.request hposted
      exact h.idle hw
    · exact orderly_finish fun _ => h.idle hw

theorem read_not_mem_finish (n : ℕ) (data : List (List ℕ × ControlMessage)) :
    .read n data ∉ (s.finish op first second).2 := by
  simp [Conversation.finish]

theorem read_not_mem_resume (n : ℕ) (data : List (List ℕ × ControlMessage)) :
    .read n data ∉ (s.resume w a).2 := by
  obtain ⟨op, number, versionAnswer⟩ := w
  cases versionAnswer with
  | some v => exact read_not_mem_finish n data
  | none =>
    cases op with
    | startWithOptions k p o q =>
      change _ ∉ (ite _ _ _ : Conversation × List TalkOutput).2
      split_ifs
      · simp
      · exact read_not_mem_finish n data
    | _ => exact read_not_mem_finish n data

theorem read_not_mem_call (op : Operation) (n : ℕ) (data : List (List ℕ × ControlMessage)) :
    .read n data ∉ (s.call op).2 := by
  unfold Conversation.call
  cases s.waiting with
  | some w => simp
  | none =>
    dsimp only
    split_ifs
    · simp
    · exact read_not_mem_finish n data

end Calls

/-! ## Steps and runs -/

/-- The client does not give up a wait on a stream that it keeps, unless the agent has taken
the request and no reply is there. -/
def KeepsUp (s : Conversation) : TalkEvent → Prop
  | .wake (.recv _) => True
  | .wake _ => ∀ w ∈ s.waiting, w.keepsStream = true → s.channel = .empty
  | _ => True

instance (s : Conversation) : DecidablePred (KeepsUp s)
  | .wake (.recv _) => .isTrue trivial
  | .wake .timeout | .wake (.failed _) | .wake (.recvFailed _) =>
    inferInstanceAs (Decidable (∀ w ∈ s.waiting, w.keepsStream = true → s.channel = .empty))
  | .call _ | .accept _ | .receive _ _ _ _ | .agent _ => .isTrue trivial

/-- Everything that is read was made for the request of the operation that reads it. -/
def Matched (os : List TalkOutput) : Prop :=
  ∀ number data, .read number data ∈ os → ∀ r ∈ data, r.1 = [number]

section Steps
variable {s : Conversation} {access : List ControlMessage → Option ControlMessage} {osPid : ℤ}

/-- The agent's steps change nothing about the wait. -/
theorem Orderly.of_agent (h : Orderly s) {s' : Conversation} (hwaiting : s'.waiting = s.waiting)
    (hidle : s.channel = .empty → s'.channel = .empty)
    (hholds : ∀ n, s.channel.Holds n → s'.channel.Holds n)
    (hclosed : s'.link = .closed → s'.channel.requests = []) : Orderly s' where
  idle := fun hw => hidle (h.idle (hwaiting ▸ hw))
  holds := by
    intro w hw
    rw [hwaiting] at hw
    exact ⟨hholds _ (h.holds w hw).1, (h.holds w hw).2⟩
  closed := hclosed

theorem Orderly.wake (h : Orderly s) (k : Wake) (hk : KeepsUp s (.wake k)) :
    Orderly (s.wake access k).1 ∧ Matched (s.wake access k).2 := by
  unfold Conversation.wake
  cases hw : s.waiting with
  | none => exact ⟨h, by simp [Matched]⟩
  | some w =>
    obtain ⟨hholds, hout⟩ := h.holds w hw
    -- a wait that is given up either drops the stream or has nothing under way
    have hgiven : (∀ n, k ≠ .recv n) → s.channel = .empty ∨ w.keepsStream = false := by
      intro hne
      cases hkeeps : w.keepsStream with
      | false => exact Or.inr rfl
      | true =>
        cases k with
        | recv n => exact absurd rfl (hne n)
        | _ => exact Or.inl (hk w hw hkeeps)
    have hresume : ∀ a, (∀ n, k ≠ .recv n) → (∀ r, a ≠ .received (.ok r)) →
        Orderly (s.resume w a).1 ∧ Matched (s.resume w a).2 := by
      intro a hne ha
      refine ⟨orderly_resume hout ((hgiven hne).imp_right fun hkeeps => ⟨hkeeps, ha⟩), ?_⟩
      exact fun number data hread => absurd hread (read_not_mem_resume number data)
    dsimp only
    cases k with
    | timeout =>
      dsimp only
      split_ifs
      · exact hresume _ (by simp) (by simp)
      · exact ⟨h, by simp [Matched]⟩
    | failed e => exact hresume _ (by simp) (by simp)
    | recvFailed e => exact hresume _ (by simp) (by simp)
    | recv n =>
      dsimp only
      split_ifs with hsilent
      · exact ⟨h, by simp [Matched]⟩
      · have hdone : s.channel.replies ≠ [] ∨ s.channel.requests = [] := by
          by_cases hlink : s.link = .closed
          · exact Or.inr (h.closed hlink)
          · refine Or.inl fun hreplies => hsilent ?_
            simp [Conversation.silent, hreplies, hlink]
        have hempty := hholds.take_eq_empty (Nat.succ_pos n) hdone
        refine ⟨orderly_resume hout (Or.inl hempty), ?_⟩
        intro number data hread r hr
        rcases List.mem_cons.mp hread with heq | hread
        · cases heq
          exact hholds.replies r (List.mem_of_mem_take hr)
        · exact absurd hread (read_not_mem_resume number data)

theorem Orderly.absorb (h : Orderly s) {c n : ℕ} {delivered : Bool}
    {r : AgentProcess × List Output} (hlink : s.link ≠ .closed)
    (hidle : s.channel = .empty →
      s.channel.serve n (if delivered then repliesTo c r.2 else []) = .empty)
    (hholds : ∀ number, s.channel.Holds number →
      (s.channel.serve n (if delivered then repliesTo c r.2 else [])).Holds number) :
    Orderly (s.absorb c n delivered r) := by
  unfold Conversation.absorb
  dsimp only
  by_cases hdeleted : c ∈ deletedClients r.2
  · rw [if_pos hdeleted]
    refine h.of_agent rfl ?_ (fun number hs => (hholds number hs).hangUp) fun _ => rfl
    intro hempty
    rw [hidle hempty]
    rfl
  · rw [if_neg hdeleted]
    exact h.of_agent rfl hidle hholds fun hclosed => absurd hclosed hlink

theorem Orderly.receive (h : Orderly s) (n : ℕ) (rawFds : List ℤ) (env : Env)
    (delivered : Bool) : Orderly (s.receive access osPid n rawFds env delivered) := by
  unfold Conversation.receive
  split
  · rename_i c hlink
    have hopen : s.link ≠ .closed := by simp [hlink]
    split_ifs with hrequests
    · exact h
    · have hidle : ∀ ch : Channel ControlMessage ControlMessage, s.channel = .empty →
          ch = .empty := fun _ hempty => absurd (hempty ▸ rfl) hrequests
      split
      · refine h.of_agent rfl (hidle _) ?_ fun hclosed => absurd hclosed hopen
        exact fun number hs => hs.serve (Nat.succ_pos n) hrequests (by simp)
      · rename_i m _
        refine h.absorb hopen (hidle _) ?_
        refine fun number hs => hs.serve (Nat.succ_pos n) hrequests ?_
        split_ifs
        · exact length_repliesTo_message m
        · simp
  · exact h

theorem Orderly.agentEvent (h : Orderly s) (ev : AgentEvent) :
    Orderly (s.agentEvent osPid ev) := by
  unfold Conversation.agentEvent
  dsimp only
  split
  · rename_i c hlink
    split_ifs with hfrom
    · exact h
    · have hnone : repliesTo c ((agentLoop osPid).step s.agent ev).2 = [] :=
        repliesTo_other (Bool.eq_false_iff.mpr hfrom)
      refine h.absorb (by simp [hlink]) ?_ ?_
      · intro hempty
        rw [if_pos rfl, hnone, Channel.serve_nil, hempty]
      · intro number hs
        rwa [if_pos rfl, hnone, Channel.serve_nil]
  · exact h.of_agent rfl id (fun _ => id) h.closed

theorem Orderly.accept (h : Orderly s) (now : ℕ) : Orderly (s.accept osPid now) := by
  unfold Conversation.accept
  by_cases hconnecting : s.link = .connecting ∧ s.run.client.enabled = true
  · rw [if_pos hconnecting]
    refine h.of_agent rfl id (fun _ => id) ?_
    dsimp only
    intro hclosed
    split_ifs at hclosed
  · rw [if_neg hconnecting]
    exact h

theorem Orderly.step (h : Orderly s) (access : List ControlMessage → Option ControlMessage)
    (osPid : ℤ) {ev : TalkEvent} (hk : KeepsUp s ev) :
    Orderly ((conversation access osPid).step s ev).1 ∧
      Matched ((conversation access osPid).step s ev).2 := by
  cases ev with
  | call op =>
    exact ⟨orderly_call h op, fun number data hread => absurd hread (read_not_mem_call op _ _)⟩
  | wake k => exact h.wake k hk
  | accept now => exact ⟨h.accept now, by simp [Matched, conversation]⟩
  | receive n rawFds env delivered =>
    exact ⟨h.receive n rawFds env delivered, by simp [Matched, conversation]⟩
  | agent ev => exact ⟨h.agentEvent ev, by simp [Matched, conversation]⟩

end Steps

theorem orderly_new (a : AgentProcess) : Orderly (.new a) := by
  constructor <;> simp [Conversation.new]

/-- As long as no wait is given up on a stream that is kept while its reply may still come,
every reply that is read was made for the request of the operation that reads it. -/
theorem replies_match_requests (access : List ControlMessage → Option ControlMessage)
    (osPid : ℤ) (a : AgentProcess) (events : List TalkEvent)
    (h : (conversation access osPid).Meets KeepsUp (.new a) events) :
    ∀ number data,
      .read number data ∈ (conversation access osPid).outputs (.new a) events →
        ∀ r ∈ data, r.1 = [number] := by
  have hall : Orderly ((conversation access osPid).final (.new a) events) ∧
      Matched ((conversation access osPid).outputs (.new a) events) := by
    refine Machine.history (I := fun s os => Orderly s ∧ Matched os) ?_ ?_ h
    · rintro s os ev ⟨hs, hos⟩ hk
      obtain ⟨hs', hos'⟩ := hs.step access osPid hk
      refine ⟨hs', fun number data hread => ?_⟩
      rcases List.mem_append.mp hread with hread | hread
      · exact hos number data hread
      · exact hos' number data hread
    · exact ⟨orderly_new a, by simp [Matched]⟩
  exact hall.2

/-- A start, a continue and a stop that are answered in time. -/
theorem replies_match_session :
    let k : Connecting := ⟨.ok (), .ok ()⟩
    let p : Posting := ⟨.ok (), .ok ()⟩
    let a : AgentProcess := ⟨.new 1000 false, 7⟩
    let env : Env := ⟨fun _ => true, fun _ => .ok (), 1, none, .ok (), 0⟩
    let answered : List TalkEvent := [.receive 0 [10, 11] env true, .wake (.recv 0)]
    let events := .call (.startWithOptions k p ⟨4096, "info", .monotonic, []⟩ p) ::
      .accept 0 :: answered ++ answered ++ .call (.sendContinue p) :: answered ++
      .call (.stop p) :: answered
    (conversation List.getLast? 7).Meets KeepsUp (.new a) events ∧
      .read 3 [([3], .ack)] ∈ (conversation List.getLast? 7).outputs (.new a) events ∧
      ∀ r ∈ [([3], ControlMessage.ack)], r.1 = [3] := by
  intro k p a env answered events
  have hmeets : (conversation List.getLast? 7).Meets KeepsUp (.new a) events := by decide
  have hread : .read 3 [([3], .ack)] ∈ (conversation List.getLast? 7).outputs (.new a) events := by
    decide
  exact ⟨hmeets, hread, replies_match_requests List.getLast? 7 a events hmeets 3 _ hread⟩

/-- The agent is late with its answer to a request for the version. The client has given up
when it comes, asks again on the same stream, and takes the answer for the new one. -/
theorem late_version_answers_next :
    let k : Connecting := ⟨.ok (), .ok ()⟩
    let p : Posting := ⟨.ok (), .ok ()⟩
    let a : AgentProcess := ⟨.new 1000 false, 7⟩
    let env : Env := ⟨fun _ => true, fun _ => .ok (), 1, none, .ok (), 0⟩
    let x : Answer → Exchange := fun answer => ⟨.ok (), .ok (), answer⟩
    let late : ControlMessage := .versionResponse version
    (conversation List.getLast? 7).outputs (.new a)
        [.call (.checkVersion k p), .accept 0, .wake .timeout, .receive 0 [] env true,
          .call (.checkVersion k p), .wake (.recv 0)] =
      [.returned (.checkVersion k (x .timeout))
          (.error (.io .timedOut "timeout waiting for agent response")),
        .read 1 [([0], late)],
        .returned (.checkVersion k (x (.received (.ok (some late))))) (.ok ())] := by
  decide

end Manytrace.Agent
