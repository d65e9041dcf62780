import Manytrace.Agent.AgentState

/-! The loop of `epoll_listener_thread` around the handlers, and its listening socket, which
is registered with an edge-triggered epoll. -/
namespace Manytrace.Agent
open Manytrace.Core

/-- A listening socket, and whether `epoll` has an event for it. -/
structure Listener where
  backlog : ℕ
  armed : Bool
deriving DecidableEq, Repr

namespace Listener

/-- The socket is registered while `n` clients are waiting already. -/
def register (n : ℕ) : Listener := ⟨n, 0 < n⟩

/-- `n` clients connect. -/
def arrive (l : Listener) (n : ℕ) : Listener := ⟨l.backlog + n, l.armed || 0 < n⟩

/-- The event is returned by `epoll_wait`. -/
def disarm (l : Listener) : Listener := { l with armed := false }

/-- One `accept`, and whether it has returned a connection. It would block if there is
none, and it may fail for other reasons. -/
def accept (l : Listener) (succeeds : Bool) : Listener × Bool :=
  if l.backlog = 0 then (l, false)
  else if succeeds then ({ l with backlog := l.backlog - 1 }, true)
  else (l, false)

/-- A client that waits is going to be noticed. -/
def Announced (l : Listener) : Prop := 0 < l.backlog → l.armed = true

theorem Announced.arrive {l : Listener} (h : l.Announced) (n : ℕ) : (l.arrive n).Announced := by
  intro hpos
  change 0 < l.backlog + n at hpos
  change (l.armed || decide (0 < n)) = true
  by_cases hn : 0 < n
  · simp [hn]
  · simp [h (by omega)]

end Listener

/-- An event of a client's socket. -/
inductive ClientEvent
  | message (clientId : ℕ) (msg : ControlMessage) (rawFds : List ℤ) (env : Env)
  | disconnect (clientId : ℕ)

def ClientEvent.toAgentEvent : ClientEvent → AgentEvent
  | .message clientId msg rawFds env => .message clientId msg rawFds env
  | .disconnect clientId => .disconnect clientId

/-- One iteration of the loop: the clients that have connected since the last one, whether
the listener is among the events that `epoll_wait` returns, with the events before and after
it, the clients that connect before `accept` and after it, and whether the iteration comes to
its end, without a shutdown or an error that ends the thread. -/
structure Iteration where
  arrivals : ℕ
  reported : Bool
  first : List ClientEvent
  between : ℕ
  acceptSucceeds : Bool
  now : ℕ
  rest : List ClientEvent
  after : ℕ
  clock : ℕ → ℕ
  completes : Bool

structure EpollState where
  agent : AgentProcess
  listener : Listener
  running : Bool

def EpollState.start (agent : AgentProcess) (n : ℕ) : EpollState := ⟨agent, .register n, true⟩

/-- The listener after one iteration, and whether a connection was accepted. -/
def Iteration.listen (it : Iteration) (l : Listener) : Listener × Bool :=
  let waiting := l.arrive it.arrivals
  if it.reported && waiting.armed then
    let r := (waiting.disarm.arrive it.between).accept it.acceptSucceeds
    (r.1.arrive it.after, r.2)
  else ((waiting.arrive it.between).arrive it.after, false)

def Iteration.events (it : Iteration) (accepted : Bool) : List AgentEvent :=
  it.first.map ClientEvent.toAgentEvent ++ (if accepted then [.accept it.now] else []) ++
    it.rest.map ClientEvent.toAgentEvent ++ [.timer it.clock]

/-- Whole iterations; the handlers run as in `agentLoop`. -/
def epollLoop (osPid : ℤ) : Machine EpollState Iteration Output where
  step s it :=
    if !s.running then (s, [])
    else
      let r := it.listen s.listener
      let a := (agentLoop osPid).exec s.agent (it.events r.2)
      (⟨a.1, r.1, it.completes⟩, a.2)

/-- While the loop runs, no client waits unnoticed. -/
def AllAnnounced (s : EpollState) : Prop := s.running = true → s.listener.Announced

/-- If the listener is reported and nobody connects until the end of the iteration, then at
most one client has been waiting, and it was accepted. -/
def TakesAll (s : EpollState) (it : Iteration) : Prop :=
  s.running = true → it.completes = true → it.reported = true →
    (s.listener.arrive it.arrivals).armed = true → it.between = 0 → it.after = 0 →
      s.listener.backlog + it.arrivals ≤ if it.acceptSucceeds then 1 else 0

/-- An event that was taken is made up for by whoever connects later. -/
theorem announced_disarm_iff (l : Listener) (between after : ℕ) (succeeds : Bool) :
    (((l.disarm.arrive between).accept succeeds).1.arrive after).Announced ↔
      (between = 0 → after = 0 → l.backlog ≤ if succeeds then 1 else 0) := by
  unfold Listener.Announced Listener.accept Listener.arrive Listener.disarm
  dsimp only
  cases succeeds <;> split_ifs <;> simp <;> omega

theorem listen_announced_iff {l : Listener} (h : l.Announced) (it : Iteration) :
    (it.listen l).1.Announced ↔ (it.reported = true → (l.arrive it.arrivals).armed = true →
      it.between = 0 → it.after = 0 →
        l.backlog + it.arrivals ≤ if it.acceptSucceeds then 1 else 0) := by
  unfold Iteration.listen
  dsimp only
  by_cases hreported : (it.reported && (l.arrive it.arrivals).armed) = true
  · rw [if_pos hreported]
    rw [Bool.and_eq_true] at hreported
    rw [announced_disarm_iff]
    simp only [hreported, true_implies]
    rfl
  · rw [if_neg hreported]
    refine iff_of_true (((h.arrive _).arrive _).arrive _) ?_
    intro hrep harmed
    exact absurd (by rw [hrep, harmed]; rfl) hreported

theorem allAnnounced_step_iff {osPid : ℤ} {s : EpollState} (h : AllAnnounced s) (it : Iteration) :
    AllAnnounced ((epollLoop osPid).step s it).1 ↔ TakesAll s it := by
  unfold AllAnnounced TakesAll epollLoop
  cases hrunning : s.running with
  | false => simp [hrunning]
  | true =>
    simp only [hrunning, Bool.not_true, Bool.false_eq_true, if_false, true_implies]
    exact imp_congr_right fun _ => listen_announced_iff (h hrunning) it

/-- After every iteration each waiting client is going to be noticed, exactly if no
iteration that takes the event of the listener leaves a client behind. -/
theorem backlog_announced_iff (osPid : ℤ) (agent : AgentProcess) (n : ℕ)
    (its : List Iteration) :
    (∀ done rest, its = done ++ rest →
      AllAnnounced ((epollLoop osPid).final (EpollState.start agent n) done)) ↔
      (epollLoop osPid).Meets TakesAll (EpollState.start agent n) its := by
  have hstart : AllAnnounced (EpollState.start agent n) := fun _ hpos => decide_eq_true hpos
  have hany : (epollLoop osPid).Meets (fun _ _ => True) (EpollState.start agent n) its :=
    Machine.meets_of_forall (P := fun _ => True) (fun _ _ => trivial) _
  exact Machine.forall_reached_iff (I := AllAnnounced)
    (fun _ it hs _ => allAnnounced_step_iff hs it) hstart hany

/-- Two clients connect before the loop looks at the listener. -/
def twoAtOnce : Iteration where
  arrivals := 2
  reported := true
  first := []
  between := 0
  acceptSucceeds := true
  now := 5
  rest := []
  after := 0
  clock := fun _ => 5
  completes := true

theorem second_client_waits_unnoticed :
    ((epollLoop 1).final (EpollState.start ⟨AgentState.new 1000 true, 1⟩ 0) [twoAtOnce]).running =
        true ∧
      ((epollLoop 1).final (EpollState.start ⟨AgentState.new 1000 true, 1⟩ 0)
        [twoAtOnce]).listener = ⟨1, false⟩ :=
  ⟨rfl, rfl⟩

end Manytrace.Agent
