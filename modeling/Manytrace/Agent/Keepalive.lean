import Manytrace.Agent.Lease

/-! The keep-alive of the main loop against the lease of the agent: how far apart the loop's
`Continue` messages can be, and that they keep the session if the agent's timeout allows for
that and for the delays of both sides. -/
namespace Manytrace.Agent
open Manytrace.Core

/-- The period after which the main loop sends `Continue`, in nanoseconds. -/
def keepaliveInterval : ℕ := 1000000000

/-- One round of the main loop, for one client: when it reads `last_keepalive.elapsed()`, when
the client's `Continue` goes out if one is due, and when all clients have been served. -/
structure Round where
  now : ℕ
  sent : ℕ
  after : ℕ
deriving DecidableEq, Repr

/-- When the loop sends `Continue`. -/
def keepalives (last : ℕ) : List Round → List ℕ
  | [] => []
  | r :: rounds =>
    if keepaliveInterval ≤ r.now - last then r.sent :: keepalives r.after rounds
    else keepalives last rounds

/-- Each round begins at most `delay` after the one before, and takes at most `wait` to serve
the clients. -/
def Timely (delay wait : ℕ) : ℕ → List Round → Prop
  | _, [] => True
  | previous, r :: rounds =>
    (previous ≤ r.now ∧ r.now ≤ previous + delay ∧ r.now ≤ r.sent ∧ r.sent ≤ r.after ∧
      r.after ≤ r.now + wait) ∧ Timely delay wait r.after rounds

/-- The time up to which the rounds go. -/
def lastTime (previous : ℕ) (rounds : List Round) : ℕ :=
  rounds.foldl (fun _ r => r.after) previous

/-- How old the last `Continue` can be. -/
def keepaliveAge (delay wait : ℕ) : ℕ := keepaliveInterval + delay + 3 * wait

/-- At any time up to the last round, the last `Continue` is at most `keepaliveAge` old. -/
theorem keepalives_cover {delay wait t : ℕ} (rounds : List Round) {last previous sent : ℕ}
    (hsent : sent ≤ last) (hwait : last ≤ sent + wait)
    (hfresh : previous < last + keepaliveInterval + wait) (h : Timely delay wait previous rounds)
    (ht : sent ≤ t) (hend : t ≤ lastTime previous rounds) :
    ∃ s ∈ sent :: keepalives last rounds, s ≤ t ∧ t ≤ s + keepaliveAge delay wait := by
  induction rounds generalizing last previous sent with
  | nil =>
    have hle : t ≤ previous := hend
    exact ⟨sent, by simp, ht, by unfold keepaliveAge; omega⟩
  | cons r rounds ih =>
    obtain ⟨⟨hnow, hdelay, hout, hafter, hserved⟩, hrest⟩ := h
    have hpos : 0 < keepaliveInterval := by decide
    unfold keepalives
    by_cases hdue : keepaliveInterval ≤ r.now - last
    · rw [if_pos hdue]
      by_cases hbefore : t < r.sent
      · exact ⟨sent, by simp, ht, by unfold keepaliveAge; omega⟩
      · obtain ⟨s, hs, hst⟩ := ih hafter (by omega) (by omega) hrest (by omega) hend
        exact ⟨s, List.mem_cons_of_mem sent hs, hst⟩
    · rw [if_neg hdue]
      exact ih hsent hwait (by omega) hrest ht hend

/-- The time at which the agent handles a `Continue` of the client. -/
def AgentEvent.contact? (c : ℕ) : AgentEvent → Option ℕ
  | .message d .continue_ _ env => if d = c then some env.now else none
  | _ => none

def contacts (c : ℕ) (events : List AgentEvent) : List ℕ :=
  events.filterMap (AgentEvent.contact? c)

/-- An event with which the client itself ends its session. -/
def AgentEvent.leaves (c : ℕ) : AgentEvent → Bool
  | .message d .stop _ _ => d = c
  | .disconnect d => d = c
  | _ => false

theorem renew_of_stays {timeoutNs c last : ℕ} {e : AgentEvent} (hstays : e.leaves c = false)
    (htimer : ∀ clock, e = .timer clock → clock c ≤ last + timeoutNs) :
    renew timeoutNs c last e = some ((e.contact? c).getD last) := by
  cases e with
  | accept now => rfl
  | message d msg rawFds env =>
    by_cases hd : d = c
    · cases msg with
      | stop => simp [AgentEvent.leaves, hd] at hstays
      | _ => simp [renew, AgentEvent.contact?, hd]
    · cases msg <;> simp [renew, AgentEvent.contact?, hd]
  | disconnect d =>
    have hd : d ≠ c := by simpa [AgentEvent.leaves] using hstays
    simp [renew, AgentEvent.contact?, hd]
  | timer clock =>
    have ht := htimer clock rfl
    simp only [renew, AgentEvent.contact?, Option.getD_none]
    rw [if_pos (by omega)]

/-- A lease lasts if the client does not end it, and if before each timer there is a contact
that is recent enough. -/
theorem lease_of_contacts {timeoutNs c : ℕ} (events : List AgentEvent) {last : ℕ}
    (hstays : ∀ e ∈ events, e.leaves c = false)
    (hclock : (last :: contacts c events).Pairwise (· ≤ ·))
    (hcontact : ∀ earlier clock later, events = earlier ++ .timer clock :: later →
      ∃ x, clock c ≤ x + timeoutNs ∧ (x ≤ last ∨ ∃ t ∈ contacts c earlier, x ≤ t)) :
    (lease timeoutNs c last events).isSome := by
  induction events generalizing last with
  | nil => rfl
  | cons e events ih =>
    have hrenew : renew timeoutNs c last e = some ((e.contact? c).getD last) := by
      refine renew_of_stays (hstays e (by simp)) fun clock he => ?_
      obtain ⟨x, hx, hle | ⟨t, ht, -⟩⟩ := hcontact [] clock events (by rw [he]; rfl)
      · omega
      · simp [contacts] at ht
    have hcons : contacts c (e :: events) = (e.contact? c).toList ++ contacts c events := by
      unfold contacts
      cases he : e.contact? c <;> simp [he]
    rw [lease_cons, hrenew, Option.bind_some]
    refine ih (fun e' he' => hstays e' (by simp [he'])) ?_ ?_
    · rw [hcons] at hclock
      cases he : e.contact? c with
      | none => simpa [he] using hclock
      | some t =>
        rw [he] at hclock
        exact hclock.tail
    · intro earlier clock later hsplit
      obtain ⟨x, hx, hcase⟩ := hcontact (e :: earlier) clock later (by rw [hsplit]; rfl)
      refine ⟨x, hx, ?_⟩
      -- The contact is `e` itself, an earlier one that `e` has not undone, or a later one.
      have hle : last ≤ (e.contact? c).getD last := by
        cases he : e.contact? c with
        | none => exact le_rfl
        | some t =>
          rw [hcons, he] at hclock
          exact List.rel_of_pairwise_cons hclock (by simp)
      rcases hcase with hlast | ⟨t, ht, hxt⟩
      · exact .inl (hlast.trans hle)
      · unfold contacts at ht
        rw [List.filterMap_cons] at ht
        cases he : e.contact? c with
        | none =>
          rw [he] at ht
          exact .inr ⟨t, ht, hxt⟩
        | some t' =>
          rw [he] at ht
          rcases List.mem_cons.mp ht with rfl | ht
          · exact .inl hxt
          · exact .inr ⟨t, ht, hxt⟩

/-- What the agent sees of a client that has started at `start` and sends `Continue` at the
times of `sends`, until `stop`: each is handled within `latency`, the clock does not run
backwards, and the client does not leave. -/
structure Served (c start stop latency : ℕ) (sends : List ℕ) (events : List AgentEvent) :
    Prop where
  stays : ∀ e ∈ events, e.leaves c = false
  clock : (start :: contacts c events).Pairwise (· ≤ ·)
  handled : ∀ earlier clock later, events = earlier ++ .timer clock :: later →
    clock c ≤ stop + latency ∧
      ∀ s ∈ sends, s + latency ≤ clock c → ∃ t ∈ contacts c earlier, s ≤ t

/-- A main loop whose rounds are timely keeps its session, if the agent's timeout is not below
the age of a `Continue` plus the time to handle it. Other clients may do what they want. -/
theorem keepalive_keeps_session (osPid : ℤ) (timeoutMs : ℕ) (tracingExtension : Bool)
    (before : List AgentEvent) (c bufferSize : ℕ) (args : Args) (rawFds : List ℤ) (env : Env)
    (rounds : List Round) (last delay wait latency : ℕ) (events : List AgentEvent)
    (hlast : env.now ≤ last ∧ last ≤ env.now + wait) (hrounds : Timely delay wait last rounds)
    (hserved : Served c env.now (lastTime last rounds) latency (keepalives last rounds) events)
    (htimeout : keepaliveAge delay wait + latency ≤ timeoutMs * 1000000) :
    let a := (agentLoop osPid).final ⟨AgentState.new timeoutMs tracingExtension, osPid⟩ before
    let r := (agentLoop osPid).step a (.message c (.start bufferSize args) rawFds env)
    reply c .ack ∈ r.2 →
      ((agentLoop osPid).final r.1 events).state.startedClient = some c ∧
        calls ((agentLoop osPid).outputs r.1 events) = [] := by
  intro a r hack
  have hheld : (lease (timeoutMs * 1000000) c env.now events).isSome := by
    refine lease_of_contacts events hserved.stays hserved.clock fun earlier clock later he => ?_
    obtain ⟨hstop, hsent⟩ := hserved.handled earlier clock later he
    by_cases hearly : clock c ≤ env.now + timeoutMs * 1000000
    · exact ⟨env.now, hearly, .inl le_rfl⟩
    · have hpos : 0 < keepaliveInterval := by decide
      obtain ⟨s, hs, hle, hage⟩ := keepalives_cover rounds (t := clock c - latency) hlast.1 hlast.2
        (by omega) hrounds (by omega) (by omega)
      rcases List.mem_cons.mp hs with rfl | hs
      · exact ⟨env.now, by omega, .inl le_rfl⟩
      · exact ⟨s, by omega, .inr (hsent s hs (by omega))⟩
  have hrun := (holds_of_granted osPid timeoutMs tracingExtension before hack).run osPid events
  exact ⟨hrun.1.mpr hheld, hrun.2.1 hheld⟩

/-- Rounds 0.9 s apart and an agent with the default timeout. -/
theorem keepalive_keeps_session_twoRounds :
    let args : Args := ⟨some ⟨"info", .boottime⟩, []⟩
    let r := (agentLoop 7).step ((agentLoop 7).final ⟨AgentState.new 2000 true, 7⟩ [.accept 0])
      (.message 1 (.start 4096 args) [3, 4] (willing 0))
    let rounds := [⟨900000000, 900000000, 900000000⟩, ⟨1800000000, 1800000000, 1800000000⟩]
    let events := [.timer fun _ => 1000000000, .message 1 .continue_ [] (willing 1850000000),
      .timer fun _ => 1900000000]
    keepalives 0 rounds = [1800000000] ∧
      ((agentLoop 7).final r.1 events).state.startedClient = some 1 := by
  intro args r rounds events
  have hack : reply 1 .ack ∈ r.2 := ack_firstClient 2000
  have hsends : keepalives 0 rounds = [1800000000] := by
    simp [rounds, keepalives, keepaliveInterval]
  have hserved : Served 1 0 1800000000 100000000 [1800000000] events := by
    refine ⟨by simp [events, AgentEvent.leaves], ?_, fun earlier clock later he => ?_⟩
    · have hcontacts : contacts 1 events = [1850000000] := rfl
      simp [hcontacts]
    · rcases earlier with _ | ⟨e₁, _ | ⟨e₂, _ | ⟨e₃, rest⟩⟩⟩
      · simp only [events, List.nil_append, List.cons.injEq, AgentEvent.timer.injEq] at he
        simp [← he.1]
      · simp [events] at he
      · simp only [events, List.cons_append, List.nil_append, List.cons.injEq,
          AgentEvent.timer.injEq] at he
        obtain ⟨rfl, rfl, rfl, -⟩ := he
        simp [contacts, AgentEvent.contact?, willing]
      · simp [events] at he
  refine ⟨hsends, (keepalive_keeps_session 7 2000 true [.accept 0] 1 4096 args [3, 4] (willing 0)
    rounds 0 900000000 0 100000000 events ⟨le_rfl, le_rfl⟩ ?_ ?_ ?_ hack).1⟩
  · simp [rounds, Timely]
  · rw [hsends]
    exact hserved
  · simp [keepaliveAge, keepaliveInterval]

end Manytrace.Agent
