import Manytrace.Agent.Client

/-! What a stream of the client says about its session. -/
namespace Manytrace.Agent
open Manytrace.Core

/-- A connection can be opened. -/
def Connecting.opens (k : Connecting) : Bool := k.connect.isOk && k.setNonblocking.isOk

/-- The client has a stream, or gets one. -/
def AgentClient.reaches (c : AgentClient) (k : Connecting) : Bool := c.enabled || k.opens

/-- The request for the version on an open stream. -/
def Exchange.versionResult (x : Exchange) : Except AgentError String := do
  x.serialize
  x.send.mapError .nix
  match ← waitForResponse x.answer with
  | none => .error .archive
  | some (.versionResponse _) => .ok version
  | some _ => .error (.io .other "unexpected response from agent")

/-- The request goes out and a report of a version comes back in time. -/
def Exchange.AnswersVersion (x : Exchange) : Prop :=
  x.serialize = .ok () ∧ x.send = .ok () ∧
    ∃ text, x.answer = .received (.ok (some (.versionResponse text)))

theorem waitForResponse_eq_ok_iff {a : Answer} {r : Option ControlMessage} :
    waitForResponse a = .ok r ↔ a = .received (.ok r) := by
  rcases a with e | _ | ((_ | _ | _) | r') <;> simp [waitForResponse]

section Calls
variable {c : AgentClient} {k : Connecting} {v x : Exchange}

theorem connectOrReuse_of_reaches (h : c.reaches k = true) :
    ∃ n c', connectOrReuse k c = (.ok n, c') ∧ c'.stream = some n := by
  obtain ⟨stream, connections⟩ := c
  obtain ⟨connect, setNonblocking⟩ := k
  cases stream with
  | some n => exact ⟨n, _, rfl, rfl⟩
  | none =>
    cases connect with
    | error e => exact absurd h Bool.false_ne_true
    | ok _ =>
      cases setNonblocking with
      | error e => exact absurd h Bool.false_ne_true
      | ok _ => exact ⟨connections, _, rfl, rfl⟩

theorem connectOrReuse_of_not_reaches (h : c.reaches k = false) :
    ∃ e, connectOrReuse k c = (.error e, c) := by
  obtain ⟨stream, connections⟩ := c
  obtain ⟨connect, setNonblocking⟩ := k
  cases stream with
  | some n => exact absurd h.symm Bool.false_ne_true
  | none =>
    cases connect with
    | error e => exact ⟨e, rfl⟩
    | ok _ =>
      cases setNonblocking with
      | error e => exact ⟨e, rfl⟩
      | ok _ => exact absurd h.symm Bool.false_ne_true

/-- A stream that is open is used again. -/
theorem connectOrReuse_again (k : Connecting) (c : AgentClient) :
    connectOrReuse k (connectOrReuse k c).2 = connectOrReuse k c := by
  obtain ⟨_ | n, connections⟩ := c
  · obtain ⟨_ | _, _ | _⟩ := k <;> rfl
  · rfl

theorem enabled_eq_false_of_not_reaches (h : c.reaches k = false) : c.enabled = false := by
  unfold AgentClient.reaches at h
  rw [Bool.or_eq_false_iff] at h
  exact h.1

theorem checkVersion_eq (k : Connecting) (x : Exchange) :
    checkVersion k x = connectOrReuse k >>= fun _ => Op.lift x.versionResult := by
  obtain ⟨serialize, send, answer⟩ := x
  unfold checkVersion Exchange.versionResult
  congr 1
  funext n c
  cases serialize with
  | error e => rfl
  | ok _ =>
    cases send with
    | error e => rfl
    | ok _ =>
      simp only [Op.lift_ok_bind]
      cases hanswer : waitForResponse answer with
      | error e => rfl
      | ok r =>
        cases r with
        | none => rfl
        | some m => cases m <;> rfl

theorem checkVersion_again (k : Connecting) (x : Exchange) (c : AgentClient) :
    checkVersion k x (connectOrReuse k c).2 = checkVersion k x c := by
  rw [checkVersion_eq]
  change Op.bind _ _ _ = Op.bind _ _ _
  unfold Op.bind
  rw [connectOrReuse_again]

theorem startWithOptions_again (k : Connecting) (v x : Exchange) (c : AgentClient) :
    startWithOptions k v x (connectOrReuse k c).2 = startWithOptions k v x c := by
  change Op.bind _ _ _ = Op.bind _ _ _
  unfold Op.bind
  rw [checkVersion_again]

/-- A check of the version leaves a stream behind whatever comes of it. -/
theorem checkVersion_of_reaches (h : c.reaches k = true) (x : Exchange) :
    ∃ c', checkVersion k x c = (x.versionResult, c') ∧ c'.enabled = true := by
  obtain ⟨n, c', hconnect, hstream⟩ := connectOrReuse_of_reaches h
  refine ⟨c', ?_, by simp [AgentClient.enabled, hstream]⟩
  rw [checkVersion_eq, Op.bind_ok hconnect]
  rfl

theorem checkVersion_of_not_reaches (h : c.reaches k = false) (x : Exchange) :
    ∃ e, checkVersion k x c = (.error e, c) := by
  obtain ⟨e, hconnect⟩ := connectOrReuse_of_not_reaches h
  refine ⟨e, ?_⟩
  rw [checkVersion_eq, Op.bind_error hconnect]

theorem versionResult_eq_ok_iff {found : String} :
    v.versionResult = .ok found ↔ v.AnswersVersion ∧ found = version := by
  obtain ⟨serialize, send, answer⟩ := v
  constructor
  · intro h
    unfold Exchange.versionResult at h
    cases serialize with
    | error e => cases h
    | ok _ =>
      cases send with
      | error e => cases h
      | ok _ =>
        change (waitForResponse answer >>= _) = .ok found at h
        rcases answer with e | _ | ((_ | _ | _) | (_ | m))
        case received.ok.some =>
          cases m with
          | versionResponse text =>
            cases h
            exact ⟨⟨rfl, rfl, text, rfl⟩, rfl⟩
          | _ => cases h
        all_goals cases h
  · rintro ⟨⟨hserialize, hsend, text, hanswer⟩, rfl⟩
    dsimp only at hserialize hsend hanswer
    subst hserialize hsend hanswer
    rfl

/-- A start that does not get past the version keeps the stream it has asked on. -/
theorem startWithOptions_of_not_answersVersion (h : c.reaches k = true)
    (hv : ¬ v.AnswersVersion) (x : Exchange) :
    ∃ e c', startWithOptions k v x c = (.error e, c') ∧ c'.enabled = true := by
  obtain ⟨c', hcheck, henabled⟩ := checkVersion_of_reaches h v
  cases hr : v.versionResult with
  | ok found => exact absurd (versionResult_eq_ok_iff.mp hr).1 hv
  | error e =>
    rw [hr] at hcheck
    exact ⟨e, c', Op.bind_error hcheck, henabled⟩

/-- The start proper, on an open stream. -/
theorem startWithOptions_of_answersVersion (h : c.reaches k = true) (hv : v.AnswersVersion)
    (x : Exchange) :
    ∃ c', c'.enabled = true ∧
      (∀ e, x.serialize = .error e → startWithOptions k v x c = (.error e, c')) ∧
      (x.serialize = .ok () →
        (x.answer = .received (.ok (some .ack)) ∧ startWithOptions k v x c = (.ok (), c')) ∨
        ∃ e, startWithOptions k v x c = (.error e, { c' with stream := none })) := by
  obtain ⟨c', hcheck, henabled⟩ := checkVersion_of_reaches h v
  rw [versionResult_eq_ok_iff.mpr ⟨hv, rfl⟩] at hcheck
  obtain ⟨n, hstream⟩ := Option.isSome_iff_exists.mp henabled
  have hreuse : connectOrReuse k c' = (.ok n, c') := by
    obtain ⟨stream, connections⟩ := c'
    subst hstream
    rfl
  refine ⟨c', henabled, ?_, ?_⟩
  · intro e he
    unfold startWithOptions
    rw [Op.bind_ok hcheck, if_neg (by simp), Op.bind_ok hreuse, he, Op.lift_error_bind]
  · intro hok
    unfold startWithOptions
    rw [Op.bind_ok hcheck, if_neg (by simp), Op.bind_ok hreuse, hok, Op.lift_ok_bind]
    cases x.send with
    | error e => exact Or.inr ⟨_, rfl⟩
    | ok _ =>
      dsimp only
      cases hanswer : waitForResponse x.answer with
      | error e => exact Or.inr ⟨_, rfl⟩
      | ok r =>
        cases r with
        | none => exact Or.inr ⟨_, rfl⟩
        | some m =>
          cases m with
          | ack => exact Or.inl ⟨waitForResponse_eq_ok_iff.mp hanswer, rfl⟩
          | _ => exact Or.inr ⟨_, rfl⟩

theorem startWithOptions_of_not_reaches (h : c.reaches k = false) :
    ∃ e, startWithOptions k v x c = (.error e, c) := by
  obtain ⟨e, hcheck⟩ := checkVersion_of_not_reaches h v
  exact ⟨e, Op.bind_error hcheck⟩

/-- A start that is not answered drops its stream. -/
theorem startWithOptions_closes (hv : v.AnswersVersion) (hserialize : x.serialize = .ok ())
    (hanswer : ∀ r, x.answer ≠ .received (.ok r)) :
    (startWithOptions k v x c).2.enabled = false := by
  cases hreach : c.reaches k with
  | false =>
    obtain ⟨e, hstart⟩ := startWithOptions_of_not_reaches (v := v) (x := x) hreach
    rw [hstart]
    exact enabled_eq_false_of_not_reaches hreach
  | true =>
    obtain ⟨c', -, -, hgood⟩ := startWithOptions_of_answersVersion hreach hv x
    rcases hgood hserialize with ⟨hack, -⟩ | ⟨e, hstart⟩
    · exact absurd hack (hanswer _)
    · rw [hstart]
      rfl

theorem answersVersion_of_checkVersion (h : (checkVersion k x c).1.isOk = true) :
    x.AnswersVersion := by
  cases hreach : c.reaches k with
  | false =>
    obtain ⟨e, hcheck⟩ := checkVersion_of_not_reaches hreach x
    rw [hcheck] at h
    exact absurd h Bool.false_ne_true
  | true =>
    obtain ⟨c', hcheck, -⟩ := checkVersion_of_reaches hreach x
    rw [hcheck] at h
    cases hr : x.versionResult with
    | error e =>
      rw [hr] at h
      exact absurd h Bool.false_ne_true
    | ok found => exact (versionResult_eq_ok_iff.mp hr).1

/-- A stop either completes, without a stream, or changes nothing. -/
theorem stop_cases (x : Exchange) (c : AgentClient) :
    (stop x c = (.ok (), { c with stream := none })) ∨ ∃ e, stop x c = (.error e, c) := by
  obtain ⟨stream, connections⟩ := c
  obtain ⟨serialize, send, answer⟩ := x
  cases stream with
  | none => exact Or.inl rfl
  | some n =>
    cases serialize with
    | error e => exact Or.inr ⟨e, rfl⟩
    | ok _ =>
      cases send with
      | ok _ => exact Or.inl rfl
      | error e =>
        cases e with
        | epipe => exact Or.inl rfl
        | _ => exact Or.inr ⟨_, rfl⟩

theorem stop_closes (hserialize : x.serialize = .ok ()) (hsend : x.send = .ok ()) :
    (stop x c).2.enabled = false := by
  obtain ⟨stream, connections⟩ := c
  obtain ⟨serialize, send, answer⟩ := x
  dsimp only at hserialize hsend
  subst hserialize hsend
  cases stream <;> rfl

theorem sendContinue_snd (x : Exchange) (c : AgentClient) : (sendContinue x c).2 = c := by
  obtain ⟨stream, connections⟩ := c
  obtain ⟨serialize, send, answer⟩ := x
  cases stream with
  | none => rfl
  | some n =>
    cases serialize with
    | error e => rfl
    | ok _ =>
      cases send with
      | error e => cases e <;> rfl
      | ok _ =>
        change (Op.bind (Op.lift (waitForResponse answer)) _ _).2 = _
        unfold Op.bind Op.lift
        cases waitForResponse answer with
        | error e => rfl
        | ok r =>
          cases r with
          | none => rfl
          | some m => cases m <;> rfl

theorem keepalive_snd (x : Exchange) (c : AgentClient) : (keepalive x c).2 = c := by
  unfold keepalive
  rw [Op.get_bind]
  split_ifs
  · exact sendContinue_snd x c
  · rfl

end Calls

/-! ## Runs -/

/-- The client is enabled only in a session. -/
def Truthful (s : ClientRun) : Prop := s.client.enabled = true → s.session = true

/-- What must not happen: outside a session a check of the version opens a stream; or a start
that has a stream fails before its own message is sent. -/
def KeepsTruth (s : ClientRun) : ClientCall → Prop
  | .checkVersion k _ => s.client.reaches k = true → s.session = true
  | .start k v x => s.client.reaches k = true → v.AnswersVersion ∧ x.serialize = .ok ()
  | _ => True

theorem truthful_start_iff (s : ClientRun) (k : Connecting) (v x : Exchange) :
    Truthful (clientLoop.step s (.start k v x)).1 ↔ KeepsTruth s (.start k v x) := by
  change ((startWithOptions k v x s.client).2.enabled = true →
    (startWithOptions k v x s.client).1.isOk = true) ↔
      (s.client.reaches k = true → v.AnswersVersion ∧ x.serialize = .ok ())
  cases hreach : s.client.reaches k with
  | false =>
    obtain ⟨e, hstart⟩ := startWithOptions_of_not_reaches (v := v) (x := x) hreach
    rw [hstart, enabled_eq_false_of_not_reaches hreach]
    simp
  | true =>
    by_cases hv : v.AnswersVersion
    · obtain ⟨c', henabled, hbad, hgood⟩ := startWithOptions_of_answersVersion hreach hv x
      cases hx : x.serialize with
      | error e =>
        rw [hbad e hx]
        simp [henabled, Except.isOk, Except.toBool]
      | ok _ =>
        rcases hgood hx with ⟨-, hstart⟩ | ⟨e, hstart⟩
        · rw [hstart]
          simp [hv, Except.isOk, Except.toBool]
        · rw [hstart]
          simp [hv, AgentClient.enabled]
    · obtain ⟨e, c', hstart, henabled⟩ :=
        startWithOptions_of_not_answersVersion hreach hv x
      rw [hstart]
      simp [henabled, hv, Except.isOk, Except.toBool]

theorem truthful_checkVersion_iff {s : ClientRun} (h : Truthful s) (k : Connecting)
    (x : Exchange) :
    Truthful (clientLoop.step s (.checkVersion k x)).1 ↔ KeepsTruth s (.checkVersion k x) := by
  change ((checkVersion k x s.client).2.enabled = true → s.session = true) ↔
    (s.client.reaches k = true → s.session = true)
  cases hreach : s.client.reaches k with
  | false =>
    obtain ⟨e, hcheck⟩ := checkVersion_of_not_reaches hreach x
    rw [hcheck]
    exact iff_of_true h (fun hfalse => absurd hfalse Bool.false_ne_true)
  | true =>
    obtain ⟨c', hcheck, henabled⟩ := checkVersion_of_reaches hreach x
    rw [hcheck]
    simp [henabled]

theorem truthful_step_iff {s : ClientRun} (h : Truthful s) (call : ClientCall) :
    Truthful (clientLoop.step s call).1 ↔ KeepsTruth s call := by
  cases call with
  | checkVersion k x => exact truthful_checkVersion_iff h k x
  | start k v x => exact truthful_start_iff s k v x
  | stop x =>
    refine iff_of_true ?_ trivial
    change (stop x s.client).2.enabled = true → (s.session && !(stop x s.client).1.isOk) = true
    rcases stop_cases x s.client with hstop | ⟨e, hstop⟩
    · rw [hstop]
      exact fun hfalse => absurd hfalse Bool.false_ne_true
    · rw [hstop]
      intro henabled
      rw [h henabled]
      rfl
  | sendContinue x =>
    refine iff_of_true ?_ trivial
    change (sendContinue x s.client).2.enabled = true → s.session = true
    rw [sendContinue_snd]
    exact h
  | keepalive x =>
    refine iff_of_true ?_ trivial
    change (keepalive x s.client).2.enabled = true → s.session = true
    rw [keepalive_snd]
    exact h

/-- In every state of a run the client is enabled only if its last start has succeeded and no
stop has completed since, exactly if no call opens or keeps a stream for nothing. -/
theorem client_truthful_iff (calls : List ClientCall) :
    (∀ done rest, calls = done ++ rest → Truthful (clientLoop.final ClientRun.new done)) ↔
      clientLoop.Meets KeepsTruth ClientRun.new calls := by
  have hnew : Truthful ClientRun.new := fun h => absurd h Bool.false_ne_true
  have hany : clientLoop.Meets (fun _ _ => True) ClientRun.new calls :=
    Machine.meets_of_forall (P := fun _ => True) (fun _ _ => trivial) _
  exact Machine.forall_reached_iff (I := Truthful) (fun _ call hs _ => truthful_step_iff hs call)
    hnew hany

/-- The agent does not report its version in time. The start fails and the client is enabled;
the next start asks for the version on the same connection. -/
theorem failed_start_keeps_stream :
    let k : Connecting := ⟨.ok (), .ok ()⟩
    let late : Exchange := ⟨.ok (), .ok (), .timeout⟩
    let s := clientLoop.final ClientRun.new [.start k late late]
    clientLoop.outputs ClientRun.new [.start k late late] =
        [.error (.io .timedOut "timeout waiting for agent response")] ∧
      s.client.enabled = true ∧ s.session = false ∧
      (connectOrReuse k s.client).1 = .ok 0 := by
  decide

end Manytrace.Agent
