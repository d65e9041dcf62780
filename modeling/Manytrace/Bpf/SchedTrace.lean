import Mathlib.Data.Nat.Notation
import Mathlib.Logic.Function.Basic
import Manytrace.Core.Machine

/-! The scheduler tracer. Its programs keep one entry for each thread in an LRU map and
send a span whenever a thread leaves a state. The map may drop an entry at any moment. -/
namespace Manytrace.Bpf.SchedTrace
open Manytrace.Core

inductive SchedEventType
  | running
  | blocked
  | runnable
deriving DecidableEq, Repr

inductive TrackedTaskState
  | unknown
  | running
  | blocked
  | runnable
deriving DecidableEq, Repr

inductive RunnableReason
  | none
  | preempted
  | stillRunning
  | wakeup
deriving DecidableEq, Repr

structure SchedSpanEvent where
  pid : ℕ
  tid : ℕ
  startTime : ℕ
  endTime : ℕ
  cpu : ℕ
  eventType : SchedEventType
  frame : ℕ
  reason : RunnableReason
  taskState : ℕ
deriving DecidableEq, Repr

structure TaskState where
  stateTimestamp : ℕ
  frame : ℕ
  tgid : ℕ
  cpu : ℕ
  state : TrackedTaskState
  reason : RunnableReason
  taskState : ℕ
  exiting : Bool
deriving DecidableEq, Repr

/-- A `task_struct`, whose `pid` is the thread id. -/
structure Task where
  pid : ℕ
  tgid : ℕ
deriving DecidableEq, Repr

/-- What a program finds when it runs: the clock, the processor, the filter map, the frame
that `bpf_get_stack` fills in if it can, and whether the ring buffer has room. -/
structure Context where
  now : ℕ
  cpu : ℕ
  trackedTgids : List ℕ
  stack : Option ℕ
  room : Bool
deriving DecidableEq, Repr

def shouldTrackTgid (filterEnabled : Bool) (ctx : Context) (tgid : ℕ) : Bool :=
  if !filterEnabled then true
  else if tgid == 0 then false
  else ctx.trackedTgids.contains tgid

def emitSpan (ctx : Context) (event : SchedSpanEvent) : List SchedSpanEvent :=
  if event.startTime = 0 ∨ event.endTime ≤ event.startTime then []
  else if ctx.room then [event] else []

def captureBlockingFrame (ctx : Context) : ℕ := ctx.stack.getD 0

/-- A handler works on the entry of its task. -/
abbrev Handler := Task → Option TaskState → Option TaskState × List SchedSpanEvent

/-- The interval on the processor that ends now. -/
def runningSpan (ctx : Context) (task : Task) (state : TaskState) : SchedSpanEvent :=
  ⟨task.tgid, task.pid, state.stateTimestamp, ctx.now, state.cpu, .running, 0, .none, 0⟩

def runnableSpan (ctx : Context) (task : Task) (state : TaskState) : SchedSpanEvent :=
  ⟨task.tgid, task.pid, state.stateTimestamp, ctx.now, ctx.cpu, .runnable, 0, state.reason, 0⟩

def blockedSpan (ctx : Context) (task : Task) (state : TaskState) : SchedSpanEvent :=
  ⟨task.tgid, task.pid, state.stateTimestamp, ctx.now, state.cpu, .blocked, state.frame, .none,
    state.taskState⟩

/-- The entry after a switch off the processor. -/
def offCpuState (ctx : Context) (task : Task) (preempt : Bool) (prevState : ℕ) : TaskState :=
  let runnable := preempt || prevState == 0
  { stateTimestamp := ctx.now
    frame := if runnable then 0 else captureBlockingFrame ctx
    tgid := task.tgid
    cpu := ctx.cpu
    state := if runnable then .runnable else .blocked
    reason := if runnable then (if preempt then .preempted else .stillRunning) else .none
    taskState := if runnable then 0 else prevState
    exiting := false }

def handleTaskOffCpu (ctx : Context) (preempt : Bool) (prevState : ℕ) : Handler
  | task, some state =>
    let spans :=
      if state.state = .running then emitSpan ctx (runningSpan ctx task state) else []
    if state.exiting then (none, spans) else (some (offCpuState ctx task preempt prevState), spans)
  | task, none => (some (offCpuState ctx task preempt prevState), [])

/-- The entry after a switch onto the processor. -/
def onCpuState (ctx : Context) (task : Task) : TaskState where
  stateTimestamp := ctx.now
  frame := 0
  tgid := task.tgid
  cpu := ctx.cpu
  state := .running
  reason := .none
  taskState := 0
  exiting := false

def handleTaskOnCpu (ctx : Context) : Handler
  | task, some state =>
    let spans :=
      match state.state with
      | .runnable => emitSpan ctx (runnableSpan ctx task state)
      | .blocked => emitSpan ctx (blockedSpan ctx task state)
      | _ => []
    (some (onCpuState ctx task), spans)
  | task, none => (some (onCpuState ctx task), [])

def handleTaskWakeup (ctx : Context) : Handler
  | task, some state =>
    if state.state ≠ .blocked then (some state, [])
    else
      (some { state with
        stateTimestamp := ctx.now, frame := 0, state := .runnable, reason := .wakeup,
        taskState := 0 },
      emitSpan ctx (blockedSpan ctx task state))
  | task, none => (some ⟨ctx.now, 0, task.tgid, ctx.cpu, .runnable, .wakeup, 0, false⟩, [])

def handleProcessExit (ctx : Context) : Handler
  | _, some state => (some { state with exiting := true }, [])
  | task, none => (some ⟨ctx.now, 0, task.tgid, ctx.cpu, .running, .none, 0, true⟩, [])

/-- What can happen: one of the four programs is run, or the map drops an entry. The two
spans of a switch find room independently. -/
inductive Program
  | schedSwitch (preempt : Bool) (prev next : Option Task) (prevState : ℕ) (roomNext : Bool)
  | schedWakeup (task : Option Task)
  | schedWakeupNew (task : Option Task)
  | schedProcessExit (task : Option Task)
  | evict (tid : ℕ)
deriving DecidableEq, Repr

structure Tracepoint where
  ctx : Context
  program : Program
deriving DecidableEq, Repr

abbrev TaskStates := ℕ → Option TaskState

section Programs
variable (filterEnabled : Bool)

/-- Run a handler on the entry of a task that is tracked. -/
def onTask (ctx : Context) (handler : Handler) (task : Option Task) (m : TaskStates) :
    TaskStates × List SchedSpanEvent :=
  match task with
  | none => (m, [])
  | some task =>
    if task.pid = 0 ∨ shouldTrackTgid filterEnabled ctx task.tgid = false then (m, [])
    else
      let r := handler task (m task.pid)
      (Function.update m task.pid r.1, r.2)

def handleSchedSwitch (ctx : Context) (preempt : Bool) (prev next : Option Task)
    (prevState : ℕ) (roomNext : Bool) (m : TaskStates) : TaskStates × List SchedSpanEvent :=
  let r := onTask filterEnabled ctx (handleTaskOffCpu ctx preempt prevState) prev m
  let ctx := { ctx with room := roomNext }
  let t := onTask filterEnabled ctx (handleTaskOnCpu ctx) next r.1
  (t.1, r.2 ++ t.2)

def schedTrace : Machine TaskStates Tracepoint SchedSpanEvent where
  step m tp :=
    match tp.program with
    | .schedSwitch preempt prev next prevState roomNext =>
      handleSchedSwitch filterEnabled tp.ctx preempt prev next prevState roomNext m
    | .schedWakeup task => onTask filterEnabled tp.ctx (handleTaskWakeup tp.ctx) task m
    | .schedWakeupNew task => onTask filterEnabled tp.ctx (handleTaskWakeup tp.ctx) task m
    | .schedProcessExit task => onTask filterEnabled tp.ctx (handleProcessExit tp.ctx) task m
    | .evict tid => (Function.update m tid none, [])

end Programs

/-! ## One thread -/

inductive Kind
  | switchOut (preempt : Bool) (prevState : ℕ)
  | switchIn
  | wakeup
  | exit
  | evict
deriving DecidableEq, Repr

/-- Something that happens to one thread. -/
structure TaskEvent where
  ctx : Context
  tgid : ℕ
  kind : Kind
deriving DecidableEq, Repr

def TaskEvent.now (e : TaskEvent) : ℕ := e.ctx.now

def Kind.handler (ctx : Context) : Kind → Handler
  | .switchOut preempt prevState => handleTaskOffCpu ctx preempt prevState
  | .switchIn => handleTaskOnCpu ctx
  | .wakeup => handleTaskWakeup ctx
  | .exit => handleProcessExit ctx
  | .evict => fun _ _ => (none, [])

/-- The entry of one thread. -/
def taskTrace (tid : ℕ) : Machine (Option TaskState) TaskEvent SchedSpanEvent where
  step entry e := e.kind.handler e.ctx ⟨tid, e.tgid⟩ entry

section History
variable (filterEnabled : Bool) (tid : ℕ)

def taskEvent (ctx : Context) (kind : Kind) (task : Option Task) : List TaskEvent :=
  match task with
  | none => []
  | some task =>
    if task.pid = 0 ∨ shouldTrackTgid filterEnabled ctx task.tgid = false ∨ task.pid ≠ tid then []
    else [⟨ctx, task.tgid, kind⟩]

/-- What a tracepoint does to a thread, if the thread is tracked. -/
def Tracepoint.events (tp : Tracepoint) : List TaskEvent :=
  match tp.program with
  | .schedSwitch preempt prev next prevState roomNext =>
    taskEvent filterEnabled tid tp.ctx (.switchOut preempt prevState) prev ++
      taskEvent filterEnabled tid { tp.ctx with room := roomNext } .switchIn next
  | .schedWakeup task => taskEvent filterEnabled tid tp.ctx .wakeup task
  | .schedWakeupNew task => taskEvent filterEnabled tid tp.ctx .wakeup task
  | .schedProcessExit task => taskEvent filterEnabled tid tp.ctx .exit task
  | .evict tid' => if tid' = tid then [⟨tp.ctx, 0, .evict⟩] else []

def history (tps : List Tracepoint) : List TaskEvent :=
  tps.flatMap (Tracepoint.events filterEnabled tid)

def ofTask (spans : List SchedSpanEvent) : List SchedSpanEvent :=
  spans.filter fun s => s.tid = tid

end History

section Projection
variable {filterEnabled : Bool} {tid : ℕ}

theorem mem_emitSpan {ctx : Context} {event s : SchedSpanEvent} (h : s ∈ emitSpan ctx event) :
    s = event := by
  unfold emitSpan at h
  split_ifs at h
  · simp at h
  · exact List.mem_singleton.mp h
  · simp at h

/-- A handler sends spans of its own task only. -/
theorem tid_of_mem_handler {ctx : Context} {kind : Kind} {task : Task}
    {entry : Option TaskState} {s : SchedSpanEvent} (h : s ∈ (kind.handler ctx task entry).2) :
    s.tid = task.pid := by
  cases entry with
  | none => cases kind <;> simp [Kind.handler, handleTaskOffCpu, handleTaskOnCpu, handleTaskWakeup,
      handleProcessExit] at h
  | some state =>
    cases kind with
    | switchOut preempt prevState =>
      simp only [Kind.handler, handleTaskOffCpu] at h
      have hs : s ∈ emitSpan ctx (runningSpan ctx task state) := by
        split_ifs at h <;> first | exact h | simp at h
      rw [mem_emitSpan hs]
      rfl
    | switchIn =>
      simp only [Kind.handler, handleTaskOnCpu] at h
      split at h
      · rw [mem_emitSpan h]
        rfl
      · rw [mem_emitSpan h]
        rfl
      · simp at h
    | wakeup =>
      simp only [Kind.handler, handleTaskWakeup] at h
      split_ifs at h
      · simp at h
      · rw [mem_emitSpan h]
        rfl
    | exit => simp [Kind.handler, handleProcessExit] at h
    | evict => simp [Kind.handler] at h

theorem ofTask_eq_flatMap (spans : List SchedSpanEvent) :
    ofTask tid spans = spans.flatMap fun s => if s.tid = tid then [s] else [] := by
  induction spans with
  | nil => rfl
  | cons s spans ih =>
    unfold ofTask at ih ⊢
    by_cases hs : s.tid = tid <;> simp [hs, ih]

/-- A handler that is run for a task is seen by that task alone. -/
theorem onTask_exec (filterEnabled : Bool) (tid : ℕ) (ctx : Context) (kind : Kind)
    (task : Option Task) (m : TaskStates) :
    (taskTrace tid).exec (m tid) (taskEvent filterEnabled tid ctx kind task) =
      ((onTask filterEnabled ctx (kind.handler ctx) task m).1 tid,
        ofTask tid (onTask filterEnabled ctx (kind.handler ctx) task m).2) := by
  cases task with
  | none => rfl
  | some task =>
    simp only [taskEvent, onTask]
    by_cases hskip : task.pid = 0 ∨ shouldTrackTgid filterEnabled ctx task.tgid = false
    · rw [if_pos hskip, if_pos (hskip.imp id Or.inl)]
      rfl
    · rw [if_neg hskip]
      by_cases hpid : task.pid = tid
      · subst hpid
        have hall : ofTask task.pid (kind.handler ctx task (m task.pid)).2 =
            (kind.handler ctx task (m task.pid)).2 :=
          List.filter_eq_self.mpr fun s hs => by simpa using tid_of_mem_handler hs
        rw [if_neg (by tauto)]
        simp [Machine.exec, taskTrace, hall]
      · have hnone : ofTask tid (kind.handler ctx task (m task.pid)).2 = [] :=
          List.filter_eq_nil_iff.mpr fun s hs => by simpa [tid_of_mem_handler hs] using hpid
        rw [if_pos (by tauto)]
        simp [Machine.exec, hnone, Function.update_of_ne (Ne.symm hpid)]

theorem events_exec (m : TaskStates) (tp : Tracepoint) :
    (taskTrace tid).exec (m tid) (tp.events filterEnabled tid) =
      (((schedTrace filterEnabled).step m tp).1 tid,
        ofTask tid ((schedTrace filterEnabled).step m tp).2) := by
  obtain ⟨ctx, program⟩ := tp
  cases program with
  | schedSwitch preempt prev next prevState roomNext =>
    have hprev := onTask_exec filterEnabled tid ctx (.switchOut preempt prevState) prev m
    have hnext := onTask_exec filterEnabled tid { ctx with room := roomNext } .switchIn next
      (onTask filterEnabled ctx (handleTaskOffCpu ctx preempt prevState) prev m).1
    simp only [Kind.handler] at hprev hnext
    simp only [Tracepoint.events, Machine.exec_append, hprev, hnext, schedTrace,
      handleSchedSwitch, ofTask, List.filter_append]
  | schedWakeup task => exact onTask_exec filterEnabled tid ctx .wakeup task m
  | schedWakeupNew task => exact onTask_exec filterEnabled tid ctx .wakeup task m
  | schedProcessExit task => exact onTask_exec filterEnabled tid ctx .exit task m
  | evict tid' =>
    simp only [Tracepoint.events, schedTrace]
    by_cases htid : tid' = tid
    · subst htid
      simp [Machine.exec, taskTrace, Kind.handler, ofTask]
    · simp [Machine.exec, htid, Function.update_of_ne (Ne.symm htid), ofTask]

/-- The system runs every thread as if it were alone. -/
theorem history_exec (filterEnabled : Bool) (tid : ℕ) (m : TaskStates) (tps : List Tracepoint) :
    (taskTrace tid).final (m tid) (history filterEnabled tid tps) =
        (schedTrace filterEnabled).final m tps tid ∧
      (taskTrace tid).outputs (m tid) (history filterEnabled tid tps) =
        ofTask tid ((schedTrace filterEnabled).outputs m tps) := by
  rw [ofTask_eq_flatMap]
  refine Machine.exec_project (fun m : TaskStates => m tid) _ _ ?_ m tps
  intro m tp
  rw [← ofTask_eq_flatMap]
  exact events_exec m tp

end Projection
end Manytrace.Bpf.SchedTrace
