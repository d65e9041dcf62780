import Mathlib.Data.Int.Notation
import Manytrace.Core.Machine
import Manytrace.Core.Tally

/-! Network accounting: CPUs account socket calls step by step in the maps of the host and of the
processes, and user space samples the maps in passes. -/
namespace Manytrace.Bpf.NetTrack
open Manytrace.Core

inductive Protocol
  | tcp
  | udp
deriving DecidableEq, Repr

def Protocol.all : List Protocol := [.tcp, .udp]

/-- The counters of `struct net_stats`, in its order. -/
inductive Counter
  | sendBytes
  | recvBytes
  | sendOperations
  | recvOperations
  | sendErrors
  | recvErrors
  | sendWouldBlock
  | recvWouldBlock
  | tcpRecvEof
  | udpRecvTruncated
deriving DecidableEq, Repr

def Counter.all : List Counter :=
  [.sendBytes, .recvBytes, .sendOperations, .recvOperations, .sendErrors, .recvErrors,
    .sendWouldBlock, .recvWouldBlock, .tcpRecvEof, .udpRecvTruncated]

/-- `struct net_stats`, and in user space `StatsValue`. -/
abbrev NetStats := Tally Counter

structure ProcessKey where
  tgid : ℕ
  protocol : Protocol
deriving DecidableEq, Repr

/-- The settings of the programs. User space sets each from its own configuration, and goes by
the same ones when it samples. -/
structure Config where
  tcpEnabled : Bool := true
  udpEnabled : Bool := true
  sendEnabled : Bool := true
  receiveEnabled : Bool := true
  hostEnabled : Bool := true
  processEnabled : Bool := false
  bytesEnabled : Bool := true
  operationsEnabled : Bool := false
  errorsEnabled : Bool := false
  filterEnabled : Bool := false
deriving DecidableEq, Repr

def Config.hasProtocol (cfg : Config) : Protocol → Bool
  | .tcp => cfg.tcpEnabled
  | .udp => cfg.udpEnabled

/-- A socket call that returned: its arguments, the flags of its message if it has one, and the
task, which the filter has or has not. -/
structure SocketCall where
  sk : Bool
  protocol : Protocol
  send : Bool
  ret : ℤ
  msgFlags : ℕ
  tgid : ℕ
  tracked : Bool
  now : ℕ
deriving DecidableEq, Repr

def SocketCall.key (call : SocketCall) : ProcessKey := ⟨call.tgid, call.protocol⟩

def eagain : ℤ := 11

def msgTrunc : ℕ := 0x20

section Programs
variable (cfg : Config)

def shouldTrackTgid (call : SocketCall) : Bool :=
  if call.tgid = 0 then false
  else if !cfg.filterEnabled then true
  else call.tracked

/-- The call passes all checks of `account_socket_io`. -/
def accounted (call : SocketCall) : Bool :=
  if (call.send && !cfg.sendEnabled) || (!call.send && !cfg.receiveEnabled) then false
  else if !shouldTrackTgid cfg call then false
  else if !call.sk || !cfg.hasProtocol call.protocol then false
  else true

/-- The stores of `update_stats`. -/
def updateStats (call : SocketCall) : List (Tally.Write Counter) :=
  .seen call.now ::
    if call.ret < 0 then
      if !cfg.errorsEnabled then []
      else if call.send then
        .add .sendErrors 1 :: (if call.ret = -eagain then [.add .sendWouldBlock 1] else [])
      else
        .add .recvErrors 1 :: (if call.ret = -eagain then [.add .recvWouldBlock 1] else [])
    else if call.send then
      (if cfg.bytesEnabled ∧ 0 < call.ret then [.add .sendBytes call.ret.toNat] else []) ++
      (if cfg.operationsEnabled then [.add .sendOperations 1] else [])
    else
      (if cfg.bytesEnabled ∧ 0 < call.ret then [.add .recvBytes call.ret.toNat] else []) ++
      (if cfg.operationsEnabled then
        [.add .recvOperations 1] ++
          (if call.protocol = .tcp ∧ call.ret = 0 then [.add .tcpRecvEof 1] else []) ++
          (if call.protocol = .udp ∧ call.msgFlags &&& msgTrunc ≠ 0 then
            [.add .udpRecvTruncated 1] else [])
      else [])

def initializeStats (now : ℕ) : NetStats
  | .count _ => 0
  | .first => now
  | .last => now

/-- The value that a process gets with its first call, the call included. -/
def initialStats (call : SocketCall) : NetStats :=
  (updateStats cfg call).foldl Tally.Write.apply (initializeStats call.now)

end Programs

/-! ## The maps and the CPUs -/

/-- The entries of `process_stats`, in the order they were made. None is evicted. -/
structure ProcessMap where
  keys : List ProcessKey
  value : ProcessKey → NetStats

/-- The statistics of a process, all zero as long as it has none. -/
def ProcessMap.stats (m : ProcessMap) (k : ProcessKey) : NetStats :=
  if k ∈ m.keys then m.value k else .zero

/-- Every CPU has a copy of `global_stats` of its own. -/
structure Maps (n : ℕ) where
  globalStats : Fin n → Protocol → NetStats
  processStats : ProcessMap

/-- Where a CPU is in `account_socket_io`. The copy of the host is not updated atomically: a
counter is loaded first and stored one step later. -/
inductive Pc
  | idle
  | host (call : SocketCall) (ws : List (Tally.Write Counter))
  | hostLoaded (call : SocketCall) (c : Counter) (old n : ℕ) (ws : List (Tally.Write Counter))
  | lookup (call : SocketCall)
  | insert (call : SocketCall)
  | lookupAgain (call : SocketCall)
  | shared (key : ProcessKey) (ws : List (Tally.Write Counter))
deriving DecidableEq, Repr

structure Cpu where
  todo : List SocketCall
  pc : Pc
deriving DecidableEq, Repr

/-- What one CPU works on: its own copy of the host's statistics and the map of all processes. -/
structure View where
  row : Protocol → NetStats
  map : ProcessMap
  cpu : Cpu

section Steps
variable (cfg : Config)

def processPc (call : SocketCall) : Pc := if cfg.processEnabled then .lookup call else .idle

def startPc (call : SocketCall) : Pc :=
  if !accounted cfg call then .idle
  else if cfg.hostEnabled then .host call (updateStats cfg call)
  else processPc cfg call

def View.goto (v : View) (pc : Pc) : View := { v with cpu.pc := pc }

def View.storeRow (v : View) (p : Protocol) (t : NetStats) : View :=
  { v with row := Function.update v.row p t }

def ProcessMap.write (m : ProcessMap) (k : ProcessKey) (w : Tally.Write Counter) : ProcessMap :=
  { m with value := Function.update m.value k (w.apply (m.value k)) }

/-- An insertion of a key that has no entry yet. -/
def ProcessMap.insert (m : ProcessMap) (k : ProcessKey) (t : NetStats) : ProcessMap where
  keys := m.keys ++ [k]
  value := Function.update m.value k t

def View.step (v : View) : View :=
  match v.cpu.pc with
  | .idle =>
    match v.cpu.todo with
    | [] => v
    | call :: todo => { v with cpu := ⟨todo, startPc cfg call⟩ }
  | .host call [] => v.goto (processPc cfg call)
  | .host call (.seen now :: ws) =>
    (v.storeRow call.protocol ((Tally.Write.seen now).apply (v.row call.protocol))).goto
      (.host call ws)
  | .host call (.add c n :: ws) => v.goto (.hostLoaded call c (v.row call.protocol (.count c)) n ws)
  | .hostLoaded call c old n ws =>
    (v.storeRow call.protocol
      (Function.update (v.row call.protocol) (.count c) ((old + n) % 2 ^ 64))).goto (.host call ws)
  | .lookup call =>
    if call.key ∈ v.map.keys then v.goto (.shared call.key (updateStats cfg call))
    else v.goto (.insert call)
  | .insert call =>
    -- `BPF_NOEXIST`
    if call.key ∈ v.map.keys then v.goto (.lookupAgain call)
    else { v with map := v.map.insert call.key (initialStats cfg call) }.goto .idle
  | .lookupAgain call =>
    if call.key ∈ v.map.keys then v.goto (.shared call.key (updateStats cfg call))
    else v.goto .idle
  | .shared _ [] => v.goto .idle
  | .shared key (w :: ws) => { v with map := v.map.write key w }.goto (.shared key ws)

end Steps

/-! ## Sampling -/

inductive Scope
  | host (protocol : Protocol)
  | hostTotal
  | process (key : ProcessKey)
deriving DecidableEq, Repr

/-- A difference that is handed to the callback, all its samples together. -/
structure Emission where
  scope : Scope
  stats : NetStats

def accumulate (self other : NetStats) : NetStats
  | .count c => min (self (.count c) + other (.count c)) (2 ^ 64 - 1)
  | .first =>
    if self .first = 0 ∨ (other .first ≠ 0 ∧ other .first < self .first) then other .first
    else self .first
  | .last => max (self .last) (other .last)

/-- Where a pass of `sample_host_and_processes` is. The copies of all CPUs are read one after
another. The batch that lists the processes has to hand out the keys in `due`, which were there
when it began, and collects the values. -/
inductive Reader (n : ℕ)
  | idle
  | host (protocol : Protocol) (rest : List Protocol) (hostDelta : NetStats)
      (copy : Copy (Fin n × Word Counter))
  | hostTotal (hostDelta : NetStats)
  | listing (due : List ProcessKey) (values : List (ProcessKey × NetStats))
  | copying (due : List ProcessKey) (values : List (ProcessKey × NetStats)) (key : ProcessKey)
      (copy : Copy (Word Counter))
  | emitting (rest : List (ProcessKey × NetStats))

structure State (n : ℕ) where
  maps : Maps n
  cpu : Fin n → Cpu
  globalPrevious : Protocol → NetStats
  processPrevious : ProcessKey → Option NetStats
  reader : Reader n

inductive Act (n : ℕ)
  | step (i : Fin n)
  | sample
  | read
  | key (k : ProcessKey)
  | fail
deriving DecidableEq, Repr

section Sampling
variable {n : ℕ} (cfg : Config) (accepts : Emission → Bool)

def hostOrder (n : ℕ) : List (Fin n × Word Counter) :=
  (List.finRange n).flatMap fun i => (Word.order Counter.all).map fun w => (i, w)

/-- `read_global`, once all copies are read. -/
def hostStats (got : Fin n × Word Counter → ℕ) : NetStats :=
  (List.finRange n).foldl (fun total i => accumulate total fun w => got (i, w)) .zero

def startProcesses (keys : List ProcessKey) : Reader n :=
  if cfg.processEnabled then .listing keys [] else .idle

def startProtocols (hostDelta : NetStats) : List Protocol → Reader n
  | [] => .hostTotal hostDelta
  | p :: ps =>
    if cfg.hasProtocol p then .host p ps hostDelta (.start (hostOrder n))
    else startProtocols hostDelta ps

def startPass (keys : List ProcessKey) : Reader n :=
  if cfg.hostEnabled then startProtocols cfg .zero Protocol.all else startProcesses cfg keys

def emit (e : Emission) : List Emission := if accepts e then [e] else []

/-- The statistics of the host are complete: the difference is emitted, and the next protocol
follows unless the callback refuses. -/
def State.sampleHost (s : State n) (p : Protocol) (rest : List Protocol) (hostDelta : NetStats)
    (current : NetStats) : State n × List Emission :=
  let delta := current.delta (some (s.globalPrevious p))
  let hostDelta := accumulate hostDelta delta
  ({ s with
      globalPrevious := Function.update s.globalPrevious p current
      reader :=
        if accepts ⟨.host p, delta⟩ then startProtocols cfg hostDelta rest
        else .hostTotal hostDelta },
    emit accepts ⟨.host p, delta⟩)

def State.sampleProcess (s : State n) (k : ProcessKey) (current : NetStats)
    (rest : List (ProcessKey × NetStats)) : State n × List Emission :=
  let delta := current.delta (s.processPrevious k)
  ({ s with
      processPrevious := Function.update s.processPrevious k (some current)
      reader := if accepts ⟨.process k, delta⟩ then .emitting rest else .idle },
    emit accepts ⟨.process k, delta⟩)

/-- The next step of a pass: a word is read, or what has been read is sampled. -/
def State.read (s : State n) : State n × List Emission :=
  match s.reader with
  | .idle => (s, [])
  | .host p rest hostDelta ⟨got, []⟩ =>
    s.sampleHost cfg accepts p rest hostDelta (hostStats got)
  | .host p rest hostDelta copy =>
    let copy := copy.read fun w => s.maps.globalStats w.1 p w.2
    ({ s with reader := .host p rest hostDelta copy }, [])
  | .hostTotal hostDelta =>
    ({ s with reader := startProcesses cfg s.maps.processStats.keys },
      if cfg.bytesEnabled then emit accepts ⟨.hostTotal, hostDelta⟩ else [])
  | .listing due values =>
    if ∀ k ∈ due, k ∈ values.map Prod.fst then ({ s with reader := .emitting values }, [])
    else (s, [])
  | .copying due values k ⟨got, []⟩ =>
    ({ s with reader := .listing due (values ++ [(k, got)]) }, [])
  | .copying due values k copy =>
    ({ s with reader := .copying due values k (copy.read (s.maps.processStats.value k)) }, [])
  | .emitting [] => ({ s with reader := .idle }, [])
  | .emitting ((k, current) :: rest) => s.sampleProcess accepts k current rest

/-- The batch comes to an entry that it has not handed out yet. -/
def State.copyKey (s : State n) (k : ProcessKey) : State n :=
  match s.reader with
  | .listing due values =>
    if k ∈ s.maps.processStats.keys ∧ k ∉ values.map Prod.fst then
      { s with reader := .copying due values k (.start (Word.order Counter.all)) }
    else s
  | _ => s

/-- A map cannot be read, and the pass ends. -/
def State.fail (s : State n) : State n :=
  match s.reader with
  | .host _ _ _ _ | .listing _ _ | .copying _ _ _ _ => { s with reader := .idle }
  | _ => s

def State.view (s : State n) (i : Fin n) : View :=
  ⟨s.maps.globalStats i, s.maps.processStats, s.cpu i⟩

def State.putView (s : State n) (i : Fin n) (v : View) : State n :=
  { s with
    maps := ⟨Function.update s.maps.globalStats i v.row, v.map⟩,
    cpu := Function.update s.cpu i v.cpu }

def machine : Machine (State n) (Act n) Emission where
  step s
    | .step i => (s.putView i ((s.view i).step cfg), [])
    | .sample =>
      match s.reader with
      | .idle => ({ s with reader := startPass cfg s.maps.processStats.keys }, [])
      | _ => (s, [])
    | .read => s.read cfg accepts
    | .key k => (s.copyKey k, [])
    | .fail => (s.fail, [])

/-- Empty maps, and on every CPU the calls that it is going to account. -/
def State.start (calls : Fin n → List SocketCall) : State n where
  maps := ⟨fun _ _ => .zero, ⟨[], fun _ => .zero⟩⟩
  cpu i := ⟨calls i, .idle⟩
  globalPrevious _ := .zero
  processPrevious _ := none
  reader := .idle

end Sampling

end Manytrace.Bpf.NetTrack
