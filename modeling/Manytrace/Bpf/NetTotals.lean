import Mathlib.Algebra.Field.Rat
import Mathlib.Data.Nat.Cast.Basic
import Manytrace.Bpf.NetAccounting
import Manytrace.Bpf.NetShown

/-! What the counters in the trace add up to: all that the socket calls are worth, if they are not
scaled to rates. -/
namespace Manytrace.Bpf.NetTrack
open Manytrace.Core Manytrace.Protocol Manytrace.Converter

/-! ## The series of a counter -/

/-- The metric that the counter belongs to is on, and the protocol has the counter. -/
def Counter.enabled (cfg : Config) (p : Protocol) : Counter → Bool
  | .sendBytes | .recvBytes => cfg.bytesEnabled
  | .sendOperations | .recvOperations => cfg.operationsEnabled
  | .tcpRecvEof => cfg.operationsEnabled && p = .tcp
  | .udpRecvTruncated => cfg.operationsEnabled && p = .udp
  | .sendErrors | .recvErrors | .sendWouldBlock | .recvWouldBlock => cfg.errorsEnabled

def Counter.label (p : Protocol) : Counter → String
  | .sendBytes => p.name ++ "_send"
  | .recvBytes => p.name ++ "_recv"
  | .sendOperations => p.name ++ "_send_" ++ if p = .udp then "datagrams" else "calls"
  | .recvOperations => p.name ++ "_recv_" ++ if p = .udp then "datagrams" else "calls"
  | .sendErrors => p.name ++ "_send_errors"
  | .recvErrors => p.name ++ "_recv_errors"
  | .sendWouldBlock => p.name ++ "_send_would_block"
  | .recvWouldBlock => p.name ++ "_recv_would_block"
  | .tcpRecvEof => "tcp_recv_eof"
  | .udpRecvTruncated => "udp_recv_truncated"

def Counter.unit : Counter → String
  | .sendBytes | .recvBytes => "bytes"
  | _ => "count"

section Series
variable {cfg : NetTrackConfig} {conv : Conversions} {p : Protocol} {c : Counter}

theorem samplesFor_filter (hscaled : cfg.scaled = false) (h : c.enabled cfg.toConfig p = true)
    (stats : NetStats) (elapsed : ℕ) :
    (samplesFor cfg conv p stats elapsed).filter (fun y => y.kind = .stat c) =
      [⟨.stat c, c.label p, conv.asF64 (stats (.count c)), c.unit⟩] := by
  simp only [samplesFor, byteSamples, hscaled, List.filter_append,
    apply_ite (List.filter _), List.filter_nil]
  cases p <;> cases c <;> simp_all [Counter.enabled, countSample, Counter.label, Counter.unit]

end Series

/-! ## From emissions to points -/

def Sampled.emission? (x : Sampled) : Option Emission :=
  match x.row with
  | .emission e => some e
  | .peer _ _ => none

/-- The numbers of a counter that come up for a scope, with their times. -/
def points (scope : Scope) (c : Counter) (xs : List Sampled) : List (ℕ × ℕ) :=
  xs.filterMap fun x => x.emission?.bind fun e =>
    if e.scope = scope then some (x.now, e.stats (.count c)) else none

/-- The series that shows a scope, and its protocol. -/
def Scope.series : Scope → Option (ScopeKey × Protocol)
  | .host p => some (.host, p)
  | .process k => some (.process k.tgid, k.protocol)
  | .hostTotal => none

/-- The sample of a counter. -/
def Counter.emit (conv : Conversions) (c : Counter) (key : ScopeKey × Protocol) (point : ℕ × ℕ) :
    Emit :=
  ⟨key.1, key.2, ⟨.stat c, c.label key.2, conv.asF64 point.2, c.unit⟩, point.1⟩

section Points
variable {cfg : NetTrackConfig} {conv : Conversions} {c : Counter} {scope : Scope}
  {key : ScopeKey × Protocol}

variable (hscaled : cfg.scaled = false) (henabled : c.enabled cfg.toConfig key.2 = true)
include hscaled henabled

theorem filter_samples (stats : NetStats) (elapsed now : ℕ) :
    ((samplesFor cfg conv key.2 stats elapsed).map fun y => (⟨key.1, key.2, y, now⟩ : Emit)).filter
      (fun x => x.key = ⟨key.1, key.2, .stat c⟩) = [c.emit conv key (now, stats (.count c))] := by
  have hkind : ((fun x : Emit => decide (x.key = ⟨key.1, key.2, .stat c⟩)) ∘
      fun y => (⟨key.1, key.2, y, now⟩ : Emit)) = fun y => decide (y.kind = .stat c) := by
    funext y
    simp [Emit.key]
  rw [List.filter_map, hkind, samplesFor_filter hscaled henabled]
  rfl

variable (hseries : scope.series = some key)
include hseries

end Points

/-! ## The whole way -/

/-- A value of a counter as it is handed over. -/
def Counter.event (conv : Conversions) (c : Counter) (p : Protocol) (id : ℕ) (point : ℕ × ℕ) :
    Event :=
  .counter ⟨c.label p, conv.asF64 point.2, point.1, .counter id, ⟨[], [], [], []⟩, some c.unit⟩

section Shown
variable {cfg : NetTrackConfig} {conv : Conversions} {random : ℕ → ℕ} {c : Counter}
  {messages : List Message} {io : ℕ → Bool} {xs : List Sampled}

end Shown

end Manytrace.Bpf.NetTrack
