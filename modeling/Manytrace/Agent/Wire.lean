import Mathlib.Data.Countable.Basic
import Mathlib.Logic.Equiv.List
import Mathlib.Tactic.DeriveCountable
import Manytrace.Core.Codec
import Manytrace.Agent.Client

/-! Control messages as bytes. Neither side frames its messages or reads more than once. -/
namespace Manytrace.Agent
open Manytrace.Core

/-- The strings in a message. -/
def ControlMessage.strings : ControlMessage → List String
  | .start _ args =>
    args.tracing.toList.map TracingArgs.logFilter ++ args.options.flatMap fun
      | (key, .string s) => [key, s]
      | (key, _) => [key]
  | .nack error => [error]
  | .versionResponse v => [v]
  | _ => []

def ControlMessage.stringBytes (m : ControlMessage) : ℕ := (m.strings.map String.utf8ByteSize).sum

/-- What is assumed of `rkyv`: a message is at least as long as its strings. -/
structure Rkyv extends Codec ControlMessage UInt8 where
  stringBytes_le : ∀ m, m.stringBytes ≤ (serialize m).length

/-- The size of `msg_buf` and of `response_buf`. -/
def bufferLen : ℕ := 1024

/-- A stream socket, by how much of a message it takes when it is empty. -/
structure StreamSocket where
  room : ℕ
  bufferLen_le : bufferLen ≤ room

/-- The error text of `TracingExtension::start`, with the one of `EnvFilter::try_new`. -/
def invalidFilter (filter e : String) : String := "invalid log filter '" ++ filter ++ "': " ++ e

section Receive
variable (R : Rkyv)

/-- What the agent does with the bytes of one `recvmsg`. -/
def epollReceive (osPid : ℤ) (a : AgentProcess) (clientId : ℕ) (data : List UInt8)
    (rawFds : List ℤ) (env : Env) : AgentProcess × List Output :=
  if data.isEmpty then (a, [])
  else
    match R.access data with
    | none => (a, [])
    | some m => (agentLoop osPid).step a (.message clientId m rawFds env)

/-- What the client makes of the bytes of one `recv`. -/
def clientReceive (data : List UInt8) : Answer := .received (.ok (R.access data))

/-- The bytes of the first read after a message on an empty stream. -/
def firstRead (k : StreamSocket) (m : ControlMessage) : List UInt8 :=
  (R.turn k.room bufferLen [] m).2

/-- The agent's decoder is given the bytes of the start, and the agent handles that start. -/
def StartArrives (k : StreamSocket) (o : StartOptions) : Prop :=
  firstRead R k o.message = R.serialize o.message ∧
    ∀ osPid a clientId rawFds env,
      epollReceive R osPid a clientId (firstRead R k o.message) rawFds env =
        (agentLoop osPid).step a (.message clientId o.message rawFds env)

/-- The client's decoder is given the bytes of the refusal, and the client sees it. -/
def NackArrives (k : StreamSocket) (error : String) : Prop :=
  firstRead R k (.nack error) = R.serialize (.nack error) ∧
    clientReceive R (firstRead R k (.nack error)) = .received (.ok (some (.nack error)))

end Receive

section Arrival
variable {R : Rkyv} {k : StreamSocket}

theorem firstRead_eq_iff (m : ControlMessage) :
    firstRead R k m = R.serialize m ↔ (R.serialize m).length ≤ bufferLen :=
  Codec.turn_read_iff k.bufferLen_le m

theorem access_firstRead_iff (m : ControlMessage) :
    R.access (firstRead R k m) = some m ↔ (R.serialize m).length ≤ bufferLen :=
  Codec.access_turn_iff k.bufferLen_le m

theorem epollReceive_serialize (osPid : ℤ) (a : AgentProcess) (clientId : ℕ)
    (m : ControlMessage) (rawFds : List ℤ) (env : Env) :
    epollReceive R osPid a clientId (R.serialize m) rawFds env =
      (agentLoop osPid).step a (.message clientId m rawFds env) := by
  have hne : ¬ (R.serialize m).isEmpty = true := by simpa using R.serialize_ne_nil m
  rw [epollReceive, if_neg hne, R.access_serialize]

theorem startArrives_iff (o : StartOptions) :
    StartArrives R k o ↔ (R.serialize o.message).length ≤ bufferLen := by
  rw [← firstRead_eq_iff (k := k)]
  constructor
  · exact And.left
  · intro h
    refine ⟨h, fun osPid a clientId rawFds env => ?_⟩
    rw [h]
    exact epollReceive_serialize osPid a clientId o.message rawFds env

theorem nackArrives_iff (error : String) :
    NackArrives R k error ↔ (R.serialize (.nack error)).length ≤ bufferLen := by
  rw [← firstRead_eq_iff (k := k)]
  constructor
  · exact And.left
  · intro h
    refine ⟨h, ?_⟩
    rw [h, clientReceive, R.access_serialize]

/-- A message with more text than the buffer holds is cut. -/
theorem lt_length_of_stringBytes {m : ControlMessage} (h : bufferLen < m.stringBytes) :
    ¬ (R.serialize m).length ≤ bufferLen := by
  have hle := R.stringBytes_le m
  omega

end Arrival

/-- A start arrives whole exactly if it fits into the buffer of the agent, and a refusal
exactly if it fits into the buffer of the client. Turn after turn, all the messages of one
side arrive whole exactly if each of them fits. -/
theorem control_message_arrives_iff (R : Rkyv) (k : StreamSocket) :
    (∀ o : StartOptions, StartArrives R k o ↔ (R.serialize o.message).length ≤ 1024) ∧
      (∀ error : String, NackArrives R k error ↔ (R.serialize (.nack error)).length ≤ 1024) ∧
        ∀ ms : List ControlMessage,
          (R.turns k.room bufferLen).outputs [] ms = ms.map R.serialize ↔
            ∀ m ∈ ms, (R.serialize m).length ≤ 1024 :=
  ⟨startArrives_iff, nackArrives_iff, Codec.turns_read_iff k.bufferLen_le⟩

/-! ## The assumptions can be met -/

instance countableChar : Countable Char :=
  Function.Injective.countable fun _ _ => Char.toNat_inj.mp

instance countableString : Countable String :=
  Function.Injective.countable fun _ _ => String.toList_inj.mp

instance countableUInt64 : Countable UInt64 :=
  Function.Injective.countable fun _ _ => UInt64.toNat_inj.mp

deriving instance Countable for TimestampType, TracingArgs, Value, Args, ControlMessage

/-- The tag of a message and what points to its strings take eight bytes at least. -/
def Rkyv.HasHeader (R : Rkyv) : Prop := ∀ m, m.stringBytes + 8 ≤ (R.serialize m).length

theorem exists_rkyv {m : ControlMessage} {n : ℕ} (h : m.stringBytes + 8 ≤ n) :
    ∃ R : Rkyv, R.HasHeader ∧ (R.serialize m).length = n := by
  obtain ⟨C, hheader, hlength⟩ := Codec.exists_length_le (0 : UInt8)
    (fun m => ControlMessage.stringBytes m + 8) (by omega) h
  exact ⟨⟨C, fun m => (Nat.le_add_right _ 8).trans (hheader m)⟩, hheader, hlength⟩

/-- A filter of 1025 bytes is cut. One of 976 bytes can fill the buffer of the agent exactly;
the text of its refusal is longer and does not fit the buffer of the client. -/
theorem long_texts_are_cut :
    let o : StartOptions := ⟨4096, String.ofList (List.replicate 1025 'a'), .monotonic, []⟩
    let filter := String.ofList (List.replicate 976 '=')
    let refused : StartOptions := ⟨4096, filter, .monotonic, []⟩
    let error := invalidFilter filter "invalid filter directive"
    (∃ R : Rkyv, R.HasHeader ∧ (R.serialize refused.message).length = 1024) ∧
      ∀ (R : Rkyv) (k : StreamSocket),
        (¬ StartArrives R k o ∧ R.access (firstRead R k o.message) ≠ some o.message) ∧
          (R.HasHeader → (R.serialize refused.message).length = 1024 →
            StartArrives R k refused ∧ ¬ NackArrives R k error ∧
              R.access (firstRead R k (.nack error)) ≠ some (.nack error)) := by
  intro o filter refused error
  have hstart : bufferLen < o.message.stringBytes := by decide +kernel
  have hrefused : refused.message.stringBytes + 8 ≤ 1024 := by decide +kernel
  have herror : bufferLen < (ControlMessage.nack error).stringBytes + 8 := by decide +kernel
  refine ⟨exists_rkyv hrefused, fun R k => ⟨⟨?_, ?_⟩, fun hheader hlength => ?_⟩⟩
  · exact fun h => lt_length_of_stringBytes hstart ((startArrives_iff o).mp h)
  · exact fun h => lt_length_of_stringBytes hstart ((access_firstRead_iff _).mp h)
  · have hnack : ¬ (R.serialize (.nack error)).length ≤ bufferLen :=
      Nat.not_le_of_lt (Nat.lt_of_lt_of_le herror (hheader _))
    refine ⟨(startArrives_iff refused).mpr hlength.le, ?_, ?_⟩
    · exact fun h => hnack ((nackArrives_iff error).mp h)
    · exact fun h => hnack ((access_firstRead_iff _).mp h)

end Manytrace.Agent
