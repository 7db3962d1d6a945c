import Gylo.Lib.Packing
import Gylo.Store.Schema

/-! # The frames between supervisor and child

A frame is a little-endian `u32` length and a body: one byte for the kind, then
the fields. `Dispatch` and `Complete` are laid out by hand, the other kinds are
MessagePack. `encode` appends one frame to a buffer that already holds others,
so a message it rejects must leave the buffer alone. -/
namespace Gylo.Wire

open Gylo.Store (Bytes)
open Packing

/-- What the child reports about a job. -/
inductive Outcome where
  | success (result : Bytes)
  | failure (error : String) (retry : Bool)
deriving DecidableEq

/-- A schedule the child declared. -/
structure CronRegistration where
  name : String
  queue : String
  task : String
  expression : String
  timezone : String
  payload : Bytes
deriving DecidableEq

inductive Message where
  | register (entries : List CronRegistration)
  | steps (id : Int) (steps : List (String × Bytes))
  | record (id : Int) (name : String) (result : Bytes)
  | stored (id : Int) (name : String)
  | dispatch (id attempt maxAttempts : Int) (task : String) (payload : Bytes)
  | complete (id : Int) (outcome : Outcome)
deriving DecidableEq

inductive ProtocolError where
  | frameTooLarge (bytes : Nat)
  | truncated
  | unknownKind (kind : UInt8)
  | unknownOutcome (outcome : UInt8)
  | notUtf8 (what : String)
  | taskNameTooLong (bytes : Nat)
  | malformed (message : String)
deriving DecidableEq

/-- `{:#04x}`. -/
def hexByte (b : UInt8) : String :=
  String.ofList ['0', 'x', Nat.digitChar (b.toNat / 16), Nat.digitChar (b.toNat % 16)]

/-- The error as it is logged, and stored with a job it discards. -/
def ProtocolError.text : ProtocolError → String
  | frameTooLarge n => "frame body of " ++ toString n ++ " bytes exceeds the 16777216 byte limit"
  | truncated => "frame body is truncated"
  | unknownKind k => "unknown message kind " ++ hexByte k
  | unknownOutcome o => "unknown outcome " ++ hexByte o
  | notUtf8 what => what ++ " is not valid utf-8"
  | taskNameTooLong n => "task name of " ++ toString n ++ " bytes exceeds the 65535 byte limit"
  | malformed message => "messagepack body is malformed: " ++ message

/-- `MAX_FRAME_BYTES`. -/
def maxFrameBytes : Nat := 16 * 1024 * 1024

/-- `DISPATCH_HEAD_BYTES`. -/
def dispatchHeadBytes : Nat := 1 + 8 + 2 + 2 + 2

/-- `COMPLETE_HEAD_BYTES`. -/
def completeHeadBytes : Nat := 1 + 8 + 1

/-! ## Encoding -/

/-- What is on the wire for the kinds that are MessagePack, whoever wrote it: `pack` for
what the child reads, msgspec for what the supervisor reads. Structs and tuples are
arrays of their fields, with the shortest form of every number and length; `serde_bytes`
makes results binary, and the payload of a registration is an array of integers. What
the two readers make of it is left to `Serde` and `Msgspec`. -/
def packed : Message → Bytes
  | .register entries => MessagePack.array <| entries.map fun e =>
      MessagePack.array [MessagePack.str e.name, MessagePack.str e.queue, MessagePack.str e.task,
        MessagePack.str e.expression, MessagePack.str e.timezone,
        MessagePack.array (e.payload.map fun b => MessagePack.int b.toNat)]
  | .steps id steps => MessagePack.array [MessagePack.int id, MessagePack.array <|
      steps.map fun step => MessagePack.array [MessagePack.str step.1, MessagePack.bin step.2]]
  | .record id name result =>
      MessagePack.array [MessagePack.int id, MessagePack.str name, MessagePack.bin result]
  | .stored id name => MessagePack.array [MessagePack.int id, MessagePack.str name]
  | .dispatch .. | .complete .. => []

/-- `body_len`, computed before anything is written. -/
def bodyLen : Message → Except ProtocolError Nat
  | .dispatch _ _ _ task payload =>
    if (utf8 task).length < 65536 then
      .ok (dispatchHeadBytes + (utf8 task).length + payload.length)
    else .error (.taskNameTooLong (utf8 task).length)
  | .complete _ (.success result) => .ok (completeHeadBytes + result.length)
  | .complete _ (.failure error _) => .ok (completeHeadBytes + (utf8 error).length)
  | m => .ok (1 + (packed m).length)

/-- The body `encode_frame` writes. -/
def body : Message → Bytes
  | .dispatch id attempt maxAttempts task payload =>
    0x00 :: (littleEndian 8 (wrap 8 id) ++ littleEndian 2 (wrap 2 attempt) ++
      littleEndian 2 (wrap 2 maxAttempts) ++ littleEndian 2 (utf8 task).length ++ utf8 task ++
      payload)
  | .complete id (.success result) => 0x01 :: (littleEndian 8 (wrap 8 id) ++ 0x00 :: result)
  | .complete id (.failure error retry) =>
    0x01 :: (littleEndian 8 (wrap 8 id) ++ (if retry then 0x01 else 0x02) :: utf8 error)
  | m@(.register _) => 0x02 :: packed m
  | m@(.steps _ _) => 0x03 :: packed m
  | m@(.record _ _ _) => 0x04 :: packed m
  | m@(.stored _ _) => 0x05 :: packed m

/-- `encode_frame`: the buffer afterwards, and whether the message went in. -/
def encodeFrame (m : Message) (out : Bytes) : Bytes × Except ProtocolError Unit :=
  match bodyLen m with
  | .error e => (out, .error e)
  | .ok n =>
    if maxFrameBytes < n then (out, .error (.frameTooLarge n))
    else if 4294967296 ≤ n then (out, .error (.frameTooLarge n))
    else (out ++ littleEndian 4 n ++ body m, .ok ())

/-- `encode`: a failure truncates the buffer to what it was. -/
def encode (m : Message) (out : Bytes) : Bytes × Except ProtocolError Unit :=
  match encodeFrame m out with
  | (out', .ok ()) => (out', .ok ())
  | (out', .error e) => (out'.take out.length, .error e)

/-- `encode` takes the message. -/
def Accepted (m : Message) : Prop := (encode m []).2 = .ok ()

instance (m : Message) : Decidable (Accepted m) :=
  inferInstanceAs (Decidable ((encode m []).2 = .ok ()))

theorem bodyLen_eq_length {m : Message} {n : Nat} (h : bodyLen m = .ok n) :
    (body m).length = n := by
  cases m with
  | dispatch id attempt maxAttempts task payload =>
    simp only [bodyLen] at h
    split at h
    · cases h
      simp [body, dispatchHeadBytes]
      omega
    · cases h
  | complete id outcome =>
    cases outcome <;> cases h <;> simp [body, completeHeadBytes] <;> omega
  | _ => cases h; simp [body, Nat.add_comm]

/-- What a call of `encode` comes to, whatever is in the buffer. -/
theorem encode_eq (m : Message) (out : Bytes) :
    (encode m out = (out ++ littleEndian 4 (body m).length ++ body m, .ok ()) ∧ Accepted m) ∨
      ∃ e, encode m out = (out, .error e) ∧ ¬ Accepted m := by
  unfold Accepted encode encodeFrame
  cases h : bodyLen m with
  | error e => exact .inr ⟨e, by simp, by simp⟩
  | ok n =>
    rw [bodyLen_eq_length h]
    by_cases hlarge : maxFrameBytes < n
    · exact .inr ⟨.frameTooLarge n, by simp [hlarge], by simp [hlarge]⟩
    · have hfits : ¬ 4294967296 ≤ n := by unfold maxFrameBytes at hlarge; omega
      simp only [if_neg hlarge, if_neg hfits]
      exact .inl ⟨trivial, trivial⟩

/-- **A rejected message leaves the buffer byte for byte as it was.** -/
theorem encode_error {m : Message} {out : Bytes} {e : ProtocolError}
    (h : (encode m out).2 = .error e) : (encode m out).1 = out := by
  rcases encode_eq m out with hok | herr
  · rw [hok.1] at h; cases h
  · obtain ⟨e', he, -⟩ := herr
    rw [he]

/-- A message is accepted if its body has a length and that is within the limit. -/
theorem accepted_iff {m : Message} : Accepted m ↔ ∃ n, bodyLen m = .ok n ∧ n ≤ maxFrameBytes := by
  unfold Accepted encode encodeFrame
  cases h : bodyLen m with
  | error e => simp
  | ok n =>
    by_cases hlarge : maxFrameBytes < n
    · simp [hlarge]
    · have hfits : ¬ 4294967296 ≤ n := by unfold maxFrameBytes at hlarge; omega
      simp only [if_neg hlarge, if_neg hfits, true_iff]
      exact ⟨n, rfl, by omega⟩

theorem length_body_le {m : Message} (h : Accepted m) : (body m).length ≤ maxFrameBytes := by
  obtain ⟨n, hn, hle⟩ := accepted_iff.mp h
  rw [bodyLen_eq_length hn]
  exact hle

/-- A dispatch is accepted or rejected for its task name and payload alone. -/
theorem accepted_dispatch {id attempt maxAttempts : Int} {task : String} {payload : Bytes} :
    Accepted (.dispatch id attempt maxAttempts task payload) ↔ (utf8 task).length < 65536 ∧
      dispatchHeadBytes + (utf8 task).length + payload.length ≤ maxFrameBytes := by
  rw [accepted_iff]
  simp only [bodyLen]
  by_cases hname : (utf8 task).length < 65536
  · simp [hname]
  · simp [hname]

theorem accepted_dispatch_iff {id id' attempt attempt' maxAttempts maxAttempts' : Int}
    {task : String} {payload : Bytes} :
    Accepted (.dispatch id attempt maxAttempts task payload) ↔
      Accepted (.dispatch id' attempt' maxAttempts' task payload) := by
  rw [accepted_dispatch, accepted_dispatch]

end Gylo.Wire
