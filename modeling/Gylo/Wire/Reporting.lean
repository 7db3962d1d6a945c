import Gylo.Lib.Utf8
import Gylo.Wire.Completion

/-! # What the supervisor makes of the child's frames

The child lays its frames out in Python and the supervisor reads them in Rust. A
frame is read if its body is within the limit of the decoder and is what the
decoder takes it for; a text must be UTF-8. `encode_failure` cuts a long error at a
number of bytes; the frames of results, steps and schedules are as long as what
they carry. -/
namespace Gylo.Wire

open Gylo.Store (Bytes)
open Packing Framing

/-! ## One frame on the wire -/

/-- However the bytes are cut up, the decoder returns the message and keeps nothing. -/
def Reads (serde : Serde) (bytes : Bytes) (m : Message) : Prop :=
  ∀ chunks : List Bytes, chunks.flatten = bytes →
    (Decoder.new.feed serde chunks).1 = [m] ∧ (Decoder.new.feed serde chunks).2.1 = none ∧
      (Decoder.new.feed serde chunks).2.2.buffered = 0

/-- The bytes of a body behind its length. -/
def framed (body : Bytes) : Bytes := littleEndian 4 body.length ++ body

theorem length_framed (body : Bytes) : (framed body).length = 4 + body.length := by
  simp [framed]

section
variable {serde : Serde} {body : Bytes} {m : Message}

theorem bodyLen_framed (hfits : body.length < 4294967296) : Prefixed.bodyLen (framed body) = body.length := by
  rw [framed, Prefixed.bodyLen, List.take_left' (length_littleEndian _ _)]
  exact ofLittleEndian_littleEndian 4 body.length hfits

/-- What the decoder finds of a frame that arrives in one piece. -/
theorem feed_framed (serde : Serde) (bytes : Bytes) : Decoder.Yields (Decoder.new.feed serde [bytes])
    ((Decoder.format serde).cutter.frames bytes) := by
  have hyields := Decoder.feed_yields serde [bytes] Decoder.new
  rwa [show Decoder.new.view = [] from rfl, Cutter.feed_singleton] at hyields

theorem cut_oversized (hfits : body.length < 4294967296) (h : maxFrameBytes < body.length) :
    (Decoder.format serde).cutter.cut (framed body) = .bad (.frameTooLarge body.length) := by
  have hlen := bodyLen_framed hfits
  rw [Prefixed.cutter_cut, Prefixed.cut_tooLarge (by rw [length_framed]; omega) (by rw [hlen]; exact h),
    hlen]
  rfl

theorem cut_undecodable {e : ProtocolError} (h : body.length ≤ maxFrameBytes)
    (hdecode : decodeBody serde body = .error e) :
    (Decoder.format serde).cutter.cut (framed body) = .bad e := by
  have hmax : maxFrameBytes < 4294967296 := by decide
  have hlen : Prefixed.bodyLen (framed body) = body.length := bodyLen_framed (by omega)
  rw [Prefixed.cutter_cut, Prefixed.cut_whole (by rw [hlen, length_framed]) (by rw [hlen]; exact h), hlen,
    framed, List.drop_left' (length_littleEndian _ _), List.take_length]
  simp only [Decoder.format, hdecode]

theorem cut_read (h : body.length ≤ maxFrameBytes) (hdecode : decodeBody serde body = .ok m) :
    (Decoder.format serde).cutter.cut (framed body) = .item m [] := by
  have hmax : maxFrameBytes < 4294967296 := by decide
  rw [Prefixed.cutter_cut, ← List.append_nil (framed body)]
  exact Prefixed.cut_frame h (by omega) hdecode []

/-- A frame that is refused yields nothing and its error. -/
theorem feed_refused {bytes : Bytes} {e : ProtocolError}
    (h : (Decoder.format serde).cutter.cut bytes = .bad e) :
    (Decoder.new.feed serde [bytes]).1 = [] ∧ (Decoder.new.feed serde [bytes]).2.1 = some e := by
  obtain ⟨hitems, herror, -⟩ := feed_framed serde bytes
  rw [Cutter.frames_bad h] at hitems herror
  exact ⟨hitems, herror⟩

theorem not_reads_of_refused {bytes : Bytes} {e : ProtocolError}
    (h : (Decoder.format serde).cutter.cut bytes = .bad e) : ¬ Reads serde bytes m := by
  intro hreads
  have hread := (hreads [bytes] (by simp)).1
  rw [(feed_refused h).1] at hread
  cases hread

/-- **A frame is read** exactly if its body is within the limit and decodes. -/
theorem reads_framed_iff (hfits : body.length < 4294967296) :
    Reads serde (framed body) m ↔ body.length ≤ maxFrameBytes ∧ decodeBody serde body = .ok m := by
  constructor
  · intro h
    have hlimit : body.length ≤ maxFrameBytes := by
      by_contra hlarge
      exact not_reads_of_refused (cut_oversized hfits (Nat.lt_of_not_le hlarge)) h
    refine ⟨hlimit, ?_⟩
    cases hdecode : decodeBody serde body with
    | error e => exact absurd h (not_reads_of_refused (cut_undecodable hlimit hdecode))
    | ok m' =>
      have hcut := cut_read hlimit hdecode
      have hitems := (feed_framed serde (framed body)).1
      rw [(h [framed body] (by simp)).1, Cutter.frames_item hcut,
        Cutter.frames_more (Prefixed.cutter_nil _)] at hitems
      cases hitems
      rfl
  · intro h chunks hchunks
    obtain ⟨hlimit, hdecode⟩ := h
    have hframes : (Decoder.format serde).cutter.frames (framed body) = ⟨[m], [], none⟩ := by
      rw [Cutter.frames_item (cut_read hlimit hdecode), Cutter.frames_more (Prefixed.cutter_nil _)]
      rfl
    obtain ⟨hitems, herror, hrest⟩ := Decoder.feed_yields serde chunks Decoder.new
    have hfeed : (Decoder.format serde).cutter.feed chunks Decoder.new.view = ⟨[m], [], none⟩ := by
      refine (Cutter.feed_eq_frames _ chunks [] (Prefixed.cutter_nil _) ?_).trans ?_
      · rw [List.nil_append, hchunks, hframes]
      · rw [List.nil_append, hchunks, hframes]
    rw [hfeed] at hitems herror hrest
    refine ⟨hitems, herror, ?_⟩
    rw [← Decoder.length_view, hrest]
    rfl
end

/-! ## Failures -/

theorem packComplete_framed {id : Int} (hid : InI64 id) (outcome : UInt8) {rest : Bytes}
    (hlen : 10 + rest.length < 4294967296) :
    packComplete id outcome rest =
      some (framed (0x01 :: (littleEndian 8 (wrap 8 id) ++ outcome :: rest))) := by
  have hbody : (0x01 :: (littleEndian 8 (wrap 8 id) ++ outcome :: rest)).length = 10 + rest.length := by
    simp
    omega
  rw [packComplete, if_pos ⟨hlen, hid⟩, framed, hbody]

/-- Whatever the string, its replacement encoding is UTF-8. -/
theorem encodeReplace_text (error : PyStr) : ∃ text, utf8 text = encodeReplace error := by
  induction error with
  | nil => exact ⟨"", rfl⟩
  | cons c error ih =>
    obtain ⟨text, htext⟩ := ih
    have hhead : ∃ head, utf8 head = encodeReplace [c] := by
      unfold encodeReplace
      rw [List.flatMap_singleton]
      by_cases hvalid : c.val.isValidChar
      · rw [dif_pos hvalid]
        exact ⟨_, rfl⟩
      · rw [dif_neg hvalid]
        exact ⟨"?", by decide⟩
    obtain ⟨head, hhead⟩ := hhead
    refine ⟨head ++ text, ?_⟩
    rw [utf8_append, hhead, htext, encodeReplace, encodeReplace, encodeReplace, ← List.flatMap_append]
    rfl

/-- The error is short, or the byte it is cut at begins a character. -/
def CutsCleanly (error : PyStr) : Prop :=
  (encodeReplace error).length ≤ maxErrorBytes ∨
    ((encodeReplace error).getD maxErrorBytes 0).IsUTF8FirstByte

/-- The rendered error is a text exactly if it is not cut inside a character: the
mark put behind it begins one. -/
theorem renderError_text_iff (error : PyStr) :
    (∃ text, utf8 text = renderError error) ↔ CutsCleanly error := by
  obtain ⟨whole, hwhole⟩ := encodeReplace_text error
  unfold renderError CutsCleanly
  dsimp only
  split
  · next hlong =>
    rw [exists_utf8_eq_append_iff, ← hwhole, exists_utf8_eq_take_iff (hwhole ▸ hlong), hwhole]
    exact ⟨.inr, fun h => h.resolve_left (Nat.not_le.mpr hlong)⟩
  · next hshort => exact ⟨fun _ => .inl (Nat.not_lt.mp hshort), fun _ => ⟨whole, hwhole⟩⟩

theorem decodeBody_failure (serde : Serde) {id : Int} (hid : InI64 id) (retry : Bool) (text : Bytes) :
    decodeBody serde (0x01 :: (littleEndian 8 (wrap 8 id) ++ (if retry then 0x01 else 0x02) :: text)) =
      match ofUtf8 text with
      | none => .error (.notUtf8 "error message")
      | some error => .ok (.complete id (.failure error retry)) := by
  cases retry
  · exact decodeComplete_body hid 0x02 text
  · exact decodeComplete_body hid 0x01 text

/-- The frame of a failure is read as that failure, whole if it is short. -/
def FailureReadable (serde : Serde) (id : Int) (error : PyStr) (retry : Bool) : Prop :=
  ∃ frame, encodeFailure id error retry = some frame ∧ frame.length ≤ 4 + maxFrameBytes ∧
    ∃ text, Reads serde frame (.complete id (.failure text retry)) ∧
      ((encodeReplace error).length ≤ maxErrorBytes → utf8 text = encodeReplace error) ∧
      (maxErrorBytes < (encodeReplace error).length →
        (encodeReplace error).take maxErrorBytes <+: utf8 text)

theorem failureBody_le (id : Int) (error : PyStr) (code : UInt8) :
    (0x01 :: (littleEndian 8 (wrap 8 id) ++ code :: renderError error)).length ≤ maxFrameBytes := by
  have hlen := length_renderError_le error
  simp only [List.length_cons, List.length_append, length_littleEndian]
  unfold maxErrorBytes at hlen
  unfold maxFrameBytes
  omega

/-- **A failure report is readable** exactly if its error is not cut inside a character. -/
theorem failure_readable_iff (serde : Serde) {id : Int} (hid : InI64 id) (error : PyStr) (retry : Bool) :
    FailureReadable serde id error retry ↔ CutsCleanly error := by
  have hpack := packComplete_framed hid (if retry then 0x01 else 0x02) (length_renderError error)
  have hbody := failureBody_le id error (if retry then 0x01 else 0x02)
  have hmax : maxFrameBytes < 4294967296 := by decide
  have hreads : ∀ m, Reads serde _ m ↔ _ := fun m => reads_framed_iff (Nat.lt_of_le_of_lt hbody hmax)
  rw [← renderError_text_iff]
  unfold FailureReadable encodeFailure
  constructor
  · intro h
    obtain ⟨frame, hframe, -, text, hread, -⟩ := h
    rw [hpack] at hframe
    cases hframe
    have hdecode := ((hreads _).mp hread).2
    rw [decodeBody_failure serde hid] at hdecode
    cases htext : ofUtf8 (renderError error) with
    | none => rw [htext] at hdecode; cases hdecode
    | some error' => exact ⟨error', ofUtf8_eq_some_iff.mp htext⟩
  · intro h
    obtain ⟨text, htext⟩ := h
    refine ⟨_, hpack, ?_, text, (hreads _).mpr ⟨hbody, ?_⟩, ?_, ?_⟩
    · rw [length_framed]
      omega
    · rw [decodeBody_failure serde hid, ofUtf8_eq_some_iff.mpr htext]
    · intro hshort
      rw [htext, renderError]
      exact if_neg (Nat.not_lt.mpr hshort)
    · intro hlong
      rw [htext, renderError]
      simp only [if_pos hlong, List.prefix_append]

/-- `ValueError("\ud800")`: the surrogate arrives as a question mark. -/
theorem failure_readable_iff_surrogate :
    FailureReadable Serde.messagePack 7 [0x6e, 0x6f, 0x20, 0xd800] true :=
  (failure_readable_iff Serde.messagePack (by decide) _ true).mpr (.inl (by decide))

/-- 65535 letters and one that takes two bytes. -/
def splitError : PyStr := List.replicate 65535 0x61 ++ [0xe9]

theorem encodeReplace_splitError : encodeReplace splitError = List.replicate 65535 0x61 ++ [0xc3, 0xa9] := by
  have hletters : ∀ n, encodeReplace (List.replicate n 0x61) = List.replicate n 0x61 := by
    intro n
    induction n with
    | zero => rfl
    | succ n ih =>
      have hletter : encodeReplace [0x61] = [0x61] := by decide
      rw [List.replicate_succ, List.replicate_succ, ← ih, ← List.singleton_append, encodeReplace,
        List.flatMap_append]
      exact congrArg (· ++ _) hletter
  have hlast : encodeReplace [0xe9] = [0xc3, 0xa9] := by decide
  rw [splitError, encodeReplace, List.flatMap_append]
  exact congrArg₂ (· ++ ·) (hletters 65535) hlast

/-- The cut takes the first byte of the last letter and leaves the second: the
supervisor refuses the frame, and its collector returns. -/
theorem split_error_refused :
    ∃ frame, encodeFailure 7 splitError true = some frame ∧
      (Decoder.new.feed Serde.messagePack [frame]).1 = [] ∧
      (Decoder.new.feed Serde.messagePack [frame]).2.1 = some (.notUtf8 "error message") := by
  have hid : InI64 7 := by decide
  have hbytes := encodeReplace_splitError
  have hcut : ¬ CutsCleanly splitError := by
    unfold CutsCleanly
    rw [hbytes, not_or]
    refine ⟨?_, ?_⟩
    · rw [List.length_append, List.length_replicate, maxErrorBytes]
      decide
    · rw [List.getD_eq_getElem?_getD, List.getElem?_append_right (by rw [List.length_replicate]; decide),
        List.length_replicate]
      decide
  have hnone : ofUtf8 (renderError splitError) = none := by
    rw [Option.eq_none_iff_forall_ne_some]
    intro text htext
    exact hcut ((renderError_text_iff splitError).mp ⟨text, ofUtf8_eq_some_iff.mp htext⟩)
  refine ⟨_, packComplete_framed hid _ (length_renderError splitError), ?_⟩
  refine feed_refused (cut_undecodable (failureBody_le 7 splitError _) ?_)
  rw [decodeBody_failure Serde.messagePack hid true, hnone]

/-! ## Results, steps and schedules -/

open MessagePack (Value)

/-- `_LENGTH.pack(len(body)) + body`; `none` where `struct` raises. -/
def packLength (body : Bytes) : Option Bytes :=
  if body.length < 4294967296 then some (framed body) else none

/-- `encode_record`; the pack is `msgspec.msgpack.encode`. -/
def encodeRecord (id : Int) (name : String) (result : Bytes) : Option Bytes :=
  packLength (0x04 :: (Value.array [.int id, .str name, .bin result]).pack)

/-- The tuples of `as_wire`. A payload is `bytes`, which `msgspec` writes as binary. -/
def wireEntries (entries : List CronRegistration) : Value :=
  .array <| entries.map fun e => .array [.str e.name, .str e.queue, .str e.task, .str e.expression,
    .str e.timezone, .bin e.payload]

def encodeRegister (entries : List CronRegistration) : Option Bytes :=
  packLength (0x02 :: (wireEntries entries).pack)

/-- What the child writes besides failures. -/
inductive Emission where
  | success (id : Int) (result : Bytes)
  | record (id : Int) (name : String) (result : Bytes)
  | register (entries : List CronRegistration)

namespace Emission

def frame : Emission → Option Bytes
  | .success id result => encodeSuccess id result
  | .record id name result => encodeRecord id name result
  | .register entries => encodeRegister entries

def message : Emission → Message
  | .success id result => .complete id (.success result)
  | .record id name result => .record id name result
  | .register entries => .register entries

/-- The length of the body. -/
def bodyBytes : Emission → Nat
  | .success _ result => 10 + result.length
  | .record id name result => 1 + (Value.array [.int id, .str name, .bin result]).pack.length
  | .register entries => 1 + (wireEntries entries).pack.length

def body : Emission → Bytes
  | .success id result => 0x01 :: (littleEndian 8 (wrap 8 id) ++ 0x00 :: result)
  | .record id name result => 0x04 :: (Value.array [.int id, .str name, .bin result]).pack
  | .register entries => 0x02 :: (wireEntries entries).pack

theorem length_body (e : Emission) : e.body.length = e.bodyBytes := by
  cases e with
  | success id result =>
    simp [body, bodyBytes]
    omega
  | record id name result => exact Nat.add_comm _ 1
  | register entries => exact Nat.add_comm _ 1

theorem frame_eq_some_iff {e : Emission} (htyped : e.message.Typed) {bytes : Bytes} :
    e.frame = some bytes ↔ e.body.length < 4294967296 ∧ bytes = framed e.body := by
  have hpack : ∀ body, packLength body = some bytes ↔
      body.length < 4294967296 ∧ bytes = framed body := by
    intro body
    unfold packLength
    split
    · next h => simp [h, eq_comm]
    · next h => simp [h]
  cases e with
  | success id result =>
    by_cases hlen : 10 + result.length < 4294967296
    · rw [length_body, frame, encodeSuccess, packComplete_framed htyped 0x00 hlen]
      simp [bodyBytes, hlen, body, eq_comm]
    · rw [length_body, frame, encodeSuccess, packComplete, if_neg fun h => hlen h.1]
      simp [bodyBytes, hlen]
  | record id name result => exact hpack _
  | register entries => exact hpack _

end Emission

/-- `rmp_serde` reads the registrations `msgspec` writes. -/
def Serde.Agrees (serde : Serde) : Prop :=
  ∀ entries, (wireEntries entries).pack.length < 4294967296 →
    serde.register (wireEntries entries).pack = .ok entries

theorem decodeBody_emission {serde : Serde} (hagrees : serde.Agrees) {e : Emission}
    (htyped : e.message.Typed) (hfits : e.body.length < 4294967296) :
    decodeBody serde e.body = .ok e.message := by
  cases e with
  | success id result => exact decodeComplete_body htyped 0x00 result
  | record id name result =>
    have hpack := Serde.packed_eq_pack (m := .record id name result) (MessagePack.array_ne_nil _)
    have hread := serde.record_packed id name result htyped
      (by rw [hpack]; exact Nat.lt_of_succ_lt hfits)
    rw [hpack] at hread
    show unpacked (serde.record (Value.array [.int id, .str name, .bin result]).pack) _ = _
    rw [show (Value.array [.int id, .str name, .bin result]) = Serde.value (.record id name result) from rfl,
      hread]
    rfl
  | register entries =>
    have hread := hagrees entries (Nat.lt_of_succ_lt hfits)
    show unpacked (serde.register (wireEntries entries).pack) _ = _
    rw [hread]
    rfl

/-- **A result, a step or a registration is acceptable** exactly if its body is within
the limit; nothing in the child compares the two. -/
theorem emission_acceptable_iff {serde : Serde} (hagrees : serde.Agrees) {e : Emission}
    (htyped : e.message.Typed) :
    (∃ bytes, e.frame = some bytes ∧ bytes.length ≤ 4 + maxFrameBytes ∧ Reads serde bytes e.message) ↔
      e.bodyBytes ≤ maxFrameBytes := by
  have hmax : maxFrameBytes < 4294967296 := by decide
  rw [← e.length_body]
  constructor
  · intro h
    obtain ⟨bytes, hframe, hlen, -⟩ := h
    obtain ⟨-, rfl⟩ := (Emission.frame_eq_some_iff htyped).mp hframe
    rw [length_framed] at hlen
    omega
  · intro h
    have hfits : e.body.length < 4294967296 := by omega
    refine ⟨_, (Emission.frame_eq_some_iff htyped).mpr ⟨hfits, rfl⟩, ?_, ?_⟩
    · rw [length_framed]
      omega
    · exact (reads_framed_iff hfits).mpr ⟨h, decodeBody_emission hagrees htyped hfits⟩

namespace Serde

/-- `Vec<u8>`, from binary or from an array of integers. -/
def asBytes : Value → Option Bytes
  | .bin bytes => some bytes
  | .array items => items.mapM asByte
  | _ => none

def asEntry : Value → Option CronRegistration
  | .array [.str name, .str queue, .str task, .str expression, .str timezone, payload] =>
    (asBytes payload).map fun bytes => ⟨name, queue, task, expression, timezone, bytes⟩
  | _ => none

/-- The plain reader, taking both forms of a payload. -/
def lenient : Serde :=
  { messagePack with
    register := fun body => orMalformed <| do
      match ← MessagePack.unpack body with
      | .array entries => entries.mapM asEntry
      | _ => none
    register_packed := fun entries h => by
      have hunpack := unpack_packed (m := .register entries) trivial (MessagePack.array_ne_nil _) h
      have hentries : (entries.map fun e : CronRegistration => Value.array [.str e.name, .str e.queue,
          .str e.task, .str e.expression, .str e.timezone,
          .array (e.payload.map fun b => .int b.toNat)]).mapM asEntry = some entries :=
        mapM_map entries fun e => by
          rw [asEntry, asBytes, mapM_map e.payload asByte_byte]
          rfl
      rw [hunpack]
      exact congrArg orMalformed hentries }

theorem lenient_agrees : lenient.Agrees := by
  intro entries h
  have hfits : (wireEntries entries).Fits :=
    MessagePack.allFit_map entries fun _ _ => ⟨trivial, trivial, trivial, trivial, trivial, trivial, trivial⟩
  have hentries : (entries.map fun e : CronRegistration => Value.array [.str e.name, .str e.queue,
      .str e.task, .str e.expression, .str e.timezone, .bin e.payload]).mapM asEntry = some entries :=
    mapM_map entries fun _ => rfl
  show orMalformed (MessagePack.unpack (wireEntries entries).pack >>= _) = _
  rw [MessagePack.unpack_pack hfits h]
  exact congrArg orMalformed hentries

end Serde

/-- The step `charge` of job 7, with one byte for its result. -/
theorem emission_acceptable_iff_record :
    ∃ bytes, (Emission.record 7 "charge" [9]).frame = some bytes ∧ bytes.length ≤ 4 + maxFrameBytes ∧
      Reads Serde.lenient bytes (.record 7 "charge" [9]) :=
  (emission_acceptable_iff Serde.lenient_agrees (e := .record 7 "charge" [9]) (by decide)).mpr (by decide)

theorem result_refused {serde : Serde} {id : Int} (hid : InI64 id) {result : Bytes}
    (hlen : result.length = 16777216) : ∃ bytes, (Emission.success id result).frame = some bytes ∧
      (Decoder.new.feed serde [bytes]).1 = [] ∧
      (Decoder.new.feed serde [bytes]).2.1 = some (.frameTooLarge 16777226) := by
  have hbody : (Emission.success id result).body.length = 16777226 := by
    rw [Emission.length_body, Emission.bodyBytes, hlen]
  have hfits : (Emission.success id result).body.length < 4294967296 := by omega
  have hlarge : maxFrameBytes < (Emission.success id result).body.length := by
    rw [hbody]
    decide
  refine ⟨_, (Emission.frame_eq_some_iff (e := .success id result) hid).mpr ⟨hfits, rfl⟩, ?_⟩
  rw [← hbody]
  exact feed_refused (cut_oversized hfits hlarge)

/-- A task returns 16 MiB: the success is written, and the supervisor refuses it and
collects nothing more from this child. -/
theorem large_result_refused :
    ∃ bytes, (Emission.success 7 (List.replicate 16777216 0)).frame = some bytes ∧
      (Decoder.new.feed Serde.lenient [bytes]).1 = [] ∧
      (Decoder.new.feed Serde.lenient [bytes]).2.1 = some (.frameTooLarge 16777226) :=
  result_refused (by decide) List.length_replicate

end Gylo.Wire
