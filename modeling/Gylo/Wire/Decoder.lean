import Gylo.Lib.Framing
import Gylo.Wire.Protocol

/-! # The supervisor's decoder

`Decoder` collects the bytes of a socket in a buffer and takes frames off it; a
cursor marks how far it has read, and the buffer is cut back only once the
cursor has come a long way. What is buffered is the buffer from the cursor on,
and on it `next_message` does what `Framing.Prefixed` describes. -/
namespace Gylo.Wire

open Gylo.Store (Bytes InSmallint)
open Packing Framing

/-! ## The messages Rust can hold -/

def InI64 (n : Int) : Prop := -9223372036854775808 ≤ n ∧ n ≤ 9223372036854775807

instance (n : Int) : Decidable (InI64 n) := inferInstanceAs (Decidable (_ ∧ _))

/-- Ids are `i64`, attempts `i16`. -/
def Message.Typed : Message → Prop
  | .register _ => True
  | .steps id _ | .record id _ _ | .stored id _ | .complete id _ => InI64 id
  | .dispatch id attempt maxAttempts _ _ =>
    InI64 id ∧ InSmallint attempt ∧ InSmallint maxAttempts

instance : (m : Message) → Decidable m.Typed
  | .register _ => inferInstanceAs (Decidable True)
  | .steps id _ | .record id _ _ | .stored id _ | .complete id _ =>
    inferInstanceAs (Decidable (InI64 id))
  | .dispatch id attempt maxAttempts _ _ =>
    inferInstanceAs (Decidable (InI64 id ∧ InSmallint attempt ∧ InSmallint maxAttempts))

theorem unwrap_wrap_i64 {n : Int} (h : InI64 n) : unwrap 8 (wrap 8 n) = n := by
  obtain ⟨hlow, hhigh⟩ := h
  exact unwrap_wrap (show -18446744073709551616 ≤ n * 2 by omega)
    (show n * 2 < 18446744073709551616 by omega)

theorem unwrap_wrap_i16 {n : Int} (h : InSmallint n) : unwrap 2 (wrap 2 n) = n := by
  obtain ⟨hlow, hhigh⟩ := h
  exact unwrap_wrap (show -65536 ≤ n * 2 by omega) (show n * 2 < 65536 by omega)

/-! ## Bodies -/

/-- `unpack`, at the four types it is called at. Of `rmp_serde` it is assumed that it reads
the bodies that are `packed`, as long as the 32 bits of a MessagePack length suffice; it
may read more. -/
structure Serde where
  register : Bytes → Except String (List CronRegistration)
  steps : Bytes → Except String (Int × List (String × Bytes))
  record : Bytes → Except String (Int × String × Bytes)
  stored : Bytes → Except String (Int × String)
  register_packed : ∀ entries, (packed (.register entries)).length < 4294967296 →
    register (packed (.register entries)) = .ok entries
  steps_packed : ∀ id list, InI64 id → (packed (.steps id list)).length < 4294967296 →
    steps (packed (.steps id list)) = .ok (id, list)
  record_packed : ∀ id name result, InI64 id → (packed (.record id name result)).length < 4294967296 →
    record (packed (.record id name result)) = .ok (id, name, result)
  stored_packed : ∀ id name, InI64 id → (packed (.stored id name)).length < 4294967296 →
    stored (packed (.stored id name)) = .ok (id, name)

/-- `map_err` of `unpack`, and `map` of its caller. -/
def unpacked {α : Type} (read : Except String α) (f : α → Message) : Except ProtocolError Message :=
  match read with
  | .ok a => .ok (f a)
  | .error message => .error (.malformed message)

def i64At (rest : Bytes) (start : Nat) : Int := unwrap 8 (ofLittleEndian ((rest.drop start).take 8))

def i16At (rest : Bytes) (start : Nat) : Int := unwrap 2 (ofLittleEndian ((rest.drop start).take 2))

def u16At (rest : Bytes) (start : Nat) : Nat := ofLittleEndian ((rest.drop start).take 2)

/-- The `KIND_DISPATCH` arm of `decode_body`. -/
def decodeDispatch (rest : Bytes) : Except ProtocolError Message :=
  if rest.length < 14 then .error .truncated
  else
    let nameLen := u16At rest 12
    let tail := rest.drop 14
    if tail.length < nameLen then .error .truncated
    else match ofUtf8 (tail.take nameLen) with
      | none => .error (.notUtf8 "task name")
      | some task =>
        .ok (.dispatch (i64At rest 0) (i16At rest 8) (i16At rest 10) task (tail.drop nameLen))

/-- The `KIND_COMPLETE` arm of `decode_body`. -/
def decodeComplete (rest : Bytes) : Except ProtocolError Message :=
  if rest.length < 9 then .error .truncated
  else match rest.getD 8 0 with
    | 0x00 => .ok (.complete (i64At rest 0) (.success (rest.drop 9)))
    | 0x01 => match ofUtf8 (rest.drop 9) with
      | none => .error (.notUtf8 "error message")
      | some error => .ok (.complete (i64At rest 0) (.failure error true))
    | 0x02 => match ofUtf8 (rest.drop 9) with
      | none => .error (.notUtf8 "error message")
      | some error => .ok (.complete (i64At rest 0) (.failure error false))
    | other => .error (.unknownOutcome other)

def decodeBody (serde : Serde) : Bytes → Except ProtocolError Message
  | [] => .error .truncated
  | kind :: rest =>
    match kind with
    | 0x00 => decodeDispatch rest
    | 0x01 => decodeComplete rest
    | 0x02 => unpacked (serde.register rest) .register
    | 0x03 => unpacked (serde.steps rest) fun r => .steps r.1 r.2
    | 0x04 => unpacked (serde.record rest) fun r => .record r.1 r.2.1 r.2.2
    | 0x05 => unpacked (serde.stored rest) fun r => .stored r.1 r.2
    | other => .error (.unknownKind other)

/-! ## Decoding what was encoded -/

/-- A field is found at its offset. -/
theorem field_at {α : Type} (front field back : List α) {start width : Nat}
    (hstart : front.length = start) (hwidth : field.length = width) :
    ((front ++ (field ++ back)).drop start).take width = field := by
  rw [List.drop_left' hstart, List.take_left' hwidth]

theorem i64At_field {n : Int} (h : InI64 n) (front back : Bytes) {start : Nat}
    (hstart : front.length = start) :
    i64At (front ++ (littleEndian 8 (wrap 8 n) ++ back)) start = n := by
  rw [i64At, field_at front _ back hstart (length_littleEndian _ _),
    ofLittleEndian_littleEndian 8 _ (wrap_lt 8 n), unwrap_wrap_i64 h]

theorem i16At_field {n : Int} (h : InSmallint n) (front back : Bytes) {start : Nat}
    (hstart : front.length = start) :
    i16At (front ++ (littleEndian 2 (wrap 2 n) ++ back)) start = n := by
  rw [i16At, field_at front _ back hstart (length_littleEndian _ _),
    ofLittleEndian_littleEndian 2 _ (wrap_lt 2 n), unwrap_wrap_i16 h]

theorem u16At_field {n : Nat} (h : n < 65536) (front back : Bytes) {start : Nat}
    (hstart : front.length = start) :
    u16At (front ++ (littleEndian 2 n ++ back)) start = n := by
  rw [u16At, field_at front _ back hstart (length_littleEndian _ _),
    ofLittleEndian_littleEndian 2 n h]

/-- Where the fields of a dispatch are. -/
theorem dispatch_fields {id attempt maxAttempts : Int} {task : String} (payload : Bytes)
    (htyped : (Message.dispatch id attempt maxAttempts task payload).Typed)
    (hname : (utf8 task).length < 65536) :
    let bytes := body (.dispatch id attempt maxAttempts task payload)
    i64At bytes 1 = id ∧ i16At bytes 9 = attempt ∧ i16At bytes 11 = maxAttempts ∧
      u16At bytes 13 = (utf8 task).length ∧ bytes.drop 15 = utf8 task ++ payload := by
  obtain ⟨hid, hattempt, hmax⟩ := htyped
  let front : Bytes := [0x00]
  let front₁ := front ++ littleEndian 8 (wrap 8 id)
  let front₂ := front₁ ++ littleEndian 2 (wrap 2 attempt)
  let front₃ := front₂ ++ littleEndian 2 (wrap 2 maxAttempts)
  have h₁ : front₁.length = 9 := by simp [front₁, front]
  have h₂ : front₂.length = 11 := by simp [front₂, h₁]
  have h₃ : front₃.length = 13 := by simp [front₃, h₂]
  refine ⟨?_, ?_, ?_, ?_, ?_⟩
  · simpa [body, front] using i64At_field hid front _ rfl
  · simpa [body, front₁, front] using i16At_field hattempt front₁ _ h₁
  · simpa [body, front₂, front₁, front] using i16At_field hmax front₂ _ h₂
  · simpa [body, front₃, front₂, front₁, front] using u16At_field hname front₃ _ h₃
  · rw [body, List.append_assoc, List.drop_succ_cons]
    exact List.drop_left' (by simp)

theorem decodeDispatch_body {id attempt maxAttempts : Int} {task : String} (payload : Bytes)
    (htyped : (Message.dispatch id attempt maxAttempts task payload).Typed)
    (hname : (utf8 task).length < 65536) {rest : Bytes}
    (hrest : body (.dispatch id attempt maxAttempts task payload) = 0x00 :: rest) :
    decodeDispatch rest = .ok (.dispatch id attempt maxAttempts task payload) := by
  obtain ⟨hid, hattempt, hmax, hlen, htail⟩ := dispatch_fields payload htyped hname
  rw [hrest] at hid hattempt hmax hlen htail
  replace hid : i64At rest 0 = id := hid
  replace hattempt : i16At rest 8 = attempt := hattempt
  replace hmax : i16At rest 10 = maxAttempts := hmax
  replace hlen : u16At rest 12 = (utf8 task).length := hlen
  replace htail : rest.drop 14 = utf8 task ++ payload := htail
  have hshort : ¬ rest.length < 14 := by
    intro h
    have := congrArg List.length hrest
    simp only [body, List.length_cons, List.length_append, length_littleEndian] at this
    omega
  simp [decodeDispatch, hshort, hid, hattempt, hmax, hlen, htail]

theorem decodeComplete_body {id : Int} (hid : InI64 id) (code : UInt8) (text : Bytes) :
    decodeComplete (littleEndian 8 (wrap 8 id) ++ code :: text) =
      match code with
      | 0x00 => .ok (.complete id (.success text))
      | 0x01 => match ofUtf8 text with
        | none => .error (.notUtf8 "error message")
        | some error => .ok (.complete id (.failure error true))
      | 0x02 => match ofUtf8 text with
        | none => .error (.notUtf8 "error message")
        | some error => .ok (.complete id (.failure error false))
      | other => .error (.unknownOutcome other) := by
  have hidAt : i64At (littleEndian 8 (wrap 8 id) ++ code :: text) 0 = id := by
    simpa using i64At_field hid [] _ rfl
  have hcode : (littleEndian 8 (wrap 8 id) ++ code :: text).getD 8 0 = code := by
    simp [List.getD]
  have htext : (littleEndian 8 (wrap 8 id) ++ code :: text).drop 9 = text := by
    rw [← List.singleton_append, ← List.append_assoc]
    exact List.drop_left' (by simp)
  simp only [decodeComplete, hidAt, hcode, htext]
  rw [if_neg (by rw [List.length_append, length_littleEndian, List.length_cons]; omega)]

/-- **`decode_body` inverts `encode_frame`** on the messages `encode` accepts. -/
theorem decodeBody_body (serde : Serde) {m : Message} (htyped : m.Typed) (h : Accepted m) :
    decodeBody serde (body m) = .ok m := by
  have hlen := length_body_le h
  have hmax : maxFrameBytes < 4294967296 := by decide
  cases m with
  | dispatch id attempt maxAttempts task payload =>
    exact decodeDispatch_body payload htyped (accepted_dispatch.mp h).1 rfl
  | complete id outcome =>
    cases outcome with
    | success result => exact decodeComplete_body htyped 0x00 result
    | failure error retry =>
      cases retry
      · refine (decodeComplete_body htyped 0x02 (utf8 error)).trans ?_
        simp
      · refine (decodeComplete_body htyped 0x01 (utf8 error)).trans ?_
        simp
  | register entries =>
    simp only [body, List.length_cons] at hlen
    simp [decodeBody, body, unpacked, serde.register_packed entries (by omega)]
  | steps id steps =>
    simp only [body, List.length_cons] at hlen
    simp [decodeBody, body, unpacked, serde.steps_packed id steps htyped (by omega)]
  | record id name result =>
    simp only [body, List.length_cons] at hlen
    simp [decodeBody, body, unpacked, serde.record_packed id name result htyped (by omega)]
  | stored id name =>
    simp only [body, List.length_cons] at hlen
    simp [decodeBody, body, unpacked, serde.stored_packed id name htyped (by omega)]

/-! ## MessagePack bodies -/

namespace Serde

open MessagePack (Value)

/-- The value a MessagePack body holds. -/
def value : Message → Value
  | .register entries => .array <| entries.map fun e =>
      .array [.str e.name, .str e.queue, .str e.task, .str e.expression, .str e.timezone,
        .array (e.payload.map fun b => .int b.toNat)]
  | .steps id steps => .array [.int id, .array <| steps.map fun s => .array [.str s.1, .bin s.2]]
  | .record id name result => .array [.int id, .str name, .bin result]
  | .stored id name => .array [.int id, .str name]
  | .dispatch .. | .complete .. => .array []

theorem packed_eq_pack {m : Message} (h : packed m ≠ []) : packed m = (value m).pack := by
  cases m <;> simp [packed, value, Value.pack, MessagePack.packAll, MessagePack.packAll_eq_map,
    Function.comp_def] at h ⊢

theorem value_fits {m : Message} (h : m.Typed) : (value m).Fits := by
  have hi64 : ∀ {n : Int}, InI64 n → (Value.int n).Fits := fun h => ⟨h.1, by have := h.2; omega⟩
  cases m with
  | register entries =>
    refine MessagePack.allFit_map entries fun e _ => ⟨trivial, trivial, trivial, trivial, trivial, ?_,
      trivial⟩
    exact MessagePack.allFit_map e.payload fun b _ => ⟨by omega, by have := b.toNat_lt; omega⟩
  | steps id steps =>
    exact ⟨hi64 h, MessagePack.allFit_map steps fun s _ => ⟨trivial, trivial, trivial⟩, trivial⟩
  | record id name result => exact ⟨hi64 h, trivial, trivial, trivial⟩
  | stored id name => exact ⟨hi64 h, trivial, trivial⟩
  | dispatch id attempt maxAttempts task payload => trivial
  | complete id outcome => trivial

/-- A MessagePack body holds the value of its message. -/
theorem unpack_packed {m : Message} (htyped : m.Typed) (hpacked : packed m ≠ [])
    (h : (packed m).length < 4294967296) : MessagePack.unpack (packed m) = some (value m) := by
  rw [packed_eq_pack hpacked] at h ⊢
  exact MessagePack.unpack_pack (value_fits htyped) h

def asByte : Value → Option UInt8
  | .int x => if 0 ≤ x ∧ x < 256 then some (UInt8.ofNat x.toNat) else none
  | _ => none

def asRegistration : Value → Option CronRegistration
  | .array [.str name, .str queue, .str task, .str expression, .str timezone, .array payload] =>
    (payload.mapM asByte).map fun bytes => ⟨name, queue, task, expression, timezone, bytes⟩
  | _ => none

def asStep : Value → Option (String × Bytes)
  | .array [.str name, .bin result] => some (name, result)
  | _ => none

theorem mapM_map {α β : Type} {f : α → β} {g : β → Option α} : ∀ as : List α,
    (∀ a, g (f a) = some a) → (as.map f).mapM g = some as
  | [], _ => rfl
  | a :: as, h => by
    rw [List.map_cons, List.mapM_cons, h, mapM_map as h]
    rfl

theorem asByte_byte (b : UInt8) : asByte (.int b.toNat) = some b := by
  have hlt := b.toNat_lt
  have hrange : (0 : Int) ≤ (b.toNat : Int) ∧ (b.toNat : Int) < 256 := by omega
  simp [asByte, hrange]

def orMalformed {α : Type} : Option α → Except String α
  | some a => .ok a
  | none => .error "invalid type"

/-- A `Serde` made of the plain MessagePack reader. -/
def messagePack : Serde where
  register body := orMalformed <| do
    match ← MessagePack.unpack body with
    | .array entries => entries.mapM asRegistration
    | _ => none
  steps body := orMalformed <| do
    match ← MessagePack.unpack body with
    | .array [.int id, .array steps] => (steps.mapM asStep).map fun list => (id, list)
    | _ => none
  record body := orMalformed <| do
    match ← MessagePack.unpack body with
    | .array [.int id, .str name, .bin result] => some (id, name, result)
    | _ => none
  stored body := orMalformed <| do
    match ← MessagePack.unpack body with
    | .array [.int id, .str name] => some (id, name)
    | _ => none
  register_packed entries h := by
    have hunpack := unpack_packed (m := .register entries) trivial (MessagePack.array_ne_nil _) h
    have hentries := mapM_map (g := asRegistration) entries fun e => by
      rw [asRegistration, mapM_map e.payload asByte_byte]
      rfl
    rw [hunpack]
    exact congrArg orMalformed hentries
  steps_packed id list hid h := by
    have hunpack := unpack_packed (m := .steps id list) hid (MessagePack.array_ne_nil _) h
    have hlist := mapM_map (f := fun s : String × Bytes => Value.array [.str s.1, .bin s.2])
      (g := asStep) list fun _ => rfl
    rw [hunpack]
    exact congrArg (fun r => orMalformed (r.map fun list => (id, list))) hlist
  record_packed id name result hid h := by
    rw [unpack_packed (m := .record id name result) hid (MessagePack.array_ne_nil _) h]
    rfl
  stored_packed id name hid h := by
    rw [unpack_packed (m := .stored id name) hid (MessagePack.array_ne_nil _) h]
    rfl

end Serde

/-! ## The buffer -/

/-- `COMPACT_THRESHOLD`. -/
def compactThreshold : Nat := 65536

/-- Bytes read from the socket, and how many of them are done with. -/
structure Decoder where
  buf : Bytes
  pos : Nat
  bounded : pos ≤ buf.length

namespace Decoder

def new : Decoder := ⟨[], 0, Nat.le_refl 0⟩

def extend (d : Decoder) (bytes : Bytes) : Decoder :=
  ⟨d.buf ++ bytes, d.pos, by rw [List.length_append]; exact Nat.le_add_right_of_le d.bounded⟩

def buffered (d : Decoder) : Nat := d.buf.length - d.pos

/-- The bytes still to be read. -/
def view (d : Decoder) : Bytes := d.buf.drop d.pos

@[simp] theorem length_view (d : Decoder) : d.view.length = d.buffered := List.length_drop

/-- The cursor moves past a frame, and the buffer is cut back if it has come far
enough. -/
def advance (d : Decoder) (pos : Nat) (h : pos ≤ d.buf.length) : Decoder :=
  if compactThreshold ≤ pos then ⟨d.buf.drop pos, 0, Nat.zero_le _⟩ else ⟨d.buf, pos, h⟩

/-- A frame that is buffered whole ends within the buffer. -/
theorem frame_le {d : Decoder} {bodyLen : Nat} (hheader : ¬ d.buffered < 4)
    (hbody : ¬ d.buffered - 4 < bodyLen) : d.pos + 4 + bodyLen ≤ d.buf.length := by
  unfold buffered at hheader hbody
  omega

def nextMessage (serde : Serde) (d : Decoder) : Except ProtocolError (Option Message) × Decoder :=
  if hheader : d.buffered < 4 then (.ok none, d)
  else
    let bodyLen := ofLittleEndian ((d.buf.drop d.pos).take 4)
    if maxFrameBytes < bodyLen then (.error (.frameTooLarge bodyLen), d)
    else if hbody : d.buffered - 4 < bodyLen then (.ok none, d)
    else
      let bodyStart := d.pos + 4
      match decodeBody serde ((d.buf.drop bodyStart).take bodyLen) with
      | .error e => (.error e, d)
      | .ok m => (.ok (some m), d.advance (bodyStart + bodyLen) (frame_le hheader hbody))

/-- `next_message` until it returns `None` or an error. -/
def pump (serde : Serde) : Nat → Decoder → List Message × Option ProtocolError × Decoder
  | 0, d => ([], none, d)
  | n + 1, d =>
    match d.nextMessage serde with
    | (.ok none, d') => ([], none, d')
    | (.error e, d') => ([], some e, d')
    | (.ok (some m), d') =>
      let r := pump serde n d'
      (m :: r.1, r.2.1, r.2.2)

/-- The read loop: each chunk goes into the buffer, and every message it
completes comes out; an error ends it. -/
def feed (serde : Serde) : List Bytes → Decoder → List Message × Option ProtocolError × Decoder
  | [], d => ([], none, d)
  | chunk :: chunks, d =>
    match (d.extend chunk).pump serde ((d.extend chunk).buffered + 1) with
    | (ms, some e, d') => (ms, some e, d')
    | (ms, none, d') =>
      let r := feed serde chunks d'
      (ms ++ r.1, r.2.1, r.2.2)

/-! ## The decoder as a cutter -/

/-- The frames of the protocol. -/
def format (serde : Serde) : Prefixed Message ProtocolError where
  limit := maxFrameBytes
  tooLarge := .frameTooLarge
  decode := decodeBody serde

theorem view_extend (d : Decoder) (bytes : Bytes) : (d.extend bytes).view = d.view ++ bytes :=
  List.drop_append_of_le_length d.bounded

/-- Compaction does not change what is buffered. -/
theorem view_advance (d : Decoder) (pos : Nat) (h : pos ≤ d.buf.length) :
    (d.advance pos h).view = d.buf.drop pos := by
  unfold advance
  split <;> simp [view]

/-- A call of `next_message` is one look at the front of the stream. -/
theorem nextMessage_eq (serde : Serde) (d : Decoder) :
    match (format serde).cut d.view with
    | .more => d.nextMessage serde = (.ok none, d)
    | .bad e => d.nextMessage serde = (.error e, d)
    | .item m rest => ∃ d', d.nextMessage serde = (.ok (some m), d') ∧ d'.view = rest := by
  have hlen : Prefixed.bodyLen d.view = ofLittleEndian ((d.buf.drop d.pos).take 4) := rfl
  unfold nextMessage Prefixed.cut
  rw [length_view, ← hlen]
  by_cases hheader : d.buffered < 4
  · simp [hheader]
  by_cases hlarge : maxFrameBytes < Prefixed.bodyLen d.view
  · simp [hheader, hlarge, format]
  by_cases hbody : d.buffered - 4 < Prefixed.bodyLen d.view
  · simp [hheader, hlarge, hbody, format]
  have hdrop : d.view.drop 4 = d.buf.drop (d.pos + 4) := List.drop_drop
  have hrest : d.view.drop (4 + Prefixed.bodyLen d.view) =
      d.buf.drop (d.pos + 4 + Prefixed.bodyLen d.view) := by
    rw [view, List.drop_drop, Nat.add_assoc]
  simp only [hheader, hlarge, hbody, format, if_false, dif_neg, not_false_eq_true, hdrop, hrest]
  cases decodeBody serde ((d.buf.drop (d.pos + 4)).take (Prefixed.bodyLen d.view)) with
  | error e => rfl
  | ok m => exact ⟨_, rfl, view_advance d _ _⟩

/-- A call that returns no message leaves the decoder as it was. -/
theorem nextMessage_cases (serde : Serde) (d : Decoder) :
    (d.nextMessage serde = (.ok none, d) ∧ (format serde).cut d.view = .more) ∨
    (∃ e, d.nextMessage serde = (.error e, d) ∧ (format serde).cut d.view = .bad e) ∨
    ∃ m d', d.nextMessage serde = (.ok (some m), d') ∧ (format serde).cut d.view = .item m d'.view := by
  have hnext := d.nextMessage_eq serde
  cases hcut : (format serde).cut d.view with
  | more =>
    rw [hcut] at hnext
    exact .inl ⟨hnext, rfl⟩
  | bad e =>
    rw [hcut] at hnext
    exact .inr (.inl ⟨e, hnext, rfl⟩)
  | item m rest =>
    rw [hcut] at hnext
    obtain ⟨d', hnext, hview⟩ := hnext
    exact .inr (.inr ⟨m, d', hnext, by rw [hview]⟩)

/-- What the decoder returns and keeps is what these frames say. -/
def Yields (r : List Message × Option ProtocolError × Decoder)
    (f : Frames UInt8 Message ProtocolError) : Prop :=
  r.1 = f.items ∧ r.2.1 = f.error ∧ r.2.2.view = f.rest

theorem pump_yields (serde : Serde) (n : Nat) (d : Decoder) (h : d.buffered < n) :
    Yields (d.pump serde n) ((format serde).cutter.frames d.view) := by
  induction n generalizing d with
  | zero => omega
  | succ n ih =>
    unfold pump
    rcases d.nextMessage_cases serde with ⟨hnext, hcut⟩ | ⟨e, hnext, hcut⟩ | ⟨m, d', hnext, hcut⟩
    · rw [hnext, Cutter.frames_more hcut]
      exact ⟨rfl, rfl, rfl⟩
    · rw [hnext, Cutter.frames_bad hcut]
      exact ⟨rfl, rfl, rfl⟩
    · have hshorter := (format serde).shorter hcut
      rw [length_view, length_view] at hshorter
      obtain ⟨hitems, herror, hrest⟩ := ih d' (by omega)
      rw [hnext, Cutter.frames_item hcut]
      exact ⟨congrArg (m :: ·) hitems, herror, hrest⟩

theorem feed_yields (serde : Serde) (chunks : List Bytes) (d : Decoder) :
    Yields (d.feed serde chunks) ((format serde).cutter.feed chunks d.view) := by
  induction chunks generalizing d with
  | nil => exact ⟨rfl, rfl, rfl⟩
  | cons chunk chunks ih =>
    obtain ⟨hitems, herror, hrest⟩ :=
      pump_yields serde ((d.extend chunk).buffered + 1) (d.extend chunk) (Nat.lt_succ_self _)
    rw [view_extend] at hitems herror hrest
    unfold feed Cutter.feed
    generalize (d.extend chunk).pump serde ((d.extend chunk).buffered + 1) = r at *
    obtain ⟨ms, error, d'⟩ := r
    simp only at hitems herror hrest
    cases error with
    | some e => rw [← herror]; exact ⟨hitems, rfl, hrest⟩
    | none =>
      obtain ⟨hitems', herror', hrest'⟩ := ih d'
      rw [hrest] at hitems' herror' hrest'
      rw [← herror]
      exact ⟨by simp [Frames.before, hitems, hitems'], herror', hrest'⟩

end Decoder

/-! ## A batch on the wire -/

/-- One message after the other is appended to the buffer: the messages `encode`
took, and the buffer. -/
def encodeAll : List Message → Bytes → List Message × Bytes
  | [], out => ([], out)
  | m :: ms, out =>
    match encode m out with
    | (out', .ok ()) =>
      let r := encodeAll ms out'
      (m :: r.1, r.2)
    | (out', .error _) => encodeAll ms out'

def frame (m : Message) : Bytes := littleEndian 4 (body m).length ++ body m

/-- The buffer holds the frames of the messages that went in, and nothing else. -/
theorem encodeAll_eq (ms : List Message) (out : Bytes) :
    encodeAll ms out = (ms.filter Accepted, out ++ (ms.filter Accepted).flatMap frame) := by
  induction ms generalizing out with
  | nil => simp [encodeAll]
  | cons m ms ih =>
    unfold encodeAll
    rcases encode_eq m out with hok | herr
    · obtain ⟨heq, hm⟩ := hok
      simp [heq, ih, hm, frame]
    · obtain ⟨e, heq, hm⟩ := herr
      simp [heq, ih, hm]

/-- A frame `encode` wrote is the first thing the decoder finds. -/
theorem cut_frame_of_accepted (serde : Serde) {m : Message} (htyped : m.Typed) (h : Accepted m)
    (rest : Bytes) : (Decoder.format serde).cutter.cut (frame m ++ rest) = .item m rest := by
  have hlimit := length_body_le h
  have hmax : maxFrameBytes < 4294967296 := by decide
  rw [Prefixed.cutter_cut]
  exact Prefixed.cut_frame hlimit (by omega) (decodeBody_body serde htyped h) rest

/-- **A batch survives the wire, however the stream is cut up**: what comes out is
what `encode` took, in order, and nothing stays behind. -/
theorem batch_survives_chunking (serde : Serde) (ms : List Message) (htyped : ∀ m ∈ ms, m.Typed)
    (chunks : List Bytes) (hchunks : chunks.flatten = (encodeAll ms []).2) :
    (Decoder.new.feed serde chunks).1 = (encodeAll ms []).1 ∧
    (Decoder.new.feed serde chunks).2.1 = none ∧
    (Decoder.new.feed serde chunks).2.2.buffered = 0 := by
  obtain ⟨hitems, herror, hrest⟩ := Decoder.feed_yields serde chunks Decoder.new
  have hframes : (Decoder.format serde).cutter.frames ((ms.filter Accepted).flatMap frame) =
      ⟨(ms.filter Accepted).map id, [], none⟩ := by
    refine Cutter.frames_flatMap _ (Prefixed.cutter_nil _) (ms.filter Accepted) fun m hm rest => ?_
    obtain ⟨hmem, haccepted⟩ := List.mem_filter.mp hm
    rw [decide_eq_true_eq] at haccepted
    exact cut_frame_of_accepted serde (htyped m hmem) haccepted rest
  rw [encodeAll_eq] at hchunks ⊢
  replace hchunks : [] ++ chunks.flatten = (ms.filter Accepted).flatMap frame := hchunks
  have hfeed : (Decoder.format serde).cutter.feed chunks Decoder.new.view =
      ⟨(ms.filter Accepted).map id, [], none⟩ := by
    refine (Cutter.feed_eq_frames _ chunks [] (Prefixed.cutter_nil _) ?_).trans ?_
    · rw [hchunks, hframes]
    · rw [hchunks, hframes]
  rw [hfeed] at hitems herror hrest
  refine ⟨by simpa using hitems, herror, ?_⟩
  rw [← Decoder.length_view, hrest]
  rfl

/-- A dispatch and an acknowledgement, with the first header and the second body
cut in two. -/
theorem batch_survives_chunking_split :
    (Decoder.new.feed Serde.messagePack
      [[17, 0], [0, 0, 0, 7, 0, 0, 0, 0, 0, 0, 0, 1, 0, 3, 0, 1, 0, 116, 9, 7, 0, 0, 0, 5, 0x92],
        [7, 0xa3, 112, 97, 121]]).1 =
      [.dispatch 7 1 3 "t" [9], .stored 7 "pay"] :=
  (batch_survives_chunking Serde.messagePack [.dispatch 7 1 3 "t" [9], .stored 7 "pay"] (by decide)
    [[17, 0], [0, 0, 0, 7, 0, 0, 0, 0, 0, 0, 0, 1, 0, 3, 0, 1, 0, 116, 9, 7, 0, 0, 0, 5, 0x92],
      [7, 0xa3, 112, 97, 121]] (by decide)).1

end Gylo.Wire
