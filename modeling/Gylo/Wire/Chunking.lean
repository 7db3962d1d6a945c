import Gylo.Lib.Runs
import Gylo.Wire.Decoder

/-! # The decoder on arbitrary bytes

What the decoder returns depends on the bytes it was fed and not on how they
were cut into chunks, also when they are no frames: the messages up to the first
error come out, then that error, again at every later call. Nothing makes it
panic. To say so the decoder is modelled a second time, as `RawDecoder`, with
every slice, index and subtraction of the source checked: `none` is a panic. A
`Vec` holds at most `isize::MAX` bytes, so the sums of the source do not wrap. -/
namespace Gylo.Wire

open Gylo.Store (Bytes)
open Packing Framing Runs

/-! ## A run that reads on after an error -/

namespace Decoder

/-- Each chunk goes into the buffer and `next_message` is called until it
returns `None` or an error: the messages, the first error, and the decoder. -/
def feedAll (serde : Serde) : List Bytes → Decoder → List Message × Option ProtocolError × Decoder
  | [], d => ([], none, d)
  | chunk :: chunks, d =>
    let r := (d.extend chunk).pump serde ((d.extend chunk).buffered + 1)
    let r' := feedAll serde chunks r.2.2
    (r.1 ++ r'.1, r.2.1.or r'.2.1, r'.2.2)

/-- A run from a decoder that holds no whole frame finds the frames of the
stream; an error the decoder was stuck at already is the first one. -/
theorem feedAll_frames (serde : Serde) (chunks : List Bytes) (d : Decoder)
    (hitems : ((format serde).cutter.frames d.view).items = []) :
    (d.feedAll serde chunks).1 = ((format serde).cutter.frames (d.view ++ chunks.flatten)).items ∧
    ((format serde).cutter.frames d.view).error.or (d.feedAll serde chunks).2.1 =
      ((format serde).cutter.frames (d.view ++ chunks.flatten)).error := by
  induction chunks generalizing d with
  | nil => simp [feedAll, hitems]
  | cons chunk chunks ih =>
    obtain ⟨hms, herror, hrest⟩ :=
      pump_yields serde ((d.extend chunk).buffered + 1) (d.extend chunk) (Nat.lt_succ_self _)
    rw [view_extend] at hms herror hrest
    unfold feedAll
    generalize (d.extend chunk).pump serde ((d.extend chunk).buffered + 1) = r at *
    obtain ⟨ms, error, d'⟩ := r
    simp only at hms herror hrest ⊢
    have hframes := (format serde).cutter.frames_rest (d.view ++ chunk)
    obtain ⟨hms', herror'⟩ := ih d' (by rw [hrest, hframes])
    rw [hrest] at hms' herror'
    rw [hframes] at herror'
    simp only [← herror] at herror'
    rw [List.flatten_cons, ← List.append_assoc, Cutter.frames_resume]
    refine ⟨by rw [hms, hms']; rfl, ?_⟩
    -- an error found before this chunk is the one found with it
    refine Eq.trans ?_ herror'
    cases hbefore : ((format serde).cutter.frames d.view).error with
    | none => rfl
    | some e =>
      rw [herror, Cutter.error_append _ hbefore]
      rfl

/-- The loop ends where the source's does: one more call returns `None`, or the
error it stopped at. -/
theorem pump_drained (serde : Serde) (n : Nat) (d : Decoder) (h : d.buffered < n) :
    ((d.pump serde n).2.2.nextMessage serde).1 =
      match (d.pump serde n).2.1 with
      | none => .ok none
      | some e => .error e := by
  induction n generalizing d with
  | zero => omega
  | succ n ih =>
    unfold pump
    rcases d.nextMessage_cases serde with ⟨hnext, -⟩ | ⟨e, hnext, -⟩ | ⟨m, d', hnext, hcut⟩
    · simp only [hnext]
    · simp only [hnext]
    · have hshorter := (format serde).shorter hcut
      rw [length_view, length_view] at hshorter
      simp only [hnext]
      exact ih d' (by omega)

/-- What a new decoder returns for a stream in chunks. -/
theorem feedAll_new (serde : Serde) (chunks : List Bytes) :
    (new.feedAll serde chunks).1 = ((format serde).cutter.frames chunks.flatten).items ∧
    (new.feedAll serde chunks).2.1 = ((format serde).cutter.frames chunks.flatten).error := by
  have hnew : (format serde).cutter.frames new.view = ⟨[], [], none⟩ :=
    Cutter.frames_more (Prefixed.cutter_nil _)
  obtain ⟨hms, herror⟩ := feedAll_frames serde chunks new (by rw [hnew])
  rw [hnew] at herror
  exact ⟨hms, herror⟩

/-! ## Calls in any order -/

/-- What a caller does with a decoder. -/
inductive Call where
  | extend (bytes : Bytes)
  | nextMessage

def call (serde : Serde) (d : Decoder) : Call → Decoder
  | .extend bytes => d.extend bytes
  | .nextMessage => (d.nextMessage serde).2

/-- A call fails exactly if what is buffered begins with no frame. -/
theorem nextMessage_error_iff {serde : Serde} {d : Decoder} {e : ProtocolError} :
    d.nextMessage serde = (.error e, d) ↔ (format serde).cut d.view = .bad e := by
  rcases d.nextMessage_cases serde with ⟨hnext, hcut⟩ | ⟨e', hnext, hcut⟩ | ⟨m, d', hnext, hcut⟩
  · rw [hnext, hcut]
    exact ⟨(fun h => by cases h), fun h => by cases h⟩
  · rw [hnext, hcut]
    exact ⟨(fun h => by cases h; rfl), fun h => by cases h; rfl⟩
  · rw [hnext, hcut]
    exact ⟨(fun h => by cases h), fun h => by cases h⟩

/-- A decoder at an error stays there. -/
theorem call_error {serde : Serde} {d : Decoder} {e : ProtocolError}
    (h : d.nextMessage serde = (.error e, d)) (a : Call) :
    (d.call serde a).nextMessage serde = (.error e, d.call serde a) := by
  cases a with
  | extend bytes =>
    rw [nextMessage_error_iff] at h ⊢
    show (format serde).cut (d.extend bytes).view = .bad e
    rw [view_extend]
    exact (format serde).cutter.bad_append h bytes
  | nextMessage =>
    have hsame : d.call serde .nextMessage = d := by rw [call, h]
    rw [hsame]
    exact h

theorem calls_error {serde : Serde} {d d' : Decoder} {e : ProtocolError}
    (h : d.nextMessage serde = (.error e, d')) (calls : List Call) :
    (run (call serde) d' calls).nextMessage serde = (.error e, run (call serde) d' calls) := by
  have hstart : d'.nextMessage serde = (.error e, d') := by
    rcases d.nextMessage_cases serde with ⟨hnext, -⟩ | ⟨e', hnext, -⟩ | ⟨m, d'', hnext, -⟩
    · rw [hnext] at h; cases h
    · rw [hnext] at h; cases h; exact hnext
    · rw [hnext] at h; cases h
  exact run_inv (I := fun d : Decoder => d.nextMessage serde = (.error e, d)) (fun _ a h => call_error h a)
    calls hstart

end Decoder

/-! ## Slices that may be out of bounds -/

/-- `&bytes[start..stop]`. -/
def slice (bytes : Bytes) (start stop : Nat) : Option Bytes :=
  if start ≤ stop ∧ stop ≤ bytes.length then some ((bytes.drop start).take (stop - start)) else none

/-- `.try_into().expect("slice is n long")`. -/
def exactly (n : Nat) (bytes : Bytes) : Option Bytes := if bytes.length = n then some bytes else none

/-- A subtraction of `usize`. -/
def minus (a b : Nat) : Option Nat := if b ≤ a then some (a - b) else none

theorem slice_eq {bytes : Bytes} {start stop : Nat} (h : start ≤ stop) (hstop : stop ≤ bytes.length) :
    slice bytes start stop = some ((bytes.drop start).take (stop - start)) := if_pos ⟨h, hstop⟩

theorem slice_from {bytes : Bytes} {start : Nat} (h : start ≤ bytes.length) :
    slice bytes start bytes.length = some (bytes.drop start) := by
  rw [slice_eq h (Nat.le_refl _), List.take_of_length_le (by rw [List.length_drop])]

/-- A field of fixed width. -/
def field (bytes : Bytes) (start width : Nat) : Option Bytes :=
  slice bytes start (start + width) >>= exactly width

theorem field_eq {bytes : Bytes} {start width : Nat} (h : start + width ≤ bytes.length) :
    field bytes start width = some ((bytes.drop start).take width) := by
  rw [field, slice_eq (Nat.le_add_right _ _) h, Nat.add_sub_cancel_left]
  exact if_pos (by rw [List.length_take, List.length_drop]; omega)

theorem minus_eq {a b : Nat} (h : b ≤ a) : minus a b = some (a - b) := if_pos h

/-! ## The source with its checks -/

/-- The `KIND_DISPATCH` arm of `decode_body`, slice by slice. -/
def sliceDispatch (rest : Bytes) : Option (Except ProtocolError Message) :=
  if rest.length < 14 then some (.error .truncated)
  else do
    let id ← field rest 0 8
    let attempt ← field rest 8 2
    let maxAttempts ← field rest 10 2
    let nameLen := ofLittleEndian (← field rest 12 2)
    let tail ← slice rest 14 rest.length
    if tail.length < nameLen then some (.error .truncated)
    else
      match ofUtf8 (← slice tail 0 nameLen) with
      | none => some (.error (.notUtf8 "task name"))
      | some task =>
        let payload ← slice tail nameLen tail.length
        some (.ok (.dispatch (unwrap 8 (ofLittleEndian id)) (unwrap 2 (ofLittleEndian attempt))
          (unwrap 2 (ofLittleEndian maxAttempts)) task payload))

/-- The `KIND_COMPLETE` arm of `decode_body`, slice by slice. -/
def sliceComplete (rest : Bytes) : Option (Except ProtocolError Message) :=
  if rest.length < 9 then some (.error .truncated)
  else do
    let id := unwrap 8 (ofLittleEndian (← field rest 0 8))
    match ← rest[8]? with
    | 0x00 => some (.ok (.complete id (.success (← slice rest 9 rest.length))))
    | 0x01 => match ofUtf8 (← slice rest 9 rest.length) with
      | none => some (.error (.notUtf8 "error message"))
      | some error => some (.ok (.complete id (.failure error true)))
    | 0x02 => match ofUtf8 (← slice rest 9 rest.length) with
      | none => some (.error (.notUtf8 "error message"))
      | some error => some (.ok (.complete id (.failure error false)))
    | other => some (.error (.unknownOutcome other))

/-- `decode_body`; the MessagePack kinds take no slice of their own. -/
def sliceBody (serde : Serde) : Bytes → Option (Except ProtocolError Message)
  | 0x00 :: rest => sliceDispatch rest
  | 0x01 :: rest => sliceComplete rest
  | body => some (decodeBody serde body)

theorem sliceDispatch_eq (rest : Bytes) : sliceDispatch rest = some (decodeDispatch rest) := by
  unfold sliceDispatch decodeDispatch
  split
  · rfl
  · next hlen =>
    simp only [field_eq (show 0 + 8 ≤ rest.length by omega), field_eq (show 8 + 2 ≤ rest.length by omega),
      field_eq (show 10 + 2 ≤ rest.length by omega), field_eq (show 12 + 2 ≤ rest.length by omega),
      slice_from (show 14 ≤ rest.length by omega), Option.bind_eq_bind, Option.bind_some]
    show _ = some (if (rest.drop 14).length < u16At rest 12 then _ else _)
    unfold u16At
    split
    · rfl
    · next hname =>
      simp only [slice_eq (Nat.zero_le _) (Nat.not_lt.mp hname), slice_from (Nat.not_lt.mp hname),
        Option.bind_some]
      show (match ofUtf8 ((rest.drop 14).take _) with | none => _ | some task => _) = _
      cases ofUtf8 ((rest.drop 14).take (ofLittleEndian ((rest.drop 12).take 2))) <;> rfl

theorem sliceComplete_eq (rest : Bytes) : sliceComplete rest = some (decodeComplete rest) := by
  unfold sliceComplete decodeComplete
  split
  · rfl
  · next hlen =>
    have hcode : rest[8]? = some (rest.getD 8 0) := by
      rw [List.getElem?_eq_getElem (show 8 < rest.length by omega), List.getD_eq_getElem?_getD,
        List.getElem?_eq_getElem (show 8 < rest.length by omega)]
      rfl
    simp only [field_eq (show 0 + 8 ≤ rest.length by omega), hcode,
      slice_from (show 9 ≤ rest.length by omega), Option.bind_eq_bind, Option.bind_some]
    show _ = some (match rest.getD 8 0 with | 0x00 => _ | 0x01 => _ | 0x02 => _ | other => _)
    split
    · rfl
    · cases ofUtf8 (rest.drop 9) <;> rfl
    · cases ofUtf8 (rest.drop 9) <;> rfl
    · rfl

theorem sliceBody_eq (serde : Serde) (body : Bytes) :
    sliceBody serde body = some (decodeBody serde body) := by
  unfold sliceBody
  split
  · exact sliceDispatch_eq _
  · exact sliceComplete_eq _
  · rfl

/-- A decoder as the source declares it; nothing ties the cursor to the buffer. -/
structure RawDecoder where
  buf : Bytes
  pos : Nat
deriving DecidableEq

namespace RawDecoder

def new : RawDecoder := ⟨[], 0⟩

def extend (d : RawDecoder) (bytes : Bytes) : RawDecoder := ⟨d.buf ++ bytes, d.pos⟩

def buffered (d : RawDecoder) : Option Nat := minus d.buf.length d.pos

/-- `buf.drain(..pos)`, once the cursor has come far enough. -/
def advance (d : RawDecoder) (pos : Nat) : Option RawDecoder :=
  if compactThreshold ≤ pos then (slice d.buf pos d.buf.length).map fun buf => ⟨buf, 0⟩
  else some ⟨d.buf, pos⟩

def nextMessage (serde : Serde) (d : RawDecoder) :
    Option (Except ProtocolError (Option Message) × RawDecoder) := do
  if (← d.buffered) < 4 then some (.ok none, d)
  else
    let bodyLen := ofLittleEndian (← field d.buf d.pos 4)
    if maxFrameBytes < bodyLen then some (.error (.frameTooLarge bodyLen), d)
    else if (← minus (← d.buffered) 4) < bodyLen then some (.ok none, d)
    else
      let bodyStart := d.pos + 4
      match ← sliceBody serde (← slice d.buf bodyStart (bodyStart + bodyLen)) with
      | .error e => some (.error e, d)
      | .ok m => (d.advance (bodyStart + bodyLen)).map fun d' => (.ok (some m), d')

def call (serde : Serde) (d : RawDecoder) : Decoder.Call → Option RawDecoder
  | .extend bytes => some (d.extend bytes)
  | .nextMessage => (d.nextMessage serde).map Prod.snd

end RawDecoder

/-! ## No panic -/

namespace Decoder

/-- The fields, without the bound. -/
def raw (d : Decoder) : RawDecoder := ⟨d.buf, d.pos⟩

theorem raw_buffered (d : Decoder) : d.raw.buffered = some d.buffered := minus_eq d.bounded

theorem raw_advance (d : Decoder) (pos : Nat) (h : pos ≤ d.buf.length) :
    d.raw.advance pos = some (d.advance pos h).raw := by
  unfold RawDecoder.advance advance
  split
  · rw [show d.raw.buf = d.buf from rfl, slice_from h]
    rfl
  · rfl

/-- **Every check passes**, and the checked decoder does what the other one does. -/
theorem raw_nextMessage (serde : Serde) (d : Decoder) :
    d.raw.nextMessage serde = some ((d.nextMessage serde).1, (d.nextMessage serde).2.raw) := by
  unfold RawDecoder.nextMessage nextMessage
  simp only [raw_buffered, Option.bind_eq_bind, Option.bind_some]
  by_cases hheader : d.buffered < 4
  · simp only [hheader, if_true, dif_pos]
  have hfield : field d.raw.buf d.raw.pos 4 = some ((d.buf.drop d.pos).take 4) := by
    refine field_eq ?_
    have := d.bounded
    unfold buffered at hheader
    show d.pos + 4 ≤ d.buf.length
    omega
  simp only [hheader, if_false, dif_neg, not_false_eq_true, hfield, Option.bind_some,
    minus_eq (Nat.not_lt.mp hheader)]
  generalize ofLittleEndian ((d.buf.drop d.pos).take 4) = bodyLen
  by_cases hlarge : maxFrameBytes < bodyLen
  · simp only [hlarge, if_true]
  by_cases hbody : d.buffered - 4 < bodyLen
  · simp only [hlarge, hbody, if_false, if_true, dif_pos]
  have hframe := frame_le hheader hbody
  have hslice : slice d.raw.buf (d.raw.pos + 4) (d.raw.pos + 4 + bodyLen) =
      some ((d.buf.drop (d.pos + 4)).take bodyLen) := by
    refine (slice_eq (Nat.le_add_right _ _) hframe).trans ?_
    rw [Nat.add_sub_cancel_left]
  simp only [hlarge, hbody, if_false, dif_neg, not_false_eq_true, hslice, sliceBody_eq,
    Option.bind_some]
  cases decodeBody serde ((d.buf.drop (d.pos + 4)).take bodyLen) with
  | error e => rfl
  | ok m =>
    show Option.map _ (d.raw.advance (d.pos + 4 + bodyLen)) = _
    rw [raw_advance d _ hframe, Option.map_some]

theorem raw_call (serde : Serde) (d : Decoder) (a : Call) :
    d.raw.call serde a = some (d.call serde a).raw := by
  cases a with
  | extend bytes => rfl
  | nextMessage =>
    rw [RawDecoder.call, raw_nextMessage]
    rfl

theorem raw_calls (serde : Serde) (calls : List Call) (d : Decoder) :
    calls.foldlM (RawDecoder.call serde) d.raw = some (run (call serde) d calls).raw := by
  induction calls generalizing d with
  | nil => rfl
  | cons a calls ih =>
    rw [List.foldlM_cons, raw_call]
    exact ih (d.call serde a)

/-- **Chunking, errors and bounds.** For arbitrary bytes: two ways of cutting a
stream into chunks give the same messages and the same first error, where after
each chunk the decoder was called until it returned `None` or an error; a call
that failed fails the same way ever after, whatever is fed and called in
between; and in every run of calls of the decoder as the source declares it, no
slice, index or subtraction is out of range, the cursor stays within the buffer,
and the next call returns what the model returns. -/
theorem arbitrary_bytes (serde : Serde) :
    (∀ chunks₁ chunks₂ : List Bytes, chunks₁.flatten = chunks₂.flatten →
      (new.feedAll serde chunks₁).1 = (new.feedAll serde chunks₂).1 ∧
      (new.feedAll serde chunks₁).2.1 = (new.feedAll serde chunks₂).2.1) ∧
    (∀ d : Decoder, ((d.pump serde (d.buffered + 1)).2.2.nextMessage serde).1 =
      match (d.pump serde (d.buffered + 1)).2.1 with
      | none => .ok none
      | some e => .error e) ∧
    (∀ (d d' : Decoder) (e : ProtocolError), d.nextMessage serde = (.error e, d') →
      ∀ calls, ((run (call serde) d' calls).nextMessage serde).1 = .error e) ∧
    ∀ calls, ∃ d : Decoder, d = run (call serde) new calls ∧
      calls.foldlM (RawDecoder.call serde) RawDecoder.new = some d.raw ∧
      d.raw.pos ≤ d.raw.buf.length ∧
      d.raw.nextMessage serde = some ((d.nextMessage serde).1, (d.nextMessage serde).2.raw) := by
  refine ⟨fun chunks₁ chunks₂ hflat => ?_, fun d => pump_drained serde _ d (Nat.lt_succ_self _),
    fun d d' e h calls => ?_, fun calls => ?_⟩
  · obtain ⟨hms₁, herror₁⟩ := feedAll_new serde chunks₁
    obtain ⟨hms₂, herror₂⟩ := feedAll_new serde chunks₂
    rw [hms₁, hms₂, herror₁, herror₂, hflat]
    exact ⟨rfl, rfl⟩
  · rw [calls_error h calls]
  · exact ⟨_, rfl, raw_calls serde calls new, (run (call serde) new calls).bounded,
      raw_nextMessage serde _⟩

/-- An acknowledgement and a frame of an unknown kind, whole and cut up. -/
theorem arbitrary_bytes_unknown_kind :
    (new.feedAll Serde.messagePack [[7, 0, 0, 0, 5, 0x92, 7, 0xa3, 112, 97, 121, 1, 0, 0, 0, 9, 0]]).1 =
        [.stored 7 "pay"] ∧
      (new.feedAll Serde.messagePack
        [[7, 0, 0], [0, 5, 0x92, 7, 0xa3, 112, 97], [121, 1, 0, 0], [0, 9], [0]]).1 = [.stored 7 "pay"] := by
  have hwhole : (new.feedAll Serde.messagePack
      [[7, 0, 0, 0, 5, 0x92, 7, 0xa3, 112, 97, 121, 1, 0, 0, 0, 9, 0]]).1 = [.stored 7 "pay"] := by
    decide
  have hchunks := (arbitrary_bytes Serde.messagePack).1
    [[7, 0, 0, 0, 5, 0x92, 7, 0xa3, 112, 97, 121, 1, 0, 0, 0, 9, 0]]
    [[7, 0, 0], [0, 5, 0x92, 7, 0xa3, 112, 97], [121, 1, 0, 0], [0, 9], [0]] (by decide)
  exact ⟨hwhole, hchunks.1.symm.trans hwhole⟩

end Decoder

end Gylo.Wire
