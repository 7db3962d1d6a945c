import Gylo.Wire.Decoder

/-! # The child's decoder

The child reads the same frames with a decoder of its own, written in Python: a
`bytearray` that `drain` walks with a position, and cuts back once, at the end.
An exception leaves the buffer as it was. MessagePack bodies go through
`msgspec` without a type, so what a `Steps` or `Stored` holds is whatever value
was sent. -/
namespace Gylo.Wire.Child

open Gylo.Store (Bytes InSmallint)
open Packing Framing
open Packing.MessagePack (Value)

/-- What can be raised on the way. -/
inductive Raised where
  | protocolError (text : String)
  | indexError
  | typeError
  | unicodeDecodeError
  | decodeError
deriving DecidableEq

/-- `msgspec.msgpack.decode`, of which it is assumed that it reads arrays, strings, integers
and binaries in their shortest form. -/
structure Msgspec where
  decode : Bytes → Except Raised Value
  decode_pack : ∀ v : Value, v.Fits → v.pack.length < 4294967296 → decode v.pack = .ok v

/-- `Dispatch`, `Steps` and `Stored`. -/
inductive Received where
  | dispatch (id attempt maxAttempts : Int) (task : String) (payload : Bytes)
  | steps (id : Value) (steps : List (List Value))
  | stored (id name : Value)

/-! ## Python values -/

/-- Iterating over a value: an array gives its items, a text its characters, a
binary its bytes. -/
def iterate : Value → Except Raised (List Value)
  | .array items => .ok items
  | .str text => .ok (text.toList.map fun c => .str (String.singleton c))
  | .bin bytes => .ok (bytes.map fun b => .int b.toNat)
  | .int _ => .error .typeError

/-- `v[i]`. -/
def item (v : Value) (i : Nat) : Except Raised Value := do
  match (← iterate v)[i]? with
  | some u => .ok u
  | none => .error .indexError

/-- `buf[a:b]`. -/
def slice (buf : Bytes) (a b : Nat) : Bytes := (buf.take b).drop a

/-! ## Draining -/

/-- `Steps(id=unpacked[0], steps=[tuple(s) for s in unpacked[1]])`. -/
def stepsOf (unpacked : Value) : Except Raised Received := do
  let id ← item unpacked 0
  let steps ← iterate (← item unpacked 1)
  .ok (.steps id (← steps.mapM iterate))

/-- `Stored(id=unpacked[0], name=unpacked[1])`. -/
def storedOf (unpacked : Value) : Except Raised Received := do
  let id ← item unpacked 0
  .ok (.stored id (← item unpacked 1))

/-- The body of the loop in `drain`, for the frame whose body is at `body`. -/
def receive (msgspec : Msgspec) (buf : Bytes) (body bodyLen : Nat) : Except Raised Received :=
  match buf[body]? with
  | none => .error .indexError
  | some kind =>
    if kind = 0x03 ∨ kind = 0x05 then do
      let unpacked ← msgspec.decode (slice buf (body + 1) (body + bodyLen))
      if kind = 0x03 then stepsOf unpacked else storedOf unpacked
    else if kind ≠ 0x00 then .error (.protocolError ("unexpected message kind " ++ hexByte kind))
    else if bodyLen < 15 then .error (.protocolError "frame body is truncated")
    else
      let nameAt := body + 15
      let payloadAt := nameAt + u16At buf (body + 1 + 12)
      if body + bodyLen < payloadAt then .error (.protocolError "frame body is truncated")
      else match ofUtf8 (slice buf nameAt payloadAt) with
        | none => .error .unicodeDecodeError
        | some task =>
          .ok (.dispatch (i64At buf (body + 1)) (i16At buf (body + 1 + 8)) (i16At buf (body + 1 + 10))
            task (slice buf payloadAt (body + bodyLen)))

/-- The loop in `drain` from a position on, at most `n` times round. -/
def drainFrom (msgspec : Msgspec) (buf : Bytes) : Nat → Nat → Except Raised (List Received × Nat)
  | 0, pos => .ok ([], pos)
  | n + 1, pos =>
    if buf.length - pos < 4 then .ok ([], pos)
    else
      let bodyLen := ofLittleEndian ((buf.drop pos).take 4)
      if maxFrameBytes < bodyLen then
        .error (.protocolError ("frame body of " ++ toString bodyLen ++
          " bytes exceeds the 16777216 byte limit"))
      else if buf.length - pos - 4 < bodyLen then .ok ([], pos)
      else do
        let m ← receive msgspec buf (pos + 4) bodyLen
        let (ms, pos') ← drainFrom msgspec buf n (pos + 4 + bodyLen)
        .ok (m :: ms, pos')

/-- `Decoder.drain`: what it returns, and the buffer afterwards. -/
def drain (msgspec : Msgspec) (buf : Bytes) : Except Raised (List Received) × Bytes :=
  match drainFrom msgspec buf (buf.length + 1) 0 with
  | .ok (ms, pos) => (.ok ms, buf.drop pos)
  | .error e => (.error e, buf)

/-- `serve` on the chunks it reads: `extend` and `drain` for each, until one
raises. -/
def feed (msgspec : Msgspec) : List Bytes → Bytes → Except Raised (List Received) × Bytes
  | [], buf => (.ok [], buf)
  | chunk :: chunks, buf =>
    match drain msgspec (buf ++ chunk) with
    | (.error e, buf') => (.error e, buf')
    | (.ok ms, buf') =>
      match feed msgspec chunks buf' with
      | (.error e, buf') => (.error e, buf')
      | (.ok ms', buf') => (.ok (ms ++ ms'), buf')

/-! ## A frame is read from its own bytes -/

section
variable {buf : Bytes} {body n : Nat}

theorem window_at {a w : Nat} (h : a + w ≤ n) :
    (buf.drop (body + a)).take w = ((((buf.drop body).take n).drop a).take w) := by
  rw [List.drop_take, List.take_take, List.drop_drop, Nat.min_eq_left (by omega)]

theorem slice_at {a b : Nat} (h : b ≤ n) :
    slice buf (body + a) (body + b) = slice ((buf.drop body).take n) a b := by
  rw [slice, slice, List.take_take, Nat.min_eq_left h, ← List.drop_drop, List.drop_take,
    Nat.add_sub_cancel_left]

theorem getElem?_at (h : 0 < n) : buf[body]? = ((buf.drop body).take n)[0]? := by
  rw [List.getElem?_take_of_lt h, List.getElem?_drop, Nat.add_zero]

theorem receive_local (msgspec : Msgspec) (h : 0 < n) :
    receive msgspec buf body n = receive msgspec ((buf.drop body).take n) 0 n := by
  have hslice : slice buf (body + 1) (body + n) = slice ((buf.drop body).take n) (0 + 1) (0 + n) := by
    rw [slice_at (Nat.le_refl n), Nat.zero_add, Nat.zero_add]
  unfold receive
  rw [getElem?_at h, hslice]
  cases ((buf.drop body).take n)[0]? with
  | none => rfl
  | some kind =>
    by_cases hshort : n < 15
    · simp only [hshort, if_true]
    have hu16 : u16At buf (body + 1 + 12) = u16At ((buf.drop body).take n) (0 + 1 + 12) := by
      rw [u16At, u16At, Nat.add_assoc, window_at (n := n) (by omega), Nat.zero_add]
    have hi64 : i64At buf (body + 1) = i64At ((buf.drop body).take n) (0 + 1) := by
      rw [i64At, i64At, window_at (n := n) (by omega), Nat.zero_add]
    have hi16 : ∀ a, a + 2 ≤ n → i16At buf (body + a) = i16At ((buf.drop body).take n) a := by
      intro a ha
      rw [i16At, i16At, window_at ha]
    simp only [hshort, if_false, hu16, hi64, Nat.zero_add, Nat.add_assoc]
    rw [hi16 (1 + 8) (by omega), hi16 (1 + 10) (by omega)]
    by_cases htail : n < 15 + u16At ((buf.drop body).take n) (1 + 12)
    · have htail' : body + n < body + (15 + u16At ((buf.drop body).take n) (1 + 12)) := by omega
      simp only [htail, htail', if_true]
    · have htail' : ¬ body + n < body + (15 + u16At ((buf.drop body).take n) (1 + 12)) := by omega
      simp only [htail, htail', if_false]
      rw [slice_at (n := n) (by omega), slice_at (Nat.le_refl n)]
end

/-! ## The decoder as a cutter -/

/-- The frames of the protocol, to the child. -/
def format (msgspec : Msgspec) : Prefixed Received Raised where
  limit := maxFrameBytes
  tooLarge n := .protocolError ("frame body of " ++ toString n ++
    " bytes exceeds the 16777216 byte limit")
  decode bytes := receive msgspec bytes 0 bytes.length

/-- What the loop finds on a stream without errors: an empty body is one, as the
byte `drain` takes for its kind belongs to the next frame. -/
theorem drainFrom_eq (msgspec : Msgspec) (buf : Bytes) (n pos : Nat) (hpos : pos ≤ buf.length)
    (hn : buf.length - pos < n)
    (herror : ((format msgspec).cutter.frames (buf.drop pos)).error = none) :
    ∃ pos', drainFrom msgspec buf n pos =
        .ok (((format msgspec).cutter.frames (buf.drop pos)).items, pos') ∧
      buf.drop pos' = ((format msgspec).cutter.frames (buf.drop pos)).rest := by
  induction n generalizing pos with
  | zero => omega
  | succ n ih =>
    have hlen : Prefixed.bodyLen (buf.drop pos) = ofLittleEndian ((buf.drop pos).take 4) := rfl
    have hsize : (buf.drop pos).length = buf.length - pos := List.length_drop
    unfold drainFrom
    rw [← hlen]
    by_cases hheader : buf.length - pos < 4
    · rw [if_pos hheader, Cutter.frames_more (Prefixed.cut_header (by omega))]
      exact ⟨pos, rfl, rfl⟩
    rw [if_neg hheader]
    by_cases hlarge : maxFrameBytes < Prefixed.bodyLen (buf.drop pos)
    · rw [Cutter.frames_bad (Prefixed.cut_tooLarge (by omega) hlarge)] at herror
      cases herror
    have hlimit : Prefixed.bodyLen (buf.drop pos) ≤ (format msgspec).limit := Nat.le_of_not_lt hlarge
    simp only [if_neg hlarge]
    by_cases hbody : buf.length - pos - 4 < Prefixed.bodyLen (buf.drop pos)
    · rw [if_pos hbody, Cutter.frames_more (Prefixed.cut_partial hlimit (by omega))]
      exact ⟨pos, rfl, rfl⟩
    rw [if_neg hbody]
    have hwhole : 4 + Prefixed.bodyLen (buf.drop pos) ≤ (buf.drop pos).length := by omega
    have hcut := Prefixed.cut_whole hwhole hlimit
    generalize Prefixed.bodyLen (buf.drop pos) = bodyLen at *
    have hdrop : (buf.drop pos).drop (4 + bodyLen) = buf.drop (pos + 4 + bodyLen) := by
      rw [List.drop_drop, Nat.add_assoc]
    have hdecode : (format msgspec).decode (((buf.drop pos).drop 4).take bodyLen) =
        receive msgspec ((buf.drop (pos + 4)).take bodyLen) 0 bodyLen := by
      have hfull : ((buf.drop (pos + 4)).take bodyLen).length = bodyLen := by
        rw [List.length_take, List.length_drop]
        omega
      rw [List.drop_drop]
      exact congrArg (receive msgspec _ 0) hfull
    rw [hdecode, hdrop] at hcut
    rcases Nat.eq_zero_or_pos bodyLen with hempty | hsome
    · subst hempty
      rw [Cutter.frames_bad hcut] at herror
      cases herror
    rw [receive_local msgspec hsome]
    cases hr : receive msgspec ((buf.drop (pos + 4)).take bodyLen) 0 bodyLen with
    | error e =>
      rw [hr] at hcut
      rw [Cutter.frames_bad hcut] at herror
      cases herror
    | ok m =>
      rw [hr] at hcut
      rw [Cutter.frames_item hcut] at herror ⊢
      obtain ⟨pos', hdrain, hrest⟩ := ih (pos + 4 + bodyLen) (by omega) (by omega) herror
      exact ⟨pos', by rw [hdrain]; rfl, hrest⟩

theorem drain_eq (msgspec : Msgspec) (buf : Bytes)
    (herror : ((format msgspec).cutter.frames buf).error = none) :
    drain msgspec buf = (.ok ((format msgspec).cutter.frames buf).items,
      ((format msgspec).cutter.frames buf).rest) := by
  obtain ⟨pos, hdrain, hrest⟩ :=
    drainFrom_eq msgspec buf (buf.length + 1) 0 (Nat.zero_le _) (by omega) herror
  rw [drain, hdrain]
  exact Prod.ext rfl hrest

theorem feed_eq (msgspec : Msgspec) (chunks : List Bytes) (buf : Bytes)
    (herror : ((format msgspec).cutter.feed chunks buf).error = none) :
    feed msgspec chunks buf = (.ok ((format msgspec).cutter.feed chunks buf).items,
      ((format msgspec).cutter.feed chunks buf).rest) := by
  induction chunks generalizing buf with
  | nil => rfl
  | cons chunk chunks ih =>
    unfold Cutter.feed at herror ⊢
    cases he : ((format msgspec).cutter.frames (buf ++ chunk)).error with
    | some e => rw [he] at herror; cases herror
    | none =>
      rw [he] at herror
      rw [feed, drain_eq msgspec (buf ++ chunk) he]
      simp only
      rw [ih _ herror]
      rfl

/-! ## What the supervisor sends -/

/-- The messages that go down to the child, as the child holds them. -/
def received : Message → Option Received
  | .dispatch id attempt maxAttempts task payload => some (.dispatch id attempt maxAttempts task payload)
  | .steps id steps => some (.steps (.int id) (steps.map fun s => [.str s.1, .bin s.2]))
  | .stored id name => some (.stored (.int id) (.str name))
  | .register _ | .record .. | .complete .. => none

theorem slice_cons (kind : UInt8) (rest : Bytes) :
    slice (kind :: rest) 1 (rest.length + 1) = rest := by
  simp [slice]

/-- `msgspec` reads the value `rmp_serde` wrote. -/
theorem decode_packed (msgspec : Msgspec) {m : Message} (htyped : m.Typed)
    (hpacked : packed m ≠ []) (h : (packed m).length < 4294967296) :
    msgspec.decode (packed m) = .ok (Serde.value m) := by
  rw [Serde.packed_eq_pack hpacked] at h ⊢
  exact msgspec.decode_pack _ (Serde.value_fits htyped) h

theorem receive_dispatch (msgspec : Msgspec) {id attempt maxAttempts : Int} {task : String}
    {payload : Bytes} (htyped : (Message.dispatch id attempt maxAttempts task payload).Typed)
    (hname : (utf8 task).length < 65536) :
    receive msgspec (body (.dispatch id attempt maxAttempts task payload)) 0
      (body (.dispatch id attempt maxAttempts task payload)).length =
      .ok (.dispatch id attempt maxAttempts task payload) := by
  obtain ⟨hid, hattempt, hmax, hlen, htail⟩ := dispatch_fields payload htyped hname
  have hkind : (body (.dispatch id attempt maxAttempts task payload))[0]? = some 0x00 := rfl
  have hsize : (body (.dispatch id attempt maxAttempts task payload)).length =
      15 + (utf8 task).length + payload.length := by
    simp only [body, List.length_cons, List.length_append, length_littleEndian]
    omega
  generalize body (.dispatch id attempt maxAttempts task payload) = bytes at *
  have htask : slice bytes 15 (15 + (utf8 task).length) = utf8 task := by
    rw [slice, List.drop_take, htail, Nat.add_sub_cancel_left, List.take_left' rfl]
  have hpayload : slice bytes (15 + (utf8 task).length) bytes.length = payload := by
    rw [slice, List.take_length, ← List.drop_drop, htail, List.drop_left' rfl]
  have hlong : ¬ bytes.length < 15 := by omega
  have hfits : ¬ bytes.length < 15 + (utf8 task).length := by omega
  simp [receive, hkind, hid, hattempt, hmax, hlen, htask, hpayload, hlong, hfits]

theorem mapM_iterate : ∀ steps : List (String × Bytes),
    (steps.map fun s => Value.array [.str s.1, .bin s.2]).mapM iterate =
      .ok (steps.map fun s => [.str s.1, .bin s.2])
  | [] => rfl
  | s :: steps => by
    rw [List.map_cons, List.mapM_cons, mapM_iterate steps]
    rfl

theorem stepsOf_value (id : Int) (steps : List (String × Bytes)) :
    stepsOf (Serde.value (.steps id steps)) =
      .ok (.steps (.int id) (steps.map fun s => [.str s.1, .bin s.2])) := by
  have hsteps := congrArg (· >>= fun list => Except.ok (Received.steps (.int id) list))
    (mapM_iterate steps)
  exact hsteps

/-- The child reads back every message the supervisor sends down. -/
theorem receive_body (msgspec : Msgspec) {m : Message} (htyped : m.Typed) (h : Accepted m)
    {r : Received} (hr : received m = some r) :
    receive msgspec (body m) 0 (body m).length = .ok r := by
  have hlen := length_body_le h
  have hmax : maxFrameBytes < 4294967296 := by decide
  cases m with
  | dispatch id attempt maxAttempts task payload =>
    cases hr
    exact receive_dispatch msgspec htyped (accepted_dispatch.mp h).1
  | steps id steps =>
    cases hr
    simp only [body, List.length_cons] at hlen
    have hdecode := decode_packed msgspec htyped (MessagePack.array_ne_nil _) (show _ < _ by omega)
    refine Eq.trans ?_ (stepsOf_value id steps)
    simp [receive, body, slice_cons, hdecode, Except.bind, bind]
  | stored id name =>
    cases hr
    simp only [body, List.length_cons] at hlen
    have hdecode := decode_packed msgspec htyped (MessagePack.array_ne_nil _) (show _ < _ by omega)
    have hstored : storedOf (Serde.value (.stored id name)) = .ok (.stored (.int id) (.str name)) := rfl
    refine Eq.trans ?_ hstored
    simp [receive, body, slice_cons, hdecode, Except.bind, bind]
  | register entries => cases hr
  | record id name result => cases hr
  | complete id outcome => cases hr

/-- A frame the supervisor wrote is the first thing the child finds. -/
theorem cut_frame_of_received (msgspec : Msgspec) {m : Message} (htyped : m.Typed) (h : Accepted m)
    {r : Received} (hr : received m = some r) (rest : Bytes) :
    (format msgspec).cutter.cut (frame m ++ rest) = .item r rest := by
  have hlimit := length_body_le h
  have hmax : maxFrameBytes < 4294967296 := by decide
  rw [Prefixed.cutter_cut]
  exact Prefixed.cut_frame hlimit (by omega) (receive_body msgspec htyped h hr) rest

/-- A message for the child, with what the child makes of it. -/
theorem flatMap_received {ms : List Message} (hdown : ∀ m ∈ ms, (received m).isSome) :
    ∃ rs : List (Message × Received), rs.map Prod.fst = ms ∧
      rs.map Prod.snd = ms.filterMap received ∧ ∀ p ∈ rs, received p.1 = some p.2 := by
  induction ms with
  | nil => exact ⟨[], rfl, rfl, fun p hp => absurd hp List.not_mem_nil⟩
  | cons m ms ih =>
    obtain ⟨rs, hms, hrs, hmem⟩ := ih fun m' hm' => hdown m' (List.mem_cons_of_mem m hm')
    obtain ⟨r, hr⟩ := Option.isSome_iff_exists.mp (hdown m List.mem_cons_self)
    refine ⟨(m, r) :: rs, by simp [hms], by simp [hrs, hr], fun p hp => ?_⟩
    rcases List.mem_cons.mp hp with hhead | htail
    · exact hhead ▸ hr
    · exact hmem p htail

/-- **The child reads what the supervisor encoded, however the stream is cut up**:
the messages `encode` took, in order and each with its values, no exception, and
an empty buffer. -/
theorem child_reads_supervisor (msgspec : Msgspec) (ms : List Message)
    (htyped : ∀ m ∈ ms, m.Typed) (hdown : ∀ m ∈ ms, (received m).isSome)
    (chunks : List Bytes) (hchunks : chunks.flatten = (encodeAll ms []).2) :
    feed msgspec chunks [] = (.ok ((encodeAll ms []).1.filterMap received), []) := by
  have haccepted : ∀ m ∈ ms.filter Accepted, m ∈ ms ∧ Accepted m := fun m hm => by
    simpa using List.mem_filter.mp hm
  obtain ⟨rs, hms, hrs, hmem⟩ := flatMap_received fun m hm => hdown m (haccepted m hm).1
  have hframes : (format msgspec).cutter.frames (rs.flatMap fun p => frame p.1) =
      ⟨rs.map Prod.snd, [], none⟩ := by
    refine Cutter.frames_flatMap _ (Prefixed.cutter_nil _) rs fun p hp rest => ?_
    obtain ⟨hm, ha⟩ := haccepted p.1 (hms ▸ List.mem_map_of_mem hp)
    exact cut_frame_of_received msgspec (htyped p.1 hm) ha (hmem p hp) rest
  rw [encodeAll_eq] at hchunks ⊢
  replace hchunks : [] ++ chunks.flatten = rs.flatMap fun p => frame p.1 := by
    rw [List.nil_append, hchunks, List.nil_append, ← hms, List.flatMap_map]
  have hfeed : (format msgspec).cutter.feed chunks [] = ⟨rs.map Prod.snd, [], none⟩ := by
    refine (Cutter.feed_eq_frames _ chunks [] (Prefixed.cutter_nil _) ?_).trans ?_
    · rw [hchunks, hframes]
    · rw [hchunks, hframes]
  rw [feed_eq msgspec chunks [] (by rw [hfeed]), hfeed, hrs]

/-- An `msgspec` made of the plain MessagePack reader. -/
def Msgspec.messagePack : Msgspec where
  decode body :=
    match MessagePack.unpack body with
    | some v => .ok v
    | none => .error .decodeError
  decode_pack v hfits hlen := by rw [MessagePack.unpack_pack hfits hlen]

/-- A dispatch and an acknowledgement, with the first header and the second body
cut in two. -/
theorem child_reads_supervisor_split :
    feed Msgspec.messagePack
      [[17, 0], [0, 0, 0, 7, 0, 0, 0, 0, 0, 0, 0, 1, 0, 3, 0, 1, 0, 116, 9, 7, 0, 0, 0, 5, 0x92],
        [7, 0xa3, 112, 97, 121]] [] =
      (.ok [.dispatch 7 1 3 "t" [9], .stored (.int 7) (.str "pay")], []) :=
  child_reads_supervisor Msgspec.messagePack [.dispatch 7 1 3 "t" [9], .stored 7 "pay"] (by decide)
    (by decide)
    [[17, 0], [0, 0, 0, 7, 0, 0, 0, 0, 0, 0, 0, 1, 0, 3, 0, 1, 0, 116, 9, 7, 0, 0, 0, 5, 0x92],
      [7, 0xa3, 112, 97, 121]] (by decide)

end Gylo.Wire.Child
