import Gylo.Lib.Utf8
import Gylo.Wire.Decoder

/-! # Encoding what was decoded

The two kinds that are laid out by hand leave a sender no choice: every field has
its width, the task name its length, and whatever is left is the payload, the result
or the error. So a body that `decode_body` takes is the body `encode_frame` writes
for what it took it to be. The kinds that are MessagePack do leave a choice, since an
integer may come in a wider form than it needs. -/
namespace Gylo.Wire

open Gylo.Store (Bytes)
open Packing

/-- `Dispatch` and `Complete`. -/
def Message.HandFramed : Message → Prop
  | .dispatch .. | .complete .. => True
  | .register _ | .steps .. | .record .. | .stored .. => False

/-! ## Fields -/

theorem take_add_drop {α : Type} (l : List α) (m n : Nat) :
    (l.drop m).take n ++ l.drop (m + n) = l.drop m := by
  rw [← List.drop_drop, List.take_append_drop]

section
variable {rest : Bytes} {start : Nat}

/-- A field of `n` bytes is the layout of the number read from it. -/
theorem littleEndian_field {n : Nat} (h : start + n ≤ rest.length) :
    littleEndian n (ofLittleEndian ((rest.drop start).take n)) = (rest.drop start).take n := by
  have hlen : ((rest.drop start).take n).length = n := by
    rw [List.length_take, List.length_drop]
    omega
  have hback := littleEndian_ofLittleEndian ((rest.drop start).take n)
  rw [hlen] at hback
  exact hback

theorem littleEndian_signed_field {n : Nat} (h : start + n ≤ rest.length) :
    littleEndian n (wrap n (unwrap n (ofLittleEndian ((rest.drop start).take n)))) =
      (rest.drop start).take n := by
  have hlt := ofLittleEndian_lt ((rest.drop start).take n)
  have hlen : ((rest.drop start).take n).length = n := by
    rw [List.length_take, List.length_drop]
    omega
  rw [hlen] at hlt
  rw [wrap_unwrap hlt, littleEndian_field h]

theorem littleEndian_i64At (h : start + 8 ≤ rest.length) :
    littleEndian 8 (wrap 8 (i64At rest start)) = (rest.drop start).take 8 :=
  littleEndian_signed_field h

theorem littleEndian_i16At (h : start + 2 ≤ rest.length) :
    littleEndian 2 (wrap 2 (i16At rest start)) = (rest.drop start).take 2 :=
  littleEndian_signed_field h

theorem littleEndian_u16At (h : start + 2 ≤ rest.length) :
    littleEndian 2 (u16At rest start) = (rest.drop start).take 2 :=
  littleEndian_field h

/-- Two bytes hold less than 65536. -/
theorem u16At_lt (rest : Bytes) (start : Nat) : u16At rest start < 65536 := by
  have hlt := ofLittleEndian_lt ((rest.drop start).take 2)
  have hle : Nat.pow 256 ((rest.drop start).take 2).length ≤ Nat.pow 256 2 :=
    Nat.pow_le_pow_right (by decide) (List.length_take_le 2 _)
  exact Nat.lt_of_lt_of_le hlt hle
end

/-! ## Bodies -/

/-- What `decode_body` has read of a dispatch. -/
theorem decodeDispatch_ok {rest : Bytes} {m : Message} (h : decodeDispatch rest = .ok m) :
    ∃ task, utf8 task = (rest.drop 14).take (u16At rest 12) ∧ 14 + u16At rest 12 ≤ rest.length ∧
      m = .dispatch (i64At rest 0) (i16At rest 8) (i16At rest 10) task
        ((rest.drop 14).drop (u16At rest 12)) := by
  unfold decodeDispatch at h
  split at h
  next => cases h
  next hhead =>
    dsimp only at h
    split at h
    next => cases h
    next hname =>
      split at h
      next => cases h
      next task htask =>
        cases h
        rw [List.length_drop] at hname
        exact ⟨task, ofUtf8_eq_some_iff.mp htask, by omega, rfl⟩

theorem body_of_decodeDispatch {rest : Bytes} {m : Message} (h : decodeDispatch rest = .ok m) :
    body m = 0x00 :: rest ∧ ∃ n, bodyLen m = .ok n := by
  obtain ⟨task, htask, hlen, rfl⟩ := decodeDispatch_ok h
  have hname : (utf8 task).length = u16At rest 12 := by
    rw [htask, List.length_take, List.length_drop]
    omega
  constructor
  · -- the fields are consecutive, so written one after the other they are the rest again
    rw [body, hname, littleEndian_i64At (by omega), littleEndian_i16At (by omega),
      littleEndian_i16At (by omega), littleEndian_u16At (by omega), htask]
    simp only [List.append_assoc, List.take_append_drop]
    rw [take_add_drop rest 12 2, take_add_drop rest 10 2, take_add_drop rest 8 2,
      take_add_drop rest 0 8]
    rfl
  · exact ⟨_, if_pos (hname ▸ u16At_lt rest 12)⟩

/-- What `decode_body` has read of a completion. -/
theorem decodeComplete_ok {rest : Bytes} {m : Message} (h : decodeComplete rest = .ok m) :
    9 ≤ rest.length ∧
      (rest.getD 8 0 = 0x00 ∧ m = .complete (i64At rest 0) (.success (rest.drop 9)) ∨
        ∃ error retry, utf8 error = rest.drop 9 ∧ rest.getD 8 0 = (if retry then 0x01 else 0x02) ∧
          m = .complete (i64At rest 0) (.failure error retry)) := by
  unfold decodeComplete at h
  split at h
  next => cases h
  next hhead =>
    refine ⟨Nat.not_lt.mp hhead, ?_⟩
    split at h
    next hcode =>
      cases h
      exact .inl ⟨hcode, rfl⟩
    next hcode =>
      split at h
      next => cases h
      next error herror =>
        cases h
        exact .inr ⟨error, true, ofUtf8_eq_some_iff.mp herror, hcode, rfl⟩
    next hcode =>
      split at h
      next => cases h
      next error herror =>
        cases h
        exact .inr ⟨error, false, ofUtf8_eq_some_iff.mp herror, hcode, rfl⟩
    next => cases h

/-- The id, the byte of the outcome and the text are all there is. -/
theorem complete_fields {rest : Bytes} (h : 9 ≤ rest.length) :
    littleEndian 8 (wrap 8 (i64At rest 0)) ++ rest.getD 8 0 :: rest.drop 9 = rest := by
  have hlt : 8 < rest.length := h
  have hcode : rest.getD 8 0 :: rest.drop 9 = rest.drop 8 := by
    rw [List.getD_eq_getElem?_getD, List.getElem?_eq_getElem hlt, Option.getD_some]
    exact List.getElem_cons_drop hlt
  rw [hcode, littleEndian_i64At (by omega)]
  exact take_add_drop rest 0 8

theorem body_of_decodeComplete {rest : Bytes} {m : Message} (h : decodeComplete rest = .ok m) :
    body m = 0x01 :: rest ∧ ∃ n, bodyLen m = .ok n := by
  obtain ⟨hlen, hread⟩ := decodeComplete_ok h
  have hfields := complete_fields hlen
  rcases hread with ⟨hcode, rfl⟩ | ⟨error, retry, herror, hcode, rfl⟩
  · rw [hcode] at hfields
    exact ⟨congrArg (0x01 :: ·) hfields, _, rfl⟩
  · rw [hcode, ← herror] at hfields
    exact ⟨congrArg (0x01 :: ·) hfields, _, rfl⟩

/-- A hand-framed message comes from the arm of its kind. -/
theorem body_of_decodeBody {serde : Serde} {bytes : Bytes} {m : Message}
    (h : decodeBody serde bytes = .ok m) (hm : m.HandFramed) :
    body m = bytes ∧ ∃ n, bodyLen m = .ok n := by
  have hpacked : ∀ {α : Type} {read : Except String α} {f : α → Message},
      unpacked read f = .ok m → (∀ a, ¬ (f a).HandFramed) → False := by
    intro α read f hread hf
    unfold unpacked at hread
    split at hread
    next a =>
      cases hread
      exact hf a hm
    next => cases hread
  cases bytes with
  | nil => cases h
  | cons kind rest =>
    unfold decodeBody at h
    dsimp only at h
    split at h
    next => exact body_of_decodeDispatch h
    next => exact body_of_decodeComplete h
    next => exact (hpacked h fun _ => id).elim
    next => exact (hpacked h fun _ => id).elim
    next => exact (hpacked h fun _ => id).elim
    next => exact (hpacked h fun _ => id).elim
    next => cases h

/-- **Decoding loses nothing of a hand-framed body**: encoding the message gives the
body back behind its length, so no other body decodes to it. -/
theorem decoded_body_encodes (serde : Serde) {bytes : Bytes} {m : Message}
    (h : decodeBody serde bytes = .ok m) (hm : m.HandFramed) :
    (bytes.length ≤ maxFrameBytes →
      encode m [] = (littleEndian 4 bytes.length ++ bytes, .ok ())) ∧
    ∀ other, decodeBody serde other = .ok m → other = bytes := by
  obtain ⟨hbody, n, hn⟩ := body_of_decodeBody h hm
  constructor
  · intro hlen
    have haccepted : Accepted m := by
      refine accepted_iff.mpr ⟨n, hn, ?_⟩
      rw [← bodyLen_eq_length hn, hbody]
      exact hlen
    rcases encode_eq m [] with hok | herr
    · rw [hok.1, hbody, List.nil_append]
    · obtain ⟨e, _, hnot⟩ := herr
      exact absurd haccepted hnot
  · intro other hother
    rw [← (body_of_decodeBody hother hm).1, hbody]

/-- A task name of one letter and a payload of one byte. -/
theorem decoded_body_encodes_short :
    encode (.dispatch (-1) 1 20 "t" [192]) [] =
      ([17, 0, 0, 0] ++ [0, 255, 255, 255, 255, 255, 255, 255, 255, 1, 0, 20, 0, 1, 0, 116, 192], .ok ()) := by
  have hdecode : decodeBody Serde.messagePack
      [0, 255, 255, 255, 255, 255, 255, 255, 255, 1, 0, 20, 0, 1, 0, 116, 192] =
        .ok (.dispatch (-1) 1 20 "t" [192]) := by
    decide
  exact (decoded_body_encodes Serde.messagePack hdecode trivial).1 (by decide)

end Gylo.Wire
