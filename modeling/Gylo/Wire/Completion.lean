import Gylo.Wire.Decoder

/-! # The completions the child writes

`encode_success` and `encode_failure` pack the four-byte length, the kind, the job
and the outcome with one `struct`, which raises when a number does not fit its
field. An error is a Python string, so it may hold surrogates that UTF-8 has no
bytes for. -/
namespace Gylo.Wire

open Gylo.Store (Bytes)
open Packing

/-- A code point of a Python `str`; the surrogates are among them. -/
abbrev CodePoint := Fin 0x110000

/-- A Python `str`. -/
abbrev PyStr := List CodePoint

/-- `error.encode("utf-8", "replace")`: what cannot be encoded becomes `?`. -/
def encodeReplace (text : PyStr) : Bytes :=
  text.flatMap fun c =>
    if h : c.val.isValidChar then utf8 (String.singleton (Char.ofNatAux c.val h)) else [0x3f]

/-- `MAX_ERROR_BYTES`. -/
def maxErrorBytes : Nat := 64 * 1024

/-- `_COMPLETE.pack(10 + len(rest), KIND_COMPLETE, job_id, outcome) + rest`; `none`
where `struct` raises. -/
def packComplete (id : Int) (outcome : UInt8) (rest : Bytes) : Option Bytes :=
  if 10 + rest.length < 4294967296 ∧ InI64 id then
    some (littleEndian 4 (10 + rest.length) ++ 0x01 :: (littleEndian 8 (wrap 8 id) ++ outcome :: rest))
  else none

def encodeSuccess (id : Int) (result : Bytes) : Option Bytes := packComplete id 0x00 result

/-- The bytes of an error, cut to what the supervisor accepts. -/
def renderError (error : PyStr) : Bytes :=
  let rendered := encodeReplace error
  if maxErrorBytes < rendered.length then
    rendered.take maxErrorBytes ++ utf8 "\n... truncated"
  else rendered

def encodeFailure (id : Int) (error : PyStr) (retry : Bool) : Option Bytes :=
  packComplete id (if retry then 0x01 else 0x02) (renderError error)

/-- The job a frame completes, if it is a `Complete`. -/
def completes? (frame : Bytes) : Option Int :=
  if frame.getD 4 0 = 0x01 then some (i64At frame 5) else none

theorem packComplete_eq_some {id : Int} (hid : InI64 id) (outcome : UInt8) {rest : Bytes}
    (hlen : 10 + rest.length < 4294967296) : ∃ frame, packComplete id outcome rest = some frame :=
  ⟨_, if_pos ⟨hlen, hid⟩⟩

theorem completes_packComplete {id : Int} {outcome : UInt8} {rest frame : Bytes}
    (h : packComplete id outcome rest = some frame) : completes? frame = some id := by
  unfold packComplete at h
  split at h
  · next hfits =>
    cases h
    have hkind : (littleEndian 4 (10 + rest.length) ++
        0x01 :: (littleEndian 8 (wrap 8 id) ++ outcome :: rest)).getD 4 0 = 0x01 := by
      have hlen := length_littleEndian 4 (10 + rest.length)
      rw [List.getD_eq_getElem?_getD, List.getElem?_append_right hlen.le, hlen]
      rfl
    rw [completes?, if_pos hkind]
    have hfront : (littleEndian 4 (10 + rest.length) ++ [0x01]).length = 5 := by
      rw [List.length_append, length_littleEndian]
      rfl
    have hfield := i64At_field hfits.2 (littleEndian 4 (10 + rest.length) ++ [0x01]) (outcome :: rest) hfront
    rw [List.append_assoc] at hfield
    exact congrArg some hfield
  · cases h

/-- An error is cut, and a mark of 14 bytes added. -/
theorem length_renderError_le (error : PyStr) : (renderError error).length ≤ maxErrorBytes + 14 := by
  have hmark : (utf8 "\n... truncated").length = 14 := by decide
  unfold renderError
  dsimp only
  split
  · rw [List.length_append, hmark, List.length_take]
    omega
  · omega

/-- An error is always short enough to be packed. -/
theorem length_renderError (error : PyStr) : 10 + (renderError error).length < 4294967296 := by
  have hlen := length_renderError_le error
  unfold maxErrorBytes at hlen
  omega

theorem encodeFailure_eq_some {id : Int} (hid : InI64 id) (error : PyStr) (retry : Bool) :
    ∃ frame, encodeFailure id error retry = some frame :=
  packComplete_eq_some hid _ (length_renderError error)

end Gylo.Wire
