import Gylo.Lib.Lines
import Gylo.Lib.Runs
import Gylo.Store.Schema

/-! # What a child said last

The supervisor reads its child's stderr to the end, byte by byte and in whatever
pieces it comes, and keeps the last lines for the error that names the child's death.
Both the line that is being read and the lines that are kept are bounded: a line is cut
at `LINE_CAP` bytes and marked, and the oldest line makes room for the newest. -/
namespace Gylo.Worker.LastWords

open Gylo.Store (Bytes)
open Lines (closed rest lines push)

/-- `LINE_CAP`. -/
def lineCap : Nat := 8 * 1024

/-- `LAST_WORDS`. -/
def lastWords : Nat := 20

/-- The locals of `watch`, and the lines that are held. -/
structure Watch where
  line : Bytes := []
  truncated : Bool := false
  held : List String := []

section
variable (lossy : Bytes → String)

/-- `String::from_utf8_lossy`, which is not modelled, and the mark. -/
def rendered (line : Bytes) (truncated : Bool) : String :=
  if truncated then lossy line ++ " [truncated]" else lossy line

def emit (w : Watch) : Watch where
  line := []
  truncated := false
  held := push lastWords w.held (rendered lossy w.line w.truncated)

/-- The body of the loop over the bytes of a chunk. -/
def takeByte (w : Watch) (byte : UInt8) : Watch :=
  if byte = 10 then emit lossy w
  else if w.line.length < lineCap then { w with line := w.line ++ [byte] }
  else { w with truncated := true }

/-- The loop over the reads: one that fails or returns nothing ends it. -/
def readLoop : List (Option Bytes) → Watch → Watch
  | [], w | none :: _, w | some [] :: _, w => w
  | some (byte :: chunk) :: reads, w => readLoop reads ((byte :: chunk).foldl (takeByte lossy) w)

/-- `watch`, once the child's stderr has ended. -/
def watch (reads : List (Option Bytes)) : Watch :=
  let w := readLoop lossy reads {}
  if w.line = [] then w else emit lossy w

/-! ## The stream the reads came from -/

/-- The bytes of the reads up to the one that ended the loop. -/
def stream : List (Option Bytes) → Bytes
  | [] | none :: _ | some [] :: _ => []
  | some (byte :: chunk) :: reads => (byte :: chunk) ++ stream reads

/-- The watch after so many bytes. -/
def after (bytes : Bytes) : Watch := Runs.run (takeByte lossy) {} bytes

/-- A line as it is to be reported. -/
def report (line : Bytes) : String :=
  if lineCap < line.length then lossy (line.take lineCap) ++ " [truncated]"
  else lossy (line.take lineCap)

/-- How the stream was cut makes no difference. -/
theorem readLoop_eq (reads : List (Option Bytes)) (w : Watch) :
    readLoop lossy reads w = Runs.run (takeByte lossy) w (stream reads) := by
  induction reads generalizing w with
  | nil => rfl
  | cons read reads ih =>
    match read with
    | none => rfl
    | some [] => rfl
    | some (byte :: chunk) =>
      rw [readLoop, stream, ih, Runs.run_append]
      rfl

/-! ## The automaton and the lines -/

/-- What the watch holds once it has seen these bytes: the last closed lines, and the
front of the open one. -/
structure Sees (bytes : Bytes) (w : Watch) : Prop where
  held : w.held = ((closed 10 bytes).map (report lossy)).rtake lastWords
  line : w.line = (rest 10 bytes).take lineCap
  truncated : w.truncated = decide (lineCap < (rest 10 bytes).length)

variable {lossy}

/-- The open line is rendered as it is to be reported. -/
theorem Sees.rendered_eq {bytes : Bytes} {w : Watch} (h : Sees lossy bytes w) :
    rendered lossy w.line w.truncated = report lossy (rest 10 bytes) := by
  unfold rendered report
  rw [h.line, h.truncated]
  simp only [decide_eq_true_eq]

theorem Sees.emit {bytes : Bytes} {w : Watch} (h : Sees lossy bytes w) :
    (emit lossy w).held = ((closed 10 bytes ++ [rest 10 bytes]).map (report lossy)).rtake lastWords := by
  rw [List.map_append, List.map_singleton, ← Lines.push_rtake (by decide), ← h.held, ← h.rendered_eq]
  rfl

theorem Sees.takeByte {bytes : Bytes} {w : Watch} (h : Sees lossy bytes w) (byte : UInt8) :
    Sees lossy (bytes ++ [byte]) (takeByte lossy w byte) := by
  unfold LastWords.takeByte
  split
  next hnewline =>
    subst hnewline
    exact ⟨by rw [h.emit, Lines.closed_concat_self], by rw [Lines.rest_concat_self]; rfl,
      by rw [Lines.rest_concat_self]; rfl⟩
  next hother =>
    have hclosed := Lines.closed_concat_of_ne (s := bytes) hother
    have hrest := Lines.rest_concat_of_ne (s := bytes) hother
    have hlen : w.line.length = min lineCap (rest 10 bytes).length := by rw [h.line, List.length_take]
    split
    next hroom =>
      -- the line has not reached the cap, so it is whole and not marked
      have hshort : (rest 10 bytes).length < lineCap := by omega
      have hwhole : w.line = rest 10 bytes := by
        rw [h.line, List.take_of_length_le (Nat.le_of_lt hshort)]
      refine ⟨by rw [hclosed]; exact h.held, ?_, ?_⟩
      · rw [hrest, hwhole, List.take_of_length_le (by rw [List.length_append]; exact hshort)]
      · rw [hrest, List.length_append]
        simp only [h.truncated, List.length_singleton]
        rw [decide_eq_decide]
        omega
    next hfull =>
      have hlong : lineCap ≤ (rest 10 bytes).length := by omega
      refine ⟨by rw [hclosed]; exact h.held, ?_, ?_⟩
      · rw [hrest, List.take_append_of_le_length hlong]
        exact h.line
      · rw [hrest, List.length_append, List.length_singleton]
        exact (decide_eq_true (Nat.lt_succ_of_le hlong)).symm

theorem sees_after (bytes : Bytes) : Sees lossy bytes (after lossy bytes) := by
  induction bytes using List.reverseRecOn with
  | nil => exact ⟨rfl, rfl, rfl⟩
  | append_singleton bytes byte ih =>
    unfold after at ih ⊢
    rw [Runs.run_concat]
    exact ih.takeByte byte

/-- At most this much is held. -/
structure Bounded (w : Watch) : Prop where
  held : w.held.length ≤ lastWords
  line : w.line.length ≤ lineCap

theorem Sees.bounded {bytes : Bytes} {w : Watch} (h : Sees lossy bytes w) : Bounded w where
  held := by
    rw [h.held]
    exact Lines.length_rtake_le _ _
  line := by
    rw [h.line]
    exact List.length_take_le _ _

theorem held_watch (reads : List (Option Bytes)) :
    (watch lossy reads).held = ((lines 10 (stream reads)).map (report lossy)).rtake lastWords := by
  have hsees : Sees lossy (stream reads) (readLoop lossy reads {}) := by
    rw [readLoop_eq]
    exact sees_after (stream reads)
  have hempty : (readLoop lossy reads {}).line = [] ↔ rest 10 (stream reads) = [] := by
    rw [hsees.line, List.take_eq_nil_iff]
    exact or_iff_right (by decide)
  unfold watch lines
  simp only [hempty]
  split
  next => exact hsees.held
  next => exact hsees.emit
end

/-- **However its stderr is cut up, the lines held of a child are its last ones**, each
with its first `LINE_CAP` bytes and marked if it had more; and neither the lines nor
the one being read ever outgrow their bounds. -/
theorem last_words_exact (lossy : Bytes → String) (reads : List (Option Bytes)) :
    (watch lossy reads).held = ((lines 10 (stream reads)).map (report lossy)).rtake lastWords ∧
    (∀ bytes, bytes <+: stream reads → Bounded (after lossy bytes)) ∧
    Bounded (watch lossy reads) := by
  refine ⟨held_watch reads, fun bytes _ => (sees_after bytes).bounded, ?_, ?_⟩
  · rw [held_watch]
    exact Lines.length_rtake_le _ _
  · have hbound : Bounded (readLoop lossy reads {}) := by
      rw [readLoop_eq]
      exact (sees_after (stream reads)).bounded
    unfold watch
    dsimp only
    split
    next => exact hbound.line
    next => exact Nat.zero_le _

end Gylo.Worker.LastWords
