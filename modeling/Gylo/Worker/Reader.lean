import Gylo.Worker.Moves

/-! # The reader of a session

`session` waits for two things, the end of `dispatch` and the exit of the child. The
collector has ends of its own: the child may close the socket, a read may fail, a
frame may be unreadable. None of them is waited for, and the closed channel of
acknowledgements, the only trace they leave, reads as an empty one. -/
namespace Gylo.Worker.Session

open Gylo.Store Gylo.Wire Runs

def Dispatch.looping : Dispatch → Bool
  | .done _ => false
  | _ => true

/-- The session has not ended: its child is alive and `dispatch` is looping. -/
def Up (s : Supervisor) : Prop :=
  s.phase = .serving ∧ s.alive = true ∧ s.dispatch.looping = true

instance (s : Supervisor) : Decidable (Up s) := inferInstanceAs (Decidable (_ ∧ _))

/-- The collector has returned, or is in the flush before it does. -/
def Collector.ending : Collector → Bool
  | .returned => true
  | .flushing _ final => final
  | _ => false

/-- While the session is up, `collect_completions` has not returned. -/
def HasReader (s : Supervisor) : Prop := Up s → s.collector ≠ .returned

/-- Nor has it left its loop in order to. -/
def Reading (s : Supervisor) : Prop := Up s → s.collector.ending = false

theorem Reading.hasReader {s : Supervisor} (h : Reading s) : HasReader s := by
  intro hup hreturned
  have hending := h hup
  rw [hreturned] at hending
  cases hending

/-- The frame at the front of the bytes cannot be read. -/
def Unreadable (serde : Serde) (bytes : Bytes) : Prop :=
  ∃ e, (Decoder.format serde).cut bytes = .bad e

/-- The collector meets the end of the stream, a failed read or an unreadable
frame. -/
def BadRead (serde : Serde) (s : Supervisor) : Act → Prop
  | .collect .eof => s.collector = .reading ∧ s.fromChild = [] ∧ (s.closed = true ∨ s.alive = false)
  | .collect .readError => s.collector = .reading
  | .collect .decode => s.collector = .decoding ∧ Unreadable serde s.decoder.view
  | _ => False

section
variable {cfg : Settings} {serde : Serde} {s s' : Supervisor}

theorem nextMessage_error_iff (d : Decoder) :
    (∃ e d', d.nextMessage serde = (.error e, d')) ↔ Unreadable serde d.view := by
  unfold Unreadable
  rcases d.nextMessage_cases serde with ⟨hnext, hcut⟩ | ⟨e, hnext, hcut⟩ | ⟨m, d', hnext, hcut⟩
  · simp [hnext, hcut]
  · exact ⟨fun _ => ⟨e, hcut⟩, fun _ => ⟨e, d, hnext⟩⟩
  · simp [hnext, hcut]

/-! ## How the collector comes to its end -/

theorem afterFlush_ending (final : Bool) : (afterFlush final).ending = final := by
  cases final <;> rfl

/-- A pause is the last one after a bad read, and no other. -/
theorem Pauses.final_iff {a : CollectAct} {final : Bool} (h : Pauses cfg serde s a final) :
    final = true ↔ BadRead serde s (.collect a) := by
  cases h with
  | eof hat hend hgone => exact ⟨fun _ => ⟨hat, hend, hgone⟩, fun _ => rfl⟩
  | readError hat => exact ⟨fun _ => hat, fun _ => rfl⟩
  | timer => exact ⟨(fun h => by cases h), fun h => h.elim⟩
  | full hat hnext =>
    refine ⟨(fun h => by cases h), fun hbad => ?_⟩
    obtain ⟨e, d, herror⟩ := (nextMessage_error_iff _).mpr hbad.2
    cases hnext.symm.trans herror
  | unreadable hat hnext =>
    exact ⟨fun _ => ⟨hat, (nextMessage_error_iff _).mp ⟨_, _, hnext⟩⟩, fun _ => rfl⟩

/-- A bad read leads to the last pause. -/
theorem pauses_of_badRead {a : CollectAct} (h : BadRead serde s (.collect a)) :
    (collectStep cfg serde s a).collector.ending = true := by
  have hflush : ∀ s' : Supervisor, (startFlush s' true).collector.ending = true := by
    intro s'
    unfold startFlush
    split <;> rfl
  cases a with
  | eof =>
    obtain ⟨hat, hend⟩ := h
    simp only [collectStep, hat, if_pos hend]
    exact hflush s
  | readError =>
    have hat : s.collector = .reading := h
    simp only [collectStep, hat]
    exact hflush s
  | decode =>
    obtain ⟨hat, hbad⟩ := h
    obtain ⟨e, d, hnext⟩ := (nextMessage_error_iff _).mpr hbad
    simp only [collectStep, hat, decode, hnext]
    exact hflush _
  | _ => exact h.elim

/-- The collector comes to its end by a bad read, and by nothing else: a flush that
was not the last one leads back to the loop. -/
theorem CollectMove.badRead {a : CollectAct} {stmt : Option Stmt} (h : CollectMove cfg serde s a stmt s')
    (hs : s.collector.ending = false) (hend : s'.collector.ending = true) : BadRead serde s (.collect a) := by
  cases h with
  | nothing h =>
    rw [afterFlush_ending] at hend
    exact h.final_iff.mp hend
  | flushes h => exact h.final_iff.mp hend
  | calls hat =>
    rw [hat] at hs
    cases hs.symm.trans hend
  | releases hat =>
    rw [hat] at hs
    rw [afterFlush_ending] at hend
    cases hs.symm.trans hend
  | reads | drains | records | recordFails | recordRefused | recorded | unheard | sends => cases hend
  | stays | hears | skips => cases hs.symm.trans hend

/-! ## Over a run -/

theorem DispatchMove.looping {a : DispatchAct} {stmt : Option Stmt} (h : DispatchMove cfg s a stmt s')
    (hloop : s'.dispatch.looping = true) : s.dispatch.looping = true := by
  have hat : ∀ {d : Dispatch}, s.dispatch = d → d.looping = true → s.dispatch.looping = true :=
    fun hd hl => hd ▸ hl
  cases h with
  | stays => exact hloop
  | ends => cases hloop
  | turns h =>
    cases h with
    | closed h | wakes h => rcases h with h | h <;> exact hat h rfl
    | _ => exact hat ‹s.dispatch = _› rfl
  | fetchFails h => cases h <;> exact hat ‹s.dispatch = _› rfl
  | receives h => rcases h with ⟨h, -⟩ | ⟨h | h, -⟩ <;> exact hat h rfl
  | _ => exact hat ‹s.dispatch = _› rfl

theorem Leaves.not_serving {ok : Bool} {phase : Phase} (h : Leaves s ok phase) : phase ≠ .serving := by
  rcases h with ⟨-, rfl⟩ | ⟨-, rfl⟩ <;> exact fun h => by cases h

/-- A session is up after a step of `supervise` if it was before, with its collector
where it was, or it has just been accepted. -/
theorem SessionMove.up {a : SessionAct} {stmt : Option Stmt} (h : SessionMove cfg s a stmt s') (hup : Up s') :
    Up s ∧ s'.collector = s.collector ∨ s'.collector = .reading := by
  obtain ⟨hphase, halive, hloop⟩ := hup
  cases h with
  | accepts => exact .inr rfl
  | exits hat hdead hleaves | leaves hat hdone hleaves => exact absurd hphase hleaves.not_serving
  | kills => cases halive
  | stays | shutdown => exact .inl ⟨⟨hphase, halive, hloop⟩, rfl⟩
  | _ => cases hphase

/-- While the session is up, the child keeps its side of the socket open, reads
succeed and frames can be read. -/
def Readable (serde : Serde) (s : Supervisor) (a : Act) : Prop := Up s → ¬ BadRead serde s a

theorem Move.reading {a : Act} {stmt : Option Stmt} (h : Move cfg serde s a stmt s') (hs : Reading s)
    (ha : Readable serde s a) : Reading s' := by
  intro hup
  cases h with
  | dispatch hserving h =>
    have hframe := h.frame
    obtain ⟨hphase, halive, hloop⟩ := hup
    rw [hframe.collector]
    exact hs ⟨hserving, hframe.alive.symm.trans halive, h.looping hloop⟩
  | collect h =>
    have hframe := h.frame
    obtain ⟨hphase, halive, hloop⟩ := hup
    have hbefore : Up s := ⟨hframe.phase ▸ hphase, hframe.alive ▸ halive, hframe.dispatch ▸ hloop⟩
    exact Bool.eq_false_iff.mpr fun hend => ha hbefore (h.badRead (hs hbefore) hend)
  | session h =>
    rcases h.up hup with ⟨hbefore, hsame⟩ | hfresh
    · exact (congrArg Collector.ending hsame).trans (hs hbefore)
    · exact congrArg Collector.ending hfresh
  | renew h => cases h <;> exact hs hup
  | child h =>
    cases h with
    | exits => cases hup.2.1
    | _ => exact hs hup
  | stays | outside | tick => exact hs hup

/-- A bad read while the session is up ends the collector and not the session. -/
theorem not_reading_step (a : Act) (ha : ¬ Readable serde s a) : ¬ Reading (step cfg serde s a) := by
  simp only [Readable, Classical.not_imp, not_not] at ha
  obtain ⟨hup, hbad⟩ := ha
  cases a with
  | collect a =>
    have hframe := (collectStep_move cfg serde s a).frame
    intro hreading
    have hafter : Up (collectStep cfg serde s a) :=
      ⟨hframe.phase.trans hup.1, hframe.alive.trans hup.2.1, by rw [hframe.dispatch]; exact hup.2.2⟩
    exact Bool.eq_false_iff.mp (hreading hafter) (pauses_of_badRead hbad)
  | _ => exact hbad.elim
end

/-- **A session keeps its reader exactly while there is something to read.** In a run
from the start of `supervise`, the collector stays in its loop while the session is
up if and only if no read meets the end of the stream, an error or an unreadable
frame while the session is up; and then the collector has not returned. -/
theorem session_keeps_reader_iff (cfg : Settings) (serde : Serde) (db : Db) (as : List Act) :
    ((∀ n, Reading (run (step cfg serde) (initial db) (as.take n))) ↔
      Along (step cfg serde) (Readable serde) (initial db) as) ∧
    (Along (step cfg serde) (Readable serde) (initial db) as →
      ∀ n, HasReader (run (step cfg serde) (initial db) (as.take n))) := by
  have hinitial : Reading (initial db) := fun hup => by cases hup.1
  have hkeep : ∀ s a, Reading s → Readable serde s a → Reading (step cfg serde s a) :=
    fun s a hs ha => (step_move cfg serde s a).reading hs ha
  have hiff := throughout_iff hkeep (fun _ hs => hs) (fun _ a _ ha => not_reading_step a ha) as hinitial
  exact ⟨hiff, fun halong n => (hiff.mpr halong n).hasReader⟩

/-- With a job in flight, the child sends a frame whose header says 16 MiB and one
byte. -/
def afterOversized : Supervisor :=
  run (step { worker := 7 } Serde.messagePack) (initial oneWaiting)
    (firstDispatch ++ [.child (.send [1, 0, 0, 1]), .collect (.read 4), .collect .decode])

/-- The collector has returned; the session is up, and holds a job whose completion
nobody will read. -/
theorem session_without_reader :
    Up afterOversized ∧ afterOversized.inflight.ids = {1} ∧ afterOversized.collector = .returned := by
  decide

end Gylo.Worker.Session
