import Mathlib.Order.Bounds.Basic
import Gylo.Worker.Schedules

/-! # Cron expressions and the zone they are read in

`gylo_core::schedule`: an expression is filled up to the seven fields the `cron`
crate reads, parsed together with its zone, and asked for its first occurrence
after an instant. Both crates are parameters with the behaviour their
documentation gives; the year field lets an expression have a last occurrence. -/
namespace Gylo.Worker.Expressions

open Gylo.Store Gylo.Worker.Schedules

/-! ## Fields -/

/-- The code points `char::is_whitespace` accepts. -/
def whiteSpace : List Nat :=
  [9, 10, 11, 12, 13, 32, 133, 160, 5760, 8192, 8193, 8194, 8195, 8196, 8197, 8198, 8199, 8200,
    8201, 8202, 8232, 8233, 8239, 8287, 12288]

def isWhitespace (c : Char) : Bool := whiteSpace.contains c.toNat

/-- `str::split_whitespace`: the non-empty pieces between white space. -/
def splitWhitespace (text : List Char) : List (List Char) :=
  (text.splitOnP isWhitespace).filter fun piece => !piece.isEmpty

/-- Seconds lead and the year trails in what the `cron` crate reads. -/
def normalise (expression : String) : String :=
  match (splitWhitespace expression.toList).length with
  | 5 => "0 " ++ expression ++ " *"
  | 6 => expression ++ " *"
  | _ => expression

/-! ## Schedules -/

inductive ScheduleError where
  | expression (expression reason : String)
  | timezone (timezone : String)
  | noOccurrence (expression : String)
deriving DecidableEq

/-- The crates underneath: `Tz::from_str`, `cron::Schedule::from_str` with the
reason it gives, the text a parsed expression is displayed as, and
`after(..).next()`, which finds the least occurrence after an instant if there
is one. That is what its documentation says; version 0.17 departs from it inside an
hour that a zone repeats when its clocks are put back. -/
structure Crates where
  Zone : Type
  Cron : Type
  zone : String → Option Zone
  cron : String → Except String Cron
  text : Cron → String
  occurs : Cron → Zone → Time → Prop
  after : Cron → Zone → Time → Option Time
  least : ∀ c z t n, after c z t = some n → IsLeast {m | occurs c z m ∧ t < m} n
  last : ∀ c z t, after c z t = none → ∀ m, occurs c z m → m ≤ t

structure Schedule (crates : Crates) where
  cron : crates.Cron
  zone : crates.Zone

def Schedule.parse (crates : Crates) (expression timezone : String) :
    Except ScheduleError (Schedule crates) :=
  match crates.zone timezone with
  | none => .error (.timezone timezone)
  | some zone =>
    match crates.cron (normalise expression) with
    | .error reason => .error (.expression expression reason)
    | .ok cron => .ok ⟨cron, zone⟩

/-- The first occurrence strictly after `after`. -/
def Schedule.nextAfter {crates : Crates} (s : Schedule crates) (after : Time) :
    Except ScheduleError Time :=
  match crates.after s.cron s.zone after with
  | some at_ => .ok at_
  | none => .error (.noOccurrence (crates.text s.cron))

/-- What both loops of the worker compute: parse, then the next occurrence. -/
def Crates.advance (crates : Crates) (expression timezone : String) (now : Time) :
    Except ScheduleError Time :=
  match Schedule.parse crates expression timezone with
  | .error e => .error e
  | .ok schedule => schedule.nextAfter now

section
variable {crates : Crates} {expression timezone : String} {now next : Time}

theorem advance_ok (h : crates.advance expression timezone now = .ok next) :
    ∃ schedule, Schedule.parse crates expression timezone = .ok schedule ∧
      crates.after schedule.cron schedule.zone now = some next := by
  unfold Crates.advance at h
  split at h
  · cases h
  · next schedule hparse =>
    unfold Schedule.nextAfter at h
    split at h
    · next hafter => cases h; exact ⟨schedule, hparse, hafter⟩
    · cases h

theorem lt_of_advance (h : crates.advance expression timezone now = .ok next) : now < next := by
  obtain ⟨schedule, -, hafter⟩ := advance_ok h
  exact (crates.least _ _ _ _ hafter).1.2

/-- An expression that cannot be advanced cannot be advanced later on. -/
theorem advance_earlier {later : Time} (hle : now ≤ later)
    (h : crates.advance expression timezone later = .ok next) :
    ∃ earlier, crates.advance expression timezone now = .ok earlier := by
  obtain ⟨schedule, hparse, hafter⟩ := advance_ok h
  obtain ⟨hoccurs, hlt⟩ := (crates.least _ _ _ _ hafter).1
  unfold Crates.advance Schedule.nextAfter
  rw [hparse]
  cases hnow : crates.after schedule.cron schedule.zone now with
  | some earlier => exact ⟨earlier, by simp only [hnow]⟩
  | none =>
    -- `next` is an occurrence after `now`, so there was one left
    exact absurd (hle.trans_lt hlt) (not_lt.mpr (crates.last _ _ _ hnow next hoccurs))

end

/-- The calendar by which the fleet's workers compute. -/
def Crates.calendar (crates : Crates) : Calendar where
  occurs e z t := ∃ schedule, Schedule.parse crates e z = .ok schedule ∧
    crates.occurs schedule.cron schedule.zone t
  nextAfter e z t := (crates.advance e z t).toOption
  least := by
    intro e z t n h
    cases hadvance : crates.advance e z t with
    | error err => rw [hadvance] at h; cases h
    | ok next =>
      rw [hadvance] at h
      cases h
      obtain ⟨schedule, hparse, hafter⟩ := advance_ok hadvance
      obtain ⟨⟨hoccurs, hlt⟩, hleast⟩ := crates.least _ _ _ _ hafter
      refine ⟨⟨⟨schedule, hparse, hoccurs⟩, hlt⟩, ?_⟩
      intro m hm
      obtain ⟨⟨other, hother, hocc⟩, hltm⟩ := hm
      cases hparse.symm.trans hother
      exact hleast ⟨hocc, hltm⟩

end Gylo.Worker.Expressions
