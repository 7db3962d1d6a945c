import Gylo.Wire.Protocol
import Gylo.Worker.Schedules

/-! # Schedules and redeployments

A worker that starts upserts the schedules its code declares, while other
workers, perhaps on older code, are in `fire_due_schedules`. `UPSERT_CRON` moves
`next_run_at` along with the expression; `FIRE_CRON` writes an instant that was
computed from the expression the worker read earlier, whatever the row says by
then. -/
namespace Gylo.Worker.Deploys

open Gylo.Store Gylo.Wire Gylo.Worker.Schedules Runs

/-! ## Workers that register -/

/-- The fleet, and for each worker in `register_schedules` the clock reading it
goes by and the entries it still has to record. -/
structure Deployment where
  fleet : Fleet
  registering : Nat → Option (Time × List CronRegistration) := fun _ => none

inductive Act where
  | fleet (a : Schedules.Act)
  | register (w : Nat) (entries : List CronRegistration)
  | upsertNext (w : Nat)

/-- The record of an entry, with `next_run_at` as computed. -/
def cronEntry (entry : CronRegistration) (next : Time) : Cron where
  name := entry.name
  queue := entry.queue
  task := entry.task
  payload := entry.payload
  expression := entry.expression
  timezone := entry.timezone
  nextRunAt := next

def Deployment.set (s : Deployment) (w : Nat) (r : Option (Time × List CronRegistration)) : Deployment :=
  { s with registering := fun v => if v = w then r else s.registering v }

def Deployment.upsertCron (s : Deployment) (entry : Cron) : Deployment :=
  { s with fleet := { s.fleet with db := s.fleet.db.exec (.upsertCron entry) } }

/-- An entry that does not parse or has no next run is skipped. -/
def step (cal : Calendar) (s : Deployment) : Act → Deployment
  | .fleet a => { s with fleet := Schedules.step cal s.fleet a }
  | .register w entries => s.set w (some (s.fleet.clock, entries))
  | .upsertNext w =>
    match s.registering w with
    | some (now, entry :: rest) =>
      match cal.nextAfter entry.expression entry.timezone now with
      | some next => (s.upsertCron (cronEntry entry next)).set w (some (now, rest))
      | none => s.set w (some (now, rest))
    | _ => s

/-! ## Rows and their expressions -/

/-- Each row's next run is an occurrence of the row's own expression and zone. -/
def Coherent (cal : Calendar) (crons : List Cron) : Prop :=
  ∀ c ∈ crons, cal.occurs c.expression c.timezone c.nextRunAt

/-- A worker that fires a due row read the expression and zone the row still has. -/
def Current (s : Deployment) : Act → Prop
  | .fleet (.fireNext w) => ∀ x ∈ (s.fleet.workers w).next?, ∀ c ∈ s.fleet.db.crons,
      c.name = x.2.name → c.Due s.fleet.clock →
        c.expression = x.2.expression ∧ c.timezone = x.2.timezone
  | _ => True

instance (s : Deployment) : (a : Act) → Decidable (Current s a)
  | .fleet (.fireNext w) => inferInstanceAs (Decidable (∀ x ∈ (s.fleet.workers w).next?,
      ∀ c ∈ s.fleet.db.crons, c.name = x.2.name → c.Due s.fleet.clock →
        c.expression = x.2.expression ∧ c.timezone = x.2.timezone))
  | .fleet (.tick _) | .fleet (.dueCron ..) | .fleet (.readClock _) | .register .. | .upsertNext _ =>
    isTrue trivial

section
variable {cal : Calendar}

/-- `next_after` returns occurrences. -/
theorem occurs_nextAfter {e z : String} {t n : Time} (h : cal.nextAfter e z t = some n) :
    cal.occurs e z n := (cal.least e z t n h).1.1

/-- An upsert writes an occurrence of the new expression, or keeps both the
expression and the instant. -/
theorem coherent_upsertCron {t : Tables} (h : Coherent cal t.crons) {entry : Cron}
    (hentry : cal.occurs entry.expression entry.timezone entry.nextRunAt) :
    Coherent cal (t.upsertCron entry).crons := by
  unfold Tables.upsertCron
  split
  · intro c' hc'
    obtain ⟨c, hc, rfl⟩ := List.mem_map.mp hc'
    split
    · dsimp only
      split
      · exact hentry
      · next hsame =>
        obtain ⟨hexpression, htimezone⟩ := not_or.mp hsame
        rw [← not_not.mp hexpression, ← not_not.mp htimezone]
        exact h c hc
    · exact h c hc
  · intro c hc
    rcases List.mem_append.mp hc with hc | hc
    · exact h c hc
    · cases List.mem_singleton.mp hc
      exact hentry

theorem coherent_exec {db : Db} (h : Coherent cal db.crons) {entry : Cron}
    (hentry : cal.occurs entry.expression entry.timezone entry.nextRunAt) :
    Coherent cal (db.exec (.upsertCron entry)).crons := by
  rcases db.exec_cases (.upsertCron entry) with hsame | heff
  · rwa [hsame]
  · rw [storable_ok heff]
    exact coherent_upsertCron h hentry

/-- `FIRE_CRON` keeps the rows coherent if it writes an occurrence of the row it
wins. -/
theorem coherent_fireCron {s : Fleet} (h : Coherent cal s.db.crons) {name : String} {next : Time}
    (hnext : ∀ c ∈ s.db.crons, c.name = name → c.Due s.clock → cal.occurs c.expression c.timezone next) :
    Coherent cal (s.fireCron name next).db.crons := by
  rcases fireCron_cases s name next with hsame | ⟨won, -, -, -, hcrons, -⟩
  · rwa [hsame]
  · rw [hcrons]
    intro c' hc'
    obtain ⟨c, hc, rfl⟩ := List.mem_map.mp hc'
    unfold fireRow
    split
    · next hwon => exact hnext c hc hwon.1 hwon.2
    · exact h c hc

theorem coherent_step (s : Deployment) (a : Act) (h : Coherent cal s.fleet.db.crons)
    (ha : Current s a) : Coherent cal (step cal s a).fleet.db.crons := by
  cases a with
  | register w entries => exact h
  | upsertNext w =>
    simp only [step]
    split
    · split
      · next hnext => exact coherent_exec h (occurs_nextAfter hnext)
      · exact h
    · exact h
  | fleet a =>
    cases a with
    | tick d => exact h
    | dueCron w limit =>
      simp only [step, Schedules.step]
      split <;> exact h
    | readClock w =>
      simp only [step, Schedules.step]
      split <;> exact h
    | fireNext w =>
      simp only [step, Schedules.step]
      split
      · next now entry rest hlocal =>
        have hcurrent := ha (now, entry) (by rw [hlocal]; rfl)
        split
        · next next hnext =>
          refine coherent_fireCron h fun c hc hname hdue => ?_
          obtain ⟨hexpression, htimezone⟩ := hcurrent c hc hname hdue
          rw [hexpression, htimezone]
          exact occurs_nextAfter hnext
        · exact h
      · exact h
end

/-- **A row keeps to its expression** in every run in which each firing of a due
row comes from a worker that read the expression and zone the row still has. -/
theorem next_run_occurs (cal : Calendar) (db : Db) (hdb : Coherent cal db.crons) (clock : Time)
    (as : List Act) (h : Along (step cal) Current { fleet := { db := db, clock := clock } } as) :
    Coherent cal (run (step cal) { fleet := { db := db, clock := clock } } as).fleet.db.crons :=
  Along.inv (I := fun s : Deployment => Coherent cal s.fleet.db.crons) coherent_step as hdb h

/-! ## A redeployment in between -/

/-- A schedule as the old code declares it, due at 20. -/
def deployed : Db :=
  Db.after [.upsertCron
    { name := "report", queue := "default", task := "report", payload := [],
      expression := "*/20 * * * * *", timezone := "UTC", nextRunAt := 20 }]

/-- The new code declares the schedule with another expression. -/
def redeclared : CronRegistration where
  name := "report"
  queue := "default"
  task := "report"
  expression := "*/30 * * * * *"
  timezone := "UTC"
  payload := []

/-- Worker 0 looks for due schedules at 21. -/
def looks : List Act := [.fleet (.tick 21), .fleet (.dueCron 0 10), .fleet (.readClock 0)]

/-- Worker 1 starts on the new code. -/
def redeploys : List Act := [.fleet (.tick 1), .register 1 [redeclared], .upsertNext 1]

/-- The old schedule fires before the new one is registered. -/
def firesFirst : List Act := looks ++ [.fleet (.fireNext 0)] ++ redeploys

theorem next_run_occurs_fires_first :
    Coherent periodic
      (run (step periodic) { fleet := { db := deployed, clock := 0 } } firesFirst).fleet.db.crons :=
  next_run_occurs periodic deployed
    (show ∀ c ∈ deployed.crons, ∃ n ∈ period c.expression, n ∣ c.nextRunAt by decide) 0 firesFirst (by decide)

/-- Worker 0 stalls until the new expression is due. -/
def stalled : Deployment :=
  run (step periodic) { fleet := { db := deployed, clock := 0 } }
    (looks ++ redeploys ++ [.fleet (.tick 8), .fleet (.fireNext 0)])

/-- It fires the schedule and sends it to the next occurrence of the old expression. -/
theorem stale_expression_fires :
    stalled.fleet.db.crons.map (fun c => (c.expression, c.nextRunAt)) = [("*/30 * * * * *", 40)] ∧
    ¬ Coherent periodic stalled.fleet.db.crons :=
  ⟨by decide, show ¬ ∀ c ∈ stalled.fleet.db.crons, ∃ n ∈ period c.expression, n ∣ c.nextRunAt by decide⟩

end Gylo.Worker.Deploys
