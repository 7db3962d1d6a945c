import Mathlib.Order.Bounds.Basic
import Gylo.Store.Effects

/-! # Firing schedules without a leader

Every worker looks for due schedules, reads its clock, computes the next
occurrence of each and sends `FIRE_CRON`. The statement lets a caller win as
long as the row is due, whichever occurrence the caller had in mind; so a
worker that stalls between its clock reading and the statement can win a later
occurrence and put back a `next_run_at` that is not later at all. -/
namespace Gylo.Worker.Schedules

open Gylo.Store Runs

/-! ## Workers and the clock -/

/-- `Schedule::parse` and `next_after` together: the least occurrence of an
expression in a zone strictly after a time, or nothing if the text is invalid
or no occurrence is left. -/
structure Calendar where
  occurs : String → String → Time → Prop
  nextAfter : String → String → Time → Option Time
  least : ∀ e z t n, nextAfter e z t = some n → IsLeast {m | occurs e z m ∧ t < m} n

/-- What `due_cron` returns of a row. -/
structure DueCron where
  name : String
  expression : String
  timezone : String
deriving DecidableEq

/-- Where a worker is in `fire_due_schedules`. -/
inductive Local where
  | idle
  | due (entries : List DueCron)
  | firing (now : Time) (entries : List DueCron)

/-- The store, the clock everyone shares, the workers, and the occurrences that
have fired so far, each with its schedule. -/
structure Fleet where
  db : Db
  clock : Time := 0
  workers : Nat → Local := fun _ => .idle
  fired : List (String × Time) := []

inductive Act where
  | tick (d : Nat)
  | dueCron (w : Nat) (limit : Int)
  | readClock (w : Nat)
  | fireNext (w : Nat)

def Fleet.set (s : Fleet) (w : Nat) (l : Local) : Fleet :=
  { s with workers := fun v => if v = w then l else s.workers v }

/-- `FIRE_CRON`, with the occurrence it fires. -/
def Fleet.fireCron (s : Fleet) (name : String) (next : Time) : Fleet :=
  match s.db.run (.fireCron name next s.clock), s.db.wonCron name s.clock with
  | .ok db, some won => { s with db := db, fired := (name, won.nextRunAt) :: s.fired }
  | _, _ => s

def step (cal : Calendar) (s : Fleet) : Act → Fleet
  | .tick d => { s with clock := s.clock + d }
  | .dueCron w limit =>
    if limit < 0 then s.set w .idle
    else s.set w (.due ((s.db.dueCron limit s.clock).map fun c =>
      ⟨c.name, c.expression, c.timezone⟩))
  | .readClock w =>
    match s.workers w with
    | .due entries => s.set w (.firing s.clock entries)
    | _ => s
  | .fireNext w =>
    match s.workers w with
    | .firing now (entry :: rest) =>
      match cal.nextAfter entry.expression entry.timezone now with
      | some next => (s.fireCron entry.name next).set w (.firing now rest)
      | none => s.set w (.firing now rest)
    | _ => s

/-- The schedule a worker fires next, with the clock reading it goes by. -/
def Local.next? : Local → Option (Time × DueCron)
  | .firing now (entry :: _) => some (now, entry)
  | _ => none

/-- The occurrence a worker is about to fire was due when it read its clock. -/
def Prompt (s : Fleet) : Act → Prop
  | .fireNext w => ∀ x ∈ (s.workers w).next?, ∀ c ∈ s.db.crons,
      c.name = x.2.name → c.Due s.clock → c.nextRunAt ≤ x.1
  | _ => True

instance (s : Fleet) : (a : Act) → Decidable (Prompt s a)
  | .fireNext w => inferInstanceAs (Decidable (∀ x ∈ (s.workers w).next?, ∀ c ∈ s.db.crons,
      c.name = x.2.name → c.Due s.clock → c.nextRunAt ≤ x.1))
  | .tick _ => isTrue trivial
  | .dueCron .. => isTrue trivial
  | .readClock _ => isTrue trivial

/-! ## What a firing does -/

theorem wonCron_some {db : Db} {name : String} {now : Time} {won : Cron}
    (h : db.wonCron name now = some won) : won ∈ db.crons ∧ won.name = name ∧ won.Due now :=
  ⟨List.mem_of_find?_eq_some h, by simpa using List.find?_some h⟩

theorem fireRow_name (name : String) (next now : Time) (c : Cron) :
    (fireRow name next now c).name = c.name := by
  unfold fireRow
  split <;> rfl

theorem fireRow_won {name : String} {next now : Time} {won : Cron} (hname : won.name = name)
    (hdue : won.Due now) : (fireRow name next now won).nextRunAt = next := by
  rw [fireRow, if_pos ⟨hname, hdue⟩]

/-- `FIRE_CRON` changes nothing, or it fires the occurrence the row is at and
moves the row to `next`. -/
theorem fireCron_cases (s : Fleet) (name : String) (next : Time) :
    s.fireCron name next = s ∨
    ∃ won ∈ s.db.crons, won.name = name ∧ won.Due s.clock ∧
      (s.fireCron name next).db.crons = s.db.crons.map (fireRow name next s.clock) ∧
      (s.fireCron name next).fired = (name, won.nextRunAt) :: s.fired := by
  unfold Fleet.fireCron
  split
  · next db' won hrun hwon =>
    have heff := Db.run_ok hrun
    simp only [Stmt.effect, Tables.fireCron, hwon] at heff
    obtain ⟨hmem, hname, hdue⟩ := wonCron_some hwon
    exact .inr ⟨won, hmem, hname, hdue, congrArg Tables.crons (Except.ok.inj heff).symm, rfl⟩
  · exact .inl rfl

/-- Every occurrence that has fired lies before its schedule's next run, and
none has fired twice. -/
structure Once (s : Fleet) : Prop where
  past : ∀ f ∈ s.fired, ∀ c ∈ s.db.crons, c.name = f.1 → f.2 < c.nextRunAt
  nodup : s.fired.Nodup

/-- What one step may do to the schedules: nothing, or one of them fires the
occurrence it is at and moves on to a later one. -/
def Advances (s s' : Fleet) : Prop :=
  s'.db.crons = s.db.crons ∧ s'.fired = s.fired ∨
  ∃ c ∈ s.db.crons, ∃ c' ∈ s'.db.crons, c'.name = c.name ∧ c.nextRunAt < c'.nextRunAt ∧
    s'.fired = (c.name, c.nextRunAt) :: s.fired ∧
    ∀ d' ∈ s'.db.crons, d' = c' ∨ d' ∈ s.db.crons ∧ d'.name ≠ c.name

theorem advances_fireCron {s : Fleet} {name : String} {next : Time}
    (hnext : ∀ c ∈ s.db.crons, c.name = name → c.Due s.clock → c.nextRunAt < next) :
    Advances s (s.fireCron name next) := by
  rcases fireCron_cases s name next with hsame | ⟨won, hmem, hname, hdue, hcrons, hfired⟩
  · exact .inl (by rw [hsame]; exact ⟨rfl, rfl⟩)
  · refine .inr ⟨won, hmem, fireRow name next s.clock won, ?_, fireRow_name _ _ _ _, ?_, ?_, ?_⟩
    · rw [hcrons]
      exact List.mem_map_of_mem hmem
    · rw [fireRow_won hname hdue]
      exact hnext won hmem hname hdue
    · rw [hfired, hname]
    · intro d' hd'
      rw [hcrons] at hd'
      obtain ⟨d, hd, rfl⟩ := List.mem_map.mp hd'
      by_cases hdn : d.name = name
      · -- the schedule's only row is the one that won
        rw [List.inj_on_of_nodup_map (s.db.valid .cronPkey) hd hmem (hdn.trans hname.symm)]
        exact .inl rfl
      · rw [fireRow, if_neg fun h => hdn h.1]
        exact .inr ⟨hd, hname ▸ hdn⟩

theorem Once.of_advances {s s' : Fleet} (h : Once s) (ha : Advances s s') : Once s' := by
  rcases ha with ⟨hcrons, hfired⟩ | ⟨c, hc, c', hc', hname, hlt, hfired, hrest⟩
  · exact ⟨by rw [hcrons, hfired]; exact h.past, hfired ▸ h.nodup⟩
  · constructor
    · intro f hf d hd hdn
      rw [hfired] at hf
      rcases hrest d hd with rfl | ⟨hold, hne⟩
      · rcases List.mem_cons.mp hf with rfl | hf
        · exact hlt
        · exact (h.past f hf c hc (hname.symm.trans hdn)).trans hlt
      · rcases List.mem_cons.mp hf with rfl | hf
        · exact absurd hdn hne
        · exact h.past f hf d hold hdn
    · rw [hfired, List.nodup_cons]
      exact ⟨fun hmem => lt_irrefl _ (h.past _ hmem c hc rfl), h.nodup⟩

/-- A prompt step advances. -/
theorem advances_step (cal : Calendar) (s : Fleet) (a : Act) (h : Prompt s a) :
    Advances s (step cal s a) := by
  cases a with
  | tick d => exact .inl ⟨rfl, rfl⟩
  | dueCron w limit =>
    simp only [step]
    split <;> exact .inl ⟨rfl, rfl⟩
  | readClock w =>
    simp only [step]
    split <;> exact .inl ⟨rfl, rfl⟩
  | fireNext w =>
    simp only [step]
    split
    · next now entry rest hlocal =>
      have hprompt := h (now, entry) (by rw [hlocal]; rfl)
      split
      · next next hnext =>
        have hafter := (cal.least _ _ _ _ hnext).1.2
        exact advances_fireCron fun c hc hname hdue => (hprompt c hc hname hdue).trans_lt hafter
      · exact .inl ⟨rfl, rfl⟩
    · exact .inl ⟨rfl, rfl⟩

/-- **An occurrence fires at most once** in every run in which each firing
finds the row at an occurrence that was due when the worker read its clock;
and each firing then moves `next_run_at` to a later instant. -/
theorem occurrence_fires_once (cal : Calendar) (db : Db) (clock : Time) (as : List Act) (a : Act)
    (h : Along (step cal) Prompt { db := db, clock := clock } (as ++ [a])) :
    (∀ name at_, (run (step cal) { db := db, clock := clock } (as ++ [a])).fired.count
      (name, at_) ≤ 1) ∧
    Advances (run (step cal) { db := db, clock := clock } as)
      (run (step cal) { db := db, clock := clock } (as ++ [a])) := by
  have honce : Once (run (step cal) { db := db, clock := clock } (as ++ [a])) :=
    Along.inv (fun s a hi ha => hi.of_advances (advances_step cal s a ha)) (as ++ [a])
      ⟨nofun, List.nodup_nil⟩ h
  refine ⟨fun name at_ => List.nodup_iff_count_le_one.mp honce.nodup _, ?_⟩
  rw [run_concat]
  exact advances_step cal _ a (along_append.mp h).2.1

/-! ## Every so many seconds -/

/-- The least multiple of `n` after `t`. -/
theorem isLeast_multiple {n : Int} (hn : 0 < n) (t : Int) :
    IsLeast {m | n ∣ m ∧ t < m} ((t / n + 1) * n) := by
  refine ⟨⟨Int.dvd_mul_left _ _, Int.lt_ediv_add_one_mul_self t hn⟩, fun m hm => ?_⟩
  obtain ⟨⟨k, rfl⟩, hlt⟩ := hm
  have hk : t / n < k := Int.ediv_lt_of_lt_mul hn (by rwa [Int.mul_comm] at hlt)
  rw [Int.mul_comm n k]
  exact Int.mul_le_mul_of_nonneg_right hk hn.le

/-- Expressions that divide the minute, and the seconds from one occurrence to the next. -/
def period (expression : String) : Option Int :=
  if expression = "*/10 * * * * *" then some 10
  else if expression = "*/20 * * * * *" then some 20
  else if expression = "*/30 * * * * *" then some 30
  else none

theorem period_pos {expression : String} {n : Int} (h : period expression = some n) : 0 < n := by
  unfold period at h
  repeat' split at h
  all_goals cases h
  all_goals decide

/-- With a clock that counts seconds. -/
def periodic : Calendar where
  occurs e _ m := ∃ n ∈ period e, n ∣ m
  nextAfter e _ t := (period e).map fun n => (t / n + 1) * n
  least := by
    intro e z t m h
    obtain ⟨n, hn, rfl⟩ := Option.map_eq_some_iff.mp h
    obtain ⟨⟨hdvd, hlt⟩, hleast⟩ := isLeast_multiple (period_pos hn) t
    refine ⟨⟨⟨n, hn, hdvd⟩, hlt⟩, fun k hk => hleast ⟨?_, hk.2⟩⟩
    obtain ⟨n', hn', hdvd'⟩ := hk.1
    cases Option.some.inj (hn.symm.trans hn')
    exact hdvd'

/-- A schedule is registered and due at 10. -/
def registered : Db :=
  Db.after [.upsertCron
    { name := "report", queue := "default", task := "report", payload := [],
      expression := "*/10 * * * * *", timezone := "UTC", nextRunAt := 10 }]

/-- Two workers go through the due schedule one after the other. -/
def inTurn : List Act :=
  [.tick 11, .dueCron 0 10, .readClock 0, .dueCron 1 10, .readClock 1, .fireNext 1]

theorem occurrence_fires_once_inTurn :
    (run (step periodic) { db := registered } (inTurn ++ [.fireNext 0])).fired.count
      ("report", 10) ≤ 1 :=
  (occurrence_fires_once periodic registered 0 inTurn (.fireNext 0) (by decide)).1 "report" 10

/-- Worker 0 stalls between its clock reading and its statement until the next
occurrence is due: it fires that one and leaves the row where it was, and
worker 1 fires it again. -/
theorem occurrence_fires_twice :
    (run (step periodic) { db := registered } (inTurn ++ [.tick 10, .fireNext 0,
      .dueCron 1 10, .readClock 1, .fireNext 1])).fired = [("report", 20), ("report", 20), ("report", 10)] ∧
    (run (step periodic) { db := registered } (inTurn ++ [.tick 10, .fireNext 0])).db.crons.map
      Cron.nextRunAt = [20] := by
  decide

end Gylo.Worker.Schedules
