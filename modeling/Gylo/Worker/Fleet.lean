import Gylo.Worker.Heartbeat
import Gylo.Worker.Supervision

/-! # Many supervisors, one queue

"Children coordinate through the queue and nothing else": every supervisor of every
worker process leases under an id of its own, and what it shares with the others is
the database and the clock of its server. Seen by one of them, the others are
statements from outside, so whatever holds of one supervisor among such statements
holds of each member of a fleet. -/
namespace Gylo.Worker.Fleet

open Gylo.Store Gylo.Store.Holding Gylo.Wire Gylo.Worker.Session Runs
open Gylo.Worker.Supervision (Launch validate validate_ok)

/-! ## The fleet -/

/-- The shared database and clock, and the rest of each supervisor's state. -/
structure State (n : Nat) where
  db : Db
  now : Time := 0
  members : Fin n → Supervisor

variable {n : Nat}

def shared (db : Db) (now : Time) (s : Supervisor) : Supervisor := { s with db := db, now := now }

/-- A member with what it shares. -/
def State.view (f : State n) (i : Fin n) : Supervisor := shared f.db f.now (f.members i)

inductive Act (n : Nat) where
  | member (i : Fin n) (a : Session.Act)
  | outside (stmt : Stmt)
  | tick (d : Nat)

/-- What a supervisor, its tasks or its child do themselves. -/
def own : Session.Act → Bool
  | .outside _ | .tick _ => false
  | _ => true

/-- A reclaim that has read a time still to come. -/
def ahead (now : Time) : Stmt → Bool
  | .reclaim _ _ time => decide (now < time)
  | _ => false

section
variable (cfg : Fin n → Settings) (serde : Serde)

/-- One member acts, somebody else does who is no member, or time passes, for all. A
statement reads the clock of the server, and a timer that is due fires before the
clock goes on. -/
def step (f : State n) : Act n → State n
  | .member i a =>
    if own a then
      { f with
        db := (Session.step (cfg i) serde (f.view i) a).db
        members := fun k => if k = i then Session.step (cfg i) serde (f.view i) a else f.members k }
    else f
  | .outside stmt =>
    if (List.finRange n).any (fun i => actsFor stmt = some (cfg i).worker) || ahead f.now stmt then f
    else { f with db := f.db.exec stmt }
  | .tick d =>
    if (List.finRange n).any (fun i => (f.members i).renewing && decide ((f.members i).renewal = .asleep) &&
        decide ((f.members i).wokenAt + (cfg i).maintenanceInterval < f.now + d)) then f
    else { f with now := f.now + d }

/-- Every `supervise` when it is called. -/
def initial (db : Db) : State n := { db := db, members := fun _ => Session.initial db }

/-- What is asked of a step is asked of each member it concerns. -/
def Brisk (margin : Fin n → Nat) (f : State n) : Act n → Prop
  | .member i a => Session.Brisk (cfg i) (margin i) (f.view i) a
  | .outside _ => True
  | .tick d => ∀ i, Session.Brisk (cfg i) (margin i) (f.view i) (.tick d)
end

/-! ## A member on its own -/

section
variable {cfg : Fin n → Settings} {serde : Serde} {margin : Fin n → Nat} {f : State n}

theorem now_step {c : Settings} {s : Supervisor} {a : Session.Act} (ha : own a = true) :
    (Session.step c serde s a).now = s.now := by
  refine (step_move c serde s a).now.resolve_right fun htick => ?_
  obtain ⟨d, rfl⟩ := htick
  cases ha

theorem shared_self {s : Supervisor} {now : Time} (h : s.now = now) : shared s.db now s = s := by
  subst h
  rfl

theorem view_self {i : Fin n} {a : Session.Act} (ha : own a = true) :
    (step cfg serde f (.member i a)).view i = Session.step (cfg i) serde (f.view i) a := by
  have hnow : (Session.step (cfg i) serde (f.view i) a).now = f.now := now_step ha
  unfold step
  dsimp only
  rw [if_pos ha]
  unfold State.view
  dsimp only
  rw [if_pos rfl]
  exact shared_self hnow

/-- What a member executes on its own acts for no other. -/
theorem own_acts {c : Settings} {w : Uuid} {now : Time} {stmt : Stmt} (h : Own c now stmt) (hw : c.worker ≠ w) :
    actsFor stmt ≠ some w ∧ ahead now stmt = false := by
  rcases h.2 with hmine | ⟨limit, visit, rfl⟩ | ⟨id, name, result, rfl⟩
  · refine ⟨fun hother => hw (Option.some.inj (hmine.symm.trans hother)), ?_⟩
    cases stmt with
    | reclaim => cases hmine
    | _ => rfl
  · exact ⟨(fun h => by cases h), decide_eq_false (Int.lt_irrefl _)⟩
  · exact ⟨(fun h => by cases h), rfl⟩

theorem brisk_outside {c : Settings} {m : Nat} {s : Supervisor} {stmt : Stmt} (h : ahead s.now stmt = false) :
    Session.Brisk c m s (.outside stmt) := by
  refine ⟨trivial, ?_⟩
  cases stmt with
  | reclaim limit visit time => exact not_lt.mp (of_decide_eq_false h)
  | _ => trivial

/-- What one member executes is a statement from outside to another. -/
theorem view_other {i k : Fin n} (hne : k ≠ i) (hworker : (cfg i).worker ≠ (cfg k).worker)
    {a : Session.Act} (ha : own a = true) :
    (step cfg serde f (.member i a)).view k = f.view k ∨
      ∃ stmt, (step cfg serde f (.member i a)).view k = Session.step (cfg k) serde (f.view k) (.outside stmt) ∧
        Session.Brisk (cfg k) (margin k) (f.view k) (.outside stmt) := by
  have hview : (step cfg serde f (.member i a)).view k =
      { f.view k with db := (Session.step (cfg i) serde (f.view i) a).db } := by
    unfold step
    dsimp only
    rw [if_pos ha]
    unfold State.view
    dsimp only
    rw [if_neg hne]
    rfl
  rw [hview]
  rcases step_db (cfg i) serde (f.view i) a with hsame | ⟨stmt, hexec, hown | ⟨hout, -⟩⟩
  · rw [hsame]
    exact .inl rfl
  · obtain ⟨hother, hclock⟩ := own_acts hown hworker
    refine .inr ⟨stmt, ?_, brisk_outside hclock⟩
    rw [hexec]
    exact (if_neg hother).symm
  · rw [hout] at ha
    cases ha

/-- **A member of a fleet is a supervisor among statements from outside.** What a step
of the fleet does to it is nothing, or one step it could take alone, under the same
conditions. -/
theorem view_step (serde : Serde) (margin : Fin n → Nat)
    (hdistinct : ∀ i k, (cfg i).worker = (cfg k).worker → i = k) (f : State n) (a : Act n) (k : Fin n) :
    (step cfg serde f a).view k = f.view k ∨
      ∃ b, (step cfg serde f a).view k = Session.step (cfg k) serde (f.view k) b ∧
        (Brisk cfg margin f a → Session.Brisk (cfg k) (margin k) (f.view k) b) := by
  cases a with
  | member i a =>
    by_cases ha : own a = true
    · by_cases hk : k = i
      · subst hk
        exact .inr ⟨a, view_self ha, fun h => h⟩
      · have hworker : (cfg i).worker ≠ (cfg k).worker := fun hw => hk (hdistinct i k hw).symm
        exact (view_other hk hworker ha).imp_right fun ⟨stmt, hview, hbrisk⟩ => ⟨_, hview, fun _ => hbrisk⟩
    · refine .inl ?_
      unfold step
      dsimp only
      rw [if_neg ha]
  | outside stmt =>
    unfold step
    dsimp only
    split
    · exact .inl rfl
    · next hnot =>
      simp only [Bool.or_eq_true, List.any_eq_true, List.mem_finRange, true_and, decide_eq_true_eq, not_or,
        not_exists, Bool.not_eq_true] at hnot
      exact .inr ⟨.outside stmt, (if_neg (hnot.1 k)).symm, fun _ => brisk_outside hnot.2⟩
  | tick d =>
    unfold step
    dsimp only
    split
    · exact .inl rfl
    · next hnot =>
      simp only [List.any_eq_true, List.mem_finRange, true_and, Bool.and_eq_true, decide_eq_true_eq,
        not_exists] at hnot
      refine .inr ⟨.tick d, (if_neg fun hdue => hnot k ?_).symm, fun h => h k⟩
      exact ⟨⟨hdue.1, hdue.2.1⟩, hdue.2.2⟩
end

/-! ## One job, one supervisor -/

/-- The supervisor has the job in flight, with `renew` running and its outcome not sent. -/
def Has (f : State n) (i : Fin n) (id : JobId) : Prop :=
  (f.members i).renewing = true ∧ id ∈ (f.members i).inflight.ids ∧ id ∉ reporting (f.members i)

instance (f : State n) (i : Fin n) (id : JobId) : Decidable (Has f i id) :=
  inferInstanceAs (Decidable (_ ∧ _ ∧ _))

theorem steady_run {cfg : Fin n → Settings} {margin : Fin n → Nat} (serde : Serde)
    (hdistinct : ∀ i k, (cfg i).worker = (cfg k).worker → i = k)
    (hcadence : ∀ i, period (cfg i) (margin i) ≤ (cfg i).lease) {db : Db} (hdb : Orderly db)
    (as : List (Act n)) (h : Along (step cfg serde) (Brisk cfg margin) (initial db) as) (k : Fin n) :
    Steady (cfg k) (margin k) ((run (step cfg serde) (initial db) as).view k) := by
  have hkeep : ∀ f a, (∀ k, Steady (cfg k) (margin k) (f.view k)) → Brisk cfg margin f a →
      ∀ k, Steady (cfg k) (margin k) ((step cfg serde f a).view k) := by
    intro f a hsteady hbrisk k
    rcases view_step serde margin hdistinct f a k with hsame | ⟨b, hview, hb⟩
    · rw [hsame]
      exact hsteady k
    · rw [hview]
      exact (step_move (cfg k) serde (f.view k) b).steady (hsteady k) (hcadence k) (hb hbrisk)
  exact Along.inv (I := fun f => ∀ k, Steady (cfg k) (margin k) (f.view k)) hkeep as
    (fun _ => steady_initial hdb) h k

/-- Half of what a lease lasts beyond the maintenance interval. -/
def slack (launch : Launch) : Nat := ((launch.lease - launch.maintenanceInterval) / 2).toNat

/-- A valid configuration leaves room for it twice. -/
theorem period_le_lease {launch : Launch} (h : validate launch = .ok ()) :
    period launch.toSettings (slack launch) ≤ launch.lease := by
  have hcadence : (launch.maintenanceInterval : Int) < launch.lease := (validate_ok h).2.2.2.2.2
  have hhalf : ∀ {a b : Int}, b < a → b + 2 * (((a - b) / 2).toNat : Int) ≤ a := by
    intro a b hlt
    omega
  exact hhalf hcadence

/-- Two processes of one worker. -/
def twoProcesses (i : Fin 2) : Launch := { worker := 7 + i.val, app := "app:app", processes := 2 }

/-- The first leases and dispatches a job; the second finds nothing; ten seconds later the
first wakes to renew, a second passes before its statement is executed, another before
it is answered, and somebody reclaims. -/
def firstHeartbeat : List (Act 2) :=
  (firstDispatch.map (Act.member 0)) ++
    [.member 1 (.session .start), .member 1 (.session .accept), .member 1 (.dispatch .check),
      .member 1 (.dispatch .tryRecv), .member 1 (.dispatch (.fetchUnkeyed [] .ok)), .tick 10000000,
      .member 0 (.renew .wake), .member 1 (.renew .wake), .tick 1000000, .member 0 (.renew .execute),
      .tick 1000000, .member 0 (.renew .answered), .outside (.reclaim 1000 [1] 12000000)]

theorem brisk_firstHeartbeat : Along (step (fun i => (twoProcesses i).toSettings) Serde.messagePack)
    (Brisk (fun i => (twoProcesses i).toSettings) fun i => slack (twoProcesses i)) (initial oneWaiting)
    firstHeartbeat := by
  have hfree : True ∧ True := ⟨trivial, trivial⟩
  refine ⟨hfree, hfree, hfree, hfree, hfree, hfree, hfree, hfree, hfree, hfree, hfree, hfree, hfree, ?_, hfree,
    hfree, ?_, hfree, ?_, And.intro (fun _ h => by cases h) trivial, trivial, trivial⟩
  all_goals
    unfold Brisk Session.Brisk Prompt Careful
    decide +kernel

end Gylo.Worker.Fleet
