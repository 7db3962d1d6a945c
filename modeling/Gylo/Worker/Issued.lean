import Gylo.Store.Holding
import Gylo.Store.Notifications
import Gylo.Worker.Moves

/-! # What a supervisor asks of the database

Every step of a supervisor executes at most one statement. Which one, and when,
depends on where its tasks are; whatever is proved of the statements one by one
carries over to steps through the two lemmas at the end. -/
namespace Gylo.Worker.Session

open Gylo.Store Gylo.Store.FetchCall Gylo.Store.Holding Gylo.Store.Notifications Gylo.Wire

/-- The database after a step that executes this. -/
def executeIn (db : Db) : Option Stmt → Db
  | some stmt => db.exec stmt
  | none => db

/-- The statements `supervise` and its tasks issue on their own, at the present moment:
this worker's, a reclaim, or the record of a step. -/
def Own (cfg : Settings) (now : Time) (stmt : Stmt) : Prop :=
  time? stmt = some now ∧ (actsFor stmt = some cfg.worker ∨ (∃ limit visit, stmt = .reclaim limit visit now) ∨
    ∃ id name result, stmt = .recordStep id name result now)

section
variable {cfg : Settings} {serde : Serde} {s s' : Supervisor} {stmt : Option Stmt}

theorem DispatchMove.db {a : DispatchAct} (h : DispatchMove cfg s a stmt s') :
    s'.db = executeIn s.db stmt := by
  cases h with
  | fetchFails h =>
    cases h with
    | unkeyedRefused hat hcommit hrun | keyedRefused hat hcommit hrun => exact (Db.exec_of_error hrun).symm
    | _ => rfl
  | unkeyed hat hrun | unkeyedLost hat hrun | keyed hat hrun | keyedLost hat hrun =>
    exact (Db.exec_of_run hrun).symm
  | _ => rfl

theorem CollectMove.db {a : CollectAct} (h : CollectMove cfg serde s a stmt s') :
    s'.db = executeIn s.db stmt := by
  cases h with
  | recordRefused hat hrun => exact (Db.exec_of_error hrun).symm
  | recorded hat hrun => exact (Db.exec_of_run hrun).symm
  | calls =>
    simp only [issue]
    split <;> rfl
  | _ => rfl

/-- **Every step leaves the database, or executes one statement on it.** -/
theorem Move.db {a : Act} (h : Move cfg serde s a stmt s') : s'.db = executeIn s.db stmt := by
  cases h with
  | dispatch hserving h => exact h.db
  | collect h => exact h.db
  | session h => cases h <;> rfl
  | renew h => cases h <;> rfl
  | child h => cases h <;> rfl
  | _ => rfl

theorem step_executes (cfg : Settings) (serde : Serde) (s : Supervisor) (a : Act) :
    (step cfg serde s a).db = executeIn s.db (executed cfg s a) := (step_move cfg serde s a).db

/-! ## Whose it is -/

theorem own_flushStmt {random : JobId → Nat} {stage : FlushStage} {stmt : Stmt}
    (h : flushStmt cfg s random stage = some stmt) : Own cfg s.now stmt := by
  cases stage <;> cases h
  all_goals exact ⟨rfl, .inl rfl⟩

/-- What a step executes is its own, or what another party brings. -/
theorem Move.own {a : Act} {stmt : Stmt} (h : Move cfg serde s a (some stmt) s') :
    Own cfg s.now stmt ∨ a = .outside stmt ∧ actsFor stmt ≠ some cfg.worker := by
  have hmine : ∀ {stmt : Stmt}, time? stmt = some s.now → actsFor stmt = some cfg.worker →
      Own cfg s.now stmt := fun htime hacts => ⟨htime, .inl hacts⟩
  generalize ho : some stmt = o at h
  cases h with
  | dispatch hserving h =>
    cases h with
    | fetchFails h =>
      cases h <;> cases ho
      all_goals exact .inl (hmine rfl rfl)
    | _ =>
      cases ho
      all_goals exact .inl (hmine rfl rfl)
  | collect h =>
    cases h with
    | recordRefused | recorded =>
      cases ho
      exact .inl ⟨rfl, .inr (.inr ⟨_, _, _, rfl⟩)⟩
    | calls hat hstmt =>
      split at ho <;> cases ho
      exact .inl (own_flushStmt hstmt)
    | _ => cases ho
  | session h =>
    cases h with
    | abandons =>
      cases ho
      exact .inl (hmine rfl rfl)
    | reclaims =>
      cases ho
      exact .inl ⟨rfl, .inr (.inl ⟨_, _, rfl⟩)⟩
    | _ => cases ho
  | renew h =>
    cases h with
    | executes =>
      cases ho
      exact .inl (hmine rfl rfl)
    | _ => cases ho
  | outside hother =>
    cases ho
    exact .inr ⟨rfl, hother⟩
  | _ => cases ho

/-- Both at once. -/
theorem step_db (cfg : Settings) (serde : Serde) (s : Supervisor) (a : Act) :
    (step cfg serde s a).db = s.db ∨ ∃ stmt, (step cfg serde s a).db = s.db.exec stmt ∧
      (Own cfg s.now stmt ∨ a = .outside stmt ∧ actsFor stmt ≠ some cfg.worker) := by
  have hmove := step_move cfg serde s a
  have hdb := hmove.db
  cases h : executed cfg s a with
  | none =>
    rw [h] at hdb
    exact .inl hdb
  | some stmt =>
    rw [h] at hmove hdb
    exact .inr ⟨stmt, hdb, hmove.own⟩
end

end Gylo.Worker.Session
