import Gylo.Lib.Outputs
import Gylo.Worker.Concurrency
import Gylo.Worker.Issued

/-! # A supervisor that is told to stop

The shutdown token is looked at where `dispatch` starts a round and where it waits, so
a request that comes in the middle of a round lets that round finish: one more `fetch`,
with both of its passes, and what it leases is still handed to the child. After it
nothing is leased, and no session is started. -/
namespace Gylo.Worker.Shutdown

open Gylo.Store Gylo.Store.FetchCall Gylo.Store.Holding Gylo.Wire Gylo.Worker.Session Runs

/-! ## What a statement leases -/

/-- The jobs that the worker has leased between two databases: it holds them on a later
attempt. -/
def leasedBetween (worker : Uuid) (db db' : Db) : List JobId :=
  (db'.jobs.filter fun k =>
    decide (k.HeldBy worker ∧ ∃ j ∈ db.jobs, j.id = k.id ∧ j.attempt < k.attempt)).map Job.id

/-- The rows a fetch for the worker chooses. -/
def chosenFor (worker : Uuid) (db : Db) : Stmt → List Job
  | .fetchUnkeyed a => if a.worker = worker then db.lockedUnkeyed a else []
  | .fetchKeyed a => if a.worker = worker then db.admitted a db.toTables else []
  | _ => []

section
variable {worker : Uuid} {db : Db}

theorem leasedBetween_self : leasedBetween worker db db = [] := by
  unfold leasedBetween
  rw [List.map_eq_nil_iff, List.filter_eq_nil_iff]
  intro k hk hleased
  obtain ⟨-, j, hj, hid, hlt⟩ := of_decide_eq_true hleased
  rw [db.eq_of_id hj hk hid] at hlt
  exact absurd hlt (Int.lt_irrefl _)

/-- A row that a fetch has leased is one it chose, and the fetch was the worker's. -/
theorem chosen_of_leaseRow {a : Fetch} {chosen : List Job} {j : Job}
    (hheld : (leaseRow a (chosen.map Job.id) j).HeldBy worker)
    (hlt : j.attempt < (leaseRow a (chosen.map Job.id) j).attempt) :
    a.worker = worker ∧ j.id ∈ chosen.map Job.id := by
  unfold leaseRow at hheld hlt
  split at hheld
  · next hchosen => exact ⟨Option.some.inj hheld.1, hchosen⟩
  · next hother =>
    rw [if_neg hother] at hlt
    exact absurd hlt (Int.lt_irrefl _)

/-- Only a lease counts an attempt. -/
theorem not_leased_of_rowStep {j k : Job} (h : RowStep (fun _ => False) j k) (hheld : k.HeldBy worker) :
    ¬ j.attempt < k.attempt := by
  cases h with
  | lease _ _ _ _ pick => exact pick.elim
  | requeue => cases hheld.2
  | _ => exact Int.lt_irrefl _

theorem chosen_of_rowMap {stmt : Stmt} {j : Job} (hj : j ∈ db.jobs)
    (hheld : (stmt.rowMap db.toTables j).HeldBy worker) (hlt : j.attempt < (stmt.rowMap db.toTables j).attempt) :
    j.id ∈ (chosenFor worker db stmt).map Job.id := by
  have hstep := stmt.rowMap_step db.ids_nodup j hj
  cases stmt with
  | fetchUnkeyed a =>
    obtain ⟨hworker, hchosen⟩ := chosen_of_leaseRow hheld hlt
    rw [chosenFor, if_pos hworker]
    exact hchosen
  | fetchKeyed a =>
    obtain ⟨hworker, hchosen⟩ := chosen_of_leaseRow hheld hlt
    rw [chosenFor, if_pos hworker]
    exact hchosen
  | _ => exact absurd hlt (not_leased_of_rowStep hstep hheld)

theorem mem_leasedBetween {db' : Db} {id : JobId} (h : id ∈ leasedBetween worker db db') :
    ∃ k ∈ db'.jobs, ∃ j ∈ db.jobs, k.id = id ∧ j.id = id ∧ k.HeldBy worker ∧ j.attempt < k.attempt := by
  obtain ⟨k, hk, rfl⟩ := List.mem_map.mp h
  obtain ⟨hmem, hleased⟩ := List.mem_filter.mp hk
  obtain ⟨hheld, j, hj, hid, hlt⟩ := of_decide_eq_true hleased
  exact ⟨k, hmem, j, hj, rfl, hid, hheld, hlt⟩

/-- **What a statement leases for the worker is what it chose.** -/
theorem leasedBetween_exec {stmt : Stmt} {id : JobId} (h : id ∈ leasedBetween worker db (db.exec stmt)) :
    id ∈ (chosenFor worker db stmt).map Job.id := by
  obtain ⟨k, hk, j, hj, hkid, rfl, hheld, hlt⟩ := mem_leasedBetween h
  rcases db.exec_form stmt with hsame | hform
  · rw [hsame] at hk
    rw [db.eq_of_id hj hk hkid.symm] at hlt
    exact absurd hlt (Int.lt_irrefl _)
  · generalize (db.exec stmt).toTables = t' at hform hk
    cases hform with
    | rows step =>
      obtain ⟨j', hj', rfl⟩ := List.mem_map.mp hk
      cases db.eq_of_id hj' hj ((step j' hj').same.id.symm.trans hkid)
      exact chosen_of_rowMap hj hheld hlt
    | complete batch worker' now hstmt =>
      obtain ⟨j', hj', rfl⟩ := List.mem_map.mp hk
      have hsame := (completeRow_step batch worker' now db.toTables j').same
      cases db.eq_of_id hj' hj (hsame.id.symm.trans hkid)
      refine absurd hlt ?_
      unfold Tables.completeRow
      split
      · exact Int.lt_irrefl _
      · dsimp only
        split <;> exact Int.lt_irrefl _
    | insert rows es new jobs edges =>
      rw [jobs] at hk
      rcases List.mem_append.mp hk with hold | hrow
      · rw [db.eq_of_id hj hold hkid.symm] at hlt
        exact absurd hlt (Int.lt_irrefl _)
      · cases hheld.2.symm.trans (new.state k hrow)
    | delete deletes jobs edges =>
      rw [db.eq_of_id hj (jobs.mem hk) hkid.symm] at hlt
      exact absurd hlt (Int.lt_irrefl _)

theorem length_leasedBetween (stmt : Stmt) :
    (leasedBetween worker db (db.exec stmt)).length ≤ (chosenFor worker db stmt).length := by
  have hnodup : (leasedBetween worker db (db.exec stmt)).Nodup :=
    (db.exec stmt).ids_nodup.sublist (List.filter_sublist.map Job.id)
  rw [← List.length_map Job.id]
  exact (hnodup.subperm fun _ hid => leasedBetween_exec hid).length_le

theorem length_leasedBetween_run {stmt : Stmt} {db' : Db} (hrun : db.run stmt = .ok db') :
    (leasedBetween worker db db').length ≤ (chosenFor worker db stmt).length := by
  rw [← Db.exec_of_run hrun]
  exact length_leasedBetween stmt
end

/-! ## What `dispatch` may still lease -/

/-- How many jobs `dispatch` may still lease before it looks at the token again. -/
def allowance (cfg : Settings) : Dispatch → Nat
  | .acking | .forwarding _ true => cfg.batch.toNat + 1
  | .fetching limit | .asking limit => limit.toNat + 1
  | .admitting limit jobs => (max (limit - jobs.length) 1).toNat
  | _ => 0

/-- What the worker leases in a step. -/
def leases (cfg : Settings) (serde : Serde) (s : Supervisor) (a : Act) : List JobId :=
  leasedBetween cfg.worker s.db (step cfg serde s a).db

section
variable {cfg : Settings} {serde : Serde} {s s' : Supervisor} {stmt : Option Stmt} {n : Nat}

/-- What a step leases is what its statement chooses. -/
theorem length_executed (h : ∀ st ∈ stmt, (chosenFor cfg.worker s.db st).length ≤ n) :
    (leasedBetween cfg.worker s.db (executeIn s.db stmt)).length ≤ n := by
  cases stmt with
  | none =>
    rw [executeIn, leasedBetween_self]
    exact Nat.zero_le n
  | some st => exact Nat.le_trans (length_leasedBetween st) (h st rfl)

theorem length_executed_none (h : ∀ st ∈ stmt, chosenFor cfg.worker s.db st = []) :
    (leasedBetween cfg.worker s.db (executeIn s.db stmt)).length ≤ 0 :=
  length_executed fun st hst => Nat.le_of_eq (congrArg List.length (h st hst))

/-! ## `dispatch` -/

/-- Outside its two passes `dispatch` only moves on, and a round begins with a look at
the token. -/
theorem allowance_turn {a : DispatchAct} {d : Dispatch} (h : Turns cfg s a d) (hn : allowance cfg s.dispatch ≤ n)
    (hround : s.shutdown = true ∨ cfg.batch.toNat + 1 ≤ n) : allowance cfg d ≤ n := by
  cases h with
  | looks hat hup => exact hround.resolve_left (Bool.eq_false_iff.mp hup)
  | calls hat =>
    rw [hat] at hn
    simp only [allowance] at hn ⊢
    omega
  | admits hat =>
    rw [hat] at hn
    simp only [allowance, List.length_nil] at hn ⊢
    omega
  | _ => exact Nat.zero_le _

/-- The first pass returns every row it has chosen, so what it leases is taken off the
second. -/
theorem allowance_afterUnkeyed {limit : Int} {jobs : List LeasedJob} {leased : Nat} (hleased : leased ≤ jobs.length)
    (hlimit : jobs.length ≤ limit.toNat) :
    leased + allowance cfg (afterUnkeyed cfg s limit jobs) ≤ limit.toNat + 1 := by
  unfold afterUnkeyed
  split
  · next hnone =>
    rw [hnone, List.length_nil] at hleased
    simp only [allowance]
    omega
  · split
    · simp only [allowance]
      omega
    · simp only [allowance]
      omega

theorem length_leased_unkeyed {limit : Int} {skip : List JobId} {db' : Db}
    (hrun : s.db.run (.fetchUnkeyed (unkeyedArgs (call cfg limit) (meets s skip))) = .ok db') :
    (leasedBetween cfg.worker s.db db').length ≤
      (s.db.lockedUnkeyed (unkeyedArgs (call cfg limit) (meets s skip))).length := by
  have hworker : (unkeyedArgs (call cfg limit) (meets s skip)).worker = cfg.worker := rfl
  have hlen : _ ≤ (chosenFor cfg.worker _ _).length := length_leasedBetween_run hrun
  rwa [chosenFor, if_pos hworker] at hlen

theorem length_leased_keyed {limit : Int} {jobs : List LeasedJob} {skip : List JobId} {db' : Db}
    (hrun : s.db.run (.fetchKeyed (keyedArgs (call cfg limit) (meets s skip) jobs.length)) = .ok db') :
    (leasedBetween cfg.worker s.db db').length ≤ (max (limit - jobs.length) 1).toNat := by
  have hworker : (keyedArgs (call cfg limit) (meets s skip) jobs.length).worker = cfg.worker := rfl
  have hlen : _ ≤ (chosenFor cfg.worker _ _).length := length_leasedBetween_run hrun
  rw [chosenFor, if_pos hworker] at hlen
  exact Nat.le_trans hlen (length_admitted _ _ _)

theorem pay_dispatch {a : DispatchAct} (h : DispatchMove cfg s a stmt s') (hn : allowance cfg s.dispatch ≤ n)
    (hround : s.shutdown = true ∨ cfg.batch.toNat + 1 ≤ n) :
    (leasedBetween cfg.worker s.db s'.db).length + allowance cfg s'.dispatch ≤ n := by
  have hself : (leasedBetween cfg.worker s.db s.db).length = 0 := by
    rw [leasedBetween_self]
    rfl
  cases h with
  | stays =>
    rw [hself, Nat.zero_add]
    exact hn
  | turns hturn =>
    rw [hself, Nat.zero_add]
    exact allowance_turn hturn hn hround
  | @receives _ ack acks polling hat =>
    rw [hself, Nat.zero_add]
    rcases hat with ⟨hat, -, rfl⟩ | ⟨-, -, rfl⟩
    · rw [hat] at hn
      exact hn
    · exact Nat.zero_le _
  | @forwards ack polling hat =>
    rw [hself, Nat.zero_add]
    cases polling with
    | true =>
      rw [hat] at hn
      exact hn
    | false => exact Nat.zero_le _
  | @unkeyed limit skip db' hat hrun =>
    rw [hat] at hn
    have hreturned : (s.db.lockedUnkeyed (unkeyedArgs (call cfg limit) (meets s skip))).length ≤
        (returning db'.toTables (s.db.lockedUnkeyed (unkeyedArgs (call cfg limit) (meets s skip)))).length :=
      Nat.le_of_eq (first_pass hrun).2.2.symm
    exact Nat.le_trans (allowance_afterUnkeyed (Nat.le_trans (length_leased_unkeyed hrun) hreturned)
      (length_unkeyed _ limit skip)) hn
  | @unkeyedLost limit skip db' hat hrun =>
    rw [hat] at hn
    have hlimit : (s.db.lockedUnkeyed (unkeyedArgs (call cfg limit) (meets s skip))).length ≤ limit.toNat :=
      length_lockedUnkeyed _ _
    have hleased := length_leased_unkeyed hrun
    simp only [allowance] at hn ⊢
    omega
  | @keyed limit jobs skip db' hat hrun =>
    rw [hat] at hn
    have hafter : allowance cfg (fetched (jobs ++ returning db'.toTables
        (s.db.admitted (keyedArgs (call cfg limit) (meets s skip) jobs.length) s.db.toTables))) = 0 := by
      unfold fetched
      split <;> rfl
    rw [hafter]
    exact Nat.le_trans (length_leased_keyed hrun) hn
  | @keyedLost limit jobs skip db' hat hrun =>
    rw [hat] at hn
    exact Nat.le_trans (length_leased_keyed hrun) hn
  | discards => exact Nat.le_trans (length_leasedBetween _) (Nat.zero_le n)
  | _ =>
    -- the database is as it was, and nothing more will be leased
    exact Nat.le_trans (Nat.le_of_eq hself) (Nat.zero_le n)

/-! ## Every other step -/

theorem chosenFor_flush {random : JobId → Nat} {stage : FlushStage} {st : Stmt}
    (h : flushStmt cfg s random stage = some st) : chosenFor cfg.worker s.db st = [] := by
  cases stage <;> cases h
  all_goals rfl

theorem chosenFor_outside {st : Stmt} (h : actsFor st ≠ some cfg.worker) : chosenFor cfg.worker s.db st = [] := by
  cases st with
  | fetchUnkeyed a => exact if_neg fun hworker => h (congrArg some hworker)
  | fetchKeyed a => exact if_neg fun hworker => h (congrArg some hworker)
  | _ => rfl

theorem chosenFor_collect {a : CollectAct} (h : CollectMove cfg serde s a stmt s') :
    ∀ st ∈ stmt, chosenFor cfg.worker s.db st = [] := by
  intro st hst
  cases h with
  | calls hat hflush =>
    split at hst <;> cases hst
    exact chosenFor_flush hflush
  | _ => cases hst <;> rfl

theorem chosenFor_session {a : SessionAct} (h : SessionMove cfg s a stmt s') :
    ∀ st ∈ stmt, chosenFor cfg.worker s.db st = [] := by
  intro st hst
  cases h <;> cases hst
  all_goals rfl

theorem chosenFor_renew {a : RenewAct} (h : RenewMove cfg s a stmt s') :
    ∀ st ∈ stmt, chosenFor cfg.worker s.db st = [] := by
  intro st hst
  cases h <;> cases hst
  rfl

/-- **A step pays for what it leases**; only one that begins a round may be given credit
for it, and no round begins once shutdown is requested. -/
theorem pay_move {a : Act} (h : Move cfg serde s a stmt s') (hn : allowance cfg s.dispatch ≤ n)
    (hround : s.shutdown = true ∨ cfg.batch.toNat + 1 ≤ n) :
    (leasedBetween cfg.worker s.db s'.db).length + allowance cfg s'.dispatch ≤ n := by
  have hdb := h.db
  have hnone : (∀ st ∈ stmt, chosenFor cfg.worker s.db st = []) → allowance cfg s'.dispatch ≤ n →
      (leasedBetween cfg.worker s.db s'.db).length + allowance cfg s'.dispatch ≤ n := by
    intro hchosen hle
    have hlen := length_executed_none hchosen
    rw [← hdb] at hlen
    omega
  cases h with
  | dispatch hserving h => exact pay_dispatch h hn hround
  | collect h => exact hnone (chosenFor_collect h) (by rw [h.frame.dispatch]; exact hn)
  | session h =>
    refine hnone (chosenFor_session h) ?_
    rcases h.dispatch with hsame | hchecking | ⟨ok, hdone⟩
    · rw [hsame]
      exact hn
    · rw [hchecking]
      exact Nat.zero_le _
    · rw [hdone]
      exact Nat.zero_le _
  | renew h => exact hnone (chosenFor_renew h) (by cases h <;> exact hn)
  | child h => exact hnone (fun st hst => by cases hst) (by cases h <;> exact hn)
  | outside hother =>
    refine hnone (fun st hst => ?_) hn
    cases hst
    exact chosenFor_outside hother
  | stays | tick => exact hnone (fun st hst => by cases hst) hn

theorem pay_step (hn : allowance cfg s.dispatch ≤ n) (hround : s.shutdown = true ∨ cfg.batch.toNat + 1 ≤ n)
    (a : Act) : (leases cfg serde s a).length + allowance cfg (step cfg serde s a).dispatch ≤ n :=
  pay_move (step_move cfg serde s a) hn hround

/-- What `dispatch` may lease in one round. -/
theorem allowance_run (db : Db) (as : List Act) :
    allowance cfg (run (step cfg serde) (initial db) as).dispatch ≤ cfg.batch.toNat + 1 := by
  refine run_inv (I := fun s : Supervisor => allowance cfg s.dispatch ≤ cfg.batch.toNat + 1)
    (fun s a hs => ?_) as (Nat.zero_le _)
  have hpaid : (leases cfg serde s a).length + allowance cfg (step cfg serde s a).dispatch ≤ cfg.batch.toNat + 1 :=
    pay_step hs (.inr (Nat.le_refl _)) a
  exact Nat.le_trans (Nat.le_add_left _ _) hpaid

/-! ## The last round -/

/-- `supervise` spawns no child under a cancelled token. -/
theorem alive_move {a : Act} (h : Move cfg serde s a stmt s') (hdown : s.shutdown = true)
    (hlive : s'.alive = true) : s.alive = true := by
  cases h with
  | dispatch hserving h => exact h.frame.alive.symm.trans hlive
  | collect h => exact h.frame.alive.symm.trans hlive
  | session h =>
    cases h with
    | opens hat hup => cases hdown.symm.trans hup
    | refuses | kills => cases hlive
    | _ => exact hlive
  | renew h => cases h <;> exact hlive
  | child h =>
    cases h with
    | exits => cases hlive
    | _ => exact hlive
  | stays | outside | tick => exact hlive
end

/-- **A supervisor that is told to stop leases at most one more batch**: whatever
happens after shutdown was requested, what `fetch` leases for this worker, over all the
rest of the run, is at most `batch` jobs and a keyed one, and a child that has gone is
not replaced. -/
theorem shutdown_stops_leasing (cfg : Settings) (serde : Serde) (db : Db) {before : List Act}
    (h : (run (step cfg serde) (initial db) before).shutdown = true) (later : List Act) :
    (outputs (step cfg serde) (leases cfg serde) (run (step cfg serde) (initial db) before) later).length ≤
      cfg.batch.toNat + 1 ∧
    ((run (step cfg serde) (run (step cfg serde) (initial db) before) later).alive = true →
      (run (step cfg serde) (initial db) before).alive = true) := by
  have hkeep : ∀ (s : Supervisor) (a : Act), s.shutdown = true → (step cfg serde s a).shutdown = true :=
    fun s a hs => (step_move cfg serde s a).shutdown hs
  constructor
  · have hpay : ∀ (s : Supervisor) (a : Act), s.shutdown = true →
        (leases cfg serde s a).length + allowance cfg (step cfg serde s a).dispatch ≤ allowance cfg s.dispatch :=
      fun s a hs => pay_step (Nat.le_refl _) (.inl hs) a
    exact Nat.le_trans (length_outputs_le (fun s => allowance cfg s.dispatch) hkeep hpay later h)
      (allowance_run db before)
  · have hkept := run_inv (I := fun s : Supervisor => s.shutdown = true ∧
      (s.alive = true → (run (step cfg serde) (initial db) before).alive = true))
      (fun s a hs => ⟨hkeep s a hs.1, fun hlive => hs.2 (alive_move (step_move cfg serde s a) hs.1 hlive)⟩) later
      ⟨h, id⟩
    exact hkept.2

/-- The request comes when `dispatch` has looked at the token: one job is leased. -/
def stopInRound : List Act :=
  [.session .start, .session .accept, .dispatch .check, .session .shutdown]

def lastRound : List Act := [.dispatch .tryRecv, .dispatch (.fetchUnkeyed [] .ok), .dispatch (.pack false)]

theorem shutdown_stops_leasing_in_round :
    outputs (step { worker := 7 } Serde.messagePack) (leases { worker := 7 } Serde.messagePack)
      (run (step { worker := 7 } Serde.messagePack) (initial oneWaiting) stopInRound) lastRound = [1] ∧
    (outputs (step { worker := 7 } Serde.messagePack) (leases { worker := 7 } Serde.messagePack)
      (run (step { worker := 7 } Serde.messagePack) (initial oneWaiting) stopInRound) lastRound).length ≤ 129 :=
  ⟨by decide, (shutdown_stops_leasing { worker := 7 } Serde.messagePack oneWaiting rfl lastRound).1⟩

end Gylo.Worker.Shutdown
