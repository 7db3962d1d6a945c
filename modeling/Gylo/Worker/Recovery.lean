import Gylo.Store.DeadLetters
import Gylo.Store.Notifications
import Gylo.Store.Progress
import Gylo.Store.Pruning
import Gylo.Worker.Ticks

/-! # After a crash

A worker that dies leaves its rows `running`. On each tick `recover` fires the schedules
that are due and then takes back a bounded number of rows whose leases are over: those
with an attempt left are available again, the others are dead letters. With nobody else
at the table the ticks work off every such row, and from there a leaser finishes the
queue, with what the schedules have added to it. -/
namespace Gylo.Worker.Recovery

open Gylo.Store Gylo.Store.Dependencies Gylo.Store.Stranding Gylo.Store.Progress Gylo.Store.Notifications
open Gylo.Store.DeadLetters Gylo.Worker.Expressions Runs
open Gylo.Store.FetchCall (Call)
open Gylo.Store.Lifecycle (Coherent)
open Gylo.Store.Passes (db_nodup)
open Gylo.Worker.Schedules (DueCron)
open Gylo.Worker.Ticks (firedJob fireDueSchedules fireEntries fireEntry)

/-! ## The calls -/

structure Reclaimed where
  released : Nat := 0
  exhausted : Nat := 0
deriving DecidableEq

/-- `exhausted` in `RECLAIM`. -/
def exhausted (limit : Int) (visit : List JobId) (now : Time) (t : Tables) : List Job :=
  t.jobs.filter fun j => j.state = .running ∧
    ∃ e ∈ t.expired limit visit now, e.id = j.id ∧ e.exhausted = true

/-- `reclaim_expired`: the statement and the counts it returns. -/
def reclaimExpired (limit : Int) (visit : List JobId) (now : Time) (db : Db) :
    Except DbError (Reclaimed × Db) :=
  (db.run (.reclaim limit visit now)).map fun db' =>
    (⟨(reclaimed limit visit now db.toTables).length, (exhausted limit visit now db.toTables).length⟩, db')

/-- What a tick meets: what `fire_due_schedules` reads, unless it fails to look; the clock
of the reclaim, the rows its scan meets, and whether it fails. -/
structure Tick where
  schedules : Option Ticks.Tick
  now : Time
  visit : List JobId
  fails : Bool := false

/-- The last duty of a tick of `recover`; a failure is logged. -/
def reclaimTick (limit : Int) (tick : Tick) (db : Db) : Reclaimed × Db :=
  if tick.fails then ({}, db)
  else match reclaimExpired limit tick.visit tick.now db with
    | .ok seen => seen
    | .error _ => ({}, db)

/-- The duty before it. -/
def fireTick (crates : Crates) (cronLimit : Int) (tick : Tick) (db : Db) : Db :=
  match tick.schedules with
  | some reads => (fireDueSchedules crates cronLimit reads db).1
  | none => db

/-- `recover`, tick after tick, with the totals it reports. -/
def recover (crates : Crates) (cronLimit limit : Int) : List Tick → Db → Reclaimed × Db
  | [], db => ({}, db)
  | tick :: ticks, db =>
    let (seen, db) := reclaimTick limit tick (fireTick crates cronLimit tick db)
    let (rest, db) := recover crates cronLimit limit ticks db
    (⟨seen.released + rest.released, seen.exhausted + rest.exhausted⟩, db)

/-! ## Firing -/

/-- What a firing reads of a schedule. -/
def Alike (c d : Cron) : Prop :=
  c.name = d.name ∧ c.queue = d.queue ∧ c.task = d.task ∧ c.payload = d.payload

theorem Alike.refl (c : Cron) : Alike c c := ⟨rfl, rfl, rfl, rfl⟩

theorem Alike.trans {c d e : Cron} (h : Alike c d) (h' : Alike d e) : Alike c e :=
  ⟨h.1.trans h'.1, h.2.1.trans h'.2.1, h.2.2.1.trans h'.2.2.1, h.2.2.2.trans h'.2.2.2⟩

/-- The job of one of these schedules, fired on one of these ticks. -/
def Scheduled (ticks : List Tick) (crons : List Cron) (k : Job) : Prop :=
  ∃ tick ∈ ticks, ∃ reads ∈ tick.schedules, ∃ c ∈ crons, k = firedJob k.id (reads.firing c.name) c

theorem firedJob_alike {c d : Cron} (h : Alike c d) (id : JobId) (firing : String → Time) :
    firedJob id (firing c.name) c = firedJob id (firing d.name) d := by
  obtain ⟨hname, hqueue, htask, hpayload⟩ := h
  unfold firedJob
  rw [hname, hqueue, htask, hpayload]

/-- Jobs come in, all of them from schedules. -/
structure Adds (reads : Ticks.Tick) (db db' : Db) : Prop where
  jobs : ∃ new, db'.jobs = db.jobs ++ new ∧
    ∀ k ∈ new, ∃ c ∈ db.crons, k = firedJob k.id (reads.firing c.name) c
  edges : db'.edges = db.edges
  crons : ∀ c' ∈ db'.crons, ∃ c ∈ db.crons, Alike c' c

section
variable {reads : Ticks.Tick} {db db₁ db₂ : Db}

theorem Adds.refl (reads : Ticks.Tick) (db : Db) : Adds reads db db :=
  ⟨⟨[], (List.append_nil _).symm, fun k hk => by cases hk⟩, rfl, fun c hc => ⟨c, hc, .refl c⟩⟩

theorem Adds.trans (h : Adds reads db db₁) (h' : Adds reads db₁ db₂) : Adds reads db db₂ := by
  obtain ⟨new, hnew, hfrom⟩ := h.jobs
  obtain ⟨new', hnew', hfrom'⟩ := h'.jobs
  refine ⟨⟨new ++ new', by rw [hnew', hnew, List.append_assoc], fun k hk => ?_⟩, h'.edges.trans h.edges, ?_⟩
  · rcases List.mem_append.mp hk with hk | hk
    · exact hfrom k hk
    · obtain ⟨c', hc', hfired⟩ := hfrom' k hk
      obtain ⟨c, hc, halike⟩ := h.crons c' hc'
      exact ⟨c, hc, hfired.trans (firedJob_alike halike k.id reads.firing)⟩
  · intro c' hc'
    obtain ⟨c₁, hc₁, hlater⟩ := h'.crons c' hc'
    obtain ⟨c, hc, hearlier⟩ := h.crons c₁ hc₁
    exact ⟨c, hc, hlater.trans hearlier⟩

theorem fireRow_alike (name : String) (next now : Time) (c : Cron) : Alike (fireRow name next now c) c := by
  unfold fireRow
  split <;> exact ⟨rfl, rfl, rfl, rfl⟩

theorem adds_exec (reads : Ticks.Tick) (db : Db) (name : String) (next : Time) :
    Adds reads db (db.exec (.fireCron name next (reads.firing name))) := by
  rcases db.exec_cases (.fireCron name next (reads.firing name)) with hsame | heff
  · rw [hsame]
    exact .refl reads db
  · generalize db.exec (.fireCron name next (reads.firing name)) = db' at heff ⊢
    have hafter : db.toTables.fireCron name next (reads.firing name) = db'.toTables := Except.ok.inj heff
    unfold Tables.fireCron at hafter
    split at hafter
    · next won hwon =>
      obtain ⟨hmem, hname, -⟩ := Schedules.wonCron_some hwon
      refine ⟨⟨[firedJob (db.jobSeq + 1) (reads.firing name) won], ?_, fun k hk => ⟨won, hmem, ?_⟩⟩, ?_, ?_⟩
      · exact (congrArg Tables.jobs hafter).symm
      · rw [List.mem_singleton.mp hk, hname]
        rfl
      · exact (congrArg Tables.edges hafter).symm
      · intro c' hc'
        rw [← show _ = db'.crons from congrArg Tables.crons hafter] at hc'
        obtain ⟨c, hc, rfl⟩ := List.mem_map.mp hc'
        exact ⟨c, hc, fireRow_alike name next _ c⟩
    · refine ⟨⟨[], ?_, fun k hk => by cases hk⟩, ?_, fun c' hc' => ⟨c', ?_, .refl c'⟩⟩
      · rw [List.append_nil]
        exact (congrArg Tables.jobs hafter).symm
      · exact (congrArg Tables.edges hafter).symm
      · rw [show db.crons = db'.crons from congrArg Tables.crons hafter]
        exact hc'
end

/-- An entry is one statement, or none. -/
theorem fireEntry_exec (crates : Crates) (reads : Ticks.Tick) (db : Db) (entry : DueCron) :
    (fireEntry crates reads db entry).1 = db ∨ ∃ next,
      (fireEntry crates reads db entry).1 = db.exec (.fireCron entry.name next (reads.firing entry.name)) := by
  unfold fireEntry
  split
  · exact .inl rfl
  · next next _ =>
    refine .inr ⟨next, ?_⟩
    unfold Ticks.fireCron Db.exec
    cases db.run (.fireCron entry.name next (reads.firing entry.name)) with
    | error e => rfl
    | ok db' =>
      dsimp only
      cases (db.wonCron entry.name (reads.firing entry.name)).map fun _ => db.jobSeq + 1 <;> rfl

/-- What every firing preserves, `fire_due_schedules` does. -/
theorem fireTick_inv {I : Db → Prop} {tick : Tick}
    (hfire : ∀ reads ∈ tick.schedules, ∀ db name next, I db → I (db.exec (.fireCron name next (reads.firing name))))
    (crates : Crates) (cronLimit : Int) {db : Db} (h : I db) : I (fireTick crates cronLimit tick db) := by
  unfold fireTick
  split
  · next reads hreads =>
    have hentries : ∀ (entries : List DueCron) (db : Db), I db → I (fireEntries crates reads db entries).1 := by
      intro entries
      induction entries with
      | nil => exact fun db h => h
      | cons entry entries ih =>
        intro db h
        refine ih _ ?_
        rcases fireEntry_exec crates reads db entry with hsame | ⟨next, hnext⟩
        · rwa [hsame]
        · rw [hnext]
          exact hfire reads hreads db entry.name next h
    unfold fireDueSchedules
    split
    · exact h
    · exact hentries _ db h
  · exact h

/-! ## One statement -/

/-- What a reclaim makes of a row it reaches. -/
def recovered (now : Time) (j : Job) : Job :=
  if j.attempt < j.maxAttempts then j.release
  else j.discard "lease expired before the worker reported an outcome" now

/-- The rows that are running, those with an attempt left or the others. -/
def runningCount (left : Bool) (db : Db) : Nat :=
  db.jobs.countP fun j => j.state = .running ∧ decide (j.attempt < j.maxAttempts) = left

section
variable {db : Db} {limit : Int} {visit : List JobId} {now : Time} {j : Job}

theorem reclaimRow_eq (hj : j ∈ db.jobs) : reclaimRow (db.expired limit visit now) now j =
    if j ∈ reached db.toTables limit visit now then recovered now j else j := by
  unfold reclaimRow recovered
  rw [find_expired db limit visit now hj]
  by_cases hmem : j ∈ reached db.toTables limit visit now
  · rw [if_pos hmem, if_pos hmem]
    dsimp only
    rw [if_pos (mem_reached hmem).2.1]
    by_cases hleft : j.attempt < j.maxAttempts
    · rw [if_neg (by simpa using hleft), if_pos hleft]
    · rw [if_pos (by simpa using hleft), if_neg hleft]
  · rw [if_neg hmem, if_neg hmem]

/-- The two `UPDATE`s take the rows behind `expired`. -/
theorem mem_listed (hj : j ∈ db.jobs) (spent : Bool) :
    (j.state = .running ∧ ∃ e ∈ db.expired limit visit now, e.id = j.id ∧ e.exhausted = spent) ↔
      j ∈ reached db.toTables limit visit now ∧ decide (j.attempt < j.maxAttempts) = !spent := by
  constructor
  · intro ⟨_, e, he, hid, hspent⟩
    obtain ⟨k, hk, rfl⟩ := List.mem_map.mp he
    cases db.eq_of_id (mem_reached hk).1 hj hid
    refine ⟨hk, ?_⟩
    rw [← hspent, ← decide_not, decide_eq_decide]
    exact not_le.symm
  · intro ⟨hmem, hspent⟩
    refine ⟨(mem_reached hmem).2.1, _, List.mem_map_of_mem hmem, rfl, ?_⟩
    dsimp only
    rw [← Bool.not_not spent, ← hspent, ← decide_not, decide_eq_decide]
    exact not_lt.symm

theorem reached_nodup (db : Db) (limit : Int) (visit : List JobId) (now : Time) :
    (reached db.toTables limit visit now).Nodup :=
  ((Pruning.scan_nodup db visit).filter _).sublist (List.take_sublist _ _)

theorem countP_reached (p : Job → Bool) :
    db.jobs.countP (fun j => decide (j ∈ reached db.toTables limit visit now) && p j) =
      (reached db.toTables limit visit now).countP p := by
  have hperm : (db.jobs.filter fun j => decide (j ∈ reached db.toTables limit visit now)).Perm
      (reached db.toTables limit visit now) := by
    refine (List.perm_ext_iff_of_nodup ((db_nodup db).filter _) (reached_nodup db limit visit now)).mpr fun j => ?_
    rw [List.mem_filter, decide_eq_true_iff]
    exact ⟨fun hj => hj.2, fun hj => ⟨(mem_reached hj).1, hj⟩⟩
  rw [← hperm.countP_eq, List.countP_filter]
  exact List.countP_congr fun j _ => by rw [Bool.and_comm]

/-- A scan of all rows, with every lease over, reaches as many as it may. -/
theorem reached_length (limit : Int) (hscan : ∀ j ∈ db.jobs, j.state = .running → j.id ∈ visit)
    (hexpired : ∀ j ∈ db.jobs, j.state = .running → j.LeaseExpired now) :
    (reached db.toTables limit visit now).length =
      min limit.toNat (db.jobs.countP fun j => j.state = .running) := by
  have hperm : ((db.scan visit).filter fun j => decide (j.LeaseExpired now)).Perm
      (db.jobs.filter fun j => decide (j.state = .running)) := by
    refine (List.perm_ext_iff_of_nodup ((Pruning.scan_nodup db visit).filter _) ((db_nodup db).filter _)).mpr
      fun j => ?_
    rw [List.mem_filter, List.mem_filter, Pruning.mem_scan_iff, decide_eq_true_iff, decide_eq_true_iff]
    exact ⟨fun hj => ⟨hj.1.1, hj.2.1⟩, fun hj => ⟨⟨hj.1, hscan j hj.1 hj.2⟩, hexpired j hj.1 hj.2⟩⟩
  rw [reached, List.length_take, hperm.length_eq, List.countP_eq_length_filter]

theorem recovered_not_running (now : Time) (j : Job) : (recovered now j).state ≠ .running := by
  unfold recovered
  split <;> (intro h; cases h)

/-- What a reclaim reaches is no longer running, and the rest is as it was. -/
theorem runningCount_exec (db : Db) (limit : Int) (visit : List JobId) (now : Time) (left : Bool) :
    runningCount left (db.exec (.reclaim limit visit now)) +
        (reached db.toTables limit visit now).countP (fun j => decide (j.attempt < j.maxAttempts) == left) =
      runningCount left db := by
  unfold runningCount
  rw [exec_reclaim, ← countP_reached]
  simp only [Tables.reclaim, Tables.reclaimFrom, Tables.mapJobs, List.countP_map]
  rw [List.countP_eq_countP_filter_add db.jobs (fun j => decide (j.state = .running ∧ _ = left))
    fun j => decide (j ∈ reached db.toTables limit visit now), Nat.add_comm, List.countP_filter, List.countP_filter]
  congr 1
  · refine List.countP_congr fun j hj => ?_
    simp only [Bool.and_eq_true, decide_eq_true_eq, beq_iff_eq]
    exact ⟨fun h => ⟨⟨(mem_reached h.1).2.1, h.2⟩, h.1⟩, fun h => ⟨h.2, h.1.2⟩⟩
  · refine List.countP_congr fun j hj => ?_
    simp only [Function.comp_apply, reclaimRow_eq hj, Bool.and_eq_true, decide_eq_true_eq, Bool.not_eq_true',
      decide_eq_false_iff_not]
    split
    · next hmem => exact ⟨fun h => absurd h.1 (recovered_not_running now j), fun h => absurd hmem h.2⟩
    · next hmem => exact ⟨fun h => ⟨h, hmem⟩, fun h => h.1⟩

theorem length_listed (spent : Bool) :
    (db.jobs.filter fun j => decide (j.state = .running ∧
        ∃ e ∈ db.expired limit visit now, e.id = j.id ∧ e.exhausted = spent)).length =
      (reached db.toTables limit visit now).countP fun j => decide (j.attempt < j.maxAttempts) == !spent := by
  rw [← List.countP_eq_length_filter, ← countP_reached]
  refine List.countP_congr fun j hj => ?_
  simp only [Bool.and_eq_true, decide_eq_true_eq, beq_iff_eq]
  exact mem_listed hj spent
end

/-! ## Tick after tick -/

theorem reclaimTick_fails {tick : Tick} (h : tick.fails = true) (limit : Int) (db : Db) :
    reclaimTick limit tick db = ({}, db) := if_pos h

theorem reclaimTick_eq {tick : Tick} (h : tick.fails = false) (limit : Int) (db : Db) :
    reclaimTick limit tick db =
      (⟨(reached db.toTables limit tick.visit tick.now).countP fun j => decide (j.attempt < j.maxAttempts) == true,
        (reached db.toTables limit tick.visit tick.now).countP fun j => decide (j.attempt < j.maxAttempts) == false⟩,
        db.exec (.reclaim limit tick.visit tick.now)) := by
  unfold reclaimTick reclaimExpired
  rw [if_neg (by rw [h]; exact Bool.false_ne_true)]
  cases hrun : db.run (.reclaim limit tick.visit tick.now) with
  | ok db' =>
    have hexec : db.exec (.reclaim limit tick.visit tick.now) = db' := Db.exec_of_run hrun
    rw [hexec]
    exact congrArg (Prod.mk · db') (congrArg₂ Reclaimed.mk (length_listed false) (length_listed true))
  | error e =>
    have hexec : db.exec (.reclaim limit tick.visit tick.now) = db := Db.exec_of_error hrun
    -- a statement that failed would have reached nothing
    have hnone := fun left => runningCount_exec db limit tick.visit tick.now left
    simp only [hexec, Nat.add_eq_left] at hnone
    rw [hexec, hnone, hnone]
    rfl

/-- What the ticks make of a row: nothing, or what one of them recovers. -/
def Returned (ticks : List Tick) (j k : Job) : Prop :=
  k = j ∨ j.state = .running ∧ ∃ tick ∈ ticks, tick.fails = false ∧ k = recovered tick.now j

theorem Returned.cons {tick : Tick} {ticks : List Tick} {j k l : Job} (h : Returned [tick] j k)
    (h' : Returned ticks k l) : Returned (tick :: ticks) j l := by
  rcases h with rfl | ⟨hrun, once, honce, hgo, rfl⟩
  · exact h'.imp_right fun ⟨hrun, later, hlater, hgo, hl⟩ => ⟨hrun, later, List.mem_cons_of_mem _ hlater, hgo, hl⟩
  · -- a recovered row is not running, so the other ticks pass it by
    rcases h' with rfl | ⟨hstill, -⟩
    · exact .inr ⟨hrun, once, List.mem_singleton.mp honce ▸ List.mem_cons_self, hgo, rfl⟩
    · exact absurd hstill (recovered_not_running once.now j)

/-- The scans meet every running row, and find its lease over. -/
def Crashed (ticks : List Tick) (db : Db) : Prop :=
  ∀ tick ∈ ticks, ∀ j ∈ db.jobs, j.state = .running → j.id ∈ tick.visit ∧ j.LeaseExpired tick.now

def running (db : Db) : Nat := db.jobs.countP fun j => j.state = .running

theorem running_eq (db : Db) : running db = runningCount true db + runningCount false db := by
  unfold running runningCount
  rw [List.countP_eq_countP_filter_add db.jobs _ fun j => decide (j.attempt < j.maxAttempts),
    List.countP_filter, List.countP_filter]
  congr 1 <;> exact List.countP_congr fun j _ => by simp

/-- A tick takes as many rows off as it may. -/
theorem running_exec (limit : Int) {visit : List JobId} {now : Time} {db : Db}
    (hscan : ∀ j ∈ db.jobs, j.state = .running → j.id ∈ visit)
    (hexpired : ∀ j ∈ db.jobs, j.state = .running → j.LeaseExpired now) :
    running (db.exec (.reclaim limit visit now)) = running db - limit.toNat := by
  have hlength := reached_length limit hscan hexpired
  have htrue := runningCount_exec db limit visit now true
  have hfalse := runningCount_exec db limit visit now false
  have hsplit := (reached db.toTables limit visit now).length_eq_countP_add_countP
    fun j => decide (j.attempt < j.maxAttempts) == true
  have hother : (reached db.toTables limit visit now).countP (fun j => decide (j.attempt < j.maxAttempts) == false) =
      (reached db.toTables limit visit now).countP fun j => !(decide (j.attempt < j.maxAttempts) == true) :=
    List.countP_congr fun j _ => by simp
  have hbefore := running_eq db
  have hafter := running_eq (db.exec (.reclaim limit visit now))
  rw [← running] at hlength
  simp only [Bool.not_eq_true, Bool.decide_eq_false] at hsplit
  omega

theorem exec_returned (limit : Int) (tick : Tick) (hgo : tick.fails = false) (db : Db) :
    ∃ g, (db.exec (.reclaim limit tick.visit tick.now)).jobs = db.jobs.map g ∧
      ∀ j ∈ db.jobs, Returned [tick] j (g j) := by
  refine ⟨reclaimRow (db.expired limit tick.visit tick.now) tick.now, by rw [exec_reclaim]; rfl, fun j hj => ?_⟩
  rw [reclaimRow_eq hj]
  split
  · next hmem => exact .inr ⟨(mem_reached hmem).2.1, tick, List.mem_singleton.mpr rfl, hgo, rfl⟩
  · exact .inl rfl

/-- What the ticks of `recover` leave behind. -/
structure Recovers (limit : Int) (ticks : List Tick) (db : Db) (seen : Reclaimed) (db' : Db) : Prop where
  released : seen.released + runningCount true db' = runningCount true db
  exhausted : seen.exhausted + runningCount false db' = runningCount false db
  left : running db' = running db - limit.toNat * ticks.countP fun tick => !tick.fails
  edges : db'.edges = db.edges
  crons : ∀ c' ∈ db'.crons, ∃ c ∈ db.crons, Alike c' c
  rows : ∃ g new, db'.jobs = db.jobs.map g ++ new ∧ (∀ j ∈ db.jobs, Returned ticks j (g j)) ∧
    ∀ k ∈ new, Scheduled ticks db.crons k

theorem Scheduled.state {ticks : List Tick} {crons : List Cron} {k : Job} (h : Scheduled ticks crons k) :
    k.state = .available := by
  obtain ⟨tick, -, reads, -, c, -, hk⟩ := h
  rw [hk]
  rfl

theorem Returned.of_available {ticks : List Tick} {j k : Job} (h : Returned ticks j k)
    (hstate : j.state = .available) : k = j := by
  rcases h with hsame | ⟨hrun, -⟩
  · exact hsame
  · cases hstate.symm.trans hrun

section
variable {limit : Int} {tick : Tick} {ticks : List Tick} {db db₁ db₂ : Db} {seen rest : Reclaimed}

/-- Jobs of schedules are not running. -/
theorem runningCount_append {new : List Job} (hnew : db₁.jobs = db.jobs ++ new)
    (hstate : ∀ k ∈ new, k.state = .available) (left : Bool) : runningCount left db₁ = runningCount left db := by
  unfold runningCount
  rw [hnew, List.countP_append, Nat.add_eq_left, List.countP_eq_zero]
  intro k hk hrun
  cases (hstate k hk).symm.trans (of_decide_eq_true hrun).1

/-- What runs after some ticks ran before. -/
theorem Crashed.of_recovers {ticks' : List Tick} (h : Crashed ticks' db) (hr : Recovers limit ticks db seen db₁) :
    Crashed ticks' db₁ := by
  obtain ⟨g, new, hjobs, hrow, hnew⟩ := hr.rows
  intro later hlater k hk hrun
  rw [hjobs] at hk
  rcases List.mem_append.mp hk with hold | hadded
  · obtain ⟨j, hj, rfl⟩ := List.mem_map.mp hold
    rcases hrow j hj with hsame | ⟨-, once, -, -, hrec⟩
    · rw [hsame] at hrun ⊢
      exact h later hlater j hj hrun
    · rw [hrec] at hrun
      exact absurd hrun (recovered_not_running once.now j)
  · cases (hnew k hadded).state.symm.trans hrun

theorem Scheduled.earlier {crons crons' : List Cron} (hcrons : ∀ c' ∈ crons', ∃ c ∈ crons, Alike c' c) {k : Job}
    (h : Scheduled ticks crons' k) (tick : Tick) : Scheduled (tick :: ticks) crons k := by
  obtain ⟨once, honce, reads, hreads, c', hc', hk⟩ := h
  obtain ⟨c, hc, halike⟩ := hcrons c' hc'
  exact ⟨once, List.mem_cons_of_mem _ honce, reads, hreads, c, hc, hk.trans (firedJob_alike halike k.id reads.firing)⟩

theorem Scheduled.now {crons : List Cron} {k : Job} (h : Scheduled [tick] crons k) (ticks : List Tick) :
    Scheduled (tick :: ticks) crons k := by
  obtain ⟨once, honce, hfired⟩ := h
  exact ⟨once, List.mem_singleton.mp honce ▸ List.mem_cons_self, hfired⟩

theorem Recovers.cons (h : Recovers limit [tick] db seen db₁) (h' : Recovers limit ticks db₁ rest db₂) :
    Recovers limit (tick :: ticks) db
      ⟨seen.released + rest.released, seen.exhausted + rest.exhausted⟩ db₂ := by
  obtain ⟨f, new, hf, hstep, hnew⟩ := h.rows
  obtain ⟨g, new', hg, hrow, hnew'⟩ := h'.rows
  have hfirst : ∀ j ∈ db.jobs, f j ∈ db₁.jobs :=
    fun j hj => hf ▸ List.mem_append_left _ (List.mem_map_of_mem hj)
  -- the later ticks pass by what the first one has added
  have hkept : new.map g = new := by
    refine (List.map_congr_left fun k hk => ?_).trans (List.map_id new)
    exact (hrow k (hf ▸ List.mem_append_right _ hk)).of_available (hnew k hk).state
  refine ⟨?_, ?_, ?_, h'.edges.trans h.edges, fun c' hc' => ?_, g ∘ f, new ++ new', ?_, fun j hj => ?_, fun k hk => ?_⟩
  · have hone := h.released
    have hothers := h'.released
    dsimp only
    omega
  · have hone := h.exhausted
    have hothers := h'.exhausted
    dsimp only
    omega
  · have hsplit : ([tick] ++ ticks).countP (fun tick => !tick.fails) =
        [tick].countP (fun tick => !tick.fails) + ticks.countP fun tick => !tick.fails := List.countP_append
    rw [List.singleton_append] at hsplit
    rw [h'.left, h.left, hsplit, Nat.mul_add, Nat.sub_sub]
  · obtain ⟨c₁, hc₁, hlater⟩ := h'.crons c' hc'
    obtain ⟨c, hc, hearlier⟩ := h.crons c₁ hc₁
    exact ⟨c, hc, hlater.trans hearlier⟩
  · rw [hg, hf, List.map_append, hkept, List.map_map, List.append_assoc]
  · exact Returned.cons (hstep j hj) (hrow (f j) (hfirst j hj))
  · rcases List.mem_append.mp hk with hk | hk
    · exact (hnew k hk).now ticks
    · exact (hnew' k hk).earlier h.crons tick

/-- The schedules add jobs and leave the leases alone. -/
theorem fireTick_adds (crates : Crates) (cronLimit : Int) (tick : Tick) (db : Db) :
    ∃ new, (fireTick crates cronLimit tick db).jobs = db.jobs ++ new ∧ (∀ k ∈ new, Scheduled [tick] db.crons k) ∧
      (fireTick crates cronLimit tick db).edges = db.edges ∧
      ∀ c' ∈ (fireTick crates cronLimit tick db).crons, ∃ c ∈ db.crons, Alike c' c := by
  cases hreads : tick.schedules with
  | none =>
    unfold fireTick
    rw [hreads]
    exact ⟨[], (List.append_nil _).symm, (fun k hk => by cases hk), rfl, fun c hc => ⟨c, hc, .refl c⟩⟩
  | some reads =>
    have hadds : Adds reads db (fireTick crates cronLimit tick db) := by
      refine fireTick_inv (I := Adds reads db) (fun other hother db₁ name next h => ?_) crates cronLimit
        (.refl reads db)
      cases Option.some.inj (hreads.symm.trans hother)
      exact h.trans (adds_exec reads db₁ name next)
    obtain ⟨⟨new, hnew, hfrom⟩, hedges, hcrons⟩ := hadds
    refine ⟨new, hnew, fun k hk => ?_, hedges, hcrons⟩
    obtain ⟨c, hc, hfired⟩ := hfrom k hk
    exact ⟨tick, List.mem_singleton_self _, reads, hreads, c, hc, hfired⟩

theorem recovers_tick (crates : Crates) (cronLimit limit : Int) (tick : Tick) (h : Crashed [tick] db) :
    Recovers limit [tick] db (reclaimTick limit tick (fireTick crates cronLimit tick db)).1
      (reclaimTick limit tick (fireTick crates cronLimit tick db)).2 := by
  obtain ⟨new, hnew, hfrom, hedges, hcrons⟩ := fireTick_adds crates cronLimit tick db
  generalize fireTick crates cronLimit tick db = db₁ at hnew hedges hcrons ⊢
  have hstate : ∀ k ∈ new, k.state = .available := fun k hk => (hfrom k hk).state
  have htrue := runningCount_append hnew hstate true
  have hfalse := runningCount_append hnew hstate false
  have hrunning : running db₁ = running db := by rw [running_eq, running_eq, htrue, hfalse]
  cases hgo : tick.fails with
  | true =>
    rw [reclaimTick_fails hgo]
    refine ⟨by rw [htrue]; exact Nat.zero_add _, by rw [hfalse]; exact Nat.zero_add _, ?_, hedges, hcrons, id, new,
      by rw [List.map_id]; exact hnew, fun _ _ => .inl rfl, hfrom⟩
    rw [List.countP_cons_of_neg (by simp [hgo]), hrunning]
    rfl
  | false =>
    have hold : ∀ j ∈ db₁.jobs, j.state = .running → j.id ∈ tick.visit ∧ j.LeaseExpired tick.now := by
      intro j hj hrun
      rw [hnew] at hj
      rcases List.mem_append.mp hj with hj | hj
      · exact h tick (List.mem_singleton_self _) j hj hrun
      · cases (hstate j hj).symm.trans hrun
    obtain ⟨f, hf, hstep⟩ := exec_returned limit tick hgo db₁
    have honce := running_exec limit (fun j hj hrun => (hold j hj hrun).1) fun j hj hrun => (hold j hj hrun).2
    have hreleased := runningCount_exec db₁ limit tick.visit tick.now true
    have hexhausted := runningCount_exec db₁ limit tick.visit tick.now false
    rw [reclaimTick_eq hgo]
    refine ⟨?_, ?_, ?_, ?_, ?_, f, new, ?_, fun j hj => ?_, hfrom⟩
    · dsimp only
      omega
    · dsimp only
      omega
    · rw [List.countP_cons_of_pos (by simp [hgo]), ← hrunning]
      exact honce.trans (by simp)
    · rw [← hedges, exec_reclaim]
      rfl
    · rw [exec_reclaim]
      exact hcrons
    · have hkept : new.map f = new := by
        refine (List.map_congr_left fun k hk => ?_).trans (List.map_id new)
        exact (hstep k (hnew ▸ List.mem_append_right _ hk)).of_available (hstate k hk)
      rw [hf, hnew, List.map_append, hkept]
    · exact hstep j (hnew ▸ List.mem_append_left _ hj)
end

theorem recover_spec (crates : Crates) (cronLimit limit : Int) :
    ∀ (ticks : List Tick) (db : Db), Crashed ticks db →
    Recovers limit ticks db (recover crates cronLimit limit ticks db).1 (recover crates cronLimit limit ticks db).2
  | [], db, _ =>
    ⟨Nat.zero_add _, Nat.zero_add _, rfl, rfl, fun c hc => ⟨c, hc, .refl c⟩, id, [],
      by rw [List.map_id, List.append_nil]; rfl, fun _ _ => .inl rfl, fun k hk => by cases hk⟩
  | tick :: ticks, db, h => by
    have hfirst : Crashed [tick] db := fun once honce => h once (List.mem_singleton.mp honce ▸ List.mem_cons_self)
    have hone := recovers_tick crates cronLimit limit tick hfirst
    have hrest : Crashed ticks db := fun later hlater => h later (List.mem_cons_of_mem _ hlater)
    exact hone.cons (recover_spec crates cronLimit limit ticks _ (hrest.of_recovers hone))

/-- **`recover` works off every expired lease.** Let every lease be over and every running
row be met by the scan of each tick, with nobody else at the table. After `k` ticks whose
reclaim did not fail all but `k` times the limit of the rows that were running are
recovered, or all of them: put back if an attempt is left and dead-lettered at the time of
a tick if not. No other row changes, the totals reported are the numbers of rows of either
kind, and what is added are jobs of schedules. -/
theorem recover_works_off (crates : Crates) (cronLimit limit : Int) (db : Db) (ticks : List Tick)
    (hcrashed : ∀ tick ∈ ticks, ∀ j ∈ db.jobs, j.state = .running →
      j.id ∈ tick.visit ∧ j.LeaseExpired tick.now) :
    running (recover crates cronLimit limit ticks db).2 =
        running db - limit.toNat * ticks.countP (fun tick => !tick.fails) ∧
      (recover crates cronLimit limit ticks db).1.released +
          runningCount true (recover crates cronLimit limit ticks db).2 = runningCount true db ∧
      (recover crates cronLimit limit ticks db).1.exhausted +
          runningCount false (recover crates cronLimit limit ticks db).2 = runningCount false db ∧
      ∃ g new, (recover crates cronLimit limit ticks db).2.jobs = db.jobs.map g ++ new ∧
        (∀ j ∈ db.jobs, g j = j ∨
          j.state = .running ∧ ∃ tick ∈ ticks, tick.fails = false ∧ g j = recovered tick.now j) ∧
        ∀ k ∈ new, Scheduled ticks db.crons k := by
  obtain ⟨hreleased, hexhausted, hleft, -, -, hrows⟩ := recover_spec crates cronLimit limit ticks db hcrashed
  exact ⟨hleft, hreleased, hexhausted, hrows⟩

theorem one_edge : ([(0, 1)] : List (Nat × Nat)).Nodup := List.nodup_singleton _

def steps : Workflow where
  nodes := [{ task := "extract" }, { task := "load" }]
  edges := [(0, 1)]
  distinct := one_edge

/-- A chain of two jobs, the first of them leased when its worker dies, and a schedule. -/
def orphaned : List Stmt :=
  [.insertWorkflow steps 0,
    .upsertCron { name := "report", queue := "default", task := "report", payload := [],
                  expression := "0 * * * * * *", timezone := "UTC", nextRunAt := 30 },
    .fetchUnkeyed { queues := ["default"], limit := 1, worker := 3, lease := 30, now := 1 }]

/-- A tick at 40, when the lease is over and the schedule is due. -/
def tickAt40 : Tick := { schedules := some (.still 40), now := 40, visit := [1, 2, 3] }

theorem recover_works_off_chain : running (recover Ticks.twoPatterns 100 10 [tickAt40] (Db.after orphaned)).2 =
    running (Db.after orphaned) - (10 : Int).toNat * 1 :=
  (recover_works_off Ticks.twoPatterns 100 10 (Db.after orphaned) [tickAt40] (by decide)).1

/-! ## From there to the end -/

/-- A running job was due when it was started. -/
def Begun (db : Db) : Prop :=
  ∀ j ∈ db.jobs, j.state = .running → ∃ time ∈ j.startedAt, j.scheduledAt ≤ (time : WithTop Time)

theorem begun_rowStep {P : Job → Prop} {j k : Job} (h : RowStep P j k)
    (hj : j.state = .running → ∃ time ∈ j.startedAt, j.scheduledAt ≤ (time : WithTop Time))
    (hrun : k.state = .running) : ∃ time ∈ k.startedAt, k.scheduledAt ≤ (time : WithTop Time) := by
  cases h with
  | refl => exact hj hrun
  | lease worker lease now due pick => exact ⟨now, rfl, due.2.2⟩
  | expireAt time running => exact hj running
  | _ => cases hrun

theorem begun_exec (db : Db) (s : Stmt) (hsound : Sound db.toTables) (h : Begun db) : Begun (db.exec s) := by
  unfold Begun
  rcases db.exec_form s with hsame | hform
  · rwa [hsame]
  · generalize (db.exec s).toTables = t' at hform ⊢
    intro k hk hrun
    cases hform with
    | rows step =>
      obtain ⟨j, hj, rfl⟩ := List.mem_map.mp hk
      exact begun_rowStep (step j hj) (h j hj) hrun
    | complete batch worker now stmt =>
      obtain ⟨j, hj, rfl⟩ := List.mem_map.mp hk
      unfold Tables.completeRow at hrun ⊢
      split at hrun
      · cases hrun
      · next hentry =>
        -- a running job has no parent that could still complete
        have hstate : j.state = .running := by
          dsimp only at hrun
          split at hrun <;> exact hrun
        have hcounted := Fencing.counted_running hsound batch worker hj hstate
        rw [hcounted] at hrun ⊢
        exact h j hj hstate
    | insert rows es new jobs edges =>
      rw [jobs] at hk
      rcases List.mem_append.mp hk with hold | hnew
      · exact h k hold hrun
      · cases (new.state k hnew).symm.trans hrun
    | delete deletes jobs edges => exact h k (jobs.mem hk) hrun

theorem begun_after (ss : List Stmt) : Begun (Db.after ss) :=
  (run_inv (I := fun db : Db => Sound db.toTables ∧ Begun db)
    (fun db s h => ⟨sound_exec db s h.1, begun_exec db s h.1 h.2⟩) ss
    ⟨fun j hj => absurd hj (Db.not_mem_empty j), fun j hj => absurd hj (Db.not_mem_empty j)⟩).2

theorem reclaimTick_linked (limit : Int) (tick : Tick) {db : Db} (h : Linked db.toTables) :
    Linked (reclaimTick limit tick db).2.toTables := by
  cases hgo : tick.fails with
  | true => rwa [reclaimTick_fails hgo]
  | false =>
    rw [reclaimTick_eq hgo]
    exact linked_exec db _ h ⟨trivial, fun hp => hp⟩

theorem recover_linked (crates : Crates) (cronLimit limit : Int) : ∀ (ticks : List Tick) {db : Db},
    Linked db.toTables → Linked (recover crates cronLimit limit ticks db).2.toTables
  | [], _, h => h
  | tick :: ticks, _, h => by
    have hfired : Linked (fireTick crates cronLimit tick _).toTables :=
      fireTick_inv (I := fun db : Db => Linked db.toTables)
        (fun _ _ db _ _ h => linked_exec db _ h ⟨trivial, fun hp => hp⟩) crates cronLimit h
    exact recover_linked crates cronLimit limit ticks (reclaimTick_linked limit tick hfired)

/-- The state a job ends in when its worker has died and another one drains the queue. -/
def resumedState (j : Job) : JobState :=
  match j.state with
  | .available => .completed
  | .running => if j.attempt < j.maxAttempts then .completed else .discarded
  | other => other

/-- What has become of a row when none is running any more. -/
theorem Returned.resolve {ticks : List Tick} {j k : Job} (h : Returned ticks j k) (hidle : k.state ≠ .running) :
    k = j ∧ j.state ≠ .running ∨ j.state = .running ∧
      (j.attempt < j.maxAttempts ∧ k = j.release ∨
        j.maxAttempts ≤ j.attempt ∧ ∃ error time, k = j.discard error time) := by
  rcases h with rfl | ⟨hrun, tick, -, -, rfl⟩
  · exact .inl ⟨rfl, hidle⟩
  · refine .inr ⟨hrun, ?_⟩
    unfold recovered
    split
    · next hleft => exact .inl ⟨hleft, rfl⟩
    · next hspent => exact .inr ⟨not_lt.mp hspent, _, _, rfl⟩

section
variable {db db' : Db} {ticks : List Tick} {g : Job → Job} {new : List Job} {c : Call} {now : Time}

/-- A dead letter that nobody waits for strands nobody, and neither does a new job. -/
theorem noneStranded_returned (hg : db'.jobs = db.jobs.map g ++ new) (hedges : db'.edges = db.edges)
    (hrow : ∀ j ∈ db.jobs, Returned ticks j (g j)) (hnew : ∀ k ∈ new, Scheduled ticks db.crons k)
    (hidle : ∀ k ∈ db'.jobs, k.state ≠ .running) (hsound : Sound db.toTables) (hcalm : NoneStranded db.toTables)
    (hspare : ∀ j ∈ db.jobs, j.state = .running → j.maxAttempts ≤ j.attempt → ¬ Awaited db.toTables j.id) :
    NoneStranded db'.toTables := by
  have hresolve : ∀ j ∈ db.jobs, _ := fun j hj =>
    (hrow j hj).resolve (hidle (g j) (hg ▸ List.mem_append_left _ (List.mem_map_of_mem hj)))
  intro k hk hstranded
  obtain ⟨hwaits, e, he, hchild, q, hq, hparent, hdead⟩ := hstranded
  rw [hg] at hk hq
  rw [hedges] at he
  rcases List.mem_append.mp hk with hk | hk
  · obtain ⟨j, hj, rfl⟩ := List.mem_map.mp hk
    -- the child waited before: a job that ran has no parent left
    have hsame : g j = j := by
      rcases hresolve j hj with ⟨hsame, -⟩ | ⟨hrun, ⟨-, hreleased⟩ | ⟨-, error, time, hspent⟩⟩
      · exact hsame
      · have hnone := (hsound j hj).started (.inl hrun)
        rw [hreleased] at hwaits
        exact absurd hwaits.2 (by rw [Job.release, hnone]; exact lt_irrefl 0)
      · rw [hspent] at hwaits
        cases hwaits.1
    rw [hsame] at hwaits hchild
    rcases List.mem_append.mp hq with hq | hq
    · obtain ⟨p, hp, rfl⟩ := List.mem_map.mp hq
      rcases hresolve p hp with ⟨hsame, -⟩ | ⟨hrun, ⟨-, hreleased⟩ | ⟨hspent, error, time, hdiscard⟩⟩
      · rw [hsame] at hparent hdead
        exact hcalm j hj ⟨hwaits, e, he, hchild, p, hp, hparent, hdead⟩
      · rw [hreleased] at hdead
        rcases hdead with hdead | hdead <;> cases hdead
      · rw [hdiscard] at hparent
        exact hspare p hp hrun hspent ⟨e, he, hparent.symm, j, hj, hchild.symm, hwaits⟩
    · rcases hdead with hdead | hdead <;> cases (hnew q hq).state.symm.trans hdead
  · obtain ⟨tick, -, reads, -, entry, -, hfired⟩ := hnew k hk
    rw [hfired] at hwaits
    exact absurd hwaits.2 (lt_irrefl 0)

theorem drainable_returned (hg : db'.jobs = db.jobs.map g ++ new) (hlinked : Linked db'.toTables)
    (hcalm : NoneStranded db'.toTables) (hrow : ∀ j ∈ db.jobs, Returned ticks j (g j))
    (hnew : ∀ k ∈ new, Scheduled ticks db.crons k)
    (hidle : ∀ k ∈ db'.jobs, k.state ≠ .running) (hbegun : Begun db) (hrows : ∀ j ∈ db.jobs, Coherent j)
    (hqueue : ∀ j ∈ db.jobs, j.Live → j.queue ∈ c.queues)
    (hwaiting : ∀ j ∈ db.jobs, j.state = .available →
      1 ≤ j.maxAttempts ∧ (j.pendingDeps = 0 → j.scheduledAt ≤ (now : WithTop Time)))
    (hstarted : ∀ j ∈ db.jobs, j.state = .running → ∀ time ∈ j.startedAt, time ≤ now)
    (hschedules : ∀ tick ∈ ticks, ∀ reads ∈ tick.schedules, ∀ entry ∈ db.crons,
      entry.queue ∈ c.queues ∧ reads.firing entry.name ≤ now) : Drainable c now db' := by
  -- every waiting row waited before, has been released or comes from a schedule
  have hcases : ∀ k ∈ db'.jobs, k.state = .available → (k ∈ db.jobs ∨
      (∃ j ∈ db.jobs, j.state = .running ∧ j.attempt < j.maxAttempts ∧ k = j.release) ∨
      Scheduled ticks db.crons k) := by
    intro k hk hstate
    have hnot := hidle k hk
    rw [hg] at hk
    rcases List.mem_append.mp hk with hk | hk
    · obtain ⟨j, hj, rfl⟩ := List.mem_map.mp hk
      rcases (hrow j hj).resolve hnot with ⟨hsame, -⟩ | ⟨hrun, ⟨hleft, hreleased⟩ | ⟨-, error, time, hspent⟩⟩
      · rw [hsame]
        exact .inl hj
      · exact .inr (.inl ⟨j, hj, hrun, hleft, hreleased⟩)
      · rw [hspent] at hstate
        cases hstate
    · exact .inr (.inr (hnew k hk))
  refine ⟨hlinked, hcalm, hidle, fun k hk hstate => ?_, fun k hk hstate => ?_, fun k hk hstate hzero => ?_⟩
  all_goals
    rcases hcases k hk hstate with hold | ⟨j, hj, hrun, hleft, rfl⟩ |
      ⟨tick, htick, reads, hreads, entry, hentry, hfired⟩
  · exact hqueue k hold (.inl hstate)
  · exact hqueue j hj (.inr hrun)
  · rw [hfired]
    exact (hschedules tick htick reads hreads entry hentry).1
  · exact (hrows k hold).spare hstate (hwaiting k hold hstate).1
  · exact hleft
  · rw [hfired]
    show (0 : Int) < 20
    decide
  · exact (hwaiting k hold hstate).2 hzero
  · obtain ⟨time, htime, hdue⟩ := hbegun j hj hrun
    exact hdue.trans (WithTop.coe_le_coe.mpr (hstarted j hj hrun time htime))
  · rw [hfired]
    exact WithTop.coe_le_coe.mpr (hschedules tick htick reads hreads entry hentry).2

theorem resumedState_returned {j : Job} (h : Returned ticks j (g j)) (hidle : (g j).state ≠ .running) :
    (g j).id = j.id ∧ drainedState (g j).state = resumedState j ∧
      ((g j).state = .available ↔ j.Live ∧ resumedState j = .completed) := by
  unfold resumedState Job.Live
  rcases h.resolve hidle with ⟨hsame, hnot⟩ | ⟨hrun, ⟨hleft, hreleased⟩ | ⟨hspent, error, time, hdiscard⟩⟩
  · rw [hsame]
    cases hstate : j.state with
    | running => exact absurd hstate hnot
    | _ => exact ⟨rfl, rfl, by simp⟩
  · rw [hreleased, hrun]
    exact ⟨rfl, (if_pos hleft).symm, by simp [Job.release, hleft]⟩
  · rw [hdiscard, hrun]
    exact ⟨rfl, (if_neg (not_lt.mpr hspent)).symm, by simp [Job.discard, not_lt.mpr hspent]⟩
end

/-- **The queue survives a crash.** Take any run that inserts workflows with ascending
edges and deletes no dead letters by hand, and let every worker die at its end, with every
lease over and every running row met by the scan of each tick of `recover`. If the ticks
are enough for these rows, no waiting job has a dead parent or one whose last attempt was
lost, and what is left, the jobs of schedules included, is on the queues, has attempts to
make and is due unless it is parked, then the loop of `drain` returns: every job that
waited, parked ones included, that was running with an attempt left or that a schedule has
added is completed, and their number is returned; the jobs whose last attempt was lost are
dead letters; no other job has changed its state. -/
theorem crash_recovery (ss : List Stmt) (hss : ∀ s ∈ ss, Ascends s ∧ ¬ Purges s)
    (crates : Crates) (cronLimit limit : Int) (ticks : List Tick)
    (hcrashed : ∀ tick ∈ ticks, ∀ j ∈ (Db.after ss).jobs, j.state = .running →
      j.id ∈ tick.visit ∧ j.LeaseExpired tick.now)
    (hticks : running (Db.after ss) ≤ limit.toNat * ticks.countP fun tick => !tick.fails)
    (hcalm : ∀ j ∈ (Db.after ss).jobs, ¬ Stranded (Db.after ss).toTables j)
    (hspare : ∀ j ∈ (Db.after ss).jobs, j.state = .running → j.maxAttempts ≤ j.attempt →
      ¬ Awaited (Db.after ss).toTables j.id)
    (c : Call) (hlim : 1 ≤ c.limit) (now : Time) (rounds : List Round) (horder : Progress.Orderly now rounds)
    (henough : waitingCount (recover crates cronLimit limit ticks (Db.after ss)).2 < rounds.length)
    (hqueue : ∀ j ∈ (Db.after ss).jobs, j.Live → j.queue ∈ c.queues)
    (hwaiting : ∀ j ∈ (Db.after ss).jobs, j.state = .available →
      1 ≤ j.maxAttempts ∧ (j.pendingDeps = 0 → j.scheduledAt ≤ (now : WithTop Time)))
    (hstarted : ∀ j ∈ (Db.after ss).jobs, j.state = .running → ∀ time ∈ j.startedAt, time ≤ now)
    (hschedules : ∀ tick ∈ ticks, ∀ reads ∈ tick.schedules, ∀ entry ∈ (Db.after ss).crons,
      entry.queue ∈ c.queues ∧ reads.firing entry.name ≤ now) :
    ∃ (fired : List Job) (db' : Db), (∀ k ∈ fired, Scheduled ticks (Db.after ss).crons k) ∧
      drain c rounds 0 (recover crates cronLimit limit ticks (Db.after ss)).2 =
        some (some (((Db.after ss).jobs.countP fun j => j.Live ∧ resumedState j = .completed) +
          fired.length), db') ∧
      db'.jobs.map (fun k => (k.id, k.state)) =
        (Db.after ss).jobs.map (fun j => (j.id, resumedState j)) ++ fired.map fun k => (k.id, .completed) := by
  obtain ⟨-, -, hleft, hedges, -, g, fired, hg, hrow, hnew⟩ :=
    recover_spec crates cronLimit limit ticks (Db.after ss) hcrashed
  have hlinked : Linked (recover crates cronLimit limit ticks (Db.after ss)).2.toTables :=
    recover_linked crates cronLimit limit ticks (linked_run Db.empty linked_empty ss hss)
  generalize (recover crates cronLimit limit ticks (Db.after ss)).2 = db₁ at hleft hedges hg hlinked henough ⊢
  have hidle : ∀ k ∈ db₁.jobs, k.state ≠ .running := by
    have hzero : running db₁ = 0 := by omega
    exact fun k hk hrun => List.countP_eq_zero.mp hzero k hk (decide_eq_true hrun)
  have hstrands := noneStranded_returned hg hedges hrow hnew hidle (sound_after ss) hcalm hspare
  have hdrainable : Drainable c now db₁ :=
    drainable_returned hg hlinked hstrands hrow hnew hidle (begun_after ss) (Lifecycle.coherent_after ss) hqueue
      hwaiting hstarted hschedules
  have hresumed : ∀ j ∈ (Db.after ss).jobs, _ := fun j hj =>
    resumedState_returned (hrow j hj) (hidle (g j) (hg ▸ List.mem_append_left _ (List.mem_map_of_mem hj)))
  have hcount : waitingCount db₁ =
      ((Db.after ss).jobs.countP fun j => j.Live ∧ resumedState j = .completed) + fired.length := by
    unfold waitingCount
    rw [hg, List.countP_append, List.countP_map]
    congr 1
    · exact List.countP_congr fun j hj => by simpa using (hresumed j hj).2.2
    · exact List.countP_eq_length.mpr fun k hk => decide_eq_true (hnew k hk).state
  obtain ⟨db', hdrain, hstates⟩ := drain_completes c hlim rounds now 0 _ hdrainable horder henough
  refine ⟨fired, db', hnew, by rw [hdrain, Nat.zero_add, hcount], ?_⟩
  rw [hstates, hg, List.map_append, List.map_map]
  congr 1
  · exact List.map_congr_left fun j hj => by rw [Function.comp, (hresumed j hj).1, (hresumed j hj).2.1]
  · exact List.map_congr_left fun k hk => by rw [(hnew k hk).state]; rfl

theorem orphaned_ascends : ∀ s ∈ orphaned, Ascends s ∧ ¬ Purges s := by
  intro s hs
  rcases List.mem_cons.mp hs with rfl | hs
  · refine ⟨?_, fun h => h.elim⟩
    show ∀ e ∈ steps.edges, e.1 < e.2
    decide
  · rcases List.mem_cons.mp hs with rfl | hs
    · exact ⟨trivial, fun h => h.elim⟩
    · cases List.mem_singleton.mp hs
      exact ⟨trivial, fun h => h.elim⟩

def leaser : Call := { queues := ["default"], limit := 1, lease := 30, worker := 7 }

def fourRounds : List Round :=
  [⟨Ordering.instant 41, 42⟩, ⟨Ordering.instant 43, 44⟩, ⟨Ordering.instant 45, 46⟩, ⟨Ordering.instant 47, 48⟩]

theorem fourRounds_orderly : Progress.Orderly 40 fourRounds :=
  ⟨Ordering.alone_instant 41, by decide, by decide, Ordering.alone_instant 43, by decide, by decide,
    Ordering.alone_instant 45, by decide, by decide, Ordering.alone_instant 47, by decide, by decide, trivial⟩

theorem crash_recovery_chain : ∃ (fired : List Job) (db' : Db),
    drain leaser fourRounds 0 (recover Ticks.twoPatterns 100 10 [tickAt40] (Db.after orphaned)).2 =
      some (some (2 + fired.length), db') ∧
      db'.jobs.map (fun k => (k.id, k.state)) =
        [(1, .completed), (2, .completed)] ++ fired.map fun k => (k.id, .completed) := by
  obtain ⟨fired, db', -, hdrain, hstates⟩ := crash_recovery orphaned orphaned_ascends Ticks.twoPatterns 100 10
    [tickAt40] (by decide) (by decide) (by decide) (by decide) leaser (by decide) 40 fourRounds fourRounds_orderly
    (by decide) (by decide) (by decide) (by decide) (by decide)
  exact ⟨fired, db', hdrain, hstates⟩

end Gylo.Worker.Recovery
