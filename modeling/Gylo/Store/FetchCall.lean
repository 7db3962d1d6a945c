import Gylo.Store.Effects

/-! # One call of `fetch`

`fetch` leases in two passes that commit separately, with a query in between
when the first pass came back empty. Any of its database calls can fail, and a
commit can fail after the server has carried it out. The caller drops
everything on an error, so what the call leaves leased then was leased for
nobody. -/
namespace Gylo.Store.FetchCall

open Gylo.Store

/-! ## The call -/

/-- `gylo_core::Job`, as `job_from` reads it off a returned row. -/
structure LeasedJob where
  id : JobId
  task : String
  payload : Bytes
  attempt : Int
  maxAttempts : Int
  durable : Bool
deriving DecidableEq

def jobFrom (j : Job) : LeasedJob :=
  ⟨j.id, j.task, j.payload, j.attempt, j.maxAttempts, j.durable⟩

/-- How a commit can end; `lost` is a commit the server made and the client
did not hear of. -/
inductive Commit where
  | ok | rolledBack | lost
deriving DecidableEq

inductive FetchError where
  | database (e : DbError)
  | connection
deriving DecidableEq

structure Call where
  queues : List String
  limit : Int
  lease : Time
  worker : Uuid

/-- What the call meets: the clock at each statement, the rows others hold
locked, and which of its database calls fail. -/
structure World where
  now : Time
  nowWaiting : Time
  nowKeyed : Time
  skip : List JobId := []
  skipKeyed : List JobId := []
  failUnkeyed : Bool := false
  failWaiting : Bool := false
  failBegin : Bool := false
  failLock : Bool := false
  failKeyed : Bool := false
  commit : Commit := .ok

/-- The arguments bound to `FETCH_UNKEYED`. -/
def unkeyedArgs (c : Call) (w : World) : Fetch where
  queues := c.queues
  limit := c.limit
  worker := c.worker
  lease := c.lease
  now := w.now
  skip := w.skip

/-- The arguments bound to `FETCH_KEYED` after a first pass that leased
`taken`: room for what is left of the limit, and never for none. -/
def keyedArgs (c : Call) (w : World) (taken : Nat) : Fetch where
  queues := c.queues
  limit := max (c.limit - taken) 1
  worker := c.worker
  lease := c.lease
  now := w.nowKeyed
  skip := w.skipKeyed

/-- The rows a fetch statement returns. -/
def returning (t : Tables) (chosen : List Job) : List LeasedJob :=
  (chosen.filterMap fun j => t.job? j.id).map jobFrom

/-- The keyed pass; `jobs` are those the first pass returned. -/
def keyedPass (c : Call) (w : World) (jobs : List LeasedJob) (db : Db) :
    Except FetchError (List LeasedJob) × Db :=
  if w.failBegin then (.error .connection, db)
  else if w.failLock then (.error .connection, db)
  else if w.failKeyed then (.error .connection, db)
  else match db.run (.fetchKeyed (keyedArgs c w jobs.length)) with
    | .error e => (.error (.database e), db)
    | .ok db' => match w.commit with
      | .ok => (.ok (jobs ++ returning db'.toTables
          (db.admitted (keyedArgs c w jobs.length) db.toTables)), db')
      | .rolledBack => (.error .connection, db)
      | .lost => (.error .connection, db')

def fetch (c : Call) (w : World) (db : Db) : Except FetchError (List LeasedJob) × Db :=
  if w.failUnkeyed then (.error .connection, db)
  else match db.run (.fetchUnkeyed (unkeyedArgs c w)) with
    | .error e => (.error (.database e), db)
    | .ok db' =>
      let jobs := returning db'.toTables (db.lockedUnkeyed (unkeyedArgs c w))
      if jobs = [] then
        -- no row came back to carry `keyed_waiting`, so a query of its own asks
        if w.failWaiting then (.error .connection, db')
        else if db'.keyedWaiting c.queues w.nowWaiting then keyedPass c w jobs db'
        else (.ok jobs, db')
      else if db.keyedWaiting c.queues w.now then keyedPass c w jobs db'
      else (.ok jobs, db')

/-! ## When a lease is accepted -/

/-- Every row a lease takes has an attempt left. -/
def Spare (chosen : List Job) : Prop := ∀ j ∈ chosen, j.attempt < j.maxAttempts

instance (chosen : List Job) : Decidable (Spare chosen) :=
  inferInstanceAs (Decidable (∀ j ∈ chosen, _))

section
variable (db : Db) (a : Fetch)

theorem run_fetchUnkeyed :
    (∃ db', db.run (.fetchUnkeyed a) = .ok db') ↔ 0 ≤ a.limit ∧ Spare (db.lockedUnkeyed a) := by
  have hrow := db.satisfies_leaseRow a (db.lockedUnkeyed a) fun j hj =>
    ⟨(mem_lockedUnkeyed hj).1, (mem_lockedUnkeyed hj).2.1.1⟩
  simp only [Db.run, Stmt.effect, limited]
  split
  · next hneg =>
    refine ⟨fun h => ?_, fun h => absurd hneg (not_lt.mpr h.1)⟩
    obtain ⟨db', h⟩ := h
    cases h
  · next hnonneg =>
    refine commit_isOk_iff.trans (hrow.trans ⟨fun h => ⟨not_lt.mp hnonneg, h⟩, fun h => h.2⟩)

theorem run_fetchKeyed (h : 0 ≤ a.limit) :
    (∃ db', db.run (.fetchKeyed a) = .ok db') ↔ Spare (db.admitted a db.toTables) := by
  have hrow := db.satisfies_leaseRow a (db.admitted a db.toTables) fun j hj =>
    have hlock := mem_jobs_of_admitted hj
    ⟨hlock.1, hlock.2.1.1⟩
  simp only [Db.run, Stmt.effect, limited, if_neg (not_lt.mpr h)]
  exact commit_isOk_iff.trans hrow
end

/-! ## The first pass leaves the keyed rows alone -/

theorem filter_map_of_fixed {f : Job → Job} {p : Job → Prop} [DecidablePred p] {l : List Job}
    (h : ∀ j ∈ l, p (f j) ∨ p j → f j = j) : (l.map f).filter p = l.filter p := by
  induction l with
  | nil => rfl
  | cons j l ih =>
    have hj := h j List.mem_cons_self
    have ih := ih fun x hx => h x (List.mem_cons_of_mem _ hx)
    by_cases hp : p j
    · simp [hj (.inr hp), hp, ih]
    · have hpf : ¬ p (f j) := fun hpf => hp (hj (.inl hpf) ▸ hpf)
      simp [hp, hpf, ih]

section
variable {db db' : Db} {f : Job → Job} (hdb : db'.toTables = db.toTables.mapJobs f)
  (hkey : ∀ j, (f j).concurrencyKey = j.concurrencyKey)
  (hfix : ∀ j ∈ db.jobs, j.concurrencyKey ≠ none → f j = j)
include hdb hkey hfix

theorem filter_keyed {p : Job → Prop} [DecidablePred p] (hp : ∀ j, p j → j.concurrencyKey ≠ none) :
    db'.jobs.filter p = db.jobs.filter p := by
  rw [show db'.jobs = db.jobs.map f from congrArg Tables.jobs hdb]
  refine filter_map_of_fixed fun j hj h => hfix j hj ?_
  rcases h with h | h
  · exact hkey j ▸ hp _ h
  · exact hp _ h

theorem already_same : db'.already = db.already := by
  have hactive : ∀ k, db'.active k = db.active k := by
    intro k
    rw [Tables.active, Tables.active, filter_keyed hdb hkey hfix
      (p := fun j => j.state = .running ∧ j.concurrencyKey = some k) fun j hj => by simp [hj.2]]
  funext j
  unfold Tables.already
  split
  · exact hactive _
  · rfl

theorem admitted_same (a : Fetch) :
    db'.admitted a db'.toTables = db.admitted a db.toTables := by
  have hadm : ∀ j, Job.Admissible a db'.toTables j ↔ Job.Admissible a db.toTables j := by
    intro j
    unfold Job.Admissible
    rw [already_same hdb hkey hfix]
  have hlocked : db'.lockedKeyed a db'.toTables = db.lockedKeyed a db.toTables := by
    unfold Tables.lockedKeyed
    simp only [hadm]
    rw [filter_keyed hdb hkey hfix (p := fun j => Job.Admissible a db.toTables j ∧ j.id ∉ a.skip)
      fun j hj => hj.1.2.1]
    congr 2
    refine List.filterMap_congr fun j hj => ?_
    have hj := (List.perm_insertionSort _ _).mem_iff.mp hj
    obtain ⟨hmem, hp⟩ := List.mem_filter.mp hj
    have hp := of_decide_eq_true hp
    rw [db.job?_eq_some.mpr ⟨hmem, rfl⟩, db'.job?_eq_some]
    refine ⟨?_, rfl⟩
    rw [show db'.jobs = db.jobs.map f from congrArg Tables.jobs hdb]
    exact List.mem_map.mpr ⟨j, hmem, hfix j hmem hp.1.2.1⟩
  unfold Tables.admitted
  rw [hlocked, already_same hdb hkey hfix]
end

/-! ## What a failed call leaves behind -/

/-- The columns a lease writes. -/
def leaseColumns (j : Job) : JobId × JobState × Int × Option Uuid × Option Time :=
  (j.id, j.state, j.attempt, j.lockedBy, j.leaseExpiresAt)

def Untouched (db db' : Db) : Prop := db'.jobs.map leaseColumns = db.jobs.map leaseColumns

instance (db db' : Db) : Decidable (Untouched db db') := inferInstanceAs (Decidable (_ = _))

/-- Rows that gained an attempt were touched. -/
theorem not_untouched {db db' : Db} {f : Job → Job} (hdb : db'.jobs = db.jobs.map f) {j : Job}
    (hj : j ∈ db.jobs) (hlt : j.attempt < (f j).attempt) : ¬ Untouched db db' := by
  intro h
  rw [Untouched, hdb, List.map_map] at h
  have hcols := List.map_inj_left.mp h j hj
  simp only [Function.comp, leaseColumns, Prod.mk.injEq] at hcols
  omega

theorem leaseRow_attempt_le (a : Fetch) (chosen : List JobId) (j : Job) :
    j.attempt ≤ (leaseRow a chosen j).attempt := by
  unfold leaseRow
  split
  · show j.attempt ≤ j.attempt + 1; omega
  · exact le_refl _

theorem leaseRow_attempt {a : Fetch} {chosen : List Job} {j : Job} (hj : j ∈ chosen) :
    (leaseRow a (chosen.map Job.id) j).attempt = j.attempt + 1 := by
  rw [leaseRow, if_pos (List.mem_map_of_mem hj)]
  rfl

theorem mapJobs_leaseRow_nil (t : Tables) (a : Fetch) : t.mapJobs (leaseRow a []) = t := by
  have hid : leaseRow a [] = id := by
    funext j
    rw [leaseRow, if_neg List.not_mem_nil]
    rfl
  rw [hid, Tables.mapJobs, List.map_id]

/-- The second pass does not come through; `chosen` is what it would lease. -/
def KeyedFails (w : World) (chosen : List Job) : Prop :=
  w.failBegin = true ∨ w.failLock = true ∨ w.failKeyed = true ∨ ¬ Spare chosen ∨ w.commit ≠ .ok

/-- The second pass comes through and its commit is not heard of. -/
def KeyedLost (w : World) (chosen : List Job) : Prop :=
  w.failBegin = false ∧ w.failLock = false ∧ w.failKeyed = false ∧ Spare chosen ∧ w.commit = .lost

instance (w : World) (chosen : List Job) : Decidable (KeyedFails w chosen) :=
  inferInstanceAs (Decidable (_ ∨ _ ∨ _ ∨ _ ∨ _))

instance (w : World) (chosen : List Job) : Decidable (KeyedLost w chosen) :=
  inferInstanceAs (Decidable (_ ∧ _ ∧ _ ∧ _ ∧ _))

/-- A call fails after a lease was committed: the first pass leased something
and the second, being due, did not come through; or the first leased nothing
and the commit of a second that did was lost. -/
def LeavesLeased (c : Call) (w : World) (db : Db) : Prop :=
  w.failUnkeyed = false ∧ 0 ≤ c.limit ∧ Spare (db.lockedUnkeyed (unkeyedArgs c w)) ∧
    (db.lockedUnkeyed (unkeyedArgs c w) ≠ [] ∧ db.keyedWaiting c.queues w.now = true ∧
        KeyedFails w (db.admitted
          (keyedArgs c w (db.lockedUnkeyed (unkeyedArgs c w)).length) db.toTables) ∨
      db.lockedUnkeyed (unkeyedArgs c w) = [] ∧ w.failWaiting = false ∧
        db.keyedWaiting c.queues w.nowWaiting = true ∧
        db.admitted (keyedArgs c w 0) db.toTables ≠ [] ∧
        KeyedLost w (db.admitted (keyedArgs c w 0) db.toTables))

instance (c : Call) (w : World) (db : Db) : Decidable (LeavesLeased c w db) :=
  inferInstanceAs (Decidable (_ ∧ _ ∧ _ ∧ (_ ∧ _ ∧ _ ∨ _ ∧ _ ∧ _ ∧ _ ∧ _)))

theorem keyedPass_cases {c : Call} {w : World} (jobs : List LeasedJob) (db : Db) {a : Fetch}
    {chosen : List Job} (ha : keyedArgs c w jobs.length = a)
    (hc : db.admitted a db.toTables = chosen) :
    (KeyedLost w chosen ∧ (∃ e, (keyedPass c w jobs db).1 = .error e) ∧
      (keyedPass c w jobs db).2.jobs = db.jobs.map (leaseRow a (chosen.map Job.id))) ∨
    (¬ KeyedLost w chosen ∧ KeyedFails w chosen ∧ (∃ e, (keyedPass c w jobs db).1 = .error e) ∧
      (keyedPass c w jobs db).2 = db) ∨
    (¬ KeyedFails w chosen ∧ ∃ l, (keyedPass c w jobs db).1 = .ok l) := by
  have hlim : 0 ≤ a.limit := by
    rw [← ha]
    show 0 ≤ max (c.limit - jobs.length) 1
    omega
  have hok := run_fetchKeyed db a hlim
  rw [hc] at hok
  by_cases hb : w.failBegin = true
  · refine .inr (.inl ⟨by simp [KeyedLost, hb], .inl hb, ?_⟩)
    simp [keyedPass, hb]
  by_cases hl : w.failLock = true
  · refine .inr (.inl ⟨by simp [KeyedLost, hl], .inr (.inl hl), ?_⟩)
    simp [keyedPass, hb, hl]
  by_cases hk : w.failKeyed = true
  · refine .inr (.inl ⟨by simp [KeyedLost, hk], .inr (.inr (.inl hk)), ?_⟩)
    simp [keyedPass, hb, hl, hk]
  simp only [keyedPass, if_neg hb, if_neg hl, if_neg hk, ha]
  simp only [Bool.not_eq_true] at hb hl hk
  cases hrun : db.run (.fetchKeyed a) with
  | error e =>
    have hspare : ¬ Spare chosen := fun hs => by
      obtain ⟨db', h⟩ := hok.mpr hs
      rw [hrun] at h
      cases h
    exact .inr (.inl ⟨fun h => hspare h.2.2.2.1, .inr (.inr (.inr (.inl hspare))), ⟨_, rfl⟩, rfl⟩)
  | ok db' =>
    have hspare : Spare chosen := hok.mp ⟨db', hrun⟩
    dsimp only
    cases hcommit : w.commit with
    | ok => exact .inr (.inr ⟨by simp [KeyedFails, hb, hl, hk, hspare, hcommit], _, rfl⟩)
    | rolledBack =>
      exact .inr (.inl ⟨by simp [KeyedLost, hcommit], by simp [KeyedFails, hcommit], ⟨_, rfl⟩, rfl⟩)
    | lost =>
      refine .inl ⟨⟨hb, hl, hk, hspare, hcommit⟩, ⟨_, rfl⟩, ?_⟩
      have ht := Stmt.effect_eq_mapJobs (s := .fetchKeyed a) rfl (Db.run_ok hrun)
      rw [show db'.jobs = _ from congrArg Tables.jobs ht, ← hc]
      rfl

theorem length_returning {db' : Db} {chosen : List Job}
    (h : ∀ j ∈ chosen, ∃ k ∈ db'.jobs, k.id = j.id) :
    (returning db'.toTables chosen).length = chosen.length := by
  have hall : ∀ j ∈ chosen, (db'.job? j.id).isSome := by
    intro j hj
    obtain ⟨k, hk, hid⟩ := h j hj
    rw [db'.job?_eq_some.mpr ⟨hk, hid⟩]
    rfl
  rw [returning, List.length_map, List.length_filterMap_eq_countP]
  exact List.countP_eq_length.mpr hall

/-- A first pass that comes through leases the unkeyed rows it locked, and
returns them all. -/
theorem first_pass {db db' : Db} {a : Fetch} (hrun : db.run (.fetchUnkeyed a) = .ok db') :
    db'.toTables = db.toTables.mapJobs (leaseRow a ((db.lockedUnkeyed a).map Job.id)) ∧
    (∀ j ∈ db.lockedUnkeyed a, j ∈ db.jobs ∧ j.concurrencyKey = none) ∧
    (returning db'.toTables (db.lockedUnkeyed a)).length = (db.lockedUnkeyed a).length := by
  have ht := Stmt.effect_eq_mapJobs (s := .fetchUnkeyed a) rfl (Db.run_ok hrun)
  have hmem : ∀ j ∈ db.lockedUnkeyed a, j ∈ db.jobs ∧ j.concurrencyKey = none := fun j hj =>
    ⟨(mem_lockedUnkeyed hj).1, (mem_lockedUnkeyed hj).2.2.1⟩
  refine ⟨ht, hmem, length_returning fun j hj => ?_⟩
  have hj' : leaseRow a ((db.lockedUnkeyed a).map Job.id) j ∈ db'.jobs := by
    rw [show db'.jobs = _ from congrArg Tables.jobs ht]
    exact List.mem_map_of_mem (hmem j hj).1
  exact ⟨_, hj', (leaseRow_same _ _ j).id⟩

/-- After a first pass that leased something, the call leaves it behind exactly
if a due second pass does not come through. -/
theorem second_after_leases {c : Call} {w : World} {db db' : Db} {first : List Job}
    {jobs : List LeasedJob} {waiting : Bool}
    (ht : db'.toTables = db.toTables.mapJobs (leaseRow (unkeyedArgs c w) (first.map Job.id)))
    (hmem : ∀ j ∈ first, j ∈ db.jobs ∧ j.concurrencyKey = none)
    (hlen : jobs.length = first.length) (hne : first ≠ []) :
    (∀ e, (if waiting then keyedPass c w jobs db' else (.ok jobs, db')).1 = .error e →
      Untouched db (if waiting then keyedPass c w jobs db' else (.ok jobs, db')).2) ↔
    ¬ (waiting = true ∧ KeyedFails w (db.admitted (keyedArgs c w first.length) db.toTables)) := by
  obtain ⟨j, hj⟩ := List.exists_mem_of_ne_nil first hne
  have hjobs : db'.jobs = db.jobs.map (leaseRow (unkeyedArgs c w) (first.map Job.id)) :=
    congrArg Tables.jobs ht
  have hsame := admitted_same ht (fun k => (leaseRow_same _ _ k).concurrencyKey) (fun k hk hkey => by
    rw [leaseRow, if_neg]
    intro hin
    obtain ⟨i, hi, hid⟩ := List.mem_map.mp hin
    exact hkey (db.eq_of_id (hmem i hi).1 hk hid ▸ (hmem i hi).2)) (keyedArgs c w first.length)
  have hpass := keyedPass_cases jobs db' (by rw [hlen]) hsame
  cases waiting with
  | false => exact ⟨fun _ h => absurd h.1 Bool.false_ne_true, (fun _ _ h => by cases h)⟩
  | true =>
    simp only [if_true, true_and]
    rcases hpass with ⟨hlost, ⟨e, he⟩, hdb⟩ | ⟨-, hfails, ⟨e, he⟩, hdb⟩ | ⟨hnot, l, hl⟩
    · have hfails : KeyedFails w (db.admitted (keyedArgs c w first.length) db.toTables) :=
        .inr (.inr (.inr (.inr (by rw [hlost.2.2.2.2]; decide))))
      refine ⟨fun h => absurd (h e he) ?_, fun h => absurd hfails h⟩
      rw [hjobs, List.map_map] at hdb
      refine not_untouched hdb (hmem j hj).1 (lt_of_lt_of_le ?_ (leaseRow_attempt_le _ _ _))
      rw [leaseRow_attempt hj]
      omega
    · refine ⟨fun h => absurd (h e he) ?_, fun h => absurd hfails h⟩
      rw [hdb]
      refine not_untouched hjobs (hmem j hj).1 ?_
      rw [leaseRow_attempt hj]
      omega
    · exact ⟨fun _ => hnot, fun _ e he => by rw [hl] at he; cases he⟩

/-- After a first pass that leased nothing, the call leaves a lease behind
exactly if the second pass leases something and its commit is lost. -/
theorem second_after_nothing {c : Call} {w : World} (db : Db) {waiting : Bool} :
    (∀ e, (if w.failWaiting then ((.error .connection, db) : Except FetchError _ × Db)
        else if waiting then keyedPass c w [] db else (.ok [], db)).1 = .error e →
      Untouched db (if w.failWaiting then ((.error .connection, db) : Except FetchError _ × Db)
        else if waiting then keyedPass c w [] db else (.ok [], db)).2) ↔
    ¬ (w.failWaiting = false ∧ waiting = true ∧ db.admitted (keyedArgs c w 0) db.toTables ≠ [] ∧
      KeyedLost w (db.admitted (keyedArgs c w 0) db.toTables)) := by
  generalize hchosen : db.admitted (keyedArgs c w 0) db.toTables = chosen
  have hpass := keyedPass_cases [] db rfl hchosen
  have hin : ∀ j ∈ chosen, j ∈ db.jobs := by
    intro j hj
    rw [← hchosen] at hj
    exact (mem_jobs_of_admitted hj).1
  cases w.failWaiting with
  | true => exact ⟨(fun _ h => by cases h.1), fun _ _ _ => rfl⟩
  | false =>
    cases waiting with
    | false => exact ⟨fun _ h => absurd h.2.1 Bool.false_ne_true, (fun _ _ h => by cases h)⟩
    | true =>
      simp only [Bool.false_eq_true, if_false, if_true, true_and]
      rcases hpass with ⟨hlost, ⟨e, he⟩, hdb⟩ | ⟨hnot, -, ⟨e, he⟩, hdb⟩ | ⟨hnot, l, hl⟩
      · constructor
        · intro h hbad
          obtain ⟨j, hj⟩ := List.exists_mem_of_ne_nil chosen hbad.1
          refine not_untouched hdb (hin j hj) ?_ (h e he)
          rw [leaseRow_attempt hj]
          omega
        · intro hnot e he
          have hnil : chosen = [] := by
            by_contra hne
            exact hnot ⟨hne, hlost⟩
          rw [hnil, List.map_nil] at hdb
          rw [Untouched, hdb, show db.jobs.map (leaseRow _ []) = db.jobs from
            congrArg Tables.jobs (mapJobs_leaseRow_nil db.toTables _)]
      · exact ⟨fun _ h => hnot h.2, fun _ _ _ => by rw [hdb]; rfl⟩
      · refine ⟨fun _ h => hnot ?_, fun _ e he => by rw [hl] at he; cases he⟩
        exact .inr (.inr (.inr (.inr (by rw [h.2.2.2.2.2]; decide))))

/-- **A failed fetch leaves nothing leased** exactly if no database call fails
after a lease was committed. -/
theorem fetch_err_untouched_iff (c : Call) (w : World) (db : Db) :
    (∀ e, (fetch c w db).1 = .error e → Untouched db (fetch c w db).2) ↔
      ¬ LeavesLeased c w db := by
  have hunkeyed := run_fetchUnkeyed db (unkeyedArgs c w)
  unfold LeavesLeased fetch
  generalize hfirst : db.lockedUnkeyed (unkeyedArgs c w) = first at hunkeyed
  by_cases hu : w.failUnkeyed = true
  · simp only [hu, if_true]
    exact ⟨(fun _ h => by cases h.1), fun _ _ _ => rfl⟩
  simp only [if_neg hu]
  simp only [Bool.not_eq_true] at hu
  cases hrun : db.run (.fetchUnkeyed (unkeyedArgs c w)) with
  | error e =>
    have hnot : ¬ (0 ≤ c.limit ∧ Spare first) := fun h => by
      obtain ⟨db', hdb'⟩ := hunkeyed.mpr h
      rw [hrun] at hdb'
      cases hdb'
    exact ⟨fun _ h => hnot ⟨h.2.1, h.2.2.1⟩, fun _ _ _ => rfl⟩
  | ok db' =>
    obtain ⟨hlim, hspare⟩ := hunkeyed.mp ⟨db', hrun⟩
    change 0 ≤ c.limit at hlim
    obtain ⟨ht, hmem, hlen⟩ := first_pass hrun
    rw [hfirst] at ht hmem hlen
    simp only [hu, true_and]
    by_cases hnil : first = []
    · have hsame : db' = db := by
        rw [hnil, List.map_nil, mapJobs_leaseRow_nil] at ht
        cases db
        cases db'
        cases ht
        rfl
      subst hsame hnil
      simp only [returning, List.filterMap_nil, List.map_nil, if_true]
      rw [second_after_nothing db']
      simp [hlim, hspare]
    · have hjobsne : returning db'.toTables first ≠ [] := by
        rw [← List.length_pos_iff, hlen]
        exact List.length_pos_iff.mpr hnil
      simp only [if_neg hjobsne]
      rw [second_after_leases ht hmem hlen hnil]
      simp [hlim, hspare, hnil]

/-- One unkeyed and one keyed job, both due. -/
def twoWaiting : Db :=
  Db.after [.enqueue { task := "report" } 0,
    .enqueue { task := "import", concurrencyKey := some "tenant", maxConcurrency := some 1 } 0]

def fetchTwo : Call := { queues := ["default"], limit := 10, lease := 30, worker := 7 }

/-- `begin` fails after the first pass has leased the unkeyed job: the call
returns an error, and the job has used an attempt. -/
theorem fetch_err_leased :
    (fetch fetchTwo { now := 1, nowWaiting := 1, nowKeyed := 1, failBegin := true } twoWaiting).1 =
      .error .connection ∧
    ∃ j ∈ (fetch fetchTwo { now := 1, nowWaiting := 1, nowKeyed := 1, failBegin := true }
        twoWaiting).2.jobs,
      j.id = 1 ∧ j.state = .running ∧ j.attempt = 1 ∧ j.lockedBy = some 7 := by
  decide

end Gylo.Store.FetchCall
