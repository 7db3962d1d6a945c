import Gylo.Store.Leasing

/-! # Unique enqueues that overlap

`INSERT_UNIQUE` looks at two versions of the table. Its `INSERT` meets the newest
one: `ON CONFLICT DO NOTHING` waits for an open transaction that has inserted the
key, and inserts nothing if the key is taken in the end. Its `SELECT` reads the
snapshot taken when the statement began. Clients run the statement in
transactions of their own, beside the statements of the workers. -/
namespace Gylo.Store.Unique

open Gylo.Store Gylo.Store.Reclaim Runs

/-! ## Clients -/

/-- `unique_key = key AND state IN ('available', 'running')`. -/
def carrying (key : Bytes) (jobs : List Job) : List Job :=
  jobs.filter fun j => j.uniqueKey = some key ∧ j.Live

/-- An `INSERT_UNIQUE` that has begun. -/
structure Call where
  new : NewJob
  key : Bytes
  now : Time
  snapshot : List Job

/-- What is committed, the rows of open transactions with their clients, and the
statement each client is in. -/
structure Clients where
  race : Race
  held : List (Nat × Job) := []
  calls : Nat → Option Call := fun _ => none

def Clients.begin (db : Db) : Clients := { race := ⟨db, []⟩ }

def Clients.rows (s : Clients) : List Job := s.held.map Prod.snd

/-- The rows the open transaction of a client has inserted. -/
def Clients.own (s : Clients) (client : Nat) : List Job :=
  (s.held.filter fun h => h.1 = client).map Prod.snd

/-- What a statement of the client sees if it begins now. -/
def Clients.sees (s : Clients) (client : Nat) : List Job := s.race.db.jobs ++ s.own client

def withRows (t : Tables) (rows : List Job) : Tables := { t with jobs := t.jobs ++ rows }

/-- `nextval` of the identity column, which no rollback takes back. -/
def advance (db : Db) : Db where
  toTables := { db.toTables with jobSeq := db.jobSeq + 1 }
  valid c := by
    have hc := db.valid c
    cases c with
    | identity => exact ⟨fun id hid => Int.le_trans (hc.1 id hid) (Int.le_add_one (Int.le_refl _)), hc.2⟩
    | _ => exact hc

def Call.row (q : Call) (db : Db) : Job :=
  { q.new.row (db.jobSeq + 1) q.now with uniqueKey := some q.key }

/-- Another transaction holds the key and is open. -/
def Waits (s : Clients) (client : Nat) (key : Bytes) : Prop :=
  ∃ h ∈ s.held, h.1 ≠ client ∧ h.2.uniqueKey = some key

instance (s : Clients) (client : Nat) (key : Bytes) : Decidable (Waits s client key) :=
  inferInstanceAs (Decidable (∃ h ∈ s.held, _))

/-- The check of the inserted row, against every row there is. -/
def inserted (s : Clients) (q : Call) : Except DbError Db :=
  commit (withRows (advance s.race.db).toTables (s.rows ++ [q.row s.race.db]))

/-- What the statement returns: the row of `new`, else that of the `SELECT`. -/
def outcome (s : Clients) (client : Nat) (q : Call) : Except DbError (Option JobId) :=
  if carrying q.key (s.sees client) ≠ [] then .ok ((carrying q.key q.snapshot).head?.map Job.id)
  else match inserted s q with
    | .ok _ => .ok (some (q.row s.race.db).id)
    | .error e => .error e

def Clients.ended (s : Clients) (client : Nat) : Nat → Option Call :=
  fun c => if c = client then none else s.calls c

/-- The rows of the other clients. -/
def Clients.others (s : Clients) (client : Nat) : List (Nat × Job) :=
  s.held.filter fun h => h.1 ≠ client

/-- The `INSERT` of a client's statement gets its turn. -/
def insert (client : Nat) (s : Clients) : Clients :=
  match s.calls client with
  | none => s
  | some q =>
    if Waits s client q.key then s
    else
      { race := { s.race with db := advance s.race.db }
        calls := s.ended client
        held :=
          if carrying q.key (s.sees client) ≠ [] then s.held
          else match inserted s q with
            | .ok _ => s.held ++ [(client, q.row s.race.db)]
            -- an error aborts the transaction
            | .error _ => s.others client }

/-- A deletion is no part of the race. -/
def deletes : Leasing.Act → Bool
  | .stmt s => s.deletes
  | _ => false

inductive Act where
  | start (client : Nat) (new : NewJob) (key : Bytes) (now : Time)
  | insert (client : Nat)
  | commit (client : Nat)
  | rollback (client : Nat)
  | /-- any statement of the other parties, or half of one -/
    store (a : Leasing.Act) (h : deletes a = false := by rfl)

/-- The unique index knows the rows of open transactions: a statement whose
effect clashes with one waits. -/
def Clear (s : Clients) (db : Db) : Prop :=
  ∀ c ∈ Constraint.all, (withRows db.toTables s.rows).Satisfies c

instance (s : Clients) (db : Db) : Decidable (Clear s db) :=
  inferInstanceAs (Decidable (∀ c ∈ Constraint.all, _))

def step (s : Clients) : Act → Clients
  | .start client new key now =>
    if (s.calls client).isSome then s
    -- a text that is refused aborts the transaction
    else if new.texts.any hasNul then { s with held := s.others client, calls := s.ended client }
    else
      { s with
        calls := fun c => if c = client then some ⟨new, key, now, s.sees client⟩ else s.calls c }
  | .insert client => insert client s
  | .commit client =>
    if (s.calls client).isSome then s
    else
      { s with
        race := { s.race with db := s.race.db.attempt (withRows s.race.db.toTables (s.own client)) }
        held := s.others client }
  | .rollback client => { s with held := s.others client, calls := s.ended client }
  | .store a _ =>
    if Clear s (Leasing.step s.race a).db then { s with race := Leasing.step s.race a } else s

def after (db : Db) (as : List Act) : Clients := run step (Clients.begin db) as

/-! ## Rows of open transactions -/

/-- The constraints hold of fewer rows, as long as the committed ones stay. -/
theorem satisfies_of_subperm {db : Db} {rows jobs : List Job}
    (h : ∀ c, (withRows db.toTables rows).Satisfies c) (hsub : List.Subperm jobs (db.jobs ++ rows))
    (hbase : db.jobs ⊆ jobs) : ∀ c, ({ db.toTables with jobs := jobs } : Tables).Satisfies c := by
  have hmem : ∀ j ∈ jobs, j ∈ db.jobs ++ rows := hsub.subset
  have hids : ∀ id ∈ db.ids, id ∈ jobs.map Job.id := List.map_subset _ hbase
  intro c
  have hc := h c
  have hdb := db.valid c
  cases c with
  | jobPkey =>
    obtain ⟨l, hperm, hl⟩ := hsub
    exact (hperm.map Job.id).nodup_iff.mp (hc.sublist (hl.map Job.id))
  | jobUnique =>
    obtain ⟨l, hperm, hl⟩ := hsub
    exact ((hperm.filter _).filterMap Job.uniqueKey).nodup_iff.mp
      (hc.sublist ((hl.filter _).filterMap Job.uniqueKey))
  | edgePkey | stepPkey | cronPkey => exact hdb
  | edgeFkey => exact fun e he => ⟨(hdb e he).1, hids _ (hdb e he).2.1, hids _ (hdb e he).2.2⟩
  | stepFkey => exact fun st hst => hids _ (hdb st hst)
  | identity => exact ⟨fun id hid => hc.1 id (List.map_subset _ hmem hid), hc.2⟩
  | attemptBounds | leasePaired | concurrencyPaired | concurrencyPositive | pendingDepsPositive
  | smallintRange | intRange | jobWorkflowFkey => exact fun j hj => hc j (hmem j hj)

/-- The rows of a client and those of the others are all. -/
theorem own_append_others (s : Clients) (client : Nat) :
    (s.own client ++ (s.others client).map Prod.snd).Perm s.rows := by
  unfold Clients.own Clients.others Clients.rows
  rw [← List.map_append]
  simpa using (List.filter_append_perm (fun h => decide (h.1 = client)) s.held).map Prod.snd

/-- A transaction that reaches its commit goes through. -/
theorem attempt_own {s : Clients}
    (h : ∀ c, (withRows s.race.db.toTables s.rows).Satisfies c) (client : Nat) :
    (s.race.db.attempt (withRows s.race.db.toTables (s.own client))).toTables =
      withRows s.race.db.toTables (s.own client) := by
  have hvalid : ∀ c, (withRows s.race.db.toTables (s.own client)).Satisfies c := by
    refine satisfies_of_subperm h ?_ (List.subset_append_left _ _)
    exact ((List.subperm_append_left _).mpr
      ((List.sublist_append_left _ _).subperm.trans (own_append_others s client).subperm))
  unfold Db.attempt
  rw [commit_eq_ok hvalid]

/-! ## The invariant -/

theorem reclaimRow_same (expired : List Expired) (now : Time) (j : Job) :
    SameJob j (reclaimRow expired now j) := by
  unfold reclaimRow
  split
  · split
    · split <;> constructor <;> rfl
    · exact .refl j
  · exact .refl j

/-- The rows stay, whatever the other parties do. -/
theorem store_keeps (r : Race) {a : Leasing.Act} (h : deletes a = false) :
    ∀ j ∈ r.db.jobs, ∃ k ∈ (Leasing.step r a).db.jobs, SameJob j k := by
  have attempt_keeps : ∀ {f : Job → Job}, (∀ j, SameJob j (f j)) → ∀ j ∈ r.db.jobs,
      ∃ k ∈ (r.db.attempt (r.db.mapJobs f)).jobs, SameJob j k := by
    intro f hf j hj
    rcases r.db.attempt_cases (r.db.mapJobs f) with hsame | hsome
    · rw [hsame]
      exact ⟨j, hj, .refl j⟩
    · rw [hsome]
      exact ⟨f j, List.mem_map_of_mem hj, hf j⟩
  cases a with
  | stmt s => exact r.db.exec_keeps h
  | keyed a snapshot =>
    simp only [Leasing.step]
    split
    · exact fun j hj => ⟨j, hj, .refl j⟩
    · exact attempt_keeps fun j => leaseRow_same a _ j
  | snapshot limit visit now =>
    simp only [Leasing.step, Reclaim.step]
    split <;> exact fun j hj => ⟨j, hj, .refl j⟩
  | update i =>
    simp only [Leasing.step, Reclaim.step]
    split
    · exact attempt_keeps fun j => reclaimRow_same _ _ j
    · exact fun j hj => ⟨j, hj, .refl j⟩

structure Inv (s : Clients) : Prop where
  whole : ∀ c, (withRows s.race.db.toTables s.rows).Satisfies c
  kept : ∀ client q, s.calls client = some q → ∀ j ∈ q.snapshot, ∃ k ∈ s.sees client, SameJob j k

theorem inv_begin (db : Db) : Inv (Clients.begin db) where
  whole c := by
    have hrows : withRows db.toTables [] = db.toTables := by simp [withRows]
    show (withRows db.toTables []).Satisfies c
    rw [hrows]
    exact db.valid c
  kept _ _ hnone := by cases hnone

theorem mem_sees {s : Clients} {client : Nat} {j : Job} :
    j ∈ s.sees client ↔ j ∈ s.race.db.jobs ∨ (client, j) ∈ s.held := by
  unfold Clients.sees Clients.own
  rw [List.mem_append, List.mem_map]
  refine or_congr_right ⟨fun h => ?_, fun h => ⟨_, List.mem_filter.mpr ⟨h, by simp⟩, rfl⟩⟩
  obtain ⟨⟨c, j⟩, hmem, rfl⟩ := h
  obtain ⟨hheld, hclient⟩ := List.mem_filter.mp hmem
  obtain rfl : c = client := of_decide_eq_true hclient
  exact hheld

/-- The calls that go on keep what their snapshots show: committed rows and the
rows of the client itself stay. -/
theorem Inv.kept_of {s s' : Clients} (h : Inv s)
    (hrows : ∀ j ∈ s.race.db.jobs, ∃ k ∈ s'.race.db.jobs, SameJob j k)
    (hcalls : ∀ client q, s'.calls client = some q → s.calls client = some q ∧
      ∀ j, (client, j) ∈ s.held → (client, j) ∈ s'.held) :
    ∀ client q, s'.calls client = some q → ∀ j ∈ q.snapshot,
      ∃ k ∈ s'.sees client, SameJob j k := by
  intro client q hq j hj
  obtain ⟨hq, hheld⟩ := hcalls client q hq
  obtain ⟨k, hk, hsame⟩ := h.kept client q hq j hj
  rcases mem_sees.mp hk with hk | hk
  · obtain ⟨l, hl, hsame'⟩ := hrows k hk
    exact ⟨l, mem_sees.mpr (.inl hl), hsame.trans hsame'⟩
  · exact ⟨k, mem_sees.mpr (.inr (hheld k hk)), hsame⟩

theorem mem_others {s : Clients} {client other : Nat} (h : other ≠ client) {j : Job}
    (hj : (other, j) ∈ s.held) : (other, j) ∈ s.others client :=
  List.mem_filter.mpr ⟨hj, by simpa using h⟩

theorem ended_some {s : Clients} {client other : Nat} {q : Call}
    (h : s.ended client other = some q) : other ≠ client ∧ s.calls other = some q := by
  unfold Clients.ended at h
  split at h
  · cases h
  · next hother => exact ⟨hother, h⟩

/-- A transaction is gone with its rows. -/
theorem Inv.without {s : Clients} (h : Inv s) (client : Nat) :
    Inv { s with held := s.others client, calls := s.ended client } where
  whole := satisfies_of_subperm h.whole
    ((List.subperm_append_left _).mpr ((List.filter_sublist.map Prod.snd).subperm))
    (List.subset_append_left _ _)
  kept := h.kept_of (fun j hj => ⟨j, hj, .refl j⟩) fun _ _ hq =>
    ⟨(ended_some hq).2, fun _ hj => mem_others (ended_some hq).1 hj⟩

theorem satisfies_advance {db : Db} {rows : List Job}
    (h : ∀ c, (withRows db.toTables rows).Satisfies c) :
    ∀ c, (withRows (advance db).toTables rows).Satisfies c := by
  intro c
  have hc := h c
  cases c with
  | identity => exact ⟨fun id hid => Int.le_trans (hc.1 id hid) (Int.le_add_one (Int.le_refl _)), hc.2⟩
  | _ => exact hc

theorem Inv.advance {s : Clients} (h : Inv s) :
    Inv { s with race := { s.race with db := advance s.race.db } } :=
  ⟨satisfies_advance h.whole, h.kept⟩

theorem Inv.insert {s : Clients} (h : Inv s) (client : Nat) : Inv (insert client s) := by
  unfold Unique.insert
  cases hq : s.calls client with
  | none => exact h
  | some q =>
    dsimp only
    split
    · exact h
    · have hended : Inv { s with
          race := { s.race with db := Unique.advance s.race.db }, calls := s.ended client } :=
        ⟨h.advance.whole, h.advance.kept_of (fun j hj => ⟨j, hj, .refl j⟩) fun other q hq =>
          ⟨(ended_some hq).2, fun _ hj => hj⟩⟩
      split
      · exact hended
      · cases hcheck : inserted s q with
        | error e => exact h.advance.without client
        | ok db' =>
          refine ⟨fun c => ?_, hended.kept_of (fun j hj => ⟨j, hj, .refl j⟩) fun other q hq =>
            ⟨hq, fun _ hj => List.mem_append_left _ hj⟩⟩
          have hvalid := commit_ok hcheck ▸ db'.valid c
          have hrows : (s.held ++ [(client, q.row s.race.db)]).map Prod.snd =
              s.rows ++ [q.row s.race.db] := List.map_append
          unfold Clients.rows
          rw [hrows]
          exact hvalid

theorem Inv.commit {s : Clients} (h : Inv s) (client : Nat) : Inv (step s (.commit client)) := by
  unfold step
  dsimp only
  split
  · exact h
  · next hidle =>
    have hcommit := attempt_own h.whole client
    refine ⟨?_, h.kept_of (fun j hj => ⟨j, ?_, .refl j⟩) fun other q hq => ⟨hq, fun _ hj => ?_⟩⟩
    · dsimp only
      rw [hcommit]
      -- the same rows, some of them committed now
      refine satisfies_of_subperm h.whole ?_ fun j hj =>
        List.mem_append_left _ (List.mem_append_left _ hj)
      show List.Subperm ((s.race.db.jobs ++ s.own client) ++ (s.others client).map Prod.snd)
        (s.race.db.jobs ++ s.rows)
      rw [List.append_assoc]
      exact (List.subperm_append_left _).mpr (own_append_others s client).subperm
    · dsimp only
      rw [hcommit]
      exact List.mem_append_left _ hj
    · refine mem_others (fun hsame => hidle ?_) hj
      rw [← hsame, hq]
      rfl

theorem inv_step (s : Clients) (a : Act) (h : Inv s) : Inv (step s a) := by
  cases a with
  | start client new key now =>
    simp only [step]
    split
    · exact h
    · split
      · exact h.without client
      · refine ⟨h.whole, fun c q hq => ?_⟩
        dsimp only at hq
        split at hq
        · next hclient =>
          cases hq
          rw [hclient]
          exact fun j hj => ⟨j, hj, .refl j⟩
        · exact h.kept c q hq
  | insert client => exact h.insert client
  | commit client => exact h.commit client
  | rollback client => exact h.without client
  | store a hdel =>
    simp only [step]
    split
    · next hclear =>
      exact ⟨fun c => hclear c c.mem_all, h.kept_of (store_keeps s.race hdel) fun c q hq =>
        ⟨hq, fun _ hj => hj⟩⟩
    · exact h

theorem inv_after (db : Db) (as : List Act) : Inv (after db as) := run_inv inv_step as (inv_begin db)

theorem carrying_ne_nil_iff {t : Tables} {key : Bytes} :
    carrying key t.jobs ≠ [] ↔ key ∈ t.liveKeys := by
  simp only [Tables.liveKeys, List.mem_filterMap, List.mem_filter, decide_eq_true_eq, ne_eq,
    List.eq_nil_iff_forall_not_mem, carrying, not_forall, not_not, and_assoc]
  exact exists_congr fun j => and_congr_right fun _ => and_comm

theorem exec_insertUnique (db : Db) (new : NewJob) (key : Bytes) (now : Time) :
    db.exec (.insertUnique new key now) =
      if new.texts.any hasNul then db else db.attempt (db.toTables.insertUnique new key now) := by
  unfold Db.exec Db.run Db.attempt
  simp only [Stmt.effect, storable]
  by_cases hnul : new.texts.any hasNul = true
  · rw [if_pos hnul, if_pos hnul]
    rfl
  · rw [if_neg hnul, if_neg hnul]
    rfl

/-- With nothing in between, a transaction of this one statement inserts what the
atomic statement does. -/
theorem alone (db : Db) (client : Nat) (new : NewJob) (key : Bytes) (now : Time) :
    (after db [.start client new key now, .insert client, .commit client]).race.db.jobs =
      (db.exec (.insertUnique new key now)).jobs := by
  rw [exec_insertUnique]
  by_cases hnul : new.texts.any hasNul = true
  · -- the statement is refused, and the transaction has nothing to commit
    simp [after, step, Clients.begin, hnul, Unique.insert, Clients.others, Clients.ended, Clients.own, withRows,
      Db.attempt, commit_eq_ok db.valid]
  rw [if_neg hnul]
  let q : Call := ⟨new, key, now, (Clients.begin db).sees client⟩
  let begun : Clients := { race := ⟨db, []⟩, calls := fun c => if c = client then some q else none }
  have hstart : step (Clients.begin db) (.start client new key now) = begun := by
    simp only [begun, q, step, Clients.begin, Option.isSome_none, Bool.false_eq_true, if_false, if_neg hnul]
  have hafter : after db [.start client new key now, .insert client, .commit client] =
      step (insert client begun) (.commit client) := by
    simp only [after, run_cons, run_nil, hstart]
    rfl
  have hcall : begun.calls client = some q := if_pos rfl
  have hsees : begun.sees client = db.jobs := List.append_nil _
  have hinv : Inv (insert client begun) := by
    rw [← hstart]
    exact inv_after db [.start client new key now, .insert client]
  have hended : (insert client begun).calls client = none := by
    simp [Unique.insert, Waits, begun, Clients.ended]
  have hjobs : (step (insert client begun) (.commit client)).race.db.jobs =
      (insert client begun).sees client := by
    simp only [step, hended, Option.isSome_none, Bool.false_eq_true, if_false]
    rw [attempt_own hinv.whole client]
    rfl
  rw [hafter, hjobs]
  have hwaits : ¬ Waits begun client q.key := fun h => by
    obtain ⟨_, hheld, _⟩ := h
    cases hheld
  have hdb : (insert client begun).race.db.jobs = db.jobs := by
    simp only [Unique.insert, hcall, if_neg hwaits]
    rfl
  have hheld : (insert client begun).held =
      if key ∈ db.liveKeys then [] else match inserted begun q with
        | .ok _ => [(client, q.row db)]
        | .error _ => [] := by
    simp only [Unique.insert, hcall, if_neg hwaits, hsees, ← carrying_ne_nil_iff]
    rfl
  unfold Clients.sees Clients.own
  rw [hdb, hheld]
  by_cases htaken : key ∈ db.liveKeys
  · rw [if_pos htaken, Tables.insertUnique, if_pos htaken, Db.attempt, commit_eq_ok db.valid]
    exact List.append_nil _
  · rw [if_neg htaken, Tables.insertUnique, if_neg htaken, Db.attempt]
    have hcheck : inserted begun q = commit (db.toTables.insertJobs [q.row db]) := rfl
    have hrow : q.row db = { new.row (db.jobSeq + 1) now with uniqueKey := some key } := rfl
    rw [hcheck, ← hrow]
    cases hcommit : commit (db.toTables.insertJobs [q.row db]) with
    | error e => exact List.append_nil _
    | ok db' =>
      rw [commit_ok hcommit]
      simp [Tables.insertJobs]

/-! ## What comes back -/

/-- At most one row with a key is live. -/
theorem length_carrying_le {t : Tables} (h : t.liveKeys.Nodup) (key : Bytes) :
    (carrying key t.jobs).length ≤ 1 := by
  have hcount : (carrying key t.jobs).length = t.liveKeys.count key := by
    rw [carrying, Tables.liveKeys, ← List.countP_eq_length_filter, List.count,
      List.countP_filterMap, List.countP_filter]
    refine List.countP_congr fun j _ => ?_
    cases j.uniqueKey <;> simp
  rw [hcount]
  exact List.nodup_iff_count_le_one.mp h key

/-- The statement returns the id of a job that is there and has the key. -/
def Names (s : Clients) (client : Nat) (q : Call) : Prop :=
  ∃ id, outcome s client q = .ok (some id) ∧
    ∃ j ∈ (step s (.insert client)).sees client, j.id = id ∧ j.uniqueKey = some q.key

theorem mem_carrying {key : Bytes} {jobs : List Job} {j : Job} :
    j ∈ carrying key jobs ↔ j ∈ jobs ∧ j.uniqueKey = some key ∧ j.Live := by
  simp [carrying]

/-- **A unique enqueue names a job.** Whatever clients and workers do, at most one
live row carries a key, rows of open transactions included, and a statement that
comes to its end without an error returns the id of a job with its key exactly
if a key it finds taken was taken in its snapshot already. -/
theorem unique_enqueue_names (db : Db) (as : List Act) :
    (∀ key, (carrying key ((after db as).race.db.jobs ++ (after db as).rows)).length ≤ 1) ∧
    ∀ client q, (after db as).calls client = some q → ¬ Waits (after db as) client q.key →
      (∀ e, outcome (after db as) client q ≠ .error e) →
      (Names (after db as) client q ↔
        (carrying q.key ((after db as).sees client) ≠ [] → carrying q.key q.snapshot ≠ [])) := by
  have hinv := inv_after db as
  refine ⟨length_carrying_le (hinv.whole .jobUnique), ?_⟩
  generalize after db as = s at hinv ⊢
  intro client q hq hwaits herror
  have hinsert : step s (.insert client) = insert client s := rfl
  unfold Names
  rw [hinsert]
  simp only [Unique.insert, hq, if_neg hwaits, mem_sees]
  by_cases htaken : carrying q.key (s.sees client) ≠ []
  · -- nothing is inserted: the answer is in the snapshot, and its row is still there
    simp only [outcome, htaken, ne_eq, not_false_eq_true, forall_const]
    cases hsnap : carrying q.key q.snapshot with
    | nil => simp
    | cons j rest =>
      refine ⟨fun _ => List.cons_ne_nil _ _, fun _ => ⟨j.id, rfl, ?_⟩⟩
      obtain ⟨hj, hkey, -⟩ := mem_carrying.mp (hsnap ▸ List.mem_cons_self (a := j) (l := rest))
      obtain ⟨k, hk, hsame⟩ := hinv.kept client q hq j hj
      exact ⟨k, mem_sees.mp hk, hsame.id, hsame.uniqueKey.trans hkey⟩
  · simp only [outcome, if_neg htaken] at herror ⊢
    refine ⟨fun _ h => absurd h htaken, fun _ => ?_⟩
    cases hcheck : inserted s q with
    | error e => rw [hcheck] at herror; exact absurd rfl (herror e)
    | ok db' =>
      exact ⟨(q.row s.race.db).id, rfl, q.row s.race.db,
        .inr (List.mem_append_right _ (List.mem_singleton_self _)), rfl, rfl⟩

/-- A second enqueue begins when the first has committed; a worker leases the job
before the `INSERT` looks. -/
def leasedMeanwhile : List Act :=
  [.start 0 { task := "rebuild_index" } [7] 1, .insert 0, .commit 0,
    .start 1 { task := "rebuild_index" } [7] 2,
    .store (.stmt (.fetchUnkeyed
      { queues := ["default"], limit := 1, worker := 7, lease := 30, now := 3 }))]

theorem unique_enqueue_names_leased :
    ∃ q, (after Db.empty leasedMeanwhile).calls 1 = some q ∧
      carrying [7] (after Db.empty leasedMeanwhile).race.db.jobs ≠
        carrying [7] q.snapshot ∧
      outcome (after Db.empty leasedMeanwhile) 1 q = .ok (some 1) ∧
      Names (after Db.empty leasedMeanwhile) 1 q :=
  ⟨_, rfl, by decide, rfl, ((unique_enqueue_names Db.empty leasedMeanwhile).2 1 _ rfl (by decide)
    (fun _ h => by cases h)).mpr (by decide)⟩

/-- Two clients enqueue under one key; the second begins before the first has
committed, and its `INSERT` waits for that. -/
def overlap : List Act :=
  [.start 0 { task := "rebuild_index" } [7] 1, .start 1 { task := "rebuild_index" } [7] 1,
    .insert 0, .insert 1, .commit 0]

/-- The second finds the key taken and nobody in its snapshot who has it. -/
theorem overlapping_enqueue_unnamed :
    ∃ q, (after Db.empty overlap).calls 1 = some q ∧ ¬ Waits (after Db.empty overlap) 1 q.key ∧
      outcome (after Db.empty overlap) 1 q = .ok none ∧ ¬ Names (after Db.empty overlap) 1 q :=
  ⟨⟨{ task := "rebuild_index" }, [7], 1, []⟩, rfl, by decide, rfl, fun h => by
    obtain ⟨id, hid, -⟩ := h
    cases hid⟩

end Gylo.Store.Unique
