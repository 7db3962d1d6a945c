import Gylo.Client.Enqueue
import Gylo.Store.Ledgers

/-! # The options of a workflow's nodes

`BoundTask._row` and `Workflow.enqueue` each build their own row. The second one has
no column for the key of `unique`, and the time a node with parents is due is
written by yet another statement: infinity when it is inserted, `now()` by the
`COMPLETE` that counts off its last parent. A queue is run here with one clock, which
every `now()` reads, and with the nodes that were enqueued beside it. -/
namespace Gylo.Client.Nodes

open Gylo.Store Gylo.Store.Dependencies Gylo.Store.Ledgers Gylo.Client Runs

/-! ## Statements by the clock -/

/-- The statement with this reading of the clock for its `now()`. -/
def timed (now : Time) : Stmt → Stmt
  | .enqueue new _ => .enqueue new now
  | .insertUnique new key _ => .insertUnique new key now
  | .insertWorkflow flow _ => .insertWorkflow flow now
  | .fireCron name next _ => .fireCron name next now
  | .upsertCron entry => .upsertCron entry
  | .fetchUnkeyed a => .fetchUnkeyed { a with now := now }
  | .fetchKeyed a => .fetchKeyed { a with now := now }
  | .complete batch worker _ => .complete batch worker now
  | .retryMany a => .retryMany { a with now := now }
  | .discardMany batch worker _ => .discardMany batch worker now
  | .cancel ids _ => .cancel ids now
  | .reclaim limit visit _ => .reclaim limit visit now
  | .renew ids worker lease _ => .renew ids worker lease now
  | .abandon ids worker _ => .abandon ids worker now
  | .retryDiscarded ids queue _ => .retryDiscarded ids queue now
  | .purgeDiscarded queue => .purgeDiscarded queue
  | .prune a => .prune { a with now := now }
  | .pruneWorkflows => .pruneWorkflows
  | .recordStep job name result _ => .recordStep job name result now

theorem timed_eq_complete {clock now : Time} {s : Stmt} {batch : List (JobId × Option Bytes)} {worker : Uuid}
    (h : timed clock s = .complete batch worker now) :
    now = clock ∧ ∃ stamp, s = .complete batch worker stamp := by
  cases s with
  | complete batch' worker' stamp =>
    cases h
    exact ⟨rfl, stamp, rfl⟩
  | _ => cases h

/-- What is leased is due by the clock. -/
theorem timed_rowStep {t : Tables} (hnd : (t.jobs.map Job.id).Nodup) (clock : Time) (s : Stmt) :
    ∀ j ∈ t.jobs, RowStep (fun j => ∃ queues, j.Due queues clock) j ((timed clock s).rowMap t j) := by
  cases s with
  | fetchUnkeyed a =>
    refine leaseRow_step hnd fun j hj => ?_
    obtain ⟨hjt, hdue, -⟩ := mem_lockedUnkeyed hj
    exact ⟨hjt, hdue, a.queues, hdue⟩
  | fetchKeyed a =>
    refine leaseRow_step hnd fun j hj => ?_
    obtain ⟨hjt, hdue, -⟩ := mem_jobs_of_admitted hj
    exact ⟨hjt, hdue, a.queues, hdue⟩
  | retryMany a => exact fun j _ => retryRow_step _ j
  | discardMany batch worker now => exact fun j _ => discardRow_step batch worker clock t j
  | cancel ids now => exact fun j _ => cancelRow_step ids clock j
  | reclaim limit visit now => exact reclaimRow_step hnd limit visit clock
  | renew ids worker lease now => exact fun j _ => expireRow_step ids worker _ j
  | abandon ids worker now => exact fun j _ => expireRow_step ids worker _ j
  | retryDiscarded ids queue now => exact fun j _ => requeueRow_step ids queue clock j
  | _ => exact fun _ _ => .refl

/-! ## The queue and its nodes -/

/-- A node of a workflow that was enqueued. -/
structure Node (A : Type) where
  id : JobId
  signature : Signature A
  insertedAt : Time

section
variable {A : Type} (encoder : Encoder A)

def Node.delay (n : Node A) : Time := n.signature.options.delay

/-- The key `_unique_key` gives, if `unique` is set. -/
def uniqueKey (sig : Signature A) : Option Bytes :=
  if sig.options.unique = .off then none
  else encoder.uniqueKey sig.task.name sig.options sig.args

structure Queue (A : Type) where
  db : Db
  clock : Time
  nodes : List (Node A)

def opened : Queue A := ⟨Db.empty, 0, []⟩

inductive Act (A : Type) where
  | tick (elapsed : Nat)
  /-- A call of one of the enqueue paths. -/
  | request (conn : Conn) (r : Request A)
  /-- Any statement of the store, at the clock's time. -/
  | stmt (s : Stmt)

def signatures : Request A → List (Signature A)
  | .workflow flow => flow.nodes
  | _ => []

/-- The nodes of a call that went through; the sequence numbers them in order. -/
def created (seq : Int) (clock : Time) (r : Request A) : List (Node A) :=
  (signatures r).mapIdx fun i sig => ⟨seq + 1 + i, sig, clock⟩

def step (s : Queue A) : Act A → Queue A
  | .tick elapsed => { s with clock := s.clock + elapsed }
  | .request conn r =>
    match r.run encoder conn s.clock s.db with
    | .ok db => { s with db := db, nodes := s.nodes ++ created s.db.jobSeq s.clock r }
    | .error _ => s
  | .stmt stmt => { s with db := s.db.exec (timed s.clock stmt) }

def after (as : List (Act A)) : Queue A := run (step encoder) opened as

/-! ## What the options ask for -/

/-- The delay has passed since the insert and since each parent's completion. -/
def Ripe (db : Db) (n : Node A) (now : Time) : Prop :=
  n.insertedAt + n.delay ≤ now ∧ ∀ e ∈ db.edges, e.child = n.id →
    ∃ p ∈ db.jobs, p.id = e.parent ∧ p.state = .completed ∧ ∃ f ∈ p.finalizedAt, f + n.delay ≤ now

/-- The columns `newJob` takes from the options, in a row. -/
def Binds (sig : Signature A) (j : Job) : Prop :=
  j.queue = sig.options.queue ∧ j.priority = sig.options.priority ∧
    j.maxAttempts = sig.options.maxAttempts ∧ j.concurrencyKey = sig.options.concurrencyKey ∧
    j.maxConcurrency = sig.options.maxConcurrency

/-- The job is one of those `unique` lets live one at a time. -/
def Claims (s : Queue A) (j : Job) (key : Bytes) : Prop :=
  j.uniqueKey = some key ∨ ∃ n ∈ s.nodes, n.id = j.id ∧ uniqueKey encoder n.signature = some key

/-- Every node's row keeps to its options: it cannot be leased before it is ripe, now or
later, and none that is running was; it has the columns of the options and the key
of `unique`; and no two live jobs claim one key. -/
structure Honoured (s : Queue A) : Prop where
  due : ∀ n ∈ s.nodes, ∀ j ∈ s.db.jobs, j.id = n.id → ∀ queues now, s.clock ≤ now →
    j.Due queues now → Ripe s.db n now
  leased : ∀ n ∈ s.nodes, ∀ j ∈ s.db.jobs, j.id = n.id → j.state = .running → Ripe s.db n s.clock
  columns : ∀ n ∈ s.nodes, ∀ j ∈ s.db.jobs, j.id = n.id → Binds n.signature j
  keyed : ∀ n ∈ s.nodes, ∀ j ∈ s.db.jobs, j.id = n.id →
    ∀ key, uniqueKey encoder n.signature = some key → j.uniqueKey = some key
  alone : ∀ j ∈ s.db.jobs, ∀ k ∈ s.db.jobs, j.Live → k.Live →
    ∀ key, Claims encoder s j key → Claims encoder s k key → j = k

/-- The report counts off the last parents of the job. -/
def Frees (batch : List (JobId × Option Bytes)) (worker : Uuid) (t : Tables) (j : Job) : Prop :=
  t.counted (t.settledBy batch worker) j.id ≠ 0 ∧
    j.pendingDeps = t.counted (t.settledBy batch worker) j.id

/-- No `COMPLETE` frees a waiting node that has a delay. -/
def Unhurried (s : Queue A) : Stmt → Prop
  | .complete batch worker _ => ∀ n ∈ s.nodes, ∀ j ∈ s.db.jobs, j.id = n.id → j.state = .available →
    Frees batch worker s.db.toTables j → n.delay ≤ 0
  | _ => True

/-- No workflow that goes through has a node with a unique key, and no node with a delay
has parents to wait for when their last report comes. -/
def Undemanding (s : Queue A) : Act A → Prop
  | .tick _ => True
  | .request conn r => (∃ db, r.run encoder conn s.clock s.db = .ok db) →
    ∀ sig ∈ signatures r, uniqueKey encoder sig = none
  | .stmt stmt => Unhurried s stmt

/-! ## Rows on their way to a worker -/

/-- A worker has the row, has had it, or may have it by then. -/
def Out (j : Job) (now : Time) : Prop :=
  j.state = .running ∨ j.state = .discarded ∨
    j.state = .available ∧ j.scheduledAt ≤ (now : WithTop Time)

/-- No statement but `COMPLETE` brings a row there. -/
theorem out_of_rowStep {j k : Job} {clock now : Time}
    (h : RowStep (fun j => ∃ queues, j.Due queues clock) j k) (hnow : clock ≤ now) (hk : Out k now) :
    Out j now := by
  cases h with
  | refl => exact hk
  | lease worker lease stamp due pick =>
    obtain ⟨queues, hdue⟩ := pick
    exact .inr (.inr ⟨hdue.1, (hdue.later hnow).2.2⟩)
  | reschedule delay error stamp running left => exact .inl running
  | release running left => exact .inl running
  | discard error stamp running => exact .inl running
  | expireAt time running => exact .inl running
  | requeue stamp dead => exact .inr (.inl dead)
  | cancel stamp waiting | cascade stamp waiting =>
    rcases hk with hk | hk | hk
    · cases hk
    · cases hk
    · cases hk.1

/-- `COMPLETE` does so by freeing the row. -/
theorem out_of_completeRow {t : Tables} {batch : List (JobId × Option Bytes)} {worker : Uuid}
    {clock now : Time} {j : Job} (hout : Out (t.completeRow batch worker clock j) now) :
    Out j now ∨ j.state = .available ∧ Frees batch worker t j ∧
      (t.completeRow batch worker clock j).pendingDeps = 0 := by
  unfold Tables.completeRow at hout ⊢
  cases hentry : batchEntry batch worker j with
  | some result =>
    rw [hentry] at hout
    rcases hout with hout | hout | hout
    · cases hout
    · cases hout
    · cases hout.1
  | none =>
    simp only [hentry] at hout ⊢
    split at hout
    next hnone => exact .inl hout
    next hcounted =>
      rcases hout with hrunning | hdead | ⟨hwaiting, hdue⟩
      · exact .inl (.inl hrunning)
      · exact .inl (.inr (.inl hdead))
      · -- only the last parents move the time the row is due
        dsimp only [Job.unblock] at hdue
        by_cases hlast : j.pendingDeps - t.counted (t.settledBy batch worker) j.id = 0
        · rw [if_neg hcounted]
          exact .inr ⟨hwaiting, ⟨hcounted, Int.eq_of_sub_eq_zero hlast⟩, hlast⟩
        · rw [if_neg hlast] at hdue
          exact .inl (.inr (.inr ⟨hwaiting, hdue⟩))

theorem queue_of_rowStep {P : Job → Prop} {j k : Job} (h : RowStep P j k) : k.queue = j.queue := by
  cases h <;> rfl

theorem queue_of_completeStep {j k : Job} (h : CompleteStep j k) : k.queue = j.queue := by
  cases h <;> rfl

theorem Binds.same {sig : Signature A} {j k : Job} (h : Binds sig j) (hsame : SameJob j k)
    (hqueue : k.queue = j.queue) : Binds sig k := by
  unfold Binds
  rw [hqueue, hsame.priority, hsame.maxAttempts, hsame.concurrencyKey, hsame.maxConcurrency]
  exact h

/-! ## What a statement leaves -/

section
variable {db : Db} {s : Stmt}

theorem not_new {j : Job} {id : JobId} (hj : j ∈ db.jobs) (hid : id = j.id) : ¬ db.jobSeq < id := by
  have hle : j.id ≤ db.jobSeq := (db.valid .identity).1 _ (List.mem_map_of_mem hj)
  exact hid ▸ not_lt.mpr hle

/-- A completed job keeps the time of its completion. -/
theorem completed_kept {t' : Tables} (hform : Form s db.toTables t') {p k : Job} (hp : p ∈ db.jobs)
    (hdone : p.state = .completed) (hk : k ∈ t'.jobs) (hid : k.id = p.id) :
    k.state = .completed ∧ k.finalizedAt = p.finalizedAt := by
  cases hform with
  | rows step =>
    obtain ⟨j, hj, rfl⟩ := List.mem_map.mp hk
    have hrow := step j hj
    obtain rfl := db.eq_of_id hj hp (hrow.same.id.symm.trans hid)
    rw [hrow.eq_of_completed hdone]
    exact ⟨hdone, rfl⟩
  | complete batch worker now stmt =>
    obtain ⟨j, hj, rfl⟩ := List.mem_map.mp hk
    have hrow := completeRow_step batch worker now db.toTables j
    obtain rfl := db.eq_of_id hj hp (hrow.same.id.symm.trans hid)
    generalize db.completeRow batch worker now j = k at hrow
    cases hrow with
    | refl => exact ⟨hdone, rfl⟩
    | complete result now running =>
      rw [hdone] at running
      cases running
    | unblock n now => exact ⟨hdone, rfl⟩
  | insert rows es new jobs edges =>
    rw [jobs] at hk
    rcases List.mem_append.mp hk with hk | hk
    · obtain rfl := db.eq_of_id hk hp hid
      exact ⟨hdone, rfl⟩
    · exact absurd (new.ids k hk) (not_new hp hid)
  | delete deletes jobs edges =>
    obtain rfl := db.eq_of_id (jobs.mem hk) hp hid
    exact ⟨hdone, rfl⟩

/-- What is ripe stays so. -/
theorem Ripe.exec {n : Node A} {now : Time} (h : Ripe db n now) (hn : n.id ≤ db.jobSeq) :
    Ripe (db.exec s) n now := by
  have hform := exec_isForm db s
  refine ⟨h.1, fun e he hchild => ?_⟩
  rcases edge_origin hform he with hold | hnew
  · obtain ⟨p, hp, hpid, hdone, f, hf, hle⟩ := h.2 e hold hchild
    obtain ⟨-, hparent, -⟩ := (db.exec s).valid .edgeFkey e he
    obtain ⟨k, hk, hkid⟩ := List.mem_map.mp hparent
    obtain ⟨hkdone, hkf⟩ := completed_kept hform hp hdone hk (hkid.trans hpid.symm)
    exact ⟨k, hk, hkid, hkdone, f, hkf ▸ hf, hle⟩
  · exact absurd hn (not_le.mpr (hchild ▸ hnew.2))
end

/-! ## What undemanding acts keep -/

/-- What is known of a node and its row. -/
structure Tracked (db : Db) (clock : Time) (n : Node A) : Prop where
  seq : n.id ≤ db.jobSeq
  inserted : n.insertedAt ≤ clock
  ripe : ∀ j ∈ db.jobs, j.id = n.id → ∀ now, clock ≤ now → Out j now → Ripe db n now
  columns : ∀ j ∈ db.jobs, j.id = n.id → Binds n.signature j
  keyed : ∀ j ∈ db.jobs, j.id = n.id →
    ∀ key, uniqueKey encoder n.signature = some key → j.uniqueKey = some key

structure Kept (s : Queue A) : Prop where
  sound : Sound s.db.toTables
  finished : ∀ p ∈ s.db.jobs, p.state = .completed → ∃ f ∈ p.finalizedAt, f ≤ s.clock
  tracked : ∀ n ∈ s.nodes, Tracked encoder s.db s.clock n

theorem kept_opened : Kept encoder opened where
  sound j hj := absurd hj (Db.not_mem_empty j)
  finished j hj := absurd hj (Db.not_mem_empty j)
  tracked _ hn := absurd hn List.not_mem_nil

variable {encoder}

theorem Kept.honoured {s : Queue A} (h : Kept encoder s) : Honoured encoder s := by
  have hclaims : ∀ j ∈ s.db.jobs, ∀ key, Claims encoder s j key → j.uniqueKey = some key := by
    intro j hj key hclaim
    rcases hclaim with hkey | ⟨n, hn, hid, hkey⟩
    · exact hkey
    · exact (h.tracked n hn).keyed j hj hid.symm key hkey
  refine ⟨?_, ?_, fun n hn => (h.tracked n hn).columns, fun n hn => (h.tracked n hn).keyed, ?_⟩
  · intro n hn j hj hid queues now hnow hdue
    exact (h.tracked n hn).ripe j hj hid now hnow (.inr (.inr ⟨hdue.1, hdue.2.2⟩))
  · intro n hn j hj hid hrunning
    exact (h.tracked n hn).ripe j hj hid s.clock (Int.le_refl _) (.inl hrunning)
  · intro j hj k hk hlive hlive' key hclaim hclaim'
    by_contra hne
    exact (keys_nodup_iff s.db Job.Live).mp (s.db.valid .jobUnique) j hj hlive k hk hlive' hne key
      (hclaims j hj key hclaim) (hclaims k hk key hclaim')

theorem Kept.tick {s : Queue A} (h : Kept encoder s) (elapsed : Nat) :
    Kept encoder { s with clock := s.clock + elapsed } := by
  have hclock : s.clock ≤ s.clock + elapsed := Int.le_add_of_nonneg_right (Int.natCast_nonneg elapsed)
  refine ⟨h.sound, fun p hp hdone => ?_, fun n hn => ?_⟩
  · obtain ⟨f, hf, hle⟩ := h.finished p hp hdone
    exact ⟨f, hf, Int.le_trans hle hclock⟩
  · obtain ⟨hseq, hinserted, hripe, hcolumns, hkeyed⟩ := h.tracked n hn
    exact ⟨hseq, Int.le_trans hinserted hclock,
      fun j hj hid now hnow => hripe j hj hid now (Int.le_trans hclock hnow), hcolumns, hkeyed⟩

section
variable {s : Queue A} (h : Kept encoder s) (stmt : Stmt)
include h

theorem finished_exec : ∀ p ∈ (s.db.exec (timed s.clock stmt)).jobs, p.state = .completed →
    ∃ f ∈ p.finalizedAt, f ≤ s.clock := by
  intro k hk hdone
  have hform := exec_isForm s.db (timed s.clock stmt)
  have hold : ∀ j ∈ s.db.jobs, k.id = j.id → j.state = .completed → ∃ f ∈ k.finalizedAt, f ≤ s.clock := by
    intro j hj hid hjdone
    rw [(completed_kept hform hj hjdone hk hid).2]
    exact h.finished j hj hjdone
  generalize (s.db.exec (timed s.clock stmt)).toTables = t' at hform hk
  cases hform with
  | rows step =>
    obtain ⟨j, hj, rfl⟩ := List.mem_map.mp hk
    exact hold j hj (step j hj).same.id ((step j hj).completed_iff.mp hdone)
  | complete batch worker now hstmt =>
    obtain ⟨rfl, -⟩ := timed_eq_complete hstmt
    obtain ⟨j, hj, rfl⟩ := List.mem_map.mp hk
    revert hold hdone
    unfold Tables.completeRow
    cases batchEntry batch worker j with
    | some result => exact fun _ _ => ⟨s.clock, rfl, Int.le_refl _⟩
    | none =>
      dsimp only
      split
      · exact fun hdone hold => hold j hj rfl hdone
      · exact fun hdone hold => hold j hj rfl hdone
  | insert rows es new jobs edges =>
    rw [jobs] at hk
    rcases List.mem_append.mp hk with hk | hk
    · exact hold k hk rfl hdone
    · rw [new.state k hk] at hdone
      cases hdone
  | delete deletes jobs edges => exact hold k (jobs.mem hk) rfl hdone

/-- A freed node is ripe if it has no delay: its parents have all completed by now. -/
theorem ripe_of_freed {n : Node A} (hn : Tracked encoder s.db s.clock n) {k : Job}
    (hk : k ∈ (s.db.exec (timed s.clock stmt)).jobs) (hid : k.id = n.id) (hzero : k.pendingDeps = 0)
    (hdelay : n.delay ≤ 0) {now : Time} (hnow : s.clock ≤ now) :
    Ripe (s.db.exec (timed s.clock stmt)) n now := by
  have hsound := sound_exec s.db (timed s.clock stmt) h.sound
  have hearlier : ∀ {time : Time}, time ≤ s.clock → time + n.delay ≤ now := fun htime =>
    Int.le_trans (Int.add_le_add htime hdelay) (by rw [Int.add_zero]; exact hnow)
  refine ⟨hearlier hn.inserted, fun e he hchild => ?_⟩
  obtain ⟨p, hp, hpid, hdone⟩ :=
    parents_completed_of_pending hsound hk hzero he (hchild.trans hid.symm)
  obtain ⟨f, hf, hle⟩ := finished_exec h stmt p hp hdone
  exact ⟨p, hp, hpid, hdone, f, hf, hearlier hle⟩

theorem ripe_exec (hok : Unhurried s stmt) {n : Node A} (hn : n ∈ s.nodes) :
    ∀ k ∈ (s.db.exec (timed s.clock stmt)).jobs, k.id = n.id → ∀ now, s.clock ≤ now → Out k now →
      Ripe (s.db.exec (timed s.clock stmt)) n now := by
  intro k hk hid now hnow hout
  have htracked := h.tracked n hn
  have hold : ∀ j ∈ s.db.jobs, j.id = n.id → Out j now → Ripe (s.db.exec (timed s.clock stmt)) n now :=
    fun j hj hjid hjout => (htracked.ripe j hj hjid now hnow hjout).exec htracked.seq
  have hfreed := fun hzero hdelay => ripe_of_freed h stmt htracked hk hid hzero hdelay hnow
  have hform := exec_isForm s.db (timed s.clock stmt)
  generalize (s.db.exec (timed s.clock stmt)).toTables = t' at hform hk
  cases hform with
  | rows step =>
    obtain ⟨j, hj, rfl⟩ := List.mem_map.mp hk
    exact hold j hj ((step j hj).same.id.symm.trans hid)
      (out_of_rowStep (timed_rowStep s.db.ids_nodup s.clock stmt j hj) hnow hout)
  | complete batch worker stamp hstmt =>
    obtain ⟨rfl, stamp, rfl⟩ := timed_eq_complete hstmt
    obtain ⟨j, hj, rfl⟩ := List.mem_map.mp hk
    have hjid : j.id = n.id :=
      (completeRow_step batch worker s.clock s.db.toTables j).same.id.symm.trans hid
    rcases out_of_completeRow hout with hjout | ⟨hwaiting, hfrees, hzero⟩
    · exact hold j hj hjid hjout
    · exact hfreed hzero (hok n hn j hj hjid hwaiting hfrees)
  | insert rows es new jobs edges =>
    rw [jobs] at hk
    rcases List.mem_append.mp hk with hk | hk
    · exact hold k hk hid hout
    · exact absurd (new.ids k hk) (not_lt.mpr (hid ▸ htracked.seq))
  | delete deletes jobs edges => exact hold k (jobs.mem hk) hid hout

omit h in
/-- A row of an old job has what no statement writes. -/
theorem same_exec {n : Node A} (hn : n.id ≤ s.db.jobSeq) {k : Job}
    (hk : k ∈ (s.db.exec stmt).jobs) (hid : k.id = n.id) :
    ∃ j ∈ s.db.jobs, j.id = n.id ∧ SameJob j k ∧ k.queue = j.queue := by
  have hform := exec_isForm s.db stmt
  generalize (s.db.exec stmt).toTables = t' at hform hk
  cases hform with
  | rows step =>
    obtain ⟨j, hj, rfl⟩ := List.mem_map.mp hk
    have hsame := (step j hj).same
    exact ⟨j, hj, hsame.id.symm.trans hid, hsame, queue_of_rowStep (step j hj)⟩
  | complete batch worker now hstmt =>
    obtain ⟨j, hj, rfl⟩ := List.mem_map.mp hk
    have hrow := completeRow_step batch worker now s.db.toTables j
    exact ⟨j, hj, hrow.same.id.symm.trans hid, hrow.same, queue_of_completeStep hrow⟩
  | insert rows es new jobs edges =>
    rw [jobs] at hk
    rcases List.mem_append.mp hk with hk | hk
    · exact ⟨k, hk, hid, .refl k, rfl⟩
    · exact absurd (new.ids k hk) (not_lt.mpr (hid ▸ hn))
  | delete deletes jobs edges => exact ⟨k, jobs.mem hk, hid, .refl k, rfl⟩

theorem kept_exec (hok : Unhurried s stmt) :
    Kept encoder { s with db := s.db.exec (timed s.clock stmt) } := by
  refine ⟨sound_exec _ _ h.sound, finished_exec h stmt, fun n hn => ?_⟩
  have htracked := h.tracked n hn
  refine ⟨?_, htracked.inserted, ripe_exec h stmt hok hn, fun k hk hid => ?_, fun k hk hid => ?_⟩
  · exact Int.le_trans htracked.seq (s.db.jobSeq_le_exec _)
  · obtain ⟨j, hj, hjid, hsame, hqueue⟩ := same_exec (timed s.clock stmt) htracked.seq hk hid
    exact (htracked.columns j hj hjid).same hsame hqueue
  · obtain ⟨j, hj, hjid, hsame, -⟩ := same_exec (timed s.clock stmt) htracked.seq hk hid
    rw [hsame.uniqueKey]
    exact htracked.keyed j hj hjid
end

/-! ## Rows of a workflow that was just inserted -/

section
variable {db db' : Db} {flow : Workflow} {now : Time} (hne : flow.nodes ≠ [])
  (hrun : db.run (.insertWorkflow flow now) = .ok db')
include hne hrun

theorem inserted_mem {i : Nat} (hi : i < flow.nodes.length) :
    (flow.nodes.get ⟨i, hi⟩).node (db.jobSeq + 1 + i) (db.workflowSeq + 1)
      (flow.edges.filter fun e => e.2 = i).length now ∈ db'.jobs := by
  obtain ⟨-, hjobs, -, -⟩ := enqueueWorkflow_ok hne (Db.run_ok hrun)
  rw [hjobs]
  exact List.mem_append_right _ (mem_workflowRows.mpr ⟨i, hi, rfl⟩)

theorem inserted_row {k : Job} {i : Nat} (hk : k ∈ db'.jobs) (hid : k.id = db.jobSeq + 1 + (i : Int)) :
    ∃ hi : i < flow.nodes.length, k = (flow.nodes.get ⟨i, hi⟩).node (db.jobSeq + 1 + i)
      (db.workflowSeq + 1) (flow.edges.filter fun e => e.2 = i).length now := by
  obtain ⟨-, hjobs, -, -⟩ := enqueueWorkflow_ok hne (Db.run_ok hrun)
  rw [hjobs] at hk
  rcases List.mem_append.mp hk with hold | hnew
  · have hnew : db.jobSeq < db.jobSeq + 1 + (i : Int) := by omega
    exact absurd hnew (not_new hold hid.symm)
  · obtain ⟨i', hi', rfl⟩ := mem_workflowRows.mp hnew
    have hsame : db.jobSeq + 1 + (i' : Int) = db.jobSeq + 1 + i := hid
    obtain rfl : i' = i := by omega
    exact ⟨hi', rfl⟩

theorem inserted_edge {e : Edge} {i : Nat} (he : e ∈ db'.edges) (hchild : e.child = db.jobSeq + 1 + (i : Int)) :
    ∃ a ∈ flow.edges, a.2 = i := by
  obtain ⟨-, -, hedges, -⟩ := enqueueWorkflow_ok hne (Db.run_ok hrun)
  rw [hedges] at he
  rcases List.mem_append.mp he with hold | hnew
  · obtain ⟨-, -, hin⟩ := db.valid .edgeFkey e hold
    have hle : db.jobSeq + 1 + (i : Int) ≤ db.jobSeq := hchild ▸ (db.valid .identity).1 _ hin
    omega
  · obtain ⟨a, ha, rfl⟩ := List.mem_map.mp hnew
    have hsame : db.jobSeq + 1 + (a.2 : Int) = db.jobSeq + 1 + i := hchild
    exact ⟨a, ha, by omega⟩

/-- A node that waits for nobody is due after its delay, and one with parents is not
due at all. -/
theorem inserted_ripe {n : Node A} {i : Nat} (hi : i < flow.nodes.length)
    (hid : n.id = db.jobSeq + 1 + (i : Int)) (hat : n.insertedAt = now)
    (hdelay : (flow.nodes.get ⟨i, hi⟩).delay = n.delay) {k : Job} (hk : k ∈ db'.jobs)
    (hkid : k.id = n.id) {later : Time} (hout : Out k later) : Ripe db' n later := by
  obtain ⟨hi', hrow⟩ := inserted_row hne hrun hk (hkid.trans hid)
  rw [hrow] at hout
  rcases hout with hout | hout | ⟨-, hdue⟩
  · cases hout
  · cases hout
  · dsimp only [NewJob.node] at hdue
    split at hdue
    next hwaits => exact absurd hdue (by simp)
    next hnone =>
      refine ⟨?_, fun e he hchild => ?_⟩
      · rw [hat, ← hdelay]
        exact WithTop.coe_le_coe.mp hdue
      · obtain ⟨a, ha, hai⟩ := inserted_edge hne hrun he (hchild.trans hid)
        have hin : a ∈ flow.edges.filter fun e => e.2 = i :=
          List.mem_filter.mpr ⟨ha, decide_eq_true hai⟩
        exact absurd (List.length_pos_of_mem hin) hnone
end

/-! ## Calls of the enqueue paths -/

theorem timed_insert (now : Time) (r : NewJob × Option Bytes) : timed now (insert now r) = insert now r := by
  obtain ⟨new, key⟩ := r
  cases key <;> rfl

/-- A workflow is one statement, on the rows of its nodes in order. -/
theorem run_workflow {conn : Conn} {now : Time} {db db' : Db} {flow : Flow A}
    (h : (Request.workflow flow).run encoder conn now db = .ok db') (hne : flow.nodes ≠ []) :
    ∃ nodes, List.Forall₂ (fun sig new => nodeRow encoder sig = .ok new) flow.nodes nodes ∧
      db.run (.insertWorkflow ⟨nodes, flow.edges, flow.distinct⟩ now) = .ok db' := by
  obtain ⟨-, nodes, hnodes, hrun⟩ := (flow_enqueue_ok hne).mp h
  exact ⟨nodes, forall₂_of_mapM hnodes, hrun⟩

theorem kept_inserts {s : Queue A} {rows : List (NewJob × Option Bytes)} {db : Db} (h : Kept encoder s)
    (ht : transaction (rows.map (insert s.clock)) s.db = .ok db) : Kept encoder { s with db := db } := by
  induction rows generalizing s with
  | nil =>
    cases ht
    exact h
  | cons r rows ih =>
    rw [List.map_cons, transaction] at ht
    split at ht
    next db₁ hrun =>
      have hexec : s.db.exec (timed s.clock (insert s.clock r)) = db₁ := by
        rw [timed_insert, Db.exec_of_run hrun]
      have hinsert : Unhurried s (insert s.clock r) := by
        obtain ⟨new, key⟩ := r
        cases key <;> trivial
      have hfirst := kept_exec h (insert s.clock r) hinsert
      rw [hexec] at hfirst
      exact ih (s := { s with db := db₁ }) hfirst ht
    next => cases ht

section
variable {flow : Flow A} {nodes : List NewJob} {db db' : Db} {now : Time}
  (hall : List.Forall₂ (fun sig new => nodeRow encoder sig = .ok new) flow.nodes nodes)
  (hrun : db.run (.insertWorkflow ⟨nodes, flow.edges, flow.distinct⟩ now) = .ok db')
include hall

/-- The row of a node, in the order of the graph. -/
theorem created_row {n : Node A} (hn : n ∈ created db.jobSeq now (.workflow flow)) :
    ∃ (i : Nat) (hi : i < nodes.length) (payload : Bytes), n.id = db.jobSeq + 1 + (i : Int) ∧
      n.insertedAt = now ∧ n.signature ∈ flow.nodes ∧
      nodes.get ⟨i, hi⟩ = newJob n.signature.task.name n.signature.task.durable n.signature.options payload := by
  obtain ⟨i, hi, rfl⟩ := List.mem_mapIdx.mp hn
  have hi' : i < nodes.length := hall.length_eq ▸ hi
  obtain ⟨payload, -, hpayload⟩ := nodeRow_ok (hall.get hi hi')
  exact ⟨i, hi', payload, rfl, rfl, List.getElem_mem hi, hpayload⟩

include hrun

theorem created_tracked (hkeys : ∀ sig ∈ flow.nodes, uniqueKey encoder sig = none) {n : Node A}
    (hn : n ∈ created db.jobSeq now (.workflow flow)) : Tracked encoder db' now n := by
  obtain ⟨i, hi, payload, hid, hat, hsig, hnew⟩ := created_row hall hn
  have hne : nodes ≠ [] := List.ne_nil_of_length_pos (Nat.lt_of_le_of_lt (Nat.zero_le i) hi)
  obtain ⟨-, -, -, hseq⟩ := enqueueWorkflow_ok hne (Db.run_ok hrun)
  refine ⟨?_, Int.le_of_eq hat, ?_, ?_, ?_⟩
  · rw [hid, hseq]
    show db.jobSeq + 1 + (i : Int) ≤ db.jobSeq + (nodes.length : Int)
    omega
  · intro k hk hkid later _ hout
    have hdelay : (nodes.get ⟨i, hi⟩).delay = n.delay := by
      rw [hnew]
      rfl
    exact inserted_ripe hne hrun hi hid hat hdelay hk hkid hout
  · intro k hk hkid
    obtain ⟨hi', hrow⟩ := inserted_row hne hrun hk (hkid.trans hid)
    have hnode : k = (newJob n.signature.task.name n.signature.task.durable n.signature.options
        payload).node _ _ _ now := hnew ▸ hrow
    rw [hnode]
    exact ⟨rfl, rfl, rfl, rfl, rfl⟩
  · intro k hk hkid key hkey
    rw [hkeys _ hsig] at hkey
    cases hkey

/-- No row of a node has a unique key. -/
theorem created_unkeyed {n : Node A} (hn : n ∈ created db.jobSeq now (.workflow flow)) :
    ∃ k ∈ db'.jobs, k.id = n.id ∧ k.uniqueKey = none := by
  obtain ⟨i, hi, payload, hid, -⟩ := created_row hall hn
  have hne : nodes ≠ [] := List.ne_nil_of_length_pos (Nat.lt_of_le_of_lt (Nat.zero_le i) hi)
  exact ⟨_, inserted_mem hne hrun hi, hid.symm, rfl⟩
end

theorem kept_request {s : Queue A} (h : Kept encoder s) {conn : Conn} {r : Request A} {db : Db}
    (hrun : r.run encoder conn s.clock s.db = .ok db)
    (hkeys : ∀ sig ∈ signatures r, uniqueKey encoder sig = none) :
    Kept encoder { s with db := db, nodes := s.nodes ++ created s.db.jobSeq s.clock r } := by
  rcases run_statements hrun with ⟨rows, hrows, -, hempty⟩ | ⟨flow, nodes, rfl, -, hnodes, hinsert⟩
  · have hnone : created s.db.jobSeq s.clock r = [] := by
      cases r with
      | enqueue async bound args => rfl
      | enqueueMany async bound calls => rfl
      | workflow flow => simp only [created, signatures, hempty flow rfl, List.mapIdx_nil]
    rw [hnone, List.append_nil]
    exact kept_inserts h hrows
  · have hold := kept_exec h (.insertWorkflow ⟨nodes, flow.edges, flow.distinct⟩ s.clock) trivial
    rw [timed, Db.exec_of_run hinsert] at hold
    refine ⟨hold.sound, hold.finished, fun n hn => ?_⟩
    rcases List.mem_append.mp hn with hn | hn
    · exact hold.tracked n hn
    · exact created_tracked (forall₂_of_mapM hnodes) hinsert hkeys hn

theorem kept_step (s : Queue A) (a : Act A) (h : Kept encoder s) (ha : Undemanding encoder s a) :
    Kept encoder (step encoder s a) := by
  cases a with
  | tick elapsed => exact h.tick elapsed
  | request conn r =>
    simp only [step]
    split
    next db hrun => exact kept_request h hrun (ha ⟨db, hrun⟩)
    next => exact h
  | stmt stmt => exact kept_exec h stmt ha

/-! ## What breaks an option -/

theorem not_honoured_request {s : Queue A} {conn : Conn} {r : Request A} {db : Db}
    (hrun : r.run encoder conn s.clock s.db = .ok db) {sig : Signature A} (hsig : sig ∈ signatures r)
    {key : Bytes} (hkey : uniqueKey encoder sig = some key) :
    ¬ Honoured encoder { s with db := db, nodes := s.nodes ++ created s.db.jobSeq s.clock r } := by
  intro h
  cases r with
  | enqueue async bound args => exact absurd hsig List.not_mem_nil
  | enqueueMany async bound calls => exact absurd hsig List.not_mem_nil
  | workflow flow =>
    have hne : flow.nodes ≠ [] := List.ne_nil_of_mem hsig
    obtain ⟨nodes, hall, hinsert⟩ := run_workflow hrun hne
    obtain ⟨i, hi, rfl⟩ := List.getElem_of_mem hsig
    have hn : ⟨s.db.jobSeq + 1 + i, flow.nodes[i], s.clock⟩ ∈ created s.db.jobSeq s.clock (.workflow flow) :=
      List.mem_mapIdx.mpr ⟨i, hi, rfl⟩
    obtain ⟨k, hk, hid, hnone⟩ := created_unkeyed hall hinsert hn
    have hsome := h.keyed _ (List.mem_append_right _ hn) k hk hid key hkey
    rw [hnone] at hsome
    cases hsome

/-- A report that frees a node makes it due at once, with a parent that completed just
now. -/
theorem not_honoured_complete {s : Queue A} (h : Kept encoder s)
    {batch : List (JobId × Option Bytes)} {worker : Uuid} {n : Node A} (hn : n ∈ s.nodes) {j : Job}
    (hj : j ∈ s.db.jobs) (hid : j.id = n.id) (hwaiting : j.state = .available)
    (hfrees : Frees batch worker s.db.toTables j) (hdelay : ¬ n.delay ≤ 0) :
    ¬ Honoured encoder { s with db := s.db.exec (.complete batch worker s.clock) } := by
  intro hhonoured
  obtain ⟨db', hrun⟩ := complete_accepted h.sound batch worker s.clock
  have htables : s.db.toTables.complete batch worker s.clock = db'.toTables :=
    Except.ok.inj (Db.run_ok hrun)
  rw [Db.exec_of_run hrun] at hhonoured
  have hrow : ∀ i ∈ s.db.jobs, s.db.completeRow batch worker s.clock i ∈ db'.jobs := fun i hi => by
    rw [← htables]
    exact List.mem_map_of_mem hi
  have hentry : batchEntry batch worker j = none := if_neg fun hheld => by
    rw [hheld.2] at hwaiting
    cases hwaiting
  have hk : j.unblock (s.db.counted (s.db.settledBy batch worker) j.id) s.clock ∈ db'.jobs := by
    have hmem := hrow j hj
    simpa only [Tables.completeRow, hentry, if_neg hfrees.1] using hmem
  have hdue : (j.unblock (s.db.counted (s.db.settledBy batch worker) j.id) s.clock).Due [j.queue] s.clock := by
    refine ⟨hwaiting, List.mem_singleton.mpr rfl, ?_⟩
    dsimp only [Job.unblock]
    rw [if_pos (Int.sub_eq_zero.mpr hfrees.2)]
  have hripe := hhonoured.due n hn _ hk hid _ s.clock (Int.le_refl _) hdue
  obtain ⟨e, he⟩ := List.exists_mem_of_length_pos (Nat.pos_of_ne_zero hfrees.1)
  obtain ⟨hedge, hends⟩ := List.mem_filter.mp he
  obtain ⟨hchild, hparent⟩ := of_decide_eq_true hends
  have hedge' : e ∈ db'.edges := by
    rw [← htables]
    exact hedge
  obtain ⟨p, hp, hpid, -, f, hf, hle⟩ := hripe.2 e hedge' (hchild.trans hid)
  -- the parent is one the report settles, so it completed at the clock's time
  obtain ⟨i, hi, hsome, hiid⟩ := mem_settledBy.mp hparent
  obtain ⟨result, hresult⟩ := Option.isSome_iff_exists.mp hsome
  have hi' : i.complete result s.clock ∈ db'.jobs := by
    have hmem := hrow i hi
    simpa only [Tables.completeRow, hresult] using hmem
  obtain rfl := db'.eq_of_id hi' hp (hiid.trans hpid.symm)
  obtain rfl : s.clock = f := Option.some.inj hf
  exact hdelay (Int.le_of_add_le_add_left (by rw [Int.add_zero]; exact hle))

theorem not_honoured_step (s : Queue A) (a : Act A) (h : Kept encoder s)
    (hnot : ¬ Undemanding encoder s a) : ¬ Honoured encoder (step encoder s a) := by
  cases a with
  | tick elapsed => exact absurd trivial hnot
  | request conn r =>
    obtain ⟨⟨db, hrun⟩, hkeyed⟩ := Classical.not_imp.mp hnot
    simp only [not_forall] at hkeyed
    obtain ⟨sig, hsig, hkeyed⟩ := hkeyed
    obtain ⟨key, hkey⟩ := Option.ne_none_iff_exists'.mp hkeyed
    simp only [step, hrun]
    exact not_honoured_request hrun hsig hkey
  | stmt stmt =>
    cases stmt with
    | complete batch worker stamp =>
      simp only [Undemanding, Unhurried, not_forall] at hnot
      obtain ⟨n, hn, j, hj, hid, hwaiting, hfrees, hdelay⟩ := hnot
      exact not_honoured_complete h hn hj hid hwaiting hfrees hdelay
    | _ => exact absurd trivial hnot

/-- **Every node keeps to its options throughout a run exactly if no act asks more of it
than the two statements bind**: no workflow that goes through has a node with a
unique key, and no report frees a waiting node that has a delay. -/
theorem nodes_honoured_iff {A : Type} (encoder : Encoder A) (as : List (Act A)) :
    (∀ n, Honoured encoder (after encoder (as.take n))) ↔
      Along (step encoder) (Undemanding encoder) opened as :=
  throughout_iff kept_step (fun _ h => h.honoured) not_honoured_step as (kept_opened encoder)
end

/-- A task of one argument, whose key is the argument. -/
def keyedArgument : Encoder Bytes := { bytesArgument with uniqueKey := fun _ _ args => some args }

theorem oneEdge_nodup : [((0 : Nat), (1 : Nat))].Nodup := by decide

/-- The second node is to run a hundred after the first. -/
def delayedChild : Request Bytes :=
  .workflow ⟨[⟨⟨"load", false⟩, [], {}⟩, ⟨⟨"report", false⟩, [], { delay := 100 }⟩], [(0, 1)],
    oneEdge_nodup⟩

def uniqueNode : Signature Bytes := ⟨⟨"report", false⟩, [7], { unique := .arguments }⟩

def fetchAll : Act Bytes :=
  .stmt (.fetchUnkeyed { queues := ["default"], limit := 10, worker := 7, lease := 30, now := 0 })

/-- The child of a job that completes at 5 is leased at 5, and two workflows leave two
live jobs that both claim one key, in rows without it. -/
theorem options_dropped :
    (∃ n ∈ (after keyedArgument [.request (.driver .asyncpg) delayedChild]).nodes, n.id = 2 ∧ n.delay = 100) ∧
    (((after keyedArgument [.request (.driver .asyncpg) delayedChild, fetchAll, .tick 5,
      .stmt (.complete [(1, none)] 7 0), fetchAll]).db.job? 2).map fun j => (j.state, j.startedAt)) =
        some (.running, some 5) ∧
    uniqueKey keyedArgument uniqueNode = some [7] ∧
    (after keyedArgument (List.replicate 2 (.request (.driver .asyncpg)
      (.workflow ⟨[uniqueNode], [], List.nodup_nil⟩)))).db.jobs.map (fun j => (j.task, j.state, j.uniqueKey)) =
        [("report", .available, none), ("report", .available, none)] := by
  refine ⟨⟨⟨2, _, 0⟩, List.mem_cons_of_mem _ List.mem_cons_self, rfl, rfl⟩, by decide, rfl, by decide⟩
end Gylo.Client.Nodes
