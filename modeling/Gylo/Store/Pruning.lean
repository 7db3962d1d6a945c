import Gylo.Lib.Taking
import Gylo.Store.Retention

/-! # Deleting in batches

`PRUNE` deletes a bounded number of rows, oldest first, and two callers put it in
a loop. The command line's `prune_finished` goes on until a batch comes back
short. The worker's `retain` does so too, but leaves its loop when the tick has
taken longer than `TICK_BUDGET`, and deletes dead letters only in what is left of
it. The plain operation behind both is `sweep`: delete every row the `WHERE`
clause selects. With nobody else at the table, the first is a `sweep`, and the
second gets there tick by tick. -/
namespace Gylo.Store.Pruning

open Gylo.Store Gylo.Store.Retention

/-! ## The calls -/

/-- One call of a loop: the clock of its statement, the rows its scan meets (all
but those others hold locked), whether it fails, and the time since the tick
began when it returns. -/
structure Turn where
  now : Time
  visit : List JobId
  failed : Bool := false
  elapsed : Nat := 0

/-- The arguments `prune_states` binds. -/
def pruneStates (states : List JobState) (olderThan : Time) (queue : Option String) (limit : Int)
    (turn : Turn) : Prune :=
  { states, olderThan, queue, limit, visit := turn.visit, now := turn.now }

/-- The states of `prune_completed`. -/
def finishedStates : List JobState := [.completed, .cancelled]

/-- The states of `prune_discarded`. -/
def deadStates : List JobState := [.discarded]

/-- `prune_states`: the rows affected, or an error. -/
def pruneCall (a : Prune) (turn : Turn) (db : Db) : Option (Nat × Db) :=
  if turn.failed then none
  else match db.run (.prune a) with
    | .ok db' => some ((db.victims a).length, db')
    | .error _ => none

/-- How a loop was left: by an error or not, with the rows removed so far and the
calls that did not happen. -/
structure Left where
  failed : Bool
  removed : Nat
  rest : List Turn
  db : Db

/-- `loop { .. removed += batch; if stop { break } }`; no result if the calls end
before the loop does. -/
def pruneUntil (stop : Turn → Nat → Bool) (args : Turn → Prune) :
    List Turn → Nat → Db → Option Left
  | [], _, _ => none
  | turn :: turns, removed, db =>
    match pruneCall (args turn) turn db with
    | none => some ⟨true, removed, turns, db⟩
    | some (batch, db') =>
      if stop turn batch then some ⟨false, removed + batch, turns, db'⟩
      else pruneUntil stop args turns (removed + batch) db'

/-- The limit of the command line. -/
def cliBatch : Int := 5000

def cliLoop (states : List JobState) (olderThan : Time) (queue : Option String) :
    List Turn → Nat → Db → Option Left :=
  pruneUntil (fun _ batch => (batch : Int) < cliBatch) (pruneStates states olderThan queue cliBatch)

/-- `prune_finished`: what it prints or the context of its error. -/
def pruneFinished (olderThan : Time) (queue : Option String) (discarded : Bool)
    (turns : List Turn) (db : Db) : Option (Except String Nat × Db) :=
  match cliLoop finishedStates olderThan queue turns 0 db with
  | none => none
  | some ⟨true, _, _, db⟩ => some (.error "pruning finished jobs", db)
  | some ⟨false, removed, turns, db⟩ =>
    match if discarded then cliLoop deadStates olderThan queue turns removed db
      else some ⟨false, removed, turns, db⟩ with
    | none => none
    | some ⟨true, _, _, db⟩ => some (.error "pruning dead-lettered jobs", db)
    | some ⟨false, _, [], _⟩ => none
    | some ⟨false, removed, turn :: _, db⟩ =>
      if turn.failed then some (.error "pruning finished workflows", db)
      else match db.run .pruneWorkflows with
        | .ok db' => some (.ok removed, db')
        | .error _ => some (.error "pruning finished workflows", db)

/-! ## The plain operation -/

/-- Every row the `WHERE` clause selects. -/
def selected (a : Prune) (t : Tables) : List JobId :=
  (t.jobs.filter fun j => t.Prunable a j).map Job.id

def sweep (a : Prune) (t : Tables) : Tables := t.deleteJobs (selected a t)

/-- The rows `PRUNE` may take, oldest first. -/
def candidates (a : Prune) (t : Tables) : List Job :=
  ((t.scan a.visit).filter fun j => t.Prunable a j).insertionSort fun j k =>
    j.finalizedAt.getD 0 ≤ k.finalizedAt.getD 0

theorem victims_eq (a : Prune) (t : Tables) :
    t.victims a = ((candidates a t).take a.limit.toNat).map Job.id := rfl

/-! ## What a deletion leaves -/

theorem deleteJobs_congr {t : Tables} {v w : List JobId} (h : ∀ id, id ∈ v ↔ id ∈ w) :
    t.deleteJobs v = t.deleteJobs w := by
  unfold Tables.deleteJobs
  simp only [h]

theorem deleteJobs_deleteJobs (t : Tables) (v w : List JobId) :
    (t.deleteJobs v).deleteJobs w = t.deleteJobs (v ++ w) := by
  unfold Tables.deleteJobs
  simp only [List.filter_filter, List.mem_append, not_or]
  congr 1
  · exact List.filter_congr fun j _ => by simp [Bool.and_comm]
  · refine List.filter_congr fun e _ => ?_
    simp only [← Bool.decide_and, decide_eq_decide]
    tauto
  · exact List.filter_congr fun s _ => by simp [Bool.and_comm]

/-- A deletion breaks no constraint: edges and steps go with their jobs. -/
theorem satisfies_deleteJobs (db : Db) (v : List JobId) (c : Constraint) :
    (db.toTables.deleteJobs v).Satisfies c := by
  have hjobs : (db.toTables.deleteJobs v).jobs.Sublist db.jobs := List.filter_sublist
  have hvalid := db.valid c
  cases c with
  | jobPkey => exact hvalid.sublist (hjobs.map _)
  | jobUnique => exact hvalid.sublist ((hjobs.filter _).filterMap _)
  | edgePkey => exact hvalid.sublist (List.filter_sublist.map _)
  | stepPkey => exact hvalid.sublist (List.filter_sublist.map _)
  | cronPkey => exact hvalid
  | edgeFkey =>
    intro e he
    obtain ⟨he, hends⟩ := List.mem_filter.mp he
    obtain ⟨hparent, hchild⟩ := of_decide_eq_true hends
    obtain ⟨hw, hp, hc⟩ := hvalid e he
    have hkeep : ∀ id ∈ db.ids, id ∉ v → id ∈ (db.toTables.deleteJobs v).ids := by
      intro id hid hout
      obtain ⟨j, hj, rfl⟩ := List.mem_map.mp hid
      exact List.mem_map.mpr ⟨j, mem_deleteJobs.mpr ⟨hj, hout⟩, rfl⟩
    exact ⟨hw, hkeep _ hp hparent, hkeep _ hc hchild⟩
  | stepFkey =>
    intro s hs
    obtain ⟨hs, hout⟩ := List.mem_filter.mp hs
    obtain ⟨j, hj, hid⟩ := List.mem_map.mp (hvalid s hs)
    exact List.mem_map.mpr ⟨j, mem_deleteJobs.mpr ⟨hj, hid ▸ of_decide_eq_true hout⟩, hid⟩
  | identity =>
    refine ⟨fun id hid => hvalid.1 id ((hjobs.map Job.id).mem hid), hvalid.2⟩
  | _ => exact fun j hj => hvalid j (hjobs.mem hj)

theorem satisfies_pruneWorkflows (db : Db) (c : Constraint) : db.pruneWorkflows.Satisfies c := by
  have hvalid := db.valid c
  have hkept : ∀ w ∈ db.workflows, (∃ j ∈ db.jobs, j.workflowId = some w) →
      w ∈ db.pruneWorkflows.workflows :=
    fun w hw hjob => List.mem_filter.mpr ⟨hw, decide_eq_true hjob⟩
  cases c with
  | jobWorkflowFkey => exact fun j hj w hw => hkept w (hvalid j hj w hw) ⟨j, hj, hw⟩
  | edgePkey => exact hvalid.sublist (List.filter_sublist.map _)
  | edgeFkey =>
    intro e he
    obtain ⟨he, hjob⟩ := List.mem_filter.mp he
    obtain ⟨hw, hends⟩ := hvalid e he
    exact ⟨hkept _ hw (of_decide_eq_true hjob), hends⟩
  | identity => exact ⟨hvalid.1, fun w hw => hvalid.2 w (List.mem_filter.mp hw).1⟩
  | _ => exact hvalid

/-! ## One batch -/

section
variable {db : Db} {a : Prune}

theorem mem_scan_iff {visit : List JobId} {j : Job} :
    j ∈ db.scan visit ↔ j ∈ db.jobs ∧ j.id ∈ visit := by
  unfold Tables.scan
  rw [List.mem_filterMap]
  constructor
  · intro h
    obtain ⟨id, hid, hj⟩ := h
    obtain ⟨hmem, rfl⟩ := db.job?_eq_some.mp hj
    exact ⟨hmem, List.mem_dedup.mp hid⟩
  · intro h
    exact ⟨j.id, List.mem_dedup.mpr h.2, db.job?_eq_some.mpr ⟨h.1, rfl⟩⟩

theorem mem_candidates {j : Job} :
    j ∈ candidates a db.toTables ↔ (j ∈ db.jobs ∧ j.id ∈ a.visit) ∧ db.Prunable a j := by
  unfold candidates
  rw [List.mem_insertionSort, List.mem_filter, mem_scan_iff, decide_eq_true_iff]

theorem scan_nodup (db : Db) (visit : List JobId) : (db.scan visit).Nodup := by
  refine (List.nodup_dedup visit).filterMap fun id id' j hj hj' => ?_
  rw [← (db.job?_eq_some.mp hj).2, ← (db.job?_eq_some.mp hj').2]

theorem candidates_nodup (db : Db) (a : Prune) : (candidates a db.toTables).Nodup :=
  (List.perm_insertionSort _ _).nodup_iff.mpr ((scan_nodup db a.visit).filter _)

/-- Ids are distinct on rows of the table. -/
theorem map_id_nodup (db : Db) {l : List Job} (hl : l.Nodup) (hsub : ∀ j ∈ l, j ∈ db.jobs) :
    (l.map Job.id).Nodup :=
  hl.map_on fun j hj k hk h => db.eq_of_id (hsub j hj) (hsub k hk) h

theorem victims_nodup (db : Db) (a : Prune) : (db.victims a).Nodup := by
  rw [victims_eq]
  refine map_id_nodup db ((candidates_nodup db a).sublist (List.take_sublist _ _)) fun j hj => ?_
  exact (mem_candidates.mp (List.mem_of_mem_take hj)).1.1

/-- The rows affected are the rows gone. -/
theorem length_deleteJobs {v : List JobId} (hnd : v.Nodup) (hsub : ∀ id ∈ v, id ∈ db.ids) :
    (db.deleteJobs v).jobs.length + v.length = db.jobs.length := by
  have hgone : ((db.jobs.filter fun j => j.id ∈ v).map Job.id).Perm v := by
    refine (List.perm_ext_iff_of_nodup ?_ hnd).mpr fun id => ?_
    · exact map_id_nodup db ((List.Nodup.of_map _ db.ids_nodup).filter _)
        fun j hj => (List.mem_filter.mp hj).1
    · constructor
      · intro hid
        obtain ⟨j, hj, rfl⟩ := List.mem_map.mp hid
        exact of_decide_eq_true (List.mem_filter.mp hj).2
      · intro hid
        obtain ⟨j, hj, rfl⟩ := List.mem_map.mp (hsub id hid)
        exact List.mem_map.mpr ⟨j, List.mem_filter.mpr ⟨hj, decide_eq_true hid⟩, rfl⟩
  have hlen := hgone.length_eq
  rw [List.length_map] at hlen
  have hsplit := List.length_eq_length_filter_add (l := db.jobs) fun j => decide (j.id ∈ v)
  have hkept : (db.deleteJobs v).jobs = db.jobs.filter fun j => !decide (j.id ∈ v) := by
    unfold Tables.deleteJobs
    exact List.filter_congr fun j _ => by simp
  rw [hkept]
  omega

theorem length_prune (db : Db) (a : Prune) :
    (db.prune a).jobs.length + (db.victims a).length = db.jobs.length := by
  refine length_deleteJobs (victims_nodup db a) fun id hid => ?_
  obtain ⟨j, hj, -, hid⟩ := mem_victims hid
  exact List.mem_map.mpr ⟨j, hj, hid⟩

/-- A call that is not refused deletes its victims and reports how many. -/
theorem pruneCall_eq (db : Db) {turn : Turn} (hok : turn.failed = false) (hlimit : 0 ≤ a.limit) :
    ∃ db', pruneCall a turn db = some ((db.victims a).length, db') ∧ db'.toTables = db.prune a := by
  have heffect : (Stmt.prune a).effect db.toTables = .ok (db.prune a) :=
    if_neg (not_lt.mpr hlimit)
  refine ⟨⟨db.prune a, satisfies_deleteJobs db _⟩, ?_, rfl⟩
  unfold pruneCall
  rw [hok, Db.run_of_effect heffect (satisfies_deleteJobs db _)]
  rfl

/-- A short batch has taken everything that is selected and not locked. -/
theorem victims_of_short (hvisit : ∀ j ∈ db.jobs, j.id ∈ a.visit)
    (hshort : (db.victims a).length < a.limit.toNat) (id : JobId) :
    id ∈ db.victims a ↔ id ∈ selected a db.toTables := by
  have hall : (candidates a db.toTables).take a.limit.toNat = candidates a db.toTables := by
    refine List.take_of_length_le ?_
    rw [victims_eq, List.length_map, List.length_take] at hshort
    omega
  rw [victims_eq, hall]
  unfold selected
  simp only [List.mem_map, mem_candidates, List.mem_filter, decide_eq_true_iff]
  constructor
  · intro h
    obtain ⟨j, ⟨⟨hj, -⟩, hp⟩, hid⟩ := h
    exact ⟨j, ⟨hj, hp⟩, hid⟩
  · intro h
    obtain ⟨j, ⟨hj, hp⟩, hid⟩ := h
    exact ⟨j, ⟨⟨hj, hvisit j hj⟩, hp⟩, hid⟩
end

/-! ## One batch after another -/

/-- States no live row has. -/
def Settled (states : List JobState) : Prop := ∀ s ∈ states, s ≠ .available ∧ s ≠ .running

instance (states : List JobState) : Decidable (Settled states) :=
  inferInstanceAs (Decidable (∀ s ∈ states, _))

theorem settled_finished : Settled finishedStates := by decide

theorem settled_dead : Settled deadStates := by decide

theorem Settled.not_live {states : List JobState} (h : Settled states) {j : Job}
    (hj : j.state ∈ states) : ¬ j.Live := by
  intro hlive
  obtain ⟨hwait, hrun⟩ := h _ hj
  exact hlive.elim hwait hrun

/-- Which rows are selected depends on the others only through the live ones. -/
theorem prunable_iff_of_kept {t t' : Tables} (hsub : ∀ j ∈ t'.jobs, j ∈ t.jobs)
    (hlive : ∀ j ∈ t.jobs, j.Live → j ∈ t'.jobs) (a : Prune) (j : Job) :
    t'.Prunable a j ↔ t.Prunable a j := by
  have hmember : (∃ u ∈ t'.jobs, u.workflowId = j.workflowId ∧ u.Live) ↔
      ∃ u ∈ t.jobs, u.workflowId = j.workflowId ∧ u.Live := by
    constructor
    · intro h
      obtain ⟨u, hu, h⟩ := h
      exact ⟨u, hsub u hu, h⟩
    · intro h
      obtain ⟨u, hu, hw, h⟩ := h
      exact ⟨u, hlive u hu h, hw, h⟩
  unfold Tables.Prunable
  rw [hmember]

theorem prunable_deleteJobs {t : Tables} {v : List JobId} (hv : ∀ j ∈ t.jobs, j.id ∈ v → ¬ j.Live)
    (a : Prune) (j : Job) : (t.deleteJobs v).Prunable a j ↔ t.Prunable a j :=
  prunable_iff_of_kept (fun _ hj => (mem_deleteJobs.mp hj).1)
    (fun j hj hlive => mem_deleteJobs.mpr ⟨hj, fun hin => hv j hj hin hlive⟩) a j

/-- The same call at an earlier time. -/
structure Before (b a : Prune) : Prop where
  states : b.states = a.states
  olderThan : b.olderThan = a.olderThan
  queue : b.queue = a.queue
  now : b.now ≤ a.now

theorem before_pruneStates (states : List JobState) (olderThan : Time) (queue : Option String)
    (limit : Int) {turn later : Turn} (h : turn.now ≤ later.now) :
    Before (pruneStates states olderThan queue limit turn)
      (pruneStates states olderThan queue limit later) :=
  ⟨rfl, rfl, rfl, h⟩

section
variable {a b : Prune}

/-- What is selected stays selected as the clock goes on. -/
theorem Before.prunable (h : Before b a) {t : Tables} {j : Job} (hj : t.Prunable b j) :
    t.Prunable a j := by
  obtain ⟨hstate, ⟨f, hf, hold⟩, hqueue, hflow⟩ := hj
  rw [h.states] at hstate
  rw [h.queue] at hqueue
  rw [h.olderThan] at hold
  exact ⟨hstate, ⟨f, hf, Int.lt_of_lt_of_le hold (Int.sub_le_sub_right h.now a.olderThan)⟩, hqueue,
    hflow⟩

theorem mem_selected {db : Db} {j : Job} (hj : j ∈ db.jobs) :
    j.id ∈ selected a db.toTables ↔ db.Prunable a j := by
  unfold selected
  constructor
  · intro h
    obtain ⟨k, hk, hid⟩ := List.mem_map.mp h
    obtain ⟨hk, hp⟩ := List.mem_filter.mp hk
    cases db.eq_of_id hk hj hid
    exact of_decide_eq_true hp
  · exact fun h => List.mem_map.mpr ⟨j, List.mem_filter.mpr ⟨hj, decide_eq_true h⟩, rfl⟩

theorem prunable_of_victim {db : Db} {j : Job} (hj : j ∈ db.jobs) (h : j.id ∈ db.victims a) :
    db.Prunable a j := by
  obtain ⟨k, hk, hp, hid⟩ := mem_victims h
  cases db.eq_of_id hk hj hid
  exact hp

/-- A deletion of settled rows, and then a sweep, is one deletion of what was
deleted and what the sweep would have selected before. -/
theorem sweep_deleteJobs {db : Db} {v : List JobId} (hv : ∀ j ∈ db.jobs, j.id ∈ v → ¬ j.Live) :
    sweep a (db.deleteJobs v) = db.deleteJobs (v ++ selected a db.toTables) := by
  unfold sweep
  rw [deleteJobs_deleteJobs]
  refine deleteJobs_congr fun id => ?_
  simp only [List.mem_append]
  refine or_congr_right' fun hout => ?_
  constructor
  · intro h
    obtain ⟨j, hj, rfl⟩ := List.mem_map.mp h
    obtain ⟨hj, hp⟩ := List.mem_filter.mp hj
    exact (mem_selected (mem_deleteJobs.mp hj).1).mpr
      ((prunable_deleteJobs hv a j).mp (of_decide_eq_true hp))
  · intro h
    obtain ⟨j, hj, rfl⟩ := List.mem_map.mp h
    obtain ⟨hj, hp⟩ := List.mem_filter.mp hj
    exact List.mem_map.mpr ⟨j, List.mem_filter.mpr ⟨mem_deleteJobs.mpr ⟨hj, hout⟩,
      decide_eq_true ((prunable_deleteJobs hv a j).mpr (of_decide_eq_true hp))⟩, rfl⟩

/-- A batch taken on the way does not show in a later sweep. -/
theorem sweep_prune (hs : Settled b.states) (db : Db) (h : Before b a) :
    sweep a (db.prune b) = sweep a db.toTables := by
  unfold Tables.prune
  rw [sweep_deleteJobs fun j hj hin => hs.not_live (prunable_of_victim hj hin).1]
  refine deleteJobs_congr fun id => ?_
  rw [List.mem_append]
  refine ⟨fun hin => hin.elim (fun hin => ?_) fun hin => hin, .inr⟩
  obtain ⟨j, hj, hp, rfl⟩ := mem_victims hin
  exact (mem_selected hj).mpr (h.prunable hp)
end

/-- Nobody else is at the table: no call fails, no row is locked, and the clock
does not go back. -/
structure Quiet (db : Db) (turns : List Turn) : Prop where
  ok : ∀ turn ∈ turns, turn.failed = false
  visit : ∀ turn ∈ turns, ∀ j ∈ db.jobs, j.id ∈ turn.visit
  clock : turns.Pairwise fun turn later => turn.now ≤ later.now

theorem Quiet.tail {db : Db} {turn : Turn} {turns : List Turn} (h : Quiet db (turn :: turns)) :
    Quiet db turns :=
  ⟨fun t ht => h.ok t (List.mem_cons_of_mem _ ht), fun t ht => h.visit t (List.mem_cons_of_mem _ ht),
    (List.pairwise_cons.mp h.clock).2⟩

theorem Quiet.sublist {db db' : Db} {turns turns' : List Turn} (h : Quiet db turns)
    (hjobs : db'.jobs.Sublist db.jobs) (hturns : turns'.Sublist turns) : Quiet db' turns' :=
  ⟨fun t ht => h.ok t (hturns.mem ht), fun t ht j hj => h.visit t (hturns.mem ht) j (hjobs.mem hj),
    h.clock.sublist hturns⟩

theorem prune_jobs_sublist (t : Tables) (a : Prune) : (t.prune a).jobs.Sublist t.jobs :=
  List.filter_sublist

theorem sweep_jobs_sublist (t : Tables) (a : Prune) : (sweep a t).jobs.Sublist t.jobs :=
  List.filter_sublist

/-- How a loop that stops on a short batch ends: it has swept as of the clock of
its last call. -/
structure Swept (args : Turn → Prune) (limit : Nat) (db : Db) (turns : List Turn) (removed : Nat)
    (left : Left) (last : Turn) : Prop where
  ok : left.failed = false
  tables : left.db.toTables = sweep (args last) db.toTables
  count : left.removed + left.db.jobs.length = removed + db.jobs.length
  mem : last ∈ turns
  rest : left.rest.Sublist turns
  later : ∀ turn ∈ left.rest, last.now ≤ turn.now
  /-- every call but the last one took a whole batch -/
  calls : turns.length * limit + removed ≤ left.rest.length * limit + limit + left.removed

/-- **The batches add up to one sweep**, and the loop ends: each call that does
not end it takes a whole batch. -/
theorem pruneUntil_swept {states : List JobState} (hs : Settled states) (olderThan : Time)
    (queue : Option String) {limit : Nat} (hlimit : 0 < limit) :
    ∀ (turns : List Turn) (removed : Nat) (db : Db), Quiet db turns →
      db.jobs.length < turns.length * limit →
      ∃ left last, pruneUntil (fun _ batch => (batch : Int) < limit)
          (pruneStates states olderThan queue limit) turns removed db = some left ∧
        Swept (pruneStates states olderThan queue limit) limit db turns removed left last
  | [], _, _, _, hlen => by simp at hlen
  | turn :: turns, removed, db, hquiet, hlen => by
    obtain ⟨db', hcall, htables⟩ := pruneCall_eq (a := pruneStates states olderThan queue limit turn)
      db (hquiet.ok turn List.mem_cons_self) (by simp [pruneStates])
    have hcount := length_prune db (pruneStates states olderThan queue limit turn)
    rw [← htables] at hcount
    unfold pruneUntil
    rw [hcall]
    simp only
    split
    next hshort =>
      have hshort := of_decide_eq_true hshort
      refine ⟨_, turn, rfl, rfl, ?_, ?_, List.mem_cons_self, List.sublist_cons_self _ _,
        (List.pairwise_cons.mp hquiet.clock).1, ?_⟩
      · have hall := victims_of_short (a := pruneStates states olderThan queue limit turn)
          (hquiet.visit turn List.mem_cons_self) (by
            show _ < (limit : Int).toNat
            omega)
        rw [htables]
        exact deleteJobs_congr hall
      · simp only
        omega
      · simp only [List.length_cons, Nat.add_mul]
        omega
    next hfull =>
      have hfull : limit ≤ (db.victims (pruneStates states olderThan queue limit turn)).length := by
        have hfull := of_decide_eq_false (Bool.eq_false_iff.mpr hfull)
        omega
      have hsub : db'.jobs.Sublist db.jobs := by
        rw [htables]
        exact prune_jobs_sublist _ _
      rw [List.length_cons, Nat.add_mul] at hlen
      obtain ⟨left, last, hrun, hswept⟩ := pruneUntil_swept hs olderThan queue hlimit turns
        (removed + (db.victims (pruneStates states olderThan queue limit turn)).length) db'
        (hquiet.tail.sublist hsub (List.Sublist.refl _)) (by omega)
      refine ⟨left, last, hrun, hswept.ok, ?_, ?_, List.mem_cons_of_mem _ hswept.mem,
        hswept.rest.cons _, hswept.later, ?_⟩
      · rw [hswept.tables, htables]
        exact sweep_prune hs db (before_pruneStates states olderThan queue limit
          ((List.pairwise_cons.mp hquiet.clock).1 last hswept.mem))
      · have := hswept.count
        omega
      · have := hswept.calls
        rw [List.length_cons, Nat.add_mul]
        omega

/-! ## `prune_finished` -/

theorem cliLoop_swept {states : List JobState} (hs : Settled states) (olderThan : Time)
    (queue : Option String) {turns : List Turn} (removed : Nat) {db : Db} (hquiet : Quiet db turns)
    (hlen : db.jobs.length < turns.length * 5000) :
    ∃ left last, cliLoop states olderThan queue turns removed db = some left ∧
      Swept (pruneStates states olderThan queue cliBatch) 5000 db turns removed left last :=
  pruneUntil_swept hs olderThan queue (by decide) turns removed db hquiet hlen

/-- The last statement of `prune_finished`, once both loops are through. -/
theorem pruneWorkflows_run (db : Db) :
    ∃ db', db.run .pruneWorkflows = .ok db' ∧ db'.toTables = db.pruneWorkflows ∧
      db'.jobs = db.jobs :=
  ⟨_, Db.run_of_effect rfl (satisfies_pruneWorkflows db), rfl, rfl⟩

/-- **`prune_finished` is one sweep.** With nobody else at the table and calls to
spare, it returns; what it has deleted is every finished row older than the
window, and every dead letter if asked to, as one statement without a limit would
have; a workflow none of whose jobs is left is gone with its edges; and the
number printed is the number of jobs deleted. -/
theorem prune_finished_sweeps (db : Db) (olderThan : Time) (queue : Option String)
    (discarded : Bool) (turns : List Turn) (hquiet : Quiet db turns)
    (henough : db.jobs.length + 3 * 5000 ≤ turns.length * 5000) :
    ∃ first ∈ turns, ∃ second ∈ turns, ∃ removed db',
      pruneFinished olderThan queue discarded turns db = some (.ok removed, db') ∧
      first.now ≤ second.now ∧
      db'.toTables = (db.deleteJobs
        (selected (pruneStates finishedStates olderThan queue cliBatch first) db.toTables ++
          if discarded then
            selected (pruneStates deadStates olderThan queue cliBatch second) db.toTables
          else [])).pruneWorkflows ∧
      removed + db'.jobs.length = db.jobs.length := by
  obtain ⟨⟨failed, removed, rest, db₁⟩, first, hrun, hswept⟩ :=
    cliLoop_swept settled_finished olderThan queue 0 hquiet (by omega)
  obtain ⟨hfailed, htables, hcount, hfirst, hrest, hlater, hcalls⟩ := hswept
  simp only at hfailed htables hcount hrest hlater hcalls
  subst hfailed
  have hjobs : db₁.jobs.Sublist db.jobs := by
    rw [htables]
    exact sweep_jobs_sublist _ _
  unfold pruneFinished
  rw [hrun]
  cases discarded with
  | false =>
    simp only [Bool.false_eq_true, if_false]
    cases rest with
    | nil =>
      simp only [List.length_nil, Nat.zero_mul] at hcalls
      omega
    | cons turn rest =>
      obtain ⟨db', hflow, hdb', hsame⟩ := pruneWorkflows_run db₁
      simp only [hquiet.ok turn (hrest.mem List.mem_cons_self), Bool.false_eq_true, if_false, hflow]
      refine ⟨first, hfirst, first, hfirst, removed, db', rfl, le_refl _, ?_, ?_⟩
      · rw [hdb', htables, List.append_nil]
        rfl
      · rw [hsame]
        omega
  | true =>
    simp only [if_true]
    obtain ⟨⟨failed, removed₂, rest₂, db₂⟩, second, hrun₂, hswept₂⟩ :=
      cliLoop_swept settled_dead olderThan queue removed (hquiet.sublist hjobs hrest) (by omega)
    obtain ⟨hfailed, htables₂, hcount₂, hsecond, hrest₂, -, hcalls₂⟩ := hswept₂
    simp only at hfailed htables₂ hcount₂ hrest₂ hcalls₂
    subst hfailed
    rw [hrun₂]
    cases rest₂ with
    | nil =>
      simp only [List.length_nil, Nat.zero_mul] at hcalls₂
      omega
    | cons turn rest₂ =>
      obtain ⟨db', hflow, hdb', hsame⟩ := pruneWorkflows_run db₂
      simp only [hquiet.ok turn (hrest.mem (hrest₂.mem List.mem_cons_self)), Bool.false_eq_true,
        if_false, hflow]
      refine ⟨first, hfirst, second, hrest.mem hsecond, removed₂, db', rfl, hlater second hsecond,
        ?_, ?_⟩
      · rw [hdb', htables₂, htables]
        exact congrArg Tables.pruneWorkflows (sweep_deleteJobs fun j hj hin =>
          settled_finished.not_live ((mem_selected hj).mp hin).1)
      · rw [hsame]
        omega

/-- A job that was done long ago, and calls that find it unlocked. -/
def oneDone : List Stmt :=
  [.enqueue { task := "t" } 0,
    .fetchUnkeyed { queues := ["default"], limit := 1, worker := 7, lease := 30, now := 1 },
    .complete [(1, none)] 7 2]

def laterCall : Turn := { now := 100000000000, visit := [1] }

theorem quiet_later (n : Nat) : Quiet (Db.after oneDone) (List.replicate n laterCall) := by
  have hvisit : ∀ j ∈ (Db.after oneDone).jobs, j.id ∈ laterCall.visit := by decide
  refine ⟨fun turn hturn => ?_, fun turn hturn => ?_, List.pairwise_replicate.mpr (.inr (le_refl _))⟩
  · rw [List.eq_of_mem_replicate hturn]
    rfl
  · rw [List.eq_of_mem_replicate hturn]
    exact hvisit

theorem prune_finished_one_done : ∃ removed db',
    pruneFinished 10 none true (List.replicate 4 laterCall) (Db.after oneDone) =
      some (.ok removed, db') ∧ removed + db'.jobs.length = 1 := by
  obtain ⟨-, -, -, -, removed, db', hrun, -, -, hcount⟩ := prune_finished_sweeps (Db.after oneDone) 10
    none true (List.replicate 4 laterCall) (quiet_later 4) (by decide)
  exact ⟨removed, db', hrun, hcount⟩

/-! ## `retain` -/

/-- The settings retention reads; durations in microseconds. -/
structure Config where
  retainCompleted : Time := 86400000000
  retainDiscarded : Time := 604800000000
  pruneBatch : Int := 5000

/-- `TICK_BUDGET`. -/
def tickBudget : Nat := 5000000

/-- `as u64`. -/
def asU64 (n : Int) : Nat := (n % 18446744073709551616).toNat

/-- What a tick meets: the calls of its loop, the time since it began when the
budget is read again, the call for dead letters, and whether the last one fails. -/
structure Tick where
  turns : List Turn
  checked : Nat
  dead : Turn
  workflowsFailed : Bool := false

def Config.finished (c : Config) : Turn → Prune :=
  pruneStates finishedStates c.retainCompleted none c.pruneBatch

def Config.dead (c : Config) : Turn → Prune :=
  pruneStates deadStates c.retainDiscarded none c.pruneBatch

def Config.stop (c : Config) (turn : Turn) (batch : Nat) : Bool :=
  batch < asU64 c.pruneBatch ∨ tickBudget < turn.elapsed

/-- One batch of dead letters, if the budget is not spent; an error is logged. -/
def retainDead (c : Config) (tick : Tick) (left : Left) : Nat × Db :=
  if tick.checked ≤ tickBudget then
    match pruneCall (c.dead tick.dead) tick.dead left.db with
    | some (count, db) => (left.removed + count, db)
    | none => (left.removed, left.db)
  else (left.removed, left.db)

/-- `if removed > 0 { prune_workflows }`. -/
def retainWorkflows (tick : Tick) (removed : Nat) (db : Db) : Db :=
  if 0 < removed ∧ tick.workflowsFailed = false then db.exec .pruneWorkflows else db

/-- One tick of `retain`. -/
def retainTick (c : Config) (tick : Tick) (db : Db) : Option Db :=
  match pruneUntil c.stop c.finished tick.turns 0 db with
  | none => none
  | some left =>
    let (removed, db) := retainDead c tick left
    some (retainWorkflows tick removed db)

/-- `retain`, tick after tick. -/
def retain (c : Config) : List Tick → Db → Option Db
  | [], db => some db
  | tick :: ticks, db =>
    match retainTick c tick db with
    | none => none
    | some db => retain c ticks db

/-! ## What is left of a backlog -/

/-- How many rows are selected. -/
def backlog (a : Prune) (t : Tables) : Nat := (t.jobs.filter fun j => t.Prunable a j).length

/-- `t'` is what deletions, each for a reason, left of `t`. -/
structure Purged (reason : Job → Prop) (t t' : Tables) : Prop where
  sub : t'.jobs.Sublist t.jobs
  gone : ∀ j ∈ t.jobs, j ∉ t'.jobs → reason j

section
variable {reason : Job → Prop} {t t' t'' : Tables}

theorem Purged.refl (t : Tables) : Purged reason t t :=
  ⟨List.Sublist.refl _, fun _ hj hout => absurd hj hout⟩

theorem Purged.trans (h : Purged reason t t') (h' : Purged reason t' t'') : Purged reason t t'' := by
  refine ⟨h'.sub.trans h.sub, fun j hj hout => ?_⟩
  by_cases hmid : j ∈ t'.jobs
  · exact h'.gone j hmid hout
  · exact h.gone j hj hmid

variable (hdead : ∀ j, reason j → ¬ j.Live)
include hdead

theorem Purged.prunable_iff (h : Purged reason t t') (a : Prune) (j : Job) :
    t'.Prunable a j ↔ t.Prunable a j :=
  prunable_iff_of_kept (fun _ hj => h.sub.mem hj)
    (fun j hj hlive => by_contra fun hout => hdead j (h.gone j hj hout) hlive) a j

theorem Purged.backlog_le (h : Purged reason t t') (a : Prune) : backlog a t' ≤ backlog a t := by
  have hsame : (t'.jobs.filter fun j => t'.Prunable a j) = t'.jobs.filter fun j => t.Prunable a j :=
    List.filter_congr fun j _ => decide_eq_decide.mpr (h.prunable_iff hdead a j)
  unfold backlog
  rw [hsame]
  exact (h.sub.filter _).length_le
end

section
variable {a b : Prune} {db : Db}

/-- The rows that were due when counting started are the oldest of those that are
due now, so a batch takes them first. -/
theorem filter_take_candidates (h : Before b a) (n : Nat) :
    ((candidates a db.toTables).take n).filter (fun j => db.Prunable b j) =
      ((candidates a db.toTables).filter fun j => db.Prunable b j).take n := by
  have hsorted : (candidates a db.toTables).Pairwise
      fun j k => j.finalizedAt.getD 0 ≤ k.finalizedAt.getD 0 :=
    have : Std.Total fun j k : Job => j.finalizedAt.getD 0 ≤ k.finalizedAt.getD 0 :=
      ⟨fun j k => Int.le_total _ _⟩
    have : IsTrans Job fun j k : Job => j.finalizedAt.getD 0 ≤ k.finalizedAt.getD 0 :=
      ⟨fun _ _ _ => Int.le_trans⟩
    List.pairwise_insertionSort _ _
  rw [Taking.filter_take_eq_iff _ (candidates_nodup db a)]
  by_contra hneither
  rw [not_or] at hneither
  obtain ⟨hnew, hold⟩ := hneither
  simp only [not_forall, decide_eq_true_iff] at hnew hold
  -- a row that has become due since is in the batch before one that was due
  obtain ⟨x, hx, hxnew⟩ := hnew
  obtain ⟨y, hy, ⟨-, ⟨g, hg, hgold⟩, -⟩, hyout⟩ := hold
  obtain ⟨hstate, ⟨f, hf, -⟩, hqueue, hflow⟩ := (mem_candidates.mp (List.mem_of_mem_take hx)).2
  have hle := Taking.rel_of_mem_take hsorted hx hy hyout
  rw [Option.mem_def.mp hf, Option.mem_def.mp hg] at hle
  rw [← h.states] at hstate
  rw [← h.queue] at hqueue
  exact hxnew ⟨hstate, ⟨f, hf, Int.lt_of_le_of_lt hle hgold⟩, hqueue, hflow⟩

/-- A batch takes a whole batch off the backlog, or all of it. -/
theorem backlog_prune (hs : Settled a.states) (hvisit : ∀ j ∈ db.jobs, j.id ∈ a.visit)
    (h : Before b a) : backlog b (db.prune a) ≤ backlog b db.toTables - a.limit.toNat := by
  have hnd : db.jobs.Nodup := List.Nodup.of_map _ db.ids_nodup
  -- the old rows among the candidates are all the old rows
  have hold : ((candidates a db.toTables).filter fun j => db.Prunable b j).Perm
      (db.jobs.filter fun j => db.Prunable b j) := by
    refine (List.perm_ext_iff_of_nodup ((candidates_nodup db a).filter _) (hnd.filter _)).mpr
      fun j => ?_
    simp only [List.mem_filter, mem_candidates, decide_eq_true_iff]
    exact ⟨fun hj => ⟨hj.1.1.1, hj.2⟩, fun hj => ⟨⟨⟨hj.1, hvisit j hj.1⟩, h.prunable hj.2⟩, hj.2⟩⟩
  -- those the batch takes
  have htaken : (((candidates a db.toTables).take a.limit.toNat).filter fun j => db.Prunable b j).Perm
      ((db.jobs.filter fun j => db.Prunable b j).filter fun j => j.id ∈ db.victims a) := by
    refine (List.perm_ext_iff_of_nodup (((candidates_nodup db a).sublist
      (List.take_sublist _ _)).filter _) ((hnd.filter _).filter _)).mpr fun j => ?_
    simp only [List.mem_filter, decide_eq_true_iff]
    constructor
    · intro hj
      exact ⟨⟨(mem_candidates.mp (List.mem_of_mem_take hj.1)).1.1, hj.2⟩,
        List.mem_map_of_mem hj.1⟩
    · intro hj
      obtain ⟨k, hk, hid⟩ := List.mem_map.mp hj.2
      cases db.eq_of_id (mem_candidates.mp (List.mem_of_mem_take hk)).1.1 hj.1.1 hid
      exact ⟨hk, hj.1.2⟩
  have hlen := htaken.length_eq
  rw [filter_take_candidates h, List.length_take, hold.length_eq] at hlen
  have hsplit := List.length_eq_length_filter_add
    (l := db.jobs.filter fun j => db.Prunable b j) fun j => decide (j.id ∈ db.victims a)
  have hrest : ((db.prune a).jobs.filter fun j => (db.prune a).Prunable b j) =
      (db.jobs.filter fun j => db.Prunable b j).filter fun j => !decide (j.id ∈ db.victims a) := by
    have hiff := prunable_deleteJobs (t := db.toTables) (v := db.victims a)
      (fun j hj hin => hs.not_live (prunable_of_victim hj hin).1) b
    unfold Tables.prune
    simp only [hiff]
    unfold Tables.deleteJobs
    rw [List.filter_filter, List.filter_filter]
    exact List.filter_congr fun j _ => by simp [Bool.and_comm]
  unfold backlog
  rw [hrest]
  omega
end

section
variable {reason : Job → Prop} {t : Tables} {db : Db}

theorem Purged.prune (hdead : ∀ j, reason j → ¬ j.Live) (h : Purged reason t db.toTables) {a : Prune}
    (ha : ∀ j, t.Prunable a j → reason j) : Purged reason t (db.prune a) := by
  refine h.trans ⟨prune_jobs_sublist _ _, fun j hj hout => ?_⟩
  have hvictim : j.id ∈ db.victims a := by_contra fun hkept => hout (mem_deleteJobs.mpr ⟨hj, hkept⟩)
  exact ha j ((h.prunable_iff hdead a j).mp (prunable_of_victim hj hvictim))

/-- Workflows without jobs may go at any time. -/
theorem retainWorkflows_jobs (tick : Tick) (removed : Nat) (db : Db) :
    (retainWorkflows tick removed db).jobs = db.jobs := by
  unfold retainWorkflows
  split
  · rcases db.exec_cases .pruneWorkflows with hsame | heff
    · rw [hsame]
    · rw [← Except.ok.inj heff]
      rfl
  · rfl

theorem backlog_congr {t t' : Tables} (h : t'.jobs = t.jobs) (a : Prune) :
    backlog a t' = backlog a t := by
  unfold backlog
  rw [h]
  exact congrArg List.length (List.filter_congr fun j _ => decide_eq_decide.mpr
    (prunable_iff_of_kept (fun _ hk => h ▸ hk) (fun _ hk _ => h ▸ hk) a j))
end

/-- What a tick meets if nobody else is at the table, no call fails, the clock is
not behind `start`, and there are calls to spare. -/
structure Calm (c : Config) (db : Db) (start : Turn) (tick : Tick) : Prop where
  ok : ∀ turn ∈ tick.dead :: tick.turns, turn.failed = false
  visit : ∀ turn ∈ tick.dead :: tick.turns, ∀ j ∈ db.jobs, j.id ∈ turn.visit
  clock : ∀ turn ∈ tick.dead :: tick.turns, start.now ≤ turn.now
  enough : db.jobs.length < tick.turns.length * c.pruneBatch.toNat

/-- Why retention deletes a row. -/
def Overdue (c : Config) (t : Tables) (ticks : List Tick) (j : Job) : Prop :=
  ∃ tick ∈ ticks, (∃ turn ∈ tick.turns, t.Prunable (c.finished turn) j) ∨
    t.Prunable (c.dead tick.dead) j

theorem Overdue.not_live {c : Config} {t : Tables} {ticks : List Tick} (j : Job)
    (h : Overdue c t ticks j) : ¬ j.Live := by
  obtain ⟨tick, -, ⟨turn, -, hp⟩ | hp⟩ := h
  · exact settled_finished.not_live hp.1
  · exact settled_dead.not_live hp.1

section
variable {c : Config} (hbatch : 0 < c.pruneBatch) (hrange : c.pruneBatch < 9223372036854775808)
include hbatch hrange

theorem asU64_pruneBatch : asU64 c.pruneBatch = c.pruneBatch.toNat := by
  unfold asU64
  rw [Int.emod_eq_of_lt (by omega) (by omega)]

theorem stop_of_short {turn : Turn} {batch : Nat} (h : batch < c.pruneBatch.toNat) :
    c.stop turn batch = true := by
  unfold Config.stop
  rw [asU64_pruneBatch hbatch hrange]
  exact decide_eq_true (.inl h)

/-- The loop of a tick ends, and its first call alone takes a batch off the
backlog. -/
theorem finished_loop {reason : Job → Prop} (hdead : ∀ j, reason j → ¬ j.Live) {t : Tables}
    (start : Turn) : ∀ (turns : List Turn) (removed : Nat) (db : Db),
      Purged reason t db.toTables →
      (∀ turn ∈ turns, turn.failed = false ∧ (∀ j ∈ t.jobs, j.id ∈ turn.visit) ∧
        start.now ≤ turn.now ∧ ∀ j, t.Prunable (c.finished turn) j → reason j) →
      db.jobs.length < turns.length * c.pruneBatch.toNat →
      ∃ left, pruneUntil c.stop c.finished turns removed db = some left ∧
        Purged reason t left.db.toTables ∧
        Purged reason db.toTables left.db.toTables ∧
        backlog (c.finished start) left.db.toTables ≤
          backlog (c.finished start) db.toTables - c.pruneBatch.toNat
  | [], _, _, _, _, hlen => by simp at hlen
  | turn :: turns, removed, db, hpurged, hturns, hlen => by
    obtain ⟨⟨hok, hvisit, hclock, hreason⟩, hrest⟩ := List.forall_mem_cons.mp hturns
    obtain ⟨db', hcall, htables⟩ := pruneCall_eq (a := c.finished turn) db hok hbatch.le
    have hcount := length_prune db (c.finished turn)
    have hpurged' : Purged reason t db'.toTables := htables ▸ hpurged.prune hdead hreason
    have hstep : Purged reason db.toTables db'.toTables := by
      rw [htables]
      exact (Purged.refl _).prune hdead fun j hj => hreason j ((hpurged.prunable_iff hdead _ j).mp hj)
    have hless : backlog (c.finished start) db'.toTables ≤
        backlog (c.finished start) db.toTables - c.pruneBatch.toNat := by
      rw [htables]
      exact backlog_prune settled_finished (fun j hj => hvisit j (hpurged.sub.mem hj))
        (before_pruneStates _ _ _ _ hclock)
    unfold pruneUntil
    rw [hcall]
    simp only
    split
    next => exact ⟨_, rfl, hpurged', hstep, hless⟩
    next hgo =>
      have hfull : c.pruneBatch.toNat ≤ (db.victims (c.finished turn)).length :=
        not_lt.mp fun hshort => hgo (stop_of_short hbatch hrange hshort)
      rw [← htables] at hcount
      rw [List.length_cons, Nat.add_mul] at hlen
      obtain ⟨left, hrun, hleft, hfrom, hsmall⟩ := finished_loop hdead start turns
        (removed + (db.victims (c.finished turn)).length) db' hpurged' hrest (by omega)
      exact ⟨left, hrun, hleft, hstep.trans hfrom, by omega⟩

/-- **A tick of `retain` ends and takes a batch off each backlog**: the finished
rows always, the dead letters if the budget is not spent by then. -/
theorem retainTick_spec {reason : Job → Prop} (hdead : ∀ j, reason j → ¬ j.Live) {db₀ db : Db}
    (start : Turn) (tick : Tick) (hpurged : Purged reason db₀.toTables db.toTables)
    (hcalm : Calm c db₀ start tick)
    (hreason : ∀ j, (∃ turn ∈ tick.turns, db₀.Prunable (c.finished turn) j) ∨
      db₀.Prunable (c.dead tick.dead) j → reason j) :
    ∃ db', retainTick c tick db = some db' ∧ Purged reason db₀.toTables db'.toTables ∧
      backlog (c.finished start) db'.toTables ≤
        backlog (c.finished start) db.toTables - c.pruneBatch.toNat ∧
      backlog (c.dead start) db'.toTables ≤ backlog (c.dead start) db.toTables -
        if tick.checked ≤ tickBudget then c.pruneBatch.toNat else 0 := by
  obtain ⟨left, hrun, hleft, hfrom, hless⟩ := finished_loop hbatch hrange hdead start tick.turns 0 db
    hpurged (fun turn hturn => ⟨hcalm.ok turn (List.mem_cons_of_mem _ hturn),
      hcalm.visit turn (List.mem_cons_of_mem _ hturn), hcalm.clock turn (List.mem_cons_of_mem _ hturn),
      fun j hj => hreason j (.inl ⟨turn, hturn, hj⟩)⟩)
    (lt_of_le_of_lt hpurged.sub.length_le hcalm.enough)
  have hdeadLess := hfrom.backlog_le hdead (c.dead start)
  unfold retainTick
  rw [hrun]
  simp only
  have hkeep : ∀ (removed : Nat) (db' : Db), Purged reason db₀.toTables db'.toTables →
      Purged reason db₀.toTables (retainWorkflows tick removed db').toTables := by
    intro removed db' h
    have hjobs := retainWorkflows_jobs tick removed db'
    exact ⟨hjobs ▸ h.sub, hjobs ▸ h.gone⟩
  unfold retainDead
  split
  next hbudget =>
    obtain ⟨db', hcall, htables⟩ := pruneCall_eq (a := c.dead tick.dead) left.db
      (hcalm.ok tick.dead List.mem_cons_self) hbatch.le
    rw [hcall]
    have hpurged' : Purged reason db₀.toTables db'.toTables :=
      htables ▸ hleft.prune hdead fun j hj => hreason j (.inr hj)
    have hstep : Purged reason left.db.toTables db'.toTables := by
      rw [htables]
      exact (Purged.refl _).prune hdead fun j hj =>
        hreason j (.inr ((hleft.prunable_iff hdead _ j).mp hj))
    refine ⟨_, rfl, hkeep _ db' hpurged', ?_, ?_⟩
    · rw [backlog_congr (retainWorkflows_jobs tick _ db')]
      exact (hstep.backlog_le hdead _).trans hless
    · rw [backlog_congr (retainWorkflows_jobs tick _ db'), htables]
      refine (backlog_prune settled_dead (fun j hj => hcalm.visit tick.dead List.mem_cons_self j
        (hleft.sub.mem hj)) (before_pruneStates _ _ _ _ (hcalm.clock tick.dead List.mem_cons_self))).trans ?_
      exact Nat.sub_le_sub_right hdeadLess _
  next =>
    refine ⟨_, rfl, hkeep _ left.db hleft, ?_, ?_⟩
    · rw [backlog_congr (retainWorkflows_jobs tick _ left.db)]
      exact hless
    · rw [backlog_congr (retainWorkflows_jobs tick _ left.db)]
      exact hdeadLess

theorem retain_spec {reason : Job → Prop} (hdead : ∀ j, reason j → ¬ j.Live) {db₀ : Db}
    (start : Turn) : ∀ (ticks : List Tick) (db : Db), Purged reason db₀.toTables db.toTables →
      (∀ tick ∈ ticks, Calm c db₀ start tick) →
      (∀ j, Overdue c db₀.toTables ticks j → reason j) →
      ∃ db', retain c ticks db = some db' ∧ Purged reason db₀.toTables db'.toTables ∧
        backlog (c.finished start) db'.toTables ≤
          backlog (c.finished start) db.toTables - ticks.length * c.pruneBatch.toNat ∧
        backlog (c.dead start) db'.toTables ≤ backlog (c.dead start) db.toTables -
          (ticks.countP fun tick => tick.checked ≤ tickBudget) * c.pruneBatch.toNat
  | [], db, hpurged, _, _ => ⟨db, rfl, hpurged, by simp, by simp⟩
  | tick :: ticks, db, hpurged, hcalm, hreason => by
    obtain ⟨hfirst, hothers⟩ := List.forall_mem_cons.mp hcalm
    obtain ⟨db', htick, hpurged', hfin, hdl⟩ := retainTick_spec hbatch hrange hdead start tick hpurged
      hfirst fun j hj => hreason j ⟨tick, List.mem_cons_self, hj⟩
    obtain ⟨db'', hrun, hpurged'', hfin', hdl'⟩ := retain_spec hdead start ticks db' hpurged' hothers
      fun j hj => by
        obtain ⟨other, hmem, h⟩ := hj
        exact hreason j ⟨other, List.mem_cons_of_mem _ hmem, h⟩
    refine ⟨db'', ?_, hpurged'', ?_, ?_⟩
    · unfold retain
      rw [htick]
      exact hrun
    · rw [List.length_cons, Nat.add_mul]
      omega
    · rw [List.countP_cons, Nat.add_mul]
      by_cases hbudget : tick.checked ≤ tickBudget
      · rw [if_pos hbudget] at hdl
        rw [if_pos (decide_eq_true hbudget)]
        omega
      · rw [if_neg hbudget] at hdl
        rw [if_neg (by simpa using hbudget)]
        omega
end

/-- **Retention works a backlog off.** With nobody else at the table, every tick
of `retain` ends, however slow its calls are. Of the finished rows that were
overdue when counting started each tick takes a batch, of the dead letters each
tick whose budget is not spent does, until none is left; and nothing is deleted
that is not overdue by then. -/
theorem retain_works_off_backlog (c : Config) (hbatch : 0 < c.pruneBatch)
    (hrange : c.pruneBatch < 9223372036854775808) (db : Db) (start : Turn) (ticks : List Tick)
    (hcalm : ∀ tick ∈ ticks, Calm c db start tick) :
    ∃ db', retain c ticks db = some db' ∧
      backlog (c.finished start) db'.toTables ≤
        backlog (c.finished start) db.toTables - ticks.length * c.pruneBatch.toNat ∧
      backlog (c.dead start) db'.toTables ≤ backlog (c.dead start) db.toTables -
        (ticks.countP fun tick => tick.checked ≤ tickBudget) * c.pruneBatch.toNat ∧
      db'.jobs.Sublist db.jobs ∧
      ∀ j ∈ db.jobs, j ∉ db'.jobs → Overdue c db.toTables ticks j := by
  obtain ⟨db', hrun, hpurged, hfin, hdl⟩ := retain_spec hbatch hrange Overdue.not_live start ticks db
    (Purged.refl _) hcalm fun _ h => h
  exact ⟨db', hrun, hfin, hdl, hpurged.sub, hpurged.gone⟩

theorem retain_one_done : ∃ db',
    retain {} [{ turns := [laterCall], checked := 0, dead := laterCall }] (Db.after oneDone) = some db' ∧
      backlog (({} : Config).finished laterCall) db'.toTables = 0 := by
  have hvisit : ∀ j ∈ (Db.after oneDone).jobs, j.id ∈ laterCall.visit := by decide
  have hcalm : Calm {} (Db.after oneDone) laterCall
      { turns := [laterCall], checked := 0, dead := laterCall } := by
    refine ⟨?_, ?_, ?_, by decide⟩ <;> simp only [List.forall_mem_cons, List.not_mem_nil]
    · exact ⟨rfl, rfl, fun _ h => h.elim⟩
    · exact ⟨hvisit, hvisit, fun _ h => h.elim⟩
    · exact ⟨le_refl _, le_refl _, fun _ h => h.elim⟩
  obtain ⟨db', hrun, hfin, -⟩ := retain_works_off_backlog {} (by decide) (by decide) (Db.after oneDone)
    laterCall [{ turns := [laterCall], checked := 0, dead := laterCall }] (by simpa using hcalm)
  refine ⟨db', hrun, Nat.le_zero.mp (hfin.trans ?_)⟩
  decide

end Gylo.Store.Pruning
