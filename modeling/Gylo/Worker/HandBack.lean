import Gylo.Store.Fencing
import Gylo.Store.Reclaim
import Gylo.Worker.Moves

/-! # Handing back

`hand_back` returns what `InFlight` holds. A lease is a committed write; the
reservation follows several awaits later, at the end of the loop over the leased
jobs, and `session` drops `dispatch` wherever it is when the child exits. What is
leased in between belongs to nobody. -/
namespace Gylo.Worker.Session

open Gylo.Store Gylo.Store.FetchCall Gylo.Wire Runs

/-- When a failed session is about to be handed back, every row this worker holds is
in flight. -/
def HandsBack (cfg : Settings) (s : Supervisor) : Prop :=
  s.phase = .failed → ∀ id, Held s.db cfg.worker id → id ∈ s.inflight.ids

/-! ## Which rows the worker holds -/

section
variable {db db' : Db} {w : Uuid} {id : JobId} {stmt : Stmt}

theorem held_run (hrun : db.run stmt = .ok db') (hs : ∀ j, ¬ stmt.Leases j) (h : Held db' w id) :
    Held db w id := by
  obtain ⟨k, hk, hid, hlock, hstate⟩ := h
  have hform := Stmt.effect_form db.ids_nodup (Db.run_ok hrun)
  obtain ⟨j, hj, hsame, hrunning, hlocked, -⟩ := Fencing.running_of_form hs hform hk hstate
  exact ⟨j, hj, hsame.symm.trans hid, hlocked ▸ hlock, hrunning⟩

theorem held_exec (hs : ∀ j, ¬ stmt.Leases j) (h : Held (db.exec stmt) w id) : Held db w id := by
  unfold Db.exec at h
  split at h
  · next db' hrun => exact held_run hrun hs h
  · exact h

/-- A fetch takes what it chose, for its own worker. -/
theorem held_lease {a : Fetch} {chosen : List Job}
    (hjobs : db'.jobs = db.jobs.map (leaseRow a (chosen.map Job.id))) (h : Held db' w id) :
    Held db w id ∨ a.worker = w ∧ id ∈ chosen.map Job.id := by
  obtain ⟨k, hk, hid, hheld⟩ := h
  rw [hjobs] at hk
  obtain ⟨j, hj, rfl⟩ := List.mem_map.mp hk
  rw [(leaseRow_same _ _ j).id] at hid
  unfold leaseRow at hheld
  split at hheld
  · next hchosen => exact .inr ⟨Option.some.inj hheld.1, hid ▸ hchosen⟩
  · exact .inl ⟨j, hj, hid, hheld⟩

/-- Statements of other workers give this one nothing. -/
theorem held_outside (hother : actsFor stmt ≠ some w) (h : Held (db.exec stmt) w id) : Held db w id := by
  unfold Db.exec at h
  split at h
  · next db' hrun =>
    cases stmt with
    | fetchUnkeyed a =>
      have hjobs := congrArg Tables.jobs (Stmt.effect_eq_mapJobs rfl (Db.run_ok hrun))
      exact (held_lease hjobs h).resolve_right fun hmine => hother (congrArg some hmine.1)
    | fetchKeyed a =>
      have hjobs := congrArg Tables.jobs (Stmt.effect_eq_mapJobs rfl (Db.run_ok hrun))
      exact (held_lease hjobs h).resolve_right fun hmine => hother (congrArg some hmine.1)
    | _ => exact held_run hrun (fun _ hleases => hleases) h
  · exact h

/-- What is returned names every row that was chosen. -/
theorem mem_returning {chosen : List Job} (hsub : ∀ j ∈ chosen, ∃ k ∈ db'.jobs, k.id = j.id)
    (h : id ∈ chosen.map Job.id) : id ∈ (returning db'.toTables chosen).map LeasedJob.id := by
  obtain ⟨j, hj, rfl⟩ := List.mem_map.mp h
  obtain ⟨k, hk, hid⟩ := hsub j hj
  refine List.mem_map.mpr ⟨jobFrom k, List.mem_map.mpr ⟨k, List.mem_filterMap.mpr ⟨j, hj, ?_⟩, rfl⟩, hid⟩
  exact db'.job?_eq_some.mpr ⟨hk, hid⟩

theorem exists_leased {a : Fetch} {chosen : List Job}
    (hjobs : db'.jobs = db.jobs.map (leaseRow a (chosen.map Job.id))) (hsub : ∀ j ∈ chosen, j ∈ db.jobs) :
    ∀ j ∈ chosen, ∃ k ∈ db'.jobs, k.id = j.id := fun j hj =>
  ⟨_, hjobs ▸ List.mem_map_of_mem (hsub j hj), (leaseRow_same _ _ j).id⟩

/-- A reclaim that succeeds leaves no row it listed. -/
theorem held_reclaim {limit : Int} {visit : List JobId} {now : Time}
    (hrun : db.run (.reclaim limit visit now) = .ok db') (h : Held db' w id) :
    Held db w id ∧ id ∉ (db.expired limit visit now).map Expired.id := by
  have hjobs : db'.jobs = db.jobs.map (reclaimRow (db.expired limit visit now) now) :=
    congrArg Tables.jobs (Stmt.effect_eq_mapJobs rfl (Db.run_ok hrun))
  obtain ⟨k, hk, hid, hheld⟩ := h
  rw [hjobs] at hk
  obtain ⟨j, hj, rfl⟩ := List.mem_map.mp hk
  rw [Reclaim.reclaimRow_id] at hid
  unfold reclaimRow at hheld
  split at hheld
  · split at hheld
    · split at hheld <;> cases hheld.2
    · next hnot => exact absurd hheld.2 hnot
  · next hnone =>
    refine ⟨⟨j, hj, hid, hheld⟩, fun hmem => ?_⟩
    obtain ⟨e, he, heid⟩ := List.mem_map.mp hmem
    exact of_decide_eq_false (Bool.eq_false_iff.mpr (List.find?_eq_none.mp hnone e he)) (heid.trans hid.symm)

/-- One that lists all the worker's rows leaves it none. -/
theorem not_held_of_reclaim {limit : Int} {visit : List JobId} {now : Time}
    (hrun : db.run (.reclaim limit visit now) = .ok db')
    (hlisted : ∀ j ∈ db.jobs, j.HeldBy w → j.id ∈ (db.expired limit visit now).map Expired.id)
    (id : JobId) : ¬ Held db' w id := by
  intro hheld
  obtain ⟨⟨j, hj, hid, hmine⟩, hnot⟩ := held_reclaim hrun hheld
  exact hnot (hid ▸ hlisted j hj hmine)
end

/-! ## Leased and not yet in flight -/

/-- The leases `dispatch` has in hand. -/
def Dispatch.owned : Dispatch → List JobId
  | .admitting _ jobs => jobs.map LeasedJob.id
  | .packing todo _ reserved => todo.map LeasedJob.id ++ reserved
  | .discarding id _ todo _ reserved => id :: (todo.map LeasedJob.id ++ reserved)
  | _ => []

/-- The ids of the calls a flush has made. -/
def settledBefore (p : Pending) : FlushStage → List JobId
  | .completed => []
  | .withResult => p.completed
  | .retry => p.completed ++ p.withResult.map Prod.fst
  | .terminal => p.completed ++ p.withResult.map Prod.fst ++ p.retry.map Prod.fst
  | .releasing => p.settled

/-- A fetch that leases nothing of a batch in the middle of its flush. -/
def Spares (s : Supervisor) (chosen : List Job) : Prop :=
  match s.collector with
  | .flushing _ _ => ∀ j ∈ chosen, j.id ∉ s.pending.settled
  | _ => True

/-- The child's exit is met with no lease in hand; no fetch loses the answer to its
commit, nor fails once its first pass has leased something; reports and the discard
of an unencodable job succeed; and `hand_back` gets every row released. -/
def Accounts (cfg : Settings) (s : Supervisor) : Act → Prop
  | .dispatch (.fetchUnkeyed skip commit) => match s.dispatch with
    | .fetching limit => commit ≠ .lost ∧
        Spares s (s.db.lockedUnkeyed (unkeyedArgs (call cfg limit) (meets s skip)))
    | _ => True
  | .dispatch (.fetchKeyed skip commit) => match s.dispatch with
    | .admitting limit jobs => commit ≠ .lost ∧
        Spares s (s.db.admitted (keyedArgs (call cfg limit) (meets s skip) jobs.length) s.db.toTables) ∧
        (jobs = [] ∨ commit = .ok ∧
          (s.db.run (.fetchKeyed (keyedArgs (call cfg limit) (meets s skip) jobs.length))).isOk)
    | _ => True
  | .dispatch (.discard fails) => match s.dispatch with
    | .discarding id error _ _ _ => Lands fails (.discardMany [(id, error)] cfg.worker s.now) s.db
    | _ => True
  | .collect (.flush random fails) => match s.collector with
    | .flushing stage _ => ∀ stmt ∈ flushStmt cfg s random stage, stmt.reported = [] ∨ Lands fails stmt s.db
    | _ => True
  | .session .exited => s.phase = .serving → s.alive = false → s.dispatch.owned = []
  | .session (.abandon fails) => fails = false
  | .session (.reclaim visit fails) => s.phase = .reclaiming →
      Lands fails (.reclaim cfg.reclaimLimit visit s.now) s.db ∧
      ∀ j ∈ s.db.jobs, j.HeldBy cfg.worker →
        j.id ∈ (s.db.expired cfg.reclaimLimit visit s.now).map Expired.id
  | _ => True

/-- The phases in which what is held has been taken out of `InFlight`. -/
def Phase.handingBack : Phase → Bool
  | .abandoning _ | .reclaiming => true
  | _ => false

/-- Every row this worker holds is in flight or in the hands of `dispatch`, until
`hand_back` takes them; a flush leaves none of its batch behind; and outside a
session `dispatch` has nothing. -/
structure Accounted (cfg : Settings) (s : Supervisor) : Prop where
  held : s.phase.handingBack = false → ∀ id, Held s.db cfg.worker id →
    id ∈ s.inflight.ids ∨ id ∈ s.dispatch.owned
  settled : ∀ stage final, s.collector = .flushing stage final → ∀ id ∈ settledBefore s.pending stage,
    ¬ Held s.db cfg.worker id
  rest : s.phase ≠ .serving → s.dispatch.owned = []

section
variable {cfg : Settings} {serde : Serde} {s s' : Supervisor}

theorem Accounted.handsBack (h : Accounted cfg s) : HandsBack cfg s := by
  intro hfailed id hheld
  have hrest := h.rest fun hserving => by cases hfailed.symm.trans hserving
  rcases h.held (by rw [hfailed]; rfl) id hheld with hin | howned
  · exact hin
  · rw [hrest] at howned
    cases howned

/-- Steps that lease nothing and let nothing go. -/
theorem Accounted.of_le (h : Accounted cfg s)
    (hdb : ∀ id, Held s'.db cfg.worker id → Held s.db cfg.worker id)
    (hphase : s'.phase = s.phase) (hinflight : s'.inflight = s.inflight) (hdispatch : s'.dispatch = s.dispatch)
    (hflush : ∀ stage final, s'.collector = .flushing stage final → s'.pending = s.pending ∧
      (s.collector = .flushing stage final ∨ stage = .completed)) : Accounted cfg s' := by
  refine ⟨?_, fun stage final hstage id hid hheld => ?_, ?_⟩
  · rw [hphase, hdispatch, hinflight]
    exact fun hnot id hheld => h.held hnot id (hdb id hheld)
  · obtain ⟨hpending, hsame | hfirst⟩ := hflush stage final hstage
    · rw [hpending] at hid
      exact h.settled stage final hsame id hid (hdb id hheld)
    · subst hfirst
      cases hid
  · rw [hphase, hdispatch]
    exact h.rest

/-! ## The collector's part -/

theorem settledBefore_next (random : JobId → Nat) {stage : FlushStage} {stmt : Stmt}
    (h : flushStmt cfg s random stage = some stmt) :
    stmt.reporter = some cfg.worker ∧ ∀ id ∈ settledBefore s.pending stage.next,
      id ∈ settledBefore s.pending stage ∨ id ∈ stmt.reported := by
  cases stage with
  | completed =>
    cases h
    refine ⟨rfl, fun id hid => .inr ?_⟩
    rw [reported_completeMany]
    exact hid
  | withResult =>
    cases h
    refine ⟨rfl, fun id hid => ?_⟩
    rw [reported_completeManyWithResults]
    exact List.mem_append.mp hid
  | retry =>
    cases h
    exact ⟨rfl, fun id hid => List.mem_append.mp hid⟩
  | terminal =>
    cases h
    exact ⟨rfl, fun id hid => List.mem_append.mp hid⟩
  | releasing => cases h

/-- A call of a flush leaves the worker none of the rows it lists. -/
theorem Accounted.called (h : Accounted cfg s) {random : JobId → Nat} {fails : Bool} {stage : FlushStage}
    {final : Bool} {stmt : Stmt} (hat : s.collector = .flushing stage final)
    (hstmt : flushStmt cfg s random stage = some stmt)
    (ha : ∀ stmt ∈ flushStmt cfg s random stage, stmt.reported = [] ∨ Lands fails stmt s.db) :
    Accounted cfg { s with db := issue fails stmt s.db, collector := .flushing stage.next final } := by
  obtain ⟨hreporter, hnext⟩ := settledBefore_next random hstmt
  have hdb : ∀ id, Held (issue fails stmt s.db) cfg.worker id → Held s.db cfg.worker id :=
    fun id hheld => ((held_issue hreporter fails id).mp hheld).1
  refine ⟨fun hnot id hheld => h.held hnot id (hdb id hheld),
    fun stage' final' hstage id hid hheld => ?_, h.rest⟩
  cases hstage
  rcases hnext id hid with hbefore | hnow
  · exact h.settled stage final hat id hbefore (hdb id hheld)
  · rcases ha stmt hstmt with hnone | hlands
    · rw [hnone] at hnow
      cases hnow
    · exact ((held_issue hreporter fails id).mp hheld).2 ⟨hlands, hnow⟩

/-- What a flush releases the worker does not hold. -/
theorem Accounted.released (h : Accounted cfg s) {final : Bool}
    (hat : s.collector = .flushing .releasing final) :
    Accounted cfg
      { s with
        inflight := s.inflight.release s.pending.settled
        pending := {}
        deadline := none
        collector := afterFlush final } := by
  refine ⟨fun hnot id hheld => ?_, fun stage' final' hstage => ?_, h.rest⟩
  · refine (h.held hnot id hheld).imp_left fun hin => ?_
    refine Finset.mem_sdiff.mpr ⟨hin, fun hmem => ?_⟩
    exact h.settled _ final hat id (List.mem_toFinset.mp hmem) hheld
  · cases final <;> cases hstage

theorem CollectMove.accounted {a : CollectAct} {stmt : Option Stmt} (hmove : CollectMove cfg serde s a stmt s')
    (h : Accounted cfg s) (ha : Accounts cfg s (.collect a)) : Accounted cfg s' := by
  have hnot : s.collector = .decoding → ∀ {stage final}, s.collector ≠ .flushing stage final :=
    fun hd _ _ hf => by cases hd.symm.trans hf
  cases hmove with
  | stays => exact h
  | @nothing _ final => exact h.of_le (fun _ => id) rfl rfl rfl fun stage final' hf => by cases final <;> cases hf
  | flushes =>
    refine h.of_le (fun _ => id) rfl rfl rfl fun stage final' hf => ?_
    cases hf
    exact ⟨rfl, .inr rfl⟩
  | hears hat | skips hat => exact h.of_le (fun _ => id) rfl rfl rfl fun _ _ hf => absurd hf (hnot hat)
  | recorded hat hrun =>
    exact h.of_le (fun _ => held_run hrun (fun _ => id)) rfl rfl rfl fun _ _ hf => by cases hf
  | calls hat hstmt =>
    simp only [Accounts, hat] at ha
    exact h.called hat hstmt ha
  | releases hat => exact h.released hat
  | reads | drains | records | recordFails | recordRefused | unheard | sends =>
    exact h.of_le (fun _ hheld => hheld) rfl rfl rfl fun _ _ hf => by cases hf

/-! ## The part of `dispatch` -/

theorem settledBefore_subset (p : Pending) (stage : FlushStage) : settledBefore p stage ⊆ p.settled := by
  intro id hid
  unfold Pending.settled
  cases stage <;> simp only [settledBefore, Pending.settled, List.mem_append, List.not_mem_nil] at hid ⊢ <;> tauto

/-- While the session is served, what is held may move between `InFlight` and
`dispatch`. -/
theorem Accounted.of_moved (h : Accounted cfg s) (hserving : s.phase = .serving) (hphase : s'.phase = s.phase)
    (hcollector : s'.collector = s.collector) (hpending : s'.pending = s.pending)
    (hdb : ∀ id, Held s'.db cfg.worker id → Held s.db cfg.worker id)
    (hmoved : ∀ id, Held s'.db cfg.worker id → id ∈ s.inflight.ids ∨ id ∈ s.dispatch.owned →
      id ∈ s'.inflight.ids ∨ id ∈ s'.dispatch.owned) : Accounted cfg s' := by
  refine ⟨fun _ id hheld => hmoved id hheld ?_, ?_, fun hnot => absurd (hphase.trans hserving) hnot⟩
  · exact h.held (by rw [hserving]; rfl) id (hdb id hheld)
  · rw [hcollector, hpending]
    exact fun stage final hf id hid hheld => h.settled stage final hf id hid (hdb id hheld)

/-- What a fetch leases goes into the hands of `dispatch`. -/
theorem Accounted.of_lease (h : Accounted cfg s) (hserving : s.phase = .serving) {db' : Db} {a : Fetch}
    {chosen : List Job} (hjobs : db'.jobs = s.db.jobs.map (leaseRow a (chosen.map Job.id)))
    (hspares : Spares s chosen) {d : Dispatch} (hold : s.dispatch.owned ⊆ d.owned)
    (hnew : chosen.map Job.id ⊆ d.owned) : Accounted cfg { s with db := db', dispatch := d } := by
  refine ⟨fun _ id hheld => ?_, fun stage final hf id hid hheld => ?_, fun hnot => absurd hserving hnot⟩
  · rcases held_lease hjobs hheld with hbefore | ⟨-, hchosen⟩
    · exact (h.held (by rw [hserving]; rfl) id hbefore).imp_right fun howned => hold howned
    · exact .inr (hnew hchosen)
  · rcases held_lease hjobs hheld with hbefore | ⟨-, hchosen⟩
    · exact h.settled stage final hf id hid hbefore
    · obtain ⟨j, hj, rfl⟩ := List.mem_map.mp hchosen
      have hflushing : s.collector = .flushing stage final := hf
      unfold Spares at hspares
      rw [hflushing] at hspares
      exact hspares j hj (settledBefore_subset _ stage hid)

theorem mem_owned_fetched {jobs : List LeasedJob} {id : JobId} (h : id ∈ jobs.map LeasedJob.id) :
    id ∈ (fetched jobs).owned := by
  unfold fetched
  split
  · next hnil =>
    rw [hnil] at h
    cases h
  · exact List.mem_append_left _ h

theorem mem_owned_afterUnkeyed {limit : Int} {jobs : List LeasedJob} {id : JobId}
    (h : id ∈ jobs.map LeasedJob.id) : id ∈ (afterUnkeyed cfg s limit jobs).owned := by
  unfold afterUnkeyed
  split
  · next hnil =>
    rw [hnil] at h
    cases h
  · split
    · exact h
    · exact List.mem_append_left _ h

/-- The row of a job that does not fit a frame is discarded. -/
theorem discard_accounted {id : JobId} {error : String} {todo : List LeasedJob}
    {buf : List Message} {reserved : List JobId} (h : Accounted cfg s) (hserving : s.phase = .serving)
    (hdiscarding : s.dispatch = .discarding id error todo buf reserved)
    (hlands : Lands false (.discardMany [(id, error)] cfg.worker s.now) s.db) :
    Accounted cfg
      { s with
        db := s.db.exec (.discardMany [(id, error)] cfg.worker s.now)
        dispatch := .packing todo buf reserved } := by
  have hissue : s.db.exec (.discardMany [(id, error)] cfg.worker s.now) =
      issue false (.discardMany [(id, error)] cfg.worker s.now) s.db := by
    simp [issue, Stmt.reported]
  rw [hissue]
  have hheld : ∀ i, Held (issue false (.discardMany [(id, error)] cfg.worker s.now) s.db) cfg.worker i →
      Held s.db cfg.worker i ∧ i ≠ id := by
    intro i hi
    obtain ⟨hbefore, hnot⟩ := (held_issue rfl false i).mp hi
    exact ⟨hbefore, fun hsame => hnot ⟨hlands, by simp [Stmt.reported, hsame]⟩⟩
  refine h.of_moved hserving rfl rfl rfl (fun i hi => (hheld i hi).1) fun i hi hin => hin.imp_right fun hmem => ?_
  rw [hdiscarding] at hmem
  exact (List.mem_cons.mp hmem).resolve_left (hheld i hi).2

/-- Between its statements, `dispatch` keeps what it has in hand. -/
theorem Turns.owned {a : DispatchAct} {d : Dispatch} (h : Turns cfg s a d) :
    d.owned.Perm s.dispatch.owned := by
  have hnone : ∀ {d' : Dispatch}, s.dispatch = d' → d'.owned = [] → d.owned = [] →
      d.owned.Perm s.dispatch.owned := fun hd hn hn' => by rw [hd, hn, hn']
  cases h with
  | closed hat | wakes hat => rcases hat with hat | hat <;> exact hnone hat rfl rfl
  | @packs fails job todo buf reserved hat hencode =>
    -- the job moves from those to pack to those packed
    have howned : s.dispatch.owned = (job :: todo).map LeasedJob.id ++ reserved := by rw [hat]; rfl
    show (todo.map LeasedJob.id ++ (reserved ++ [job.id])).Perm s.dispatch.owned
    rw [howned, List.map_cons, ← List.append_assoc, List.cons_append]
    exact List.perm_append_singleton _ _
  | refuses hat =>
    rw [hat]
    exact .refl _
  | _ => exact hnone ‹s.dispatch = _› rfl rfl

theorem DispatchMove.accounted {a : DispatchAct} {stmt : Option Stmt} (hmove : DispatchMove cfg s a stmt s')
    (h : Accounted cfg s) (hserving : s.phase = .serving) (ha : Accounts cfg s (.dispatch a)) :
    Accounted cfg s' := by
  -- `dispatch` goes on with nothing in hand, and had nothing
  have hfree : ∀ {s' : Supervisor}, s.dispatch.owned = [] → s'.phase = s.phase → s'.collector = s.collector →
      s'.pending = s.pending → s'.db = s.db → s'.inflight = s.inflight → Accounted cfg s' := by
    intro s' hnone hphase hcollector hpending hdb hinflight
    refine h.of_moved hserving hphase hcollector hpending (fun _ hheld => hdb ▸ hheld) fun id _ hin => .inl ?_
    rw [hnone] at hin
    rw [hinflight]
    exact hin.resolve_right fun hmem => by cases hmem
  have hat : ∀ {d : Dispatch}, s.dispatch = d → d.owned = [] → s.dispatch.owned = [] := fun hd hn => hd ▸ hn
  cases hmove with
  | stays => exact h
  | ends he =>
    refine hfree ?_ rfl rfl rfl rfl rfl
    cases he with
    | told hd => rcases hd with hd | hd | hd <;> exact hat hd rfl
    | _ => exact hat ‹s.dispatch = _› rfl
  | turns ht =>
    refine h.of_moved hserving rfl rfl rfl (fun _ hheld => hheld) fun id _ hin => hin.imp_right fun hmem => ?_
    exact ht.owned.mem_iff.mpr hmem
  | fetchFails hf =>
    refine hfree ?_ rfl rfl rfl rfl rfl
    cases hf with
    | keyed hd =>
      simp only [Accounts, hd] at ha
      rcases ha.2.2 with hnil | ⟨hcommit, -⟩
      · exact hat hd (by rw [hnil]; rfl)
      · cases hcommit
    | keyedRefused hd hcommit hrun =>
      simp only [Accounts, hd, hrun] at ha
      rcases ha.2.2 with hnil | ⟨-, hok⟩
      · exact hat hd (by rw [hnil]; rfl)
      · cases hok
    | _ => exact hat ‹s.dispatch = _› rfl
  | receives hr =>
    refine hfree ?_ rfl rfl rfl rfl rfl
    rcases hr with ⟨hd, -⟩ | ⟨hd | hd, -⟩ <;> exact hat hd rfl
  | forwards hd | writes hd => exact hfree (hat hd rfl) rfl rfl rfl rfl rfl
  | unkeyed hd hrun =>
    simp only [Accounts, hd] at ha
    have hjobs := congrArg Tables.jobs (first_pass hrun).1
    refine h.of_lease hserving hjobs ha.2 (by rw [hat hd rfl]; exact List.nil_subset _) fun id hid => ?_
    exact mem_owned_afterUnkeyed (mem_returning (exists_leased hjobs fun j hj => (mem_lockedUnkeyed hj).1) hid)
  | unkeyedLost hd =>
    simp only [Accounts, hd] at ha
    exact absurd rfl ha.1
  | keyed hd hrun =>
    simp only [Accounts, hd] at ha
    have hjobs := congrArg Tables.jobs (Stmt.effect_eq_mapJobs rfl (Db.run_ok hrun))
    refine h.of_lease hserving hjobs ha.2.1 (fun id hid => ?_) fun id hid => ?_
    · rw [hd] at hid
      refine mem_owned_fetched ?_
      rw [List.map_append]
      exact List.mem_append_left _ hid
    · refine mem_owned_fetched ?_
      rw [List.map_append]
      refine List.mem_append_right _ (mem_returning (exists_leased hjobs fun j hj => ?_) hid)
      exact (mem_jobs_of_admitted hj).1
  | keyedLost hd =>
    simp only [Accounts, hd] at ha
    exact absurd rfl ha.1
  | reserves hd =>
    refine h.of_moved hserving rfl rfl rfl (fun _ hheld => hheld) fun id _ hin => .inl ?_
    refine Finset.mem_union.mpr (hin.imp_right fun hmem => ?_)
    rw [hd] at hmem
    exact List.mem_toFinset.mpr hmem
  | discards hd =>
    simp only [Accounts, hd] at ha
    exact discard_accounted h hserving hd ha
  | discardFails hd =>
    simp only [Accounts, hd] at ha
    cases ha.1

/-! ## The part of `supervise` -/

/-- With nothing in the hands of `dispatch`, everything held is in flight. -/
theorem Accounted.inflight (h : Accounted cfg s) {phase : Phase} (hphase : s.phase = phase)
    (hnot : phase.handingBack = false) (hrest : s.dispatch.owned = []) {id : JobId}
    (hheld : Held s.db cfg.worker id) : id ∈ s.inflight.ids := by
  subst hphase
  have hcases := h.held hnot id hheld
  rw [hrest] at hcases
  exact hcases.resolve_right fun hmem => by cases hmem

/-- From one phase to another, with nothing in the hands of `dispatch`. -/
theorem Accounted.into (h : Accounted cfg s) {phase : Phase} (hphase : s.phase = phase)
    (hnot : phase.handingBack = false) (hrest : s.dispatch.owned = []) (hdb : s'.db = s.db)
    (hinflight : s'.inflight = s.inflight) (hrest' : s'.dispatch.owned = [])
    (hflush : ∀ stage final, s'.collector = .flushing stage final →
      s.collector = .flushing stage final ∧ s'.pending = s.pending) : Accounted cfg s' := by
  refine ⟨fun _ id hheld => .inl ?_, fun stage final hf id hid hheld => ?_, fun _ => hrest'⟩
  · rw [hdb] at hheld
    rw [hinflight]
    exact h.inflight hphase hnot hrest hheld
  · obtain ⟨hbefore, hpending⟩ := hflush stage final hf
    rw [hpending] at hid
    rw [hdb] at hheld
    exact h.settled stage final hbefore id hid hheld

/-- From a phase in which `dispatch` does not run to another, with the tasks as they were. -/
theorem Accounted.pass (h : Accounted cfg s) {phase : Phase} (hphase : s.phase = phase)
    (hnot : phase.handingBack = false) (hne : phase ≠ .serving) (hdb : s'.db = s.db)
    (hinflight : s'.inflight = s.inflight) (hdispatch : s'.dispatch = s.dispatch)
    (hcollector : s'.collector = s.collector) (hpending : s'.pending = s.pending) :
    Accounted cfg s' := by
  have hnone : s.dispatch.owned = [] := h.rest fun hserving => hne (hphase.symm.trans hserving)
  refine h.into hphase hnot hnone hdb hinflight (by rw [hdispatch]; exact hnone) fun _ _ hf => ?_
  rw [hcollector] at hf
  exact ⟨hf, hpending⟩

theorem Finishes.accounted {a : SessionAct} (hf : Finishes cfg s a) (h : Accounted cfg s) :
    Accounted cfg (finish s) := by
  cases hf <;> exact h.pass ‹s.phase = _› rfl (fun hp => by cases hp) rfl rfl rfl rfl rfl

theorem SessionMove.accounted {a : SessionAct} {stmt : Option Stmt} (hmove : SessionMove cfg s a stmt s')
    (h : Accounted cfg s) (ha : Accounts cfg s (.session a)) : Accounted cfg s' := by
  have hrest : ∀ {phase : Phase}, s.phase = phase → phase ≠ .serving → s.dispatch.owned = [] :=
    fun hphase hne => h.rest fun hserving => hne (hphase.symm.trans hserving)
  cases hmove with
  | stays => exact h
  | finishes hf => exact hf.accounted h
  | opens hat | accepts hat =>
    exact h.into hat rfl (hrest hat fun hp => by cases hp) rfl rfl rfl fun _ _ hf => by cases hf
  | exits hat hdead => exact h.into hat rfl (ha hat hdead) rfl rfl rfl fun _ _ hf => ⟨hf, rfl⟩
  | leaves hat hdone =>
    have hnone : s.dispatch.owned = [] := by rw [hdone]; rfl
    exact h.into hat rfl hnone rfl rfl hnone fun _ _ hf => ⟨hf, rfl⟩
  | takes hat =>
    exact ⟨(fun hnot => by cases hnot), h.settled, fun _ => hrest hat fun hp => by cases hp⟩
  | abandonFails => cases ha
  | abandons hat =>
    exact ⟨(fun hnot => by cases hnot),
      fun stage final hf i hi hheld => h.settled stage final hf i hi (held_exec (fun _ => id) hheld),
      fun _ => hrest hat fun hp => by cases hp⟩
  | reclaimFails hat => cases (ha hat).1.1
  | reclaims hat =>
    obtain ⟨⟨-, db', hrun⟩, hlisted⟩ := ha hat
    have hnone := not_held_of_reclaim hrun hlisted
    rw [Db.exec_of_run hrun]
    exact ⟨fun _ i hheld => absurd hheld (hnone i), fun _ _ _ i _ => hnone i,
      fun _ => hrest hat fun hp => by cases hp⟩
  | shutdown | kills => exact ⟨h.held, h.settled, h.rest⟩
  | spawnFails | refuses | drains | breaks | spares | restarts =>
    exact h.pass ‹s.phase = _› rfl (fun hp => by cases hp) rfl rfl rfl rfl rfl

theorem Move.accounted {a : Act} {stmt : Option Stmt} (hmove : Move cfg serde s a stmt s') (h : Accounted cfg s)
    (ha : Accounts cfg s a) : Accounted cfg s' := by
  cases hmove with
  | dispatch hserving hmove => exact hmove.accounted h hserving ha
  | collect hmove => exact hmove.accounted h ha
  | session hmove => exact hmove.accounted h ha
  | renew hmove =>
    cases hmove with
    | executes =>
      exact h.of_le (fun i hheld => held_exec (fun _ => id) hheld) rfl rfl rfl fun _ _ hf => ⟨rfl, .inl hf⟩
    | _ => exact ⟨h.held, h.settled, h.rest⟩
  | child hmove => cases hmove <;> exact ⟨h.held, h.settled, h.rest⟩
  | outside hother =>
    exact h.of_le (fun i hheld => held_outside hother hheld) rfl rfl rfl fun _ _ hf => ⟨rfl, .inl hf⟩
  | stays | tick => exact ⟨h.held, h.settled, h.rest⟩
end

/-- **A failed session hands back everything it leased**, in every run of `supervise`
in which the child's exit never finds `dispatch` with a lease in hand, no lease is
made that `dispatch` does not hear of, reports and discards succeed and spare what
is leased meanwhile, and each `hand_back` before gets its rows released. -/
theorem failed_session_hands_back (cfg : Settings) (serde : Serde) (db : Db)
    (hfresh : ∀ j ∈ db.jobs, j.lockedBy ≠ some cfg.worker) (as : List Act)
    (h : Along (step cfg serde) (Accounts cfg) (initial db) as) :
    HandsBack cfg (run (step cfg serde) (initial db) as) := by
  have hnone : ∀ id, ¬ Held (initial db).db cfg.worker id := by
    intro id hheld
    obtain ⟨j, hj, -, hmine⟩ := hheld
    exact hfresh j hj hmine.1
  have hkeep : ∀ s a, Accounted cfg s → Accounts cfg s a → Accounted cfg (step cfg serde s a) :=
    fun s a hs ha => (step_move cfg serde s a).accounted hs ha
  have hinitial : Accounted cfg (initial db) :=
    ⟨fun _ id hheld => absurd hheld (hnone id), fun _ _ _ id _ => hnone id, fun _ => rfl⟩
  exact (Along.inv hkeep as hinitial h).handsBack

/-- The child exits, and the session ends with an error. -/
def childExits : List Act := [.child .exit, .session .exited, .collect .eof, .session .finished]

def afterFailure : Supervisor :=
  run (step { worker := 7 } Serde.messagePack) (initial oneWaiting) (firstDispatch ++ childExits)

theorem failed_session_hands_back_dispatched :
    afterFailure.phase = .failed ∧ Held afterFailure.db 7 1 ∧ HandsBack { worker := 7 } afterFailure := by
  refine ⟨by decide, by decide, failed_session_hands_back _ _ _ (by decide) _ ?_⟩
  exact ⟨trivial, trivial, trivial, trivial, ⟨(fun hlost => by cases hlost), trivial⟩, trivial, trivial, trivial,
    trivial, fun _ _ => rfl, trivial, trivial, trivial⟩

/-- The child exits between the fetch and the end of the loop over what it returned. -/
def afterEarlyExit : Supervisor :=
  run (step { worker := 7 } Serde.messagePack) (initial oneWaiting) (firstDispatch.take 5 ++ childExits)

/-- The worker holds the row, and `InFlight` is empty. -/
theorem failed_session_keeps_lease :
    afterEarlyExit.phase = .failed ∧ Held afterEarlyExit.db 7 1 ∧ afterEarlyExit.inflight.ids = ∅ := by
  decide

end Gylo.Worker.Session
