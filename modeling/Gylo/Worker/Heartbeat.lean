import Gylo.Worker.HandBack
import Gylo.Worker.Renewal

/-! # Leases outlast the heartbeat

`renew` extends what is in flight once in a maintenance interval, for a lease that
`validate` asks to be longer. Between the fetch and the reservation a lease is in
nobody's care but the clock's; from there on it is never within a heartbeat of
running out, so no reclaim finds it, and the row stays with this worker until the
collector reports it. -/
namespace Gylo.Worker.Session

open Gylo.Store Gylo.Store.FetchCall Gylo.Store.Holding Gylo.Wire Runs

/-! ## Leases in hand and in flight -/

/-- The jobs whose outcome the flush under way has already sent. -/
def reporting (s : Supervisor) : List JobId :=
  match s.collector with
  | .flushing stage _ => settledBefore s.pending stage
  | _ => []

/-- From the beginning of one round of `renew` to the end of the next. -/
def period (cfg : Settings) (margin : Nat) : Time := cfg.maintenanceInterval + 2 * margin

/-- What `dispatch` has in hand is leased for another period, what is in flight until
the next round is over, unless its outcome has been sent. The rest is what makes this
inductive. -/
structure Beating (cfg : Settings) (margin : Nat) (s : Supervisor) : Prop where
  inflight : ∀ id ∈ s.inflight.ids, id ∈ reporting s ∨
    LeasedUntil s.db cfg.worker id (lastRound cfg margin s id + period cfg margin)
  owned : ∀ id ∈ s.dispatch.owned, LeasedUntil s.db cfg.worker id (s.now + period cfg margin)
  nodup : s.dispatch.owned.Nodup
  apart : ∀ id ∈ s.dispatch.owned, id ∈ s.inflight.ids → id ∈ reporting s
  rest : s.phase ≠ .serving → s.dispatch.owned = []

/-- `dispatch` gets through the loop over the jobs it leased while their leases are
good for another period; the child reports no job it has not been given; and nobody's
reclaim reads a clock that is ahead. -/
def Careful (cfg : Settings) (margin : Nat) (s : Supervisor) : Act → Prop
  | .tick d => ∀ id ∈ s.dispatch.owned,
      LeasedUntil s.db cfg.worker id (s.now + d + period cfg margin)
  | .collect (.flush random _) => match s.collector with
    | .flushing stage _ => ∀ stmt ∈ flushStmt cfg s random stage, ∀ id ∈ stmt.reported, id ∉ s.dispatch.owned
    | _ => True
  | .outside (.reclaim _ _ now) => now ≤ s.now
  | _ => True

/-- And `RENEW` succeeds, and is answered within the margin. -/
def Brisk (cfg : Settings) (margin : Nat) (s : Supervisor) (a : Act) : Prop :=
  Prompt cfg margin s a ∧ Careful cfg margin s a

section
variable {cfg : Settings} {serde : Serde} {margin : Nat} {s s' : Supervisor} {stmt : Option Stmt}

theorem period_nonneg : 0 ≤ period cfg margin := by
  unfold period
  linarith [Int.natCast_nonneg cfg.maintenanceInterval, Int.natCast_nonneg margin]

theorem Timely.round (h : Timely cfg margin s) (hr : s.renewing = true) (id : JobId) :
    s.now ≤ lastRound cfg margin s id + period cfg margin := by
  have hround := h.le_lastRound hr id
  unfold period
  linarith

/-- Steps that take nothing new in hand and put nothing new in flight. -/
theorem Beating.of_le (h : Beating cfg margin s)
    (hround : ∀ id, s.now ≤ lastRound cfg margin s id + period cfg margin) (hnow : s'.now = s.now)
    (hwoken : s'.wokenAt = s.wokenAt) (hrenewal : s'.renewal = s.renewal)
    (hinflight : s'.inflight.ids ⊆ s.inflight.ids)
    (hreporting : ∀ id ∈ s'.inflight.ids, id ∈ reporting s → id ∈ reporting s')
    (howned : s'.dispatch.owned ⊆ s.dispatch.owned) (hnodup : s'.dispatch.owned.Nodup)
    (hdb : ∀ id time, s.now ≤ time →
      (id ∈ s'.dispatch.owned ∨ id ∈ s'.inflight.ids ∧ id ∉ reporting s') →
      LeasedUntil s.db cfg.worker id time → LeasedUntil s'.db cfg.worker id time)
    (hrest : s'.phase ≠ .serving → s'.dispatch.owned = []) : Beating cfg margin s' := by
  refine ⟨fun id hid => ?_, fun id hid => ?_, hnodup, fun id hmine hid => ?_, hrest⟩
  · by_cases hsent : id ∈ reporting s'
    · exact .inl hsent
    · refine .inr ?_
      rw [lastRound_eq hwoken hrenewal]
      have hlease := (h.inflight id (hinflight hid)).resolve_left fun hr => hsent (hreporting id hid hr)
      exact hdb id _ (hround id) (.inr ⟨hid, hsent⟩) hlease
  · rw [hnow]
    exact hdb id _ (Int.le_add_of_nonneg_right period_nonneg) (.inl hid) (h.owned id (howned hid))
  · exact hreporting id hid (h.apart id (howned hmine) (hinflight hid))

/-! ## The collector's part -/

theorem reaches_reported {j : Job} {stmt : Stmt} {w : Uuid} (hs : stmt.reporter = some w)
    (h : Reaches j stmt) : j.id ∈ stmt.reported := by
  cases stmt with
  | complete | retryMany | discardMany => exact h.2
  | _ => cases hs

theorem issue_cases (fails : Bool) (stmt : Stmt) (db : Db) :
    issue fails stmt db = db ∨ issue fails stmt db = db.exec stmt := by
  unfold issue
  split
  · exact .inl rfl
  · exact .inr rfl

/-- A report leaves the leases of the jobs it does not list. -/
theorem leasedUntil_issue {db : Db} (hdb : Orderly db) {stmt : Stmt} {w : Uuid} (hs : stmt.reporter = some w)
    (fails : Bool) {id : JobId} {time : Time} (hid : id ∉ stmt.reported) (h : LeasedUntil db w id time) :
    LeasedUntil (issue fails stmt db) w id time := by
  rcases issue_cases fails stmt db with hsame | hexec
  · rwa [hsame]
  · rw [hexec]
    exact h.exec hdb fun j hj _ _ hreaches => hid (hj ▸ reaches_reported hs hreaches)

theorem settledBefore_le_next (p : Pending) (stage : FlushStage) :
    settledBefore p stage ⊆ settledBefore p stage.next := by
  intro id hid
  cases stage <;>
    simp only [settledBefore, FlushStage.next, Pending.settled, List.mem_append, List.not_mem_nil] at hid ⊢ <;>
    tauto

theorem reported_settledBefore (random : JobId → Nat) {stage : FlushStage} {stmt : Stmt}
    (h : flushStmt cfg s random stage = some stmt) : stmt.reported ⊆ settledBefore s.pending stage.next := by
  intro id hid
  cases stage with
  | completed =>
    cases h
    rwa [reported_completeMany] at hid
  | withResult =>
    cases h
    rw [reported_completeManyWithResults] at hid
    exact List.mem_append_right _ hid
  | retry =>
    cases h
    exact List.mem_append_right _ hid
  | terminal =>
    cases h
    exact List.mem_append_right _ hid
  | releasing => cases h

theorem reporting_of_not_flushing (h : ∀ stage final, s.collector ≠ .flushing stage final) :
    reporting s = [] := by
  unfold reporting
  split
  · next stage final hf => exact absurd hf (h stage final)
  · rfl

/-- A call of a flush leaves the leases it does not list. -/
theorem Beating.called (h : Beating cfg margin s)
    (hround : ∀ id, s.now ≤ lastRound cfg margin s id + period cfg margin) (hdb : Orderly s.db)
    {random : JobId → Nat} (fails : Bool) {stage : FlushStage} {final : Bool} {st : Stmt}
    (hat : s.collector = .flushing stage final) (hstmt : flushStmt cfg s random stage = some st)
    (ha : ∀ st ∈ flushStmt cfg s random stage, ∀ id ∈ st.reported, id ∉ s.dispatch.owned) :
    Beating cfg margin { s with db := issue fails st s.db, collector := .flushing stage.next final } := by
  have hsent : reporting s = settledBefore s.pending stage := by
    unfold reporting
    rw [hat]
  refine h.of_le hround rfl rfl rfl (Finset.Subset.refl _) (fun id _ hr => ?_) (List.Subset.refl _) h.nodup
    (fun id time _ hid hlease => ?_) h.rest
  · rw [hsent] at hr
    exact settledBefore_le_next _ stage hr
  · refine leasedUntil_issue hdb (settledBefore_next random hstmt).1 fails (fun hreported => ?_) hlease
    rcases hid with hmine | ⟨-, hnot⟩
    · exact ha st hstmt id hreported hmine
    · exact hnot (reported_settledBefore random hstmt hreported)

/-- What was being reported is what leaves `InFlight`. -/
theorem Beating.released (h : Beating cfg margin s)
    (hround : ∀ id, s.now ≤ lastRound cfg margin s id + period cfg margin) {final : Bool}
    (hat : s.collector = .flushing .releasing final) :
    Beating cfg margin
      { s with
        inflight := s.inflight.release s.pending.settled
        pending := {}
        deadline := none
        collector := afterFlush final } := by
  have hsent : reporting s = s.pending.settled := by
    unfold reporting
    rw [hat]
    rfl
  refine h.of_le hround rfl rfl rfl Finset.sdiff_subset (fun id hid hr => ?_) (List.Subset.refl _) h.nodup
    (fun _ _ _ _ hlease => hlease) h.rest
  rw [hsent] at hr
  exact absurd (List.mem_toFinset.mpr hr) (Finset.mem_sdiff.mp hid).2

theorem Pauses.not_flushing {a : CollectAct} {final : Bool} (h : Pauses cfg serde s a final) :
    ∀ stage final', s.collector ≠ .flushing stage final' := by
  intro stage final'
  cases h with
  | eof hat | readError hat | timer hat | full hat | unreadable hat => exact fun hf => by cases hat.symm.trans hf

theorem CollectMove.beating {a : CollectAct} (hmove : CollectMove cfg serde s a stmt s') (h : Beating cfg margin s)
    (hround : ∀ id, s.now ≤ lastRound cfg margin s id + period cfg margin) (hdb : Orderly s.db)
    (ha : Careful cfg margin s (.collect a)) : Beating cfg margin s' := by
  -- outside a flush nothing is being reported
  have hsame : ∀ {s' : Supervisor}, (∀ stage final, s.collector ≠ .flushing stage final) → CollectFrame s s' →
      (∀ id time, LeasedUntil s.db cfg.worker id time → LeasedUntil s'.db cfg.worker id time) →
      Beating cfg margin s' := by
    intro s' hnot hframe hlease
    refine h.of_le hround hframe.now hframe.wokenAt hframe.renewal hframe.inflight (fun id _ hr => ?_) ?_ ?_
      (fun id time _ _ => hlease id time) ?_
    · rw [reporting_of_not_flushing hnot] at hr
      cases hr
    · rw [hframe.dispatch]
      exact List.Subset.refl _
    · rw [hframe.dispatch]
      exact h.nodup
    · rw [hframe.phase, hframe.dispatch]
      exact h.rest
  have hframe := hmove.frame
  cases hmove with
  | stays => exact h
  | calls hat hstmt =>
    simp only [Careful, hat] at ha
    exact h.called hround hdb _ hat hstmt ha
  | releases hat => exact h.released hround hat
  | nothing hp | flushes hp => exact hsame hp.not_flushing hframe fun _ _ hlease => hlease
  | recorded hat hrun =>
    refine hsame (fun _ _ hf => by cases hat.symm.trans hf) hframe fun id time hlease => ?_
    rw [← Db.exec_of_run hrun]
    exact hlease.exec hdb fun _ _ _ _ hreaches => hreaches
  | reads hat | drains hat | hears hat | records hat | skips hat | recordFails hat | recordRefused hat
  | unheard hat | sends hat =>
    exact hsame (fun _ _ hf => by cases hat.symm.trans hf) hframe fun _ _ hlease => hlease

/-! ## The part of `dispatch` -/

/-- What a fetch leases is taken in hand, on a fresh lease. -/
theorem Beating.of_lease (h : Beating cfg margin s) (hcadence : period cfg margin ≤ cfg.lease)
    (hserving : s.phase = .serving) {db' : Db} {a : Fetch} {chosen : List Job}
    (hworker : a.worker = cfg.worker) (hnow : a.now = s.now) (hlease : a.lease = cfg.lease)
    (hjobs : db'.jobs = s.db.jobs.map (leaseRow a (chosen.map Job.id)))
    (hchosen : ∀ j ∈ chosen, j ∈ s.db.jobs ∧ j.state = .available) (hnodup : (chosen.map Job.id).Nodup)
    (hkept : ∀ id time, LeasedUntil s.db cfg.worker id time → LeasedUntil db' cfg.worker id time)
    {d : Dispatch} (howned : d.owned = s.dispatch.owned ++ chosen.map Job.id) :
    Beating cfg margin { s with db := db', dispatch := d } := by
  have hfree : ∀ id ∈ chosen.map Job.id, ∀ time, ¬ LeasedUntil s.db cfg.worker id time := by
    intro id hid time hleased
    obtain ⟨j, hj, rfl⟩ := List.mem_map.mp hid
    exact hleased.not_available (hchosen j hj).1 rfl (hchosen j hj).2
  refine ⟨fun id hid => (h.inflight id hid).imp_right (hkept id _), fun id hid => ?_, ?_, fun id hid hin => ?_,
    fun hne => absurd hserving hne⟩
  · dsimp only at hid
    rw [howned] at hid
    rcases List.mem_append.mp hid with hold | hnew
    · exact hkept id _ (h.owned id hold)
    · have hfresh := leasedUntil_fetch (fun j hj => (hchosen j hj).1) hjobs hnew
      rw [hworker, hnow, hlease] at hfresh
      exact hfresh.mono (Int.add_le_add_left hcadence _)
  · dsimp only
    rw [howned]
    refine List.nodup_append.mpr ⟨h.nodup, hnodup, fun id hold id' hnew hsame => ?_⟩
    subst hsame
    exact hfree id hnew _ (h.owned id hold)
  · dsimp only at hid
    rw [howned] at hid
    rcases List.mem_append.mp hid with hold | hnew
    · exact h.apart id hold hin
    · exact (h.inflight id hin).resolve_right (hfree id hnew _)

theorem fetched_owned (jobs : List LeasedJob) : (fetched jobs).owned = jobs.map LeasedJob.id := by
  unfold fetched
  split
  · next hnil =>
    rw [hnil]
    rfl
  · exact List.append_nil _

theorem afterUnkeyed_owned (limit : Int) (jobs : List LeasedJob) :
    (afterUnkeyed cfg s limit jobs).owned = jobs.map LeasedJob.id := by
  unfold afterUnkeyed
  split
  · next hnil =>
    rw [hnil]
    rfl
  · split
    · rfl
    · exact List.append_nil _

/-- `dispatch` goes on with what it had in hand, or lets go of it. -/
theorem Beating.of_hand (h : Beating cfg margin s)
    (hround : ∀ id, s.now ≤ lastRound cfg margin s id + period cfg margin) (hserving : s.phase = .serving)
    (hframe : DispatchFrame s s') (hinflight : s'.inflight = s.inflight)
    (hkept : ∀ id time, LeasedUntil s.db cfg.worker id time → LeasedUntil s'.db cfg.worker id time)
    (howned : s'.dispatch.owned.Perm s.dispatch.owned ∨ s'.dispatch.owned = []) : Beating cfg margin s' := by
  have hreporting : reporting s' = reporting s := by
    unfold reporting
    rw [hframe.collector, hframe.pending]
  have hsub : s'.dispatch.owned ⊆ s.dispatch.owned := by
    rcases howned with hperm | hnil
    · exact hperm.subset
    · rw [hnil]
      exact List.nil_subset _
  have hnodup : s'.dispatch.owned.Nodup := by
    rcases howned with hperm | hnil
    · exact hperm.nodup_iff.mpr h.nodup
    · rw [hnil]
      exact List.nodup_nil
  refine h.of_le hround hframe.now hframe.wokenAt hframe.renewal (by rw [hinflight])
    (fun id _ hr => hreporting ▸ hr) hsub hnodup (fun id time _ _ => hkept id time) fun hne => ?_
  exact absurd (hframe.phase.trans hserving) hne

/-- What is reserved was in hand on leases good for another period. -/
theorem Beating.reserved (h : Beating cfg margin s) (ht : Timely cfg margin s)
    {reserved : List JobId} (howned : s.dispatch.owned = reserved) {since : JobId → Time}
    {buf : List Message} :
    Beating cfg margin { s with
      inflight := Session.reserve s.inflight reserved
      since := since
      dispatch := .writing buf } := by
  refine ⟨fun id hid => ?_, (fun id hid => by cases hid), List.nodup_nil, (fun id hid => by cases hid),
    fun _ => rfl⟩
  rcases Finset.mem_union.mp hid with hold | hnew
  · exact h.inflight id hold
  · have hlease := h.owned id (howned ▸ List.mem_toFinset.mp hnew)
    refine .inr (hlease.mono (Int.add_le_add_right ?_ _))
    rw [lastRound_eq rfl rfl]
    exact ht.lastRound_le id

/-- The row of a job that does not fit a frame is discarded, and no other is. -/
theorem Beating.discarded (h : Beating cfg margin s)
    (hround : ∀ id, s.now ≤ lastRound cfg margin s id + period cfg margin) (hserving : s.phase = .serving)
    {db' : Db} {id : JobId} {error : String} {todo : List LeasedJob} {buf : List Message} {reserved : List JobId}
    (hat : s.dispatch = .discarding id error todo buf reserved)
    (hkept : ∀ i time, i ≠ id → LeasedUntil s.db cfg.worker i time → LeasedUntil db' cfg.worker i time) :
    Beating cfg margin { s with db := db', dispatch := .packing todo buf reserved } := by
  have howned : s.dispatch.owned = id :: (todo.map LeasedJob.id ++ reserved) := by rw [hat]; rfl
  have hnodup := h.nodup
  rw [howned, List.nodup_cons] at hnodup
  have hmine : id ∈ s.dispatch.owned := by
    rw [howned]
    exact List.mem_cons_self
  refine h.of_le hround rfl rfl rfl (Finset.Subset.refl _) (fun _ _ hr => hr) ?_ hnodup.2
    (fun i time _ hi hlease => hkept i time (fun hsame => ?_) hlease) fun hne => absurd hserving hne
  · rw [howned]
    exact List.subset_cons_self _ _
  · subst hsame
    rcases hi with hrest | ⟨hin, hnot⟩
    · exact hnodup.1 hrest
    · exact hnot (h.apart i hmine hin)

theorem DispatchMove.beating {a : DispatchAct} (hmove : DispatchMove cfg s a stmt s') (h : Beating cfg margin s)
    (hcadence : period cfg margin ≤ cfg.lease) (ht : Timely cfg margin s) (hr : s.renewing = true)
    (hdb : Orderly s.db) (hserving : s.phase = .serving) : Beating cfg margin s' := by
  have hround := ht.round hr
  have hframe := hmove.frame
  have hsame : ∀ {db' : Db}, db' = s.db →
      ∀ id time, LeasedUntil s.db cfg.worker id time → LeasedUntil db' cfg.worker id time :=
    fun hdb id time hlease => hdb ▸ hlease
  -- a fetch is about no row that is leased
  have hfetch : ∀ {st : Stmt} {db' : Db}, s.db.run st = .ok db' → (∀ j, ¬ Reaches j st) →
      ∀ id time, LeasedUntil s.db cfg.worker id time → LeasedUntil db' cfg.worker id time := by
    intro st db' hrun hst id time hlease
    rw [← Db.exec_of_run hrun]
    exact hlease.exec hdb fun j _ _ _ hreaches => hst j hreaches
  cases hmove with
  | stays => exact h
  | turns hturn => exact h.of_hand hround hserving hframe rfl (hsame rfl) (.inl hturn.owned)
  | forwards hat =>
    refine h.of_hand hround hserving hframe rfl (hsame rfl) (.inr ?_)
    dsimp only
    split <;> rfl
  | ends | fetchFails | receives | writes =>
    exact h.of_hand hround hserving hframe rfl (hsame rfl) (.inr rfl)
  | unkeyedLost hat hrun | keyedLost hat hrun =>
    exact h.of_hand hround hserving hframe rfl (hfetch hrun fun _ hreaches => hreaches) (.inr rfl)
  | @unkeyed limit skip db' hat hrun =>
    have hjobs := congrArg Tables.jobs (first_pass hrun).1
    refine h.of_lease hcadence hserving rfl rfl rfl hjobs (fun j hj => lockedUnkeyed_available hj)
      (lockedUnkeyed_nodup _ _) (hfetch hrun fun _ hreaches => hreaches) ?_
    rw [afterUnkeyed_owned, returning_lease hjobs fun j hj => (lockedUnkeyed_available hj).1, hat]
    rfl
  | @keyed limit jobs skip db' hat hrun =>
    have hjobs : db'.jobs = s.db.jobs.map (leaseRow (keyedArgs (call cfg limit) (meets s skip) jobs.length)
        ((s.db.admitted (keyedArgs (call cfg limit) (meets s skip) jobs.length) s.db.toTables).map Job.id)) :=
      congrArg Tables.jobs (Stmt.effect_eq_mapJobs rfl (Db.run_ok hrun))
    refine h.of_lease hcadence hserving rfl rfl rfl hjobs (fun j hj => admitted_available hj)
      (admitted_nodup _ _) (hfetch hrun fun _ hreaches => hreaches) ?_
    rw [fetched_owned, List.map_append, returning_lease hjobs fun j hj => (admitted_available hj).1, hat]
    rfl
  | reserves hat => exact h.reserved ht (by rw [hat]; rfl)
  | discards hat =>
    refine h.discarded hround hserving hat fun i time hne hlease => ?_
    refine hlease.exec hdb fun j hj _ _ hreaches => hne ?_
    exact hj.symm.trans (List.mem_singleton.mp hreaches.2)
  | discardFails hat => exact h.discarded hround hserving hat fun i time _ hlease => hlease

/-! ## The part of `supervise` -/

/-- From one phase to another, with nothing in hand and nothing new in flight. -/
theorem Beating.into (h : Beating cfg margin s)
    (hround : ∀ id, s.now ≤ lastRound cfg margin s id + period cfg margin) (hframe : SessionFrame s s')
    (hinflight : s'.inflight.ids = ∅ ∨ reporting s' = reporting s ∧ s'.db = s.db)
    (hrest : s'.dispatch.owned = []) : Beating cfg margin s' := by
  have hnil : s'.dispatch.owned ⊆ s.dispatch.owned := by
    rw [hrest]
    exact List.nil_subset _
  have hnodup : s'.dispatch.owned.Nodup := by
    rw [hrest]
    exact List.nodup_nil
  refine h.of_le hround hframe.now hframe.wokenAt hframe.renewal hframe.inflight ?_ hnil hnodup ?_ fun _ => hrest
  · rcases hinflight with hnone | ⟨hreporting, -⟩
    · intro id hid
      rw [hnone] at hid
      cases hid
    · exact fun id _ hr => hreporting ▸ hr
  · rcases hinflight with hnone | ⟨-, hdb⟩
    · intro id time _ hid
      rw [hrest, hnone] at hid
      rcases hid with hid | ⟨hid, -⟩ <;> cases hid
    · exact fun id time _ _ hlease => hdb ▸ hlease

theorem SessionMove.beating {a : SessionAct} (hmove : SessionMove cfg s a stmt s') (h : Beating cfg margin s)
    (hbare : Bare s) (hround : ∀ id, s.now ≤ lastRound cfg margin s id + period cfg margin) :
    Beating cfg margin s' := by
  have hframe := hmove.frame
  have hrest : ∀ {phase : Phase}, s.phase = phase → phase ≠ .serving → s.dispatch.owned = [] :=
    fun hphase hne => h.rest fun hserving => hne (hphase.symm.trans hserving)
  have hempty : ∀ {phase : Phase}, s.phase = phase → phase.bare = true → s.inflight.ids = ∅ :=
    fun hphase hb => hbare (hphase ▸ hb)
  cases hmove with
  | stays => exact h
  | shutdown | kills => exact ⟨h.inflight, h.owned, h.nodup, h.apart, h.rest⟩
  | finishes hf =>
    refine h.into hround hframe (.inr ⟨rfl, rfl⟩) ?_
    cases hf <;> exact hrest ‹s.phase = _› fun hp => by cases hp
  | opens hat | accepts hat => exact h.into hround hframe (.inl (hempty hat rfl)) rfl
  | exits => exact h.into hround hframe (.inr ⟨rfl, rfl⟩) rfl
  | leaves hat hdone => exact h.into hround hframe (.inr ⟨rfl, rfl⟩) (by rw [hdone]; rfl)
  | takes hat => exact h.into hround hframe (.inl rfl) (hrest hat fun hp => by cases hp)
  | abandons hat | reclaims hat =>
    exact h.into hround hframe (.inl (hempty hat rfl)) (hrest hat fun hp => by cases hp)
  | _ => exact h.into hround hframe (.inr ⟨rfl, rfl⟩) (hrest ‹s.phase = _› fun hp => by cases hp)

/-! ## Heartbeats, other parties and the clock -/

theorem RenewMove.beating {a : RenewAct} (hmove : RenewMove cfg s a stmt s') (h : Beating cfg margin s)
    (hcadence : period cfg margin ≤ cfg.lease) (ht : Timely cfg margin s) (hr : s.renewing = true)
    (ha : Prompt cfg margin s (.renew a)) : Beating cfg margin s' := by
  cases hmove with
  | stays | stops => exact ⟨h.inflight, h.owned, h.nodup, h.apart, h.rest⟩
  | skips hrenewing hat hdue hnone =>
    refine ⟨fun id hid => ?_, h.owned, h.nodup, h.apart, h.rest⟩
    rw [show s.inflight.ids = ∅ from hnone] at hid
    cases hid
  | issues hrenewing hat =>
    refine ⟨fun id hid => ?_, h.owned, h.nodup, h.apart, h.rest⟩
    rw [lastRound_issued hat hid]
    exact h.inflight id hid
  | @executes ids hat =>
    have hdue : s.wokenAt + cfg.maintenanceInterval ≤ s.now :=
      ht.due fun hasleep => by cases hat.symm.trans hasleep
    have hlater : s.now + period cfg margin ≤ s.now + cfg.lease := Int.add_le_add_left hcadence _
    have hnext : s.wokenAt + cfg.maintenanceInterval + period cfg margin ≤ s.now + cfg.lease :=
      Int.le_trans (Int.add_le_add_right hdue _) hlater
    refine ⟨fun id hid => (h.inflight id hid).imp_right fun hlease => ?_,
      fun id hid => (h.owned id hid).renew _ hlater, h.nodup, h.apart, h.rest⟩
    by_cases hlisted : id ∈ ids
    · exact (hlease.renewed hlisted _ _).mono hnext
    · -- reserved since the round began
      unfold lastRound at hlease
      rw [hat] at hlease
      simp only [hlisted, if_false] at hlease
      exact hlease.renew ids hnext
  | answered hat =>
    have hexecuted := ha.executed hat
    have hprompt := ht.prompt hr hat
    have hle : s.now - margin ≤ s.wokenAt + cfg.maintenanceInterval := by linarith
    refine ⟨fun id hid => (h.inflight id hid).imp_right fun hlease => ?_, h.owned, h.nodup, h.apart, h.rest⟩
    unfold lastRound at hlease
    rw [hexecuted] at hlease
    exact hlease.mono (Int.add_le_add_right hle _)

/-- Another party's statement is about no row of this worker, and a reclaim finds no
lease that lasts beyond its clock. -/
theorem leasedUntil_outside {db : Db} {stmt : Stmt} {w : Uuid} {id : JobId} {now time : Time}
    (hdb : Orderly db) (hother : actsFor stmt ≠ some w)
    (hclock : ∀ limit visit later, stmt = .reclaim limit visit later → later ≤ now) (htime : now ≤ time)
    (h : LeasedUntil db w id time) : LeasedUntil (db.exec stmt) w id time := by
  refine h.exec hdb fun j _ hheld hlease hreaches => ?_
  have hmine : ∀ {other : Uuid}, j.HeldBy other → other = w :=
    fun ho => Option.some.inj (ho.1.symm.trans hheld.1)
  cases stmt with
  | complete | retryMany | discardMany | renew | abandon =>
    exact hother (congrArg some (hmine hreaches.1))
  | reclaim limit visit later =>
    obtain ⟨-, l, hl, hpast⟩ := hreaches
    obtain ⟨e, he, hlasts⟩ := hlease
    cases Option.mem_unique hl he
    have hle := hclock limit visit later rfl
    exact absurd (Int.lt_of_lt_of_le hpast (Int.le_trans hle (Int.le_trans htime hlasts))) (Int.lt_irrefl _)
  | _ => exact hreaches

/-- **Every step keeps the leases alive**, as long as `renew` is on time. -/
theorem Move.beating {a : Act} (hmove : Move cfg serde s a stmt s') (h : Beating cfg margin s)
    (hcadence : period cfg margin ≤ cfg.lease) (ht : Timely cfg margin s) (hbare : Bare s)
    (hr : s.renewing = true) (hdb : Orderly s.db) (ha : Brisk cfg margin s a) : Beating cfg margin s' := by
  obtain ⟨hprompt, hcareful⟩ := ha
  have hround := ht.round hr
  cases hmove with
  | stays => exact h
  | dispatch hserving hmove => exact hmove.beating h hcadence ht hr hdb hserving
  | collect hmove => exact hmove.beating h hround hdb hcareful
  | session hmove => exact hmove.beating h hbare hround
  | renew hmove => exact hmove.beating h hcadence ht hr hprompt
  | child hmove => cases hmove <;> exact ⟨h.inflight, h.owned, h.nodup, h.apart, h.rest⟩
  | @outside st hother =>
    have hclock : ∀ limit visit later, st = .reclaim limit visit later → later ≤ s.now := by
      intro limit visit later hst
      subst hst
      exact hcareful
    exact h.of_le hround rfl rfl rfl (Finset.Subset.refl _) (fun _ _ hsent => hsent) (List.Subset.refl _) h.nodup
      (fun id time htime _ hlease => leasedUntil_outside hdb hother hclock htime hlease) h.rest
  | tick => exact ⟨h.inflight, hcareful, h.nodup, h.apart, h.rest⟩

/-! ## Whole runs -/

/-- What a supervisor keeps up for as long as `renew` runs. -/
structure Steady (cfg : Settings) (margin : Nat) (s : Supervisor) : Prop where
  timely : Timely cfg margin s
  bare : Bare s
  orderly : Orderly s.db
  beating : s.renewing = true → Beating cfg margin s

theorem Move.steady {a : Act} (hmove : Move cfg serde s a stmt s') (h : Steady cfg margin s)
    (hcadence : period cfg margin ≤ cfg.lease) (ha : Brisk cfg margin s a) : Steady cfg margin s' := by
  refine ⟨hmove.timely h.timely ha.1, hmove.bare h.bare, ?_, fun hr => ?_⟩
  · rw [hmove.db]
    cases stmt with
    | none => exact h.orderly
    | some st => exact h.orderly.exec st
  · have hrenewing := hmove.renewing hr
    exact hmove.beating (h.beating hrenewing) hcadence h.timely h.bare hrenewing h.orderly ha

theorem steady_initial {db : Db} (hdb : Orderly db) : Steady cfg margin (initial db) :=
  ⟨timely_slept rfl rfl, fun _ => rfl, hdb, fun _ =>
    ⟨(fun id hid => by simp [initial] at hid), (fun id hid => by cases hid), List.nodup_nil,
      (fun id hid => by cases hid), fun _ => rfl⟩⟩

/-- While `renew` runs, a job in flight whose outcome has not been sent is this
worker's, on a lease that has not run out. -/
theorem Steady.leased (h : Steady cfg margin s) (hr : s.renewing = true) {id : JobId} (hid : id ∈ s.inflight.ids)
    (hsent : id ∉ reporting s) : LeasedUntil s.db cfg.worker id s.now :=
  (((h.beating hr).inflight id hid).resolve_left hsent).mono (h.timely.round hr id)
end

end Gylo.Worker.Session
