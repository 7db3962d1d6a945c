import Gylo.Lib.Taking
import Gylo.Worker.Expressions

/-! # The schedules one tick fires

`fire_due_schedules` asks for the first `limit` due rows, and fires those for
which it can compute a next run. A row for which it cannot, because its text
does not parse or because the occurrence that is due was the last one, does not
fire and stays as it is: due, and among the oldest. -/
namespace Gylo.Worker.Ticks

open Gylo.Store Gylo.Worker.Schedules Gylo.Worker.Expressions

/-! ## One tick -/

/-- What one call of `fire_due_schedules` reads besides the tables: the
database's clock in `DUE_CRON` and in each `FIRE_CRON`, the worker's own clock
in between, and the order in which `DUE_CRON` meets the rows, which settles ties
of `ORDER BY next_run_at`. The database's clock does not run backwards. -/
structure Tick where
  due : Time
  now : Time
  firing : String → Time
  scan : List Cron → List Cron
  later : ∀ name, due ≤ firing name
  perm : ∀ rows, (scan rows).Perm rows

/-- What the worker logs, with the fields it logs. -/
inductive Line where
  | lookingFailed (error : DbError)
  | cannotAdvance (schedule : String) (error : ScheduleError)
  | fired (schedule : String) (job : JobId)
  | firingFailed (schedule : String) (error : DbError)
deriving DecidableEq

/-- The columns `due_cron` reads of a row. -/
def dueEntry (c : Cron) : DueCron := ⟨c.name, c.expression, c.timezone⟩

def dueCron (limit : Int) (tick : Tick) (db : Db) : Except DbError (List DueCron) :=
  if limit < 0 then .error .negativeLimit
  else .ok ((({ db.toTables with crons := tick.scan db.crons } : Tables).dueCron limit
    tick.due).map dueEntry)

/-- The id comes back if this caller won the row. -/
def fireCron (db : Db) (name : String) (next now : Time) : Except DbError (Db × Option JobId) :=
  match db.run (.fireCron name next now) with
  | .error e => .error e
  | .ok db' => .ok (db', (db.wonCron name now).map fun _ => db.jobSeq + 1)

def fireEntry (crates : Crates) (tick : Tick) (db : Db) (entry : DueCron) : Db × List Line :=
  match crates.advance entry.expression entry.timezone tick.now with
  | .error e => (db, [.cannotAdvance entry.name e])
  | .ok next =>
    match fireCron db entry.name next (tick.firing entry.name) with
    | .ok (db', some job) => (db', [.fired entry.name job])
    | .ok (db', none) => (db', [])
    | .error e => (db, [.firingFailed entry.name e])

def fireEntries (crates : Crates) (tick : Tick) : Db → List DueCron → Db × List Line
  | db, [] => (db, [])
  | db, entry :: rest =>
    let one := fireEntry crates tick db entry
    let others := fireEntries crates tick one.1 rest
    (others.1, one.2 ++ others.2)

def fireDueSchedules (crates : Crates) (limit : Int) (tick : Tick) (db : Db) : Db × List Line :=
  match dueCron limit tick db with
  | .error e => (db, [.lookingFailed e])
  | .ok due => fireEntries crates tick db due

/-! ## What a tick is for -/

section
variable (crates : Crates) (limit : Int) (tick : Tick) (db : Db)

/-- The due rows in the order of `next_run_at`. -/
def dueRows : List Cron :=
  ((tick.scan db.crons).filter fun c => c.Due tick.due).insertionSort
    fun c d => c.nextRunAt ≤ d.nextRunAt

/-- The first `limit` of them. -/
def examined : List Cron := (dueRows tick db).take limit.toNat

def parses (c : Cron) : Bool := (Schedule.parse crates c.expression c.timezone).isOk

/-- The row has a next run after `now`. -/
def advances (now : Time) (c : Cron) : Bool := (crates.advance c.expression c.timezone now).isOk

/-- The first `limit` due schedules with a parseable expression. -/
def wanted : List Cron := ((dueRows tick db).filter (parses crates)).take limit.toNat

/-- The row `FIRE_CRON` inserts for a schedule. -/
def firedJob (id : JobId) (now : Time) (c : Cron) : Job where
  id := id
  queue := c.queue
  task := c.task
  payload := c.payload
  scheduledAt := (now : WithTop Time)

/-- One job for each of `rows`, in their order. -/
def firedJobs (rows : List Cron) : List Job :=
  rows.mapIdx fun i c => firedJob (db.jobSeq + 1 + i) (tick.firing c.name) c

/-- The tick inserts exactly one job for each of `rows`. -/
def Inserts (rows : List Cron) : Prop :=
  (fireDueSchedules crates limit tick db).1.jobs = db.jobs ++ firedJobs tick db rows

/-- The worker reports that it fired the schedule. -/
def Fires (name : String) : Prop :=
  ∃ job, .fired name job ∈ (fireDueSchedules crates limit tick db).2

/-- Each examined row that parses has an occurrence left. -/
def Unspent : Prop := ∀ c ∈ examined limit tick db, parses crates c → advances crates tick.now c

/-- Moreover, if an examined row does not parse, then no due row that does lies
behind them. -/
structure Advanceable : Prop where
  left : Unspent crates limit tick db
  behind : (∃ c ∈ examined limit tick db, ¬ parses crates c) →
    ∀ d ∈ dueRows tick db, parses crates d → d ∈ examined limit tick db

end

/-! ## What firing does to the tables -/

/-- The tables with the schedules as given and one job more. -/
def withFired (db : Db) (crons : List Cron) (now : Time) (c : Cron) : Tables :=
  Tables.insertJobs { db.toTables with crons := crons } [firedJob (db.jobSeq + 1) now c]

section
variable (db : Db) (crons : List Cron) (now : Time) (c : Cron)

theorem withFired_ids : (withFired db crons now c).ids = db.ids ++ [db.jobSeq + 1] := by
  simp [withFired, Tables.ids, Tables.insertJobs, firedJob]

theorem withFired_liveKeys : (withFired db crons now c).liveKeys = db.liveKeys := by
  simp [withFired, Tables.liveKeys, Tables.insertJobs, firedJob, List.filter_append]

/-- What holds of every job and of a new one of a schedule holds of every row. -/
theorem forall_withFired {P : Job → Prop} (hold : ∀ j ∈ db.jobs, P j)
    (hnew : P (firedJob (db.jobSeq + 1) now c)) : ∀ j ∈ (withFired db crons now c).jobs, P j :=
  List.forall_mem_append.mpr ⟨hold, List.forall_mem_singleton.mpr hnew⟩

/-- A job for a schedule violates no constraint. -/
theorem satisfies_withFired (hnames : crons.map Cron.name = db.crons.map Cron.name) (k : Constraint) :
    (withFired db crons now c).Satisfies k := by
  have hdb := db.valid k
  have hseq := (db.valid .identity).1
  cases k with
  | jobPkey =>
    show (Tables.ids _).Nodup
    rw [withFired_ids, List.nodup_append]
    refine ⟨hdb, List.nodup_singleton _, fun id hid other hother => ?_⟩
    rw [List.mem_singleton.mp hother]
    exact (Int.lt_add_one_of_le (hseq id hid)).ne
  | jobUnique =>
    show (Tables.liveKeys _).Nodup
    rw [withFired_liveKeys]
    exact hdb
  | edgePkey | stepPkey => exact hdb
  | cronPkey =>
    show (crons.map Cron.name).Nodup
    rw [hnames]
    exact hdb
  | edgeFkey =>
    intro e he
    obtain ⟨hflow, hparent, hchild⟩ := hdb e he
    rw [withFired_ids]
    exact ⟨hflow, List.mem_append_left _ hparent, List.mem_append_left _ hchild⟩
  | stepFkey =>
    intro st hst
    rw [withFired_ids]
    exact List.mem_append_left _ (hdb st hst)
  | identity =>
    refine ⟨fun id hid => ?_, hdb.2⟩
    rw [withFired_ids] at hid
    show id ≤ db.jobSeq + 1
    rcases List.mem_append.mp hid with hid | hid
    · exact (hseq id hid).trans (Int.le_add_one (le_refl _))
    · exact (List.mem_singleton.mp hid).le
  | attemptBounds => exact forall_withFired _ _ _ _ hdb (show (0 : Int) ≤ 20 by decide)
  | leasePaired | concurrencyPaired => exact forall_withFired _ _ _ _ hdb rfl
  | concurrencyPositive => exact forall_withFired _ _ _ _ hdb fun m hm => by cases hm
  | pendingDepsPositive => exact forall_withFired _ _ _ _ hdb (le_refl (0 : Int))
  | smallintRange =>
    exact forall_withFired _ _ _ _ hdb (show InSmallint 0 ∧ InSmallint 0 ∧ InSmallint 20 by decide)
  | intRange =>
    exact forall_withFired _ _ _ _ hdb ⟨show InInt 0 by decide, fun m hm => by cases hm⟩
  | jobWorkflowFkey => exact forall_withFired _ _ _ _ hdb fun w hw => by cases hw

end

theorem wonCron_eq (db : Db) {c : Cron} (hc : c ∈ db.crons) {now : Time} (hdue : c.Due now) :
    db.wonCron c.name now = some c := by
  cases hwon : db.wonCron c.name now with
  | none =>
    have hnone := List.find?_eq_none.mp hwon c hc
    simp [hdue] at hnone
  | some won =>
    obtain ⟨hmem, hname, -⟩ := wonCron_some hwon
    rw [List.inj_on_of_nodup_map (db.valid .cronPkey) hmem hc hname]

/-- With nobody else about, a due row is won: one job more, and the row at its
next run. -/
theorem fireCron_won (db : Db) {c : Cron} (hc : c ∈ db.crons) {now : Time} (hdue : c.Due now)
    (next : Time) : ∃ db', fireCron db c.name next now = .ok (db', some (db.jobSeq + 1)) ∧
      db'.jobs = db.jobs ++ [firedJob (db.jobSeq + 1) now c] ∧ db'.jobSeq = db.jobSeq + 1 ∧
      db'.crons = db.crons.map (fireRow c.name next now) := by
  have hwon := wonCron_eq db hc hdue
  have hnames : (db.crons.map (fireRow c.name next now)).map Cron.name = db.crons.map Cron.name := by
    rw [List.map_map]
    exact List.map_congr_left fun d _ => fireRow_name _ _ _ d
  have heff : db.toTables.fireCron c.name next now =
      withFired db (db.crons.map (fireRow c.name next now)) now c := by
    rw [Tables.fireCron, hwon]
    rfl
  have hvalid := satisfies_withFired db _ now c hnames
  have hrun : db.run (.fireCron c.name next now) = .ok ⟨_, hvalid⟩ := by
    show commit (db.toTables.fireCron c.name next now) = _
    rw [heff]
    exact commit_eq_ok _
  refine ⟨⟨_, hvalid⟩, ?_, rfl, rfl, rfl⟩
  unfold fireCron
  rw [hrun, hwon]
  rfl

/-! ## One entry, and all of them -/

/-- What a tick makes of a row it examines. -/
def advanced (crates : Crates) (tick : Tick) (c : Cron) : Cron :=
  match crates.advance c.expression c.timezone tick.now with
  | .ok next => { c with nextRunAt := next, lastRunAt := some (tick.firing c.name) }
  | .error _ => c

section
variable {crates : Crates} {limit : Int} {tick : Tick} {db : Db}

theorem advances_iff {now : Time} {c : Cron} :
    advances crates now c ↔ ∃ next, crates.advance c.expression c.timezone now = .ok next := by
  unfold advances
  cases crates.advance c.expression c.timezone now with
  | error e => exact iff_of_false Bool.false_ne_true fun ⟨_, h⟩ => by cases h
  | ok next => exact iff_of_true rfl ⟨next, rfl⟩

theorem advanced_of_not {c : Cron} (h : ¬ advances crates tick.now c) :
    advanced crates tick c = c := by
  unfold advanced
  split
  · next next hnext => exact absurd (advances_iff.mpr ⟨next, hnext⟩) h
  · rfl

theorem advanced_name (crates : Crates) (tick : Tick) (c : Cron) : (advanced crates tick c).name = c.name := by
  unfold advanced
  split <;> rfl

/-- A row that advances moves past the worker's clock. -/
theorem lt_advanced {c : Cron} (h : advances crates tick.now c) :
    tick.now < (advanced crates tick c).nextRunAt := by
  obtain ⟨next, hnext⟩ := advances_iff.mp h
  unfold advanced
  rw [hnext]
  exact lt_of_advance hnext

theorem Due.mono {c : Cron} {now later : Time} (hle : now ≤ later) (h : c.Due now) : c.Due later :=
  ⟨h.1, h.2.trans hle⟩

/-- A due row that advances fires; any other is reported and left alone. -/
theorem fireEntry_spec (crates : Crates) {c : Cron} (hc : c ∈ db.crons) (hdue : c.Due tick.due) :
    ∃ db' lines, fireEntry crates tick db (dueEntry c) = (db', lines) ∧
      db'.crons = db.crons.map (fun d => if d = c then advanced crates tick d else d) ∧
      (advances crates tick.now c ∧ lines = [.fired c.name (db.jobSeq + 1)] ∧
          db'.jobs = db.jobs ++ [firedJob (db.jobSeq + 1) (tick.firing c.name) c] ∧
          db'.jobSeq = db.jobSeq + 1 ∨
        ¬ advances crates tick.now c ∧ (∃ e, lines = [.cannotAdvance c.name e]) ∧ db' = db) := by
  cases hadvance : crates.advance c.expression c.timezone tick.now with
  | error e =>
    have hnot : ¬ advances crates tick.now c := fun h => by
      obtain ⟨next, hnext⟩ := advances_iff.mp h
      rw [hadvance] at hnext
      cases hnext
    refine ⟨db, [.cannotAdvance c.name e], ?_, ?_, .inr ⟨hnot, ⟨e, rfl⟩, rfl⟩⟩
    · simp only [fireEntry, dueEntry, hadvance]
    · conv_lhs => rw [← List.map_id db.crons]
      refine List.map_congr_left fun d _ => ?_
      split
      · next heq => rw [heq, advanced_of_not hnot]; rfl
      · rfl
  | ok next =>
    have hfire : c.Due (tick.firing c.name) := Due.mono (tick.later c.name) hdue
    obtain ⟨db', hrun, hjobs, hseq, hcrons⟩ := fireCron_won db hc hfire next
    refine ⟨db', [.fired c.name (db.jobSeq + 1)], ?_, ?_,
      .inl ⟨advances_iff.mpr ⟨next, hadvance⟩, rfl, hjobs, hseq⟩⟩
    · simp only [fireEntry, dueEntry, hadvance, hrun]
    · rw [hcrons]
      refine List.map_congr_left fun d hd => ?_
      by_cases hdc : d = c
      · rw [hdc, if_pos rfl, fireRow, if_pos ⟨rfl, hfire⟩, advanced, hadvance]
      · -- another row has another name
        rw [if_neg hdc, fireRow, if_neg fun h => hdc
          (List.inj_on_of_nodup_map (db.valid .cronPkey) hd hc h.1)]

theorem firedJobs_cons {db db' : Db} (hseq : db'.jobSeq = db.jobSeq + 1) (c : Cron) (rows : List Cron) :
    firedJobs tick db (c :: rows) =
      firedJob (db.jobSeq + 1) (tick.firing c.name) c :: firedJobs tick db' rows := by
  unfold firedJobs
  rw [List.mapIdx_cons, hseq]
  congr 1
  · simp
  · refine congrArg (fun f => List.mapIdx f rows) (funext fun i => funext fun d => ?_)
    rw [show db.jobSeq + 1 + ((i + 1 : Nat) : Int) = db.jobSeq + 1 + 1 + (i : Int) by omega]

/-- **All entries.** Exactly the rows that advance fire, in their order. -/
theorem fireEntries_spec (rows : List Cron) (hnd : (rows.map Cron.name).Nodup) (db : Db)
    (hrows : ∀ c ∈ rows, c ∈ db.crons ∧ c.Due tick.due) :
    (fireEntries crates tick db (rows.map dueEntry)).1.jobs =
        db.jobs ++ firedJobs tick db (rows.filter (advances crates tick.now)) ∧
      (fireEntries crates tick db (rows.map dueEntry)).1.crons =
        db.crons.map (fun d => if d ∈ rows then advanced crates tick d else d) ∧
      ∀ name, (∃ job, .fired name job ∈ (fireEntries crates tick db (rows.map dueEntry)).2) ↔
        ∃ c ∈ rows, c.name = name ∧ advances crates tick.now c := by
  induction rows generalizing db with
  | nil => simp [fireEntries, firedJobs]
  | cons c rows ih =>
    obtain ⟨hfresh, hnd⟩ := List.nodup_cons.mp hnd
    obtain ⟨hc, hdue⟩ := hrows c List.mem_cons_self
    obtain ⟨db', lines, hentry, hcrons, hwhat⟩ := fireEntry_spec crates hc hdue
    have hne : ∀ d ∈ rows, d ≠ c := fun d hd heq => hfresh (heq ▸ List.mem_map_of_mem hd)
    -- the rows still to come are where they were
    have hrest : ∀ d ∈ rows, d ∈ db'.crons ∧ d.Due tick.due := by
      intro d hd
      obtain ⟨hmem, hddue⟩ := hrows d (List.mem_cons_of_mem c hd)
      refine ⟨?_, hddue⟩
      rw [hcrons]
      exact List.mem_map.mpr ⟨d, hmem, if_neg (hne d hd)⟩
    obtain ⟨hjobs, hothers, hlines⟩ := ih hnd db' hrest
    have hfold : fireEntries crates tick db ((c :: rows).map dueEntry) =
        ((fireEntries crates tick db' (rows.map dueEntry)).1,
          lines ++ (fireEntries crates tick db' (rows.map dueEntry)).2) := by
      simp only [List.map_cons, fireEntries, hentry]
    rw [hfold]
    refine ⟨?_, ?_, ?_⟩
    · rcases hwhat with ⟨hadv, -, hjob, hseq⟩ | ⟨hnot, -, rfl⟩
      · rw [List.filter_cons_of_pos hadv, firedJobs_cons hseq, hjobs, hjob, List.append_assoc]
        rfl
      · rw [List.filter_cons_of_neg hnot, hjobs]
    · rw [hothers, hcrons, List.map_map]
      refine List.map_congr_left fun d hd => ?_
      by_cases hdc : d = c
      · have hout : advanced crates tick c ∉ rows := fun hin =>
          hfresh (advanced_name crates tick c ▸ List.mem_map_of_mem hin)
        simp [hdc, hout]
      · simp [hdc]
    · intro name
      simp only [List.mem_append, exists_or, hlines, List.exists_mem_cons_iff]
      refine or_congr_left ?_
      rcases hwhat with ⟨hadv, rfl, -⟩ | ⟨hnot, ⟨e, rfl⟩, -⟩
      · simp [hadv, eq_comm]
      · simp [hnot]

/-! ## The tick as a whole -/

theorem mem_dueRows {c : Cron} : c ∈ dueRows tick db ↔ c ∈ db.crons ∧ c.Due tick.due := by
  unfold dueRows
  rw [List.mem_insertionSort, List.mem_filter, (tick.perm db.crons).mem_iff, decide_eq_true_iff]

theorem dueRows_names_nodup (tick : Tick) (db : Db) : ((dueRows tick db).map Cron.name).Nodup := by
  have hscan : ((tick.scan db.crons).map Cron.name).Nodup :=
    ((tick.perm db.crons).map Cron.name).nodup_iff.mpr (db.valid .cronPkey)
  unfold dueRows
  rw [((List.perm_insertionSort _ _).map Cron.name).nodup_iff]
  exact hscan.sublist (List.filter_sublist.map Cron.name)

theorem dueRows_sorted (tick : Tick) (db : Db) :
    (dueRows tick db).Pairwise fun c d => c.nextRunAt ≤ d.nextRunAt := by
  have : Std.Total fun c d : Cron => c.nextRunAt ≤ d.nextRunAt := ⟨fun c d => le_total _ _⟩
  have : IsTrans Cron fun c d : Cron => c.nextRunAt ≤ d.nextRunAt := ⟨fun _ _ _ => le_trans⟩
  exact List.pairwise_insertionSort _ _

theorem mem_dueRows_of_examined {c : Cron} (h : c ∈ examined limit tick db) : c ∈ dueRows tick db :=
  List.mem_of_mem_take h

theorem dueCron_eq (hlimit : 0 ≤ limit) (tick : Tick) (db : Db) :
    dueCron limit tick db = .ok ((examined limit tick db).map dueEntry) := if_neg (not_lt.mpr hlimit)

theorem fireDueSchedules_spec (crates : Crates) (hlimit : 0 ≤ limit) (tick : Tick) (db : Db) :
    (fireDueSchedules crates limit tick db).1.jobs = db.jobs ++ firedJobs tick db
        ((examined limit tick db).filter (advances crates tick.now)) ∧
      (fireDueSchedules crates limit tick db).1.crons = db.crons.map
        (fun d => if d ∈ examined limit tick db then advanced crates tick d else d) ∧
      ∀ name, Fires crates limit tick db name ↔
        ∃ c ∈ examined limit tick db, c.name = name ∧ advances crates tick.now c := by
  have hfire : fireDueSchedules crates limit tick db =
      fireEntries crates tick db ((examined limit tick db).map dueEntry) := by
    unfold fireDueSchedules
    rw [dueCron_eq hlimit]
  unfold Fires
  rw [hfire]
  exact fireEntries_spec _
    ((dueRows_names_nodup tick db).sublist ((List.take_sublist _ _).map Cron.name)) db
    fun c hc => mem_dueRows.mp (mem_dueRows_of_examined hc)

/-- A schedule fires if a tick gets to its row and can advance it. -/
theorem fires_iff (hlimit : 0 ≤ limit) {c : Cron} (hc : c ∈ db.crons) :
    Fires crates limit tick db c.name ↔
      c ∈ examined limit tick db ∧ advances crates tick.now c := by
  rw [(fireDueSchedules_spec crates hlimit tick db).2.2]
  constructor
  · intro h
    obtain ⟨d, hd, hname, hadv⟩ := h
    have hmem := (mem_dueRows.mp (mem_dueRows_of_examined hd)).1
    obtain rfl := List.inj_on_of_nodup_map (db.valid .cronPkey) hmem hc hname
    exact ⟨hd, hadv⟩
  · exact fun h => ⟨c, h.1, rfl, h.2⟩

theorem parses_of_advances {now : Time} {c : Cron} (h : advances crates now c) : parses crates c := by
  obtain ⟨next, hnext⟩ := advances_iff.mp h
  obtain ⟨schedule, hparse, -⟩ := advance_ok hnext
  unfold parses
  rw [hparse]
  rfl

/-- What fires is no more than what the examined rows have of parseable ones, and
that no more than the first parseable ones. -/
theorem fired_sublist (crates : Crates) (limit : Int) (tick : Tick) (db : Db) :
    ((examined limit tick db).filter (advances crates tick.now)).Sublist
        ((examined limit tick db).filter (parses crates)) ∧
      ((examined limit tick db).filter (parses crates)).Sublist (wanted crates limit tick db) := by
  constructor
  · exact List.monotone_filter_right _ fun c h => parses_of_advances h
  · have hfirst := Taking.filter_take (l := dueRows tick db) (n := limit.toNat) (parses crates)
    have hlen : ((examined limit tick db).filter (parses crates)).length ≤ limit.toNat :=
      (List.length_filter_le _ _).trans (List.length_take_le _ _)
    unfold wanted
    rw [examined, hfirst]
    exact List.take_sublist_take_left hlen

theorem fired_eq_parsed_iff :
    (examined limit tick db).filter (advances crates tick.now) =
      (examined limit tick db).filter (parses crates) ↔ Unspent crates limit tick db := by
  constructor
  · intro h c hc hp
    have hmem : c ∈ (examined limit tick db).filter (advances crates tick.now) :=
      h ▸ List.mem_filter.mpr ⟨hc, hp⟩
    exact (List.mem_filter.mp hmem).2
  · intro h
    exact List.filter_congr fun c hc => Bool.eq_iff_iff.mpr ⟨parses_of_advances, h c hc⟩

theorem fired_eq_wanted_iff :
    (examined limit tick db).filter (advances crates tick.now) = wanted crates limit tick db ↔
      Advanceable crates limit tick db := by
  obtain ⟨hfirst, hsecond⟩ := fired_sublist crates limit tick db
  have hnd : (dueRows tick db).Nodup := List.Nodup.of_map Cron.name (dueRows_names_nodup tick db)
  have hhalf := Taking.filter_take_eq_iff (n := limit.toNat) (parses crates) hnd
  constructor
  · intro h
    have hparsed : (examined limit tick db).filter (parses crates) = wanted crates limit tick db :=
      hsecond.eq_of_length_le (h ▸ hfirst.length_le)
    refine ⟨fired_eq_parsed_iff.mp (h.trans hparsed.symm), fun hbad => ?_⟩
    obtain ⟨c, hc, hnot⟩ := hbad
    exact (hhalf.mp hparsed).resolve_left fun hall => hnot (hall c hc)
  · intro h
    rw [fired_eq_parsed_iff.mpr h.left]
    refine hhalf.mpr ?_
    by_cases hbad : ∃ c ∈ examined limit tick db, ¬ parses crates c
    · exact .inr (h.behind hbad)
    · exact .inl fun c hc => by_contra fun hnot => hbad ⟨c, hc, hnot⟩

/-- A job does not name its schedule, but how many there are settles which fired. -/
theorem inserts_iff (hlimit : 0 ≤ limit) {rows : List Cron}
    (hsub : ((examined limit tick db).filter (advances crates tick.now)).Sublist rows) :
    Inserts crates limit tick db rows ↔
      (examined limit tick db).filter (advances crates tick.now) = rows := by
  unfold Inserts
  rw [(fireDueSchedules_spec crates hlimit tick db).1, List.append_cancel_left_eq]
  constructor
  · intro h
    have hlen := congrArg List.length h
    simp only [firedJobs, List.length_mapIdx] at hlen
    exact hsub.eq_of_length hlen
  · exact fun h => h ▸ rfl

theorem inserts_parsed_iff (hlimit : 0 ≤ limit) :
    Inserts crates limit tick db ((examined limit tick db).filter (parses crates)) ↔
      Unspent crates limit tick db :=
  (inserts_iff hlimit (fired_sublist crates limit tick db).1).trans fired_eq_parsed_iff

theorem inserts_wanted_iff (hlimit : 0 ≤ limit) :
    Inserts crates limit tick db (wanted crates limit tick db) ↔ Advanceable crates limit tick db := by
  obtain ⟨hfirst, hsecond⟩ := fired_sublist crates limit tick db
  exact (inserts_iff hlimit (hfirst.trans hsecond)).trans fired_eq_wanted_iff

/-! ## Tick after tick -/

/-- The readings of one clock by one worker: each tick's in their order, and each
tick's after those of the one before. -/
structure Ordered (ticks : Nat → Tick) : Prop where
  within : ∀ n, (ticks n).due ≤ (ticks n).now
  between : ∀ n, (ticks n).now ≤ (ticks (n + 1)).due

/-- The store after the first `n` ticks. -/
def after (crates : Crates) (limit : Int) (ticks : Nat → Tick) (db : Db) : Nat → Db
  | 0 => db
  | n + 1 => (fireDueSchedules crates limit (ticks n) (after crates limit ticks db n)).1

/-- A row that does not fire stays as it is. -/
theorem stays (hlimit : 0 ≤ limit) {c : Cron} (hc : c ∈ db.crons)
    (h : c ∈ examined limit tick db → ¬ advances crates tick.now c) :
    c ∈ (fireDueSchedules crates limit tick db).1.crons := by
  rw [(fireDueSchedules_spec crates hlimit tick db).2.1]
  refine List.mem_map.mpr ⟨c, hc, ?_⟩
  split
  · next hin => exact advanced_of_not (h hin)
  · rfl

/-- The rows that are to run no later than `c`. -/
def ahead (db : Db) (c : Cron) : Nat := db.crons.countP fun d => d.nextRunAt ≤ c.nextRunAt

/-- No row moves to before a due one. -/
theorem nextRunAt_le_of_advanced (hclock : tick.due ≤ tick.now) {c d : Cron} (hc : c.Due tick.due)
    (h : (if d ∈ examined limit tick db then advanced crates tick d else d).nextRunAt ≤ c.nextRunAt) :
    d.nextRunAt ≤ c.nextRunAt := by
  split at h
  · by_cases hadv : advances crates tick.now d
    · exact absurd h (not_le.mpr ((hc.2.trans hclock).trans_lt (lt_advanced hadv)))
    · rwa [advanced_of_not hadv] at h
  · exact h

theorem ahead_le (hlimit : 0 ≤ limit) (hclock : tick.due ≤ tick.now) {c : Cron} (hc : c.Due tick.due) :
    ahead (fireDueSchedules crates limit tick db).1 c ≤ ahead db c := by
  unfold ahead
  rw [(fireDueSchedules_spec crates hlimit tick db).2.1, List.countP_map]
  refine List.countP_mono_left fun d _ hd => ?_
  simp only [Function.comp_apply, decide_eq_true_eq] at hd ⊢
  exact nextRunAt_le_of_advanced hclock hc hd

/-- A tick that does not get to a schedule but fires another brings it nearer:
what fires moves behind it. -/
theorem ahead_lt (hlimit : 0 ≤ limit) (hclock : tick.due ≤ tick.now) {c d : Cron}
    (hc : c ∈ dueRows tick db) (hout : c ∉ examined limit tick db) (hd : d ∈ examined limit tick db)
    (hadv : advances crates tick.now d) :
    ahead (fireDueSchedules crates limit tick db).1 c < ahead db c := by
  have hdue := (mem_dueRows.mp hc).2
  have hle : d.nextRunAt ≤ c.nextRunAt := Taking.rel_of_mem_take (dueRows_sorted tick db) hd hc hout
  unfold ahead
  rw [(fireDueSchedules_spec crates hlimit tick db).2.1, List.countP_map]
  refine Taking.countP_lt_countP ?_ (mem_dueRows.mp (mem_dueRows_of_examined hd)).1 ?_
    (decide_eq_true hle)
  · intro e _ he
    simp only [Function.comp_apply, decide_eq_true_eq] at he ⊢
    exact nextRunAt_le_of_advanced hclock hdue he
  · simp only [Function.comp_apply, if_pos hd, decide_eq_true_eq]
    exact not_le.mpr ((hdue.2.trans hclock).trans_lt (lt_advanced hadv))

section
variable (crates limit)
variable (ticks : Nat → Tick) (db : Db)

/-- Every due schedule that parses fires on that tick or on a later one. -/
def FiresLater : Prop :=
  ∀ n, ∀ c ∈ (after crates limit ticks db n).crons, c.Due (ticks n).due → parses crates c →
    ∃ m, n ≤ m ∧ Fires crates limit (ticks m) (after crates limit ticks db m) c.name

/-- While a schedule that parses is due, some tick gets to a row that parses. -/
def Unblocked : Prop :=
  ∀ n, ∀ c ∈ (after crates limit ticks db n).crons, c.Due (ticks n).due → parses crates c →
    ∃ m, n ≤ m ∧ ∃ d ∈ examined limit (ticks m) (after crates limit ticks db m), parses crates d

end

section
variable {ticks : Nat → Tick}

/-- A due schedule the ticks do not get to waits, and none gets before it. -/
theorem waits (hlimit : 0 ≤ limit) (hord : Ordered ticks) {n : Nat} {c : Cron}
    (hc : c ∈ dueRows (ticks n) (after crates limit ticks db n)) :
    ∀ k, (∀ i < k, c ∉ examined limit (ticks (n + i)) (after crates limit ticks db (n + i))) →
      c ∈ dueRows (ticks (n + k)) (after crates limit ticks db (n + k)) ∧
        ahead (after crates limit ticks db (n + k)) c ≤ ahead (after crates limit ticks db n) c := by
  intro k
  induction k with
  | zero => exact fun _ => ⟨hc, le_refl _⟩
  | succ k ih =>
    intro hout
    obtain ⟨hdue, hle⟩ := ih fun i hi => hout i (by omega)
    obtain ⟨hmem, hdue⟩ := mem_dueRows.mp hdue
    refine ⟨mem_dueRows.mpr ⟨stays hlimit hmem fun h => absurd h (hout k (by omega)), ?_⟩, ?_⟩
    · exact Due.mono ((hord.within (n + k)).trans (hord.between (n + k))) hdue
    · exact (ahead_le hlimit (hord.within (n + k)) hdue).trans hle

/-- While no examined row is at its last occurrence, a due schedule that parses
waits forever only if the ticks get to rows that do not parse alone. -/
theorem fires_later (hlimit : 0 ≤ limit) (hord : Ordered ticks)
    (hleft : ∀ n, Unspent crates limit (ticks n) (after crates limit ticks db n))
    (hfree : Unblocked crates limit ticks db) : FiresLater crates limit ticks db := by
  intro n c hmem hdue hp
  -- by how many rows are to run no later than `c`
  induction hk : ahead (after crates limit ticks db n) c using Nat.strong_induction_on generalizing n with
  | _ k ih =>
    obtain ⟨m, hnm, d, hd, hdp⟩ := hfree n c hmem hdue hp
    obtain ⟨i, rfl⟩ := Nat.exists_eq_add_of_le hnm
    by_cases hin : ∃ j, c ∈ examined limit (ticks (n + j)) (after crates limit ticks db (n + j))
    · obtain ⟨j, hj⟩ := hin
      have hrow := (mem_dueRows.mp (mem_dueRows_of_examined hj)).1
      exact ⟨n + j, by omega, (fires_iff hlimit hrow).mpr ⟨hj, hleft _ c hj hp⟩⟩
    · have hout := fun j (hj : c ∈ examined limit (ticks (n + j)) (after crates limit ticks db (n + j))) =>
        hin ⟨j, hj⟩
      have hc := mem_dueRows.mpr ⟨hmem, hdue⟩
      obtain ⟨hthere, hle⟩ := waits hlimit hord hc i fun j _ => hout j
      obtain ⟨hnext, -⟩ := waits hlimit hord hc (i + 1) fun j _ => hout j
      have hlt := ahead_lt hlimit (hord.within (n + i)) hthere (hout i) hd (hleft _ d hd hdp)
      obtain ⟨hmem', hdue'⟩ := mem_dueRows.mp hnext
      obtain ⟨m, hm, hfires⟩ := ih _ (hk ▸ hlt.trans_le hle) (n + i + 1) hmem' hdue' rfl
      exact ⟨m, by omega, hfires⟩

theorem unblocked_of_firesLater (hlimit : 0 ≤ limit) (h : FiresLater crates limit ticks db) :
    Unblocked crates limit ticks db := by
  intro n c hc hdue hp
  obtain ⟨m, hm, hfires⟩ := h n c hc hdue hp
  obtain ⟨d, hd, -, hadv⟩ := ((fireDueSchedules_spec crates hlimit _ _).2.2 c.name).mp hfires
  exact ⟨m, hm, d, hd, parses_of_advances hadv⟩

/-- If what every tick examines can be advanced, no tick is blocked. -/
theorem unblocked_of_advanceable (hlimit : 1 ≤ limit)
    (h : ∀ n, Advanceable crates limit (ticks n) (after crates limit ticks db n)) :
    Unblocked crates limit ticks db := by
  intro n c hc hdue hp
  have hrow : c ∈ dueRows (ticks n) (after crates limit ticks db n) := mem_dueRows.mpr ⟨hc, hdue⟩
  -- there is a row to examine: the limit is positive and `c` is due
  obtain ⟨d, hd⟩ : ∃ d, d ∈ examined limit (ticks n) (after crates limit ticks db n) := by
    refine List.exists_mem_of_ne_nil _ fun hnil => ?_
    rcases List.take_eq_nil_iff.mp hnil with hzero | hnone
    · omega
    · rw [hnone] at hrow
      cases hrow
  by_cases hdp : parses crates d
  · exact ⟨n, le_refl n, d, hd, hdp⟩
  · exact ⟨n, le_refl n, c, (h n).behind ⟨d, hd, hdp⟩ c hrow hp, hp⟩

end

/-! ## Rows in the way -/

/-- The due rows before `c` that the tick cannot advance. -/
def inTheWay (crates : Crates) (tick : Tick) (db : Db) (c : Cron) : List Cron :=
  db.crons.filter fun d => d.Due tick.due ∧ d.nextRunAt < c.nextRunAt ∧ ¬ advances crates tick.now d

theorem mem_inTheWay {c d : Cron} : d ∈ inTheWay crates tick db c ↔
    d ∈ db.crons ∧ d.Due tick.due ∧ d.nextRunAt < c.nextRunAt ∧ ¬ advances crates tick.now d := by
  unfold inTheWay
  rw [List.mem_filter, decide_eq_true_iff]

theorem inTheWay_nodup (crates : Crates) (tick : Tick) (db : Db) (c : Cron) :
    (inTheWay crates tick db c).Nodup :=
  (List.Nodup.of_map Cron.name (db.valid .cronPkey)).filter _

/-- As many of them as the tick examines, and it does not get to `c`. -/
theorem not_examined {c : Cron} (h : limit.toNat ≤ (inTheWay crates tick db c).length) :
    c ∉ examined limit tick db := by
  intro hc
  have hsub : c :: inTheWay crates tick db c ⊆ examined limit tick db := by
    intro d hd
    rcases List.mem_cons.mp hd with rfl | hd
    · exact hc
    · obtain ⟨hmem, hdue, hlt, -⟩ := mem_inTheWay.mp hd
      by_contra hout
      exact absurd hlt (not_lt.mpr (Taking.rel_of_mem_take (dueRows_sorted tick db) hc
        (mem_dueRows.mpr ⟨hmem, hdue⟩) hout))
  have hfresh : c ∉ inTheWay crates tick db c := fun hin => lt_irrefl _ (mem_inTheWay.mp hin).2.2.1
  have hnodup := List.nodup_cons.mpr ⟨hfresh, inTheWay_nodup crates tick db c⟩
  have hlen := (List.subperm_of_subset hnodup hsub).length_le
  have htake : (examined limit tick db).length ≤ limit.toNat := List.length_take_le _ _
  rw [List.length_cons] at hlen
  omega

/-- They are still in the way on the next tick. -/
theorem inTheWay_subset (crates : Crates) (db : Db) (hlimit : 0 ≤ limit) {later : Tick}
    (hdue : tick.due ≤ later.due) (hnow : tick.now ≤ later.now) (c : Cron) : inTheWay crates tick db c ⊆
      inTheWay crates later (fireDueSchedules crates limit tick db).1 c := by
  intro d hd
  obtain ⟨hmem, hddue, hlt, hnot⟩ := mem_inTheWay.mp hd
  refine mem_inTheWay.mpr ⟨stays hlimit hmem fun _ => hnot, Due.mono hdue hddue, hlt, fun h => ?_⟩
  obtain ⟨next, hnext⟩ := advances_iff.mp h
  exact hnot (advances_iff.mpr (advance_earlier hnow hnext))

/-- A schedule behind as many rows that cannot be advanced as a tick examines
never fires. -/
theorem never_fires {ticks : Nat → Tick} (hlimit : 0 ≤ limit) (hord : Ordered ticks) {c : Cron}
    (hc : c ∈ db.crons) (h : limit.toNat ≤ (inTheWay crates (ticks 0) db c).length) (n : Nat) :
    ¬ Fires crates limit (ticks n) (after crates limit ticks db n) c.name := by
  have hinv : ∀ n, c ∈ (after crates limit ticks db n).crons ∧
      limit.toNat ≤ (inTheWay crates (ticks n) (after crates limit ticks db n) c).length := by
    intro n
    induction n with
    | zero => exact ⟨hc, h⟩
    | succ n ih =>
      obtain ⟨hmem, hlen⟩ := ih
      have hdue := (hord.within n).trans (hord.between n)
      have hsub := inTheWay_subset crates (after crates limit ticks db n) hlimit hdue
        ((hord.between n).trans (hord.within (n + 1))) c
      refine ⟨stays hlimit hmem fun hin => absurd hin (not_examined hlen), hlen.trans ?_⟩
      exact (List.subperm_of_subset (inTheWay_nodup _ _ _ _) hsub).length_le
  intro hfires
  obtain ⟨hmem, hlen⟩ := hinv n
  exact not_examined hlen ((fires_iff hlimit hmem).mp hfires).1

end

/-- **Which due schedules fire.** A tick inserts one job for each of the first
`limit` due schedules that parse if and only if what it examines is advanceable;
it does so for those of the first `limit` due schedules that parse if and only if
none of them is at its last occurrence. Over a run of ticks, that every tick does
so and every due schedule that parses fires in the end comes to the condition on
every tick, in the second case with no schedule blocked. One with `limit` rows
before it that cannot be advanced never fires. -/
theorem due_schedules_fire (crates : Crates) {limit : Int} (hlimit : 1 ≤ limit) :
    (∀ tick db,
      (Inserts crates limit tick db (wanted crates limit tick db) ↔ Advanceable crates limit tick db) ∧
      (Inserts crates limit tick db ((examined limit tick db).filter (parses crates)) ↔
        Unspent crates limit tick db)) ∧
    (∀ ticks db, Ordered ticks →
      ((∀ n, Inserts crates limit (ticks n) (after crates limit ticks db n)
          (wanted crates limit (ticks n) (after crates limit ticks db n))) ∧
        FiresLater crates limit ticks db ↔
          ∀ n, Advanceable crates limit (ticks n) (after crates limit ticks db n)) ∧
      ((∀ n, Inserts crates limit (ticks n) (after crates limit ticks db n)
          ((examined limit (ticks n) (after crates limit ticks db n)).filter (parses crates))) ∧
        FiresLater crates limit ticks db ↔
          (∀ n, Unspent crates limit (ticks n) (after crates limit ticks db n)) ∧
            Unblocked crates limit ticks db)) ∧
    (∀ ticks (db : Db), Ordered ticks → ∀ c ∈ db.crons,
      limit.toNat ≤ (inTheWay crates (ticks 0) db c).length →
        ¬ ∃ n, Fires crates limit (ticks n) (after crates limit ticks db n) c.name) := by
  have hnonneg : 0 ≤ limit := by omega
  refine ⟨fun tick db => ⟨inserts_wanted_iff hnonneg, inserts_parsed_iff hnonneg⟩, ?_, ?_⟩
  · intro ticks db hord
    refine ⟨⟨fun h n => ?_, fun h => ⟨fun n => ?_, ?_⟩⟩, ⟨fun h => ⟨fun n => ?_, ?_⟩, fun h => ⟨fun n => ?_, ?_⟩⟩⟩
    · exact (inserts_wanted_iff hnonneg).mp (h.1 n)
    · exact (inserts_wanted_iff hnonneg).mpr (h n)
    · exact fires_later hnonneg hord (fun n => (h n).left) (unblocked_of_advanceable hlimit h)
    · exact (inserts_parsed_iff hnonneg).mp (h.1 n)
    · exact unblocked_of_firesLater hnonneg h.2
    · exact (inserts_parsed_iff hnonneg).mpr (h.1 n)
    · exact fires_later hnonneg hord h.1 h.2
  · intro ticks db hord c hc hway hfires
    obtain ⟨n, hfires⟩ := hfires
    exact never_fires hnonneg hord hc hway n hfires

/-! ## Ticks at one instant -/

/-- A tick during which no time passes and rows are met in the order they lie in. -/
def Tick.still (at_ : Time) : Tick where
  due := at_
  now := at_
  firing _ := at_
  scan rows := rows
  later _ := le_refl at_
  perm rows := .refl rows

/-- One tick a minute. -/
def minutes (n : Nat) : Tick := .still (120 + 60 * n)

theorem minutes_ordered : Ordered minutes where
  within n := le_refl _
  between n := by
    show (120 + 60 * n : Int) ≤ 120 + 60 * ((n + 1 : Nat) : Int)
    omega

inductive Pattern where
  | minutely
  | newYear
deriving DecidableEq

/-- Two expressions: one that occurs every minute, and one with a year that
occurs once, at 100. -/
def twoPatterns : Crates where
  Zone := Unit
  Cron := Pattern
  zone name := if name = "UTC" then some () else none
  cron text :=
    if text = "0 * * * * * *" then .ok .minutely
    else if text = "0 0 0 1 1 * 2030" then .ok .newYear
    else .error "Invalid expression"
  text
    | .minutely => "0 * * * * * *"
    | .newYear => "0 0 0 1 1 * 2030"
  occurs
    | .minutely, _, t => 60 ∣ t
    | .newYear, _, t => t = 100
  after
    | .minutely, _, t => some ((t / 60 + 1) * 60)
    | .newYear, _, t => if t < 100 then some 100 else none
  least := by
    intro c z t n h
    cases c with
    | minutely =>
      cases h
      exact isLeast_multiple (by decide) t
    | newYear =>
      simp only at h
      split at h
      · next hlt =>
        cases h
        exact ⟨⟨rfl, hlt⟩, fun m hm => hm.1.ge⟩
      · cases h
  last := by
    intro c z t h m hm
    cases c with
    | minutely => cases h
    | newYear =>
      simp only at h hm
      split at h
      · cases h
      · next hge => exact hm.le.trans (not_lt.mp hge)

def scheduled (name expression : String) (next : Time) : Cron where
  name := name
  queue := "default"
  task := name
  payload := []
  expression := expression
  timezone := "UTC"
  nextRunAt := next

/-- A schedule at its one occurrence. -/
def once : Db := Db.after [.upsertCron (scheduled "new year" "0 0 0 1 1 * 2030" 100)]

/-- A row nobody can read, and behind it one that runs every minute. -/
def broken : Db :=
  Db.after [.upsertCron (scheduled "cleanup" "every day" 50), .upsertCron (scheduled "report" "* * * * *" 60)]

/-- The one occurrence of a schedule never fires, and with a limit of one a row
that does not parse keeps the report from ever running. -/
theorem schedules_left_unfired :
    ((fireDueSchedules twoPatterns 1 (.still 101) once).1.jobs = [] ∧
      (fireDueSchedules twoPatterns 1 (.still 101) once).2 =
        [.cannotAdvance "new year" (.noOccurrence "0 0 0 1 1 * 2030")] ∧
      (wanted twoPatterns 1 (.still 101) once).map Cron.name = ["new year"]) ∧
    scheduled "report" "* * * * *" 60 ∈ broken.crons ∧
    advances twoPatterns 120 (scheduled "report" "* * * * *" 60) = true ∧
    ¬ ∃ n, Fires twoPatterns 1 (minutes n) (after twoPatterns 1 minutes broken n) "report" := by
  refine ⟨by decide, by decide, by decide, fun hfires => ?_⟩
  obtain ⟨n, hfires⟩ := hfires
  have hrow : scheduled "report" "* * * * *" 60 ∈ broken.crons := by decide
  exact never_fires (by decide) minutes_ordered hrow (by decide) n hfires

/-- Every text is read as the pattern that occurs every minute. -/
def everyMinute : Crates :=
  { twoPatterns with
    zone := fun _ => some ()
    cron := fun _ => .ok .minutely }

theorem advanceable_everyMinute (limit : Int) (tick : Tick) (db : Db) :
    Advanceable everyMinute limit tick db where
  left _ _ _ := rfl
  behind hbad := by
    obtain ⟨c, -, hnot⟩ := hbad
    exact absurd rfl hnot

/-- Two schedules are due and a tick examines one row. -/
def waiting : Db :=
  Db.after [.upsertCron (scheduled "report" "* * * * *" 60), .upsertCron (scheduled "summary" "* * * * *" 120)]

theorem due_schedules_fire_in_turn : (1 : Int) ≤ 1 ∧
    ∃ m, 0 ≤ m ∧ Fires everyMinute 1 (minutes m) (after everyMinute 1 minutes waiting m) "summary" :=
  ⟨le_refl 1, (((due_schedules_fire everyMinute (le_refl 1)).2.1 minutes waiting
    minutes_ordered).1.mpr fun _ => advanceable_everyMinute _ _ _).2 0
      (scheduled "summary" "* * * * *" 120) (by decide) (by decide) rfl⟩

/-! ## The tick among the fleet's steps -/

/-- The fleet's `FIRE_CRON` leaves what the worker's own call leaves. -/
theorem fleet_fireCron_db (s : Fleet) (name : String) (next : Time) :
    (s.fireCron name next).db = match fireCron s.db name next s.clock with
      | .ok (db', _) => db'
      | .error _ => s.db := by
  unfold Fleet.fireCron fireCron
  cases hrun : s.db.run (.fireCron name next s.clock) with
  | error e => rfl
  | ok db' =>
    cases hwon : s.db.wonCron name s.clock with
    | some won => rfl
    | none =>
      -- nothing was won, and nothing was written
      have heff := Db.run_ok hrun
      simp only [Stmt.effect, Tables.fireCron, hwon] at heff
      cases db'
      cases hdb : s.db
      rw [hdb] at heff
      cases heff
      rfl

/-- One `fireNext` of the fleet is one entry of the loop. -/
theorem step_fireNext (crates : Crates) {s : Fleet} {w : Nat} {entry : DueCron} {rest : List DueCron}
    (h : s.workers w = .firing s.clock (entry :: rest)) :
    (step crates.calendar s (.fireNext w)).db =
        (fireEntry crates (.still s.clock) s.db entry).1 ∧
      (step crates.calendar s (.fireNext w)).clock = s.clock ∧
      (step crates.calendar s (.fireNext w)).workers w = .firing s.clock rest := by
  simp only [step, h, Crates.calendar, fireEntry, Tick.still]
  cases crates.advance entry.expression entry.timezone s.clock with
  | error e => exact ⟨rfl, rfl, if_pos rfl⟩
  | ok next =>
    refine ⟨?_, ?_, if_pos rfl⟩
    · refine (fleet_fireCron_db s entry.name next).trans ?_
      cases hfire : fireCron s.db entry.name next s.clock with
      | error e => simp only [hfire]
      | ok won =>
        obtain ⟨db', job⟩ := won
        cases job <;> simp only [hfire]
    · show (s.fireCron entry.name next).clock = s.clock
      unfold Fleet.fireCron
      split <;> rfl

theorem run_fireNext (crates : Crates) (w : Nat) (entries : List DueCron) (s : Fleet)
    (h : s.workers w = .firing s.clock entries) :
    (Runs.run (step crates.calendar) s (List.replicate entries.length (.fireNext w))).db =
      (fireEntries crates (.still s.clock) s.db entries).1 := by
  induction entries generalizing s with
  | nil => rfl
  | cons entry rest ih =>
    obtain ⟨hdb, hclock, hlocal⟩ := step_fireNext crates h
    rw [List.length_cons, List.replicate_succ, Runs.run_cons, ih _ (hclock ▸ hlocal), hclock, hdb]
    rfl

/-- A worker of the fleet that goes through its due schedules with nobody in
between leaves the tables as `fire_due_schedules` does. -/
theorem run_tick (crates : Crates) {limit : Int} (hlimit : 0 ≤ limit) (w : Nat) (s : Fleet) :
    (Runs.run (step crates.calendar) s (.dueCron w limit :: .readClock w ::
        List.replicate (examined limit (.still s.clock) s.db).length (.fireNext w))).db =
      (fireDueSchedules crates limit (.still s.clock) s.db).1 := by
  have hread : step crates.calendar (step crates.calendar s (.dueCron w limit)) (.readClock w) =
      (s.set w (.due ((examined limit (.still s.clock) s.db).map dueEntry))).set w
        (.firing s.clock ((examined limit (.still s.clock) s.db).map dueEntry)) := by
    have hlook : step crates.calendar s (.dueCron w limit) =
        s.set w (.due ((examined limit (.still s.clock) s.db).map dueEntry)) :=
      if_neg (not_lt.mpr hlimit)
    rw [hlook]
    simp [step, Fleet.set]
  have hlength : ((examined limit (.still s.clock) s.db).map dueEntry).length =
      (examined limit (.still s.clock) s.db).length := List.length_map dueEntry
  rw [Runs.run_cons, Runs.run_cons, hread, fireDueSchedules, dueCron_eq hlimit, ← hlength]
  exact run_fireNext crates w _ _ (if_pos rfl)

end Gylo.Worker.Ticks
