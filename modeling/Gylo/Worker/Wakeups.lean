import Gylo.Worker.Fleet

/-! # Waking up

`run` keeps one `listen` task beside its children. It receives the queues that are
named on the channel and wakes every dispatcher that waits for jobs; a dispatcher
that hears nothing polls. "Losing the listener costs latency rather than
correctness": how much, and what else can cost it, is the subject here. -/
namespace Gylo.Worker.Wakeups

open Gylo.Store Gylo.Store.FetchCall Gylo.Store.Notifications Gylo.Wire Gylo.Worker.Session Gylo.Worker.Fleet Runs

/-! ## The listener and the children -/

/-- One configuration for all children, and a worker id for each. -/
structure Crew (n : Nat) where
  base : Settings
  worker : Fin n → Uuid
  pollInterval : Nat := 200000

variable {n : Nat}

def Crew.cfg (c : Crew n) (i : Fin n) : Settings := { c.base with worker := c.worker i }

/-- The children, whether `LISTEN` is in effect, the notifications that have not been
received, and when each dispatcher began to wait. -/
structure State (n : Nat) where
  fleet : Fleet.State n
  connected : Bool := false
  stream : List String := []
  parked : Fin n → Time := fun _ => 0

/-- `dispatch` is in the `select!` of an empty fetch. -/
def waits (s : Supervisor) : Bool :=
  match s.phase, s.dispatch with
  | .serving, .idle => true
  | _, _ => false

/-- `fetch` has found no job without a key: `dispatch` is on its way to that `select!`, and
nobody can wake it there yet. -/
def looked (s : Supervisor) : Bool :=
  match s.dispatch with
  | .asking _ => true
  | .admitting _ jobs => jobs.isEmpty
  | _ => false

inductive Act (n : Nat) where
  | fleet (a : Fleet.Act n)
  | poll (i : Fin n)
  | connect
  | lose
  | recv

section
variable (c : Crew n) (serde : Serde)

/-- The statement a step of the fleet executes. -/
def statement (f : Fleet.State n) : Fleet.Act n → Option Stmt
  | .member i a => if own a then executed (c.cfg i) (f.view i) a else none
  | .outside stmt =>
    if (List.finRange n).any (fun i => actsFor stmt = some (c.cfg i).worker) || ahead f.now stmt then none
    else some stmt
  | .tick _ => none

/-- The queues it names. -/
def spoken (f : Fleet.State n) (a : Fleet.Act n) : List String :=
  match statement c f a with
  | some stmt => announces f.db stmt
  | none => []

/-- `wakeup.notify_waiters()`: whoever waits now goes back to the top of its loop. -/
def wakeAll (f : Fleet.State n) : Fleet.State n :=
  { f with members := fun i =>
      if waits (f.members i) then { f.members i with dispatch := .checking } else f.members i }

/-- A dispatcher that waits is not woken by itself, and the clock does not pass the end
of its `sleep`. -/
def refused (w : State n) : Fleet.Act n → Bool
  | .member i (.dispatch .wake) => waits (w.fleet.members i)
  | .tick d => (List.finRange n).any fun i =>
    waits (w.fleet.members i) && decide (w.parked i + c.pollInterval < w.fleet.now + d)
  | _ => false

def step (w : State n) : Act n → State n
  | .fleet a =>
    if refused c w a then w
    else
      { w with
        fleet := Fleet.step c.cfg serde w.fleet a
        stream := if w.connected then w.stream ++ spoken c w.fleet a else w.stream
        parked := fun i =>
          if waits (w.fleet.members i) then w.parked i else (Fleet.step c.cfg serde w.fleet a).now }
  | .poll i =>
    if waits (w.fleet.members i) && decide (w.parked i + c.pollInterval ≤ w.fleet.now) then
      { w with fleet := Fleet.step c.cfg serde w.fleet (.member i (.dispatch .wake)) }
    else w
  | .connect => { w with connected := true }
  | .lose => { w with connected := false, stream := [] }
  | .recv => match w.stream with
    | q :: rest =>
      { w with stream := rest, fleet := if q ∈ c.base.queues then wakeAll w.fleet else w.fleet }
    | [] => w

/-- `run` when it has spawned its tasks. -/
def initial (db : Db) : State n := { fleet := Fleet.initial db }

/-! ## What can be missed -/

/-- A job without a key that a fetch would return. -/
def Ready (db : Db) (now : Time) (j : Job) : Prop :=
  j ∈ db.jobs ∧ j.concurrencyKey = none ∧ j.Due c.base.queues now

/-- What a step must not do while a dispatcher waits, for it to hear of every job: execute
a statement when nobody listens, on another clock, or that makes a job due silently;
let a delay run out. -/
structure Heard (w : State n) (a : Fleet.Act n) : Prop where
  connected : ∀ stmt ∈ statement c w.fleet a, w.connected = true
  clock : ∀ stmt ∈ statement c w.fleet a, ∀ time ∈ time? stmt, time = w.fleet.now
  spoken : ∀ stmt ∈ statement c w.fleet a, ∀ j ∈ w.fleet.db.jobs, j.concurrencyKey = none → ¬ Silent j stmt
  delays : ∀ j, Ready c w.fleet.db (Fleet.step c.cfg serde w.fleet a).now j → Ready c w.fleet.db w.fleet.now j

/-- No job becomes ready by the step. -/
def Quiet (w : State n) (a : Fleet.Act n) : Prop :=
  ∀ j, Ready c (Fleet.step c.cfg serde w.fleet a).db (Fleet.step c.cfg serde w.fleet a).now j →
    Ready c w.fleet.db w.fleet.now j

/-- A fetch that comes back without a job has passed over none: `SKIP LOCKED` passes over
a row that another transaction has in hand. -/
def Unlocked (w : State n) : Fleet.Act n → Prop
  | .member i (.dispatch (.fetchUnkeyed skip commit)) =>
    looked ((Fleet.step c.cfg serde w.fleet (.member i (.dispatch (.fetchUnkeyed skip commit)))).members i) = true →
      ∀ j, Ready c w.fleet.db w.fleet.now j → j.id ∉ skip
  | _ => True

/-- Nor may an empty fetch have passed over a locked job, or a job become ready between
such a fetch and the wait after it, or the connection be lost while a dispatcher waits. -/
def Audible (w : State n) : Act n → Prop
  | .fleet a =>
    (∀ i, waits (w.fleet.members i) = true → Heard c serde w a) ∧
    (∀ i, looked (w.fleet.members i) = true → Quiet c serde w a) ∧ Unlocked c serde w a
  | .lose => ∀ i, waits (w.fleet.members i) = false
  | _ => True
end

/-! ## On the way to a wait -/

section
variable {cfg : Settings} {serde : Serde} {s s' : Supervisor} {stmt : Option Stmt} {a : Session.Act}

theorem waits_iff : waits s = true ↔ s.phase = .serving ∧ s.dispatch = .idle := by
  unfold waits
  split
  · next hphase hdispatch => exact iff_of_true rfl ⟨hphase, hdispatch⟩
  · next hnot => exact iff_of_false (fun h => by cases h) fun h => hnot h.1 h.2

theorem looked_iff : looked s = true ↔ ∃ limit, s.dispatch = .asking limit ∨ s.dispatch = .admitting limit [] := by
  unfold looked
  split
  · next limit hat => exact iff_of_true rfl ⟨limit, .inl hat⟩
  · next limit jobs hat => simp [hat]
  · next hasking hadmitting =>
    refine iff_of_false (fun h => by cases h) fun h => ?_
    obtain ⟨limit, hat | hat⟩ := h
    · exact hasking limit hat
    · exact hadmitting limit [] hat

/-- `dispatch` moves by itself, but for a session that begins or ends. -/
theorem dispatch_move (h : Move cfg serde s a stmt s') :
    s'.dispatch = s.dispatch ∨ s'.dispatch = .checking ∨ s'.dispatch = .done false ∨
      ∃ b, a = .dispatch b ∧ DispatchMove cfg s b stmt s' := by
  cases h with
  | dispatch _ h => exact .inr (.inr (.inr ⟨_, rfl, h⟩))
  | collect h => exact .inl h.frame.dispatch
  | session h =>
    cases h with
    | opens => exact .inr (.inr (.inl rfl))
    | accepts => exact .inr (.inl rfl)
    | exits => exact .inr (.inr (.inl rfl))
    | _ => exact .inl rfl
  | renew h => cases h <;> exact .inl rfl
  | child h => cases h <;> exact .inl rfl
  | _ => exact .inl rfl

/-- A dispatcher asks for one job at least. -/
def Asks (s : Supervisor) : Prop := ∀ limit, s.dispatch = .fetching limit → 0 < limit

theorem asks_move (h : Move cfg serde s a stmt s') (hbatch : 0 < cfg.batch) (hs : Asks s) : Asks s' := by
  intro limit hat
  rcases dispatch_move h with hsame | hsame | hsame | ⟨b, -, hmove⟩
  · exact hs limit (hsame.symm.trans hat)
  · cases hsame.symm.trans hat
  · cases hsame.symm.trans hat
  · cases hmove with
    | stays => exact hs limit hat
    | turns hturns =>
      cases hturns with
      | calls _ _ hroom =>
        cases hat
        exact lt_min hbatch (Int.natCast_pos.mpr (Nat.pos_of_ne_zero hroom))
      | _ => cases hat
    | forwards =>
      dsimp only at hat
      split at hat <;> cases hat
    | unkeyed =>
      simp only [afterUnkeyed] at hat
      repeat' split at hat
      all_goals cases hat
    | keyed =>
      simp only [fetched] at hat
      split at hat <;> cases hat
    | _ => cases hat

/-- A dispatcher is on its way to a wait once it has leased nothing. -/
theorem looked_move (h : Move cfg serde s a stmt s') (hs' : looked s' = true) :
    looked s = true ∨ ∃ limit skip, a = .dispatch (.fetchUnkeyed skip .ok) ∧ s.dispatch = .fetching limit ∧
      s.db.run (.fetchUnkeyed (unkeyedArgs (call cfg limit) (meets s skip))) = .ok s'.db ∧
      returning s'.db.toTables (s.db.lockedUnkeyed (unkeyedArgs (call cfg limit) (meets s skip))) = [] := by
  obtain ⟨limit, hat⟩ := looked_iff.mp hs'
  rcases dispatch_move h with hsame | hsame | hsame | ⟨b, rfl, hmove⟩
  · exact .inl (looked_iff.mpr ⟨limit, hsame ▸ hat⟩)
  · rcases hat with hat | hat <;> cases hsame.symm.trans hat
  · rcases hat with hat | hat <;> cases hsame.symm.trans hat
  · cases hmove with
    | stays => exact .inl hs'
    | turns hturns =>
      cases hturns with
      | admits hasking => exact .inl (looked_iff.mpr ⟨_, .inl hasking⟩)
      | _ => rcases hat with hat | hat <;> cases hat
    | forwards =>
      dsimp only at hat
      split at hat <;> rcases hat with hat | hat <;> cases hat
    | unkeyed hfetching hrun =>
      refine .inr ⟨_, _, rfl, hfetching, hrun, ?_⟩
      by_contra hsome
      simp only [afterUnkeyed, if_neg hsome] at hat
      split at hat
      · rcases hat with hat | hat
        · cases hat
        · exact hsome (Dispatch.admitting.inj hat).2
      · rcases hat with hat | hat <;> cases hat
    | keyed =>
      simp only [fetched] at hat
      split at hat <;> rcases hat with hat | hat <;> cases hat
    | _ => rcases hat with hat | hat <;> cases hat

/-- Nobody begins to wait who was not on the way. -/
theorem waits_move (h : Move cfg serde s a stmt s') (hs' : waits s' = true) :
    waits s = true ∨ looked s = true := by
  obtain ⟨hphase, hat⟩ := waits_iff.mp hs'
  cases h with
  | stays => exact .inl hs'
  | dispatch hserving hmove =>
    cases hmove with
    | stays => exact .inl hs'
    | turns hturns =>
      cases hturns with
      | idles hasking => exact .inr (looked_iff.mpr ⟨_, .inl hasking⟩)
      | _ => cases hat
    | forwards =>
      dsimp only at hat
      split at hat <;> cases hat
    | unkeyed =>
      simp only [afterUnkeyed] at hat
      repeat' split at hat
      all_goals cases hat
    | @keyed limit jobs skip db' hadmitting hrun =>
      simp only [fetched] at hat
      split at hat
      · next hnone =>
        obtain ⟨rfl, -⟩ := List.append_eq_nil_iff.mp hnone
        exact .inr (looked_iff.mpr ⟨limit, .inr hadmitting⟩)
      · cases hat
    | _ => cases hat
  | collect h =>
    exact .inl (waits_iff.mpr ⟨h.frame.phase.symm.trans hphase, h.frame.dispatch.symm.trans hat⟩)
  | session h =>
    cases h with
    | stays => exact .inl hs'
    | kills => exact .inl hs'
    | shutdown => exact .inl hs'
    | leaves _ hdone => cases hdone.symm.trans hat
    | accepts => cases hat
    | exits => cases hat
    | _ => cases hphase
  | renew h => cases h <;> exact .inl hs'
  | child h => cases h <;> exact .inl hs'
  | outside => exact .inl hs'
  | tick => exact .inl hs'

/-- **An empty fetch that passed over nothing leaves nothing.** -/
theorem none_left {limit : Int} (hlimit : 0 < limit) {skip : List JobId} {db' : Db}
    (hrun : s.db.run (.fetchUnkeyed (unkeyedArgs (call cfg limit) (meets s skip))) = .ok db')
    (hempty : returning db'.toTables (s.db.lockedUnkeyed (unkeyedArgs (call cfg limit) (meets s skip))) = [])
    (hskip : ∀ j ∈ s.db.jobs, j.concurrencyKey = none → j.Due cfg.queues s.now → j.id ∉ skip) :
    ∀ j ∈ db'.jobs, j.concurrencyKey = none → ¬ j.Due cfg.queues s.now := by
  obtain ⟨hafter, -, hlength⟩ := first_pass hrun
  have hnone : s.db.lockedUnkeyed (unkeyedArgs (call cfg limit) (meets s skip)) = [] := by
    rw [hempty] at hlength
    exact List.length_eq_zero_iff.mp hlength.symm
  have hsame : db'.jobs = s.db.jobs := by
    rw [show db'.jobs = _ from congrArg Tables.jobs hafter, hnone]
    exact (List.map_congr_left fun j _ => if_neg List.not_mem_nil).trans (List.map_id _)
  intro j hj hkey hdue
  rw [hsame] at hj
  have hlocked := List.take_eq_nil_iff.mp hnone
  rcases hlocked with hzero | hsorted
  · have hzero : limit.toNat = 0 := hzero
    omega
  · have hin : j ∈ s.db.jobs.filter fun j =>
        j.Due cfg.queues s.now ∧ j.concurrencyKey = none ∧ j.id ∉ skip :=
      List.mem_filter.mpr ⟨hj, decide_eq_true ⟨hdue, hkey, hskip j hj hkey hdue⟩⟩
    exact List.ne_nil_of_mem ((List.mem_insertionSort Job.FetchLE).mpr hin) hsorted
end

section
variable {c : Crew n} {serde : Serde} {w : State n}

theorem step_statement (c : Crew n) (serde : Serde) (f : Fleet.State n) (a : Fleet.Act n) :
    (Fleet.step c.cfg serde f a).db = executeIn f.db (statement c f a) := by
  cases a with
  | member i a =>
    simp only [Fleet.step, statement]
    split
    · exact step_executes (c.cfg i) serde (f.view i) a
    · rfl
  | outside stmt =>
    simp only [Fleet.step, statement]
    split <;> rfl
  | tick d =>
    simp only [Fleet.step, statement]
    split <;> rfl

/-- A member moves by its own steps only. -/
theorem member_step (c : Crew n) (serde : Serde) (f : Fleet.State n) (a : Fleet.Act n) (k : Fin n) :
    (Fleet.step c.cfg serde f a).members k = f.members k ∨
      ∃ b, a = .member k b ∧ (Fleet.step c.cfg serde f a).members k = Session.step (c.cfg k) serde (f.view k) b ∧
        (Fleet.step c.cfg serde f a).db = (Session.step (c.cfg k) serde (f.view k) b).db := by
  cases a with
  | member i b =>
    unfold Fleet.step
    dsimp only
    split
    · by_cases hki : k = i
      · subst hki
        exact .inr ⟨b, rfl, if_pos rfl, rfl⟩
      · exact .inl (if_neg hki)
    · exact .inl rfl
  | outside stmt =>
    unfold Fleet.step
    dsimp only
    split <;> exact .inl rfl
  | tick d =>
    unfold Fleet.step
    dsimp only
    split <;> exact .inl rfl

theorem asks_member (hbatch : 0 < c.base.batch) {f : Fleet.State n} {k : Fin n} (h : Asks (f.members k))
    (a : Fleet.Act n) : Asks ((Fleet.step c.cfg serde f a).members k) := by
  rcases member_step c serde f a k with hsame | ⟨b, -, hstep, -⟩
  · rwa [hsame]
  · rw [hstep]
    exact asks_move (step_move (c.cfg k) serde (f.view k) b) hbatch h

theorem waits_member {f : Fleet.State n} {a : Fleet.Act n} {k : Fin n}
    (h : waits ((Fleet.step c.cfg serde f a).members k) = true) :
    waits (f.members k) = true ∨ looked (f.members k) = true := by
  rcases member_step c serde f a k with hsame | ⟨b, -, hstep, -⟩
  · exact .inl (hsame ▸ h)
  · rw [hstep] at h
    have hbefore := waits_move (step_move (c.cfg k) serde (f.view k) b) h
    exact hbefore

theorem wakeAll_keeps (f : Fleet.State n) (i : Fin n) :
    (wakeAll f).members i = f.members i ∨ ((wakeAll f).members i).dispatch = .checking := by
  unfold wakeAll
  dsimp only
  split
  · exact .inr rfl
  · exact .inl rfl

theorem wakeAll_waits (f : Fleet.State n) (i : Fin n) : waits ((wakeAll f).members i) = false := by
  unfold wakeAll
  dsimp only
  split
  · unfold waits
    dsimp only
    split
    · next h => cases h
    · rfl
  · next h => exact Bool.eq_false_of_not_eq_true h

/-- A dispatcher whose timer ends goes on, and the others wait as they did. -/
theorem wake_waits {f : Fleet.State n} {i k : Fin n} (hi : waits (f.members i) = true)
    (hk : waits ((Fleet.step c.cfg serde f (.member i (.dispatch .wake))).members k) = true) :
    waits (f.members k) = true := by
  by_cases hki : k = i
  · rwa [hki]
  · unfold Fleet.step at hk
    dsimp only at hk
    rw [if_pos (show own (.dispatch .wake) = true from rfl)] at hk
    dsimp only at hk
    rwa [if_neg hki] at hk

theorem now_of_member (f : Fleet.State n) (i : Fin n) (a : Session.Act) :
    (Fleet.step c.cfg serde f (.member i a)).now = f.now := by
  unfold Fleet.step
  dsimp only
  split <;> rfl

theorem now_of_outside (f : Fleet.State n) (stmt : Stmt) :
    (Fleet.step c.cfg serde f (.outside stmt)).now = f.now := by
  unfold Fleet.step
  dsimp only
  split <;> rfl

/-! ## No wait is longer than the poll interval -/

/-- Every wait has begun less than a poll interval ago. -/
def Bounded (c : Crew n) (w : State n) : Prop :=
  ∀ i, waits (w.fleet.members i) = true → w.fleet.now ≤ w.parked i + c.pollInterval

theorem now_of_refused {a : Fleet.Act n} (h : refused c w a = false) (hb : Bounded c w) {i : Fin n}
    (hi : waits (w.fleet.members i) = true) :
    (Fleet.step c.cfg serde w.fleet a).now ≤ w.parked i + c.pollInterval := by
  cases a with
  | member k a =>
    rw [now_of_member]
    exact hb i hi
  | outside stmt =>
    rw [now_of_outside]
    exact hb i hi
  | tick d =>
    unfold Fleet.step
    dsimp only
    split
    · exact hb i hi
    · have hnot := List.any_eq_false.mp h i (List.mem_finRange i)
      rw [hi, Bool.true_and, decide_eq_true_eq] at hnot
      exact not_lt.mp hnot

theorem bounded_step (w : State n) (a : Act n) (h : Bounded c w) : Bounded c (step c serde w a) := by
  cases a with
  | fleet a =>
    unfold step
    dsimp only
    split
    · exact h
    · next hgo =>
      intro i _
      dsimp only
      split
      · next hi => exact now_of_refused (Bool.eq_false_of_not_eq_true hgo) h hi
      · exact Int.le_add_of_nonneg_right (Int.natCast_nonneg _)
  | poll i =>
    unfold step
    dsimp only
    split
    · next hdue =>
      intro k hk
      dsimp only at hk ⊢
      rw [now_of_member]
      exact h k (wake_waits (Bool.and_eq_true_iff.mp hdue).1 hk)
    · exact h
  | connect => exact h
  | lose => exact h
  | recv =>
    unfold step
    dsimp only
    split
    · next q rest _ =>
      intro i hi
      dsimp only at hi ⊢
      split at hi
      · rw [wakeAll_waits] at hi
        cases hi
      · next hq =>
        rw [if_neg hq]
        exact h i hi
    · exact h

/-! ## Every job is heard of -/

/-- While a dispatcher waits and a job is ready, a notification that wakes it is under
way; while one is on its way to a wait, no job is ready. -/
structure Told (c : Crew n) (w : State n) : Prop where
  notified : ∀ i, waits (w.fleet.members i) = true → ∀ j, Ready c w.fleet.db w.fleet.now j →
    ∃ q ∈ w.stream, q ∈ c.base.queues
  none : ∀ i, looked (w.fleet.members i) = true → ∀ j, ¬ Ready c w.fleet.db w.fleet.now j
  asks : ∀ i, Asks (w.fleet.members i)

/-- What becomes ready by a statement that is heard is announced. -/
theorem ready_executed {a : Fleet.Act n} (hheard : Heard c serde w a) {j : Job}
    (hj : Ready c (Fleet.step c.cfg serde w.fleet a).db (Fleet.step c.cfg serde w.fleet a).now j) :
    (∃ k, Ready c w.fleet.db w.fleet.now k) ∨ w.connected = true ∧ j.queue ∈ spoken c w.fleet a := by
  have hdb := step_statement c serde w.fleet a
  cases hstmt : statement c w.fleet a with
  | none =>
    rw [hstmt] at hdb
    rw [hdb] at hj
    exact .inl ⟨j, hheard.delays j hj⟩
  | some stmt =>
    obtain ⟨hmem, hkey, hdue⟩ := hj
    have hnow : (Fleet.step c.cfg serde w.fleet a).now = w.fleet.now := by
      cases a with
      | member i a => exact now_of_member _ i a
      | outside stmt => exact now_of_outside _ stmt
      | tick d => cases hstmt
    rw [hdb, hstmt] at hmem
    rw [hnow] at hdue
    have hin : stmt ∈ statement c w.fleet a := hstmt
    rcases exec_due (hheard.clock stmt hin) hmem hdue with ⟨k, hk, -, hsame, hbefore | hsilent⟩ | hsaid
    · exact .inl ⟨k, hk, hsame.trans hkey, hbefore⟩
    · exact absurd hsilent (hheard.spoken stmt hin k hk (hsame.trans hkey))
    · refine .inr ⟨hheard.connected stmt hin, ?_⟩
      unfold spoken
      rw [hstmt]
      exact hsaid

/-- A dispatcher that comes away from an empty fetch leaves nothing behind. -/
theorem none_member (h : Told c w) {a : Fleet.Act n}
    (hquiet : ∀ i, looked (w.fleet.members i) = true → Quiet c serde w a)
    (hunlocked : Unlocked c serde w a) {i : Fin n}
    (hi : looked ((Fleet.step c.cfg serde w.fleet a).members i) = true) (j : Job) :
    ¬ Ready c (Fleet.step c.cfg serde w.fleet a).db (Fleet.step c.cfg serde w.fleet a).now j := by
  have hbefore : looked (w.fleet.members i) = true →
      ¬ Ready c (Fleet.step c.cfg serde w.fleet a).db (Fleet.step c.cfg serde w.fleet a).now j :=
    fun hlooked hready => h.none i hlooked j (hquiet i hlooked j hready)
  rcases member_step c serde w.fleet a i with hsame | ⟨b, rfl, hstep, hdb⟩
  · exact hbefore (hsame ▸ hi)
  · have hlooked := hi
    rw [hstep] at hlooked
    rcases looked_move (step_move (c.cfg i) serde (w.fleet.view i) b) hlooked with
      hlooked | ⟨limit, skip, rfl, hat, hrun, hempty⟩
    · exact hbefore hlooked
    · intro hready
      rw [hdb, now_of_member] at hready
      exact none_left (h.asks i limit hat) hrun hempty
        (fun k hk hkey hdue => hunlocked hi k ⟨hk, hkey, hdue⟩) j hready.1 hready.2.1 hready.2.2

theorem told_fleet (hbatch : 0 < c.base.batch) {a : Fleet.Act n} (h : Told c w)
    (ha : Audible c serde w (.fleet a)) : Told c (step c serde w (.fleet a)) := by
  obtain ⟨hheard, hquiet, hunlocked⟩ := ha
  unfold step
  dsimp only
  split
  · exact h
  · refine ⟨fun i hi j hj => ?_, fun i hi => none_member h hquiet hunlocked hi,
      fun i => asks_member hbatch (h.asks i) a⟩
    dsimp only at hi hj ⊢
    rcases waits_member hi with hbefore | hlooked
    · rcases ready_executed (hheard i hbefore) hj with ⟨k, hk⟩ | ⟨hconnected, hsaid⟩
      · obtain ⟨q, hq, hours⟩ := h.notified i hbefore k hk
        refine ⟨q, ?_, hours⟩
        split
        · exact List.mem_append_left _ hq
        · exact hq
      · rw [if_pos hconnected]
        exact ⟨j.queue, List.mem_append_right _ hsaid, hj.2.2.2.1⟩
    · exact absurd (hquiet i hlooked j hj) (h.none i hlooked j)

/-- A timer that ends changes nothing but the dispatcher it wakes. -/
theorem told_poll (hbatch : 0 < c.base.batch) (h : Told c w) (i : Fin n) : Told c (step c serde w (.poll i)) := by
  unfold step
  dsimp only
  split
  · next hdue =>
    have hdb := step_statement c serde w.fleet (.member i (.dispatch .wake))
    have hnone : statement c w.fleet (.member i (.dispatch .wake)) = none := by
      unfold statement executed
      dsimp only
      rw [if_pos (show own (.dispatch .wake) = true from rfl)]
      split <;> rfl
    rw [hnone] at hdb
    have hready : ∀ j, Ready c (Fleet.step c.cfg serde w.fleet (.member i (.dispatch .wake))).db
        (Fleet.step c.cfg serde w.fleet (.member i (.dispatch .wake))).now j → Ready c w.fleet.db w.fleet.now j := by
      intro j hj
      rwa [hdb, now_of_member] at hj
    refine ⟨fun k hk j hj => ?_, fun k hk j hj => ?_,
      fun k => asks_member hbatch (h.asks k) (.member i (.dispatch .wake))⟩
    · exact h.notified k (wake_waits (Bool.and_eq_true_iff.mp hdue).1 hk) j (hready j hj)
    · exact none_member h (fun _ _ => hready) trivial hk j hj
  · exact h

theorem told_recv (h : Told c w) : Told c (step c serde w .recv) := by
  unfold step
  dsimp only
  split
  · next q rest hstream =>
    by_cases hq : q ∈ c.base.queues
    · rw [if_pos hq]
      refine ⟨fun i hi => ?_, fun i hi => ?_, fun i limit hat => ?_⟩
      · rw [wakeAll_waits] at hi
        cases hi
      · rcases wakeAll_keeps w.fleet i with hsame | hwoken
        · exact h.none i (hsame ▸ hi)
        · obtain ⟨limit, hat | hat⟩ := looked_iff.mp hi <;> cases hwoken.symm.trans hat
      · rcases wakeAll_keeps w.fleet i with hsame | hwoken
        · exact h.asks i limit (hsame ▸ hat)
        · cases hwoken.symm.trans hat
    · rw [if_neg hq]
      refine ⟨fun i hi j hj => ?_, h.none, h.asks⟩
      obtain ⟨q', hq', hours⟩ := h.notified i hi j hj
      rw [hstream] at hq'
      rcases List.mem_cons.mp hq' with rfl | hrest
      · exact absurd hours hq
      · exact ⟨q', hrest, hours⟩
  · exact h

theorem told_step (hbatch : 0 < c.base.batch) (w : State n) (a : Act n) (h : Told c w)
    (ha : Audible c serde w a) : Told c (step c serde w a) := by
  cases a with
  | fleet a => exact told_fleet hbatch h ha
  | poll i => exact told_poll hbatch h i
  | connect => exact { h with }
  | lose =>
    refine { h with notified := fun i hi => ?_ }
    cases (ha i).symm.trans hi
  | recv => exact told_recv h

theorem bounded_run (c : Crew n) (serde : Serde) (db : Db) (as : List (Act n)) :
    Bounded c (run (step c serde) (initial db) as) :=
  run_inv (I := Bounded c) bounded_step as fun i hi => by cases hi

/-- **No dispatcher sleeps on a job for longer than the poll interval, nor without a
notification on its way but for a named reason.** However the children of a worker,
their tasks, the listener, its connection and other parties interleave: a dispatcher
that waits has done so for at most the poll interval. And if, while one waited, the
connection held, no delay ran out, no job was requeued by an operator or retried
without a delay, no job became ready between an empty fetch and the wait after it, and
no empty fetch passed over a job that another transaction had locked, then with every
job without a key that can be leased now there is a notification to be received that
wakes all who wait. `validate` sees to a batch of one job at least. -/
theorem waits_are_short (c : Crew n) (serde : Serde) (hbatch : 0 < c.base.batch) (db : Db) (as : List (Act n))
    (h : Along (step c serde) (Audible c serde) (initial db) as) (i : Fin n)
    (hi : waits ((run (step c serde) (initial db) as).fleet.members i) = true) :
    (run (step c serde) (initial db) as).fleet.now ≤
        (run (step c serde) (initial db) as).parked i + c.pollInterval ∧
      ∀ j, Ready c (run (step c serde) (initial db) as).fleet.db
          (run (step c serde) (initial db) as).fleet.now j →
        ∃ q ∈ (run (step c serde) (initial db) as).stream, q ∈ c.base.queues := by
  have hfirst : Told c (initial db) :=
    ⟨(fun i hi => by cases hi), (fun i hi => by cases hi), fun i limit hat => by cases hat⟩
  have htold : Told c (run (step c serde) (initial db) as) :=
    Along.inv (I := Told c) (told_step hbatch) as hfirst h
  exact ⟨bounded_run c serde db as i hi, htold.notified i hi⟩
end

/-- A worker with one child. -/
def oneChild : Crew 1 := { base := { worker := 7 }, worker := fun _ => 7 }

/-- It finds nothing and waits. -/
def firstWait : List Session.Act :=
  [.session .start, .session .accept, .dispatch .check, .dispatch .tryRecv, .dispatch (.fetchUnkeyed [] .ok),
    .dispatch (.ask false)]

/-- The worker listens, its child waits, and a job is enqueued. -/
def firstCall : List (Act 1) :=
  .connect :: firstWait.map (fun a => .fleet (.member (Fin.last 0) a)) ++
    [.fleet (.outside (.enqueue { task := "t" } 0))]

section
variable {c : Crew n} {serde : Serde} {w : State n} {a : Fleet.Act n}

/-- With no jobs there is nothing to miss. -/
theorem audible_of_empty (hwaits : ∀ i, waits (w.fleet.members i) = false) (hbefore : w.fleet.db.jobs = [])
    (hafter : (Fleet.step c.cfg serde w.fleet a).db.jobs = []) : Audible c serde w (.fleet a) := by
  refine ⟨(fun i hi => by cases (hwaits i).symm.trans hi), fun _ _ j hj => ?_, ?_⟩
  · have hmem := hj.1
    rw [hafter] at hmem
    cases hmem
  · unfold Unlocked
    split
    · intro _ j hj
      have hmem := hj.1
      rw [hbefore] at hmem
      cases hmem
    · trivial

theorem audible_of_heard {stmt : Stmt} (hbefore : ∀ i, waits (w.fleet.members i) = true)
    (hconnected : w.connected = true) (hclock : ∀ time ∈ time? stmt, time = w.fleet.now)
    (hspoken : ∀ j, ¬ Silent j stmt) : Audible c serde w (.fleet (.outside stmt)) := by
  have honly : ∀ other ∈ statement c w.fleet (.outside stmt), other = stmt := by
    intro other hother
    simp only [statement, Option.mem_def] at hother
    split at hother
    · cases hother
    · exact (Option.some.inj hother).symm
  refine ⟨fun _ _ => ⟨fun _ _ => hconnected, fun other hother => ?_, fun other hother j _ _ => ?_, fun j hj => ?_⟩,
    fun i hi => ?_, trivial⟩
  · rw [honly other hother]
    exact hclock
  · rw [honly other hother]
    exact hspoken j
  · rwa [now_of_outside] at hj
  · obtain ⟨-, hidle⟩ := waits_iff.mp (hbefore i)
    obtain ⟨limit, hat | hat⟩ := looked_iff.mp hi <;> cases hidle.symm.trans hat
end

theorem audible_firstCall : Along (step oneChild Serde.messagePack) (Audible oneChild Serde.messagePack)
    (initial Db.empty) firstCall := by
  refine ⟨trivial, audible_of_empty (by decide) rfl rfl, audible_of_empty (by decide) rfl rfl,
    audible_of_empty (by decide) rfl rfl, audible_of_empty (by decide) rfl rfl,
    audible_of_empty (by decide) rfl rfl, audible_of_empty (by decide) rfl rfl,
    audible_of_heard (by decide) rfl (fun time htime => ?_) (fun j hsilent => hsilent), trivial⟩
  exact (Option.mem_some.mp htime).symm

theorem waits_are_short_first :
    ∃ q ∈ (run (step oneChild Serde.messagePack) (initial Db.empty) firstCall).stream,
      q ∈ oneChild.base.queues := by
  have hready : ∃ j ∈ (run (step oneChild Serde.messagePack) (initial Db.empty) firstCall).fleet.db.jobs,
      j.concurrencyKey = none ∧ j.Due oneChild.base.queues 0 := by decide
  obtain ⟨j, hj, hkey, hdue⟩ := hready
  exact (waits_are_short oneChild Serde.messagePack (by decide) Db.empty firstCall audible_firstCall 0 (by decide)).2 j
    ⟨hj, hkey, hdue⟩

end Gylo.Worker.Wakeups
