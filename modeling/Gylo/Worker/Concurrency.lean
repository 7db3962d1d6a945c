import Mathlib.Data.Finset.Card
import Gylo.Worker.Moves

/-! # How many jobs are in flight

`dispatch` asks for at most as many jobs as there is room for, and reserves them
only after the statements of `fetch`, the steps of durable jobs and the discards
of jobs that cannot be encoded. What is in flight can only shrink in between, so
the room it counted on is still there; the one job too many comes from `fetch`,
which lets a keyed job in beside a full batch of unkeyed ones. -/
namespace Gylo.Worker.Session

open Gylo.Store Gylo.Store.FetchCall Gylo.Wire Runs

/-! ## What a fetch returns -/

theorem length_returning_le (t : Tables) (chosen : List Job) :
    (returning t chosen).length ≤ chosen.length := by
  rw [returning, List.length_map]
  exact List.length_filterMap_le _ _

theorem length_lockedUnkeyed (t : Tables) (a : Fetch) : (t.lockedUnkeyed a).length ≤ a.limit.toNat :=
  List.length_take_le _ _

theorem length_admitted (t snapshot : Tables) (a : Fetch) :
    (t.admitted a snapshot).length ≤ a.limit.toNat :=
  Nat.le_trans (List.length_filter_le _ _) (List.length_take_le _ _)

/-! ## The room `dispatch` counts on -/

/-- How many jobs `dispatch` may still reserve before it looks at `available` again. -/
def Dispatch.ahead : Dispatch → Nat
  | .fetching limit | .asking limit => limit.toNat + 1
  | .admitting limit jobs => jobs.length + (max (limit - jobs.length) 1).toNat
  | .packing todo _ reserved | .discarding _ _ todo _ reserved => todo.length + reserved.length
  | _ => 0

/-- `dispatch` is in `fetch`. -/
def Dispatch.inFetch : Dispatch → Bool
  | .fetching _ | .asking _ | .admitting _ _ => true
  | _ => false

/-- What is in flight and what may join it fit, and `fetch` was called with room to spare. -/
structure Fits (cfg : Settings) (s : Supervisor) : Prop where
  room : s.inflight.ids.card + s.dispatch.ahead ≤ cfg.concurrency + 1
  free : s.dispatch.inFetch = true → s.inflight.ids.card < cfg.concurrency

section
variable {cfg : Settings} {serde : Serde} {s s' : Supervisor}

/-- A step that reserves nothing and asks for no more. -/
theorem Fits.of_le (h : Fits cfg s) (hinflight : s'.inflight.ids ⊆ s.inflight.ids)
    (hahead : s'.dispatch.ahead ≤ s.dispatch.ahead)
    (hfetch : s'.dispatch.inFetch = true → s.dispatch.inFetch = true) : Fits cfg s' := by
  have hcard := Finset.card_le_card hinflight
  have hroom := h.room
  exact ⟨by omega, fun hin => Nat.lt_of_le_of_lt hcard (h.free (hfetch hin))⟩

/-- A step to where nothing more is asked for. -/
theorem Fits.at_rest (h : Fits cfg s) (hinflight : s'.inflight.ids ⊆ s.inflight.ids)
    (hahead : s'.dispatch.ahead = 0) (hfetch : s'.dispatch.inFetch = false) : Fits cfg s' :=
  h.of_le hinflight (by omega) fun hin => by rw [hfetch] at hin; cases hin

/-- A keyed job beside a full batch is one too many. -/
theorem ahead_admitting {limit : Int} {jobs : List LeasedJob} (h : jobs.length ≤ limit.toNat) :
    (Dispatch.admitting limit jobs).ahead ≤ limit.toNat + 1 := by
  show jobs.length + (max (limit - jobs.length) 1).toNat ≤ limit.toNat + 1
  omega

theorem length_unkeyed (t : Tables) (limit : Int) (skip : List JobId) :
    (returning t (s.db.lockedUnkeyed (unkeyedArgs (call cfg limit) (meets s skip)))).length ≤ limit.toNat :=
  Nat.le_trans (length_returning_le t _) (length_lockedUnkeyed _ _)

theorem length_keyed (t : Tables) (limit : Int) (jobs : List LeasedJob) (skip : List JobId) :
    (returning t (s.db.admitted (keyedArgs (call cfg limit) (meets s skip) jobs.length) s.db.toTables)).length ≤
      (max (limit - jobs.length) 1).toNat :=
  Nat.le_trans (length_returning_le t _) (length_admitted _ _ _)

/-- A first pass leads to no more than it was asked for, and a keyed job. -/
theorem ahead_afterUnkeyed {limit : Int} {jobs : List LeasedJob} (h : jobs.length ≤ limit.toNat) :
    (afterUnkeyed cfg s limit jobs).ahead ≤ limit.toNat + 1 := by
  unfold afterUnkeyed
  repeat' split
  · exact Nat.le_refl _
  · exact ahead_admitting h
  · exact Nat.le_trans h (Nat.le_succ _)

theorem ahead_fetched (jobs : List LeasedJob) :
    (fetched jobs).ahead ≤ jobs.length ∧ (fetched jobs).inFetch = false := by
  unfold fetched
  split
  · exact ⟨Nat.zero_le _, rfl⟩
  · exact ⟨Nat.le_refl _, rfl⟩

/-- Between its looks at `available`, `dispatch` asks for no more. -/
theorem Turns.fits {a : DispatchAct} {d : Dispatch} (h : Turns cfg s a d) (hfits : Fits cfg s) :
    Fits cfg { s with dispatch := d } := by
  cases h with
  | calls hat hacks hroom =>
    -- `available` is positive, so it is exact
    unfold available at hroom
    refine ⟨?_, fun _ => show s.inflight.ids.card < cfg.concurrency by omega⟩
    show s.inflight.ids.card + ((min cfg.batch (available cfg s.inflight)).toNat + 1) ≤ cfg.concurrency + 1
    unfold available
    omega
  | admits hat =>
    refine hfits.of_le (Finset.Subset.refl _) ?_ fun _ => by rw [hat]; rfl
    rw [hat]
    exact ahead_admitting (Nat.zero_le _)
  | packs hat =>
    refine hfits.of_le (Finset.Subset.refl _) ?_ fun hf => by cases hf
    rw [hat]
    simp only [Dispatch.ahead, List.length_append, List.length_cons, List.length_nil]
    omega
  | refuses hat =>
    refine hfits.of_le (Finset.Subset.refl _) ?_ fun hf => by cases hf
    rw [hat]
    simp only [Dispatch.ahead, List.length_cons]
    omega
  | _ => exact hfits.at_rest (Finset.Subset.refl _) rfl rfl

theorem DispatchMove.fits {a : DispatchAct} {stmt : Option Stmt} (h : DispatchMove cfg s a stmt s')
    (hfits : Fits cfg s) : Fits cfg s' := by
  cases h with
  | stays => exact hfits
  | turns h => exact h.fits hfits
  | forwards =>
    refine hfits.at_rest (Finset.Subset.refl _) ?_ ?_ <;> dsimp only <;> split <;> rfl
  | @unkeyed limit skip db' hat hrun =>
    refine hfits.of_le (Finset.Subset.refl _) ?_ fun _ => by rw [hat]; rfl
    rw [hat]
    exact ahead_afterUnkeyed (length_unkeyed _ limit skip)
  | @keyed limit jobs skip db' hat hrun =>
    have hlen : (returning db'.toTables (s.db.admitted
        (keyedArgs (call cfg limit) (meets s skip) jobs.length) s.db.toTables)).length ≤ _ :=
      length_keyed db'.toTables limit jobs skip
    obtain ⟨hahead, hin⟩ := ahead_fetched (jobs ++ returning db'.toTables (s.db.admitted
      (keyedArgs (call cfg limit) (meets s skip) jobs.length) s.db.toTables))
    refine hfits.of_le (Finset.Subset.refl _) (Nat.le_trans hahead ?_) fun hf => by cases hin.symm.trans hf
    rw [hat, List.length_append]
    exact Nat.add_le_add_left hlen _
  | @reserves fails buf reserved hat hsome =>
    have hroom := hfits.room
    have hcard : (s.inflight.ids ∪ reserved.toFinset).card ≤ s.inflight.ids.card + reserved.length :=
      Nat.le_trans (Finset.card_union_le _ _) (Nat.add_le_add_left reserved.toFinset_card_le _)
    refine ⟨?_, fun hf => by cases hf⟩
    simp only [hat, Dispatch.ahead, List.length_nil] at hroom ⊢
    simp only [reserve]
    omega
  | discards hat | discardFails hat =>
    refine hfits.of_le (Finset.Subset.refl _) ?_ fun hf => by cases hf
    rw [hat]
    exact Nat.le_refl _
  | _ => exact hfits.at_rest (Finset.Subset.refl _) rfl rfl

/-! ## The other parties -/

/-- `supervise` only starts and ends `dispatch`. -/
theorem SessionMove.dispatch {a : SessionAct} {stmt : Option Stmt} (h : SessionMove cfg s a stmt s') :
    s'.dispatch = s.dispatch ∨ s'.dispatch = .checking ∨ ∃ ok, s'.dispatch = .done ok := by
  cases h with
  | accepts => exact .inr (.inl rfl)
  | opens | exits => exact .inr (.inr ⟨_, rfl⟩)
  | _ => exact .inl rfl

theorem Move.fits {a : Act} {stmt : Option Stmt} (h : Move cfg serde s a stmt s') (hfits : Fits cfg s) :
    Fits cfg s' := by
  cases h with
  | dispatch hserving h => exact h.fits hfits
  | collect h =>
    have hframe := h.frame
    exact hfits.of_le hframe.inflight (by rw [hframe.dispatch]) (by rw [hframe.dispatch]; exact id)
  | session h =>
    have hframe := h.frame
    rcases h.dispatch with hsame | hchecking | ⟨ok, hdone⟩
    · exact hfits.of_le hframe.inflight (by rw [hsame]) (by rw [hsame]; exact id)
    · exact hfits.at_rest hframe.inflight (by rw [hchecking]; rfl) (by rw [hchecking]; rfl)
    · exact hfits.at_rest hframe.inflight (by rw [hdone]; rfl) (by rw [hdone]; rfl)
  | renew h => cases h <;> exact ⟨hfits.room, hfits.free⟩
  | child h => cases h <;> exact ⟨hfits.room, hfits.free⟩
  | stays | outside | tick => exact ⟨hfits.room, hfits.free⟩
end

/-- **In-flight bound.** In every run of `supervise`, whatever the settings, the
backlog and the order in which dispatching, flushes and sessions interleave, at
most one job more than `concurrency` is in flight, and while `dispatch` is in
`fetch`, from the call to its return, fewer than `concurrency` are. -/
theorem inflight_bounded (cfg : Settings) (serde : Serde) (db : Db) (as : List Act) :
    (run (step cfg serde) (initial db) as).inflight.ids.card ≤ cfg.concurrency + 1 ∧
    ((run (step cfg serde) (initial db) as).dispatch.inFetch = true →
      (run (step cfg serde) (initial db) as).inflight.ids.card < cfg.concurrency) := by
  have hinitial : Fits cfg (initial db) := ⟨Nat.zero_le _, fun hf => by cases hf⟩
  have hfits : Fits cfg (run (step cfg serde) (initial db) as) :=
    run_inv (fun s a hs => (step_move cfg serde s a).fits hs) as hinitial
  exact ⟨Nat.le_trans (Nat.le_add_right _ _) hfits.room, hfits.free⟩

/-- With room for one, a keyed job comes along with an unkeyed one. -/
example :
    (run (step { worker := 7, concurrency := 1 } Serde.messagePack)
      (initial (Db.after [.enqueue { task := "t" } 0,
        .enqueue { task := "t", concurrencyKey := some "k", maxConcurrency := some 1 } 0]))
      [.session .start, .session .accept, .dispatch .check, .dispatch .tryRecv,
        .dispatch (.fetchUnkeyed [] .ok), .dispatch (.fetchKeyed [] .ok), .dispatch (.pack false),
        .dispatch (.pack false), .dispatch (.pack false)]).inflight.ids.card = 2 := by
  decide

end Gylo.Worker.Session
