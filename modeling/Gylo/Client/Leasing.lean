import Gylo.Client.Enqueue
import Gylo.Store.Leasing

/-! # Every job that gets in can be leased

The enqueue paths run beside the workers: calls of the Python client, each one
transaction, and the statements of the store in any order. `Task.options` looks
at the concurrency limit and leaves `max_attempts` to the table, whose check
compares it with `attempt` before the first lease. -/
namespace Gylo.Client.Leasing

open Gylo.Store Gylo.Store.Reclaim Gylo.Store.Leasing Gylo.Client Runs

variable {A : Type}

inductive Act (A : Type) where
  | request (conn : Conn) (now : Time) (r : Request A)
  | store (a : Store.Leasing.Act)

/-- A call that raises has inserted nothing. -/
def step (encoder : Encoder A) (r : Race) : Act A → Race
  | .request conn now q =>
    match q.run encoder conn now r.db with
    | .ok db' => { r with db := db' }
    | .error _ => r
  | .store a => Store.Leasing.step r a

/-- The options a request binds, job by job. -/
def optionsOf : Request A → List Options
  | .enqueue _ bound _ => [bound.options]
  | .enqueueMany _ bound _ => [bound.options]
  | .workflow flow => flow.nodes.map Signature.options

/-- Nobody asks for no attempts at all, and the store's own steps are orderly. -/
def Orderly (r : Race) : Act A → Prop
  | .request _ _ q => ∀ o ∈ optionsOf q, o.maxAttempts ≠ 0
  | .store a => Store.Leasing.Orderly r a

instance (r : Race) : (a : Act A) → Decidable (Orderly r a)
  | .request _ _ q => inferInstanceAs (Decidable (∀ o ∈ optionsOf q, o.maxAttempts ≠ 0))
  | .store a => inferInstanceAs (Decidable (Store.Leasing.Orderly r a))

/-! ## Requests as statements -/

/-- A statement that only inserts, with attempts taken from the options. -/
def Binds (os : List Options) (s : Stmt) : Prop :=
  leasesFrom s = none ∧ ∀ new ∈ s.inserts, ∃ o ∈ os, new.maxAttempts = o.maxAttempts

theorem options_of_boundCalls {q : Request A} {call : BoundTask × A} (h : call ∈ q.boundCalls) :
    call.1.options ∈ optionsOf q := by
  cases q with
  | enqueue async bound args =>
    rw [List.mem_singleton.mp h]
    exact List.mem_singleton_self _
  | enqueueMany async bound calls =>
    obtain ⟨given, -, hargs⟩ := List.mem_filterMap.mp h
    obtain ⟨args, -, rfl⟩ := Option.map_eq_some_iff.mp hargs
    exact List.mem_singleton_self _
  | workflow flow => cases h

/-- A call that goes through is a transaction of such statements. -/
theorem run_binds {encoder : Encoder A} {conn : Conn} {now : Time} {db db' : Db} {q : Request A}
    (h : q.run encoder conn now db = .ok db') :
    ∃ ss, transaction ss db = .ok db' ∧ ∀ s ∈ ss, Binds (optionsOf q) s := by
  rcases run_statements h with ⟨rows, htransaction, hrows, -⟩ | ⟨flow, nodes, rfl, -, hnodes, hrun⟩
  · refine ⟨_, htransaction, fun s hs => ?_⟩
    obtain ⟨made, hmade, rfl⟩ := List.mem_map.mp hs
    obtain ⟨call, hcall, hrow⟩ := hrows made hmade
    obtain ⟨payload, -, hcolumns, -⟩ := row_ok hrow
    refine ⟨by obtain ⟨new, key⟩ := made; cases key <;> rfl, fun new hnew => ?_⟩
    rw [inserts_insert, List.mem_singleton] at hnew
    exact ⟨_, options_of_boundCalls hcall, by rw [hnew, hcolumns]; rfl⟩
  · refine ⟨_, transaction_singleton.mpr hrun, fun s hs => ?_⟩
    rw [List.mem_singleton.mp hs]
    refine ⟨rfl, fun new hnew => ?_⟩
    obtain ⟨node, hnode, hrow⟩ := mem_of_mapM hnodes new hnew
    obtain ⟨payload, -, rfl⟩ := nodeRow_ok hrow
    exact ⟨node.options, List.mem_map_of_mem hnode, rfl⟩

theorem inv_transaction {passes : List Pass} {os : List Options} (hos : ∀ o ∈ os, o.maxAttempts ≠ 0)
    {ss : List Stmt} (hss : ∀ s ∈ ss, Binds os s) {db db' : Db} (h : Inv ⟨db, passes⟩)
    (ht : transaction ss db = .ok db') : Inv ⟨db', passes⟩ := by
  induction ss generalizing db with
  | nil => cases ht; exact h
  | cons s ss ih =>
    obtain ⟨⟨hfetch, hbinds⟩, hrest⟩ := List.forall_mem_cons.mp hss
    unfold transaction at ht
    cases hrun : db.run s with
    | error e => rw [hrun] at ht; cases ht
    | ok db₁ =>
      rw [hrun] at ht
      have hinv : Inv ⟨db.exec s, passes⟩ := by
        refine Store.Leasing.inv_step ⟨db, passes⟩ (.stmt s) h ⟨fun new hnew => ?_, fun f hf => ?_⟩
        · obtain ⟨o, ho, hmax⟩ := hbinds new hnew
          rw [hmax]
          exact hos o ho
        · rw [hfetch] at hf; cases hf
      rw [Db.exec_of_run hrun] at hinv
      exact ih hrest hinv ht

theorem inv_step (encoder : Encoder A) (r : Race) (a : Act A) (h : Inv r) (ho : Orderly r a) :
    Inv (step encoder r a) := by
  cases a with
  | store a => exact Store.Leasing.inv_step r a h ho
  | request conn now q =>
    simp only [step]
    split
    · next db' hrun =>
      obtain ⟨ss, hss, hbinds⟩ := run_binds hrun
      exact inv_transaction ho hbinds h hss
    · exact h

/-! ## Leasing is never refused -/

/-- **No admitted job can make leasing fail**, in every run in which nobody asks
for zero attempts and fetches stay clear of the rows that a reclaim in flight
lists: no constraint, neither the bound on `attempt` nor the range of a
`smallint`, rejects a fetch; the keyed one may have counted on any version of the
tables. -/
theorem leasing_never_refused (encoder : Encoder A) (as : List (Act A))
    (h : Along (step encoder) Orderly ⟨Db.empty, []⟩ as) (a : Fetch) (c : Constraint) :
    (run (step encoder) ⟨Db.empty, []⟩ as).db.run (.fetchUnkeyed a) ≠ .error (.violates c) ∧
    (run (step encoder) ⟨Db.empty, []⟩ as).db.run (.fetchKeyed a) ≠ .error (.violates c) ∧
    ∀ snapshot, commit ((run (step encoder) ⟨Db.empty, []⟩ as).db.fetchKeyedFrom a snapshot) ≠
      .error (.violates c) := by
  have hempty : Inv ⟨Db.empty, []⟩ :=
    ⟨fun j hj => absurd hj (Db.not_mem_empty j), fun j hj => absurd hj (Db.not_mem_empty j),
      fun p hp => absurd hp List.not_mem_nil⟩
  have hinv := Along.inv (inv_step encoder) as hempty h
  generalize run (step encoder) ⟨Db.empty, []⟩ as = r at hinv ⊢
  have hkeyed : ∀ snapshot, commit (r.db.fetchKeyedFrom a snapshot) ≠ .error (.violates c) := by
    intro snapshot
    obtain ⟨db', hdb'⟩ := commit_fetchKeyedFrom hinv a snapshot
    rw [hdb']
    exact fun h => by cases h
  refine ⟨fun herr => ?_, fun herr => hkeyed r.db.toTables (limited_violates herr), hkeyed⟩
  obtain ⟨db', hdb'⟩ := commit_fetchUnkeyed hinv a
  rw [limited_violates herr] at hdb'
  cases hdb'

/-- One positional argument, as `t` with the given number of attempts. -/
def call (attempts : Int) : Act Bytes :=
  .request (.driver .asyncpg) 0 (.enqueue true ⟨⟨"t", false⟩, { maxAttempts := attempts }⟩ [])

def fetchAt (now : Time) : Fetch := { queues := ["default"], limit := 10, worker := 7, lease := 30, now := now }

/-- A job is leased, reclaimed and fetched again beside a second one. -/
theorem leasing_never_refused_again :
    (run (step bytesArgument) ⟨Db.empty, []⟩ [call 2, .store (.stmt (.fetchUnkeyed (fetchAt 1))),
      call 1, .store (.snapshot 100 [1] 40), .store (.update 0)]).db.run (.fetchUnkeyed (fetchAt 41)) ≠
        .error (.violates .attemptBounds) :=
  (leasing_never_refused bytesArgument [call 2, .store (.stmt (.fetchUnkeyed (fetchAt 1))),
    call 1, .store (.snapshot 100 [1] 40), .store (.update 0)] (by decide) (fetchAt 41)
    .attemptBounds).1

/-- `options` accepts `max_attempts=0` and so does the table; the fetch that
comes to the row is refused, with the good job in front of it. And a job that two
reclaims list, leased in between, waits with no attempt left. -/
theorem leasing_refused :
    options { maxAttempts := some 0 } = .ok { maxAttempts := 0 } ∧
    (run (step bytesArgument) ⟨Db.empty, []⟩ [call 20, call 0]).db.jobs.length = 2 ∧
    (run (step bytesArgument) ⟨Db.empty, []⟩ [call 20, call 0]).db.run (.fetchUnkeyed (fetchAt 1)) =
      .error (.violates .attemptBounds) ∧
    (run (step bytesArgument) ⟨Db.empty, []⟩ [call 2, .store (.stmt (.fetchUnkeyed (fetchAt 1))), call 20,
      .store (.snapshot 100 [1] 40), .store (.snapshot 100 [1] 40), .store (.update 0),
      .store (.stmt (.fetchUnkeyed { fetchAt 41 with limit := 1 })), .store (.update 0)]).db.run
        (.fetchUnkeyed (fetchAt 42)) = .error (.violates .attemptBounds) := by
  exact ⟨rfl, by decide, rfl, rfl⟩

end Gylo.Client.Leasing
