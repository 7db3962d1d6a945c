import Mathlib.Data.List.Forall2
import Gylo.Client.Adapters
import Gylo.Store.Effects
import Gylo.Wire.Protocol

/-! # Enqueuing from Python

A job enters the queue through `BoundTask.enqueue`, `enqueue_many` or
`Workflow.enqueue`, on a connection of the caller's. Its arguments are encoded
there, once; the supervisor later puts the same bytes into a `Dispatch` frame,
whose limits are checked in Rust. -/
namespace Gylo.Client

open Gylo.Store Gylo.Wire Packing

/-! ## Tasks and options -/

/-- `unique`: off, on the arguments, or on a key of the caller's. -/
inductive Unique where
  | off
  | arguments
  | key (text : String)
deriving DecidableEq

structure Options where
  queue : String := "default"
  priority : Int := 0
  delay : Time := 0
  maxAttempts : Int := 20
  unique : Unique := .off
  concurrencyKey : Option String := none
  maxConcurrency : Option Int := none
deriving DecidableEq

/-- Why a call raises. `argumentsTooLarge` carries what `_row` puts into its
`ValueError`: the task, the size, and the limit. -/
inductive Raised where
  | valueError (text : String)
  | argumentsTooLarge (task : String) (bytes : Nat) (limit : Int)
  | unencodable
  | typeError
  | unsupportedDriver
  | wrongConnection
  /-- The driver does not run a statement with these parameters. -/
  | programmingError
  | database (e : DbError)
deriving DecidableEq

/-- The keyword arguments of `Task.options`. -/
structure Given where
  queue : Option String := none
  priority : Option Int := none
  delay : Option Time := none
  maxAttempts : Option Int := none
  unique : Option Unique := none
  concurrencyKey : Option String := none
  maxConcurrency : Option Int := none

/-- `Task.options`: what is not given takes the default of `Options`. -/
def options (given : Given) : Except Raised Options :=
  if given.concurrencyKey.isNone ≠ given.maxConcurrency.isNone then
    .error (.valueError "concurrency_key and max_concurrency must be given together")
  else if ∃ m ∈ given.maxConcurrency, m < 1 then
    .error (.valueError "max_concurrency must be at least 1")
  else .ok
    { queue := given.queue.getD "default"
      priority := given.priority.getD 0
      delay := given.delay.getD 0
      maxAttempts := given.maxAttempts.getD 20
      unique := given.unique.getD .off
      concurrencyKey := given.concurrencyKey
      maxConcurrency := given.maxConcurrency }

/-- What enqueuing reads of a `Task`. -/
structure Task where
  name : String
  durable : Bool := false

structure BoundTask where
  task : Task
  options : Options

/-- `msgspec` on the arguments of a call, and `_unique_key`; `none` where it
raises. -/
structure Encoder (A : Type) where
  encode : A → Option Bytes
  uniqueKey : String → Options → A → Option Bytes

/-- `payload_limit`. -/
def payloadLimit (task : String) : Int := (maxFrameBytes : Int) - 15 - ((utf8 task).length : Int)

/-! ## Rows -/

section
variable {A : Type} (encoder : Encoder A)

/-- The columns a call binds. -/
def newJob (task : String) (durable : Bool) (options : Options) (payload : Bytes) : NewJob where
  queue := options.queue
  task := task
  payload := payload
  priority := options.priority
  maxAttempts := options.maxAttempts
  delay := options.delay
  concurrencyKey := options.concurrencyKey
  maxConcurrency := options.maxConcurrency
  durable := durable

/-- `BoundTask._row`: the columns, and the unique key if there is to be one. -/
def row (bound : BoundTask) (args : A) : Except Raised (NewJob × Option Bytes) :=
  match encoder.encode args with
  | none => .error .unencodable
  | some payload =>
    if payloadLimit bound.task.name < payload.length then
      .error (.argumentsTooLarge bound.task.name payload.length (payloadLimit bound.task.name))
    else
      let new := newJob bound.task.name bound.task.durable bound.options payload
      if bound.options.unique = .off then .ok (new, none)
      else match encoder.uniqueKey bound.task.name bound.options args with
        | none => .error .unencodable
        | some key => .ok (new, some key)

/-- `insert` or `insert_unique` of the adapter. -/
def insert (now : Time) : NewJob × Option Bytes → Stmt
  | (new, none) => .enqueue new now
  | (new, some key) => .insertUnique new key now

/-! ## Calls -/

def resolve : Conn → Except Raised Driver
  | .driver d => .ok d
  | .unsupported => .error .unsupportedDriver

/-- `_async_adapter` and `_sync_adapter`. -/
def adapter (async : Bool) (conn : Conn) : Except Raised Driver := do
  let driver ← resolve conn
  if driver.isAsync = async then .ok driver else .error .wrongConnection

/-- Statements in one transaction: all of them, or none. -/
def transaction : List Stmt → Db → Except Raised Db
  | [], db => .ok db
  | s :: ss, db =>
    match db.run s with
    | .ok db' => transaction ss db'
    | .error e => .error (.database e)

/-- `enqueue` and, with a synchronous adapter, `enqueue_sync`. -/
def enqueue (async : Bool) (conn : Conn) (bound : BoundTask) (args : A) (now : Time) (db : Db) :
    Except Raised Db := do
  let _ ← adapter async conn
  let r ← row encoder bound args
  transaction [insert now r] db

/-- `enqueue_many` and `enqueue_many_sync`; an element that is neither a tuple nor
a `call(...)` is `none`. -/
def enqueueMany (async : Bool) (conn : Conn) (bound : BoundTask) (calls : List (Option A))
    (now : Time) (db : Db) : Except Raised Db :=
  if calls.isEmpty then .ok db
  else do
    let _ ← adapter async conn
    let rows ← calls.mapM fun call =>
      match call with
      | some args => row encoder bound args
      | none => .error .typeError
    transaction (rows.map (insert now)) db

/-- A task and its arguments, to be placed in a workflow. -/
structure Signature (A : Type) where
  task : Task
  args : A
  options : Options

structure Flow (A : Type) where
  nodes : List (Signature A)
  edges : List (Nat × Nat)
  distinct : edges.Nodup

/-- `_encoded`, with the other columns of the node. -/
def nodeRow (node : Signature A) : Except Raised NewJob :=
  match encoder.encode node.args with
  | none => .error .unencodable
  | some payload => .ok (newJob node.task.name node.task.durable node.options payload)

/-- `Workflow.enqueue`. Nothing asks whether the connection is asynchronous: on a
synchronous one `await` raises once `insert_workflow` has returned. Both adapters of
psycopg raise before that, at the first node. -/
def Flow.enqueue (conn : Conn) (flow : Flow A) (now : Time) (db : Db) : Except Raised Db :=
  if flow.nodes.isEmpty then .ok db
  else do
    let driver ← resolve conn
    let nodes ← flow.nodes.mapM (nodeRow encoder)
    if asked driver.insertNode ≠ nodeParameters.length then .error .programmingError
    else do
      let db' ← transaction [.insertWorkflow ⟨nodes, flow.edges, flow.distinct⟩ now] db
      if driver.isAsync then .ok db' else .error .typeError

/-- A call of one of the enqueue paths. -/
inductive Request (A : Type) where
  | enqueue (async : Bool) (bound : BoundTask) (args : A)
  | enqueueMany (async : Bool) (bound : BoundTask) (calls : List (Option A))
  | workflow (flow : Flow A)

def Request.run (conn : Conn) (now : Time) (db : Db) : Request A → Except Raised Db
  | .enqueue async bound args => Client.enqueue encoder async conn bound args now db
  | .enqueueMany async bound calls => Client.enqueueMany encoder async conn bound calls now db
  | .workflow flow => flow.enqueue encoder conn now db

def Request.isWorkflow : Request A → Bool
  | .workflow _ => true
  | _ => false

/-! ## What comes into the table -/

theorem bind_ok {ε α β : Type} {x : Except ε α} {f : α → Except ε β} {b : β}
    (h : (x >>= f) = .ok b) : ∃ a, x = .ok a ∧ f a = .ok b := by
  cases x with
  | error e => cases h
  | ok a => exact ⟨a, rfl, h⟩

theorem forall₂_of_mapM {α β ε : Type} {f : α → Except ε β} : ∀ {as : List α} {bs : List β},
    as.mapM f = .ok bs → List.Forall₂ (fun a b => f a = .ok b) as bs
  | [], _, h => by
    cases h
    exact .nil
  | a :: as, bs, h => by
    rw [List.mapM_cons] at h
    obtain ⟨b, hb, h⟩ := bind_ok h
    obtain ⟨bs', hbs', h⟩ := bind_ok h
    cases h
    exact .cons hb (forall₂_of_mapM hbs')

theorem mem_of_mapM {α β ε : Type} {f : α → Except ε β} {as : List α} {bs : List β}
    (h : as.mapM f = .ok bs) : ∀ b ∈ bs, ∃ a ∈ as, f a = .ok b := by
  have hall := forall₂_of_mapM h
  clear h
  induction hall with
  | nil => exact fun b hb => absurd hb List.not_mem_nil
  | cons hhead _ ih =>
    intro b hb
    rcases List.mem_cons.mp hb with hfirst | hlater
    · exact ⟨_, List.mem_cons_self, hfirst ▸ hhead⟩
    · obtain ⟨a, ha, hfa⟩ := ih b hlater
      exact ⟨a, List.mem_cons_of_mem _ ha, hfa⟩

theorem transaction_singleton {s : Stmt} {db db' : Db} :
    transaction [s] db = .ok db' ↔ db.run s = .ok db' := by
  unfold transaction
  split
  next db₁ hok => rw [hok, transaction, Except.ok.injEq, Except.ok.injEq]
  next e herror =>
    rw [herror]
    exact iff_of_false (fun h => by cases h) fun h => by cases h

theorem transaction_inserts {ss : List Stmt} (hss : ∀ s ∈ ss, s.inserts ≠ []) {db db' : Db}
    (h : transaction ss db = .ok db') {j : Job} (hj : j ∈ db'.jobs) :
    j ∈ db.jobs ∨ ∃ s ∈ ss, ∃ new ∈ s.inserts, new.Became j := by
  induction ss generalizing db with
  | nil => cases h; exact .inl hj
  | cons s ss ih =>
    unfold transaction at h
    cases hrun : db.run s with
    | error e => rw [hrun] at h; cases h
    | ok db₁ =>
      rw [hrun] at h
      rcases ih (fun s' hs' => hss s' (List.mem_cons_of_mem s hs')) h with hold | hnew
      · rcases Stmt.effect_inserts (hss s List.mem_cons_self) (Db.run_ok hrun) hold with hold | hnew
        · exact .inl hold
        · exact .inr ⟨s, List.mem_cons_self, hnew⟩
      · obtain ⟨s', hs', hnew⟩ := hnew
        exact .inr ⟨s', List.mem_cons_of_mem s hs', hnew⟩

theorem inserts_insert (now : Time) (r : NewJob × Option Bytes) :
    (insert now r).inserts = [r.1] := by
  obtain ⟨new, key⟩ := r
  cases key <;> rfl

variable {encoder}

/-- What `_row` lets through: the columns of the call, with arguments that fit beside the
name. -/
theorem row_ok {bound : BoundTask} {args : A} {r : NewJob × Option Bytes}
    (h : row encoder bound args = .ok r) :
    ∃ payload, encoder.encode args = some payload ∧
      r.1 = newJob bound.task.name bound.task.durable bound.options payload ∧
      (payload.length : Int) ≤ payloadLimit bound.task.name := by
  unfold row at h
  split at h
  · cases h
  · next payload hencode =>
    split at h
    · cases h
    · next hfits =>
      refine ⟨payload, hencode, ?_, Int.not_lt.mp hfits⟩
      dsimp only at h
      split at h
      · cases h; rfl
      · split at h
        · cases h
        · cases h; rfl

theorem nodeRow_ok {node : Signature A} {new : NewJob} (h : nodeRow encoder node = .ok new) :
    ∃ payload, encoder.encode node.args = some payload ∧
      new = newJob node.task.name node.task.durable node.options payload := by
  unfold nodeRow at h
  split at h
  · cases h
  · next payload hencode =>
    cases h
    exact ⟨payload, hencode, rfl⟩

/-- A workflow that has nodes is one statement, on the rows of its nodes in order, and
only asyncpg runs it. -/
theorem flow_enqueue_ok {conn : Conn} {flow : Flow A} (hnodes : flow.nodes ≠ []) {now : Time} {db db' : Db} :
    flow.enqueue encoder conn now db = .ok db' ↔ conn = .driver .asyncpg ∧
      ∃ nodes, flow.nodes.mapM (nodeRow encoder) = .ok nodes ∧
        db.run (.insertWorkflow ⟨nodes, flow.edges, flow.distinct⟩ now) = .ok db' := by
  unfold Flow.enqueue
  rw [if_neg (mt List.isEmpty_iff.mp hnodes)]
  constructor
  · intro h
    obtain ⟨driver, hdriver, h⟩ := bind_ok h
    obtain ⟨nodes, hmap, h⟩ := bind_ok h
    split at h
    · cases h
    next hasked =>
    obtain rfl := Driver.asked_insertNode.mp (not_not.mp hasked)
    obtain ⟨db₁, hdb₁, h⟩ := bind_ok h
    cases h
    refine ⟨?_, nodes, hmap, transaction_singleton.mp hdb₁⟩
    cases conn with
    | driver d => cases hdriver; rfl
    | unsupported => cases hdriver
  · rintro ⟨rfl, nodes, hmap, hrun⟩
    have hasked : ¬ asked Driver.asyncpg.insertNode ≠ nodeParameters.length := not_not.mpr asked_numbered
    simp only [resolve, hmap, if_neg hasked, transaction_singleton.mpr hrun, Driver.isAsync, bind, Except.bind,
      if_true]

/-- The calls of a request that `_row` makes rows of. -/
def Request.boundCalls : Request A → List (BoundTask × A)
  | .enqueue _ bound args => [(bound, args)]
  | .enqueueMany _ bound calls => calls.filterMap fun call => call.map fun args => (bound, args)
  | .workflow _ => []

/-- A request that goes through is a transaction of inserts, each of a row of one of its
calls, or the one statement of a workflow. -/
theorem run_statements {conn : Conn} {now : Time} {db db' : Db} {r : Request A}
    (h : r.run encoder conn now db = .ok db') :
    (∃ rows : List (NewJob × Option Bytes), transaction (rows.map (insert now)) db = .ok db' ∧
      (∀ made ∈ rows, ∃ call ∈ r.boundCalls, row encoder call.1 call.2 = .ok made) ∧
      ∀ flow, r = .workflow flow → flow.nodes = []) ∨
    ∃ flow nodes, r = .workflow flow ∧ flow.nodes ≠ [] ∧ flow.nodes.mapM (nodeRow encoder) = .ok nodes ∧
      db.run (.insertWorkflow ⟨nodes, flow.edges, flow.distinct⟩ now) = .ok db' := by
  have hnothing : ∀ made ∈ ([] : List (NewJob × Option Bytes)),
      ∃ call ∈ r.boundCalls, row encoder call.1 call.2 = .ok made := fun made hmade => absurd hmade List.not_mem_nil
  cases r with
  | enqueue async bound args =>
    obtain ⟨-, -, h⟩ := bind_ok h
    obtain ⟨made, hmade, h⟩ := bind_ok h
    refine .inl ⟨[made], h, fun other hother => ⟨(bound, args), List.mem_singleton_self _, ?_⟩,
      fun flow hflow => by cases hflow⟩
    rw [List.mem_singleton.mp hother]
    exact hmade
  | enqueueMany async bound calls =>
    simp only [Request.run, enqueueMany] at h
    split at h
    · exact .inl ⟨[], h, hnothing, fun flow hflow => by cases hflow⟩
    · obtain ⟨-, -, h⟩ := bind_ok h
      obtain ⟨rows, hrows, h⟩ := bind_ok h
      refine .inl ⟨rows, h, fun made hmade => ?_, fun flow hflow => by cases hflow⟩
      obtain ⟨call, hcall, hfrom⟩ := mem_of_mapM hrows made hmade
      split at hfrom
      · next args => exact ⟨(bound, args), List.mem_filterMap.mpr ⟨some args, hcall, rfl⟩, hfrom⟩
      · cases hfrom
  | workflow flow =>
    by_cases hempty : flow.nodes = []
    · refine .inl ⟨[], (if_pos (List.isEmpty_iff.mpr hempty)).symm.trans h, hnothing, fun other hother => ?_⟩
      cases hother
      exact hempty
    · obtain ⟨-, nodes, hnodes, hrun⟩ := (flow_enqueue_ok hempty).mp h
      exact .inr ⟨flow, nodes, rfl, hempty, hnodes, hrun⟩

theorem transaction_fits {rows : List (NewJob × Option Bytes)}
    (hrows : ∀ r ∈ rows, (r.1.payload.length : Int) ≤ payloadLimit r.1.task) {now : Time}
    {db db' : Db} (h : transaction (rows.map (insert now)) db = .ok db') {j : Job}
    (hj : j ∈ db'.jobs) (hnew : j ∉ db.jobs) : (j.payload.length : Int) ≤ payloadLimit j.task := by
  have hss : ∀ s ∈ rows.map (insert now), s.inserts ≠ [] := by
    intro s hs
    obtain ⟨r, -, rfl⟩ := List.mem_map.mp hs
    simp [inserts_insert]
  rcases transaction_inserts hss h hj with hold | hfrom
  · exact absurd hold hnew
  · obtain ⟨s, hs, new, hmem, htask, hpayload, -⟩ := hfrom
    obtain ⟨r, hr, rfl⟩ := List.mem_map.mp hs
    rw [inserts_insert, List.mem_singleton] at hmem
    rw [htask, hpayload, hmem]
    exact hrows r hr

/-- The rows of `enqueue` and `enqueue_many` fit; those of a workflow may not. -/
theorem run_fits {conn : Conn} {now : Time} {db db' : Db} {r : Request A}
    (h : r.run encoder conn now db = .ok db') {j : Job} (hj : j ∈ db'.jobs) (hnew : j ∉ db.jobs)
    (hr : r.isWorkflow = false) : (j.payload.length : Int) ≤ payloadLimit j.task := by
  rcases run_statements h with ⟨rows, htransaction, hrows, -⟩ | ⟨flow, nodes, rfl, -⟩
  · refine transaction_fits (fun made hmade => ?_) htransaction hj hnew
    obtain ⟨call, -, hrow⟩ := hrows made hmade
    obtain ⟨payload, -, hcolumns, hfits⟩ := row_ok hrow
    rw [hcolumns]
    exact hfits
  · cases hr

/-- A dispatch is accepted exactly if the name fits its length field and the
arguments fit beside it. -/
theorem accepted_iff_fits {id attempt maxAttempts : Int} {task : String} {payload : Bytes} :
    Accepted (.dispatch id attempt maxAttempts task payload) ↔
      (utf8 task).length ≤ 65535 ∧ (payload.length : Int) ≤ payloadLimit task := by
  rw [accepted_dispatch, payloadLimit, dispatchHeadBytes]
  omega

end

/-! ## First rows -/

/-- One positional argument of type `bytes`: `[[b], {}]`. -/
def bytesArgument : Encoder Bytes where
  encode b := some (0x92 :: 0x91 :: (MessagePack.bin b ++ [0x80]))
  uniqueKey _ _ _ := none

/-- The name `"aa…a"` of `n` letters. -/
def letters : Nat → String
  | 0 => ""
  | n + 1 => (letters n).push 'a'

theorem length_letters : ∀ n, (utf8 (letters n)).length = n
  | 0 => rfl
  | n + 1 => by
    have ih := length_letters n
    have hsize : ∀ s : String, (utf8 s).length = s.utf8ByteSize := fun s => Array.length_toList
    rw [hsize] at ih ⊢
    rw [letters, String.utf8ByteSize_push, ih]
    rfl

theorem hasNul_letters : ∀ n, hasNul (letters n) = false
  | 0 => by decide
  | n + 1 => by
    have ih := hasNul_letters n
    simp only [hasNul, decide_eq_false_iff_not] at ih ⊢
    simp [letters, ih]

section
variable {task : String} (htask : hasNul task = false) (payload : Bytes)
include htask

theorem texts_plain : ¬ (({ task := task, payload := payload } : NewJob).texts.any hasNul = true) := by
  have hqueue : hasNul "default" = false := by decide
  simp [NewJob.texts, htask, hqueue]

/-- A first row with default options meets every constraint, whatever its payload and
its name, if PostgreSQL takes that for a text. -/
theorem run_first :
    ∃ db, Db.empty.run (.enqueue { task := task, payload := payload } 0) = .ok db ∧
      db.jobs = [({ task := task, payload := payload } : NewJob).row 1 0] := by
  have heffect : Stmt.effect (.enqueue { task := task, payload := payload } 0) Db.empty.toTables =
      .ok (Db.empty.toTables.enqueue { task := task, payload := payload } 0) :=
    if_neg (texts_plain htask payload)
  exact ⟨_, Db.run_of_effect heffect fun c => by cases c <;> exact of_decide_eq_true rfl, rfl⟩

theorem run_first_node :
    ∃ db, Db.empty.run (.insertWorkflow ⟨[{ task := task, payload := payload }], [], List.nodup_nil⟩ 0)
        = .ok db ∧
      db.jobs = [({ task := task, payload := payload } : NewJob).node 1 1 0 0] := by
  have htexts : ¬ ([(({ task := task, payload := payload } : NewJob), 0)].any fun n =>
      n.1.texts.any hasNul) = true := by
    simpa using texts_plain htask payload
  have heffect : Stmt.effect (.insertWorkflow ⟨[{ task := task, payload := payload }], [], List.nodup_nil⟩ 0)
      Db.empty.toTables =
        .ok (Db.empty.toTables.addWorkflow [({ task := task, payload := payload }, 0)] [] 0) :=
    (if_neg htexts).trans (if_pos (fun e he => absurd he List.not_mem_nil))
  exact ⟨_, Db.run_of_effect heffect fun c => by cases c <;> exact of_decide_eq_true rfl, rfl⟩

end

/-- An `enqueue` with default options, once `_row` lets it through. -/
theorem enqueue_first (encoder : Encoder Bytes) {task : String} (htask : hasNul task = false) (args : Bytes)
    {payload : Bytes} (hencode : encoder.encode args = some payload)
    (hfits : (payload.length : Int) ≤ payloadLimit task) :
    ∃ db, (Request.enqueue true ⟨⟨task, false⟩, {}⟩ args).run encoder (.driver .asyncpg) 0 Db.empty = .ok db ∧
      db.jobs = [({ task := task, payload := payload } : NewJob).row 1 0] := by
  have hrow : row encoder ⟨⟨task, false⟩, {}⟩ args = .ok ({ task := task, payload := payload }, none) := by
    simp only [row, hencode, if_neg (Int.not_lt.mpr hfits)]
    rfl
  obtain ⟨db, hdb, hjobs⟩ := run_first htask payload
  refine ⟨db, ?_, hjobs⟩
  show (row encoder ⟨⟨task, false⟩, {}⟩ args >>= fun r => transaction [insert 0 r] Db.empty) = .ok db
  rw [hrow]
  show transaction [.enqueue { task := task, payload := payload } 0] Db.empty = .ok db
  rw [transaction, hdb]
  rfl

/-- A workflow of one node is inserted whatever its size. -/
theorem workflow_first (encoder : Encoder Bytes) {task : String} (htask : hasNul task = false) (args : Bytes)
    {payload : Bytes} (hencode : encoder.encode args = some payload) :
    ∃ db, (Request.workflow ⟨[⟨⟨task, false⟩, args, {}⟩], [], List.nodup_nil⟩).run encoder (.driver .asyncpg) 0
        Db.empty = .ok db ∧
      db.jobs = [({ task := task, payload := payload } : NewJob).node 1 1 0 0] := by
  have hnode : nodeRow encoder ⟨⟨task, false⟩, args, {}⟩ =
      .ok { task := task, payload := payload } := by
    simp only [nodeRow, hencode]
    rfl
  have hnodes : [⟨⟨task, false⟩, args, {}⟩].mapM (nodeRow encoder) =
      .ok [{ task := task, payload := payload }] := by
    rw [List.mapM_cons, hnode]
    rfl
  obtain ⟨db, hdb, hjobs⟩ := run_first_node htask payload
  exact ⟨db, (flow_enqueue_ok (List.cons_ne_nil _ _)).mpr ⟨rfl, _, hnodes, hdb⟩, hjobs⟩

/-! ## Dispatching what was enqueued -/

/-- **An enqueued job can be dispatched** exactly if its task name has at most
65535 bytes and, in a workflow, where nobody checks, its arguments are within
`payload_limit`. And `_row` turns away no arguments that could be dispatched. -/
theorem enqueued_dispatchable_iff {A : Type} (encoder : Encoder A) :
    (∀ (r : Request A) (conn : Conn) (now : Time) (db db' : Db),
      r.run encoder conn now db = .ok db' → ∀ j ∈ db'.jobs, j ∉ db.jobs →
      ((∀ attempt, Accepted (.dispatch j.id attempt j.maxAttempts j.task j.payload)) ↔
        (utf8 j.task).length ≤ 65535 ∧
          (r.isWorkflow = true → (j.payload.length : Int) ≤ payloadLimit j.task))) ∧
    ∀ (bound : BoundTask) (args : A) (payload : Bytes), encoder.encode args = some payload →
      (∃ id attempt maxAttempts,
        Accepted (.dispatch id attempt maxAttempts bound.task.name payload)) →
      ∀ task bytes limit, row encoder bound args ≠ .error (.argumentsTooLarge task bytes limit) := by
  constructor
  · intro r conn now db db' h j hj hnew
    simp only [accepted_iff_fits]
    constructor
    · intro hall
      exact ⟨(hall 0).1, fun _ => (hall 0).2⟩
    · intro hcond attempt
      refine ⟨hcond.1, ?_⟩
      cases hr : r.isWorkflow with
      | true => exact hcond.2 hr
      | false => exact run_fits h hj hnew hr
  · intro bound args payload hencode haccepted task bytes limit
    obtain ⟨id, attempt, maxAttempts, haccepted⟩ := haccepted
    have hfits := (accepted_iff_fits.mp haccepted).2
    simp only [row, hencode, if_neg (Int.not_lt.mpr hfits)]
    split
    · exact fun h => by cases h
    · split
      · exact fun h => by cases h
      · exact fun h => by cases h

/-- A call within both limits goes through, and its row can be dispatched. -/
theorem enqueued_dispatchable_iff_plain :
    ∃ db, (Request.enqueue true ⟨⟨"t", false⟩, {}⟩ [9]).run bytesArgument (.driver .asyncpg) 0 Db.empty = .ok db ∧
      ∀ j ∈ db.jobs, ∀ attempt,
        Accepted (.dispatch j.id attempt j.maxAttempts j.task j.payload) := by
  obtain ⟨db, hdb, hjobs⟩ := enqueue_first bytesArgument (by decide : hasNul "t" = false) [9] rfl (by decide)
  refine ⟨db, hdb, fun j hj => ?_⟩
  refine ((enqueued_dispatchable_iff bytesArgument).1 _ _ _ _ _ hdb j hj (Db.not_mem_empty j)).mpr ?_
  rw [hjobs, List.mem_singleton] at hj
  rw [hj]
  exact ⟨by decide, fun h => by cases h⟩

/-- A task of a given name, enqueued with an empty argument. -/
def plainCall (name : String) : Request Bytes := .enqueue true ⟨⟨name, false⟩, {}⟩ []

/-- A workflow of one node. -/
def singleNode (args : Bytes) : Request Bytes :=
  .workflow ⟨[⟨⟨"t", false⟩, args, {}⟩], [], List.nodup_nil⟩

/-- The request is inserted without an exception, and its row fits no frame. -/
def Undispatchable (r : Request Bytes) : Prop :=
  ∃ db, r.run bytesArgument (.driver .asyncpg) 0 Db.empty = .ok db ∧
    ∃ j ∈ db.jobs, ¬ Accepted (.dispatch j.id 1 j.maxAttempts j.task j.payload)

theorem plainCall_undispatchable {name : String} (hnul : hasNul name = false)
    (hname : (utf8 name).length = 65536) : Undispatchable (plainCall name) := by
  have hlimit : payloadLimit name = 16711665 := by
    rw [payloadLimit, hname]
    rfl
  obtain ⟨db, hdb, hjobs⟩ := enqueue_first bytesArgument hnul [] rfl (by rw [hlimit]; decide)
  refine ⟨db, hdb, _, hjobs ▸ List.mem_singleton.mpr rfl, fun h => ?_⟩
  have hshort : (utf8 name).length ≤ 65535 := (accepted_iff_fits.mp h).1
  omega

theorem singleNode_undispatchable {args : Bytes} (hargs : args.length = 16777216) :
    Undispatchable (singleNode args) := by
  obtain ⟨db, hdb, hjobs⟩ := workflow_first bytesArgument (by decide : hasNul "t" = false) args rfl
  refine ⟨db, hdb, _, hjobs ▸ List.mem_singleton.mpr rfl, fun h => ?_⟩
  have hlimit : payloadLimit "t" = 16777200 := by decide
  have hfits : ((0x92 :: 0x91 :: (MessagePack.bin args ++ [0x80])).length : Int) ≤
      payloadLimit "t" := (accepted_iff_fits.mp h).2
  simp only [MessagePack.bin, List.length_cons, List.length_append] at hfits
  omega

/-- A task whose name has 65536 bytes, and a node with 16 MiB of arguments. -/
theorem enqueued_undispatchable :
    Undispatchable (plainCall (letters 65536)) ∧
      Undispatchable (singleNode (List.replicate 16777216 0)) :=
  ⟨plainCall_undispatchable (hasNul_letters 65536) (length_letters 65536),
    singleNode_undispatchable List.length_replicate⟩

end Gylo.Client
