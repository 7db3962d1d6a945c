import Gylo.Client.Enqueue

/-! # A workflow is enqueued whole or not at all

`Workflow.enqueue` makes its rows first and then hands them to the adapter, which opens a
transaction of the driver, or a savepoint in the caller's. It does not ask whether the
connection is asynchronous: the synchronous adapter runs its statements and returns a
list, and `await` raises after that. -/
namespace Gylo.Client.Atomicity

open Gylo.Store Gylo.Wire Packing

/-! ## Connections -/

/-- What the tables are, and what they are to a transaction the caller has opened. -/
structure Session where
  committed : Db
  opened : Option Db

namespace Session

/-- What the connection sees. -/
def current (s : Session) : Db := s.opened.getD s.committed

/-- The driver's own transaction ends: it commits, or its savepoint is released. -/
def leave (s : Session) (db : Db) : Session :=
  match s.opened with
  | none => { s with committed := db }
  | some _ => { s with opened := some db }

end Session

/-! ## The call -/

section
variable {A : Type}

/-- A workflow as anyone may write it, with `sorted(self.edges)`. -/
structure Workflow (A : Type) where
  nodes : List (Signature A)
  edges : List (Int × Int)

/-- Where `xs[i]` looks in a list of `n`: a negative index counts from the end. -/
def index (n : Nat) (i : Int) : Option Nat :=
  if 0 ≤ i ∧ i < n then some i.toNat
  else if -n ≤ i ∧ i < 0 then some (n + i).toNat
  else none

/-- `counts[child] += 1` -/
def count (counts : List Nat) (edge : Int × Int) : Option (List Nat) :=
  (index counts.length edge.2).map fun child => counts.modify child (· + 1)

/-- `dependencies`; `none` where a child is no index. -/
def Workflow.dependencies (flow : Workflow A) : Option (List Nat) :=
  flow.edges.foldlM count (List.replicate flow.nodes.length 0)

/-- `ids[p], ids[c]`, by position. -/
def position (n : Nat) (edge : Int × Int) : Option (Nat × Nat) :=
  (index n edge.1).bind fun p => (index n edge.2).map fun c => (p, c)

/-- What a call leaves: whether a statement was sent, and what it returns or raises. -/
structure Outcome where
  session : Session
  sent : Bool
  result : Except Raised (List JobId)

/-- The block of `insert_workflow`: the nodes are inserted one by one, then `ids` is looked up
for the edges, then these are inserted. A driver that is strict runs a statement only with as
many parameters as it asks for; psycopg is. -/
def block (strict : Bool) (driver : Driver) (nodes : List (NewJob × Nat)) (edges : List (Int × Int))
    (now : Time) (db : Db) : Except Raised Db :=
  if strict ∧ asked driver.insertNode ≠ nodeParameters.length then .error .programmingError
  else
    match db.toTables.insertWorkflow nodes [] now >>= commit with
    | .error e => .error (.database e)
    | .ok _ =>
      match edges.mapM (position nodes.length) with
      | none => .error (.database .indexError)
      | some edges =>
        match db.toTables.insertWorkflow nodes edges now >>= commit with
        | .error e => .error (.database e)
        | .ok db' => .ok db'

/-- `await adapter.insert_workflow(…)`. By the time the block is left `_NEW_WORKFLOW` has been
sent; if it raised it is rolled back. -/
def insertWorkflow (strict : Bool) (driver : Driver) (nodes : List (NewJob × Nat)) (edges : List (Int × Int))
    (now : Time) (s : Session) : Outcome :=
  match block strict driver nodes edges now s.current with
  | .error e => ⟨s, true, .error e⟩
  | .ok db =>
    ⟨s.leave db, true,
      if driver.isAsync then .ok ((List.range nodes.length).map fun i => s.current.jobSeq + 1 + i)
      else .error .typeError⟩

/-- `Workflow.enqueue` -/
def Workflow.enqueue (strict : Bool) (encoder : Encoder A) (driver : Driver) (flow : Workflow A) (now : Time)
    (s : Session) : Outcome :=
  if flow.nodes.isEmpty then ⟨s, false, .ok []⟩
  else
    match flow.dependencies with
    | none => ⟨s, false, .error (.database .indexError)⟩
    | some counts =>
      match flow.nodes.mapM (nodeRow encoder) with
      | .error e => ⟨s, false, .error e⟩
      | .ok rows => insertWorkflow strict driver (rows.zip counts) flow.edges now s

/-- Nothing comes to the adapter: there are no nodes, an edge has a child that is no node, or
the arguments of a node cannot be encoded. -/
def Workflow.SendsNothing (encoder : Encoder A) (flow : Workflow A) : Prop :=
  flow.nodes = [] ∨ (∃ edge ∈ flow.edges, index flow.nodes.length edge.2 = none) ∨
    ∃ node ∈ flow.nodes, encoder.encode node.args = none

/-- A call that raises has inserted nothing, and a synchronous connection is refused with no
statement sent. -/
structure Atomic (driver : Driver) (flow : Workflow A) (s : Session) (out : Outcome) : Prop where
  unchanged : ∀ e, out.result = .error e → out.session = s
  refused : driver.isAsync = false → out.sent = false ∧ (flow.nodes ≠ [] → ∃ e, out.result = .error e)

/-! ## What comes to the adapter -/

theorem length_count {counts counts' : List Nat} {edge : Int × Int} (h : count counts edge = some counts') :
    counts'.length = counts.length := by
  obtain ⟨child, -, rfl⟩ := Option.map_eq_some_iff.mp h
  exact List.length_modify _ _ _

theorem foldlM_count_eq_none : ∀ {edges : List (Int × Int)} {counts : List Nat},
    edges.foldlM count counts = none ↔ ∃ edge ∈ edges, index counts.length edge.2 = none
  | [], _ => by simp
  | edge :: edges, counts => by
    rw [List.foldlM_cons, List.exists_mem_cons_iff]
    cases hcount : count counts edge with
    | none =>
      have hindex : index counts.length edge.2 = none := Option.map_eq_none_iff.mp hcount
      exact iff_of_true rfl (.inl hindex)
    | some counts' =>
      have hindex : index counts.length edge.2 ≠ none := by
        intro hnone
        rw [count, hnone] at hcount
        cases hcount
      rw [Option.bind_eq_bind, Option.bind_some, foldlM_count_eq_none, length_count hcount]
      exact (or_iff_right hindex).symm

theorem dependencies_eq_none {flow : Workflow A} :
    flow.dependencies = none ↔ ∃ edge ∈ flow.edges, index flow.nodes.length edge.2 = none := by
  rw [Workflow.dependencies, foldlM_count_eq_none, List.length_replicate]

theorem mapM_nodeRow_ok {encoder : Encoder A} : ∀ {nodes : List (Signature A)},
    (∃ rows, nodes.mapM (nodeRow encoder) = .ok rows) ↔ ¬ ∃ node ∈ nodes, encoder.encode node.args = none
  | [] => by simp [pure, Except.pure]
  | node :: nodes => by
    rw [List.mapM_cons, List.exists_mem_cons_iff, not_or, ← mapM_nodeRow_ok]
    cases hencode : encoder.encode node.args with
    | none => simp [nodeRow, hencode, bind, Except.bind]
    | some payload =>
      cases hrest : nodes.mapM (nodeRow encoder) with
      | error e => simp [nodeRow, hencode, bind, Except.bind]
      | ok rows => simp [nodeRow, hencode, bind, Except.bind, pure, Except.pure]

section
variable {strict : Bool} {encoder : Encoder A} {driver : Driver} {flow : Workflow A} {now : Time} {s : Session}

theorem enqueue_of_sendsNothing (h : flow.SendsNothing encoder) :
    (flow.enqueue strict encoder driver now s).session = s ∧
      (flow.enqueue strict encoder driver now s).sent = false ∧
      (flow.nodes ≠ [] → ∃ e, (flow.enqueue strict encoder driver now s).result = .error e) := by
  unfold Workflow.enqueue
  split
  next hempty => exact ⟨rfl, rfl, fun hnodes => absurd (List.isEmpty_iff.mp hempty) hnodes⟩
  next hnodes =>
    split
    next => exact ⟨rfl, rfl, fun _ => ⟨_, rfl⟩⟩
    next counts hcounts =>
      split
      next => exact ⟨rfl, rfl, fun _ => ⟨_, rfl⟩⟩
      next rows hrows =>
        -- nodes, children and arguments are all there
        rcases h with hempty | hchild | hencode
        · exact absurd (List.isEmpty_iff.mpr hempty) hnodes
        · rw [dependencies_eq_none.mpr hchild] at hcounts
          cases hcounts
        · exact absurd hencode (mapM_nodeRow_ok.mp ⟨rows, hrows⟩)

theorem enqueue_eq (hnodes : flow.nodes ≠ []) {counts : List Nat} (hcounts : flow.dependencies = some counts)
    {rows : List NewJob} (hrows : flow.nodes.mapM (nodeRow encoder) = .ok rows) :
    flow.enqueue strict encoder driver now s =
      insertWorkflow strict driver (rows.zip counts) flow.edges now s := by
  unfold Workflow.enqueue
  rw [if_neg (mt List.isEmpty_iff.mp hnodes), hcounts, hrows]

theorem enqueue_of_sends (h : ¬ flow.SendsNothing encoder) :
    ∃ nodes, flow.enqueue strict encoder driver now s =
      insertWorkflow strict driver nodes flow.edges now s := by
  obtain ⟨hnodes, hrest⟩ := not_or.mp h
  obtain ⟨hchild, hencode⟩ := not_or.mp hrest
  obtain ⟨rows, hrows⟩ := mapM_nodeRow_ok.mpr hencode
  obtain ⟨counts, hcounts⟩ := Option.ne_none_iff_exists'.mp (mt dependencies_eq_none.mp hchild)
  exact ⟨rows.zip counts, enqueue_eq hnodes hcounts hrows⟩

theorem insertWorkflow_sent {nodes : List (NewJob × Nat)} {edges : List (Int × Int)} :
    (insertWorkflow strict driver nodes edges now s).sent = true := by
  unfold insertWorkflow
  split <;> rfl

/-- An asynchronous adapter returns what its block has committed. -/
theorem insertWorkflow_unchanged (hasync : driver.isAsync = true) {nodes : List (NewJob × Nat)}
    {edges : List (Int × Int)} {e : Raised}
    (h : (insertWorkflow strict driver nodes edges now s).result = .error e) :
    (insertWorkflow strict driver nodes edges now s).session = s := by
  unfold insertWorkflow at h ⊢
  split at h
  next => rfl
  next => simp [hasync] at h

/-- The marks that are missing on psycopg let nothing stay there. -/
theorem unchanged_of_strict {e : Raised} (h : (flow.enqueue true encoder driver now s).result = .error e) :
    (flow.enqueue true encoder driver now s).session = s := by
  by_cases hnothing : flow.SendsNothing encoder
  · exact (enqueue_of_sendsNothing hnothing).1
  · obtain ⟨nodes, henqueue⟩ := enqueue_of_sends (s := s) hnothing
    rw [henqueue] at h ⊢
    cases driver with
    | asyncpg => exact insertWorkflow_unchanged rfl h
    | psycopg => exact insertWorkflow_unchanged rfl h
    | psycopgSync =>
      have hasked : asked Driver.psycopgSync.insertNode ≠ nodeParameters.length :=
        mt Driver.asked_insertNode.mp (fun h => by cases h)
      unfold insertWorkflow block
      rw [if_pos ⟨rfl, hasked⟩]

/-- **A workflow that raises inserts nothing**, on a connection that is asynchronous; a
synchronous one is refused in time exactly if there is nothing to send. -/
theorem workflow_atomic_iff (strict : Bool) (encoder : Encoder A) (driver : Driver) (flow : Workflow A)
    (now : Time) (s : Session) :
    Atomic driver flow s (flow.enqueue strict encoder driver now s) ↔
      (driver.isAsync = false → flow.SendsNothing encoder) := by
  constructor
  · intro h hsync
    by_contra hsends
    obtain ⟨nodes, henqueue⟩ := enqueue_of_sends (s := s) hsends
    have hrefused := (h.refused hsync).1
    rw [henqueue, insertWorkflow_sent] at hrefused
    cases hrefused
  · intro h
    by_cases hnothing : flow.SendsNothing encoder
    · obtain ⟨hsession, hsent, hraises⟩ := enqueue_of_sendsNothing hnothing
      exact ⟨fun _ _ => hsession, fun _ => ⟨hsent, hraises⟩⟩
    · have hasync : driver.isAsync = true := by
        cases hdriver : driver.isAsync with
        | false => exact absurd (h hdriver) hnothing
        | true => rfl
      obtain ⟨nodes, henqueue⟩ := enqueue_of_sends (s := s) hnothing
      rw [henqueue]
      exact ⟨fun _ => insertWorkflow_unchanged hasync, fun hsync => absurd (hasync.symm.trans hsync) (by decide)⟩
end
end

/-! ## On asyncpg -/

section
variable {A : Type} {n : Nat}

theorem index_natCast (i : Nat) : index n (i : Int) = if i < n then some i else none := by
  unfold index
  by_cases hi : i < n
  · rw [if_pos ⟨by omega, by omega⟩, if_pos hi, Int.toNat_natCast]
  · rw [if_neg (by omega), if_neg (by omega), if_neg hi]

def castEdge (edge : Nat × Nat) : Int × Int := (edge.1, edge.2)

/-- The workflow of numbers that are none of them negative. -/
def ofFlow (flow : Flow A) : Workflow A := ⟨flow.nodes, flow.edges.map castEdge⟩

theorem foldlM_count_cast : ∀ {edges : List (Nat × Nat)} {counts : List Nat},
    (∀ edge ∈ edges, edge.2 < counts.length) → (edges.map castEdge).foldlM count counts =
      some (edges.foldl (fun counts edge => counts.modify edge.2 (· + 1)) counts)
  | [], _, _ => rfl
  | edge :: edges, counts, h => by
    obtain ⟨hedge, hedges⟩ := List.forall_mem_cons.mp h
    have hcount : count counts (castEdge edge) = some (counts.modify edge.2 (· + 1)) := by
      rw [count, castEdge, index_natCast, if_pos hedge]
      rfl
    rw [List.map_cons, List.foldlM_cons, hcount, Option.bind_eq_bind, Option.bind_some,
      foldlM_count_cast (by simpa using hedges)]
    rfl

theorem position_cast (edge : Nat × Nat) :
    position n (castEdge edge) = if edge.1 < n ∧ edge.2 < n then some edge else none := by
  unfold position castEdge
  rw [index_natCast, index_natCast]
  by_cases hparent : edge.1 < n
  · by_cases hchild : edge.2 < n
    · simp [hparent, hchild]
    · simp [hparent, hchild]
  · simp [hparent]

theorem mapM_position_cast : ∀ {edges : List (Nat × Nat)}, (edges.map castEdge).mapM (position n) =
    if ∀ edge ∈ edges, edge.1 < n ∧ edge.2 < n then some edges else none
  | [] => by simp
  | edge :: edges => by
    rw [List.map_cons, List.mapM_cons, mapM_position_cast, position_cast]
    simp only [List.forall_mem_cons]
    by_cases hedge : edge.1 < n ∧ edge.2 < n
    · by_cases hedges : ∀ edge ∈ edges, edge.1 < n ∧ edge.2 < n
      · rw [if_pos hedge, if_pos hedges, if_pos ⟨hedge, hedges⟩]
        rfl
      · rw [if_pos hedge, if_neg hedges, if_neg (mt And.right hedges)]
        rfl
    · rw [if_neg hedge, if_neg (mt And.left hedge)]
      rfl

variable {strict : Bool} {encoder : Encoder A} {flow : Flow A} {now : Time} {s : Session}

theorem leave_current (s : Session) : s.leave s.current = s := by
  obtain ⟨committed, opened⟩ := s
  cases opened <;> rfl

/-- Without the edges there is less to be refused. -/
theorem satisfies_without_edges {t : Tables} {nodes : List (NewJob × Nat)} {edges : List (Nat × Nat)}
    (h : ∀ c, (t.addWorkflow nodes edges now).Satisfies c) (c : Constraint) :
    (t.addWorkflow nodes [] now).Satisfies c := by
  have hedges : List.Sublist (t.addWorkflow nodes [] now).edges (t.addWorkflow nodes edges now).edges :=
    List.Sublist.append (List.Sublist.refl _) (List.nil_sublist _)
  cases c with
  | edgePkey => exact (h .edgePkey).sublist (hedges.map _)
  | edgeFkey => exact fun e he => h .edgeFkey e (hedges.subset he)
  | jobPkey => exact h .jobPkey
  | attemptBounds => exact h .attemptBounds
  | leasePaired => exact h .leasePaired
  | concurrencyPaired => exact h .concurrencyPaired
  | concurrencyPositive => exact h .concurrencyPositive
  | pendingDepsPositive => exact h .pendingDepsPositive
  | smallintRange => exact h .smallintRange
  | intRange => exact h .intRange
  | jobUnique => exact h .jobUnique
  | jobWorkflowFkey => exact h .jobWorkflowFkey
  | stepPkey => exact h .stepPkey
  | stepFkey => exact h .stepFkey
  | cronPkey => exact h .cronPkey
  | identity => exact h .identity

/-- The nodes of a workflow that is committed could be committed alone. -/
theorem nodes_ok {nodes : List (NewJob × Nat)} {edges : List (Nat × Nat)} {db db' : Db}
    (h : (db.toTables.insertWorkflow nodes edges now >>= commit) = .ok db') :
    ∃ db₁, (db.toTables.insertWorkflow nodes [] now >>= commit) = .ok db₁ := by
  obtain ⟨t, hinsert, hcommit⟩ := bind_ok h
  obtain ⟨-, rfl⟩ := insertWorkflow_ok hinsert
  have hnodes : db.toTables.insertWorkflow nodes [] now = .ok (db.toTables.addWorkflow nodes [] now) := by
    unfold Tables.insertWorkflow at hinsert ⊢
    split at hinsert
    · cases hinsert
    next htexts =>
      rw [if_neg htexts]
      exact if_pos fun e he => absurd he List.not_mem_nil
  rw [hnodes]
  exact commit_isOk_iff.mpr (satisfies_without_edges (commit_isOk_iff.mp ⟨db', hcommit⟩))

/-- The block on a driver whose marks are numbered. -/
theorem block_asyncpg {nodes : List (NewJob × Nat)} {edges : List (Nat × Nat)} {db db' : Db} :
    block strict .asyncpg nodes (edges.map castEdge) now db = .ok db' ↔
      (db.toTables.insertWorkflow nodes edges now >>= commit) = .ok db' := by
  have hasked : ¬ (strict ∧ asked Driver.asyncpg.insertNode ≠ nodeParameters.length) :=
    fun h => h.2 asked_numbered
  unfold block
  rw [if_neg hasked, mapM_position_cast]
  constructor
  · intro h
    split at h
    · cases h
    · split at h
      · cases h
      next es hes =>
        split at hes
        · cases hes
          split at h
          · cases h
          next hok =>
            cases h
            exact hok
        · cases hes
  · intro h
    obtain ⟨db₁, hnodes⟩ := nodes_ok h
    obtain ⟨t, hinsert, -⟩ := bind_ok h
    rw [hnodes, if_pos (insertWorkflow_ok hinsert).1]
    dsimp only
    rw [h]

theorem insertWorkflow_asyncpg {nodes : List (NewJob × Nat)} {edges : List (Int × Int)} (t : Session) :
    ((∃ ids, (insertWorkflow strict .asyncpg nodes edges now s).result = .ok ids) ∧
      (insertWorkflow strict .asyncpg nodes edges now s).session = t) ↔
        ∃ db, block strict .asyncpg nodes edges now s.current = .ok db ∧ t = s.leave db := by
  unfold insertWorkflow
  split
  next e herror =>
    rw [herror]
    refine iff_of_false (fun h => ?_) fun h => ?_
    · obtain ⟨⟨ids, hids⟩, -⟩ := h
      cases hids
    · obtain ⟨db, hdb, -⟩ := h
      cases hdb
  next db hok =>
    rw [hok]
    constructor
    · intro h
      exact ⟨db, rfl, h.2.symm⟩
    · intro h
      obtain ⟨db', hdb, ht⟩ := h
      cases hdb
      exact ⟨⟨_, rfl⟩, ht.symm⟩

theorem run_insertWorkflow {flow : Store.Workflow} (hnodes : flow.nodes ≠ []) {db : Db} :
    db.run (.insertWorkflow flow now) =
      (db.toTables.insertWorkflow (flow.nodes.zip flow.dependencies) flow.edges now >>= commit) := by
  simp only [Db.run, Stmt.effect, Tables.enqueueWorkflow, if_neg hnodes]

theorem rows_ne_nil {nodes : List (Signature A)} (hnodes : nodes ≠ []) {rows : List NewJob}
    (hrows : nodes.mapM (nodeRow encoder) = .ok rows) : rows ≠ [] := by
  intro hnil
  have hlength := (forall₂_of_mapM hrows).length_eq
  rw [hnil] at hlength
  exact hnodes (List.length_eq_zero_iff.mp hlength)

theorem ofFlow_dependencies (hedges : ∀ edge ∈ flow.edges, edge.2 < flow.nodes.length) {rows : List NewJob}
    (hrows : flow.nodes.mapM (nodeRow encoder) = .ok rows) :
    (ofFlow flow).dependencies = some (Store.Workflow.mk rows flow.edges flow.distinct).dependencies := by
  have hlength := (forall₂_of_mapM hrows).length_eq
  unfold Workflow.dependencies Store.Workflow.dependencies
  dsimp only [ofFlow]
  rw [foldlM_count_cast (by simpa using hedges), hlength]

/-- Where nothing comes to the adapter, `Flow.enqueue` fails as well. -/
theorem flow_enqueue_of_sendsNothing (hnodes : flow.nodes ≠ []) (h : (ofFlow flow).SendsNothing encoder)
    (db db' : Db) : flow.enqueue encoder (.driver .asyncpg) now db ≠ .ok db' := by
  intro hok
  obtain ⟨-, rows, hmap, hrun⟩ := (flow_enqueue_ok hnodes).mp hok
  rcases h with hempty | ⟨edge, hedge, hchild⟩ | hencode
  · exact hnodes hempty
  · obtain ⟨source, hsource, rfl⟩ := List.mem_map.mp hedge
    have hin := ((enqueueWorkflow_ok (rows_ne_nil hnodes hmap) (Db.run_ok hrun)).1 source hsource).2
    rw [← (forall₂_of_mapM hmap).length_eq] at hin
    have hsome := (index_natCast source.2).trans (if_pos hin)
    exact absurd (hsome.symm.trans hchild) (Option.some_ne_none _)
  · exact mapM_nodeRow_ok.mp ⟨rows, hmap⟩ hencode

/-- What comes to the adapter of a graph that has something to send. -/
theorem enqueue_ofFlow_eq (h : ¬ (ofFlow flow).SendsNothing encoder) :
    ∃ rows, flow.nodes.mapM (nodeRow encoder) = .ok rows ∧ rows ≠ [] ∧
      (ofFlow flow).enqueue strict encoder .asyncpg now s = insertWorkflow strict .asyncpg
        (rows.zip (Store.Workflow.mk rows flow.edges flow.distinct).dependencies)
        (flow.edges.map castEdge) now s := by
  obtain ⟨hnodes, hrest⟩ := not_or.mp h
  obtain ⟨hchild, hencode⟩ := not_or.mp hrest
  obtain ⟨rows, hmap⟩ := mapM_nodeRow_ok.mpr hencode
  have hedges : ∀ edge ∈ flow.edges, edge.2 < flow.nodes.length := by
    intro edge hedge
    by_contra hout
    refine hchild ⟨castEdge edge, List.mem_map_of_mem hedge, ?_⟩
    exact (index_natCast edge.2).trans (if_neg hout)
  exact ⟨rows, hmap, rows_ne_nil hnodes hmap, enqueue_eq hnodes (ofFlow_dependencies hedges hmap) hmap⟩

/-- **On asyncpg the call is the transaction of `Flow.enqueue`**: it returns exactly if that
one succeeds, with the tables it leaves. -/
theorem enqueue_ofFlow (t : Session) :
    ((∃ ids, ((ofFlow flow).enqueue strict encoder .asyncpg now s).result = .ok ids) ∧
      ((ofFlow flow).enqueue strict encoder .asyncpg now s).session = t) ↔
        ∃ db, flow.enqueue encoder (.driver .asyncpg) now s.current = .ok db ∧ t = s.leave db := by
  by_cases hnodes : flow.nodes = []
  · have hempty : flow.nodes.isEmpty = true := List.isEmpty_iff.mpr hnodes
    unfold Workflow.enqueue Flow.enqueue ofFlow
    rw [if_pos hempty, if_pos hempty]
    constructor
    · intro h
      exact ⟨s.current, rfl, h.2.symm.trans (leave_current s).symm⟩
    · intro h
      obtain ⟨db, hdb, ht⟩ := h
      cases hdb
      exact ⟨⟨[], rfl⟩, (ht.trans (leave_current s)).symm⟩
  · by_cases hnothing : (ofFlow flow).SendsNothing encoder
    · refine iff_of_false (fun h => ?_) fun h => ?_
      · obtain ⟨⟨ids, hids⟩, -⟩ := h
        obtain ⟨e, he⟩ := (enqueue_of_sendsNothing hnothing).2.2 hnodes
        rw [hids] at he
        cases he
      · obtain ⟨db, hdb, -⟩ := h
        exact flow_enqueue_of_sendsNothing hnodes hnothing _ _ hdb
    · obtain ⟨rows, hmap, hrows, henqueue⟩ := enqueue_ofFlow_eq hnothing
      rw [henqueue, insertWorkflow_asyncpg]
      refine exists_congr fun db => and_congr_left fun _ => ?_
      rw [block_asyncpg, flow_enqueue_ok hnodes]
      constructor
      · intro h
        exact ⟨rfl, rows, hmap, (run_insertWorkflow hrows).trans h⟩
      · intro h
        obtain ⟨-, rows', hmap', hrun⟩ := h
        obtain rfl : rows = rows' := Except.ok.inj (hmap.symm.trans hmap')
        exact (run_insertWorkflow hrows).symm.trans hrun
end

def encodesEmpty : Encoder Unit := ⟨fun _ => some [], fun _ _ _ => none⟩

def oneNode : Workflow Unit := ⟨[⟨⟨"tests.step", false⟩, (), {}⟩], []⟩

/-- A synchronous connection gets as far as `_NEW_WORKFLOW`. psycopg then refuses the node,
and nothing stays; if it did not, the workflow would be committed when `await` raises. The
other calls of the asynchronous API refuse the connection. -/
theorem sync_connection_sends :
    ((oneNode.enqueue true encodesEmpty .psycopgSync 0 ⟨.empty, none⟩).sent = true ∧
      (oneNode.enqueue true encodesEmpty .psycopgSync 0 ⟨.empty, none⟩).result = .error .programmingError ∧
      (oneNode.enqueue true encodesEmpty .psycopgSync 0 ⟨.empty, none⟩).session.committed.workflows = []) ∧
    ((oneNode.enqueue false encodesEmpty .psycopgSync 0 ⟨.empty, none⟩).result = .error .typeError ∧
      (oneNode.enqueue false encodesEmpty .psycopgSync 0 ⟨.empty, none⟩).session.committed.jobs.length = 1) ∧
    adapter true (.driver .psycopgSync) = .error .wrongConnection := by
  refine ⟨⟨by decide, by decide, by decide⟩, ⟨by decide, by decide⟩, rfl⟩

end Gylo.Client.Atomicity
