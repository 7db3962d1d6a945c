import Gylo.Client.Enqueue

/-! # Whose call a row is

Whatever path a request takes, it comes down to a transaction of inserts, and every row
they add holds the name of a task that was called and the encoded arguments of that
call. -/
namespace Gylo.Client

open Gylo.Store

/-- The calls of a request, each with its task. -/
def calls {A : Type} : Request A → List (Task × A)
  | .enqueue _ bound args => [(bound.task, args)]
  | .enqueueMany _ bound calls => calls.filterMap fun call => call.map fun args => (bound.task, args)
  | .workflow flow => flow.nodes.map fun node => (node.task, node.args)

section
variable {A : Type} {encoder : Encoder A} {db db' : Db}

/-- A call of the request that a row with this task and payload is for. -/
structure CallOfRow (encoder : Encoder A) (r : Request A) (task : String) (payload : Bytes) (call : Task × A) :
    Prop where
  mem : call ∈ calls r
  task : task = call.1.name
  payload : encoder.encode call.2 = some payload

/-- The row is that of one of the calls. -/
def OfRequest (encoder : Encoder A) (r : Request A) (new : NewJob) : Prop :=
  ∃ call, CallOfRow encoder r new.task new.payload call

theorem ofRequest_of_row {r : Request A} {call : BoundTask × A} (hcall : call ∈ r.boundCalls)
    {made : NewJob × Option Bytes} (h : row encoder call.1 call.2 = .ok made) : OfRequest encoder r made.1 := by
  obtain ⟨payload, hencode, hcolumns, -⟩ := row_ok h
  rw [hcolumns]
  refine ⟨(call.1.task, call.2), ?_, rfl, hencode⟩
  cases r with
  | enqueue async bound args =>
    rw [List.mem_singleton.mp hcall]
    exact List.mem_singleton_self _
  | enqueueMany async bound calls =>
    obtain ⟨given, hgiven, hargs⟩ := List.mem_filterMap.mp hcall
    obtain ⟨args, rfl, rfl⟩ := Option.map_eq_some_iff.mp hargs
    exact List.mem_filterMap.mpr ⟨some args, hgiven, rfl⟩
  | workflow flow => cases hcall

/-- A request that goes through is a transaction of inserts, of rows for its calls. -/
theorem run_inserts {conn : Conn} {now : Time} {r : Request A} (h : r.run encoder conn now db = .ok db') :
    ∃ ss, transaction ss db = .ok db' ∧
      ∀ s ∈ ss, s.inserts ≠ [] ∧ ∀ new ∈ s.inserts, OfRequest encoder r new := by
  rcases run_statements h with ⟨rows, htransaction, hrows, -⟩ | ⟨flow, nodes, rfl, hne, hnodes, hrun⟩
  · refine ⟨_, htransaction, fun s hs => ?_⟩
    obtain ⟨made, hmade, rfl⟩ := List.mem_map.mp hs
    obtain ⟨call, hcall, hrow⟩ := hrows made hmade
    rw [inserts_insert]
    refine ⟨List.cons_ne_nil _ _, fun new hnew => ?_⟩
    rw [List.mem_singleton.mp hnew]
    exact ofRequest_of_row hcall hrow
  · refine ⟨_, transaction_singleton.mpr hrun, fun s hs => ?_⟩
    rw [List.mem_singleton.mp hs]
    refine ⟨fun hnone => hne ?_, fun new hnew => ?_⟩
    · have hlen := (forall₂_of_mapM hnodes).length_eq
      rw [show nodes = [] from hnone] at hlen
      exact List.length_eq_zero_iff.mp hlen
    · obtain ⟨node, hnode, hrow⟩ := mem_of_mapM hnodes new hnew
      obtain ⟨payload, hencode, rfl⟩ := nodeRow_ok hrow
      exact ⟨_, List.mem_map_of_mem hnode, rfl, hencode⟩

/-- An insert leaves the rows there were, and numbers its own past them. -/
theorem fresh_of_inserts {s : Stmt} (hs : s.inserts ≠ []) {k : Job} (hk : k ∈ (db.exec s).jobs) :
    k ∈ db.jobs ∨ db.jobSeq < k.id := by
  rcases db.exec_form s with hsame | hform
  · rw [hsame] at hk
    exact .inl hk
  · generalize (db.exec s).toTables = t' at hform hk
    cases hform with
    | rows step =>
      obtain ⟨j, hj, rfl⟩ := List.mem_map.mp hk
      cases s <;> first | exact .inl hj | exact absurd rfl hs
    | complete batch worker now hstmt =>
      subst hstmt
      exact absurd rfl hs
    | insert rows es new jobs edges =>
      rw [jobs] at hk
      exact (List.mem_append.mp hk).imp_right (new.ids k)
    | delete deletes jobs edges => exact .inl (jobs.mem hk)

/-- A statement at a time. -/
theorem transaction_cons {s : Stmt} {ss : List Stmt} (h : transaction (s :: ss) db = .ok db') :
    transaction ss (db.exec s) = .ok db' := by
  unfold transaction at h
  cases hrun : db.run s with
  | error e => rw [hrun] at h; cases h
  | ok db₁ =>
    rw [hrun] at h
    rw [Db.exec_of_run hrun]
    exact h

theorem jobSeq_transaction {ss : List Stmt} (h : transaction ss db = .ok db') : db.jobSeq ≤ db'.jobSeq := by
  induction ss generalizing db with
  | nil => cases h; exact Int.le_refl _
  | cons s ss ih => exact Int.le_trans (db.jobSeq_le_exec s) (ih (transaction_cons h))

theorem fresh_of_transaction {ss : List Stmt} (hss : ∀ s ∈ ss, s.inserts ≠ [])
    (h : transaction ss db = .ok db') {k : Job} (hk : k ∈ db'.jobs) : k ∈ db.jobs ∨ db.jobSeq < k.id := by
  induction ss generalizing db with
  | nil => cases h; exact .inl hk
  | cons s ss ih =>
    obtain ⟨hs, hrest⟩ := List.forall_mem_cons.mp hss
    rcases ih hrest (transaction_cons h) with hold | hnew
    · exact fresh_of_inserts hs hold
    · exact .inr (Int.lt_of_le_of_lt (db.jobSeq_le_exec s) hnew)

/-- A row that is new after a request is one of its calls'. -/
theorem row_of_request {conn : Conn} {now : Time} {r : Request A} (h : r.run encoder conn now db = .ok db')
    {j : Job} (hj : j ∈ db'.jobs) (hnew : j ∉ db.jobs) : db.jobSeq < j.id ∧
      ∃ call, CallOfRow encoder r j.task j.payload call := by
  obtain ⟨ss, htransaction, hss⟩ := run_inserts h
  refine ⟨(fresh_of_transaction (fun s hs => (hss s hs).1) htransaction hj).resolve_left hnew, ?_⟩
  rcases transaction_inserts (fun s hs => (hss s hs).1) htransaction hj with hold | ⟨s, hs, new, hmem, hrow⟩
  · exact absurd hold hnew
  · obtain ⟨call, hcall, htask, hencode⟩ := (hss s hs).2 new hmem
    obtain ⟨hjtask, hjpayload, -⟩ := hrow
    exact ⟨call, hcall, hjtask.trans htask, hjpayload ▸ hencode⟩
end

end Gylo.Client
