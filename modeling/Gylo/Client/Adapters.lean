import Mathlib.Data.List.Range

/-! # The adapters

`resolve` finds the adapter of a driver for a connection of the caller's, or for an ORM's
wrapper of one. The drivers differ in whether they are awaited, and in how a statement
marks the places of its parameters: `_node_statement` names one of them twice, which only
numbered marks can do without a parameter more. -/
namespace Gylo.Client

/-! ## Statements with marks -/

/-- A place for a parameter: `$3` or `%s`. -/
inductive Mark where
  | numbered (n : Nat)
  | positional

inductive Piece where
  | text (s : String)
  | mark (m : Mark)

/-- `_COLUMNS` -/
def columns : List String :=
  ["queue", "task", "payload", "priority", "max_attempts", "scheduled_at", "concurrency_key",
    "max_concurrency", "durable"]

/-- `_DELAY` -/
def delayColumn : Nat := columns.idxOf "scheduled_at"

/-- `_node_statement`. The mark of the pending dependencies stands in it twice. -/
def nodeStatement (numbered : Bool) : List Piece :=
  let marks :=
    if numbered then (List.range' 1 (columns.length + 2)).map Mark.numbered
    else List.replicate (columns.length + 2) Mark.positional
  let workflow := (marks.take 1).map Piece.mark
  let rest := (marks.drop 1).take columns.length
  let pending := (marks.drop (marks.length - 1)).map Piece.mark
  let values := rest.mapIdx fun i mark =>
    if i = delayColumn then
      [Piece.text "CASE WHEN "] ++ pending ++
        [Piece.text " > 0 THEN 'infinity' ELSE now() + make_interval(secs => ", .mark mark, .text ") END"]
    else [Piece.mark mark]
  [Piece.text ("INSERT INTO gylo_job (workflow_id, " ++ ", ".intercalate columns ++ ", pending_deps) VALUES (")] ++
    workflow ++ [Piece.text ", "] ++ List.intercalate [Piece.text ", "] values ++ [Piece.text ", "] ++ pending ++
    [Piece.text ") RETURNING id"]

/-- How many parameters a statement asks for: a number may stand in it more than once, and
every `%s` takes a parameter of its own. -/
def asked : List Piece → Nat
  | [] => 0
  | .text _ :: pieces => asked pieces
  | .mark (.numbered n) :: pieces => max n (asked pieces)
  | .mark .positional :: pieces => asked pieces + 1

/-- What comes with the statement: `(workflow, *node)`. -/
def nodeParameters : List String :=
  "workflow" :: ["queue", "task", "payload", "priority", "max_attempts", "delay", "concurrency_key",
    "max_concurrency", "durable", "pending"]

theorem asked_numbered : asked (nodeStatement true) = nodeParameters.length := by decide

/-- One parameter is missing where the marks have no numbers. -/
theorem asked_positional : asked (nodeStatement false) = nodeParameters.length + 1 := by decide

/-! ## Connections -/

/-- The adapters `resolve` has. -/
inductive Driver where
  | asyncpg
  | psycopg
  | psycopgSync
deriving DecidableEq

namespace Driver

/-- `IS_ASYNC` -/
def isAsync : Driver → Bool
  | .asyncpg | .psycopg => true
  | .psycopgSync => false

/-- `INSERT_NODE` -/
def insertNode : Driver → List Piece
  | .asyncpg => nodeStatement true
  | .psycopg | .psycopgSync => nodeStatement false

/-- The parameters of a node are as many as the statement asks for on asyncpg alone. -/
theorem asked_insertNode {driver : Driver} :
    asked driver.insertNode = nodeParameters.length ↔ driver = .asyncpg := by
  have hmissing : asked (nodeStatement false) ≠ nodeParameters.length := by
    rw [asked_positional]
    omega
  cases driver with
  | asyncpg => exact iff_of_true asked_numbered rfl
  | psycopg => exact iff_of_false hmissing (fun h => by cases h)
  | psycopgSync => exact iff_of_false hmissing (fun h => by cases h)

end Driver

/-- What a caller may hand over for a connection. -/
inductive Conn where
  | driver (d : Driver)
  | unsupported
deriving DecidableEq

end Gylo.Client
