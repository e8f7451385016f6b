import LineageVault.Foundations.ReadCommitted
import LineageVault.Storage.SqliteBackend

/-! # `storage/postgres_backend.py`

Any number of backends and connections on one PostgreSQL database, each connection a client that runs
one call at a time. `acknowledge_writes_batch` (on items) and `recover_uncommitted` take
`pg_advisory_xact_lock` first; `stage_partial` does not. An insert waits while an open transaction
holds a row with the same unique key; then, or if there is none, it finds the row or not. The keys of a
batch are one array here, and so one parameter: its library has no `limit`, and the results hold with any.
-/

namespace LineageVault
open Foundations
set_option autoImplicit false

def Stmt.conflicts : Stmt → RowWrite → Bool
  | .insertIdempotency key eventId _, .idempotency row =>
    decide (row.idempotencyKey = key ∨ row.eventId = eventId)
  | .insertOrIgnoreStaging eventId _, .staging row => decide (row.eventId = eventId)
  | .insertLedger eventId _ _ _, .ledger row => decide (row.eventId = eventId)
  | _, _ => false

variable {P : Type}

/-- The calls that begin with `SELECT pg_advisory_xact_lock(%s)`. -/
def LedgerCall.locks : LedgerCall P → Bool
  | .stagePartial _ _ => false
  | .acknowledgeWritesBatch _ items => !items.isEmpty
  | .recoverUncommitted => true

/-- `SERIAL` values that other transactions took and lost. -/
def Numbers.later (n m : Numbers) : Bool := decide (n.seq ≤ m.seq ∧ n.id ≤ m.id)

def postgres (py : PyLib P) :
    ReadCommitted.Engine Stmt Reply PyErr Outcome (LedgerCall P) Db Numbers RowWrite where
  effect := effect
  applyAll := Db.applyAll
  conflicts := Stmt.conflicts
  later := Numbers.later
  prog := LedgerCall.prog py
  locks := LedgerCall.locks

abbrev Pg (P : Type) (n : ℕ) :=
  ReadCommitted.Server Stmt Reply PyErr Outcome (LedgerCall P) Db Numbers RowWrite n

abbrev PgTxn (P : Type) := ReadCommitted.Txn Stmt Reply PyErr Outcome (LedgerCall P) RowWrite

/-- The states of the server from an empty database on. -/
abbrev PgReaches (py : PyLib P) {n : ℕ} (g : Pg P n) : Prop :=
  ReadCommitted.Reaches (postgres py) Db.empty Numbers.zero g

/-- `verify_integrity`, the loop of the other backend on the committed rows. -/
def verifyCommitted (py : PyLib P) {n : ℕ} (g : Pg P n) : Except PyErr Bool :=
  Backend.verifyRows py genesisHash (orderBySeq g.db.ledger)

/-- What a client sees of the committed store, with the numbers as they stand. -/
def PgTxn.sees (t : PgTxn P) (v : Store) : Store := (v.1.applyAll t.own, v.2)

/-- The event ids of the rows of `wal_staging` among some changes. -/
def inserted (ws : List RowWrite) : List Str :=
  ws.filterMap fun
    | .staging row => some row.eventId
    | _ => none

theorem inserted_append (ws ws' : List RowWrite) : inserted (ws ++ ws') = inserted ws ++ inserted ws' :=
  List.filterMap_append ..

end LineageVault
