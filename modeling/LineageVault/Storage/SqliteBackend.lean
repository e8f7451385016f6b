import LineageVault.Foundations.Transaction
import LineageVault.Storage.Programs

/-! # `storage/sqlite_backend.py`

One `SQLiteStorageBackend` on a file of its own: its connection and its graph of dataset edges. Each
method holds the lock from its first statement to its commit or rollback, so a method call is one
step of the backend.

`fs` schedules failures of the surroundings among the statements of a call and its commit; with `[]` the
call raises only what its own arguments and rows make it raise. A failure leaves the open transaction as
it was: an exception before the statement or the COMMIT takes effect, or a locked file (SQLITE_BUSY). On
an I/O error or a full disk SQLite may roll the transaction back by itself, which is not modelled.
`stage_partial`, `acknowledge_writes_batch` and `recover_uncommitted` roll back when they raise, the
other writing methods do not.
-/

namespace LineageVault
open Foundations
set_option autoImplicit false

structure Backend where
  session : Session Store
  /-- the edges of `nx.DiGraph`, without repetition -/
  graph : List (Str × Str)

def addEdge (e : Str × Str) (g : List (Str × Str)) : List (Str × Str) :=
  if e ∈ g then g else g ++ [e]

namespace Backend

/-- The tables the connection sees. -/
abbrev db (b : Backend) : Db := b.session.view.1

/-- `_load_graph_cache` -/
def loadGraph (db : Db) : List (Str × Str) :=
  db.datasetEdges.foldl (fun g r => addEdge (r.src, r.dst) g) []

/-- Opening the file: what was not committed is gone. -/
def opened (v : Store) : Backend := ⟨⟨v, v⟩, loadGraph v.1⟩

def empty : Backend := opened (Db.empty, Numbers.zero)

variable {P α : Type} (py : PyLib P)

def guarded (fs : List Bool) (p : Sql α) (b : Backend) : Except PyErr α × Backend :=
  let (result, session) := Session.transaction exec .operationalError fs p b.session
  (result, { b with session := session })

def unguarded (fs : List Bool) (p : Sql α) (b : Backend) : Except PyErr α × Backend :=
  let (result, session) := Session.unguarded exec .operationalError fs p b.session
  (result, { b with session := session })

def stagePartial (fs : List Bool) (eventId : Str) (payload : P) (b : Backend) :
    Except PyErr Unit × Backend :=
  match payloadJson py payload with
  | .ok payloadText => b.guarded fs (stageBody eventId payloadText)
  | .error e => (.error e, b)

def acknowledgeWritesBatch (fs : List Bool) (now : ClockText) (items : List (BatchWriteItem P))
    (b : Backend) : Except PyErr (List AcknowledgedWrite) × Backend :=
  if items.isEmpty then (.ok [], b) else b.guarded fs (acknowledgeBody py now items)

def acknowledgeWrite (fs : List Bool) (now : ClockText) (item : BatchWriteItem P) (b : Backend) :
    Except PyErr AcknowledgedWrite × Backend :=
  match b.acknowledgeWritesBatch py fs now [item] with
  | (.ok (result :: _), b') => (.ok result, b')
  | (.ok [], b') => (.error .indexError, b')
  | (.error e, b') => (.error e, b')

/-- `StorageBackend.acknowledge_writes_batch`, the default: one call for each item, each at a time of
its own. -/
def defaultAcknowledgeWritesBatch : List (ClockText × BatchWriteItem P) → Backend →
    Except PyErr (List AcknowledgedWrite) × Backend
  | [], b => (.ok [], b)
  | (now, item) :: items, b =>
    match b.acknowledgeWrite py [] now item with
    | (.error e, b') => (.error e, b')
    | (.ok result, b') =>
      match defaultAcknowledgeWritesBatch items b' with
      | (.error e, b'') => (.error e, b'')
      | (.ok results, b'') => (.ok (result :: results), b'')

def recoverUncommitted (fs : List Bool) (b : Backend) : Except PyErr ℕ × Backend :=
  b.guarded fs (recoverBody py)

def addDatasetEdge (fs : List Bool) (src dst transformId eventTime : Str) (schemaVersion : ℤ)
    (payload : P) (b : Backend) : Except PyErr Unit × Backend :=
  match b.unguarded fs (addDatasetEdgeBody py src dst transformId eventTime schemaVersion payload) with
  | (.ok _, b') => (.ok (), { b' with graph := addEdge (src, dst) b'.graph })
  | (.error e, b') => (.error e, b')

def recordFieldMapping (fs : List Bool) (runId outputDataset inputDataset : Str)
    (fieldMap : List (Str × SqlParam)) (b : Backend) : Except PyErr Unit × Backend :=
  b.unguarded fs (recordFieldMappingBody runId outputDataset inputDataset fieldMap)

def storeRunEvent (fs : List Bool) (runId eventType : Str) (payload : P) (b : Backend) :
    Except PyErr Unit × Backend :=
  b.unguarded fs (storeRunEventBody py runId eventType payload)

/-- `close()` and a new backend on the same file. -/
def reopen (b : Backend) : Backend := opened b.session.durable

/-- The loop of `verify_integrity`. -/
def verifyRows (expectedPrev : Str) : List LedgerRow → Except PyErr Bool
  | [] => .ok true
  | row :: rows =>
    if row.prevHash ≠ expectedPrev then .ok false
    else
      match entryHash py row.prevHash row.eventId row.payload with
      | .ok digest => if digest ≠ row.entryHash then .ok false else verifyRows row.entryHash rows
      | .error e => .error e

def verifyIntegrity (b : Backend) : Except PyErr Bool :=
  verifyRows py genesisHash (orderBySeq b.db.ledger)

def countAcknowledged (b : Backend) : ℕ := b.db.ledger.length

/-- An element of the list in `all_ledger_entries`. -/
def readEntry (r : LedgerRow) : Except PyErr (LedgerEntry P) := do
  let payload ← py.loads r.payload
  return ⟨r.seq, r.eventId, payload, r.prevHash, r.entryHash⟩

def allLedgerEntries (b : Backend) : Except PyErr (List (LedgerEntry P)) :=
  (orderBySeq b.db.ledger).mapM (readEntry py)

end Backend

/-! ## Calls that nothing disturbs -/

section Quiet
variable {P α : Type} {py : PyLib P} {b : Backend}

theorem guarded_ok {p : Sql α} {a : α} {w : Store} (h : p.eval exec b.session.view = .ok (a, w)) :
    b.guarded [] p = (.ok a, { b with session := ⟨w, w⟩ }) := by
  rw [Backend.guarded, Session.transaction_ok exec .operationalError h]

theorem guarded_error {p : Sql α} {e : PyErr} (h : p.eval exec b.session.view = .error e) :
    b.guarded [] p = (.error e, { b with session := b.session.rollback }) := by
  rw [Backend.guarded, Session.transaction_error exec .operationalError h]

theorem unguarded_ok {p : Sql α} {a : α} {w : Store} (h : p.eval exec b.session.view = .ok (a, w)) :
    b.unguarded [] p = (.ok a, { b with session := ⟨w, w⟩ }) := by
  rw [Backend.unguarded, Session.unguarded_ok exec .operationalError h]

/-- A program that raises at its first statement leaves nothing behind. -/
theorem unguarded_stmt_error {s : Stmt} {k : Reply s → Sql α} {e : PyErr}
    (h : exec s b.session.view = .error e) : b.unguarded [] (.stmt s k) = (.error e, b) := by
  simp only [Backend.unguarded, Session.unguarded, Prog.run, List.headD_nil, h]

variable {now : ClockText} {item : BatchWriteItem P} {items : List (BatchWriteItem P)} {w : Store}

theorem batch_ok (hne : items ≠ []) {rs : List AcknowledgedWrite}
    (h : (acknowledgeBody py now items).eval exec b.session.view = .ok (rs, w)) :
    b.acknowledgeWritesBatch py [] now items = (.ok rs, { b with session := ⟨w, w⟩ }) := by
  rw [Backend.acknowledgeWritesBatch, if_neg (by simpa using hne), guarded_ok h]

theorem batch_error (hne : items ≠ []) {e : PyErr}
    (h : (acknowledgeBody py now items).eval exec b.session.view = .error e) :
    b.acknowledgeWritesBatch py [] now items = (.error e, { b with session := b.session.rollback }) := by
  rw [Backend.acknowledgeWritesBatch, if_neg (by simpa using hne), guarded_error h]

theorem acknowledgeWrite_ok {r : AcknowledgedWrite}
    (h : (acknowledgeBody py now [item]).eval exec b.session.view = .ok ([r], w)) :
    b.acknowledgeWrite py [] now item = (.ok r, { b with session := ⟨w, w⟩ }) := by
  rw [Backend.acknowledgeWrite, batch_ok (by simp) h]

theorem acknowledgeWrite_error {e : PyErr}
    (h : (acknowledgeBody py now [item]).eval exec b.session.view = .error e) :
    b.acknowledgeWrite py [] now item = (.error e, { b with session := b.session.rollback }) := by
  rw [Backend.acknowledgeWrite, batch_error (by simp) h]

end Quiet
end LineageVault
