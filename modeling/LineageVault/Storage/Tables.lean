import LineageVault.Python.Text

/-! # The tables of `storage/migrations.py`

Rows stand in the order of insertion. `seq` and `id` are the numbers SQLite and PostgreSQL hand out
(`AUTOINCREMENT`, `SERIAL`): increasing, not consecutive. Number columns that no statement reads
(those of `dataset_edges` and `field_mappings`) are left out. `committed` holds 0 or 1.
-/

namespace LineageVault
set_option autoImplicit false

structure IdempotencyRow where
  idempotencyKey : Str
  eventId : Str
  createdAt : Str
  deriving DecidableEq, Repr

structure LedgerRow where
  seq : ℕ
  eventId : Str
  payload : Str
  prevHash : Str
  entryHash : Str
  deriving DecidableEq, Repr

structure StagingRow where
  id : ℕ
  eventId : Str
  payload : Str
  committed : Bool
  deriving DecidableEq, Repr

structure EdgeRow where
  src : Str
  dst : Str
  transformId : Str
  eventTime : Str
  schemaVersion : ℤ
  payload : Str
  deriving DecidableEq, Repr

structure MappingRow where
  runId : Str
  outputDataset : Str
  inputDataset : Str
  outputField : Str
  inputField : Str
  deriving DecidableEq, Repr

structure RunEventRow where
  runId : Str
  eventType : Str
  payload : Str
  deriving DecidableEq, Repr

structure Db where
  idempotency : List IdempotencyRow
  ledger : List LedgerRow
  walStaging : List StagingRow
  datasetEdges : List EdgeRow
  fieldMappings : List MappingRow
  runEvents : List RunEventRow
  deriving DecidableEq, Repr

/-- The last numbers handed out for `ledger.seq` and `wal_staging.id`. -/
structure Numbers where
  seq : ℕ
  id : ℕ
  deriving DecidableEq, Repr

def Db.empty : Db := ⟨[], [], [], [], [], []⟩

def Numbers.zero : Numbers := ⟨0, 0⟩

/-! ## Changes of rows -/

/-- What a statement does to the rows of a table. -/
inductive RowWrite where
  | idempotency (row : IdempotencyRow)
  | ledger (row : LedgerRow)
  | staging (row : StagingRow)
  /-- `committed=1` on the row with this `event_id` -/
  | committed (eventId : Str)
  | edge (row : EdgeRow)
  | mapping (row : MappingRow)
  /-- a row of `run_events`, or its payload when the key is there -/
  | runEvent (row : RunEventRow)
  deriving DecidableEq, Repr

def markCommitted (eventId : Str) (rows : List StagingRow) : List StagingRow :=
  rows.map fun r => if r.eventId = eventId then { r with committed := true } else r

def upsertRunEvent (row : RunEventRow) (rows : List RunEventRow) : List RunEventRow :=
  if rows.any fun r => r.runId = row.runId ∧ r.eventType = row.eventType then
    rows.map fun r => if r.runId = row.runId ∧ r.eventType = row.eventType then row else r
  else rows ++ [row]

def Db.apply (db : Db) : RowWrite → Db
  | .idempotency row => { db with idempotency := db.idempotency ++ [row] }
  | .ledger row => { db with ledger := db.ledger ++ [row] }
  | .staging row => { db with walStaging := db.walStaging ++ [row] }
  | .committed e => { db with walStaging := markCommitted e db.walStaging }
  | .edge row => { db with datasetEdges := db.datasetEdges ++ [row] }
  | .mapping row => { db with fieldMappings := db.fieldMappings ++ [row] }
  | .runEvent row => { db with runEvents := upsertRunEvent row db.runEvents }

def Db.applyAll (db : Db) (ws : List RowWrite) : Db := ws.foldl Db.apply db

@[simp] theorem applyAll_nil (db : Db) : db.applyAll [] = db := rfl

@[simp] theorem applyAll_cons (db : Db) (w : RowWrite) (ws : List RowWrite) :
    db.applyAll (w :: ws) = (db.apply w).applyAll ws := rfl

theorem applyAll_append (db : Db) (ws ws' : List RowWrite) :
    db.applyAll (ws ++ ws') = (db.applyAll ws).applyAll ws' := List.foldl_append

/-! ## `ORDER BY` -/

def orderBySeq (rows : List LedgerRow) : List LedgerRow :=
  rows.insertionSort fun a b => a.seq ≤ b.seq

def orderById (rows : List StagingRow) : List StagingRow :=
  rows.insertionSort fun a b => a.id ≤ b.id

theorem mem_orderBySeq (rows : List LedgerRow) (r : LedgerRow) : r ∈ orderBySeq rows ↔ r ∈ rows :=
  (List.perm_insertionSort _ rows).mem_iff

/-- Rows inserted with increasing numbers are in order already. -/
theorem orderBySeq_eq {rows : List LedgerRow} (h : rows.Pairwise fun a b => a.seq < b.seq) :
    orderBySeq rows = rows :=
  List.Pairwise.insertionSort_eq (h.imp fun hab => Nat.le_of_lt hab)

theorem orderById_eq {rows : List StagingRow} (h : rows.Pairwise fun a b => a.id < b.id) :
    orderById rows = rows :=
  List.Pairwise.insertionSort_eq (h.imp fun hab => Nat.le_of_lt hab)

theorem orderById_perm (rows : List StagingRow) : (orderById rows).Perm rows :=
  List.perm_insertionSort _ _

/-! ## Marking -/

theorem markCommitted_eventIds (e : Str) (rows : List StagingRow) :
    (markCommitted e rows).map StagingRow.eventId = rows.map StagingRow.eventId := by
  simp only [markCommitted, List.map_map]
  refine List.map_congr_left fun r _ => ?_
  simp only [Function.comp_apply]
  split <;> rfl

theorem markCommitted_ids (e : Str) (rows : List StagingRow) :
    (markCommitted e rows).map StagingRow.id = rows.map StagingRow.id := by
  simp only [markCommitted, List.map_map]
  refine List.map_congr_left fun r _ => ?_
  simp only [Function.comp_apply]
  split <;> rfl

theorem markCommitted_of_forall_ne {e : Str} {rows : List StagingRow}
    (h : ∀ r ∈ rows, r.eventId ≠ e) : markCommitted e rows = rows := by
  rw [markCommitted, List.map_congr_left fun r hr => if_neg (h r hr), List.map_id']

theorem mem_markCommitted {e : Str} {rows : List StagingRow} {r : StagingRow}
    (h : r ∈ markCommitted e rows) :
    ∃ q ∈ rows, r.eventId = q.eventId ∧ r.id = q.id ∧ r.payload = q.payload ∧
      r.committed = (q.committed || decide (q.eventId = e)) := by
  obtain ⟨q, hq, rfl⟩ := List.mem_map.1 h
  refine ⟨q, hq, ?_⟩
  by_cases he : q.eventId = e
  · simp [he]
  · simp [he]

end LineageVault
