import LineageVault.Storage.Interface
import LineageVault.Storage.LedgerChain
import LineageVault.Storage.Statements

/-! # The statements the backends issue

The bodies of the methods of `SQLiteStorageBackend`, from the first statement to the one before the
commit. `PostgresStorageBackend` issues the same statements in the same order after taking its
advisory lock. A `LedgerEntry` that `_append_ledger` returns is dropped: neither caller reads it.
-/

namespace LineageVault
open Foundations
set_option autoImplicit false

variable {P : Type} (py : PyLib P)

/-- `_last_hash` -/
def selectLastHash : Sql Str := do
  let row ← sql .selectLastHash
  return row.getD genesisHash

/-- `_append_ledger` -/
def appendLedger (eventId : Str) (payload : P) : Sql Unit := do
  let payloadText ← raising (payloadJson py payload)
  let prev ← selectLastHash
  let digest ← raising (entryHash py prev eventId payloadText)
  sql (.insertLedger eventId payloadText prev digest)

/-- One item of a batch whose key is not known. -/
def acknowledgeItem (now : ClockText) (item : BatchWriteItem P) : Sql Unit := do
  let payloadText ← raising (payloadJson py item.payload)
  sql (.insertIdempotency item.idempotencyKey item.eventId now)
  sql (.insertOrIgnoreStaging item.eventId payloadText)
  sql (.updateCommitted item.eventId)
  appendLedger py item.eventId item.payload

/-- The loop over the items, with the map `existing` and the list `results` of the source. -/
def acknowledgeLoop (now : ClockText) : List (BatchWriteItem P) → List (Str × Str) →
    List AcknowledgedWrite → Sql (List AcknowledgedWrite)
  | [], _, results => return results
  | item :: items, existing, results =>
    match existing.lookup item.idempotencyKey with
    | some eventId =>
      acknowledgeLoop now items existing
        (results ++ [⟨eventId, item.idempotencyKey, true, true⟩])
    | none => do
      acknowledgeItem py now item
      acknowledgeLoop now items ((item.idempotencyKey, item.eventId) :: existing)
        (results ++ [⟨item.eventId, item.idempotencyKey, true, false⟩])

/-- `acknowledge_writes_batch` on a non-empty list -/
def acknowledgeBody (now : ClockText) (items : List (BatchWriteItem P)) :
    Sql (List AcknowledgedWrite) := do
  let existing ← sql (.selectIdempotency py.limit (items.map BatchWriteItem.idempotencyKey))
  acknowledgeLoop py now items existing []

def recoverLoop : List (Str × Str) → ℕ → Sql ℕ
  | [], count => return count
  | (eventId, payloadText) :: rows, count => do
    let payload ← raising (py.loads payloadText)
    let dup ← sql (.selectInLedger eventId)
    if dup then
      sql (.updateCommitted eventId)
      recoverLoop rows count
    else
      appendLedger py eventId payload
      sql (.updateCommitted eventId)
      recoverLoop rows (count + 1)

/-- `recover_uncommitted` -/
def recoverBody : Sql ℕ := do
  let rows ← sql .selectPending
  recoverLoop py rows 0

/-- `stage_partial`, once the payload is serialised -/
def stageBody (eventId payloadText : Str) : Sql Unit :=
  sql (.insertOrIgnoreStaging eventId payloadText)

/-- `add_dataset_edge`, up to the graph -/
def addDatasetEdgeBody (src dst transformId eventTime : Str) (schemaVersion : ℤ) (payload : P) :
    Sql Unit := do
  let payloadText ← raising (py.dumps false payload)
  sql (.insertEdge src dst transformId eventTime schemaVersion payloadText)

/-- `record_field_mapping` -/
def recordFieldMappingBody (runId outputDataset inputDataset : Str) :
    List (Str × SqlParam) → Sql Unit
  | [] => return ()
  | (outField, inField) :: fieldMap => do
    sql (.insertMapping runId outputDataset inputDataset outField inField)
    recordFieldMappingBody runId outputDataset inputDataset fieldMap

/-- `store_run_event` -/
def storeRunEventBody (runId eventType : Str) (payload : P) : Sql Unit := do
  let payloadText ← raising (payloadJson py payload)
  sql (.upsertRunEvent runId eventType payloadText)

/-! ## Calls on the write path -/

/-- What a call comes to. -/
inductive Outcome where
  | done
  | acks (results : List AcknowledgedWrite)
  | recovered (count : ℕ)
  | raised (e : PyErr)
  deriving DecidableEq

/-- `acknowledge_write` is a batch of one. -/
inductive LedgerCall (P : Type) where
  | stagePartial (eventId : Str) (payload : P)
  | acknowledgeWritesBatch (now : ClockText) (items : List (BatchWriteItem P))
  | recoverUncommitted

def LedgerCall.prog : LedgerCall P → Sql Outcome
  | .stagePartial eventId payload => do
    let payloadText ← raising (payloadJson py payload)
    stageBody eventId payloadText
    return .done
  | .acknowledgeWritesBatch now items =>
    if items.isEmpty then return .acks []
    else do
      let results ← acknowledgeBody py now items
      return .acks results
  | .recoverUncommitted => do
    let count ← recoverBody py
    return .recovered count

end LineageVault
