import LineageVault.OpenLineage.Models
import LineageVault.Storage.Client

/-! # `openlineage/ingest.py`

`OpenLineageIngestor` over the calls of its storage. A batch is acknowledged in one call; then the run
event, the edges and the field mappings of each event that is no duplicate are recorded one call at a
time. `ids` are what `uuid4()` returns, in turn.
-/

namespace LineageVault
open Foundations
set_option autoImplicit false

variable (R : Rendering)

/-- A value of `field_map`, bound to a TEXT column. -/
def sqlParam : Json → SqlParam
  | .str s => .text s
  | .null => .null
  | .bool b => .integer (if b then 1 else 0)
  | .int i => .integer i
  | .float f => R.real f
  | _ => .unsupported

/-- An element of the list that `ingest_batch` returns. -/
structure IngestResult where
  eventId : Str
  duplicate : Bool
  acknowledged : Bool
  runId : Str
  eventType : Str
  deriving DecidableEq

/-- `f"{event.run_id}:{event.eventType}"` -/
def RunEvent.derivedKey (e : RunEvent) : Str := e.runId R ++ lit ":" ++ e.eventType.text

/-- `key or f"{event.run_id}:{event.eventType}"` -/
def RunEvent.resolvedKey (e : RunEvent) : Option Str → Str
  | some (c :: key) => c :: key
  | _ => e.derivedKey R

/-- The loop that builds the items; `zip(…, strict=True)` raises on lists of different lengths. -/
def batchItems (ids : ℕ → Str) : List RunEvent → List (Option Str) → ℕ →
    Except PyErr (List (BatchWriteItem Json))
  | [], [], _ => .ok []
  | event :: events, key :: keys, i => do
    let items ← batchItems ids events keys (i + 1)
    return ⟨event.resolvedKey R key, ids i, event.modelDump⟩ :: items
  | _, _, _ => .error .valueError

/-- `_record_lineage` for one output and one input -/
def recordPair (event : RunEvent) (outDs inDs : DatasetRef) : Client Json Unit := do
  storage (.addDatasetEdge inDs.qualifiedName outDs.qualifiedName (event.runId R)
    event.eventTime.assumeUtc.isoformat outDs.fields.length event.modelDump)
  -- the keys of the two dicts
  let inFields := (inDs.fields.map SchemaField.name).eraseDups
  let outFields := (outDs.fields.map SchemaField.name).eraseDups
  if !inFields.isEmpty && !outFields.isEmpty then
    let fieldMap := (outFields.filter fun k => inFields.contains k).map fun k => (k, SqlParam.text k)
    if !fieldMap.isEmpty then
      storage (.recordFieldMapping (event.runId R) outDs.qualifiedName inDs.qualifiedName fieldMap)

def recordMapping (m : FieldMapping) : Client Json Unit :=
  storage (.recordFieldMapping m.runId m.outputDataset m.inputDataset
    (m.fieldMap.map fun entry => (entry.1, sqlParam R entry.2)))

/-- `_record_lineage` -/
def recordLineage (event : RunEvent) : Client Json Unit := do
  let inputs ← Prog.ofExcept event.datasetsIn
  let outputs ← Prog.ofExcept event.datasetsOut
  if inputs.isEmpty || outputs.isEmpty then return ()
  else
    outputs.forM fun outDs => inputs.forM fun inDs => recordPair R event outDs inDs
    let mappings ← Prog.ofExcept (event.fieldMappings R)
    mappings.forM (recordMapping R)

/-- What is recorded for an event that is no duplicate. -/
def recordEvent (event : RunEvent) : Client Json Unit := do
  storage (.storeRunEvent (event.runId R) event.eventType.text event.modelDump)
  if event.eventType = .complete then recordLineage R event

def ingestResult (event : RunEvent) (result : AcknowledgedWrite) : IngestResult :=
  ⟨result.eventId, result.duplicate, result.acknowledged, event.runId R, event.eventType.text⟩

/-- The loop over the events and their results. -/
def recordAll : List RunEvent → List AcknowledgedWrite → Client Json (List IngestResult)
  | [], [] => return []
  | event :: events, result :: results => do
    if result.duplicate then pure () else recordEvent R event
    let out ← recordAll events results
    return ingestResult R event result :: out
  | _, _ => Prog.raise .valueError

/-- `idempotency_keys or [None] * len(events)` -/
def ingestKeys (events : List RunEvent) : Option (List (Option Str)) → List (Option Str)
  | some (key :: keys) => key :: keys
  | _ => List.replicate events.length none

/-- `ingest_batch` -/
def ingestBatch (now : ClockText) (ids : ℕ → Str) (events : List RunEvent)
    (idempotencyKeys : Option (List (Option Str))) : Client Json (List IngestResult) :=
  if events.isEmpty then return []
  else do
    let items ← Prog.ofExcept (batchItems R ids events (ingestKeys events idempotencyKeys) 0)
    let results ← storage (.acknowledgeWritesBatch now items)
    recordAll R events results

/-- `ingest` -/
def ingest (now : ClockText) (ids : ℕ → Str) (event : RunEvent) (idempotencyKey : Option Str) :
    Client Json IngestResult := do
  let keys :=
    match idempotencyKey with
    | some (c :: key) => some [some (c :: key)]
    | _ => none
  let results ← ingestBatch R now ids [event] keys
  match results with
  | result :: _ => return result
  | [] => Prog.raise .indexError

end LineageVault
