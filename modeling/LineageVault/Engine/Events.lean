import LineageVault.Python.Values

/-! # `models/events.py`, `schema/engine.py` and `compliance/agent.py`

The event of the legacy path, and the verdict on it: how its output schema goes with its input
schema, and whether it has a forbidden field.
-/

namespace LineageVault
set_option autoImplicit false

/-! ## Events -/

inductive CompatLevel where
  | forward
  | backward
  | breaking
  deriving DecidableEq

def CompatLevel.text : CompatLevel → Str
  | .forward => lit "forward_compatible"
  | .backward => lit "backward_compatible"
  | .breaking => lit "breaking"

inductive ComplianceStatus where
  | ok
  | violation
  | quarantined
  deriving DecidableEq

def ComplianceStatus.text : ComplianceStatus → Str
  | .ok => lit "ok"
  | .violation => lit "violation"
  | .quarantined => lit "quarantined"

structure SchemaVersion where
  version : ℤ
  fields : List (Str × Str)

structure TransformRecord where
  transformId : Str
  inputDataset : Str
  outputDataset : Str
  inputSchema : SchemaVersion
  outputSchema : SchemaVersion
  rowCount : ℤ := 0
  compliance : ComplianceStatus := .ok
  compat : CompatLevel := .forward

structure LineageEvent where
  eventId : Str
  timestamp : DateTime
  pipelineRunId : Str
  sequence : ℤ
  transform : TransformRecord
  metadata : Dict := []

def SchemaVersion.modelDump (s : SchemaVersion) : Json :=
  .obj [(lit "version", .int s.version), (lit "fields", .obj (s.fields.map fun f => (f.1, .str f.2)))]

def TransformRecord.modelDump (t : TransformRecord) : Json :=
  .obj [(lit "transform_id", .str t.transformId), (lit "input_dataset", .str t.inputDataset),
    (lit "output_dataset", .str t.outputDataset), (lit "input_schema", t.inputSchema.modelDump),
    (lit "output_schema", t.outputSchema.modelDump), (lit "row_count", .int t.rowCount),
    (lit "compliance", .str t.compliance.text), (lit "compat", .str t.compat.text)]

/-- `model_dump(mode="json")` -/
def LineageEvent.modelDump (e : LineageEvent) : Dict :=
  [(lit "event_id", .str e.eventId), (lit "timestamp", .str e.timestamp.jsonText),
    (lit "pipeline_run_id", .str e.pipelineRunId), (lit "sequence", .int e.sequence),
    (lit "transform", e.transform.modelDump), (lit "metadata", .obj e.metadata)]

/-! ## Compatibility -/

def SchemaVersion.field (s : SchemaVersion) (name : Str) : Option Str := s.fields.lookup name

/-- `classify_compat` -/
def classifyCompat (old new : SchemaVersion) : CompatLevel :=
  let removed := old.fields.any fun f => (new.field f.1).isNone
  let added := new.fields.any fun f => (old.field f.1).isNone
  let typeChanges := old.fields.any fun f =>
    (new.field f.1).isSome && old.field f.1 != new.field f.1
  if removed || typeChanges then .breaking else if added then .backward else .forward

/-- `SchemaEngine.evaluate` -/
def evaluateSchema (old new : List (Str × Str)) : CompatLevel := classifyCompat ⟨1, old⟩ ⟨2, new⟩

/-! ## Compliance -/

/-- The fields forbidden by default. -/
def forbiddenFields : List Str := [lit "ssn", lit "raw_pan", lit "password"]

/-- `ComplianceAgent.check` -/
def checkCompliance (event : LineageEvent) : ComplianceStatus × CompatLevel :=
  let t := event.transform
  if forbiddenFields.any fun name => (t.outputSchema.field name).isSome then
    (.quarantined, t.compat)
  else
    let compat := if t.inputSchema.fields.isEmpty then .forward
      else evaluateSchema t.inputSchema.fields t.outputSchema.fields
    if compat = .breaking then (.violation, compat) else (.ok, compat)

end LineageVault
