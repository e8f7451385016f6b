import LineageVault.Python.Values
import LineageVault.Storage.Statements

/-! # `openlineage/models.py`

A run event keeps its datasets as raw JSON; facets are read when the lineage of the event is recorded,
and raise there when they have another shape.

`Rendering` holds what is written by others than the source: `str()` of floats, lists and dicts, and a
float that is bound to a TEXT column.
-/

namespace LineageVault
set_option autoImplicit false

structure Rendering where
  str : Json → Str
  real : FloatText → SqlParam

/-- `str(x)` -/
def strOf (R : Rendering) : Json → Str
  | .str s => s
  | .null => lit "None"
  | .bool true => lit "True"
  | .bool false => lit "False"
  | .int i => intText i
  | x => R.str x

structure SchemaField where
  name : Str
  type : Str
  deriving DecidableEq

structure DatasetRef where
  ns : Str
  name : Str
  fields : List SchemaField
  deriving DecidableEq

def DatasetRef.qualifiedName (d : DatasetRef) : Str := d.ns ++ lit "." ++ d.name

inductive EventType where
  | start
  | running
  | complete
  | fail
  | abort
  deriving DecidableEq

def EventType.text : EventType → Str
  | .start => lit "START"
  | .running => lit "RUNNING"
  | .complete => lit "COMPLETE"
  | .fail => lit "FAIL"
  | .abort => lit "ABORT"

/-- `OpenLineageRunEvent` -/
structure RunEvent where
  eventType : EventType
  eventTime : DateTime
  run : Dict
  job : Dict
  inputs : List Dict
  outputs : List Dict
  producer : Str

/-- The default of `producer` -/
def defaultProducer : Str := lit "https://github.com/Ofunrein/lineage-vault"

/-- `SchemaField(name=…, type=…)` -/
def schemaField (name type : Json) : Except PyErr SchemaField := do
  let name ← name.asStr
  let type ← type.asStr
  return ⟨name, type⟩

/-- `DatasetRef(namespace=…, name=…, fields=…)`, with the defaults of both callers -/
def datasetRef (raw : Dict) (fields : List SchemaField) : Except PyErr DatasetRef := do
  let ns ← (raw.get (lit "namespace") (.str (lit "default"))).asStr
  let name ← (raw.get (lit "name") (.str (lit "unknown"))).asStr
  return ⟨ns, name, fields⟩

/-- The facet `key`, `{}` when it is missing or falsy. -/
def facet (raw : Dict) (key : Str) : Except PyErr Json := do
  let found ← (raw.get (lit "facets") (.obj [])).orEmpty.get key (.obj [])
  return found.orEmpty

/-- An element of `schema["fields"]`. -/
def schemaFacetField (f : Json) : Except PyErr SchemaField := do
  let name ← f.get (lit "name") (.str [])
  let type ← f.get (lit "type") (.str (lit "string"))
  schemaField name type

/-- An entry of `columnLineage["fields"]`. -/
def columnLineageField (entry : Str × Json) : Except PyErr SchemaField := do
  let type ← entry.2.get (lit "type") (.str (lit "string"))
  schemaField (.str entry.1) type

/-- What `_parse_dataset` takes from the schema facet, and then from the columnLineage facet. -/
def schemaFields (raw : Dict) : Except PyErr (List SchemaField) := do
  let schema ← facet raw (lit "schema")
  let listed ← schema.get (lit "fields") (.arr [])
  let fs ← listed.iter
  fs.mapM schemaFacetField

def columnLineageFields (raw : Dict) : Except PyErr (List SchemaField) := do
  let columnLineage ← facet raw (lit "columnLineage")
  let listed ← columnLineage.get (lit "fields") (.obj [])
  let entries ← listed.items
  entries.mapM columnLineageField

/-- `_parse_dataset` -/
def parseDataset (raw : Dict) : Except PyErr DatasetRef := do
  let fromSchema ← schemaFields raw
  let fromLineage ← columnLineageFields raw
  datasetRef raw (fromSchema ++ fromLineage)

/-- An element of the list that `field_mappings` returns. -/
structure FieldMapping where
  outputDataset : Str
  inputDataset : Str
  runId : Str
  fieldMap : Dict

/-- The entry of `field_map` for an output field, if it has input fields. -/
def mappedField (entry : Str × Json) : Except PyErr (Option (Str × Json)) := do
  let inputs ← entry.2.get (lit "inputFields") (.arr [])
  if inputs.truthy then
    let input ← inputs.first
    let field ← input.get (lit "field") (.str entry.1)
    return some (entry.1, field)
  else return none

def fieldMapOf (fields : Json) : Except PyErr Dict := do
  let entries ← fields.items
  let mapped ← entries.mapM mappedField
  return mapped.reduceOption

namespace RunEvent
variable (R : Rendering)

/-- `run_id` -/
def runId (e : RunEvent) : Str := strOf R (e.run.get (lit "runId") (.str []))

def datasetsIn (e : RunEvent) : Except PyErr (List DatasetRef) := e.inputs.mapM parseDataset

def datasetsOut (e : RunEvent) : Except PyErr (List DatasetRef) := e.outputs.mapM parseDataset

/-- The mappings for one input of one output. -/
def mappingFrom (e : RunEvent) (outDs : DatasetRef) (fields : Json) (inRaw : Dict) :
    Except PyErr (Option FieldMapping) := do
  let inDs ← datasetRef inRaw []
  let fieldMap ← fieldMapOf fields
  return if fieldMap.isEmpty then none
    else some ⟨outDs.qualifiedName, inDs.qualifiedName, e.runId R, fieldMap⟩

/-- The mappings for one output. -/
def mappingsInto (e : RunEvent) (outRaw : Dict) : Except PyErr (List FieldMapping) := do
  let outDs ← datasetRef outRaw []
  let columnLineage ← facet outRaw (lit "columnLineage")
  let fields ← columnLineage.get (lit "fields") (.obj [])
  if fields.truthy then
    let mappings ← e.inputs.mapM (e.mappingFrom R outDs fields)
    return mappings.reduceOption
  else return []

/-- `field_mappings` -/
def fieldMappings (e : RunEvent) : Except PyErr (List FieldMapping) := do
  let mappings ← e.outputs.mapM (e.mappingsInto R)
  return mappings.flatten

/-- `model_dump(mode="json")`. NaN and the infinities are kept, which pydantic writes as null. -/
def modelDump (e : RunEvent) : Json :=
  .obj [(lit "eventType", .str e.eventType.text), (lit "eventTime", .str e.eventTime.jsonText),
    (lit "run", .obj e.run), (lit "job", .obj e.job), (lit "inputs", .arr (e.inputs.map .obj)),
    (lit "outputs", .arr (e.outputs.map .obj)), (lit "producer", .str e.producer)]

end RunEvent

end LineageVault
