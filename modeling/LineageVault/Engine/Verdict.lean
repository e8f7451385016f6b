import LineageVault.Engine.Legacy
import LineageVault.Engine.SchemaHistory
import LineageVault.Python.FiniteMaps

/-! # The verdict in the durable record

`_persist_event` serialises the event, acknowledges the payload and only then asks the compliance agent.
It writes the verdict into the event object, which nothing serialises again: the payload in the ledger
and the payload of the edge keep what the event came with.

So both carry the verdict exactly if the event came with it (`verdict_recorded_iff`). `Judged` says this
of its fields and schemas.
-/

namespace LineageVault
open Foundations
set_option autoImplicit false

/-! ## Verdicts -/

namespace TransformRecord

/-- An output field has a forbidden name. -/
def Forbidden (t : TransformRecord) : Prop :=
  ∃ name ∈ forbiddenFields, ∃ type, (name, type) ∈ declared t.outputSchema.fields

/-- The transform has the status and the level that its schemas call for. A forbidden field calls for no
level. -/
def Judged (t : TransformRecord) : Prop :=
  match t.compliance, t.compat with
  | .quarantined, _ => t.Forbidden
  | .violation, .breaking =>
    ¬ t.Forbidden ∧ t.inputSchema.fields ≠ [] ∧ ¬ declared t.inputSchema.fields ⊆ declared t.outputSchema.fields
  | .ok, .backward =>
    ¬ t.Forbidden ∧ t.inputSchema.fields ≠ [] ∧ declared t.inputSchema.fields ⊂ declared t.outputSchema.fields
  | .ok, .forward =>
    ¬ t.Forbidden ∧
      (t.inputSchema.fields = [] ∨ declared t.inputSchema.fields = declared t.outputSchema.fields)
  | _, _ => False

end TransformRecord

section Verdicts
variable {event : LineageEvent}

theorem forbidden_iff {t : TransformRecord} : t.Forbidden ↔
    (forbiddenFields.any fun name => (t.outputSchema.field name).isSome) = true := by
  simp only [TransformRecord.Forbidden, mem_declared, List.any_eq_true, Option.isSome_iff_exists,
    SchemaVersion.field]

theorem checkCompliance_forbidden (h : event.transform.Forbidden) :
    checkCompliance event = (.quarantined, event.transform.compat) := by
  rw [checkCompliance, if_pos (forbidden_iff.1 h)]

theorem checkCompliance_source (h : ¬ event.transform.Forbidden)
    (hin : event.transform.inputSchema.fields = []) : checkCompliance event = (.ok, .forward) := by
  rw [checkCompliance, if_neg (forbidden_iff.not.1 h), hin]
  rfl

theorem checkCompliance_evaluated (h : ¬ event.transform.Forbidden)
    (hin : event.transform.inputSchema.fields ≠ []) :
    let level := evaluateSchema event.transform.inputSchema.fields event.transform.outputSchema.fields
    checkCompliance event = (if level = .breaking then .violation else .ok, level) := by
  rw [checkCompliance, if_neg (forbidden_iff.not.1 h)]
  simp only [List.isEmpty_eq_false_iff.2 hin, Bool.false_eq_true, if_false]
  split <;> rfl

/-- The agent returns what the event came with exactly if it was judged. -/
theorem checkCompliance_eq_iff :
    checkCompliance event = (event.transform.compliance, event.transform.compat) ↔ event.transform.Judged := by
  by_cases hforbidden : event.transform.Forbidden
  · rw [checkCompliance_forbidden hforbidden, TransformRecord.Judged]
    cases event.transform.compliance <;> cases event.transform.compat <;> simp [hforbidden]
  · by_cases hin : event.transform.inputSchema.fields = []
    · rw [checkCompliance_source hforbidden hin, TransformRecord.Judged]
      cases event.transform.compliance <;> cases event.transform.compat <;> simp [hforbidden, hin]
    · rw [checkCompliance_evaluated hforbidden hin, TransformRecord.Judged, ← evaluate_ne_breaking_iff,
        ← evaluate_backward_iff, ← evaluate_forward_iff]
      generalize evaluateSchema event.transform.inputSchema.fields event.transform.outputSchema.fields = level
      cases level <;> cases event.transform.compliance <;> cases event.transform.compat <;>
        simp [hforbidden, hin]

end Verdicts

/-! ## What is stored -/

/-- The transform of the payload that json reads of the text has this status and this level. -/
def Carries (loads : Str → Except PyErr Json) (text : Str) (verdict : ComplianceStatus × CompatLevel) : Prop :=
  ∃ payload transform, loads text = .ok payload ∧ payload.get (lit "transform") .null = .ok transform ∧
    transform.get (lit "compliance") .null = .ok (.str verdict.1.text) ∧
    transform.get (lit "compat") .null = .ok (.str verdict.2.text)

/-- json reads the payload back from both texts that it is written in. -/
structure ReadsBoth (loads : Str → Except PyErr Json) (payload : Json) : Prop where
  entry : ∃ q, loads (payload.dumps true) = .ok q ∧ q.Same payload
  edge : ∃ q, loads (payload.dumps false) = .ok q ∧ q.Same payload

theorem status_text_inj {s t : ComplianceStatus} : s.text = t.text ↔ s = t := by
  cases s <;> cases t <;> decide

theorem level_text_inj {s t : CompatLevel} : s.text = t.text ↔ s = t := by
  cases s <;> cases t <;> decide

section Stored
variable {sha256 : Str → Digest} {loads : Str → Except PyErr Json} {limit : VariableLimit} {event : LineageEvent}
  {verdict : ComplianceStatus × CompatLevel}

theorem transform_lookup (t : TransformRecord) : ∃ fields, t.modelDump = .obj fields ∧
    fields.lookup (lit "compliance") = some (.str t.compliance.text) ∧
    fields.lookup (lit "compat") = some (.str t.compat.text) := ⟨_, rfl, rfl, rfl⟩

/-- The keys that `_persist_event` sets in the payload leave its transform as it was. -/
theorem payload_lookup (event : LineageEvent) : ∃ fields, event.payload = .obj fields ∧
    fields.lookup (lit "transform") = some event.transform.modelDump := by
  refine ⟨_, rfl, ?_⟩
  rw [lookup_set, if_neg (by decide), lookup_set, if_neg (by decide), lookup_set, if_neg (by decide)]
  rfl

/-- A text of the payload carries what the event came with. -/
theorem carries_iff {text : Str} {q : Json} (hloads : loads text = .ok q) (hsame : q.Same event.payload) :
    Carries loads text verdict ↔ verdict = (event.transform.compliance, event.transform.compat) := by
  obtain ⟨fields, hpayload, htransform⟩ := payload_lookup event
  obtain ⟨transform, hdump, hcompliance, hcompat⟩ := transform_lookup event.transform
  rw [hpayload] at hsame
  obtain ⟨t, ht, hget⟩ := same_get hsame htransform
  rw [hdump] at ht
  have hstatus := same_get_str ht hcompliance .null
  have hlevel := same_get_str ht hcompat .null
  rw [Prod.ext_iff, ← status_text_inj, ← level_text_inj]
  constructor
  · rintro ⟨payload, t', hpayload', ht', hstatus', hlevel'⟩
    rw [hloads] at hpayload'
    cases hpayload'
    rw [hget] at ht'
    cases ht'
    rw [hstatus, Except.ok.injEq, Json.str.injEq] at hstatus'
    rw [hlevel, Except.ok.injEq, Json.str.injEq] at hlevel'
    exact ⟨hstatus'.symm, hlevel'.symm⟩
  · rintro ⟨hs, hl⟩
    exact ⟨q, t, hloads, hget .null, by rw [hs, hstatus], by rw [hl, hlevel]⟩

/-- An ingest that returns under a new key has added one row to the ledger and one edge, both of them
with the payload from before the verdict. -/
theorem ingested_rows {b b' : Backend} (hb : Reachable (PyLib.json sha256 loads limit) b) {c : LegacyCall}
    {a : Option EventAnswer} (hnew : existingEvent b.db c.key = none)
    (h : c.perform (PyLib.json sha256 loads limit) b = (.ok a, b')) :
    ∃ entry edge, b'.db.ledger = b.db.ledger ++ [entry] ∧ b'.db.datasetEdges = b.db.datasetEdges ++ [edge] ∧
      b'.session.durable = b'.session.view ∧ entry.payload = c.event.payload.dumps true ∧
      edge.payload = c.event.payload.dumps false := by
  have hstep := legacy_cases hb c
  have hreturned : (c.perform (PyLib.json sha256 loads limit) b).1 = .ok a := by rw [h]
  have hleft : (c.perform (PyLib.json sha256 loads limit) b).2 = b' := by rw [h]
  rw [hreturned, hleft] at hstep
  generalize hanswer : (Except.ok a : LegacyAnswer) = answer at hstep
  cases hstep with
  | repeated known => exact (known hnew).elim
  | unlinkedRepeat known => exact (known hnew).elim
  | @fresh w new admitted fits answer event ack =>
    obtain ⟨hledger, hedges⟩ := acknowledged_rows c ack
    refine ⟨_, c.edge, hledger, ?_, rfl, rfl, rfl⟩
    rw [linked_edges, hedges]
  | unlinked => cases hanswer
  | refused => cases hanswer

/-- **The durable record carries the verdict exactly if the event came with it.** For every event that
`ingest_sync` ingests under a new key: the payload of its ledger row and the payload of its edge have the
status and the level that the compliance agent returns exactly if the event was judged before. -/
theorem verdict_recorded_iff {b b' : Backend} (hb : Reachable (PyLib.json sha256 loads limit) b) (now : ClockText)
    (event : LineageEvent) (idempotencyKey : Option Str) (hread : ReadsBoth loads event.payload)
    (hnew : existingEvent b.db (event.resolvedKey idempotencyKey) = none)
    (h : (LegacyCall.ingestSync now event idempotencyKey).perform (PyLib.json sha256 loads limit) b =
      (.ok none, b')) :
    ∃ entry edge, b'.db.ledger = b.db.ledger ++ [entry] ∧ b'.db.datasetEdges = b.db.datasetEdges ++ [edge] ∧
      b'.session.durable = b'.session.view ∧
      (Carries loads entry.payload (checkCompliance event) ∧ Carries loads edge.payload (checkCompliance event) ↔
        event.transform.Judged) := by
  let c : LegacyCall := .ingestSync now event idempotencyKey
  have hkey : existingEvent b.db c.key = none := hnew
  obtain ⟨entry, edge, hledger, hedges, hdurable, hentry, hedge⟩ := ingested_rows hb hkey h
  have hpayload : c.event.payload = event.payload := rfl
  rw [hpayload] at hentry hedge
  obtain ⟨q, hq, hsame⟩ := hread.entry
  obtain ⟨q', hq', hsame'⟩ := hread.edge
  rw [← hentry] at hq
  rw [← hedge] at hq'
  refine ⟨entry, edge, hledger, hedges, hdurable, ?_⟩
  rw [carries_iff hq hsame, carries_iff hq' hsame', and_self, checkCompliance_eq_iff]

/-! ## A forbidden field -/

/-- An event that a client made with the defaults, of an output with a social security number. -/
def leaking : LineageEvent where
  eventId := lit "e"
  timestamp := ⟨2026, 1, 2, 0, 0, 0, 0, some 0⟩
  pipelineRunId := lit "p"
  sequence := 1
  transform := {
    transformId := lit "t"
    inputDataset := lit "a"
    outputDataset := lit "b"
    inputSchema := ⟨1, []⟩
    outputSchema := ⟨2, [(lit "ssn", lit "str")]⟩ }

/-- What json reads of the text in the ledger, which has the keys in order. -/
def readLeaking : Json :=
  .obj [(lit "event_id", .str (lit "e")), (lit "input_dataset", .str (lit "a")), (lit "metadata", .obj []),
    (lit "output_dataset", .str (lit "b")), (lit "pipeline_run_id", .str (lit "p")), (lit "sequence", .int 1),
    (lit "timestamp", .str leaking.timestamp.isoformat),
    (lit "transform", .obj [(lit "compat", .str (lit "forward_compatible")), (lit "compliance", .str (lit "ok")),
      (lit "input_dataset", .str (lit "a")),
      (lit "input_schema", .obj [(lit "fields", .obj []), (lit "version", .int 1)]),
      (lit "output_dataset", .str (lit "b")),
      (lit "output_schema", .obj [(lit "fields", .obj [(lit "ssn", .str (lit "str"))]), (lit "version", .int 2)]),
      (lit "row_count", .int 0), (lit "transform_id", .str (lit "t"))])]

def loadsLeaking (text : Str) : Except PyErr Json :=
  if text = leaking.payload.dumps true then .ok readLeaking
  else if text = leaking.payload.dumps false then .ok leaking.payload
  else .error .valueError

end Stored

theorem readsBoth_leaking : ReadsBoth loadsLeaking leaking.payload where
  entry := by
    refine ⟨readLeaking, by rw [loadsLeaking, if_pos rfl], by decide, ⟨_, rfl, rfl⟩, ⟨_, rfl, rfl⟩,
      ⟨_, rfl, by decide, trivial⟩, ⟨_, rfl, rfl⟩, ⟨_, rfl, rfl⟩, ⟨_, rfl, rfl⟩, ⟨_, rfl, rfl⟩, ⟨_, rfl, ?_⟩, trivial⟩
    refine ⟨by decide, ⟨_, rfl, rfl⟩, ⟨_, rfl, rfl⟩, ⟨_, rfl, rfl⟩, ⟨_, rfl, ?_⟩, ⟨_, rfl, rfl⟩, ⟨_, rfl, ?_⟩,
      ⟨_, rfl, rfl⟩, ⟨_, rfl, rfl⟩, trivial⟩
    · exact ⟨by decide, ⟨_, rfl, by decide, trivial⟩, ⟨_, rfl, rfl⟩, trivial⟩
    · exact ⟨by decide, ⟨_, rfl, by decide, ⟨_, rfl, rfl⟩, trivial⟩, ⟨_, rfl, rfl⟩, trivial⟩
  edge := by
    refine ⟨leaking.payload, by rw [loadsLeaking, if_neg (by decide), if_pos rfl], by decide, ⟨_, rfl, rfl⟩,
      ⟨_, rfl, rfl⟩, ⟨_, rfl, rfl⟩, ⟨_, rfl, rfl⟩, ⟨_, rfl, ?_⟩, ⟨_, rfl, by decide, trivial⟩, ⟨_, rfl, rfl⟩,
      ⟨_, rfl, rfl⟩, trivial⟩
    refine ⟨by decide, ⟨_, rfl, rfl⟩, ⟨_, rfl, rfl⟩, ⟨_, rfl, rfl⟩, ⟨_, rfl, ?_⟩, ⟨_, rfl, ?_⟩, ⟨_, rfl, rfl⟩,
      ⟨_, rfl, rfl⟩, ⟨_, rfl, rfl⟩, trivial⟩
    · exact ⟨by decide, ⟨_, rfl, rfl⟩, ⟨_, rfl, by decide, trivial⟩, trivial⟩
    · exact ⟨by decide, ⟨_, rfl, rfl⟩, ⟨_, rfl, by decide, ⟨_, rfl, rfl⟩, trivial⟩, trivial⟩

def leakingLib : PyLib Json := .json PyLib.fixed.sha256 loadsLeaking .sqlite

def leaked : LegacyAnswer × Backend := (LegacyCall.ingestSync .fixed leaking none).perform leakingLib .empty

theorem leaked_returns : leaked = (.ok none, leaked.2) := by
  have hreturned : leaked.1 = .ok none := by decide +kernel
  rw [← hreturned]

theorem verdict_recorded_iff_leaking :
    ∃ entry edge, leaked.2.db.ledger = [entry] ∧ leaked.2.db.datasetEdges = [edge] ∧
      ¬ (Carries loadsLeaking entry.payload (checkCompliance leaking) ∧
        Carries loadsLeaking edge.payload (checkCompliance leaking)) := by
  have hforbidden : leaking.transform.Forbidden := ⟨lit "ssn", by decide, lit "str", rfl⟩
  obtain ⟨entry, edge, hledger, hedges, -, hcarries⟩ := verdict_recorded_iff ⟨[], .nil⟩ .fixed leaking none
    readsBoth_leaking rfl leaked_returns
  exact ⟨entry, edge, hledger, hedges, hcarries.not.2 fun hjudged => hjudged.1 hforbidden⟩

/-- **A forbidden field is recorded as compliant**, in the ledger and with the edge. -/
theorem leaking_recorded_ok :
    checkCompliance leaking = (.quarantined, .forward) ∧ leaked.1 = .ok none ∧
      ∃ entry edge, leaked.2.db.ledger = [entry] ∧ leaked.2.db.datasetEdges = [edge] ∧
        (Carries loadsLeaking entry.payload (.ok, .forward) ∧
          ¬ Carries loadsLeaking entry.payload (checkCompliance leaking)) ∧
        Carries loadsLeaking edge.payload (.ok, .forward) ∧
          ¬ Carries loadsLeaking edge.payload (checkCompliance leaking) := by
  have hverdict : checkCompliance leaking = (.quarantined, .forward) := by decide
  obtain ⟨entry, edge, hledger, hedges, -, hentry, hedge⟩ := ingested_rows ⟨[], .nil⟩ rfl leaked_returns
  obtain ⟨q, hq, hsame⟩ := readsBoth_leaking.entry
  obtain ⟨q', hq', hsame'⟩ := readsBoth_leaking.edge
  have hentry : entry.payload = leaking.payload.dumps true := hentry
  have hedge : edge.payload = leaking.payload.dumps false := hedge
  rw [← hentry] at hq
  rw [← hedge] at hq'
  refine ⟨hverdict, by rw [leaked_returns], entry, edge, hledger, hedges, ⟨?_, ?_⟩, ?_, ?_⟩
  · exact (carries_iff hq hsame).2 rfl
  · rw [carries_iff hq hsame, hverdict]
    decide
  · exact (carries_iff hq' hsame').2 rfl
  · rw [carries_iff hq' hsame', hverdict]
    decide

end LineageVault
