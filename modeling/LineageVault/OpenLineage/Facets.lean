import LineageVault.OpenLineage.Recorded
import Mathlib.Data.List.ReduceOption

/-! # What an event says about fields

`Matched` and `FacetRow` are the rows that recording an event can insert: one for each field that an
output and an input both have, and one for each input and each field of a columnLineage facet, with
the field of the first entry of its `inputFields`. `mem_calls_rows` says that there are no others,
and `calls_rows_iff` that these are all inserted when the event is read to its end.
-/

namespace LineageVault
open Foundations
set_option autoImplicit false

variable {R : Rendering}

/-! ## Datasets -/

/-- The two callers of `DatasetRef(…)` read the same dataset. -/
theorem datasetRef_ok {raw : Dict} {fields : List SchemaField} {d : DatasetRef}
    (h : datasetRef raw fields = .ok d) :
    d.fields = fields ∧ ∀ fields', datasetRef raw fields' = .ok { d with fields := fields' } := by
  unfold datasetRef at h
  obtain ⟨ns, hns, h⟩ := bind_eq_ok.1 h
  obtain ⟨name, hname, h⟩ := bind_eq_ok.1 h
  cases h
  refine ⟨rfl, fun fields' => ?_⟩
  rw [datasetRef, hns]
  change (_ >>= fun name => _) = _
  rw [hname]
  rfl

theorem parseDataset_ok {raw : Dict} {d : DatasetRef} (h : parseDataset raw = .ok d) :
    ∃ fromSchema fromLineage, schemaFields raw = .ok fromSchema ∧
      columnLineageFields raw = .ok fromLineage ∧ d.fields = fromSchema ++ fromLineage ∧
      ∀ fields, datasetRef raw fields = .ok { d with fields := fields } := by
  unfold parseDataset at h
  obtain ⟨fromSchema, hschema, h⟩ := bind_eq_ok.1 h
  obtain ⟨fromLineage, hlineage, h⟩ := bind_eq_ok.1 h
  exact ⟨fromSchema, fromLineage, hschema, hlineage, datasetRef_ok h⟩

/-- The name of a raw dataset, read with its fields or without. -/
theorem qualifiedName_eq {raw : Dict} {d d' : DatasetRef} {fields : List SchemaField}
    (h : parseDataset raw = .ok d) (h' : datasetRef raw fields = .ok d') :
    d'.qualifiedName = d.qualifiedName := by
  obtain ⟨_, _, _, _, _, hraw⟩ := parseDataset_ok h
  rw [hraw fields] at h'
  cases h'
  rfl

/-- There are datasets only if all could be read. -/
theorem datasets_read {raws : List Dict} (hne : (raws.mapM parseDataset).toOption.getD [] ≠ []) :
    raws.mapM parseDataset = .ok ((raws.mapM parseDataset).toOption.getD []) := by
  cases hraws : raws.mapM parseDataset with
  | error e =>
    rw [hraws] at hne
    exact (hne rfl).elim
  | ok ds => rfl

/-! ## The columnLineage facet -/

/-- `columnLineage["fields"]` -/
def facetFields (raw : Dict) : Except PyErr Json := do
  let columnLineage ← facet raw (lit "columnLineage")
  columnLineage.get (lit "fields") (.obj [])

/-- The `inputFields` of a field of the facet. -/
def InputFields (raw : Dict) (f : Str) (inputs : List Json) : Prop :=
  ∃ entries facetField, facetFields raw = .ok (.obj entries) ∧ (f, facetField) ∈ entries ∧
    facetField.get (lit "inputFields") (.arr []) = .ok (.arr inputs)

/-- The field of the first of its `inputFields`. -/
def FirstField (raw : Dict) (f : Str) (v : Json) : Prop :=
  ∃ first rest, InputFields raw f (first :: rest) ∧ first.get (lit "field") (.str f) = .ok v

theorem items_ok {x : Json} {entries : Dict} (h : x.items = .ok entries) : x = .obj entries := by
  cases x <;> cases h
  rfl

/-- A field of the facet is a field of the dataset. -/
theorem facet_parsed {raw : Dict} {d : DatasetRef} {f : Str} {inputs : List Json}
    (h : parseDataset raw = .ok d) (hf : InputFields raw f inputs) : f ∈ d.fields.map SchemaField.name := by
  obtain ⟨fromSchema, fromLineage, -, hlineage, hfields, -⟩ := parseDataset_ok h
  obtain ⟨entries, facetField, hfacet, hmem, -⟩ := hf
  unfold facetFields at hfacet
  obtain ⟨columnLineage, hcl, hget⟩ := bind_eq_ok.1 hfacet
  unfold columnLineageFields at hlineage
  obtain ⟨cl, hcl', hlineage⟩ := bind_eq_ok.1 hlineage
  obtain ⟨listed, hget', hlineage⟩ := bind_eq_ok.1 hlineage
  obtain ⟨entries', hitems, hmap⟩ := bind_eq_ok.1 hlineage
  rw [hcl] at hcl'
  cases hcl'
  rw [hget] at hget'
  cases hget'
  cases hitems
  obtain ⟨field, hfield, hread⟩ := mapM_of_mem hmap hmem
  have hname : field.name = f := by
    unfold columnLineageField schemaField at hread
    obtain ⟨type, -, hread⟩ := bind_eq_ok.1 hread
    obtain ⟨name, hname, hread⟩ := bind_eq_ok.1 hread
    obtain ⟨type', -, hread⟩ := bind_eq_ok.1 hread
    cases hname
    cases hread
    rfl
  rw [hfields, List.map_append]
  exact List.mem_append_right _ (List.mem_map.2 ⟨field, hfield, hname⟩)

theorem mappedField_iff {f f' : Str} {facetField v : Json} :
    mappedField (f, facetField) = .ok (some (f', v)) ↔ f' = f ∧ ∃ first rest,
      facetField.get (lit "inputFields") (.arr []) = .ok (.arr (first :: rest)) ∧
        first.get (lit "field") (.str f) = .ok v := by
  constructor
  · intro h
    unfold mappedField at h
    obtain ⟨inputs, hinputs, h⟩ := bind_eq_ok.1 h
    split at h
    · obtain ⟨first, hfirst, h⟩ := bind_eq_ok.1 h
      obtain ⟨field, hfield, h⟩ := bind_eq_ok.1 h
      cases h
      refine ⟨rfl, first, ?_⟩
      -- a text has a first element too, but that has no `get`
      cases inputs with
      | arr xs =>
        cases xs with
        | nil => cases hfirst
        | cons x rest =>
          cases hfirst
          exact ⟨rest, hinputs, hfield⟩
      | str s =>
        cases s with
        | nil => cases hfirst
        | cons c s =>
          cases hfirst
          cases hfield
      | _ => cases hfirst
    · cases h
  · rintro ⟨rfl, first, rest, hinputs, hfield⟩
    rw [mappedField]
    rw [hinputs]
    change (Json.get first _ _ >>= _) = _
    rw [hfield]
    rfl

theorem mem_fieldMapOf {fields : Json} {fieldMap : Dict} (h : fieldMapOf fields = .ok fieldMap) (f : Str)
    (v : Json) : (f, v) ∈ fieldMap ↔ ∃ entries facetField first rest, fields = .obj entries ∧
      (f, facetField) ∈ entries ∧ facetField.get (lit "inputFields") (.arr []) = .ok (.arr (first :: rest)) ∧
        first.get (lit "field") (.str f) = .ok v := by
  unfold fieldMapOf at h
  obtain ⟨entries, hitems, h⟩ := bind_eq_ok.1 h
  obtain ⟨mapped, hmapped, h⟩ := bind_eq_ok.1 h
  cases h
  obtain rfl := items_ok hitems
  rw [List.reduceOption_mem_iff, mem_mapM hmapped]
  constructor
  · rintro ⟨⟨f', facetField⟩, hentry, hfield⟩
    obtain ⟨rfl, first, rest, hinputs, hv⟩ := mappedField_iff.1 hfield
    exact ⟨entries, facetField, first, rest, rfl, hentry, hinputs, hv⟩
  · rintro ⟨entries', facetField, first, rest, he, hentry, hinputs, hv⟩
    cases he
    exact ⟨(f, facetField), hentry, mappedField_iff.2 ⟨rfl, first, rest, hinputs, hv⟩⟩

/-! ## The mappings of an event -/

section Maps
variable {event : RunEvent} {m : FieldMapping} {f : Str} {v : Json}

theorem facetFields_firstField {raw : Dict} {fields : Json} (h : facetFields raw = .ok fields) :
    (∃ entries facetField first rest, fields = .obj entries ∧ (f, facetField) ∈ entries ∧
      facetField.get (lit "inputFields") (.arr []) = .ok (.arr (first :: rest)) ∧
        first.get (lit "field") (.str f) = .ok v) ↔ FirstField raw f v := by
  constructor
  · rintro ⟨entries, facetField, first, rest, rfl, hentry, hinputs, hv⟩
    exact ⟨first, rest, ⟨entries, facetField, h, hentry, hinputs⟩, hv⟩
  · rintro ⟨first, rest, ⟨entries, facetField, hfields, hentry, hinputs⟩, hv⟩
    rw [h] at hfields
    cases hfields
    exact ⟨entries, facetField, first, rest, rfl, hentry, hinputs, hv⟩

/-- A mapping of an input and an output: the names, and the first fields of the facet. -/
structure FieldMapping.From (m : FieldMapping) (R : Rendering) (event : RunEvent) (outRaw inRaw : Dict)
    (outDs inDs : DatasetRef) : Prop where
  readOut : datasetRef outRaw [] = .ok outDs
  readIn : datasetRef inRaw [] = .ok inDs
  runId : m.runId = event.runId R
  outputDataset : m.outputDataset = outDs.qualifiedName
  inputDataset : m.inputDataset = inDs.qualifiedName
  fieldMap : ∀ f v, (f, v) ∈ m.fieldMap ↔ FirstField outRaw f v

/-- `mappingFrom` gives a mapping if the facet has a field with an entry. -/
theorem mappingFrom_ok {outRaw inRaw : Dict} {outDs : DatasetRef} {fields : Json} {x : Option FieldMapping}
    (hout : datasetRef outRaw [] = .ok outDs) (hfields : facetFields outRaw = .ok fields)
    (h : event.mappingFrom R outDs fields inRaw = .ok x) :
    (∀ m, x = some m → ∃ inDs, m.From R event outRaw inRaw outDs inDs) ∧
      ∀ f v, FirstField outRaw f v → ∃ m, x = some m := by
  unfold RunEvent.mappingFrom at h
  obtain ⟨inDs, hin, h⟩ := bind_eq_ok.1 h
  obtain ⟨fieldMap, hmap, h⟩ := bind_eq_ok.1 h
  have hentries : ∀ f v, (f, v) ∈ fieldMap ↔ FirstField outRaw f v := fun f v =>
    (mem_fieldMapOf hmap f v).trans (facetFields_firstField hfields)
  cases hempty : fieldMap.isEmpty with
  | true =>
    rw [hempty] at h
    cases h
    refine ⟨(fun m hm => by cases hm), fun f v hf => ?_⟩
    rw [List.isEmpty_iff.1 hempty] at hentries
    exact (List.not_mem_nil ((hentries f v).2 hf)).elim
  | false =>
    rw [hempty] at h
    cases h
    refine ⟨fun m hm => ?_, fun f v _ => ⟨_, rfl⟩⟩
    cases hm
    exact ⟨inDs, hout, hin, rfl, rfl, rfl, hentries⟩

/-- The mappings of an output are those from each input, if its facet has fields. -/
theorem mappingsInto_ok {outRaw : Dict} {ms : List FieldMapping}
    (h : event.mappingsInto R outRaw = .ok ms) :
    ∃ outDs fields, datasetRef outRaw [] = .ok outDs ∧ facetFields outRaw = .ok fields ∧
      (∀ m ∈ ms, ∃ inRaw ∈ event.inputs, event.mappingFrom R outDs fields inRaw = .ok (some m)) ∧
      (fields.truthy = true → ∀ inRaw ∈ event.inputs, ∃ x,
        event.mappingFrom R outDs fields inRaw = .ok x ∧ ∀ m, x = some m → m ∈ ms) := by
  unfold RunEvent.mappingsInto at h
  obtain ⟨outDs, hout, h⟩ := bind_eq_ok.1 h
  obtain ⟨columnLineage, hcl, h⟩ := bind_eq_ok.1 h
  obtain ⟨fields, hfields, h⟩ := bind_eq_ok.1 h
  refine ⟨outDs, fields, hout, bind_eq_ok.2 ⟨columnLineage, hcl, hfields⟩, ?_⟩
  split at h
  · obtain ⟨mappings, hmappings, h⟩ := bind_eq_ok.1 h
    cases h
    refine ⟨fun m hm => mem_of_mapM hmappings (List.reduceOption_mem_iff.1 hm), fun _ inRaw hin => ?_⟩
    obtain ⟨x, hx, hfrom⟩ := mapM_of_mem hmappings hin
    exact ⟨x, hfrom, fun m hm => List.reduceOption_mem_iff.2 (hm ▸ hx)⟩
  · next hno =>
    cases h
    exact ⟨fun m hm => (List.not_mem_nil hm).elim, fun htruthy => (hno htruthy).elim⟩

theorem mem_fieldMappings {ms : List FieldMapping} (h : event.fieldMappings R = .ok ms) :
    (∀ m ∈ ms, ∃ outRaw ∈ event.outputs, ∃ ms', event.mappingsInto R outRaw = .ok ms' ∧ m ∈ ms') ∧
      ∀ outRaw ∈ event.outputs, ∃ ms', event.mappingsInto R outRaw = .ok ms' ∧ ∀ m ∈ ms', m ∈ ms := by
  unfold RunEvent.fieldMappings at h
  obtain ⟨mss, hmss, h⟩ := bind_eq_ok.1 h
  cases h
  constructor
  · intro m hm
    obtain ⟨ms', hms', hm⟩ := List.mem_flatten.1 hm
    obtain ⟨outRaw, hout, hinto⟩ := mem_of_mapM hmss hms'
    exact ⟨outRaw, hout, ms', hinto, hm⟩
  · intro outRaw hout
    obtain ⟨ms', hms', hinto⟩ := mapM_of_mem hmss hout
    exact ⟨ms', hinto, fun m hm => List.mem_flatten.2 ⟨ms', hms', hm⟩⟩

theorem mem_maps (h : m ∈ event.maps R) : ∃ outRaw ∈ event.outputs, ∃ inRaw ∈ event.inputs,
    ∃ outDs inDs, m.From R event outRaw inRaw outDs inDs := by
  cases hms : event.fieldMappings R with
  | error e =>
    rw [RunEvent.maps, hms] at h
    cases h
  | ok ms =>
    rw [RunEvent.maps, hms] at h
    obtain ⟨outRaw, hout, ms', hinto, hm⟩ := (mem_fieldMappings hms).1 m h
    obtain ⟨outDs, fields, houtDs, hfields, hfrom, -⟩ := mappingsInto_ok hinto
    obtain ⟨inRaw, hin, hfrom⟩ := hfrom m hm
    obtain ⟨inDs, hfrom⟩ := (mappingFrom_ok houtDs hfields hfrom).1 m rfl
    exact ⟨outRaw, hout, inRaw, hin, outDs, inDs, hfrom⟩

theorem maps_of_firstField (hread : event.fieldMappings R = .ok (event.maps R)) {outRaw inRaw : Dict}
    (hout : outRaw ∈ event.outputs) (hin : inRaw ∈ event.inputs) (hf : FirstField outRaw f v) :
    ∃ m ∈ event.maps R, ∃ outDs inDs, m.From R event outRaw inRaw outDs inDs := by
  obtain ⟨ms', hinto, hmem⟩ := (mem_fieldMappings hread).2 outRaw hout
  obtain ⟨outDs, fields, houtDs, hfields, -, hall⟩ := mappingsInto_ok hinto
  have htruthy : fields.truthy = true := by
    obtain ⟨entries, facetField, first, rest, rfl, hentry, -⟩ := (facetFields_firstField hfields).2 hf
    simp only [Json.truthy, Bool.not_eq_true', List.isEmpty_eq_false_iff]
    exact List.ne_nil_of_mem hentry
  obtain ⟨x, hfrom, hx⟩ := hall htruthy inRaw hin
  obtain ⟨hsome, hex⟩ := mappingFrom_ok houtDs hfields hfrom
  obtain ⟨m, rfl⟩ := hex f v hf
  obtain ⟨inDs, hm⟩ := hsome m rfl
  exact ⟨m, hmem m (hx m rfl), outDs, inDs, hm⟩

end Maps

/-! ## The rows of an event -/

section Rows
variable (R) in
/-- A row for a field that an output and an input both have. -/
def Matched (event : RunEvent) (row : MappingRow) : Prop :=
  ∃ outDs ∈ event.outs, ∃ inDs ∈ event.ins, ∃ k, k ∈ outDs.fields.map SchemaField.name ∧
    k ∈ inDs.fields.map SchemaField.name ∧ k.encodable = true ∧
      row = ⟨event.runId R, outDs.qualifiedName, inDs.qualifiedName, k, k⟩

variable (R) in
/-- A row for an input and a field of the facet of an output. -/
def FacetRow (event : RunEvent) (row : MappingRow) : Prop :=
  ∃ outRaw ∈ event.outputs, ∃ inRaw ∈ event.inputs, ∃ outDs inDs f v t,
    datasetRef outRaw [] = .ok outDs ∧ datasetRef inRaw [] = .ok inDs ∧ FirstField outRaw f v ∧
      bindText (sqlParam R v) = .ok t ∧
        row = ⟨event.runId R, outDs.qualifiedName, inDs.qualifiedName, f, t⟩

variable {event : RunEvent} {row : MappingRow} {s : StorageCall Json}

theorem mem_matchedFields {outDs inDs : DatasetRef} {entry : Str × SqlParam} :
    entry ∈ matchedFields outDs inDs ↔ entry.2 = .text entry.1 ∧
      entry.1 ∈ outDs.fields.map SchemaField.name ∧ entry.1 ∈ inDs.fields.map SchemaField.name := by
  simp only [matchedFields, List.mem_map, List.mem_filter, List.contains_iff_mem, List.mem_eraseDups]
  constructor
  · rintro ⟨k, ⟨hout, hin⟩, rfl⟩
    exact ⟨rfl, hout, hin⟩
  · rintro ⟨htext, hout, hin⟩
    exact ⟨entry.1, ⟨hout, hin⟩, by rw [← htext]⟩

theorem mem_mappingRows {runId outputDataset inputDataset : Str} {fieldMap : List (Str × SqlParam)} :
    row ∈ mappingRows runId outputDataset inputDataset fieldMap ↔ ∃ entry ∈ fieldMap, ∃ text,
      bindText entry.2 = .ok text ∧ row = ⟨runId, outputDataset, inputDataset, entry.1, text⟩ := by
  rw [mappingRows, List.mem_filterMap]
  refine exists_congr fun entry => and_congr_right fun _ => ?_
  cases bindText entry.2 with
  | error e => simp [Except.toOption]
  | ok text => simp [Except.toOption, eq_comm]

/-- The calls of an event: those of its pairs, and those of its facets. -/
theorem mem_calls (hs : s ∈ event.calls R) :
    s = .storeRunEvent (event.runId R) event.eventType.text event.modelDump ∨
      event.eventType = .complete ∧ event.ins ≠ [] ∧ event.outs ≠ [] ∧
        ((∃ outDs ∈ event.outs, ∃ inDs ∈ event.ins, s ∈ event.pairCalls R outDs inDs) ∨
          ∃ m ∈ event.maps R, s = mappingCall R m) := by
  rcases List.mem_cons.1 hs with rfl | hs
  · exact .inl rfl
  · split at hs
    · next hc =>
      rw [RunEvent.lineageCalls] at hs
      split at hs
      · cases hs
      · next hne =>
        simp only [Bool.or_eq_true, List.isEmpty_iff, not_or] at hne
        refine .inr ⟨hc, hne.1, hne.2, ?_⟩
        simpa only [List.mem_append, List.mem_flatMap, List.mem_map, eq_comm] using hs
    · cases hs

theorem calls_complete (hc : event.eventType = .complete) (hin : event.ins ≠ []) (hout : event.outs ≠ []) :
    (∀ outDs ∈ event.outs, ∀ inDs ∈ event.ins, ∀ s ∈ event.pairCalls R outDs inDs, s ∈ event.calls R) ∧
      ∀ m ∈ event.maps R, mappingCall R m ∈ event.calls R := by
  have hcalls : event.calls R = .storeRunEvent (event.runId R) event.eventType.text event.modelDump ::
      ((event.outs.flatMap fun outDs => event.ins.flatMap fun inDs => event.pairCalls R outDs inDs) ++
        (event.maps R).map (mappingCall R)) := by
    rw [RunEvent.calls, if_pos hc, RunEvent.lineageCalls, if_neg]
    simp [hin, hout]
  rw [hcalls]
  constructor
  · intro outDs ho inDs hi s hs
    refine List.mem_cons_of_mem _ (List.mem_append_left _ ?_)
    exact List.mem_flatMap.2 ⟨outDs, ho, List.mem_flatMap.2 ⟨inDs, hi, hs⟩⟩
  · intro m hm
    exact List.mem_cons_of_mem _ (List.mem_append_right _ (List.mem_map_of_mem hm))

theorem mem_matchCall {outDs inDs : DatasetRef} : row ∈ (event.matchCall R outDs inDs).mappings ↔
    ∃ k, k ∈ outDs.fields.map SchemaField.name ∧ k ∈ inDs.fields.map SchemaField.name ∧
      k.encodable = true ∧ row = ⟨event.runId R, outDs.qualifiedName, inDs.qualifiedName, k, k⟩ := by
  refine mem_mappingRows.trans ?_
  constructor
  · rintro ⟨⟨k, p⟩, hentry, text, htext, rfl⟩
    obtain ⟨hp, hout, hin⟩ := mem_matchedFields.1 hentry
    dsimp only at hp
    subst hp
    obtain ⟨henc, rfl⟩ := Str.encode_eq_ok.1 htext
    exact ⟨text, hout, hin, henc, rfl⟩
  · rintro ⟨k, hout, hin, henc, rfl⟩
    exact ⟨(k, .text k), mem_matchedFields.2 ⟨rfl, hout, hin⟩, k, Str.encode_of_encodable henc, rfl⟩

theorem matchCall_mem {outDs inDs : DatasetRef} {entry : Str × SqlParam}
    (h : entry ∈ matchedFields outDs inDs) : event.matchCall R outDs inDs ∈ event.pairCalls R outDs inDs := by
  rw [RunEvent.pairCalls, if_neg (by simpa using List.ne_nil_of_mem h)]
  exact List.mem_cons_of_mem _ (List.mem_singleton_self _)

/-- The rows of a pair of datasets. -/
theorem mem_pairCalls {outDs inDs : DatasetRef} :
    (∃ s ∈ event.pairCalls R outDs inDs, row ∈ s.mappings) ↔
      row ∈ (event.matchCall R outDs inDs).mappings := by
  constructor
  · rintro ⟨s, hs, hrow⟩
    rcases List.mem_cons.1 hs with rfl | hs
    · cases hrow
    · split at hs
      · cases hs
      · rw [List.mem_singleton.1 hs] at hrow
        exact hrow
  · intro hrow
    obtain ⟨entry, hentry, -⟩ := mem_mappingRows.1 hrow
    exact ⟨_, matchCall_mem hentry, hrow⟩

theorem mem_mappingCall {m : FieldMapping} {outRaw inRaw : Dict} {outDs inDs : DatasetRef}
    (h : m.From R event outRaw inRaw outDs inDs) : row ∈ (mappingCall R m).mappings ↔
      ∃ f v t, FirstField outRaw f v ∧ bindText (sqlParam R v) = .ok t ∧
        row = ⟨event.runId R, outDs.qualifiedName, inDs.qualifiedName, f, t⟩ := by
  refine mem_mappingRows.trans ?_
  rw [h.runId, h.outputDataset, h.inputDataset]
  constructor
  · rintro ⟨entry, hentry, text, htext, rfl⟩
    obtain ⟨⟨f, v⟩, hfv, rfl⟩ := List.mem_map.1 hentry
    exact ⟨f, v, text, (h.fieldMap f v).1 hfv, htext, rfl⟩
  · rintro ⟨f, v, t, hf, ht, rfl⟩
    exact ⟨(f, sqlParam R v), List.mem_map.2 ⟨(f, v), (h.fieldMap f v).2 hf, rfl⟩, t, ht, rfl⟩

/-- **An event inserts no other rows**, and none if its outputs cannot be read. -/
theorem mem_calls_rows (hs : s ∈ event.calls R) (hrow : row ∈ s.mappings) :
    event.eventType = .complete ∧ event.datasetsOut = .ok event.outs ∧
      (Matched R event row ∨ FacetRow R event row) := by
  rcases mem_calls hs with rfl | ⟨hc, -, hout, hs⟩
  · cases hrow
  · refine ⟨hc, datasets_read hout, ?_⟩
    rcases hs with ⟨outDs, ho, inDs, hi, hs⟩ | ⟨m, hm, rfl⟩
    · obtain ⟨k, hk⟩ := mem_matchCall.1 (mem_pairCalls.1 ⟨s, hs, hrow⟩)
      exact .inl ⟨outDs, ho, inDs, hi, k, hk⟩
    · obtain ⟨outRaw, ho, inRaw, hi, outDs, inDs, hfrom⟩ := mem_maps hm
      obtain ⟨f, v, t, hf, ht, rfl⟩ := (mem_mappingCall hfrom).1 hrow
      exact .inr ⟨outRaw, ho, inRaw, hi, outDs, inDs, f, v, t, hfrom.readOut, hfrom.readIn, hf, ht, rfl⟩

/-- A raw dataset of an event that was read. -/
theorem read_parsed {raws : List Dict} {ds : List DatasetRef} (h : raws.mapM parseDataset = .ok ds)
    {raw : Dict} (hraw : raw ∈ raws) : ∃ d ∈ ds, parseDataset raw = .ok d := mapM_of_mem h hraw

/-- **An event that is read to its end inserts all of them.** -/
theorem calls_rows_iff (hread : event.Read R) (hc : event.eventType = .complete) :
    (∃ s ∈ event.calls R, row ∈ s.mappings) ↔ Matched R event row ∨ FacetRow R event row := by
  constructor
  · rintro ⟨s, hs, hrow⟩
    exact (mem_calls_rows hs hrow).2.2
  · rintro (⟨outDs, ho, inDs, hi, k, hk⟩ | ⟨outRaw, ho, inRaw, hi, outDs, inDs, f, v, t, hout, hin, hf, ht, rfl⟩)
    · have hcalls := calls_complete (R := R) hc (List.ne_nil_of_mem hi) (List.ne_nil_of_mem ho)
      obtain ⟨s, hs, hrow⟩ := mem_pairCalls.2 (mem_matchCall.2 ⟨k, hk⟩)
      exact ⟨s, hcalls.1 outDs ho inDs hi s hs, hrow⟩
    · obtain ⟨d, hd, -⟩ := read_parsed hread.datasetsIn hi
      obtain ⟨d', hd', -⟩ := read_parsed hread.datasetsOut ho
      have hcalls := calls_complete (R := R) hc (List.ne_nil_of_mem hd) (List.ne_nil_of_mem hd')
      have hmaps := hread.fieldMappings (List.ne_nil_of_mem hd) (List.ne_nil_of_mem hd')
      obtain ⟨m, hm, outDs', inDs', hfrom⟩ := maps_of_firstField hmaps ho hi hf
      have hout' := hfrom.readOut
      have hin' := hfrom.readIn
      rw [hout] at hout'
      rw [hin] at hin'
      cases hout'
      cases hin'
      exact ⟨_, hcalls.2 m hm, (mem_mappingCall hfrom).2 ⟨f, v, t, hf, ht, rfl⟩⟩

end Rows

/-! ## For runs on fixed inputs -/

/-- An entry of `inputFields`. -/
def inputField (dataset field : Str) : Dict := table dataset ++ [(lit "field", .str field)]

/-- A dataset with a columnLineage facet. -/
def columnTable (name : Str) (columns : List (Str × List Dict)) : Dict :=
  table name ++ [(lit "facets", .obj [(lit "columnLineage", .obj [(lit "fields",
    .obj (columns.map fun c => (c.1, .obj [(lit "inputFields", .arr (c.2.map .obj))])))])])]

def columnsOf (inputs outputs : List Dict) : RunEvent :=
  { copyOf (lit "r") with inputs := inputs, outputs := outputs }

def ingestion (event : RunEvent) : Client Json IngestResult :=
  ingest .fixed .fixed (fun _ => lit "e") event none

/-- What ingesting it into an empty store leaves. -/
def ingested (event : RunEvent) : Backend :=
  ((ingestion event).runUnder PyLib.fixed (List.replicate 9 []) .empty).2

theorem later_ingested (event : RunEvent) : Later .fixed PyLib.fixed .empty (ingested event) :=
  .call (List.replicate 9 []) (.ingest .fixed (fun _ => lit "e") event none) .refl

/-- It returned that the event is new. -/
def Accepted (event : RunEvent) : Prop :=
  (ingestion event).runUnder PyLib.fixed (List.replicate 9 []) .empty =
    (some (.ok ⟨lit "e", false, true, lit "r", lit "COMPLETE"⟩), ingested event)

theorem accepted_of {event : RunEvent} (h : ((ingestion event).runUnder PyLib.fixed (List.replicate 9 [])
    .empty).1 = some (.ok ⟨lit "e", false, true, lit "r", lit "COMPLETE"⟩)) : Accepted event := Prod.ext h rfl

theorem Accepted.ingested {event : RunEvent} (h : Accepted event) :
    Ingested .fixed PyLib.fixed event .empty (ingested event) :=
  .single .fixed (fun _ => lit "e") none (List.replicate 9 []) _ h rfl

end LineageVault
