import LineageVault.OpenLineage.Impact

/-! # Declared and recorded column lineage

The columnLineage facet gives each field of an output a list of `inputFields`, and each of these names
its own dataset. `field_mappings` takes the field of the first one and maps it from every input, so two
things go wrong.

A declaration is lost unless the first entry has the same field (`Carried`, `columnLineage_kept`). And a
field is mapped from inputs that no entry names; the rows are justified exactly if every input has, for
every field of a facet, an entry of its own with the field of the first one or a field that matches by
name (`Attributed`, `columnLineage_justified`).
-/

namespace LineageVault
open Foundations
set_option autoImplicit false

/-- The entry of the `inputFields` of `f` names the dataset and the field `v`. -/
def Names (entry : Json) (f : Str) (d : DatasetRef) (v : Json) : Prop :=
  ∃ raw, entry = .obj raw ∧ datasetRef raw d.fields = .ok d ∧ Dict.get raw (lit "field") (.str f) = v

variable {R : Rendering} {py : PyLib Json}

/-! ## What is declared is kept -/

section Kept
variable {event : RunEvent} {outRaw : Dict} {inDs outDs : DatasetRef} {f g : Str} {b b₀ b' : Backend}

/-- An output declares that its field `f` comes from the field `g` of an input. -/
structure RunEvent.Declares (event : RunEvent) (outRaw : Dict) (f : Str) (inDs : DatasetRef) (g : Str) :
    Prop where
  output : outRaw ∈ event.outputs
  input : inDs ∈ event.ins
  entry : ∃ inputs, InputFields outRaw f inputs ∧ ∃ entry ∈ inputs, Names entry f inDs (.str g)

/-- The first entry of `f` has the field `g`, or `g` is `f` and a field of the input. -/
def Carried (outRaw : Dict) (f : Str) (inDs : DatasetRef) (g : Str) : Prop :=
  FirstField outRaw f (.str g) ∨ f = g ∧ g ∈ inDs.fields.map SchemaField.name

/-- A mapping that was made has its row. -/
theorem Made.row {calls : List (StorageCall Json)} {runId outputDataset inputDataset : Str}
    {fieldMap : List (Str × SqlParam)} (h : Made b calls b')
    (hs : .recordFieldMapping runId outputDataset inputDataset fieldMap ∈ calls)
    (hfg : (f, .text g) ∈ fieldMap) :
    Stored b' ⟨runId, outputDataset, inputDataset, f, g⟩ ∧ g.encodable = true := by
  obtain ⟨text, htext⟩ := h.bound _ hs (f, .text g) hfg
  obtain ⟨henc, rfl⟩ := Str.encode_eq_ok.1 htext
  exact ⟨h.stored _ hs _ (mem_mappingRows.2 ⟨_, hfg, text, htext, rfl⟩), henc⟩

/-- What an event declares is recorded, if it is carried. -/
theorem declared_stored (h : Ingested R py event b₀ b) (hc : event.eventType = .complete)
    (hd : event.Declares outRaw f inDs g) (hcarried : Carried outRaw f inDs g) :
    ∃ outDs, parseDataset outRaw = .ok outDs ∧ g.encodable = true ∧
      Stored b ⟨event.runId R, outDs.qualifiedName, inDs.qualifiedName, f, g⟩ := by
  obtain ⟨calls, hmade, hsub, hread⟩ := h.made
  have hread := hread hc
  obtain ⟨outDs, hmem, hparse⟩ := read_parsed hread.datasetsOut hd.output
  have hin := List.ne_nil_of_mem hd.input
  have hout := List.ne_nil_of_mem hmem
  obtain ⟨hpairs, hmaps⟩ := calls_complete (R := R) hc hin hout
  refine ⟨outDs, hparse, ?_⟩
  rcases hcarried with hfirst | ⟨rfl, hfield⟩
  · obtain ⟨inRaw, hinRaw, hparseIn⟩ := mem_of_mapM hread.datasetsIn hd.input
    obtain ⟨m, hm, outDs', inDs', hfrom⟩ :=
      maps_of_firstField (hread.fieldMappings hin hout) hd.output hinRaw hfirst
    have hrow := hmade.row (f := f) (g := g) (hsub _ (hmaps m hm))
      (List.mem_map.2 ⟨(f, .str g), (hfrom.fieldMap f (.str g)).2 hfirst, rfl⟩)
    rw [hfrom.runId, hfrom.outputDataset, hfrom.inputDataset, qualifiedName_eq hparse hfrom.readOut,
      qualifiedName_eq hparseIn hfrom.readIn] at hrow
    exact hrow.symm
  · obtain ⟨inputs, hinputs, -⟩ := hd.entry
    have hmatched : (f, SqlParam.text f) ∈ matchedFields outDs inDs :=
      mem_matchedFields.2 ⟨rfl, facet_parsed hparse hinputs, hfield⟩
    have hcall := hpairs outDs hmem inDs hd.input _ (matchCall_mem hmatched)
    exact (hmade.row (hsub _ hcall) hmatched).symm

/-- **A declaration that is carried is never lost.** -/
theorem columnLineage_kept (nx : NetworkX) (h₀ : Later R py .empty b₀) (h : Ingested R py event b₀ b)
    (hlater : Later R py b b') (hc : event.eventType = .complete) (hd : event.Declares outRaw f inDs g)
    (hcarried : Carried outRaw f inDs g) :
    ∃ outDs, parseDataset outRaw = .ok outDs ∧ ∃ r, b'.fieldImpact nx inDs.qualifiedName g = some (.ok r) ∧
      (outDs.qualifiedName, f) ∈ r.impactedFields := by
  obtain ⟨outDs, hparse, henc, hstored⟩ := declared_stored h hc hd hcarried
  have hrow := (hlater.stored hstored).seen
  have htraced := ((h₀.trans h.later).trans hlater).traced traced_empty
  have hds := (htraced _ (.inl hrow)).1.1
  obtain ⟨r, hr⟩ := fieldImpact_returns nx (fun row hrow => (htraced row (.inl hrow)).1) hds henc
  refine ⟨outDs, hparse, r, hr, ?_⟩
  exact ((fieldImpact_ok hr).1 _).2 (.single ⟨_, hrow, rfl, rfl, rfl, rfl⟩)

/-- `db.b.z` is made from two fields of `db.a`. -/
def merged : Dict :=
  columnTable (lit "b") [(lit "z", [inputField (lit "a") (lit "x"), inputField (lit "a") (lit "y")])]

def merging : RunEvent := columnsOf [table (lit "a")] [merged]

theorem merging_accepted : Accepted merging := accepted_of (by decide +kernel)

theorem merged_inputs : InputFields merged (lit "z")
    [.obj (inputField (lit "a") (lit "x")), .obj (inputField (lit "a") (lit "y"))] :=
  ⟨_, _, rfl, List.mem_singleton_self _, rfl⟩

theorem columnLineage_kept_merging :
    ∃ r, (ingested merging).fieldImpact .breadthFirst (lit "db.a") (lit "x") = some (.ok r) ∧
      (lit "db.b", lit "z") ∈ r.impactedFields := by
  have hd : merging.Declares merged (lit "z") ⟨lit "db", lit "a", []⟩ (lit "x") :=
    ⟨List.mem_singleton_self _, List.mem_singleton_self _,
      _, merged_inputs, _, List.mem_cons_self, _, rfl, rfl, rfl⟩
  obtain ⟨outDs, hout, r, hr, hmem⟩ := columnLineage_kept .breadthFirst .refl merging_accepted.ingested
    .refl rfl hd (.inl ⟨_, _, merged_inputs, rfl⟩)
  cases hout
  exact ⟨r, hr, hmem⟩

/-- **The second entry is lost.** -/
theorem columnLineage_lost :
    Ingested .fixed PyLib.fixed merging .empty (ingested merging) ∧ merging.eventType = .complete ∧
      merging.Declares merged (lit "z") ⟨lit "db", lit "a", []⟩ (lit "y") ∧
      (ingested merging).fieldImpact .breadthFirst (lit "db.a") (lit "y") =
        some (.ok ⟨lit "db.a", lit "y", [], [lit "db.b"]⟩) := by
  refine ⟨merging_accepted.ingested, rfl, ⟨List.mem_singleton_self _, List.mem_singleton_self _, ?_⟩, by decide +kernel⟩
  exact ⟨_, merged_inputs, _, List.mem_cons_of_mem _ (List.mem_singleton_self _), _, rfl, rfl, rfl⟩

end Kept

/-! ## What is recorded is justified -/

section Justified
variable {event : RunEvent} {row : MappingRow} {b b' : Backend} {new : List MappingRow}

/-- One of the datasets has the name and the field. -/
def HasField (ds : List DatasetRef) (dataset field : Str) : Prop :=
  ∃ d ∈ ds, d.qualifiedName = dataset ∧ field ∈ d.fields.map SchemaField.name

variable (R) in
/-- Some entry of the field of the output names the field of the input. -/
def RunEvent.Listed (event : RunEvent) (outputDataset inputDataset outputField inputField : Str) : Prop :=
  ∃ outRaw ∈ event.outputs, ∃ outDs inputs, datasetRef outRaw [] = .ok outDs ∧
    outDs.qualifiedName = outputDataset ∧ InputFields outRaw outputField inputs ∧
      ∃ entry ∈ inputs, ∃ d v, Names entry outputField d v ∧ d.qualifiedName = inputDataset ∧
        bindText (sqlParam R v) = .ok inputField

variable (R) in
def RunEvent.Justifies (event : RunEvent) (row : MappingRow) : Prop :=
  event.Listed R row.outputDataset row.inputDataset row.outputField row.inputField ∨
    row.inputField = row.outputField ∧ HasField event.ins row.inputDataset row.inputField ∧
      HasField event.outs row.outputDataset row.outputField

variable (R) in
/-- For every input and every field of a facet, the field of the first entry is listed for this input,
or has the name of the field and is one of the input. -/
def RunEvent.Attributed (event : RunEvent) : Prop :=
  ∀ outRaw ∈ event.outputs, ∀ inRaw ∈ event.inputs, ∀ outDs inDs f v t,
    datasetRef outRaw [] = .ok outDs → datasetRef inRaw [] = .ok inDs → FirstField outRaw f v →
      bindText (sqlParam R v) = .ok t →
        event.Listed R outDs.qualifiedName inDs.qualifiedName f t ∨
          t = f ∧ HasField event.ins inDs.qualifiedName t

theorem Matched.justified (h : Matched R event row) : event.Justifies R row := by
  obtain ⟨outDs, ho, inDs, hi, k, hout, hin, -, rfl⟩ := h
  exact .inr ⟨rfl, ⟨inDs, hi, rfl, hin⟩, outDs, ho, rfl, hout⟩

/-- The outputs of an event whose lineage was read have the fields of their facets. -/
theorem hasField_of_firstField (houts : event.datasetsOut = .ok event.outs) {outRaw : Dict}
    {outDs : DatasetRef} {f : Str} {v : Json} (hout : outRaw ∈ event.outputs)
    (hds : datasetRef outRaw [] = .ok outDs) (hf : FirstField outRaw f v) :
    HasField event.outs outDs.qualifiedName f := by
  obtain ⟨d, hd, hparse⟩ := read_parsed houts hout
  obtain ⟨first, rest, hinputs, -⟩ := hf
  exact ⟨d, hd, (qualifiedName_eq hparse hds).symm, facet_parsed hparse hinputs⟩

theorem FacetRow.justified (hattr : event.Attributed R) (houts : event.datasetsOut = .ok event.outs)
    (h : FacetRow R event row) : event.Justifies R row := by
  obtain ⟨outRaw, ho, inRaw, hi, outDs, inDs, f, v, t, hout, hin, hf, ht, rfl⟩ := h
  rcases hattr outRaw ho inRaw hi outDs inDs f v t hout hin hf ht with h | ⟨rfl, h⟩
  · exact .inl h
  · exact .inr ⟨rfl, h, hasField_of_firstField houts ho hout hf⟩

/-- The rows of an event are all justified exactly if it is attributed. -/
theorem justifies_iff (houts : event.datasetsOut = .ok event.outs) :
    (∀ row, Matched R event row ∨ FacetRow R event row → event.Justifies R row) ↔ event.Attributed R := by
  constructor
  · intro h outRaw ho inRaw hi outDs inDs f v t hout hin hf ht
    have hrow := h ⟨event.runId R, outDs.qualifiedName, inDs.qualifiedName, f, t⟩
      (.inr ⟨outRaw, ho, inRaw, hi, outDs, inDs, f, v, t, hout, hin, hf, ht, rfl⟩)
    exact hrow.imp_right fun h => ⟨h.1, h.2.1⟩
  · rintro hattr row (h | h)
    · exact h.justified
    · exact h.justified hattr houts

/-! ### The rows that an ingest adds -/

/-- The rows of `field_mappings` after those that there were. -/
def added (b b' : Backend) : List MappingRow := b'.db.fieldMappings.drop b.db.fieldMappings.length

/-- What the connection sees begins with what is committed. -/
def Grows (b : Backend) : Prop := b.session.durable.1.fieldMappings <+: b.db.fieldMappings

/-- The rows were added, or the call was rolled back, and with it what others had left open. -/
def Adds (b : Backend) (new : List MappingRow) (b' : Backend) : Prop :=
  b'.db.fieldMappings = b.db.fieldMappings ++ new ∨
    b'.db.fieldMappings = b.session.durable.1.fieldMappings ∧ new = []

theorem Adds.added (hb : Grows b) (h : Adds b new b') : added b b' = new := by
  rcases h with h | ⟨h, rfl⟩
  · rw [LineageVault.added, h, List.drop_left]
  · rw [LineageVault.added, h, List.drop_eq_nil_iff]
    exact hb.length_le

theorem Later.grows (h : Later R py b b') (hb : Grows b) : Grows b' := by
  refine h.keeps (fun s b b' hs hb => ?_) (fun s b b' hs hb => ?_) (fun b _ => List.prefix_rfl) hb
  · rcases hs.committed with hc | ⟨rfl, -⟩
    · simp only [Grows, Backend.db, hc, List.prefix_rfl]
    · exact hb
  · rcases hs.view with hv | ⟨-, part, -, -, hv⟩
    · simp only [Grows, Backend.db, hs.durable, hv, List.prefix_rfl]
    · unfold Grows at hb ⊢
      rw [hs.durable, hv]
      exact hb.trans (List.prefix_append _ _)

variable (py) in
/-- A client adds rows of its calls only. -/
theorem runUnder_adds {α : Type} {post : α → Prop} {calls : List (StorageCall Json)} {p : Client Json α}
    (hp : p.Issues post calls) (fss : List (List Bool)) (b : Backend) :
    ∃ new, (∀ row ∈ new, ∃ s ∈ calls, row ∈ s.mappings) ∧ Adds b new (p.runUnder py fss b).2 := by
  -- the rows so far are committed, unless no call has done anything
  let Rel : List (StorageCall Json) → Backend → Prop := fun made b₁ =>
    b₁.db.fieldMappings = b.db.fieldMappings ++ made.flatMap StorageCall.mappings ∧
      (b₁.session.durable = b₁.session.view ∨ b₁ = b)
  have hret : ∀ made (s : StorageCall Json) b₁ b₂, made ++ [s] <+: calls → s.Returned b₁ b₂ → Rel made b₁ →
      Rel (made ++ [s]) b₂ := by
    rintro made s b₁ b₂ - hs ⟨hrows, hopen⟩
    refine ⟨?_, ?_⟩
    · rw [hs.mappings, hrows, List.append_assoc, List.flatMap_append, List.flatMap_singleton]
    · rcases hs.committed with hc | ⟨rfl, -⟩
      · exact .inl hc
      · exact hopen
  have hrow : ∀ {made row}, made <+: calls → row ∈ made.flatMap StorageCall.mappings →
      ∃ s ∈ calls, row ∈ s.mappings := by
    intro made row hpre hrow
    obtain ⟨s, hs, hrow⟩ := List.mem_flatMap.1 hrow
    exact ⟨s, hpre.subset hs, hrow⟩
  have hstart : Rel [] b := ⟨(List.append_nil _).symm, .inr rfl⟩
  rcases runUnder_issues hret hp fss hstart with ⟨a, -, -, hrel⟩ | ⟨-, made, b₁, hpre, ⟨hrows, hopen⟩, hend⟩
  · exact ⟨_, fun row h => hrow List.prefix_rfl h, .inl hrel.1⟩
  · rcases hend with hend | ⟨s, hnext, hs⟩
    · rw [hend]
      exact ⟨_, fun row h => hrow hpre h, .inl hrows⟩
    · rcases hs.view with hv | ⟨-, part, hpart, -, hv⟩
      · rcases hopen with hc | rfl
        · refine ⟨_, fun row h => hrow hpre h, .inl ?_⟩
          rw [Backend.db, hv, hc]
          exact hrows
        · refine ⟨[], fun row h => (List.not_mem_nil h).elim, .inr ⟨?_, rfl⟩⟩
          rw [Backend.db, hv]
      · refine ⟨made.flatMap StorageCall.mappings ++ part, fun row h => ?_, .inl ?_⟩
        · rcases List.mem_append.1 h with h | h
          · exact hrow hpre h
          · exact ⟨s, hnext.subset (List.mem_append_right _ (List.mem_singleton_self s)), hpart.subset h⟩
        · rw [hv, hrows, List.append_assoc]

variable (R py) in
theorem ingestBatch_adds (now : ClockText) (ids : ℕ → Str) (events : List RunEvent)
    (keys : Option (List (Option Str))) (fss : List (List Bool)) (b : Backend) :
    ∃ new, (∀ row ∈ new, ∃ event ∈ events, ∃ s ∈ event.calls R, row ∈ s.mappings) ∧
      Adds b new ((ingestBatch R now ids events keys).runUnder py fss b).2 := by
  have hnone : ∀ row ∈ ([] : List MappingRow), ∃ event ∈ events, ∃ s ∈ event.calls R, row ∈ s.mappings :=
    fun row h => (List.not_mem_nil h).elim
  rcases ingestBatch_drive R py now ids events keys fss b with ⟨h, -⟩ |
    ⟨s, -, hs, ⟨hraised, -⟩ | ⟨results, b₁, fss', hret, h⟩⟩
  · rw [h]
    exact ⟨[], hnone, .inl (List.append_nil _).symm⟩
  · refine ⟨[], hnone, ?_⟩
    rcases hraised.view with hv | ⟨-, part, hpart, -, hv⟩
    · rw [Adds, Backend.db, hv]
      exact .inr ⟨rfl, rfl⟩
    · rw [hs, List.prefix_nil] at hpart
      rw [hpart] at hv
      exact .inl hv
  · rw [h]
    obtain ⟨new, hnew, hadds⟩ := runUnder_adds py (issues_recordAll events results) fss' b₁
    have hrows : b₁.db.fieldMappings = b.db.fieldMappings := by rw [hret.mappings, hs, List.append_nil]
    refine ⟨new, fun row hrow => ?_, ?_⟩
    · obtain ⟨s', hs', hrow⟩ := hnew row hrow
      obtain ⟨x, hx, hs'⟩ := List.mem_flatMap.1 hs'
      refine ⟨x.1, (List.of_mem_zip hx).1, s', ?_, hrow⟩
      split at hs'
      · cases hs'
      · exact hs'
    · rcases hadds with hadds | ⟨hadds, rfl⟩
      · exact .inl (hrows ▸ hadds)
      · rcases hret.committed with hc | ⟨rfl, -⟩
        · refine .inl ?_
          rw [hadds, hc, List.append_nil]
          exact hrows
        · exact .inr ⟨hadds, rfl⟩

/-- **The rows of an event are justified exactly if it is attributed.** Whatever becomes of a batch, it
adds no other rows if its COMPLETE events are attributed; and an event that an ingest returned to be new
has added no others if and only if it is. -/
theorem columnLineage_justified (h : Later R py .empty b) :
    (∀ now ids events keys fss, (∀ event ∈ events, event.eventType = .complete → event.Attributed R) →
      ∀ row ∈ added b ((ingestBatch R now ids events keys).runUnder py fss b).2,
        ∃ event ∈ events, event.eventType = .complete ∧ event.Justifies R row) ∧
    ∀ now ids event key fss r b', (ingest R now ids event key).runUnder py fss b = (some (.ok r), b') →
      r.duplicate = false → event.eventType = .complete →
        ((∀ row ∈ added b b', event.Justifies R row) ↔ event.Attributed R) := by
  constructor
  · intro now ids events keys fss hattr row hrow
    obtain ⟨new, hnew, hadds⟩ := ingestBatch_adds R py now ids events keys fss b
    rw [hadds.added (h.grows List.prefix_rfl)] at hrow
    obtain ⟨event, hevent, s, hs, hrow⟩ := hnew row hrow
    obtain ⟨hc, houts, hkind⟩ := mem_calls_rows hs hrow
    exact ⟨event, hevent, hc, (justifies_iff houts).2 (hattr event hevent hc) row hkind⟩
  · intro now ids event key fss r b' hrun hnew hc
    obtain ⟨hmade, hread⟩ := ingest_made hrun hnew
    have hread := hread hc
    have hadded : added b b' = (event.calls R).flatMap StorageCall.mappings := by
      rw [added, hmade.mappings, List.drop_left]
    rw [← justifies_iff hread.datasetsOut]
    refine forall_congr' fun row => imp_congr ?_ Iff.rfl
    rw [hadded, List.mem_flatMap]
    exact calls_rows_iff hread hc

theorem columnLineage_justified_merging :
    added .empty (ingested merging) = [⟨lit "r", lit "db.b", lit "db.a", lit "z", lit "x"⟩] ∧
      merging.Justifies .fixed ⟨lit "r", lit "db.b", lit "db.a", lit "z", lit "x"⟩ := by
  have hattr : merging.Attributed .fixed := by
    intro outRaw ho inRaw hi outDs inDs f v t hout hin hf ht
    cases List.mem_singleton.1 ho
    cases List.mem_singleton.1 hi
    cases hout
    cases hin
    obtain ⟨first, rest, ⟨entries, facetField, hfields, hmem, hinputs⟩, hv⟩ := hf
    cases hfields
    cases List.mem_singleton.1 hmem
    cases hinputs
    cases hv
    exact .inl ⟨merged, ho, _, _, rfl, rfl, merged_inputs, _, List.mem_cons_self, ⟨_, _, []⟩, _,
      ⟨_, rfl, rfl, rfl⟩, rfl, ht⟩
  have hadded : added .empty (ingested merging) =
      [⟨lit "r", lit "db.b", lit "db.a", lit "z", lit "x"⟩] := by decide +kernel
  refine ⟨hadded, ((columnLineage_justified .refl).2 _ _ _ _ _ _ _ merging_accepted rfl rfl).2 hattr _ ?_⟩
  rw [hadded]
  exact List.mem_singleton_self _

/-- `db.b.z` is made from a field of `db.a`, and `db.c` is read as well. -/
def joining : RunEvent :=
  columnsOf [table (lit "a"), table (lit "c")]
    [columnTable (lit "b") [(lit "z", [inputField (lit "a") (lit "x")])]]

theorem joining_accepted : Accepted joining := accepted_of (by decide +kernel)

/-- **The field is mapped from `db.c` too.** -/
theorem columnLineage_unjustified :
    Accepted joining ∧ joining.eventType = .complete ∧
      ⟨lit "r", lit "db.b", lit "db.c", lit "z", lit "x"⟩ ∈ added .empty (ingested joining) ∧
      ¬ joining.Justifies .fixed ⟨lit "r", lit "db.b", lit "db.c", lit "z", lit "x"⟩ := by
  refine ⟨joining_accepted, rfl, by decide +kernel, ?_⟩
  rintro (⟨outRaw, ho, outDs, inputs, -, -, ⟨entries, facetField, hfields, hmem, hinputs⟩,
    entry, hentry, d, v, ⟨raw, hraw, hd, -⟩, hname, -⟩ | ⟨hsame, -⟩)
  · cases List.mem_singleton.1 ho
    cases hfields
    cases List.mem_singleton.1 hmem
    cases hinputs
    cases List.mem_singleton.1 hentry
    cases hraw
    have hds : datasetRef (inputField (lit "a") (lit "x")) d.fields = .ok ⟨lit "db", lit "a", d.fields⟩ := rfl
    rw [hds] at hd
    rw [← Except.ok.inj hd] at hname
    change lit "db.a" = lit "db.c" at hname
    exact absurd hname (by decide)
  · exact absurd hsame (by decide)

end Justified
end LineageVault
