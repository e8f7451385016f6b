import LineageVault.OpenLineage.Facets

/-! # `openlineage/impact.py`

The impacted fields come from the rows of `field_mappings`, the datasets downstream from the graph.
`Traced` is what keeps the two together at every point of a call, also one that fails: each row has
its edge in the graph and among the committed edges. A call keeps it because it makes the edge of two
datasets before any mapping of theirs (`Backed`).

`fieldImpact_within`: so an impacted field is of the dataset itself or of one downstream.
-/

namespace LineageVault
open Foundations
set_option autoImplicit false

/-! ## The code -/

structure DatasetImpact where
  dataset : Str
  downstreamDatasets : List Str
  upstreamDatasets : List Str

namespace ImpactAnalyzer
variable (nx : NetworkX) (b : Backend)

def datasetImpact (dataset : Str) : DatasetImpact :=
  ⟨dataset, b.downstreamDatasets nx dataset, b.upstreamDatasets nx dataset⟩

def fieldImpact (dataset field : Str) : Option (Except PyErr FieldImpact) :=
  b.fieldImpact nx dataset field

end ImpactAnalyzer

/-! ## Calls that make the edge first -/

section Backed
variable {P : Type} {edges edges' : List (Str × Str)} {calls calls' : List (StorageCall P)}

def MappingRow.edge (r : MappingRow) : Str × Str := (r.inputDataset, r.outputDataset)

/-- Each mapping of the calls has its edge among those given, or made by a call before. -/
def Backed (edges : List (Str × Str)) : List (StorageCall P) → Prop
  | [] => True
  | s :: calls => (∀ r ∈ s.mappings, r.edge ∈ edges) ∧ Backed (edges ++ s.edge.toList) calls

theorem Backed.mono (h : Backed edges calls) (hsub : ∀ e ∈ edges, e ∈ edges') : Backed edges' calls := by
  induction calls generalizing edges edges' with
  | nil => trivial
  | cons s calls ih =>
    refine ⟨fun r hr => hsub _ (h.1 r hr), ih h.2 fun e he => ?_⟩
    rcases List.mem_append.1 he with he | he
    · exact List.mem_append_left _ (hsub e he)
    · exact List.mem_append_right _ he

theorem Backed.append (h : Backed edges calls) (h' : Backed (edges ++ calls.filterMap StorageCall.edge) calls') :
    Backed edges (calls ++ calls') := by
  induction calls generalizing edges with
  | nil => simpa using h'
  | cons s calls ih =>
    refine ⟨h.1, ih h.2 (h'.mono fun e he => ?_)⟩
    rw [List.filterMap_cons] at he
    cases hs : s.edge with
    | none => simpa [hs] using he
    | some e' => simpa [hs] using he

theorem Backed.flatMap {γ : Type} {xs : List γ} {g : γ → List (StorageCall P)}
    (h : ∀ x ∈ xs, Backed edges (g x)) : Backed edges (xs.flatMap g) := by
  induction xs with
  | nil => trivial
  | cons x xs ih =>
    rw [List.flatMap_cons]
    refine (h x List.mem_cons_self).append ?_
    exact (ih fun y hy => h y (List.mem_cons_of_mem _ hy)).mono fun e he => List.mem_append_left _ he

theorem Backed.next {made : List (StorageCall P)} {s : StorageCall P} (h : Backed edges calls)
    (hpre : made ++ [s] <+: calls) : ∀ r ∈ s.mappings, r.edge ∈ edges ∨ ∃ s' ∈ made, s'.edge = some r.edge := by
  induction made generalizing edges calls with
  | nil =>
    obtain ⟨rest, rfl⟩ := hpre
    exact fun r hr => .inl (h.1 r hr)
  | cons s' made ih =>
    obtain ⟨rest, rfl⟩ := hpre
    intro r hr
    rcases ih h.2 ⟨rest, rfl⟩ r hr with he | ⟨s'', hs'', he⟩
    · rcases List.mem_append.1 he with he | he
      · exact .inl he
      · exact .inr ⟨s', List.mem_cons_self, Option.mem_toList.1 he⟩
    · exact .inr ⟨s'', List.mem_cons_of_mem _ hs'', he⟩

end Backed

/-! ## Every mapping has its edge -/

section Traced
variable {P : Type} {py : PyLib P} {s : StorageCall P} {b b' : Backend}

/-- Every row is of texts that can be bound, and its edge is in the graph and committed. -/
def Traced (b : Backend) : Prop :=
  ∀ r, r ∈ b.db.fieldMappings ∨ r ∈ b.session.durable.1.fieldMappings → r.Encodable ∧ Known b r.edge

theorem traced_empty : Traced .empty := by
  rintro r (hr | hr) <;> cases hr

theorem Traced.returned (hb : Traced b) (hs : s.Returned b b') (hedges : ∀ r ∈ s.mappings, Known b r.edge) :
    Traced b' := by
  have hseen : ∀ r ∈ b'.db.fieldMappings, r.Encodable ∧ Known b' r.edge := by
    intro r hr
    rw [hs.mappings] at hr
    rcases List.mem_append.1 hr with hr | hr
    · exact ⟨(hb r (.inl hr)).1, hs.known (hb r (.inl hr)).2⟩
    · exact ⟨hs.encodable r hr, hs.known (hedges r hr)⟩
  rintro r (hr | hr)
  · exact hseen r hr
  · rcases hs.committed with hc | ⟨rfl, -⟩
    · rw [hc] at hr
      exact hseen r hr
    · exact hb r (.inr hr)

theorem Traced.raised (hb : Traced b) (hs : s.Raised b b') (hedges : ∀ r ∈ s.mappings, Known b r.edge) :
    Traced b' := by
  have hold : ∀ r, r ∈ b.db.fieldMappings ∨ r ∈ b.session.durable.1.fieldMappings →
      r.Encodable ∧ Known b' r.edge := fun r hr => ⟨(hb r hr).1, hs.known (hb r hr).2⟩
  rintro r (hr | hr)
  · rcases hs.view with hv | ⟨-, part, hpart, henc, hv⟩
    · rw [Backend.db, hv] at hr
      exact hold r (.inr hr)
    · rw [hv] at hr
      rcases List.mem_append.1 hr with hr | hr
      · exact hold r (.inl hr)
      · exact ⟨henc r hr, hs.known (hedges r (hpart.subset hr))⟩
  · rw [hs.durable] at hr
    exact hold r (.inr hr)

theorem Traced.reopen (hb : Traced b) : Traced b.reopen := by
  have h : ∀ r ∈ b.session.durable.1.fieldMappings, r.Encodable ∧ Known b.reopen r.edge := by
    intro r hr
    obtain ⟨henc, hknown⟩ := hb r (.inr hr)
    exact ⟨henc, mem_loadGraph.2 hknown.committed, hknown.committed, hknown.committed⟩
  rintro r (hr | hr)
  · exact h r hr
  · exact h r hr

/-- A client that makes edges first keeps every mapping with its edge, wherever it ends. -/
theorem Traced.runUnder {α : Type} {post : α → Prop} {calls : List (StorageCall P)} {p : Client P α}
    (hp : p.Issues post calls) (hcalls : Backed [] calls) (fss : List (List Bool)) (hb : Traced b) :
    Traced (p.runUnder py fss b).2 := by
  let Rel : List (StorageCall P) → Backend → Prop := fun made b =>
    Traced b ∧ ∀ s ∈ made, ∀ e, s.edge = some e → Known b e
  have hnext : ∀ made (s : StorageCall P) b, made ++ [s] <+: calls → Rel made b →
      ∀ r ∈ s.mappings, Known b r.edge := by
    intro made s b hpre hrel r hr
    rcases hcalls.next hpre r hr with he | ⟨s', hs', he⟩
    · cases he
    · exact hrel.2 s' hs' _ he
  have hret : ∀ made (s : StorageCall P) b b', made ++ [s] <+: calls → s.Returned b b' → Rel made b →
      Rel (made ++ [s]) b' := by
    intro made s b b' hpre hs hrel
    refine ⟨hrel.1.returned hs (hnext made s b hpre hrel), fun s' hs' e he => ?_⟩
    rcases List.mem_append.1 hs' with hs' | hs'
    · exact hs.known (hrel.2 s' hs' e he)
    · rw [List.mem_singleton.1 hs'] at he
      exact hs.known_edge he
  have hstart : Rel [] b := ⟨hb, fun s hs => (List.not_mem_nil hs).elim⟩
  rcases runUnder_issues hret hp fss hstart with ⟨a, -, -, hrel⟩ | ⟨-, made, b₁, -, hrel, hend⟩
  · exact hrel.1
  · rcases hend with hend | ⟨s, hpre, hraised⟩
    · rw [hend]
      exact hrel.1
    · exact hrel.1.raised hraised (hnext made s b₁ hpre hrel)

end Traced

/-! ## The calls of an engine -/

variable {R : Rendering} {py : PyLib Json}

theorem pairCalls_edge (event : RunEvent) (outDs inDs : DatasetRef) :
    (event.pairCalls R outDs inDs).filterMap StorageCall.edge =
      [(inDs.qualifiedName, outDs.qualifiedName)] := by
  rw [RunEvent.pairCalls]
  split <;> rfl

theorem backed_pairCalls (event : RunEvent) (outDs inDs : DatasetRef) (edges : List (Str × Str)) :
    Backed edges (event.pairCalls R outDs inDs) := by
  refine ⟨(fun r hr => by cases hr), ?_⟩
  split
  · trivial
  · refine ⟨fun r hr => ?_, trivial⟩
    obtain ⟨k, -, -, -, rfl⟩ := mem_matchCall.1 hr
    exact List.mem_append_right _ (List.mem_singleton_self _)

/-- The datasets of a mapping are an input and an output. -/
theorem maps_datasets {event : RunEvent} {m : FieldMapping} (hin : event.ins ≠ []) (hout : event.outs ≠ [])
    (hm : m ∈ event.maps R) : (∃ inDs ∈ event.ins, m.inputDataset = inDs.qualifiedName) ∧
      ∃ outDs ∈ event.outs, m.outputDataset = outDs.qualifiedName := by
  obtain ⟨outRaw, ho, inRaw, hi, outDs, inDs, hfrom⟩ := mem_maps hm
  obtain ⟨d, hd, hparse⟩ := read_parsed (datasets_read hin) hi
  obtain ⟨d', hd', hparse'⟩ := read_parsed (datasets_read hout) ho
  exact ⟨⟨d, hd, hfrom.inputDataset.trans (qualifiedName_eq hparse hfrom.readIn)⟩,
    d', hd', hfrom.outputDataset.trans (qualifiedName_eq hparse' hfrom.readOut)⟩

theorem backed_lineageCalls (event : RunEvent) : Backed [] (event.lineageCalls R) := by
  unfold RunEvent.lineageCalls
  split
  · trivial
  · next hne =>
    simp only [Bool.or_eq_true, List.isEmpty_iff, not_or] at hne
    refine Backed.append ?_ ?_
    · exact Backed.flatMap fun outDs _ => Backed.flatMap fun inDs _ => backed_pairCalls event outDs inDs []
    · rw [List.map_eq_flatMap]
      refine Backed.flatMap fun m hm => ⟨fun r hr => ?_, trivial⟩
      obtain ⟨⟨inDs, hi, hin⟩, outDs, ho, hout⟩ := maps_datasets hne.1 hne.2 hm
      obtain ⟨entry, -, text, -, rfl⟩ := mem_mappingRows.1 hr
      refine List.mem_append_right _ ?_
      simp only [List.filterMap_flatMap, pairCalls_edge, MappingRow.edge, hin, hout]
      exact List.mem_flatMap.2 ⟨outDs, ho, List.mem_flatMap.2 ⟨inDs, hi, List.mem_singleton_self _⟩⟩

theorem backed_recordedCalls (events : List RunEvent) (results : List AcknowledgedWrite) :
    Backed [] (recordedCalls R events results) := by
  refine Backed.flatMap fun x _ => ?_
  split
  · trivial
  · refine ⟨(fun r hr => by cases hr), ?_⟩
    split
    · exact backed_lineageCalls x.1
    · trivial

theorem traced_ingestBatch {b : Backend} (hb : Traced b) (now : ClockText) (ids : ℕ → Str)
    (events : List RunEvent) (keys : Option (List (Option Str))) (fss : List (List Bool)) :
    Traced ((ingestBatch R now ids events keys).runUnder py fss b).2 := by
  have hnone : ∀ s : StorageCall Json, s.mappings = [] → ∀ r ∈ s.mappings, Known b r.edge := by
    intro s hs r hr
    rw [hs] at hr
    cases hr
  rcases ingestBatch_drive R py now ids events keys fss b with ⟨h, -⟩ |
    ⟨s, -, hs, ⟨hraised, -⟩ | ⟨results, b₁, fss', hret, h⟩⟩
  · rw [h]
    exact hb
  · exact hb.raised hraised (hnone s hs)
  · rw [h]
    exact Traced.runUnder (issues_recordAll events results) (backed_recordedCalls events results) fss'
      (hb.returned hret (hnone s hs))

theorem traced_call {b : Backend} (hb : Traced b) (fss : List (List Bool)) (c : EngineCall) :
    Traced (c.after R py fss b) := by
  cases c with
  | ingestSync now event key =>
    let c : LegacyCall := .ingestSync now event key
    have hissues : (persistEvent now event key).Issues (fun _ => True)
        [.acknowledgeWrite now c.item, edgeCall c] := by
      rw [show persistEvent now event key = _ from persist_stmt c]
      exact ⟨rfl, fun _ => ⟨rfl, fun _ => trivial⟩⟩
    refine Traced.runUnder hissues ?_ fss hb
    exact ⟨(fun r hr => by cases hr), (fun r hr => by cases hr), trivial⟩
  | ingest now ids event key =>
    obtain ⟨keys, h⟩ := ingest_drive R py now ids event key fss b
    rw [EngineCall.after, h]
    exact traced_ingestBatch hb now ids [event] keys fss
  | ingestBatch now ids events keys => exact traced_ingestBatch hb now ids events keys fss

theorem Later.traced {b b' : Backend} (h : Later R py b b') (hb : Traced b) : Traced b' := by
  induction h with
  | refl => exact hb
  | call fss c _ ih => exact traced_call ih fss c
  | reopen _ ih => exact ih.reopen

/-- **Field impact stays within dataset impact.** In every state that calls of an engine lead to,
returning, raising or stopped at any point: `field_impact` returns for every dataset and field of
encodable text; the datasets downstream are those of `dataset_impact`; and an impacted field is of the
dataset itself or of one of them. -/
theorem fieldImpact_within (nx : NetworkX) {b : Backend} (h : Later R py .empty b) (dataset field : Str) :
    (dataset.encodable = true → field.encodable = true →
      ∃ r, ImpactAnalyzer.fieldImpact nx b dataset field = some (.ok r)) ∧
    ∀ r, ImpactAnalyzer.fieldImpact nx b dataset field = some (.ok r) →
      r.downstreamDatasets = (ImpactAnalyzer.datasetImpact nx b dataset).downstreamDatasets ∧
        ∀ x ∈ r.impactedFields, x.1 = dataset ∨ x.1 ∈ r.downstreamDatasets := by
  have htraced := h.traced traced_empty
  constructor
  · exact fun hd hf => fieldImpact_returns nx (fun r hr => (htraced r (.inl hr)).1) hd hf
  · intro r hr
    obtain ⟨himpacted, hdown⟩ := fieldImpact_ok hr
    refine ⟨hdown, fun x hx => ?_⟩
    have hedge : ∀ x y, Feeds b.db.fieldMappings x y → Joined b.graph x.1 y.1 := by
      rintro x y ⟨row, hrow, hin, -, hout, -⟩
      have hknown := (htraced row (.inl hrow)).2.graph
      rw [MappingRow.edge, hin, hout] at hknown
      exact hknown
    have hpath : Leads b.graph dataset x.1 := Relation.TransGen.lift Prod.fst hedge _ _ ((himpacted x).1 hx)
    by_cases hself : x.1 = dataset
    · exact .inl hself
    · rw [hdown]
      exact .inr (((downstream_isSorted nx b.graph dataset).mem x.1).2 ⟨hself, hpath⟩)

/-- `db.b.y` is made from `db.a.x`. -/
def copied : Backend :=
  ingested (columnsOf [table (lit "a")]
    [columnTable (lit "b") [(lit "y", [inputField (lit "a") (lit "x")])]])

theorem fieldImpact_within_copied :
    ImpactAnalyzer.fieldImpact .breadthFirst copied (lit "db.a") (lit "x") = some (.ok
        ⟨lit "db.a", lit "x", [(lit "db.b", lit "y")], [lit "db.b"]⟩) ∧
      (ImpactAnalyzer.datasetImpact .breadthFirst copied (lit "db.a")).downstreamDatasets = [lit "db.b"] := by
  have hwithin := fieldImpact_within .breadthFirst (later_ingested _ : Later _ _ _ copied) (lit "db.a") (lit "x")
  have himpact : ImpactAnalyzer.fieldImpact .breadthFirst copied (lit "db.a") (lit "x") = some (.ok
      ⟨lit "db.a", lit "x", [(lit "db.b", lit "y")], [lit "db.b"]⟩) := by decide +kernel
  exact ⟨himpact, (hwithin.2 _ himpact).1.symm⟩

end LineageVault
