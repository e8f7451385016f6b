import LineageVault.Storage.Client
import LineageVault.Storage.Graph

/-! # `field_impact`, and what it reads

`field_impact` follows the rows of `field_mappings` from field to field, and adds the datasets
downstream in the graph. `selectMappings` is its SELECT; with as much fuel as there are rows, and two,
the loop comes to its end (`fieldImpact_returns`).

`Returned` and `Raised` say what any call of a client does to the graph, to the edges and to the field
mappings. A call that raises may leave some first rows of its mappings in the open transaction, which
the connection shows and the next commit makes durable.
-/

namespace LineageVault
open Foundations
set_option autoImplicit false

/-- What `field_impact` returns; an impacted field is its dataset and its name. -/
structure FieldImpact where
  dataset : Str
  field : Str
  impactedFields : List (Str × Str)
  downstreamDatasets : List Str
  deriving DecidableEq

/-- From the input field of each row to its output field. -/
def mappingEdges (db : Db) : List ((Str × Str) × (Str × Str)) :=
  db.fieldMappings.map fun r => ((r.inputDataset, r.inputField), (r.outputDataset, r.outputField))

def selectMappings (db : Db) (x : Str × Str) : Except PyErr (List (Str × Str)) :=
  if bindable [x.1, x.2] then .ok (targets (mappingEdges db) x) else .error .unicodeEncodeError

/-- `field_impact`; `none` if the fuel ran out. -/
def Backend.fieldImpact (nx : NetworkX) (b : Backend) (dataset field : Str) :
    Option (Except PyErr FieldImpact) :=
  (search (selectMappings b.db) ((mappingEdges b.db).length + 2) [(dataset, field)] [] []).map fun
    | .ok impacted => .ok ⟨dataset, field, impacted, b.downstreamDatasets nx dataset⟩
    | .error e => .error e

/-- The field of one dataset goes into the field of the other. -/
def Feeds (rows : List MappingRow) (x y : Str × Str) : Prop :=
  ∃ r ∈ rows, r.inputDataset = x.1 ∧ r.inputField = x.2 ∧ r.outputDataset = y.1 ∧ r.outputField = y.2

/-! ## The answer -/

section Answer
variable {nx : NetworkX} {b : Backend} {dataset field : Str}

theorem mem_mappingEdges {db : Db} {x y : Str × Str} :
    (x, y) ∈ mappingEdges db ↔ Feeds db.fieldMappings x y := by
  simp only [mappingEdges, List.mem_map, Feeds, Prod.ext_iff, and_assoc]

theorem selectMappings_ok {db : Db} {x : Str × Str} {ys : List (Str × Str)}
    (h : selectMappings db x = .ok ys) (y : Str × Str) : y ∈ ys ↔ Feeds db.fieldMappings x y := by
  unfold selectMappings at h
  split at h
  · cases h
    exact mem_targets.trans mem_mappingEdges
  · cases h

/-- **The impacted fields are those the field feeds, directly or through others.** -/
theorem fieldImpact_ok {r : FieldImpact} (h : b.fieldImpact nx dataset field = some (.ok r)) :
    (∀ y, y ∈ r.impactedFields ↔ Relation.TransGen (Feeds b.db.fieldMappings) (dataset, field) y) ∧
      r.downstreamDatasets = b.downstreamDatasets nx dataset := by
  obtain ⟨x, hx, hr⟩ := Option.map_eq_some_iff.1 h
  cases x with
  | error e => cases hr
  | ok impacted =>
    cases hr
    exact ⟨mem_search (fun x ys hys => selectMappings_ok hys) hx, rfl⟩

/-- The texts of a row that were bound as they are. -/
def MappingRow.Encodable (r : MappingRow) : Prop :=
  r.inputDataset.encodable = true ∧ r.outputDataset.encodable = true ∧ r.outputField.encodable = true

theorem fieldImpact_returns (nx : NetworkX) (hrows : ∀ r ∈ b.db.fieldMappings, r.Encodable)
    (hd : dataset.encodable = true) (hf : field.encodable = true) :
    ∃ r, b.fieldImpact nx dataset field = some (.ok r) := by
  let ok : Str × Str → Prop := fun x => x.1.encodable = true ∧ x.2.encodable = true
  have hok : ∀ e ∈ mappingEdges b.db, ok e.2 := by
    intro e he
    obtain ⟨r, hr, rfl⟩ := List.mem_map.1 he
    exact (hrows r hr).2
  have hselect : ∀ x, ok x → selectMappings b.db x = .ok (targets (mappingEdges b.db) x) := by
    intro x hx
    rw [selectMappings, if_pos (by simp [hx.1, hx.2])]
  have hstart : ok (dataset, field) := ⟨hd, hf⟩
  obtain ⟨impacted, h⟩ := search_returns ok hok hselect hstart
  exact ⟨_, by rw [Backend.fieldImpact, h]; rfl⟩

end Answer

/-! ## What a call does -/

variable {P : Type} {py : PyLib P}

/-- The rows for the entries of a `field_map` that can be bound. -/
def mappingRows (runId outputDataset inputDataset : Str) (fieldMap : List (Str × SqlParam)) :
    List MappingRow :=
  fieldMap.filterMap fun entry => (bindText entry.2).toOption.map fun inputField =>
    ⟨runId, outputDataset, inputDataset, entry.1, inputField⟩

namespace StorageCall

def edge : StorageCall P → Option (Str × Str)
  | .addDatasetEdge src dst _ _ _ _ => some (src, dst)
  | _ => none

def fieldMap : StorageCall P → List (Str × SqlParam)
  | .recordFieldMapping _ _ _ fieldMap => fieldMap
  | _ => []

def mappings : StorageCall P → List MappingRow
  | .recordFieldMapping runId outputDataset inputDataset fieldMap =>
    mappingRows runId outputDataset inputDataset fieldMap
  | _ => []

/-- All values of its `field_map` can be bound. -/
def Bound (s : StorageCall P) : Prop := ∀ entry ∈ s.fieldMap, ∃ text, bindText entry.2 = .ok text

/-- What a call that returned has done. -/
structure Returned (s : StorageCall P) (b b' : Backend) : Prop where
  graph : b'.graph = s.edge.elim b.graph fun e => addEdge e b.graph
  edges : tableEdges b'.db = tableEdges b.db ++ s.edge.toList
  mappings : b'.db.fieldMappings = b.db.fieldMappings ++ s.mappings
  encodable : ∀ r ∈ s.mappings, r.Encodable
  bound : s.Bound
  /-- an empty batch does not commit -/
  committed : b'.session.durable = b'.session.view ∨ b' = b ∧ s.edge = none ∧ s.mappings = []

/-- What a call that raised has done: it was rolled back, or some first rows of it are left open. -/
structure Raised (s : StorageCall P) (b b' : Backend) : Prop where
  graph : b'.graph = b.graph
  durable : b'.session.durable = b.session.durable
  view : b'.session.view = b.session.durable ∨
    (∀ e ∈ tableEdges b.db, e ∈ tableEdges b'.db) ∧
      ∃ part, part <+: s.mappings ∧ (∀ r ∈ part, r.Encodable) ∧
        b'.db.fieldMappings = b.db.fieldMappings ++ part

end StorageCall

def Store.withMappings (v : Store) (rows : List MappingRow) : Store :=
  ({ v.1 with fieldMappings := v.1.fieldMappings ++ rows }, v.2)

theorem withMappings_nil (v : Store) : Store.withMappings v [] = v := by
  simp only [Store.withMappings, List.append_nil]

theorem withMappings_cons (v : Store) (row : MappingRow) (rows : List MappingRow) :
    Store.withMappings (Store.withMappings v [row]) rows = Store.withMappings v (row :: rows) := by
  simp only [Store.withMappings, List.append_assoc, List.singleton_append]

/-- `record_field_mapping` inserts some first rows, and all of them if it gets to its commit. -/
theorem run_recordFieldMapping (runId outputDataset inputDataset : Str) (fieldMap : List (Str × SqlParam))
    (fs : List Bool) (v : Store) :
    ∃ part, part <+: mappingRows runId outputDataset inputDataset fieldMap ∧ (∀ r ∈ part, r.Encodable) ∧
      ((recordFieldMappingBody runId outputDataset inputDataset fieldMap).run exec .operationalError fs
        v).2.1 = Store.withMappings v part ∧
      ∀ a, ((recordFieldMappingBody runId outputDataset inputDataset fieldMap).run exec
        .operationalError fs v).1 = .ok a →
          part = mappingRows runId outputDataset inputDataset fieldMap ∧
            ∀ entry ∈ fieldMap, ∃ text, bindText entry.2 = .ok text := by
  induction fieldMap generalizing fs v with
  | nil => exact ⟨[], List.prefix_rfl, by simp, (withMappings_nil v).symm, fun _ _ => ⟨rfl, by simp⟩⟩
  | cons entry fieldMap ih =>
    obtain ⟨outField, inField⟩ := entry
    simp only [recordFieldMappingBody, Prog.query_bind, Prog.run]
    split
    · exact ⟨[], List.nil_prefix, by simp, (withMappings_nil v).symm, fun a ha => by cases ha⟩
    · next r w hs =>
      obtain ⟨text, htext, hbind, rfl⟩ := insertMapping_ok hs
      have hrows : mappingRows runId outputDataset inputDataset ((outField, inField) :: fieldMap) =
          ⟨runId, outputDataset, inputDataset, outField, text⟩ ::
            mappingRows runId outputDataset inputDataset fieldMap := by
        simp [mappingRows, htext, Except.toOption]
      obtain ⟨part, hpart, henc, hview, hall⟩ := ih fs.tail
        (Store.withMappings v [⟨runId, outputDataset, inputDataset, outField, text⟩])
      simp only [bindable_cons, Bool.and_eq_true] at hbind
      refine ⟨⟨runId, outputDataset, inputDataset, outField, text⟩ :: part, ?_, fun row hrow => ?_, ?_,
        fun a ha => ?_⟩
      · rw [hrows]
        exact List.cons_prefix_cons.2 ⟨rfl, hpart⟩
      · rcases List.mem_cons.1 hrow with rfl | hrow
        · exact ⟨hbind.2.2.1, hbind.2.1, hbind.2.2.2.1⟩
        · exact henc row hrow
      · rw [← withMappings_cons]
        exact hview
      · obtain ⟨hpart, hbound⟩ := hall a ha
        refine ⟨by rw [hrows, hpart], fun entry hentry => ?_⟩
        rcases List.mem_cons.1 hentry with rfl | hentry
        · exact ⟨text, htext⟩
        · exact hbound entry hentry
    · exact ⟨[], List.nil_prefix, by simp, (withMappings_nil v).symm, fun a ha => by cases ha⟩

theorem acknowledgeBody_frame {now : ClockText} {items : List (BatchWriteItem P)} {v w : Store}
    {rs : List AcknowledgedWrite} (h : (acknowledgeBody py now items).eval exec v = .ok (rs, w)) :
    lineageTables w.1 = lineageTables v.1 := by
  obtain ⟨-, hw⟩ := acknowledgeLoop_keeps (J := fun _ u _ _ => lineageTables u.1 = lineageTables v.1)
    (fun _ _ _ _ _ _ hJ _ => hJ) (fun _ _ _ _ _ _ hJ _ _ _ => hJ) [] rfl (acknowledgeBody_cases h)
  exact hw

theorem StorageCall.Returned.framed {s : StorageCall P} {b : Backend} {w : Store} (hedge : s.edge = none)
    (hmappings : s.mappings = []) (hmap : s.fieldMap = []) (hedges : w.1.datasetEdges = b.db.datasetEdges)
    (hrows : w.1.fieldMappings = b.db.fieldMappings) : s.Returned b { b with session := ⟨w, w⟩ } where
  graph := by rw [hedge]; rfl
  edges := by
    rw [hedge, Option.toList_none, List.append_nil]
    exact congrArg (List.map _) hedges
  mappings := by
    rw [hmappings, List.append_nil]
    exact hrows
  encodable r hr := by
    rw [hmappings] at hr
    cases hr
  bound entry hentry := by
    rw [hmap] at hentry
    cases hentry
  committed := .inl rfl

theorem perform_recordFieldMapping (fs : List Bool) (runId outputDataset inputDataset : Str)
    (fieldMap : List (Str × SqlParam)) (b : Backend) :
    let s : StorageCall P := .recordFieldMapping runId outputDataset inputDataset fieldMap
    (∃ r b', s.perform py fs b = (.ok r, b') ∧ s.Returned b b') ∨
      ∃ e b', s.perform py fs b = (.error e, b') ∧ s.Raised b b' := by
  obtain ⟨part, hpart, henc, hview, hall⟩ :=
    run_recordFieldMapping runId outputDataset inputDataset fieldMap fs b.session.view
  rcases unguarded_run fs (recordFieldMappingBody runId outputDataset inputDataset fieldMap) b with
    ⟨e, h⟩ | ⟨a, ha, h⟩
  · rw [hview] at h
    exact .inr ⟨e, _, h, rfl, rfl, .inr ⟨fun e he => he, part, hpart, henc, rfl⟩⟩
  · rw [hview] at h
    obtain ⟨rfl, hbound⟩ := hall a ha
    exact .inl ⟨a, _, h, rfl, (List.append_nil _).symm, rfl, henc, hbound, .inl rfl⟩

variable (py) in
/-- The statement of `store_run_event` touches neither the edges nor the mappings. -/
theorem run_storeRunEvent (fs : List Bool) (runId eventType : Str) (payload : P) (v : Store) :
    let w := ((storeRunEventBody py runId eventType payload).run exec .operationalError fs v).2.1
    w.1.datasetEdges = v.1.datasetEdges ∧ w.1.fieldMappings = v.1.fieldMappings := by
  let upserts : Stmt → Prop := fun s => ∃ text, s = .upsertRunEvent runId eventType text
  let same : Store → Prop := fun w =>
    w.1.datasetEdges = v.1.datasetEdges ∧ w.1.fieldMappings = v.1.fieldMappings
  have hstep : ∀ s w r w', upserts s → same w → exec s w = .ok (r, w') → same w' := by
    rintro s w r w' ⟨text, rfl⟩ hw h
    obtain ⟨-, rfl⟩ := upsertRunEvent_ok h
    exact hw
  have huses : (storeRunEventBody py runId eventType payload).Uses upserts :=
    Prog.uses_ofExcept_bind fun text => ⟨⟨text, rfl⟩, fun _ => trivial⟩
  exact Prog.run_keeps exec .operationalError hstep huses fs ⟨rfl, rfl⟩

theorem perform_storeRunEvent (fs : List Bool) (runId eventType : Str) (payload : P) (b : Backend) :
    let s : StorageCall P := .storeRunEvent runId eventType payload
    (∃ r b', s.perform py fs b = (.ok r, b') ∧ s.Returned b b') ∨
      ∃ e b', s.perform py fs b = (.error e, b') ∧ s.Raised b b' := by
  obtain ⟨hedges, hrows⟩ := run_storeRunEvent py fs runId eventType payload b.session.view
  rcases unguarded_run fs (storeRunEventBody py runId eventType payload) b with ⟨e, h⟩ | ⟨a, -, h⟩
  · refine .inr ⟨e, _, h, rfl, rfl, .inr ⟨fun x hx => ?_, [], List.nil_prefix, by simp, ?_⟩⟩
    · rwa [tableEdges, Backend.db, hedges]
    · rw [List.append_nil]
      exact hrows
  · exact .inl ⟨a, _, h, .framed rfl rfl rfl hedges hrows⟩

variable (py) in
/-- A call returns or raises, and has done what that means. -/
theorem perform_lineage (fs : List Bool) (s : StorageCall P) (b : Backend) :
    (∃ r b', s.perform py fs b = (.ok r, b') ∧ s.Returned b b') ∨
      ∃ e b', s.perform py fs b = (.error e, b') ∧ s.Raised b b' := by
  have hrolled : ∀ s : StorageCall P, s.Raised b { b with session := b.session.rollback } :=
    fun s => ⟨rfl, rfl, .inl rfl⟩
  cases s with
  | acknowledgeWrite now item =>
    rcases acknowledge_singleton_cases fs now item b with ⟨e, h⟩ | ⟨r, w, he, h⟩
    · exact .inr ⟨e, _, h, hrolled _⟩
    · have hframe := Prod.mk.inj (acknowledgeBody_frame he)
      exact .inl ⟨r, _, h, .framed rfl rfl rfl hframe.1 (Prod.mk.inj hframe.2).1⟩
  | acknowledgeWritesBatch now items =>
    cases items with
    | nil => exact .inl ⟨[], b, rfl, rfl, (List.append_nil _).symm, (List.append_nil _).symm,
        fun r hr => (List.not_mem_nil hr).elim, fun x hx => (List.not_mem_nil hx).elim,
        .inr ⟨rfl, rfl, rfl⟩⟩
    | cons item items =>
      rcases guarded_cases fs (acknowledgeBody py now (item :: items)) b with ⟨e, h⟩ | ⟨rs, w, he, h⟩
      · exact .inr ⟨e, _, h, hrolled _⟩
      · have hframe := Prod.mk.inj (acknowledgeBody_frame he)
        exact .inl ⟨rs, _, h, .framed rfl rfl rfl hframe.1 (Prod.mk.inj hframe.2).1⟩
  | addDatasetEdge src dst transformId eventTime schemaVersion payload =>
    rcases addEdgeArgs_cases py fs ⟨src, dst, transformId, eventTime, schemaVersion, payload⟩ b with
      ⟨-, w, h, hedges, hrows⟩ | ⟨-, e, b', h, hd, hg, hedges, hrows⟩
    · refine .inl ⟨(), _, h, rfl, hedges, ?_, fun r hr => (List.not_mem_nil hr).elim,
        fun x hx => (List.not_mem_nil hx).elim, .inl rfl⟩
      exact hrows.trans (List.append_nil _).symm
    · refine .inr ⟨e, b', h, hg, hd, .inr ⟨fun x hx => ?_, [], List.nil_prefix, by simp, ?_⟩⟩
      · obtain ⟨row, hrow, rfl⟩ := List.mem_map.1 hx
        exact List.mem_map.2 ⟨row, hedges row hrow, rfl⟩
      · rw [List.append_nil]
        exact hrows
  | recordFieldMapping runId outputDataset inputDataset fieldMap =>
    exact perform_recordFieldMapping fs runId outputDataset inputDataset fieldMap b
  | storeRunEvent runId eventType payload => exact perform_storeRunEvent fs runId eventType payload b

/-! ## What calls keep -/

section Kept
variable {s : StorageCall P} {b b' : Backend} {e : Str × Str} {r : MappingRow}

/-- The edge is in the graph, and its row is committed. -/
structure Known (b : Backend) (e : Str × Str) : Prop where
  graph : e ∈ b.graph
  seen : e ∈ tableEdges b.db
  committed : e ∈ tableEdges b.session.durable.1

/-- The row is committed, and the connection sees it. -/
structure Stored (b : Backend) (r : MappingRow) : Prop where
  seen : r ∈ b.db.fieldMappings
  committed : r ∈ b.session.durable.1.fieldMappings

theorem StorageCall.Returned.known (h : s.Returned b b') (hb : Known b e) : Known b' e := by
  have hseen : e ∈ tableEdges b'.db := by
    rw [h.edges]
    exact List.mem_append_left _ hb.seen
  refine ⟨?_, hseen, ?_⟩
  · rw [h.graph]
    cases s.edge with
    | none => exact hb.graph
    | some e' => exact mem_addEdge.2 (.inl hb.graph)
  · rcases h.committed with hc | ⟨rfl, -⟩
    · rwa [hc]
    · exact hb.committed

theorem StorageCall.Raised.known (h : s.Raised b b') (hb : Known b e) : Known b' e := by
  refine ⟨by rw [h.graph]; exact hb.graph, ?_, by rw [h.durable]; exact hb.committed⟩
  rcases h.view with hv | ⟨hv, -⟩
  · rw [Backend.db, hv]
    exact hb.committed
  · exact hv e hb.seen

theorem StorageCall.Returned.known_edge (h : s.Returned b b') (he : s.edge = some e) : Known b' e := by
  have hseen : e ∈ tableEdges b'.db := by
    rw [h.edges, he]
    exact List.mem_append_right _ (List.mem_singleton_self e)
  refine ⟨?_, hseen, ?_⟩
  · rw [h.graph, he]
    exact mem_addEdge.2 (.inr rfl)
  · rcases h.committed with hc | ⟨-, hnone, -⟩
    · rwa [hc]
    · rw [he] at hnone
      cases hnone

theorem StorageCall.Returned.stored (h : s.Returned b b') (hb : Stored b r) : Stored b' r := by
  have hseen : r ∈ b'.db.fieldMappings := by
    rw [h.mappings]
    exact List.mem_append_left _ hb.seen
  refine ⟨hseen, ?_⟩
  rcases h.committed with hc | ⟨rfl, -⟩
  · rwa [hc]
  · exact hb.committed

theorem StorageCall.Raised.stored (h : s.Raised b b') (hb : Stored b r) : Stored b' r := by
  refine ⟨?_, by rw [h.durable]; exact hb.committed⟩
  rcases h.view with hv | ⟨-, part, -, -, hv⟩
  · rw [Backend.db, hv]
    exact hb.committed
  · rw [hv]
    exact List.mem_append_left _ hb.seen

theorem StorageCall.Returned.stored_row (h : s.Returned b b') (hr : r ∈ s.mappings) : Stored b' r := by
  have hseen : r ∈ b'.db.fieldMappings := by
    rw [h.mappings]
    exact List.mem_append_right _ hr
  refine ⟨hseen, ?_⟩
  rcases h.committed with hc | ⟨-, -, hnone⟩
  · rwa [hc]
  · rw [hnone] at hr
    cases hr

end Kept

/-! ## What a client has done -/

section Made
variable {α : Type} {calls : List (StorageCall P)} {b b' : Backend}

theorem runUnder_keeps {I : Backend → Prop} (hret : ∀ (s : StorageCall P) b b', s.Returned b b' → I b → I b')
    (hraise : ∀ (s : StorageCall P) b b', s.Raised b b' → I b → I b') (fss : List (List Bool))
    (p : Client P α) (hb : I b) : I (p.runUnder py fss b).2 := by
  refine Prog.drive_keeps (P := I) _ (fun fs s b _ hb => ?_) fss p.uses_true hb
  rcases perform_lineage py fs s b with ⟨r, b', h, hs⟩ | ⟨e, b', h, hs⟩
  · rw [h]
    exact hret s b b' hs hb
  · rw [h]
    exact hraise s b b' hs hb

/-- `drive_issues` for calls of the backend. -/
theorem runUnder_issues {post : α → Prop} {Rel : List (StorageCall P) → Backend → Prop}
    (hret : ∀ made s b b', made ++ [s] <+: calls → s.Returned b b' → Rel made b → Rel (made ++ [s]) b')
    {p : Client P α} (hp : p.Issues post calls) (fss : List (List Bool)) (hb : Rel [] b) :
    (∃ a, (p.runUnder py fss b).1 = some (.ok a) ∧ post a ∧ Rel calls (p.runUnder py fss b).2) ∨
      (∀ a, (p.runUnder py fss b).1 ≠ some (.ok a)) ∧ ∃ made b₁, made <+: calls ∧ Rel made b₁ ∧
        ((p.runUnder py fss b).2 = b₁ ∨
          ∃ s, made ++ [s] <+: calls ∧ s.Raised b₁ (p.runUnder py fss b).2) := by
  have hstep : ∀ fs s made b (r : StorageReply s) b', made ++ [s] <+: calls → Rel made b →
      s.perform py fs b = (.ok r, b') → Rel (made ++ [s]) b' := by
    intro fs s made b r b' hpre hrel h
    rcases perform_lineage py fs s b with ⟨r', b₂, h', hs⟩ | ⟨e, b₂, h', -⟩
    · rw [h] at h'
      cases h'
      exact hret made s b b' hpre hs hrel
    · rw [h] at h'
      cases h'
  rcases Prog.drive_issues hstep hp fss hb with h | ⟨hno, made, b₁, hpre, hrel, hend⟩
  · exact .inl h
  · refine .inr ⟨hno, made, b₁, hpre, hrel, hend.imp_right ?_⟩
    rintro ⟨fs, s, e, hnext, h⟩
    rcases perform_lineage py fs s b₁ with ⟨r, b₂, h', -⟩ | ⟨e', b₂, h', hs⟩
    · rw [h] at h'
      cases h'
    · rw [h] at h'
      cases h'
      exact ⟨s, hnext, hs⟩

/-- What calls that all returned have done. -/
structure Made (b : Backend) (calls : List (StorageCall P)) (b' : Backend) : Prop where
  graph : ∀ e, e ∈ b'.graph ↔ e ∈ b.graph ∨ ∃ s ∈ calls, s.edge = some e
  mappings : b'.db.fieldMappings = b.db.fieldMappings ++ calls.flatMap StorageCall.mappings
  stored : ∀ s ∈ calls, ∀ r ∈ s.mappings, Stored b' r
  encodable : ∀ s ∈ calls, ∀ r ∈ s.mappings, r.Encodable
  bound : ∀ s ∈ calls, s.Bound

theorem made_nil (b : Backend) : Made (P := P) b [] b := by
  constructor <;> simp

theorem Made.next {made : List (StorageCall P)} {s : StorageCall P} {b₁ b₂ : Backend}
    (h : Made b made b₁) (hs : s.Returned b₁ b₂) : Made b (made ++ [s]) b₂ where
  graph e := by
    simp only [List.mem_append, List.mem_singleton, or_and_right, exists_or, exists_eq_left]
    rw [← or_assoc, ← h.graph e, hs.graph]
    cases s.edge with
    | none => simp
    | some e' => simp only [Option.elim, mem_addEdge, Option.some.injEq, eq_comm]
  mappings := by
    rw [hs.mappings, h.mappings, List.append_assoc, List.flatMap_append, List.flatMap_singleton]
  stored s' hs' r hr := by
    rcases List.mem_append.1 hs' with hs' | hs'
    · exact hs.stored (h.stored s' hs' r hr)
    · rw [List.mem_singleton.1 hs'] at hr
      exact hs.stored_row hr
  encodable s' hs' := by
    rcases List.mem_append.1 hs' with hs' | hs'
    · exact h.encodable s' hs'
    · rw [List.mem_singleton.1 hs']
      exact hs.encodable
  bound s' hs' := by
    rcases List.mem_append.1 hs' with hs' | hs'
    · exact h.bound s' hs'
    · rw [List.mem_singleton.1 hs']
      exact hs.bound

end Made
end LineageVault
