import LineageVault.OpenLineage.Facets

/-! # Datasets and their qualified names

A dataset is a namespace and a name. The graph has qualified names, `f"{namespace}.{name}"`, and
namespaces and names may have dots of their own, so two datasets can have one qualified name and are
one node there.

After batches that all returned, the edges of the graph are the images of those that the COMPLETE events
say (`mem_graph`). So where no two datasets of a history have one qualified name, the datasets downstream
are those of the history (`downstream_iff`).
-/

namespace LineageVault
open Foundations
set_option autoImplicit false

/-! ## Flows -/

/-- A namespace and a name. -/
abbrev Dataset : Type := Str × Str

def DatasetRef.dataset (d : DatasetRef) : Dataset := (d.ns, d.name)

/-- `qualified_name` -/
def qualified (x : Dataset) : Str := x.1 ++ lit "." ++ x.2

/-- The inputs of an event, each with each output. -/
def RunEvent.flows (event : RunEvent) : List (Dataset × Dataset) :=
  event.outs.flatMap fun outDs => event.ins.map fun inDs => (inDs.dataset, outDs.dataset)

def flows (history : List RunEvent) : List (Dataset × Dataset) := history.flatMap RunEvent.flows

/-- One dataset is an input and the other an output of one of the events. -/
def Flows (history : List RunEvent) (x y : Dataset) : Prop := (x, y) ∈ flows history

instance (history : List RunEvent) (x y : Dataset) : Decidable (Flows history x y) :=
  inferInstanceAs (Decidable ((x, y) ∈ flows history))

/-- The datasets of the events. -/
def datasets (history : List RunEvent) : List Dataset :=
  history.flatMap fun event => (event.ins ++ event.outs).map DatasetRef.dataset

/-- The COMPLETE events of a batch that were no duplicates. -/
def completed (events : List RunEvent) (out : List IngestResult) : List RunEvent :=
  (events.zip out).filterMap fun x =>
    if x.2.duplicate = false ∧ x.1.eventType = .complete then some x.1 else none

variable {R : Rendering} {py : PyLib Json}

variable (R py) in
/-- Batches that all returned, from an empty store, and their new COMPLETE events. -/
inductive BatchRun : List RunEvent → Backend → Prop where
  | empty : BatchRun [] .empty
  | batch {history : List RunEvent} {b b' : Backend} (now : ClockText) (ids : ℕ → Str)
      (events : List RunEvent) (idempotencyKeys : Option (List (Option Str))) (fss : List (List Bool))
      (out : List IngestResult) (before : BatchRun history b)
      (h : (ingestBatch R now ids events idempotencyKeys).runUnder py fss b = (some (.ok out), b')) :
      BatchRun (history ++ completed events out) b'

section Flows
variable {history history' : List RunEvent} {event : RunEvent} {x y : Dataset}

theorem mem_flows : (x, y) ∈ event.flows ↔
    (∃ inDs ∈ event.ins, inDs.dataset = x) ∧ ∃ outDs ∈ event.outs, outDs.dataset = y := by
  simp only [RunEvent.flows, List.mem_flatMap, List.mem_map, Prod.mk.injEq]
  constructor
  · rintro ⟨outDs, ho, inDs, hi, rfl, rfl⟩
    exact ⟨⟨inDs, hi, rfl⟩, outDs, ho, rfl⟩
  · rintro ⟨⟨inDs, hi, rfl⟩, outDs, ho, rfl⟩
    exact ⟨outDs, ho, inDs, hi, rfl, rfl⟩

theorem flows_append : Flows (history ++ history') x y ↔ Flows history x y ∨ Flows history' x y := by
  simp only [Flows, flows, List.flatMap_append, List.mem_append]

theorem mem_datasets (h : Flows history x y) : x ∈ datasets history ∧ y ∈ datasets history := by
  obtain ⟨event, hevent, hxy⟩ := List.mem_flatMap.1 h
  obtain ⟨⟨inDs, hi, rfl⟩, outDs, ho, rfl⟩ := mem_flows.1 hxy
  have hall : ∀ d ∈ event.ins ++ event.outs, d.dataset ∈ datasets history :=
    fun d hd => List.mem_flatMap.2 ⟨event, hevent, List.mem_map_of_mem hd⟩
  exact ⟨hall _ (List.mem_append_left _ hi), hall _ (List.mem_append_right _ ho)⟩

end Flows

/-! ## The graph -/

section Graph
variable {history : List RunEvent} {event : RunEvent} {b : Backend} {e : Str × Str}

/-- The edges that an event makes. -/
theorem edge_calls : (∃ s ∈ event.calls R, s.edge = some e) ↔
    event.eventType = .complete ∧ ∃ f ∈ event.flows, (qualified f.1, qualified f.2) = e := by
  constructor
  · rintro ⟨s, hs, he⟩
    rcases mem_calls hs with rfl | ⟨hc, -, -, ⟨outDs, ho, inDs, hi, hs⟩ | ⟨m, -, rfl⟩⟩
    · cases he
    · rcases List.mem_cons.1 hs with rfl | hs
      · cases he
        exact ⟨hc, (inDs.dataset, outDs.dataset), mem_flows.2 ⟨⟨inDs, hi, rfl⟩, outDs, ho, rfl⟩, rfl⟩
      · split at hs
        · cases hs
        · rw [List.mem_singleton.1 hs] at he
          cases he
    · cases he
  · rintro ⟨hc, ⟨x, y⟩, hf, rfl⟩
    obtain ⟨⟨inDs, hi, rfl⟩, outDs, ho, rfl⟩ := mem_flows.1 hf
    have hpairs := (calls_complete (R := R) hc (List.ne_nil_of_mem hi) (List.ne_nil_of_mem ho)).1
    exact ⟨event.edgeCall R outDs inDs, hpairs outDs ho inDs hi _ List.mem_cons_self, rfl⟩

/-- The edges that a batch makes. -/
theorem edge_recordedCalls {events : List RunEvent} {results : List AcknowledgedWrite} :
    (∃ s ∈ recordedCalls R events results, s.edge = some e) ↔
      ∃ f ∈ flows (completed events (List.zipWith (ingestResult R) events results)),
        (qualified f.1, qualified f.2) = e := by
  have hnew : ∀ event, event ∈ completed events (List.zipWith (ingestResult R) events results) ↔
      ∃ result, (event, result) ∈ events.zip results ∧ result.duplicate = false ∧
        event.eventType = .complete := by
    intro event
    rw [completed, zip_results, List.filterMap_map, List.mem_filterMap]
    constructor
    · rintro ⟨⟨event', result⟩, hx, hif⟩
      obtain ⟨hcond, rfl⟩ := Option.ite_some_none_eq_some.1 hif
      exact ⟨result, hx, hcond⟩
    · rintro ⟨result, hx, hcond⟩
      exact ⟨(event, result), hx, Option.ite_some_none_eq_some.2 ⟨hcond, rfl⟩⟩
  constructor
  · rintro ⟨s, hs, he⟩
    obtain ⟨⟨event, result⟩, hx, hs⟩ := List.mem_flatMap.1 hs
    split at hs
    · cases hs
    · next hdup =>
      obtain ⟨hc, f, hf, he⟩ := edge_calls.1 ⟨s, hs, he⟩
      have hevent := (hnew event).2 ⟨result, hx, by simpa using hdup, hc⟩
      exact ⟨f, List.mem_flatMap.2 ⟨event, hevent, hf⟩, he⟩
  · rintro ⟨f, hf, he⟩
    obtain ⟨event, hevent, hf⟩ := List.mem_flatMap.1 hf
    obtain ⟨result, hx, hdup, hc⟩ := (hnew event).1 hevent
    obtain ⟨s, hs, he⟩ := edge_calls.2 ⟨hc, f, hf, he⟩
    refine ⟨s, List.mem_flatMap.2 ⟨_, hx, ?_⟩, he⟩
    rw [if_neg (by simp [hdup])]
    exact hs

/-- **The edges of the graph are those of the history**, by their qualified names. -/
theorem mem_graph (h : BatchRun R py history b) :
    e ∈ b.graph ↔ Relation.Map (Flows history) qualified qualified e.1 e.2 := by
  have hmap : ∀ history', (∃ f ∈ flows history', (qualified f.1, qualified f.2) = e) ↔
      Relation.Map (Flows history') qualified qualified e.1 e.2 := by
    intro history'
    simp only [Prod.exists, Prod.ext_iff, Relation.Map, Flows]
  induction h with
  | empty => exact ⟨fun h => (List.not_mem_nil h).elim, fun ⟨x, y, h, _⟩ => (List.not_mem_nil h).elim⟩
  | batch now ids events keys fss out before h ih =>
    obtain ⟨results, rfl, -, hmade⟩ := ingestBatch_made (congrArg Prod.fst h)
    rw [h] at hmade
    refine ((hmade.graph e).trans (or_congr ih (edge_recordedCalls.trans (hmap _)))).trans ?_
    simp only [Relation.Map, flows_append, or_and_right, exists_or]

end Graph

/-! ## Datasets downstream -/

section Downstream
variable {history : List RunEvent} {b : Backend} {x y : Dataset}

/-- **The datasets downstream are those that the history leads to**, if no two of its datasets have one
qualified name. -/
theorem downstream_iff (nx : NetworkX) (h : BatchRun R py history b) (hne : x ≠ y)
    (hinj : Set.InjOn qualified {z | z = x ∨ z = y ∨ z ∈ datasets history}) :
    qualified y ∈ b.downstreamDatasets nx (qualified x) ↔ Relation.TransGen (Flows history) x y := by
  have hjoined : Joined b.graph = Relation.Map (Flows history) qualified qualified := by
    funext s d
    exact propext (mem_graph h)
  have hnames : qualified y ≠ qualified x := fun heq => hne (hinj (.inl rfl) (.inr (.inl rfl)) heq.symm)
  rw [Backend.downstreamDatasets, (downstream_isSorted nx b.graph (qualified x)).mem, Leads, hjoined,
    and_iff_right hnames]
  constructor
  · refine transGen_of_map hinj (fun x y hxy => ?_) (.inl rfl) (.inr (.inl rfl))
    obtain ⟨hx, hy⟩ := mem_datasets hxy
    exact ⟨.inr (.inr hx), .inr (.inr hy)⟩
  · exact Relation.TransGen.lift qualified (fun x y hxy => ⟨x, y, hxy, rfl, rfl⟩) x y

/-- What a batch leaves in an empty store, without a failure. -/
def ingestedBatch (events : List RunEvent) : Backend :=
  ((ingestBatch .fixed .fixed natText events none).runUnder PyLib.fixed (List.replicate 9 []) .empty).2

theorem batchRun_ingested (events : List RunEvent) (out : List IngestResult)
    (h : ((ingestBatch .fixed .fixed natText events none).runUnder PyLib.fixed (List.replicate 9 [])
      .empty).1 = some (.ok out)) :
    BatchRun .fixed PyLib.fixed (completed events out) (ingestedBatch events) :=
  .batch .fixed natText events none (List.replicate 9 []) out .empty (Prod.ext h rfl)

/-- From `db.a` to `db.b`, and from there to `db.c`. -/
def twoCopies : List RunEvent :=
  [copyOf (lit "r"), { copyOf (lit "q") with inputs := [table (lit "b")], outputs := [table (lit "c")] }]

theorem downstream_iff_copies :
    qualified (lit "db", lit "c") ∈ (ingestedBatch twoCopies).downstreamDatasets .breadthFirst (lit "db.a") := by
  have hrun := batchRun_ingested twoCopies [⟨natText 0, false, true, lit "r", lit "COMPLETE"⟩,
    ⟨natText 1, false, true, lit "q", lit "COMPLETE"⟩] (by decide +kernel)
  have hpath : Relation.TransGen (Flows twoCopies) (lit "db", lit "a") (lit "db", lit "c") :=
    .tail (b := (lit "db", lit "b")) (.single (by decide)) (by decide)
  refine (downstream_iff (x := (lit "db", lit "a")) .breadthFirst hrun (by decide) ?_).2 hpath
  have hinj : ∀ z ∈ datasets twoCopies, ∀ z' ∈ datasets twoCopies,
      qualified z = qualified z' → z = z' := by
    decide
  have hmem : ∀ z, z = (lit "db", lit "a") ∨ z = (lit "db", lit "c") ∨ z ∈ datasets twoCopies →
      z ∈ datasets twoCopies := by
    rintro z (rfl | rfl | hz)
    · decide
    · decide
    · exact hz
  exact fun z hz z' hz' => hinj z (hmem z hz) z' (hmem z' hz')

/-! ### Two datasets of one name -/

def tableIn (ns name : Str) : Dict := [(lit "namespace", .str ns), (lit "name", .str name)]

/-- `c` of `a.b` is written, and `b.c` of `a` is read. -/
def dotted : List RunEvent :=
  [{ copyOf (lit "r") with inputs := [table (lit "s")], outputs := [tableIn (lit "a.b") (lit "c")] },
    { copyOf (lit "q") with inputs := [tableIn (lit "a") (lit "b.c")], outputs := [table (lit "t")] }]

/-- **Where qualified names coincide, a dataset is downstream of one that does not lead to it.** -/
theorem downstream_spliced :
    BatchRun .fixed PyLib.fixed dotted (ingestedBatch dotted) ∧
      ((lit "db", lit "s") : Dataset) ≠ (lit "db", lit "t") ∧
      qualified (lit "db", lit "t") ∈
        (ingestedBatch dotted).downstreamDatasets .breadthFirst (qualified (lit "db", lit "s")) ∧
      ¬ Relation.TransGen (Flows dotted) (lit "db", lit "s") (lit "db", lit "t") := by
  have hrun := batchRun_ingested dotted [⟨natText 0, false, true, lit "r", lit "COMPLETE"⟩,
    ⟨natText 1, false, true, lit "q", lit "COMPLETE"⟩] (by decide +kernel)
  refine ⟨hrun, by decide, by decide +kernel, fun h => ?_⟩
  have hfirst : ∀ f ∈ flows dotted, f.1 = (lit "db", lit "s") → f.2 = (lit "a.b", lit "c") := by decide
  have hlast : ∀ f ∈ flows dotted, f.1 ≠ (lit "a.b", lit "c") := by decide
  have honly : ∀ z, Relation.TransGen (Flows dotted) (lit "db", lit "s") z → z = (lit "a.b", lit "c") := by
    intro z hz
    induction hz with
    | single hf => exact hfirst _ hf rfl
    | tail _ hf ih => exact (hlast _ hf ih).elim
  exact absurd (honly _ h) (by decide)

end Downstream
end LineageVault
