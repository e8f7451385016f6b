import LineageVault.Foundations.Worklist
import LineageVault.Storage.SqliteBackend
import Mathlib.Data.List.Dedup

/-! # Datasets upstream and downstream

The answers come from the graph that the backend keeps in memory, the truth is the table
`dataset_edges`. networkx is a parameter: `NetworkX` says what its two functions return, and
`NetworkX.breadthFirst` is an instance.

`add_dataset_edge` does not roll back when it raises. A row that was inserted and not committed is
left in the open transaction; the next call that commits makes it durable, and the graph does not get
it. `Meets` is the condition under which this does no harm, and `graph_answers` that the answers are
right throughout exactly if every call meets it.
-/

namespace LineageVault
open Foundations
set_option autoImplicit false

/-- The edge joins the two datasets. -/
def Joined (g : List (Str × Str)) (s d : Str) : Prop := (s, d) ∈ g

/-- A path of one or more edges leads from one dataset to the other. -/
abbrev Leads (g : List (Str × Str)) : Str → Str → Prop := Relation.TransGen (Joined g)

/-- `nx.descendants` and `nx.ancestors` of a node. The sets are lists without repetition, in any
order. -/
structure NetworkX where
  descendants : List (Str × Str) → Str → List Str
  ancestors : List (Str × Str) → Str → List Str
  descendants_nodup : ∀ g s, (descendants g s).Nodup
  ancestors_nodup : ∀ g d, (ancestors g d).Nodup
  mem_descendants : ∀ g s d, d ∈ descendants g s ↔ d ≠ s ∧ Leads g s d
  mem_ancestors : ∀ g d s, s ∈ ancestors g d ↔ s ≠ d ∧ Leads g s d

/-- What a breadth-first search finds, without its start. -/
def reached (g : List (Str × Str)) (s : Str) : List Str :=
  match search (fun x => (.ok (targets g x) : Except PyErr (List Str))) (g.length + 2) [s] [] [] with
  | some (.ok out) => out.dedup.filter fun d => d ≠ s
  | _ => []

theorem mem_reached {g : List (Str × Str)} {s d : Str} : d ∈ reached g s ↔ d ≠ s ∧ Leads g s d := by
  let next : Str → Except PyErr (List Str) := fun x => .ok (targets g x)
  have hnext : ∀ x, True → next x = .ok (targets g x) := fun _ _ => rfl
  obtain ⟨out, hout⟩ := search_returns (fun _ => True) (fun _ _ => trivial) hnext (s := s) trivial
  have hmem := mem_search (r := Joined g) (fun x ys hys y => by cases hys; exact mem_targets) hout d
  rw [reached, hout]
  simp only [List.mem_filter, List.mem_dedup, decide_eq_true_eq, hmem]
  exact and_comm

theorem reached_nodup (g : List (Str × Str)) (s : Str) : (reached g s).Nodup := by
  unfold reached
  split
  · exact (List.nodup_dedup _).filter _
  · exact .nil

theorem leads_swap {g : List (Str × Str)} {s d : Str} : Leads (g.map Prod.swap) d s ↔ Leads g s d := by
  have hswap : Joined (g.map Prod.swap) = Function.swap (Joined g) := by
    funext x y
    simp [Joined, Function.swap]
  rw [Leads, hswap]
  exact Relation.transGen_swap

def NetworkX.breadthFirst : NetworkX where
  descendants := reached
  ancestors g d := reached (g.map Prod.swap) d
  descendants_nodup := reached_nodup
  ancestors_nodup _ d := reached_nodup _ d
  mem_descendants _ _ _ := mem_reached
  mem_ancestors _ _ _ := mem_reached.trans (and_congr_right' leads_swap)

/-- `dataset_id in self._graph` -/
def hasNode (g : List (Str × Str)) (x : Str) : Bool := g.any fun e => e.1 = x || e.2 = x

/-- The edges of the table, as the graph has them. -/
def tableEdges (db : Db) : List (Str × Str) := db.datasetEdges.map fun r => (r.src, r.dst)

/-- `upstream_datasets` and `downstream_datasets`, of the graph alone. -/
def NetworkX.upstream (nx : NetworkX) (g : List (Str × Str)) (d : Str) : List Str :=
  if hasNode g d then sorted (nx.ancestors g d) else []

def NetworkX.downstream (nx : NetworkX) (g : List (Str × Str)) (s : Str) : List Str :=
  if hasNode g s then sorted (nx.descendants g s) else []

namespace Backend
variable (nx : NetworkX) (b : Backend)

def upstreamDatasets (d : Str) : List Str := nx.upstream b.graph d

def downstreamDatasets (s : Str) : List Str := nx.downstream b.graph s

end Backend

/-! ## Graphs -/

theorem mem_addEdge {e e' : Str × Str} {g : List (Str × Str)} : e' ∈ addEdge e g ↔ e' ∈ g ∨ e' = e := by
  unfold addEdge
  split
  · next he => exact ⟨.inl, fun h => h.elim id fun hee => hee ▸ he⟩
  · simp

theorem mem_loadGraph {db : Db} {e : Str × Str} : e ∈ Backend.loadGraph db ↔ e ∈ tableEdges db := by
  have hfold : ∀ (rows : List EdgeRow) (g : List (Str × Str)),
      e ∈ rows.foldl (fun g r => addEdge (r.src, r.dst) g) g ↔
        e ∈ g ∨ e ∈ rows.map fun r => (r.src, r.dst) := by
    intro rows
    induction rows with
    | nil => intro g; simp
    | cons r rows ih =>
      intro g
      rw [List.foldl_cons, ih, mem_addEdge, List.map_cons, List.mem_cons, or_assoc]
  exact (hfold db.datasetEdges []).trans (or_iff_right List.not_mem_nil)

theorem leads_mono {g g' : List (Str × Str)} (h : ∀ e ∈ g, e ∈ g') {s d : Str} (hsd : Leads g s d) :
    Leads g' s d :=
  Relation.TransGen.mono (fun _ _ => h _) s d hsd

theorem leads_congr {g g' : List (Str × Str)} (h : ∀ e, e ∈ g ↔ e ∈ g') {s d : Str} :
    Leads g s d ↔ Leads g' s d :=
  ⟨leads_mono fun e => (h e).1, leads_mono fun e => (h e).2⟩

theorem hasNode_of_leads {g : List (Str × Str)} {s d : Str} (h : Leads g s d) :
    hasNode g s = true ∧ hasNode g d = true := by
  simp only [hasNode, List.any_eq_true, Bool.or_eq_true, decide_eq_true_eq]
  constructor
  · obtain ⟨x, hx, -⟩ := Relation.TransGen.head'_iff.1 h
    exact ⟨(s, x), hx, .inl rfl⟩
  · obtain ⟨x, -, hx⟩ := Relation.TransGen.tail'_iff.1 h
    exact ⟨(x, d), hx, .inr rfl⟩

/-! ## Answers -/

section Answers
variable (nx : NetworkX)

theorem downstream_isSorted (g : List (Str × Str)) (s : Str) :
    IsSorted (fun d => d ≠ s ∧ Leads g s d) (nx.downstream g s) := by
  unfold NetworkX.downstream
  split
  · exact isSorted_sorted (nx.descendants_nodup g s) (nx.mem_descendants g s)
  · next hno => exact ⟨.nil, .nil, by simpa using fun d _ h => hno (hasNode_of_leads h).1⟩

theorem upstream_isSorted (g : List (Str × Str)) (d : Str) :
    IsSorted (fun s => s ≠ d ∧ Leads g s d) (nx.upstream g d) := by
  unfold NetworkX.upstream
  split
  · exact isSorted_sorted (nx.ancestors_nodup g d) (nx.mem_ancestors g d)
  · next hno => exact ⟨.nil, .nil, by simpa using fun s _ h => hno (hasNode_of_leads h).2⟩

theorem IsSorted.congr {members members' : Str → Prop} {xs : List Str} (h : IsSorted members xs)
    (hm : ∀ x, members x ↔ members' x) : IsSorted members' xs :=
  ⟨h.ordered, h.distinct, fun x => (h.mem x).trans (hm x)⟩

/-- Graphs with the same paths give the same answers. -/
theorem answers_congr {g g' : List (Str × Str)} (h : ∀ s d, s ≠ d → (Leads g s d ↔ Leads g' s d)) (x : Str) :
    nx.downstream g x = nx.downstream g' x ∧ nx.upstream g x = nx.upstream g' x := by
  constructor
  · refine (downstream_isSorted nx g x).unique ((downstream_isSorted nx g' x).congr fun d => ?_)
    exact and_congr_right fun hne => (h x d hne.symm).symm
  · refine (upstream_isSorted nx g x).unique ((upstream_isSorted nx g' x).congr fun s => ?_)
    exact and_congr_right fun hne => (h s x hne).symm

variable (b : Backend)

/-- The answers are what the durable table says. -/
structure AnswersTable : Prop where
  downstream : ∀ s,
    IsSorted (fun d => d ≠ s ∧ Leads (tableEdges b.session.durable.1) s d) (b.downstreamDatasets nx s)
  upstream : ∀ d,
    IsSorted (fun s => s ≠ d ∧ Leads (tableEdges b.session.durable.1) s d) (b.upstreamDatasets nx d)
  converse : ∀ s d, d ∈ b.downstreamDatasets nx s ↔ s ∈ b.upstreamDatasets nx d

theorem answersTable_iff : AnswersTable nx b ↔
    ∀ s d, s ≠ d → (Leads b.graph s d ↔ Leads (tableEdges b.session.durable.1) s d) := by
  constructor
  · intro h s d hne
    have hd := ((downstream_isSorted nx b.graph s).mem d).symm.trans ((h.downstream s).mem d)
    exact ⟨fun hl => (hd.1 ⟨hne.symm, hl⟩).2, fun hl => (hd.2 ⟨hne.symm, hl⟩).2⟩
  · intro h
    refine ⟨fun s => ?_, fun d => ?_, fun s d => ?_⟩
    · exact (downstream_isSorted nx b.graph s).congr fun d => and_congr_right fun hne => h s d hne.symm
    · exact (upstream_isSorted nx b.graph d).congr fun s => and_congr_right fun hne => h s d hne
    · have hd := (downstream_isSorted nx b.graph s).mem d
      rw [ne_comm] at hd
      exact hd.trans ((upstream_isSorted nx b.graph d).mem s).symm

/-- A backend that was just opened answers from its table. -/
theorem answersTable_opened (v : Store) : AnswersTable nx (Backend.opened v) :=
  (answersTable_iff nx _).2 fun _ _ _ => leads_congr fun _ => mem_loadGraph

end Answers

/-! ## Histories of edges -/

/-- The arguments of `add_dataset_edge`. -/
structure EdgeArgs (P : Type) where
  src : Str
  dst : Str
  transformId : Str
  eventTime : Str
  schemaVersion : ℤ
  payload : P

inductive EdgeStep (P : Type) where
  | add (fs : List Bool) (args : EdgeArgs P)
  | reopen

variable {P : Type} (py : PyLib P)

def EdgeArgs.edge (a : EdgeArgs P) : Str × Str := (a.src, a.dst)

def Backend.addEdgeArgs (fs : List Bool) (a : EdgeArgs P) (b : Backend) : Except PyErr Unit × Backend :=
  b.addDatasetEdge py fs a.src a.dst a.transformId a.eventTime a.schemaVersion a.payload

def EdgeStep.perform (b : Backend) : EdgeStep P → Backend
  | .add fs a => (b.addEdgeArgs py fs a).2
  | .reopen => b.reopen

def edgeHistory (steps : List (EdgeStep P)) (b : Backend) : Backend :=
  steps.foldl (EdgeStep.perform py) b

/-- The call gets as far as its commit, and the commit goes through. -/
def EdgeArgs.commits (fs : List Bool) (a : EdgeArgs P) : Prop :=
  ∃ t, py.dumps false a.payload = .ok t ∧
    bindable [a.src, a.dst, a.transformId, a.eventTime, t] = true ∧ fitsInteger a.schemaVersion = true ∧
    fs.headD false = false ∧ fs.tail.headD false = false

/-- A call that commits finds that each row the connection sees, uncommitted ones included, joins
datasets that the graph will join too. -/
def Meets (b : Backend) : EdgeStep P → Prop
  | .add fs a => a.commits py fs →
    ∀ r ∈ b.db.datasetEdges, r.src = r.dst ∨ Leads (addEdge a.edge b.graph) r.src r.dst
  | .reopen => True

variable {py}

/-- The connection sees the committed edges. -/
def SeesCommitted (b : Backend) : Prop :=
  ∀ r ∈ b.session.durable.1.datasetEdges, r ∈ b.db.datasetEdges

theorem exec_insertEdge {src dst transformId eventTime payload : Str} {schemaVersion : ℤ} (v : Store)
    (hb : bindable [src, dst, transformId, eventTime, payload] = true)
    (hf : fitsInteger schemaVersion = true) :
    exec (.insertEdge src dst transformId eventTime schemaVersion payload) v =
      .ok ((), { v.1 with datasetEdges := v.1.datasetEdges ++
        [⟨src, dst, transformId, eventTime, schemaVersion, payload⟩] }, v.2) := by
  simp only [exec, effect, hb, hf]
  rfl

/-- A call commits its row and everything left open before it, or raises and leaves the durable
tables and the graph as they were. -/
theorem addEdgeArgs_cases (py : PyLib P) (fs : List Bool) (a : EdgeArgs P) (b : Backend) :
    (a.commits py fs ∧ ∃ w, b.addEdgeArgs py fs a = (.ok (), ⟨⟨w, w⟩, addEdge a.edge b.graph⟩) ∧
      tableEdges w.1 = tableEdges b.db ++ [a.edge] ∧ w.1.fieldMappings = b.db.fieldMappings) ∨
    (¬ a.commits py fs ∧ ∃ e b', b.addEdgeArgs py fs a = (.error e, b') ∧
      b'.session.durable = b.session.durable ∧ b'.graph = b.graph ∧
      (∀ r ∈ b.db.datasetEdges, r ∈ b'.db.datasetEdges) ∧
      b'.db.fieldMappings = b.db.fieldMappings) := by
  cases hp : py.dumps false a.payload with
  | error e =>
    refine .inr ⟨?_, e, b, ?_, rfl, rfl, fun r hr => hr, rfl⟩
    · rintro ⟨t, ht, -⟩
      rw [hp] at ht
      cases ht
    · simp only [Backend.addEdgeArgs, Backend.addDatasetEdge, Backend.unguarded, addDatasetEdgeBody, hp]
      rfl
  | ok t =>
    have hbody : addDatasetEdgeBody py a.src a.dst a.transformId a.eventTime a.schemaVersion a.payload =
        .stmt (.insertEdge a.src a.dst a.transformId a.eventTime a.schemaVersion t) .ret := by
      simp only [addDatasetEdgeBody, hp]
      rfl
    simp only [Backend.addEdgeArgs, Backend.addDatasetEdge, Backend.unguarded, Session.unguarded, hbody,
      Prog.run]
    cases hf : fs.headD false with
    | true =>
      refine .inr ⟨?_, .operationalError, b, rfl, rfl, rfl, fun r hr => hr, rfl⟩
      rintro ⟨_, -, -, -, h, -⟩
      rw [hf] at h
      cases h
    | false =>
      cases hs : exec (.insertEdge a.src a.dst a.transformId a.eventTime a.schemaVersion t)
          b.session.view with
      | error e =>
        refine .inr ⟨?_, e, b, rfl, rfl, rfl, fun r hr => hr, rfl⟩
        rintro ⟨t', ht, hb, hv, -⟩
        rw [hp] at ht
        cases ht
        rw [exec_insertEdge _ hb hv] at hs
        cases hs
      | ok x =>
        obtain ⟨u, w⟩ := x
        obtain ⟨hb, hv, hw⟩ := insertEdge_ok hs
        cases hc : fs.tail.headD false with
        | true =>
          refine .inr ⟨?_, .operationalError, { b with session := ⟨b.session.durable, w⟩ }, ?_, rfl, rfl, ?_, ?_⟩
          · rintro ⟨_, -, -, -, -, h⟩
            rw [hc] at h
            cases h
          · simp only [hc, if_true]
          · simp only [Backend.db, hw]
            exact fun r hr => List.mem_append_left _ hr
          · simp only [Backend.db, hw]
        | false =>
          refine .inl ⟨⟨t, hp, hb, hv, hf, hc⟩, w, ?_, ?_, ?_⟩
          · simp only [hc, Bool.false_eq_true, if_false, EdgeArgs.edge]
          · simp [hw, tableEdges, EdgeArgs.edge]
          · simp only [hw]

theorem seesCommitted_step (step : EdgeStep P) {b : Backend} (hb : SeesCommitted b) :
    SeesCommitted (step.perform py b) := by
  cases step with
  | reopen => exact fun r hr => hr
  | add fs a =>
    rcases addEdgeArgs_cases py fs a b with ⟨-, w, h, -⟩ | ⟨-, e, b', h, hd, -, hr, -⟩
    · simp only [EdgeStep.perform, h]
      exact fun r hr => hr
    · simp only [EdgeStep.perform, h]
      intro r hrd
      rw [hd] at hrd
      exact hr r (hb r hrd)

theorem joined_concat {g : List (Str × Str)} {e : Str × Str} {s d : Str} :
    Joined (g ++ [e]) s d ↔ Joined g s d ∨ (s, d) = e := by
  simp [Joined]

/-- What the graph leads to after a call, the table does. -/
theorem leads_table {b : Backend} (hsees : SeesCommitted b)
    (hb : ∀ s d, s ≠ d → (Leads b.graph s d ↔ Leads (tableEdges b.session.durable.1) s d))
    {e : Str × Str} {s d : Str} (hne : s ≠ d) (h : Leads (addEdge e b.graph) s d) :
    Leads (tableEdges b.db ++ [e]) s d := by
  refine transGen_of_joined (fun x y hxy => ?_) hne h
  rcases mem_addEdge.1 hxy with hold | hnew
  · by_cases hxye : x = y
    · exact .inl hxye
    · refine .inr (leads_mono (fun e he => ?_) ((hb x y hxye).1 (.single hold)))
      obtain ⟨r, hr, rfl⟩ := List.mem_map.1 he
      exact List.mem_append_left _ (List.mem_map.2 ⟨r, hsees r hr, rfl⟩)
  · exact .inr (.single (joined_concat.2 (.inr hnew)))

/-- What the table leads to after a call, the graph does, if it covers the rows. -/
theorem leads_graph {b : Backend} {e : Str × Str}
    (hrows : ∀ r ∈ b.db.datasetEdges, r.src = r.dst ∨ Leads (addEdge e b.graph) r.src r.dst)
    {s d : Str} (hne : s ≠ d) (h : Leads (tableEdges b.db ++ [e]) s d) : Leads (addEdge e b.graph) s d := by
  refine transGen_of_joined (fun x y hxy => ?_) hne h
  rcases joined_concat.1 hxy with hold | hnew
  · obtain ⟨r, hr, he⟩ := List.mem_map.1 hold
    cases he
    exact hrows r hr
  · exact .inr (.single (mem_addEdge.2 (.inr hnew)))

/-- One call keeps the answers right exactly if it meets the condition. -/
theorem answersTable_step (py : PyLib P) (nx : NetworkX) (step : EdgeStep P) {b : Backend} (hsees : SeesCommitted b)
    (hb : AnswersTable nx b) : AnswersTable nx (step.perform py b) ↔ Meets py b step := by
  cases step with
  | reopen => exact iff_of_true (answersTable_opened nx _) trivial
  | add fs a =>
    rcases addEdgeArgs_cases py fs a b with ⟨hc, w, h, hw, -⟩ | ⟨hc, e, b', h, hd, hg, -⟩
    · simp only [EdgeStep.perform, h, Meets, hc, true_imp_iff]
      rw [answersTable_iff] at hb ⊢
      dsimp only
      rw [hw]
      constructor
      · -- a row the connection sees is an edge of the new table
        intro hnew r hr
        by_cases hne : r.src = r.dst
        · exact .inl hne
        · refine .inr ((hnew _ _ hne).2 (.single (joined_concat.2 (.inl ?_))))
          exact List.mem_map.2 ⟨r, hr, rfl⟩
      · exact fun hmeets s d hne => ⟨leads_table hsees hb hne, leads_graph hmeets hne⟩
    · have hsame : AnswersTable nx b' ↔ AnswersTable nx b := by
        rw [answersTable_iff, answersTable_iff, hg, hd]
      simp only [EdgeStep.perform, h, Meets, hc, false_imp_iff]
      exact iff_of_true (hsame.2 hb) trivial

theorem answers_iff_meets (nx : NetworkX) (steps : List (EdgeStep P)) {b : Backend}
    (hsees : SeesCommitted b) (hb : AnswersTable nx b) :
    (∀ n, AnswersTable nx (edgeHistory py (steps.take n) b)) ↔
      ∀ n step, steps[n]? = some step → Meets py (edgeHistory py (steps.take n) b) step := by
  induction steps generalizing b with
  | nil => simpa [edgeHistory] using hb
  | cons step steps ih =>
    have hstep := answersTable_step py nx step hsees hb
    constructor
    · intro hall n next hn
      have hfirst : AnswersTable nx (step.perform py b) := hall 1
      cases n with
      | zero =>
        cases hn
        exact hstep.1 hfirst
      | succ n =>
        refine (ih (seesCommitted_step step hsees) hfirst).1 (fun m => ?_) n next (by simpa using hn)
        exact hall (m + 1)
    · intro hall n
      cases n with
      | zero => exact hb
      | succ n =>
        have hfirst := hstep.2 (hall 0 step rfl)
        refine (ih (seesCommitted_step step hsees) hfirst).2 (fun m next hm => ?_) n
        exact hall (m + 1) next (by simpa using hm)

/-- **The graph answers what the durable table says, exactly while no call commits a row that the
graph lacks.** For every file that was opened and every history of `add_dataset_edge` calls, with any
arguments and any failures, and of reopenings: at every point the answers, then and after closing and
reopening, are the sorted lists of the datasets that the committed rows lead to and from, if and only
if each call met the condition. -/
theorem graph_answers (nx : NetworkX) (py : PyLib P) (v : Store) (steps : List (EdgeStep P)) :
    (∀ n, AnswersTable nx (edgeHistory py (steps.take n) (.opened v)) ∧
      AnswersTable nx (edgeHistory py (steps.take n) (.opened v)).reopen) ↔
      ∀ n step, steps[n]? = some step → Meets py (edgeHistory py (steps.take n) (.opened v)) step := by
  rw [← answers_iff_meets nx steps (fun r hr => hr) (answersTable_opened nx v)]
  exact forall_congr' fun n => and_iff_left (answersTable_opened nx _)

/-- An edge whose commit raised, and one after it. -/
def leftOpen : List (EdgeStep Json) :=
  [.add [false, true] ⟨lit "a", lit "b", lit "t", lit "now", 1, .null⟩,
    .add [] ⟨lit "c", lit "d", lit "t", lit "now", 1, .null⟩]

/-- **The second call commits the first edge too, and the graph has only its own.** -/
theorem graph_lacks_edge :
    let b := edgeHistory PyLib.fixed leftOpen .empty
    tableEdges b.session.durable.1 = [(lit "a", lit "b"), (lit "c", lit "d")] ∧
      b.downstreamDatasets .breadthFirst (lit "a") = [] ∧
      b.reopen.downstreamDatasets .breadthFirst (lit "a") = [lit "b"] ∧
      ¬ AnswersTable .breadthFirst b := by
  refine ⟨by decide, by decide, by decide, fun h => ?_⟩
  have hedge : Leads (tableEdges (edgeHistory PyLib.fixed leftOpen .empty).session.durable.1) (lit "a")
      (lit "b") := .single (by decide : (lit "a", lit "b") ∈ _)
  exact absurd (((h.downstream (lit "a")).mem (lit "b")).2 ⟨by decide, hedge⟩) (by decide)

end LineageVault
