import LineageVault.Storage.Graph

/-! # Instances that share one database

Any number of `PostgresStorageBackend`s open on one database. An instance reads the edges once, when
it is opened, and from then on adds the edges of its own calls to its graph; all its answers come from
this graph. A call of `add_dataset_edge` inserts its row, commits it and then puts its edge into the
graph of its instance, and steps of other calls and instances come in between.

So an instance misses what the others commit after it was opened. `Deployment.Meets` is the condition
under which it misses nothing, and `deployment_agrees` that the instances agree whenever no call is in
progress, in every run whose commits meet it.
-/

namespace LineageVault
open Foundations
set_option autoImplicit false

inductive Instance where
  | closed
  /-- in `_load_graph_cache`, with the rows its SELECT returned -/
  | opening (seen : Db)
  | ready (graph : List (Str × Str))

/-- A call of `add_dataset_edge` past its INSERT. -/
structure EdgeCall where
  owner : ℕ
  row : EdgeRow
  committed : Bool

def EdgeRow.edge (r : EdgeRow) : Str × Str := (r.src, r.dst)

/-- The committed tables, the instances, and the call each thread has in progress. -/
structure Deployment where
  db : Db
  instances : ℕ → Instance
  calls : ℕ → Option EdgeCall

inductive DeploymentStep where
  /-- a new instance selects the edges -/
  | select (i : ℕ)
  | load (i : ℕ)
  | insert (thread i : ℕ) (row : EdgeRow)
  | commit (thread : ℕ)
  /-- the INSERT or the commit raises, and the connection is rolled back -/
  | abort (thread : ℕ)
  /-- `self._graph.add_edge`, and the call returns -/
  | cache (thread : ℕ)

namespace Deployment

def init (db : Db) : Deployment := ⟨db, fun _ => .closed, fun _ => none⟩

def setInstance (d : Deployment) (i : ℕ) (x : Instance) : Deployment :=
  { d with instances := fun j => if j = i then x else d.instances j }

def setCall (d : Deployment) (t : ℕ) (c : Option EdgeCall) : Deployment :=
  { d with calls := fun u => if u = t then c else d.calls u }

def step (d : Deployment) : DeploymentStep → Option Deployment
  | .select i =>
    match d.instances i with
    | .closed => some (d.setInstance i (.opening d.db))
    | _ => none
  | .load i =>
    match d.instances i with
    | .opening seen => some (d.setInstance i (.ready (Backend.loadGraph seen)))
    | _ => none
  | .insert t i row =>
    match d.calls t, d.instances i with
    | none, .ready _ => some (d.setCall t (some ⟨i, row, false⟩))
    | _, _ => none
  | .commit t =>
    match d.calls t with
    | some ⟨i, row, false⟩ =>
      some { d.setCall t (some ⟨i, row, true⟩) with db := d.db.apply (.edge row) }
    | _ => none
  | .abort t =>
    match d.calls t with
    | some ⟨_, _, false⟩ => some (d.setCall t none)
    | _ => none
  | .cache t =>
    match d.calls t with
    | some ⟨i, row, true⟩ =>
      match d.instances i with
      | .ready g => some ((d.setCall t none).setInstance i (.ready (addEdge row.edge g)))
      | _ => none
    | _ => none

def runs (d : Deployment) : List DeploymentStep → Option Deployment
  | [] => some d
  | s :: steps => (d.step s).bind fun d' => runs d' steps

end Deployment

/-- The edges an instance has. -/
def Instance.edges : Instance → List (Str × Str)
  | .closed => []
  | .opening seen => tableEdges seen
  | .ready g => g

namespace Deployment

/-- The edge is with the instance, or comes into its graph next. -/
def Knows (d : Deployment) (i : ℕ) (x y : Str) : Prop :=
  (x, y) ∈ (d.instances i).edges ∨
    ∃ t c, d.calls t = some c ∧ c.owner = i ∧ c.committed = true ∧ c.row.edge = (x, y)

/-- The edge joins a dataset to itself, or two datasets that a path of the instance joins. -/
def Covers (d : Deployment) (i : ℕ) (e : Str × Str) : Prop :=
  e.1 = e.2 ∨ Relation.TransGen (d.Knows i) e.1 e.2

/-- An edge is committed when the other instances, those being opened included, cover it already. -/
def Meets (d : Deployment) : DeploymentStep → Prop
  | .commit t => ∀ c, d.calls t = some c → ∀ j, j ≠ c.owner → d.instances j ≠ .closed →
    d.Covers j c.row.edge
  | _ => True

/-- A run whose commits meet the condition. -/
inductive Reaches (db : Db) : Deployment → Prop where
  | init : Reaches db (init db)
  | step {d d' : Deployment} (s : DeploymentStep) : Reaches db d → d.Meets s → d.step s = some d' →
      Reaches db d'

/-- All instances give the same answers, and each shows every committed edge. -/
structure Agrees (nx : NetworkX) (d : Deployment) : Prop where
  same : ∀ i j g g', d.instances i = .ready g → d.instances j = .ready g' → ∀ x,
    nx.downstream g x = nx.downstream g' x ∧ nx.upstream g x = nx.upstream g' x
  visible : ∀ i g, d.instances i = .ready g → ∀ e ∈ tableEdges d.db, e.1 ≠ e.2 →
    e.2 ∈ nx.downstream g e.1 ∧ e.1 ∈ nx.upstream g e.2

/-! ## What a step can do -/

inductive Step (d : Deployment) : DeploymentStep → Deployment → Prop where
  | select (i : ℕ) (h : d.instances i = .closed) : Step d (.select i) (d.setInstance i (.opening d.db))
  | load (i : ℕ) (seen : Db) (h : d.instances i = .opening seen) :
      Step d (.load i) (d.setInstance i (.ready (Backend.loadGraph seen)))
  | insert (t i : ℕ) (row : EdgeRow) (g : List (Str × Str)) (hc : d.calls t = none)
      (hi : d.instances i = .ready g) : Step d (.insert t i row) (d.setCall t (some ⟨i, row, false⟩))
  | commit (t i : ℕ) (row : EdgeRow) (h : d.calls t = some ⟨i, row, false⟩) :
      Step d (.commit t) { d.setCall t (some ⟨i, row, true⟩) with db := d.db.apply (.edge row) }
  | abort (t i : ℕ) (row : EdgeRow) (h : d.calls t = some ⟨i, row, false⟩) :
      Step d (.abort t) (d.setCall t none)
  | cache (t i : ℕ) (row : EdgeRow) (g : List (Str × Str)) (hc : d.calls t = some ⟨i, row, true⟩)
      (hi : d.instances i = .ready g) :
      Step d (.cache t) ((d.setCall t none).setInstance i (.ready (addEdge row.edge g)))

theorem step_cases {d d' : Deployment} {s : DeploymentStep} (h : d.step s = some d') : Step d s d' := by
  cases s with
  | select i =>
    simp only [step] at h
    split at h
    · next hi => cases h; exact .select i hi
    · cases h
  | load i =>
    simp only [step] at h
    split at h
    · next seen hi => cases h; exact .load i seen hi
    · cases h
  | insert t i row =>
    simp only [step] at h
    split at h
    · next g hc hi => cases h; exact .insert t i row g hc hi
    · cases h
  | commit t =>
    simp only [step] at h
    split at h
    · next i row hc => cases h; exact .commit t i row hc
    · cases h
  | abort t =>
    simp only [step] at h
    split at h
    · next i row hc => cases h; exact .abort t i row hc
    · cases h
  | cache t =>
    simp only [step] at h
    split at h
    · next i row hc =>
      split at h
      · next g hi => cases h; exact .cache t i row g hc hi
      · cases h
    · cases h

/-! ## What the instances know -/

/-- What an open instance knows is in the table, and covers it. -/
structure Shares (d : Deployment) : Prop where
  covers : ∀ i, d.instances i ≠ .closed → ∀ e ∈ tableEdges d.db, d.Covers i e
  stored : ∀ i x y, d.Knows i x y → (x, y) ∈ tableEdges d.db
  owners : ∀ t c, d.calls t = some c → ∃ g, d.instances c.owner = .ready g

theorem Covers.mono {d d' : Deployment} {i : ℕ} {e : Str × Str} (h : d.Covers i e)
    (hk : ∀ x y, d.Knows i x y → d'.Knows i x y) : d'.Covers i e :=
  h.imp_right fun hp => Relation.TransGen.mono hk _ _ hp

theorem shares_init (db : Db) : Shares (init db) where
  covers i h := (h rfl).elim
  stored i x y h := by
    rcases h with h | ⟨t, c, h, -⟩
    · cases h
    · cases h
  owners t c h := by cases h

/-- A step that moves an edge, or none, from the calls to the graphs. -/
theorem Shares.of_knows {d d' : Deployment} (h : Shares d) (hdb : d'.db = d.db)
    (hopen : ∀ i, d'.instances i ≠ .closed → d.instances i ≠ .closed)
    (hknows : ∀ i x y, d'.Knows i x y ↔ d.Knows i x y)
    (howners : ∀ t c, d'.calls t = some c → ∃ g, d'.instances c.owner = .ready g) : Shares d' where
  covers i hi e he := (h.covers i (hopen i hi) e (hdb ▸ he)).mono fun x y => (hknows i x y).2
  stored i x y hk := hdb ▸ h.stored i x y ((hknows i x y).1 hk)
  owners := howners

/-- A call with a property: that of one thread, or that of another. -/
theorem exists_call (d : Deployment) (t : ℕ) (Q : EdgeCall → Prop) :
    (∃ u c, d.calls u = some c ∧ Q c) ↔
      (∃ c, d.calls t = some c ∧ Q c) ∨ ∃ u c, u ≠ t ∧ d.calls u = some c ∧ Q c := by
  constructor
  · rintro ⟨u, c, hc, hq⟩
    by_cases hu : u = t
    · exact .inl ⟨c, hu ▸ hc, hq⟩
    · exact .inr ⟨u, c, hu, hc, hq⟩
  · rintro (⟨c, hc, hq⟩ | ⟨u, c, -, hc, hq⟩)
    · exact ⟨t, c, hc, hq⟩
    · exact ⟨u, c, hc, hq⟩

theorem exists_call_set (d : Deployment) (t : ℕ) (o : Option EdgeCall) (Q : EdgeCall → Prop) :
    (∃ u c, (d.setCall t o).calls u = some c ∧ Q c) ↔
      (∃ c, o = some c ∧ Q c) ∨ ∃ u c, u ≠ t ∧ d.calls u = some c ∧ Q c := by
  rw [exists_call _ t]
  refine or_congr ?_ ?_
  · simp only [setCall, if_true]
  · refine exists_congr fun u => exists_congr fun c => and_congr_right fun hu => ?_
    simp only [setCall, if_neg hu]

/-- A call that has not committed may come and go. -/
theorem knows_uncommitted {d : Deployment} {t : ℕ} {o : Option EdgeCall}
    (hold : ∀ c, d.calls t = some c → c.committed = false) (hnew : ∀ c, o = some c → c.committed = false)
    (i : ℕ) (x y : Str) : (d.setCall t o).Knows i x y ↔ d.Knows i x y := by
  refine or_congr_right ?_
  rw [exists_call_set, exists_call d t]
  refine or_congr_left (iff_of_false ?_ ?_)
  · rintro ⟨c, hc, -, hcom, -⟩
    rw [hnew c hc] at hcom
    cases hcom
  · rintro ⟨c, hc, -, hcom, -⟩
    rw [hold c hc] at hcom
    cases hcom

theorem knows_commit {d : Deployment} {t i : ℕ} {row : EdgeRow} (hc : d.calls t = some ⟨i, row, false⟩)
    (j : ℕ) (x y : Str) :
    (d.setCall t (some ⟨i, row, true⟩)).Knows j x y ↔ d.Knows j x y ∨ (i = j ∧ row.edge = (x, y)) := by
  have hnone : ¬ ∃ c, d.calls t = some c ∧ c.owner = j ∧ c.committed = true ∧ c.row.edge = (x, y) := by
    rintro ⟨c, h, -, hcom, -⟩
    rw [hc] at h
    cases h
    cases hcom
  rw [Knows, Knows, exists_call_set, exists_call d t, or_iff_right hnone, or_assoc]
  refine or_congr_right (or_comm.trans (or_congr_right ?_))
  simp

theorem knows_cache {d : Deployment} {t i : ℕ} {row : EdgeRow} {g : List (Str × Str)}
    (hc : d.calls t = some ⟨i, row, true⟩) (hi : d.instances i = .ready g) (j : ℕ) (x y : Str) :
    ((d.setCall t none).setInstance i (.ready (addEdge row.edge g))).Knows j x y ↔ d.Knows j x y := by
  have hcalls := exists_call_set d t none
    fun c => c.owner = j ∧ c.committed = true ∧ c.row.edge = (x, y)
  have hnone : ¬ ∃ c, (none : Option EdgeCall) = some c ∧ c.owner = j ∧ c.committed = true ∧
      c.row.edge = (x, y) := by
    rintro ⟨c, h, -⟩
    cases h
  rw [or_iff_right hnone] at hcalls
  have hold : (∃ c, d.calls t = some c ∧ c.owner = j ∧ c.committed = true ∧ c.row.edge = (x, y)) ↔
      i = j ∧ row.edge = (x, y) := by
    rw [hc]
    simp
  have hedges : (x, y) ∈ (((d.setCall t none).setInstance i (.ready (addEdge row.edge g))).instances j).edges ↔
      (x, y) ∈ (d.instances j).edges ∨ (i = j ∧ row.edge = (x, y)) := by
    simp only [setInstance, setCall]
    by_cases hj : j = i
    · subst hj
      simp only [if_true, hi, Instance.edges, mem_addEdge, true_and, eq_comm]
    · simp [hj, Ne.symm hj]
  rw [Knows, Knows, hedges, exists_call d t, hold, or_assoc]
  exact or_congr_right (or_congr_right hcalls)

theorem shares_select {d : Deployment} (h : Shares d) {i : ℕ} (hi : d.instances i = .closed) :
    Shares (d.setInstance i (.opening d.db)) := by
  have hself : ∀ x y, (d.setInstance i (.opening d.db)).Knows i x y ↔ (x, y) ∈ tableEdges d.db := by
    intro x y
    simp only [Knows, setInstance, if_true, Instance.edges]
    refine or_iff_left ?_
    rintro ⟨t, c, hc, rfl, -⟩
    obtain ⟨g, hg⟩ := h.owners t c hc
    rw [hi] at hg
    cases hg
  have hother : ∀ j, j ≠ i → ∀ x y, (d.setInstance i (.opening d.db)).Knows j x y ↔ d.Knows j x y := by
    intro j hj x y
    simp only [Knows, setInstance, if_neg hj]
  refine ⟨fun j hj e he => ?_, fun j x y hk => ?_, fun t c hc => ?_⟩
  · by_cases hji : j = i
    · subst hji
      exact .inr (.single ((hself _ _).2 he))
    · simp only [setInstance, if_neg hji] at hj
      exact (h.covers j hj e he).mono fun x y => (hother j hji x y).2
  · by_cases hji : j = i
    · subst hji
      exact (hself x y).1 hk
    · exact h.stored j x y ((hother j hji x y).1 hk)
  · obtain ⟨g, hg⟩ := h.owners t c hc
    refine ⟨g, ?_⟩
    simp only [setInstance]
    split
    · next ho =>
      rw [ho, hi] at hg
      cases hg
    · exact hg

theorem shares_commit {d : Deployment} (h : Shares d) {t i : ℕ} {row : EdgeRow}
    (hc : d.calls t = some ⟨i, row, false⟩) (hm : d.Meets (.commit t)) :
    Shares { d.setCall t (some ⟨i, row, true⟩) with db := d.db.apply (.edge row) } := by
  set d' : Deployment := { d.setCall t (some ⟨i, row, true⟩) with db := d.db.apply (.edge row) }
  have hknows : ∀ j x y, d'.Knows j x y ↔ d.Knows j x y ∨ (i = j ∧ row.edge = (x, y)) := knows_commit hc
  have htable : ∀ e, e ∈ tableEdges d'.db ↔ e ∈ tableEdges d.db ∨ e = row.edge := by
    intro e
    simp [d', tableEdges, Db.apply, EdgeRow.edge]
  refine ⟨fun j hj e he => ?_, fun j x y hk => ?_, fun u c hu => ?_⟩
  · rcases (htable e).1 he with he | rfl
    · exact (h.covers j hj e he).mono fun x y hk => (hknows j x y).2 (.inl hk)
    · by_cases hji : j = i
      · exact .inr (.single ((hknows j _ _).2 (.inr ⟨hji.symm, rfl⟩)))
      · exact (hm _ hc j hji hj).mono fun x y hk => (hknows j x y).2 (.inl hk)
  · rcases (hknows j x y).1 hk with hk | ⟨-, he⟩
    · exact (htable _).2 (.inl (h.stored j x y hk))
    · exact (htable _).2 (.inr he.symm)
  · have hu' : (d.setCall t (some ⟨i, row, true⟩)).calls u = some c := hu
    simp only [setCall] at hu'
    split at hu'
    · cases hu'
      exact h.owners t ⟨i, row, false⟩ hc
    · exact h.owners u c hu'

theorem open_setInstance {d : Deployment} {i : ℕ} (x : Instance) (hi : d.instances i ≠ .closed) (j : ℕ)
    (hj : (d.setInstance i x).instances j ≠ .closed) : d.instances j ≠ .closed := by
  by_cases hji : j = i
  · rwa [hji]
  · simpa only [setInstance, if_neg hji] using hj

/-- The calls of instances that are open. -/
theorem owners_setInstance {d : Deployment} {i : ℕ} (g : List (Str × Str))
    (h : ∀ t c, d.calls t = some c → ∃ g, d.instances c.owner = .ready g) (t : ℕ) (c : EdgeCall)
    (hc : d.calls t = some c) : ∃ g', (d.setInstance i (.ready g)).instances c.owner = .ready g' := by
  obtain ⟨g', hg⟩ := h t c hc
  by_cases ho : c.owner = i
  · exact ⟨g, if_pos ho⟩
  · exact ⟨g', (if_neg ho).trans hg⟩

theorem owners_setCall {d : Deployment} {t : ℕ} {o : Option EdgeCall}
    (h : ∀ t c, d.calls t = some c → ∃ g, d.instances c.owner = .ready g)
    (ho : ∀ c, o = some c → ∃ g, d.instances c.owner = .ready g) (u : ℕ) (c : EdgeCall)
    (hc : (d.setCall t o).calls u = some c) : ∃ g, (d.setCall t o).instances c.owner = .ready g := by
  simp only [setCall] at hc
  split at hc
  · exact ho c hc
  · exact h u c hc

theorem shares_step {d d' : Deployment} {s : DeploymentStep} (h : Shares d) (hm : d.Meets s)
    (hs : d.step s = some d') : Shares d' := by
  cases step_cases hs with
  | select i hi => exact shares_select h hi
  | commit t i row hc => exact shares_commit h hc hm
  | load i seen hi =>
    have hopen : d.instances i ≠ .closed := by simp [hi]
    refine h.of_knows rfl (open_setInstance _ hopen) (fun j x y => ?_) (owners_setInstance _ h.owners)
    refine or_congr_left ?_
    simp only [setInstance]
    split
    · next hj => simp only [hj, hi, Instance.edges, mem_loadGraph]
    · exact Iff.rfl
  | insert t i row g hc hi =>
    refine h.of_knows rfl (fun j => id) (knows_uncommitted (by simp [hc]) (by simp)) ?_
    refine owners_setCall h.owners fun c hcall => ?_
    cases hcall
    exact ⟨g, hi⟩
  | abort t i row hc =>
    refine h.of_knows rfl (fun j => id) (knows_uncommitted (by simp [hc]) (by simp)) ?_
    exact owners_setCall h.owners fun c hcall => by cases hcall
  | cache t i row g hc hi =>
    have hopen : (d.setCall t none).instances i ≠ .closed := by simp [setCall, hi]
    refine h.of_knows rfl (open_setInstance _ hopen) (knows_cache hc hi) ?_
    exact owners_setInstance _ (owners_setCall h.owners fun c hcall => by cases hcall)

theorem Reaches.shares {db : Db} {d : Deployment} (h : Reaches db d) : Shares d := by
  induction h with
  | init => exact shares_init db
  | step s _ hm hs ih => exact shares_step ih hm hs

/-- With no call in progress, the paths of an instance are those of the table. -/
theorem Shares.leads_iff {d : Deployment} (h : Shares d) (hq : ∀ t, d.calls t = none) {i : ℕ}
    {g : List (Str × Str)} (hi : d.instances i = .ready g) {x y : Str} (hne : x ≠ y) :
    Leads g x y ↔ Leads (tableEdges d.db) x y := by
  have hknows : d.Knows i = Joined g := by
    funext x y
    have hnone : ¬ ∃ t c, d.calls t = some c ∧ c.owner = i ∧ c.committed = true ∧ c.row.edge = (x, y) := by
      rintro ⟨t, c, hc, -⟩
      rw [hq t] at hc
      cases hc
    exact propext ((or_iff_left hnone).trans (by rw [hi]; rfl))
  constructor
  · exact leads_mono fun e he => h.stored i e.1 e.2 (hknows ▸ he)
  · refine transGen_of_joined (fun x y hxy => ?_) hne
    have hc := h.covers i (by simp [hi]) (x, y) hxy
    rwa [Covers, hknows] at hc

end Deployment

open Deployment in
/-- **Instances agree while no commit tells one of them something new.** For any number of instances,
opened at any time on a database with any edges, and every interleaving of their calls: if each edge
is committed when the other instances cover it already, then whenever no call is in progress all
instances give the same answers for every dataset. -/
theorem deployment_agrees (nx : NetworkX) {db : Db} {d : Deployment} (h : Reaches db d)
    (hq : ∀ t, d.calls t = none) : Agrees nx d where
  same i j g g' hi hj := by
    refine answers_congr nx fun s t hne => ?_
    rw [h.shares.leads_iff hq hi hne, h.shares.leads_iff hq hj hne]
  visible i g hi e he hne := by
    have hlead : Leads g e.1 e.2 := (h.shares.leads_iff hq hi hne).2 (.single he)
    exact ⟨((downstream_isSorted nx g e.1).mem e.2).2 ⟨hne.symm, hlead⟩,
      ((upstream_isSorted nx g e.2).mem e.1).2 ⟨hne, hlead⟩⟩

def edgeRow (src dst : Str) : EdgeRow := ⟨src, dst, lit "t", lit "now", 1, lit "\x7b\x7d"⟩

/-- One instance and its edge, and an instance that is opened afterwards. -/
def openedAfter : List DeploymentStep :=
  [.select 0, .load 0, .insert 0 0 (edgeRow (lit "a") (lit "b")), .commit 0, .cache 0, .select 1, .load 1]

theorem deployment_agrees_after :
    ∃ d, (Deployment.init Db.empty).runs openedAfter = some d ∧ d.Agrees .breadthFirst := by
  have h₁ := Deployment.Reaches.step (.select 0) (.init : Deployment.Reaches Db.empty _) trivial rfl
  have h₂ := h₁.step (.load 0) trivial rfl
  have h₃ := h₂.step (.insert 0 0 (edgeRow (lit "a") (lit "b"))) trivial rfl
  have h₄ := h₃.step (.commit 0) ?meets rfl
  case meets =>
    -- no other instance is open yet
    intro c hc j hj hopen
    cases hc
    have hj0 : j ≠ 0 := hj
    refine (hopen ?_).elim
    simp [Deployment.setCall, Deployment.setInstance, Deployment.init, hj0]
  have h₅ := h₄.step (.cache 0) trivial rfl
  have h₆ := h₅.step (.select 1) trivial rfl
  have h₇ := h₆.step (.load 1) trivial rfl
  refine ⟨_, rfl, deployment_agrees .breadthFirst h₇ fun t => ?_⟩
  simp only [Deployment.setCall, Deployment.setInstance, Deployment.init]
  split <;> rfl

/-- The same edge, with both instances opened before. -/
def openedBefore : List DeploymentStep :=
  [.select 0, .load 0, .select 1, .load 1, .insert 0 0 (edgeRow (lit "a") (lit "b")), .commit 0, .cache 0]

/-- **An instance that was open before does not learn of the edge.** -/
theorem deployment_disagrees :
    ∃ d, (Deployment.init Db.empty).runs openedBefore = some d ∧ (∀ t, d.calls t = none) ∧
      (∃ g g', d.instances 0 = .ready g ∧ d.instances 1 = .ready g' ∧
        NetworkX.breadthFirst.downstream g (lit "a") = [lit "b"] ∧
        NetworkX.breadthFirst.downstream g' (lit "a") = []) ∧
      ¬ d.Agrees .breadthFirst := by
  have hquiet : ∀ d, (Deployment.init Db.empty).runs openedBefore = some d → ∀ t, d.calls t = none := by
    rintro d ⟨⟩ t
    simp only [Deployment.setCall, Deployment.setInstance, Deployment.init]
    split <;> rfl
  refine ⟨_, rfl, hquiet _ rfl, ⟨_, _, rfl, rfl, by decide, by decide⟩, fun h => ?_⟩
  have hsame := (h.same 0 1 _ _ rfl rfl (lit "a")).1
  exact absurd hsame (by decide)

end LineageVault
