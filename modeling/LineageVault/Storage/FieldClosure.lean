import LineageVault.Storage.FieldImpact

/-! # What `field_impact` reports, and how often

Both backends run the same loop, and neither orders the rows of its SELECT: `Selects` says what each of
the two gives, and `fieldImpact_eq` that the SQLite backend is the case of rows in the order of the
table.

The loop ends for every content of `field_mappings`, with the closure of its rows (`fieldImpact_closure`).
It drops a field when it takes it off the frontier for the second time, and reports it each time it puts
it there: so a field is reported once for every row that leads to it (`impactedFields_perm`), and no
field twice only if no two of these rows have the same output (`fieldImpact_nodup_iff`).
-/

namespace LineageVault
open Foundations
set_option autoImplicit false

/-- A SELECT that returns gives the outputs of the rows with this input, in any order. -/
def Selects (db : Db) (select : Str × Str → Except PyErr (List (Str × Str))) : Prop :=
  ∀ x ys, select x = .ok ys → ys.Perm (targets (mappingEdges db) x)

/-- `field_impact` of a backend with this SELECT; `none` if the fuel ran out. -/
def Backend.fieldImpactBy (select : Str × Str → Except PyErr (List (Str × Str))) (fuel : ℕ) (nx : NetworkX)
    (b : Backend) (dataset field : Str) : Option (Except PyErr FieldImpact) :=
  (search select fuel [(dataset, field)] [] []).map fun
    | .ok impacted => .ok ⟨dataset, field, impacted, b.downstreamDatasets nx dataset⟩
    | .error e => .error e

section Closure
variable {nx : NetworkX} {b : Backend} {select : Str × Str → Except PyErr (List (Str × Str))} {fuel : ℕ}
  {dataset field : Str} {r : FieldImpact}

theorem selects_selectMappings (db : Db) : Selects db (selectMappings db) := by
  intro x ys h
  unfold selectMappings at h
  split at h
  · cases h
    exact .rfl
  · cases h

/-- The SQLite backend reads the rows in the order of the table. -/
theorem fieldImpact_eq (nx : NetworkX) (b : Backend) (dataset field : Str) :
    b.fieldImpact nx dataset field =
      b.fieldImpactBy (selectMappings b.db) (b.db.fieldMappings.length + 2) nx dataset field := by
  have hlength : (mappingEdges b.db).length = b.db.fieldMappings.length := List.length_map _
  rw [Backend.fieldImpact, hlength]
  rfl

theorem fieldImpactBy_ok (h : b.fieldImpactBy select fuel nx dataset field = some (.ok r)) :
    search select fuel [(dataset, field)] [] [] = some (.ok r.impactedFields) := by
  obtain ⟨out, hout, hr⟩ := Option.map_eq_some_iff.1 h
  cases out with
  | error e => cases hr
  | ok impacted =>
    cases hr
    exact hout

theorem feeds_eq (db : Db) : (fun x y => (x, y) ∈ mappingEdges db) = Feeds db.fieldMappings := by
  funext x y
  exact propext mem_mappingEdges

/-- **The loop ends, and what it reports is the closure.** For every content of `field_mappings` and
every dataset and field, the loop comes to its end; more fuel changes nothing. If it returns, the
impacted fields are those that one or more rows lead to. It raises only what a SELECT raised for the
field asked about, or for one that rows lead to. -/
theorem fieldImpact_closure (nx : NetworkX) (b : Backend) (hselect : Selects b.db select) (dataset field : Str) :
    ∃ out,
      (∀ fuel, b.db.fieldMappings.length + 2 ≤ fuel →
        b.fieldImpactBy select fuel nx dataset field = some out) ∧
      (∀ r, out = .ok r → ∀ y,
        y ∈ r.impactedFields ↔ Relation.TransGen (Feeds b.db.fieldMappings) (dataset, field) y) ∧
      ∀ e, out = .error e →
        ∃ x, Relation.ReflTransGen (Feeds b.db.fieldMappings) (dataset, field) x ∧ select x = .error e := by
  let rows := b.db.fieldMappings
  let reached : Str × Str → Prop := Relation.ReflTransGen (Feeds rows) (dataset, field)
  have hreached : ∀ e ∈ mappingEdges b.db, reached e.1 → reached e.2 :=
    fun e he hx => hx.tail (mem_mappingEdges.1 he)
  obtain ⟨out, hout, hraised⟩ := search_ends reached hreached (fun x ys _ hys => hselect x ys hys) .refl
  have hlength : (mappingEdges b.db).length = rows.length := List.length_map _
  have hends : ∀ fuel, rows.length + 2 ≤ fuel →
      search select fuel [(dataset, field)] [] [] = some out :=
    fun fuel hle => search_le (by rwa [hlength]) hout
  cases out with
  | error e =>
    refine ⟨.error e, fun fuel hle => ?_, (fun r hr => by cases hr), ?_⟩
    · rw [Backend.fieldImpactBy, hends fuel hle]
      rfl
    · rintro e' ⟨⟩
      exact hraised e rfl
  | ok impacted =>
    refine ⟨.ok ⟨dataset, field, impacted, b.downstreamDatasets nx dataset⟩, fun fuel hle => ?_, ?_,
      fun e he => by cases he⟩
    · rw [Backend.fieldImpactBy, hends fuel hle]
      rfl
    · rintro r ⟨⟩ y
      have hask : ∀ x ys, select x = .ok ys → ∀ y, y ∈ ys ↔ Feeds rows x y := fun x ys hys y =>
        (hselect x ys hys).mem_iff.trans (mem_targets.trans mem_mappingEdges)
      exact mem_search hask hout y

def mapped (inputDataset inputField outputDataset outputField : String) : MappingRow :=
  ⟨lit "r1", lit outputDataset, lit inputDataset, lit outputField, lit inputField⟩

def holding (rows : List MappingRow) : Backend := .opened ({ Db.empty with fieldMappings := rows }, .zero)

/-- A field that feeds itself, a cycle, two ways to a field, and a row that is there twice. -/
def tangled : Backend :=
  holding [mapped "db.a" "x" "db.a" "x", mapped "db.a" "x" "db.b" "y", mapped "db.a" "x" "db.c" "z",
    mapped "db.b" "y" "db.d" "w", mapped "db.c" "z" "db.d" "w", mapped "db.d" "w" "db.b" "y",
    mapped "db.a" "x" "db.b" "y"]

theorem fieldImpact_closure_tangled :
    ∃ r, tangled.fieldImpact .breadthFirst (lit "db.a") (lit "x") = some (.ok r) ∧
      ∀ y, y ∈ r.impactedFields ↔
        Relation.TransGen (Feeds tangled.db.fieldMappings) (lit "db.a", lit "x") y := by
  obtain ⟨out, hends, hclosure, hraised⟩ :=
    fieldImpact_closure .breadthFirst tangled (selects_selectMappings _) (lit "db.a") (lit "x")
  have hout := hends _ le_rfl
  rw [← fieldImpact_eq] at hout
  have hreturns : ∃ r, tangled.fieldImpact .breadthFirst (lit "db.a") (lit "x") = some (.ok r) :=
    fieldImpact_returns .breadthFirst (by simp only [MappingRow.Encodable]; decide +kernel)
      (by decide) (by decide)
  obtain ⟨r, hr⟩ := hreturns
  rw [hr] at hout
  cases hout
  exact ⟨r, hr, hclosure r rfl⟩

/-! ## How often a field is reported -/

open Classical in
/-- A field is reported once for each row that leads to it from the field asked about or from one that
it feeds. -/
theorem impactedFields_perm (hselect : Selects b.db select)
    (h : b.fieldImpactBy select fuel nx dataset field = some (.ok r)) :
    r.impactedFields.Perm ((b.db.fieldMappings.filter fun row =>
      Relation.ReflTransGen (Feeds b.db.fieldMappings) (dataset, field)
        (row.inputDataset, row.inputField)).map fun row => (row.outputDataset, row.outputField)) := by
  have hperm := search_perm hselect (fieldImpactBy_ok h)
  rw [feeds_eq, mappingEdges, List.filter_map, List.map_map] at hperm
  exact hperm

/-- **A field is reported twice exactly if two rows lead to it**: no field is, exactly if no two rows
whose inputs are the field asked about or fed by it have the same output. -/
theorem fieldImpact_nodup_iff (hselect : Selects b.db select)
    (h : b.fieldImpactBy select fuel nx dataset field = some (.ok r)) :
    r.impactedFields.Nodup ↔
      b.db.fieldMappings.Pairwise fun row₁ row₂ =>
        Relation.ReflTransGen (Feeds b.db.fieldMappings) (dataset, field)
            (row₁.inputDataset, row₁.inputField) →
          Relation.ReflTransGen (Feeds b.db.fieldMappings) (dataset, field)
              (row₂.inputDataset, row₂.inputField) →
            (row₁.outputDataset, row₁.outputField) ≠ (row₂.outputDataset, row₂.outputField) := by
  classical
  rw [(impactedFields_perm hselect h).nodup_iff, List.Nodup, List.pairwise_map, List.pairwise_filter]
  simp only [decide_eq_true_eq]

/-- Two runs record that `db.b.y` is made from `db.a.x`. -/
def recordedTwice : Backend :=
  let record (runId : Str) (b : Backend) : Backend :=
    (b.recordFieldMapping [] runId (lit "db.b") (lit "db.a") [(lit "y", .text (lit "x"))]).2
  record (lit "r2") (record (lit "r1") .empty)

/-- Two ways lead from `db.a.x` to `db.d.w`. -/
def diamond : Backend :=
  holding [mapped "db.a" "x" "db.b" "y", mapped "db.a" "x" "db.c" "z", mapped "db.b" "y" "db.d" "w",
    mapped "db.c" "z" "db.d" "w"]

/-- **Fields are reported twice**, when a mapping is recorded twice and when two ways lead to a field. -/
theorem fieldImpact_repeats :
    recordedTwice.fieldImpact .breadthFirst (lit "db.a") (lit "x") = some (.ok
        ⟨lit "db.a", lit "x", [(lit "db.b", lit "y"), (lit "db.b", lit "y")], []⟩) ∧
      diamond.fieldImpact .breadthFirst (lit "db.a") (lit "x") = some (.ok ⟨lit "db.a", lit "x",
        [(lit "db.b", lit "y"), (lit "db.c", lit "z"), (lit "db.d", lit "w"), (lit "db.d", lit "w")], []⟩) := by
  constructor <;> decide +kernel

theorem fieldImpact_nodup_iff_diamond :
    ¬ diamond.db.fieldMappings.Pairwise fun row₁ row₂ =>
      Relation.ReflTransGen (Feeds diamond.db.fieldMappings) (lit "db.a", lit "x")
          (row₁.inputDataset, row₁.inputField) →
        Relation.ReflTransGen (Feeds diamond.db.fieldMappings) (lit "db.a", lit "x")
            (row₂.inputDataset, row₂.inputField) →
          (row₁.outputDataset, row₁.outputField) ≠ (row₂.outputDataset, row₂.outputField) := by
  have himpact : diamond.fieldImpact .breadthFirst (lit "db.a") (lit "x") = some (.ok ⟨lit "db.a", lit "x",
      [(lit "db.b", lit "y"), (lit "db.c", lit "z"), (lit "db.d", lit "w"), (lit "db.d", lit "w")], []⟩) := by
    decide +kernel
  rw [fieldImpact_eq] at himpact
  rw [← fieldImpact_nodup_iff (selects_selectMappings _) himpact]
  decide +kernel

end Closure
end LineageVault
