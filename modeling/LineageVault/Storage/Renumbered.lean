import LineageVault.Foundations.Related
import LineageVault.Storage.Consistency

/-! # Stores that differ in the numbers of their rows

PostgreSQL does not give back the numbers of a transaction that it rolls back, SQLite does. So two backends
with the same rows may have given them different numbers. Nothing that a call does depends on more than the
order of the numbers (`agree_renumbered`).
-/

namespace LineageVault
open Foundations
set_option autoImplicit false

def LedgerRow.unnumbered (r : LedgerRow) : LedgerRow := { r with seq := 0 }

def StagingRow.unnumbered (r : StagingRow) : StagingRow := { r with id := 0 }

/-- The rows of all tables, each without its number. -/
def Db.unnumbered (db : Db) : Db :=
  { db with
    ledger := db.ledger.map LedgerRow.unnumbered
    walStaging := db.walStaging.map StagingRow.unnumbered }

def RowWrite.unnumbered : RowWrite → RowWrite
  | .ledger row => .ledger row.unnumbered
  | .staging row => .staging row.unnumbered
  | w => w

/-- The rows have the numbers that they were given one after the other. -/
structure Counted (v : Store) : Prop where
  seqSorted : v.1.ledger.Pairwise fun a b => a.seq < b.seq
  seqBound : ∀ r ∈ v.1.ledger, r.seq ≤ v.2.seq
  idSorted : v.1.walStaging.Pairwise fun a b => a.id < b.id
  idBound : ∀ r ∈ v.1.walStaging, r.id ≤ v.2.id

theorem counted_empty : Counted (Db.empty, Numbers.zero) :=
  ⟨.nil, by simp [Db.empty], .nil, by simp [Db.empty]⟩

theorem Counted.skip {v : Store} (h : Counted v) (seq id : ℕ) : Counted (v.1, v.2.skip seq id) :=
  ⟨h.seqSorted, fun r hr => (h.seqBound r hr).trans (Nat.le_add_right _ _), h.idSorted,
    fun r hr => (h.idBound r hr).trans (Nat.le_add_right _ _)⟩

theorem Counted.exec {s : Stmt} {v w : Store} {r : Reply s} (h : Counted v)
    (hexec : LineageVault.exec s v = .ok (r, w)) : Counted w := by
  cases s with
  | insertIdempotency key eventId now =>
    obtain ⟨-, -, -, rfl⟩ := insertIdempotency_ok hexec
    exact ⟨h.seqSorted, h.seqBound, h.idSorted, h.idBound⟩
  | insertOrIgnoreStaging eventId payload =>
    obtain ⟨-, -, rfl⟩ := insertOrIgnoreStaging_ok hexec
    exact ⟨h.seqSorted, h.seqBound, staged_idSorted h.idSorted h.idBound eventId payload,
      staged_idBound h.idBound eventId payload⟩
  | updateCommitted eventId =>
    obtain ⟨-, rfl⟩ := updateCommitted_ok hexec
    exact ⟨h.seqSorted, h.seqBound, marked_idSorted h.idSorted eventId, marked_idBound h.idBound eventId⟩
  | insertLedger eventId payload prevHash entryHash =>
    obtain ⟨-, -, rfl⟩ := insertLedger_ok hexec
    refine ⟨?_, ?_, h.idSorted, h.idBound⟩
    · refine List.pairwise_append.2 ⟨h.seqSorted, List.pairwise_singleton .., fun a ha b hb => ?_⟩
      rw [List.mem_singleton.1 hb]
      exact Nat.lt_succ_of_le (h.seqBound a ha)
    · intro q hq
      rcases List.mem_append.1 hq with hq | hq
      · exact (h.seqBound q hq).trans (Nat.le_succ _)
      · rw [List.mem_singleton.1 hq]
  | insertEdge src dst transformId eventTime schemaVersion payload =>
    obtain ⟨-, -, rfl⟩ := insertEdge_ok hexec
    exact ⟨h.seqSorted, h.seqBound, h.idSorted, h.idBound⟩
  | insertMapping runId outputDataset inputDataset outputField inputField =>
    obtain ⟨text, -, -, rfl⟩ := insertMapping_ok hexec
    exact ⟨h.seqSorted, h.seqBound, h.idSorted, h.idBound⟩
  | upsertRunEvent runId eventType payload =>
    obtain ⟨-, rfl⟩ := upsertRunEvent_ok hexec
    exact ⟨h.seqSorted, h.seqBound, h.idSorted, h.idBound⟩
  | _ =>
    rw [exec_read rfl hexec]
    exact h

/-- The same rows in the same order. -/
structure Renumbered (v w : Store) : Prop where
  rows : v.1.unnumbered = w.1.unnumbered
  left : Counted v
  right : Counted w

theorem renumbered_self {v : Store} (h : Counted v) : Renumbered v v := ⟨rfl, h, h⟩

theorem Renumbered.symm {v w : Store} (h : Renumbered v w) : Renumbered w v := ⟨h.rows.symm, h.right, h.left⟩

theorem Renumbered.trans {u v w : Store} (h : Renumbered u v) (h' : Renumbered v w) : Renumbered u w :=
  ⟨h.rows.trans h'.rows, h.left, h'.right⟩

/-- Only two tables have numbers. -/
theorem unnumbered_tables {db db' : Db} (h : db.unnumbered = db'.unnumbered) :
    db.datasetEdges = db'.datasetEdges ∧ db.fieldMappings = db'.fieldMappings ∧ db.runEvents = db'.runEvents := by
  have hedges := congrArg Db.datasetEdges h
  have hmappings := congrArg Db.fieldMappings h
  have hevents := congrArg Db.runEvents h
  exact ⟨hedges, hmappings, hevents⟩

/-- Numbers that are lost. -/
theorem Renumbered.skip {v w : Store} (h : Renumbered v w) (seq id : ℕ) : Renumbered v (w.1, w.2.skip seq id) :=
  ⟨h.rows, h.left, h.right.skip seq id⟩

/-! ## What the statements see -/

theorem unnumbered_apply (db : Db) (w : RowWrite) : (db.apply w).unnumbered = db.unnumbered.apply w.unnumbered := by
  cases w with
  | ledger row => simp only [Db.apply, Db.unnumbered, RowWrite.unnumbered, List.map_append, List.map_singleton]
  | staging row => simp only [Db.apply, Db.unnumbered, RowWrite.unnumbered, List.map_append, List.map_singleton]
  | committed e =>
    simp only [Db.apply, Db.unnumbered, RowWrite.unnumbered, markCommitted, List.map_map]
    congr 1
    refine List.map_congr_left fun r _ => ?_
    simp only [Function.comp_apply, apply_ite StagingRow.unnumbered]
    rfl
  | _ => rfl

theorem unnumbered_applyAll (db : Db) (ws : List RowWrite) :
    (db.applyAll ws).unnumbered = db.unnumbered.applyAll (ws.map RowWrite.unnumbered) := by
  induction ws generalizing db with
  | nil => rfl
  | cons w ws ih => rw [applyAll_cons, ih, unnumbered_apply, List.map_cons, applyAll_cons]

theorem lastHash_unnumbered {rows : List LedgerRow} (h : rows.Pairwise fun a b => a.seq < b.seq) :
    lastHash (rows.map LedgerRow.unnumbered) = lastHash rows := by
  have horder : orderBySeq (rows.map LedgerRow.unnumbered) = rows.map LedgerRow.unnumbered :=
    List.Pairwise.insertionSort_eq (List.pairwise_map.2 (h.imp fun _ => Nat.le_refl 0))
  rw [lastHash, lastHash, horder, orderBySeq_eq h, List.getLast?_map, Option.map_map]
  rfl

theorem pending_unnumbered {rows : List StagingRow} (h : rows.Pairwise fun a b => a.id < b.id) :
    pending (rows.map StagingRow.unnumbered) = pending rows := by
  have hfilter : (rows.map StagingRow.unnumbered).filter (fun r => !r.committed) =
      (rows.filter fun r => !r.committed).map StagingRow.unnumbered := List.filter_map
  have horder : orderById ((rows.filter fun r => !r.committed).map StagingRow.unnumbered) =
      (rows.filter fun r => !r.committed).map StagingRow.unnumbered :=
    List.Pairwise.insertionSort_eq (List.pairwise_map.2 ((h.filter _).imp fun _ => Nat.le_refl 0))
  rw [pending, pending, hfilter, horder, orderById_eq (h.filter _), List.map_map]
  rfl

/-- What a statement returns and changes, the numbers apart. -/
def visible {s : Stmt} (x : Effect s) : Except PyErr (Reply s × List RowWrite) :=
  x.map fun y => (y.1, y.2.1.map RowWrite.unnumbered)

theorem visible_effect {v : Store} (h : Counted v) (s : Stmt) :
    visible (effect v.2 v.1 s) = visible (effect .zero v.1.unnumbered s) := by
  cases s with
  | selectLastHash =>
    simp only [effect, Db.unnumbered, lastHash_unnumbered h.seqSorted]
    rfl
  | selectPending =>
    simp only [effect, Db.unnumbered, pending_unnumbered h.idSorted]
    rfl
  | selectInLedger eventId =>
    simp only [effect, Db.unnumbered, List.any_map, apply_ite visible]
    rfl
  | insertOrIgnoreStaging eventId payload =>
    simp only [effect, Db.unnumbered, List.any_map, apply_ite visible]
    rfl
  | updateCommitted eventId =>
    simp only [effect, Db.unnumbered, List.any_map, apply_ite visible]
    rfl
  | insertLedger eventId payload prevHash entryHash =>
    simp only [effect, Db.unnumbered, List.any_map, apply_ite visible]
    rfl
  | insertIdempotency key eventId now =>
    change _ = visible (effect .zero v.1 (.insertIdempotency key eventId now))
    simp only [effect, apply_ite visible]
    rfl
  | insertMapping runId outputDataset inputDataset outputField inputField =>
    simp only [effect, apply_ite visible]
    cases bindText inputField <;> rfl
  | _ =>
    simp only [effect, Db.unnumbered, apply_ite visible]
    rfl

/-- A statement answers the same on both, and leaves the same rows. -/
theorem agree_renumbered (s : Stmt) {v w : Store} (h : Renumbered v w) :
    Agree Renumbered (exec s v) (exec s w) := by
  have hvisible : visible (effect v.2 v.1 s) = visible (effect w.2 w.1 s) := by
    rw [visible_effect h.left, visible_effect h.right, h.rows]
  cases hv : effect v.2 v.1 s with
  | error e =>
    cases hw : effect w.2 w.1 s with
    | error e' =>
      rw [hv, hw] at hvisible
      obtain rfl : e = e' := Except.error.inj hvisible
      simp only [exec, hv, hw]
      exact .raised e
    | ok y => rw [hv, hw] at hvisible; cases hvisible
  | ok x =>
    cases hw : effect w.2 w.1 s with
    | error e' => rw [hv, hw] at hvisible; cases hvisible
    | ok y =>
      rw [hv, hw] at hvisible
      obtain ⟨r, ws, n⟩ := x
      obtain ⟨r', ws', n'⟩ := y
      obtain ⟨rfl, hwrites⟩ := Prod.mk.inj (Except.ok.inj hvisible)
      have hexec : exec s v = .ok (r, v.1.applyAll ws, n) := by simp only [exec, hv]
      have hexec' : exec s w = .ok (r, w.1.applyAll ws', n') := by simp only [exec, hw]
      rw [hexec, hexec']
      refine .returned r ⟨?_, h.left.exec hexec, h.right.exec hexec'⟩
      dsimp only at hwrites ⊢
      rw [unnumbered_applyAll, unnumbered_applyAll, h.rows, hwrites]

end LineageVault
