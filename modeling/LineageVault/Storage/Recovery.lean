import LineageVault.Python.FiniteMaps
import LineageVault.Storage.RecoverAcknowledge

/-! # A recovery, cell by cell

`recover_uncommitted` reads the text of every pending row and writes it again. What json reads is the
same value with its keys in another order, and the text of `payload_json` does not depend on the order,
so the ledger gets the staged text. `recover_exact` says what each table holds afterwards, and that a
second recovery has nothing to do.
-/

namespace LineageVault
open Foundations
set_option autoImplicit false

variable {P : Type} {py : PyLib P}

/-! ## The marks -/

/-- `committed=1` on the rows with these events. -/
def markAll (eventIds : List Str) (rows : List StagingRow) : List StagingRow :=
  rows.map fun r => if eventIds.contains r.eventId then { r with committed := true } else r

def StagingRow.marked (r : StagingRow) : StagingRow := { r with committed := true }

theorem markAll_nil (rows : List StagingRow) : markAll [] rows = rows := by
  simp [markAll]

theorem markAll_snoc (es : List Str) (e : Str) (rows : List StagingRow) :
    markCommitted e (markAll es rows) = markAll (es ++ [e]) rows := by
  simp only [markCommitted, markAll, List.map_map]
  refine List.map_congr_left fun r _ => ?_
  by_cases hes : r.eventId ∈ es
  · simp [hes]
  · simp only [Function.comp_apply, List.contains_iff_mem, hes, if_false, List.mem_append, List.mem_singleton,
      false_or]

theorem markAll_cons (es : List Str) (e : Str) (rows : List StagingRow) :
    markAll es (markCommitted e rows) = markAll (e :: es) rows := by
  simp only [markCommitted, markAll, List.map_map]
  refine List.map_congr_left fun r _ => ?_
  by_cases he : r.eventId = e
  · simp [he]
  · simp only [Function.comp_apply, List.contains_iff_mem, he, if_false, List.mem_cons, false_or]

/-- Once all pending events are marked, every row is. -/
theorem markAll_pending (rows : List StagingRow) :
    markAll ((pending rows).map Prod.fst) rows = rows.map StagingRow.marked := by
  refine List.map_congr_left fun r hr => ?_
  split
  · rfl
  · next hno =>
    have hcommitted : r.committed = true := by
      by_contra hpending
      refine hno (List.contains_iff_mem.2 (List.mem_map.2 ⟨(r.eventId, r.payload), ?_, rfl⟩))
      exact mem_staged_pending.2 ⟨r, hr, by simpa using hpending, rfl⟩
    rw [StagingRow.marked, ← hcommitted]

theorem pending_marked (rows : List StagingRow) : pending (rows.map StagingRow.marked) = [] := by
  have hnone : (rows.map StagingRow.marked).filter (fun r => !r.committed) = [] := by
    simp [List.filter_eq_nil_iff, StagingRow.marked]
  rw [pending, hnone]
  rfl

/-! ## The loop -/

/-- The rows that are left, and what the ones before them have changed. -/
structure Recovering (v : Store) (rows : List (Str × Str)) (u : Store) (count : ℕ) : Prop where
  left : ToRecover rows u
  done : ∃ done, pending v.1.walStaging = done ++ rows ∧
    u.1.walStaging = markAll (done.map Prod.fst) v.1.walStaging
  numbers : u.2 = ⟨v.2.seq + count, v.2.id⟩

theorem recovering_start {v : Store} (hv : JournalInv v) :
    Recovering v (pending v.1.walStaging) v 0 where
  left := toRecover_pending hv
  done := ⟨[], rfl, (markAll_nil _).symm⟩
  numbers := rfl

theorem Recovering.next {v u : Store} {e t : Str} {rows : List (Str × Str)} {count : ℕ}
    (h : Recovering v ((e, t) :: rows) u count) (t' : Str) :
    Recovering v rows (committed (appended py u e t') e) (count + 1) where
  left := h.left.next t'
  done := by
    obtain ⟨done, hsplit, hmarks⟩ := h.done
    refine ⟨done ++ [(e, t)], by rw [hsplit, List.append_assoc]; rfl, ?_⟩
    rw [List.map_append, List.map_singleton, ← markAll_snoc, ← hmarks]
    rfl
  numbers := by
    have hnumbers : (committed (appended py u e t') e).2 = { u.2 with seq := u.2.seq + 1 } := rfl
    rw [hnumbers, h.numbers, Nat.add_assoc]

/-- The tables after a recovery, but for the new rows of the ledger. -/
theorem recoverBody_tables {v w : Store} {n : ℕ} (hv : JournalInv v)
    (h : (recoverBody py).eval exec v = .ok (n, w)) :
    w.1 = { v.1 with ledger := w.1.ledger, walStaging := v.1.walStaging.map StagingRow.marked } ∧
      w.2 = ⟨v.2.seq + n, v.2.id⟩ := by
  have hend : Recovering v [] w n := by
    refine recoverLoop_keeps (J := Recovering v) ?_ ?_ (recovering_start hv) (recoverBody_cases h)
    · intro e t rows u count hJ hdup
      obtain ⟨q, hq, hqe⟩ := hdup
      exact (hJ.left.not_ledgered (List.mem_map.2 ⟨q, hq, hqe⟩)).elim
    · intro e t rows u count _ t' hJ _ _ _ _
      exact hJ.next t'
  obtain ⟨done, hall, hmarks⟩ := hend.done
  rw [List.append_nil] at hall
  rw [← hall, markAll_pending] at hmarks
  obtain ⟨hkeys, hlineage⟩ := recoverBody_frame h
  obtain ⟨hedges, hrest⟩ := Prod.mk.inj hlineage
  obtain ⟨hmappings, hruns⟩ := Prod.mk.inj hrest
  refine ⟨?_, hend.numbers⟩
  change w.1 = ⟨v.1.idempotency, w.1.ledger, v.1.walStaging.map StagingRow.marked, v.1.datasetEdges,
    v.1.fieldMappings, v.1.runEvents⟩
  rw [← hkeys, ← hedges, ← hmappings, ← hruns, ← hmarks]

/-! ## A state of a history -/

/-- Every text of the pending rows is read and written again as it is. -/
theorem recoverUncommitted_rows {log : List (Call P × Outcome)} {b : Backend} (hrun : Run py log b)
    (hrows : ∀ row ∈ pending b.db.walStaging, Recoverable py row) :
    ∃ w, b.recoverUncommitted py [] =
        (.ok (pending b.db.walStaging).length, { b with session := ⟨w, w⟩ }) ∧
      (∃ added, w.1.ledger = b.db.ledger ++ added ∧
        added.map (fun r => (r.eventId, r.payload)) = pending b.db.walStaging) ∧
      w.1 = { b.db with ledger := w.1.ledger, walStaging := b.db.walStaging.map StagingRow.marked } ∧
      w.2 = ⟨b.session.view.2.seq + (pending b.db.walStaging).length, b.session.view.2.id⟩ := by
  obtain ⟨w, heval, hcontent⟩ := recoverBody_eval hrun hrows
  obtain ⟨hframe, hnumbers⟩ := recoverBody_tables hrun.journalInv heval
  obtain ⟨added, hgrown, -⟩ := (journalInv_recover hrun.journalInv heval).2
  refine ⟨w, guarded_ok heval, ⟨added, hgrown, ?_⟩, hframe, hnumbers⟩
  rw [ledgerContent, hgrown, List.map_append] at hcontent
  exact List.append_cancel_left hcontent

/-- Without pending rows a recovery changes nothing. -/
theorem recoverUncommitted_none {b : Backend} (hnone : pending b.db.walStaging = [])
    (hsession : b.session.durable = b.session.view) : b.recoverUncommitted py [] = (.ok 0, b) := by
  have heval : (recoverBody py).eval exec b.session.view = .ok (0, b.session.view) := by
    have hselect : exec .selectPending b.session.view = .ok (pending b.db.walStaging, b.session.view) := rfl
    rw [hnone] at hselect
    exact Prog.eval_stmt_ok exec hselect
  rw [Backend.recoverUncommitted, guarded_ok heval]
  obtain ⟨⟨durable, view⟩, graph⟩ := b
  cases hsession
  rfl

/-! ## Payloads that json reads back -/

/-- `loads` inverts `dumps` on the value, dictionaries being finite maps. -/
def ReadBack (loads : Str → Except PyErr Json) (p : Json) : Prop :=
  ∃ q, loads (p.dumps true) = .ok q ∧ q.Distinct ∧ q.Same p

/-- What is read is written as it was. -/
theorem recoverable_readBack {sha256 : Str → Digest} {loads : Str → Except PyErr Json}
    {limit : VariableLimit} {p : Json} {e : Str}
    (he : e.encodable = true) (hp : p.Distinct) (hread : ReadBack loads p) :
    Recoverable (PyLib.json sha256 loads limit) (e, p.dumps true) := by
  obtain ⟨q, hq, hdistinct, hsame⟩ := hread
  refine ⟨he, dumps_encodable true p, q, hq, ?_⟩
  exact congrArg Except.ok (dumps_same hdistinct hp hsame)

/-- The rows that `SELECT … WHERE committed=0 ORDER BY id` finds. -/
def uncommitted (db : Db) : List StagingRow := orderById (db.walStaging.filter fun r => !r.committed)

/-- **A recovery is exact and faithful, and a second one does nothing.** In every state of a history
whose payloads json reads back: the ledger grows by one row for each pending row, in the order of their
ids, with its event and its very text; all rows of `wal_staging` are committed, and nothing else of any
table has changed; the number of the rows is returned. A second recovery returns 0 and changes nothing. -/
theorem recover_exact {sha256 : Str → Digest} {loads : Str → Except PyErr Json} {limit : VariableLimit}
    {log : List (Call Json × Outcome)} {b : Backend} (hrun : Run (PyLib.json sha256 loads limit) log b)
    (hpayloads : ∀ x ∈ log, ∀ p ∈ x.1.payloads, p.Distinct ∧ ReadBack loads p) :
    ((uncommitted b.db).Pairwise (fun r q => r.id < q.id) ∧
      ∀ r, r ∈ uncommitted b.db ↔ r ∈ b.db.walStaging ∧ r.committed = false) ∧
    ∃ b', b.recoverUncommitted (PyLib.json sha256 loads limit) [] = (.ok (uncommitted b.db).length, b') ∧
      b'.session.durable = b'.session.view ∧ b'.graph = b.graph ∧
      (∃ added, b'.db = { b.db with
          ledger := b.db.ledger ++ added
          walStaging := b.db.walStaging.map StagingRow.marked } ∧
        added.map (fun r => (r.eventId, r.payload)) =
          (uncommitted b.db).map fun r => (r.eventId, r.payload)) ∧
      b'.db.ledger.Pairwise (fun r q => r.seq < q.seq) ∧
      b'.recoverUncommitted (PyLib.json sha256 loads limit) [] = (.ok 0, b') := by
  have hrows : ∀ row ∈ pending b.db.walStaging, Recoverable (PyLib.json sha256 loads limit) row := by
    intro row hrow
    obtain ⟨r, hr, -, rfl⟩ := mem_staged_pending.1 hrow
    obtain ⟨he, -, p, ⟨x, hx, hp⟩, htext⟩ := hrun.stagedOf r hr
    rw [← Except.ok.inj htext]
    exact recoverable_readBack he (hpayloads x hx p hp).1 (hpayloads x hx p hp).2
  have hlen : (pending b.db.walStaging).length = (uncommitted b.db).length := List.length_map ..
  obtain ⟨w, hrec, ⟨added, hledger, hadded⟩, hframe, -⟩ := recoverUncommitted_rows hrun hrows
  have hreach : Run (PyLib.json sha256 loads limit) _ _ := .snoc .recoverUncommitted [] hrun
  rw [Call.perform, hrec] at hreach
  have hmarked : w.1.walStaging = b.db.walStaging.map StagingRow.marked := by rw [hframe]
  refine ⟨⟨?_, fun r => ?_⟩, { b with session := ⟨w, w⟩ }, ?_, rfl, rfl, ⟨added, ?_, hadded⟩,
    hreach.chainInv.sorted, ?_⟩
  · have hsorted := hrun.journalInv.idSorted.sublist (List.filter_sublist (p := fun r => !r.committed))
    rw [uncommitted, orderById_eq hsorted]
    exact hsorted
  · rw [uncommitted, (orderById_perm _).mem_iff, List.mem_filter, Bool.not_eq_true']
  · rw [hrec, hlen]
  · rw [← hledger]
    exact hframe
  · refine recoverUncommitted_none ?_ rfl
    rw [Backend.db, hmarked, pending_marked]

/-- A payload whose keys are not in order, and how json reads its text. -/
def unordered : Json := .obj [(lit "b", .obj [(lit "d", .null), (lit "c", .arr [])]), (lit "a", .int 1)]

def readUnordered : Json := .obj [(lit "a", .int 1), (lit "b", .obj [(lit "c", .arr []), (lit "d", .null)])]

def unorderedLib : PyLib Json :=
  .json PyLib.fixed.sha256
    (fun text => .ok (if text = unordered.dumps true then readUnordered else .obj [])) .sqlite

/-- Two events staged, and one acknowledged between them. -/
def stagedTwice : List (Call Json × Outcome) × Backend :=
  history unorderedLib [] .empty
    [(.stagePartial (lit "e") unordered, []), (.acknowledgeWrite .fixed ⟨lit "k", lit "f", .obj []⟩, []),
      (.stagePartial (lit "g") unordered, [])]

theorem readBack_unordered : unordered.Distinct ∧ ReadBack unorderedLib.loads unordered := by
  have hkeys : ∀ s t : Str, s ≠ t → [s, t].Nodup := fun s t h => by simp [h]
  refine ⟨⟨hkeys _ _ (by decide), ⟨hkeys _ _ (by decide), trivial, trivial, trivial⟩, trivial, trivial⟩,
    readUnordered, congrArg Except.ok (if_pos rfl), ⟨hkeys _ _ (by decide), trivial,
      ⟨hkeys _ _ (by decide), trivial, trivial, trivial⟩, trivial⟩, ?_⟩
  refine ⟨by decide, ⟨_, rfl, rfl⟩, ⟨_, rfl, by decide, ⟨_, rfl, trivial⟩, ⟨_, rfl, trivial⟩, trivial⟩, trivial⟩

theorem recover_exact_unordered :
    ∃ b', stagedTwice.2.recoverUncommitted unorderedLib [] = (.ok 2, b') ∧
      (∃ added, b'.db.ledger = stagedTwice.2.db.ledger ++ added ∧
        added.map (fun r => (r.eventId, r.payload)) =
          [(lit "e", unordered.dumps true), (lit "g", unordered.dumps true)]) ∧
      b'.recoverUncommitted unorderedLib [] = (.ok 0, b') := by
  have hpayloads : ∀ x ∈ stagedTwice.1, ∀ p ∈ x.1.payloads, p.Distinct ∧ ReadBack unorderedLib.loads p := by
    have hempty : (Json.obj []).Distinct ∧ ReadBack unorderedLib.loads (.obj []) :=
      ⟨⟨.nil, trivial⟩, .obj [], congrArg Except.ok (if_neg (by decide)), ⟨.nil, trivial⟩, by simp, trivial⟩
    intro x hx p hp
    simp only [stagedTwice, history, List.nil_append, List.cons_append, List.mem_cons, List.not_mem_nil,
      or_false] at hx
    rcases hx with rfl | rfl | rfl
    · rw [List.mem_singleton.1 hp]
      exact readBack_unordered
    · rw [List.mem_singleton.1 hp]
      exact hempty
    · rw [List.mem_singleton.1 hp]
      exact readBack_unordered
  have hrun : Run unorderedLib stagedTwice.1 stagedTwice.2 := Run.nil.history _
  obtain ⟨-, b', hrec, -, -, ⟨added, hdb, hadded⟩, -, hagain⟩ := recover_exact hrun hpayloads
  have hrows : (uncommitted stagedTwice.2.db).map (fun r => (r.eventId, r.payload)) =
      [(lit "e", unordered.dumps true), (lit "g", unordered.dumps true)] := by decide +kernel
  have hlen : (uncommitted stagedTwice.2.db).length = 2 := by
    rw [← List.length_map (f := fun r => (r.eventId, r.payload)), hrows]
    rfl
  rw [hlen] at hrec
  rw [hrows] at hadded
  exact ⟨b', hrec, ⟨added, by rw [hdb], hadded⟩, hagain⟩

end LineageVault
