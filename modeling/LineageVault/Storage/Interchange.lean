import LineageVault.Storage.Renumbered
import LineageVault.Storage.PartialMapping

/-! # Either of the two backends

One `PostgresStorageBackend` whose calls come one after the other, next to a `SQLiteStorageBackend`. A call of
the first works on a connection of the pool, which is rolled back whenever anything raises. The second rolls
back in three of its methods only, so the two can come to hold different tables (`interchangeable`).

`server` is what PostgreSQL makes of a statement, `lost` how many numbers of `ledger.seq` and `wal_staging.id` a
call has taken for nothing when it is rolled back. `fs` begins after the advisory lock: a lock that is not
granted is like a first statement that fails.
-/

namespace LineageVault
open Foundations
set_option autoImplicit false

structure PgBackend where
  committed : Store
  graph : List (Str × Str)

namespace PgBackend

/-- A new backend, whose schema is up to date. -/
def opened (v : Store) : PgBackend := ⟨v, Backend.loadGraph v.1⟩

def skipNumbers (seq id : ℕ) (b : PgBackend) : PgBackend :=
  { b with committed := (b.committed.1, b.committed.2.skip seq id) }

section Code
variable {P α : Type} (server : (s : Stmt) → Store → Except PyErr (Reply s × Store)) (py : PyLib P) (lost : ℕ × ℕ)

/-- `with self._borrow() as conn` -/
def borrowed (fs : List Bool) (p : Sql α) (b : PgBackend) : Except PyErr α × PgBackend :=
  match Session.transaction server .operationalError fs p ⟨b.committed, b.committed⟩ with
  | (.ok a, connection) => (.ok a, { b with committed := connection.durable })
  -- a sequence does not take its numbers back
  | (.error e, connection) => (.error e, skipNumbers lost.1 lost.2 { b with committed := connection.durable })

def stagePartial (fs : List Bool) (eventId : Str) (payload : P) (b : PgBackend) : Except PyErr Unit × PgBackend :=
  match payloadJson py payload with
  | .ok payloadText => b.borrowed server lost fs (stageBody eventId payloadText)
  | .error e => (.error e, b)

def acknowledgeWritesBatch (fs : List Bool) (now : ClockText) (items : List (BatchWriteItem P)) (b : PgBackend) :
    Except PyErr (List AcknowledgedWrite) × PgBackend :=
  if items.isEmpty then (.ok [], b) else b.borrowed server lost fs (acknowledgeBody py now items)

def acknowledgeWrite (fs : List Bool) (now : ClockText) (item : BatchWriteItem P) (b : PgBackend) :
    Except PyErr AcknowledgedWrite × PgBackend :=
  match b.acknowledgeWritesBatch server py lost fs now [item] with
  | (.ok (result :: _), b') => (.ok result, b')
  | (.ok [], b') => (.error .indexError, b')
  | (.error e, b') => (.error e, b')

def recoverUncommitted (fs : List Bool) (b : PgBackend) : Except PyErr ℕ × PgBackend :=
  b.borrowed server lost fs (recoverBody py)

def addDatasetEdge (fs : List Bool) (src dst transformId eventTime : Str) (schemaVersion : ℤ) (payload : P)
    (b : PgBackend) : Except PyErr Unit × PgBackend :=
  match b.borrowed server lost fs (addDatasetEdgeBody py src dst transformId eventTime schemaVersion payload) with
  | (.ok _, b') => (.ok (), { b' with graph := addEdge (src, dst) b'.graph })
  | (.error e, b') => (.error e, b')

def recordFieldMapping (fs : List Bool) (runId outputDataset inputDataset : Str) (fieldMap : List (Str × SqlParam))
    (b : PgBackend) : Except PyErr Unit × PgBackend :=
  let (result, committed) := pgRecordFieldMapping server fs runId outputDataset inputDataset fieldMap b.committed
  (result, { b with committed := committed })

def storeRunEvent (fs : List Bool) (runId eventType : Str) (payload : P) (b : PgBackend) :
    Except PyErr Unit × PgBackend :=
  b.borrowed server lost fs (storeRunEventBody py runId eventType payload)

def perform (fs : List Bool) (b : PgBackend) : Call P → Outcome × PgBackend
  | .stagePartial eventId payload => (b.stagePartial server py lost fs eventId payload).map .ofUnit id
  | .acknowledgeWrite now item => (b.acknowledgeWrite server py lost fs now item).map .ofAck id
  | .acknowledgeWritesBatch now items => (b.acknowledgeWritesBatch server py lost fs now items).map .ofAcks id
  | .recoverUncommitted => (b.recoverUncommitted server py lost fs).map .ofCount id
  | .addDatasetEdge src dst transformId eventTime schemaVersion payload =>
    (b.addDatasetEdge server py lost fs src dst transformId eventTime schemaVersion payload).map .ofUnit id
  | .recordFieldMapping runId outputDataset inputDataset fieldMap =>
    (b.recordFieldMapping server fs runId outputDataset inputDataset fieldMap).map .ofUnit id
  | .storeRunEvent runId eventType payload => (b.storeRunEvent server py lost fs runId eventType payload).map .ofUnit id
  | .reopen => (.done, opened b.committed)
  | .skipNumbers seq id => (.done, b.skipNumbers seq id)

end Code

/-- The calls in order, each with its schedule of failures. The `n`-th loses `lost n` if it is rolled back. -/
def history {P : Type} (server : (s : Stmt) → Store → Except PyErr (Reply s × Store)) (py : PyLib P) (lost : ℕ → ℕ × ℕ)
    (log : List (Call P × Outcome)) (b : PgBackend) : List (Call P × List Bool) → List (Call P × Outcome) × PgBackend
  | [] => (log, b)
  | (c, fs) :: calls =>
    let (outcome, b') := b.perform server py (lost log.length) fs c
    history server py lost (log ++ [(c, outcome)]) b' calls

end PgBackend

/-! ## One call -/

/-- The server answers the statements of the call as SQLite does, but for the numbers of the rows. -/
def Call.Alike {P : Type} (py : PyLib P) (server : (s : Stmt) → Store → Except PyErr (Reply s × Store)) (v : Store) :
    Call P → Prop
  | .stagePartial eventId payload =>
    ∀ t, payloadJson py payload = .ok t → (stageBody eventId t).Alike Renumbered exec server v v
  | .acknowledgeWrite now item => (acknowledgeBody py now [item]).Alike Renumbered exec server v v
  | .acknowledgeWritesBatch now items => (acknowledgeBody py now items).Alike Renumbered exec server v v
  | .recoverUncommitted => (recoverBody py).Alike Renumbered exec server v v
  | .addDatasetEdge src dst transformId eventTime schemaVersion payload =>
    (addDatasetEdgeBody py src dst transformId eventTime schemaVersion payload).Alike Renumbered exec server v v
  | .recordFieldMapping runId outputDataset inputDataset fieldMap =>
    (recordFieldMappingBody runId outputDataset inputDataset fieldMap).Alike Renumbered exec server v v
  | .storeRunEvent runId eventType payload =>
    (storeRunEventBody py runId eventType payload).Alike Renumbered exec server v v
  | .reopen => True
  | .skipNumbers _ _ => True

/-- Nothing is uncommitted. -/
def Backend.Closed (b : Backend) : Prop := b.session.durable = b.session.view

/-- With nothing open on the first, the same rows and the same graph. -/
structure Twins (b : Backend) (p : PgBackend) : Prop where
  closed : b.Closed
  tables : Renumbered b.session.view p.committed
  graph : b.graph = p.graph

/-- The same result, the same rows for good, the same graph. -/
structure Corresponds {β : Type} (x : β × Backend) (y : β × PgBackend) : Prop where
  result : x.1 = y.1
  durable : Renumbered x.2.session.durable y.2.committed
  graph : x.2.graph = y.2.graph

section Step
variable {P α : Type} {py : PyLib P} {server : (s : Stmt) → Store → Except PyErr (Reply s × Store)}
  {b : Backend} {p : PgBackend}

theorem Twins.durable (ht : Twins b p) : Renumbered b.session.durable p.committed := by
  have hclosed : b.session.durable = b.session.view := ht.closed
  rw [hclosed]
  exact ht.tables

theorem Twins.settled (ht : Twins b p) : Settled b := congrArg journal ht.closed

theorem Corresponds.map {β γ : Type} {x : β × Backend} {y : β × PgBackend} (h : Corresponds x y) (f : β → γ) :
    Corresponds (x.map f id) (y.map f id) :=
  ⟨congrArg f h.result, h.durable, h.graph⟩

/-- What SQLite makes of the statements on its own tables. -/
theorem Twins.alike (ht : Twins b p) {q : Sql α} (h : q.Alike Renumbered exec server p.committed p.committed) :
    q.Alike Renumbered exec server b.session.view p.committed :=
  h.from_related (fun s _ _ => agree_renumbered s) (fun _ _ _ => Renumbered.trans) ht.tables

theorem corresponds_guarded (ht : Twins b p) {q : Sql α}
    (h : q.Alike Renumbered exec server p.committed p.committed) (lost : ℕ × ℕ) (fs : List Bool) :
    Corresponds (b.guarded fs q) (p.borrowed server lost fs q) := by
  unfold Backend.guarded PgBackend.borrowed
  rcases Session.transaction_alike (d := ⟨p.committed, p.committed⟩) .operationalError (ht.alike h) ht.tables fs with
    ⟨e, hsqlite, hserver⟩ | ⟨a, v, w, hsqlite, hserver, hvw⟩
  · rw [hsqlite, hserver]
    exact ⟨rfl, ht.durable.skip lost.1 lost.2, ht.graph⟩
  · rw [hsqlite, hserver]
    exact ⟨rfl, hvw, ht.graph⟩

theorem corresponds_unguarded (ht : Twins b p) {q : Sql α}
    (h : q.Alike Renumbered exec server p.committed p.committed) (lost : ℕ × ℕ) (fs : List Bool) :
    Corresponds (b.unguarded fs q) (p.borrowed server lost fs q) := by
  unfold Backend.unguarded PgBackend.borrowed
  obtain ⟨v, w, hvw, ⟨e, hsqlite, hserver⟩ | ⟨a, hsqlite, hserver⟩⟩ :=
    Session.unguarded_transaction (d := ⟨p.committed, p.committed⟩) .operationalError (ht.alike h) ht.tables fs
  · rw [hsqlite, hserver]
    exact ⟨rfl, ht.durable.skip lost.1 lost.2, ht.graph⟩
  · rw [hsqlite, hserver]
    exact ⟨rfl, hvw, ht.graph⟩

theorem corresponds_batch (ht : Twins b p) {now : ClockText} {items : List (BatchWriteItem P)}
    (h : (acknowledgeBody py now items).Alike Renumbered exec server p.committed p.committed) (lost : ℕ × ℕ)
    (fs : List Bool) :
    Corresponds (b.acknowledgeWritesBatch py fs now items) (p.acknowledgeWritesBatch server py lost fs now items) := by
  unfold Backend.acknowledgeWritesBatch PgBackend.acknowledgeWritesBatch
  split
  · exact ⟨rfl, ht.durable, ht.graph⟩
  · exact corresponds_guarded ht h lost fs

theorem corresponds_stage (ht : Twins b p) {eventId : Str} {payload : P}
    (h : (Call.stagePartial eventId payload).Alike py server p.committed) (lost : ℕ × ℕ) (fs : List Bool) :
    Corresponds (b.stagePartial py fs eventId payload) (p.stagePartial server py lost fs eventId payload) := by
  unfold Backend.stagePartial PgBackend.stagePartial
  cases hpayload : payloadJson py payload with
  | ok t => exact corresponds_guarded ht (h t hpayload) lost fs
  | error e => exact ⟨rfl, ht.durable, ht.graph⟩

theorem corresponds_write (ht : Twins b p) {now : ClockText} {item : BatchWriteItem P}
    (h : (acknowledgeBody py now [item]).Alike Renumbered exec server p.committed p.committed) (lost : ℕ × ℕ)
    (fs : List Bool) :
    Corresponds (b.acknowledgeWrite py fs now item) (p.acknowledgeWrite server py lost fs now item) := by
  obtain ⟨hresult, hdurable, hgraph⟩ := corresponds_batch ht h lost fs
  unfold Backend.acknowledgeWrite PgBackend.acknowledgeWrite
  generalize b.acknowledgeWritesBatch py fs now [item] = x at hresult hdurable hgraph ⊢
  generalize p.acknowledgeWritesBatch server py lost fs now [item] = y at hresult hdurable hgraph ⊢
  obtain ⟨result, b'⟩ := x
  obtain ⟨result', p'⟩ := y
  dsimp only at hresult
  subst hresult
  rcases result with e | (- | ⟨r, results⟩)
  · exact ⟨rfl, hdurable, hgraph⟩
  · exact ⟨rfl, hdurable, hgraph⟩
  · exact ⟨rfl, hdurable, hgraph⟩

theorem corresponds_edge (ht : Twins b p) {src dst transformId eventTime : Str} {schemaVersion : ℤ} {payload : P}
    (h : (Call.addDatasetEdge src dst transformId eventTime schemaVersion payload).Alike py server p.committed)
    (lost : ℕ × ℕ) (fs : List Bool) :
    Corresponds (b.addDatasetEdge py fs src dst transformId eventTime schemaVersion payload)
      (p.addDatasetEdge server py lost fs src dst transformId eventTime schemaVersion payload) := by
  obtain ⟨hresult, hdurable, hgraph⟩ := corresponds_unguarded ht h lost fs
  unfold Backend.addDatasetEdge PgBackend.addDatasetEdge
  generalize b.unguarded fs _ = x at hresult hdurable hgraph ⊢
  generalize p.borrowed server lost fs _ = y at hresult hdurable hgraph ⊢
  obtain ⟨result, b'⟩ := x
  obtain ⟨result', p'⟩ := y
  dsimp only at hresult hgraph
  subst hresult
  rcases result with e | u
  · exact ⟨rfl, hdurable, hgraph⟩
  · exact ⟨rfl, hdurable, congrArg (addEdge (src, dst)) hgraph⟩

/-- Its table has no numbers in the model, so none are lost. -/
theorem recordFieldMapping_borrowed (fs : List Bool) (runId outputDataset inputDataset : Str)
    (fieldMap : List (Str × SqlParam)) :
    p.recordFieldMapping server fs runId outputDataset inputDataset fieldMap =
      p.borrowed server (0, 0) fs (recordFieldMappingBody runId outputDataset inputDataset fieldMap) := by
  unfold PgBackend.recordFieldMapping pgRecordFieldMapping PgBackend.borrowed
  rcases Session.transaction server .operationalError fs _ _ with ⟨e | a, connection⟩
  · rfl
  · rfl

theorem corresponds_perform (ht : Twins b p) {c : Call P} (h : c.Alike py server p.committed) (lost : ℕ × ℕ)
    (fs : List Bool) : Corresponds (c.perform py fs b) (p.perform server py lost fs c) := by
  cases c with
  | stagePartial eventId payload => exact (corresponds_stage ht h lost fs).map _
  | acknowledgeWrite now item => exact (corresponds_write ht h lost fs).map _
  | acknowledgeWritesBatch now items => exact (corresponds_batch ht h lost fs).map _
  | recoverUncommitted => exact (corresponds_guarded ht h lost fs).map _
  | addDatasetEdge src dst transformId eventTime schemaVersion payload =>
    exact (corresponds_edge ht h lost fs).map _
  | recordFieldMapping runId outputDataset inputDataset fieldMap =>
    have hmapping := corresponds_unguarded ht h (0, 0) fs
    rw [← recordFieldMapping_borrowed] at hmapping
    exact hmapping.map _
  | storeRunEvent runId eventType payload => exact (corresponds_unguarded ht h lost fs).map _
  | reopen =>
    refine ⟨rfl, ht.durable, ?_⟩
    have hedges := (unnumbered_tables ht.durable.rows).1
    simp only [Call.perform, PgBackend.perform, Backend.reopen, Backend.opened, PgBackend.opened, Backend.loadGraph,
      hedges]
  | skipNumbers seq id =>
    exact ⟨rfl, ⟨ht.durable.rows, ht.durable.left.skip seq id, ht.durable.right.skip seq id⟩, ht.graph⟩

/-- Only rows without a number can be uncommitted. -/
theorem closed_of_rows (hs : Settled b) (hrows : b.session.durable.1.unnumbered = b.session.view.1.unnumbered) :
    b.Closed := by
  obtain ⟨hidempotency, hledger, hstaging, hnumbers⟩ := journal_ext.1 hs
  obtain ⟨hedges, hmappings, hevents⟩ := unnumbered_tables hrows
  unfold Backend.Closed
  generalize b.session.durable = v at *
  generalize b.session.view = w at *
  obtain ⟨⟨idempotency, ledger, walStaging, datasetEdges, fieldMappings, runEvents⟩, numbers⟩ := v
  dsimp only at hidempotency hledger hstaging hnumbers hedges hmappings hevents
  rw [hidempotency, hledger, hstaging, hnumbers, hedges, hmappings, hevents]

theorem twins_opened {v : Store} (h : Counted v) : Twins (.opened v) (.opened v) := ⟨rfl, renumbered_self h, rfl⟩

end Step

/-! ## A history of calls -/

section History
variable {P : Type} (py : PyLib P) (server : (s : Stmt) → Store → Except PyErr (Reply s × Store)) (lost : ℕ → ℕ × ℕ)

/-- The calls came to the same, and the backends hold the same rows in the same order and the same graph. -/
structure Indistinguishable (x : List (Call P × Outcome) × Backend) (y : List (Call P × Outcome) × PgBackend) :
    Prop where
  log : x.1 = y.1
  tables : x.2.session.view.1.unnumbered = y.2.committed.1.unnumbered
  graph : x.2.graph = y.2.graph

/-- Each call, from the `n`-th on, finds a server that answers alike. -/
def AllAlike : ℕ → PgBackend → List (Call P × List Bool) → Prop
  | _, _, [] => True
  | n, p, (c, fs) :: calls =>
    c.Alike py server p.committed ∧ AllAlike (n + 1) (p.perform server py (lost n) fs c).2 calls

variable {py server lost}

theorem interchangeable_from (log : List (Call P × Outcome)) {b : Backend} {p : PgBackend} (ht : Twins b p)
    {calls : List (Call P × List Bool)} (h : AllAlike py server lost log.length p calls) :
    (∀ n, Indistinguishable (history py log b (calls.take n)) (p.history server py lost log (calls.take n))) ↔
      ∀ n, (history py log b (calls.take n)).2.Closed := by
  induction calls generalizing log b p with
  | nil =>
    simp only [List.take_nil]
    exact iff_of_true (fun _ => ⟨rfl, ht.tables.rows, ht.graph⟩) fun _ => ht.closed
  | cons call calls ih =>
    obtain ⟨c, fs⟩ := call
    obtain ⟨hc, hrest⟩ := h
    obtain ⟨hresult, hdurable, hgraph⟩ := corresponds_perform ht hc (lost log.length) fs
    have hsettled : Settled (c.perform py fs b).2 := (perform_cases c fs ht.settled).settled ht.settled
    have hsqlite : ∀ n, history py log b (((c, fs) :: calls).take (n + 1)) =
        history py (log ++ [(c, (c.perform py fs b).1)]) (c.perform py fs b).2 (calls.take n) := fun n => rfl
    have hserver : ∀ n, p.history server py lost log (((c, fs) :: calls).take (n + 1)) =
        (p.perform server py (lost log.length) fs c).2.history server py lost
          (log ++ [(c, (c.perform py fs b).1)]) (calls.take n) := by
      intro n
      rw [hresult]
      rfl
    -- where the first call leaves nothing open, the two go on as twins
    have hrest' : (c.perform py fs b).2.Closed →
        ((∀ n, Indistinguishable (history py log b (((c, fs) :: calls).take (n + 1)))
            (p.history server py lost log (((c, fs) :: calls).take (n + 1)))) ↔
          ∀ n, (history py log b (((c, fs) :: calls).take (n + 1))).2.Closed) := by
      intro hclosed
      have hview : (c.perform py fs b).2.session.durable = (c.perform py fs b).2.session.view := hclosed
      simp only [hsqlite, hserver]
      refine ih _ ⟨hclosed, hview ▸ hdurable, hgraph⟩ ?_
      rw [List.length_append, List.length_singleton]
      exact hrest
    constructor
    · intro hsame n
      cases n with
      | zero => exact ht.closed
      | succ n =>
        have hfirst : (c.perform py fs b).2.Closed :=
          closed_of_rows hsettled (hdurable.rows.trans (hsame 1).tables.symm)
        exact (hrest' hfirst).1 (fun m => hsame (m + 1)) n
    · intro hclosed n
      cases n with
      | zero => exact ⟨rfl, ht.tables.rows, ht.graph⟩
      | succ n => exact (hrest' (hclosed 1)).2 (fun m => hclosed (m + 1)) n

/-- **The backends are interchangeable exactly while SQLite leaves nothing open.** Let both be opened on the
same tables, the same calls be made on them, with any arguments, failures and reopenings, and PostgreSQL answer
their statements as SQLite does, whatever numbers it gives to the rows. Then the calls come to the same on both,
and both hold the same rows and the same graph, at every point, if and only if at no point has a call of the
SQLite backend left a row uncommitted. -/
theorem interchangeable {v : Store} (hv : Counted v) {calls : List (Call P × List Bool)}
    (h : AllAlike py server lost 0 (.opened v) calls) :
    (∀ n, Indistinguishable (history py [] (.opened v) (calls.take n))
        ((PgBackend.opened v).history server py lost [] (calls.take n))) ↔
      ∀ n, (history py [] (.opened v) (calls.take n)).2.Closed :=
  interchangeable_from [] (twins_opened hv) h

theorem allAlike_exec (n : ℕ) {p : PgBackend} (hp : Counted p.committed) (calls : List (Call P × List Bool)) :
    AllAlike py exec lost n p calls := by
  induction calls generalizing n p with
  | nil => trivial
  | cons call calls ih =>
    obtain ⟨c, fs⟩ := call
    have hself : ∀ {α : Type} (q : Sql α), q.Alike Renumbered exec exec p.committed p.committed := fun q =>
      Prog.alike_of_agree (fun s _ _ => agree_renumbered s) q (renumbered_self hp)
    have hc : c.Alike py exec p.committed := by
      cases c with
      | stagePartial eventId payload => exact fun t _ => hself _
      | reopen => trivial
      | skipNumbers seq id => trivial
      | _ => exact hself _
    have htwins : Twins ⟨⟨p.committed, p.committed⟩, p.graph⟩ p := ⟨rfl, renumbered_self hp, rfl⟩
    exact ⟨hc, ih (n + 1) (corresponds_perform htwins hc (lost n) fs).durable.right⟩

end History

/-- The commit of the first call fails. The second goes through. -/
def openThenStage : List (Call Json × List Bool) :=
  [(.addDatasetEdge (lit "a") (lit "b") (lit "t") (lit "now") 1 .null, [false, true]),
    (.stagePartial (lit "e") .null, [])]

/-- **The two are told apart**: SQLite keeps the edge of the call that raised. -/
theorem interchangeable_open :
    let sqlite := history PyLib.fixed [] (.opened (Db.empty, .zero)) openThenStage
    let postgres := (PgBackend.opened (Db.empty, .zero)).history exec PyLib.fixed (fun _ => (0, 1)) [] openThenStage
    sqlite.1 = postgres.1 ∧ tableEdges sqlite.2.session.durable.1 = [(lit "a", lit "b")] ∧
      tableEdges postgres.2.committed.1 = [] ∧
      ¬ ∀ n, Indistinguishable (history PyLib.fixed [] (.opened (Db.empty, .zero)) (openThenStage.take n))
        ((PgBackend.opened (Db.empty, .zero)).history exec PyLib.fixed (fun _ => (0, 1)) [] (openThenStage.take n)) := by
  refine ⟨rfl, by decide, by decide, fun hsame => ?_⟩
  have hclosed := (interchangeable counted_empty (allAlike_exec 0 counted_empty openThenStage)).1 hsame 1
  exact absurd hclosed (by unfold Backend.Closed; decide)

end LineageVault
