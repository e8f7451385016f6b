import LineageVault.Storage.SqliteBackend
import LineageVault.Storage.Spec

/-! # Histories of one backend

A history is any sequence of calls on a backend that was opened on an empty file, each call with its
arguments and its schedule of failures, and with reopenings of the file in between. `Run log b`: the
calls of `log` were made in this order, with these outcomes, and `b` is the backend now.

`skipNumbers` stands for numbers that are lost (a rollback may or may not return them).

The three tables of the write path and the numbers form the `Journal`. Every call that is not rolled
back commits it, so between calls the connection sees the durable journal (`Settled`); only rows of
the other tables can be left uncommitted. `perform_cases` says once what a call does to it.
-/

namespace LineageVault
open Foundations
set_option autoImplicit false

variable {P : Type} (py : PyLib P)

inductive Call (P : Type) where
  | stagePartial (eventId : Str) (payload : P)
  | acknowledgeWrite (now : ClockText) (item : BatchWriteItem P)
  | acknowledgeWritesBatch (now : ClockText) (items : List (BatchWriteItem P))
  | recoverUncommitted
  | addDatasetEdge (src dst transformId eventTime : Str) (schemaVersion : ℤ) (payload : P)
  | recordFieldMapping (runId outputDataset inputDataset : Str) (fieldMap : List (Str × SqlParam))
  | storeRunEvent (runId eventType : Str) (payload : P)
  | reopen
  | skipNumbers (seq id : ℕ)

namespace Outcome

def ofUnit : Except PyErr Unit → Outcome
  | .ok _ => .done
  | .error e => .raised e

def ofAcks : Except PyErr (List AcknowledgedWrite) → Outcome
  | .ok rs => .acks rs
  | .error e => .raised e

def ofAck : Except PyErr AcknowledgedWrite → Outcome
  | .ok r => .acks [r]
  | .error e => .raised e

def ofCount : Except PyErr ℕ → Outcome
  | .ok n => .recovered n
  | .error e => .raised e

end Outcome

def Numbers.skip (n : Numbers) (seq id : ℕ) : Numbers := ⟨n.seq + seq, n.id + id⟩

def Backend.skipNumbers (b : Backend) (seq id : ℕ) : Backend :=
  { b with
    session := ⟨(b.session.durable.1, b.session.durable.2.skip seq id),
      (b.session.view.1, b.session.view.2.skip seq id)⟩ }

namespace Call

/-- The items a call asks to acknowledge. -/
def items : Call P → List (BatchWriteItem P)
  | .acknowledgeWrite _ item => [item]
  | .acknowledgeWritesBatch _ items => items
  | _ => []

def perform (fs : List Bool) (b : Backend) : Call P → Outcome × Backend
  | .stagePartial eventId payload => (b.stagePartial py fs eventId payload).map .ofUnit id
  | .acknowledgeWrite now item => (b.acknowledgeWrite py fs now item).map .ofAck id
  | .acknowledgeWritesBatch now items => (b.acknowledgeWritesBatch py fs now items).map .ofAcks id
  | .recoverUncommitted => (b.recoverUncommitted py fs).map .ofCount id
  | .addDatasetEdge src dst transformId eventTime schemaVersion payload =>
    (b.addDatasetEdge py fs src dst transformId eventTime schemaVersion payload).map .ofUnit id
  | .recordFieldMapping runId outputDataset inputDataset fieldMap =>
    (b.recordFieldMapping fs runId outputDataset inputDataset fieldMap).map .ofUnit id
  | .storeRunEvent runId eventType payload =>
    (b.storeRunEvent py fs runId eventType payload).map .ofUnit id
  | .reopen => (.done, b.reopen)
  | .skipNumbers seq id => (.done, b.skipNumbers seq id)

end Call

inductive Run : List (Call P × Outcome) → Backend → Prop where
  | nil : Run [] Backend.empty
  | snoc {log : List (Call P × Outcome)} {b : Backend} (c : Call P) (fs : List Bool) :
      Run log b → Run (log ++ [(c, (c.perform py fs b).1)]) (c.perform py fs b).2

def Reachable (b : Backend) : Prop := ∃ log, Run py log b

/-- Make the calls in order, each with its schedule of failures. -/
def history (log : List (Call P × Outcome)) (b : Backend) :
    List (Call P × List Bool) → List (Call P × Outcome) × Backend
  | [] => (log, b)
  | (c, fs) :: calls => history (log ++ [(c, (c.perform py fs b).1)]) (c.perform py fs b).2 calls

theorem Run.history {py : PyLib P} {log : List (Call P × Outcome)} {b : Backend}
    (h : Run py log b) (calls : List (Call P × List Bool)) :
    Run py (history py log b calls).1 (history py log b calls).2 := by
  induction calls generalizing log b with
  | nil => exact h
  | cons call calls ih => exact ih (.snoc call.1 call.2 h)

section Reachable
variable {py : PyLib P} {b : Backend} (h : Reachable py b)
include h

theorem Reachable.perform (fs : List Bool) (c : Call P) : Reachable py (c.perform py fs b).2 := by
  obtain ⟨log, hrun⟩ := h
  exact ⟨_, .snoc c fs hrun⟩

theorem Reachable.stagePartial (eventId : Str) (payload : P) :
    Reachable py (b.stagePartial py [] eventId payload).2 := h.perform [] (.stagePartial eventId payload)

theorem Reachable.acknowledgeWrite (now : ClockText) (item : BatchWriteItem P) :
    Reachable py (b.acknowledgeWrite py [] now item).2 := h.perform [] (.acknowledgeWrite now item)

theorem Reachable.recoverUncommitted : Reachable py (b.recoverUncommitted py []).2 :=
  h.perform [] .recoverUncommitted

end Reachable

/-! ## The journal -/

structure Journal where
  idempotency : List IdempotencyRow
  ledger : List LedgerRow
  walStaging : List StagingRow
  numbers : Numbers

def journal (v : Store) : Journal := ⟨v.1.idempotency, v.1.ledger, v.1.walStaging, v.2⟩

/-- The journal the connection sees is durable. -/
def Settled (b : Backend) : Prop := journal b.session.durable = journal b.session.view

variable {py}

theorem journal_ext {v w : Store} : journal v = journal w ↔
    v.1.idempotency = w.1.idempotency ∧ v.1.ledger = w.1.ledger ∧
      v.1.walStaging = w.1.walStaging ∧ v.2 = w.2 := by
  simp [journal]

/-- Statements on the other three tables. -/
def Stmt.lineage : Stmt → Prop
  | .insertEdge .. => True
  | .insertMapping .. => True
  | .upsertRunEvent .. => True
  | _ => False

theorem exec_lineage {J : Journal} (s : Stmt) (v : Store) (r : Reply s) (w : Store)
    (hs : s.lineage) (hv : journal v = J) (h : exec s v = .ok (r, w)) : journal w = J := by
  subst hv
  cases s with
  | insertEdge =>
    obtain ⟨-, -, rfl⟩ := insertEdge_ok h
    rfl
  | insertMapping =>
    obtain ⟨_, -, -, rfl⟩ := insertMapping_ok h
    rfl
  | upsertRunEvent =>
    obtain ⟨-, rfl⟩ := upsertRunEvent_ok h
    rfl
  | _ => exact hs.elim

theorem uses_addDatasetEdge (py : PyLib P) (src dst transformId eventTime : Str) (schemaVersion : ℤ) (payload : P) :
    (addDatasetEdgeBody py src dst transformId eventTime schemaVersion payload).Uses Stmt.lineage :=
  Prog.uses_ofExcept_bind fun _ => ⟨trivial, fun _ => trivial⟩

theorem uses_storeRunEvent (py : PyLib P) (runId eventType : Str) (payload : P) :
    (storeRunEventBody py runId eventType payload).Uses Stmt.lineage :=
  Prog.uses_ofExcept_bind fun _ => ⟨trivial, fun _ => trivial⟩

theorem uses_insertMapping {allowed : Stmt → Prop} {runId outputDataset inputDataset : Str}
    (h : ∀ outField inField, allowed (.insertMapping runId outputDataset inputDataset outField inField))
    (fieldMap : List (Str × SqlParam)) :
    (recordFieldMappingBody runId outputDataset inputDataset fieldMap).Uses allowed := by
  induction fieldMap with
  | nil => trivial
  | cons f fieldMap ih => exact ⟨h f.1 f.2, fun _ => ih⟩

theorem uses_recordFieldMapping (runId outputDataset inputDataset : Str)
    (fieldMap : List (Str × SqlParam)) :
    (recordFieldMappingBody runId outputDataset inputDataset fieldMap).Uses Stmt.lineage :=
  uses_insertMapping (fun _ _ => trivial) fieldMap

theorem unguarded_journal {α : Type} {p : Sql α} (hp : p.Uses Stmt.lineage) (fs : List Bool)
    {b : Backend} (hb : Settled b) :
    Settled (b.unguarded fs p).2 ∧
      journal (b.unguarded fs p).2.session.view = journal b.session.view := by
  have h := Session.unguarded_keeps exec .operationalError (P := fun v => journal v = journal b.session.view)
    exec_lineage hp fs hb rfl
  exact ⟨h.1.trans h.2.symm, h.2⟩

/-! ## What a call does to the journal -/

/-- The new journal, the outcome and, for a call that went through, its program. -/
inductive JournalStep (py : PyLib P) (b : Backend) : Call P → Outcome → Backend → Prop where
  | raised {c : Call P} {b' : Backend} (e : PyErr) (settled : Settled b')
      (same : journal b'.session.view = journal b.session.view) : JournalStep py b c (.raised e) b'
  | other {c : Call P} {b' : Backend} (noItems : c.items = []) (settled : Settled b')
      (same : journal b'.session.view = journal b.session.view) : JournalStep py b c .done b'
  | skipped (seq id : ℕ) : JournalStep py b (.skipNumbers seq id) .done (b.skipNumbers seq id)
  | emptyBatch (now : ClockText) : JournalStep py b (.acknowledgeWritesBatch now []) (.acks []) b
  | stage {eventId payloadText : Str} {payload : P} {w : Store}
      (text : payloadJson py payload = .ok payloadText)
      (eval : (stageBody eventId payloadText).eval exec b.session.view = .ok ((), w)) :
      JournalStep py b (.stagePartial eventId payload) .done { b with session := ⟨w, w⟩ }
  | acknowledge {c : Call P} {now : ClockText} {rs : List AcknowledgedWrite} {w : Store}
      (ack : c = .acknowledgeWritesBatch now c.items ∨ ∃ item, c = .acknowledgeWrite now item)
      (eval : (acknowledgeBody py now c.items).eval exec b.session.view = .ok (rs, w)) :
      JournalStep py b c (.acks rs) { b with session := ⟨w, w⟩ }
  | recover {n : ℕ} {w : Store}
      (eval : (recoverBody py).eval exec b.session.view = .ok (n, w)) :
      JournalStep py b .recoverUncommitted (.recovered n) { b with session := ⟨w, w⟩ }

theorem guarded_cases {α : Type} (fs : List Bool) (p : Sql α) (b : Backend) :
    (∃ e, b.guarded fs p = (.error e, { b with session := b.session.rollback })) ∨
    (∃ a w, p.eval exec b.session.view = .ok (a, w) ∧
      b.guarded fs p = (.ok a, { b with session := ⟨w, w⟩ })) := by
  rcases Session.transaction_cases exec .operationalError fs p b.session with ⟨e, h⟩ | ⟨a, w, he, h⟩
  · exact .inl ⟨e, by rw [Backend.guarded, h]⟩
  · exact .inr ⟨a, w, he, by rw [Backend.guarded, h]⟩

/-- A transaction that returned has committed what its text evaluates to. -/
theorem guarded_returned {α : Type} {fs : List Bool} {p : Sql α} {b b' : Backend} {a : α}
    (h : b.guarded fs p = (.ok a, b')) :
    ∃ w, p.eval exec b.session.view = .ok (a, w) ∧ b' = { b with session := ⟨w, w⟩ } := by
  rcases guarded_cases fs p b with ⟨e, hg⟩ | ⟨a', w, he, hg⟩
  · cases h.symm.trans hg
  · cases h.symm.trans hg
    exact ⟨w, he, rfl⟩

theorem batch_returned {fs : List Bool} {now : ClockText} {items : List (BatchWriteItem P)} {b b' : Backend}
    {rs : List AcknowledgedWrite} (hne : items ≠ [])
    (h : b.acknowledgeWritesBatch py fs now items = (.ok rs, b')) :
    ∃ w, (acknowledgeBody py now items).eval exec b.session.view = .ok (rs, w) ∧
      b' = { b with session := ⟨w, w⟩ } := by
  rw [Backend.acknowledgeWritesBatch, if_neg (by simpa using hne)] at h
  exact guarded_returned h

theorem acknowledgeBody_length {now : ClockText} {items : List (BatchWriteItem P)} {v w : Store}
    {rs : List AcknowledgedWrite} (h : (acknowledgeBody py now items).eval exec v = .ok (rs, w)) :
    rs.length = items.length := by
  obtain ⟨existing, hlen⟩ := acknowledgeLoop_keeps
    (J := fun past _ _ results => results.length = past.length)
    (by intros; simp_all) (by intros; simp_all) [] rfl (acknowledgeBody_cases h)
  exact hlen

theorem acknowledge_singleton_cases (fs : List Bool) (now : ClockText) (item : BatchWriteItem P)
    (b : Backend) :
    (∃ e, b.acknowledgeWrite py fs now item = (.error e, { b with session := b.session.rollback })) ∨
    (∃ r w, (acknowledgeBody py now [item]).eval exec b.session.view = .ok ([r], w) ∧
      b.acknowledgeWrite py fs now item = (.ok r, { b with session := ⟨w, w⟩ })) := by
  have hb : b.acknowledgeWritesBatch py fs now [item] = b.guarded fs (acknowledgeBody py now [item]) :=
    rfl
  unfold Backend.acknowledgeWrite
  rw [hb]
  rcases guarded_cases fs (acknowledgeBody py now [item]) b with ⟨e, h⟩ | ⟨rs, w, he, h⟩
  · exact .inl ⟨e, by rw [h]⟩
  · obtain ⟨r, rfl⟩ := List.length_eq_one_iff.1 (acknowledgeBody_length he)
    exact .inr ⟨r, w, he, by rw [h]⟩

theorem acknowledgeWrite_returned {fs : List Bool} {now : ClockText} {item : BatchWriteItem P} {b b' : Backend}
    {r : AcknowledgedWrite} (h : b.acknowledgeWrite py fs now item = (.ok r, b')) :
    ∃ w, (acknowledgeBody py now [item]).eval exec b.session.view = .ok ([r], w) ∧
      b' = { b with session := ⟨w, w⟩ } := by
  rcases acknowledge_singleton_cases fs now item b with ⟨e, hg⟩ | ⟨r', w, he, hg⟩
  · cases h.symm.trans hg
  · cases h.symm.trans hg
    exact ⟨w, he, rfl⟩

/-- A call that returns nothing and keeps the journal. -/
theorem journalStep_ofUnit {b : Backend} {c : Call P} (hc : c.items = []) {x : Except PyErr Unit × Backend}
    (hx : Settled x.2) (hsame : journal x.2.session.view = journal b.session.view) :
    JournalStep py b c (x.map Outcome.ofUnit id).1 (x.map Outcome.ofUnit id).2 := by
  obtain ⟨e | a, b'⟩ := x
  · exact .raised e hx hsame
  · exact .other hc hx hsame

theorem perform_cases (c : Call P) (fs : List Bool) {b : Backend} (hb : Settled b) :
    JournalStep py b c (c.perform py fs b).1 (c.perform py fs b).2 := by
  have hroll : ∀ (c : Call P) (e : PyErr),
      JournalStep py b c (.raised e) { b with session := b.session.rollback } :=
    fun c e => .raised e rfl hb
  cases c with
  | stagePartial eventId payload =>
    simp only [Call.perform, Backend.stagePartial]
    cases hp : payloadJson py payload with
    | error e => exact .raised e hb rfl
    | ok payloadText =>
      rcases guarded_cases fs (stageBody eventId payloadText) b with ⟨e, h⟩ | ⟨a, w, he, h⟩
      · simp only [h]; exact hroll _ e
      · simp only [h]; exact .stage hp he
  | acknowledgeWrite now item =>
    simp only [Call.perform]
    rcases acknowledge_singleton_cases fs now item b with ⟨e, h⟩ | ⟨r, w, he, h⟩
    · rw [h]; exact hroll _ e
    · rw [h]; exact .acknowledge (.inr ⟨item, rfl⟩) he
  | acknowledgeWritesBatch now items =>
    simp only [Call.perform, Backend.acknowledgeWritesBatch]
    cases items with
    | nil => exact .emptyBatch now
    | cons item items =>
      simp only [List.isEmpty_cons, Bool.false_eq_true, if_false]
      rcases guarded_cases fs (acknowledgeBody py now (item :: items)) b with ⟨e, h⟩ | ⟨rs, w, he, h⟩
      · rw [h]; exact hroll _ e
      · rw [h]; exact .acknowledge (.inl rfl) he
  | recoverUncommitted =>
    simp only [Call.perform, Backend.recoverUncommitted]
    rcases guarded_cases fs (recoverBody py) b with ⟨e, h⟩ | ⟨n, w, he, h⟩
    · rw [h]; exact hroll _ e
    · rw [h]; exact .recover he
  | addDatasetEdge src dst transformId eventTime schemaVersion payload =>
    have h := unguarded_journal (uses_addDatasetEdge py src dst transformId eventTime
      schemaVersion payload) fs hb
    simp only [Call.perform, Backend.addDatasetEdge]
    split
    · next a b' hu => rw [hu] at h; exact .other rfl h.1 h.2
    · next e b' hu => rw [hu] at h; exact .raised e h.1 h.2
  | recordFieldMapping runId outputDataset inputDataset fieldMap =>
    have h := unguarded_journal (uses_recordFieldMapping runId outputDataset inputDataset fieldMap)
      fs hb
    exact journalStep_ofUnit rfl h.1 h.2
  | storeRunEvent runId eventType payload =>
    have h := unguarded_journal (uses_storeRunEvent py runId eventType payload) fs hb
    exact journalStep_ofUnit rfl h.1 h.2
  | reopen => exact .other rfl rfl hb
  | skipNumbers seq id => exact .skipped seq id

theorem JournalStep.settled {b b' : Backend} {c : Call P} {o : Outcome} (hb : Settled b)
    (h : JournalStep py b c o b') : Settled b' := by
  cases h with
  | raised e settled same => exact settled
  | other noItems settled same => exact settled
  | skipped seq id =>
    obtain ⟨h1, h2, h3, h4⟩ := journal_ext.1 hb
    exact journal_ext.2 ⟨h1, h2, h3, by simp only [Backend.skipNumbers, h4]⟩
  | emptyBatch now => exact hb
  | stage text eval => rfl
  | acknowledge ack eval => rfl
  | recover eval => rfl

theorem Run.settled {log : List (Call P × Outcome)} {b : Backend} (h : Run py log b) : Settled b := by
  induction h with
  | nil => rfl
  | snoc c fs _ ih => exact (perform_cases c fs ih).settled ih

end LineageVault
