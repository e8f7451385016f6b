import LineageVault.Foundations.Related
import LineageVault.Storage.FieldImpact

/-! # What is left of a `record_field_mapping` that raises

On SQLite the rows inserted before the one that raises stay in the open transaction of the connection.
Nothing reads them but `field_impact`, so a later call does what it does without them, and by how that
call ends they become durable or are gone. `recordFieldMapping_kept_iff` says for every continuation
which of the two.
-/

namespace LineageVault
open Foundations
set_option autoImplicit false

/-! ## The code -/

/-- `PostgresStorageBackend.record_field_mapping` on the committed store. The connection of the pool is
rolled back when anything raises. `server` is what the server makes of a statement. -/
def pgRecordFieldMapping (server : (s : Stmt) → Store → Except PyErr (Reply s × Store)) (fs : List Bool)
    (runId outputDataset inputDataset : Str) (fieldMap : List (Str × SqlParam)) (committed : Store) :
    Except PyErr Unit × Store :=
  let (result, connection) := Session.transaction server .operationalError fs
    (recordFieldMappingBody runId outputDataset inputDataset fieldMap) ⟨committed, committed⟩
  (result, connection.durable)

/-- `migrate()` where the schema is up to date: two statements, and the commit. -/
def Backend.migrate (fs : List Bool) (b : Backend) : Outcome × Backend :=
  if (fs.take 3).any id then (.raised .operationalError, { b with session := b.session.rollback })
  else (.done, { b with session := ⟨b.session.view, b.session.view⟩ })

inductive LaterCall (P : Type) where
  | call (c : Call P) (fs : List Bool)
  | migrate (fs : List Bool)

section Later
variable {P : Type} (py : PyLib P)

def LaterCall.perform (b : Backend) : LaterCall P → Outcome × Backend
  | .call c fs => c.perform py fs b
  | .migrate fs => b.migrate fs

/-- What the calls leave, made in order. -/
def afterCalls (b : Backend) (calls : List (LaterCall P)) : Backend :=
  calls.foldl (fun b c => (c.perform py b).2) b

/-! ## How a call ends a transaction -/

inductive Ending where
  | committed
  | rolledBack
  | leftOpen
  deriving DecidableEq

/-- What a call has done to the open transaction, by what it came to. -/
def Call.ending : Call P → Outcome → Ending
  | .reopen, _ => .rolledBack
  | .skipNumbers _ _, _ => .leftOpen
  | .acknowledgeWritesBatch _ [], _ => .leftOpen
  | .stagePartial _ payload, .raised _ =>
    match payloadJson py payload with
    | .ok _ => .rolledBack
    | .error _ => .leftOpen
  | .acknowledgeWrite _ _, .raised _ => .rolledBack
  | .acknowledgeWritesBatch _ _, .raised _ => .rolledBack
  | .recoverUncommitted, .raised _ => .rolledBack
  | _, .raised _ => .leftOpen
  | _, _ => .committed

def LaterCall.ending : LaterCall P → Outcome → Ending
  | .call c _, o => c.ending py o
  | .migrate _, .raised _ => .rolledBack
  | .migrate _, _ => .committed

/-- The first of the calls that ends the open transaction commits it. -/
def CommitsFirst : Backend → List (LaterCall P) → Prop
  | _, [] => False
  | b, c :: calls =>
    match c.ending py (c.perform py b).1 with
    | .committed => True
    | .rolledBack => False
    | .leftOpen => CommitsFirst (c.perform py b).2 calls

end Later

/-! ## Two backends that differ in what no call sees -/

/-- What one call makes of two sessions. -/
inductive Ended (Rel : Store → Store → Prop) (c d : Session Store) :
    Ending → Session Store → Session Store → Prop where
  | committed {v w : Store} (related : Rel v w) : Ended Rel c d .committed ⟨v, v⟩ ⟨w, w⟩
  | rolledBack : Ended Rel c d .rolledBack c.rollback d.rollback
  | leftOpen {v w : Store} (related : Rel v w) :
      Ended Rel c d .leftOpen { c with view := v } { d with view := w }
  | skipped {c' d' : Session Store} (seq id : ℕ) (durable : c'.durable = (c.durable.1, c.durable.2.skip seq id))
      (durable' : d'.durable = (d.durable.1, d.durable.2.skip seq id))
      (view : c'.view = (c.view.1, c.view.2.skip seq id))
      (view' : d'.view = (d.view.1, d.view.2.skip seq id)) : Ended Rel c d .leftOpen c' d'

/-- A relation that no statement sees. -/
structure Unseen (Rel : Store → Store → Prop) : Prop where
  exec : ∀ (s : Stmt) (v w : Store), Rel v w → Agree Rel (exec s v) (exec s w)
  skip : ∀ (v w : Store) (seq id : ℕ), Rel v w → Rel (v.1, v.2.skip seq id) (w.1, w.2.skip seq id)

section Related
variable {P : Type} {py : PyLib P} {Rel : Store → Store → Prop} {b b' : Backend}

theorem guarded_related {α : Type} (hRel : Unseen Rel) (fs : List Bool) (p : Sql α)
    (h : Rel b.session.view b'.session.view) :
    (∃ e, b.guarded fs p = (.error e, { b with session := b.session.rollback }) ∧
      b'.guarded fs p = (.error e, { b' with session := b'.session.rollback })) ∨
    ∃ a v w, b.guarded fs p = (.ok a, { b with session := ⟨v, v⟩ }) ∧
      b'.guarded fs p = (.ok a, { b' with session := ⟨w, w⟩ }) ∧ Rel v w := by
  unfold Backend.guarded
  rcases Session.transaction_related .operationalError hRel.exec p fs h with ⟨e, h₁, h₂⟩ | ⟨a, v, w, h₁, h₂, hvw⟩
  · exact .inl ⟨e, by rw [h₁], by rw [h₂]⟩
  · exact .inr ⟨a, v, w, by rw [h₁], by rw [h₂], hvw⟩

theorem unguarded_related {α : Type} (hRel : Unseen Rel) (fs : List Bool) (p : Sql α)
    (h : Rel b.session.view b'.session.view) :
    ∃ v w, Rel v w ∧
      ((∃ e, b.unguarded fs p = (.error e, { b with session := { b.session with view := v } }) ∧
        b'.unguarded fs p = (.error e, { b' with session := { b'.session with view := w } })) ∨
      ∃ a, b.unguarded fs p = (.ok a, { b with session := ⟨v, v⟩ }) ∧
        b'.unguarded fs p = (.ok a, { b' with session := ⟨w, w⟩ })) := by
  unfold Backend.unguarded
  obtain ⟨v, w, hvw, ⟨e, h₁, h₂⟩ | ⟨a, h₁, h₂⟩⟩ := Session.unguarded_related .operationalError hRel.exec p fs h
  · exact ⟨v, w, hvw, .inl ⟨e, by rw [h₁], by rw [h₂]⟩⟩
  · exact ⟨v, w, hvw, .inr ⟨a, by rw [h₁], by rw [h₂]⟩⟩

/-- A call in a transaction of its own, whatever its result is shown as. -/
theorem guarded_ends {α : Type} (hRel : Unseen Rel) (fs : List Bool) (p : Sql α)
    (h : Rel b.session.view b'.session.view) (shown : Except PyErr α → Outcome) {ending : Outcome → Ending}
    (hraised : ∀ e, ending (shown (.error e)) = .rolledBack)
    (hreturned : ∀ a w, p.eval exec b.session.view = .ok (a, w) → ending (shown (.ok a)) = .committed) :
    shown (b'.guarded fs p).1 = shown (b.guarded fs p).1 ∧
      Ended Rel b.session b'.session (ending (shown (b.guarded fs p).1)) (b.guarded fs p).2.session
        (b'.guarded fs p).2.session := by
  rcases guarded_related hRel fs p h with ⟨e, h₁, h₂⟩ | ⟨a, v, w, h₁, h₂, hvw⟩
  · rw [h₁, h₂, hraised]
    exact ⟨rfl, .rolledBack⟩
  · obtain ⟨u, he, -⟩ := guarded_returned h₁
    rw [h₁, h₂, hreturned a u he]
    exact ⟨rfl, .committed hvw⟩

/-- A call that is not rolled back where it raises. -/
theorem unguarded_ends {α : Type} (hRel : Unseen Rel) (fs : List Bool) (p : Sql α)
    (h : Rel b.session.view b'.session.view) (shown : Except PyErr α → Outcome) {ending : Outcome → Ending}
    (hraised : ∀ e, ending (shown (.error e)) = .leftOpen)
    (hreturned : ∀ a, ending (shown (.ok a)) = .committed) :
    shown (b'.unguarded fs p).1 = shown (b.unguarded fs p).1 ∧
      Ended Rel b.session b'.session (ending (shown (b.unguarded fs p).1)) (b.unguarded fs p).2.session
        (b'.unguarded fs p).2.session := by
  obtain ⟨v, w, hvw, ⟨e, h₁, h₂⟩ | ⟨a, h₁, h₂⟩⟩ := unguarded_related hRel fs p h
  · rw [h₁, h₂, hraised]
    exact ⟨rfl, .leftOpen hvw⟩
  · rw [h₁, h₂, hreturned]
    exact ⟨rfl, .committed hvw⟩

/-- What `acknowledge_write` comes to, by what its batch comes to. -/
def firstOutcome : Except PyErr (List AcknowledgedWrite) → Outcome
  | .ok (r :: _) => .acks [r]
  | .ok [] => .raised .indexError
  | .error e => .raised e

theorem acknowledgeWrite_perform (fs : List Bool) (now : ClockText) (item : BatchWriteItem P) (b : Backend) :
    (Call.acknowledgeWrite now item).perform py fs b =
      (firstOutcome (b.guarded fs (acknowledgeBody py now [item])).1,
        (b.guarded fs (acknowledgeBody py now [item])).2) := by
  have hbatch : b.acknowledgeWritesBatch py fs now [item] = b.guarded fs (acknowledgeBody py now [item]) := rfl
  rw [Call.perform, Backend.acknowledgeWrite, hbatch]
  generalize b.guarded fs (acknowledgeBody py now [item]) = x
  obtain ⟨result, c⟩ := x
  cases result with
  | error e => rfl
  | ok rs => cases rs <;> rfl

variable (py) in
theorem addDatasetEdge_perform (fs : List Bool) (src dst transformId eventTime : Str) (schemaVersion : ℤ)
    (payload : P) (b : Backend) :
    ((Call.addDatasetEdge src dst transformId eventTime schemaVersion payload).perform py fs b).1 =
      Outcome.ofUnit
        (b.unguarded fs (addDatasetEdgeBody py src dst transformId eventTime schemaVersion payload)).1 ∧
    ((Call.addDatasetEdge src dst transformId eventTime schemaVersion payload).perform py fs b).2.session =
      (b.unguarded fs (addDatasetEdgeBody py src dst transformId eventTime schemaVersion payload)).2.session := by
  rw [Call.perform, Backend.addDatasetEdge]
  generalize b.unguarded fs (addDatasetEdgeBody py src dst transformId eventTime schemaVersion payload) = u
  obtain ⟨result, c⟩ := u
  cases result with
  | error e => exact ⟨rfl, rfl⟩
  | ok a => exact ⟨rfl, rfl⟩

/-- A call comes to the same on both, and ends both transactions alike. -/
theorem perform_related (hRel : Unseen Rel) (c : Call P) (fs : List Bool)
    (h : Rel b.session.view b'.session.view) :
    (c.perform py fs b').1 = (c.perform py fs b).1 ∧
      Ended Rel b.session b'.session (c.ending py (c.perform py fs b).1) (c.perform py fs b).2.session
        (c.perform py fs b').2.session := by
  have hnone : Ended Rel b.session b'.session .leftOpen b.session b'.session := .leftOpen h
  cases c with
  | stagePartial eventId payload =>
    simp only [Call.perform, Backend.stagePartial]
    cases hp : payloadJson py payload with
    | error e =>
      simp only [Prod.map, Outcome.ofUnit, Call.ending, hp]
      exact ⟨trivial, hnone⟩
    | ok payloadText =>
      refine guarded_ends hRel fs (stageBody eventId payloadText) h Outcome.ofUnit (fun e => ?_) fun _ _ _ => rfl
      simp only [Outcome.ofUnit, Call.ending, hp]
  | acknowledgeWrite now item =>
    rw [acknowledgeWrite_perform, acknowledgeWrite_perform]
    refine guarded_ends hRel fs (acknowledgeBody py now [item]) h firstOutcome (fun _ => rfl) fun rs w he => ?_
    obtain ⟨r, rfl⟩ := List.length_eq_one_iff.1 (acknowledgeBody_length he)
    rfl
  | acknowledgeWritesBatch now items =>
    cases items with
    | nil => exact ⟨rfl, hnone⟩
    | cons item items =>
      exact guarded_ends hRel fs (acknowledgeBody py now (item :: items)) h Outcome.ofAcks (fun _ => rfl)
        fun _ _ _ => rfl
  | recoverUncommitted =>
    exact guarded_ends hRel fs (recoverBody py) h Outcome.ofCount (fun _ => rfl) fun _ _ _ => rfl
  | addDatasetEdge src dst transformId eventTime schemaVersion payload =>
    obtain ⟨houtcome, hsession⟩ := addDatasetEdge_perform py fs src dst transformId eventTime
      schemaVersion payload b
    obtain ⟨houtcome', hsession'⟩ := addDatasetEdge_perform py fs src dst transformId eventTime
      schemaVersion payload b'
    rw [houtcome, hsession, houtcome', hsession']
    exact unguarded_ends hRel fs _ h Outcome.ofUnit (fun _ => rfl) fun _ => rfl
  | recordFieldMapping runId outputDataset inputDataset fieldMap =>
    exact unguarded_ends hRel fs _ h Outcome.ofUnit (fun _ => rfl) fun _ => rfl
  | storeRunEvent runId eventType payload =>
    exact unguarded_ends hRel fs _ h Outcome.ofUnit (fun _ => rfl) fun _ => rfl
  | reopen => exact ⟨rfl, .rolledBack⟩
  | skipNumbers seq id => exact ⟨rfl, .skipped seq id rfl rfl rfl rfl⟩

theorem migrate_related (fs : List Bool) (h : Rel b.session.view b'.session.view) :
    (b'.migrate fs).1 = (b.migrate fs).1 ∧
      Ended Rel b.session b'.session (LaterCall.ending py (.migrate fs) (b.migrate fs).1) (b.migrate fs).2.session
        (b'.migrate fs).2.session := by
  unfold Backend.migrate
  split
  · exact ⟨rfl, .rolledBack⟩
  · exact ⟨rfl, .committed h⟩

theorem later_related (hRel : Unseen Rel) (c : LaterCall P) (h : Rel b.session.view b'.session.view) :
    (c.perform py b').1 = (c.perform py b).1 ∧
      Ended Rel b.session b'.session (c.ending py (c.perform py b).1) (c.perform py b).2.session
        (c.perform py b').2.session := by
  cases c with
  | call c fs => exact perform_related hRel c fs h
  | migrate fs => exact migrate_related fs h

/-! ## The rows that are left open -/

theorem unseen_eq : Unseen Eq where
  exec s v w h := by
    subst h
    cases exec s v with
    | error e => exact .raised e
    | ok x => exact .returned x.1 rfl
  skip v w seq id h := by rw [h]

/-- Calls do not depend on the graph. -/
theorem afterCalls_same (h : b'.session = b.session) (calls : List (LaterCall P)) :
    (afterCalls py b' calls).session = (afterCalls py b calls).session := by
  induction calls generalizing b b' with
  | nil => exact h
  | cons c calls ih =>
    refine ih ?_
    have hended := (@later_related P py _ _ _ unseen_eq c (congrArg Session.view h.symm)).2
    revert hended
    generalize (c.perform py b).2.session = d
    generalize (c.perform py b').2.session = d'
    generalize c.ending py _ = ending
    intro hended
    cases hended with
    | committed related => rw [related]
    | rolledBack => rw [h]
    | leftOpen related => rw [h, related]
    | skipped seq id durable durable' view view' =>
      rw [← h] at durable view
      cases d
      cases d'
      rw [Session.mk.injEq]
      exact ⟨durable'.trans durable.symm, view'.trans view.symm⟩

/-- The same store, but for `n` more rows of `field_mappings`. -/
structure Extra (n : ℕ) (v w : Store) : Prop where
  same : w.1 = { v.1 with fieldMappings := w.1.fieldMappings }
  numbers : w.2 = v.2
  more : w.1.fieldMappings.length = v.1.fieldMappings.length + n

theorem effect_fieldMappings (numbers : Numbers) (db : Db) (rows : List MappingRow) (s : Stmt) :
    effect numbers { db with fieldMappings := rows } s = effect numbers db s := by
  cases s <;> rfl

theorem extra_apply {n : ℕ} {db db' : Db} (hsame : db' = { db with fieldMappings := db'.fieldMappings })
    (hmore : db'.fieldMappings.length = db.fieldMappings.length + n) (write : RowWrite) :
    db'.apply write = { db.apply write with fieldMappings := (db'.apply write).fieldMappings } ∧
      (db'.apply write).fieldMappings.length = (db.apply write).fieldMappings.length + n := by
  rw [hsame]
  cases write with
  | mapping row =>
    refine ⟨rfl, ?_⟩
    simp only [Db.apply, List.length_append, List.length_singleton, hmore]
    omega
  | _ => exact ⟨rfl, hmore⟩

theorem extra_applyAll {n : ℕ} {db db' : Db} (hsame : db' = { db with fieldMappings := db'.fieldMappings })
    (hmore : db'.fieldMappings.length = db.fieldMappings.length + n) (writes : List RowWrite) :
    db'.applyAll writes = { db.applyAll writes with fieldMappings := (db'.applyAll writes).fieldMappings } ∧
      (db'.applyAll writes).fieldMappings.length = (db.applyAll writes).fieldMappings.length + n := by
  induction writes generalizing db db' with
  | nil => exact ⟨hsame, hmore⟩
  | cons write writes ih =>
    obtain ⟨hsame', hmore'⟩ := extra_apply hsame hmore write
    exact ih hsame' hmore'

theorem unseen_extra (n : ℕ) : Unseen (Extra n) where
  exec s v w h := by
    obtain ⟨hsame, hnumbers, hmore⟩ := h
    have heffect : effect w.2 w.1 s = effect v.2 v.1 s := by
      rw [hsame, hnumbers, effect_fieldMappings]
    unfold exec
    rw [heffect]
    cases effect v.2 v.1 s with
    | error e => exact .raised e
    | ok x =>
      obtain ⟨hsame', hmore'⟩ := extra_applyAll hsame hmore x.2.1
      exact .returned x.1 ⟨hsame', rfl, hmore'⟩
  skip v w seq id h := ⟨h.same, by rw [h.numbers], h.more⟩

/-- The second session has more rows, all in the open transaction. -/
structure Ahead (n : ℕ) (c d : Session Store) : Prop where
  durable : d.durable = c.durable
  view : Extra n c.view d.view

/-- The second session has more rows for good. -/
structure Apart (n : ℕ) (c d : Session Store) : Prop where
  durable : Extra n c.durable d.durable
  view : Extra n c.view d.view

variable {n : ℕ}

theorem Apart.ended {c d c' d' : Session Store} {ending : Ending} (h : Apart n c d)
    (hended : Ended (Extra n) c d ending c' d') : Apart n c' d' := by
  cases hended with
  | committed related => exact ⟨related, related⟩
  | rolledBack => exact ⟨h.durable, h.durable⟩
  | leftOpen related => exact ⟨h.durable, related⟩
  | skipped seq id durable durable' view view' =>
    refine ⟨?_, ?_⟩
    · rw [durable, durable']
      exact (unseen_extra n).skip _ _ seq id h.durable
    · rw [view, view']
      exact (unseen_extra n).skip _ _ seq id h.view

theorem afterCalls_apart (h : Apart n b.session b'.session) (calls : List (LaterCall P)) :
    Apart n (afterCalls py b calls).session (afterCalls py b' calls).session := by
  induction calls generalizing b b' with
  | nil => exact h
  | cons c calls ih => exact ih (h.ended (later_related (unseen_extra n) c h.view).2)

/-- The extra rows become durable exactly if the first call that ends the transaction commits it. -/
theorem afterCalls_ahead (h : Ahead n b.session b'.session) (calls : List (LaterCall P)) :
    (CommitsFirst py b calls → Apart n (afterCalls py b calls).session (afterCalls py b' calls).session) ∧
      (¬ CommitsFirst py b calls →
        (afterCalls py b' calls).session.durable = (afterCalls py b calls).session.durable) := by
  induction calls generalizing b b' with
  | nil => exact ⟨fun hno => hno.elim, fun _ => h.durable⟩
  | cons c calls ih =>
    have hended := (@later_related P py _ _ _ (unseen_extra n) c h.view).2
    have htail : ∀ x, afterCalls py x (c :: calls) = afterCalls py (c.perform py x).2 calls := fun _ => rfl
    rw [CommitsFirst, htail, htail]
    generalize (c.perform py b).2 = x at hended ih ⊢
    generalize (c.perform py b').2 = y at hended ih ⊢
    generalize c.ending py _ = ending at hended ⊢
    cases ending with
    | committed =>
      refine ⟨fun _ => afterCalls_apart ?_ calls, fun hno => (hno trivial).elim⟩
      generalize x.session = c' at hended ⊢
      generalize y.session = d' at hended ⊢
      cases hended with
      | committed related => exact ⟨related, related⟩
    | rolledBack =>
      refine ⟨fun hno => hno.elim, fun _ => congrArg Session.durable (afterCalls_same ?_ calls)⟩
      generalize x.session = c' at hended ⊢
      generalize y.session = d' at hended ⊢
      cases hended with
      | rolledBack => rw [Session.rollback, Session.rollback, h.durable]
    | leftOpen =>
      refine ih ?_
      generalize x.session = c' at hended ⊢
      generalize y.session = d' at hended ⊢
      cases hended with
      | leftOpen related => exact ⟨h.durable, related⟩
      | skipped seq id durable durable' view view' =>
        refine ⟨?_, ?_⟩
        · rw [durable, durable', h.durable]
        · rw [view, view']
          exact (unseen_extra n).skip _ _ seq id h.view

end Related

/-! ## The raising call -/

section Raising
variable {runId outputDataset inputDataset : Str} {fieldMap : List (Str × SqlParam)} {fs : List Bool}

/-- The parameters of an insert can be bound. -/
def insertable (runId outputDataset inputDataset : Str) (entry : Str × SqlParam) : Bool :=
  bindable [runId, outputDataset, inputDataset, entry.1] && (bindText entry.2).toBool

/-- The first insert of the call raises, if there is one. -/
def RaisesFirst (fs : List Bool) (runId outputDataset inputDataset : Str) (fieldMap : List (Str × SqlParam)) :
    Prop :=
  ∀ entry ∈ fieldMap.head?, fs.headD false = true ∨
    insertable runId outputDataset inputDataset entry = false

instance : Decidable (RaisesFirst fs runId outputDataset inputDataset fieldMap) :=
  inferInstanceAs (Decidable (∀ entry ∈ fieldMap.head?, _))

theorem exec_insertMapping (runId outputDataset inputDataset : Str) (entry : Str × SqlParam) (v : Store) :
    (∃ e, exec (.insertMapping runId outputDataset inputDataset entry.1 entry.2) v = .error e ∧
      insertable runId outputDataset inputDataset entry = false) ∨
    ∃ row, exec (.insertMapping runId outputDataset inputDataset entry.1 entry.2) v =
        .ok ((), Store.withMappings v [row]) ∧
      insertable runId outputDataset inputDataset entry = true := by
  simp only [exec, effect, insertable]
  cases bindable [runId, outputDataset, inputDataset, entry.1] with
  | false => exact .inl ⟨_, rfl, rfl⟩
  | true =>
    cases bindText entry.2 with
    | error e => exact .inl ⟨e, rfl, rfl⟩
    | ok text => exact .inr ⟨⟨runId, outputDataset, inputDataset, entry.1, text⟩, rfl, rfl⟩

/-- The rows that are inserted, wherever the loop stops. -/
theorem run_inserted (runId outputDataset inputDataset : Str) (fieldMap : List (Str × SqlParam)) (fs : List Bool)
    (v : Store) :
    ∃ rows, ((recordFieldMappingBody runId outputDataset inputDataset fieldMap).run exec .operationalError fs
        v).2.1 = Store.withMappings v rows ∧
      (rows = [] ↔ RaisesFirst fs runId outputDataset inputDataset fieldMap) := by
  cases fieldMap with
  | nil => exact ⟨[], (withMappings_nil v).symm, iff_of_true rfl fun entry hentry => by cases hentry⟩
  | cons entry fieldMap =>
    have hfirst : RaisesFirst fs runId outputDataset inputDataset (entry :: fieldMap) ↔
        fs.headD false = true ∨ insertable runId outputDataset inputDataset entry = false := by
      simp [RaisesFirst]
    rw [hfirst]
    obtain ⟨outField, inField⟩ := entry
    simp only [recordFieldMappingBody, Prog.query_bind, Prog.run]
    cases hfault : fs.headD false with
    | true => exact ⟨[], (withMappings_nil v).symm, by simp⟩
    | false =>
      rcases exec_insertMapping runId outputDataset inputDataset (outField, inField) v with ⟨e, hexec, hins⟩ | ⟨row, hexec, hins⟩
      · dsimp only at hexec
        rw [hexec]
        exact ⟨[], (withMappings_nil v).symm, by simp [hins]⟩
      · dsimp only at hexec
        rw [hexec]
        obtain ⟨rows, -, -, hrows, -⟩ := run_recordFieldMapping runId outputDataset inputDataset fieldMap fs.tail
          (Store.withMappings v [row])
        exact ⟨row :: rows, hrows.trans (withMappings_cons v row rows), by simp [hins]⟩

/-- What a raising call has left in the open transaction. -/
theorem recordFieldMapping_raised {b b' : Backend} {e : PyErr}
    (h : b.recordFieldMapping fs runId outputDataset inputDataset fieldMap = (.error e, b')) :
    ∃ n, Ahead n b.session b'.session ∧ (n = 0 → b' = b) ∧
      (n = 0 ↔ RaisesFirst fs runId outputDataset inputDataset fieldMap) := by
  obtain ⟨rows, hview, hfirst⟩ := run_inserted runId outputDataset inputDataset fieldMap fs b.session.view
  have hb' : b' = { b with session := { b.session with view := Store.withMappings b.session.view rows } } := by
    rcases unguarded_run fs (recordFieldMappingBody runId outputDataset inputDataset fieldMap) b with
      ⟨e', hu⟩ | ⟨a, -, hu⟩
    · rw [hview] at hu
      cases h.symm.trans hu
      rfl
    · cases h.symm.trans hu
  subst hb'
  refine ⟨rows.length, ⟨rfl, rfl, rfl, List.length_append ..⟩, fun hnone => ?_, ?_⟩
  · rw [List.length_eq_zero_iff.1 hnone, withMappings_nil]
  · rw [List.length_eq_zero_iff, hfirst]

/-- **When a `record_field_mapping` that raises leaves no row behind.** Whatever the state, the entries, the
position of the insert that raises and the calls made later: the durable field mappings are those of the
same history without the call exactly if its first insert raised, or the later calls do not commit before
one of them rolls back or the file is opened again. On PostgreSQL such a call never leaves any. -/
theorem recordFieldMapping_kept_iff {P : Type} (py : PyLib P) {b b' : Backend} {e : PyErr}
    (h : b.recordFieldMapping fs runId outputDataset inputDataset fieldMap = (.error e, b'))
    (calls : List (LaterCall P)) :
    ((afterCalls py b' calls).session.durable.1.fieldMappings =
        (afterCalls py b calls).session.durable.1.fieldMappings ↔
      RaisesFirst fs runId outputDataset inputDataset fieldMap ∨ ¬ CommitsFirst py b calls) ∧
    ∀ server faults committed error left,
      pgRecordFieldMapping server faults runId outputDataset inputDataset fieldMap committed =
        (.error error, left) → left = committed := by
  obtain ⟨n, hahead, hnone, hfirst⟩ := recordFieldMapping_raised h
  obtain ⟨hcommits, hlost⟩ := @afterCalls_ahead P py _ _ _ hahead calls
  refine ⟨⟨fun hsame => ?_, fun hcond => ?_⟩, fun server faults committed error left hpg => ?_⟩
  · by_contra hno
    obtain ⟨hrows, hcommit⟩ := not_or.1 hno
    have hmore := (hcommits (not_not.1 hcommit)).durable.more
    rw [hsame] at hmore
    exact hrows (hfirst.1 (by omega))
  · rcases hcond with hraises | hopen
    · rw [hnone (hfirst.2 hraises)]
    · rw [hlost hopen]
  · unfold pgRecordFieldMapping at hpg
    rcases Session.transaction_cases server .operationalError faults
      (recordFieldMappingBody runId outputDataset inputDataset fieldMap) ⟨committed, committed⟩ with
      ⟨e', ht⟩ | ⟨a, v, -, ht⟩
    · rw [ht] at hpg
      exact (congrArg Prod.snd hpg).symm
    · rw [ht] at hpg
      cases hpg

end Raising

/-! ## One row of two -/

/-- The second input field is null. -/
def nullMapping : List (Str × SqlParam) := [(lit "a", .text (lit "x")), (lit "b", .null)]

def partlyMapped : Backend := (Backend.empty.recordFieldMapping [] (lit "r") (lit "o") (lit "i") nullMapping).2

theorem nullMapping_raises : Backend.empty.recordFieldMapping [] (lit "r") (lit "o") (lit "i") nullMapping =
    (.error .integrityError, partlyMapped) := Prod.ext rfl rfl

/-- The file is opened again before the next commit. -/
theorem recordFieldMapping_kept_reopened :
    (afterCalls PyLib.fixed partlyMapped [.call .reopen [], .migrate []]).session.durable.1.fieldMappings =
      (afterCalls PyLib.fixed .empty [.call .reopen [], .migrate []]).session.durable.1.fieldMappings :=
  (recordFieldMapping_kept_iff PyLib.fixed nullMapping_raises [.call .reopen [], .migrate []]).1.2 (.inr id)

/-- **The first row of a call that raised becomes durable with the next staged event.** -/
theorem stagePartial_keeps_mapping :
    Backend.empty.recordFieldMapping [] (lit "r") (lit "o") (lit "i") nullMapping =
        (.error .integrityError, partlyMapped) ∧
      (afterCalls PyLib.fixed partlyMapped
        [.call (.stagePartial (lit "e") (.obj [])) []]).session.durable.1.fieldMappings =
          [⟨lit "r", lit "o", lit "i", lit "a", lit "x"⟩] ∧
      (afterCalls PyLib.fixed .empty
        [.call (.stagePartial (lit "e") (.obj [])) []]).session.durable.1.fieldMappings = [] :=
  ⟨nullMapping_raises, by decide +kernel, by decide +kernel⟩

end LineageVault
