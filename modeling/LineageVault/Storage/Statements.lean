import LineageVault.Storage.Tables
import LineageVault.Storage.LedgerChain
import LineageVault.Foundations.Program

/-! # The SQL statements of the two backends

`effect` is one statement: its reply, the rows it changes and the numbers it takes, computed from the
tables the statement sees. It raises when a parameter cannot be bound or a constraint of the schema
is violated, and has no effect then. `exec` applies the changes at once, which is the meaning on a
connection of its own; PostgreSQL's transactions keep them apart until the commit.

SQLite and PostgreSQL have the same statements under different spellings: `INSERT OR IGNORE` is
`INSERT … ON CONFLICT DO NOTHING`, `IN (?,…)` is `= ANY(%s)`. The lookup of a batch has one `?` for
each item, so SQLite refuses it beyond its `VariableLimit`. The limits on the size of a value or of a
statement's text are not modelled.
-/

namespace LineageVault
open Foundations
set_option autoImplicit false

/-- `datetime.now(UTC).isoformat()`. -/
structure ClockText where
  text : Str
  encodable : text.encodable = true

/-- For runs on fixed inputs. -/
def ClockText.fixed : ClockText := ⟨lit "now", by decide⟩

/-- A Python value bound to a `TEXT NOT NULL` column that need not be a `str`. -/
inductive SqlParam where
  | text (s : Str)
  | null
  | integer (i : ℤ)
  /-- a float, with the text SQLite's column affinity makes of it -/
  | real (s : Str)
  /-- a value the driver cannot bind -/
  | unsupported

inductive Stmt where
  | selectIdempotency (limit : VariableLimit) (keys : List Str)
  | insertIdempotency (idempotencyKey eventId : Str) (now : ClockText)
  | insertOrIgnoreStaging (eventId payload : Str)
  | updateCommitted (eventId : Str)
  | selectLastHash
  | insertLedger (eventId payload prevHash entryHash : Str)
  | selectPending
  | selectInLedger (eventId : Str)
  | insertEdge (src dst transformId eventTime : Str) (schemaVersion : ℤ) (payload : Str)
  | insertMapping (runId outputDataset inputDataset outputField : Str) (inputField : SqlParam)
  | upsertRunEvent (runId eventType payload : Str)

@[reducible] def Reply : Stmt → Type
  | .selectIdempotency _ _ => List (Str × Str)
  | .selectLastHash => Option Str
  | .selectPending => List (Str × Str)
  | .selectInLedger _ => Bool
  | _ => Unit

def Stmt.writes : Stmt → Bool
  | .selectIdempotency _ _ => false
  | .selectLastHash => false
  | .selectPending => false
  | .selectInLedger _ => false
  | _ => true

/-- The range of SQLite's `INTEGER`: 64 bits with a sign. -/
def fitsInteger (i : ℤ) : Bool :=
  decide (-9223372036854775808 ≤ i) && decide (i ≤ 9223372036854775807)

/-- The text a `TEXT NOT NULL` column stores for a parameter. -/
def bindText : SqlParam → Except PyErr Str
  | .text s => s.encode
  | .null => .error .integrityError
  | .integer i => if fitsInteger i then .ok (intText i) else .error .overflowError
  | .real s => .ok s
  | .unsupported => .error .interfaceError

/-- All text parameters of a statement can be bound. -/
def bindable (params : List Str) : Bool := params.all Str.encodable

@[simp] theorem bindable_nil : bindable [] = true := rfl

@[simp] theorem bindable_cons (s : Str) (params : List Str) :
    bindable (s :: params) = (s.encodable && bindable params) := rfl

/-- The lookup of these keys is one the database takes. -/
def VariableLimit.accepts (limit : VariableLimit) (keys : List Str) : Bool :=
  limit.allows keys.length && bindable keys

@[simp] theorem VariableLimit.accepts_one (limit : VariableLimit) (key : Str) :
    limit.accepts [key] = key.encodable := by
  simp [accepts]

def lastHash (rows : List LedgerRow) : Option Str := (orderBySeq rows).getLast?.map LedgerRow.entryHash

def pending (rows : List StagingRow) : List (Str × Str) :=
  (orderById (rows.filter fun r => !r.committed)).map fun r => (r.eventId, r.payload)

/-- What a statement returns, changes and takes, or the exception it raises. -/
abbrev Effect (s : Stmt) := Except PyErr (Reply s × List RowWrite × Numbers)

def effect (n : Numbers) (db : Db) : (s : Stmt) → Effect s
  | .selectIdempotency limit keys =>
    -- the statement is prepared before its parameters are bound
    if !limit.allows keys.length then .error .operationalError
    else if bindable keys then
      .ok ((db.idempotency.filter fun r => r.idempotencyKey ∈ keys).map
        fun r => (r.idempotencyKey, r.eventId), [], n)
    else .error .unicodeEncodeError
  | .insertIdempotency key eventId now =>
    if !bindable [key, eventId] then .error .unicodeEncodeError
    else if db.idempotency.any fun r => r.idempotencyKey = key ∨ r.eventId = eventId then
      .error .integrityError
    else .ok ((), [.idempotency ⟨key, eventId, now.text⟩], n)
  | .insertOrIgnoreStaging eventId payload =>
    if !bindable [eventId, payload] then .error .unicodeEncodeError
    -- the number is taken before the conflict is found
    else if db.walStaging.any fun r => r.eventId = eventId then .ok ((), [], { n with id := n.id + 1 })
    else .ok ((), [.staging ⟨n.id + 1, eventId, payload, false⟩], { n with id := n.id + 1 })
  | .updateCommitted eventId =>
    if !bindable [eventId] then .error .unicodeEncodeError
    else if db.walStaging.any fun r => r.eventId = eventId then .ok ((), [.committed eventId], n)
    else .ok ((), [], n)
  | .selectLastHash => .ok (lastHash db.ledger, [], n)
  | .insertLedger eventId payload prevHash entryHash =>
    if !bindable [eventId, payload, prevHash, entryHash] then .error .unicodeEncodeError
    else if db.ledger.any fun r => r.eventId = eventId then .error .integrityError
    else .ok ((), [.ledger ⟨n.seq + 1, eventId, payload, prevHash, entryHash⟩],
      { n with seq := n.seq + 1 })
  | .selectPending => .ok (pending db.walStaging, [], n)
  | .selectInLedger eventId =>
    if bindable [eventId] then .ok (db.ledger.any fun r => r.eventId = eventId, [], n)
    else .error .unicodeEncodeError
  | .insertEdge src dst transformId eventTime schemaVersion payload =>
    if !bindable [src, dst, transformId, eventTime, payload] then .error .unicodeEncodeError
    else if !fitsInteger schemaVersion then .error .overflowError
    else .ok ((), [.edge ⟨src, dst, transformId, eventTime, schemaVersion, payload⟩], n)
  | .insertMapping runId outputDataset inputDataset outputField inputField =>
    if !bindable [runId, outputDataset, inputDataset, outputField] then .error .unicodeEncodeError
    else
      match bindText inputField with
      | .ok inField =>
        .ok ((), [.mapping ⟨runId, outputDataset, inputDataset, outputField, inField⟩], n)
      | .error e => .error e
  | .upsertRunEvent runId eventType payload =>
    if !bindable [runId, eventType, payload] then .error .unicodeEncodeError
    else .ok ((), [.runEvent ⟨runId, eventType, payload⟩], n)

/-- A database: its tables and the numbers it has handed out. -/
abbrev Store := Db × Numbers

def exec (s : Stmt) (v : Store) : Except PyErr (Reply s × Store) :=
  match effect v.2 v.1 s with
  | .ok (r, ws, n) => .ok (r, v.1.applyAll ws, n)
  | .error e => .error e

/-- The programs of the backends. -/
abbrev Sql := Prog Stmt Reply PyErr

abbrev sql (s : Stmt) : Sql (Reply s) := Prog.query s

abbrev raising {α : Type} (x : Except PyErr α) : Sql α := Prog.ofExcept x

/-! ## What each statement does when it does not raise -/

theorem exec_ok {s : Stmt} {v : Store} {r : Reply s} {w : Store} (h : exec s v = .ok (r, w)) :
    ∃ ws n, effect v.2 v.1 s = .ok (r, ws, n) ∧ w = (v.1.applyAll ws, n) := by
  unfold exec at h
  split at h
  · next r' ws n he => cases h; exact ⟨ws, n, he, rfl⟩
  · cases h

/-- Statements that only read change nothing. -/
theorem exec_read {s : Stmt} {v w : Store} {r : Reply s} (hs : s.writes = false)
    (h : exec s v = .ok (r, w)) : w = v := by
  obtain ⟨ws, n, he, rfl⟩ := exec_ok h
  cases s with
  | selectIdempotency limit keys =>
    simp only [effect] at he
    split at he
    · cases he
    · split at he <;> cases he
      rfl
  | selectLastHash => cases he; rfl
  | selectPending => cases he; rfl
  | selectInLedger e => simp only [effect] at he; split at he <;> cases he; rfl
  | _ => cases hs

theorem selectIdempotency_ok {limit : VariableLimit} {keys : List Str} {v w : Store}
    {rows : List (Str × Str)} (h : exec (.selectIdempotency limit keys) v = .ok (rows, w)) :
    limit.accepts keys = true ∧
      rows = (v.1.idempotency.filter fun r => r.idempotencyKey ∈ keys).map
        (fun r => (r.idempotencyKey, r.eventId)) ∧ w = v := by
  obtain ⟨ws, n, he, rfl⟩ := exec_ok h
  simp only [effect] at he
  split at he
  · cases he
  · next hlimit =>
    split at he
    · next hbind =>
      cases he
      have hallows : limit.allows keys.length = true := by simpa using hlimit
      exact ⟨by rw [VariableLimit.accepts, hallows, hbind, Bool.true_and], rfl, rfl⟩
    · cases he

theorem selectIdempotency_eval {limit : VariableLimit} {keys : List Str}
    (h : limit.accepts keys = true) (v : Store) :
    exec (.selectIdempotency limit keys) v =
      .ok ((v.1.idempotency.filter fun r => r.idempotencyKey ∈ keys).map
        fun r => (r.idempotencyKey, r.eventId), v) := by
  obtain ⟨hallows, hbind⟩ := Bool.and_eq_true_iff.1 h
  simp only [exec, effect, hallows, hbind, Bool.not_true, Bool.false_eq_true, if_false, if_true]
  rfl

theorem selectIdempotency_error {limit : VariableLimit} {keys : List Str}
    (h : limit.accepts keys = false) (v : Store) :
    ∃ e, exec (.selectIdempotency limit keys) v = .error e := by
  cases hexec : exec (.selectIdempotency limit keys) v with
  | error e => exact ⟨e, rfl⟩
  | ok x =>
    rw [(selectIdempotency_ok hexec).1] at h
    cases h

theorem insertIdempotency_ok {key eventId : Str} {now : ClockText} {v w : Store} {r : Unit}
    (h : exec (.insertIdempotency key eventId now) v = .ok (r, w)) :
    key.encodable = true ∧ eventId.encodable = true ∧
      (∀ q ∈ v.1.idempotency, q.idempotencyKey ≠ key ∧ q.eventId ≠ eventId) ∧
      w = ({ v.1 with idempotency := v.1.idempotency ++ [⟨key, eventId, now.text⟩] }, v.2) := by
  obtain ⟨ws, n, he, rfl⟩ := exec_ok h
  simp only [effect] at he
  split at he
  · cases he
  · next hb =>
    split at he
    · cases he
    · next hu =>
      cases he
      have henc : key.encodable = true ∧ eventId.encodable = true := by simpa using hb
      simp only [List.any_eq_true, decide_eq_true_eq, not_exists, not_and, not_or] at hu
      exact ⟨henc.1, henc.2, hu, rfl⟩

theorem insertOrIgnoreStaging_ok {eventId payload : Str} {v w : Store} {r : Unit}
    (h : exec (.insertOrIgnoreStaging eventId payload) v = .ok (r, w)) :
    eventId.encodable = true ∧ payload.encodable = true ∧
      w = ({ v.1 with
              walStaging :=
                if v.1.walStaging.any fun q => q.eventId = eventId then v.1.walStaging
                else v.1.walStaging ++ [⟨v.2.id + 1, eventId, payload, false⟩] },
            { v.2 with id := v.2.id + 1 }) := by
  obtain ⟨ws, n, he, rfl⟩ := exec_ok h
  simp only [effect] at he
  split at he
  · cases he
  · next hb =>
    have henc : eventId.encodable = true ∧ payload.encodable = true := by simpa using hb
    split at he
    · next hu => cases he; exact ⟨henc.1, henc.2, by simp [hu]⟩
    · next hu => cases he; exact ⟨henc.1, henc.2, by simp [hu, Db.apply]⟩

theorem updateCommitted_ok {eventId : Str} {v w : Store} {r : Unit}
    (h : exec (.updateCommitted eventId) v = .ok (r, w)) :
    eventId.encodable = true ∧
      w = ({ v.1 with walStaging := markCommitted eventId v.1.walStaging }, v.2) := by
  obtain ⟨ws, n, he, rfl⟩ := exec_ok h
  simp only [effect] at he
  split at he
  · cases he
  · next hb =>
    have henc : eventId.encodable = true := by simpa using hb
    split at he
    · cases he; exact ⟨henc, rfl⟩
    · next hu =>
      cases he
      simp only [List.any_eq_true, decide_eq_true_eq, not_exists, not_and] at hu
      rw [markCommitted_of_forall_ne hu]
      exact ⟨henc, rfl⟩

theorem insertLedger_ok {eventId payload prevHash entryHash : Str} {v w : Store} {r : Unit}
    (h : exec (.insertLedger eventId payload prevHash entryHash) v = .ok (r, w)) :
    bindable [eventId, payload, prevHash, entryHash] = true ∧
      (∀ q ∈ v.1.ledger, q.eventId ≠ eventId) ∧
      w = ({ v.1 with
              ledger := v.1.ledger ++ [⟨v.2.seq + 1, eventId, payload, prevHash, entryHash⟩] },
            { v.2 with seq := v.2.seq + 1 }) := by
  obtain ⟨ws, n, he, rfl⟩ := exec_ok h
  simp only [effect] at he
  split at he
  · cases he
  · next hb =>
    split at he
    · cases he
    · next hu =>
      cases he
      simp only [List.any_eq_true, decide_eq_true_eq, not_exists, not_and] at hu
      exact ⟨by simpa using hb, hu, rfl⟩

theorem insertEdge_ok {src dst transformId eventTime payload : Str} {schemaVersion : ℤ} {v w : Store}
    {r : Unit} (h : exec (.insertEdge src dst transformId eventTime schemaVersion payload) v = .ok (r, w)) :
    bindable [src, dst, transformId, eventTime, payload] = true ∧ fitsInteger schemaVersion = true ∧
      w = ({ v.1 with datasetEdges := v.1.datasetEdges ++
        [⟨src, dst, transformId, eventTime, schemaVersion, payload⟩] }, v.2) := by
  obtain ⟨ws, n, he, rfl⟩ := exec_ok h
  simp only [effect] at he
  split at he
  · cases he
  · next hb =>
    split at he
    · cases he
    · next hf => cases he; exact ⟨by simpa using hb, by simpa using hf, rfl⟩

theorem insertMapping_ok {runId outputDataset inputDataset outputField : Str} {inputField : SqlParam}
    {v w : Store} {r : Unit}
    (h : exec (.insertMapping runId outputDataset inputDataset outputField inputField) v = .ok (r, w)) :
    ∃ text, bindText inputField = .ok text ∧
      bindable [runId, outputDataset, inputDataset, outputField] = true ∧
      w = ({ v.1 with fieldMappings := v.1.fieldMappings ++
        [⟨runId, outputDataset, inputDataset, outputField, text⟩] }, v.2) := by
  obtain ⟨ws, n, he, rfl⟩ := exec_ok h
  simp only [effect] at he
  split at he
  · cases he
  · next hb =>
    split at he
    · next text ht =>
      cases he
      exact ⟨text, ht, by simpa using hb, rfl⟩
    · cases he

theorem upsertRunEvent_ok {runId eventType payload : Str} {v w : Store} {r : Unit}
    (h : exec (.upsertRunEvent runId eventType payload) v = .ok (r, w)) :
    bindable [runId, eventType, payload] = true ∧
      w = ({ v.1 with runEvents := upsertRunEvent ⟨runId, eventType, payload⟩ v.1.runEvents }, v.2) := by
  obtain ⟨ws, n, he, rfl⟩ := exec_ok h
  simp only [effect] at he
  split at he
  · cases he
  · next hb =>
    cases he
    exact ⟨by simpa using hb, rfl⟩

end LineageVault
