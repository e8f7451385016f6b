import LineageVault.Foundations.Interruption
import LineageVault.Storage.RecoverAcknowledge

/-! # `wal/recovery.py` and `ledger/store.py`

The stand-alone `WalBuffer` and `LedgerStore`, each with a file and a connection of its own. Their
statements are those of the backends on `wal_staging` and `ledger`, so a file is a `Store` of which only
that table is used. Neither class rolls back.

A method of the buffer is a program of `FileCall`s, each of which makes something durable at its end or
not at all. A process that dies has made some first of them, and both files are opened again.
-/

namespace LineageVault
open Foundations
set_option autoImplicit false

variable {P : Type} (py : PyLib P)

/-- The connections of a `WalBuffer` and of a `LedgerStore`. -/
structure Files where
  wal : Session Store
  ledger : Session Store

namespace Files

def empty : Files := ⟨⟨(Db.empty, Numbers.zero), (Db.empty, Numbers.zero)⟩,
  ⟨(Db.empty, Numbers.zero), (Db.empty, Numbers.zero)⟩⟩

def reopen (v : Files) : Files := ⟨v.wal.rollback, v.ledger.rollback⟩

end Files

/-- `SELECT payload FROM wal WHERE event_id=? AND committed=0` -/
def stagedText (db : Db) (eventId : Str) : Option Str :=
  (db.walStaging.find? fun r => r.eventId = eventId ∧ !r.committed).map StagingRow.payload

inductive FileCall (P : Type) where
  /-- `INSERT OR IGNORE INTO wal`, and the commit -/
  | insertStaged (eventId payloadText : Str)
  | selectStaged (eventId : Str)
  | selectPending
  /-- `LedgerStore.append` -/
  | append (eventId : Str) (payload : P)
  /-- `UPDATE wal SET committed=1` -/
  | updateCommitted (eventId : Str)
  | commitWal

@[reducible] def FileReply : FileCall P → Type
  | .selectStaged _ => Option Str
  | .selectPending => List (Str × Str)
  | _ => Unit

/-- `LedgerStore.append`; no caller reads the `LedgerEntry` it returns. -/
def LedgerStore.append (eventId : Str) (payload : P) (c : Session Store) :
    Except PyErr Unit × Session Store :=
  Session.unguarded exec .operationalError [] (appendLedger py eventId payload) c

def FileCall.perform : (s : FileCall P) → Files → Except PyErr (FileReply s) × Files
  | .insertStaged eventId payloadText, v =>
    let (result, wal) := Session.unguarded exec .operationalError [] (stageBody eventId payloadText) v.wal
    (result, { v with wal := wal })
  | .selectStaged eventId, v =>
    if bindable [eventId] then (.ok (stagedText v.wal.view.1 eventId), v)
    else (.error .unicodeEncodeError, v)
  | .selectPending, v => (.ok (pending v.wal.view.1.walStaging), v)
  | .append eventId payload, v =>
    let (result, ledger) := LedgerStore.append py eventId payload v.ledger
    (result, { v with ledger := ledger })
  | .updateCommitted eventId, v =>
    match exec (.updateCommitted eventId) v.wal.view with
    | .ok (_, w) => (.ok (), { v with wal := { v.wal with view := w } })
    | .error e => (.error e, v)
  | .commitWal, v => (.ok (), { v with wal := ⟨v.wal.view, v.wal.view⟩ })

/-- The two files, for programs of file calls. -/
abbrev fileService (_ : Unit) (s : FileCall P) (v : Files) : Except PyErr (FileReply s) × Files := s.perform py v

abbrev WalProg (P : Type) := Prog (FileCall P) FileReply PyErr

abbrev file (s : FileCall P) : WalProg P (FileReply s) := Prog.query s

/-- The loop of `replay_pending`. -/
def replayLoop : List (Str × Str) → WalProg P Unit
  | [] => return ()
  | (eventId, payloadText) :: rows => do
    let payload ← Prog.ofExcept (py.loads payloadText)
    file (.append eventId payload)
    file (.updateCommitted eventId)
    replayLoop rows

/-- The calls on a buffer, with `ledger.append` as the callback. -/
inductive WalCall (P : Type) where
  | stage (eventId : Str) (payload : P)
  | commit (eventId : Str)
  | replayPending

/-- What the call returns; only `replay_pending` returns something. -/
def WalCall.prog : WalCall P → WalProg P (Option ℕ)
  | .stage eventId payload => do
    let payloadText ← Prog.ofExcept (payloadJson py payload)
    file (.insertStaged eventId payloadText)
    return none
  | .commit eventId => do
    let row ← file (.selectStaged eventId)
    match row with
    | none => return none
    | some payloadText => do
      let payload ← Prog.ofExcept (py.loads payloadText)
      file (.append eventId payload)
      file (.updateCommitted eventId)
      file .commitWal
      return none
  | .replayPending => do
    let rows ← file .selectPending
    replayLoop py rows
    file .commitWal
    return some rows.length

/-- A call that nothing interrupts. -/
def WalCall.perform (c : WalCall P) (v : Files) : Except PyErr (Option ℕ) × Files :=
  Prog.whole (fileService py) () (c.prog py) v

/-- The process dies after the first `n` file calls, and both files are opened again. -/
def WalCall.crash (n : ℕ) (c : WalCall P) (v : Files) : Files :=
  (Prog.after (fileService py) () n (c.prog py) v).reopen

/-- `LedgerStore.verify_integrity` -/
def Files.verifyIntegrity (v : Files) : Except PyErr Bool :=
  Backend.verifyRows py genesisHash (orderBySeq v.ledger.view.1.ledger)

/-! ## File calls that return -/

section Returned
variable {py} {v v' : Files}

theorem insertStaged_returned {e t : Str} {u : Unit}
    (h : FileCall.perform py (.insertStaged e t) v = (.ok u, v')) :
    e.encodable = true ∧ t.encodable = true ∧
      v' = { v with wal := ⟨staged v.wal.view e t, staged v.wal.view e t⟩ } := by
  rcases Session.unguarded_run exec .operationalError [] (stageBody e t) v.wal with ⟨err, hu⟩ | ⟨a, ha, hu⟩
  · simp only [FileCall.perform, hu] at h
    cases h
  · obtain ⟨he, ht, hw⟩ := stageBody_ok (Prog.run_ok exec .operationalError (Prod.ext ha rfl))
    simp only [FileCall.perform, hu, hw] at h
    cases h
    exact ⟨he, ht, rfl⟩

theorem append_returned {e : Str} {p : P} {u : Unit}
    (h : FileCall.perform py (.append e p) v = (.ok u, v')) :
    ∃ t, payloadJson py p = .ok t ∧ (entryText (headHash v.ledger.view.1.ledger) e t).encodable = true ∧
      (∀ q ∈ v.ledger.view.1.ledger, q.eventId ≠ e) ∧
      v' = { v with ledger := ⟨appended py v.ledger.view e t, appended py v.ledger.view e t⟩ } := by
  rcases Session.unguarded_run exec .operationalError [] (appendLedger py e p) v.ledger with
    ⟨err, hu⟩ | ⟨a, ha, hu⟩
  · simp only [FileCall.perform, LedgerStore.append, hu] at h
    cases h
  · obtain ⟨t, hp, henc, hnew, hw⟩ := appendLedger_ok (Prog.run_ok exec .operationalError (Prod.ext ha rfl))
    simp only [FileCall.perform, LedgerStore.append, hu, hw] at h
    cases h
    exact ⟨t, hp, henc, hnew, rfl⟩

theorem append_eval {e t : Str} {p : P} (hp : payloadJson py p = .ok t)
    (ht : (entryText (headHash v.ledger.view.1.ledger) e t).encodable = true)
    (hnew : ∀ q ∈ v.ledger.view.1.ledger, q.eventId ≠ e) :
    FileCall.perform py (.append e p) v =
      (.ok (), { v with ledger := ⟨appended py v.ledger.view e t, appended py v.ledger.view e t⟩ }) := by
  simp only [FileCall.perform, LedgerStore.append,
    Session.unguarded_ok exec .operationalError (appendLedger_eval hp ht hnew)]

theorem updateCommitted_returned {e : Str} {u : Unit}
    (h : FileCall.perform py (.updateCommitted e) v = (.ok u, v')) :
    v' = { v with wal := { v.wal with view := committed v.wal.view e } } := by
  simp only [FileCall.perform] at h
  split at h
  · next w hs =>
    obtain ⟨-, rfl⟩ := updateCommitted_ok hs
    cases h
    rfl
  · cases h

theorem updateCommitted_eval {e : Str} (he : e.encodable = true) :
    FileCall.perform py (.updateCommitted e) v =
      (.ok (), { v with wal := { v.wal with view := committed v.wal.view e } }) := by
  simp only [FileCall.perform, exec_updateCommitted he]

theorem whole_commitWal {α : Type} (a : α) :
    Prog.whole (fileService py) () (file .commitWal >>= fun _ => return a) v =
      (.ok a, { v with wal := ⟨v.wal.view, v.wal.view⟩ }) := rfl

variable (py) in
theorem replayPending_perform (v : Files) : WalCall.replayPending.perform py v =
    Prog.whole (fileService py) () (replayLoop py (pending v.wal.view.1.walStaging) >>= fun _ =>
      file .commitWal >>= fun _ => .ret (some (pending v.wal.view.1.walStaging).length)) v := rfl

/-- A pending row that was appended and marked, and what came after it. -/
theorem row_returned {α : Type} {rest : WalProg P α} {e text : Str} {a : α}
    (h : Prog.whole (fileService py) () (Prog.ofExcept (py.loads text) >>= fun payload =>
      file (.append e payload) >>= fun _ => file (.updateCommitted e) >>= fun _ => rest) v = (.ok a, v')) :
    ∃ p t, py.loads text = .ok p ∧ payloadJson py p = .ok t ∧
      (entryText (headHash v.ledger.view.1.ledger) e t).encodable = true ∧
      (∀ q ∈ v.ledger.view.1.ledger, q.eventId ≠ e) ∧
      Prog.whole (fileService py) () rest ⟨{ v.wal with view := committed v.wal.view e },
        ⟨appended py v.ledger.view e t, appended py v.ledger.view e t⟩⟩ = (.ok a, v') := by
  obtain ⟨p, hl, h⟩ := Prog.whole_ofExcept_bind_cases _ h
  obtain ⟨_, v₁, h₁, h⟩ := Prog.whole_stmt_cases _ h
  obtain ⟨_, v₂, h₂, h⟩ := Prog.whole_stmt_cases _ h
  obtain ⟨t, hp, ht, hnew, rfl⟩ := append_returned h₁
  obtain rfl := updateCommitted_returned h₂
  exact ⟨p, t, hl, hp, ht, hnew, h⟩

end Returned

end LineageVault
