import LineageVault.Foundations.SingleWriter
import LineageVault.Storage.Integrity

/-! # Several backends on one file

Each instance runs one call at a time; SQLite lets one write transaction run, opened by the first
writing statement of a call. The acknowledgement reads the head of the ledger after its first insert,
inside the transaction. The recovery reads it before: its first insert opens the transaction, and by
then another instance may have moved the head.

`headFresh` says that this did not happen. It is all the chain needs (`shared_verifyIntegrity`), and
without it the chain can break (`shared_verifyIntegrity_fails`).
-/

namespace LineageVault
open Foundations
set_option autoImplicit false

variable {P : Type} (py : PyLib P)

/-- The files that instances on a new file can produce. -/
abbrev SharedFile := SingleWriter.File Stmt Reply PyErr Outcome Store

abbrev SharedReaches (fresh : Stmt → Store → Bool) (g : SharedFile) : Prop :=
  SingleWriter.Reaches exec Stmt.writes (LedgerCall.prog py) (fun s v => fresh s v = true)
    (Db.empty, Numbers.zero) g

/-- An insert into the ledger that opens its transaction names the head it finds. -/
def headFresh : Stmt → Store → Bool
  | .insertLedger _ _ prevHash _, v => decide (prevHash = headHash v.1.ledger)
  | _, _ => true

variable {py}

def StoreChain (py : PyLib P) (v : Store) : Prop := ChainInv py v.1.ledger v.2.seq

abbrev SafeCall (py : PyLib P) (p : Sql Outcome) : Prop :=
  SingleWriter.Safe exec Stmt.writes (StoreChain py) (fun s v => headFresh s v = true) p none

/-! ## Each call keeps the chain -/

theorem safe_stagePartial (eventId : Str) (payload : P) :
    SafeCall py (LedgerCall.prog py (.stagePartial eventId payload)) := by
  refine SingleWriter.safe_ofExcept_bind fun payloadText _ => ?_
  refine SingleWriter.safe_open exec_read rfl rfl fun v o w hv _ h => ?_
  obtain ⟨_, w', hs, h⟩ := Prog.eval_stmt_cases exec h
  obtain ⟨-, -, rfl⟩ := insertOrIgnoreStaging_ok hs
  cases h
  exact hv

/-- The items, whatever the instance believes about the keys: a known key issues no statement, and
the first fresh item opens the transaction. -/
theorem safe_acknowledgeLoop (now : ClockText) (items : List (BatchWriteItem P))
    (existing : List (Str × Str)) (results : List AcknowledgedWrite) :
    SafeCall py (acknowledgeLoop py now items existing results >>= fun rs => .ret (.acks rs)) := by
  induction items generalizing existing results with
  | nil => trivial
  | cons item items ih =>
    cases hl : existing.lookup item.idempotencyKey with
    | some eventId =>
      rw [acknowledgeLoop_known py now items results hl]
      exact ih existing _
    | none =>
      have hloop := acknowledgeLoop_new py now items results hl
      cases hp : payloadJson py item.payload with
      | error e =>
        rw [hloop, acknowledgeItem, hp]
        trivial
      | ok payloadText =>
        refine SingleWriter.safe_open exec_read (by rw [hloop, acknowledgeItem, hp]; rfl)
          (s := .insertIdempotency item.idempotencyKey item.eventId now) rfl fun v o w hv _ h => ?_
        obtain ⟨rs, u, hrs, h⟩ := Prog.eval_bind_cases exec h
        cases h
        exact chainInv_acknowledgeLoop hv hrs

theorem safe_acknowledgeWritesBatch (now : ClockText) (items : List (BatchWriteItem P)) :
    SafeCall py (LedgerCall.prog py (.acknowledgeWritesBatch now items)) := by
  rw [LedgerCall.prog]
  split
  · trivial
  · exact SingleWriter.safe_read rfl fun rows => safe_acknowledgeLoop now items rows []

/-- A recovered row whose insert names the head of the ledger it finds. -/
theorem chainInv_recoverInsert {eventId payloadText : Str} {rows : List (Str × Str)} {count n : ℕ}
    {v w : Store} (hv : ChainInv py v.1.ledger v.2.seq)
    (henc : (entryText (headHash v.1.ledger) eventId payloadText).encodable = true)
    (h : (Prog.stmt (.insertLedger eventId payloadText (headHash v.1.ledger)
        (entryDigest py (headHash v.1.ledger) (eventId, payloadText))) fun _ =>
      Prog.stmt (.updateCommitted eventId) fun _ => recoverLoop py rows count : Sql ℕ).eval exec v =
        .ok (n, w)) :
    ChainInv py w.1.ledger w.2.seq := by
  obtain ⟨_, v₁, h₁, h⟩ := Prog.eval_stmt_cases exec h
  obtain ⟨_, v₂, h₂, h⟩ := Prog.eval_stmt_cases exec h
  obtain ⟨-, -, hv₁⟩ := insertLedger_ok h₁
  obtain rfl : v₁ = appended py v eventId payloadText := hv₁
  obtain ⟨-, rfl⟩ := updateCommitted_ok h₂
  have hv₁ : ChainInv py (committed (appended py v eventId payloadText) eventId).1.ledger
      (committed (appended py v eventId payloadText) eventId).2.seq := chainInv_appended hv henc
  exact chainInv_recoverLoop hv₁ h

/-- The rows of a recovery. Before its first write every row is read outside a transaction; the
first write is a mark, or an insert with a head that was read before. -/
theorem safe_recoverLoop (rows : List (Str × Str)) (count : ℕ) :
    SafeCall py (recoverLoop py rows count >>= fun n => .ret (.recovered n)) := by
  induction rows generalizing count with
  | nil => trivial
  | cons row rows ih =>
    obtain ⟨eventId, payloadText⟩ := row
    cases hl : py.loads payloadText with
    | error e => rw [recoverLoop, hl]; trivial
    | ok payload =>
      rw [recoverLoop_cons hl]
      refine SingleWriter.safe_read (s := Stmt.selectInLedger eventId) rfl fun dup => ?_
      cases dup with
      | true =>
        refine SingleWriter.safe_open exec_read rfl (s := Stmt.updateCommitted eventId) rfl
          fun v o w hv _ h => ?_
        obtain ⟨_, v₁, h₁, h⟩ := Prog.eval_stmt_cases exec h
        obtain ⟨-, rfl⟩ := updateCommitted_ok h₁
        obtain ⟨n, u, hn, h⟩ := Prog.eval_bind_cases exec h
        cases h
        have hv₁ : ChainInv py (committed v eventId).1.ledger (committed v eventId).2.seq := hv
        exact chainInv_recoverLoop hv₁ hn
      | false =>
        cases hp : payloadJson py payload with
        | error e => rw [appendLedger, hp]; trivial
        | ok payloadText' =>
          rw [appendLedger_stmts hp]
          refine SingleWriter.safe_read (s := Stmt.selectLastHash) rfl fun row => ?_
          dsimp only
          generalize row.getD genesisHash = prev
          cases hd : entryHash py prev eventId payloadText' with
          | error e => trivial
          | ok digest =>
            obtain ⟨henc, rfl⟩ := entryHash_ok hd
            refine SingleWriter.safe_open exec_read rfl (s := Stmt.insertLedger eventId payloadText'
              prev (entryDigest py prev (eventId, payloadText'))) rfl fun v o w hv hf h => ?_
            obtain rfl : prev = headHash v.1.ledger := of_decide_eq_true hf
            obtain ⟨n, u, hn, h⟩ := Prog.eval_bind_cases exec h
            cases h
            exact chainInv_recoverInsert hv henc hn

theorem safe_call (c : LedgerCall P) : SafeCall py (LedgerCall.prog py c) := by
  cases c with
  | stagePartial eventId payload => exact safe_stagePartial eventId payload
  | acknowledgeWritesBatch now items => exact safe_acknowledgeWritesBatch now items
  | recoverUncommitted => exact SingleWriter.safe_read rfl fun rows => safe_recoverLoop rows 0

/-- **When the shared ledger verifies.** Any number of instances, any calls, any interleaving of
their statements, any call cut off anywhere: if every insert into the ledger that opened its
transaction named the head it found, whatever is committed verifies. -/
theorem shared_verifyIntegrity {g : SharedFile} (h : SharedReaches py headFresh g) :
    (Backend.opened g.durable).verifyIntegrity py = .ok true := by
  have hempty : StoreChain py (Db.empty, Numbers.zero) := chainInv_nil 0
  have hgood := SingleWriter.reaches_good hempty safe_call h
  exact ChainInv.verifyIntegrity (b := Backend.opened g.durable) hgood.durable

/-! ## Two runs

Event `a` is staged, recovered by instance 0, and event `b` is acknowledged by instance 1. -/

abbrev Schedule := List (ℕ × SingleWriter.Action (LedgerCall Json))

def runShared (fresh : Stmt → Store → Bool) (sched : Schedule) : Option SharedFile :=
  SingleWriter.runs exec Stmt.writes (LedgerCall.prog PyLib.fixed) fresh
    (.init (Db.empty, Numbers.zero)) sched

def advances (i n : ℕ) : Schedule := List.replicate n (i, .advance)

def stageA : Schedule := (0, .start (.stagePartial (lit "a") (.obj []))) :: advances 0 2

def acknowledgeB : Schedule :=
  (1, .start (.acknowledgeWritesBatch .fixed [⟨lit "k", lit "b", .obj []⟩])) ::
    advances 1 7

/-- Instance 0 has read the head and stands before its first insert when instance 1 commits. -/
def stale : Schedule :=
  stageA ++ (0, .start .recoverUncommitted) :: advances 0 3 ++ acknowledgeB ++ advances 0 3

/-- Instance 0 recovers after instance 1 has committed. -/
def inTurn : Schedule := stageA ++ acknowledgeB ++ (0, .start .recoverUncommitted) :: advances 0 6

theorem shared_of_run {fresh : Stmt → Store → Bool} {sched : Schedule}
    (h : (runShared fresh sched).isSome = true) :
    SharedReaches PyLib.fixed fresh ((runShared fresh sched).get h) :=
  SingleWriter.Reaches.runs exec Stmt.writes .init (Option.some_get h).symm

theorem stale_runs : (runShared (fun _ _ => true) stale).isSome = true := by decide

theorem inTurn_runs : (runShared headFresh inTurn).isSome = true := by decide

/-- **A recovery can break the chain.** -/
theorem shared_verifyIntegrity_fails :
    ∃ g, SharedReaches PyLib.fixed (fun _ _ => true) g ∧
      (Backend.opened g.durable).verifyIntegrity PyLib.fixed = .ok false :=
  ⟨_, shared_of_run stale_runs, by decide⟩

theorem shared_verifyIntegrity_inTurn :
    ∃ g, SharedReaches PyLib.fixed headFresh g ∧
      g.durable.1.ledger.map LedgerRow.eventId = [lit "b", lit "a"] ∧
      (Backend.opened g.durable).verifyIntegrity PyLib.fixed = .ok true :=
  ⟨_, shared_of_run inTurn_runs, by decide, shared_verifyIntegrity (shared_of_run inTurn_runs)⟩

end LineageVault
