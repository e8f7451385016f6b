import LineageVault.Storage.Integrity

/-! # `cli.py verify`

`lineage-vault verify` opens the file, recovers, and only then verifies; the server recovers before it answers
as well. The file may be one that somebody wrote to behind the back of the backend: a recovery appends its rows
to whatever ledger it finds. The commands that start a server or a benchmark are left out.

`verify_verdict`: nothing that is done with a file changes what is said of its ledger.
-/

namespace LineageVault
open Foundations
set_option autoImplicit false

variable {P : Type} {py : PyLib P}

/-- What the command prints, and its exit code. -/
structure VerifyOutput where
  lines : List Str
  code : ℕ
  deriving DecidableEq

/-- `print("integrity:", ok)` and the lines after it. -/
def verifyOutput (ok : Bool) (acknowledged : ℕ) : VerifyOutput where
  lines := [lit "integrity: " ++ lit (if ok then "True" else "False"),
    lit "acknowledged: " ++ natText acknowledged, lit "backend: sqlite"]
  code := if ok then 0 else 1

/-- `verify` on a file with the tables `v`. -/
def verifyCommand (py : PyLib P) (fs : List Bool) (v : Store) : Except PyErr VerifyOutput × Backend :=
  match (Backend.opened v).recoverUncommitted py fs with
  | (.error e, eng) => (.error e, eng)
  | (.ok _, eng) =>
    match eng.verifyIntegrity py with
    | .error e => (.error e, eng)
    | .ok ok => (.ok (verifyOutput ok eng.countAcknowledged), eng)

/-! ## A row after all others -/

theorem orderedInsert_concat {a row : LedgerRow} (rows : List LedgerRow) (h : a.seq ≤ row.seq) :
    (rows ++ [row]).orderedInsert (fun a b => a.seq ≤ b.seq) a =
      rows.orderedInsert (fun a b => a.seq ≤ b.seq) a ++ [row] := by
  induction rows with
  | nil => simp [List.orderedInsert, h]
  | cons r rows ih =>
    rw [List.cons_append, List.orderedInsert, List.orderedInsert]
    split
    · rfl
    · rw [ih]
      rfl

theorem orderBySeq_concat {rows : List LedgerRow} {row : LedgerRow} (h : ∀ r ∈ rows, r.seq ≤ row.seq) :
    orderBySeq (rows ++ [row]) = orderBySeq rows ++ [row] := by
  induction rows with
  | nil => rfl
  | cons r rows ih =>
    have hrest : orderBySeq (rows ++ [row]) = orderBySeq rows ++ [row] :=
      ih fun q hq => h q (List.mem_cons_of_mem _ hq)
    rw [orderBySeq, List.cons_append, List.insertionSort_cons]
    change (orderBySeq (rows ++ [row])).orderedInsert _ r = _
    rw [hrest, orderedInsert_concat _ (h r List.mem_cons_self)]
    rfl

/-- The loop, whatever it says of the rows before. -/
theorem verifyRows_concat {row : LedgerRow} (rows : List LedgerRow) (g : Str)
    (hprev : row.prevHash = HashChain.headFrom g (rows.map LedgerRow.link))
    (hhash : entryHash py row.prevHash row.eventId row.payload = .ok row.entryHash) :
    Backend.verifyRows py g (rows ++ [row]) = Backend.verifyRows py g rows := by
  induction rows generalizing g with
  | nil =>
    obtain rfl : row.prevHash = g := hprev
    simp [Backend.verifyRows, hhash]
  | cons r rows ih =>
    rw [List.map_cons, HashChain.headFrom_cons] at hprev
    have hrest : Backend.verifyRows py r.entryHash (rows ++ [row]) = Backend.verifyRows py r.entryHash rows :=
      ih _ hprev
    rw [List.cons_append, Backend.verifyRows, Backend.verifyRows, hrest]

/-- `_last_hash`, also of a ledger that does not verify. -/
theorem headHash_ordered (rows : List LedgerRow) :
    headHash rows = HashChain.headFrom genesisHash ((orderBySeq rows).map LedgerRow.link) := by
  rw [headHash, lastHash, HashChain.headFrom, List.getLast?_map, Option.map_map]
  rfl

/-! ## What the calls keep -/

/-- A ledger that grew out of the rows `found`, and that the verifier answers the same on. -/
structure Kept (py : PyLib P) (found rows : List LedgerRow) (seq : ℕ) : Prop where
  bound : ∀ r ∈ rows, r.seq ≤ seq
  grown : found <+: rows
  verdict : Backend.verifyRows py genesisHash (orderBySeq rows) =
    Backend.verifyRows py genesisHash (orderBySeq found)

section Kept
variable {found : List LedgerRow}

theorem kept_appended {v : Store} {eventId payloadText : Str} (h : Kept py found v.1.ledger v.2.seq)
    (henc : (entryText (headHash v.1.ledger) eventId payloadText).encodable = true) :
    Kept py found (appended py v eventId payloadText).1.ledger (appended py v eventId payloadText).2.seq where
  bound r hr := by
    rcases List.mem_append.1 hr with hr | hr
    · exact (h.bound r hr).trans (Nat.le_succ _)
    · exact (congrArg LedgerRow.seq (List.mem_singleton.1 hr)).le
  grown := h.grown.trans (List.prefix_append _ _)
  verdict := by
    have hlast : orderBySeq (v.1.ledger ++ [nextRow py v eventId payloadText]) =
        orderBySeq v.1.ledger ++ [nextRow py v eventId payloadText] :=
      orderBySeq_concat fun r hr => (h.bound r hr).trans (Nat.le_succ _)
    have hnext : Backend.verifyRows py genesisHash (orderBySeq v.1.ledger ++ [nextRow py v eventId payloadText]) =
        Backend.verifyRows py genesisHash (orderBySeq v.1.ledger) :=
      verifyRows_concat _ _ (headHash_ordered v.1.ledger) (entryHash_eq py henc)
    change Backend.verifyRows py genesisHash (orderBySeq (v.1.ledger ++ [nextRow py v eventId payloadText])) = _
    rw [hlast, hnext, h.verdict]

theorem kept_step {b b' : Backend} {c : Call P} {o : Outcome}
    (hb : Kept py found b.db.ledger b.session.view.2.seq) (h : JournalStep py b c o b') :
    Kept py found b'.db.ledger b'.session.view.2.seq := by
  cases h with
  | raised e settled same =>
    obtain ⟨-, hl, -, hn⟩ := journal_ext.1 same
    rwa [Backend.db, hl, hn]
  | other noItems settled same =>
    obtain ⟨-, hl, -, hn⟩ := journal_ext.1 same
    rwa [Backend.db, hl, hn]
  | skipped seq id => exact ⟨fun r hr => (hb.bound r hr).trans (Nat.le_add_right _ _), hb.grown, hb.verdict⟩
  | emptyBatch now => exact hb
  | stage text eval =>
    obtain ⟨-, -, rfl⟩ := stageBody_ok eval
    exact hb
  | acknowledge ack eval =>
    obtain ⟨_, hJ⟩ := acknowledgeLoop_keeps (J := fun _ v _ _ => Kept py found v.1.ledger v.2.seq)
      (fun _ _ _ _ _ _ hJ _ => hJ)
      (fun _ _ _ _ _ _ hJ _ _ ha => kept_appended (v := committed _ _) hJ ha.text)
      [] hb (acknowledgeBody_cases eval)
    exact hJ
  | recover eval =>
    exact recoverLoop_keeps (J := fun _ v _ => Kept py found v.1.ledger v.2.seq)
      (fun _ _ _ _ _ hJ _ => hJ)
      (fun _ _ _ _ _ _ _ hJ _ _ henc _ => kept_appended hJ henc)
      hb (recoverBody_cases eval)

variable (py) in
theorem kept_history {b : Backend} (hb : Kept py found b.db.ledger b.session.view.2.seq) (hs : Settled b)
    (log : List (Call P × Outcome)) (calls : List (Call P × List Bool)) :
    Kept py found (history py log b calls).2.db.ledger (history py log b calls).2.session.view.2.seq ∧
      Settled (history py log b calls).2 := by
  induction calls generalizing log b with
  | nil => exact ⟨hb, hs⟩
  | cons call calls ih =>
    have hstep : JournalStep py b call.1 _ _ := perform_cases call.1 call.2 hs
    exact ih (kept_step hb hstep) (hstep.settled hs) _

end Kept

theorem Kept.verifyIntegrity {v : Store} {b : Backend} {seq : ℕ} (h : Kept py v.1.ledger b.db.ledger seq) :
    b.verifyIntegrity py = (Backend.opened v).verifyIntegrity py :=
  h.verdict

/-- **Nothing heals a ledger, and nothing breaks it.** Let `v` be any file, written by whomever, whose numbers
handed out are not below those of its ledger, and let any calls be made on it. Its rows stay the first ones,
and `lineage-vault verify`, unless its recovery raises, prints and exits with what `verify_integrity` would
have said of the file as it was found. -/
theorem verify_verdict {v : Store} (hv : ∀ r ∈ v.1.ledger, r.seq ≤ v.2.seq) (calls : List (Call P × List Bool))
    (fs : List Bool) {answer : Except PyErr VerifyOutput} {b' : Backend}
    (h : verifyCommand py fs (history py [] (Backend.opened v) calls).2.session.durable = (answer, b')) :
    v.1.ledger <+: b'.db.ledger ∧ b'.verifyIntegrity py = (Backend.opened v).verifyIntegrity py ∧
      (answer = ((Backend.opened v).verifyIntegrity py).map (verifyOutput · b'.db.ledger.length) ∨
        ∃ e, answer = .error e ∧ (history py [] (Backend.opened v) calls).2.reopen.recoverUncommitted py fs =
          (.error e, b')) := by
  have hfound : Kept py v.1.ledger (Backend.opened v).db.ledger (Backend.opened v).session.view.2.seq :=
    ⟨hv, List.prefix_rfl, rfl⟩
  obtain ⟨hkept, hsettled⟩ := kept_history py hfound rfl [] calls
  generalize (history py [] (Backend.opened v) calls).2 = b at h hkept hsettled ⊢
  have hopen : Kept py v.1.ledger b.reopen.db.ledger b.reopen.session.view.2.seq :=
    kept_step hkept (perform_cases .reopen [] hsettled)
  have hrecover := kept_step hopen (perform_cases .recoverUncommitted fs rfl)
  rw [Call.perform] at hrecover
  have hopened : Backend.opened b.session.durable = b.reopen := rfl
  rw [verifyCommand, hopened] at h
  rcases hfirst : b.reopen.recoverUncommitted py fs with ⟨e | n, eng⟩
  · rw [hfirst] at h hrecover
    cases h
    exact ⟨hrecover.grown, hrecover.verifyIntegrity, .inr ⟨e, rfl, rfl⟩⟩
  · rw [hfirst] at h hrecover
    have hverdict : eng.verifyIntegrity py = (Backend.opened v).verifyIntegrity py := hrecover.verifyIntegrity
    rw [← hverdict]
    cases hok : eng.verifyIntegrity py with
    | error e =>
      simp only [hok] at h
      cases h
      exact ⟨hrecover.grown, hok, .inl rfl⟩
    | ok ok =>
      simp only [hok] at h
      cases h
      exact ⟨hrecover.grown, hok, .inl rfl⟩

/-- The row names another predecessor than the genesis hash. -/
def misled : Store :=
  ({ Db.empty with ledger := [⟨1, lit "a", lit "\x7b\x7d", lit "0", List.replicate 64 (.scalar '1')⟩] }, ⟨1, 0⟩)

def stageAndAcknowledge : List (Call Json × List Bool) :=
  [(.stagePartial (lit "b") (.obj []), []), (.acknowledgeWrite .fixed ⟨lit "k", lit "c", .null⟩, [])]

def misledLater : Backend := (history PyLib.fixed [] (Backend.opened misled) stageAndAcknowledge).2

/-- Two rows later the command still exits with 1. -/
theorem verify_verdict_misled :
    (verifyCommand PyLib.fixed [] misledLater.session.durable).1 = .ok (verifyOutput false 3) := by
  have hlength : (verifyCommand PyLib.fixed [] misledLater.session.durable).2.db.ledger.length = 3 := by
    decide +kernel
  have hrecovers : (misledLater.reopen.recoverUncommitted PyLib.fixed []).1.isOk = true := by
    decide +kernel
  have hverdict : (Backend.opened misled).verifyIntegrity PyLib.fixed = .ok false := by
    decide +kernel
  rcases hcommand : verifyCommand PyLib.fixed [] misledLater.session.durable with ⟨answer, b'⟩
  rw [hcommand] at hlength
  obtain ⟨-, -, rfl | ⟨e, -, hraised⟩⟩ := verify_verdict (by decide) stageAndAcknowledge [] hcommand
  · rw [hlength, hverdict]
    rfl
  · rw [misledLater, hraised] at hrecovers
    cases hrecovers

end LineageVault
