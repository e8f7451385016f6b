import LineageVault.Storage.Isolation
import LineageVault.Storage.WholeCalls

/-! # Verifying a ledger that is being written

`verify_integrity` takes no lock, so on a shared connection it may come between any two statements of a
call and see what the call has written so far. Every statement of every call keeps the chain
(`passes_prog`): the row that `_append_ledger` inserts names the head it has just read, and nothing
comes in between, since the call holds the lock.
-/

namespace LineageVault
open Foundations
set_option autoImplicit false

variable {P : Type} {py : PyLib P}

variable (py) in
/-- The ledger a store shows is a chain. -/
abbrev Chained (v : Store) : Prop := ChainInv py v.1.ledger v.2.seq

/-! ## One statement -/

theorem chained_exec {s : Stmt} {v w : Store} {r : Reply s} (hs : s.ledgers = false) (hv : Chained py v)
    (h : exec s v = .ok (r, w)) : Chained py w := by
  have hledger : w.1.ledger = v.1.ledger := by
    rcases exec_ledger h with ⟨hl, -⟩ | ⟨-, hw⟩
    · rw [hs] at hl
      cases hl
    · exact hw
  obtain ⟨ws, n, he, rfl⟩ := exec_ok h
  have hseq : v.2.seq ≤ n.seq := (effect_writes he).1
  change ChainInv py (v.1.applyAll ws).ledger n.seq
  rw [hledger]
  exact hv.mono hseq

theorem chained_insertLedger {eventId payloadText digest : Str} {v w : Store} {u : Unit}
    (hv : Chained py v) (hd : entryHash py (headHash v.1.ledger) eventId payloadText = .ok digest)
    (h : exec (.insertLedger eventId payloadText (headHash v.1.ledger) digest) v = .ok (u, w)) :
    Chained py w := by
  obtain ⟨henc, rfl⟩ := entryHash_ok hd
  obtain ⟨-, -, rfl⟩ := insertLedger_ok h
  exact chainInv_concat hv rfl rfl rfl henc

/-! ## Programs -/

theorem passes_appendLedger (eventId : Str) (payload : P) {v : Store} (hv : Chained py v) :
    (appendLedger py eventId payload).Passes exec (Chained py) v := by
  cases hp : payloadJson py payload with
  | error e =>
    simp only [appendLedger, hp]
    exact hv
  | ok payloadText =>
    rw [appendLedger_stmts hp]
    refine ⟨hv, fun row v' hrow => ?_⟩
    cases hrow
    refine Prog.passes_ofExcept_bind hv fun digest hd => ⟨hv, fun u w hw => ?_⟩
    exact chained_insertLedger hv hd hw

theorem passes_acknowledgeItem (now : ClockText) (item : BatchWriteItem P) {v : Store}
    (hv : Chained py v) : (acknowledgeItem py now item).Passes exec (Chained py) v := by
  refine Prog.passes_ofExcept_bind hv fun payloadText _ => ?_
  simp only [sql, Prog.query_bind]
  refine ⟨hv, fun _ v₁ h₁ => ?_⟩
  have hv₁ := chained_exec rfl hv h₁
  refine ⟨hv₁, fun _ v₂ h₂ => ?_⟩
  have hv₂ := chained_exec rfl hv₁ h₂
  refine ⟨hv₂, fun _ v₃ h₃ => ?_⟩
  exact passes_appendLedger _ _ (chained_exec rfl hv₂ h₃)

theorem passes_acknowledgeLoop (now : ClockText) {items : List (BatchWriteItem P)}
    {existing : List (Str × Str)} {results : List AcknowledgedWrite} {v : Store} (hv : Chained py v) :
    (acknowledgeLoop py now items existing results).Passes exec (Chained py) v := by
  induction items generalizing existing results v with
  | nil => exact hv
  | cons item items ih =>
    cases hl : existing.lookup item.idempotencyKey with
    | some eventId =>
      rw [acknowledgeLoop_known py now items results hl]
      exact ih hv
    | none =>
      rw [acknowledgeLoop_new py now items results hl]
      exact (passes_acknowledgeItem now item hv).bind fun _ w _ hw => ih hw

theorem passes_recoverLoop {rows : List (Str × Str)} {count : ℕ} {v : Store} (hv : Chained py v) :
    (recoverLoop py rows count).Passes exec (Chained py) v := by
  induction rows generalizing count v with
  | nil => exact hv
  | cons row rows ih =>
    obtain ⟨eventId, payloadText⟩ := row
    cases hl : py.loads payloadText with
    | error e =>
      simp only [recoverLoop, hl]
      exact hv
    | ok payload =>
      rw [recoverLoop_cons hl]
      refine ⟨hv, fun dup v₁ h₁ => ?_⟩
      have hv₁ := chained_exec rfl hv h₁
      cases dup with
      | true => exact ⟨hv₁, fun _ v₂ h₂ => ih (chained_exec rfl hv₁ h₂)⟩
      | false =>
        refine (passes_appendLedger eventId payload hv₁).bind fun _ v₂ _ hv₂ => ?_
        exact ⟨hv₂, fun _ v₃ h₃ => ih (chained_exec rfl hv₂ h₃)⟩

theorem passes_ledgerCall (c : LedgerCall P) {v : Store} (hv : Chained py v) :
    (c.prog py).Passes exec (Chained py) v := by
  cases c with
  | stagePartial eventId payload =>
    refine Prog.passes_ofExcept_bind hv fun payloadText _ => ?_
    exact ⟨hv, fun _ w hw => chained_exec rfl hv hw⟩
  | acknowledgeWritesBatch now items =>
    rw [LedgerCall.prog]
    split
    · exact hv
    · refine Prog.Passes.bind ?_ fun rs w _ hw => hw
      refine ⟨hv, fun existing v₁ h₁ => ?_⟩
      exact passes_acknowledgeLoop now (chained_exec rfl hv h₁)
  | recoverUncommitted =>
    refine Prog.Passes.bind ?_ fun n w _ hw => hw
    refine ⟨hv, fun rows v₁ h₁ => ?_⟩
    exact passes_recoverLoop (chained_exec rfl hv h₁)

/-- Every statement of every call leaves a chain. -/
theorem passes_prog (c : WriterCall P) {v : Store} (hv : Chained py v) :
    (c.prog py).Passes exec (Chained py) v := by
  cases hg : c.guarded with
  | true =>
    cases c with
    | ledger c => exact passes_ledgerCall c hv
    | _ => cases hg
  | false => exact (unguarded_uses hg).passes (fun s v r w hs hv h => chained_exec hs hv h) hv

theorem chained_inside {log : List (Call P × Outcome)} {c : WriterCall P} {b : Backend} {g : Connection}
    (hrun : Run py log b) (h : Inside py c b g) : Chained py g.backend.session.view := by
  cases h with
  | intro r n v running locks guarded edge backend steps =>
    rw [backend]
    exact (steps.passes (passes_prog c hrun.chainInv)).here

theorem chained_stands {log : List (Call P × Outcome)} {calls : List (Call P)} {g : Connection}
    (h : Stands py log calls g) :
    Chained py g.backend.session.view ∧ Chained py g.backend.session.durable := by
  have hdurable : ∀ b : Backend, Run py log b → Chained py b.session.durable := by
    intro b hrun
    have hjournal := journal_ext.1 hrun.settled
    have hview := hrun.chainInv
    rw [Chained, hjournal.2.1, hjournal.2.2.2]
    exact hview
  cases h with
  | idle free ended run => exact ⟨run.chainInv, hdurable _ run⟩
  | busy c b inside ended run =>
    rw [inside.unchanged.1]
    exact ⟨chained_inside run inside, hdurable b run⟩

/-- **The ledger verifies at every statement.** Between any two statements of the calls of the threads,
whatever has failed before: `verify_integrity` on the connection is True, also inside a transaction that
is rolled back later, and the committed entries are the first ones of the chain it goes through. So it
is for a process that opens the file at this moment. -/
theorem verifyIntegrity_between_statements {b : Backend} (hb : Reachable py b)
    {steps : List (ConnectionStep P)} (hlocks : ∀ c, .start c ∈ steps → c.Locks py) {g : Connection}
    (hs : Connection.after py steps ⟨b, none⟩ = some g) :
    g.backend.verifyIntegrity py = .ok true ∧ g.backend.reopen.verifyIntegrity py = .ok true ∧
      g.committedLedger <+: g.backend.db.ledger ∧
      ∀ r ∈ g.backend.db.ledger, entryHash py r.prevHash r.eventId r.payload = .ok r.entryHash := by
  obtain ⟨log, hrun⟩ := hb
  have hstart : Stands py log (log.map Prod.fst) ⟨b, none⟩ := .idle rfl rfl hrun
  obtain ⟨made, h⟩ := stands_after hstart hlocks hs
  obtain ⟨hview, hdurable⟩ := chained_stands h
  have hshows : Connection.Shows ⟨b, none⟩ :=
    Connection.shows_idle rfl (journal_ext.1 hrun.settled).2.1.symm
  refine ⟨hview.verifyIntegrity, hdurable.verifyIntegrity, (Connection.shows_after hshows hs).1.committed, ?_⟩
  intro r hr
  rw [entryHash_eq py (hview.encodable r hr), hview.entryHash_eq hr]

/-- Inside the acknowledgement of a second event, with the first one committed. -/
theorem verifyIntegrity_inside :
    let py := PyLib.fixed
    let batch (k e : String) : ConnectionStep Json :=
      .start (.ledger (.acknowledgeWritesBatch .fixed [⟨lit k, lit e, .null⟩]))
    ∃ g, Connection.after py (batch "k" "e" :: List.replicate 7 (.next false) ++ batch "l" "f" ::
        List.replicate 6 (.next false)) ⟨.empty, none⟩ = some g ∧
      g.backend.countAcknowledged = 2 ∧ g.committedLedger.length = 1 ∧
      g.backend.verifyIntegrity py = .ok true := by
  intro py batch
  have hlen : ((Connection.after py (batch "k" "e" :: List.replicate 7 (.next false) ++ batch "l" "f" ::
      List.replicate 6 (.next false)) ⟨.empty, none⟩).map fun g =>
      (g.backend.countAcknowledged, g.committedLedger.length)) = some (2, 1) := by decide
  obtain ⟨g, hg, hlen⟩ := Option.map_eq_some_iff.1 hlen
  obtain ⟨htwo, hone⟩ := Prod.mk.inj hlen
  refine ⟨g, hg, htwo, hone, (verifyIntegrity_between_statements ⟨[], .nil⟩ ?_ hg).1⟩
  intro c hc
  simp only [batch, List.replicate, List.cons_append, List.nil_append, List.mem_cons,
    ConnectionStep.start.injEq, reduceCtorEq, List.not_mem_nil, or_false, false_or] at hc
  rcases hc with rfl | rfl <;> exact List.cons_ne_nil _ _

end LineageVault
