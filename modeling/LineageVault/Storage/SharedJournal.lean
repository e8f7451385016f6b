import LineageVault.Foundations.Overlapping
import LineageVault.Storage.Acknowledge
import LineageVault.Storage.Serial
import LineageVault.Storage.SharedFile

/-! # Exactly once, for several backends on one file

Instances of the SQLite backend in several processes share one file. What they read before their write
transaction may be stale when it opens: the keys of a batch, the pending rows and the head of the ledger.
With a stale head the chain breaks (`shared_verifyIntegrity_fails`). The tables do not: rows are only added,
so a key or a staged event that was seen is still there, and the `UNIQUE` columns refuse what another
instance has written in between.

`shared_exactly_once`: in every interleaving of every calls, cut off anywhere, the answers are those of one
instance, in the order of the commits.
-/

namespace LineageVault
open Foundations
set_option autoImplicit false

variable {P : Type} (py : PyLib P)

/-! ## The runs -/

/-- An instance remembers which call it made. -/
def LedgerCall.answering (c : LedgerCall P) : Sql (LedgerCall P × Outcome) :=
  c.prog py >>= fun o => .ret (c, o)

abbrev AnsweredFile (P : Type) := SingleWriter.File Stmt Reply PyErr (LedgerCall P × Outcome) Store

/-- Runs on a new file, with the calls that committed and what they returned. -/
abbrev SharedLog (log : List (LedgerCall P × Outcome)) (g : AnsweredFile P) : Prop :=
  SingleWriter.Logged exec Stmt.writes (LedgerCall.answering py) (Db.empty, Numbers.zero) log g

def asCalls (log : List (LedgerCall P × Outcome)) : List (Call P × Outcome) :=
  log.map fun x => (x.1.toCall, x.2)

/-! ## What commits leave -/

/-- Nothing of the write path is taken back. -/
structure Persists (u v : Store) : Prop where
  keys : u.1.idempotency <+: v.1.idempotency
  ledger : u.1.ledger <+: v.1.ledger
  staged : stagedIds u.1 <+: stagedIds v.1

theorem persists_refl (v : Store) : Persists v v :=
  ⟨List.prefix_refl _, List.prefix_refl _, List.prefix_refl _⟩

theorem Persists.trans {u v w : Store} (huv : Persists u v) (hvw : Persists v w) : Persists u w :=
  ⟨huv.keys.trans hvw.keys, huv.ledger.trans hvw.ledger, huv.staged.trans hvw.staged⟩

theorem persists_staged (v : Store) (e t : Str) : Persists v (LineageVault.staged v e t) := by
  refine ⟨List.prefix_refl _, List.prefix_refl _, ?_⟩
  simp only [LineageVault.staged, stagedIds]
  split
  · exact List.prefix_refl _
  · rw [List.map_append]
    exact List.prefix_append _ _

theorem persists_committed (v : Store) (e : Str) : Persists v (committed v e) := by
  refine ⟨List.prefix_refl _, List.prefix_refl _, ?_⟩
  simp only [stagedIds, committed, markCommitted_eventIds]
  exact List.prefix_refl _

/-- The ledger grows by one row. -/
def entered (v : Store) (row : LedgerRow) : Store :=
  ({ v.1 with ledger := v.1.ledger ++ [row] }, { v.2 with seq := v.2.seq + 1 })

theorem persists_entered (v : Store) (row : LedgerRow) : Persists v (entered v row) :=
  ⟨List.prefix_refl _, List.prefix_append _ _, List.prefix_refl _⟩

theorem persists_acknowledged (v : Store) (now : ClockText) (item : BatchWriteItem P) (t : Str) :
    Persists v (acknowledged py v now item t) where
  keys := List.prefix_append _ _
  ledger := List.prefix_append _ _
  staged := by
    simp only [stagedIds, acknowledged_walStaging, markCommitted_eventIds]
    exact (persists_staged v item.eventId t).staged

/-- What a call adds to the answers and to the count of recovered events. -/
def Tallies (x : LedgerCall P × Outcome) (v w : Store) : Prop :=
  ∀ answers recovered, Tally py answers recovered v →
    Tally py (answers ++ answered (asCalls [x])) (recovered + recoveredCount (asCalls [x])) w

abbrev SureCall (p : Sql (LedgerCall P × Outcome)) (u : Store) : Prop :=
  SingleWriter.Sure exec Stmt.writes JournalInv Persists (Tallies py) p none u

variable {py}

/-- The invariant does not look at the chain. -/
theorem JournalInv.congr {v w : Store} (h : JournalInv v) (hkeys : w.1.idempotency = v.1.idempotency)
    (hledger : ledgerIds w.1 = ledgerIds v.1) (hstaging : w.1.walStaging = v.1.walStaging)
    (hid : w.2.id = v.2.id) : JournalInv w where
  idSorted := hstaging ▸ h.idSorted
  idBound := by
    rw [hstaging, hid]
    exact h.idBound
  staged := by
    simp only [stagedIds, hstaging]
    exact h.staged
  ledgered := hledger ▸ h.ledgered
  keys := hkeys ▸ h.keys
  events := hkeys ▸ h.events
  committed e := by
    simp only [hledger, committedIds, hstaging]
    exact h.committed e
  keyed := by
    rw [hkeys, hledger]
    exact h.keyed

/-- A staged event enters the ledger, with whatever head. -/
theorem journalInv_entered {v : Store} (h : JournalInv v) {row : LedgerRow}
    (hstaged : row.eventId ∈ stagedIds v.1) (hnew : ∀ q ∈ v.1.ledger, q.eventId ≠ row.eventId) :
    JournalInv (committed (entered v row) row.eventId) := by
  refine (journalInv_ledgered PyLib.fixed h (t := []) hstaged hnew).congr rfl ?_ rfl rfl
  simp only [ledgerIds, committed, entered, appended, List.map_append, List.map_singleton]
  rfl

/-- A mark on an event that another instance has marked. -/
theorem journalInv_marked {v : Store} (h : JournalInv v) {e : Str} (he : e ∈ ledgerIds v.1) :
    JournalInv (committed v e) where
  idSorted := marked_idSorted h.idSorted e
  idBound := marked_idBound h.idBound e
  staged := by
    simp only [stagedIds, committed, markCommitted_eventIds]
    exact h.staged
  ledgered := h.ledgered
  keys := h.keys
  events := h.events
  committed e' := by
    rw [mem_committedIds_mark]
    refine ⟨fun hl => .inl ((h.committed e').1 hl), ?_⟩
    rintro (hc | ⟨rfl, -⟩)
    · exact (h.committed e').2 hc
    · exact he
  keyed := h.keyed

theorem tally_entered {answers : List (BatchWriteItem P × AcknowledgedWrite)} {recovered : ℕ} {v : Store}
    (h : Tally py answers recovered v) {row : LedgerRow} {payload : P}
    (hp : payloadJson py payload = .ok row.payload) (e : Str) :
    Tally py answers (recovered + 1) (committed (entered v row) e) where
  keyed := h.keyed
  order := h.order
  table := h.table
  stored a ha hd := by
    obtain ⟨q, hq, he⟩ := h.stored a ha hd
    exact ⟨q, List.mem_append_left _ hq, he⟩
  written q hq := by
    rcases List.mem_append.1 hq with hq | hq
    · exact h.written q hq
    · rw [List.mem_singleton.1 hq]
      exact ⟨payload, hp⟩
  total := by
    simp only [committed, entered, List.length_append, List.length_singleton, h.total]
    omega

/-! ## A batch -/

section Batch
variable {c : LedgerCall P} {now : ClockText}

/-- The map of a batch, possibly an old one: every key of it is in the table with its event. -/
def InTable (existing : List (Str × Str)) (u : Store) : Prop :=
  ∀ k e, existing.lookup k = some e → ∃ q ∈ u.1.idempotency, q.idempotencyKey = k ∧ q.eventId = e

theorem InTable.later {existing : List (Str × Str)} {u v : Store} (h : InTable existing u)
    (huv : Persists u v) : InTable existing v := fun k e hk =>
  let ⟨q, hq, he⟩ := h k e hk
  ⟨q, huv.keys.subset hq, he⟩

theorem inTable_select {limit : VariableLimit} {keys : List Str} {v w : Store}
    {rows : List (Str × Str)} (h : exec (.selectIdempotency limit keys) v = .ok (rows, w)) :
    InTable rows v := by
  obtain ⟨-, rfl, -⟩ := selectIdempotency_ok h
  intro k e hk
  obtain ⟨q, hq, he⟩ := Option.map_eq_some_iff.1 (lookup_some hk)
  exact ⟨q, List.mem_of_find?_eq_some hq, of_decide_eq_true (List.find?_some hq :), he⟩

/-- The results before the first fresh item, which opens the transaction. -/
def AllRepeated (u : Store) : List (BatchWriteItem P) → List AcknowledgedWrite → Prop :=
  List.Forall₂ fun item r => ∃ q ∈ u.1.idempotency, q.idempotencyKey = item.idempotencyKey ∧
    r = ⟨q.eventId, item.idempotencyKey, true, true⟩

theorem AllRepeated.later {u v : Store} {past : List (BatchWriteItem P)} {rs : List AcknowledgedWrite}
    (h : AllRepeated u past rs) (huv : Persists u v) : AllRepeated v past rs :=
  List.Forall₂.imp (fun _ _ ⟨q, hq, hr⟩ => ⟨q, huv.keys.subset hq, hr⟩) h

theorem AllRepeated.tally {v : Store} {past : List (BatchWriteItem P)} {rs : List AcknowledgedWrite}
    (h : AllRepeated v past rs) {answers : List (BatchWriteItem P × AcknowledgedWrite)} {recovered : ℕ}
    (ht : Tally py answers recovered v) : Tally py (answers ++ past.zip rs) recovered v := by
  induction h generalizing answers with
  | nil =>
    rw [List.zip_nil_left, List.append_nil]
    exact ht
  | cons hr _ ih =>
    obtain ⟨q, hq, hk, rfl⟩ := hr
    rw [List.zip_cons_cons, List.append_cons]
    exact ih (ht.repeat ⟨q, hq, hk, rfl⟩)

/-- Inside the transaction that opened on `v`. -/
structure Batched (py : PyLib P) (v : Store) (past : List (BatchWriteItem P)) (u : Store)
    (existing : List (Str × Str)) (rs : List AcknowledgedWrite) : Prop where
  inv : JournalInv u
  persists : Persists v u
  length : rs.length = past.length
  known : InTable existing u
  tally : ∀ answers recovered, Tally py answers recovered v →
    Tally py (answers ++ past.zip rs) recovered u

theorem zip_snoc {α β : Type} {as : List α} {bs : List β} (h : bs.length = as.length) (xs : List (α × β))
    (a : α) (b : β) : xs ++ (as ++ [a]).zip (bs ++ [b]) = xs ++ as.zip bs ++ [(a, b)] := by
  rw [List.zip_append h.symm, ← List.append_assoc]
  rfl

theorem Batched.repeated {v u : Store} {past : List (BatchWriteItem P)} {item : BatchWriteItem P}
    {existing : List (Str × Str)} {rs : List AcknowledgedWrite} {e : Str}
    (h : Batched py v past u existing rs) (hl : existing.lookup item.idempotencyKey = some e) :
    Batched py v (past ++ [item]) u existing (rs ++ [⟨e, item.idempotencyKey, true, true⟩]) where
  inv := h.inv
  persists := h.persists
  length := by rw [List.length_append, List.length_append, h.length]; rfl
  known := h.known
  tally answers recovered ht := by
    rw [zip_snoc h.length]
    exact (h.tally answers recovered ht).repeat (h.known _ _ hl)

theorem Batched.fresh {v u : Store} {past : List (BatchWriteItem P)} {item : BatchWriteItem P}
    {existing : List (Str × Str)} {rs : List AcknowledgedWrite} {t : Str}
    (h : Batched py v past u existing rs) (hp : payloadJson py item.payload = .ok t) (ha : Admits u item t) :
    Batched py v (past ++ [item]) (acknowledged py u now item t)
      ((item.idempotencyKey, item.eventId) :: existing)
      (rs ++ [⟨item.eventId, item.idempotencyKey, true, false⟩]) where
  inv := journalInv_acknowledged h.inv ha
  persists := h.persists.trans (persists_acknowledged py u now item t)
  length := by rw [List.length_append, List.length_append, h.length]; rfl
  known k e hk := by
    rw [List.lookup_cons] at hk
    split at hk
    · next hkk =>
      cases hk
      exact ⟨_, List.mem_append_right _ (List.mem_singleton_self _), (beq_iff_eq.1 hkk).symm, rfl⟩
    · exact h.known.later (persists_acknowledged py u now item t) k e hk
  tally answers recovered ht := by
    rw [zip_snoc h.length]
    exact (h.tally answers recovered ht).fresh (fun q hq => (ha.unkeyed q hq).1) hp

/-- The loop wherever it stands before its transaction: the items left, and the results so far. -/
theorem sure_acknowledgeLoop (past : List (BatchWriteItem P)) {items : List (BatchWriteItem P)}
    {existing : List (Str × Str)} {rs : List AcknowledgedWrite} {u : Store} (hknown : InTable existing u)
    (hpast : AllRepeated u past rs) :
    SureCall py (acknowledgeLoop py now items existing rs >>= fun rs =>
      .ret (.acknowledgeWritesBatch now (past ++ items), .acks rs)) u := by
  have hanswer : ∀ {past : List (BatchWriteItem P)} {rs : List AcknowledgedWrite} {v w : Store},
      (∀ answers recovered, Tally py answers recovered v →
        Tally py (answers ++ past.zip rs) recovered w) →
      Tallies py (.acknowledgeWritesBatch now past, .acks rs) v w := by
    intro past rs v w h answers recovered ht
    simpa [asCalls, LedgerCall.toCall, answered, Call.items, recoveredCount] using h answers recovered ht
  induction items generalizing past rs with
  | nil =>
    intro v hv huv
    rw [List.append_nil]
    exact hanswer fun answers recovered ht => (hpast.later huv).tally ht
  | cons item items ih =>
    cases hl : existing.lookup item.idempotencyKey with
    | some e =>
      rw [acknowledgeLoop_known py now items rs hl, List.append_cons past]
      obtain ⟨q, hq, hk, rfl⟩ := hknown _ _ hl
      exact ih _ (List.rel_append hpast (.cons ⟨q, hq, hk, rfl⟩ .nil))
    | none =>
      have hloop := acknowledgeLoop_new py now items rs hl
      cases hp : payloadJson py item.payload with
      | error e =>
        rw [hloop, acknowledgeItem, hp]
        trivial
      | ok payloadText =>
        refine SingleWriter.sure_open exec_read (by rw [hloop, acknowledgeItem, hp]; rfl)
          (s := .insertIdempotency item.idempotencyKey item.eventId now) rfl fun v o w hv huv h => ?_
        obtain ⟨rs', w', hrs, h⟩ := Prog.eval_bind_cases exec h
        cases h
        have hstart : Batched py v past v existing rs := ⟨hv, persists_refl v,
          (hpast.length_eq).symm, hknown.later huv, fun answers recovered ht => (hpast.later huv).tally ht⟩
        obtain ⟨existing', hend⟩ := acknowledgeLoop_keeps (J := Batched py v)
          (fun _ _ _ _ _ _ hJ hl => hJ.repeated hl) (fun _ _ _ _ _ _ hJ _ hp ha => hJ.fresh hp ha) past
          hstart hrs
        exact ⟨hend.inv, hend.persists, hanswer hend.tally⟩

end Batch

/-! ## A recovery -/

section Recovery
variable {v u : Store} {rows : List (Str × Str)} {count : ℕ} {e t : Str}

/-- Inside the transaction that opened on `v`, with the rows that are left. -/
structure RecoveredTo (py : PyLib P) (v : Store) (rows : List (Str × Str)) (u : Store) (count : ℕ) : Prop where
  inv : JournalInv u
  persists : Persists v u
  staged : ∀ e ∈ rows.map Prod.fst, e ∈ stagedIds u.1
  tally : ∀ answers recovered, Tally py answers recovered v → Tally py answers (recovered + count) u

theorem recoveredTo_start (hv : JournalInv v) (hstaged : ∀ e ∈ rows.map Prod.fst, e ∈ stagedIds v.1) :
    RecoveredTo py v rows v 0 := ⟨hv, persists_refl v, hstaged, fun _ _ ht => ht⟩

/-- An event of the ledger, which another instance may have recovered. -/
theorem RecoveredTo.marked (h : RecoveredTo py v ((e, t) :: rows) u count)
    (he : ∃ q ∈ u.1.ledger, q.eventId = e) : RecoveredTo py v rows (committed u e) count where
  inv := journalInv_marked h.inv (List.mem_map.2 he)
  persists := h.persists.trans (persists_committed u e)
  staged e' he' := (persists_committed u e).staged.subset (h.staged e' (List.mem_cons_of_mem _ he'))
  tally answers recovered ht := (h.tally answers recovered ht).congr rfl rfl

theorem RecoveredTo.entered (row : LedgerRow) (h : RecoveredTo py v ((row.eventId, t) :: rows) u count)
    (hnew : ∀ q ∈ u.1.ledger, q.eventId ≠ row.eventId) {payload : P}
    (hp : payloadJson py payload = .ok row.payload) :
    RecoveredTo py v rows (committed (LineageVault.entered u row) row.eventId) (count + 1) where
  inv := journalInv_entered h.inv (h.staged _ List.mem_cons_self) hnew
  persists := (h.persists.trans (persists_entered u row)).trans (persists_committed _ _)
  staged e' he' := (persists_committed _ _).staged.subset (h.staged e' (List.mem_cons_of_mem _ he'))
  tally answers recovered ht := tally_entered (h.tally answers recovered ht) hp _

theorem RecoveredTo.loop {w : Store} {n : ℕ} (h : RecoveredTo py v rows u count)
    (hrun : (recoverLoop py rows count).eval exec u = .ok (n, w)) : RecoveredTo py v [] w n :=
  recoverLoop_keeps (J := RecoveredTo py v) (fun _ _ _ _ _ hJ hdup => hJ.marked hdup)
    (fun e _ _ u _ _ t' hJ _ hp _ hnew => RecoveredTo.entered (nextRow py u e t') hJ hnew hp) h hrun

theorem selectInLedger_true {w : Store} (h : exec (.selectInLedger e) u = .ok (true, w)) :
    ∃ q ∈ u.1.ledger, q.eventId = e := by
  obtain ⟨ws, n, he, -⟩ := exec_ok h
  simp only [effect] at he
  split at he
  · have hany := (Prod.mk.inj (Except.ok.inj he)).1
    simpa using hany
  · cases he

/-- The rows were read before the transaction. The first of them opens it. -/
theorem sure_recoverLoop (hstaged : ∀ e ∈ rows.map Prod.fst, e ∈ stagedIds u.1) :
    SureCall py (recoverLoop py rows 0 >>= fun n => .ret (.recoverUncommitted, .recovered n)) u := by
  have hanswer : ∀ {v w : Store} {n : ℕ}, RecoveredTo py v [] w n →
      JournalInv w ∧ Persists v w ∧ Tallies py (.recoverUncommitted, .recovered n) v w := by
    intro v w n h
    refine ⟨h.inv, h.persists, fun answers recovered ht => ?_⟩
    simpa [asCalls, LedgerCall.toCall, answered, recoveredCount] using h.tally answers recovered ht
  cases rows with
  | nil => exact fun v hv _ => (hanswer (recoveredTo_start hv (by simp))).2.2
  | cons row rows =>
    obtain ⟨e, t⟩ := row
    cases hl : py.loads t with
    | error err =>
      rw [recoverLoop, hl]
      trivial
    | ok payload =>
      rw [recoverLoop_cons hl]
      refine SingleWriter.sure_read (s := Stmt.selectInLedger e) rfl fun u₁ dup _ _ hu₁ hdup => ?_
      have hstaged₁ : ∀ e' ∈ ((e, t) :: rows).map Prod.fst, e' ∈ stagedIds u₁.1 :=
        fun e' he' => hu₁.staged.subset (hstaged e' he')
      cases dup with
      | true =>
        refine SingleWriter.sure_open exec_read rfl (s := Stmt.updateCommitted e) rfl
          fun v o w hv huv h => ?_
        have hledgered : ∃ q ∈ v.1.ledger, q.eventId = e := by
          obtain ⟨q, hq, he⟩ := selectInLedger_true hdup
          exact ⟨q, huv.ledger.subset hq, he⟩
        obtain ⟨_, v₁, hmark, h⟩ := Prog.eval_stmt_cases exec h
        obtain ⟨-, rfl⟩ := updateCommitted_ok hmark
        obtain ⟨n, w', hn, h⟩ := Prog.eval_bind_cases exec h
        cases h
        have hstart : RecoveredTo py v ((e, t) :: rows) v 0 :=
          recoveredTo_start hv fun e' he' => huv.staged.subset (hstaged₁ e' he')
        exact hanswer ((hstart.marked hledgered).loop hn)
      | false =>
        cases hp : payloadJson py payload with
        | error err =>
          rw [appendLedger, hp]
          trivial
        | ok payloadText =>
          rw [appendLedger_stmts hp]
          refine SingleWriter.sure_read (s := Stmt.selectLastHash) rfl fun u₂ last _ _ hu₂ _ => ?_
          dsimp only
          generalize last.getD genesisHash = prev
          cases hd : entryHash py prev e payloadText with
          | error err => trivial
          | ok digest =>
            refine SingleWriter.sure_open exec_read rfl (s := Stmt.insertLedger e payloadText prev digest) rfl
              fun v o w hv huv h => ?_
            obtain ⟨_, v₁, hinsert, h⟩ := Prog.eval_stmt_cases exec h
            obtain ⟨-, hnew, rfl⟩ := insertLedger_ok hinsert
            obtain ⟨_, v₂, hmark, h⟩ := Prog.eval_stmt_cases exec h
            obtain ⟨-, rfl⟩ := updateCommitted_ok hmark
            obtain ⟨n, w', hn, h⟩ := Prog.eval_bind_cases exec h
            cases h
            have hstart : RecoveredTo py v ((e, t) :: rows) v 0 :=
              recoveredTo_start hv fun e' he' => huv.staged.subset (hu₂.staged.subset (hstaged₁ e' he'))
            have hrow := RecoveredTo.entered ⟨v.2.seq + 1, e, payloadText, prev, digest⟩ hstart hnew hp
            exact hanswer (hrow.loop hn)

end Recovery

/-! ## Every interleaving -/

theorem tallies_quiet {x : LedgerCall P × Outcome} {v w : Store} (hanswered : answered (asCalls [x]) = [])
    (hrecovered : recoveredCount (asCalls [x]) = 0) (hkeys : w.1.idempotency = v.1.idempotency)
    (hledger : w.1.ledger = v.1.ledger) : Tallies py x v w := by
  intro answers recovered ht
  rw [hanswered, hrecovered, List.append_nil]
  exact ht.congr hkeys hledger

theorem answering_stagePartial (eventId : Str) (payload : P) :
    LedgerCall.answering py (.stagePartial eventId payload) =
      raising (payloadJson py payload) >>= fun payloadText =>
        .stmt (.insertOrIgnoreStaging eventId payloadText) fun _ =>
          .ret (.stagePartial eventId payload, .done) := by
  rw [LedgerCall.answering, LedgerCall.prog, Prog.bind_assoc]
  rfl

theorem answering_acknowledge {now : ClockText} {items : List (BatchWriteItem P)} (h : items.isEmpty = false) :
    LedgerCall.answering py (.acknowledgeWritesBatch now items) =
      .stmt (.selectIdempotency py.limit (items.map BatchWriteItem.idempotencyKey)) fun existing =>
        acknowledgeLoop py now items existing [] >>= fun rs =>
          .ret (.acknowledgeWritesBatch now items, .acks rs) := by
  rw [LedgerCall.answering, LedgerCall.prog, h, if_neg Bool.false_ne_true, Prog.bind_assoc]
  rfl

theorem answering_recover :
    LedgerCall.answering py .recoverUncommitted =
      .stmt .selectPending fun rows =>
        recoverLoop py rows 0 >>= fun n => .ret (.recoverUncommitted, .recovered n) := by
  rw [LedgerCall.answering, LedgerCall.prog, Prog.bind_assoc]
  rfl

theorem sure_call (c : LedgerCall P) (u : Store) : SureCall py (c.answering py) u := by
  cases c with
  | stagePartial eventId payload =>
    rw [answering_stagePartial]
    refine SingleWriter.sure_ofExcept_bind fun payloadText _ => ?_
    refine SingleWriter.sure_open exec_read rfl rfl fun v o w hv _ h => ?_
    obtain ⟨_, w', hs, h⟩ := Prog.eval_stmt_cases exec h
    obtain ⟨-, -, rfl⟩ := insertOrIgnoreStaging_ok hs
    cases h
    exact ⟨journalInv_staged hv _ _, persists_staged v eventId payloadText, tallies_quiet rfl rfl rfl rfl⟩
  | acknowledgeWritesBatch now items =>
    cases hempty : items.isEmpty with
    | true =>
      rw [LedgerCall.answering, LedgerCall.prog, hempty, if_pos rfl]
      exact fun v _ _ => tallies_quiet (by simp [asCalls, answered]) rfl rfl rfl
    | false =>
      rw [answering_acknowledge hempty]
      refine SingleWriter.sure_read rfl fun v rows w _ _ hrows => ?_
      exact sure_acknowledgeLoop [] (inTable_select hrows) .nil
  | recoverUncommitted =>
    rw [answering_recover]
    refine SingleWriter.sure_read rfl fun v rows w hv _ hrows => ?_
    cases hrows
    refine sure_recoverLoop fun e he => ?_
    obtain ⟨r, hr, he, -⟩ := mem_pendingIds.1 ((pending_map_fst_perm v.1).subset he)
    exact List.mem_map.2 ⟨r, hr, he⟩

theorem tally_log {log : List (LedgerCall P × Outcome)} {g : AnsweredFile P} (h : SharedLog py log g) :
    JournalInv g.durable ∧ Tally py (answered (asCalls log)) (recoveredCount (asCalls log)) g.durable := by
  have hsnoc : ∀ {log : List (LedgerCall P × Outcome)} {x : LedgerCall P × Outcome} {v w : Store},
      Tally py (answered (asCalls log)) (recoveredCount (asCalls log)) v → JournalInv v → Persists v w →
      Tallies py x v w → Tally py (answered (asCalls (log ++ [x]))) (recoveredCount (asCalls (log ++ [x]))) w := by
    intro log x v w hlog _ _ hx
    rw [asCalls, List.map_append, List.map_singleton, answered_snoc, recoveredCount_snoc]
    exact hx _ _ hlog
  have hstanding : SingleWriter.Standing exec Stmt.writes JournalInv Persists (Tallies py)
      (fun log v => Tally py (answered (asCalls log)) (recoveredCount (asCalls log)) v) log g :=
    SingleWriter.logged_standing persists_refl (fun huv hvw => huv.trans hvw) hsnoc journalInv_empty
      tally_empty (fun c u _ => sure_call c u) h
  exact ⟨hstanding.durable, hstanding.acc⟩

/-- **Exactly once, whatever the instances do to each other.** The events of the ledger are the staged events
marked as committed, none of them twice, also where the chain is broken. Of the answers for a key, in the order
of the commits, the first is original, and all others are duplicates with its event; the ledger has one row of
that event, with the payload of the first. It is as long as there are original answers and recovered events. -/
theorem shared_exactly_once {log : List (LedgerCall P × Outcome)} {g : AnsweredFile P}
    (h : SharedLog py log g) :
    (∀ e, e ∈ ledgerIds g.durable.1 ↔ e ∈ committedIds g.durable.1) ∧ (ledgerIds g.durable.1).Nodup ∧
      (∀ k first rest, (answered (asCalls log)).filter (fun a => a.2.idempotencyKey = k) = first :: rest →
        first.2.duplicate = false ∧ first.1.idempotencyKey = k ∧
        (∀ a ∈ rest, a.2.duplicate = true ∧ a.2.eventId = first.2.eventId) ∧
        ∃ row, g.durable.1.ledger.filter (fun q => q.eventId = first.2.eventId) = [row] ∧
          payloadJson py first.1.payload = .ok row.payload) ∧
      g.durable.1.ledger.length =
        (originals ((answered (asCalls log)).map Prod.snd)).length + recoveredCount (asCalls log) := by
  obtain ⟨hinv, htally⟩ := tally_log h
  refine ⟨hinv.committed, hinv.ledgered, fun k first rest hf => ?_, htally.total⟩
  have hf' : ((answered (asCalls log)).map Prod.snd).filter (fun r => r.idempotencyKey = k) =
      first.2 :: rest.map Prod.snd := by
    rw [List.filter_map]
    exact congrArg (List.map Prod.snd) hf
  obtain ⟨hfirst, hrest⟩ := htally.order.forKey hf'
  have hforKey : first ∈ (answered (asCalls log)).filter fun a => a.2.idempotencyKey = k :=
    hf ▸ List.mem_cons_self ..
  obtain ⟨hmem, hkey⟩ := List.mem_filter.1 hforKey
  obtain ⟨row, hrow, he, hp⟩ := htally.stored first hmem hfirst
  refine ⟨hfirst, (htally.keyed first hmem).symm.trans (of_decide_eq_true hkey),
    fun a ha => hrest a.2 (List.mem_map_of_mem ha), row, ?_, hp⟩
  rw [← he]
  exact filter_eq_singleton hinv.ledgered hrow

def acknowledgeSame (eventId : Str) : LedgerCall Json :=
  .acknowledgeWritesBatch .fixed [⟨lit "same", eventId, .obj []⟩]

/-- After the run that breaks the chain, instance 0 has looked a key up when instance 1 writes it. Its own
insert is refused, and where it tries again it answers for the other. -/
def contended : Schedule :=
  stale ++ (0, .start (acknowledgeSame (lit "c"))) :: advances 0 1 ++
    (1, .start (acknowledgeSame (lit "d"))) :: advances 1 7 ++ advances 0 1 ++
    (0, .start (acknowledgeSame (lit "c"))) :: advances 0 2

theorem contended_runs :
    (SingleWriter.answers exec Stmt.writes (LedgerCall.answering PyLib.fixed)
      (.init (Db.empty, Numbers.zero)) contended).map (fun x =>
        ((Backend.opened x.2.durable).verifyIntegrity PyLib.fixed, ledgerIds x.2.durable.1)) =
      some (.ok false, [lit "b", lit "a", lit "d"]) := by decide +kernel

theorem contended_answers :
    (SingleWriter.answers exec Stmt.writes (LedgerCall.answering PyLib.fixed)
      (.init (Db.empty, Numbers.zero)) contended).map (fun x =>
        (answered (asCalls x.1)).filter fun a => a.2.idempotencyKey = lit "same") =
      some [(⟨lit "same", lit "d", .obj []⟩, ⟨lit "d", lit "same", true, false⟩),
        (⟨lit "same", lit "c", .obj []⟩, ⟨lit "d", lit "same", true, true⟩)] := rfl

theorem shared_exactly_once_contended :
    ∃ log g, SharedLog PyLib.fixed log g ∧
      (Backend.opened g.durable).verifyIntegrity PyLib.fixed = .ok false ∧
      ledgerIds g.durable.1 = [lit "b", lit "a", lit "d"] ∧
      ∃ row, g.durable.1.ledger.filter (fun q => q.eventId = lit "d") = [row] := by
  obtain ⟨⟨log, g⟩, hx, heq⟩ := Option.map_eq_some_iff.1 contended_runs
  obtain ⟨hverify, hledger⟩ := Prod.mk.inj heq
  have hanswers := contended_answers
  rw [hx] at hanswers
  have hlog : SharedLog PyLib.fixed log g := SingleWriter.Logged.answers exec Stmt.writes .init hx
  obtain ⟨-, -, hkey, -⟩ := shared_exactly_once hlog
  obtain ⟨-, -, -, row, hrow, -⟩ := hkey _ _ _ (Option.some.inj hanswers)
  exact ⟨log, g, hlog, hverify, hledger, row, hrow⟩

end LineageVault
