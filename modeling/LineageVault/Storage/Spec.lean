import LineageVault.Storage.Programs

/-! # What the programs do when they return

One lemma for each program, in terms of the tables before and after. The loops come with one
induction each (`acknowledgeLoop_keeps`, `recoverLoop_keeps`): what every item or row keeps, the loop
keeps. Later modules cite these and do not unfold a program.
-/

namespace LineageVault
open Foundations
set_option autoImplicit false

variable {P : Type} {py : PyLib P}

/-- `_last_hash` of a ledger. -/
def headHash (rows : List LedgerRow) : Str := (lastHash rows).getD genesisHash

/-- The row that `_append_ledger` inserts. -/
def nextRow (py : PyLib P) (v : Store) (eventId payloadText : Str) : LedgerRow :=
  ⟨v.2.seq + 1, eventId, payloadText, headHash v.1.ledger,
    entryDigest py (headHash v.1.ledger) (eventId, payloadText)⟩

/-- The tables after a successful `_append_ledger`. -/
def appended (py : PyLib P) (v : Store) (eventId payloadText : Str) : Store :=
  ({ v.1 with ledger := v.1.ledger ++ [nextRow py v eventId payloadText] },
    { v.2 with seq := v.2.seq + 1 })

/-- The tables after `INSERT OR IGNORE INTO wal_staging`. -/
def staged (v : Store) (eventId payloadText : Str) : Store :=
  ({ v.1 with
      walStaging :=
        if v.1.walStaging.any fun q => q.eventId = eventId then v.1.walStaging
        else v.1.walStaging ++ [⟨v.2.id + 1, eventId, payloadText, false⟩] },
    { v.2 with id := v.2.id + 1 })

/-- The tables after `UPDATE wal_staging SET committed=1`. -/
def committed (v : Store) (eventId : Str) : Store :=
  ({ v.1 with walStaging := markCommitted eventId v.1.walStaging }, v.2)

/-- The tables after the first insert of an acknowledgement. -/
def keyed (v : Store) (now : ClockText) (key eventId : Str) : Store :=
  ({ v.1 with idempotency := v.1.idempotency ++ [⟨key, eventId, now.text⟩] }, v.2)

/-- The tables after a fresh item of a batch. -/
def acknowledged (py : PyLib P) (v : Store) (now : ClockText) (item : BatchWriteItem P)
    (payloadText : Str) : Store :=
  appended py (committed (staged (keyed v now item.idempotencyKey item.eventId) item.eventId
    payloadText) item.eventId) item.eventId payloadText

/-! The tables after a fresh item, one by one. -/

section Fields
variable (v : Store) (now : ClockText) (item : BatchWriteItem P) (payloadText : Str)

@[simp] theorem acknowledged_idempotency :
    (acknowledged py v now item payloadText).1.idempotency =
      v.1.idempotency ++ [⟨item.idempotencyKey, item.eventId, now.text⟩] := rfl

@[simp] theorem acknowledged_ledger :
    (acknowledged py v now item payloadText).1.ledger =
      v.1.ledger ++ [nextRow py v item.eventId payloadText] := rfl

@[simp] theorem acknowledged_walStaging :
    (acknowledged py v now item payloadText).1.walStaging =
      markCommitted item.eventId (staged v item.eventId payloadText).1.walStaging := rfl

@[simp] theorem acknowledged_datasetEdges :
    (acknowledged py v now item payloadText).1.datasetEdges = v.1.datasetEdges := rfl

@[simp] theorem acknowledged_numbers :
    (acknowledged py v now item payloadText).2 = ⟨v.2.seq + 1, v.2.id + 1⟩ := rfl

end Fields

/-- What a fresh item needs to go through, once its payload is serialised. -/
structure Admits (v : Store) (item : BatchWriteItem P) (payloadText : Str) : Prop where
  key : item.idempotencyKey.encodable = true
  text : (entryText (headHash v.1.ledger) item.eventId payloadText).encodable = true
  unkeyed : ∀ q ∈ v.1.idempotency,
    q.idempotencyKey ≠ item.idempotencyKey ∧ q.eventId ≠ item.eventId
  unledgered : ∀ q ∈ v.1.ledger, q.eventId ≠ item.eventId

/-! ## Single statements -/

theorem exec_insertIdempotency {key eventId : Str} {now : ClockText} {v : Store}
    (hk : key.encodable = true) (he : eventId.encodable = true)
    (hnew : ∀ q ∈ v.1.idempotency, q.idempotencyKey ≠ key ∧ q.eventId ≠ eventId) :
    exec (.insertIdempotency key eventId now) v = .ok ((), keyed v now key eventId) := by
  have hany : (v.1.idempotency.any fun r => r.idempotencyKey = key ∨ r.eventId = eventId) = false := by
    simpa using hnew
  simp only [exec, effect, bindable_cons, bindable_nil, hk, he, hany]
  rfl

theorem exec_insertOrIgnoreStaging {eventId payloadText : Str} {v : Store}
    (he : eventId.encodable = true) (ht : payloadText.encodable = true) :
    exec (.insertOrIgnoreStaging eventId payloadText) v = .ok ((), staged v eventId payloadText) := by
  simp only [exec, effect, bindable_cons, bindable_nil, he, ht, Bool.and_true,
    Bool.not_true, Bool.false_eq_true, if_false, staged]
  by_cases hu : (v.1.walStaging.any fun r => r.eventId = eventId) = true
  · simp only [hu, if_true]
    rfl
  · simp only [hu, if_false, Bool.false_eq_true]
    rfl

theorem exec_updateCommitted {eventId : Str} {v : Store} (he : eventId.encodable = true) :
    exec (.updateCommitted eventId) v = .ok ((), committed v eventId) := by
  simp only [exec, effect, bindable_cons, bindable_nil, he, Bool.and_true,
    Bool.not_true, Bool.false_eq_true, if_false]
  by_cases hu : (v.1.walStaging.any fun r => r.eventId = eventId) = true
  · simp only [hu, if_true]
    rfl
  · simp only [hu, if_false, Bool.false_eq_true]
    simp only [List.any_eq_true, decide_eq_true_eq, not_exists, not_and] at hu
    simp only [committed, markCommitted_of_forall_ne hu]
    rfl

theorem exec_insertLedger {eventId payload prevHash entryHash : Str} {v : Store}
    (he : bindable [eventId, payload, prevHash, entryHash] = true)
    (hnew : ∀ q ∈ v.1.ledger, q.eventId ≠ eventId) :
    exec (.insertLedger eventId payload prevHash entryHash) v =
      .ok ((), { v.1 with
        ledger := v.1.ledger ++ [⟨v.2.seq + 1, eventId, payload, prevHash, entryHash⟩] },
        { v.2 with seq := v.2.seq + 1 }) := by
  have hany : (v.1.ledger.any fun r => r.eventId = eventId) = false := by simpa using hnew
  simp only [exec, effect, he, hany]
  rfl

/-! ## One entry -/

/-- The statements of `_append_ledger`, once the payload is serialised. -/
theorem appendLedger_stmts {eventId payloadText : Str} {payload : P}
    (hp : payloadJson py payload = .ok payloadText) :
    appendLedger py eventId payload =
      .stmt .selectLastHash fun row =>
        raising (entryHash py (row.getD genesisHash) eventId payloadText) >>= fun digest =>
          .stmt (.insertLedger eventId payloadText (row.getD genesisHash) digest) .ret := by
  simp only [appendLedger, hp]
  rfl

theorem appendLedger_eval {eventId payloadText : Str} {payload : P} {v : Store}
    (hp : payloadJson py payload = .ok payloadText)
    (ht : (entryText (headHash v.1.ledger) eventId payloadText).encodable = true)
    (hnew : ∀ q ∈ v.1.ledger, q.eventId ≠ eventId) :
    (appendLedger py eventId payload).eval exec v = .ok ((), appended py v eventId payloadText) := by
  have hh : entryHash py ((lastHash v.1.ledger).getD genesisHash) eventId payloadText =
      .ok (entryDigest py (headHash v.1.ledger) (eventId, payloadText)) := entryHash_eq py ht
  have henc := ht
  simp only [encodable_entryText, Bool.and_eq_true] at henc
  have hd : (entryDigest py (headHash v.1.ledger) (eventId, payloadText)).encodable = true :=
    digest_encodable _
  have hb : bindable [eventId, payloadText, headHash v.1.ledger,
      entryDigest py (headHash v.1.ledger) (eventId, payloadText)] = true := by
    simp only [bindable_cons, bindable_nil, henc.1.1, henc.1.2, henc.2, hd, Bool.and_self]
  rw [appendLedger_stmts hp,
    Prog.eval_stmt_ok exec (show exec .selectLastHash v = .ok (lastHash v.1.ledger, v) from rfl), hh]
  exact Prog.eval_stmt_ok exec (exec_insertLedger hb hnew)

theorem appendLedger_ok {eventId : Str} {payload : P} {v w : Store} {u : Unit}
    (h : (appendLedger py eventId payload).eval exec v = .ok (u, w)) :
    ∃ payloadText, payloadJson py payload = .ok payloadText ∧
      (entryText (headHash v.1.ledger) eventId payloadText).encodable = true ∧
      (∀ q ∈ v.1.ledger, q.eventId ≠ eventId) ∧ w = appended py v eventId payloadText := by
  unfold appendLedger at h
  obtain ⟨payloadText, hp, h⟩ := Prog.eval_ofExcept_bind_cases exec h
  obtain ⟨prev, v₁, hprev, h⟩ := Prog.eval_bind_cases exec h
  obtain ⟨rfl, rfl⟩ : prev = headHash v.1.ledger ∧ v₁ = v := by
    cases hprev; exact ⟨rfl, rfl⟩
  obtain ⟨digest, hd, h⟩ := Prog.eval_ofExcept_bind_cases exec h
  obtain ⟨henc, rfl⟩ := entryHash_ok hd
  obtain ⟨r, w', hs, h⟩ := Prog.eval_stmt_cases exec h
  cases h
  obtain ⟨-, hnew, rfl⟩ := insertLedger_ok hs
  exact ⟨payloadText, hp, henc, hnew, rfl⟩

theorem acknowledgeItem_eval {now : ClockText} {item : BatchWriteItem P} {v : Store}
    {payloadText : Str} (hp : payloadJson py item.payload = .ok payloadText)
    (h : Admits v item payloadText) :
    (acknowledgeItem py now item).eval exec v = .ok ((), acknowledged py v now item payloadText) := by
  obtain ⟨hk, ht, hkey, hnew⟩ := h
  have henc := ht
  simp only [encodable_entryText, Bool.and_eq_true] at henc
  simp only [acknowledgeItem, hp, raising, Prog.ofExcept_ok, Prog.ret_bind, sql, Prog.query_bind]
  rw [Prog.eval_stmt_ok exec (exec_insertIdempotency hk henc.1.2 hkey),
    Prog.eval_stmt_ok exec (exec_insertOrIgnoreStaging henc.1.2 henc.2),
    Prog.eval_stmt_ok exec (exec_updateCommitted henc.1.2)]
  exact appendLedger_eval hp ht hnew

theorem acknowledgeItem_ok {now : ClockText} {item : BatchWriteItem P} {v w : Store} {u : Unit}
    (h : (acknowledgeItem py now item).eval exec v = .ok (u, w)) :
    ∃ payloadText, payloadJson py item.payload = .ok payloadText ∧ Admits v item payloadText ∧
      w = acknowledged py v now item payloadText := by
  unfold acknowledgeItem at h
  obtain ⟨payloadText, hp, h⟩ := Prog.eval_ofExcept_bind_cases exec h
  simp only [sql, Prog.query_bind] at h
  obtain ⟨_, v₁, h₁, h⟩ := Prog.eval_stmt_cases exec h
  obtain ⟨_, v₂, h₂, h⟩ := Prog.eval_stmt_cases exec h
  obtain ⟨_, v₃, h₃, h⟩ := Prog.eval_stmt_cases exec h
  obtain ⟨hk, -, hkey, rfl⟩ := insertIdempotency_ok h₁
  obtain ⟨-, -, rfl⟩ := insertOrIgnoreStaging_ok h₂
  obtain ⟨-, rfl⟩ := updateCommitted_ok h₃
  obtain ⟨payloadText', hp', henc, hnew, rfl⟩ := appendLedger_ok h
  obtain rfl : payloadText' = payloadText := Except.ok.inj (hp'.symm.trans hp)
  exact ⟨payloadText', hp, ⟨hk, henc, hkey, hnew⟩, rfl⟩

/-- A fresh item goes through or raises, by its payload and the tables alone. -/
theorem acknowledgeItem_cases (py : PyLib P) (now : ClockText) (item : BatchWriteItem P) (v : Store) :
    (∃ payloadText, payloadJson py item.payload = .ok payloadText ∧ Admits v item payloadText ∧
      (acknowledgeItem py now item).eval exec v = .ok ((), acknowledged py v now item payloadText)) ∨
    ((∀ payloadText, payloadJson py item.payload = .ok payloadText → ¬ Admits v item payloadText) ∧
      ∃ e, (acknowledgeItem py now item).eval exec v = .error e) := by
  cases h : (acknowledgeItem py now item).eval exec v with
  | ok x =>
    obtain ⟨payloadText, hp, ha, hx⟩ := acknowledgeItem_ok h
    exact .inl ⟨payloadText, hp, ha, by rw [← hx]⟩
  | error e =>
    refine .inr ⟨fun payloadText hp ha => ?_, e, rfl⟩
    rw [acknowledgeItem_eval hp ha] at h
    cases h

theorem stageBody_ok {eventId payloadText : Str} {v w : Store} {u : Unit}
    (h : (stageBody eventId payloadText).eval exec v = .ok (u, w)) :
    eventId.encodable = true ∧ payloadText.encodable = true ∧ w = staged v eventId payloadText := by
  obtain ⟨r, w', hs, h⟩ := Prog.eval_stmt_cases exec h
  cases h
  exact insertOrIgnoreStaging_ok hs

/-! ## The loops -/

section Loop
variable (py) (now : ClockText) (items : List (BatchWriteItem P)) (results : List AcknowledgedWrite)
  {item : BatchWriteItem P} {existing : List (Str × Str)}

theorem acknowledgeLoop_known {eventId : Str}
    (h : existing.lookup item.idempotencyKey = some eventId) :
    acknowledgeLoop py now (item :: items) existing results =
      acknowledgeLoop py now items existing
        (results ++ [⟨eventId, item.idempotencyKey, true, true⟩]) := by
  rw [acknowledgeLoop, h]

theorem acknowledgeLoop_new (h : existing.lookup item.idempotencyKey = none) :
    acknowledgeLoop py now (item :: items) existing results =
      acknowledgeItem py now item >>= fun _ =>
        acknowledgeLoop py now items ((item.idempotencyKey, item.eventId) :: existing)
          (results ++ [⟨item.eventId, item.idempotencyKey, true, false⟩]) := by
  rw [acknowledgeLoop, h]

end Loop

/-- A property of the items done so far, the tables, the map and the results that every turn of the
loop keeps holds at its end. -/
theorem acknowledgeLoop_keeps {now : ClockText}
    {J : List (BatchWriteItem P) → Store → List (Str × Str) → List AcknowledgedWrite → Prop}
    (hdup : ∀ past item v existing results eventId, J past v existing results →
      existing.lookup item.idempotencyKey = some eventId →
      J (past ++ [item]) v existing (results ++ [⟨eventId, item.idempotencyKey, true, true⟩]))
    (hnew : ∀ past item v existing results payloadText, J past v existing results →
      existing.lookup item.idempotencyKey = none →
      payloadJson py item.payload = .ok payloadText → Admits v item payloadText →
      J (past ++ [item]) (acknowledged py v now item payloadText)
        ((item.idempotencyKey, item.eventId) :: existing)
        (results ++ [⟨item.eventId, item.idempotencyKey, true, false⟩]))
    (past : List (BatchWriteItem P)) {items : List (BatchWriteItem P)} {v w : Store}
    {existing : List (Str × Str)} {results rs : List AcknowledgedWrite} (hJ : J past v existing results)
    (h : (acknowledgeLoop py now items existing results).eval exec v = .ok (rs, w)) :
    ∃ existing', J (past ++ items) w existing' rs := by
  induction items generalizing past v existing results with
  | nil => cases h; exact ⟨existing, by simpa using hJ⟩
  | cons item items ih =>
    rw [List.append_cons]
    cases hl : existing.lookup item.idempotencyKey with
    | some eventId =>
      rw [acknowledgeLoop_known py now items results hl] at h
      exact ih _ (hdup past item v existing results eventId hJ hl) h
    | none =>
      rw [acknowledgeLoop_new py now items results hl] at h
      obtain ⟨_, v₁, h₁, h⟩ := Prog.eval_bind_cases exec h
      obtain ⟨payloadText, hp, ha, rfl⟩ := acknowledgeItem_ok h₁
      exact ih _ (hnew past item v existing results payloadText hJ hl hp ha) h

/-- The statements for one pending row, once its payload is read. -/
theorem recoverLoop_cons {eventId payloadText : Str} {payload : P}
    (hl : py.loads payloadText = .ok payload) (rows : List (Str × Str)) (count : ℕ) :
    recoverLoop py ((eventId, payloadText) :: rows) count =
      .stmt (.selectInLedger eventId) fun dup =>
        if dup then .stmt (.updateCommitted eventId) fun _ => recoverLoop py rows count
        else appendLedger py eventId payload >>= fun _ =>
          .stmt (.updateCommitted eventId) fun _ => recoverLoop py rows (count + 1) := by
  rw [recoverLoop, hl]
  rfl

/-- A row whose event is not in the ledger. -/
theorem recoverLoop_row {eventId payloadText text : Str} {payload : P} {v : Store}
    (hl : py.loads payloadText = .ok payload) (hp : payloadJson py payload = .ok text)
    (ht : (entryText (headHash v.1.ledger) eventId text).encodable = true)
    (hnew : ∀ q ∈ v.1.ledger, q.eventId ≠ eventId) (rows : List (Str × Str)) (count : ℕ) :
    (recoverLoop py ((eventId, payloadText) :: rows) count).eval exec v =
      (recoverLoop py rows (count + 1)).eval exec (committed (appended py v eventId text) eventId) := by
  have he : eventId.encodable = true := by
    simp only [encodable_entryText, Bool.and_eq_true] at ht
    exact ht.1.2
  have hdup : exec (.selectInLedger eventId) v = .ok (false, v) := by
    have hany : (v.1.ledger.any fun r => r.eventId = eventId) = false := by simpa using hnew
    simp only [exec, effect, bindable_cons, bindable_nil, he, Bool.and_self, if_true, hany]
    rfl
  rw [recoverLoop_cons hl, Prog.eval_stmt_ok exec hdup]
  simp only [Bool.false_eq_true, if_false, Prog.eval_bind, appendLedger_eval hp ht hnew]
  rw [Prog.eval_stmt_ok exec (exec_updateCommitted he)]

/-- A property of the rows still to come, the tables and the count that every turn of the recovery
loop keeps. -/
theorem recoverLoop_keeps {J : List (Str × Str) → Store → ℕ → Prop}
    (hdup : ∀ eventId payloadText rows v count, J ((eventId, payloadText) :: rows) v count →
      (∃ q ∈ v.1.ledger, q.eventId = eventId) → J rows (committed v eventId) count)
    (hnew : ∀ eventId payloadText rows v count payload payloadText',
      J ((eventId, payloadText) :: rows) v count →
      py.loads payloadText = .ok payload → payloadJson py payload = .ok payloadText' →
      (entryText (headHash v.1.ledger) eventId payloadText').encodable = true →
      (∀ q ∈ v.1.ledger, q.eventId ≠ eventId) →
      J rows (committed (appended py v eventId payloadText') eventId) (count + 1))
    {rows : List (Str × Str)} {v w : Store} {count n : ℕ} (hJ : J rows v count)
    (h : (recoverLoop py rows count).eval exec v = .ok (n, w)) : J [] w n := by
  induction rows generalizing v count with
  | nil => cases h; exact hJ
  | cons row rows ih =>
    obtain ⟨eventId, payloadText⟩ := row
    obtain ⟨payload, hl, -⟩ := Prog.eval_ofExcept_bind_cases exec h
    rw [recoverLoop_cons hl] at h
    obtain ⟨dup, v₁, hdupl, h⟩ := Prog.eval_stmt_cases exec h
    obtain rfl := exec_read rfl hdupl
    have hdup_eq : dup = v₁.1.ledger.any fun q => q.eventId = eventId := by
      obtain ⟨ws, n', he, -⟩ := exec_ok hdupl
      simp only [effect] at he
      split at he <;> cases he
      rfl
    cases dup with
    | true =>
      simp only [if_true] at h
      obtain ⟨_, v₂, h₂, h⟩ := Prog.eval_stmt_cases exec h
      obtain ⟨-, rfl⟩ := updateCommitted_ok h₂
      refine ih (hdup eventId payloadText rows v₁ count hJ ?_) h
      simpa using hdup_eq.symm
    | false =>
      simp only [Bool.false_eq_true, if_false] at h
      obtain ⟨_, v₂, h₂, h⟩ := Prog.eval_bind_cases exec h
      obtain ⟨payloadText', hp, henc, hne, rfl⟩ := appendLedger_ok h₂
      obtain ⟨_, v₃, h₃, h⟩ := Prog.eval_stmt_cases exec h
      obtain ⟨-, rfl⟩ := updateCommitted_ok h₃
      exact ih (hnew eventId payloadText rows v₁ count payload payloadText' hJ hl hp henc hne) h

/-- The batch: the map starts as the stored rows whose key occurs in it. -/
theorem acknowledgeBody_cases {now : ClockText} {items : List (BatchWriteItem P)} {v w : Store}
    {rs : List AcknowledgedWrite}
    (h : (acknowledgeBody py now items).eval exec v = .ok (rs, w)) :
    (acknowledgeLoop py now items
      ((v.1.idempotency.filter fun r => r.idempotencyKey ∈ items.map BatchWriteItem.idempotencyKey).map
        fun r => (r.idempotencyKey, r.eventId)) []).eval exec v = .ok (rs, w) := by
  obtain ⟨rows, v₁, hs, h⟩ := Prog.eval_stmt_cases exec h
  obtain ⟨-, rfl, rfl⟩ := selectIdempotency_ok hs
  exact h

theorem recoverBody_cases {v w : Store} {n : ℕ}
    (h : (recoverBody py).eval exec v = .ok (n, w)) :
    (recoverLoop py (pending v.1.walStaging) 0).eval exec v = .ok (n, w) := by
  obtain ⟨rows, v₁, hs, h⟩ := Prog.eval_stmt_cases exec h
  cases hs
  exact h

/-! ## The tables off the write path -/

def lineageTables (db : Db) : List EdgeRow × List MappingRow × List RunEventRow :=
  (db.datasetEdges, db.fieldMappings, db.runEvents)

theorem recoverBody_frame {v w : Store} {n : ℕ} (h : (recoverBody py).eval exec v = .ok (n, w)) :
    w.1.idempotency = v.1.idempotency ∧ lineageTables w.1 = lineageTables v.1 :=
  recoverLoop_keeps (J := fun _ u _ => u.1.idempotency = v.1.idempotency ∧
    lineageTables u.1 = lineageTables v.1) (fun _ _ _ _ _ hJ _ => hJ) (fun _ _ _ _ _ _ _ hJ _ _ _ _ => hJ)
    ⟨rfl, rfl⟩ (recoverBody_cases h)

end LineageVault
