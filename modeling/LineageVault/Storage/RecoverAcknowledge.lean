import LineageVault.Storage.Acknowledge
import LineageVault.Storage.Consistency
import LineageVault.Storage.Integrity

/-! # A recovery before or after an acknowledgement

An event was staged and its acknowledgement is tried again, while a recovery runs first or after it.
`recover_uncommitted` looks whether a pending event is in the ledger already; an acknowledgement
inserts its event into the ledger without looking, and a recovery writes no key. So after the
recovery the acknowledgement raises, for every pending event and every key (`not_commutes`).

What each order does is in `acknowledge_then_recover` and `recover_then_acknowledge`. They need that
what json wrote can be read and is written again as it was.
-/

namespace LineageVault
open Foundations
set_option autoImplicit false

variable {P : Type} {py : PyLib P}

/-- The event ids and payload texts of the ledger. -/
def ledgerContent (db : Db) : List (Str × Str) := db.ledger.map fun r => (r.eventId, r.payload)

theorem ledgerContent_appended (py : PyLib P) (v : Store) (e t : Str) :
    ledgerContent (appended py v e t).1 = ledgerContent v.1 ++ [(e, t)] := by
  simp [ledgerContent, appended, nextRow]

theorem mem_ledgerContent_appended (py : PyLib P) (v : Store) (e t : Str) :
    (e, t) ∈ ledgerContent (appended py v e t).1 := by
  rw [ledgerContent_appended]
  exact List.mem_append_right _ (List.mem_singleton_self _)

theorem ledgerContent_acknowledged (py : PyLib P) (v : Store) (now : ClockText) (item : BatchWriteItem P) (t : Str) :
    ledgerContent (acknowledged py v now item t).1 = ledgerContent v.1 ++ [(item.eventId, t)] := by
  simp [ledgerContent, nextRow]

def RecoversThenAcknowledges (py : PyLib P) (now : ClockText) (item : BatchWriteItem P) (b b' : Backend) :
    Prop :=
  ∃ n b₁ r, b.recoverUncommitted py [] = (.ok n, b₁) ∧ b₁.acknowledgeWrite py [] now item = (.ok r, b')

def AcknowledgesThenRecovers (py : PyLib P) (now : ClockText) (item : BatchWriteItem P) (b b' : Backend) :
    Prop :=
  ∃ r b₁ n, b.acknowledgeWrite py [] now item = (.ok r, b₁) ∧ b₁.recoverUncommitted py [] = (.ok n, b')

/-- Both orders return, with the same entries, and with the key acknowledged for the event. -/
structure Commutes (py : PyLib P) (now now' : ClockText) (item : BatchWriteItem P) (b b₁ b₂ : Backend) :
    Prop where
  recoverFirst : RecoversThenAcknowledges py now item b b₁
  acknowledgeFirst : AcknowledgesThenRecovers py now' item b b₂
  entries : ∀ x, x ∈ ledgerContent b₁.db ↔ x ∈ ledgerContent b₂.db
  keyed₁ : existingEvent b₁.db item.idempotencyKey = some item.eventId
  keyed₂ : existingEvent b₂.db item.idempotencyKey = some item.eventId

/-! ## After a recovery -/

theorem recoverBody_ledgers {v w : Store} {n : ℕ} (h : (recoverBody py).eval exec v = .ok (n, w)) {e : Str}
    (he : e ∈ pendingIds v.1) : e ∈ ledgerIds w.1 := by
  have hend := recoverLoop_keeps
    (J := fun rows u _ => e ∈ rows.map Prod.fst ∨ e ∈ ledgerIds u.1) ?known ?fresh
    (.inl ((pending_map_fst_perm v.1).symm.subset he)) (recoverBody_cases h)
  case known =>
    intro e' _ rows u _ hJ hdup
    obtain ⟨q, hq, hqe⟩ := hdup
    rcases hJ with hJ | hJ
    · rcases List.mem_cons.1 hJ with rfl | hJ
      · exact .inr (List.mem_map.2 ⟨q, hq, hqe⟩)
      · exact .inl hJ
    · exact .inr hJ
  case fresh =>
    intro e' _ rows u _ _ t' hJ _ _ _ _
    have hledger : ledgerIds (committed (appended py u e' t') e').1 = ledgerIds u.1 ++ [e'] :=
      ledgerIds_appended py u e' t'
    rw [hledger, List.mem_append, List.mem_singleton]
    rcases hJ with hJ | hJ
    · rcases List.mem_cons.1 hJ with rfl | hJ
      · exact .inr (.inr rfl)
      · exact .inl hJ
    · exact .inr (.inl hJ)
  simpa using hend

/-- An event of the ledger is not acknowledged under a new key. -/
theorem acknowledgeWrite_ledgered (py : PyLib P) (now : ClockText) {item : BatchWriteItem P} {b : Backend}
    (he : item.eventId ∈ ledgerIds b.db) (hk : existingEvent b.db item.idempotencyKey = none) :
    ∃ e, b.acknowledgeWrite py [] now item = (.error e, { b with session := b.session.rollback }) := by
  cases henc : item.idempotencyKey.encodable with
  | true =>
    refine acknowledgeWrite_refused now py henc hk fun t _ ha => ?_
    obtain ⟨q, hq, hqe⟩ := List.mem_map.1 he
    exact ha.unledgered q hq hqe
  | false => exact acknowledgeWrite_unbindable now py henc b

/-- **Recovery and acknowledgement never commute.** In every state, for every pending event, every
payload and every key that is not used: the two orders do not both return. -/
theorem not_commutes {b : Backend} (now now' : ClockText) {item : BatchWriteItem P}
    (hpending : item.eventId ∈ pendingIds b.db) (hk : existingEvent b.db item.idempotencyKey = none) :
    ¬ ∃ b₁ b₂, Commutes py now now' item b b₁ b₂ := by
  rintro ⟨b₁, b₂, hc⟩
  obtain ⟨n, b₀, r, hrec, hack⟩ := hc.recoverFirst
  rw [Backend.recoverUncommitted] at hrec
  obtain ⟨w, he, rfl⟩ := guarded_returned hrec
  have hkey : existingEvent w.1 item.idempotencyKey = none := by
    rw [existingEvent, (recoverBody_frame he).1]
    exact hk
  obtain ⟨e, herr⟩ := acknowledgeWrite_ledgered py (b := { b with session := ⟨w, w⟩ }) now
    (recoverBody_ledgers he hpending) hkey
  rw [herr] at hack
  cases hack

/-- One event that was staged, and one more. -/
def twoStaged : Backend :=
  (history PyLib.fixed [] .empty
    [(.stagePartial (lit "a") (.obj []), []), (.stagePartial (lit "b") (.obj []), [])]).2

theorem not_commutes_staged :
    ¬ ∃ b₁ b₂, Commutes PyLib.fixed .fixed .fixed ⟨lit "k", lit "a", .obj []⟩ twoStaged b₁ b₂ :=
  not_commutes .fixed .fixed (by decide) (by decide)

/-- After a recovery the acknowledgement raises; without one it returns. -/
theorem recovered_unacknowledged :
    let item : BatchWriteItem Json := ⟨lit "k", lit "a", .obj []⟩
    let recovered := twoStaged.recoverUncommitted PyLib.fixed []
    let acknowledged := twoStaged.acknowledgeWrite PyLib.fixed [] .fixed item
    pending twoStaged.db.walStaging = [(lit "a", lit "\x7b\x7d"), (lit "b", lit "\x7b\x7d")] ∧
      recovered.1 = .ok 2 ∧ ledgerIds recovered.2.db = [lit "a", lit "b"] ∧
      (recovered.2.acknowledgeWrite PyLib.fixed [] .fixed item).1 = .error .integrityError ∧
      acknowledged.1 = .ok ⟨lit "a", lit "k", true, false⟩ ∧
      (acknowledged.2.recoverUncommitted PyLib.fixed []).1 = .ok 1 := by
  decide

/-! ## What each order does -/

/-- A staged row whose text is read and written again as it is. -/
structure Recoverable (py : PyLib P) (row : Str × Str) : Prop where
  eventId : row.1.encodable = true
  payload : row.2.encodable = true
  roundTrip : ∃ p, py.loads row.2 = .ok p ∧ payloadJson py p = .ok row.2

/-- The staged rows were bound, and their texts are what `payload_json` made of such payloads. -/
def StagedOf (py : PyLib P) (payloads : P → Prop) (db : Db) : Prop :=
  ∀ r ∈ db.walStaging, r.eventId.encodable = true ∧ r.payload.encodable = true ∧
    ∃ p, payloads p ∧ payloadJson py p = .ok r.payload

def StagedTexts (py : PyLib P) (db : Db) : Prop :=
  ∀ r ∈ db.walStaging, r.eventId.encodable = true ∧ r.payload.encodable = true ∧
    ∃ p, payloadJson py p = .ok r.payload

/-- The payloads that a call may stage. -/
def Call.payloads : Call P → List P
  | .stagePartial _ payload => [payload]
  | c => c.items.map BatchWriteItem.payload

section StagedOf
variable {payloads payloads' : P → Prop}

theorem StagedOf.imp {db : Db} (h : StagedOf py payloads db) (himp : ∀ p, payloads p → payloads' p) :
    StagedOf py payloads' db := by
  intro r hr
  obtain ⟨he, ht, p, hp, htext⟩ := h r hr
  exact ⟨he, ht, p, himp p hp, htext⟩

theorem stagedOf_committed {v : Store} (h : StagedOf py payloads v.1) (e : Str) :
    StagedOf py payloads (committed v e).1 := by
  intro r hr
  obtain ⟨q, hq, he, -, hp, -⟩ := mem_markCommitted hr
  rw [he, hp]
  exact h q hq

theorem stagedOf_staged {v : Store} (h : StagedOf py payloads v.1) {e t : Str} {p : P}
    (he : e.encodable = true) (ht : t.encodable = true) (hmem : payloads p)
    (hp : payloadJson py p = .ok t) : StagedOf py payloads (staged v e t).1 := by
  intro r hr
  simp only [staged] at hr
  split at hr
  · exact h r hr
  · rcases List.mem_append.1 hr with hr | hr
    · exact h r hr
    · rw [List.mem_singleton.1 hr]
      exact ⟨he, ht, p, hmem, hp⟩

theorem items_payloads {c : Call P} {p : P} (h : p ∈ c.items.map BatchWriteItem.payload) :
    p ∈ c.payloads := by
  cases c with
  | stagePartial eventId payload => cases h
  | _ => exact h

theorem stagedOf_step {b b' : Backend} {c : Call P} {o : Outcome} (hb : StagedOf py payloads b.db)
    (h : JournalStep py b c o b') : StagedOf py (fun p => payloads p ∨ p ∈ c.payloads) b'.db := by
  have hold : StagedOf py (fun p => payloads p ∨ p ∈ c.payloads) b.db := hb.imp fun _ => .inl
  cases h with
  | raised e settled same => rwa [StagedOf, Backend.db, (journal_ext.1 same).2.2.1]
  | other noItems settled same => rwa [StagedOf, Backend.db, (journal_ext.1 same).2.2.1]
  | skipped seq id => exact hold
  | emptyBatch now => exact hold
  | stage text eval =>
    obtain ⟨he, ht, rfl⟩ := stageBody_ok eval
    exact stagedOf_staged hold he ht (.inr List.mem_cons_self) text
  | acknowledge ack eval =>
    have hend := acknowledgeLoop_keeps
      (J := fun past u _ _ => StagedOf py (fun p => payloads p ∨ p ∈ past.map BatchWriteItem.payload) u.1)
      ?known ?fresh [] (hb.imp fun _ => .inl) (acknowledgeBody_cases eval)
    case known =>
      intro past item u _ _ _ hJ _
      exact hJ.imp fun p => Or.imp_right fun hp => by simp [List.mem_map.1 hp]
    case fresh =>
      intro past item u _ _ t hJ _ hp ha
      have henc := ha.text
      simp only [encodable_entryText, Bool.and_eq_true] at henc
      have hpast : StagedOf py (fun p => payloads p ∨ p ∈ (past ++ [item]).map BatchWriteItem.payload) u.1 :=
        hJ.imp fun p => Or.imp_right fun hp => by simp [List.mem_map.1 hp]
      exact stagedOf_committed (stagedOf_staged (v := keyed u _ _ _) hpast henc.1.2 henc.2
        (.inr (by simp)) hp) _
    obtain ⟨_, hw⟩ := hend
    exact hw.imp fun p => Or.imp_right items_payloads
  | recover eval =>
    exact recoverLoop_keeps (J := fun _ u _ => StagedOf py _ u.1)
      (fun _ _ _ _ _ hJ _ => stagedOf_committed hJ _)
      (fun _ _ _ _ _ _ _ hJ _ _ _ _ => stagedOf_committed (v := appended py _ _ _) hJ _) hold
      (recoverBody_cases eval)

/-- Every staged text is of a payload of the history. -/
theorem Run.stagedOf {log : List (Call P × Outcome)} {b : Backend} (h : Run py log b) :
    StagedOf py (fun p => ∃ x ∈ log, p ∈ x.1.payloads) b.db := by
  induction h with
  | nil => exact fun r hr => (List.not_mem_nil hr).elim
  | snoc c fs hrun ih =>
    refine (stagedOf_step ih (perform_cases c fs hrun.settled)).imp ?_
    rintro p (⟨x, hx, hp⟩ | hp)
    · exact ⟨x, List.mem_append_left _ hx, hp⟩
    · exact ⟨_, List.mem_append_right _ List.mem_cons_self, hp⟩

end StagedOf

theorem Run.stagedTexts {log : List (Call P × Outcome)} {b : Backend} (h : Run py log b) :
    StagedTexts py b.db := by
  intro r hr
  obtain ⟨he, ht, p, -, hp⟩ := h.stagedOf r hr
  exact ⟨he, ht, p, hp⟩

theorem mem_staged_pending {rows : List StagingRow} {x : Str × Str} :
    x ∈ pending rows ↔ ∃ r ∈ rows, r.committed = false ∧ (r.eventId, r.payload) = x := by
  simp only [pending, List.mem_map, (orderById_perm _).mem_iff, List.mem_filter, Bool.not_eq_true',
    and_assoc]

theorem recoverLoop_eval {rows : List (Str × Str)} {v : Store} (count : ℕ) (h : ToRecover rows v)
    (hc : ChainInv py v.1.ledger v.2.seq) (hrows : ∀ row ∈ rows, Recoverable py row) :
    ∃ w, (recoverLoop py rows count).eval exec v = .ok (count + rows.length, w) ∧
      ledgerContent w.1 = ledgerContent v.1 ++ rows := by
  induction rows generalizing v count with
  | nil => exact ⟨v, rfl, (List.append_nil _).symm⟩
  | cons row rows ih =>
    obtain ⟨e, t⟩ := row
    obtain ⟨he, ht, p, hl, hp⟩ := hrows (e, t) List.mem_cons_self
    have hnew : ∀ q ∈ v.1.ledger, q.eventId ≠ e := fun q hq hqe =>
      h.not_ledgered (List.mem_map.2 ⟨q, hq, hqe⟩)
    have htext : (entryText (headHash v.1.ledger) e t).encodable = true := by
      simp only [encodable_entryText, hc.headHash_encodable, he, ht, Bool.and_self]
    obtain ⟨w, hw, hcontent⟩ := ih (count + 1) (h.next t) (chainInv_appended hc htext)
      fun row hrow => hrows row (List.mem_cons_of_mem _ hrow)
    refine ⟨w, ?_, ?_⟩
    · rw [recoverLoop_row hl hp htext hnew, hw, List.length_cons]
      congr 2
      omega
    · rw [hcontent, List.append_cons, ← ledgerContent_appended py]
      rfl

/-- The pending rows are ledgered in order. -/
theorem recoverBody_eval {log : List (Call P × Outcome)} {b : Backend} (hrun : Run py log b)
    (hrows : ∀ row ∈ pending b.db.walStaging, Recoverable py row) :
    ∃ w, (recoverBody py).eval exec b.session.view = .ok ((pending b.db.walStaging).length, w) ∧
      ledgerContent w.1 = ledgerContent b.db ++ pending b.db.walStaging := by
  obtain ⟨w, hw, hcontent⟩ := recoverLoop_eval 0 (toRecover_pending hrun.journalInv) hrun.chainInv hrows
  rw [Nat.zero_add] at hw
  exact ⟨w, (Prog.eval_stmt_ok exec rfl).trans hw, hcontent⟩

theorem mem_pending_committed {v : Store} {e : Str} {x : Str × Str} :
    x ∈ pending (committed v e).1.walStaging ↔ x ∈ pending v.1.walStaging ∧ x.1 ≠ e := by
  simp only [mem_staged_pending, committed]
  constructor
  · rintro ⟨r, hr, hc, rfl⟩
    obtain ⟨q, hq, he, -, hp, hcommitted⟩ := mem_markCommitted hr
    rw [hcommitted, Bool.or_eq_false_iff, decide_eq_false_iff_not] at hc
    exact ⟨⟨q, hq, hc.1, by rw [he, hp]⟩, by simpa [he] using hc.2⟩
  · rintro ⟨⟨q, hq, hc, rfl⟩, hne⟩
    exact ⟨q, List.mem_map.2 ⟨q, hq, if_neg hne⟩, hc, rfl⟩

/-- An event is staged once. -/
theorem pending_inj {v : Store} (hj : JournalInv v) {x y : Str × Str} (hx : x ∈ pending v.1.walStaging)
    (hy : y ∈ pending v.1.walStaging) (he : x.1 = y.1) : x = y := by
  obtain ⟨q, hq, -, rfl⟩ := mem_staged_pending.1 hx
  obtain ⟨r, hr, -, rfl⟩ := mem_staged_pending.1 hy
  obtain rfl := List.inj_on_of_nodup_map hj.staged hq hr he
  rfl

/-- An acknowledgement takes a pending event from the pending ones. -/
theorem mem_pending_acknowledged (now : ClockText) {item : BatchWriteItem P} {t : Str} {v : Store}
    (hpending : (item.eventId, t) ∈ pending v.1.walStaging) {x : Str × Str} :
    x ∈ pending (acknowledged py v now item t).1.walStaging ↔
      x ∈ pending v.1.walStaging ∧ x.1 ≠ item.eventId := by
  obtain ⟨r, hr, -, hrx⟩ := mem_staged_pending.1 hpending
  have hstaged : (staged v item.eventId t).1.walStaging = v.1.walStaging := by
    simp only [staged]
    exact if_pos (List.any_eq_true.2 ⟨r, hr, decide_eq_true (Prod.mk.inj hrx).1⟩)
  rw [acknowledged_walStaging, hstaged]
  exact mem_pending_committed

/-- A pending event can be acknowledged under a key that is not used. -/
theorem admits_pending {log : List (Call P × Outcome)} {b : Backend} (hrun : Run py log b)
    {item : BatchWriteItem P} {t : Str} (hpending : (item.eventId, t) ∈ pending b.db.walStaging)
    (henc : item.idempotencyKey.encodable = true)
    (hk : existingEvent b.db item.idempotencyKey = none) : Admits b.session.view item t := by
  have hj := hrun.journalInv
  obtain ⟨r, hr, hrc, hrx⟩ := mem_staged_pending.1 hpending
  obtain ⟨hre, hrt⟩ := Prod.mk.inj hrx
  have hpend : item.eventId ∈ pendingIds b.db := mem_pendingIds.2 ⟨r, hr, hre, hrc⟩
  have hnot : item.eventId ∉ ledgerIds b.db := hj.pending_not_ledgered hpend
  obtain ⟨hee, hte, -⟩ := hrun.stagedTexts r hr
  rw [hre] at hee
  rw [hrt] at hte
  refine ⟨henc, ?_, fun q hq => ⟨?_, ?_⟩, fun q hq hqe => hnot (List.mem_map.2 ⟨q, hq, hqe⟩)⟩
  · simp only [encodable_entryText, hrun.chainInv.headHash_encodable, hee, hte, Bool.and_self]
  · simp only [existingEvent, Option.map_eq_none_iff, List.find?_eq_none, decide_eq_true_eq] at hk
    exact hk q hq
  · exact fun hqe => hnot (hqe ▸ hj.keyed q hq)

section Orders
variable (hround : ∀ p t, payloadJson py p = .ok t → ∃ q, py.loads t = .ok q ∧ payloadJson py q = .ok t)
  {b : Backend} (h : Reachable py b) (now : ClockText) {item : BatchWriteItem P}
include hround h

theorem recoverUncommitted_ok :
    ∃ n w, (recoverBody py).eval exec b.session.view = .ok (n, w) ∧
      b.recoverUncommitted py [] = (.ok n, { b with session := ⟨w, w⟩ }) ∧
      ledgerContent w.1 = ledgerContent b.db ++ pending b.db.walStaging := by
  obtain ⟨log, hrun⟩ := h
  have hrows : ∀ row ∈ pending b.db.walStaging, Recoverable py row := by
    intro row hrow
    obtain ⟨r, hr, -, rfl⟩ := mem_staged_pending.1 hrow
    obtain ⟨he, ht, p, hp⟩ := hrun.stagedTexts r hr
    exact ⟨he, ht, hround p r.payload hp⟩
  obtain ⟨w, heval, hcontent⟩ := recoverBody_eval hrun hrows
  exact ⟨_, w, heval, guarded_ok heval, hcontent⟩

/-- The recovery ledgers every pending event; the acknowledgement then raises and changes nothing. -/
theorem recover_then_acknowledge (hpending : item.eventId ∈ pendingIds b.db)
    (hk : existingEvent b.db item.idempotencyKey = none) :
    ∃ n b₁ e, b.recoverUncommitted py [] = (.ok n, b₁) ∧
      b₁.acknowledgeWrite py [] now item = (.error e, b₁) ∧
      existingEvent b₁.db item.idempotencyKey = none ∧
      ledgerContent b₁.db = ledgerContent b.db ++ pending b.db.walStaging := by
  obtain ⟨n, w, heval, hrec, hcontent⟩ := recoverUncommitted_ok hround h
  have hkey : existingEvent w.1 item.idempotencyKey = none := by
    rw [existingEvent, (recoverBody_frame heval).1]
    exact hk
  obtain ⟨e, herr⟩ := acknowledgeWrite_ledgered py (b := { b with session := ⟨w, w⟩ }) now
    (recoverBody_ledgers heval hpending) hkey
  exact ⟨n, _, e, hrec, herr, hkey, hcontent⟩

/-- The acknowledgement ledgers the event under its key and the recovery the other pending ones. -/
theorem acknowledge_then_recover {t : Str} (hp : payloadJson py item.payload = .ok t)
    (hpending : (item.eventId, t) ∈ pending b.db.walStaging)
    (henc : item.idempotencyKey.encodable = true)
    (hk : existingEvent b.db item.idempotencyKey = none) :
    ∃ b₁ n b₂,
      b.acknowledgeWrite py [] now item = (.ok ⟨item.eventId, item.idempotencyKey, true, false⟩, b₁) ∧
      b₁.recoverUncommitted py [] = (.ok n, b₂) ∧
      existingEvent b₂.db item.idempotencyKey = some item.eventId ∧
      ∀ x, x ∈ ledgerContent b₂.db ↔ x ∈ ledgerContent b.db ++ pending b.db.walStaging := by
  have hreach := h.acknowledgeWrite now item
  obtain ⟨log, hrun⟩ := h
  have hadmits := admits_pending hrun hpending henc hk
  have hack := acknowledgeWrite_fresh now henc hk hp hadmits
  rw [hack] at hreach
  obtain ⟨n, w, heval, hrec, hcontent⟩ := recoverUncommitted_ok hround hreach
  refine ⟨_, n, _, hack, hrec, ?_, fun x => ?_⟩
  · rw [existingEvent, Backend.db, (recoverBody_frame heval).1]
    exact existingEvent_fresh py now fun q hq => (hadmits.unkeyed q hq).1
  · -- what the acknowledgement ledgered is what it took from the pending rows
    have hnext : ledgerContent (acknowledged py b.session.view now item t).1 =
        ledgerContent b.db ++ [(item.eventId, t)] := ledgerContent_acknowledged ..
    have hcontent' : x ∈ ledgerContent w.1 ↔ x ∈ ledgerContent b.db ∨ x = (item.eventId, t) ∨
        x ∈ pending b.db.walStaging ∧ x.1 ≠ item.eventId := by
      rw [hcontent, Backend.db, List.mem_append, hnext, List.mem_append, List.mem_singleton,
        mem_pending_acknowledged now hpending, or_assoc]
    rw [hcontent', List.mem_append]
    refine or_congr_right ⟨?_, fun hx => ?_⟩
    · rintro (rfl | hx)
      · exact hpending
      · exact hx.1
    · by_cases hxe : x.1 = item.eventId
      · exact .inl (pending_inj hrun.journalInv hx hpending hxe)
      · exact .inr ⟨hx, hxe⟩

end Orders

end LineageVault
