import LineageVault.Storage.History

/-! # What ties the three tables of the write path together

`JournalInv` holds between any two transactions: no event occurs twice in a table, the events of the
ledger are the staged events marked as committed, and every key belongs to a ledgered event. An item
or a recovered row keeps it only as a whole; the states between its statements do not have it.
-/

namespace LineageVault
open Foundations
set_option autoImplicit false

variable {P : Type} {py : PyLib P}

def ledgerIds (db : Db) : List Str := db.ledger.map LedgerRow.eventId

def stagedIds (db : Db) : List Str := db.walStaging.map StagingRow.eventId

def committedIds (db : Db) : List Str := (db.walStaging.filter StagingRow.committed).map StagingRow.eventId

def pendingIds (db : Db) : List Str :=
  (db.walStaging.filter fun r => !r.committed).map StagingRow.eventId

structure JournalInv (v : Store) : Prop where
  idSorted : v.1.walStaging.Pairwise fun a b => a.id < b.id
  idBound : ∀ r ∈ v.1.walStaging, r.id ≤ v.2.id
  staged : (stagedIds v.1).Nodup
  ledgered : (ledgerIds v.1).Nodup
  keys : (v.1.idempotency.map IdempotencyRow.idempotencyKey).Nodup
  events : (v.1.idempotency.map IdempotencyRow.eventId).Nodup
  committed : ∀ e, e ∈ ledgerIds v.1 ↔ e ∈ committedIds v.1
  keyed : ∀ q ∈ v.1.idempotency, q.eventId ∈ ledgerIds v.1

/-! ## Staged rows and marks -/

theorem mem_committedIds {db : Db} {e : Str} :
    e ∈ committedIds db ↔ ∃ r ∈ db.walStaging, r.eventId = e ∧ r.committed = true := by
  simp only [committedIds, List.mem_map, List.mem_filter]
  exact ⟨fun ⟨r, hr, he⟩ => ⟨r, hr.1, he, hr.2⟩, fun ⟨r, hr, he, hc⟩ => ⟨r, ⟨hr, hc⟩, he⟩⟩

theorem mem_pendingIds {db : Db} {e : Str} :
    e ∈ pendingIds db ↔ ∃ r ∈ db.walStaging, r.eventId = e ∧ r.committed = false := by
  simp only [pendingIds, List.mem_map, List.mem_filter, Bool.not_eq_true']
  exact ⟨fun ⟨r, hr, he⟩ => ⟨r, hr.1, he, hr.2⟩, fun ⟨r, hr, he, hc⟩ => ⟨r, ⟨hr, hc⟩, he⟩⟩

theorem mem_committedIds_mark {v : Store} {e e' : Str} :
    e' ∈ committedIds (LineageVault.committed v e).1 ↔
      e' ∈ committedIds v.1 ∨ (e' = e ∧ e ∈ stagedIds v.1) := by
  simp only [mem_committedIds, LineageVault.committed, markCommitted, List.mem_map, stagedIds]
  constructor
  · rintro ⟨_, ⟨r, hr, rfl⟩, he, hc⟩
    by_cases hre : r.eventId = e
    · refine .inr ⟨?_, r, hr, hre⟩
      simpa [hre] using he.symm
    · refine .inl ⟨r, hr, ?_, ?_⟩
      · simpa [hre] using he
      · simpa [hre] using hc
  · rintro (⟨r, hr, he, hc⟩ | ⟨rfl, r, hr, he⟩)
    · exact ⟨_, ⟨r, hr, rfl⟩, by split <;> exact he, by split <;> simp [hc]⟩
    · exact ⟨_, ⟨r, hr, rfl⟩, by simp [he], by simp [he]⟩

theorem mem_pendingIds_mark {v : Store} {e e' : Str} :
    e' ∈ pendingIds (LineageVault.committed v e).1 ↔ e' ∈ pendingIds v.1 ∧ e' ≠ e := by
  simp only [mem_pendingIds, LineageVault.committed, markCommitted, List.mem_map]
  constructor
  · rintro ⟨_, ⟨r, hr, rfl⟩, he, hc⟩
    by_cases hre : r.eventId = e
    · simp [hre] at hc
    · rw [if_neg hre] at he hc
      exact ⟨⟨r, hr, he, hc⟩, he ▸ hre⟩
  · rintro ⟨⟨r, hr, rfl, hc⟩, hne⟩
    exact ⟨r, ⟨r, hr, if_neg hne⟩, rfl, hc⟩

/-- No event is both pending and committed. -/
theorem JournalInv.pending_not_ledgered {v : Store} (h : JournalInv v) {e : Str}
    (he : e ∈ pendingIds v.1) : e ∉ ledgerIds v.1 := by
  rw [h.committed, mem_committedIds]
  rintro ⟨r, hr, hre, hc⟩
  obtain ⟨q, hq, hqe, hp⟩ := mem_pendingIds.1 he
  obtain rfl := List.inj_on_of_nodup_map h.staged hr hq (hre.trans hqe.symm)
  rw [hc] at hp
  cases hp

theorem mem_stagedIds_staged {v : Store} {e t : Str} :
    e ∈ stagedIds (LineageVault.staged v e t).1 := by
  simp only [LineageVault.staged, stagedIds]
  split
  · next h => simpa using h
  · simp

theorem committedIds_staged (v : Store) (e t : Str) :
    committedIds (LineageVault.staged v e t).1 = committedIds v.1 := by
  simp only [LineageVault.staged, committedIds]
  split
  · rfl
  · simp

/-! ## Steps -/

theorem journalInv_empty : JournalInv (Db.empty, Numbers.zero) where
  idSorted := .nil
  idBound := by simp [Db.empty]
  staged := .nil
  ledgered := .nil
  keys := .nil
  events := .nil
  committed e := Iff.rfl
  keyed := by simp [Db.empty]

theorem staged_idSorted {v : Store} (hsorted : v.1.walStaging.Pairwise fun a b => a.id < b.id)
    (hbound : ∀ r ∈ v.1.walStaging, r.id ≤ v.2.id) (e t : Str) :
    (LineageVault.staged v e t).1.walStaging.Pairwise fun a b => a.id < b.id := by
  simp only [LineageVault.staged]
  split
  · exact hsorted
  · refine List.pairwise_append.2 ⟨hsorted, List.pairwise_singleton .., fun a ha b hb => ?_⟩
    rw [List.mem_singleton.1 hb]
    exact Nat.lt_succ_of_le (hbound a ha)

theorem staged_idBound {v : Store} (hbound : ∀ r ∈ v.1.walStaging, r.id ≤ v.2.id) (e t : Str) :
    ∀ r ∈ (LineageVault.staged v e t).1.walStaging, r.id ≤ (LineageVault.staged v e t).2.id := by
  simp only [LineageVault.staged]
  split
  · exact fun r hr => (hbound r hr).trans (Nat.le_succ _)
  · intro r hr
    rcases List.mem_append.1 hr with hr | hr
    · exact (hbound r hr).trans (Nat.le_succ _)
    · rw [List.mem_singleton.1 hr]

theorem staged_nodup {v : Store} (hnodup : (stagedIds v.1).Nodup) (e t : Str) :
    (stagedIds (LineageVault.staged v e t).1).Nodup := by
  simp only [LineageVault.staged, stagedIds]
  split
  · exact hnodup
  · next hne =>
    simp only [List.any_eq_true, decide_eq_true_eq, not_exists, not_and] at hne
    rw [List.map_append, List.map_singleton]
    exact List.nodup_append.2 ⟨hnodup, List.nodup_singleton _, by simpa using hne⟩

theorem marked_idSorted {v : Store} (hsorted : v.1.walStaging.Pairwise fun a b => a.id < b.id) (e : Str) :
    (LineageVault.committed v e).1.walStaging.Pairwise fun a b => a.id < b.id := by
  refine List.pairwise_map.1 (?_ : (List.map StagingRow.id _).Pairwise (· < ·))
  simp only [LineageVault.committed, markCommitted_ids]
  exact List.pairwise_map.2 hsorted

theorem marked_idBound {v : Store} (hbound : ∀ r ∈ v.1.walStaging, r.id ≤ v.2.id) (e : Str) :
    ∀ r ∈ (LineageVault.committed v e).1.walStaging, r.id ≤ v.2.id := by
  intro r hr
  obtain ⟨q, hq, -, hid, -⟩ := mem_markCommitted hr
  rw [hid]
  exact hbound q hq

theorem ledgerIds_appended (py : PyLib P) (v : Store) (e t : Str) :
    ledgerIds (appended py v e t).1 = ledgerIds v.1 ++ [e] := by
  simp [ledgerIds, appended, nextRow]

theorem appended_nodup (py : PyLib P) {v : Store} (hnodup : (ledgerIds v.1).Nodup) {e : Str}
    (hnew : ∀ q ∈ v.1.ledger, q.eventId ≠ e) (t : Str) : (ledgerIds (appended py v e t).1).Nodup := by
  rw [ledgerIds_appended]
  refine List.nodup_append.2 ⟨hnodup, List.nodup_singleton _, ?_⟩
  simpa [ledgerIds] using hnew

theorem journalInv_staged {v : Store} (h : JournalInv v) (e t : Str) :
    JournalInv (LineageVault.staged v e t) where
  idSorted := staged_idSorted h.idSorted h.idBound e t
  idBound := staged_idBound h.idBound e t
  staged := staged_nodup h.staged e t
  ledgered := h.ledgered
  keys := h.keys
  events := h.events
  committed e' := by rw [committedIds_staged]; exact h.committed e'
  keyed := h.keyed

/-- A pending event enters the ledger and is marked. -/
theorem journalInv_ledgered (py : PyLib P) {v : Store} (h : JournalInv v) {e t : Str} (he : e ∈ stagedIds v.1)
    (hnew : ∀ q ∈ v.1.ledger, q.eventId ≠ e) :
    JournalInv (LineageVault.committed (appended py v e t) e) where
  idSorted := marked_idSorted (v := appended py v e t) h.idSorted e
  idBound := marked_idBound (v := appended py v e t) h.idBound e
  staged := by
    simp only [stagedIds, LineageVault.committed, appended, markCommitted_eventIds]
    exact h.staged
  ledgered := appended_nodup py h.ledgered hnew t
  keys := h.keys
  events := h.events
  committed e' := by
    change e' ∈ ledgerIds (appended py v e t).1 ↔ _
    rw [mem_committedIds_mark, ledgerIds_appended, List.mem_append, List.mem_singleton]
    exact or_congr (h.committed e') ⟨fun h => ⟨h, he⟩, And.left⟩
  keyed q hq := by
    change q.eventId ∈ ledgerIds (appended py v e t).1
    rw [ledgerIds_appended]
    exact List.mem_append_left _ (h.keyed q hq)

theorem journalInv_keyed {v : Store} (now : ClockText) (h : JournalInv v) {key e : Str}
    (hnew : ∀ q ∈ v.1.idempotency, q.idempotencyKey ≠ key ∧ q.eventId ≠ e)
    (he : e ∈ ledgerIds v.1) : JournalInv (LineageVault.keyed v now key e) where
  idSorted := h.idSorted
  idBound := h.idBound
  staged := h.staged
  ledgered := h.ledgered
  keys := by
    simp only [LineageVault.keyed, List.map_append, List.map_singleton]
    refine List.nodup_append.2 ⟨h.keys, List.nodup_singleton _, ?_⟩
    simpa using fun q hq => (hnew q hq).1
  events := by
    simp only [LineageVault.keyed, List.map_append, List.map_singleton]
    refine List.nodup_append.2 ⟨h.events, List.nodup_singleton _, ?_⟩
    simpa using fun q hq => (hnew q hq).2
  committed := h.committed
  keyed q hq := by
    rcases List.mem_append.1 hq with hq | hq
    · exact h.keyed q hq
    · rw [List.mem_singleton.1 hq]
      exact he

theorem journalInv_acknowledged {v : Store} (h : JournalInv v) {now : ClockText}
    {item : BatchWriteItem P} {t : Str} (ha : Admits v item t) :
    JournalInv (acknowledged py v now item t) := by
  -- the key may as well be inserted last
  have hl := journalInv_ledgered py (journalInv_staged h item.eventId t) (t := t)
    mem_stagedIds_staged ha.unledgered
  refine journalInv_keyed now hl ha.unkeyed ?_
  change item.eventId ∈ ledgerIds (appended py _ item.eventId t).1
  rw [ledgerIds_appended]
  exact List.mem_append_right _ (List.mem_singleton_self _)

/-! ## Programs -/

/-- The ledger grew at its end, by rows whose events are allowed. -/
def Grown (allowed : Str → Prop) (old new : Db) : Prop :=
  ∃ added, new.ledger = old.ledger ++ added ∧ ∀ r ∈ added, allowed r.eventId

theorem grown_refl (allowed : Str → Prop) {old new : Db} (h : new.ledger = old.ledger) :
    Grown allowed old new := ⟨[], by simpa using h, by simp⟩

theorem Grown.appended {allowed : Str → Prop} {old : Db} {v : Store} (h : Grown allowed old v.1)
    {e : Str} (he : allowed e) (t : Str) : Grown allowed old (appended py v e t).1 := by
  obtain ⟨added, hl, ha⟩ := h
  refine ⟨added ++ [nextRow py v e t], ?_, ?_⟩
  · simp only [LineageVault.appended, hl, List.append_assoc]
  · intro r hr
    rcases List.mem_append.1 hr with hr | hr
    · exact ha r hr
    · rw [List.mem_singleton.1 hr]
      exact he

theorem Grown.mono {allowed allowed' : Str → Prop} {old new : Db} (h : Grown allowed old new)
    (himp : ∀ e, allowed e → allowed' e) : Grown allowed' old new :=
  let ⟨added, hl, ha⟩ := h
  ⟨added, hl, fun r hr => himp _ (ha r hr)⟩

theorem journalInv_acknowledge {now : ClockText} {items : List (BatchWriteItem P)} {v w : Store}
    {rs : List AcknowledgedWrite} (hv : JournalInv v)
    (h : (acknowledgeBody py now items).eval exec v = .ok (rs, w)) :
    JournalInv w ∧ Grown (fun e => e ∈ items.map BatchWriteItem.eventId) v.1 w.1 := by
  have hend := acknowledgeLoop_keeps
    (J := fun past u _ _ => JournalInv u ∧
      Grown (fun e => e ∈ past.map BatchWriteItem.eventId) v.1 u.1)
    ?known ?fresh [] ⟨hv, grown_refl _ rfl⟩ (acknowledgeBody_cases h)
  case known =>
    intro past item u _ _ _ hJ _
    obtain ⟨hu, hgrown⟩ := hJ
    exact ⟨hu, hgrown.mono fun e he => by simp [he]⟩
  case fresh =>
    intro past item u _ _ t hJ _ _ ha
    obtain ⟨hu, hgrown⟩ := hJ
    have hpast : Grown (fun e => e ∈ (past ++ [item]).map BatchWriteItem.eventId) v.1 u.1 :=
      hgrown.mono fun e he => by simp [he]
    -- the row is the one that `_append_ledger` would insert at once
    have hnow : Grown (fun e => e ∈ (past ++ [item]).map BatchWriteItem.eventId) v.1
        (LineageVault.appended py u item.eventId t).1 := hpast.appended (by simp) t
    exact ⟨journalInv_acknowledged hu ha, hnow⟩
  obtain ⟨_, hJ⟩ := hend
  exact hJ

theorem pending_map_fst_perm (db : Db) :
    ((pending db.walStaging).map Prod.fst).Perm (pendingIds db) := by
  rw [pending, List.map_map]
  exact (orderById_perm _).map _

theorem pending_nodup {db : Db} (hd : (stagedIds db).Nodup) :
    ((pending db.walStaging).map Prod.fst).Nodup := by
  rw [(pending_map_fst_perm db).nodup_iff]
  exact hd.sublist ((List.filter_sublist ..).map _)

/-- The rows a recovery has still to do are pending. -/
structure ToRecover (rows : List (Str × Str)) (v : Store) : Prop where
  inv : JournalInv v
  distinct : (rows.map Prod.fst).Nodup
  pending : ∀ e ∈ rows.map Prod.fst, e ∈ pendingIds v.1

theorem toRecover_pending {v : Store} (h : JournalInv v) : ToRecover (pending v.1.walStaging) v where
  inv := h
  distinct := pending_nodup h.staged
  pending _ he := (pending_map_fst_perm v.1).subset he

theorem ToRecover.not_ledgered {e t : Str} {rows : List (Str × Str)} {v : Store}
    (h : ToRecover ((e, t) :: rows) v) : e ∉ ledgerIds v.1 :=
  h.inv.pending_not_ledgered (h.pending e (by simp))

theorem ToRecover.next {e t : Str} {rows : List (Str × Str)} {v : Store}
    (h : ToRecover ((e, t) :: rows) v) (t' : Str) :
    ToRecover rows (LineageVault.committed (appended py v e t') e) where
  inv := by
    obtain ⟨r, hr, he, -⟩ := mem_pendingIds.1 (h.pending e (by simp))
    refine journalInv_ledgered py h.inv (List.mem_map.2 ⟨r, hr, he⟩) fun q hq hqe => ?_
    exact h.not_ledgered (List.mem_map.2 ⟨q, hq, hqe⟩)
  distinct := (List.nodup_cons.1 h.distinct).2
  pending e' he' := by
    rw [mem_pendingIds_mark]
    refine ⟨h.pending e' (by simp [he']), ?_⟩
    rintro rfl
    exact (List.nodup_cons.1 h.distinct).1 he'

theorem journalInv_recover {v w : Store} {n : ℕ} (hv : JournalInv v)
    (h : (recoverBody py).eval exec v = .ok (n, w)) :
    JournalInv w ∧ Grown (fun e => e ∈ pendingIds v.1) v.1 w.1 := by
  have hJ := recoverLoop_keeps
    (J := fun rows u _ => ToRecover rows u ∧ (∀ e ∈ rows.map Prod.fst, e ∈ pendingIds v.1) ∧
      Grown (fun e => e ∈ pendingIds v.1) v.1 u.1)
    ?known ?fresh
    ⟨toRecover_pending hv, (toRecover_pending hv).pending, grown_refl _ rfl⟩ (recoverBody_cases h)
  case known =>
    intro e _ rows u _ hJ hdup
    obtain ⟨q, hq, he⟩ := hdup
    exact (hJ.1.not_ledgered (List.mem_map.2 ⟨q, hq, he⟩)).elim
  case fresh =>
    intro e _ rows u _ _ t' hJ _ _ _ _
    obtain ⟨hrest, hpending, hgrown⟩ := hJ
    refine ⟨hrest.next t', ?_, hgrown.appended (hpending e (by simp)) t'⟩
    intro e' he'
    exact hpending e' (by simp [he'])
  exact ⟨hJ.1.inv, hJ.2.2⟩

/-! ## The duplicate branch of the recovery -/

/-- The reply on which the recovery takes its other branch. -/
def NotInLedger : (s : Stmt) → Reply s → Prop
  | .selectInLedger _, dup => dup = false
  | _, _ => True

theorem uses_appendLedger (eventId : Str) (payload : P) :
    (appendLedger py eventId payload).Uses fun s => ∀ e, s ≠ .selectInLedger e :=
  Prog.uses_ofExcept_bind fun _ => ⟨by simp, fun _ => Prog.uses_ofExcept_bind fun _ =>
    ⟨by simp, fun _ => trivial⟩⟩

theorem notInLedger_of_ne {s : Stmt} (hs : ∀ e, s ≠ .selectInLedger e) (r : Reply s) :
    NotInLedger s r := by
  cases s with
  | selectInLedger e => exact (hs e rfl).elim
  | _ => trivial

/-- Induction on the rows that are left, with `ToRecover`. -/
theorem replies_recoverLoop {rows : List (Str × Str)} {v : Store} {count : ℕ}
    (h : ToRecover rows v) : (recoverLoop py rows count).Replies exec NotInLedger v := by
  induction rows generalizing v count with
  | nil => trivial
  | cons row rows ih =>
    obtain ⟨e, t⟩ := row
    cases hl : py.loads t with
    | error err => rw [recoverLoop, hl]; trivial
    | ok payload =>
      rw [recoverLoop_cons hl]
      intro dup v₁ hs
      obtain rfl := exec_read rfl hs
      have hdup : dup = false := by
        obtain ⟨ws, n', he, -⟩ := exec_ok hs
        simp only [effect] at he
        split at he <;> cases he
        simpa [ledgerIds] using h.not_ledgered
      refine ⟨hdup, ?_⟩
      subst hdup
      refine Prog.replies_bind (Prog.replies_of_uses (fun s hs r => notInLedger_of_ne hs r)
        (uses_appendLedger e payload) v₁) fun _ v₂ h₂ => ?_
      obtain ⟨t', -, -, -, rfl⟩ := appendLedger_ok h₂
      intro _ v₃ h₃
      obtain ⟨-, rfl⟩ := updateCommitted_ok h₃
      exact ⟨trivial, ih (h.next t')⟩

theorem replies_recoverBody {v : Store} (h : JournalInv v) :
    (recoverBody py).Replies exec NotInLedger v := by
  intro rows v₁ hs
  cases hs
  exact ⟨trivial, replies_recoverLoop (toRecover_pending h)⟩

/-! ## Histories -/

theorem journalInv_of_journal {v w : Store} (h : JournalInv v) (hvw : journal w = journal v) :
    JournalInv w := by
  obtain ⟨hi, hl, hs, hn⟩ := journal_ext.1 hvw
  obtain ⟨h₁, h₂, h₃, h₄, h₅, h₆, h₇, h₈⟩ := h
  constructor <;>
    simpa only [stagedIds, ledgerIds, committedIds, hi, hl, hs, hn]

theorem journalInv_step {b b' : Backend} {c : Call P} {o : Outcome}
    (hb : JournalInv b.session.view) (h : JournalStep py b c o b') :
    JournalInv b'.session.view ∧
      Grown (fun e => e ∈ c.items.map BatchWriteItem.eventId ∨
        (c = .recoverUncommitted ∧ e ∈ pendingIds b.db)) b.db b'.db := by
  cases h with
  | raised e settled same =>
    exact ⟨journalInv_of_journal hb same, grown_refl _ (journal_ext.1 same).2.1⟩
  | other noItems settled same =>
    exact ⟨journalInv_of_journal hb same, grown_refl _ (journal_ext.1 same).2.1⟩
  | skipped seq id =>
    refine ⟨{ hb with idBound := fun r hr => (hb.idBound r hr).trans (Nat.le_add_right _ _) }, ?_⟩
    exact grown_refl _ rfl
  | emptyBatch now => exact ⟨hb, grown_refl _ rfl⟩
  | stage text eval =>
    obtain ⟨-, -, rfl⟩ := stageBody_ok eval
    exact ⟨journalInv_staged hb _ _, grown_refl _ rfl⟩
  | acknowledge ack eval =>
    obtain ⟨hw, hg⟩ := journalInv_acknowledge hb eval
    exact ⟨hw, hg.mono fun e he => .inl he⟩
  | recover eval =>
    obtain ⟨hw, hg⟩ := journalInv_recover hb eval
    exact ⟨hw, hg.mono fun e he => .inr ⟨rfl, he⟩⟩

theorem Run.journalInv {log : List (Call P × Outcome)} {b : Backend} (h : Run py log b) :
    JournalInv b.session.view := by
  induction h with
  | nil => exact journalInv_empty
  | snoc c fs hrun ih => exact (journalInv_step ih (perform_cases c fs hrun.settled)).1

/-- The stored keys could be bound. -/
theorem Run.keys_encodable {log : List (Call P × Outcome)} {b : Backend} (h : Run py log b) :
    ∀ q ∈ b.db.idempotency, q.idempotencyKey.encodable = true := by
  induction h with
  | nil => exact fun q hq => (List.not_mem_nil hq).elim
  | @snoc log b c fs hrun ih =>
    have hstep : JournalStep py b c (c.perform py fs b).1 (c.perform py fs b).2 :=
      perform_cases c fs hrun.settled
    generalize (c.perform py fs b).1 = o at hstep
    generalize (c.perform py fs b).2 = b' at hstep
    cases hstep with
    | raised e settled same => rwa [Backend.db, (journal_ext.1 same).1]
    | other noItems settled same => rwa [Backend.db, (journal_ext.1 same).1]
    | skipped seq id => exact ih
    | emptyBatch now => exact ih
    | stage text eval =>
      obtain ⟨-, -, rfl⟩ := stageBody_ok eval
      exact ih
    | acknowledge ack eval =>
      have hend := acknowledgeLoop_keeps
        (J := fun _ u _ _ => ∀ q ∈ u.1.idempotency, q.idempotencyKey.encodable = true)
        (fun _ _ _ _ _ _ hJ _ => hJ) ?fresh [] ih (acknowledgeBody_cases eval)
      case fresh =>
        intro _ item u _ _ t hJ _ _ ha q hq
        rcases List.mem_append.1 hq with hq | hq
        · exact hJ q hq
        · rw [List.mem_singleton.1 hq]
          exact ha.key
      obtain ⟨_, hkeys⟩ := hend
      exact hkeys
    | recover eval =>
      rw [Backend.db, (recoverBody_frame eval).1]
      exact ih

/-- **The three tables agree, and the ledger only grows.** In every reachable state: the events of
the ledger are the staged events marked as committed, every key's event is in the ledger, no event
occurs twice in a table, and a recovery never meets a pending event that is in the ledger. Whatever
is called next, the old ledger is a prefix of the new one, and the rows after it are of the items of
the call or of events that were pending. -/
theorem tables_consistent {b : Backend} (h : Reachable py b) :
    (∀ e, e ∈ ledgerIds b.db ↔ e ∈ committedIds b.db) ∧
      (∀ q ∈ b.db.idempotency, q.eventId ∈ ledgerIds b.db) ∧
      (ledgerIds b.db).Nodup ∧ (stagedIds b.db).Nodup ∧
      (b.db.idempotency.map IdempotencyRow.eventId).Nodup ∧
      (recoverBody py).Replies exec NotInLedger b.session.view ∧
      ∀ (c : Call P) (fs : List Bool),
        ∃ added, (c.perform py fs b).2.db.ledger = b.db.ledger ++ added ∧
          ∀ r ∈ added, r.eventId ∈ c.items.map BatchWriteItem.eventId ∨
            (c = .recoverUncommitted ∧ r.eventId ∈ pendingIds b.db) := by
  obtain ⟨log, hrun⟩ := h
  have hj := hrun.journalInv
  refine ⟨hj.committed, hj.keyed, hj.ledgered, hj.staged, hj.events, replies_recoverBody hj, ?_⟩
  exact fun c fs => (journalInv_step hj (perform_cases c fs hrun.settled)).2

/-- One event acknowledged, one only staged. -/
theorem tables_consistent_run :
    let py := PyLib.fixed
    let b := (history py [] .empty
      [(.stagePartial (lit "a") (.obj []), []),
        (.acknowledgeWrite .fixed ⟨lit "k", lit "b", .null⟩, [])]).2
    ledgerIds b.db = [lit "b"] ∧ pendingIds b.db = [lit "a"] ∧
      (∀ e, e ∈ ledgerIds b.db ↔ e ∈ committedIds b.db) ∧
      (recoverBody py).Replies exec NotInLedger b.session.view :=
  have h := tables_consistent ⟨_, Run.nil.history _⟩
  ⟨by decide, by decide, h.1, h.2.2.2.2.2.1⟩

end LineageVault
