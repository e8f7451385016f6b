import LineageVault.Storage.PostgresBackend
import LineageVault.Storage.Serial

/-! # Where the open transactions stand

The changes of an open transaction are kept apart from the database and from those of the others.
`Held` is what the transaction with the lock counts on (`Holding`, on the store that it sees), and it
bears the commits of staging calls (`Held.joined`). `Standing` covers every client, and `Clients` is
the invariant of the server.
-/

namespace LineageVault
open Foundations
set_option autoImplicit false

variable {P : Type} {py : PyLib P}

/-! ## Changes kept apart -/

theorem stagedIds_applyAll (db : Db) (ws : List RowWrite) :
    stagedIds (db.applyAll ws) = stagedIds db ++ inserted ws := by
  induction ws generalizing db with
  | nil => simp [inserted]
  | cons w ws ih =>
    rw [applyAll_cons, ih]
    cases w with
    | staging row => simp [stagedIds, Db.apply, inserted]
    | committed e => simp only [stagedIds, Db.apply, markCommitted_eventIds]; rfl
    | _ => rfl

/-- Changes are the same on two databases that differ in other tables. -/
theorem applyAll_congr {db db' : Db} (hi : db'.idempotency = db.idempotency)
    (hl : db'.ledger = db.ledger) (ws : List RowWrite) :
    (db'.applyAll ws).idempotency = (db.applyAll ws).idempotency ∧
      (db'.applyAll ws).ledger = (db.applyAll ws).ledger := by
  induction ws generalizing db db' with
  | nil => exact ⟨hi, hl⟩
  | cons w ws ih =>
    rw [applyAll_cons, applyAll_cons]
    cases w with
    | idempotency row => exact ih (by simp only [Db.apply, hi]) hl
    | ledger row => exact ih hi (by simp only [Db.apply, hl])
    | _ => exact ih hi hl

theorem look_apply {db db' : Db} {e : Str} {x : Option (Str × Bool)} {w : RowWrite}
    (h : look db' = Function.update (look db) e x) (hins : e ∉ inserted [w])
    (hmark : w ≠ .committed e) :
    look (db'.apply w) = Function.update (look (db.apply w)) e x := by
  cases w with
  | staging row =>
    have hne : e ≠ row.eventId := by simpa [inserted] using hins
    funext e'
    rw [Db.apply, look_append, h]
    rcases update_cases (look db) e x e' with ⟨rfl, h'⟩ | ⟨hee, h'⟩
    · rw [Function.update_self, Function.update_self, if_neg hne, Option.or_none]
    · rw [h', Function.update_of_ne hee, Db.apply, look_append]
  | committed e₁ =>
    have hne : e ≠ e₁ := fun he => hmark (by rw [he])
    funext e'
    rw [Db.apply, look_mark, h]
    rcases update_cases (look db) e x e' with ⟨rfl, h'⟩ | ⟨hee, h'⟩
    · rw [Function.update_self, Function.update_self, if_neg hne]
    · rw [h', Function.update_of_ne hee, Db.apply, look_mark]
  | _ => exact h

/-- An event that the changes do not touch is seen besides them. -/
theorem look_applyAll {db db' : Db} {e : Str} {x : Option (Str × Bool)}
    (h : look db' = Function.update (look db) e x) {ws : List RowWrite}
    (hins : e ∉ inserted ws) (hmark : RowWrite.committed e ∉ ws) :
    look (db'.applyAll ws) = Function.update (look (db.applyAll ws)) e x := by
  induction ws generalizing db db' with
  | nil => exact h
  | cons w ws ih =>
    have hcons : inserted (w :: ws) = inserted [w] ++ inserted ws := inserted_append [w] ws
    rw [hcons, List.mem_append, not_or] at hins
    rw [List.mem_cons, not_or] at hmark
    exact ih (look_apply h hins.1 (Ne.symm hmark.1)) hins.2 hmark.2

/-! ## What a statement takes and changes -/

theorem effect_writes {n m : Numbers} {db : Db} {s : Stmt} {r : Reply s} {ws : List RowWrite}
    (h : effect n db s = .ok (r, ws, m)) :
    n.seq ≤ m.seq ∧ (∀ e, RowWrite.committed e ∈ ws → e ∈ stagedIds db) ∧
      (inserted ws = [] ∨ ∃ e t, s = .insertOrIgnoreStaging e t ∧ e ∉ stagedIds db ∧ inserted ws = [e]) := by
  cases s with
  | insertOrIgnoreStaging e t =>
    simp only [effect] at h
    split at h
    · cases h
    split at h
    · cases h; exact ⟨le_rfl, by simp, .inl rfl⟩
    · next hu => cases h; exact ⟨le_rfl, by simp, .inr ⟨e, t, rfl, by simpa [stagedIds] using hu, rfl⟩⟩
  | updateCommitted e =>
    simp only [effect] at h
    split at h
    · cases h
    split at h
    · next hu => cases h; exact ⟨le_rfl, by simpa [stagedIds] using hu, .inl rfl⟩
    · cases h; exact ⟨le_rfl, by simp, .inl rfl⟩
  | _ =>
    simp only [effect] at h
    try split at h
    all_goals first | cases h | skip
    all_goals try split at h
    all_goals first | cases h | skip
    all_goals exact ⟨by simp, by simp, .inl rfl⟩

/-! ## The transaction with the lock -/

/-- The transaction sees a sequenced store, marked only events it sees, and has not begun (a
recovery) or stands as `Holding` says. -/
structure Held (py : PyLib P) (v : Store) (t : PgTxn P) : Prop where
  sequenced : Sequenced (t.sees v)
  marks : ∀ e, RowWrite.committed e ∈ t.own → e ∈ stagedIds (t.sees v).1
  stands : (t.call = .recoverUncommitted ∧ t.prog = LedgerCall.prog py .recoverUncommitted ∧ t.own = []) ∨
    ∃ seen base u opens, Holding (t.call.prog py) seen (book v.1) (look v.1) t.prog
      (book (t.sees v).1) (look (t.sees v).1) base u opens

variable {v : Store} {t : PgTxn P}

theorem held_start (hv : Sequenced v) (hlocks : t.call.locks = true)
    (hprog : t.prog = t.call.prog py) (hown : t.own = []) : Held py v t := by
  have hsees : t.sees v = v := by rw [PgTxn.sees, hown]; rfl
  refine ⟨by rwa [hsees], by simp [hown], ?_⟩
  rw [hsees, hprog]
  cases hc : t.call with
  | stagePartial e payload => rw [hc] at hlocks; cases hlocks
  | acknowledgeWritesBatch now items => exact .inr ⟨_, _, _, _, holding_acknowledge now items _ _⟩
  | recoverUncommitted => exact .inl ⟨rfl, rfl, hown⟩

/-- Numbers were lost. -/
theorem Held.later (h : Held py v t) {m : Numbers} (hm : v.2.seq ≤ m.seq) : Held py (v.1, m) t :=
  ⟨h.sequenced.mono rfl hm, h.marks, h.stands⟩

/-- The store that a statement of the transaction leaves. -/
theorem exec_of_effect {s : Stmt} {k : Reply s → Sql Outcome} {r : Reply s} {ws : List RowWrite}
    {m : Numbers} (he : effect v.2 (v.1.applyAll t.own) s = .ok (r, ws, m)) :
    exec s (t.sees v) =
      .ok (r, PgTxn.sees { t with prog := k r, own := t.own ++ ws } (v.1, m)) := by
  simp only [exec, PgTxn.sees, he, applyAll_append]

/-- The first statement of a recovery. -/
theorem held_recover {k : Reply .selectPending → Sql Outcome} (hv : Sequenced v)
    (hd : (stagedIds v.1).Nodup) (hcall : t.call = .recoverUncommitted)
    (hprog : LedgerCall.prog py .recoverUncommitted = .stmt .selectPending k) (hown : t.own = []) :
    Held py v { t with prog := k (pending v.1.walStaging) } := by
  have hsees : PgTxn.sees { t with prog := k (pending v.1.walStaging) } v = v := by
    simp only [PgTxn.sees, hown]
    rfl
  refine ⟨by rwa [hsees], by simp [hown], .inr ⟨some (pending v.1.walStaging), look v.1, look v.1,
    fun e => e ∈ (pending v.1.walStaging).map Prod.fst, ?_⟩⟩
  rw [hsees, hcall]
  have hk : k = fun rows => recoverLoop py rows 0 >>= fun n => .ret (.recovered n) := by
    cases hprog
    rfl
  rw [hk]
  exact holding_recover (pending_nodup hd) (fun e t => mem_pending hd) _

theorem Held.executed (h : Held py v t) (hd : (stagedIds v.1).Nodup) {s : Stmt}
    {k : Reply s → Sql Outcome} {r : Reply s} {ws : List RowWrite} {m : Numbers}
    (hprog : t.prog = .stmt s k) (he : effect v.2 (v.1.applyAll t.own) s = .ok (r, ws, m)) :
    Held py (v.1, m) { t with prog := k r, own := t.own ++ ws } := by
  rcases h.stands with ⟨hcall, hp, hown⟩ | ⟨seen, base, u, opens, hh⟩
  · have hsees : t.sees v = v := by rw [PgTxn.sees, hown]; rfl
    have hs := hprog.symm.trans hp
    cases hs
    cases he
    have hheld : Held py v _ := held_recover (hsees ▸ h.sequenced) hd hcall rfl hown
    simpa only [List.append_nil, hown, applyAll_nil] using hheld
  · have hexec := exec_of_effect (k := k) he
    rw [hprog] at hh
    have hbook : s.onBook = true := hh.careful.1
    obtain ⟨hseq, -, -⟩ := exec_after hbook h.sequenced hexec
    refine ⟨hseq, fun e hm => ?_, ?_⟩
    · have hids : (stagedIds (t.sees v).1) ++ inserted ws =
          stagedIds (PgTxn.sees { t with prog := k r, own := t.own ++ ws } (v.1, m)).1 := by
        simp only [PgTxn.sees, stagedIds_applyAll, inserted_append, List.append_assoc]
      rw [← hids]
      refine List.mem_append_left _ ?_
      rcases List.mem_append.1 hm with hm | hm
      · exact h.marks e hm
      · exact (effect_writes he).2.1 e hm
    · obtain ⟨base', u', opens', hh'⟩ := hh.executed h.sequenced hexec
      exact .inr ⟨seen, base', u', opens', hh'⟩

theorem look_insert {db : Db} (row : StagingRow) (h : row.eventId ∉ stagedIds db) :
    look (db.apply (.staging row)) =
      Function.update (look db) row.eventId (some (row.payload, row.committed)) := by
  funext e
  rw [Db.apply, look_append]
  have hn : look db row.eventId = none := not_not.1 fun hn => h (look_ne_none.1 hn)
  rcases update_cases (look db) row.eventId (some (row.payload, row.committed)) e with
    ⟨rfl, h'⟩ | ⟨he, h'⟩
  · rw [h', hn, if_pos rfl]
    rfl
  · rw [h', if_neg he, Option.or_none]

/-- Another client's new event is committed. -/
theorem Held.joined (h : Held py v t) {row : StagingRow} (hc : row.committed = false)
    (hnew : row.eventId ∉ stagedIds (t.sees v).1) :
    Held py (v.1.apply (.staging row), v.2) t := by
  have hids := hnew
  rw [PgTxn.sees, stagedIds_applyAll, List.mem_append, not_or] at hids
  have hmark : RowWrite.committed row.eventId ∉ t.own := fun hm => hnew (h.marks _ hm)
  have hlook := look_insert row hids.1
  have hview := look_applyAll hlook hids.2 hmark
  have hother : (v.1.apply (.staging row)).idempotency = v.1.idempotency ∧
      (v.1.apply (.staging row)).ledger = v.1.ledger := ⟨rfl, rfl⟩
  obtain ⟨hi, hl⟩ := applyAll_congr hother.1 hother.2 t.own
  refine ⟨h.sequenced.mono hl le_rfl, fun e he => ?_, ?_⟩
  · have := h.marks e he
    simp only [PgTxn.sees, stagedIds_applyAll, List.mem_append] at this ⊢
    exact this.imp_left fun h => by simp [stagedIds, Db.apply] at h ⊢; exact .inl h
  · refine h.stands.imp_right ?_
    rintro ⟨seen, base, u, opens, hh⟩
    refine ⟨seen, base, u, opens, ?_⟩
    have hbook : book (t.sees (v.1.apply (.staging row), v.2)).1 = book (t.sees v).1 := by
      simp only [book, PgTxn.sees, hi, hl]
    have hj := hh.joined (e := row.eventId) (t := row.payload)
      (not_not.1 fun hn => hids.1 (look_ne_none.1 hn)) (not_not.1 fun hn => hnew (look_ne_none.1 hn))
    rw [hc] at hlook hview
    rw [hbook, hlook]
    exact hview ▸ hj

/-! ## Every open transaction -/

/-- Where a transaction stands; `mine` says that it has the lock. -/
inductive Standing (py : PyLib P) (v : Store) (mine : Prop) (t : PgTxn P) : Prop where
  | waiting (waits : t.waits = true) (locks : t.call.locks = true) (prog : t.prog = t.call.prog py)
      (own : t.own = [])
  | holds (goes : t.waits = false) (mine : mine) (held : Held py v t)
  | failing (e : PyErr) (goes : t.waits = false) (prog : t.prog = .raise e)
  | empty (now : ClockText) (goes : t.waits = false) (call : t.call = .acknowledgeWritesBatch now [])
      (prog : t.prog = .ret (.acks [])) (own : t.own = [])
  | stages {eventId text : Str} {payload : P} (goes : t.waits = false)
      (call : t.call = .stagePartial eventId payload) (json : payloadJson py payload = .ok text)
      (prog : t.prog = .stmt (.insertOrIgnoreStaging eventId text) fun _ => .ret .done)
      (own : t.own = [])
  | staged (c : StagedCall py) (id : ℕ) (goes : t.waits = false)
      (call : t.call = .stagePartial c.eventId c.payload) (prog : t.prog = .ret .done)
      (own : t.own = [.staging ⟨id, c.eventId, c.text, false⟩])
  | found (c : StagedCall py) (goes : t.waits = false)
      (call : t.call = .stagePartial c.eventId c.payload) (prog : t.prog = .ret .done)
      (own : t.own = []) (there : c.eventId ∈ stagedIds v.1)

theorem Standing.mono {v' : Store} {mine mine' : Prop} (h : Standing py v mine t)
    (hmine : mine → mine') (hids : stagedIds v.1 ⊆ stagedIds v'.1)
    (hheld : mine → Held py v t → Held py v' t) : Standing py v' mine' t := by
  cases h with
  | waiting waits locks prog own => exact .waiting waits locks prog own
  | holds goes m held => exact .holds goes (hmine m) (hheld m held)
  | failing e goes prog => exact .failing e goes prog
  | empty now goes call prog own => exact .empty now goes call prog own
  | stages goes call json prog own => exact .stages goes call json prog own
  | staged c id goes call prog own => exact .staged c id goes call prog own
  | found c goes call prog own there => exact .found c goes call prog own (hids there)

theorem Standing.of_waits {mine : Prop} (h : Standing py v mine t) (hw : t.waits = true) :
    t.call.locks = true ∧ t.prog = t.call.prog py ∧ t.own = [] := by
  cases h with
  | waiting waits locks prog own => exact ⟨locks, prog, own⟩
  | _ => simp_all

/-- A statement is issued by the owner of the lock, or is the insert of a staging call. -/
theorem Standing.of_stmt {mine : Prop} (h : Standing py v mine t) (hgo : t.waits = false) {s : Stmt}
    {k : Reply s → Sql Outcome} (hp : t.prog = .stmt s k) :
    (mine ∧ Held py v t) ∨
    (∃ eventId text payload, t.call = .stagePartial eventId payload ∧ payloadJson py payload = .ok text ∧
      t.prog = .stmt (.insertOrIgnoreStaging eventId text) (fun _ => .ret .done) ∧ t.own = []) := by
  cases h with
  | holds goes m held => exact .inl ⟨m, held⟩
  | stages goes call json prog own => exact .inr ⟨_, _, _, call, json, prog, own⟩
  | _ => simp_all

/-- A transaction that commits has the lock, changed nothing, or staged one event. -/
theorem Standing.of_ret {mine : Prop} (h : Standing py v mine t) (hgo : t.waits = false) {o : Outcome}
    (hp : t.prog = .ret o) :
    (mine ∧ Held py v t) ∨
    (∃ c : StagedCall py, (t.call, o) = c.entry ∧
      ∃ id, t.own = [.staging ⟨id, c.eventId, c.text, false⟩]) ∨
    (∃ c : StagedCall py, (t.call, o) = c.entry ∧ t.own = [] ∧ c.eventId ∈ stagedIds v.1) ∨
    (∃ now, t.call = .acknowledgeWritesBatch now [] ∧ o = .acks [] ∧ t.own = []) := by
  cases h with
  | waiting waits _ _ _ => rw [hgo] at waits; cases waits
  | holds goes m held => exact .inl ⟨m, held⟩
  | failing e goes prog => rw [hp] at prog; cases prog
  | stages goes call json prog own => rw [hp] at prog; cases prog
  | empty now goes call prog own =>
    cases hp.symm.trans prog
    exact .inr (.inr (.inr ⟨now, call, rfl, own⟩))
  | staged c id goes call prog own =>
    cases hp.symm.trans prog
    exact .inr (.inl ⟨c, by rw [call]; rfl, id, own⟩)
  | found c goes call prog own there =>
    cases hp.symm.trans prog
    exact .inr (.inr (.inl ⟨c, by rw [call]; rfl, own, there⟩))

theorem standing_start (c : LedgerCall P) (mine : Prop) :
    Standing py v mine ⟨c, c.locks, c.prog py, []⟩ := by
  cases c with
  | stagePartial e payload =>
    cases hp : payloadJson py payload with
    | error err => exact .failing err rfl (by simp only [LedgerCall.prog, hp]; rfl)
    | ok text => exact .stages rfl rfl hp (by simp only [LedgerCall.prog, hp]; rfl) rfl
  | acknowledgeWritesBatch now items =>
    cases items with
    | nil => exact .empty now rfl rfl rfl rfl
    | cons item items => exact .waiting rfl rfl rfl rfl
  | recoverUncommitted => exact .waiting rfl rfl rfl rfl

variable {n : ℕ} {g g' : Pg P n} {i : Fin n}

structure Clients (py : PyLib P) (g : Pg P n) : Prop where
  sequenced : Sequenced (g.db, g.numbers)
  distinct : (stagedIds g.db).Nodup
  apart : ∀ i t, g.client i = some t → (stagedIds g.db ++ inserted t.own).Nodup
  disjoint : ∀ i j t t', i ≠ j → g.client i = some t → g.client j = some t' →
    List.Disjoint (inserted t.own) (inserted t'.own)
  standing : ∀ i t, g.client i = some t → Standing py (g.db, g.numbers) (g.lock = some i) t

/-- Client `i` moves on or leaves, and nothing is committed. -/
theorem Clients.set (h : Clients py g) {o : Option (PgTxn P)} (hdb : g'.db = g.db)
    (hclient : g'.client = (g.setClient i o).client) (hnum : g.numbers.seq ≤ g'.numbers.seq)
    (hlock : ∀ j, j ≠ i → g.lock = some j → g'.lock = some j)
    (hnew : ∀ t, o = some t → (stagedIds g.db ++ inserted t.own).Nodup ∧
      (∀ j t', j ≠ i → g.client j = some t' → List.Disjoint (inserted t.own) (inserted t'.own)) ∧
      Standing py (g.db, g'.numbers) (g'.lock = some i) t) : Clients py g' where
  sequenced := h.sequenced.mono (congrArg Db.ledger hdb) hnum
  distinct := hdb ▸ h.distinct
  apart j t ht := by
    rw [hclient] at ht
    rw [hdb]
    rcases ReadCommitted.setClient_cases ht with ⟨rfl, ho⟩ | ⟨-, ht⟩
    · exact (hnew t ho).1
    · exact h.apart j t ht
  disjoint j j' t t' hne ht ht' := by
    rw [hclient] at ht ht'
    rcases ReadCommitted.setClient_cases ht with ⟨rfl, ho⟩ | ⟨hj, hold⟩
    · rcases ReadCommitted.setClient_cases ht' with ⟨rfl, -⟩ | ⟨hj', hold'⟩
      · exact absurd rfl hne
      · exact (hnew t ho).2.1 j' t' hj' hold'
    · rcases ReadCommitted.setClient_cases ht' with ⟨rfl, ho'⟩ | ⟨-, hold'⟩
      · exact List.disjoint_symm ((hnew t' ho').2.1 j t hj hold)
      · exact h.disjoint j j' t t' hne hold hold'
  standing j t ht := by
    rw [hclient] at ht
    rw [hdb]
    rcases ReadCommitted.setClient_cases ht with ⟨rfl, ho⟩ | ⟨hj, ht⟩
    · exact (hnew t ho).2.2
    · exact (h.standing j t ht).mono (hlock j hj) (fun _ h => h) fun _ hheld => hheld.later hnum

/-- Client `i` commits. -/
theorem Clients.commit (h : Clients py g) (ht : g.client i = some t) {log : List (LedgerCall P × Outcome)}
    (hseq : Sequenced (t.sees (g.db, g.numbers)))
    (hheld : ∀ j t', j ≠ i → g.client j = some t' → g.lock = some j →
      Held py (g.db, g.numbers) t' → Held py (t.sees (g.db, g.numbers)) t') :
    Clients py { g.leave i with db := ReadCommitted.view (postgres py) g t, log := log } := by
  have hids : stagedIds (t.sees (g.db, g.numbers)).1 = stagedIds g.db ++ inserted t.own :=
    stagedIds_applyAll ..
  refine ⟨hseq, ?_, fun j t' ht' => ?_, fun j j' t₁ t₂ hne h₁ h₂ => ?_, fun j t' ht' => ?_⟩
  · exact hids ▸ h.apart i t ht
  · obtain ⟨hj, ht'⟩ := ReadCommitted.leave_cases ht'
    change (stagedIds (t.sees (g.db, g.numbers)).1 ++ inserted t'.own).Nodup
    have hown := h.apart j t' ht'
    rw [hids]
    rw [List.nodup_append'] at hown ⊢
    refine ⟨h.apart i t ht, hown.2.1, List.disjoint_append_left.2 ⟨hown.2.2, ?_⟩⟩
    exact h.disjoint i j t t' (Ne.symm hj) ht ht'
  · exact h.disjoint j j' t₁ t₂ hne (ReadCommitted.leave_cases h₁).2 (ReadCommitted.leave_cases h₂).2
  · obtain ⟨hj, ht'⟩ := ReadCommitted.leave_cases ht'
    refine (h.standing j t' ht').mono (fun hl => ?_) (fun e he => ?_) (hheld j t' hj ht')
    · have : (g.leave i).lock = g.lock := if_neg (by rw [hl]; exact fun he => hj (Option.some.inj he))
      exact this.trans hl
    · exact hids ▸ List.mem_append_left _ he

/-! ## One step of the server -/

theorem clients_started (h : Clients py g) {c : LedgerCall P} :
    Clients py (g.setClient i (some ⟨c, c.locks, c.prog py, []⟩)) := by
  refine h.set rfl rfl le_rfl (fun _ _ hl => hl) fun t ht => ?_
  cases ht
  exact ⟨by simpa [inserted] using h.distinct, by simp [inserted], standing_start c _⟩

theorem clients_locked (h : Clients py g) (ht : g.client i = some t) (hw : t.waits = true)
    (hfree : g.lock = none) :
    Clients py { g.setClient i (some { t with waits := false }) with lock := some i } := by
  refine h.set rfl rfl le_rfl (fun j _ hl => by rw [hfree] at hl; cases hl) fun t' ht' => ?_
  cases ht'
  refine ⟨h.apart i t ht, fun j t' hj ht' => h.disjoint i j t t' (Ne.symm hj) ht ht', ?_⟩
  obtain ⟨locks, prog, own⟩ := (h.standing i t ht).of_waits hw
  exact .holds rfl rfl (held_start (t := { t with waits := false }) h.sequenced locks prog own)

theorem clients_left (h : Clients py g) (i : Fin n) : Clients py (g.leave i) := by
  refine h.set (i := i) (o := none) rfl rfl le_rfl (fun j hj hl => ?_) (by simp)
  have : (g.leave i).lock = g.lock := if_neg (by rw [hl]; exact fun he => hj (Option.some.inj he))
  exact this.trans hl

theorem standing_executed (h : Clients py g) (ht : g.client i = some t) (hgo : t.waits = false)
    {s : Stmt} {k : Reply s → Sql Outcome} {r : Reply s} {ws : List RowWrite} {m : Numbers}
    (hp : t.prog = .stmt s k) (he : effect g.numbers (g.db.applyAll t.own) s = .ok (r, ws, m)) :
    Standing py (g.db, m) (g.lock = some i) { t with prog := k r, own := t.own ++ ws } := by
  rcases (h.standing i t ht).of_stmt hgo hp with ⟨mine, held⟩ | ⟨e, text, payload, call, json, hp', own⟩
  · exact .holds hgo mine (held.executed h.distinct hp he)
  · cases hp.symm.trans hp'
    rw [own, applyAll_nil] at he
    simp only [effect] at he
    split at he
    · cases he
    next hb =>
    have henc : e.encodable = true ∧ text.encodable = true := by simpa using hb
    let c : StagedCall py := ⟨e, payload, text, json, henc⟩
    split at he
    · next hu =>
      cases he
      refine .found c hgo call rfl (by rw [own]; rfl) ?_
      simpa [stagedIds] using hu
    · cases he
      exact .staged c _ hgo call rfl (by rw [own]; rfl)

theorem clients_executed (h : Clients py g) (ht : g.client i = some t) (hgo : t.waits = false)
    {s : Stmt} {k : Reply s → Sql Outcome} {r : Reply s} {ws : List RowWrite} {m : Numbers}
    (hp : t.prog = .stmt s k) (hfree : ReadCommitted.blocked (postgres py) g i s = false)
    (he : effect g.numbers (g.db.applyAll t.own) s = .ok (r, ws, m)) :
    Clients py { g.setClient i (some { t with prog := k r, own := t.own ++ ws }) with numbers := m } := by
  obtain ⟨hnum, -, hins⟩ := effect_writes he
  refine h.set rfl rfl hnum (fun _ _ hl => hl) fun t' ht' => ?_
  cases ht'
  refine ⟨?_, fun j t' hj ht' => ?_, standing_executed h ht hgo hp he⟩
  · rw [inserted_append, ← List.append_assoc, ← stagedIds_applyAll]
    have hview := h.apart i t ht
    rw [← stagedIds_applyAll] at hview
    rcases hins with hnil | ⟨e, _, -, hnew, hone⟩
    · rwa [hnil, List.append_nil]
    · rw [hone]
      exact List.nodup_append'.2 ⟨hview, List.nodup_singleton _, List.disjoint_singleton.2 hnew⟩
  · rw [inserted_append]
    refine List.disjoint_append_left.2 ⟨h.disjoint i j t t' (Ne.symm hj) ht ht', ?_⟩
    rcases hins with hnil | ⟨e, text, rfl, -, hone⟩
    · simp [hnil]
    · rw [hone, List.singleton_disjoint]
      intro hmem
      obtain ⟨w, hw, hrow⟩ := List.mem_filterMap.1 hmem
      have hc := ReadCommitted.not_conflicts (postgres py) hfree hj ht' hw
      cases w with
      | staging row =>
        cases hrow
        simp [postgres, Stmt.conflicts] at hc
      | _ => cases hrow

theorem sees_nil {db : Db} {m : Numbers} (hown : t.own = []) : t.sees (db, m) = (db, m) := by
  rw [PgTxn.sees, hown]
  rfl

theorem clients_committed (h : Clients py g) (ht : g.client i = some t) (hgo : t.waits = false)
    {o : Outcome} (hp : t.prog = .ret o) {log : List (LedgerCall P × Outcome)} :
    Clients py { g.leave i with db := ReadCommitted.view (postgres py) g t, log := log } := by
  rcases (h.standing i t ht).of_ret hgo hp with
    ⟨mine, held⟩ | ⟨c, -, id, own⟩ | ⟨c, -, own, -⟩ | ⟨now, -, -, own⟩
  · refine h.commit ht held.sequenced fun j t' hj _ hl => ?_
    exact absurd (Option.some.inj (hl.symm.trans mine)) hj
  · have hsees : t.sees (g.db, g.numbers) =
        (g.db.apply (.staging ⟨id, c.eventId, c.text, false⟩), g.numbers) := by
      rw [PgTxn.sees, own]
      rfl
    refine h.commit ht (by rw [hsees]; exact h.sequenced.mono rfl le_rfl) fun j t' hj ht' _ hheld => ?_
    rw [hsees]
    refine Held.joined hheld rfl ?_
    have hapart := h.apart i t ht
    have hdis := h.disjoint i j t t' (Ne.symm hj) ht ht'
    rw [own] at hapart hdis
    have hnew : c.eventId ∉ stagedIds g.db := List.disjoint_singleton.1 (List.nodup_append'.1 hapart).2.2
    rw [PgTxn.sees, stagedIds_applyAll, List.mem_append, not_or]
    exact ⟨hnew, List.singleton_disjoint.1 hdis⟩
  · refine h.commit ht (by rw [sees_nil own]; exact h.sequenced) fun j t' _ _ _ hheld => ?_
    rwa [sees_nil own]
  · refine h.commit ht (by rw [sees_nil own]; exact h.sequenced) fun j t' _ _ _ hheld => ?_
    rwa [sees_nil own]

theorem clients_step {a : ReadCommitted.Action (LedgerCall P) Numbers n} (h : Clients py g)
    (hs : ReadCommitted.step (postgres py) g a = some g') : Clients py g' := by
  cases ReadCommitted.step_cases (postgres py) hs with
  | started i c idle => exact clients_started h
  | locked running waits free => exact clients_locked h running waits free
  | left i => exact clients_left h i
  | committed running goes done => exact clients_committed h running goes done
  | executed running goes next free effect => exact clients_executed h running goes next free effect
  | gapped later =>
    have hm := (of_decide_eq_true later).1
    exact ⟨h.sequenced.mono rfl hm, h.distinct, h.apart, h.disjoint, fun i t ht =>
      (h.standing i t ht).mono id (fun _ h => h) fun _ hheld => hheld.later hm⟩

end LineageVault
