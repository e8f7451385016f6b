import LineageVault.Storage.Recovery
import LineageVault.Wal.Recovery

/-! # The stand-alone files after a crash

An append to the ledger is durable before the mark in the WAL is. A process that dies between the two
leaves an event in both, and from then on `replay_pending` raises at it. `replayPending_iff` says that
nothing else can go wrong.
-/

namespace LineageVault
open Foundations
set_option autoImplicit false

variable {P : Type}

inductive FileEvent (P : Type) where
  | call (c : WalCall P)
  | crash (n : ℕ) (c : WalCall P)

def FileEvent.walCall : FileEvent P → WalCall P
  | .call c => c
  | .crash _ c => c

def FileEvent.perform (py : PyLib P) (v : Files) : FileEvent P → Files
  | .call c => (c.perform py v).2
  | .crash n c => c.crash py n v

/-- The files after these events, from two empty ones on. -/
inductive FileRun (py : PyLib P) : List (FileEvent P) → Files → Prop where
  | nil : FileRun py [] .empty
  | snoc {events : List (FileEvent P)} {v : Files} (event : FileEvent P) :
      FileRun py events v → FileRun py (events ++ [event]) (event.perform py v)

variable {py : PyLib P}

/-! ## Calls that raise -/

theorem unguarded_insert_raised {α : Type} {stmt : Stmt} {k : Reply stmt → Sql α}
    (hk : ∀ r, ∃ a, k r = .ret a) {c : Session Store} {e : PyErr}
    (h : (Session.unguarded exec .operationalError [] (.stmt stmt k) c).1 = .error e) :
    (Session.unguarded exec .operationalError [] (.stmt stmt k) c).2 = c := by
  cases hs : exec stmt c.view with
  | error err => simp only [Session.unguarded, Prog.run, List.headD_nil, hs]
  | ok x =>
    obtain ⟨a, ha⟩ := hk x.1
    have hret : Prog.eval exec (.stmt stmt k) c.view = .ok (a, x.2) := by
      rw [Prog.eval_stmt_ok exec hs, ha]
      rfl
    rw [Session.unguarded_ok exec .operationalError hret] at h
    cases h

theorem unguarded_read {α : Type} {stmt : Stmt} {k : Reply stmt → Sql α} {c : Session Store} {r : Reply stmt}
    (h : exec stmt c.view = .ok (r, c.view)) :
    Session.unguarded exec .operationalError [] (.stmt stmt k) c =
      Session.unguarded exec .operationalError [] (k r) c := by
  simp only [Session.unguarded, Prog.run, List.headD_nil, List.tail_nil, h]

/-- Only the last statement of an append changes anything. -/
theorem append_raised {eventId : Str} {payload : P} {c : Session Store} {e : PyErr}
    (h : (LedgerStore.append py eventId payload c).1 = .error e) :
    (LedgerStore.append py eventId payload c).2 = c := by
  unfold LedgerStore.append at h ⊢
  cases hp : payloadJson py payload with
  | error err =>
    have hraise : appendLedger py eventId payload = .raise err := by rw [appendLedger, hp]; rfl
    rw [hraise]
    rfl
  | ok t =>
    have hlast : exec .selectLastHash c.view = .ok (lastHash c.view.1.ledger, c.view) := rfl
    rw [appendLedger_stmts hp, unguarded_read hlast] at h ⊢
    cases hd : entryHash py ((lastHash c.view.1.ledger).getD genesisHash) eventId t with
    | error err => rfl
    | ok digest =>
      rw [hd] at h
      exact unguarded_insert_raised (fun r => ⟨r, rfl⟩) h

/-- A file call that raises has no effect. -/
theorem fileCall_raised {s : FileCall P} {v v' : Files} {e : PyErr} (h : s.perform py v = (.error e, v')) :
    v' = v := by
  cases s with
  | insertStaged eventId payloadText =>
    obtain ⟨hraise, rfl⟩ := Prod.mk.inj h
    have hsame := @unguarded_insert_raised _ (.insertOrIgnoreStaging eventId payloadText) .ret
      (fun r => ⟨r, rfl⟩) v.wal e hraise
    exact congrArg (fun wal => { v with wal := wal }) hsame
  | selectStaged eventId =>
    simp only [FileCall.perform] at h
    split at h <;> cases h
    rfl
  | selectPending => cases h
  | append eventId payload =>
    obtain ⟨hraise, rfl⟩ := Prod.mk.inj h
    exact congrArg (fun ledger => { v with ledger := ledger }) (append_raised hraise)
  | updateCommitted eventId =>
    simp only [FileCall.perform] at h
    split at h <;> cases h
    rfl
  | commitWal => cases h

/-! ## What is so between any two file calls -/

structure FilesInv (py : PyLib P) (v : Files) : Prop where
  texts : ∀ r ∈ v.wal.view.1.walStaging, Recoverable py (r.eventId, r.payload)
  idSorted : v.wal.view.1.walStaging.Pairwise fun a b => a.id < b.id
  idBound : ∀ r ∈ v.wal.view.1.walStaging, r.id ≤ v.wal.view.2.id
  distinct : (stagedIds v.wal.view.1).Nodup
  /-- what the open transaction of the WAL has changed -/
  marks : ∃ es, v.wal.view.1.walStaging = markAll es v.wal.durable.1.walStaging
  numbers : v.wal.view.2 = v.wal.durable.2
  settled : v.ledger.durable = v.ledger.view
  chain : ChainInv py v.ledger.view.1.ledger v.ledger.view.2.seq
  ledgered : (ledgerIds v.ledger.view.1).Nodup
  recorded : ∀ r ∈ v.wal.view.1.walStaging, r.committed = true →
    (r.eventId, r.payload) ∈ ledgerContent v.ledger.view.1

theorem filesInv_empty : FilesInv py .empty where
  texts := by simp [Files.empty, Db.empty]
  idSorted := .nil
  idBound := by simp [Files.empty, Db.empty]
  distinct := .nil
  marks := ⟨[], rfl⟩
  numbers := rfl
  settled := rfl
  chain := chainInv_nil 0
  ledgered := .nil
  recorded := by simp [Files.empty, Db.empty]

theorem mem_markAll {es : List Str} {rows : List StagingRow} {q : StagingRow} (hq : q ∈ rows) :
    ∃ r ∈ markAll es rows, r.eventId = q.eventId ∧ r.payload = q.payload ∧ r.id = q.id ∧
      (q.committed = true → r.committed = true) := by
  refine ⟨_, List.mem_map_of_mem hq, ?_⟩
  split
  · exact ⟨rfl, rfl, rfl, fun _ => rfl⟩
  · exact ⟨rfl, rfl, rfl, id⟩

theorem markAll_map {β : Type} {f : StagingRow → β} (hf : ∀ r : StagingRow, f { r with committed := true } = f r)
    (es : List Str) (rows : List StagingRow) : (markAll es rows).map f = rows.map f := by
  rw [markAll, List.map_map]
  refine List.map_congr_left fun r _ => ?_
  simp only [Function.comp_apply]
  split
  · exact hf r
  · rfl

namespace FilesInv
variable {v : Files} (h : FilesInv py v)
include h

theorem reopen : FilesInv py v.reopen := by
  obtain ⟨es, hes⟩ := h.marks
  have hrow : ∀ q ∈ v.wal.durable.1.walStaging, ∃ r ∈ v.wal.view.1.walStaging, r.eventId = q.eventId ∧
      r.payload = q.payload ∧ r.id = q.id ∧ (q.committed = true → r.committed = true) := by
    rw [hes]
    exact fun q hq => mem_markAll hq
  refine ⟨fun q hq => ?_, ?_, fun q hq => ?_, ?_, ⟨[], (markAll_nil _).symm⟩, rfl, rfl, ?_, ?_, fun q hq hc => ?_⟩
  · obtain ⟨r, hr, he, hp, -⟩ := hrow q hq
    rw [← he, ← hp]
    exact h.texts r hr
  · have hsorted := List.pairwise_map.2 h.idSorted
    rw [hes, markAll_map (fun _ => rfl)] at hsorted
    exact List.pairwise_map.1 hsorted
  · obtain ⟨r, hr, -, -, hid, -⟩ := hrow q hq
    have hbound := h.idBound r hr
    rw [hid, h.numbers] at hbound
    exact hbound
  · have hdistinct := h.distinct
    rw [stagedIds, hes, markAll_map (fun _ => rfl)] at hdistinct
    exact hdistinct
  · change ChainInv py v.ledger.durable.1.ledger v.ledger.durable.2.seq
    rw [h.settled]
    exact h.chain
  · change (ledgerIds v.ledger.durable.1).Nodup
    rw [h.settled]
    exact h.ledgered
  · change (q.eventId, q.payload) ∈ ledgerContent v.ledger.durable.1
    obtain ⟨r, hr, he, hp, -, hmarked⟩ := hrow q hq
    rw [h.settled, ← he, ← hp]
    exact h.recorded r hr (hmarked hc)

theorem insertStaged {e t : Str} (hrow : Recoverable py (e, t)) :
    FilesInv py { v with wal := ⟨staged v.wal.view e t, staged v.wal.view e t⟩ } where
  texts r hr := by
    simp only [staged] at hr
    split at hr
    · exact h.texts r hr
    · rcases List.mem_append.1 hr with hr | hr
      · exact h.texts r hr
      · rw [List.mem_singleton.1 hr]
        exact hrow
  idSorted := staged_idSorted h.idSorted h.idBound e t
  idBound := staged_idBound h.idBound e t
  distinct := staged_nodup h.distinct e t
  marks := ⟨[], (markAll_nil _).symm⟩
  numbers := rfl
  settled := h.settled
  chain := h.chain
  ledgered := h.ledgered
  recorded r hr hc := by
    simp only [staged] at hr
    split at hr
    · exact h.recorded r hr hc
    · rcases List.mem_append.1 hr with hr | hr
      · exact h.recorded r hr hc
      · rw [List.mem_singleton.1 hr] at hc
        cases hc

theorem append {e t : Str} (henc : (entryText (headHash v.ledger.view.1.ledger) e t).encodable = true)
    (hnew : ∀ q ∈ v.ledger.view.1.ledger, q.eventId ≠ e) :
    FilesInv py { v with ledger := ⟨appended py v.ledger.view e t, appended py v.ledger.view e t⟩ } where
  texts := h.texts
  idSorted := h.idSorted
  idBound := h.idBound
  distinct := h.distinct
  marks := h.marks
  numbers := h.numbers
  settled := rfl
  chain := chainInv_appended h.chain henc
  ledgered := appended_nodup py h.ledgered hnew t
  recorded r hr hc := by
    rw [ledgerContent_appended]
    exact List.mem_append_left _ (h.recorded r hr hc)

/-- A row of the ledger is marked in the WAL. -/
theorem updateCommitted {r : StagingRow} (hr : r ∈ v.wal.view.1.walStaging)
    (hledger : (r.eventId, r.payload) ∈ ledgerContent v.ledger.view.1) :
    FilesInv py { v with wal := { v.wal with view := committed v.wal.view r.eventId } } where
  texts q hq := by
    obtain ⟨q', hq', he, -, hp, -⟩ := mem_markCommitted hq
    rw [he, hp]
    exact h.texts q' hq'
  idSorted := marked_idSorted h.idSorted r.eventId
  idBound := marked_idBound h.idBound r.eventId
  distinct := by
    simp only [stagedIds, committed, markCommitted_eventIds]
    exact h.distinct
  marks := by
    obtain ⟨es, hes⟩ := h.marks
    refine ⟨es ++ [r.eventId], ?_⟩
    rw [← markAll_snoc, ← hes]
    rfl
  numbers := h.numbers
  settled := h.settled
  chain := h.chain
  ledgered := h.ledgered
  recorded q hq hc := by
    obtain ⟨q', hq', he, -, hp, hcommitted⟩ := mem_markCommitted hq
    rw [hcommitted, Bool.or_eq_true, decide_eq_true_eq] at hc
    rw [he, hp]
    rcases hc with hc | hsame
    · exact h.recorded q' hq' hc
    · rw [List.inj_on_of_nodup_map h.distinct hq' hr hsame]
      exact hledger

theorem commitWal : FilesInv py { v with wal := ⟨v.wal.view, v.wal.view⟩ } where
  texts := h.texts
  idSorted := h.idSorted
  idBound := h.idBound
  distinct := h.distinct
  marks := ⟨[], (markAll_nil _).symm⟩
  numbers := rfl
  settled := h.settled
  chain := h.chain
  ledgered := h.ledgered
  recorded := h.recorded

end FilesInv

/-! ## Calls, complete or not -/

/-- The WAL has the event with this text. -/
def InWal (v : Files) (x : Str × Str) : Prop :=
  ∃ r ∈ v.wal.view.1.walStaging, (r.eventId, r.payload) = x

section Along
variable {v : Files}

theorem inWal_committed (e : Str) {x : Str × Str} (h : InWal v x) :
    InWal { v with wal := { v.wal with view := committed v.wal.view e } } x := by
  obtain ⟨r, hr, rfl⟩ := h
  refine ⟨_, List.mem_map_of_mem hr, ?_⟩
  split <;> rfl

/-- A pending row is appended and marked. -/
theorem along_row {α : Type} {rest : WalProg P α} (h : FilesInv py v) {x : Str × Str} (hx : InWal v x)
    (hrest : ∀ v', FilesInv py v' → (∀ y, InWal v y → InWal v' y) →
      rest.Along (fileService py) () (FilesInv py) v') :
    (Prog.ofExcept (py.loads x.2) >>= fun payload => file (.append x.1 payload) >>= fun _ =>
      file (.updateCommitted x.1) >>= fun _ => rest).Along (fileService py) ()
        (FilesInv py) v := by
  obtain ⟨r, hr, rfl⟩ := hx
  obtain ⟨-, -, p, hl, hp⟩ := h.texts r hr
  refine Prog.along_ofExcept_bind _ h fun b hb => ?_
  cases hl.symm.trans hb
  refine ⟨h, fun _ v₁ h₁ => ?_, fun e v₁ h₁ => by rwa [fileCall_raised h₁]⟩
  obtain ⟨t, ht, henc, hnew, rfl⟩ := append_returned h₁
  cases ht.symm.trans hp
  have happend := h.append henc hnew
  refine ⟨happend, fun _ v₂ h₂ => ?_, fun e v₂ h₂ => by rwa [fileCall_raised h₂]⟩
  rw [updateCommitted_returned h₂]
  exact hrest _ (happend.updateCommitted hr (mem_ledgerContent_appended py _ _ _)) fun y hy =>
    inWal_committed r.eventId hy

theorem along_replayLoop {α : Type} {rest : WalProg P α} {rows : List (Str × Str)} (h : FilesInv py v)
    (hrows : ∀ x ∈ rows, InWal v x)
    (hrest : ∀ v', FilesInv py v' → rest.Along (fileService py) () (FilesInv py) v') :
    (replayLoop py rows >>= fun _ => rest).Along (fileService py) () (FilesInv py) v := by
  induction rows generalizing v with
  | nil => exact hrest v h
  | cons x rows ih =>
    obtain ⟨e, t⟩ := x
    simp only [replayLoop, Prog.bind_assoc]
    refine along_row (x := (e, t)) h (hrows (e, t) List.mem_cons_self) fun v' h' hkeep => ?_
    exact ih h' fun y hy => hkeep y (hrows y (List.mem_cons_of_mem _ hy))

theorem stagedText_mem {db : Db} {e t : Str} (h : stagedText db e = some t) :
    ∃ r ∈ db.walStaging, (r.eventId, r.payload) = (e, t) := by
  obtain ⟨r, hr, rfl⟩ := Option.map_eq_some_iff.1 h
  have hfound : r.eventId = e ∧ r.committed = false := by simpa using List.find?_some hr
  exact ⟨r, List.mem_of_find?_eq_some hr, Prod.ext hfound.1 rfl⟩

theorem along_commitWal {α : Type} {rest : WalProg P α} (h : FilesInv py v)
    (hrest : ∀ v', FilesInv py v' → rest.Along (fileService py) () (FilesInv py) v') :
    (file .commitWal >>= fun _ => rest).Along (fileService py) () (FilesInv py) v := by
  refine ⟨h, fun _ v' h' => ?_, fun e v' h' => by cases h'⟩
  cases h'
  exact hrest _ h.commitWal

/-- A payload of which json reads the text and writes it again as it is. -/
def Rewritten (py : PyLib P) (payload : P) : Prop :=
  ∀ t, payloadJson py payload = .ok t → ∃ q, py.loads t = .ok q ∧ payloadJson py q = .ok t

def WalCall.payloads : WalCall P → List P
  | .stage _ payload => [payload]
  | _ => []

theorem walCall_along (c : WalCall P) (h : FilesInv py v) (hpayloads : ∀ p ∈ c.payloads, Rewritten py p) :
    (c.prog py).Along (fileService py) () (FilesInv py) v := by
  cases c with
  | stage e payload =>
    refine Prog.along_ofExcept_bind _ h fun t ht => ⟨h, fun _ v' h' => ?_, fun err v' h' => by
      rwa [fileCall_raised h']⟩
    obtain ⟨he, henc, rfl⟩ := insertStaged_returned h'
    exact h.insertStaged ⟨he, henc, hpayloads payload List.mem_cons_self t ht⟩
  | commit e =>
    refine ⟨h, fun row v' h' => ?_, fun err v' h' => by rwa [fileCall_raised h']⟩
    simp only [FileCall.perform] at h'
    split at h'
    · cases h'
      cases hrow : stagedText v.wal.view.1 e with
      | none => exact h
      | some t =>
        refine along_row (x := (e, t)) h (stagedText_mem hrow) fun v' h' _ => ?_
        exact along_commitWal h' fun v'' h'' => h''
    · cases h'
  | replayPending =>
    refine ⟨h, fun rows v' h' => ?_, fun err v' h' => by cases h'⟩
    cases h'
    refine along_replayLoop h (fun x hx => ?_) fun v' h' => along_commitWal h' fun v'' h'' => h''
    obtain ⟨r, hr, -, hrx⟩ := mem_staged_pending.1 hx
    exact ⟨r, hr, hrx⟩

theorem FileRun.inv {events : List (FileEvent P)} (hrun : FileRun py events v)
    (hpayloads : ∀ event ∈ events, ∀ p ∈ event.walCall.payloads, Rewritten py p) : FilesInv py v := by
  induction hrun with
  | nil => exact filesInv_empty
  | @snoc events v event hrun ih =>
    have hv := ih fun event' hevent => hpayloads event' (List.mem_append_left _ hevent)
    have hlast := hpayloads event (List.mem_append_right _ List.mem_cons_self)
    cases event with
    | call c => exact (walCall_along c hv hlast).whole
    | crash n c => exact ((walCall_along c hv hlast).after n).reopen

end Along

/-! ## The replay -/

section Replay
variable {v v' : Files}

/-- A replay that returns has met no event of the ledger. -/
theorem replayLoop_unledgered {rows : List (Str × Str)} {u : Unit}
    (h : Prog.whole (fileService py) () (replayLoop py rows) v = (.ok u, v')) :
    ∀ x ∈ rows, x.1 ∉ ledgerIds v.ledger.view.1 := by
  induction rows generalizing v with
  | nil => exact fun x hx => (List.not_mem_nil hx).elim
  | cons x rows ih =>
    obtain ⟨e, t⟩ := x
    obtain ⟨-, t', -, -, -, hnew, h⟩ := row_returned h
    intro y hy hledgered
    rcases List.mem_cons.1 hy with rfl | hy
    · obtain ⟨q, hq, hqe⟩ := List.mem_map.1 hledgered
      exact hnew q hq hqe
    · refine ih h y hy ?_
      rw [ledgerIds_appended]
      exact List.mem_append_left _ hledgered

/-- Where no event is in the ledger yet, the loop appends and marks them all. -/
theorem replayLoop_eval {rows : List (Str × Str)} (h : FilesInv py v) (hrows : ∀ x ∈ rows, InWal v x)
    (hdistinct : (rows.map Prod.fst).Nodup) (hnew : ∀ x ∈ rows, x.1 ∉ ledgerIds v.ledger.view.1) :
    ∃ v', Prog.whole (fileService py) () (replayLoop py rows) v = (.ok (), v') ∧
      FilesInv py v' ∧
      v'.wal.view.1.walStaging = markAll (rows.map Prod.fst) v.wal.view.1.walStaging := by
  induction rows generalizing v with
  | nil => exact ⟨v, rfl, h, (markAll_nil _).symm⟩
  | cons x rows ih =>
    obtain ⟨r, hr, rfl⟩ := hrows x List.mem_cons_self
    obtain ⟨he, ht, p, hl, hp⟩ := h.texts r hr
    have htext : (entryText (headHash v.ledger.view.1.ledger) r.eventId r.payload).encodable = true := by
      simp only [encodable_entryText, h.chain.headHash_encodable, he, ht, Bool.and_self]
    have hfresh : ∀ q ∈ v.ledger.view.1.ledger, q.eventId ≠ r.eventId := fun q hq hqe =>
      hnew _ List.mem_cons_self (List.mem_map.2 ⟨q, hq, hqe⟩)
    have happend := h.append htext hfresh
    have hmark := happend.updateCommitted hr (mem_ledgerContent_appended py _ _ _)
    obtain ⟨hnot, hdistinct⟩ := List.nodup_cons.1 hdistinct
    obtain ⟨v', hwhole, hinv, hmarks⟩ := ih hmark
      (fun y hy => inWal_committed r.eventId (hrows y (List.mem_cons_of_mem _ hy))) hdistinct (by
        intro y hy hledgered
        rw [ledgerIds_appended, List.mem_append, List.mem_singleton] at hledgered
        rcases hledgered with hold | hsame
        · exact hnew y (List.mem_cons_of_mem _ hy) hold
        · exact hnot (List.mem_map.2 ⟨y, hy, hsame⟩))
    refine ⟨v', ?_, hinv, ?_⟩
    · simp only [replayLoop, hl, Prog.ofExcept_ok, Prog.ret_bind, Prog.query_bind]
      rw [Prog.whole_stmt_ok (fileService py) (append_eval hp htext hfresh),
        Prog.whole_stmt_ok (fileService py) (updateCommitted_eval he)]
      exact hwhole
    · rw [hmarks, List.map_cons, ← markAll_cons]
      rfl

/-- What a replay owes: everything is durable, no row of the WAL is left uncommitted, the ledger
verifies and has every staged event once, with its staged payload. -/
structure Replayed (py : PyLib P) (v v' : Files) : Prop where
  durable : v'.wal.durable = v'.wal.view ∧ v'.ledger.durable = v'.ledger.view
  committed : ∀ r ∈ v'.wal.durable.1.walStaging, r.committed = true
  verifies : v'.verifyIntegrity py = .ok true
  once : ∀ r ∈ v.wal.durable.1.walStaging,
    (v'.ledger.durable.1.ledger.filter fun q => q.eventId = r.eventId).map LedgerRow.payload = [r.payload]

/-- A key that occurs once. -/
theorem filter_key {α : Type} {f : α → Str} {l : List α} (hl : (l.map f).Nodup) {a : α} (ha : a ∈ l) :
    l.filter (fun q => f q = f a) = [a] := by
  induction l with
  | nil => cases ha
  | cons b l ih =>
    obtain ⟨hb, hl⟩ := List.nodup_cons.1 hl
    rcases List.mem_cons.1 ha with rfl | ha
    · have hnone : l.filter (fun q => f q = f a) = [] :=
        List.filter_eq_nil_iff.2 fun q hq hqa => hb (List.mem_map.2 ⟨q, hq, by simpa using hqa⟩)
      rw [List.filter_cons_of_pos (by simp), hnone]
    · have hne : f b ≠ f a := fun hba => hb (List.mem_map.2 ⟨a, ha, hba.symm⟩)
      rw [List.filter_cons_of_neg (by simpa using hne), ih hl ha]

/-- The files once all rows are marked. -/
theorem FilesInv.replayed (h : FilesInv py v) (hv' : FilesInv py v')
    (hmarks : v'.wal.view.1.walStaging = v.wal.view.1.walStaging.map StagingRow.marked) :
    Replayed py v { v' with wal := ⟨v'.wal.view, v'.wal.view⟩ } where
  durable := ⟨rfl, hv'.settled⟩
  committed := by
    rw [hmarks]
    intro r hr
    obtain ⟨q, -, rfl⟩ := List.mem_map.1 hr
    rfl
  verifies := by
    change Backend.verifyRows py genesisHash (orderBySeq v'.ledger.view.1.ledger) = _
    rw [orderBySeq_eq hv'.chain.sorted]
    exact verifyRows_true.2 ⟨hv'.chain.linked, hv'.chain.encodable⟩
  once := by
    intro r hr
    obtain ⟨es, hes⟩ := h.marks
    obtain ⟨q, hq, hqe, hqp, -⟩ := @mem_markAll es _ _ hr
    rw [← hes] at hq
    have hrecorded : (q.eventId, q.payload) ∈ ledgerContent v'.ledger.view.1 :=
      hv'.recorded q.marked (by rw [hmarks]; exact List.mem_map_of_mem hq) rfl
    obtain ⟨row, hrow, hcontent⟩ := List.mem_map.1 hrecorded
    obtain ⟨hid, hpayload⟩ := Prod.mk.inj hcontent
    change (v'.ledger.durable.1.ledger.filter fun q => q.eventId = r.eventId).map LedgerRow.payload = _
    rw [hv'.settled, ← hqe, ← hid, filter_key hv'.ledgered hrow, List.map_singleton, hpayload, hqp]

/-- **When the replay comes through.** After any calls and any crashes between them or inside them, the
replay included: `replay_pending` returns, and leaves what it owes, exactly if no event is uncommitted in
the WAL and in the ledger at once. -/
theorem replayPending_iff {events : List (FileEvent P)} (hrun : FileRun py events v)
    (hpayloads : ∀ event ∈ events, ∀ p ∈ event.walCall.payloads, Rewritten py p) :
    (∃ n v', WalCall.replayPending.perform py v = (.ok (some n), v') ∧ Replayed py v v') ↔
      ∀ e ∈ pendingIds v.wal.view.1, e ∉ ledgerIds v.ledger.view.1 := by
  have h := hrun.inv hpayloads
  rw [replayPending_perform, Prog.whole_bind]
  constructor
  · rintro ⟨n, v', hreturned, -⟩ e he
    split at hreturned
    · next u v₁ hloop =>
      obtain ⟨x, hx, rfl⟩ := List.mem_map.1 ((pending_map_fst_perm v.wal.view.1).mem_iff.2 he)
      exact replayLoop_unledgered hloop x hx
    · cases hreturned
  · intro hnew
    have hrows : ∀ x ∈ pending v.wal.view.1.walStaging, InWal v x := by
      intro x hx
      obtain ⟨r, hr, -, hrx⟩ := mem_staged_pending.1 hx
      exact ⟨r, hr, hrx⟩
    obtain ⟨v₁, hloop, hinv, hmarks⟩ := replayLoop_eval h hrows (pending_nodup h.distinct) fun x hx =>
      hnew x.1 ((pending_map_fst_perm v.wal.view.1).subset (List.mem_map_of_mem hx))
    rw [markAll_pending] at hmarks
    rw [hloop]
    exact ⟨_, _, rfl, h.replayed hinv hmarks⟩

end Replay

/-! ## Between the append and the mark -/

/-- The calls and crashes `events`, from `v` on. -/
def afterEvents (py : PyLib P) (v : Files) (events : List (FileEvent P)) : Files :=
  events.foldl (FileEvent.perform py) v

theorem FileRun.afterEvents {done : List (FileEvent P)} {v : Files} (hrun : FileRun py done v)
    (events : List (FileEvent P)) : FileRun py (done ++ events) (afterEvents py v events) := by
  induction events generalizing done v with
  | nil =>
    rw [List.append_nil]
    exact hrun
  | cons event events ih =>
    rw [List.append_cons]
    exact ih (.snoc event hrun)

theorem rewritten_empty : Rewritten PyLib.fixed (.obj []) := by
  intro t ht
  cases ht
  exact ⟨.obj [], rfl, rfl⟩

/-- An event is staged, and the commit dies after the append, or before it. -/
def diedAt (n : ℕ) : List (FileEvent Json) := [.call (.stage (lit "e") (.obj [])), .crash n (.commit (lit "e"))]

theorem diedAt_rewritten (n : ℕ) :
    ∀ event ∈ diedAt n, ∀ p ∈ event.walCall.payloads, Rewritten PyLib.fixed p := by
  intro event hevent p hp
  simp only [diedAt, List.mem_cons, List.not_mem_nil, or_false] at hevent
  rcases hevent with rfl | rfl
  · rw [List.mem_singleton.1 hp]
    exact rewritten_empty
  · cases hp

/-- The process dies before the append. -/
theorem replayPending_staged :
    ∃ n v', WalCall.replayPending.perform .fixed (afterEvents .fixed .empty (diedAt 1)) = (.ok (some n), v') ∧
      Replayed .fixed (afterEvents .fixed .empty (diedAt 1)) v' :=
  (replayPending_iff (FileRun.nil.afterEvents (diedAt 1)) (diedAt_rewritten 1)).2 (by decide +kernel)

/-- **After a crash between the append to the ledger and the mark in the WAL, every replay raises**, and
the event stays uncommitted. -/
theorem replayPending_stuck :
    (∀ event ∈ diedAt 2, ∀ p ∈ event.walCall.payloads, Rewritten PyLib.fixed p) ∧
    FileRun .fixed (diedAt 2) (afterEvents .fixed .empty (diedAt 2)) ∧
    (WalCall.replayPending.perform .fixed (afterEvents .fixed .empty (diedAt 2))).1 = .error .integrityError ∧
    pendingIds (WalCall.replayPending.perform .fixed (afterEvents .fixed .empty (diedAt 2))).2.wal.view.1 =
      [lit "e"] :=
  ⟨diedAt_rewritten 2, FileRun.nil.afterEvents (diedAt 2), by decide +kernel, by decide +kernel⟩

end LineageVault
