import LineageVault.Foundations.Lockstep
import LineageVault.Storage.FreshKeys
import LineageVault.Wal.Recovery

/-! # `_WalFacade` and `_LedgerFacade` of `engine.py`

The same calls on the stand-alone files and on the facades over a new backend. The facade's `commit`
drops the staged payload and its callback: `ledger.append` is no dictionary, so it acknowledges the event
with `{}`, staged or not. `facade_matches_iff` says for which calls this makes no difference.
-/

namespace LineageVault
open Foundations
set_option autoImplicit false

/-! ## The calls -/

/-- A call, and what `now` the backend takes for it. -/
abbrev TimedCall := ClockText × WalCall Json

def filesStep (py : PyLib Json) (c : TimedCall) (v : Files) : Except PyErr (Option ℕ) × Files :=
  c.2.perform py v

/-- The methods of `_WalFacade`, with `ledger.append` as the callback. -/
def facadeStep (py : PyLib Json) : TimedCall → Backend → Except PyErr (Option ℕ) × Backend
  | (_, .stage eventId payload), b => (b.stagePartial py [] eventId payload).map (Except.map fun _ => none) id
  | (now, .commit eventId), b =>
    (b.acknowledgeWrite py [] now ⟨eventId, eventId, .obj []⟩).map (Except.map fun _ => none) id
  | (_, .replayPending), b => (b.recoverUncommitted py []).map (Except.map some) id

def filesShown (v : Files) : List (Str × Str) := ledgerContent v.ledger.view.1

def facadeShown (b : Backend) : List (Str × Str) := ledgerContent b.db

/-- A commit of a pending event, whose staged payload json reads as one that is written as `{}`, or of an
event that is not pending, with an earlier commit of it. -/
def Faithful (py : PyLib Json) (past : List TimedCall) (c : TimedCall) (v : Files) : Prop :=
  match c.2 with
  | .commit eventId =>
    match stagedText v.wal.view.1 eventId with
    | some payloadText => py.loads payloadText >>= payloadJson py = .ok (lit "\x7b\x7d")
    | none => ∃ now, (now, WalCall.commit eventId) ∈ past
  | _ => True

/-! ## The staged rows without their ids -/

def stagingContent (db : Db) : List (Str × Str × Bool) :=
  db.walStaging.map fun r => (r.eventId, r.payload, r.committed)

theorem stagedText_content (db : Db) (e : Str) :
    stagedText db e = ((stagingContent db).find? fun x => x.1 = e ∧ !x.2.2).map fun x => x.2.1 := by
  rw [stagedText, stagingContent, List.find?_map, Option.map_map]
  rfl

theorem pending_content {db : Db} (h : db.walStaging.Pairwise fun a b => a.id < b.id) :
    pending db.walStaging = ((stagingContent db).filter fun x => !x.2.2).map fun x => (x.1, x.2.1) := by
  rw [pending, orderById_eq (h.filter _), stagingContent, List.filter_map, List.map_map]
  rfl

theorem stagingContent_staged (v : Store) (e t : Str) :
    stagingContent (staged v e t).1 =
      if (stagingContent v.1).any fun x => x.1 = e then stagingContent v.1
      else stagingContent v.1 ++ [(e, t, false)] := by
  have hany : ((stagingContent v.1).any fun x => x.1 = e) = v.1.walStaging.any fun r => r.eventId = e := by
    rw [stagingContent, List.any_map]
    rfl
  rw [hany]
  simp only [staged]
  split
  · rfl
  · simp [stagingContent]

theorem stagingContent_committed (v : Store) (e : Str) :
    stagingContent (committed v e).1 =
      (stagingContent v.1).map fun x => (x.1, x.2.1, x.2.2 || decide (x.1 = e)) := by
  simp only [stagingContent, committed, markCommitted, List.map_map]
  refine List.map_congr_left fun r _ => ?_
  simp only [Function.comp_apply]
  split <;> simp [*]

theorem unledgered_content {db db' : Db} (h : ledgerContent db' = ledgerContent db) {e : Str}
    (hnew : ∀ q ∈ db.ledger, q.eventId ≠ e) : ∀ q ∈ db'.ledger, q.eventId ≠ e := by
  intro q hq hqe
  have hmem : (q.eventId, q.payload) ∈ ledgerContent db := h ▸ List.mem_map_of_mem hq
  obtain ⟨q', hq', hsame⟩ := List.mem_map.1 hmem
  exact hnew q' hq' ((Prod.mk.inj hsame).1.trans hqe)

/-! ## What the files and the tables have in common -/

section Mirrors
variable {py : PyLib Json}

structure Mirrors (py : PyLib Json) (v : Files) (u : Store) : Prop where
  rows : stagingContent u.1 = stagingContent v.wal.view.1
  entries : ledgerContent u.1 = ledgerContent v.ledger.view.1
  idSorted : v.wal.view.1.walStaging.Pairwise fun a b => a.id < b.id
  idBound : ∀ r ∈ v.wal.view.1.walStaging, r.id ≤ v.wal.view.2.id
  chain : ChainInv py u.1.ledger u.2.seq

variable {v : Files} {u : Store} (h : Mirrors py v u)
include h

theorem Mirrors.stage (e t : Str) :
    Mirrors py { v with wal := ⟨staged v.wal.view e t, staged v.wal.view e t⟩ } (staged u e t) where
  rows := by rw [stagingContent_staged, stagingContent_staged, h.rows]
  entries := h.entries
  idSorted := staged_idSorted h.idSorted h.idBound e t
  idBound := staged_idBound h.idBound e t
  chain := h.chain.mono (Nat.le_refl _)

theorem Mirrors.text {e t : Str}
    (ht : (entryText (headHash v.ledger.view.1.ledger) e t).encodable = true) :
    e.encodable = true ∧ (entryText (headHash u.1.ledger) e t).encodable = true := by
  simp only [encodable_entryText, Bool.and_eq_true] at ht ⊢
  exact ⟨ht.1.2, ⟨h.chain.headHash_encodable, ht.1.2⟩, ht.2⟩

/-- One event, ledgered and marked on both sides. -/
theorem Mirrors.ledgered {e t : Str}
    (ht : (entryText (headHash v.ledger.view.1.ledger) e t).encodable = true) :
    Mirrors py ⟨{ v.wal with view := committed v.wal.view e },
      ⟨appended py v.ledger.view e t, appended py v.ledger.view e t⟩⟩ (committed (appended py u e t) e) where
  rows := by
    rw [stagingContent_committed, stagingContent_committed, ← h.rows]
    rfl
  entries := by
    change ledgerContent (appended py u e t).1 = _
    rw [ledgerContent_appended, ledgerContent_appended, h.entries]
  idSorted := marked_idSorted h.idSorted e
  idBound := marked_idBound h.idBound e
  chain := chainInv_appended h.chain (h.text ht).2

/-- The same, where the tables take a key as well; the event is staged already. -/
theorem Mirrors.acknowledged {e t : Str} (now : ClockText) {item : BatchWriteItem Json} (he : item.eventId = e)
    (hstaged : e ∈ stagedIds u.1) (ht : (entryText (headHash v.ledger.view.1.ledger) e t).encodable = true) :
    Mirrors py ⟨⟨committed v.wal.view e, committed v.wal.view e⟩,
      ⟨appended py v.ledger.view e t, appended py v.ledger.view e t⟩⟩
      (LineageVault.acknowledged py u now item t) := by
  subst he
  obtain ⟨hrows, hentries, hsorted, hbound, -⟩ := h.ledgered ht
  refine ⟨?_, ?_, hsorted, hbound, chainInv_appended (v := keyed u now _ _) h.chain (h.text ht).2⟩
  · obtain ⟨r, hr, hre⟩ := List.mem_map.1 hstaged
    have hany : (u.1.walStaging.any fun r => r.eventId = item.eventId) = true :=
      List.any_eq_true.2 ⟨r, hr, decide_eq_true hre⟩
    rw [← hrows, stagingContent, stagingContent, acknowledged_walStaging]
    simp only [staged, hany, if_true]
    rfl
  · rw [← hentries]
    exact (ledgerContent_acknowledged ..).trans (ledgerContent_appended ..).symm

/-- A replay that comes through does on the tables what it did on the files. -/
theorem replayLoop_mirrored {rows : List (Str × Str)} {v' : Files}
    (hloop : Prog.whole (fileService py) () (replayLoop py rows) v = (.ok (), v')) (count : ℕ) :
    ∃ u', (recoverLoop py rows count).eval exec u = .ok (count + rows.length, u') ∧ Mirrors py v' u' := by
  induction rows generalizing v u count with
  | nil =>
    cases hloop
    exact ⟨u, rfl, h⟩
  | cons x rows ih =>
    obtain ⟨e, t⟩ := x
    obtain ⟨p, t', hl, hp, ht, hnew, hrest⟩ := row_returned hloop
    obtain ⟨u', hu, h'⟩ := ih (h.ledgered ht) hrest (count + 1)
    refine ⟨u', ?_, h'⟩
    rw [recoverLoop_row hl hp (h.text ht).2 (unledgered_content h.entries hnew), hu, List.length_cons]
    congr 2
    omega

end Mirrors

/-! ## One call -/

/-- The files and the facade's backend after the calls `past`. -/
structure Facing (py : PyLib Json) (past : List TimedCall) (v : Files) (b : Backend) : Prop where
  mirrors : Mirrors py v b.session.view
  reachable : Reachable py b
  ownKey : ∀ q ∈ b.db.idempotency, q.eventId = q.idempotencyKey
  keys : ∀ e, existingEvent b.db e ≠ none ↔ ∃ now, (now, WalCall.commit e) ∈ past

section Step
variable {py : PyLib Json} {past : List TimedCall} {now : ClockText} {v v' : Files} {b b' : Backend} {e : Str}

theorem facing_empty : Facing py [] .empty .empty where
  mirrors := ⟨rfl, rfl, .nil, by simp [Files.empty, Db.empty], chainInv_nil 0⟩
  reachable := ⟨[], .nil⟩
  ownKey := by simp [Backend.empty, Backend.opened, Backend.db, Db.empty]
  keys e := by simp [existingEvent, Backend.empty, Backend.opened, Backend.db, Db.empty]

/-- The calls that are no commits acknowledge nothing. -/
theorem Facing.next (h : Facing py past v b) {c : TimedCall} (hc : ∀ e, c.2 ≠ .commit e)
    (hmirrors : Mirrors py v' b'.session.view) (hreachable : Reachable py b')
    (hkeys : b'.db.idempotency = b.db.idempotency) : Facing py (past ++ [c]) v' b' where
  mirrors := hmirrors
  reachable := hreachable
  ownKey := by
    rw [hkeys]
    exact h.ownKey
  keys e := by
    rw [existingEvent, hkeys, ← existingEvent, h.keys e]
    refine exists_congr fun now => ?_
    rw [List.mem_append, List.mem_singleton]
    exact ⟨.inl, Or.rec id fun heq => (hc e (congrArg Prod.snd heq).symm).elim⟩

theorem Facing.stage (h : Facing py past v b) {p : Json} {r : Option ℕ}
    (hfiles : filesStep py (now, .stage e p) v = (.ok r, v')) :
    ∃ b', facadeStep py (now, .stage e p) b = (.ok r, b') ∧ Facing py (past ++ [(now, .stage e p)]) v' b' := by
  obtain ⟨t, hp, hrest⟩ := Prog.whole_ofExcept_bind_cases _ hfiles
  obtain ⟨_, v₁, hinsert, hrest⟩ := Prog.whole_stmt_cases _ hrest
  obtain ⟨he, ht, rfl⟩ := insertStaged_returned hinsert
  cases hrest
  have hstage : b.stagePartial py [] e p =
      (.ok (), { b with session := ⟨staged b.session.view e t, staged b.session.view e t⟩ }) := by
    simp only [Backend.stagePartial, hp]
    exact guarded_ok (Prog.eval_stmt_ok exec (exec_insertOrIgnoreStaging he ht))
  have hnext := h.reachable.stagePartial e p
  rw [hstage] at hnext
  refine ⟨_, ?_, h.next (by simp) (h.mirrors.stage e t) hnext rfl⟩
  rw [facadeStep, hstage]
  rfl

/-- A pending event is staged in the backend and was never acknowledged. -/
theorem Facing.unkeyed (h : Facing py past v b) {t : Str} (ht : stagedText v.wal.view.1 e = some t) :
    e ∈ stagedIds b.db ∧ existingEvent b.db e = none := by
  obtain ⟨log, hrun⟩ := h.reachable
  have hj := hrun.journalInv
  have hstaged : stagedText b.db e = some t := by rw [stagedText_content, h.mirrors.rows, ← stagedText_content, ht]
  obtain ⟨r, hr, -⟩ := Option.map_eq_some_iff.1 hstaged
  have hfound : r.eventId = e ∧ r.committed = false := by simpa using List.find?_some hr
  have hpending : e ∈ pendingIds b.db := mem_pendingIds.2 ⟨r, List.mem_of_find?_eq_some hr, hfound⟩
  refine ⟨List.mem_map.2 ⟨r, List.mem_of_find?_eq_some hr, hfound.1⟩,
    existingEvent_eq_none.2 fun q hq hqe => hj.pending_not_ledgered hpending ?_⟩
  rw [← hqe, ← h.ownKey q hq]
  exact hj.keyed q hq

theorem filesStep_commit {r : Option ℕ} (h : filesStep py (now, .commit e) v = (.ok r, v')) :
    r = none ∧ e.encodable = true ∧
      ((stagedText v.wal.view.1 e = none ∧ v' = v) ∨
      ∃ text t, stagedText v.wal.view.1 e = some text ∧ py.loads text >>= payloadJson py = .ok t ∧
        (entryText (headHash v.ledger.view.1.ledger) e t).encodable = true ∧
        (∀ q ∈ v.ledger.view.1.ledger, q.eventId ≠ e) ∧
        v' = ⟨⟨committed v.wal.view e, committed v.wal.view e⟩,
          ⟨appended py v.ledger.view e t, appended py v.ledger.view e t⟩⟩) := by
  obtain ⟨row, v₁, hselect, h⟩ := Prog.whole_stmt_cases _ h
  simp only [FileCall.perform] at hselect
  split at hselect
  · next he =>
    cases hselect
    have henc : e.encodable = true := by simpa [bindable] using he
    cases htext : stagedText v.wal.view.1 e with
    | none =>
      rw [htext] at h
      cases h
      exact ⟨rfl, henc, .inl ⟨rfl, rfl⟩⟩
    | some text =>
      rw [htext] at h
      obtain ⟨p, t, hl, hp, ht, hnew, h⟩ := row_returned h
      have hread : py.loads text >>= payloadJson py = .ok t := by
        rw [hl]
        exact hp
      obtain ⟨hr, hv'⟩ := Prod.mk.inj ((whole_commitWal none).symm.trans h)
      cases hr
      subst hv'
      exact ⟨rfl, henc, .inr ⟨text, t, rfl, hread, ht, hnew, rfl⟩⟩
  · cases hselect

/-- A commit that acknowledges the event, or finds it acknowledged. -/
theorem Facing.committed (h : Facing py past v b) {w : Store}
    (hfacade : facadeStep py (now, .commit e) b = (.ok none, { b with session := ⟨w, w⟩ }))
    (hmirrors : Mirrors py v' w)
    (hkeys : ∀ q, q ∈ w.1.idempotency → q ∈ b.db.idempotency ∨ q.eventId = e ∧ q.idempotencyKey = e)
    (hkeyed : ∀ e', existingEvent w.1 e' ≠ none ↔ existingEvent b.db e' ≠ none ∨ e' = e) :
    Facing py (past ++ [(now, .commit e)]) v' { b with session := ⟨w, w⟩ } where
  mirrors := hmirrors
  reachable := by
    have hnext := h.reachable.acknowledgeWrite now ⟨e, e, .obj []⟩
    have hsame := congrArg Prod.snd hfacade
    simp only [facadeStep, Prod.map_snd, id_eq] at hsame
    rwa [hsame] at hnext
  ownKey q hq := by
    rcases hkeys q hq with hold | ⟨he, hk⟩
    · exact h.ownKey q hold
    · rw [he, hk]
  keys e' := by
    have hafter := hkeyed e'
    rw [h.keys e'] at hafter
    change existingEvent w.1 e' ≠ none ↔ _
    rw [hafter]
    constructor
    · rintro (⟨now', hmem⟩ | rfl)
      · exact ⟨now', List.mem_append_left _ hmem⟩
      · exact ⟨now, List.mem_append_right _ (List.mem_singleton_self _)⟩
    · rintro ⟨now', hmem⟩
      rcases List.mem_append.1 hmem with hmem | hmem
      · exact .inl ⟨now', hmem⟩
      · cases List.mem_singleton.1 hmem
        exact .inr rfl

section Commit
variable (hempty : payloadJson py (.obj []) = .ok (lit "\x7b\x7d"))
include hempty

/-- A commit of an event that was never acknowledged, where it comes through. -/
theorem facade_commit_fresh (he : e.encodable = true) (hnone : existingEvent b.db e = none) {r : Option ℕ}
    (hfacade : facadeStep py (now, .commit e) b = (.ok r, b')) :
    ledgerContent b'.db = ledgerContent b.db ++ [(e, lit "\x7b\x7d")] := by
  rcases acknowledgeItem_cases py now ⟨e, e, .obj []⟩ b.session.view with ⟨t, hp, ha, -⟩ | ⟨hno, -⟩
  · cases hempty.symm.trans hp
    rw [facadeStep, acknowledgeWrite_fresh now he hnone hp ha] at hfacade
    cases hfacade
    exact ledgerContent_acknowledged ..
  · obtain ⟨err, herr⟩ : ∃ err, b.acknowledgeWrite py [] now ⟨e, e, .obj []⟩ =
        (.error err, { b with session := b.session.rollback }) := acknowledgeWrite_refused now py he hnone hno
    rw [facadeStep, herr] at hfacade
    cases hfacade

theorem Facing.commit (h : Facing py past v b) {r : Option ℕ}
    (hgood : Faithful py past (now, .commit e) v) (hfiles : filesStep py (now, .commit e) v = (.ok r, v')) :
    ∃ b', facadeStep py (now, .commit e) b = (.ok r, b') ∧ Facing py (past ++ [(now, .commit e)]) v' b' := by
  obtain ⟨rfl, henc, ⟨hnone, rfl⟩ | ⟨text, t, htext, hread, ht, hnew, rfl⟩⟩ := filesStep_commit hfiles
  · simp only [Faithful, hnone] at hgood
    have hkeyed := (h.keys e).2 hgood
    obtain ⟨e', he'⟩ := Option.ne_none_iff_exists'.1 hkeyed
    have hfacade : facadeStep py (now, .commit e) b =
        (.ok none, { b with session := ⟨b.session.view, b.session.view⟩ }) := by
      rw [facadeStep, acknowledgeWrite_known now py henc he']
      rfl
    refine ⟨_, hfacade, h.committed hfacade h.mirrors (fun q hq => .inl hq) fun e' => ⟨.inl, ?_⟩⟩
    rintro (hold | rfl)
    · exact hold
    · exact hkeyed
  · simp only [Faithful, htext, hread] at hgood
    cases hgood
    obtain ⟨hstaged, hnone⟩ := h.unkeyed htext
    have hkeys := existingEvent_eq_none.1 hnone
    have hadmits : Admits b.session.view (⟨e, e, .obj []⟩ : BatchWriteItem Json) (lit "\x7b\x7d") :=
      { key := henc
        text := (h.mirrors.text ht).2
        unkeyed := fun q hq => ⟨hkeys q hq, fun hqe => hkeys q hq ((h.ownKey q hq).symm.trans hqe)⟩
        unledgered := unledgered_content h.mirrors.entries hnew }
    have hack := acknowledgeWrite_fresh now henc hnone hempty hadmits
    have hfacade : facadeStep py (now, .commit e) b =
        (.ok none, (b.acknowledgeWrite py [] now ⟨e, e, .obj []⟩).2) := by
      rw [facadeStep, hack]
      rfl
    rw [hack] at hfacade
    refine ⟨_, hfacade, h.committed hfacade (h.mirrors.acknowledged now rfl hstaged ht) (fun q hq => ?_)
      fun e' => ?_⟩
    · rcases List.mem_append.1 hq with hold | hq
      · exact .inl hold
      · rw [List.mem_singleton.1 hq]
        exact .inr ⟨rfl, rfl⟩
    · simp only [existingEvent_ne_none, acknowledged_idempotency, List.mem_append, List.mem_singleton,
        or_and_right, exists_or, exists_eq_left]
      exact or_congr_right eq_comm

theorem facade_tells (h : Facing py past v b) {c : TimedCall} {r : Option ℕ} (hbad : ¬ Faithful py past c v)
    (hfiles : filesStep py c v = (.ok r, v')) (hfacade : facadeStep py c b = (.ok r, b')) :
    facadeShown b' ≠ filesShown v' := by
  obtain ⟨now, c⟩ := c
  cases c with
  | stage e p => exact (hbad trivial).elim
  | replayPending => exact (hbad trivial).elim
  | commit e =>
    obtain ⟨rfl, henc, ⟨hnone, rfl⟩ | ⟨text, t, htext, hread, -, -, rfl⟩⟩ := filesStep_commit hfiles
    · -- the facade makes up an entry
      simp only [Faithful, hnone] at hbad
      have hunkeyed : existingEvent b.db e = none := not_not.1 fun hne => hbad ((h.keys e).1 hne)
      rw [facadeShown, facade_commit_fresh hempty henc hunkeyed hfacade, filesShown, ← h.mirrors.entries]
      intro heq
      have hlen := congrArg List.length heq
      simp at hlen
    · simp only [Faithful, htext, hread] at hbad
      rw [facadeShown, facade_commit_fresh hempty henc (h.unkeyed htext).2 hfacade, filesShown,
        ledgerContent_appended, ← h.mirrors.entries]
      intro heq
      obtain ⟨-, hpair⟩ := List.append_inj' heq rfl
      simp only [List.cons.injEq, Prod.mk.injEq, true_and, and_true] at hpair
      exact hbad (congrArg Except.ok hpair.symm)

end Commit

theorem Facing.replayPending (h : Facing py past v b) {r : Option ℕ}
    (hfiles : filesStep py (now, .replayPending) v = (.ok r, v')) :
    ∃ b', facadeStep py (now, .replayPending) b = (.ok r, b') ∧
      Facing py (past ++ [(now, .replayPending)]) v' b' := by
  rw [filesStep, replayPending_perform] at hfiles
  obtain ⟨_, v₁, hloop, hreturned⟩ := Prog.whole_bind_cases _ hfiles
  cases hreturned
  obtain ⟨log, hrun⟩ := h.reachable
  obtain ⟨w, hw, hmirrors⟩ := replayLoop_mirrored h.mirrors hloop 0
  have hpending : pending b.db.walStaging = pending v.wal.view.1.walStaging := by
    rw [pending_content hrun.journalInv.idSorted, h.mirrors.rows, pending_content h.mirrors.idSorted]
  have heval : (recoverBody py).eval exec b.session.view =
      .ok (0 + (pending v.wal.view.1.walStaging).length, w) := by
    rw [← hpending] at hw ⊢
    exact (Prog.eval_stmt_ok exec rfl).trans hw
  have hrec : b.recoverUncommitted py [] =
      (.ok (pending v.wal.view.1.walStaging).length, { b with session := ⟨w, w⟩ }) := by
    rw [← Nat.zero_add (pending v.wal.view.1.walStaging).length]
    exact guarded_ok heval
  have hnext := h.reachable.recoverUncommitted
  rw [hrec] at hnext
  refine ⟨_, ?_, h.next (by simp) ⟨hmirrors.rows, hmirrors.entries, hmirrors.idSorted, hmirrors.idBound,
    hmirrors.chain⟩ hnext (recoverBody_frame heval).1⟩
  rw [facadeStep, hrec]
  rfl

theorem facing_step (hempty : payloadJson py (.obj []) = .ok (lit "\x7b\x7d")) {c : TimedCall} {r : Option ℕ}
    (h : Facing py past v b) (hgood : Faithful py past c v) (hfiles : filesStep py c v = (.ok r, v')) :
    ∃ b', facadeStep py c b = (.ok r, b') ∧ Facing py (past ++ [c]) v' b' := by
  obtain ⟨now, c⟩ := c
  cases c with
  | stage e p => exact h.stage hfiles
  | commit e => exact h.commit hempty hgood hfiles
  | replayPending => exact h.replayPending hfiles

end Step

/-! ## All calls -/

/-- The facade comes through the calls where the files do, with the same returned values and in the end the
same events with the same payloads in the same order. -/
abbrev FacadeMatches (py : PyLib Json) (calls : List TimedCall) : Prop :=
  Matches (filesStep py) (facadeStep py) filesShown facadeShown .empty .empty calls

/-- **When the facade stands in for the files.** Whatever calls the files come through, and whatever json
reads: the facade matches them after every call exactly if each commit is of a pending event that was
staged with `{}`, or repeats an earlier commit of an event that is not pending. -/
theorem facade_matches_iff (sha256 : Str → Digest) (loads : Str → Except PyErr Json)
    (limit : VariableLimit) {calls : List TimedCall}
    {rs : List (Option ℕ)} {v : Files}
    (hrun : runAll (filesStep (.json sha256 loads limit)) calls .empty = .ok (rs, v)) :
    (∀ before, before <+: calls → FacadeMatches (.json sha256 loads limit) before) ↔
      AllAlong (Faithful (.json sha256 loads limit)) (filesStep (.json sha256 loads limit)) [] calls .empty :=
  matches_iff (R := Facing (.json sha256 loads limit)) (fun h => h.mirrors.entries)
    (fun h hgood hfiles => facing_step rfl h hgood hfiles)
    (fun h hbad hfiles hfacade => facade_tells rfl h hbad hfiles hfacade) facing_empty hrun

/-! ## A staged payload -/

/-- `{"a": 1}` -/
def onePayload : Json := .obj [(lit "a", .int 1)]

def onePayloadLib : PyLib Json :=
  .json PyLib.fixed.sha256
    (fun text => .ok (if text = onePayload.dumps true then onePayload else .obj [])) .sqlite

/-- An event is staged and committed, and one with a payload replayed; the first is committed again. -/
def committedTwice : List TimedCall :=
  [(.fixed, .stage (lit "e") (.obj [])), (.fixed, .commit (lit "e")), (.fixed, .stage (lit "f") onePayload),
    (.fixed, .replayPending), (.fixed, .commit (lit "e"))]

/-- The files after the first `n` of these calls. -/
def committedTwiceAfter (n : ℕ) : Files :=
  (committedTwice.take n).foldl (fun v c => (filesStep onePayloadLib c v).2) .empty

theorem committedTwice_matches : FacadeMatches onePayloadLib committedTwice := by
  have hrun : runAll (filesStep onePayloadLib) committedTwice .empty =
      .ok ([none, none, none, some 1, none], committedTwiceAfter 5) := rfl
  have hstaged : stagedText (committedTwiceAfter 1).wal.view.1 (lit "e") = some (lit "\x7b\x7d") := by
    decide +kernel
  have hcommitted : stagedText (committedTwiceAfter 4).wal.view.1 (lit "e") = none := by decide +kernel
  refine (facade_matches_iff _ _ _ hrun).2 ⟨trivial, fun r v h => ?_⟩ committedTwice List.prefix_rfl
  obtain rfl : v = committedTwiceAfter 1 := (congrArg Prod.snd h).symm
  refine ⟨?first, fun r v h => ?_⟩
  case first =>
    simp only [Faithful, hstaged]
    decide +kernel
  obtain rfl : v = committedTwiceAfter 2 := (congrArg Prod.snd h).symm
  refine ⟨trivial, fun r v h => ?_⟩
  obtain rfl : v = committedTwiceAfter 3 := (congrArg Prod.snd h).symm
  refine ⟨trivial, fun r v h => ?_⟩
  obtain rfl : v = committedTwiceAfter 4 := (congrArg Prod.snd h).symm
  refine ⟨?second, fun r v h => trivial⟩
  simp only [Faithful, hcommitted]
  exact ⟨.fixed, by simp⟩

/-- **The facade's commit replaces the staged payload by the empty one.** -/
theorem facade_drops_payload :
    let calls : List TimedCall := [(.fixed, .stage (lit "e") onePayload), (.fixed, .commit (lit "e"))]
    (runAll (filesStep onePayloadLib) calls .empty).map (fun x => (x.1, filesShown x.2)) =
        .ok ([none, none], [(lit "e", onePayload.dumps true)]) ∧
      (runAll (facadeStep onePayloadLib) calls .empty).map (fun x => (x.1, facadeShown x.2)) =
        .ok ([none, none], [(lit "e", lit "\x7b\x7d")]) := by
  decide +kernel

end LineageVault
