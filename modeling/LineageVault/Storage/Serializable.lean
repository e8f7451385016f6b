import LineageVault.Storage.Isolation

/-! # The PostgreSQL backends are serialisable

`Ordered` says how the log of the committed calls is put in a serial order. The calls that took the
lock are in it in the order of their commits. A staging call whose event is still pending (`left`)
waits until a call with the lock uses the event, and is put right before that call
(`Ordered.locked`); one that found its event (`noops`) changes nothing and comes last.
-/

namespace LineageVault
open Foundations
set_option autoImplicit false

variable {P : Type} {py : PyLib P} {t : PgTxn P} {n : ℕ} {g g' : Pg P n} {i : Fin n}

/-! ## The serial order -/

/-- The calls that take the lock, and empty batches. -/
def LedgerCall.writesLedger : LedgerCall P → Bool
  | .stagePartial _ _ => false
  | _ => true

def ledgerLog (log : List (LedgerCall P × Outcome)) : List (LedgerCall P × Outcome) :=
  log.filter fun x => x.1.writesLedger

structure Ordered (py : PyLib P) (db : Db) (log order : List (LedgerCall P × Outcome))
    (left noops : List (StagedCall py)) (x : Store) : Prop where
  serial : Serial py order x
  book_eq : book x.1 = book db
  look_eq : look x.1 = (look db).marked
  left_distinct : (left.map StagedCall.eventId).Nodup
  left_pending : ∀ e t, look db e = some (t, false) ↔ (e, t) ∈ left.map StagedCall.pair
  noops_there : ∀ c ∈ noops, c.eventId ∈ stagedIds db
  perm : log.Perm (order ++ (left ++ noops).map StagedCall.entry)
  inOrder : ledgerLog order = ledgerLog log
  answers : results order = results log

variable {db : Db} {log order : List (LedgerCall P × Outcome)} {left noops : List (StagedCall py)}
  {x : Store}

theorem ledgerLog_append (l l' : List (LedgerCall P × Outcome)) :
    ledgerLog (l ++ l') = ledgerLog l ++ ledgerLog l' := List.filter_append ..

theorem ledgerLog_stages (cs : List (StagedCall py)) : ledgerLog (cs.map StagedCall.entry) = [] := by
  refine List.filter_eq_nil_iff.2 fun x hx => ?_
  obtain ⟨c, -, rfl⟩ := List.mem_map.1 hx
  simp [StagedCall.entry, LedgerCall.writesLedger]

theorem marked_update {l : Look} {e t : Str} (h : l e = none) :
    Look.marked (Function.update l e (some (t, false))) = l.marked := by
  funext e'
  simp only [Look.marked]
  rcases update_cases l e (some (t, false)) e' with ⟨rfl, h'⟩ | ⟨-, h'⟩
  · rw [h', h]
    rfl
  · rw [h']

theorem Ordered.staged (h : Ordered py db log order left noops x) (c : StagedCall py) (id : ℕ)
    (hnew : c.eventId ∉ stagedIds db) :
    Ordered py (db.apply (.staging ⟨id, c.eventId, c.text, false⟩)) (log ++ [c.entry]) order
      (left ++ [c]) noops x := by
  have hlook := look_insert ⟨id, c.eventId, c.text, false⟩ hnew
  have hnone : look db c.eventId = none := not_not.1 fun hn => hnew (look_ne_none.1 hn)
  refine { h with
    look_eq := ?look_eq, left_distinct := ?left_distinct, left_pending := fun e t => ?left_pending,
    noops_there := fun c' hc' => ?noops_there, perm := ?perm, inOrder := ?inOrder,
    answers := ?answers }
  case look_eq => rw [h.look_eq, hlook, marked_update hnone]
  case left_distinct =>
    rw [List.map_append, List.map_singleton]
    refine List.nodup_append'.2 ⟨h.left_distinct, List.nodup_singleton _, List.disjoint_singleton.2 ?_⟩
    intro hmem
    obtain ⟨c', hc', he⟩ := List.mem_map.1 hmem
    have := (h.left_pending c'.eventId c'.text).2 (List.mem_map.2 ⟨c', hc', rfl⟩)
    rw [he, hnone] at this
    cases this
  case left_pending =>
    rw [hlook, List.map_append, List.mem_append, ← h.left_pending]
    rcases update_cases (look db) c.eventId (some (c.text, false)) e with ⟨rfl, h'⟩ | ⟨he, h'⟩
    · rw [h', hnone]
      simp [StagedCall.pair, eq_comm]
    · rw [h']
      simp [StagedCall.pair, he]
  case noops_there =>
    simpa [stagedIds, Db.apply] using .inl (by simpa [stagedIds] using h.noops_there c' hc')
  case perm =>
    refine (h.perm.append_right _).trans ?_
    rw [List.append_assoc]
    refine List.Perm.append_left order ?_
    have hcs : (left ++ noops ++ [c]).Perm (left ++ [c] ++ noops) := by
      rw [List.append_assoc, List.append_assoc]
      exact List.perm_append_comm.append_left left
    simpa only [List.map_append, List.map_singleton] using hcs.map StagedCall.entry
  case inOrder =>
    rw [ledgerLog_append, h.inOrder]
    exact (List.append_nil _).symm
  case answers =>
    rw [results_append, h.answers]
    exact (List.append_nil _).symm

theorem Ordered.found (h : Ordered py db log order left noops x) (c : StagedCall py)
    (hc : c.eventId ∈ stagedIds db) :
    Ordered py db (log ++ [c.entry]) order left (noops ++ [c]) x := by
  refine { h with
    noops_there := fun c' hc' => ?noops_there, perm := ?perm, inOrder := ?inOrder,
    answers := ?answers }
  case noops_there =>
    rcases List.mem_append.1 hc' with hc' | hc'
    · exact h.noops_there c' hc'
    · rwa [List.mem_singleton.1 hc']
  case perm =>
    simpa only [List.map_append, List.map_singleton, List.append_assoc] using h.perm.append_right [c.entry]
  case inOrder =>
    rw [ledgerLog_append, h.inOrder]
    exact (List.append_nil _).symm
  case answers =>
    rw [results_append, h.answers]
    exact (List.append_nil _).symm

/-- The entry of a call in its place in the order. -/
theorem perm_insert {log order cs rest : List (LedgerCall P × Outcome)}
    (h : log.Perm (order ++ (cs ++ rest))) (entry : LedgerCall P × Outcome) :
    (log ++ [entry]).Perm (order ++ cs ++ [entry] ++ rest) := by
  refine (h.append_right _).trans ?_
  simp only [List.append_assoc]
  exact (List.perm_append_comm.append_left cs).append_left order

theorem Ordered.empty (h : Ordered py db log order left noops x) (now : ClockText) :
    Ordered py db (log ++ [(.acknowledgeWritesBatch now [], .acks [])])
      (order ++ [(.acknowledgeWritesBatch now [], .acks [])]) left noops x where
  serial := .snoc h.serial rfl
  book_eq := h.book_eq
  look_eq := h.look_eq
  left_distinct := h.left_distinct
  left_pending := h.left_pending
  noops_there := h.noops_there
  perm := by simpa using perm_insert (show log.Perm (order ++ ([] ++ _)) from h.perm) _
  inOrder := by rw [ledgerLog_append, ledgerLog_append, h.inOrder]
  answers := by rw [results_append, results_append, h.answers]

theorem Ordered.locked (h : Ordered py db log order left noops x) {m : Numbers}
    {o : Outcome} (hheld : Held py (db, m) t) (hp : t.prog = .ret o) :
    ∃ (cs left' : List (StagedCall py)) (x' : Store),
      Ordered py (t.sees (db, m)).1 (log ++ [(t.call, o)])
        (order ++ cs.map StagedCall.entry ++ [(t.call, o)]) left' noops x' := by
  rcases hheld.stands with ⟨-, hp', -⟩ | ⟨seen, base, u, opens, hh⟩
  · cases hp.symm.trans hp'
  · rw [hp] at hh
    obtain ⟨hstart, hpend⟩ := hh.finish
    obtain ⟨cs, rest, hperm, hseen, hused, hrest⟩ :=
      exists_used h.left_distinct h.left_pending hh.base_db hh.rows
    have hdistinct := (hperm.map StagedCall.eventId).nodup_iff.1 h.left_distinct
    rw [List.map_append, List.nodup_append'] at hdistinct
    obtain ⟨x₁, hx₁, hbook₁, hlook₁, hpend₁⟩ :=
      h.serial.start hdistinct.1 h.look_eq hh.base_db hh.base_marked hused
    obtain ⟨y, hy, -, hbook, hlook⟩ := hstart x₁ (fun rs hrs => hpend₁.trans (hseen rs hrs))
      hx₁.sequenced (hbook₁.trans h.book_eq) hlook₁
    refine ⟨cs, rest, y, .snoc hx₁ hy, hbook, hlook, hdistinct.2.1,
      fun e t => (hpend e t).trans (hrest e t), fun c hc => ?_, ?_, ?_, ?_⟩
    · rw [PgTxn.sees, stagedIds_applyAll]
      exact List.mem_append_left _ (h.noops_there c hc)
    · have hsplit : ((left ++ noops).map StagedCall.entry).Perm
          (cs.map StagedCall.entry ++ (rest ++ noops).map StagedCall.entry) := by
        rw [← List.map_append, ← List.append_assoc]
        exact (hperm.append_right noops).map _
      exact perm_insert (h.perm.trans (hsplit.append_left order)) _
    · rw [ledgerLog_append, ledgerLog_append, ledgerLog_append, h.inOrder, ledgerLog_stages,
        List.append_nil]
    · rw [results_append, results_append, results_append, h.answers, results_stages, List.append_nil]

/-- The pending events that are left are staged last, in their order, and then what changes nothing. -/
theorem Ordered.complete (h : Ordered py db log order left noops x) (hd : (stagedIds db).Nodup) :
    ∃ full v, Serial py full v ∧ log.Perm full ∧ ledgerLog full = ledgerLog log ∧
      results full = results log ∧ book v.1 = book db ∧ look v.1 = look db ∧
      pending v.1.walStaging = pending db.walStaging := by
  have hpairs : (left.map StagedCall.pair).Perm (pending db.walStaging) := by
    refine (List.perm_ext_iff_of_nodup (.of_map Prod.fst ?_) (.of_map _ (pending_nodup hd))).2 fun y => ?_
    · rw [List.map_map]
      exact h.left_distinct
    · exact (h.left_pending y.1 y.2).symm.trans (mem_pending hd)
  obtain ⟨cs, hcs, hmap⟩ := exists_perm_map_eq hpairs
  obtain ⟨v, hv, hbook, hlook, hpend⟩ := h.serial.start ((hcs.map _).nodup_iff.2 h.left_distinct)
    h.look_eq (fun _ => .inr rfl) (fun _ _ h => h) fun e t => by rw [hmap, mem_pending hd]
  obtain ⟨w, hw, hsame⟩ := hv.stageKnown fun c (hc : c ∈ noops) => by
    rw [hlook]
    exact look_ne_none.2 (h.noops_there c hc)
  refine ⟨_, w, hw, h.perm.trans ?_, ?_, ?_, by rw [hsame, hbook, h.book_eq], by rw [hsame, hlook],
    by rw [hsame, hpend, hmap]⟩
  · rw [List.append_assoc, List.map_append]
    exact ((hcs.symm.map _).append_right _).append_left _
  · rw [ledgerLog_append, ledgerLog_append, ledgerLog_stages, ledgerLog_stages, List.append_nil,
      List.append_nil, h.inOrder]
  · rw [results_append, results_append, results_stages, results_stages, List.append_nil,
      List.append_nil, h.answers]

/-! ## Runs -/

theorem clients_init (n : ℕ) : Clients py (.init Db.empty Numbers.zero : Pg P n) where
  sequenced := ⟨.nil, by simp [ReadCommitted.Server.init, Db.empty]⟩
  distinct := .nil
  apart i t ht := by cases ht
  disjoint i j t t' _ ht := by cases ht
  standing i t ht := by cases ht

theorem ordered_empty : Ordered py Db.empty [] [] [] [] (Db.empty, Numbers.zero) where
  serial := .nil
  book_eq := rfl
  look_eq := rfl
  left_distinct := .nil
  left_pending e t := by simp [look, Db.empty]
  noops_there := by simp
  perm := .nil
  inOrder := rfl
  answers := rfl

theorem ordered_committed (h : Clients py g) (ho : Ordered py g.db g.log order left noops x)
    (ht : g.client i = some t) (hgo : t.waits = false) {o : Outcome} (hp : t.prog = .ret o) :
    ∃ order' left' noops' x', Ordered py (ReadCommitted.view (postgres py) g t)
      (g.log ++ [(t.call, o)]) order' left' noops' x' := by
  have hview : ∀ ws, t.own = ws → ReadCommitted.view (postgres py) g t = g.db.applyAll ws := by
    rintro _ rfl
    rfl
  rcases (h.standing i t ht).of_ret hgo hp with
    ⟨-, held⟩ | ⟨c, hc, id, own⟩ | ⟨c, hc, own, there⟩ | ⟨now, hc, rfl, own⟩
  · obtain ⟨cs, left', x', ho'⟩ := ho.locked held hp
    exact ⟨_, left', noops, x', ho'⟩
  · have hapart := h.apart i t ht
    rw [own] at hapart
    rw [hview _ own, hc]
    exact ⟨_, _, _, _, ho.staged c id (List.disjoint_singleton.1 (List.nodup_append'.1 hapart).2.2)⟩
  · rw [hview _ own, hc]
    exact ⟨_, _, _, _, ho.found c there⟩
  · rw [hview _ own, hc]
    exact ⟨_, _, _, _, ho.empty now⟩

theorem ordered_step {a : ReadCommitted.Action (LedgerCall P) Numbers n} (h : Clients py g)
    (ho : Ordered py g.db g.log order left noops x)
    (hs : ReadCommitted.step (postgres py) g a = some g') :
    ∃ order' left' noops' x', Ordered py g'.db g'.log order' left' noops' x' := by
  cases ReadCommitted.step_cases (postgres py) hs with
  | committed running goes done => exact ordered_committed h ho running goes done
  | _ => exact ⟨_, _, _, _, ho⟩

theorem PgReaches.ordered (h : PgReaches py g) : Clients py g ∧
    ∃ order left noops x, Ordered py g.db g.log order left noops x := by
  induction h with
  | init => exact ⟨clients_init n, _, _, _, _, ordered_empty⟩
  | step a _ hs ih =>
    obtain ⟨hc, _, _, _, _, ho⟩ := ih
    exact ⟨clients_step hc hs, ordered_step hc ho hs⟩

/-! ## What clients can observe -/

/-- A row of `wal_staging` without its number. -/
def StagingRow.shown (r : StagingRow) : Str × Str × Bool := (r.eventId, r.payload, r.committed)

/-- The same rows but for their numbers; pending events stand in the same order. -/
structure SameTables (db db' : Db) : Prop where
  idempotency : db.idempotency = db'.idempotency
  ledger : (orderBySeq db.ledger).map LedgerRow.entry = (orderBySeq db'.ledger).map LedgerRow.entry
  walStaging : (db.walStaging.map StagingRow.shown).Perm (db'.walStaging.map StagingRow.shown)
  pending : pending db.walStaging = pending db'.walStaging

theorem mem_shown {db : Db} (hd : (stagedIds db).Nodup) {e t : Str} {c : Bool} :
    (e, t, c) ∈ db.walStaging.map StagingRow.shown ↔ look db e = some (t, c) := by
  rw [look_eq_some hd, List.mem_map]
  simp only [StagingRow.shown, Prod.mk.injEq]

theorem shown_nodup {db : Db} (hd : (stagedIds db).Nodup) :
    (db.walStaging.map StagingRow.shown).Nodup := by
  refine .of_map Prod.fst ?_
  rw [List.map_map]
  exact hd

theorem sameTables {v w : Store} (hv : Sequenced v) (hw : Sequenced w)
    (hdv : (stagedIds v.1).Nodup) (hdw : (stagedIds w.1).Nodup) (hbook : book v.1 = book w.1)
    (hlook : look v.1 = look w.1) (hpend : pending v.1.walStaging = pending w.1.walStaging) :
    SameTables v.1 w.1 where
  idempotency := congrArg Prod.fst hbook
  ledger := by
    rw [orderBySeq_eq hv.sorted, orderBySeq_eq hw.sorted]
    exact congrArg Prod.snd hbook
  walStaging := (List.perm_ext_iff_of_nodup (shown_nodup hdv) (shown_nodup hdw)).2 fun y => by
    rw [mem_shown hdv, mem_shown hdw, hlook]
  pending := hpend

/-- The verifier reads the entries alone. -/
theorem verifyRows_congr {rows rows' : List LedgerRow} {prev : Str}
    (h : rows.map LedgerRow.entry = rows'.map LedgerRow.entry) :
    Backend.verifyRows py prev rows = Backend.verifyRows py prev rows' := by
  induction rows generalizing rows' prev with
  | nil =>
    obtain rfl := List.map_eq_nil_iff.1 h.symm
    rfl
  | cons row rows ih =>
    obtain ⟨row', rest, rfl, hrow, hrest⟩ := List.map_eq_cons_iff.1 h.symm
    simp only [LedgerRow.entry, Prod.mk.injEq] at hrow
    obtain ⟨he, hp, hprev, hd⟩ := hrow
    simp only [Backend.verifyRows, he, hp, hprev, hd, ih hrest.symm]

/-- **PostgreSQL backends are serialisable.** Any number of clients, any calls, any interleaving of
their statements, any transaction cut off anywhere: the committed ledger verifies, no key has two
acknowledgements that are no duplicates, and the committed calls with their results are those of a
serial run, in which the calls that take the lock stand in the order of their commits, and which
ends with the same tables. -/
theorem postgres_serialisable {g : Pg P n} (h : PgReaches py g) :
    verifyCommitted py g = .ok true ∧
      ((originals (results g.log)).map AcknowledgedWrite.idempotencyKey).Nodup ∧
      ∃ order v, Serial py order v ∧ g.log.Perm order ∧ ledgerLog order = ledgerLog g.log ∧
        SameTables v.1 g.db := by
  obtain ⟨hc, order, left, noops, x, ho⟩ := PgReaches.ordered h
  obtain ⟨full, v, hv, hperm, horder, hresults, hbook, hlook, hpend⟩ := ho.complete hc.distinct
  have hsame : SameTables v.1 g.db := sameTables (w := (g.db, g.numbers)) hv.sequenced hc.sequenced
    hv.journalInv.staged hc.distinct hbook hlook hpend
  refine ⟨?_, ?_, full, v, hv, hperm, horder, hsame⟩
  · rw [verifyCommitted, ← verifyRows_congr hsame.ledger]
    exact hv.chainInv.verifyIntegrity (b := Backend.opened v)
  · rw [← hresults]
    exact hv.oncePerKey.nodup

/-- Client 1 acknowledges `b` while client 0 stages `a`; then client 0 recovers. -/
def interleaved : List (ReadCommitted.Action (LedgerCall Json) Numbers 2) :=
  [.start 0 (.stagePartial (lit "a") (.obj [])),
    .start 1 (.acknowledgeWritesBatch .fixed [⟨lit "k", lit "b", .obj []⟩]),
    .lock 1, .advance 1, .advance 0, .advance 1, .advance 1, .advance 0, .advance 1, .advance 1,
    .advance 1, .advance 1, .start 0 .recoverUncommitted, .lock 0] ++ List.replicate 6 (.advance 0)

theorem interleaved_runs :
    (ReadCommitted.runs (postgres PyLib.fixed) (.init Db.empty Numbers.zero) interleaved).isSome = true := by
  decide

theorem postgres_serialisable_interleaved :
    ∃ g : Pg Json 2, PgReaches PyLib.fixed g ∧ g.db.ledger.map LedgerRow.eventId = [lit "b", lit "a"] ∧
      verifyCommitted PyLib.fixed g = .ok true ∧
      ∃ order v, Serial PyLib.fixed order v ∧ g.log.Perm order := by
  have hreach := ReadCommitted.Reaches.runs (postgres PyLib.fixed) .init
    (Option.some_get interleaved_runs).symm
  obtain ⟨hverify, -, order, v, hserial, hperm, -⟩ := postgres_serialisable hreach
  exact ⟨_, hreach, by decide, hverify, order, v, hserial, hperm⟩

end LineageVault
