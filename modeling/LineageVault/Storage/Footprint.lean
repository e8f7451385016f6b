import LineageVault.Storage.Spec

/-! # What a statement reads and changes

A store is seen as its book (the idempotency rows and the ledger without its numbers) and a look at
the staging table (for each event, its payload and mark). The statements of the write path, except
the one that lists the pending events, depend on these alone: `exec_after` says what one does to
them, and `exec_agrees` that it does the same on any other store with the same book.
-/

namespace LineageVault
open Foundations
set_option autoImplicit false

/-- A ledger row without its number. -/
def LedgerRow.entry (r : LedgerRow) : Str × Str × Str × Str :=
  (r.eventId, r.payload, r.prevHash, r.entryHash)

abbrev Book := List IdempotencyRow × List (Str × Str × Str × Str)

def book (db : Db) : Book := (db.idempotency, db.ledger.map LedgerRow.entry)

abbrev Look := Str → Option (Str × Bool)

def look (db : Db) : Look := fun e =>
  (db.walStaging.find? fun r => r.eventId = e).map fun r => (r.payload, r.committed)

/-- The rows of the ledger stand in the order of their numbers, which were all handed out. -/
structure Sequenced (v : Store) : Prop where
  sorted : v.1.ledger.Pairwise fun a b => a.seq < b.seq
  bound : ∀ r ∈ v.1.ledger, r.seq ≤ v.2.seq

def Stmt.afterBook (s : Stmt) (b : Book) : Book :=
  match s with
  | .insertIdempotency key eventId now => (b.1 ++ [⟨key, eventId, now.text⟩], b.2)
  | .insertLedger eventId payload prevHash entryHash =>
    (b.1, b.2 ++ [(eventId, payload, prevHash, entryHash)])
  | _ => b

def Stmt.afterLook (s : Stmt) (l : Look) : Look :=
  match s with
  | .insertOrIgnoreStaging eventId payload => fun e =>
    if e = eventId then some ((l e).getD (payload, false)) else l e
  | .updateCommitted eventId => fun e =>
    if e = eventId then (l e).map fun x => (x.1, true) else l e
  | _ => l

/-- The statements whose reply depends on the book alone. -/
def Stmt.onBook : Stmt → Bool
  | .selectIdempotency _ _ => true
  | .insertIdempotency _ _ _ => true
  | .insertOrIgnoreStaging _ _ => true
  | .updateCommitted _ => true
  | .selectLastHash => true
  | .insertLedger _ _ _ _ => true
  | .selectInLedger _ => true
  | _ => false

/-! ## Looks -/

theorem look_append (db : Db) (row : StagingRow) (e : Str) :
    look { db with walStaging := db.walStaging ++ [row] } e =
      (look db e).or (if e = row.eventId then some (row.payload, row.committed) else none) := by
  simp only [look, List.find?_append]
  cases h : db.walStaging.find? fun r => r.eventId = e with
  | some r => rfl
  | none =>
    by_cases he : row.eventId = e
    · simp [he]
    · simp [he, Ne.symm he]

theorem look_mark (db : Db) (eventId e : Str) :
    look { db with walStaging := markCommitted eventId db.walStaging } e =
      if e = eventId then (look db e).map fun x => (x.1, true) else look db e := by
  simp only [look, markCommitted]
  induction db.walStaging with
  | nil => simp
  | cons r rows ih =>
    rw [List.map_cons]
    have hid : (if r.eventId = eventId then { r with committed := true } else r).eventId =
        r.eventId := by split <;> rfl
    by_cases he : r.eventId = e
    · rw [List.find?_cons_of_pos (by simpa [hid] using he), List.find?_cons_of_pos (by simpa using he)]
      by_cases hee : e = eventId
      · simp [hee, he]
      · simp [hee, he]
    · rw [List.find?_cons_of_neg (by simpa [hid] using he), List.find?_cons_of_neg (by simpa using he),
        ih]

theorem look_eq_none {db : Db} {e : Str} :
    look db e = none ↔ ∀ r ∈ db.walStaging, r.eventId ≠ e := by
  simp [look]

theorem look_staged (v : Store) (eventId payload : Str) :
    look (staged v eventId payload).1 =
      Stmt.afterLook (.insertOrIgnoreStaging eventId payload) (look v.1) := by
  funext e
  simp only [staged, Stmt.afterLook]
  by_cases hu : (v.1.walStaging.any fun q => q.eventId = eventId) = true
  · have hsome : look v.1 eventId ≠ none := by
      rw [Ne, look_eq_none]
      simpa using hu
    simp only [hu, if_true]
    by_cases he : e = eventId
    · subst he
      obtain ⟨x, hx⟩ := Option.ne_none_iff_exists'.1 hsome
      simp [hx]
    · simp [he]
  · have hnone : look v.1 eventId = none := by
      rw [look_eq_none]
      simpa using hu
    simp only [hu, if_false, Bool.false_eq_true, look_append]
    by_cases he : e = eventId
    · subst he
      simp [hnone]
    · simp [he]

theorem look_committed (v : Store) (eventId : Str) :
    look (committed v eventId).1 = Stmt.afterLook (.updateCommitted eventId) (look v.1) :=
  funext fun e => look_mark v.1 eventId e

/-! ## Statements -/

theorem Sequenced.mono {v : Store} (h : Sequenced v) {db : Db} {n : Numbers}
    (hl : db.ledger = v.1.ledger) (hn : v.2.seq ≤ n.seq) : Sequenced (db, n) :=
  ⟨by simpa only [hl] using h.sorted, fun r hr => (h.bound r (hl ▸ hr)).trans hn⟩

theorem Sequenced.headHash {v w : Store} (hv : Sequenced v) (hw : Sequenced w)
    (hb : book v.1 = book w.1) : lastHash v.1.ledger = lastHash w.1.ledger := by
  have hentries : v.1.ledger.map LedgerRow.entry = w.1.ledger.map LedgerRow.entry :=
    congrArg Prod.snd hb
  have hhash := congrArg (fun l => (l.map fun x : Str × Str × Str × Str => x.2.2.2).getLast?) hentries
  simp only [List.map_map] at hhash
  rw [lastHash, lastHash, orderBySeq_eq hv.sorted, orderBySeq_eq hw.sorted, ← List.getLast?_map,
    ← List.getLast?_map]
  exact hhash

/-- One statement, seen in the book and the look. -/
theorem exec_after {s : Stmt} (hs : s.onBook = true) {v w : Store} {r : Reply s} (hv : Sequenced v)
    (h : exec s v = .ok (r, w)) :
    Sequenced w ∧ book w.1 = s.afterBook (book v.1) ∧ look w.1 = s.afterLook (look v.1) := by
  cases s with
  | selectIdempotency limit keys => obtain rfl := exec_read rfl h; exact ⟨hv, rfl, rfl⟩
  | selectLastHash => obtain rfl := exec_read rfl h; exact ⟨hv, rfl, rfl⟩
  | selectInLedger e => obtain rfl := exec_read rfl h; exact ⟨hv, rfl, rfl⟩
  | insertIdempotency key e now =>
    obtain ⟨-, -, -, rfl⟩ := insertIdempotency_ok h
    exact ⟨hv.mono rfl le_rfl, rfl, rfl⟩
  | insertOrIgnoreStaging e t =>
    obtain ⟨-, -, hw⟩ := insertOrIgnoreStaging_ok h
    obtain rfl : w = staged v e t := hw
    exact ⟨hv.mono rfl le_rfl, rfl, look_staged v e t⟩
  | updateCommitted e =>
    obtain ⟨-, hw⟩ := updateCommitted_ok h
    obtain rfl : w = committed v e := hw
    exact ⟨hv.mono rfl le_rfl, rfl, look_committed v e⟩
  | insertLedger e p prev d =>
    obtain ⟨-, -, rfl⟩ := insertLedger_ok h
    refine ⟨⟨?_, ?_⟩, by simp [book, Stmt.afterBook, LedgerRow.entry], rfl⟩
    · refine List.pairwise_append.2 ⟨hv.sorted, List.pairwise_singleton .., fun a ha b hb => ?_⟩
      rw [List.mem_singleton.1 hb]
      exact Nat.lt_succ_of_le (hv.bound a ha)
    · intro r hr
      rcases List.mem_append.1 hr with hr | hr
      · exact (hv.bound r hr).trans (Nat.le_succ _)
      · rw [List.mem_singleton.1 hr]
  | _ => cases hs

theorem forall_entry {rows : List LedgerRow} {e : Str} :
    (∀ q ∈ rows, q.eventId ≠ e) ↔ ∀ x ∈ rows.map LedgerRow.entry, x.1 ≠ e := by
  simp [LedgerRow.entry]

theorem any_entry (rows : List LedgerRow) (e : Str) :
    (rows.any fun q => q.eventId = e) = (rows.map LedgerRow.entry).any fun x => x.1 = e := by
  rw [List.any_map]
  rfl

/-- The same statement gets the same reply on another store with the same book. -/
theorem exec_agrees {s : Stmt} (hs : s.onBook = true) {v w y : Store} {r : Reply s}
    (hv : Sequenced v) (hy : Sequenced y) (hb : book v.1 = book y.1) (h : exec s v = .ok (r, w)) :
    ∃ y', exec s y = .ok (r, y') := by
  have hi : v.1.idempotency = y.1.idempotency := congrArg Prod.fst hb
  have hl : v.1.ledger.map LedgerRow.entry = y.1.ledger.map LedgerRow.entry := congrArg Prod.snd hb
  cases s with
  | selectIdempotency limit keys =>
    obtain ⟨hk, rfl, -⟩ := selectIdempotency_ok h
    exact ⟨y, by rw [hi]; exact selectIdempotency_eval hk y⟩
  | selectLastHash =>
    obtain ⟨ws, n, he, -⟩ := exec_ok h
    cases he
    exact ⟨y, by rw [hv.headHash hy hb]; rfl⟩
  | selectInLedger e =>
    obtain ⟨ws, n, he, -⟩ := exec_ok h
    simp only [effect] at he
    split at he
    · next hk =>
      cases he
      refine ⟨y, ?_⟩
      rw [any_entry, hl, ← any_entry]
      simp only [exec, effect, hk, if_true]
      rfl
    · cases he
  | insertIdempotency key e now =>
    obtain ⟨hk, he, hnew, -⟩ := insertIdempotency_ok h
    exact ⟨_, exec_insertIdempotency hk he (hi ▸ hnew)⟩
  | insertOrIgnoreStaging e t =>
    obtain ⟨he, ht, -⟩ := insertOrIgnoreStaging_ok h
    exact ⟨_, exec_insertOrIgnoreStaging he ht⟩
  | updateCommitted e =>
    obtain ⟨he, -⟩ := updateCommitted_ok h
    exact ⟨_, exec_updateCommitted he⟩
  | insertLedger e p prev d =>
    obtain ⟨hbind, hnew, -⟩ := insertLedger_ok h
    refine ⟨_, exec_insertLedger hbind ?_⟩
    rw [forall_entry, ← hl, ← forall_entry]
    exact hnew
  | _ => cases hs

end LineageVault
