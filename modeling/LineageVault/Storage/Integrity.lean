import LineageVault.Foundations.HashChain
import LineageVault.Storage.History

/-! # The hash chain of the ledger

`ChainInv` is the invariant inside and between transactions: the rows are linked from the genesis
hash, and their numbers increase up to the last one handed out. Every way a row gets into the ledger
is `appended`, which keeps it; `verify_integrity` answers True on it.
-/

namespace LineageVault
open Foundations
set_option autoImplicit false

variable {P : Type} {py : PyLib P}

def LedgerRow.link (r : LedgerRow) : Link Str (Str × Str) :=
  ⟨r.prevHash, (r.eventId, r.payload), r.entryHash⟩

structure ChainInv (py : PyLib P) (rows : List LedgerRow) (seq : ℕ) : Prop where
  sorted : rows.Pairwise fun a b => a.seq < b.seq
  bound : ∀ r ∈ rows, r.seq ≤ seq
  linked : HashChain.Linked (entryDigest py) genesisHash (rows.map LedgerRow.link)
  encodable : ∀ r ∈ rows, (entryText r.prevHash r.eventId r.payload).encodable = true

theorem chainInv_nil (seq : ℕ) : ChainInv py [] seq where
  sorted := .nil
  bound := by simp
  linked := trivial
  encodable := by simp

theorem ChainInv.mono {rows : List LedgerRow} {seq seq' : ℕ} (h : ChainInv py rows seq)
    (hle : seq ≤ seq') : ChainInv py rows seq' :=
  ⟨h.sorted, fun r hr => (h.bound r hr).trans hle, h.linked, h.encodable⟩

/-- `_last_hash` reads the head of the chain. -/
theorem ChainInv.headHash {rows : List LedgerRow} {seq : ℕ} (h : ChainInv py rows seq) :
    headHash rows = HashChain.headFrom genesisHash (rows.map LedgerRow.link) := by
  rw [LineageVault.headHash, lastHash, orderBySeq_eq h.sorted, HashChain.headFrom, List.getLast?_map,
    Option.map_map]
  rfl

theorem ChainInv.headHash_encodable {rows : List LedgerRow} {seq : ℕ} (h : ChainInv py rows seq) :
    (LineageVault.headHash rows).encodable = true := by
  rw [h.headHash]
  exact HashChain.linked_headFrom (Q := fun d => Str.encodable d = true) _ (fun _ _ => digest_encodable _)
    genesisHash_encodable h.linked

theorem ChainInv.prevHash_length {rows : List LedgerRow} {seq : ℕ} (h : ChainInv py rows seq)
    {r : LedgerRow} (hr : r ∈ rows) : r.prevHash.length = 64 :=
  HashChain.linked_prev (l := r.link) _ (Q := fun d => d.length = 64) (fun _ _ => (py.sha256 _).length)
    genesisHash_length h.linked (List.mem_map_of_mem hr)

theorem ChainInv.entryHash_eq {rows : List LedgerRow} {seq : ℕ} (h : ChainInv py rows seq)
    {r : LedgerRow} (hr : r ∈ rows) : r.entryHash = entryDigest py r.prevHash (r.eventId, r.payload) :=
  HashChain.linked_digest _ h.linked (List.mem_map_of_mem hr)

theorem chainInv_concat {rows : List LedgerRow} {seq : ℕ} (h : ChainInv py rows seq)
    {row : LedgerRow} (hseq : row.seq = seq + 1) (hprev : row.prevHash = headHash rows)
    (hhash : row.entryHash = entryDigest py row.prevHash (row.eventId, row.payload))
    (henc : (entryText row.prevHash row.eventId row.payload).encodable = true) :
    ChainInv py (rows ++ [row]) (seq + 1) where
  sorted := by
    refine List.pairwise_append.2 ⟨h.sorted, List.pairwise_singleton .., fun a ha b hb => ?_⟩
    rw [List.mem_singleton.1 hb, hseq]
    exact Nat.lt_succ_of_le (h.bound a ha)
  bound := by
    intro r hr
    rcases List.mem_append.1 hr with hr | hr
    · exact (h.bound r hr).trans (Nat.le_succ _)
    · rw [List.mem_singleton.1 hr, hseq]
  linked := by
    rw [List.map_append, List.map_singleton, HashChain.linked_concat]
    exact ⟨h.linked, hprev.trans h.headHash, hhash⟩
  encodable := by
    intro r hr
    rcases List.mem_append.1 hr with hr | hr
    · exact h.encodable r hr
    · rwa [List.mem_singleton.1 hr]

theorem chainInv_appended {v : Store} {eventId payloadText : Str}
    (h : ChainInv py v.1.ledger v.2.seq)
    (henc : (entryText (headHash v.1.ledger) eventId payloadText).encodable = true) :
    ChainInv py (appended py v eventId payloadText).1.ledger (appended py v eventId payloadText).2.seq :=
  chainInv_concat h rfl rfl rfl henc

/-! ## Programs -/

theorem chainInv_acknowledgeLoop {now : ClockText} {items : List (BatchWriteItem P)} {v w : Store}
    {existing : List (Str × Str)} {results rs : List AcknowledgedWrite}
    (hv : ChainInv py v.1.ledger v.2.seq)
    (h : (acknowledgeLoop py now items existing results).eval exec v = .ok (rs, w)) :
    ChainInv py w.1.ledger w.2.seq := by
  obtain ⟨_, hJ⟩ := acknowledgeLoop_keeps
    (J := fun _ v _ _ => ChainInv py v.1.ledger v.2.seq)
    (fun _ _ _ _ _ _ hJ _ => hJ)
    (fun _ _ _ _ _ _ hJ _ _ ha => chainInv_appended (v := committed _ _) hJ ha.text)
    [] hv h
  exact hJ

theorem chainInv_recoverLoop {rows : List (Str × Str)} {count n : ℕ} {v w : Store}
    (hv : ChainInv py v.1.ledger v.2.seq)
    (h : (recoverLoop py rows count).eval exec v = .ok (n, w)) : ChainInv py w.1.ledger w.2.seq :=
  recoverLoop_keeps (J := fun _ v _ => ChainInv py v.1.ledger v.2.seq)
    (fun _ _ _ _ _ hJ _ => hJ)
    (fun _ _ _ _ _ _ _ hJ _ _ henc _ => chainInv_appended hJ henc)
    hv h

/-- One call of any kind, returning or raising. -/
theorem chainInv_step {b b' : Backend} {c : Call P} {o : Outcome}
    (hb : ChainInv py b.db.ledger b.session.view.2.seq) (h : JournalStep py b c o b') :
    ChainInv py b'.db.ledger b'.session.view.2.seq := by
  cases h with
  | raised e settled same =>
    obtain ⟨-, hl, -, hn⟩ := journal_ext.1 same
    rwa [Backend.db, hl, hn]
  | other noItems settled same =>
    obtain ⟨-, hl, -, hn⟩ := journal_ext.1 same
    rwa [Backend.db, hl, hn]
  | skipped seq id => exact hb.mono (Nat.le_add_right _ _)
  | emptyBatch now => exact hb
  | stage text eval =>
    obtain ⟨-, -, rfl⟩ := stageBody_ok eval
    exact hb
  | acknowledge ack eval => exact chainInv_acknowledgeLoop hb (acknowledgeBody_cases eval)
  | recover eval => exact chainInv_recoverLoop hb (recoverBody_cases eval)

theorem Run.chainInv {log : List (Call P × Outcome)} {b : Backend} (h : Run py log b) :
    ChainInv py b.db.ledger b.session.view.2.seq := by
  induction h with
  | nil => exact chainInv_nil 0
  | snoc c fs hrun ih => exact chainInv_step ih (perform_cases c fs hrun.settled)

/-! ## The verifier -/

/-- The loop answers True exactly on the chains of encodable rows. -/
theorem verifyRows_true {g : Str} {rows : List LedgerRow} :
    Backend.verifyRows py g rows = .ok true ↔
      HashChain.Linked (entryDigest py) g (rows.map LedgerRow.link) ∧
        ∀ r ∈ rows, (entryText r.prevHash r.eventId r.payload).encodable = true := by
  induction rows generalizing g with
  | nil => simp [Backend.verifyRows, HashChain.Linked]
  | cons row rows ih =>
    rw [Backend.verifyRows, List.map_cons, HashChain.Linked, List.forall_mem_cons]
    by_cases hprev : row.prevHash = g
    · rw [if_neg (not_not.2 hprev)]
      by_cases henc : (entryText row.prevHash row.eventId row.payload).encodable = true
      · rw [entryHash_eq py henc]
        by_cases hd : entryDigest py row.prevHash (row.eventId, row.payload) = row.entryHash
        · have hlink : row.link.digest = entryDigest py row.link.prev row.link.body := hd.symm
          simp only [hd, not_true_eq_false, if_false, ne_eq, ih]
          exact ⟨fun h => ⟨⟨hprev, hlink, h.1⟩, henc, h.2⟩, fun h => ⟨h.1.2.2, h.2.2⟩⟩
        · simp only [ne_eq, hd, not_false_eq_true, if_true, LedgerRow.link]
          simp [Ne.symm hd]
      · have he : entryHash py row.prevHash row.eventId row.payload = .error .unicodeEncodeError := by
          simp only [Bool.not_eq_true] at henc
          simp only [entryHash, Str.encode, henc, Bool.false_eq_true, if_false]
          rfl
        simp [he, henc]
    · simp [hprev, LedgerRow.link]

theorem ChainInv.verifyIntegrity {b : Backend} {seq : ℕ} (h : ChainInv py b.db.ledger seq) :
    b.verifyIntegrity py = .ok true := by
  rw [Backend.verifyIntegrity, orderBySeq_eq h.sorted]
  exact verifyRows_true.2 ⟨h.linked, h.encodable⟩

/-- **The ledger always verifies.** After any history of calls, returning or raising, with any
schedule of failures and any reopenings: `verify_integrity` is True, and the rows ordered by `seq`
are the chain it checks. -/
theorem verifyIntegrity_reachable {b : Backend} (h : Reachable py b) :
    b.verifyIntegrity py = .ok true ∧
      (∀ r, (orderBySeq b.db.ledger).head? = some r → r.prevHash = genesisHash) ∧
      (∀ i r r', (orderBySeq b.db.ledger)[i]? = some r → (orderBySeq b.db.ledger)[i + 1]? = some r' →
        r'.prevHash = r.entryHash) ∧
      ∀ r ∈ orderBySeq b.db.ledger, entryHash py r.prevHash r.eventId r.payload = .ok r.entryHash := by
  obtain ⟨log, hrun⟩ := h
  have hc := hrun.chainInv
  refine ⟨hc.verifyIntegrity, ?_⟩
  rw [orderBySeq_eq hc.sorted]
  refine ⟨fun r hr => ?_, fun i r r' hr hr' => ?_, fun r hr => ?_⟩
  · exact HashChain.linked_head (l := r.link) _ hc.linked (by rw [List.head?_map, hr]; rfl)
  · exact HashChain.linked_next (l := r.link) (m := r'.link) _ hc.linked
      (by rw [List.getElem?_map, hr]; rfl) (by rw [List.getElem?_map, hr']; rfl)
  · rw [entryHash_eq py (hc.encodable r hr)]
    exact congrArg Except.ok (HashChain.linked_digest _ hc.linked (List.mem_map_of_mem hr)).symm

/-- A staged event, an acknowledgement of two items, one that raises on a used event id, a recovery
and a reopening. -/
theorem verifyIntegrity_reachable_run :
    let py := PyLib.fixed
    let now := ClockText.fixed
    let b := (history py [] .empty
      [(.stagePartial (lit "a") (.obj []), []),
        (.acknowledgeWritesBatch now [⟨lit "k", lit "b", .null⟩, ⟨lit "l", lit "c", .null⟩], []),
        (.acknowledgeWrite now ⟨lit "m", lit "c", .null⟩, []), (.recoverUncommitted, []),
        (.reopen, [])]).2
    b.db.ledger.map LedgerRow.eventId = [lit "b", lit "c", lit "a"] ∧
      b.verifyIntegrity py = .ok true :=
  ⟨by decide, (verifyIntegrity_reachable ⟨_, Run.nil.history _⟩).1⟩

end LineageVault
