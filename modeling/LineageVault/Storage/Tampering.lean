import LineageVault.Storage.HeadCommitment

/-! # What `verify_integrity` detects

A ledger somebody changed behind the back of the backend. Rows that were removed, repeated or put
into another order are noticed unless the rows left are the first ones (`verifyRows_prefix`).

Other texts in the columns `event_id` and `payload` are noticed unless they give the hash the same
text to read (`rewritten_detected`). The text separates the columns by a bar and a column may hold
bars itself, so the columns can be cut at another bar (`Recut`); this is not noticed.
-/

namespace LineageVault
open Foundations
set_option autoImplicit false

variable {P : Type} {py : PyLib P}

/-! ## Answers -/

/-- The loop raises only on a text that cannot be encoded. -/
theorem verifyRows_answers (py : PyLib P) {rows : List LedgerRow} (henc : ∀ r ∈ rows, r.text.encodable = true) (g : Str) :
    ∃ a, Backend.verifyRows py g rows = .ok a := by
  induction rows generalizing g with
  | nil => exact ⟨true, rfl⟩
  | cons row rows ih =>
    have hrow : (entryText row.prevHash row.eventId row.payload).encodable = true :=
      henc row List.mem_cons_self
    rw [Backend.verifyRows, entryHash_eq py hrow]
    split
    · exact ⟨false, rfl⟩
    · dsimp only
      split
      · exact ⟨false, rfl⟩
      · exact ih (fun r hr => henc r (List.mem_cons_of_mem _ hr)) _

theorem verifyRows_false {rows : List LedgerRow} (henc : ∀ r ∈ rows, r.text.encodable = true) (g : Str) :
    Backend.verifyRows py g rows = .ok false ↔
      ¬ HashChain.Linked (entryDigest py) g (rows.map LedgerRow.link) := by
  have htrue : Backend.verifyRows py g rows = .ok true ↔
      HashChain.Linked (entryDigest py) g (rows.map LedgerRow.link) :=
    verifyRows_true.trans (and_iff_left henc)
  rw [← htrue]
  obtain ⟨a, ha⟩ := verifyRows_answers py henc g
  rw [ha]
  cases a <;> simp

/-! ## Rows removed, repeated and reordered -/

theorem prefix_map_iff {α β : Type} {f : α → β} {xs ys : List α}
    (hinj : ∀ a ∈ xs, ∀ b ∈ ys, f a = f b → a = b) : xs.map f <+: ys.map f ↔ xs <+: ys := by
  constructor
  · intro h
    rw [List.prefix_iff_getElem?] at h ⊢
    intro i hi
    have hf := h i (by simpa using hi)
    rw [List.getElem?_map, List.getElem_map] at hf
    obtain ⟨b, hb, hfb⟩ := Option.map_eq_some_iff.1 hf
    rw [hb, hinj _ (List.getElem_mem hi) b (List.mem_of_getElem? hb) hfb.symm]
  · exact fun h => h.map f

/-- **A subset, a repetition or a permutation of the ledger verifies only if it is a prefix.** For
any rows of the ledger in any order, the loop of `verify_integrity` answers whether they are the
first rows, if SHA-256 does not confuse the texts of the ledger and takes none of them to the genesis
hash. -/
theorem verifyRows_prefix {b : Backend} (h : Reachable py b)
    (hinj : ∀ r ∈ b.db.ledger, ∀ r' ∈ b.db.ledger,
      (py.sha256 r.text).text = (py.sha256 r'.text).text → r.text = r'.text)
    (hgen : ∀ r ∈ b.db.ledger, (py.sha256 r.text).text ≠ genesisHash)
    {rows : List LedgerRow} (hrows : ∀ r ∈ rows, r ∈ b.db.ledger) :
    Backend.verifyRows py genesisHash rows = .ok (decide (rows <+: orderBySeq b.db.ledger)) := by
  obtain ⟨log, hrun⟩ := h
  have hc := hrun.chainInv
  have henc : ∀ r ∈ rows, r.text.encodable = true := fun r hr => hc.encodable r (hrows r hr)
  have hlinked : HashChain.Linked (entryDigest py) genesisHash (rows.map LedgerRow.link) ↔
      rows.map LedgerRow.link <+: b.db.ledger.map LedgerRow.link := by
    refine HashChain.linked_iff_prefix _ hc.linked ?_ ?_ ?_
    · simp only [List.forall_mem_map]
      intro r hr r' hr' he
      have htext := hinj r hr r' hr' (((hc.entryHash_eq hr).symm.trans he).trans (hc.entryHash_eq hr'))
      -- the digests before the first bar have one length
      exact (List.append_inj htext ((hc.prevHash_length hr).trans (hc.prevHash_length hr').symm)).1
    · simp only [List.forall_mem_map]
      intro r hr he
      exact hgen r hr ((hc.entryHash_eq hr).symm.trans he)
    · simp only [List.forall_mem_map]
      exact fun r hr => List.mem_map_of_mem (hrows r hr)
  have hpre_iff : rows.map LedgerRow.link <+: b.db.ledger.map LedgerRow.link ↔ rows <+: b.db.ledger := by
    refine prefix_map_iff fun r hr r' hr' he => ?_
    exact List.inj_on_of_nodup_map hrun.journalInv.ledgered (hrows r hr) hr'
      (congrArg (fun l => l.body.1) he)
  rw [orderBySeq_eq hc.sorted]
  by_cases hpre : rows <+: b.db.ledger
  · rw [decide_eq_true hpre]
    exact verifyRows_true.2 ⟨hlinked.2 (hpre_iff.2 hpre), henc⟩
  · rw [decide_eq_false hpre]
    exact (verifyRows_false henc genesisHash).2 fun hl => hpre (hpre_iff.1 (hlinked.1 hl))

/-- Of a ledger of two, the second row alone, and the first row twice. -/
theorem verifyRows_prefix_two :
    let digit : (c : CodePoint) → (c ∈ lit "0123456789abcdef") → Digest := Digest.repeated
    let one := digit (.scalar '1') (by decide)
    let sha256 : Str → Digest := fun t =>
      if t = entryText genesisHash (lit "a") (lit "\x7b\x7d") then one else digit (.scalar '2') (by decide)
    let py := PyLib.json sha256 (fun _ => .ok (.obj [])) .sqlite
    let b := (history py [] .empty [(.acknowledgeWritesBatch .fixed
      [⟨lit "k", lit "a", .obj []⟩, ⟨lit "l", lit "b", .obj []⟩], [])]).2
    let twice := b.db.ledger.take 1 ++ b.db.ledger.take 1
    b.db.ledger.length = 2 ∧
      Backend.verifyRows py genesisHash b.db.ledger.tail =
        .ok (decide (b.db.ledger.tail <+: orderBySeq b.db.ledger)) ∧
      Backend.verifyRows py genesisHash twice = .ok (decide (twice <+: orderBySeq b.db.ledger)) :=
  ⟨by decide, verifyRows_prefix ⟨_, Run.nil.history _⟩ (by decide) (by decide)
    fun _ hr => List.mem_of_mem_tail hr, verifyRows_prefix ⟨_, Run.nil.history _⟩ (by decide) (by decide)
    fun _ hr => (List.mem_append.1 hr).elim List.mem_of_mem_take List.mem_of_mem_take⟩

/-! ## Rows rewritten -/

/-- A row with other texts in `event_id` and `payload`. -/
def LedgerRow.rewritten (r : LedgerRow) (content : Str × Str) : LedgerRow :=
  { r with eventId := content.1, payload := content.2 }

/-- The ledger with the content of its rows replaced: `content` says what by. -/
def Store.rewritten (content : LedgerRow → Str × Str) (v : Store) : Store :=
  ({ v.1 with ledger := v.1.ledger.map fun r => r.rewritten (content r) }, v.2)

def Backend.rewritten (content : LedgerRow → Str × Str) (b : Backend) : Backend :=
  { b with session := ⟨Store.rewritten content b.session.durable, Store.rewritten content b.session.view⟩ }

/-- The second content has the text of the first, cut at a later bar. -/
def CutLater (body body' : Str × Str) : Prop :=
  ∃ t, body'.1 = body.1 ++ bar :: t ∧ body.2 = t ++ bar :: body'.2

/-- The two contents are one text, cut at different bars. -/
def Recut (body body' : Str × Str) : Prop := CutLater body body' ∨ CutLater body' body

/-- Without a bar in an event id there is one way to cut. -/
theorem Recut.bar_mem {body body' : Str × Str} (h : Recut body body') : bar ∈ body.1 ∨ bar ∈ body'.1 := by
  rcases h with ⟨t, he, -⟩ | ⟨t, he, -⟩
  · exact .inr (by simp [he])
  · exact .inl (by simp [he])

theorem entryText_eq_iff (prev : Str) {body body' : Str × Str} :
    entryText prev body.1 body.2 = entryText prev body'.1 body'.2 ↔ body' = body ∨ Recut body body' := by
  obtain ⟨e, p⟩ := body
  obtain ⟨e', p'⟩ := body'
  constructor
  · intro h
    have hbody : e ++ bar :: p = e' ++ bar :: p' := (List.cons.inj (List.append_cancel_left h)).2
    rcases List.append_eq_append_iff.1 hbody with ⟨t, he, hp⟩ | ⟨t, he, hp⟩
    · cases t with
      | nil => exact .inl (by simp_all)
      | cons c t =>
        obtain ⟨rfl, hpt⟩ := List.cons.inj hp
        exact .inr (.inl ⟨t, he, hpt⟩)
    · cases t with
      | nil => exact .inl (by simp_all)
      | cons c t =>
        obtain ⟨rfl, hpt⟩ := List.cons.inj hp
        exact .inr (.inr ⟨t, he, hpt⟩)
  · rintro (h | ⟨t, he, hp⟩ | ⟨t, he, hp⟩)
    · cases h
      rfl
    · simp only at he hp
      simp [entryText, he, hp]
    · simp only at he hp
      simp [entryText, he, hp]

theorem rewritten_verified {rows : List LedgerRow} {seq : ℕ} (hc : ChainInv py rows seq)
    (content : LedgerRow → Str × Str) :
    HashChain.Linked (entryDigest py) genesisHash
        ((rows.map fun r => r.rewritten (content r)).map LedgerRow.link) ↔
      ∀ r ∈ rows, (py.sha256 (r.rewritten (content r)).text).text = (py.sha256 r.text).text := by
  rw [List.map_map]
  refine (HashChain.linked_map_iff _ ?_ ?_ hc.linked).trans (forall₂_congr fun r hr => ?_)
  · exact fun _ => rfl
  · exact fun _ => rfl
  have hold : r.link.digest = (py.sha256 r.text).text := hc.entryHash_eq hr
  rw [hold]
  exact eq_comm

/-- **When other content is detected.** Let the event ids and payload texts of any rows of a ledger be
replaced by any texts, and let SHA-256 not confuse the new text of a row with its old one.
`verify_integrity` is False if and only if some row was changed in another way than by cutting its
text at another bar. -/
theorem rewritten_detected {b : Backend} (h : Reachable py b) {content : LedgerRow → Str × Str}
    (henc : ∀ r ∈ b.db.ledger, (content r).1.encodable = true ∧ (content r).2.encodable = true)
    (hinj : ∀ r ∈ b.db.ledger,
      (py.sha256 (r.rewritten (content r)).text).text = (py.sha256 r.text).text →
        (r.rewritten (content r)).text = r.text) :
    (b.rewritten content).verifyIntegrity py = .ok false ↔
      ∃ r ∈ b.db.ledger, content r ≠ (r.eventId, r.payload) ∧
        ¬ Recut (r.eventId, r.payload) (content r) := by
  obtain ⟨log, hrun⟩ := h
  have hc := hrun.chainInv
  have hsorted : (b.rewritten content).db.ledger.Pairwise fun r r' => r.seq < r'.seq :=
    List.pairwise_map.2 hc.sorted
  have hencoded : ∀ r ∈ (b.rewritten content).db.ledger, r.text.encodable = true := by
    intro r' hr'
    obtain ⟨r, hr, rfl⟩ := List.mem_map.1 hr'
    have hold := hc.encodable r hr
    simp only [encodable_entryText, Bool.and_eq_true] at hold
    simp only [LedgerRow.text, LedgerRow.rewritten, encodable_entryText, henc r hr, hold, Bool.and_self]
  have hsame : ∀ r ∈ b.db.ledger,
      (py.sha256 (r.rewritten (content r)).text).text = (py.sha256 r.text).text ↔
        content r = (r.eventId, r.payload) ∨ Recut (r.eventId, r.payload) (content r) := by
    intro r hr
    rw [← entryText_eq_iff r.prevHash]
    exact ⟨fun he => (hinj r hr he).symm, fun he => congrArg (fun t => (py.sha256 t).text) he.symm⟩
  rw [Backend.verifyIntegrity, orderBySeq_eq hsorted, verifyRows_false hencoded]
  refine (not_congr (rewritten_verified hc content)).trans ?_
  rw [not_forall₂]
  simp only [exists_prop]
  refine exists_congr fun r => and_congr_right fun hr => ?_
  rw [hsame r hr, not_or]

/-- One row with another event id, and one left as it was. -/
theorem rewritten_detected_two :
    let digit : (c : CodePoint) → (c ∈ lit "0123456789abcdef") → Digest := Digest.repeated
    let sha256 : Str → Digest := fun t =>
      if t = entryText genesisHash (lit "a") (lit "\x7b\x7d") then digit (.scalar '1') (by decide)
      else digit (.scalar '2') (by decide)
    let py := PyLib.json sha256 (fun _ => .ok (.obj [])) .sqlite
    let b := (history py [] .empty [(.acknowledgeWritesBatch .fixed
      [⟨lit "k", lit "a", .obj []⟩, ⟨lit "l", lit "b", .obj []⟩], [])]).2
    let content : LedgerRow → Str × Str := fun r =>
      (if r.eventId = lit "a" then lit "c" else r.eventId, r.payload)
    (b.rewritten content).verifyIntegrity py = .ok false := by
  intro digit sha256 py b content
  refine (rewritten_detected ⟨_, Run.nil.history _⟩ (by decide) (by decide)).2 ?_
  exact ⟨b.db.ledger.head (by decide), by decide, by decide, fun h => absurd h.bar_mem (by decide)⟩

/-- **A row cut at another bar still verifies.** The text under the hash is the same, so no SHA-256
tells the two rows apart. -/
theorem rewritten_undetected :
    let py := PyLib.fixed
    let b := (history py [] .empty [(.acknowledgeWrite .fixed ⟨lit "k", lit "x|y", .obj []⟩, [])]).2
    let content : LedgerRow → Str × Str := fun _ => (lit "x", lit "y|\x7b\x7d")
    Reachable py b ∧
      b.db.ledger.map (fun r => (r.eventId, r.payload)) = [(lit "x|y", lit "\x7b\x7d")] ∧
      (b.rewritten content).db.ledger.map (fun r => (r.eventId, r.payload)) =
        [(lit "x", lit "y|\x7b\x7d")] ∧
      (b.rewritten content).db.ledger.map LedgerRow.text = b.db.ledger.map LedgerRow.text ∧
      (b.rewritten content).verifyIntegrity py = .ok true :=
  ⟨⟨_, Run.nil.history _⟩, by decide⟩

end LineageVault
