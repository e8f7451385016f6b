import LineageVault.Api.OpenLineageBatch
import LineageVault.Python.IsoFormat

/-! # `timetravel/query.py` and `GET /snapshot`

A snapshot reads two tables. The edges have their time in a column; an entry of the ledger has it, if
it has it, under the key `timestamp` of its payload. A datetime with an offset and one without cannot be
compared: `<=` raises.
-/

namespace LineageVault
set_option autoImplicit false

/-! ## Comprehensions -/

section Comprehension
variable {α β ε : Type} (test : α → Except ε Bool) (out : α → Except ε β)

/-- `[out(x) for x in xs if test(x)]` -/
def comprehension : List α → Except ε (List β)
  | [] => .ok []
  | x :: xs => do
    let shown ← test x
    if shown then
      let y ← out x
      let ys ← comprehension xs
      return y :: ys
    else comprehension xs

variable {test out}

theorem comprehension_eq {shown : α → Bool} {xs : List α} (h : ∀ x ∈ xs, test x = .ok (shown x)) :
    comprehension test out xs = (xs.filter shown).mapM out := by
  induction xs with
  | nil => rfl
  | cons x xs ih =>
    have htail : comprehension test out xs = (xs.filter shown).mapM out :=
      ih fun y hy => h y (List.mem_cons_of_mem _ hy)
    rw [comprehension, h x List.mem_cons_self, List.filter_cons]
    cases hx : shown x with
    | false => exact htail
    | true =>
      simp only [if_true, List.mapM_cons, ← htail]
      rfl

/-- A comprehension that returned has tested every element. -/
theorem comprehension_tested {xs : List α} {ys : List β} (h : comprehension test out xs = .ok ys) :
    ∀ x ∈ xs, ∃ shown, test x = .ok shown := by
  induction xs generalizing ys with
  | nil => exact fun x hx => absurd hx List.not_mem_nil
  | cons x xs ih =>
    rw [comprehension] at h
    obtain ⟨shown, hx, h⟩ := bind_eq_ok.1 h
    have htail : ∃ ys, comprehension test out xs = .ok ys := by
      cases shown with
      | false => exact ⟨ys, h⟩
      | true =>
        obtain ⟨y, -, h⟩ := bind_eq_ok.1 h
        obtain ⟨zs, hzs, -⟩ := bind_eq_ok.1 h
        exact ⟨zs, hzs⟩
    obtain ⟨zs, hzs⟩ := htail
    intro y hy
    rcases List.mem_cons.1 hy with rfl | hy
    · exact ⟨shown, hx⟩
    · exact ih hzs y hy

theorem comprehension_total {xs : List α} (htest : ∀ x ∈ xs, ∃ shown, test x = .ok shown)
    (hout : ∀ x ∈ xs, ∃ y, out x = .ok y) : ∃ ys, comprehension test out xs = .ok ys := by
  have hshown : ∀ x ∈ xs, test x = .ok ((test x).toOption.getD false) := by
    intro x hx
    obtain ⟨shown, hx⟩ := htest x hx
    rw [hx]
    rfl
  rw [comprehension_eq hshown]
  exact mapM_total fun x hx => hout x (List.mem_of_mem_filter hx)

end Comprehension

/-! ## The code -/

/-- An element of the list that `edges_at` returns. -/
structure EdgeEntry where
  src : Str
  dst : Str
  transformId : Str
  eventTime : Str
  schemaVersion : ℤ
  payload : Json

structure Snapshot where
  datasetId : Str
  /-- the value of the key `at` -/
  atText : Str
  edges : List EdgeEntry
  events : List Json

/-- `datetime.fromisoformat(x)` of a value that came in as JSON -/
def timeOfJson : Json → Except PyErr DateTime
  | .str s => fromisoformat s
  | _ => .error .typeError

/-- `x in (dataset_id, None)` -/
def isDatasetOrNone (datasetId : Str) : Json → Bool
  | .str s => s = datasetId
  | .null => true
  | _ => false

/-- The condition on the entries in `snapshot`. -/
def eventShown (datasetId : Str) (atTime : DateTime) (payload : Json) : Except PyErr Bool := do
  let timestamp ← payload.get (lit "timestamp") (.str (lit "1970-01-01"))
  let time ← timeOfJson timestamp
  let seen ← time.le atTime
  if seen then
    let output ← payload.get (lit "output_dataset") .null
    return isDatasetOrNone datasetId output
  else return false

/-- The condition on the rows in `edges_at`. -/
def edgeSeen (atTime : DateTime) (r : EdgeRow) : Except PyErr Bool := do
  let time ← fromisoformat r.eventTime
  time.le atTime

/-- The route reads `datetime.UTC` in the class, which has no such attribute. -/
def readAt (atText : Str) : Except PyErr DateTime := do
  if atText.getLast? = some (.scalar 'Z') then
    let _ ← fromisoformat atText.dropLast
    throw .attributeError
  else fromisoformat atText

section Backend
variable (py : PyLib Json)

def readEdge (r : EdgeRow) : Except PyErr EdgeEntry := do
  let payload ← py.loads r.payload
  return ⟨r.src, r.dst, r.transformId, r.eventTime, r.schemaVersion, payload⟩

namespace Backend

/-- `edges_at` -/
def edgesAt (atTime : DateTime) (b : Backend) : Except PyErr (List EdgeEntry) :=
  comprehension (edgeSeen atTime) (readEdge py) b.db.datasetEdges

/-- `TimeTravelEngine.snapshot` -/
def snapshot (datasetId : Str) (atTime : DateTime) (b : Backend) : Except PyErr Snapshot := do
  let edges ← b.edgesAt py atTime
  let entries ← b.allLedgerEntries py
  let events ← comprehension (fun e => eventShown datasetId atTime e.payload) (fun e => .ok e.payload) entries
  return ⟨datasetId, atTime.isoformat, edges.filter fun e => e.dst = datasetId || e.src = datasetId, events⟩

/-- `TimeTravelEngine.replay_at` -/
def replayAt (datasetId : Str) (atTime : DateTime) (b : Backend) : Except PyErr Snapshot :=
  b.snapshot py datasetId atTime

/-- `GET /snapshot`; `message` is the text of the exception. -/
def getSnapshot (message : Str → Str) (datasetId atText : Str) (b : Backend) : Except ApiError Snapshot :=
  match readAt atText with
  | .ok ts => (b.snapshot py datasetId ts).mapError .raised
  | .error .valueError => .error (.http 400 (lit "invalid_timestamp") (message atText))
  | .error e => .error (.raised e)

end Backend
end Backend

/-! ## A snapshot that was returned -/

/-- The conditions as they came out. -/
def eventTested (datasetId : Str) (atTime : DateTime) (payload : Json) : Bool :=
  (eventShown datasetId atTime payload).toOption.getD false

def edgeTested (atTime : DateTime) (r : EdgeRow) : Bool := (edgeSeen atTime r).toOption.getD false

def EdgeRow.touches (datasetId : Str) (r : EdgeRow) : Bool := r.dst = datasetId || r.src = datasetId

section Returned
variable {py : PyLib Json} {b : Backend} {datasetId : Str} {atTime : DateTime} {s : Snapshot}

theorem readEdge_touches (datasetId : Str) {r : EdgeRow} {e : EdgeEntry} (h : readEdge py r = .ok e) :
    (e.dst = datasetId || e.src = datasetId : Bool) = r.touches datasetId := by
  obtain ⟨payload, -, h⟩ := bind_eq_ok.1 h
  cases h
  rfl

theorem mapM_filter {α β ε : Type} {f : α → Except ε β} {p : β → Bool} {q : α → Bool} {xs : List α}
    {ys : List β} (hpq : ∀ x y, f x = .ok y → p y = q x) (h : xs.mapM f = .ok ys) :
    (xs.filter q).mapM f = .ok (ys.filter p) := by
  have hf := mapM_eq_ok.1 h
  clear h
  induction hf with
  | nil => rfl
  | @cons x y xs ys hxy _ ih =>
    rw [List.filter_cons, List.filter_cons, hpq x y hxy]
    cases q x with
    | false => exact ih
    | true =>
      rw [if_pos rfl, if_pos rfl, List.mapM_cons, hxy, ih]
      rfl

theorem mapM_pure {α β ε : Type} (f : α → β) (xs : List α) :
    xs.mapM (fun x => (.ok (f x) : Except ε β)) = .ok (xs.map f) := by
  induction xs with
  | nil => rfl
  | cons x xs ih =>
    rw [List.mapM_cons, ih]
    rfl

/-- What a returned snapshot has tested, and what it holds. -/
structure SnapshotRead (py : PyLib Json) (datasetId : Str) (atTime : DateTime) (b : Backend)
    (entries : List (LedgerEntry Json)) (s : Snapshot) : Prop where
  read : b.allLedgerEntries py = .ok entries
  edgeTests : ∀ r ∈ b.db.datasetEdges, edgeSeen atTime r = .ok (edgeTested atTime r)
  entryTests : ∀ e ∈ entries, eventShown datasetId atTime e.payload = .ok (eventTested datasetId atTime e.payload)
  named : s.datasetId = datasetId
  dated : s.atText = atTime.isoformat
  edges : (b.db.datasetEdges.filter fun r => r.touches datasetId && edgeTested atTime r).mapM (readEdge py) = .ok s.edges
  events : s.events = (entries.filter fun e => eventTested datasetId atTime e.payload).map LedgerEntry.payload

theorem snapshot_ok (h : b.snapshot py datasetId atTime = .ok s) :
    ∃ entries, SnapshotRead py datasetId atTime b entries s := by
  obtain ⟨edges, hedges, h⟩ := bind_eq_ok.1 h
  obtain ⟨entries, hentries, h⟩ := bind_eq_ok.1 h
  obtain ⟨events, hevents, h⟩ := bind_eq_ok.1 h
  cases h
  have hedgeTests : ∀ r ∈ b.db.datasetEdges, edgeSeen atTime r = .ok (edgeTested atTime r) := by
    intro r hr
    obtain ⟨c, hc⟩ := comprehension_tested hedges r hr
    rw [edgeTested, hc]
    rfl
  have hentryTests : ∀ e ∈ entries,
      eventShown datasetId atTime e.payload = .ok (eventTested datasetId atTime e.payload) := by
    intro e he
    obtain ⟨c, hc⟩ := comprehension_tested hevents e he
    rw [eventTested, hc]
    rfl
  rw [Backend.edgesAt, comprehension_eq hedgeTests] at hedges
  rw [comprehension_eq hentryTests, mapM_pure] at hevents
  refine ⟨entries, hentries, hedgeTests, hentryTests, rfl, rfl, ?_, (Except.ok.inj hevents).symm⟩
  rw [← List.filter_filter]
  exact mapM_filter (fun r e => readEdge_touches datasetId) hedges

end Returned

end LineageVault
