import ShareNotes.Manager

/-!
# Listings under failures

`LoadNotes` and `LoadNotesWhere` return the error of the query and nothing else:
an iteration that ends early and a row that cannot be scanned leave a shorter
listing or a note with zero values in it, without an error. The result sets here
are arbitrary, with NULL in any column, as the schema allows. `GetNote` looks at
the error of its `Scan`, so what it returns of a row is the measure for a note
in a listing.
-/

namespace ShareNotes.ListingErrors

open ShareNotes.Lib.Decimal ShareNotes.Lib.Slices ShareNotes.NoteRecord ShareNotes.Manager

/-! ### The listing methods on a result set -/

inductive Listing
  | loadNotes
  | loadNotesWhere

/-- The method on what its query returns; only `LoadNotesWhere` prepares a statement. -/
def Listing.run (dbm : DatabaseManager) (g : Growth) (heap : Heap Note) (o : ListOutcome)
    (queried : Except GoError (List ResultRow)) :
    Listing → (Slice × Option GoError) × Heap Note × DatabaseManager
  | .loadNotes => dbm.appendRows g heap o queried
  | .loadNotesWhere =>
    match o.prepareErr with
    | some err =>
      ((⟨heap.arrays.length, 0⟩, some err), ⟨heap.arrays ++ [[]]⟩,
        { dbm with notes := ⟨dbm.notes.array, 0⟩ })
    | none => dbm.appendRows g heap o queried

theorem run_loadNotes (dbm : DatabaseManager) (g : Growth) (heap : Heap Note) (o : ListOutcome) :
    Listing.loadNotes.run dbm g heap o (o.query .selectNotesQS [] dbm.db.notes) =
      dbm.loadNotes g heap o := rfl

theorem run_loadNotesWhere (dbm : DatabaseManager) (g : Growth) (heap : Heap Note)
    (o : ListOutcome) (whereClause : SelectQuery) (whereParameters : List Bytes) :
    Listing.loadNotesWhere.run dbm g heap o (o.query whereClause whereParameters dbm.db.notes) =
      dbm.loadNotesWhere g heap o whereClause whereParameters := rfl

/-! ### Notes and rows -/

/-- The note carries the five values of the row. -/
def Carries (row : ResultRow) (n : Note) : Prop :=
  ∃ addDate changeDate, row = ⟨some n.noteID, some n.title, some n.text, some addDate,
    some changeDate⟩ ∧ n.addDate = ofUnix addDate ∧ n.changeDate = ofUnix changeDate

/-- What the `Scan` of `GetNote` makes of the row with the `noteID`; a NULL is an error. -/
def scanLookup (noteID : ℤ) (row : ResultRow) : Option Note := do
  let title ← row.title
  let text ← row.text
  let addDate ← row.addDate
  let changeDate ← row.changeDate
  return Note.newLocal noteID title text (ofUnix addDate) (ofUnix changeDate)

/-- `GetNote` is this `Scan` on the row that is found. -/
theorem getNote_eq (db : Database) (noteID : ℤ) :
    db.getNote .ok noteID =
      ((db.notes.lookup noteID).bind fun e => scanLookup noteID (e.columns noteID)).elim
        (.error .noRows) .ok := by
  rw [Database.getNote, integerAffinity_itoa, Option.bind_some]
  cases db.notes.lookup noteID <;> rfl

/-- **A note that carries its row is the one that `GetNote` returns.** -/
theorem carries_iff (row : ResultRow) (n : Note) :
    Carries row n ↔ row.noteID = some n.noteID ∧ scanLookup n.noteID row = some n := by
  obtain ⟨noteID, title, text, addDate, changeDate⟩ := row
  obtain ⟨nNoteID, nTitle, nText, nAddDate, nChangeDate⟩ := n
  constructor
  · intro ⟨a, c, hrow, hadd, hchange⟩
    obtain ⟨rfl, rfl, rfl, rfl, rfl⟩ := ResultRow.mk.inj hrow
    dsimp only at hadd hchange
    rw [hadd, hchange]
    exact ⟨rfl, rfl⟩
  · intro ⟨hid, hscan⟩
    simp only [scanLookup, Option.bind_eq_bind, Option.bind_eq_some_iff] at hscan
    obtain ⟨_, rfl, _, rfl, a, rfl, c, rfl, hnote⟩ := hscan
    obtain ⟨_, rfl, rfl, rfl, rfl⟩ := Note.mk.inj (Option.some.inj hnote)
    dsimp only at hid
    rw [hid]
    exact ⟨a, c, rfl, rfl, rfl⟩

/-! ### A row that is scanned -/

/-- The note that the loop appends for a row. -/
def scanned (fails : ℕ → Bool) (row : ResultRow) : Note :=
  let v := (scanRow fails row).1
  Note.newLocal v.noteID v.title v.text (ofUnix v.addDate) (ofUnix v.changeDate)

/-- The variables after a scan that ended at column `c`. -/
def cut (c : ℕ) (k : ℤ) (e : Entry) : RowVars where
  noteID := if c ≤ 0 then 0 else k
  title := if c ≤ 1 then [] else e.title
  text := if c ≤ 2 then [] else e.text
  addDate := if c ≤ 3 then 0 else e.addDate
  changeDate := if c ≤ 4 then 0 else e.changeDate

/-- The columns from `c` on hold what their variables start with. -/
def ZeroFrom (c : ℕ) (k : ℤ) (e : Entry) : Prop :=
  (c ≤ 0 → k = 0) ∧ (c ≤ 1 → e.title = []) ∧ (c ≤ 2 → e.text = []) ∧
    (c ≤ 3 → e.addDate = 0) ∧ (c ≤ 4 → e.changeDate = 0)

theorem ZeroFrom.mono {c c' : ℕ} {k : ℤ} {e : Entry} (h : ZeroFrom c k e) (hle : c ≤ c') :
    ZeroFrom c' k e :=
  ⟨fun hc => h.1 (hle.trans hc), fun hc => h.2.1 (hle.trans hc), fun hc => h.2.2.1 (hle.trans hc),
    fun hc => h.2.2.2.1 (hle.trans hc), fun hc => h.2.2.2.2 (hle.trans hc)⟩

/-- A row without NULL, in which every column from a failing one on holds a zero value. -/
def ReadsWell (fails : ℕ → Bool) (row : ResultRow) : Prop :=
  ∃ k e, row = Entry.columns k e ∧ ∀ c < 5, fails c = true → ZeroFrom c k e

/-- **A scan ends at the first column that fails.** -/
theorem scanRow_columns (fails : ℕ → Bool) (k : ℤ) (e : Entry) :
    ∃ c, (scanRow fails (e.columns k)).1 = cut c k e ∧ (c < 5 → fails c = true) ∧
      ∀ c' < c, c' < 5 → fails c' = false := by
  have hstep {c : ℕ} (hc : fails c = false) (hbelow : ∀ c' < c, c' < 5 → fails c' = false) :
      ∀ c' < c + 1, c' < 5 → fails c' = false := by
    intro c' hlt h5
    rcases Nat.lt_succ_iff_lt_or_eq.mp hlt with h | rfl
    · exact hbelow c' h h5
    · exact hc
  have hbelow0 : ∀ c' < 0, c' < 5 → fails c' = false := fun c' h => absurd h (Nat.not_lt_zero c')
  unfold scanRow Entry.columns convertAssign
  cases h0 : fails 0 with
  | true => exact ⟨0, rfl, fun _ => h0, hbelow0⟩
  | false =>
    have hbelow1 := hstep h0 hbelow0
    cases h1 : fails 1 with
    | true => exact ⟨1, rfl, fun _ => h1, hbelow1⟩
    | false =>
      have hbelow2 := hstep h1 hbelow1
      cases h2 : fails 2 with
      | true => exact ⟨2, rfl, fun _ => h2, hbelow2⟩
      | false =>
        have hbelow3 := hstep h2 hbelow2
        cases h3 : fails 3 with
        | true => exact ⟨3, rfl, fun _ => h3, hbelow3⟩
        | false =>
          have hbelow4 := hstep h3 hbelow3
          cases h4 : fails 4 with
          | true => exact ⟨4, rfl, fun _ => h4, hbelow4⟩
          | false => exact ⟨5, rfl, fun h => absurd h (by decide), hstep h4 hbelow4⟩

theorem ofUnix_inj {a b : ℤ} : ofUnix a = ofUnix b ↔ a = b := by
  constructor
  · intro h
    have hnanos : a * 1000000000 = b * 1000000000 := h
    omega
  · exact congrArg ofUnix

theorem ite_zero_eq {α : Type} {p : Prop} [Decidable p] {a z : α} :
    a = (if p then z else a) ↔ (p → a = z) := by
  by_cases hp : p <;> simp [hp]

/-- A cut row is the whole row where the rest is zero. -/
theorem carries_cut_iff (c : ℕ) (k : ℤ) (e : Entry) :
    Carries (e.columns k) (Note.newLocal (cut c k e).noteID (cut c k e).title (cut c k e).text
      (ofUnix (cut c k e).addDate) (ofUnix (cut c k e).changeDate)) ↔ ZeroFrom c k e := by
  rw [ZeroFrom, ← ite_zero_eq (a := k), ← ite_zero_eq (a := e.title), ← ite_zero_eq (a := e.text),
    ← ite_zero_eq (a := e.addDate), ← ite_zero_eq (a := e.changeDate)]
  constructor
  · intro ⟨addDate, changeDate, hrow, hadd, hchange⟩
    obtain ⟨hk, htitle, htext, hadd', hchange'⟩ := ResultRow.mk.inj hrow
    refine ⟨Option.some.inj hk, Option.some.inj htitle, Option.some.inj htext, ?_, ?_⟩
    · exact (Option.some.inj hadd').trans (ofUnix_inj.mp hadd).symm
    · exact (Option.some.inj hchange').trans (ofUnix_inj.mp hchange).symm
  · intro ⟨hk, htitle, htext, hadd, hchange⟩
    refine ⟨e.addDate, e.changeDate, ?_, congrArg ofUnix hadd.symm, congrArg ofUnix hchange.symm⟩
    show (⟨some k, some e.title, some e.text, _, _⟩ : ResultRow) =
      ⟨some (cut c k e).noteID, some (cut c k e).title, some (cut c k e).text, _, _⟩
    rw [show (cut c k e).noteID = k from hk.symm, show (cut c k e).title = e.title from htitle.symm,
      show (cut c k e).text = e.text from htext.symm]

/-- A row whose values are carried by some note has no NULL. -/
theorem Carries.columns {row : ResultRow} {n : Note} (h : Carries row n) :
    ∃ k e, row = Entry.columns k e := by
  obtain ⟨addDate, changeDate, hrow, _⟩ := h
  exact ⟨n.noteID, ⟨n.title, n.text, addDate, changeDate⟩, hrow⟩

/-- **The note of a row carries the row** exactly when the row reads well. -/
theorem carries_scanned_iff (fails : ℕ → Bool) (row : ResultRow) :
    Carries row (scanned fails row) ↔ ReadsWell fails row := by
  have hcolumns (k : ℤ) (e : Entry) : Carries (e.columns k) (scanned fails (e.columns k)) ↔
      ∀ c < 5, fails c = true → ZeroFrom c k e := by
    obtain ⟨c, hscan, hfails, hbelow⟩ := scanRow_columns fails k e
    have hcarries := carries_cut_iff c k e
    rw [← hscan] at hcarries
    rw [scanned, hcarries]
    constructor
    · intro hzero c' h5 hc'
      apply hzero.mono
      by_contra hlt
      rw [hbelow c' (by omega) h5] at hc'
      exact absurd hc' (by decide)
    · intro h
      by_cases h5 : c < 5
      · exact h c h5 (hfails h5)
      · exact ⟨by omega, by omega, by omega, by omega, by omega⟩
  constructor
  · intro h
    obtain ⟨k, e, rfl⟩ := h.columns
    exact ⟨k, e, rfl, (hcolumns k e).mp h⟩
  · intro ⟨k, e, hrow, hfails⟩
    rw [hrow]
    exact (hcolumns k e).mpr hfails

/-! ### A whole listing -/

/-- The slice has exactly one note per row, in order, and each is the note that
`GetNote` returns for its row. -/
def Complete (heap : Heap Note) (s : Slice) (rows : List ResultRow) : Prop :=
  s.len = rows.length ∧ List.Forall₂ (fun row n => Carries row n ∧
    scanLookup n.noteID row = some n) rows (heap.elements s)

/-- A nil error is returned with a complete listing only. -/
def CompleteOrError (m : Listing) (dbm : DatabaseManager) (g : Growth) (heap : Heap Note)
    (o : ListOutcome) (queried : Except GoError (List ResultRow)) : Prop :=
  let result := m.run dbm g heap o queried
  result.1.2 = none → ∃ rows, queried = .ok rows ∧ Complete result.2.1 result.1.1 rows

/-- The statement or the query fails, or all rows are delivered and read well. -/
def ReadsAll (m : Listing) (o : ListOutcome) (queried : Except GoError (List ResultRow)) : Prop :=
  (m = .loadNotesWhere ∧ o.prepareErr ≠ none) ∨ ∀ rows, queried = .ok rows →
    (∀ k, o.stopsAfter = some k → rows.length ≤ k) ∧
      ∀ i row, rows[i]? = some row → ReadsWell (o.scanFails i) row

theorem delivered_length_iff (o : ListOutcome) (rows : List ResultRow) :
    (o.delivered rows).length = rows.length ↔ ∀ k, o.stopsAfter = some k → rows.length ≤ k := by
  rw [ListOutcome.delivered]
  cases o.stopsAfter with
  | none => simp
  | some k =>
    simp only [List.length_take, Option.some.injEq, forall_eq']
    omega

theorem delivered_eq {o : ListOutcome} {rows : List ResultRow}
    (h : ∀ k, o.stopsAfter = some k → rows.length ≤ k) : o.delivered rows = rows := by
  rw [ListOutcome.delivered]
  cases hstop : o.stopsAfter with
  | none => rfl
  | some k => exact List.take_of_length_le (h k hstop)

/-- **The loop reads one note per row** exactly when it gets every row and each reads well. -/
theorem notesRead_iff (o : ListOutcome) (rows : List ResultRow) :
    List.Forall₂ Carries rows (o.notesRead rows) ↔
      (∀ k, o.stopsAfter = some k → rows.length ≤ k) ∧
        ∀ i row, rows[i]? = some row → ReadsWell (o.scanFails i) row := by
  have hread : o.notesRead rows = (o.delivered rows).mapIdx fun i row => scanned (o.scanFails i) row :=
    rfl
  rw [hread, List.forall₂_iff_get]
  constructor
  · intro ⟨hlen, hget⟩
    rw [List.length_mapIdx] at hlen
    have hstop := (delivered_length_iff o rows).mp hlen.symm
    refine ⟨hstop, fun i row hrow => ?_⟩
    obtain ⟨hi, rfl⟩ := List.getElem?_eq_some_iff.mp hrow
    rw [delivered_eq hstop] at hget
    have hcarries := hget i hi (by rw [List.length_mapIdx]; exact hi)
    rw [List.get_eq_getElem, List.get_eq_getElem, List.getElem_mapIdx] at hcarries
    exact (carries_scanned_iff _ _).mp hcarries
  · intro ⟨hstop, hrows⟩
    rw [delivered_eq hstop]
    refine ⟨List.length_mapIdx.symm, fun i hi _ => ?_⟩
    rw [List.get_eq_getElem, List.get_eq_getElem, List.getElem_mapIdx, carries_scanned_iff]
    exact hrows i _ (List.getElem?_eq_getElem hi)

/-- What a listing without an error returns. -/
theorem appendRows_ok (dbm : DatabaseManager) (g : Growth) (heap : Heap Note) (o : ListOutcome)
    (rows : List ResultRow) :
    ∃ heap' s, dbm.appendRows g heap o (.ok rows) = ((s, none), heap', { dbm with notes := s }) ∧
      heap'.elements s = o.notesRead rows ∧ s.len = (o.notesRead rows).length := by
  obtain ⟨helements, hcap⟩ := rewrite_elements g heap dbm.notes (o.notesRead rows)
  refine ⟨_, _, rfl, helements, ?_⟩
  have hlen := congrArg List.length helements
  rw [Heap.elements, List.length_take] at hlen
  unfold Heap.cap at hcap
  omega

theorem complete_iff {heap : Heap Note} {s : Slice} {o : ListOutcome} {rows : List ResultRow}
    (helements : heap.elements s = o.notesRead rows) (hlen : s.len = (o.notesRead rows).length) :
    Complete heap s rows ↔ (∀ k, o.stopsAfter = some k → rows.length ≤ k) ∧
      ∀ i row, rows[i]? = some row → ReadsWell (o.scanFails i) row := by
  have hcarries : (fun row n => Carries row n ∧ scanLookup n.noteID row = some n) = Carries := by
    funext row n
    exact propext (and_iff_left_of_imp fun h => ((carries_iff row n).mp h).2)
  rw [Complete, hcarries, helements, hlen, ← notesRead_iff]
  exact and_iff_right_of_imp fun h => h.length_eq.symm

/-- **A listing is complete or an error** exactly when its query fails or every row reads well. -/
theorem completeOrError_iff (m : Listing) (dbm : DatabaseManager) (g : Growth) (heap : Heap Note)
    (o : ListOutcome) (queried : Except GoError (List ResultRow)) :
    CompleteOrError m dbm g heap o queried ↔ ReadsAll m o queried := by
  have hloop (happend : m.run dbm g heap o queried = dbm.appendRows g heap o queried)
      (hprepare : ¬(m = .loadNotesWhere ∧ o.prepareErr ≠ none)) :
      CompleteOrError m dbm g heap o queried ↔ ReadsAll m o queried := by
    rw [CompleteOrError, ReadsAll, happend, or_iff_right hprepare]
    cases queried with
    | error err => exact iff_of_true (fun h => absurd h (by simp [DatabaseManager.appendRows])) (by simp)
    | ok rows =>
      obtain ⟨heap', s, hresult, helements, hlen⟩ := appendRows_ok dbm g heap o rows
      rw [hresult]
      simp only [Except.ok.injEq, exists_eq_left', forall_eq', forall_const]
      exact complete_iff helements hlen
  cases m with
  | loadNotes => exact hloop rfl (by simp)
  | loadNotesWhere =>
    cases hprepare : o.prepareErr with
    | none =>
      refine hloop ?_ (by simp [hprepare])
      rw [Listing.run, hprepare]
    | some err =>
      refine iff_of_true ?_ (Or.inl ⟨rfl, by simp [hprepare]⟩)
      rw [CompleteOrError, Listing.run, hprepare]
      exact fun h => absurd h (by simp)

/-- The title of the only row is NULL: `GetNote` fails on it, and the listing shows a note
without a title and a text. -/
theorem nullTitle_listed :
    ¬CompleteOrError .loadNotes ⟨⟨0, 0⟩, .opened .empty⟩ ⟨fun _ n => n, fun _ _ => le_rfl⟩ ⟨[[]]⟩
      .ok (.ok [⟨some 1, none, some (ascii "text"), some 0, some 0⟩]) := by
  intro h
  obtain ⟨rows, hrows, hcomplete⟩ := h rfl
  rw [← Except.ok.inj hrows] at hcomplete
  have hforall := hcomplete.2
  generalize Heap.elements _ _ = notes at hforall
  cases hforall with
  | cons hrow _ => exact absurd hrow.2 (by simp [scanLookup])

end ShareNotes.ListingErrors
