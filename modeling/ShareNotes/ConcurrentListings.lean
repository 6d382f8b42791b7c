import ShareNotes.Runs

/-!
# Listings that run concurrently

Every listing is loaded into one slice of the manager and read from there element
by element. Another load overwrites the array of that slice from its start, as
far as it has rows and the array has room, so a listing that still has elements
to read shows what the later load wrote there.

`Undisturbed` says of one load that it writes the same rows where some listing
still has to read. In every interleaving of requests whose loads are all
undisturbed, each listing shows exactly the rows of its own query.
-/

namespace ShareNotes.ConcurrentListings

open ShareNotes.Lib.Decimal ShareNotes.Lib.KeyedRows ShareNotes.Lib.Slices
open ShareNotes.Lib.Interaction ShareNotes.Lib.Monitors
open ShareNotes.NoteRecord ShareNotes.Linkify ShareNotes.Manager ShareNotes.Calls
open ShareNotes.Handlers ShareNotes.Routing ShareNotes.Runs
open Program

/-! ### What a listing has loaded and read -/

/-- The notes of a result set, as the loop over it reads them. -/
def readRows (o : ListOutcome) : Except GoError (List ResultRow) → Option (List Note)
  | .error _ => none
  | .ok rows => some (o.notesRead rows)

/-- The notes that a call loads: the rows that its query returns in the state. -/
def loadedBy (env : Env) : Call → World → Option (List Note)
  | .loadNotes, w =>
    readRows (env.listOutcome w.calls) ((env.listOutcome w.calls).query .selectNotesQS [] w.notes)
  | .loadNotesWhere q params, w =>
    match (env.listOutcome w.calls).prepareErr with
    | some _ => none
    | none =>
      readRows (env.listOutcome w.calls) ((env.listOutcome w.calls).query q params w.notes)
  | _, _ => none

/-- A listing under way: the slice it was handed, the rows of its query, and the
elements read so far. -/
structure Listing where
  slice : Slice
  rows : List Note
  read : List Note

/-- The listing of a request after one more of its calls. -/
def track (env : Env) (l : Option Listing) (e : CallEvent) : Option Listing :=
  match e with
  | ⟨_, .loadNotes, w, r, _⟩ => (loadedBy env .loadNotes w).map fun rows => ⟨r.1, rows, []⟩
  | ⟨_, .loadNotesWhere q params, w, r, _⟩ =>
    (loadedBy env (.loadNotesWhere q params) w).map fun rows => ⟨r.1, rows, []⟩
  | ⟨_, .index _ _, _, n, _⟩ => l.map fun l => { l with read := l.read ++ [n] }
  | _ => l

/-- The listing of request `t` after a trace. -/
def listingOf (env : Env) (t : ℕ) (es : Trace) : Option Listing :=
  (ofThread t es).foldl (track env) none

theorem listingOf_snoc_self {env : Env} {t : ℕ} (es : Trace) {e : CallEvent} (he : e.thread = t) :
    listingOf env t (es ++ [e]) = track env (listingOf env t es) e := by
  rw [listingOf, ofThread_snoc_self es he, List.foldl_append]
  rfl

theorem listingOf_snoc_of_ne {env : Env} {t : ℕ} (es : Trace) {e : CallEvent}
    (he : e.thread ≠ t) : listingOf env t (es ++ [e]) = listingOf env t es := by
  rw [listingOf, ofThread_snoc_of_ne es he]
  rfl

/-! ### How handlers list -/

def isLoad : Call → Bool
  | .loadNotes => true
  | .loadNotesWhere _ _ => true
  | _ => false

def isIndex : Call → Bool
  | .index _ _ => true
  | _ => false

/-- The slice that a load hands over. -/
def handedOver : Slice × Option GoError → Option (Slice × List Note)
  | (s, none) => some (s, [])
  | (_, some _) => none

/-- A handler loads at most once, and reads the elements of the slice in order. -/
def listingMonitor : Monitor Call Call.Result (Option (Slice × List Note)) where
  allows g c :=
    (isLoad c = true → g = none) ∧
      ∀ s i, c = .index s i → ∃ read, g = some (s, read) ∧ i = read.length
  expects _ _ := True
  next g c r :=
    match c, r with
    | .loadNotes, r => handedOver r
    | .loadNotesWhere _ _, r => handedOver r
    | .index _ _, n => g.map fun p => (p.1, p.2 ++ [n])
    | _, _ => g

theorem listingMonitor_ignores {g : Option (Slice × List Note)} {c : Call}
    (hload : isLoad c = false) (hindex : isIndex c = false) : listingMonitor.Ignores g c where
  allows := by
    constructor
    · intro h
      rw [hload] at h
      exact absurd h Bool.false_ne_true
    · intro s i h
      rw [h] at hindex
      exact absurd hindex.symm Bool.false_ne_true
  next := by
    intro r
    cases c with
    | loadNotes => exact absurd hload.symm Bool.false_ne_true
    | loadNotesWhere q params => exact absurd hload.symm Bool.false_ne_true
    | index s i => exact absurd hindex.symm Bool.false_ne_true
    | _ => rfl

/-- A page with a table shows all elements of the slice, turned into HTML. -/
def ShowsRead (env : Env) (g : Option (Slice × List Note)) (a : Response) : Prop :=
  ∀ template table, a = .page ⟨template, .htmlTable table⟩ →
    ∃ s read, g = some (s, read) ∧ read.length = s.len ∧
      read.mapM (noteToHtmlNote env.findAllString env.fuel) = some table.notes

/-- A program that lists as the monitor says. -/
abbrev Lists (env : Env) (g : Option (Slice × List Note)) (p : Prog Response) : Prop :=
  Follows listingMonitor (ShowsRead env) g p

theorem lists_call {env : Env} {g : Option (Slice × List Note)} {c : Call}
    {k : c.Result → Prog Response} (hload : isLoad c = false) (hindex : isIndex c = false)
    (hk : ∀ r, Lists env g (k r)) : Lists env g (.call c k) :=
  follows_ignored (listingMonitor_ignores hload hindex) fun r _ => hk r

/-- A page without a table. -/
theorem executePage_lists {env : Env} {g : Option (Slice × List Note)} {page : Page}
    (hpage : ShowsRead env g (.page page)) : Lists env g (executePage page) := by
  refine lists_call rfl rfl fun r => ?_
  cases r with
  | some err => exact nofun
  | none => exact hpage

/-- **The loop over a listing**, with the elements read before it. -/
theorem renderNotes_lists {env : Env} {s : Slice} (m : ℕ) {read : List Note}
    {htmlNotes : List HtmlNote} (hm : read.length + m = s.len)
    (hhtml : read.mapM (noteToHtmlNote env.findAllString env.fuel) = some htmlNotes)
    (filtered : Bool) :
    Lists env (some (s, read))
      (renderNotes (noteToHtmlNote env.findAllString env.fuel) s m htmlNotes >>= fun htmlNotes =>
        executePage ⟨ascii "index.html", .htmlTable ⟨htmlNotes, filtered⟩⟩) := by
  induction m generalizing read htmlNotes with
  | zero =>
    refine executePage_lists fun template table htable => ?_
    rw [Response.page.injEq, Page.mk.injEq, PageData.htmlTable.injEq] at htable
    rw [← htable.2]
    exact ⟨s, read, rfl, by omega, hhtml⟩
  | succ m ih =>
    refine ⟨⟨nofun, ?_⟩, fun n _ => ?_⟩
    · intro s' i hindex
      rw [Call.index.injEq] at hindex
      exact ⟨read, by rw [hindex.1], by omega⟩
    · show Lists env (some (s, read ++ [n])) (withHtml (noteToHtmlNote env.findAllString env.fuel n)
        (fun h => renderNotes (noteToHtmlNote env.findAllString env.fuel) s m
          (htmlNotes ++ [h])) >>= _)
      cases hn : noteToHtmlNote env.findAllString env.fuel n with
      | none => exact lists_call rfl rfl fun r => r.elim
      | some h =>
        apply ih
        · rw [List.length_append, List.length_singleton]
          omega
        · rw [List.mapM_append, hhtml, List.mapM_cons, hn]
          rfl

/-- What a listing handler does with what it loaded. -/
theorem listing_lists {env : Env} (filtered : Bool) (loaded : Slice × Option GoError) :
    Lists env (handedOver loaded)
      (listing (noteToHtmlNote env.findAllString env.fuel) filtered loaded) := by
  obtain ⟨s, err⟩ := loaded
  cases err with
  | some err => exact nofun
  | none => exact renderNotes_lists s.len (Nat.zero_add _) rfl filtered

theorem filteredIndexHandler_lists (env : Env) (q : SelectQuery) (params : List Bytes) :
    Lists env none
      (filteredIndexHandler (noteToHtmlNote env.findAllString env.fuel) q params) :=
  ⟨⟨fun _ => rfl, nofun⟩, fun loaded _ => listing_lists true loaded⟩

theorem afterWrite_lists (env : Env) (g : Option (Slice × List Note)) (url : Bytes)
    (err : Option GoError) : Lists env g (afterWrite url err) := by
  cases err <;> exact nofun

theorem checkToken_lists {env : Env} {g : Option (Slice × List Note)} {form : Form}
    {invalid : Bytes} {rest : Prog Response} (hrest : Lists env g rest) :
    Lists env g (checkToken form invalid rest) := by
  rw [checkToken]
  cases submittedToken form with
  | error err => exact nofun
  | ok token =>
    refine lists_call rfl rfl fun valid => ?_
    cases valid with
    | true => exact hrest
    | false => exact nofun

theorem save_lists (env : Env) (g : Option (Slice × List Note)) (noteID : ℤ) (foundNote : Note)
    (title text : Bytes) :
    Lists env g (saveTitle foundNote title >>= fun titled =>
      saveText text titled >>= saveIfDirty noteID) := by
  have hdirty : ∀ saved, Lists env g (saveIfDirty noteID saved) := by
    intro saved
    obtain ⟨dirtyBit, n⟩ := saved
    cases dirtyBit with
    | true => exact lists_call rfl rfl fun err => afterWrite_lists env g _ err
    | false => exact nofun
  have htext : ∀ titled, Lists env g (saveText text titled >>= saveIfDirty noteID) := by
    intro titled
    rw [saveText]
    split
    · exact lists_call rfl rfl fun now => hdirty _
    · exact hdirty _
  rw [saveTitle]
  split
  · exact lists_call rfl rfl fun now => htext _
  · exact htext _

/-- **Every handler body** lists as the monitor says. -/
theorem body_lists (env : Env) (form : Form) (route : Route) :
    Lists env none (route.body env form) := by
  cases route with
  | indexHandler => exact ⟨⟨fun _ => rfl, nofun⟩, fun loaded _ => listing_lists false loaded⟩
  | addNoteHandler => exact lists_call rfl rfl fun token => executePage_lists nofun
  | newNoteHandler =>
    refine checkToken_lists ?_
    refine lists_call rfl rfl fun addDate => ?_
    refine lists_call rfl rfl fun changeDate => ?_
    exact lists_call rfl rfl fun err => afterWrite_lists env none _ err
  | preparePostHandler urlName noteID =>
    refine lists_call rfl rfl fun found => ?_
    cases found with
    | error err => exact nofun
    | ok foundNote => exact lists_call rfl rfl fun token => executePage_lists nofun
  | noteDetailsHandler noteID =>
    refine lists_call rfl rfl fun found => ?_
    cases found with
    | error err => exact nofun
    | ok foundNote =>
      exact details_follows (listingMonitor_ignores rfl rfl) fun h _ => executePage_lists nofun
  | saveNoteHandler noteID =>
    refine lists_call rfl rfl fun found => ?_
    cases found with
    | error err => exact nofun
    | ok foundNote => exact checkToken_lists (save_lists env none noteID foundNote _ _)
  | deleteNoteHandler noteID =>
    refine checkToken_lists ?_
    exact lists_call rfl rfl fun err => afterWrite_lists env none _ err
  | pasteBinNoteHandler noteID =>
    refine checkToken_lists ?_
    refine lists_call rfl rfl fun found => ?_
    cases found with
    | error err => exact nofun
    | ok foundNote =>
      refine lists_call rfl rfl fun output => ?_
      cases output <;> exact nofun
  | titleFilterHandler filterInput => exact filteredIndexHandler_lists env _ _
  | textFilterHandler filterInput => exact filteredIndexHandler_lists env _ _
  | bothFilterHandler filterInput => exact filteredIndexHandler_lists env _ _
  | notFound => exact nofun

theorem serveHTTP_lists (env : Env) (request : Request) :
    Lists env none (serveHTTP env request) := by
  rcases serveHTTP_cases env request with ⟨_, hserve | ⟨url, hserve⟩⟩ | ⟨message, hserve⟩
  · rw [hserve]
    exact nofun
  · rw [hserve]
    exact nofun
  · rw [hserve]
    refine lists_call rfl rfl fun tooMany => ?_
    cases tooMany with
    | true => exact nofun
    | false => exact body_lists env request.form (routed request.path)

/-! ### What calls do to the arrays -/

/-- A call that does not load leaves the arrays and the manager's slice alone. -/
theorem handle_arrays {env : Env} {t : ℕ} {c : Call} {w w' : World} {r : c.Result}
    (h : handle env t c w = some (r, w')) (hload : isLoad c = false) :
    w'.heap = w.heap ∧ w'.dbManager.notes = w.dbManager.notes := by
  cases c with
  | loadNotes => exact absurd hload.symm Bool.false_ne_true
  | loadNotesWhere q params => exact absurd hload.symm Bool.false_ne_true
  | generateSynchronizedToken =>
    rw [handle, Option.map_eq_some_iff] at h
    obtain ⟨p, _, hp⟩ := h
    rw [Prod.mk.injEq] at hp
    rw [← hp.2]
    exact ⟨rfl, rfl⟩
  | index notes i =>
    rw [handle, Option.map_eq_some_iff] at h
    obtain ⟨n, _, hn⟩ := h
    rw [Prod.mk.injEq] at hn
    rw [← hn.2]
    exact ⟨rfl, rfl⟩
  | executeTemplate page =>
    rw [handle] at h
    split at h <;> rw [Option.some.injEq, Prod.mk.injEq] at h <;> rw [← h.2] <;>
      exact ⟨rfl, rfl⟩
  | hang => exact r.elim
  | _ =>
    rw [handle, Option.some.injEq, Prod.mk.injEq] at h
    rw [← h.2]
    exact ⟨rfl, rfl⟩

/-- What a load does: it rewrites the manager's slice with its rows, or fails and
leaves every array as it was. -/
inductive Loaded (w w' : World) (r : Slice × Option GoError) : Option (List Note) → Prop
  | rows (rows : List Note) (ok : r.2 = none) (slice : w'.dbManager.notes = r.1)
      (rewritten : Rewritten w.heap w.dbManager.notes.array rows w'.heap r.1) :
      Loaded w w' r (some rows)
  | failed (err : r.2 ≠ none) (slice : w'.dbManager.notes.array = w.dbManager.notes.array)
      (grows : w.heap.arrays.length ≤ w'.heap.arrays.length)
      (same : ∀ b < w.heap.arrays.length, w'.heap.cells b = w.heap.cells b) :
      Loaded w w' r none

theorem appendRows_loaded {g : Growth} {w w' : World} {r : Slice × Option GoError}
    (hvalid : w.dbManager.notes.array < w.heap.arrays.length) (o : ListOutcome)
    (rows : Except GoError (List ResultRow))
    (hr : (w.dbManager.appendRows g w.heap o rows).1 = r)
    (hheap : (w.dbManager.appendRows g w.heap o rows).2.1 = w'.heap)
    (hdbm : (w.dbManager.appendRows g w.heap o rows).2.2 = w'.dbManager) :
    Loaded w w' r (readRows o rows) := by
  cases rows with
  | error err =>
    change w.heap = w'.heap at hheap
    rw [← hr]
    refine .failed (by simp [DatabaseManager.appendRows]) ?_ ?_ ?_
    · rw [← hdbm]
      rfl
    · rw [hheap]
    · rw [hheap]
      exact fun _ _ => rfl
  | ok rows =>
    have hspec := rewrite_spec g w.heap hvalid (o.notesRead rows)
    change (w.heap.rewrite g w.dbManager.notes (o.notesRead rows)).1 = w'.heap at hheap
    rw [hheap] at hspec
    rw [← hr]
    refine .rows _ rfl ?_ hspec
    rw [← hdbm]
    rfl

/-- **What a load does** to the arrays. -/
theorem loadNotes_loaded {env : Env} {t : ℕ} {w w' : World} {r : Slice × Option GoError}
    (hvalid : w.dbManager.notes.array < w.heap.arrays.length)
    (h : handle env t .loadNotes w = some (r, w')) :
    Loaded w w' r (loadedBy env .loadNotes w) := by
  rw [handle, Option.some.injEq, Prod.mk.injEq] at h
  refine appendRows_loaded hvalid _ _ h.1 ?_ ?_
  · rw [← h.2]
    rfl
  · rw [← h.2]
    rfl

theorem loadNotesWhere_loaded {env : Env} {t : ℕ} {w w' : World} {r : Slice × Option GoError}
    {q : SelectQuery} {params : List Bytes}
    (hvalid : w.dbManager.notes.array < w.heap.arrays.length)
    (h : handle env t (.loadNotesWhere q params) w = some (r, w')) :
    Loaded w w' r (loadedBy env (.loadNotesWhere q params) w) := by
  rw [handle, Option.some.injEq, Prod.mk.injEq] at h
  obtain ⟨hr, hw'⟩ := h
  rw [loadedBy]
  cases hprepare : (env.listOutcome w.calls).prepareErr with
  | some err =>
    rw [DatabaseManager.loadNotesWhere, hprepare] at hr hw'
    rw [← hr, ← hw']
    refine .failed (by simp) rfl ?_ ?_
    · show w.heap.arrays.length ≤ (w.heap.arrays ++ [[]]).length
      rw [List.length_append]
      omega
    · exact fun b hb => w.heap.cells_alloc_old hb []
  | none =>
    rw [DatabaseManager.loadNotesWhere, hprepare] at hr hw'
    refine appendRows_loaded hvalid _ _ hr ?_ ?_
    · rw [← hw']
      rfl
    · rw [← hw']
      rfl

/-! ### Listings stay intact -/

/-- What was read are the first rows, and the slice still holds the others. -/
structure Listing.Intact (l : Listing) (heap : Heap Note) : Prop where
  valid : l.slice.array < heap.arrays.length
  len : l.slice.len = l.rows.length
  read : l.read <+: l.rows
  rest : ∀ i, l.read.length ≤ i → heap.index l.slice i = l.rows[i]?

/-- A load writes, at each place that a listing still has to read from the same
array, the row that the listing has there. -/
def Undisturbed (env : Env) (pre : Trace) (e : CallEvent) : Prop :=
  ∀ rows, loadedBy env e.op e.before = some rows →
    ∀ t l, listingOf env t pre = some l → l.slice.array = e.before.dbManager.notes.array →
      ∀ i, l.read.length ≤ i → i < l.rows.length → i < rows.length → rows[i]? = l.rows[i]?

/-- A load that disturbs no listing keeps every listing intact. -/
theorem Listing.Intact.load {l : Listing} {w w' : World} {r : Slice × Option GoError}
    {loaded : Option (List Note)} (h : l.Intact w.heap) (hload : Loaded w w' r loaded)
    (hundisturbed : ∀ rows, loaded = some rows → l.slice.array = w.dbManager.notes.array →
      ∀ i, l.read.length ≤ i → i < l.rows.length → i < rows.length → rows[i]? = l.rows[i]?) :
    l.Intact w'.heap := by
  have hcells : l.slice.array < w'.heap.arrays.length ∧
      ∀ i, l.read.length ≤ i → i < l.rows.length →
        (w'.heap.cells l.slice.array)[i]? = (w.heap.cells l.slice.array)[i]? := by
    cases hload with
    | failed _ _ hgrows hsame =>
      exact ⟨lt_of_lt_of_le h.valid hgrows, fun i _ _ => by rw [hsame _ h.valid]⟩
    | rows rows _ _ hr =>
      refine ⟨lt_of_lt_of_le h.valid hr.grows, fun i hi hlt => ?_⟩
      by_cases harray : l.slice.array = w.dbManager.notes.array
      · rw [harray, hr.written]
        split
        · rename_i hin
          have hrest := h.rest i hi
          rw [Heap.index, if_pos (by rw [h.len]; exact hlt), harray] at hrest
          rw [hundisturbed rows rfl harray i hi hlt hin.1, hrest]
        · rfl
      · rw [hr.others _ h.valid harray]
  refine ⟨hcells.1, h.len, h.read, fun i hi => ?_⟩
  have hrest := h.rest i hi
  rw [Heap.index] at hrest ⊢
  by_cases hlt : i < l.slice.len
  · rw [if_pos hlt] at hrest ⊢
    rw [hcells.2 i hi (by rw [← h.len]; exact hlt)]
    exact hrest
  · rw [if_neg hlt] at hrest ⊢
    exact hrest

/-- The listing that a load starts is intact. -/
theorem intact_of_loaded {w w' : World} {r : Slice × Option GoError} {rows : List Note}
    (hload : Loaded w w' r (some rows)) : (Listing.mk r.1 rows []).Intact w'.heap := by
  cases hload with
  | rows _ _ _ hr =>
    exact ⟨hr.valid, hr.len, List.nil_prefix, fun i _ => hr.holds i⟩

/-- Reading the next element. -/
theorem Listing.Intact.index {l : Listing} {heap : Heap Note} {n : Note} (h : l.Intact heap)
    (hn : heap.index l.slice l.read.length = some n) :
    Listing.Intact { l with read := l.read ++ [n] } heap where
  valid := h.valid
  len := h.len
  read := by
    have hrest := h.rest l.read.length le_rfl
    rw [hn] at hrest
    obtain ⟨tail, htail⟩ := h.read
    rw [← htail, List.getElem?_append_right le_rfl, Nat.sub_self] at hrest
    cases tail with
    | nil => exact absurd hrest (by simp)
    | cons m tail =>
      rw [List.getElem?_cons_zero, Option.some.injEq] at hrest
      refine ⟨tail, ?_⟩
      rw [← htail, hrest, List.append_assoc, List.singleton_append]
  rest := by
    intro i hi
    rw [List.length_append] at hi
    exact h.rest i (by omega)

/-- The manager's slice lies in an array, and every listing is intact and is as
the monitor of its request sees it. -/
structure AllIntact (env : Env) (es : Trace) (w : World) : Prop where
  valid : w.dbManager.notes.array < w.heap.arrays.length
  intact : ∀ t l, listingOf env t es = some l → l.Intact w.heap
  seen : ∀ t, listingMonitor.after none (ofThread t es) =
    (listingOf env t es).map fun l => (l.slice, l.read)

/-- The monitor sees the listing go on. -/
theorem seen_step {env : Env} {es : Trace} {e : CallEvent}
    (hseen : ∀ t, listingMonitor.after none (ofThread t es) =
      (listingOf env t es).map fun l => (l.slice, l.read))
    (hnext : ∀ l : Option Listing, listingMonitor.next (l.map fun l => (l.slice, l.read)) e.op
      e.result = (track env l e).map fun l => (l.slice, l.read)) (t : ℕ) :
    listingMonitor.after none (ofThread t (es ++ [e])) =
      (listingOf env t (es ++ [e])).map fun l => (l.slice, l.read) := by
  by_cases ht : e.thread = t
  · rw [ofThread_snoc_self es ht, listingOf_snoc_self es ht, Monitor.after_append, hseen t,
      ← hnext (listingOf env t es)]
    rfl
  · rw [ofThread_snoc_of_ne es ht, listingOf_snoc_of_ne es ht]
    exact hseen t

/-- One load keeps all listings intact, if it disturbs none. -/
theorem AllIntact.load {env : Env} {es : Trace} {e : CallEvent} {r : Slice × Option GoError}
    {loaded : Option (List Note)} (h : AllIntact env es e.before)
    (hloaded : loadedBy env e.op e.before = loaded) (hload : Loaded e.before e.after r loaded)
    (htrack : ∀ l, track env l e = loaded.map fun rows => ⟨r.1, rows, []⟩)
    (hmonitor : ∀ g, listingMonitor.next g e.op e.result = handedOver r)
    (hundisturbed : Undisturbed env es e) : AllIntact env (es ++ [e]) e.after where
  valid := by
    cases hload with
    | rows rows _ hslice hr =>
      rw [hslice]
      exact hr.valid
    | failed _ hslice hgrows _ =>
      rw [hslice]
      exact lt_of_lt_of_le h.valid hgrows
  intact := by
    intro t l hl
    by_cases ht : e.thread = t
    · rw [listingOf_snoc_self es ht, htrack, Option.map_eq_some_iff] at hl
      obtain ⟨rows, hrows, rfl⟩ := hl
      rw [hrows] at hload
      exact intact_of_loaded hload
    · rw [listingOf_snoc_of_ne es ht] at hl
      exact (h.intact t l hl).load hload fun rows hrows =>
        hundisturbed rows (hloaded.trans hrows) t l hl
  seen := by
    apply seen_step h.seen
    intro l
    rw [htrack, hmonitor]
    obtain ⟨s, err⟩ := r
    cases hload with
    | rows rows hok _ _ =>
      obtain rfl : err = none := hok
      rfl
    | failed herr _ _ _ =>
      cases err with
      | none => exact absurd rfl herr
      | some err => rfl

/-- **One call keeps all listings intact**, unless it is a load that disturbs one. -/
theorem allIntact_step {env : Env} {es : Trace} {e : CallEvent} (h : AllIntact env es e.before)
    (hans : handle env e.thread e.op e.before = some (e.result, e.after))
    (hallows : listingMonitor.allows (listingMonitor.after none (ofThread e.thread es)) e.op)
    (hundisturbed : Undisturbed env es e) : AllIntact env (es ++ [e]) e.after := by
  obtain ⟨t, c, w, r, w'⟩ := e
  have hother : isLoad c = false → isIndex c = false →
      AllIntact env (es ++ [⟨t, c, w, r, w'⟩]) w' := by
    intro hload hindex
    obtain ⟨hheap, hslice⟩ := handle_arrays hans hload
    have htrack : ∀ l, track env l ⟨t, c, w, r, w'⟩ = l := by
      intro l
      cases c with
      | loadNotes => exact absurd hload.symm Bool.false_ne_true
      | loadNotesWhere q params => exact absurd hload.symm Bool.false_ne_true
      | index s i => exact absurd hindex.symm Bool.false_ne_true
      | _ => rfl
    constructor
    · rw [hheap, hslice]
      exact h.valid
    · intro u l hl
      rw [hheap]
      apply h.intact u l
      by_cases hu : t = u
      · rw [listingOf_snoc_self (t := u) es hu, htrack] at hl
        exact hl
      · rw [listingOf_snoc_of_ne (t := u) es hu] at hl
        exact hl
    · apply seen_step h.seen
      intro l
      rw [htrack]
      exact (listingMonitor_ignores hload hindex).next r
  cases c with
  | loadNotes =>
    exact h.load (e := ⟨t, .loadNotes, w, r, w'⟩) rfl (loadNotes_loaded h.valid hans)
      (fun _ => rfl) (fun _ => rfl) hundisturbed
  | loadNotesWhere q params =>
    exact h.load (e := ⟨t, .loadNotesWhere q params, w, r, w'⟩) rfl
      (loadNotesWhere_loaded h.valid hans) (fun _ => rfl) (fun _ => rfl) hundisturbed
  | index s i =>
    obtain ⟨read, hread, hi⟩ := hallows.2 s i rfl
    rw [h.seen, Option.map_eq_some_iff] at hread
    obtain ⟨l, hl, hsr⟩ := hread
    rw [Prod.mk.injEq] at hsr
    obtain ⟨rfl, rfl⟩ := hsr
    obtain ⟨hheap, hslice⟩ := handle_arrays hans rfl
    rw [handle, Option.map_eq_some_iff] at hans
    obtain ⟨n, hn, hp⟩ := hans
    have hnr : n = r := congrArg Prod.fst hp
    rw [hi] at hn
    change w.heap.index l.slice l.read.length = some n at hn
    constructor
    · show w'.dbManager.notes.array < w'.heap.arrays.length
      rw [hheap, hslice]
      exact h.valid
    · intro u l' hl'
      show l'.Intact w'.heap
      rw [hheap]
      by_cases hu : t = u
      · rw [listingOf_snoc_self (t := u) es hu, ← hu, hl] at hl'
        rw [← Option.some.inj hl', ← hnr]
        exact (h.intact t l hl).index hn
      · rw [listingOf_snoc_of_ne (t := u) es hu] at hl'
        exact h.intact u l' hl'
    · apply seen_step h.seen
      intro l
      cases l <;> rfl
  | _ => exact hother rfl rfl

/-! ### Interleavings -/

/-- The requests as threads that share the state. -/
def pool (env : Env) (requests : List Request) (w : World) :
    Pool Call Call.Result Response World :=
  ⟨w, requests.map (serveHTTP env)⟩

theorem pool_lists {env : Env} {requests : List Request} {w₀ : World} {ts : List ℕ} {es : Trace}
    {c : Pool Call Call.Result Response World}
    (hrun : (pool env requests w₀).exec (handle env) ts = some (es, c)) :
    (∀ t p, c.threads[t]? = some p →
        Lists env (listingMonitor.after none (ofThread t es)) p) ∧
      ∀ pre e post, es = pre ++ e :: post →
        listingMonitor.allows (listingMonitor.after none (ofThread e.thread pre)) e.op := by
  have hlists : ∀ (t : ℕ) (p : Prog Response), (pool env requests w₀).threads[t]? = some p →
      Lists env none p := by
    intro t p hp
    change (requests.map (serveHTTP env))[t]? = some p at hp
    rw [List.getElem?_map, Option.map_eq_some_iff] at hp
    obtain ⟨request, _, rfl⟩ := hp
    exact serveHTTP_lists env request
  have hfollows := Pool.exec_follows (g := fun _ => none)
    (fun t => Monitor.fits_of_expects (m := listingMonitor) (fun _ _ => trivial) (handle env) t)
    trivial hlists hrun
  exact ⟨hfollows.2.1, fun pre e post hsplit => (hfollows.2.2 pre e post hsplit).2⟩

theorem allIntact_run {env : Env} {requests : List Request} {notes : NotesTable} {ts : List ℕ}
    {es : Trace} {c : Pool Call Call.Result Response World}
    (hrun : (pool env requests (World.initial notes)).exec (handle env) ts = some (es, c))
    (hundisturbed : ∀ pre e post, es = pre ++ e :: post → Undisturbed env pre e) :
    AllIntact env es c.world := by
  refine Pool.exec_induction (handle env)
    (P := fun _ es c => (∀ pre e post, es = pre ++ e :: post → Undisturbed env pre e) →
      AllIntact env es c.world) ?_ ?_ hrun hundisturbed
  · intro _
    exact ⟨Nat.zero_lt_one, fun t l hl => absurd hl (by simp [listingOf, ofThread]), fun t => rfl⟩
  · intro ts es c t e c' hbefore ih hstep hall
    have hsnoc := (Pool.exec_snoc_iff (handle env) _ c' ts t (es ++ [e])).mpr
      ⟨es, c, e, hbefore, hstep, rfl⟩
    have hallows := (pool_lists hsnoc).2 es e [] rfl
    obtain ⟨op, k, r, w, _, hop, rfl, rfl⟩ := (Pool.step_eq_some_iff (handle env) c c' t e).mp hstep
    have hprev := ih fun pre e' post hsplit =>
      hall pre e' (post ++ [_]) (by rw [hsplit, List.append_assoc, List.cons_append])
    exact allIntact_step (e := ⟨t, op, c.world, r, w⟩) hprev hop hallows (hall es _ [] rfl)

/-- The rows of a listing are those of a load of its own request. -/
theorem loaded_of_listingOf {env : Env} {t : ℕ} {es : Trace} {l : Listing}
    (hl : listingOf env t es = some l) :
    ∃ e ∈ es, e.thread = t ∧ loadedBy env e.op e.before = some l.rows := by
  induction es using List.reverseRecOn generalizing l with
  | nil => exact absurd hl (by simp [listingOf, ofThread])
  | append_singleton es e ih =>
    by_cases ht : e.thread = t
    · rw [listingOf_snoc_self es ht] at hl
      have hnew : loadedBy env e.op e.before = some l.rows ∨
          ∃ l', listingOf env t es = some l' ∧ l'.rows = l.rows := by
        obtain ⟨u, c, w, r, w'⟩ := e
        cases c with
        | loadNotes =>
          obtain ⟨rows, hrows, rfl⟩ := Option.map_eq_some_iff.mp hl
          exact Or.inl hrows
        | loadNotesWhere q params =>
          obtain ⟨rows, hrows, rfl⟩ := Option.map_eq_some_iff.mp hl
          exact Or.inl hrows
        | index s i =>
          obtain ⟨l', hl', rfl⟩ := Option.map_eq_some_iff.mp hl
          exact Or.inr ⟨l', hl', rfl⟩
        | _ => exact Or.inr ⟨l, hl, rfl⟩
      rcases hnew with hrows | ⟨l', hl', hsame⟩
      · exact ⟨e, by simp, ht, hrows⟩
      · obtain ⟨d, hd, hthread, hrows⟩ := ih hl'
        rw [hsame] at hrows
        exact ⟨d, List.mem_append_left _ hd, hthread, hrows⟩
    · rw [listingOf_snoc_of_ne es ht] at hl
      obtain ⟨d, hd, hthread, hrows⟩ := ih hl
      exact ⟨d, List.mem_append_left _ hd, hthread, hrows⟩

/-- The listing in an answer consists of exactly the rows that a load of request
`t` returned, in their order. -/
def OwnRows (env : Env) (es : Trace) (t : ℕ) (table : HtmlTable) : Prop :=
  ∃ e ∈ es, e.thread = t ∧ ∃ rows, loadedBy env e.op e.before = some rows ∧
    rows.mapM (noteToHtmlNote env.findAllString env.fuel) = some table.notes

/-- **Each listing shows exactly the rows of its own query**, in every interleaving
in which no load disturbs a listing that is under way. -/
theorem listings_show_own_rows {env : Env} {requests : List Request} {notes : NotesTable}
    {ts : List ℕ} {es : Trace} {c : Pool Call Call.Result Response World}
    (hrun : (pool env requests (World.initial notes)).exec (handle env) ts = some (es, c))
    (hundisturbed : ∀ pre e post, es = pre ++ e :: post → Undisturbed env pre e)
    {t : ℕ} {template : Bytes} {table : HtmlTable}
    (hanswer : c.threads[t]? = some (.ret (.page ⟨template, .htmlTable table⟩))) :
    OwnRows env es t table := by
  have hintact := allIntact_run hrun hundisturbed
  have hshows : ShowsRead env (listingMonitor.after none (ofThread t es))
      (.page ⟨template, .htmlTable table⟩) := (pool_lists hrun).1 t _ hanswer
  obtain ⟨s, read, hg, hlen, hhtml⟩ := hshows template table rfl
  rw [hintact.seen, Option.map_eq_some_iff] at hg
  obtain ⟨l, hl, hsr⟩ := hg
  rw [Prod.mk.injEq] at hsr
  obtain ⟨rfl, rfl⟩ := hsr
  have hl' := hintact.intact t l hl
  have hall : l.read = l.rows := hl'.read.eq_of_length (by rw [hlen, hl'.len])
  obtain ⟨e, he, hthread, hrows⟩ := loaded_of_listingOf hl
  rw [hall] at hhtml
  exact ⟨e, he, hthread, l.rows, hrows, hhtml⟩

/-- A load before which nothing was loaded disturbs no listing. -/
theorem undisturbed_of_first {env : Env} {pre : Trace} {e : CallEvent}
    (hpre : ∀ d ∈ pre, isLoad d.op = false) : Undisturbed env pre e := by
  intro rows _ t l hl
  obtain ⟨d, hd, _, hrows⟩ := loaded_of_listingOf hl
  have hno := hpre d hd
  obtain ⟨u, c, w, r, w'⟩ := d
  cases c with
  | loadNotes => exact absurd hno.symm Bool.false_ne_true
  | loadNotesWhere q params => exact absurd hno.symm Bool.false_ne_true
  | _ => exact absurd hrows (by simp [loadedBy])

theorem undisturbed_of_not_load {env : Env} {pre : Trace} {e : CallEvent}
    (he : isLoad e.op = false) : Undisturbed env pre e := by
  intro rows hrows
  obtain ⟨u, op, w, r, w'⟩ := e
  cases op with
  | loadNotes => exact absurd he.symm Bool.false_ne_true
  | loadNotesWhere q params => exact absurd he.symm Bool.false_ne_true
  | _ => exact absurd hrows (by simp [loadedBy])

/-- A table with two notes, the second of which was changed last. -/
def twoNotes : NotesTable where
  rows := [(1, ⟨ascii "a", [], 1, 1⟩), (2, ⟨ascii "b", [], 2, 2⟩)]
  sorted := by decide

/-- The page that shows notes with these numbers, titles and dates. -/
def tablePage (rows : List (ℤ × Bytes × ℤ)) (filtered : Bool) : Page :=
  ⟨ascii "index.html", .htmlTable ⟨rows.map fun p =>
    ⟨p.1, p.2.1, [], ofUnix p.2.2, ofUnix p.2.2⟩, filtered⟩⟩

/-- Two listings: all notes, and those with an `a` in the title. -/
def twoListings : List Request := [⟨ascii "/", []⟩, ⟨ascii "/TitleFilter/a", []⟩]

/-- The second listing loads its one row when the first has read the element that
this overwrites, and reads it when the first has been answered. -/
theorem listings_show_own_rows_overlapping :
    ∃ es c, (pool quiet twoListings (World.initial twoNotes)).exec (handle quiet)
        [0, 0, 0, 1, 1, 0, 0, 1, 1] = some (es, c) ∧
      c.threads[0]? = some (.ret (.page (tablePage [(2, ascii "b", 2), (1, ascii "a", 1)] false))) ∧
      c.threads[1]? = some (.ret (.page (tablePage [(1, ascii "a", 1)] true))) ∧
      OwnRows quiet es 0 ⟨[⟨2, ascii "b", [], ofUnix 2, ofUnix 2⟩,
        ⟨1, ascii "a", [], ofUnix 1, ofUnix 1⟩], false⟩ ∧
      OwnRows quiet es 1 ⟨[⟨1, ascii "a", [], ofUnix 1, ofUnix 1⟩], true⟩ := by
  have hexec : ((pool quiet twoListings (World.initial twoNotes)).exec (handle quiet)
      [0, 0, 0, 1, 1, 0, 0, 1, 1]).map (fun p => (p.1.map fun e => (e.thread, isLoad e.op),
        (p.1[4]?).map fun e => (loadedBy quiet e.op e.before).map List.length,
        (List.range 2).map fun t => (listingOf quiet t (p.1.take 4)).map fun l => l.read.length)) =
      some ([(0, false), (0, true), (0, false), (1, false), (1, true), (0, false), (0, false),
        (1, false), (1, false)], some (some 1), [some 1, none]) := by
    decide
  have hanswers : ((pool quiet twoListings (World.initial twoNotes)).exec (handle quiet)
      [0, 0, 0, 1, 1, 0, 0, 1, 1]).map (fun p =>
        ((p.2.threads[0]?).bind Program.returned, (p.2.threads[1]?).bind Program.returned)) =
      some (some (.page (tablePage [(2, ascii "b", 2), (1, ascii "a", 1)] false)),
        some (.page (tablePage [(1, ascii "a", 1)] true))) := by
    decide
  obtain ⟨⟨es, c⟩, hrun, hall⟩ := Option.map_eq_some_iff.mp hexec
  rw [hrun, Option.map_some, Option.some.injEq, Prod.mk.injEq, Option.bind_eq_some_iff,
    Option.bind_eq_some_iff] at hanswers
  obtain ⟨⟨p₀, hp₀, hr₀⟩, p₁, hp₁, hr₁⟩ := hanswers
  rw [eq_ret_of_returned hr₀] at hp₀
  rw [eq_ret_of_returned hr₁] at hp₁
  simp only [Prod.mk.injEq] at hall
  obtain ⟨hcalls, hrows, hlistings⟩ := hall
  have hundisturbed : ∀ pre e post, es = pre ++ e :: post → Undisturbed quiet pre e := by
    intro pre e post hsplit
    have htake : es.take pre.length = pre := by rw [hsplit, List.take_left]
    have he : es[pre.length]? = some e := by
      rw [hsplit, List.getElem?_append_right le_rfl, Nat.sub_self]
      rfl
    -- the calls 1 and 4 are the loads
    have hload : isLoad e.op = true → pre.length = 1 ∨ pre.length = 4 := by
      intro hload
      have hcall := congrArg (fun l => l[pre.length]?) hcalls
      simp only [List.getElem?_map, he, Option.map_some, hload] at hcall
      have hlen : pre.length < 9 := (List.getElem?_eq_some_iff.mp hcall.symm).1
      generalize pre.length = p at hcall hlen
      interval_cases p <;> simp_all
    cases hflag : isLoad e.op with
    | false => exact undisturbed_of_not_load hflag
    | true =>
      have hthreads := congrArg (List.take pre.length) hcalls
      rw [← List.map_take, htake] at hthreads
      rcases hload hflag with hone | hfour
      · apply undisturbed_of_first
        intro d hd
        have hmem := List.mem_map_of_mem (f := fun e => (e.thread, isLoad e.op)) hd
        rw [hthreads, hone] at hmem
        exact (congrArg Prod.snd (List.mem_singleton.mp hmem))
      · -- the load has one row, and the first listing has read one element
        intro rows hrows' t l hl _ i hread _ hlt
        rw [hfour] at he htake
        rw [he, Option.map_some, hrows', Option.some.injEq, Option.map_some,
          Option.some.injEq] at hrows
        rw [htake] at hlistings
        obtain ⟨d, hd, hdt, _⟩ := loaded_of_listingOf hl
        have hmem := List.mem_map_of_mem (f := fun e => (e.thread, isLoad e.op)) hd
        rw [hthreads, hfour, hdt] at hmem
        have hcase : t = 0 ∨ t = 1 := by
          simp at hmem
          omega
        rcases hcase with rfl | rfl <;>
          simp [List.range_succ, hl] at hlistings
        omega
  exact ⟨es, c, hrun, hp₀, hp₁, listings_show_own_rows hrun hundisturbed hp₀,
    listings_show_own_rows hrun hundisturbed hp₁⟩

/-- The second listing loads its one row while the first has read nothing yet, so
the first shows that row twice. -/
theorem twoListings_contaminated :
    ∃ es c table, (pool quiet twoListings (World.initial twoNotes)).exec (handle quiet)
        [0, 0, 1, 1, 0, 0, 0] = some (es, c) ∧
      c.threads[0]? = some (.ret (.page ⟨ascii "index.html", .htmlTable table⟩)) ∧
      ¬OwnRows quiet es 0 table := by
  have hexec : ((pool quiet twoListings (World.initial twoNotes)).exec (handle quiet)
      [0, 0, 1, 1, 0, 0, 0]).map (fun p => ((p.2.threads[0]?).bind Program.returned,
        (p.1.filter fun e => e.thread == 0).filterMap fun e => loadedBy quiet e.op e.before)) =
      some (some (.page (tablePage [(1, ascii "a", 1), (1, ascii "a", 1)] false)),
        [[Note.newLocal 2 (ascii "b") [] (ofUnix 2) (ofUnix 2),
          Note.newLocal 1 (ascii "a") [] (ofUnix 1) (ofUnix 1)]]) := by
    decide
  obtain ⟨⟨es, c⟩, hrun, hall⟩ := Option.map_eq_some_iff.mp hexec
  rw [Prod.mk.injEq, Option.bind_eq_some_iff] at hall
  obtain ⟨⟨p, hp, hreturned⟩, hloaded⟩ := hall
  rw [eq_ret_of_returned hreturned] at hp
  refine ⟨es, c, _, hrun, hp, ?_⟩
  intro ⟨e, he, hthread, rows, hrows, hhtml⟩
  have hmem : rows ∈ (es.filter fun e => e.thread == 0).filterMap fun e =>
      loadedBy quiet e.op e.before :=
    List.mem_filterMap.mpr ⟨e, List.mem_filter.mpr ⟨he, by rw [hthread]; rfl⟩, hrows⟩
  rw [hloaded, List.mem_singleton] at hmem
  rw [hmem] at hhtml
  exact absurd hhtml (by decide)

end ShareNotes.ConcurrentListings
