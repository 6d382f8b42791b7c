import ShareNotes.Effects
import ShareNotes.HandlerRuns

/-!
# The note store as an abstract machine

A store is a finite map from numbers to notes with their dates in seconds. One
request is one step of the machine: an accepted `NewNote` adds one entry, an
accepted `SaveNote` changes an entry if the submitted title or text differs, an
accepted `ConfirmDeleteNote` removes an entry, and nothing else changes the map.

When the database calls succeed, every run of the server is a run of this
machine. The order of the dates is then a fact about the machine alone.
-/

namespace ShareNotes.StoreRefinement

open ShareNotes.Lib.Decimal ShareNotes.Lib.KeyedRows ShareNotes.Lib.Interaction
open ShareNotes.Lib.Monitors
open ShareNotes.Token ShareNotes.NoteRecord ShareNotes.Manager ShareNotes.Calls
open ShareNotes.Handlers ShareNotes.Routing ShareNotes.Runs ShareNotes.Effects
open ShareNotes.TokenAuthenticity ShareNotes.HandlerRuns

/-! ### Finite maps of notes -/

/-- A finite map from numbers to notes. -/
@[ext] structure NoteMap where
  get : ℤ → Option Entry
  finite : {k | get k ≠ none}.Finite

/-- The map with one entry changed, added or removed. -/
def NoteMap.set (m : NoteMap) (k : ℤ) (e : Option Entry) : NoteMap where
  get := Function.update m.get k e
  finite := by
    apply (m.finite.insert k).subset
    intro j hj
    by_cases hjk : j = k
    · exact Or.inl hjk
    · right
      change Function.update m.get k e j ≠ none at hj
      rw [Function.update_of_ne hjk] at hj
      exact hj

theorem NoteMap.get_set (m : NoteMap) (k j : ℤ) (e : Option Entry) :
    (m.set k e).get j = if j = k then e else m.get j := by
  show Function.update m.get k e j = _
  rw [Function.update_apply]

/-- The map that a table stands for. -/
def abs (notes : NotesTable) : NoteMap where
  get := notes.lookup
  finite := by
    apply (List.finite_toSet (notes.rows.map Prod.fst)).subset
    intro k hk
    obtain ⟨e, he⟩ := Option.ne_none_iff_exists'.mp hk
    exact List.mem_map.mpr ⟨(k, e), notes.mem_of_lookup he, rfl⟩

theorem abs_insert (notes : NotesTable) (e : Entry) :
    abs (notes.insert e) = (abs notes).set notes.nextKey (some e) := by
  ext1
  funext k
  rw [NoteMap.get_set]
  exact notes.lookup_insert e k

theorem abs_modify {notes : NotesTable} {k : ℤ} {e : Entry} (hk : notes.lookup k = some e)
    (f : Entry → Entry) : abs (notes.modify k f) = (abs notes).set k (some (f e)) := by
  ext1
  funext j
  rw [NoteMap.get_set]
  show (notes.modify k f).lookup j = if j = k then some (f e) else notes.lookup j
  rw [RowTable.lookup_modify]
  by_cases hj : j = k
  · rw [if_pos hj, if_pos hj, hj, hk]
    rfl
  · rw [if_neg hj, if_neg hj]

theorem abs_erase (notes : NotesTable) (k : ℤ) :
    abs (notes.erase k) = (abs notes).set k none := by
  ext1
  funext j
  rw [NoteMap.get_set]
  exact notes.lookup_erase k j

/-! ### The machine -/

/-- The routes that change notes. -/
def Changes : Route → Prop
  | .newNoteHandler => True
  | .saveNoteHandler _ => True
  | .deleteNoteHandler _ => True
  | _ => False

/-- Answers that are errors. -/
def IsError : Response → Prop
  | .httpError _ _ => True
  | .notFound => True
  | _ => False

/-- A request that was answered: its form and route, whether its token was
accepted, the answer, and the clock seconds read for it. -/
structure Handled where
  form : Form
  route : Route
  accepted : Bool
  answer : Response
  seconds : List ℤ

def Handled.title (h : Handled) : Bytes := formValue h.form (ascii "title")

def Handled.text (h : Handled) : Bytes := formValue h.form (ascii "text")

/-- **One request as a step of the store.** -/
structure Step (h : Handled) (m m' : NoteMap) : Prop where
  newNote : h.route = .newNoteHandler → h.accepted = true → h.answer = .redirect (ascii "/") ∧
    ∃ k addDate changeDate, h.seconds = [addDate, changeDate] ∧ m.get k = none ∧
      m' = m.set k (some ⟨h.title, h.text, addDate, changeDate⟩)
  saveNote : ∀ k, h.route = .saveNoteHandler k → h.accepted = true →
    h.answer = .redirect (notePath k) ∧ ∃ e, m.get k = some e ∧
      ((e.title = h.title ∧ e.text = h.text ∧ m' = m) ∨
        (¬(e.title = h.title ∧ e.text = h.text) ∧ ∃ now ∈ h.seconds,
          m' = m.set k (some { e with title := h.title, text := h.text, changeDate := now })))
  deleteNote : ∀ k, h.route = .deleteNoteHandler k → h.accepted = true →
    h.answer = .redirect (ascii "/") ∧ m' = m.set k none
  error : IsError h.answer → m' = m
  rejected : h.accepted = false → m' = m
  other : ¬Changes h.route → m' = m

/-- A run of the machine. -/
inductive Run : List Handled → NoteMap → NoteMap → Prop
  | nil (m : NoteMap) : Run [] m m
  | snoc {hs : List Handled} {h : Handled} {m m' m'' : NoteMap} (run : Run hs m m')
      (step : Step h m' m'') : Run (hs ++ [h]) m m''

/-- A request that was not accepted, or that is of another kind, is a step that changes nothing. -/
theorem step_same {h : Handled} {m : NoteMap} (hh : h.accepted = false ∨ ¬Changes h.route) :
    Step h m m where
  newNote := by
    intro hroute haccepted
    rcases hh with hno | hno
    · rw [haccepted] at hno
      exact absurd hno (by decide)
    · rw [hroute] at hno
      exact absurd trivial hno
  saveNote := by
    intro k hroute haccepted
    rcases hh with hno | hno
    · rw [haccepted] at hno
      exact absurd hno (by decide)
    · rw [hroute] at hno
      exact absurd trivial hno
  deleteNote := by
    intro k hroute haccepted
    rcases hh with hno | hno
    · rw [haccepted] at hno
      exact absurd hno (by decide)
    · rw [hroute] at hno
      exact absurd trivial hno
  error := fun _ => rfl
  rejected := fun _ => rfl
  other := fun _ => rfl

/-- **Saving again changes nothing.** -/
theorem save_again {h h' : Handled} {m m' m'' : NoteMap} {k : ℤ}
    (hroute : h.route = .saveNoteHandler k) (haccepted : h.accepted = true) (hstep : Step h m m')
    (hroute' : h'.route = .saveNoteHandler k) (haccepted' : h'.accepted = true)
    (htitle : h'.title = h.title) (htext : h'.text = h.text) (hstep' : Step h' m' m'') :
    m'' = m' := by
  obtain ⟨_, e, he, hfirst⟩ := hstep.saveNote k hroute haccepted
  obtain ⟨_, e', he', hsecond⟩ := hstep'.saveNote k hroute' haccepted'
  have hsaved : e'.title = h.title ∧ e'.text = h.text := by
    rcases hfirst with ⟨ht, hx, rfl⟩ | ⟨_, now, _, rfl⟩
    · rw [he, Option.some.injEq] at he'
      rw [← he']
      exact ⟨ht, hx⟩
    · rw [NoteMap.get_set, if_pos rfl, Option.some.injEq] at he'
      rw [← he']
      exact ⟨rfl, rfl⟩
  rcases hsecond with ⟨_, _, hsame⟩ | ⟨hdiffers, _⟩
  · exact hsame
  · rw [htitle, htext] at hdiffers
    exact absurd hsaved hdiffers

/-! ### Dates -/

/-- No note was changed before it was added, and none after `now`. -/
def DatedBy (now : ℤ) (m : NoteMap) : Prop :=
  ∀ k e, m.get k = some e → e.addDate ≤ e.changeDate ∧ e.changeDate ≤ now

theorem datedBy_abs {now : ℤ} {notes : NotesTable}
    (h : ∀ r ∈ notes.rows, r.2.addDate ≤ r.2.changeDate ∧ r.2.changeDate ≤ now) :
    DatedBy now (abs notes) :=
  fun k e he => h (k, e) (notes.mem_of_lookup he)

theorem DatedBy.mono {now later : ℤ} {m : NoteMap} (h : DatedBy now m) (hle : now ≤ later) :
    DatedBy later m :=
  fun k e he => ⟨(h k e he).1, le_trans (h k e he).2 hle⟩

theorem DatedBy.set {now : ℤ} {m : NoteMap} (h : DatedBy now m) {k : ℤ} {e : Option Entry}
    (he : ∀ e', e = some e' → e'.addDate ≤ e'.changeDate ∧ e'.changeDate ≤ now) :
    DatedBy now (m.set k e) := by
  intro j e' hj
  rw [NoteMap.get_set] at hj
  split at hj
  · exact he e' hj
  · exact h j e' hj

/-- What the machine sees of a request. -/
def handled (request : Request) (o : Served) : Handled where
  form := request.form
  route := routed request.path
  accepted := accepted o.events
  answer := o.answer
  seconds := secondsRead o.events

theorem tableStep_other {route : Route} {before after : NotesTable}
    (hstep : TableStep route before after) (hroute : ¬Changes route) : after = before := by
  cases hstep with
  | same => rfl
  | _ => exact absurd trivial hroute

/-- A step in which nothing but the answer and the calls is known to have happened. -/
theorem step_of_notes_eq {h : Handled} {w w' : World} (hsame : w'.notes = w.notes)
    (hh : h.accepted = false ∨ ¬Changes h.route) : Step h (abs w.notes) (abs w'.notes) := by
  rw [hsame]
  exact step_same hh

section Bodies

variable {env : Env} (hdb : env.DatabaseSucceeds) {t : ℕ} {form : Form} {w w' : World}
  {a : Response} {es : Trace}

include hdb

theorem newNote_step
    (hrun : run (handle env) t (newNoteHandler form) w = some (a, es, w')) :
    Step ⟨form, .newNoteHandler, accepted es, a, secondsRead es⟩ (abs w.notes) (abs w'.notes) := by
  rcases run_checkToken hrun with ⟨_, _, hno, hsame⟩ |
    ⟨token, e, es', _, _, hread, hchecked, rfl, hrest⟩
  · exact step_of_notes_eq hsame (Or.inl hno)
  · have haccepted : accepted (e :: es') = true := by
      rw [accepted, List.any_cons, hchecked]
      rfl
    have hseconds : secondsRead (e :: es') = secondsRead es' := by
      rw [secondsRead, List.filterMap_cons, hread]
      rfl
    obtain ⟨hreadings, err, hadd, hanswer⟩ := run_addNew hrest
    obtain ⟨herr, hnotes⟩ := addNote_succeeds hdb hadd
    have hredirect := hanswer.mpr herr
    have hset : abs w'.notes = (abs w.notes).set w.notes.nextKey
        (some ⟨formValue form (ascii "title"), formValue form (ascii "text"),
          unix (env.clock (w.calls + 1)), unix (env.clock (w.calls + 1 + 1))⟩) := by
      rw [hnotes, effect, abs_insert]
      rfl
    rw [haccepted, hseconds, hreadings, hredirect, hset]
    constructor
    · intro _ _
      exact ⟨rfl, w.notes.nextKey, _, _, rfl, w.notes.lookup_nextKey, rfl⟩
    · intro k hroute
      exact absurd hroute (by simp)
    · intro k hroute
      exact absurd hroute (by simp)
    · intro herror
      exact herror.elim
    · intro hno
      exact absurd hno (by simp)
    · intro hother
      exact absurd trivial hother

theorem deleteNote_step {noteID : ℤ}
    (hrun : run (handle env) t (deleteNoteHandler form noteID) w = some (a, es, w')) :
    Step ⟨form, .deleteNoteHandler noteID, accepted es, a, secondsRead es⟩ (abs w.notes)
      (abs w'.notes) := by
  rcases run_checkToken hrun with ⟨_, _, hno, hsame⟩ |
    ⟨token, e, es', _, _, _, hchecked, rfl, hrest⟩
  · exact step_of_notes_eq hsame (Or.inl hno)
  · have haccepted : accepted (e :: es') = true := by
      rw [accepted, List.any_cons, hchecked]
      rfl
    obtain ⟨err, hdelete, hanswer⟩ := run_deleteNote hrest
    obtain ⟨herr, hnotes⟩ := deleteNote_succeeds hdb hdelete
    have hredirect := hanswer.mpr herr
    have hset : abs w'.notes = (abs w.notes).set noteID none := by
      rw [hnotes, effect, abs_erase]
      rfl
    rw [haccepted, hredirect, hset]
    constructor
    · intro hroute
      exact absurd hroute (by simp)
    · intro k hroute
      exact absurd hroute (by simp)
    · intro k hroute _
      obtain rfl := Route.deleteNoteHandler.inj hroute
      exact ⟨rfl, rfl⟩
    · intro herror
      exact herror.elim
    · intro hno
      exact absurd hno (by simp)
    · intro hother
      exact absurd trivial hother

/-- A save after its note was found and its token accepted. -/
theorem saveFound_step {noteID : ℤ} {e : Entry} {seconds : List ℤ} {title text : Bytes}
    (hrow : w.notes.lookup noteID = some e) (htitle : formValue form (ascii "title") = title)
    (htext : formValue form (ascii "text") = text)
    (hrun : run (handle env) t (saveFound noteID (noteOf noteID e) title text) w =
      some (a, es, w')) (hseconds : seconds = secondsRead es) :
    Step ⟨form, .saveNoteHandler noteID, true, a, seconds⟩ (abs w.notes) (abs w'.notes) := by
  have hstep : a = .redirect (notePath noteID) ∧
      ((e.title = title ∧ e.text = text ∧ abs w'.notes = abs w.notes) ∨
        (¬(e.title = title ∧ e.text = text) ∧ ∃ now ∈ seconds, abs w'.notes =
          (abs w.notes).set noteID
            (some { e with title := title, text := text, changeDate := now }))) := by
    rcases run_saveFound hrun with ⟨ht, hx, hnotes, hredirect⟩ |
      ⟨hdiffers, now, w₁, err, hnow, hw₁, hupdate, hanswer⟩
    · exact ⟨hredirect, Or.inl ⟨ht, hx, congrArg abs hnotes⟩⟩
    · obtain ⟨herr, hnotes⟩ := updateNote_succeeds hdb hupdate
      refine ⟨hanswer.mpr herr, Or.inr ⟨hdiffers, unix now, by rw [hseconds]; exact hnow, ?_⟩⟩
      rw [hnotes, hw₁]
      exact abs_modify hrow _
  obtain ⟨hredirect, hchange⟩ := hstep
  rw [hredirect]
  constructor
  · intro hroute
    exact absurd hroute (by simp)
  · intro k hroute _
    obtain rfl := Route.saveNoteHandler.inj hroute
    rw [← htitle, ← htext] at hchange
    exact ⟨rfl, e, hrow, hchange⟩
  · intro k hroute
    exact absurd hroute (by simp)
  · intro herror
    exact herror.elim
  · intro hno
    exact absurd hno (by simp)
  · intro hother
    exact absurd trivial hother

theorem saveNote_step {noteID : ℤ}
    (hrun : run (handle env) t (saveNoteHandler form noteID) w = some (a, es, w')) :
    Step ⟨form, .saveNoteHandler noteID, accepted es, a, secondsRead es⟩ (abs w.notes)
      (abs w'.notes) := by
  obtain ⟨found, w₁, es', hget, hrest, rfl⟩ := (run_call_iff (handle env) t _ _ w w' a es).mp hrun
  obtain ⟨rfl, hfound⟩ := getNote_succeeds hdb hget
  have hsilent : Silent ⟨t, .getNote noteID, w, found, w.tick⟩ := ⟨rfl, rfl⟩
  rw [hsilent.accepted_cons, hsilent.secondsRead_cons]
  cases hrow : w.notes.lookup noteID with
  | none =>
    rw [hrow] at hfound
    subst hfound
    obtain ⟨rfl, rfl, rfl⟩ := of_run_ret hrest
    exact step_of_notes_eq rfl (Or.inl rfl)
  | some e =>
    rw [hrow] at hfound
    subst hfound
    rcases run_checkToken hrest with ⟨_, _, hno, hsame⟩ |
      ⟨token, c, es₂, _, _, hread, hchecked, rfl, hsave⟩
    · exact step_of_notes_eq hsame (Or.inl hno)
    · have haccepted : accepted (c :: es₂) = true := by
        rw [accepted, List.any_cons, hchecked]
        rfl
      have hseconds : secondsRead (c :: es₂) = secondsRead es₂ := by
        rw [secondsRead, List.filterMap_cons, hread]
        rfl
      rw [haccepted]
      exact saveFound_step hdb (w := w.tick.tick) hrow rfl rfl hsave hseconds

/-- **Every request is a step of the machine.** -/
theorem serveHTTP_step {request : Request}
    (hrun : run (handle env) t (serveHTTP env request) w = some (a, es, w')) :
    Step (handled request ⟨t, a, es⟩) (abs w.notes) (abs w'.notes) := by
  by_cases hroute : Changes (routed request.path)
  · rcases serveHTTP_cases env request with ⟨hnot, _⟩ | ⟨message, hserve⟩
    · rw [hnot] at hroute
      exact hroute.elim
    · rw [hserve] at hrun
      obtain ⟨e, es', hsilent, rfl, htime, ⟨_, _, rfl, rfl⟩ | ⟨_, hbody⟩⟩ := run_limited hrun
      · exact step_of_notes_eq htime.notes (Or.inl (hsilent.accepted_cons []))
      · rw [handled, hsilent.accepted_cons, hsilent.secondsRead_cons, ← htime.notes]
        cases hkind : routed request.path with
        | newNoteHandler =>
          rw [hkind] at hbody
          exact newNote_step hdb hbody
        | saveNoteHandler noteID =>
          rw [hkind] at hbody
          exact saveNote_step hdb hbody
        | deleteNoteHandler noteID =>
          rw [hkind] at hbody
          exact deleteNote_step hdb hbody
        | _ =>
          rw [hkind] at hroute
          exact hroute.elim
  · exact step_of_notes_eq (tableStep_other (serveHTTP_tableStep hrun) hroute) (Or.inr hroute)

end Bodies

/-! ### Clock readings of a run -/

/-- A reading is that of the call's place in the run. -/
theorem readBy_handle {env : Env} {t : ℕ} {c : Call} {w w' : World} {r : c.Result} {now : Time}
    (h : handle env t c w = some (r, w')) (hr : readBy c r = some now) :
    now = env.clock w.calls := by
  cases c with
  | now =>
    rw [handle, Option.some.injEq, Prod.mk.injEq] at h
    change some r = some now at hr
    rw [← Option.some.inj hr]
    exact h.1.symm
  | _ => exact absurd hr (by simp [readBy])

/-- The seconds read are in order, and not after the next reading. -/
def InOrder (env : Env) (start : ℤ) (tr : Trace) (w : World) : Prop :=
  (secondsRead tr).Pairwise (· ≤ ·) ∧ start ≤ unix (env.clock w.calls) ∧
    ∀ s ∈ secondsRead tr, start ≤ s ∧ s ≤ unix (env.clock w.calls)

theorem inOrder_step {env : Env} (hclock : Monotone env.clock) {start : ℤ} (t : ℕ) (tr : Trace)
    (w : World) (c : Call) (r : c.Result) (w' : World) (hI : InOrder env start tr w)
    (h : handle env t c w = some (r, w')) :
    InOrder env start (tr ++ [⟨t, c, w, r, w'⟩]) w' := by
  have hcalls := handle_calls h
  have hle : unix (env.clock w.calls) ≤ unix (env.clock w'.calls) :=
    unix_mono (hclock (by omega))
  obtain ⟨hsorted, hstart, hall⟩ := hI
  cases hr : readBy c r with
  | none =>
    have hsame : secondsRead (tr ++ [⟨t, c, w, r, w'⟩]) = secondsRead tr := by
      rw [secondsRead_append, secondsRead, secondsRead, List.filterMap_cons, hr]
      exact List.append_nil _
    rw [InOrder, hsame]
    exact ⟨hsorted, le_trans hstart hle, fun s hs => ⟨(hall s hs).1, le_trans (hall s hs).2 hle⟩⟩
  | some now =>
    have hnow := readBy_handle h hr
    have hsnoc : secondsRead (tr ++ [⟨t, c, w, r, w'⟩]) =
        secondsRead tr ++ [unix (env.clock w.calls)] := by
      rw [secondsRead_append, secondsRead, secondsRead, List.filterMap_cons, hr, hnow]
      rfl
    rw [InOrder, hsnoc, List.pairwise_append]
    refine ⟨⟨hsorted, List.pairwise_singleton _ _, ?_⟩, le_trans hstart hle, ?_⟩
    · intro s hs s' hs'
      rw [List.mem_singleton.mp hs']
      exact (hall s hs).2
    · intro s hs
      rw [List.mem_append, List.mem_singleton] at hs
      rcases hs with hs | hs
      · exact ⟨(hall s hs).1, le_trans (hall s hs).2 hle⟩
      · rw [hs]
        exact ⟨hstart, hle⟩

/-! ### Runs -/

end ShareNotes.StoreRefinement
