import ShareNotes.Runs

/-!
# What one request can do to the notes

Whatever fails on the way, a request leaves the notes table as it is, or makes
one write, and that write is of the kind of its route: a `NewNote` request adds a
row, a `SaveNote` request changes the row of its number, a `ConfirmDeleteNote`
request removes it, and no other request writes at all.
-/

namespace ShareNotes.Effects

open ShareNotes.Lib.Decimal ShareNotes.Lib.KeyedRows ShareNotes.Lib.Interaction
open ShareNotes.Lib.Monitors
open ShareNotes.NoteRecord ShareNotes.Linkify ShareNotes.Manager ShareNotes.Calls
open ShareNotes.Handlers ShareNotes.Routing ShareNotes.Runs
open Program

/-! ### The monitor of a route -/

def isWrite : Call → Bool
  | .addNote _ => true
  | .updateNote _ => true
  | .deleteNote _ => true
  | _ => false

/-- The writes of a route. -/
def permits : Route → Call → Prop
  | .newNoteHandler, .addNote _ => True
  | .saveNoteHandler noteID, .updateNote n => n.noteID = noteID
  | .deleteNoteHandler noteID, .deleteNote k => k = noteID
  | _, _ => False

/-- The note that is found has the number that was looked up. -/
def foundAsAsked : (c : Call) → c.Result → Prop
  | .getNote noteID, .ok n => n.noteID = noteID
  | _, _ => True

/-- At most one write, and one of the route. The state says whether it was made. -/
def routeWrites (route : Route) : Monitor Call Call.Result Bool where
  allows wrote c := isWrite c = true → wrote = false ∧ permits route c
  expects := foundAsAsked
  next wrote c _ := wrote || isWrite c

/-- The result of a lookup, a failure apart, is the note of the row. -/
theorem getNote_ok {db : Database} {o : LookupOutcome} {noteID : ℤ} {n : Note}
    (h : db.getNote o noteID = .ok n) :
    ∃ e, db.notes.lookup noteID = some e ∧ n = noteOf noteID e := by
  rw [Database.getNote] at h
  cases hprepare : o.prepareErr with
  | some err =>
    rw [hprepare] at h
    exact absurd h (by simp)
  | none =>
    cases hscan : o.scanErr with
    | some err =>
      rw [hprepare, hscan] at h
      exact absurd h (by simp)
    | none =>
      rw [hprepare, hscan, integerAffinity_itoa] at h
      dsimp only [Option.bind_some] at h
      cases hrow : db.notes.lookup noteID with
      | none =>
        rw [hrow] at h
        exact absurd h (by simp)
      | some e =>
        rw [hrow] at h
        exact ⟨e, rfl, (Except.ok.inj h).symm⟩

theorem getNote_noteID {db : Database} {o : LookupOutcome} {noteID : ℤ} {n : Note}
    (h : db.getNote o noteID = .ok n) : n.noteID = noteID := by
  obtain ⟨e, _, hn⟩ := getNote_ok h
  rw [hn]
  rfl

theorem foundAsAsked_handle {env : Env} {t : ℕ} {c : Call} {w w' : World} {r : c.Result}
    (h : handle env t c w = some (r, w')) : foundAsAsked c r := by
  cases c with
  | getNote noteID =>
    cases r with
    | error err => exact trivial
    | ok n =>
      rw [handle, Option.some.injEq, Prod.mk.injEq] at h
      exact getNote_noteID h.1
  | _ => exact trivial

theorem routeWrites_ignores {route : Route} {wrote : Bool} {c : Call} (hc : isWrite c = false) :
    (routeWrites route).Ignores wrote c where
  allows := by
    intro h
    rw [hc] at h
    exact absurd h Bool.false_ne_true
  next := by
    intro r
    show (wrote || isWrite c) = wrote
    rw [hc, Bool.or_false]

/-- A program whose writes are those of the route. -/
abbrev WritesOf (route : Route) (wrote : Bool) (p : Prog Response) : Prop :=
  Follows (routeWrites route) (fun _ _ => True) wrote p

theorem writesOf_call {route : Route} {wrote : Bool} {c : Call} {k : c.Result → Prog Response}
    (hc : isWrite c = false) (hk : ∀ r, foundAsAsked c r → WritesOf route wrote (k r)) :
    WritesOf route wrote (.call c k) :=
  follows_ignored (routeWrites_ignores hc) hk

/-- The one write of a handler, and the response to it. -/
theorem writesOf_write {route : Route} {c : Call} {k : c.Result → Prog Response}
    (hc : permits route c) (hk : ∀ r, WritesOf route (false || isWrite c) (k r)) :
    WritesOf route false (.call c k) :=
  ⟨fun _ => ⟨rfl, hc⟩, fun r _ => hk r⟩

/-! ### The handlers -/

theorem executePage_writesOf (route : Route) (wrote : Bool) (page : Page) :
    WritesOf route wrote (executePage page) := by
  refine writesOf_call rfl fun r _ => ?_
  cases r <;> exact trivial

theorem afterWrite_writesOf (route : Route) (wrote : Bool) (url : Bytes) (err : Option GoError) :
    WritesOf route wrote (afterWrite url err) := by
  cases err <;> exact trivial

theorem listing_writesOf (route : Route) (wrote : Bool) (toHtml : Note → Option HtmlNote)
    (filtered : Bool) (loaded : Lib.Slices.Slice × Option GoError) :
    WritesOf route wrote (listing toHtml filtered loaded) :=
  listing_follows (fun _ _ => routeWrites_ignores rfl) (routeWrites_ignores rfl)
    (fun _ => executePage_writesOf route wrote _) (fun _ => trivial) toHtml filtered loaded

theorem checkToken_writesOf {route : Route} {wrote : Bool} {form : Form} {invalid : Bytes}
    {rest : Prog Response} (hrest : WritesOf route wrote rest) :
    WritesOf route wrote (checkToken form invalid rest) := by
  rw [checkToken]
  cases submittedToken form with
  | error err => exact trivial
  | ok token =>
    refine writesOf_call rfl fun valid _ => ?_
    cases valid with
    | true => exact hrest
    | false => exact trivial

theorem saveIfDirty_writesOf {noteID : ℤ} {saved : Bool × Note} (hsaved : saved.2.noteID = noteID) :
    WritesOf (.saveNoteHandler noteID) false (saveIfDirty noteID saved) := by
  obtain ⟨dirtyBit, foundNote⟩ := saved
  cases dirtyBit with
  | true => exact writesOf_write hsaved fun err => afterWrite_writesOf _ _ _ err
  | false => exact trivial

theorem saveText_writesOf {noteID : ℤ} (text : Bytes) {titled : Bool × Note}
    (htitled : titled.2.noteID = noteID) :
    WritesOf (.saveNoteHandler noteID) false (saveText text titled >>= saveIfDirty noteID) := by
  rw [saveText]
  split
  · exact writesOf_call rfl fun now _ => saveIfDirty_writesOf htitled
  · exact saveIfDirty_writesOf htitled

theorem saveTitle_writesOf {noteID : ℤ} {foundNote : Note} (hfound : foundNote.noteID = noteID)
    (title text : Bytes) :
    WritesOf (.saveNoteHandler noteID) false (saveTitle foundNote title >>= fun titled =>
      saveText text titled >>= saveIfDirty noteID) := by
  rw [saveTitle]
  split
  · exact writesOf_call rfl fun now _ => saveText_writesOf text hfound
  · exact saveText_writesOf text hfound

/-- **Every handler body** makes at most the one write of its route. -/
theorem body_writesOf (env : Env) (form : Form) (route : Route) :
    WritesOf route false (route.body env form) := by
  cases route with
  | indexHandler => exact writesOf_call rfl fun loaded _ => listing_writesOf _ false _ false loaded
  | addNoteHandler => exact writesOf_call rfl fun token _ => executePage_writesOf _ false _
  | newNoteHandler =>
    refine checkToken_writesOf ?_
    refine writesOf_call rfl fun addDate _ => ?_
    refine writesOf_call rfl fun changeDate _ => ?_
    exact writesOf_write trivial fun err => afterWrite_writesOf _ _ _ err
  | preparePostHandler urlName noteID =>
    refine writesOf_call rfl fun found _ => ?_
    cases found with
    | error err => exact trivial
    | ok foundNote => exact writesOf_call rfl fun token _ => executePage_writesOf _ false _
  | noteDetailsHandler noteID =>
    refine writesOf_call rfl fun found _ => ?_
    cases found with
    | error err => exact trivial
    | ok foundNote =>
      exact details_follows (routeWrites_ignores rfl) fun h _ => executePage_writesOf _ false _
  | saveNoteHandler noteID =>
    refine writesOf_call rfl fun found hfound => ?_
    cases found with
    | error err => exact trivial
    | ok foundNote => exact checkToken_writesOf (saveTitle_writesOf hfound _ _)
  | deleteNoteHandler noteID =>
    refine checkToken_writesOf ?_
    exact writesOf_write rfl fun err => afterWrite_writesOf _ _ _ err
  | pasteBinNoteHandler noteID =>
    refine checkToken_writesOf ?_
    refine writesOf_call rfl fun found _ => ?_
    cases found with
    | error err => exact trivial
    | ok foundNote =>
      refine writesOf_call rfl fun output _ => ?_
      cases output <;> exact trivial
  | titleFilterHandler filterInput =>
    exact writesOf_call rfl fun loaded _ => listing_writesOf _ false _ true loaded
  | textFilterHandler filterInput =>
    exact writesOf_call rfl fun loaded _ => listing_writesOf _ false _ true loaded
  | bothFilterHandler filterInput =>
    exact writesOf_call rfl fun loaded _ => listing_writesOf _ false _ true loaded
  | notFound => exact trivial

/-! ### Requests -/

theorem effect_of_not_write {c : Call} (hc : isWrite c = false) (notes : NotesTable) :
    effect c notes = notes := by
  cases c with
  | addNote n => exact absurd hc (by simp [isWrite])
  | updateNote n => exact absurd hc (by simp [isWrite])
  | deleteNote noteID => exact absurd hc (by simp [isWrite])
  | _ => rfl

/-- A run leaves the notes alone, or has the effect of one write of the route. -/
theorem run_effect {env : Env} {route : Route} {wrote : Bool} {p : Prog Response}
    (hp : WritesOf route wrote p) {t : ℕ} {w w' : World} {a : Response} {es : Trace}
    (hrun : run (handle env) t p w = some (a, es, w')) :
    w'.notes = w.notes ∨
      (wrote = false ∧ ∃ c, isWrite c = true ∧ permits route c ∧ w'.notes = effect c w.notes) := by
  induction p generalizing wrote w es with
  | ret b =>
    obtain ⟨_, _, rfl⟩ := of_run_ret hrun
    exact Or.inl rfl
  | call c k ih =>
    obtain ⟨r, u, es', hop, hrest, _⟩ := (run_call_iff (handle env) t c k w w' a es).mp hrun
    have hnext := ih r (hp.2 r (foundAsAsked_handle hop)) hrest
    have hcall := handle_notes hop
    cases hc : isWrite c with
    | false =>
      have hsame : u.notes = w.notes := by
        rw [effect_of_not_write hc] at hcall
        exact hcall.elim id id
      change _ ∨ ((wrote || isWrite c) = false ∧ _) at hnext
      rw [hc, Bool.or_false, hsame] at hnext
      exact hnext
    | true =>
      obtain ⟨hwrote, hpermits⟩ := hp.1 hc
      have hlast : w'.notes = u.notes := by
        rcases hnext with hsame | ⟨hfalse, _⟩
        · exact hsame
        · change (wrote || isWrite c) = false at hfalse
          rw [hc, Bool.or_true] at hfalse
          exact absurd hfalse (by decide)
      rcases hcall with hsame | heffect
      · exact Or.inl (hlast.trans hsame)
      · exact Or.inr ⟨hwrote, c, hc, hpermits, hlast.trans heffect⟩

/-- What happens to the table of notes when a request is routed. -/
inductive TableStep : Route → NotesTable → NotesTable → Prop
  | same (route : Route) (notes : NotesTable) : TableStep route notes notes
  | insert (notes : NotesTable) (e : Entry) : TableStep .newNoteHandler notes (notes.insert e)
  | modify (notes : NotesTable) (noteID : ℤ) (f : Entry → Entry) :
    TableStep (.saveNoteHandler noteID) notes (notes.modify noteID f)
  | erase (notes : NotesTable) (noteID : ℤ) :
    TableStep (.deleteNoteHandler noteID) notes (notes.erase noteID)

theorem tableStep_of_permits {route : Route} {c : Call} (hc : permits route c)
    (notes : NotesTable) : TableStep route notes (effect c notes) := by
  cases route with
  | newNoteHandler =>
    cases c with
    | addNote n => exact .insert notes _
    | _ => exact absurd hc (by simp [permits])
  | saveNoteHandler noteID =>
    cases c with
    | updateNote n =>
      change n.noteID = noteID at hc
      rw [effect, hc]
      exact .modify notes noteID _
    | _ => exact absurd hc (by simp [permits])
  | deleteNoteHandler noteID =>
    cases c with
    | deleteNote k =>
      change k = noteID at hc
      rw [effect, hc]
      exact .erase notes noteID
    | _ => exact absurd hc (by simp [permits])
  | _ => exact absurd hc (by simp [permits])

/-- **One request changes the notes as its route says**, whatever fails. -/
theorem serveHTTP_tableStep {env : Env} {request : Request} {t : ℕ} {w w' : World} {a : Response}
    {es : Trace} (hrun : run (handle env) t (serveHTTP env request) w = some (a, es, w')) :
    TableStep (routed request.path) w.notes w'.notes := by
  have hwrites : WritesOf (routed request.path) false (serveHTTP env request) := by
    rcases serveHTTP_cases env request with ⟨_, hserve | ⟨url, hserve⟩⟩ | ⟨message, hserve⟩
    · rw [hserve]
      exact trivial
    · rw [hserve]
      exact trivial
    · rw [hserve]
      refine writesOf_call rfl fun tooMany _ => ?_
      cases tooMany with
      | true => exact trivial
      | false => exact body_writesOf env request.form (routed request.path)
  rcases run_effect hwrites hrun with hsame | ⟨_, c, _, hpermits, heffect⟩
  · rw [hsame]
    exact .same _ _
  · rw [heffect]
    exact tableStep_of_permits hpermits w.notes

end ShareNotes.Effects
