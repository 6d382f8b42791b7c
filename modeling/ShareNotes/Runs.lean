import ShareNotes.Lib.Monitors
import ShareNotes.Routing

/-!
# Runs of the server

`serveAll` handles a list of requests one at a time; request `i` of the list is
thread `i`. The first half says what one call can change, the second carries
facts about calls and about requests to whole runs.
-/

namespace ShareNotes.Runs

open ShareNotes.Lib.Decimal ShareNotes.Lib.KeyedRows ShareNotes.Lib.Interaction
open ShareNotes.Lib.Monitors
open ShareNotes.NoteRecord ShareNotes.Linkify ShareNotes.Manager ShareNotes.Calls
open ShareNotes.Handlers ShareNotes.Routing
open Program

/-- A call that was answered. -/
abbrev CallEvent := Event Call Call.Result World

/-- What was answered to one request. -/
abbrev Served := Outcome Call Call.Result Response World

/-! ### What one call changes -/

/-- What a call does to the notes table when it succeeds. -/
def effect : Call → NotesTable → NotesTable
  | .addNote n, notes => notes.insert ⟨n.title, n.text, unix n.addDate, unix n.changeDate⟩
  | .updateNote n, notes =>
    notes.modify n.noteID fun e =>
      { e with title := n.title, text := n.text, changeDate := unix n.changeDate }
  | .deleteNote noteID, notes => notes.erase noteID
  | _, notes => notes

theorem execWrite_notes (db : Database) (o : TxOutcome) (w : Write) :
    (db.execWrite o w).2.notes = db.notes ∨ (db.execWrite o w).2.notes = w.apply db.notes := by
  rw [Database.execWrite]
  cases o.beginErr with
  | some err => exact Or.inl rfl
  | none =>
    cases o.prepareErr with
    | some err => exact Or.inl rfl
    | none =>
      cases o.execErr with
      | some err => exact Or.inl rfl
      | none =>
        cases hcommit : o.commitErr with
        | none => exact Or.inr rfl
        | some err => exact Or.inl rfl

/-- Every call of the transaction succeeds. -/
structure Commits (o : TxOutcome) : Prop where
  beginErr : o.beginErr = none
  prepareErr : o.prepareErr = none
  execErr : o.execErr = none
  commitErr : o.commitErr = none

/-- A write that changes the notes was committed. -/
theorem commits_of_notes_ne {db : Database} {o : TxOutcome} {w : Write}
    (h : (db.execWrite o w).2.notes ≠ db.notes) : Commits o := by
  rw [Database.execWrite] at h
  cases hbegin : o.beginErr with
  | some err =>
    rw [hbegin] at h
    exact absurd rfl h
  | none =>
    cases hprepare : o.prepareErr with
    | some err =>
      rw [hbegin, hprepare] at h
      exact absurd rfl h
    | none =>
      cases hexec : o.execErr with
      | some err =>
        rw [hbegin, hprepare, hexec] at h
        exact absurd rfl h
      | none =>
        cases hcommit : o.commitErr with
        | some err =>
          rw [hbegin, hprepare, hexec, hcommit] at h
          exact absurd rfl h
        | none => exact ⟨hbegin, hprepare, hexec, hcommit⟩

theorem apply_update (title text : Bytes) (changeDate k : ℤ) (notes : NotesTable) :
    (Write.updateNoteExec title text changeDate (itoa k)).apply notes =
      notes.modify k fun e => { e with title := title, text := text, changeDate := changeDate } := by
  rw [Write.apply, integerAffinity_itoa]

theorem apply_delete (k : ℤ) (notes : NotesTable) :
    (Write.deleteNoteExec (itoa k)).apply notes = notes.erase k := by
  rw [Write.apply, integerAffinity_itoa]

theorem appendRows_db (dbm : DatabaseManager) (g : Lib.Slices.Growth)
    (heap : Lib.Slices.Heap Note) (o : ListOutcome) (rows : Except GoError (List ResultRow)) :
    (dbm.appendRows g heap o rows).2.2.db = dbm.db := by
  cases rows <;> rfl

theorem loadNotesWhere_db (dbm : DatabaseManager) (g : Lib.Slices.Growth)
    (heap : Lib.Slices.Heap Note) (o : ListOutcome) (q : SelectQuery) (params : List Bytes) :
    (dbm.loadNotesWhere g heap o q params).2.2.db = dbm.db := by
  rw [DatabaseManager.loadNotesWhere]
  cases o.prepareErr with
  | some err => rfl
  | none => exact appendRows_db ..

/-- **A call either leaves the notes alone or has its effect on them**, whatever fails. -/
theorem handle_notes {env : Env} {t : ℕ} {c : Call} {w w' : World} {r : c.Result}
    (h : handle env t c w = some (r, w')) : w'.notes = w.notes ∨ w'.notes = effect c w.notes := by
  cases c with
  | addNote n =>
    rw [handle, Option.some.injEq, Prod.mk.injEq] at h
    rw [← h.2]
    exact execWrite_notes ..
  | updateNote n =>
    rw [handle, Option.some.injEq, Prod.mk.injEq] at h
    rw [← h.2, effect, ← apply_update]
    exact execWrite_notes ..
  | deleteNote noteID =>
    rw [handle, Option.some.injEq, Prod.mk.injEq] at h
    rw [← h.2, effect, ← apply_delete]
    exact execWrite_notes ..
  | loadNotes =>
    rw [handle, Option.some.injEq, Prod.mk.injEq] at h
    rw [← h.2]
    exact Or.inl (congrArg Database.notes (appendRows_db ..))
  | loadNotesWhere q params =>
    rw [handle, Option.some.injEq, Prod.mk.injEq] at h
    rw [← h.2]
    exact Or.inl (congrArg Database.notes (loadNotesWhere_db ..))
  | generateSynchronizedToken =>
    rw [handle, Option.map_eq_some_iff] at h
    obtain ⟨p, _, hp⟩ := h
    rw [Prod.mk.injEq] at hp
    rw [← hp.2]
    exact Or.inl rfl
  | index notes i =>
    rw [handle, Option.map_eq_some_iff] at h
    obtain ⟨n, _, hn⟩ := h
    rw [Prod.mk.injEq] at hn
    rw [← hn.2]
    exact Or.inl rfl
  | executeTemplate page =>
    rw [handle] at h
    split at h <;> rw [Option.some.injEq, Prod.mk.injEq] at h <;> rw [← h.2] <;> exact Or.inl rfl
  | hang => exact r.elim
  | _ =>
    rw [handle, Option.some.injEq, Prod.mk.injEq] at h
    rw [← h.2]
    exact Or.inl rfl

/-- Every answered call is counted. -/
theorem handle_calls {env : Env} {t : ℕ} {c : Call} {w w' : World} {r : c.Result}
    (h : handle env t c w = some (r, w')) : w'.calls = w.calls + 1 := by
  cases c with
  | generateSynchronizedToken =>
    rw [handle, Option.map_eq_some_iff] at h
    obtain ⟨p, _, hp⟩ := h
    rw [Prod.mk.injEq] at hp
    rw [← hp.2]
    rfl
  | index notes i =>
    rw [handle, Option.map_eq_some_iff] at h
    obtain ⟨n, _, hn⟩ := h
    rw [Prod.mk.injEq] at hn
    rw [← hn.2]
    rfl
  | executeTemplate page =>
    rw [handle] at h
    split at h <;> rw [Option.some.injEq, Prod.mk.injEq] at h <;> rw [← h.2] <;> rfl
  | hang => exact r.elim
  | _ =>
    rw [handle, Option.some.injEq, Prod.mk.injEq] at h
    rw [← h.2]
    rfl

/-! ### Calls when nothing fails -/

section Succeeds

variable {env : Env} (hdb : env.DatabaseSucceeds) {t : ℕ} {w w' : World}

include hdb

theorem execWrite_succeeds (db : Database) (k : ℕ) (wr : Write) :
    (db.execWrite (env.txOutcome k) wr).1 = none ∧
      (db.execWrite (env.txOutcome k) wr).2.notes = wr.apply db.notes := by
  rw [hdb.tx k]
  exact ⟨rfl, rfl⟩

/-- **A write that succeeds** says so and has its effect. -/
theorem addNote_succeeds {n : Note} {r : Option GoError}
    (h : handle env t (.addNote n) w = some (r, w')) :
    r = none ∧ w'.notes = effect (.addNote n) w.notes := by
  rw [handle, Option.some.injEq, Prod.mk.injEq] at h
  have hw := execWrite_succeeds hdb w.dbManager.db w.calls
    (.addNoteExec n.title n.text (unix n.addDate) (unix n.changeDate))
  rw [← h.1, ← h.2]
  exact hw

theorem updateNote_succeeds {n : Note} {r : Option GoError}
    (h : handle env t (.updateNote n) w = some (r, w')) :
    r = none ∧ w'.notes = effect (.updateNote n) w.notes := by
  rw [handle, Option.some.injEq, Prod.mk.injEq] at h
  have hw := execWrite_succeeds hdb w.dbManager.db w.calls
    (.updateNoteExec n.title n.text (unix n.changeDate) (itoa n.noteID))
  rw [apply_update] at hw
  rw [← h.1, ← h.2]
  exact hw

theorem deleteNote_succeeds {noteID : ℤ} {r : Option GoError}
    (h : handle env t (.deleteNote noteID) w = some (r, w')) :
    r = none ∧ w'.notes = effect (.deleteNote noteID) w.notes := by
  rw [handle, Option.some.injEq, Prod.mk.injEq] at h
  have hw := execWrite_succeeds hdb w.dbManager.db w.calls (.deleteNoteExec (itoa noteID))
  rw [apply_delete] at hw
  rw [← h.1, ← h.2]
  exact hw

/-- The note that is found for a row. -/
def noteOf (noteID : ℤ) (e : Entry) : Note :=
  Note.newLocal noteID e.title e.text (ofUnix e.addDate) (ofUnix e.changeDate)

/-- A lookup fails only on a missing row. -/
theorem getNote_succeeds {noteID : ℤ} {r : Except GoError Note}
    (h : handle env t (.getNote noteID) w = some (r, w')) :
    w' = w.tick ∧
      r = match w.notes.lookup noteID with
        | none => .error .noRows
        | some e => .ok (noteOf noteID e) := by
  rw [handle, Option.some.injEq, Prod.mk.injEq] at h
  refine ⟨h.2.symm, ?_⟩
  rw [← h.1, Database.getNote, hdb.lookup w.calls, integerAffinity_itoa]
  rfl

/-- **Every call has exactly its effect on the notes.** -/
theorem handle_effect {c : Call} {r : c.Result} (h : handle env t c w = some (r, w')) :
    w'.notes = effect c w.notes := by
  cases c with
  | addNote n => exact (addNote_succeeds hdb h).2
  | updateNote n => exact (updateNote_succeeds hdb h).2
  | deleteNote noteID => exact (deleteNote_succeeds hdb h).2
  | _ =>
    rcases handle_notes h with hsame | heffect
    · exact hsame
    · exact heffect

end Succeeds

/-! ### Listings and details under a monitor -/

/-- What follows when a note was turned into HTML; without it nothing ever follows. -/
def withHtml {α : Type} (html : Option HtmlNote) (k : HtmlNote → Prog α) : Prog α :=
  match html with
  | none => Prog.hang
  | some h => k h

/-- A loop over a listing, under a monitor that ignores reading elements. -/
theorem renderNotes_follows {γ : Type} {m : Monitor Call Call.Result γ} {Q : γ → Response → Prop}
    {g : γ} (hindex : ∀ notes i, m.Ignores g (.index notes i)) (hhang : m.Ignores g .hang)
    (toHtml : Note → Option HtmlNote) (notes : Lib.Slices.Slice)
    {k : List HtmlNote → Prog Response} (hk : ∀ htmlNotes, Follows m Q g (k htmlNotes)) (n : ℕ)
    (htmlNotes : List HtmlNote) : Follows m Q g (renderNotes toHtml notes n htmlNotes >>= k) := by
  induction n generalizing htmlNotes with
  | zero => exact hk htmlNotes
  | succ n ih =>
    refine follows_ignored (hindex _ _) fun note _ => ?_
    show Follows m Q g (withHtml (toHtml note)
      (fun h => renderNotes toHtml notes n (htmlNotes ++ [h])) >>= k)
    cases toHtml note with
    | none => exact follows_ignored hhang fun r => r.elim
    | some h => exact ih (htmlNotes ++ [h])

/-- The rest of a listing handler, when its page and its error are accepted. -/
theorem listing_follows {γ : Type} {m : Monitor Call Call.Result γ} {Q : γ → Response → Prop}
    {g : γ} (hindex : ∀ notes i, m.Ignores g (.index notes i)) (hhang : m.Ignores g .hang)
    (hpage : ∀ table, Follows m Q g (executePage ⟨ascii "index.html", .htmlTable table⟩))
    (herror : ∀ err, Q g (internalServerError err)) (toHtml : Note → Option HtmlNote)
    (filtered : Bool) (loaded : Lib.Slices.Slice × Option GoError) :
    Follows m Q g (listing toHtml filtered loaded) := by
  obtain ⟨notes, err⟩ := loaded
  cases err with
  | some err => exact herror err
  | none =>
    exact renderNotes_follows hindex hhang toHtml notes (fun _ => hpage _) notes.len []

/-- The end of a details handler: a page, or nothing when the text cannot be rendered. -/
theorem details_follows {γ : Type} {m : Monitor Call Call.Result γ} {Q : γ → Response → Prop}
    {g : γ} (hhang : m.Ignores g .hang) {html : Option HtmlNote}
    (hpage : ∀ h, html = some h →
      Follows m Q g (executePage ⟨ascii "Note.html", .htmlNote h⟩)) :
    Follows m Q g (withHtml html fun h => executePage ⟨ascii "Note.html", .htmlNote h⟩) := by
  cases html with
  | none => exact follows_ignored hhang fun r => r.elim
  | some h => exact hpage h rfl

/-! ### Runs of requests -/

/-- Handle requests one at a time. -/
def serveAll (env : Env) (requests : List Request) (w : World) : Option (List Served × World) :=
  runAll (handle env) (requests.mapIdx fun i request => (i, serveHTTP env request)) w

/-- The calls that were made for the requests, in order. -/
def traceOf (served : List Served) : Trace := served.flatMap fun o => o.events

theorem traceOf_append (served served' : List Served) :
    traceOf (served ++ served') = traceOf served ++ traceOf served' :=
  List.flatMap_append

theorem traceOf_snoc (served : List Served) (t : ℕ) (a : Response) (es : Trace) :
    traceOf (served ++ [⟨t, a, es⟩]) = traceOf served ++ es := by
  rw [traceOf_append, traceOf, traceOf, List.flatMap_singleton]

theorem serveAll_snoc_iff (env : Env) (requests : List Request) (request : Request)
    (w w'' : World) (served : List Served) :
    serveAll env (requests ++ [request]) w = some (served, w'') ↔
      ∃ served₁ w' a es, serveAll env requests w = some (served₁, w') ∧
        run (handle env) requests.length (serveHTTP env request) w' = some (a, es, w'') ∧
        served = served₁ ++ [⟨requests.length, a, es⟩] := by
  rw [serveAll, List.mapIdx_append, List.mapIdx_cons, List.mapIdx_nil, Nat.zero_add]
  exact runAll_snoc_iff (handle env) _ _ _ w w'' served

/-- **Induction over runs.** A fact that holds of the state that the run starts in
and survives one more request holds after every run. -/
theorem serveAll_induction {env : Env} {w₀ : World}
    {P : List Request → List Served → World → Prop} (nil : P [] [] w₀)
    (snoc : ∀ requests served w request a es w', serveAll env requests w₀ = some (served, w) →
      P requests served w →
      run (handle env) requests.length (serveHTTP env request) w = some (a, es, w') →
      P (requests ++ [request]) (served ++ [⟨requests.length, a, es⟩]) w')
    {requests : List Request} {served : List Served} {w : World}
    (hrun : serveAll env requests w₀ = some (served, w)) : P requests served w := by
  induction requests using List.reverseRecOn generalizing served w with
  | nil =>
    rw [serveAll, List.mapIdx_nil, runAll_nil, Option.some.injEq, Prod.mk.injEq] at hrun
    rw [← hrun.1, ← hrun.2]
    exact nil
  | append_singleton requests request ih =>
    obtain ⟨served₁, w', a, es, h₁, hlast, rfl⟩ :=
      (serveAll_snoc_iff env requests request w₀ w served).mp hrun
    exact snoc requests served₁ w' request a es w h₁ (ih h₁) hlast

theorem serveAll_length {env : Env} {requests : List Request} {served : List Served}
    {w₀ w : World} (hrun : serveAll env requests w₀ = some (served, w)) :
    served.length = requests.length := by
  refine serveAll_induction
    (P := fun requests served _ => served.length = requests.length) rfl ?_ hrun
  intro requests served w request a es w' _ ih _
  rw [List.length_append, List.length_append, ih]
  rfl

/-- Where a call stands in a run: in the part before the last request, or in its own. -/
theorem split_append {α : Type} {xs ys pre post : List α} {e : α}
    (h : xs ++ ys = pre ++ e :: post) :
    (∃ post', xs = pre ++ e :: post' ∧ post = post' ++ ys) ∨
      ∃ pre', pre = xs ++ pre' ∧ ys = pre' ++ e :: post := by
  rcases List.append_eq_append_iff.mp h with ⟨as, hpre, hys⟩ | ⟨bs, hxs, hpost⟩
  · exact Or.inr ⟨as, hpre, hys⟩
  · cases bs with
    | nil =>
      right
      rw [List.append_nil] at hxs
      rw [List.nil_append] at hpost
      exact ⟨[], by rw [hxs, List.append_nil], hpost.symm⟩
    | cons b bs =>
      left
      rw [List.cons_append, List.cons.injEq] at hpost
      exact ⟨bs, by rw [hxs, hpost.1], hpost.2⟩

/-- **A fact that every call keeps** holds after every run, and before each of its calls. -/
theorem serveAll_invariant {env : Env} {w₀ : World} {I : Trace → World → Prop} (init : I [] w₀)
    (step : ∀ t tr w c r w', I tr w → handle env t c w = some (r, w') →
      I (tr ++ [⟨t, c, w, r, w'⟩]) w')
    {requests : List Request} {served : List Served} {w : World}
    (hrun : serveAll env requests w₀ = some (served, w)) :
    I (traceOf served) w ∧ ∀ pre e post, traceOf served = pre ++ e :: post →
      handle env e.thread e.op e.before = some (e.result, e.after) ∧ I pre e.before := by
  refine serveAll_induction (P := fun _ served w => I (traceOf served) w ∧
    ∀ pre e post, traceOf served = pre ++ e :: post →
      handle env e.thread e.op e.before = some (e.result, e.after) ∧ I pre e.before) ?_ ?_ hrun
  · exact ⟨init, fun pre e post hsplit => absurd hsplit (by simp [traceOf])⟩
  · intro requests served w request a es w' _ ih hlast
    obtain ⟨hend, hat⟩ := run_invariant (step requests.length) hlast ih.1
    rw [traceOf_snoc]
    refine ⟨hend, fun pre e post hsplit => ?_⟩
    rcases split_append hsplit with ⟨post', hold, _⟩ | ⟨pre', hpre, hnew⟩
    · exact ih.2 pre e post' hold
    · obtain ⟨hthread, hans, hI⟩ := hat pre' e post hnew
      rw [hthread, hpre]
      exact ⟨hans, hI⟩

/-! ### Traces of concurrent requests -/

/-- The calls are answered one after another, from `w₀` on. -/
def AnsweredFrom (env : Env) (w₀ : World) (es : Trace) : Prop :=
  ∀ (p : ℕ) (e : CallEvent), es[p]? = some e → e.before = stateAt w₀ es p ∧
    handle env e.thread e.op e.before = some (e.result, e.after)

/-! ### A quiet environment -/

/-- A second passes between two calls, nothing fails, and no text holds a link. -/
def quiet : Env where
  clock k := 1500000000000000000 + k * 1000000000
  int63 _ := 0
  fuel := 100
  findAllString _ := []
  growth := ⟨fun cap len => max (2 * cap) len, fun cap len => le_max_right (2 * cap) len⟩
  txOutcome _ := TxOutcome.ok
  lookupOutcome _ := LookupOutcome.ok
  listOutcome _ := ListOutcome.ok
  writeErr _ := none
  curl _ := .ok []

theorem quiet_succeeds : quiet.DatabaseSucceeds :=
  ⟨fun _ => rfl, fun _ => rfl, fun _ => rfl⟩

theorem quiet_clock_monotone : Monotone quiet.clock := by
  intro i j hij
  show (1500000000000000000 + i * 1000000000 : ℤ) ≤ 1500000000000000000 + j * 1000000000
  omega

/-- The form that carries a token. -/
def tokenForm (id tokenString : Bytes) : Form :=
  [(ascii "share_note_token_id", id), (ascii "share_note_token_string", tokenString)]

/-- The string of every token in the quiet environment. -/
def quietString : Bytes := List.replicate 100 97

/-- A form page, and a new note submitted with its token. -/
def pageAndNote : List Request :=
  [⟨ascii "/AddNote/", []⟩,
    ⟨ascii "/NewNote/", (ascii "title", ascii "a") :: tokenForm (ascii "0") quietString⟩]

end ShareNotes.Runs
