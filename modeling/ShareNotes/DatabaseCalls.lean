import ShareNotes.Effects
import ShareNotes.SequentialNotes

/-!
# The database calls of a request

Each of the four requests on notes makes one of a few sequences of database
calls: an insert, a delete, one lookup, or a lookup and an update. `Performs`
lists these sequences with the answers that they lead to. A monitor that collects
the database calls of a request shows that the handlers make no others, whatever
other requests do in between.
-/

namespace ShareNotes.DatabaseCalls

open ShareNotes.Lib.Decimal ShareNotes.Lib.KeyedRows ShareNotes.Lib.Interaction
open ShareNotes.Lib.Monitors
open ShareNotes.Token ShareNotes.NoteRecord ShareNotes.Linkify ShareNotes.Manager
open ShareNotes.Calls ShareNotes.Handlers ShareNotes.Routing ShareNotes.Runs ShareNotes.Effects
open ShareNotes.TokenAuthenticity ShareNotes.HandlerRuns ShareNotes.SequentialNotes
open Program

/-! ### Collecting database calls -/

/-- A call with its answer. -/
abbrev AnsweredCall := (c : Call) × c.Result

/-- Lookups and writes of single notes. -/
def databaseCall : (c : Call) → c.Result → Option AnsweredCall
  | .getNote noteID, found => some ⟨.getNote noteID, found⟩
  | .addNote n, err => some ⟨.addNote n, err⟩
  | .updateNote n, err => some ⟨.updateNote n, err⟩
  | .deleteNote noteID, err => some ⟨.deleteNote noteID, err⟩
  | _, _ => none

theorem databaseCall_of_isWrite {c : Call} (hc : isWrite c = true) (r : c.Result) :
    databaseCall c r = some ⟨c, r⟩ := by
  cases c with
  | addNote n => rfl
  | updateNote n => rfl
  | deleteNote noteID => rfl
  | _ => exact absurd hc Bool.false_ne_true

/-- The database calls that request `t` makes in a trace. -/
def performed (t : ℕ) (es : Trace) : List AnsweredCall :=
  es.filterMap fun e => if e.thread == t then databaseCall e.op e.result else none

/-- **What a request does to the database, and what it then answers.** -/
inductive Performs (env : Env) (t : ℕ) : Job → List AnsweredCall → Response → Prop
  | newNote (form : Form) (n : Note) (hn : (n.title, n.text) = submitted form) :
    Performs env t (.newNote form) [⟨.addNote n, none⟩] (.redirect (ascii "/"))
  | deleteNote (form : Form) (noteID : ℤ) :
    Performs env t (.deleteNote form noteID) [⟨.deleteNote noteID, none⟩] (.redirect (ascii "/"))
  | detailsMissing (noteID : ℤ) (err : GoError) :
    Performs env t (.noteDetails noteID) [⟨.getNote noteID, .error err⟩] (internalServerError err)
  | details (noteID : ℤ) (n : Note) (h : HtmlNote)
    (hh : noteToHtmlNote env.findAllString env.fuel n = some h) :
    Performs env t (.noteDetails noteID) [⟨.getNote noteID, .ok n⟩]
      (pageAnswer (detailsPage h) (env.writeErr t))
  | saveMissing (form : Form) (noteID : ℤ) (err : GoError) :
    Performs env t (.saveNote form noteID) [⟨.getNote noteID, .error err⟩]
      (internalServerError err)
  | saveClean (form : Form) (noteID : ℤ) (n : Note) (hn : (n.title, n.text) = submitted form) :
    Performs env t (.saveNote form noteID) [⟨.getNote noteID, .ok n⟩]
      (.redirect (notePath noteID))
  | saveDirty (form : Form) (noteID : ℤ) (n n' : Note) (hid : n'.noteID = noteID)
    (hn : (n'.title, n'.text) = submitted form) :
    Performs env t (.saveNote form noteID) [⟨.getNote noteID, .ok n⟩, ⟨.updateNote n', none⟩]
      (.redirect (notePath noteID))

theorem mem_performed {es : Trace} {e : CallEvent} (he : e ∈ es) {x : AnsweredCall}
    (hx : databaseCall e.op e.result = some x) : x ∈ performed e.thread es := by
  refine List.mem_filterMap.mpr ⟨e, he, ?_⟩
  rw [if_pos (beq_self_eq_true e.thread)]
  exact hx

/-- A request that removes a note is a `ConfirmDeleteNote` request for it. -/
theorem Performs.deleteNote_of_mem {env : Env} {t : ℕ} {job : Job} {calls : List AnsweredCall}
    {a : Response} (h : Performs env t job calls a) {x : AnsweredCall} (hmem : x ∈ calls)
    {noteID : ℤ} (hx : x.1 = .deleteNote noteID) : ∃ form, job = .deleteNote form noteID := by
  cases h with
  | deleteNote form k =>
    rw [List.mem_singleton] at hmem
    rw [hmem] at hx
    exact ⟨form, by rw [Call.deleteNote.inj hx]⟩
  | saveDirty form k n n' hid hn =>
    rw [List.mem_cons, List.mem_singleton] at hmem
    rcases hmem with hget | hupdate
    · rw [hget] at hx
      exact absurd hx (by simp)
    · rw [hupdate] at hx
      exact absurd hx (by simp)
  | _ =>
    rw [List.mem_singleton] at hmem
    rw [hmem] at hx
    exact absurd hx (by simp)

/-! ### The monitor -/

/-- Collects database calls, among those that are `allowed`; token checks are
answered as in `checks`. -/
def collector (env : Env) (allowed : Call → Prop) (checks : SynchronizedToken → Bool → Prop)
    (t : ℕ) : Monitor Call Call.Result (List AnsweredCall) where
  allows _ c := allowed c
  expects c r :=
    match c, r with
    | .synchronizedTokenIsValid token, valid => checks token valid
    | .addNote _, err => err = none
    | .updateNote _, err => err = none
    | .deleteNote _, err => err = none
    | .getNote noteID, .ok n => n.noteID = noteID
    | .executeTemplate page, err => page.template ∈ templates → err = env.writeErr t
    | _, _ => True
  next g c r := g ++ (databaseCall c r).toList

theorem collector_expects {env : Env} (hdb : env.DatabaseSucceeds) {allowed : Call → Prop}
    {checks : SynchronizedToken → Bool → Prop} {t : ℕ} {c : Call} {w w' : World} {r : c.Result}
    (hchecks : ∀ token, checks token (w.sidManager.synchronizedTokenIsValid token))
    (h : handle env t c w = some (r, w')) : (collector env allowed checks t).expects c r := by
  cases c with
  | synchronizedTokenIsValid token =>
    rw [handle, Option.some.injEq, Prod.mk.injEq] at h
    rw [← h.1]
    exact hchecks token
  | addNote n => exact (addNote_succeeds hdb h).1
  | updateNote n => exact (updateNote_succeeds hdb h).1
  | deleteNote noteID => exact (deleteNote_succeeds hdb h).1
  | getNote noteID =>
    cases r with
    | error err => exact trivial
    | ok n => exact foundAsAsked_handle h
  | executeTemplate page =>
    intro hpage
    rw [handle, if_pos hpage, Option.some.injEq, Prod.mk.injEq] at h
    exact h.1.symm
  | _ => exact trivial

/-- No token is generated, so the session ID manager stays as it is. -/
theorem collector_fits_unchanged {env : Env} (hdb : env.DatabaseSucceeds)
    (sidManager : SessionIDManager) (t : ℕ) :
    (collector env (· ≠ .generateSynchronizedToken)
      (fun token valid => valid = sidManager.synchronizedTokenIsValid token) t).Fits (handle env)
      (fun w => w.sidManager = sidManager) t := by
  intro g c w r w' hI hc h
  exact ⟨collector_expects hdb (fun token => by rw [hI]) h, (handle_sidManager h hc).trans hI⟩

/-- Any call is allowed, and a token check may have any answer. -/
theorem collector_fits_any {env : Env} (hdb : env.DatabaseSucceeds) (t : ℕ) :
    (collector env (fun _ => True) (fun _ _ => True) t).Fits (handle env) (fun _ => True) t :=
  fun _ _ _ _ _ _ _ h => ⟨collector_expects hdb (fun _ => trivial) h, trivial⟩

/-- What the monitor has collected after the calls of one request. -/
theorem collector_after (env : Env) (allowed : Call → Prop)
    (checks : SynchronizedToken → Bool → Prop) (t : ℕ) (g : List AnsweredCall) (es : Trace) :
    (collector env allowed checks t).after g (ofThread t es) = g ++ performed t es := by
  rw [performed, ← List.filterMap_filter]
  show (collector env allowed checks t).after g (ofThread t es) =
    g ++ (ofThread t es).filterMap fun e => databaseCall e.op e.result
  induction ofThread t es generalizing g with
  | nil => exact (List.append_nil g).symm
  | cons e es ih =>
    rw [Monitor.after_cons, ih, List.filterMap_cons]
    show g ++ (databaseCall e.op e.result).toList ++ _ = _
    cases databaseCall e.op e.result with
    | none => rw [Option.toList_none, List.append_nil]
    | some x => rw [Option.toList_some, List.append_assoc, List.singleton_append]

/-! ### The handlers -/

/-- A program that ends, with the calls collected, as `Q` says. -/
abbrev Collects (env : Env) (allowed : Call → Prop) (checks : SynchronizedToken → Bool → Prop)
    (t : ℕ) (Q : List AnsweredCall → Response → Prop) (g : List AnsweredCall)
    (p : Prog Response) : Prop :=
  Follows (collector env allowed checks t) Q g p

section Handlers

variable {env : Env} {allowed : Call → Prop} {checks : SynchronizedToken → Bool → Prop} {t : ℕ}
  {Q : List AnsweredCall → Response → Prop} {g : List AnsweredCall}

/-- A call that is not collected. -/
theorem collects_call {c : Call} {k : c.Result → Prog Response} (hc : allowed c)
    (hdb : ∀ r, databaseCall c r = none)
    (hk : ∀ r, (collector env allowed checks t).expects c r →
      Collects env allowed checks t Q g (k r)) :
    Collects env allowed checks t Q g (.call c k) := by
  refine follows_ignored ⟨hc, fun r => ?_⟩ hk
  show g ++ (databaseCall c r).toList = g
  rw [hdb r, Option.toList_none, List.append_nil]

variable (hallowed : ∀ c, c ≠ .generateSynchronizedToken → allowed c)

include hallowed

/-- A token check, and what follows when it answers true. -/
theorem collects_checkToken {form : Form} {invalid : Bytes} {rest : Prog Response}
    (hrejected : (∀ token, submittedToken form = .ok token → checks token false) →
      ∀ message, Q g (.httpError message 500))
    (hrest : Collects env allowed checks t Q g rest) :
    Collects env allowed checks t Q g (checkToken form invalid rest) := by
  rw [checkToken]
  cases htoken : submittedToken form with
  | error err =>
    refine hrejected (fun token h => ?_) (.error err)
    rw [htoken] at h
    exact absurd h (by simp)
  | ok token =>
    refine collects_call (hallowed _ (by simp)) (fun _ => rfl) fun valid hexpected => ?_
    cases valid with
    | true => exact hrest
    | false =>
      refine hrejected (fun token' h => ?_) (.text invalid)
      rw [htoken, Except.ok.injEq] at h
      rw [← h]
      exact hexpected

theorem collects_executePage {h : HtmlNote}
    (hg : Q g (pageAnswer (detailsPage h) (env.writeErr t))) :
    Collects env allowed checks t Q g (executePage (detailsPage h)) := by
  refine collects_call (hallowed _ (by simp)) (fun _ => rfl) fun err hexpected => ?_
  have herr : err = env.writeErr t := hexpected noteTemplate_mem
  subst herr
  cases hwrite : env.writeErr t with
  | some err =>
    rw [hwrite] at hg
    exact hg
  | none =>
    rw [hwrite] at hg
    exact hg

theorem collects_saveIfDirty {form : Form} {noteID : ℤ} {n : Note} {saved : Bool × Note}
    (hid : saved.2.noteID = noteID) (hsaved : (saved.2.title, saved.2.text) = submitted form)
    (hclean : saved.1 = false → (n.title, n.text) = submitted form) :
    Collects env allowed checks t (Performs env t (.saveNote form noteID))
      [⟨.getNote noteID, .ok n⟩] (saveIfDirty noteID saved) := by
  obtain ⟨dirtyBit, n'⟩ := saved
  cases dirtyBit with
  | true =>
    refine ⟨hallowed _ (by simp), fun err herr => ?_⟩
    change err = none at herr
    rw [herr]
    exact Performs.saveDirty form noteID n n' hid hsaved
  | false => exact Performs.saveClean form noteID n (hclean rfl)

theorem collects_saveText {form : Form} {noteID : ℤ} {n : Note} {titled : Bool × Note}
    (hid : titled.2.noteID = noteID) (htitle : titled.2.title = formValue form (ascii "title"))
    (hclean : titled.1 = false → titled.2 = n) :
    Collects env allowed checks t (Performs env t (.saveNote form noteID))
      [⟨.getNote noteID, .ok n⟩]
      (saveText (formValue form (ascii "text")) titled >>= saveIfDirty noteID) := by
  rw [saveText]
  split
  · exact collects_call (hallowed _ (by simp)) (fun _ => rfl) fun now _ =>
      collects_saveIfDirty hallowed hid (Prod.ext htitle rfl)
        fun hno => absurd hno.symm Bool.false_ne_true
  · rename_i htext
    have hsaved : (titled.2.title, titled.2.text) = submitted form :=
      Prod.ext htitle (not_not.mp htext)
    refine collects_saveIfDirty hallowed hid hsaved fun hno => ?_
    rw [← hclean hno]
    exact hsaved

/-- A save that found its note makes no further call, or one update. -/
theorem collects_saveFound {form : Form} {noteID : ℤ} {n : Note} (hid : n.noteID = noteID) :
    Collects env allowed checks t (Performs env t (.saveNote form noteID))
      [⟨.getNote noteID, .ok n⟩]
      (saveFound noteID n (formValue form (ascii "title")) (formValue form (ascii "text"))) := by
  rw [saveFound, saveTitle]
  split
  · exact collects_call (hallowed _ (by simp)) (fun _ => rfl) fun now _ =>
      collects_saveText hallowed hid rfl fun hno => absurd hno.symm Bool.false_ne_true
  · rename_i htitle
    exact collects_saveText hallowed hid (not_not.mp htitle) fun _ => rfl

end Handlers

/-- A valid token is not answered with false. -/
theorem not_rejected {sidManager : SessionIDManager} {form : Form}
    (hvalid : ValidToken sidManager form)
    (h : ∀ token, submittedToken form = .ok token →
      false = sidManager.synchronizedTokenIsValid token) : False := by
  obtain ⟨token, htoken, htrue⟩ := hvalid
  exact absurd ((h token htoken).trans htrue) Bool.false_ne_true

/-- **Each request makes one of its sequences of database calls.** -/
theorem job_collects {env : Env} {sidManager : SessionIDManager} {t : ℕ} {job : Job}
    (hvalid : job.TokenValid sidManager) :
    Collects env (· ≠ .generateSynchronizedToken)
      (fun token valid => valid = sidManager.synchronizedTokenIsValid token) t
      (Performs env t job) [] (job.body env) := by
  have hallowed (c : Call) (hc : c ≠ .generateSynchronizedToken) :
    c ≠ .generateSynchronizedToken := hc
  cases job with
  | newNote form =>
    refine collects_checkToken hallowed (fun h => (not_rejected hvalid h).elim) ?_
    refine collects_call (by simp) (fun _ => rfl) fun addDate _ => ?_
    refine collects_call (by simp) (fun _ => rfl) fun changeDate _ => ?_
    refine ⟨hallowed _ (by simp), fun err herr => ?_⟩
    change err = none at herr
    rw [herr]
    exact Performs.newNote form _ rfl
  | deleteNote form noteID =>
    refine collects_checkToken hallowed (fun h => (not_rejected hvalid h).elim) ?_
    refine ⟨hallowed _ (by simp), fun err herr => ?_⟩
    change err = none at herr
    rw [herr]
    exact Performs.deleteNote form noteID
  | saveNote form noteID =>
    refine ⟨hallowed _ (by simp), fun found hfound => ?_⟩
    cases found with
    | error err => exact Performs.saveMissing form noteID err
    | ok n =>
      exact collects_checkToken hallowed (fun h => (not_rejected hvalid h).elim)
        (collects_saveFound hallowed hfound)
  | noteDetails noteID =>
    refine ⟨hallowed _ (by simp), fun found hfound => ?_⟩
    cases found with
    | error err => exact Performs.detailsMissing noteID err
    | ok n =>
      exact details_follows ⟨hallowed _ (by simp), fun r => r.elim⟩ fun h hh =>
        collects_executePage hallowed (Performs.details noteID n h hh)

/-! ### Requests that run concurrently -/

/-- The requests as threads that share the state. -/
def jobPool (env : Env) (jobs : List Job) (w : World) : Pool Call Call.Result Response World :=
  ⟨w, jobs.map (Job.body env)⟩

theorem jobPool_threads {env : Env} {jobs : List Job} {w : World} {t : ℕ} {p : Prog Response}
    (hp : (jobPool env jobs w).threads[t]? = some p) :
    ∃ job, jobs[t]? = some job ∧ p = job.body env := by
  change (jobs.map (Job.body env))[t]? = some p at hp
  rw [List.getElem?_map, Option.map_eq_some_iff] at hp
  obtain ⟨job, hjob, hbody⟩ := hp
  exact ⟨job, hjob, hbody.symm⟩

/-- **Every request that has returned made one of its sequences of database calls.** -/
theorem jobPool_performs {env : Env} (hdb : env.DatabaseSucceeds) {jobs : List Job} {w₀ : World}
    (hvalid : ∀ job ∈ jobs, job.TokenValid w₀.sidManager) {ts : List ℕ} {es : Trace}
    {c : Pool Call Call.Result Response World}
    (hrun : (jobPool env jobs w₀).exec (handle env) ts = some (es, c)) {t : ℕ} {job : Job}
    {a : Response} (hjob : jobs[t]? = some job) (ha : c.threads[t]? = some (.ret a)) :
    Performs env t job (performed t es) a := by
  have hcollects : ∀ (u : ℕ) (p : Prog Response), (jobPool env jobs w₀).threads[u]? = some p →
      Collects env (· ≠ .generateSynchronizedToken)
        (fun token valid => valid = w₀.sidManager.synchronizedTokenIsValid token) u
        (fun g a => ∀ job, jobs[u]? = some job → Performs env u job g a) [] p := by
    intro u p hp
    obtain ⟨job', hjob', rfl⟩ := jobPool_threads hp
    refine (job_collects (hvalid job' (List.mem_of_getElem? hjob'))).imp fun g a hg job hjob => ?_
    rw [hjob', Option.some.injEq] at hjob
    rw [← hjob]
    exact hg
  have hfollows := Pool.exec_follows (h := handle env) (g := fun _ => [])
    (fun u => collector_fits_unchanged hdb w₀.sidManager u) rfl hcollects hrun
  have hlast := hfollows.2.1 t (.ret a) ha job hjob
  rw [collector_after, List.nil_append] at hlast
  exact hlast

end ShareNotes.DatabaseCalls
