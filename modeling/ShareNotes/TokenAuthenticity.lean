import ShareNotes.Runs

/-!
# Requests that change something come with an issued token

In every run from the start of the server, a call that writes a note or starts
curl is made only after a token check of the same request answered true, and the
token checked is the one submitted with the request. The check itself compares
with what the map yields for the submitted number: for a number that was never
given out this is the empty string, so the empty string is accepted there.
`tokens_authentic` says that this is the only way past the check without an
issued token.
-/

namespace ShareNotes.TokenAuthenticity

open ShareNotes.Lib.Decimal ShareNotes.Lib.KeyedRows ShareNotes.Lib.Interaction
open ShareNotes.Lib.Monitors
open ShareNotes.Token ShareNotes.NoteRecord ShareNotes.Linkify ShareNotes.Manager
open ShareNotes.Calls ShareNotes.Handlers ShareNotes.Routing ShareNotes.Runs
open Program

/-! ### Tokens in a trace -/

/-- The token that a call returned, if it generated one. -/
def generatedBy : (c : Call) → c.Result → Option SynchronizedToken
  | .generateSynchronizedToken, token => some token
  | _, _ => none

def generated (e : CallEvent) : Option SynchronizedToken := generatedBy e.op e.result

/-- The tokens generated in a trace, oldest first. -/
def issued (tr : Trace) : List SynchronizedToken := tr.filterMap generated

/-- The token that a call checked, and the answer. -/
def checkedBy : (c : Call) → c.Result → Option (SynchronizedToken × Bool)
  | .synchronizedTokenIsValid token, valid => some (token, valid)
  | _, _ => none

def checked (e : CallEvent) : Option (SynchronizedToken × Bool) := checkedBy e.op e.result

/-- The calls that change a note or run curl. -/
def needsToken : Call → Bool
  | .addNote _ => true
  | .updateNote _ => true
  | .deleteNote _ => true
  | .runCurl _ => true
  | _ => false

theorem issued_append (tr tr' : Trace) : issued (tr ++ tr') = issued tr ++ issued tr' :=
  List.filterMap_append

theorem issued_of_none {e : CallEvent} (he : generated e = none) : issued [e] = [] := by
  rw [issued, List.filterMap_cons_none he, List.filterMap_nil]

/-- Only generating a token changes the token manager. -/
theorem handle_sidManager {env : Env} {t : ℕ} {c : Call} {w w' : World} {r : c.Result}
    (h : handle env t c w = some (r, w')) (hc : c ≠ .generateSynchronizedToken) :
    w'.sidManager = w.sidManager := by
  cases c with
  | generateSynchronizedToken => exact absurd rfl hc
  | index notes i =>
    rw [handle, Option.map_eq_some_iff] at h
    obtain ⟨n, _, hn⟩ := h
    rw [Prod.mk.injEq] at hn
    rw [← hn.2]
    rfl
  | executeTemplate page =>
    rw [handle] at h
    split at h <;> rw [Option.some.injEq, Prod.mk.injEq] at h <;> rw [← h.2] <;> rfl
  | hang => exact r.elim
  | _ =>
    rw [handle, Option.some.injEq, Prod.mk.injEq] at h
    rw [← h.2]
    rfl

/-- **Every call keeps the map in step with the tokens generated.** -/
theorem issuedBy_step (env : Env) (t : ℕ) (tr : Trace) (w : World) (c : Call) (r : c.Result)
    (w' : World) (hI : IssuedBy w.sidManager (issued tr))
    (h : handle env t c w = some (r, w')) :
    IssuedBy w'.sidManager (issued (tr ++ [⟨t, c, w, r, w'⟩])) := by
  rw [issued_append]
  by_cases hc : c = .generateSynchronizedToken
  · subst hc
    rw [handle, Option.map_eq_some_iff] at h
    obtain ⟨⟨token, sidm, drawn⟩, hgen, hp⟩ := h
    rw [Prod.mk.injEq] at hp
    rw [← hp.2, ← hp.1]
    exact hI.generate hgen
  · have hnone : generated ⟨t, c, w, r, w'⟩ = none := by
      cases c with
      | generateSynchronizedToken => exact absurd rfl hc
      | _ => rfl
    rw [handle_sidManager h hc, issued_of_none hnone, List.append_nil]
    exact hI

/-- The map is in step after every run, and before each of its calls. -/
theorem issuedBy_run {env : Env} {notes : NotesTable} {requests : List Request}
    {served : List Served} {w : World}
    (hrun : serveAll env requests (World.initial notes) = some (served, w)) :
    IssuedBy w.sidManager (issued (traceOf served)) ∧
      ∀ pre e post, traceOf served = pre ++ e :: post →
        handle env e.thread e.op e.before = some (e.result, e.after) ∧
          IssuedBy e.before.sidManager (issued pre) :=
  serveAll_invariant (I := fun tr w => IssuedBy w.sidManager (issued tr)) issuedBy_initial
    (issuedBy_step env) hrun

/-! ### The handlers check before they change anything -/

/-- The token on a form page. -/
def pageToken : PageData → Option SynchronizedToken
  | .addNoteData token => some token
  | .confirmNoteData _ token => some token
  | _ => none

/-- The pages with a form. -/
def formTemplates : List Bytes :=
  [ascii "AddNote.html", ascii "DeleteNote.html", ascii "PasteBinNote.html", ascii "EditNote.html"]

theorem index_not_form : ascii "index.html" ∉ formTemplates := by decide

theorem note_not_form : ascii "Note.html" ∉ formTemplates := by decide

/-- What a request did so far: whether a check answered true, and the tokens it generated. -/
structure Seen where
  past : Bool
  tokens : List SynchronizedToken

/-- The monitor of a request with a given form. -/
def tokenGuard (form : Form) : Monitor Call Call.Result Seen where
  allows g c := (∀ token, c = .synchronizedTokenIsValid token →
    submittedToken form = .ok token) ∧ (needsToken c = true → g.past = true)
  expects _ _ := True
  next g c r :=
    ⟨g.past || (checkedBy c r).any Prod.snd, g.tokens ++ (generatedBy c r).toList⟩

/-- A page with a form carries a token that was generated for it. -/
def PageCarries (g : Seen) (a : Response) : Prop :=
  ∀ page, a = .page page → page.template ∈ formTemplates →
    ∃ token ∈ g.tokens, pageToken page.data = some token

/-- A program that keeps to the monitor and answers with pages that carry their token. -/
abbrev Guarded (form : Form) (g : Seen) (p : Prog Response) : Prop :=
  Follows (tokenGuard form) PageCarries g p

/-- The monitor has nothing to say about the other calls. -/
theorem tokenGuard_ignores {form : Form} {g : Seen} {c : Call}
    (hgen : c ≠ .generateSynchronizedToken) (hcheck : ∀ token, c ≠ .synchronizedTokenIsValid token)
    (hneeds : needsToken c = true → g.past = true) : (tokenGuard form).Ignores g c where
  allows := ⟨fun token hc => absurd hc (hcheck token), hneeds⟩
  next := by
    intro r
    have hchecked : checkedBy c r = none := by
      cases c with
      | synchronizedTokenIsValid token => exact absurd rfl (hcheck token)
      | _ => rfl
    have hgenerated : generatedBy c r = none := by
      cases c with
      | generateSynchronizedToken => exact absurd rfl hgen
      | _ => rfl
    show Seen.mk (g.past || (checkedBy c r).any Prod.snd) (g.tokens ++ (generatedBy c r).toList) = g
    rw [hchecked, hgenerated, Option.any_none, Bool.or_false, Option.toList_none, List.append_nil]

theorem guarded_call {form : Form} {g : Seen} {c : Call} {k : c.Result → Prog Response}
    (hgen : c ≠ .generateSynchronizedToken) (hcheck : ∀ token, c ≠ .synchronizedTokenIsValid token)
    (hneeds : needsToken c = true → g.past = true) (hk : ∀ r, Guarded form g (k r)) :
    Guarded form g (.call c k) :=
  follows_ignored (tokenGuard_ignores hgen hcheck hneeds) fun r _ => hk r

/-- A call that needs no token. -/
theorem guarded_free {form : Form} {g : Seen} {c : Call} {k : c.Result → Prog Response}
    (hgen : c ≠ .generateSynchronizedToken) (hcheck : ∀ token, c ≠ .synchronizedTokenIsValid token)
    (hneeds : needsToken c = false) (hk : ∀ r, Guarded form g (k r)) :
    Guarded form g (.call c k) := by
  refine guarded_call hgen hcheck (fun h => ?_) hk
  rw [hneeds] at h
  exact absurd h Bool.false_ne_true

/-- **The token check** makes way for calls that need a token. -/
theorem checkToken_guarded {form : Form} {invalid : Bytes} {rest : Prog Response} (g : Seen)
    (hrest : ∀ g' : Seen, g'.past = true → Guarded form g' rest) :
    Guarded form g (checkToken form invalid rest) := by
  rw [checkToken]
  cases htoken : submittedToken form with
  | error err => exact nofun
  | ok token =>
    refine ⟨⟨fun token' hc => ?_, fun hn => absurd hn Bool.false_ne_true⟩, fun valid _ => ?_⟩
    · rw [htoken, Call.synchronizedTokenIsValid.inj hc]
    · cases valid with
      | true => exact hrest _ (Bool.or_true g.past)
      | false => exact nofun

/-- Generating a token for a page. -/
theorem generate_guarded {form : Form} {g : Seen} {k : SynchronizedToken → Prog Response}
    (hk : ∀ token, Guarded form ⟨g.past || false, g.tokens ++ [token]⟩ (k token)) :
    Guarded form g (.call .generateSynchronizedToken k) :=
  ⟨⟨fun _ => nofun, fun hn => absurd hn Bool.false_ne_true⟩, fun token _ => hk token⟩

theorem executePage_guarded {form : Form} {g : Seen} {page : Page}
    (hpage : page.template ∈ formTemplates → ∃ token ∈ g.tokens, pageToken page.data = some token) :
    Guarded form g (executePage page) := by
  refine guarded_free nofun (fun _ => nofun) rfl fun r => ?_
  cases r with
  | some err => exact nofun
  | none =>
    intro page' hpage'
    rw [← Response.page.inj hpage']
    exact hpage

theorem afterWrite_guarded (form : Form) (g : Seen) (url : Bytes) (err : Option GoError) :
    Guarded form g (afterWrite url err) := by
  cases err <;> exact nofun

theorem listing_guarded (form : Form) (g : Seen) (toHtml : Note → Option HtmlNote)
    (filtered : Bool) (loaded : Lib.Slices.Slice × Option GoError) :
    Guarded form g (listing toHtml filtered loaded) :=
  listing_follows (fun _ _ => tokenGuard_ignores nofun (fun _ => nofun) nofun)
    (tokenGuard_ignores nofun (fun _ => nofun) nofun)
    (fun _ => executePage_guarded fun h => absurd h index_not_form) (fun _ => nofun) toHtml filtered
    loaded

theorem filteredIndexHandler_guarded (form : Form) (g : Seen) (toHtml : Note → Option HtmlNote)
    (q : SelectQuery) (params : List Bytes) :
    Guarded form g (filteredIndexHandler toHtml q params) :=
  guarded_free nofun (fun _ => nofun) rfl fun loaded => listing_guarded form g toHtml true loaded

theorem saveIfDirty_guarded (form : Form) {g : Seen} (hg : g.past = true) (noteID : ℤ)
    (saved : Bool × Note) : Guarded form g (saveIfDirty noteID saved) := by
  obtain ⟨dirtyBit, foundNote⟩ := saved
  cases dirtyBit with
  | true =>
    exact guarded_call nofun (fun _ => nofun) (fun _ => hg) fun err =>
      afterWrite_guarded form g _ err
  | false => exact nofun

theorem saveText_guarded (form : Form) {g : Seen} (hg : g.past = true) (noteID : ℤ) (text : Bytes)
    (titled : Bool × Note) : Guarded form g (saveText text titled >>= saveIfDirty noteID) := by
  rw [saveText]
  split
  · exact guarded_free nofun (fun _ => nofun) rfl fun now => saveIfDirty_guarded form hg noteID _
  · exact saveIfDirty_guarded form hg noteID _

theorem saveTitle_guarded (form : Form) {g : Seen} (hg : g.past = true) (noteID : ℤ)
    (foundNote : Note) (title text : Bytes) :
    Guarded form g (saveTitle foundNote title >>= fun titled =>
      saveText text titled >>= saveIfDirty noteID) := by
  rw [saveTitle]
  split
  · exact guarded_free nofun (fun _ => nofun) rfl fun now => saveText_guarded form hg noteID text _
  · exact saveText_guarded form hg noteID text _

/-- **Every handler body** keeps to the monitor of its request. -/
theorem body_guarded (env : Env) (form : Form) (g : Seen) (route : Route) :
    Guarded form g (route.body env form) := by
  cases route with
  | indexHandler =>
    exact guarded_free nofun (fun _ => nofun) rfl fun loaded =>
      listing_guarded form g _ false loaded
  | addNoteHandler =>
    refine generate_guarded fun token => executePage_guarded fun _ => ?_
    exact ⟨token, by simp, rfl⟩
  | newNoteHandler =>
    refine checkToken_guarded g fun g' hg' => ?_
    refine guarded_free nofun (fun _ => nofun) rfl fun addDate => ?_
    refine guarded_free nofun (fun _ => nofun) rfl fun changeDate => ?_
    exact guarded_call nofun (fun _ => nofun) (fun _ => hg') fun err =>
      afterWrite_guarded form g' _ err
  | preparePostHandler urlName noteID =>
    refine guarded_free nofun (fun _ => nofun) rfl fun found => ?_
    cases found with
    | error err => exact nofun
    | ok foundNote =>
      refine generate_guarded fun token => executePage_guarded fun _ => ?_
      exact ⟨token, by simp, rfl⟩
  | noteDetailsHandler noteID =>
    refine guarded_free nofun (fun _ => nofun) rfl fun found => ?_
    cases found with
    | error err => exact nofun
    | ok foundNote =>
      exact details_follows (tokenGuard_ignores nofun (fun _ => nofun) nofun) fun h _ =>
        executePage_guarded fun hin => absurd hin note_not_form
  | saveNoteHandler noteID =>
    refine guarded_free nofun (fun _ => nofun) rfl fun found => ?_
    cases found with
    | error err => exact nofun
    | ok foundNote =>
      exact checkToken_guarded g fun g' hg' => saveTitle_guarded form hg' noteID foundNote _ _
  | deleteNoteHandler noteID =>
    refine checkToken_guarded g fun g' hg' => ?_
    exact guarded_call nofun (fun _ => nofun) (fun _ => hg') fun err =>
      afterWrite_guarded form g' _ err
  | pasteBinNoteHandler noteID =>
    refine checkToken_guarded g fun g' hg' => ?_
    refine guarded_free nofun (fun _ => nofun) rfl fun found => ?_
    cases found with
    | error err => exact nofun
    | ok foundNote =>
      refine guarded_call nofun (fun _ => nofun) (fun _ => hg') fun output => ?_
      cases output <;> exact nofun
  | titleFilterHandler filterInput => exact filteredIndexHandler_guarded form g _ _ _
  | textFilterHandler filterInput => exact filteredIndexHandler_guarded form g _ _ _
  | bothFilterHandler filterInput => exact filteredIndexHandler_guarded form g _ _ _
  | notFound => exact nofun

theorem serveHTTP_guarded (env : Env) (g : Seen) (request : Request) :
    Guarded request.form g (serveHTTP env request) := by
  rcases serveHTTP_cases env request with ⟨_, hserve | ⟨url, hserve⟩⟩ | ⟨message, hserve⟩
  · rw [hserve]
    exact nofun
  · rw [hserve]
    exact nofun
  · rw [hserve]
    refine guarded_free nofun (fun _ => nofun) rfl fun tooMany => ?_
    cases tooMany with
    | true => exact nofun
    | false => exact body_guarded env request.form g (routed request.path)

theorem tokenGuard_fits (env : Env) (form : Form) (t : ℕ) :
    (tokenGuard form).Fits (handle env) (fun _ => True) t :=
  Monitor.fits_of_expects (fun _ _ => trivial) (handle env) t

/-- The monitor remembers the tokens generated, and nothing but checks that answered true. -/
theorem after_tokenGuard (form : Form) (tr : Trace) :
    ((tokenGuard form).after ⟨false, []⟩ tr).tokens = issued tr ∧
      (((tokenGuard form).after ⟨false, []⟩ tr).past = true →
        ∃ c ∈ tr, ∃ token, checked c = some (token, true)) := by
  induction tr using List.reverseRecOn with
  | nil => exact ⟨rfl, fun h => absurd h Bool.false_ne_true⟩
  | append_singleton tr e ih =>
    rw [Monitor.after_append]
    constructor
    · show ((tokenGuard form).after ⟨false, []⟩ tr).tokens ++ (generated e).toList = _
      rw [ih.1, issued_append]
      cases hgen : generated e with
      | none => rw [issued_of_none hgen, Option.toList_none]
      | some token => rw [issued, issued, List.filterMap_cons_some hgen]; rfl
    · intro h
      change (((tokenGuard form).after ⟨false, []⟩ tr).past || (checked e).any Prod.snd) = true at h
      rw [Bool.or_eq_true] at h
      rcases h with hold | hnew
      · obtain ⟨c, hc, hpassed⟩ := ih.2 hold
        exact ⟨c, List.mem_append_left _ hc, hpassed⟩
      · cases hchecked : checked e with
        | none =>
          rw [hchecked] at hnew
          exact absurd hnew Bool.false_ne_true
        | some p =>
          rw [hchecked] at hnew
          obtain ⟨token, valid⟩ := p
          change valid = true at hnew
          exact ⟨e, by simp, token, by rw [hchecked, hnew]⟩

/-! ### Runs -/

/-- A token with a non-empty string, or with a number that was given out. -/
def Known (ts : List SynchronizedToken) (token : SynchronizedToken) : Prop :=
  token.tokenString ≠ [] ∨ ∃ u ∈ ts, u.id = token.id

/-- What a call of a run has to do with tokens, after the calls `pre`. -/
structure AuthenticAt (requests : List Request) (pre : Trace) (e : CallEvent) : Prop where
  /-- A check is about the token that its request submitted, and the answer is true
  only for a token issued before, exactly when that token is known. -/
  check : ∀ token valid, checked e = some (token, valid) →
    (∃ request, requests[e.thread]? = some request ∧ submittedToken request.form = .ok token) ∧
      ((valid = true → token ∈ issued pre) ↔ Known (issued pre) token)
  /-- A change comes after a check of its own request that answered true. -/
  change : needsToken e.op = true →
    ∃ c ∈ pre, c.thread = e.thread ∧ ∃ token, checked c = some (token, true)

/-- The answer of a check, in terms of the tokens issued before it. -/
theorem check_iff {env : Env} {pre : Trace} {e : CallEvent} {token : SynchronizedToken}
    {valid : Bool} (hans : handle env e.thread e.op e.before = some (e.result, e.after))
    (hI : IssuedBy e.before.sidManager (issued pre)) (he : checked e = some (token, valid)) :
    e.op = .synchronizedTokenIsValid token ∧
      ((valid = true → token ∈ issued pre) ↔ Known (issued pre) token) := by
  obtain ⟨t, c, b, r, a⟩ := e
  cases c with
  | synchronizedTokenIsValid token' =>
    change some (token', r) = some (token, valid) at he
    rw [Option.some.injEq, Prod.mk.injEq] at he
    obtain ⟨rfl, rfl⟩ := he
    rw [handle, Option.some.injEq, Prod.mk.injEq] at hans
    have hvalid : b.sidManager.synchronizedTokenIsValid token' = r := hans.1
    refine ⟨rfl, ?_⟩
    rw [← hvalid]
    exact hI.valid_iff token'
  | _ => exact absurd he (by simp [checked, checkedBy])

/-- The requests that were handled before do not matter to a call's request. -/
theorem AuthenticAt.snoc {requests : List Request} {pre : Trace} {e : CallEvent}
    (h : AuthenticAt requests pre e) (request : Request) :
    AuthenticAt (requests ++ [request]) pre e where
  check := by
    intro token valid he
    obtain ⟨⟨request', hreq, hsub⟩, hiff⟩ := h.check token valid he
    have hlt := (List.getElem?_eq_some_iff.mp hreq).1
    exact ⟨⟨request', by rw [List.getElem?_append_left hlt, hreq], hsub⟩, hiff⟩
  change := h.change

/-- **Every call of a run is authentic** as far as the tokens it meets are known. -/
theorem authenticAt_run {env : Env} {notes : NotesTable} {requests : List Request}
    {served : List Served} {w : World}
    (hrun : serveAll env requests (World.initial notes) = some (served, w)) :
    ∀ pre e post, traceOf served = pre ++ e :: post → AuthenticAt requests pre e := by
  refine serveAll_induction (P := fun requests served _ => ∀ pre e post,
    traceOf served = pre ++ e :: post → AuthenticAt requests pre e) ?_ ?_ hrun
  · intro pre e post hsplit
    exact absurd hsplit (by simp [traceOf])
  · intro requests served w request a es w' hbefore ih hlast pre e post hsplit
    rw [traceOf_snoc] at hsplit
    rcases split_append hsplit with ⟨post', hold, _⟩ | ⟨pre', hpre, hnew⟩
    · exact (ih pre e post' hold).snoc request
    · have hguarded := serveHTTP_guarded env ⟨false, []⟩ request
      have hallows := (hguarded.run (tokenGuard_fits env request.form requests.length) trivial
        hlast).2 pre' e post hnew
      obtain ⟨hthread, hans, hI⟩ := (run_invariant (issuedBy_step env requests.length) hlast
        (issuedBy_run hbefore).1).2 pre' e post hnew
      rw [← hpre] at hI
      constructor
      · intro token valid he
        rw [← hthread] at hans
        obtain ⟨hop, hiff⟩ := check_iff hans hI he
        refine ⟨⟨request, ?_, hallows.1 token hop⟩, hiff⟩
        rw [hthread, List.getElem?_concat_length]
      · intro hneeds
        obtain ⟨c, hc, hpassed⟩ := (after_tokenGuard request.form pre').2 (hallows.2 hneeds)
        obtain ⟨pre'', post'', hsplit'⟩ := List.append_of_mem hc
        have hc' : es = pre'' ++ c :: (post'' ++ e :: post) := by
          rw [hnew, hsplit', List.append_assoc, List.cons_append]
        have hcthread := ((run_invariant (issuedBy_step env requests.length) hlast
          (issuedBy_run hbefore).1).2 pre'' c _ hc').1
        refine ⟨c, ?_, by rw [hcthread, hthread], hpassed⟩
        rw [hpre]
        exact List.mem_append_right _ hc

/-- **Tokens are authentic over whole runs, as far as they are known.** In every
state that is reached, and at every check made on the way, acceptance implies
that the token was issued exactly when its string is not empty or its number was
given out before; and nothing is changed except after an accepted check. -/
theorem tokens_authentic {env : Env} {notes : NotesTable} {requests : List Request}
    {served : List Served} {w : World}
    (hrun : serveAll env requests (World.initial notes) = some (served, w)) :
    (∀ token, (w.sidManager.synchronizedTokenIsValid token = true →
        token ∈ issued (traceOf served)) ↔ Known (issued (traceOf served)) token) ∧
      ∀ pre e post, traceOf served = pre ++ e :: post → AuthenticAt requests pre e :=
  ⟨fun token => (issuedBy_run hrun).1.valid_iff token, authenticAt_run hrun⟩

theorem tokens_authentic_pageAndNote :
    ∃ served w, serveAll quiet pageAndNote (World.initial RowTable.empty) = some (served, w) ∧
      w.notes.rows.length = 1 ∧
      (∀ token, (w.sidManager.synchronizedTokenIsValid token = true →
        token ∈ issued (traceOf served)) ↔ Known (issued (traceOf served)) token) ∧
      ∀ pre e post, traceOf served = pre ++ e :: post → AuthenticAt pageAndNote pre e := by
  have hrows : (serveAll quiet pageAndNote (World.initial RowTable.empty)).map
      (fun p => p.2.notes.rows.length) = some 1 := by decide
  obtain ⟨⟨served, w⟩, hrun, hlen⟩ := Option.map_eq_some_iff.mp hrows
  exact ⟨served, w, hrun, hlen, tokens_authentic hrun⟩

/-- A new note with an empty token string and the number 0, on a server that has just started. -/
def emptyTokenRequests : List Request :=
  [⟨ascii "/NewNote/", (ascii "title", ascii "a") :: tokenForm (ascii "0") []⟩]

/-- The note is added and its token stays acceptable, although no token was issued. -/
theorem emptyToken_accepted :
    ∃ served w, serveAll quiet emptyTokenRequests (World.initial RowTable.empty) =
        some (served, w) ∧ w.notes.rows.length = 1 ∧
      ¬∀ token, w.sidManager.synchronizedTokenIsValid token = true →
        token ∈ issued (traceOf served) := by
  have hserve : (serveAll quiet emptyTokenRequests (World.initial RowTable.empty)).map
      (fun p => (p.2.notes.rows.length, issued (traceOf p.1),
        p.2.sidManager.synchronizedTokenIsValid ⟨0, []⟩)) = some (1, [], true) := by decide
  obtain ⟨⟨served, w⟩, hrun, hall⟩ := Option.map_eq_some_iff.mp hserve
  rw [Prod.mk.injEq, Prod.mk.injEq] at hall
  refine ⟨served, w, hrun, hall.1, fun h => ?_⟩
  have hin := h ⟨0, []⟩ hall.2.2
  rw [hall.2.1] at hin
  exact absurd hin List.not_mem_nil

end ShareNotes.TokenAuthenticity
