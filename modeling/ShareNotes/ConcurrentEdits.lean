import ShareNotes.Linearizability

/-!
# Two clients that edit one note

Each client opens the edit page of a note and saves what its form then holds. A
save compares the form with the stored note, not with what the client was shown,
and an update writes title and text together, so the save that takes effect last
leaves both of its values. A field that only one client changed has that client's
value exactly when its save was the last, or when the other client had been shown
that value.
-/

namespace ShareNotes.ConcurrentEdits

open ShareNotes.Lib.Decimal ShareNotes.Lib.KeyedRows ShareNotes.Lib.Interaction
open ShareNotes.Lib.Monitors ShareNotes.Lib.Linearization
open ShareNotes.Token ShareNotes.NoteRecord ShareNotes.Manager ShareNotes.Calls
open ShareNotes.Handlers ShareNotes.Routing ShareNotes.Runs ShareNotes.Effects
open ShareNotes.SequentialNotes ShareNotes.DatabaseCalls ShareNotes.Linearizability
open Program

/-! ### The four requests -/

inductive Client
  | first
  | second
  deriving DecidableEq

def Client.other : Client → Client
  | .first => .second
  | .second => .first

theorem other_other (x : Client) : x.other.other = x := by
  cases x <;> rfl

theorem ne_other (x : Client) : x ≠ x.other := by
  cases x <;> decide

theorem eq_or_eq_other (x y : Client) : y = x ∨ y = x.other := by
  cases x <;> cases y <;> decide

/-- The thread of the request for the edit page. -/
def Client.page : Client → ℕ
  | .first => 0
  | .second => 1

/-- The thread of the save. -/
def Client.save : Client → ℕ
  | .first => 2
  | .second => 3

def editNote (env : Env) (noteID : ℤ) : Prog Response :=
  (Route.preparePostHandler (ascii "EditNote") noteID).body env []

def saveNote (env : Env) (noteID : ℤ) (form : Form) : Prog Response :=
  (Route.saveNoteHandler noteID).body env form

/-- The edit pages and the saves of the two clients, as threads that share the state. -/
def editPool (env : Env) (noteID : ℤ) (form : Client → Form) (w : World) :
    Pool Call Call.Result Response World :=
  ⟨w, [editNote env noteID, editNote env noteID, saveNote env noteID (form .first),
    saveNote env noteID (form .second)]⟩

theorem editPool_threads {env : Env} {noteID : ℤ} {form : Client → Form} {w : World} {t : ℕ}
    {p : Prog Response} (hp : (editPool env noteID form w).threads[t]? = some p) :
    ∃ x : Client, (t = x.page ∧ p = editNote env noteID) ∨
      (t = x.save ∧ p = saveNote env noteID (form x)) := by
  match t, hp with
  | 0, hp => exact ⟨.first, Or.inl ⟨rfl, (Option.some.inj hp).symm⟩⟩
  | 1, hp => exact ⟨.second, Or.inl ⟨rfl, (Option.some.inj hp).symm⟩⟩
  | 2, hp => exact ⟨.first, Or.inr ⟨rfl, (Option.some.inj hp).symm⟩⟩
  | 3, hp => exact ⟨.second, Or.inr ⟨rfl, (Option.some.inj hp).symm⟩⟩
  | t + 4, hp => exact absurd hp (by simp [editPool])

theorem page_ne_save (x y : Client) : x.page ≠ y.save := by
  cases x <;> cases y <;> decide

theorem save_injective {x y : Client} (h : x.save = y.save) : x = y := by
  cases x <;> cases y <;> first | rfl | exact absurd h (by decide)

/-! ### What the four requests do to the database -/

/-- What the calls of thread `t` come to, once it has answered. -/
def Finished (env : Env) (noteID : ℤ) (form : Client → Form) (t : ℕ) (g : List AnsweredCall)
    (a : Response) : Prop :=
  (∀ x : Client, t = x.page → ∀ c ∈ g, isWrite c.1 = false) ∧
    ∀ x : Client, t = x.save → a = .redirect (notePath noteID) →
      Performs env t (.saveNote (form x) noteID) g a

section Threads

variable {env : Env} {noteID : ℤ} {form : Client → Form}

theorem editNote_collects (t : ℕ) :
    Collects env (fun _ => True) (fun _ _ => True) t (fun g _ => ∀ c ∈ g, isWrite c.1 = false) []
      (editNote env noteID) := by
  refine ⟨trivial, fun found _ => ?_⟩
  have hg : ∀ c ∈ ([⟨.getNote noteID, found⟩] : List AnsweredCall), isWrite c.1 = false := by
    intro c hc
    rw [List.mem_singleton.mp hc]
    rfl
  cases found with
  | error err => exact hg
  | ok n =>
    refine collects_call trivial (fun _ => rfl) fun token _ => ?_
    refine collects_call trivial (fun _ => rfl) fun err _ => ?_
    cases err <;> exact hg

theorem saveNote_collects (t : ℕ) (f : Form) :
    Collects env (fun _ => True) (fun _ _ => True) t (fun g a => a = .redirect (notePath noteID) →
      Performs env t (.saveNote f noteID) g a) [] (saveNote env noteID f) := by
  refine ⟨trivial, fun found hfound => ?_⟩
  cases found with
  | error err =>
    intro ha
    exact absurd ha (by simp [internalServerError])
  | ok n =>
    refine collects_checkToken (fun _ _ => trivial) (fun _ message ha => absurd ha (by simp)) ?_
    exact (collects_saveFound (fun _ _ => trivial) hfound).imp fun g a hg _ => hg

theorem editPool_collects {w : World} (t : ℕ) (p : Prog Response)
    (hp : (editPool env noteID form w).threads[t]? = some p) :
    Collects env (fun _ => True) (fun _ _ => True) t (Finished env noteID form t) [] p := by
  obtain ⟨x, ⟨ht, rfl⟩ | ⟨ht, rfl⟩⟩ := editPool_threads hp
  · refine (editNote_collects t).imp fun g a hg => ⟨fun _ _ => hg, fun y hy _ => ?_⟩
    exact absurd (ht.symm.trans hy) (page_ne_save x y)
  · refine (saveNote_collects t (form x)).imp fun g a hg => ⟨fun y hy => ?_, fun y hy ha => ?_⟩
    · exact absurd (hy.symm.trans ht) (page_ne_save y x)
    · rw [← save_injective (ht.symm.trans hy)]
      exact hg ha

end Threads

/-! ### When a save takes effect -/

/-- Lookups and writes of single notes. -/
def isDatabase : Call → Bool
  | .getNote _ => true
  | c => isWrite c

theorem isDatabase_of_none {c : Call} {r : c.Result} (h : databaseCall c r = none) :
    isDatabase c = false := by
  cases c with
  | getNote noteID => exact absurd h (by simp [databaseCall])
  | addNote n => exact absurd h (by simp [databaseCall])
  | updateNote n => exact absurd h (by simp [databaseCall])
  | deleteNote noteID => exact absurd h (by simp [databaseCall])
  | _ => rfl

/-- Call `p` is the last database call of request `t`. A save takes effect with it:
it is its update, or its lookup when nothing differed. -/
def LastDatabaseCall (es : Trace) (t p : ℕ) : Prop :=
  (∃ e : CallEvent, es[p]? = some e ∧ e.thread = t ∧ isDatabase e.op = true) ∧
    ∀ (q : ℕ) (e : CallEvent), p < q → es[q]? = some e → e.thread = t → isDatabase e.op = false

/-- The save of request `t` took effect after that of request `u`. -/
def SavedAfter (es : Trace) (t u : ℕ) : Prop :=
  ∃ p q, LastDatabaseCall es t p ∧ LastDatabaseCall es u q ∧ q < p

theorem LastDatabaseCall.unique {es : Trace} {t p q : ℕ} (hp : LastDatabaseCall es t p)
    (hq : LastDatabaseCall es t q) : p = q := by
  obtain ⟨⟨e, he, ht, hcall⟩, hlater⟩ := hp
  obtain ⟨⟨d, hd, ht', hcall'⟩, hlater'⟩ := hq
  rcases Nat.lt_trichotomy p q with hlt | heq | hgt
  · rw [hlater q d hlt hd ht'] at hcall'
    exact absurd hcall' Bool.false_ne_true
  · exact heq
  · rw [hlater' p e hgt he ht] at hcall
    exact absurd hcall Bool.false_ne_true

theorem LastDatabaseCall.same_thread {es : Trace} {t u p : ℕ} (ht : LastDatabaseCall es t p)
    (hu : LastDatabaseCall es u p) : t = u := by
  obtain ⟨⟨e, he, hthread, _⟩, _⟩ := ht
  obtain ⟨⟨d, hd, hthread', _⟩, _⟩ := hu
  rw [he, Option.some.injEq] at hd
  rw [← hthread, ← hthread', hd]

theorem savedAfter_iff {es : Trace} {t u p q : ℕ} (hp : LastDatabaseCall es t p)
    (hq : LastDatabaseCall es u q) : SavedAfter es t u ↔ q < p := by
  constructor
  · intro ⟨p', q', hp', hq', hlt⟩
    rw [hp'.unique hp, hq'.unique hq] at hlt
    exact hlt
  · intro hlt
    exact ⟨p, q, hp, hq, hlt⟩

/-- Titles and texts stay as they are while no call changes them. -/
theorem contentsAt_stays {w₀ : World} {es : Trace} {p q : ℕ} (hpq : p ≤ q)
    (hsame : ∀ r, p ≤ r → r < q → contentsAt w₀ es (r + 1) = contentsAt w₀ es r) :
    contentsAt w₀ es q = contentsAt w₀ es p := by
  induction q, hpq using Nat.le_induction with
  | base => rfl
  | succ q hpq ih =>
    rw [hsame q hpq q.lt_succ_self, ih fun r hr hrq => hsame r hr (by omega)]

section Run

variable {env : Env} (hdb : env.DatabaseSucceeds) {w₀ : World} {es : Trace}
  (hes : AnsweredFrom env w₀ es) {t : ℕ} {noteID : ℤ} {form : Form}

include hdb hes

/-- **A save that is answered with the redirect** leaves its values in the row
when it takes effect, if the note is not removed. -/
theorem save_takesEffect (hperforms : Performs env t (.saveNote form noteID) (performed t es)
      (.redirect (notePath noteID)))
    (hkept : ∀ (p : ℕ) (e : CallEvent), es[p]? = some e → e.op ≠ .deleteNote noteID) :
    ∃ p, LastDatabaseCall es t p ∧
      (contentsAt w₀ es (p + 1)).lookup noteID = some (submitted form) ∧
      ∀ (q : ℕ) (e : CallEvent), es[q]? = some e → e.thread = t → q ≠ p →
        contentsAt w₀ es (q + 1) = contentsAt w₀ es q := by
  generalize hcalls : performed t es = calls at hperforms
  generalize hanswer : Response.redirect (notePath noteID) = a at hperforms
  cases hperforms with
  | saveMissing form noteID err => exact absurd hanswer (by simp [internalServerError])
  | saveClean form noteID n hn =>
    obtain ⟨p, e, he, ht, hop, hothers⟩ := performed_single hcalls
    have hcall : isDatabase e.op = true := by
      rw [(Sigma.mk.inj hop).1]
      rfl
    refine ⟨p, ⟨⟨e, he, ht, hcall⟩, fun q d hpq hd htd => ?_⟩, ?_, fun q d hd htd hne => ?_⟩
    · exact isDatabase_of_none (hothers q d hd htd (by omega))
    · obtain ⟨_, herr⟩ | ⟨row, hrow, hok⟩ := getNote_at hdb hes he hop
      · exact absurd herr (by simp)
      · rw [contentsAt_getNote hdb hes he hop, hrow, ← hn, Except.ok.inj hok]
        rfl
    · exact contentsAt_of_none hdb hes hd (hothers q d hd htd hne)
  | saveDirty form noteID n n' hid hn =>
    obtain ⟨p, q, e, d, hpq, he, ht, hop, hd, ht', hop', hothers⟩ := performed_pair hcalls
    have hcall : isDatabase d.op = true := by
      rw [(Sigma.mk.inj hop').1]
      rfl
    refine ⟨q, ⟨⟨d, hd, ht', hcall⟩, fun r b hqr hb htb => ?_⟩, ?_, fun r b hb htb hne => ?_⟩
    · exact isDatabase_of_none (hothers r b hb htb (by omega) (by omega))
    · obtain ⟨_, herr⟩ | ⟨row, hrow, _⟩ := getNote_at hdb hes he hop
      · exact absurd herr (by simp)
      · -- the row that was found is still there when the update runs
        rw [contentsAt_updateNote hdb hes hd hid hn hop', RowTable.lookup_modify, if_pos rfl]
        cases hlast : (contentsAt w₀ es q).lookup noteID with
        | some y => rfl
        | none =>
          have hlen : q ≤ es.length := (List.getElem?_eq_some_iff.mp hd).1.le
          obtain ⟨r, _, b, _, _, _, hb, hdelete⟩ :=
            exists_deleteNote hdb hes hpq.le hlen hrow hlast
          exact absurd hdelete (hkept r b hb)
    · by_cases hrp : r = p
      · rw [hrp]
        exact contentsAt_getNote hdb hes he hop
      · exact contentsAt_of_none hdb hes hb (hothers r b hb htb hrp hne)

end Run

/-! ### The field that one client changed -/

inductive Field
  | title
  | text

/-- The value of a field. -/
def Field.of : Field → Bytes × Bytes → Bytes
  | .title, p => p.1
  | .text, p => p.2

/-- The edit page of a note. -/
def editPage (n : Note) (token : SynchronizedToken) : Page :=
  ⟨ascii "EditNote.html", .confirmNoteData n token⟩

/-- The note has title and text of the client whose save took effect last. A field
that the other client left as it was shown has the value of client `x` exactly when
the save of `x` took effect last, or the other client had been shown that value. -/
def LastSaveWins (es : Trace) (notes : NotesTable) (noteID : ℤ) (form : Client → Form)
    (served : Client → Note) : Prop :=
  ∃ row, notes.lookup noteID = some row ∧
    (∀ x : Client, SavedAfter es x.save x.other.save →
      (row.title, row.text) = submitted (form x)) ∧
    ∀ (x : Client) (f : Field), f.of (submitted (form x.other)) =
        f.of ((served x.other).title, (served x.other).text) →
      (f.of (row.title, row.text) = f.of (submitted (form x)) ↔
        SavedAfter es x.save x.other.save ∨
          f.of ((served x.other).title, (served x.other).text) = f.of (submitted (form x)))

section Pool

variable {env : Env} (hdb : env.DatabaseSucceeds) {noteID : ℤ} {form : Client → Form}
  {w₀ : World} {ts : List ℕ} {es : Trace} {c : Pool Call Call.Result Response World}
  (hrun : (editPool env noteID form w₀).exec (handle env) ts = some (es, c))
  {served : Client → Note} {token : Client → SynchronizedToken}
  (hpages : ∀ x : Client, c.threads[x.page]? = some (.ret (.page (editPage (served x) (token x)))))
  (hsaves : ∀ x : Client, c.threads[x.save]? = some (.ret (.redirect (notePath noteID))))

include hdb hrun

theorem finished_performed {t : ℕ} {a : Response} (ha : c.threads[t]? = some (.ret a)) :
    Finished env noteID form t (performed t es) a := by
  have hfollows := Pool.exec_follows (h := handle env) (g := fun _ => [])
    (fun t => collector_fits_any hdb t) trivial editPool_collects hrun
  have hlast := hfollows.2.1 t (.ret a) ha
  rw [collector_after, List.nil_append] at hlast
  exact hlast

include hpages

/-- The requests for the pages write nothing. -/
theorem page_not_write {e : CallEvent} (he : e ∈ es) {x : Client} (ht : e.thread = x.page) :
    isWrite e.op = false := by
  cases hwrite : isWrite e.op with
  | false => rfl
  | true =>
    have hmem := mem_performed he (databaseCall_of_isWrite hwrite e.result)
    rw [ht] at hmem
    have hno := (finished_performed hdb hrun (hpages x)).1 x rfl _ hmem
    rw [← hno, ← hwrite]

include hsaves

/-- None of the four requests removes a note. -/
theorem not_deleteNote {e : CallEvent} (he : e ∈ es) (k : ℤ) : e.op ≠ .deleteNote k := by
  intro hop
  have hwrite : isWrite e.op = true := by
    rw [hop]
    rfl
  have hlt := (Pool.exec_threads (handle env) hrun).2 e he
  obtain ⟨x, ⟨ht, _⟩ | ⟨ht, _⟩⟩ := editPool_threads (List.getElem?_eq_getElem hlt)
  · rw [page_not_write hdb hrun hpages he ht] at hwrite
    exact absurd hwrite Bool.false_ne_true
  · have hmem := mem_performed he (databaseCall_of_isWrite hwrite e.result)
    rw [ht] at hmem
    have hperforms := (finished_performed hdb hrun (hsaves x)).2 x rfl rfl
    obtain ⟨f, hjob⟩ := hperforms.deleteNote_of_mem hmem hop
    exact absurd hjob (by simp)

/-- **When each save took effect**, and that only the saves change anything. -/
theorem exists_effects : ∃ effectAt : Client → ℕ,
    (∀ x : Client, LastDatabaseCall es x.save (effectAt x) ∧
      (contentsAt w₀ es (effectAt x + 1)).lookup noteID = some (submitted (form x))) ∧
    ∀ p < es.length, (∀ x : Client, p ≠ effectAt x) →
      contentsAt w₀ es (p + 1) = contentsAt w₀ es p := by
  have hes : AnsweredFrom env w₀ es := (Pool.exec_states (handle env) hrun).2
  have hexists : ∀ x : Client, ∃ p, LastDatabaseCall es x.save p ∧
      (contentsAt w₀ es (p + 1)).lookup noteID = some (submitted (form x)) ∧
      ∀ (q : ℕ) (e : CallEvent), es[q]? = some e → e.thread = x.save → q ≠ p →
        contentsAt w₀ es (q + 1) = contentsAt w₀ es q := by
    intro x
    have hperforms := (finished_performed hdb hrun (hsaves x)).2 x rfl rfl
    exact save_takesEffect hdb hes hperforms fun p e he =>
      not_deleteNote hdb hrun hpages hsaves (List.mem_of_getElem? he) noteID
  choose effectAt hlast hleaves hothers using hexists
  refine ⟨effectAt, fun x => ⟨hlast x, hleaves x⟩, fun p hp hne => ?_⟩
  have he : es[p]? = some es[p] := List.getElem?_eq_getElem hp
  have hmem : es[p] ∈ es := List.getElem_mem hp
  have hlt := (Pool.exec_threads (handle env) hrun).2 es[p] hmem
  obtain ⟨x, ⟨ht, _⟩ | ⟨ht, _⟩⟩ := editPool_threads (List.getElem?_eq_getElem hlt)
  · exact contentsAt_of_not_write hdb hes he (page_not_write hdb hrun hpages hmem ht)
  · exact hothers x p es[p] he ht (hne x)

/-- **Last writer wins**, when both saves have been answered with the redirect. -/
theorem last_save_wins : LastSaveWins es c.world.notes noteID form served := by
  obtain ⟨effectAt, hsaved, hsame⟩ := exists_effects hdb hrun hpages hsaves
  have hworld := (Pool.exec_states (handle env) hrun).1
  have hlength : ∀ x : Client, effectAt x < es.length := by
    intro x
    obtain ⟨⟨⟨e, he, _⟩, _⟩, _⟩ := hsaved x
    exact (List.getElem?_eq_some_iff.mp he).1
  have hafter : ∀ x : Client, SavedAfter es x.save x.other.save ↔
      effectAt x.other < effectAt x := fun x => savedAfter_iff (hsaved x).1 (hsaved x.other).1
  have hne : ∀ x : Client, effectAt x ≠ effectAt x.other := by
    intro x heq
    have hlast := (hsaved x).1
    rw [heq] at hlast
    exact ne_other x (save_injective (hlast.same_thread (hsaved x.other).1))
  -- what the later save wrote is there at the end
  have hfinal : ∀ x : Client, effectAt x.other < effectAt x →
      (c.world.notes.lookup noteID).map (fun row => (row.title, row.text)) =
        some (submitted (form x)) := by
    intro x hlater
    have hstays : contentsAt w₀ es es.length = contentsAt w₀ es (effectAt x + 1) := by
      apply contentsAt_stays (hlength x)
      intro r hr hrlen
      apply hsame r hrlen
      intro y
      rcases eq_or_eq_other x y with hy | hy <;> rw [hy] <;> omega
    have hcontents : (contentsAt w₀ es es.length).lookup noteID = some (submitted (form x)) := by
      rw [hstays]
      exact (hsaved x).2
    rw [contentsAt, lookup_contents] at hcontents
    rw [hworld]
    exact hcontents
  have hrow : ∃ row, c.world.notes.lookup noteID = some row := by
    rcases Nat.lt_or_gt_of_ne (hne .first) with hlt | hgt
    · obtain ⟨row, hrow, _⟩ := Option.map_eq_some_iff.mp (hfinal .second hlt)
      exact ⟨row, hrow⟩
    · obtain ⟨row, hrow, _⟩ := Option.map_eq_some_iff.mp (hfinal .first hgt)
      exact ⟨row, hrow⟩
  obtain ⟨row, hrow⟩ := hrow
  have hvalues : ∀ x : Client, effectAt x.other < effectAt x →
      (row.title, row.text) = submitted (form x) := by
    intro x hlater
    have hv := hfinal x hlater
    rw [hrow] at hv
    exact Option.some.inj hv
  refine ⟨row, hrow, fun x hx => hvalues x ((hafter x).mp hx), fun x f hshown => ?_⟩
  rcases Nat.lt_or_gt_of_ne (hne x) with hlt | hgt
  · -- the other client's save was the last
    have hother : (row.title, row.text) = submitted (form x.other) := by
      apply hvalues x.other
      rw [other_other]
      exact hlt
    rw [hother, hshown, hafter x]
    exact ⟨Or.inr, fun h => h.resolve_left (by omega)⟩
  · rw [hvalues x hgt, hafter x]
    exact iff_of_true rfl (Or.inl hgt)

end Pool

/-- The first client changes the title of note 1, the second its text; each submits
the token of its own page. -/
def edits : Client → Form
  | .first => (ascii "title", ascii "b") :: tokenForm (ascii "1") quietString
  | .second => (ascii "title", ascii "a") :: (ascii "text", ascii "c") ::
      tokenForm (ascii "2") quietString

/-- The note of `pageAndNote`, as both clients are shown it. -/
def shownNote : Note := Note.newLocal 1 (ascii "a") [] (ofUnix 1500000005) (ofUnix 1500000006)

/-- The token of the page of a client. -/
def pageToken : Client → SynchronizedToken
  | .first => ⟨1, quietString⟩
  | .second => ⟨2, quietString⟩

/-- The answers to the four requests. -/
def editAnswers : List (Option Response) :=
  [some (.page (editPage shownNote (pageToken .first))),
    some (.page (editPage shownNote (pageToken .second))), some (.redirect (notePath 1)),
    some (.redirect (notePath 1))]

theorem answered_of_returned {c : Pool Call Call.Result Response World} {t : ℕ} {a : Response}
    (h : c.threads.map Program.returned = editAnswers) (ha : editAnswers[t]? = some (some a)) :
    c.threads[t]? = some (.ret a) := by
  rw [← h, List.getElem?_map] at ha
  obtain ⟨p, hp, hreturned⟩ := Option.map_eq_some_iff.mp ha
  rw [hp, eq_ret_of_returned hreturned]

/-- Both clients open the note, and their saves overlap; the update of the first comes last. -/
theorem last_save_wins_edits :
    ∃ served w es c, serveAll quiet pageAndNote (World.initial RowTable.empty) =
        some (served, w) ∧
      (editPool quiet 1 edits w).exec (handle quiet) [0, 0, 0, 1, 1, 1, 3, 3, 3, 2, 2, 2, 3, 2] =
        some (es, c) ∧
      c.threads.map Program.returned = editAnswers ∧
      c.world.notes.lookup 1 = some ⟨ascii "b", [], 1500000005, 1500000019⟩ ∧
      LastSaveWins es c.world.notes 1 edits fun _ => shownNote := by
  have hexec : ((serveAll quiet pageAndNote (World.initial RowTable.empty)).bind fun p =>
      ((editPool quiet 1 edits p.2).exec (handle quiet)
        [0, 0, 0, 1, 1, 1, 3, 3, 3, 2, 2, 2, 3, 2]).map fun q =>
        (q.2.threads.map Program.returned, q.2.world.notes.lookup 1)) =
      some (editAnswers, some ⟨ascii "b", [], 1500000005, 1500000019⟩) := by
    decide +kernel
  obtain ⟨⟨served, w⟩, hserved, hpool⟩ := Option.bind_eq_some_iff.mp hexec
  obtain ⟨⟨es, c⟩, hrun, hall⟩ := Option.map_eq_some_iff.mp hpool
  rw [Prod.mk.injEq] at hall
  obtain ⟨hreturned, hrow⟩ := hall
  have hpages : ∀ x : Client, c.threads[x.page]? =
      some (.ret (.page (editPage shownNote (pageToken x)))) := by
    intro x
    cases x <;> exact answered_of_returned hreturned rfl
  have hsaves : ∀ x : Client, c.threads[x.save]? = some (.ret (.redirect (notePath 1))) := by
    intro x
    cases x <;> exact answered_of_returned hreturned rfl
  exact ⟨served, w, es, c, hserved, hrun, hreturned, hrow,
    last_save_wins quiet_succeeds hrun hpages hsaves⟩

/-- Both clients open the note, then the first saves its title, and the second,
which changed only the text, puts the old title back. -/
theorem edits_titleLost :
    ∃ served w es c, serveAll quiet pageAndNote (World.initial RowTable.empty) =
        some (served, w) ∧
      (editPool quiet 1 edits w).exec (handle quiet)
        [0, 0, 0, 1, 1, 1, 2, 2, 2, 2, 3, 3, 3, 3, 3] = some (es, c) ∧
      c.threads.map Program.returned = editAnswers ∧
      (submitted (edits .first)).1 ≠ shownNote.title ∧
      (submitted (edits .second)).1 = shownNote.title ∧
      ∃ row, c.world.notes.lookup 1 = some row ∧ row.title ≠ (submitted (edits .first)).1 := by
  have hexec : ((serveAll quiet pageAndNote (World.initial RowTable.empty)).bind fun p =>
      ((editPool quiet 1 edits p.2).exec (handle quiet)
        [0, 0, 0, 1, 1, 1, 2, 2, 2, 2, 3, 3, 3, 3, 3]).map fun q =>
        (q.2.threads.map Program.returned, q.2.world.notes.lookup 1)) =
      some (editAnswers, some ⟨ascii "a", ascii "c", 1500000005, 1500000021⟩) := by
    decide +kernel
  obtain ⟨⟨served, w⟩, hserved, hpool⟩ := Option.bind_eq_some_iff.mp hexec
  obtain ⟨⟨es, c⟩, hrun, hall⟩ := Option.map_eq_some_iff.mp hpool
  rw [Prod.mk.injEq] at hall
  obtain ⟨hreturned, hrow⟩ := hall
  exact ⟨served, w, es, c, hserved, hrun, hreturned, by decide, by decide, _, hrow, by decide⟩

end ShareNotes.ConcurrentEdits
