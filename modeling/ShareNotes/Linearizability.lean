import ShareNotes.DatabaseCalls

/-!
# Concurrent requests on notes are linearizable

Requests that run concurrently, call by call in any order, are placed on the
calls of the run. A request that writes takes effect with its write, and one that
does not with its lookup. A save whose note was removed between its lookup and
its update takes effect right before a removal: its note is there at that moment,
and the removal leaves nothing of what it wrote.

Moment by moment the requests then do what the sequential object does, so the run
has a sequential order that keeps requests that did not overlap in their order.
-/

namespace ShareNotes.Linearizability

open ShareNotes.Lib.Decimal ShareNotes.Lib.KeyedRows ShareNotes.Lib.Interaction
open ShareNotes.Lib.Monitors ShareNotes.Lib.Linearization
open ShareNotes.Token ShareNotes.NoteRecord ShareNotes.Linkify ShareNotes.Manager
open ShareNotes.Calls ShareNotes.Handlers ShareNotes.Routing ShareNotes.Runs ShareNotes.Effects
open ShareNotes.SequentialNotes ShareNotes.DatabaseCalls
open Program

/-! ### Titles and texts along a run -/

/-- The titles and texts after the first `p` calls. -/
def contentsAt (w₀ : World) (es : Trace) (p : ℕ) : Contents := contents (stateAt w₀ es p).notes

theorem contentsEffect_of_not_write {c : Call} (hc : isWrite c = false) (m : Contents) :
    contentsEffect c m = m := by
  cases c with
  | addNote n => exact absurd hc.symm Bool.false_ne_true
  | updateNote n => exact absurd hc.symm Bool.false_ne_true
  | deleteNote noteID => exact absurd hc.symm Bool.false_ne_true
  | _ => rfl

theorem call_of_databaseCall {c d : Call} {r : c.Result} {s : d.Result}
    (hc : databaseCall c r = some ⟨d, s⟩) : (⟨c, r⟩ : AnsweredCall) = ⟨d, s⟩ := by
  cases c with
  | getNote noteID => exact Option.some.inj hc
  | addNote n => exact Option.some.inj hc
  | updateNote n => exact Option.some.inj hc
  | deleteNote noteID => exact Option.some.inj hc
  | _ => exact absurd hc (by simp [databaseCall])

/-- Only removing a note takes its row away. -/
theorem eq_deleteNote_of_lookup {c : Call} {m : Contents} {noteID : ℤ} {x : Bytes × Bytes}
    (hx : m.lookup noteID = some x) (hnone : (contentsEffect c m).lookup noteID = none) :
    c = .deleteNote noteID := by
  cases c with
  | addNote n =>
    rw [contentsEffect, RowTable.lookup_insert] at hnone
    split at hnone
    · exact absurd hnone (by simp)
    · rw [hx] at hnone
      exact absurd hnone (by simp)
  | updateNote n =>
    rw [contentsEffect, RowTable.lookup_modify, hx] at hnone
    split at hnone <;> exact absurd hnone (by simp)
  | deleteNote k =>
    rw [contentsEffect, RowTable.lookup_erase, hx] at hnone
    split at hnone
    · rename_i hk
      rw [hk]
    · exact absurd hnone (by simp)
  | _ =>
    change m.lookup noteID = none at hnone
    rw [hx] at hnone
    exact absurd hnone (by simp)

section Run

variable {env : Env} (hdb : env.DatabaseSucceeds) {w₀ : World} {es : Trace}
  (hes : AnsweredFrom env w₀ es)

include hdb hes

/-- **One call of the run.** -/
theorem contentsAt_succ {p : ℕ} {e : CallEvent} (he : es[p]? = some e) :
    contentsAt w₀ es (p + 1) = contentsEffect e.op (contentsAt w₀ es p) := by
  obtain ⟨hbefore, hans⟩ := hes p e he
  have heffect := handle_effect hdb hans
  rw [contentsAt, stateAt_succ w₀ he, heffect, contents_effect, hbefore]
  rfl

/-- A lookup in the run finds what is there. -/
theorem getNote_at {p : ℕ} {e : CallEvent} (he : es[p]? = some e) {noteID : ℤ}
    {found : Except GoError Note}
    (hop : (⟨e.op, e.result⟩ : AnsweredCall) = ⟨.getNote noteID, found⟩) :
    ((contentsAt w₀ es p).lookup noteID = none ∧ found = .error .noRows) ∨
      ∃ row, (contentsAt w₀ es p).lookup noteID = some (row.title, row.text) ∧
        found = .ok (noteOf noteID row) := by
  obtain ⟨hbefore, hans⟩ := hes p e he
  obtain ⟨u, op, w, r, w'⟩ := e
  rw [Sigma.mk.injEq] at hop
  obtain ⟨rfl, hr⟩ := hop
  obtain rfl := eq_of_heq hr
  obtain ⟨_, hfound⟩ := getNote_succeeds hdb hans
  change w = stateAt w₀ es p at hbefore
  rw [contentsAt, lookup_contents, ← hbefore]
  cases hrow : w.notes.lookup noteID with
  | none =>
    rw [hrow] at hfound
    exact Or.inl ⟨rfl, hfound⟩
  | some row =>
    rw [hrow] at hfound
    exact Or.inr ⟨row, rfl, hfound⟩

/-- **A row that was there and is gone was removed in between.** -/
theorem exists_deleteNote {p q : ℕ} (hpq : p ≤ q) (hq : q ≤ es.length) {noteID : ℤ}
    {x : Bytes × Bytes} (hx : (contentsAt w₀ es p).lookup noteID = some x)
    (hnone : (contentsAt w₀ es q).lookup noteID = none) :
    ∃ (r : ℕ) (y : Bytes × Bytes) (e : CallEvent), p ≤ r ∧ r < q ∧
      (contentsAt w₀ es r).lookup noteID = some y ∧ es[r]? = some e ∧
      e.op = .deleteNote noteID := by
  induction q, hpq using Nat.le_induction with
  | base =>
    rw [hx] at hnone
    exact absurd hnone (by simp)
  | succ q hpq ih =>
    cases hlast : (contentsAt w₀ es q).lookup noteID with
    | none =>
      obtain ⟨r, y, e, hpr, hrq, hy, he, hop⟩ := ih (by omega) hlast
      exact ⟨r, y, e, hpr, by omega, hy, he, hop⟩
    | some y =>
      have he : es[q]? = some es[q] := List.getElem?_eq_getElem hq
      rw [contentsAt_succ hdb hes he] at hnone
      exact ⟨q, y, es[q], hpq, Nat.lt_succ_self q, hlast, he, eq_deleteNote_of_lookup hlast hnone⟩

end Run

/-! ### Where a request takes effect -/

/-- **A place for request `t`** in a run, where it answers `a`. -/
structure Placed (env : Env) (w₀ : World) (es : Trace) (t : ℕ) (job : Job) (a : Response)
    (l : Place) : Prop where
  started : ∃ (p : ℕ) (e : CallEvent), p ≤ l.moment ∧ es[p]? = some e ∧ e.thread = t
  ended : ∃ (p : ℕ) (e : CallEvent), l.moment ≤ p ∧ es[p]? = some e ∧ e.thread = t
  late : l.early = false →
    (∃ e : CallEvent, es[l.moment]? = some e ∧ e.thread = t) ∧
      job.answer env t (contentsAt w₀ es l.moment) = some (withoutDates a) ∧
      job.apply (contentsAt w₀ es l.moment) = contentsAt w₀ es (l.moment + 1)
  early : l.early = true → ∃ form noteID, job = .saveNote form noteID ∧
    a = .redirect (notePath noteID) ∧
    (∃ y, (contentsAt w₀ es l.moment).lookup noteID = some y) ∧
    ∃ e : CallEvent, es[l.moment]? = some e ∧ e.op = .deleteNote noteID
  only : ∀ (p : ℕ) (e : CallEvent), es[p]? = some e → e.thread = t → l ≠ ⟨p, false⟩ →
    contentsAt w₀ es (p + 1) = contentsAt w₀ es p

theorem of_collected {t : ℕ} {e : CallEvent} {x : AnsweredCall}
    (h : (if e.thread == t then databaseCall e.op e.result else none) = some x) :
    e.thread = t ∧ (⟨e.op, e.result⟩ : AnsweredCall) = x := by
  split at h
  · rename_i ht
    exact ⟨beq_iff_eq.mp ht, call_of_databaseCall h⟩
  · exact absurd h (by simp)

theorem databaseCall_of_not_collected {t : ℕ} {e : CallEvent} (ht : e.thread = t)
    (h : (if e.thread == t then databaseCall e.op e.result else none) = none) :
    databaseCall e.op e.result = none := by
  rw [if_pos (beq_iff_eq.mpr ht)] at h
  exact h

/-- The one database call of a request. -/
theorem performed_single {es : Trace} {t : ℕ} {x : AnsweredCall} (h : performed t es = [x]) :
    ∃ (p : ℕ) (e : CallEvent), es[p]? = some e ∧ e.thread = t ∧
      (⟨e.op, e.result⟩ : AnsweredCall) = x ∧
      ∀ (q : ℕ) (d : CallEvent), es[q]? = some d → d.thread = t → q ≠ p →
        databaseCall d.op d.result = none := by
  obtain ⟨p, e, he, hx, hothers⟩ := filterMap_eq_singleton_index h
  obtain ⟨ht, hcall⟩ := of_collected hx
  exact ⟨p, e, he, ht, hcall, fun q d hd htd hne =>
    databaseCall_of_not_collected htd (hothers q d hd hne)⟩

/-- The two database calls of a request. -/
theorem performed_pair {es : Trace} {t : ℕ} {x y : AnsweredCall} (h : performed t es = [x, y]) :
    ∃ (p q : ℕ) (e d : CallEvent), p < q ∧ es[p]? = some e ∧ e.thread = t ∧
      (⟨e.op, e.result⟩ : AnsweredCall) = x ∧ es[q]? = some d ∧ d.thread = t ∧
      (⟨d.op, d.result⟩ : AnsweredCall) = y ∧
      ∀ (r : ℕ) (b : CallEvent), es[r]? = some b → b.thread = t → r ≠ p → r ≠ q →
        databaseCall b.op b.result = none := by
  obtain ⟨p, q, e, d, hpq, he, hx, hd, hy, hothers⟩ := filterMap_eq_pair_index h
  obtain ⟨ht, hcall⟩ := of_collected hx
  obtain ⟨ht', hcall'⟩ := of_collected hy
  exact ⟨p, q, e, d, hpq, he, ht, hcall, hd, ht', hcall', fun r b hb htb hne hne' =>
    databaseCall_of_not_collected htb (hothers r b hb hne hne')⟩

section Place

variable {env : Env} (hdb : env.DatabaseSucceeds) {w₀ : World} {es : Trace}
  (hes : AnsweredFrom env w₀ es) {t : ℕ} {job : Job} {a : Response}

include hdb hes

theorem contentsAt_of_not_write {p : ℕ} {e : CallEvent} (he : es[p]? = some e)
    (h : isWrite e.op = false) : contentsAt w₀ es (p + 1) = contentsAt w₀ es p := by
  rw [contentsAt_succ hdb hes he, contentsEffect_of_not_write h]

theorem contentsAt_of_none {p : ℕ} {e : CallEvent} (he : es[p]? = some e)
    (h : databaseCall e.op e.result = none) :
    contentsAt w₀ es (p + 1) = contentsAt w₀ es p := by
  apply contentsAt_of_not_write hdb hes he
  cases hwrite : isWrite e.op with
  | false => rfl
  | true =>
    rw [databaseCall_of_isWrite hwrite] at h
    exact absurd h (by simp)

omit hdb hes in
/-- A request that takes effect with one of its own calls. -/
theorem placed_late {p : ℕ} {e : CallEvent} (he : es[p]? = some e) (ht : e.thread = t)
    (hothers : ∀ (q : ℕ) (d : CallEvent), es[q]? = some d → d.thread = t → q ≠ p →
      contentsAt w₀ es (q + 1) = contentsAt w₀ es q)
    (hanswer : job.answer env t (contentsAt w₀ es p) = some (withoutDates a))
    (happly : job.apply (contentsAt w₀ es p) = contentsAt w₀ es (p + 1)) :
    Placed env w₀ es t job a ⟨p, false⟩ where
  started := ⟨p, e, le_rfl, he, ht⟩
  ended := ⟨p, e, le_rfl, he, ht⟩
  late _ := ⟨⟨e, he, ht⟩, hanswer, happly⟩
  early h := absurd h Bool.false_ne_true
  only q d hd htd hne := hothers q d hd htd fun h => hne (by rw [h])

/-- A request that takes effect with its one database call. -/
theorem placed_single {p : ℕ} {e : CallEvent} (he : es[p]? = some e) (ht : e.thread = t)
    (hothers : ∀ (q : ℕ) (d : CallEvent), es[q]? = some d → d.thread = t → q ≠ p →
      databaseCall d.op d.result = none)
    (hanswer : job.answer env t (contentsAt w₀ es p) = some (withoutDates a))
    (happly : job.apply (contentsAt w₀ es p) = contentsAt w₀ es (p + 1)) :
    ∃ l, Placed env w₀ es t job a l :=
  ⟨⟨p, false⟩, placed_late he ht (fun q d hd htd hne =>
    contentsAt_of_none hdb hes hd (hothers q d hd htd hne)) hanswer happly⟩

/-- A lookup leaves the contents as they are. -/
theorem contentsAt_getNote {p : ℕ} {e : CallEvent} (he : es[p]? = some e) {noteID : ℤ}
    {found : Except GoError Note}
    (hop : (⟨e.op, e.result⟩ : AnsweredCall) = ⟨.getNote noteID, found⟩) :
    contentsAt w₀ es (p + 1) = contentsAt w₀ es p := by
  apply contentsAt_of_not_write hdb hes he
  rw [(Sigma.mk.inj hop).1]
  rfl

/-- An update writes the submitted title and text. -/
theorem contentsAt_updateNote {p : ℕ} {e : CallEvent} (he : es[p]? = some e) {form : Form}
    {noteID : ℤ} {n : Note} {err : Option GoError} (hid : n.noteID = noteID)
    (hn : (n.title, n.text) = submitted form)
    (hop : (⟨e.op, e.result⟩ : AnsweredCall) = ⟨.updateNote n, err⟩) :
    contentsAt w₀ es (p + 1) =
      (contentsAt w₀ es p).modify noteID fun _ => submitted form := by
  rw [contentsAt_succ hdb hes he, (Sigma.mk.inj hop).1, contentsEffect, hid, hn]

/-- A save that found no row, or that was to write what the row holds. -/
theorem placed_save_of_same {form : Form} {noteID : ℤ} {found : Except GoError Note}
    (hperformed : performed t es = [⟨.getNote noteID, found⟩])
    (hsave : ∀ p, (contentsAt w₀ es p).lookup noteID = none ∧ found = .error .noRows ∨
      (∃ row : Entry, (contentsAt w₀ es p).lookup noteID = some (row.title, row.text) ∧
        found = .ok (noteOf noteID row)) →
      Job.answer env t (.saveNote form noteID) (contentsAt w₀ es p) = some (withoutDates a) ∧
        (contentsAt w₀ es p).modify noteID (fun _ => submitted form) = contentsAt w₀ es p) :
    ∃ l, Placed env w₀ es t (.saveNote form noteID) a l := by
  obtain ⟨p, e, he, ht, hop, hothers⟩ := performed_single hperformed
  obtain ⟨hanswer, hmodify⟩ := hsave p (getNote_at hdb hes he hop)
  refine placed_single hdb hes he ht hothers hanswer ?_
  rw [contentsAt_getNote hdb hes he hop]
  exact hmodify

/-- A save that looked its note up and updated it. -/
theorem placed_saveDirty {form : Form} {noteID : ℤ} {n n' : Note} {err : Option GoError}
    (hid : n'.noteID = noteID) (hn : (n'.title, n'.text) = submitted form)
    (hperformed : performed t es = [⟨.getNote noteID, .ok n⟩, ⟨.updateNote n', err⟩]) :
    ∃ l, Placed env w₀ es t (.saveNote form noteID) (.redirect (notePath noteID)) l := by
  obtain ⟨p, q, e, d, hpq, he, ht, hop, hd, ht', hop', hothers⟩ :=
    performed_pair hperformed
  have hupdate := contentsAt_updateNote hdb hes hd hid hn hop'
  obtain ⟨_, herror⟩ | ⟨row, hrow, _⟩ := getNote_at hdb hes he hop
  · exact absurd herror (by simp)
  cases hlast : (contentsAt w₀ es q).lookup noteID with
  | some y =>
    -- the row is there when the update runs: the save is its update
    refine ⟨⟨q, false⟩, placed_late hd ht' ?_ ?_ hupdate.symm⟩
    · intro r b hb htb hne
      by_cases hrp : r = p
      · rw [hrp]
        exact contentsAt_getNote hdb hes he hop
      · exact contentsAt_of_none hdb hes hb (hothers r b hb htb hrp hne)
    · rw [Job.answer, hlast]
      rfl
  | none =>
    -- the row is gone: the save goes right before a removal that followed the lookup
    have hlen : q ≤ es.length := (List.getElem?_eq_some_iff.mp hd).1.le
    obtain ⟨r, y, b, hpr, hrq, hy, hb, hdelete⟩ :=
      exists_deleteNote hdb hes hpq.le hlen hrow hlast
    refine ⟨⟨r, true⟩, ⟨p, e, hpr, he, ht⟩, ⟨q, d, hrq.le, hd, ht'⟩, fun h => ?_, fun _ => ?_,
      fun k f hf htf _ => ?_⟩
    · exact absurd h.symm Bool.false_ne_true
    · exact ⟨form, noteID, rfl, rfl, ⟨y, hy⟩, b, hb, hdelete⟩
    · by_cases hkp : k = p
      · rw [hkp]
        exact contentsAt_getNote hdb hes he hop
      · by_cases hkq : k = q
        · rw [hkq, hupdate]
          exact RowTable.modify_of_lookup_none _ _ hlast
        · exact contentsAt_of_none hdb hes hf (hothers k f hf htf hkp hkq)

/-- **Every request that has returned has a place.** -/
theorem exists_placed (hperforms : Performs env t job (performed t es) a) :
    ∃ l, Placed env w₀ es t job a l := by
  generalize hcalls : performed t es = calls at hperforms
  cases hperforms with
  | newNote form n hn =>
    obtain ⟨p, e, he, ht, hop, hothers⟩ := performed_single hcalls
    refine placed_single hdb hes he ht hothers rfl ?_
    rw [contentsAt_succ hdb hes he, (Sigma.mk.inj hop).1, contentsEffect, hn]
    rfl
  | deleteNote form noteID =>
    obtain ⟨p, e, he, ht, hop, hothers⟩ := performed_single hcalls
    refine placed_single hdb hes he ht hothers rfl ?_
    rw [contentsAt_succ hdb hes he, (Sigma.mk.inj hop).1]
    rfl
  | detailsMissing noteID err =>
    obtain ⟨p, e, he, ht, hop, hothers⟩ := performed_single hcalls
    refine placed_single hdb hes he ht hothers ?_ (contentsAt_getNote hdb hes he hop).symm
    obtain ⟨hnone, herr⟩ | ⟨row, _, hfound⟩ := getNote_at hdb hes he hop
    · rw [Job.answer, hnone, Except.error.inj herr]
      rfl
    · exact absurd hfound (by simp)
  | details noteID n h hh =>
    obtain ⟨p, e, he, ht, hop, hothers⟩ := performed_single hcalls
    refine placed_single hdb hes he ht hothers ?_ (contentsAt_getNote hdb hes he hop).symm
    obtain ⟨_, hfound⟩ | ⟨row, hrow, hfound⟩ := getNote_at hdb hes he hop
    · exact absurd hfound (by simp)
    · rw [Except.ok.inj hfound, noteToHtmlNote_noteOf] at hh
      obtain ⟨text, htext, rfl⟩ := Option.map_eq_some_iff.mp hh
      rw [Job.answer, hrow]
      show detailsAnswer env t noteID (row.title, row.text) = _
      rw [detailsAnswer, htext]
      cases env.writeErr t <;> rfl
  | saveMissing form noteID err =>
    refine placed_save_of_same hdb hes hcalls fun p hfound => ?_
    obtain ⟨hnone, herr⟩ | ⟨row, _, herr⟩ := hfound
    · rw [Job.answer, hnone, Except.error.inj herr]
      exact ⟨rfl, RowTable.modify_of_lookup_none _ _ hnone⟩
    · exact absurd herr (by simp)
  | saveClean form noteID n hn =>
    refine placed_save_of_same hdb hes hcalls fun p hfound => ?_
    obtain ⟨_, herr⟩ | ⟨row, hrow, hok⟩ := hfound
    · exact absurd herr (by simp)
    · rw [Except.ok.inj hok] at hn
      change (row.title, row.text) = submitted form at hn
      rw [Job.answer, hrow]
      exact ⟨rfl, RowTable.modify_of_fixed _ _ hrow hn.symm⟩
  | saveDirty form noteID n n' hid hn => exact placed_saveDirty hdb hes hid hn hcalls

end Place

/-! ### One moment of the order -/

section Moment

variable {env : Env} {answers : Job × ℕ → Option Response}

/-- Saves of a note that is there; removing it afterwards leaves nothing of them. -/
theorem replays_saves {noteID : ℤ} {is : List (Job × ℕ)}
    (his : ∀ i ∈ is, (∃ form, i.1 = .saveNote form noteID) ∧
      answers i = some (.redirect (notePath noteID)))
    {m : Contents} {y : Bytes × Bytes} (hy : m.lookup noteID = some y) :
    ∃ m', Replays (notesObject env) answers is m m' ∧ m'.erase noteID = m.erase noteID := by
  induction is generalizing m y with
  | nil => exact ⟨m, .nil m, rfl⟩
  | cons i is ih =>
    obtain ⟨⟨form, hjob⟩, hanswer⟩ := his i List.mem_cons_self
    have happly : (notesObject env).apply i m = m.modify noteID fun _ => submitted form := by
      show i.1.apply m = _
      rw [hjob]
      rfl
    have hthere : (m.modify noteID fun _ => submitted form).lookup noteID =
        some (submitted form) := by
      rw [RowTable.lookup_modify, if_pos rfl, hy]
      rfl
    obtain ⟨m', hreplays, herase⟩ := ih (fun j hj => his j (List.mem_cons_of_mem i hj)) hthere
    refine ⟨m', .cons ?_ ?_, herase.trans (RowTable.erase_modify m noteID _)⟩
    · show i.1.answer env i.2 m = answers i
      rw [hjob, Job.answer, hy, hanswer]
    · rw [happly]
      exact hreplays

variable (hdb : env.DatabaseSucceeds) {w₀ : World} {es : Trace} (hes : AnsweredFrom env w₀ es)
  {is : List (Job × ℕ)} {place : Job × ℕ → Place} {answer : Job × ℕ → Response}
  (hplaced : ∀ i ∈ is, Placed env w₀ es i.2 i.1 (answer i) (place i))

include hdb hes hplaced

/-- **The requests placed at one moment** do what the call made there does. -/
theorem replays_block (his : is.Nodup) {p : ℕ} {e : CallEvent} (he : es[p]? = some e)
    {own : Job × ℕ} (hown : own ∈ is) (hthread : own.2 = e.thread)
    (hunique : ∀ i ∈ is, i.2 = e.thread → i = own)
    (hdelete : ∀ noteID, e.op = .deleteNote noteID → ∃ form, own.1 = .deleteNote form noteID) :
    Replays (notesObject env) (fun i => some (withoutDates (answer i))) (block is place p)
      (contentsAt w₀ es p) (contentsAt w₀ es (p + 1)) := by
  have hlate : ∀ i ∈ is, place i = ⟨p, false⟩ → i = own := by
    intro i hi hpl
    obtain ⟨⟨e', he', hthread'⟩, _⟩ := (hplaced i hi).late (by rw [hpl])
    rw [hpl, he, Option.some.injEq] at he'
    exact hunique i hi (by rw [he', hthread'])
  have hcall : place own ≠ ⟨p, false⟩ → contentsAt w₀ es (p + 1) = contentsAt w₀ es p :=
    (hplaced own hown).only p e he hthread.symm
  rw [block]
  cases hearly : is.filter fun i => place i = ⟨p, true⟩ with
  | nil =>
    rw [List.nil_append]
    by_cases hpl : place own = ⟨p, false⟩
    · rw [filter_eq_singleton his hown hpl hlate]
      obtain ⟨_, hanswer, happly⟩ := (hplaced own hown).late (by rw [hpl])
      rw [hpl] at hanswer happly
      exact .single hanswer happly
    · have hnone : (is.filter fun i => place i = ⟨p, false⟩) = [] := filter_eq_nil hpl hlate
      rw [hnone, hcall hpl]
      exact .nil _
  | cons first others =>
    have hfirst : first ∈ is ∧ place first = ⟨p, true⟩ := by
      have hmem : first ∈ is.filter fun i => place i = ⟨p, true⟩ := by
        rw [hearly]
        exact List.mem_cons_self
      rw [List.mem_filter, decide_eq_true_iff] at hmem
      exact hmem
    obtain ⟨form, noteID, _, _, ⟨y, hy⟩, e', he', hop⟩ :=
      (hplaced first hfirst.1).early (by rw [hfirst.2])
    rw [hfirst.2] at hy he'
    change es[p]? = some e' at he'
    change (contentsAt w₀ es p).lookup noteID = some y at hy
    rw [he, Option.some.injEq] at he'
    subst he'
    -- all of them save the note that the call removes
    have hsaves : ∀ i ∈ first :: others, (∃ form, i.1 = .saveNote form noteID) ∧
        some (withoutDates (answer i)) = some (.redirect (notePath noteID)) := by
      intro i hi
      rw [← hearly, List.mem_filter, decide_eq_true_iff] at hi
      obtain ⟨form', noteID', hjob, hanswer, _, e'', he'', hop'⟩ :=
        (hplaced i hi.1).early (by rw [hi.2])
      rw [hi.2] at he''
      change es[p]? = some e'' at he''
      rw [he, Option.some.injEq] at he''
      subst he''
      rw [hop, Call.deleteNote.injEq] at hop'
      subst hop'
      rw [hanswer]
      exact ⟨⟨form', hjob⟩, rfl⟩
    obtain ⟨m', hreplays, herase⟩ : ∃ m', Replays (notesObject env)
        (fun i => some (withoutDates (answer i))) (first :: others) (contentsAt w₀ es p) m' ∧
        m'.erase noteID = (contentsAt w₀ es p).erase noteID := replays_saves hsaves hy
    have hremoved : contentsAt w₀ es (p + 1) = (contentsAt w₀ es p).erase noteID := by
      rw [contentsAt_succ hdb hes he, hop]
      rfl
    have hpl : place own = ⟨p, false⟩ := by
      by_contra hne
      have hsame := hcall hne
      rw [hremoved] at hsame
      rw [← hsame, RowTable.lookup_erase, if_pos rfl] at hy
      exact absurd hy (by simp)
    obtain ⟨formD, hjob⟩ := hdelete noteID hop
    obtain ⟨_, hanswer, _⟩ := (hplaced own hown).late (by rw [hpl])
    rw [filter_eq_singleton his hown hpl hlate]
    refine hreplays.append (.single ?_ ?_)
    · rw [← hanswer]
      show own.1.answer env own.2 m' = own.1.answer env own.2 _
      rw [hjob]
      rfl
    · show own.1.apply m' = _
      rw [hjob, hremoved, ← herase]
      rfl

end Moment

/-! ### Concurrent runs -/

/-- At some moment request `t` has made all its calls and request `u` none. -/
def Before (es : Trace) (t u : ℕ) : Prop :=
  ∃ p : ℕ, (∀ (q : ℕ) (e : CallEvent), es[q]? = some e → p ≤ q → e.thread ≠ t) ∧
    ∀ (q : ℕ) (e : CallEvent), es[q]? = some e → q < p → e.thread ≠ u

/-- The places of requests that did not overlap are in their order. -/
theorem moment_lt {env : Env} {w₀ : World} {es : Trace} {i j : Job × ℕ} {a b : Response}
    {l k : Place} (hi : Placed env w₀ es i.2 i.1 a l) (hj : Placed env w₀ es j.2 j.1 b k)
    (hbefore : Before es i.2 j.2) : l.moment < k.moment := by
  obtain ⟨p, hdone, hnone⟩ := hbefore
  obtain ⟨q, e, hlq, he, hthread⟩ := hi.ended
  obtain ⟨r, d, hrk, hd, hthread'⟩ := hj.started
  have hqp : q < p := by
    by_contra hge
    exact hdone q e he (by omega) hthread
  have hpr : p ≤ r := by
    by_contra hlt
    exact hnone r d hd (by omega) hthread'
  omega

/-- The run of the requests from `w₀` to `c` has a sequential order: the same
requests, in an order that keeps those that did not overlap, run one after another
from `w₀`, leave the same titles and texts under the same numbers, and each has the
same answer, dates apart. -/
def Linearizable (env : Env) (jobs : List Job) (w₀ : World) (es : Trace)
    (c : Pool Call Call.Result Response World) : Prop :=
  ∃ order : List (Job × ℕ), order.Perm jobs.zipIdx ∧
    (∀ i ∈ order, ∀ j ∈ order, Before es i.2 j.2 → [i, j].Sublist order) ∧
    ∃ served w, runAll (handle env) (order.map fun i => (i.2, i.1.body env)) w₀ =
        some (served, w) ∧
      contents w.notes = contents c.world.notes ∧
      List.Forall₂ (fun i o => o.thread = i.2 ∧ ∃ a, c.threads[i.2]? = some (.ret a) ∧
        withoutDates o.answer = withoutDates a) order served

/-- **Every request has a place**, once all of them have returned. -/
theorem exists_places {env : Env} (hdb : env.DatabaseSucceeds) {jobs : List Job} {w₀ : World}
    (hvalid : ∀ job ∈ jobs, job.TokenValid w₀.sidManager) {ts : List ℕ} {es : Trace}
    {c : Pool Call Call.Result Response World}
    (hrun : (jobPool env jobs w₀).exec (handle env) ts = some (es, c))
    (hreturned : ∀ p ∈ c.threads, ∃ a, p = .ret a) :
    ∃ (answer : Job × ℕ → Response) (place : Job × ℕ → Place), ∀ i ∈ jobs.zipIdx,
      c.threads[i.2]? = some (.ret (answer i)) ∧
      Performs env i.2 i.1 (performed i.2 es) (answer i) ∧
      Placed env w₀ es i.2 i.1 (answer i) (place i) := by
  have hes : AnsweredFrom env w₀ es := (Pool.exec_states (handle env) hrun).2
  have hlength : c.threads.length = jobs.length := by
    rw [(Pool.exec_threads (handle env) hrun).1]
    exact List.length_map ..
  have hexists : ∀ i : Job × ℕ, ∃ (a : Response) (l : Place), i ∈ jobs.zipIdx →
      c.threads[i.2]? = some (.ret a) ∧ Performs env i.2 i.1 (performed i.2 es) a ∧
      Placed env w₀ es i.2 i.1 a l := by
    intro i
    by_cases hi : i ∈ jobs.zipIdx
    · have hjob := List.mem_zipIdx_iff_getElem?.mp hi
      have hlt : i.2 < c.threads.length := by
        rw [hlength]
        exact (List.getElem?_eq_some_iff.mp hjob).1
      obtain ⟨a, ha⟩ := hreturned _ (List.getElem_mem hlt)
      have hat : c.threads[i.2]? = some (.ret a) := by rw [List.getElem?_eq_getElem hlt, ha]
      have hcalls := jobPool_performs hdb hvalid hrun hjob hat
      obtain ⟨l, hl⟩ := exists_placed hdb hes hcalls
      exact ⟨a, l, fun _ => ⟨hat, hcalls, hl⟩⟩
    · exact ⟨.notFound, ⟨0, false⟩, fun h => absurd h hi⟩
  choose answer place hall using hexists
  exact ⟨answer, place, hall⟩

/-- **Requests on notes are linearizable**: requests with valid tokens that run
concurrently, call by call in any order, until all have returned, with a database
that does not fail. -/
theorem requests_linearizable {env : Env} (hdb : env.DatabaseSucceeds) {jobs : List Job}
    {w₀ : World} (hvalid : ∀ job ∈ jobs, job.TokenValid w₀.sidManager) {ts : List ℕ} {es : Trace}
    {c : Pool Call Call.Result Response World}
    (hrun : (jobPool env jobs w₀).exec (handle env) ts = some (es, c))
    (hreturned : ∀ p ∈ c.threads, ∃ a, p = .ret a) : Linearizable env jobs w₀ es c := by
  obtain ⟨hworld, hes⟩ := Pool.exec_states (handle env) hrun
  obtain ⟨answer, place, hall⟩ := exists_places hdb hvalid hrun hreturned
  have hplaced : ∀ i ∈ jobs.zipIdx, Placed env w₀ es i.2 i.1 (answer i) (place i) :=
    fun i hi => (hall i hi).2.2
  have hnodup : jobs.zipIdx.Nodup := by
    apply List.Nodup.of_map Prod.snd
    rw [List.zipIdx_map_snd]
    exact List.nodup_range' ..
  have hmoments : ∀ i ∈ jobs.zipIdx, (place i).moment < es.length := by
    intro i hi
    obtain ⟨p, e, hle, he, _⟩ := (hplaced i hi).ended
    exact lt_of_le_of_lt hle (List.getElem?_eq_some_iff.mp he).1
  have hperm := order_perm hnodup hmoments
  -- every moment replays, and so does the order
  have hblocks : ∀ p < es.length, Replays (notesObject env)
      (fun i => some (withoutDates (answer i))) (block jobs.zipIdx place p) (contentsAt w₀ es p)
      (contentsAt w₀ es (p + 1)) := by
    intro p hp
    have he : es[p]? = some es[p] := List.getElem?_eq_getElem hp
    have hlt : es[p].thread < jobs.length := by
      have hthread := (Pool.exec_threads (handle env) hrun).2 es[p] (List.getElem_mem hp)
      rw [jobPool, List.length_map] at hthread
      exact hthread
    have hown : (jobs[es[p].thread], es[p].thread) ∈ jobs.zipIdx :=
      List.mem_zipIdx_iff_getElem?.mpr (List.getElem?_eq_getElem hlt)
    refine replays_block hdb hes hplaced hnodup he hown rfl ?_ ?_
    · intro i hi hthread
      rw [List.mem_zipIdx_iff_getElem?, hthread, List.getElem?_eq_getElem hlt,
        Option.some.injEq] at hi
      exact Prod.ext hi.symm hthread
    · intro noteID hop
      have hmem := mem_performed (List.getElem_mem hp)
        (databaseCall_of_isWrite (by rw [hop]; rfl) es[p].result)
      exact (hall _ hown).2.1.deleteNote_of_mem hmem hop
  have hreplays := Replays.flatMap_range hblocks
  obtain ⟨served, w, hserved, hcontents, hanswers⟩ := runAll_of_replays hdb hreplays
    (fun _ _ => by simp) rfl fun i hi =>
      hvalid i.1 (List.mem_of_getElem? (List.mem_zipIdx_iff_getElem?.mp (hperm.mem_iff.mp hi)))
  refine ⟨order jobs.zipIdx place es.length, hperm, ?_, served, w, hserved, ?_, ?_⟩
  · intro i hi j hj hbefore
    have hi' := hperm.mem_iff.mp hi
    have hj' := hperm.mem_iff.mp hj
    exact order_sublist hi' hj' (moment_lt (hplaced i hi') (hplaced j hj') hbefore) (hmoments j hj')
  · rw [hcontents, hworld]
    rfl
  · have hmem : ∀ i ∈ order jobs.zipIdx place es.length,
        c.threads[i.2]? = some (.ret (answer i)) :=
      fun i hi => (hall i (hperm.mem_iff.mp hi)).1
    refine ((List.forall₂_and_left _ _).mpr ⟨hmem, hanswers⟩).imp ?_
    intro i o ⟨hat, hthread, hsame⟩
    exact ⟨hthread, answer i, hat, (Option.some.inj hsame).symm⟩

/-- A save of note 1, a request that removes it, and one that shows it. -/
def lostSave : List Job :=
  [.saveNote ((ascii "title", ascii "b") :: tokenForm (ascii "0") quietString) 1,
    .deleteNote (tokenForm (ascii "0") quietString) 1, .noteDetails 1]

/-- The save finds the note, and updates it when it has been removed. -/
theorem requests_linearizable_lostSave :
    ∃ served w es c, serveAll quiet pageAndNote (World.initial RowTable.empty) =
        some (served, w) ∧
      (jobPool quiet lostSave w).exec (handle quiet) [0, 0, 0, 1, 1, 0, 2] = some (es, c) ∧
      c.threads.map Program.returned = [some (.redirect (notePath 1)),
        some (.redirect (ascii "/")), some (internalServerError .noRows)] ∧
      Linearizable quiet lostSave w es c := by
  have hexec : ((serveAll quiet pageAndNote (World.initial RowTable.empty)).bind fun p =>
      ((jobPool quiet lostSave p.2).exec (handle quiet) [0, 0, 0, 1, 1, 0, 2]).map fun q =>
        (p.2.sidManager.synchronizedTokenIsValid ⟨0, quietString⟩,
          q.2.threads.map Program.returned)) =
      some (true, [some (.redirect (notePath 1)), some (.redirect (ascii "/")),
        some (internalServerError .noRows)]) := by
    decide
  obtain ⟨⟨served, w⟩, hserved, hpool⟩ := Option.bind_eq_some_iff.mp hexec
  obtain ⟨⟨es, c⟩, hrun, hall⟩ := Option.map_eq_some_iff.mp hpool
  rw [Prod.mk.injEq] at hall
  obtain ⟨htoken, hreturned⟩ := hall
  have hsave : submittedToken ((ascii "title", ascii "b") ::
      tokenForm (ascii "0") quietString) = .ok ⟨0, quietString⟩ := by decide
  have hdelete : submittedToken (tokenForm (ascii "0") quietString) = .ok ⟨0, quietString⟩ := by
    decide
  have hvalid : ∀ job ∈ lostSave, job.TokenValid w.sidManager := by
    intro job hjob
    simp only [lostSave, List.mem_cons, List.not_mem_nil, or_false] at hjob
    rcases hjob with rfl | rfl | rfl
    · exact ⟨_, hsave, htoken⟩
    · exact ⟨_, hdelete, htoken⟩
    · exact trivial
  refine ⟨served, w, es, c, hserved, hrun, hreturned,
    requests_linearizable quiet_succeeds hvalid hrun fun p hp => ?_⟩
  have hmem : p.returned ∈ c.threads.map Program.returned := List.mem_map_of_mem hp
  rw [hreturned] at hmem
  simp only [List.mem_cons, List.not_mem_nil, or_false] at hmem
  rcases hmem with h | h | h <;> exact ⟨_, eq_ret_of_returned h⟩

end ShareNotes.Linearizability
