import ShareNotes.DatabaseCalls
import ShareNotes.StoreRefinement

/-!
# Dates of notes under concurrent requests

A request reads the clock before it writes, and another request can read the
clock later and write earlier. What a row then holds as its date is what the last
write to it brought along. `InClockOrder` says of a run that two writes to one
row, with no removal of the row in between, take effect in the order of the
seconds that their requests had read last. This is exactly what it takes for no
change date to go back.

That a change date is not before the date of the note's creation takes less.
Saves may race as they like: only an update whose request read the clock before
the row was made can bring such a date, and `NoStaleUpdate` excludes just that.
-/

namespace ShareNotes.ConcurrentDates

open ShareNotes.Lib.Decimal ShareNotes.Lib.KeyedRows ShareNotes.Lib.Interaction
open ShareNotes.Lib.Monitors
open ShareNotes.NoteRecord ShareNotes.Manager ShareNotes.Calls ShareNotes.Handlers
open ShareNotes.Routing ShareNotes.Runs ShareNotes.HandlerRuns ShareNotes.SequentialNotes
open ShareNotes.DatabaseCalls ShareNotes.StoreRefinement
open Program

/-! ### The dates that a request writes -/

/-- Writes carry the clock readings of their request. The state is the seconds read. -/
def datesRead : Monitor Call Call.Result (List ℤ) where
  allows g c :=
    match c with
    | .addNote n => g = [unix n.addDate, unix n.changeDate]
    | .updateNote n => g.getLast? = some (unix n.changeDate)
    | _ => True
  expects _ _ := True
  next g c r := g ++ ((readBy c r).map unix).toList

/-- The state of the monitor is what the trace says was read. -/
theorem datesRead_after (g : List ℤ) (es : Trace) :
    datesRead.after g es = g ++ secondsRead es := by
  induction es generalizing g with
  | nil => exact (List.append_nil g).symm
  | cons e es ih =>
    rw [Monitor.after_cons, ih, secondsRead, secondsRead, List.filterMap_cons]
    show g ++ ((readBy e.op e.result).map unix).toList ++ _ = _
    cases readBy e.op e.result with
    | none => simp
    | some now => simp

abbrev DatesWrites (g : List ℤ) (p : Prog Response) : Prop :=
  Follows datesRead (fun _ _ => True) g p

/-- A call that reads no clock and writes no date. -/
theorem datesWrites_call {g : List ℤ} {c : Call} {k : c.Result → Prog Response}
    (hc : datesRead.allows g c) (hread : ∀ r, readBy c r = none)
    (hk : ∀ r, DatesWrites g (k r)) : DatesWrites g (.call c k) := by
  refine follows_ignored ⟨hc, fun r => ?_⟩ fun r _ => hk r
  show g ++ ((readBy c r).map unix).toList = g
  rw [hread r]
  exact List.append_nil g

theorem datesWrites_now {g : List ℤ} {k : Time → Prog Response}
    (hk : ∀ now, DatesWrites (g ++ [unix now]) (k now)) : DatesWrites g (.call .now k) :=
  ⟨trivial, fun now _ => hk now⟩

theorem datesWrites_checkToken {g : List ℤ} {form : Form} {invalid : Bytes}
    {rest : Prog Response} (hrest : DatesWrites g rest) :
    DatesWrites g (checkToken form invalid rest) := by
  rw [checkToken]
  cases submittedToken form with
  | error err => exact trivial
  | ok token =>
    refine datesWrites_call trivial (fun _ => rfl) fun valid => ?_
    cases valid with
    | true => exact hrest
    | false => exact trivial

theorem datesWrites_afterWrite (g : List ℤ) (url : Bytes) (err : Option GoError) :
    DatesWrites g (afterWrite url err) := by
  cases err <;> exact trivial

/-- The end of a save whose note, if it was set, carries the last reading. -/
theorem datesWrites_saveIfDirty {g : List ℤ} {noteID : ℤ} {saved : Bool × Note}
    (hsaved : saved.1 = true → g.getLast? = some (unix saved.2.changeDate)) :
    DatesWrites g (saveIfDirty noteID saved) := by
  obtain ⟨dirtyBit, n⟩ := saved
  cases dirtyBit with
  | true =>
    exact datesWrites_call (hsaved rfl) (fun _ => rfl) fun err => datesWrites_afterWrite g _ err
  | false => exact trivial

theorem datesWrites_saveText {g : List ℤ} {noteID : ℤ} (text : Bytes) {titled : Bool × Note}
    (htitled : titled.1 = true → g.getLast? = some (unix titled.2.changeDate)) :
    DatesWrites g (saveText text titled >>= saveIfDirty noteID) := by
  rw [saveText]
  split
  · exact datesWrites_now fun now => datesWrites_saveIfDirty fun _ => List.getLast?_concat ..
  · exact datesWrites_saveIfDirty htitled

theorem datesWrites_saveFound (noteID : ℤ) (n : Note) (title text : Bytes) :
    DatesWrites [] (saveFound noteID n title text) := by
  rw [saveFound, saveTitle]
  split
  · exact datesWrites_now fun now => datesWrites_saveText text fun _ => List.getLast?_concat ..
  · exact datesWrites_saveText text fun hno => absurd hno Bool.false_ne_true

/-- **Every request writes the readings that it made.** -/
theorem job_datesWrites (env : Env) (job : Job) : DatesWrites [] (job.body env) := by
  cases job with
  | newNote form =>
    refine datesWrites_checkToken (datesWrites_now fun addDate => ?_)
    refine datesWrites_now fun changeDate => ?_
    exact datesWrites_call rfl (fun _ => rfl) fun err => datesWrites_afterWrite _ _ err
  | deleteNote form noteID =>
    refine datesWrites_checkToken ?_
    exact datesWrites_call trivial (fun _ => rfl) fun err => datesWrites_afterWrite _ _ err
  | saveNote form noteID =>
    refine datesWrites_call trivial (fun _ => rfl) fun found => ?_
    cases found with
    | error err => exact trivial
    | ok n => exact datesWrites_checkToken (datesWrites_saveFound noteID n _ _)
  | noteDetails noteID =>
    refine datesWrites_call trivial (fun _ => rfl) fun found => ?_
    cases found with
    | error err => exact trivial
    | ok n =>
      refine details_follows ⟨trivial, fun r => r.elim⟩ fun h _ => ?_
      refine datesWrites_call trivial (fun _ => rfl) fun err => ?_
      cases err <;> exact trivial

/-! ### Writes in a run -/

/-- The seconds that request `t` has read before call `p`. -/
def readBefore (es : Trace) (p t : ℕ) : List ℤ := secondsRead (ofThread t (es.take p))

/-- The second that was read last by the request that makes call `p`. -/
def lastSecond (es : Trace) (p : ℕ) : Option ℤ :=
  (es[p]?).bind fun e => (readBefore es p e.thread).getLast?

/-- The row that a call writes in a table. -/
def rowWritten : Call → NotesTable → Option ℤ
  | .addNote _, notes => some notes.nextKey
  | .updateNote n, notes => (notes.lookup n.noteID).map fun _ => n.noteID
  | _, _ => none

/-- Call `p` writes row `k`. -/
def WritesRow (es : Trace) (p : ℕ) (k : ℤ) : Prop :=
  ∃ e : CallEvent, es[p]? = some e ∧ rowWritten e.op e.before.notes = some k

/-- Row `k` is not removed between the calls `q` and `p`. -/
def KeptBetween (es : Trace) (k : ℤ) (q p : ℕ) : Prop :=
  ∀ (r : ℕ) (e : CallEvent), q < r → r < p → es[r]? = some e → e.op ≠ .deleteNote k

/-- **Writes to one row are in the order of the clock**: of two writes to a row
that is not removed in between, the second was made by a request whose last
reading, in seconds, is not smaller. -/
def InClockOrder (es : Trace) : Prop :=
  ∀ (q p : ℕ) (k s u : ℤ), q < p → WritesRow es q k → WritesRow es p k → KeptBetween es k q p →
    lastSecond es q = some s → lastSecond es p = some u → s ≤ u

/-- Call `q` makes row `k`. -/
def AddsRow (es : Trace) (q : ℕ) (k : ℤ) : Prop :=
  ∃ (e : CallEvent) (n : Note), es[q]? = some e ∧ e.op = .addNote n ∧ e.before.notes.nextKey = k

/-- Call `p` is an update that finds row `k`. -/
def UpdatesRow (es : Trace) (p : ℕ) (k : ℤ) : Prop :=
  ∃ (e : CallEvent) (n : Note), es[p]? = some e ∧ e.op = .updateNote n ∧ n.noteID = k ∧
    (e.before.notes.lookup k).isSome

/-- The request that makes call `p` reads the clock between the calls `q` and `p`. -/
def ReadsSince (es : Trace) (q p : ℕ) : Prop :=
  ∃ (r : ℕ) (b e : CallEvent), q < r ∧ r < p ∧ es[r]? = some b ∧ es[p]? = some e ∧
    b.op = .now ∧ b.thread = e.thread

/-- **No update is older than its row**: no `UpdateNote` finds a row that an
`AddNote` made after the last clock reading of the updating request. -/
def NoStaleUpdate (es : Trace) : Prop :=
  ∀ (q p : ℕ) (k : ℤ), q < p → AddsRow es q k → UpdatesRow es p k → ReadsSince es q p

/-- No call of the run makes the change date of a row that is there smaller. -/
def NoDateGoesBack (w₀ : World) (es : Trace) : Prop :=
  ∀ p < es.length, ∀ (k : ℤ) (row row' : Entry),
    (stateAt w₀ es p).notes.lookup k = some row →
    (stateAt w₀ es (p + 1)).notes.lookup k = some row' → row.changeDate ≤ row'.changeDate

/-- **What a call leaves in a row**: what was there, a new note, or a changed one. -/
theorem lookup_effect {c : Call} {notes : NotesTable} {k : ℤ} {row : Entry}
    (h : (effect c notes).lookup k = some row) :
    (notes.lookup k = some row ∧ c ≠ .deleteNote k) ∨
      (∃ n, c = .addNote n ∧ k = notes.nextKey ∧
        row = ⟨n.title, n.text, unix n.addDate, unix n.changeDate⟩) ∨
      ∃ n old, c = .updateNote n ∧ n.noteID = k ∧ notes.lookup k = some old ∧
        row = { old with title := n.title, text := n.text, changeDate := unix n.changeDate } := by
  cases c with
  | addNote n =>
    rw [effect, RowTable.lookup_insert] at h
    split at h
    · rename_i hk
      exact Or.inr (Or.inl ⟨n, rfl, hk, (Option.some.inj h).symm⟩)
    · exact Or.inl ⟨h, by simp⟩
  | updateNote n =>
    rw [effect, RowTable.lookup_modify] at h
    split at h
    · rename_i hk
      obtain ⟨old, hold, hrow⟩ := Option.map_eq_some_iff.mp h
      exact Or.inr (Or.inr ⟨n, old, rfl, hk.symm, hold, hrow.symm⟩)
    · exact Or.inl ⟨h, by simp⟩
  | deleteNote j =>
    rw [effect, RowTable.lookup_erase] at h
    split at h
    · exact absurd h (by simp)
    · rename_i hk
      refine Or.inl ⟨h, fun hc => hk ?_⟩
      rw [Call.deleteNote.injEq] at hc
      exact hc.symm
  | _ => exact Or.inl ⟨h, by simp⟩

/-- A row stays there unless it is removed. -/
theorem lookup_effect_of_ne {c : Call} {notes : NotesTable} {k : ℤ} {row : Entry}
    (hrow : notes.lookup k = some row) (hc : c ≠ .deleteNote k) :
    ∃ row', (effect c notes).lookup k = some row' := by
  cases c with
  | addNote n =>
    rw [effect, RowTable.lookup_insert]
    split
    · exact ⟨_, rfl⟩
    · exact ⟨row, hrow⟩
  | updateNote n =>
    rw [effect, RowTable.lookup_modify, hrow]
    split <;> exact ⟨_, rfl⟩
  | deleteNote j =>
    have hj : k ≠ j := fun h => hc (by rw [h])
    rw [effect, RowTable.lookup_erase, if_neg hj]
    exact ⟨row, hrow⟩
  | _ => exact ⟨row, hrow⟩

theorem readBefore_subset (es : Trace) (p t : ℕ) :
    (readBefore es p t).Sublist (secondsRead (es.take p)) :=
  List.filter_sublist.filterMap _

section Run

variable {env : Env} {w₀ : World} {es : Trace} (hes : AnsweredFrom env w₀ es)

include hes

theorem inOrder_take (hclock : Monotone env.clock) {p : ℕ} (hp : p ≤ es.length) :
    InOrder env (unix (env.clock w₀.calls)) (es.take p) (stateAt w₀ es p) := by
  induction p with
  | zero => exact ⟨List.Pairwise.nil, le_rfl, fun s hs => absurd hs List.not_mem_nil⟩
  | succ p ih =>
    have he : es[p]? = some es[p] := List.getElem?_eq_getElem hp
    obtain ⟨hbefore, hans⟩ := hes p es[p] he
    have hprev := ih (by omega)
    rw [← hbefore] at hprev
    rw [List.take_add_one, he, stateAt_succ w₀ he]
    exact inOrder_step hclock es[p].thread (es.take p) es[p].before es[p].op es[p].result
      es[p].after hprev hans

/-- The readings of one request are in order, and not from before the run. -/
theorem readBefore_inOrder (hclock : Monotone env.clock) {p : ℕ} (hp : p ≤ es.length) (t : ℕ) :
    (readBefore es p t).Pairwise (· ≤ ·) ∧
      ∀ s ∈ readBefore es p t, unix (env.clock w₀.calls) ≤ s := by
  obtain ⟨hsorted, _, hall⟩ := inOrder_take hes hclock hp
  have hsub := readBefore_subset es p t
  exact ⟨hsorted.sublist hsub, fun s hs => (hall s (hsub.mem hs)).1⟩

/-- What a request reads after call `q` is not before what was read up to then. -/
theorem readsSince_le (hclock : Monotone env.clock) {q p : ℕ} (hp : p < es.length)
    (hsince : ReadsSince es q p) {d u : ℤ}
    (hd : d ∈ secondsRead (es.take q)) (hu : (readBefore es p es[p].thread).getLast? = some u) :
    d ≤ u := by
  obtain ⟨r, ⟨t, c, w, now, w'⟩, e, hqr, hrp, hb, he, hop, ht⟩ := hsince
  rw [List.getElem?_eq_getElem hp, Option.some.injEq] at he
  change c = .now at hop
  subst hop he
  -- the calls before `p` are those up to `q`, and others, of which one is the reading
  have hsplit : es.take p = es.take q ++ (es.take p).drop q := by
    conv_lhs => rw [← List.take_append_drop q (es.take p)]
    rw [List.take_take, min_eq_left (by omega)]
  have hmem : (⟨t, .now, w, now, w'⟩ : CallEvent) ∈ es.take p := by
    rw [List.mem_take_iff_getElem]
    obtain ⟨hr, hget⟩ := List.getElem?_eq_some_iff.mp hb
    exact ⟨r, by omega, hget⟩
  have hafter : unix now ∈ secondsRead ((es.take p).drop q) := by
    refine List.mem_filterMap.mpr ⟨⟨t, .now, w, now, w'⟩, ?_, rfl⟩
    rw [List.mem_iff_getElem?]
    refine ⟨r - q, ?_⟩
    rw [List.getElem?_drop, show q + (r - q) = r by omega, List.getElem?_take_of_lt hrp]
    exact hb
  have hown : unix now ∈ readBefore es p es[p].thread := by
    refine List.mem_filterMap.mpr ⟨⟨t, .now, w, now, w'⟩, ?_, rfl⟩
    exact List.mem_filter.mpr ⟨hmem, beq_iff_eq.mpr ht⟩
  obtain ⟨hall, _, _⟩ := inOrder_take hes hclock hp.le
  rw [hsplit, secondsRead_append] at hall
  have hle : d ≤ unix now := (List.pairwise_append.mp hall).2.2 d hd _ hafter
  obtain ⟨hsorted, _⟩ := readBefore_inOrder hes hclock hp.le es[p].thread
  rw [List.getLast?_eq_some_getLast (List.ne_nil_of_mem hown), Option.some.injEq] at hu
  rw [← hu]
  exact le_trans hle (hsorted.rel_getLast hown)

variable (hdb : env.DatabaseSucceeds)

include hdb

theorem notes_succ {p : ℕ} {e : CallEvent} (he : es[p]? = some e) :
    (stateAt w₀ es (p + 1)).notes = effect e.op (stateAt w₀ es p).notes := by
  obtain ⟨hbefore, hans⟩ := hes p e he
  rw [stateAt_succ w₀ he, handle_effect hdb hans, hbefore]

variable (hdates : ∀ (p : ℕ) (e : CallEvent), es[p]? = some e →
  datesRead.allows (readBefore es p e.thread) e.op)

include hdates

/-- **A write leaves the second that its request read last.** -/
theorem writesRow_succ {p : ℕ} {k u : ℤ} (hwrites : WritesRow es p k)
    (hu : lastSecond es p = some u) :
    ∃ row, (stateAt w₀ es (p + 1)).notes.lookup k = some row ∧ row.changeDate = u := by
  obtain ⟨⟨t, c, w, r, w'⟩, he, hrow⟩ := hwrites
  obtain ⟨hbefore, _⟩ := hes p _ he
  have hallows := hdates p _ he
  rw [lastSecond, he] at hu
  change (readBefore es p t).getLast? = some u at hu
  change w = stateAt w₀ es p at hbefore
  change rowWritten c w.notes = some k at hrow
  rw [notes_succ hes hdb he, ← hbefore]
  cases c with
  | addNote n =>
    change readBefore es p t = [unix n.addDate, unix n.changeDate] at hallows
    rw [hallows] at hu
    refine ⟨⟨n.title, n.text, unix n.addDate, unix n.changeDate⟩, ?_, Option.some.inj hu⟩
    rw [effect, RowTable.lookup_insert, if_pos (Option.some.inj hrow).symm]
  | updateNote n =>
    change (readBefore es p t).getLast? = some (unix n.changeDate) at hallows
    rw [hallows] at hu
    obtain ⟨old, hold, hk⟩ := Option.map_eq_some_iff.mp hrow
    refine ⟨{ old with title := n.title, text := n.text, changeDate := unix n.changeDate }, ?_,
      Option.some.inj hu⟩
    rw [effect, RowTable.lookup_modify, if_pos hk.symm, ← hk, hold]
    rfl
  | _ => exact absurd hrow (by simp [rowWritten])

/-- A run without a date that goes back writes in the order of the clock. -/
theorem inClockOrder_of_noDateGoesBack (hback : NoDateGoesBack w₀ es) : InClockOrder es := by
  intro q p k s u hqp hq hp hkept hs hu
  have hlen : p < es.length := by
    obtain ⟨e, he, _⟩ := hp
    exact (List.getElem?_eq_some_iff.mp he).1
  -- from the first write on, the row is there and its date is at least the first one
  have hrow : ∃ row, (stateAt w₀ es p).notes.lookup k = some row ∧ s ≤ row.changeDate := by
    have hfrom : q + 1 ≤ p := hqp
    clear hp hu
    induction p, hfrom using Nat.le_induction with
    | base =>
      obtain ⟨row, hrow, hdate⟩ := writesRow_succ hes hdb hdates hq hs
      exact ⟨row, hrow, hdate.ge⟩
    | succ p hfrom ih =>
      obtain ⟨row, hrow, hle⟩ := ih hfrom (fun r e hqr hrp he => hkept r e hqr (by omega) he)
        (by omega)
      have he : es[p]? = some es[p] := List.getElem?_eq_getElem (by omega)
      have hne := hkept p es[p] (by omega) (Nat.lt_succ_self p) he
      obtain ⟨row', hrow'⟩ := lookup_effect_of_ne hrow hne
      rw [← notes_succ hes hdb he] at hrow'
      exact ⟨row', hrow', le_trans hle (hback p (by omega) k row row' hrow hrow')⟩
  obtain ⟨row, hrow, hle⟩ := hrow
  obtain ⟨row', hrow', hdate⟩ := writesRow_succ hes hdb hdates hp hu
  rw [← hdate]
  exact le_trans hle (hback p hlen k row row' hrow hrow')

end Run

/-! ### Where the date of a row comes from -/

/-- The date `d` of row `k` at moment `p` is from before the run, or is what the
last write to the row brought along. -/
def Source (es : Trace) (start : ℤ) (p : ℕ) (k d : ℤ) : Prop :=
  d ≤ start ∨ ∃ q < p, WritesRow es q k ∧ KeptBetween es k q p ∧ lastSecond es q = some d

theorem Source.succ {es : Trace} {start : ℤ} {p : ℕ} {k d : ℤ} (h : Source es start p k d)
    {e : CallEvent} (he : es[p]? = some e) (hne : e.op ≠ .deleteNote k) :
    Source es start (p + 1) k d := by
  rcases h with hstart | ⟨q, hqp, hwrites, hkept, hlast⟩
  · exact Or.inl hstart
  · refine Or.inr ⟨q, by omega, hwrites, fun r b hqr hrp hb => ?_, hlast⟩
    rcases Nat.lt_succ_iff_lt_or_eq.mp hrp with hlt | heq
    · exact hkept r b hqr hlt hb
    · rw [heq, he, Option.some.injEq] at hb
      rw [← hb]
      exact hne

theorem Source.written {es : Trace} {start : ℤ} {p : ℕ} {k d : ℤ} (hwrites : WritesRow es p k)
    (hlast : lastSecond es p = some d) : Source es start (p + 1) k d :=
  Or.inr ⟨p, Nat.lt_succ_self p, hwrites, fun r _ hpr hrp => by omega, hlast⟩

/-- A write in the order of the clock does not bring an earlier date. -/
theorem Source.le {es : Trace} (horder : InClockOrder es) {start : ℤ} {p : ℕ} {k d u : ℤ}
    (h : Source es start p k d) (hwrites : WritesRow es p k) (hlast : lastSecond es p = some u)
    (hstart : start ≤ u) : d ≤ u := by
  rcases h with hle | ⟨q, hqp, hwrites', hkept, hlast'⟩
  · exact le_trans hle hstart
  · exact horder q p k d u hqp hwrites' hwrites hkept hlast' hlast

/-- The change date of every row at a moment has its source. -/
def DatesTraced (w₀ : World) (es : Trace) (start : ℤ) (p : ℕ) : Prop :=
  ∀ (k : ℤ) (row : Entry), (stateAt w₀ es p).notes.lookup k = some row →
    Source es start p k row.changeDate

/-- The date `d` of row `k` at moment `p` is from before the run, or had been read
when the row was made. -/
def MadeWith (es : Trace) (start : ℤ) (p : ℕ) (k d : ℤ) : Prop :=
  d ≤ start ∨ ∃ q < p, AddsRow es q k ∧ d ∈ secondsRead (es.take q)

theorem MadeWith.succ {es : Trace} {start : ℤ} {p : ℕ} {k d : ℤ} (h : MadeWith es start p k d) :
    MadeWith es start (p + 1) k d :=
  h.imp_right fun ⟨q, hqp, hmade⟩ => ⟨q, Nat.lt_succ_of_lt hqp, hmade⟩

section Ordered

variable {env : Env} {w₀ : World} {es : Trace} (hes : AnsweredFrom env w₀ es)
  (hdates : ∀ (p : ℕ) (e : CallEvent), es[p]? = some e →
    datesRead.allows (readBefore es p e.thread) e.op)

include hes hdates

/-- A new row carries the two readings of its request. -/
theorem addNote_reads {p : ℕ} {e : CallEvent} (he : es[p]? = some e) {n : Note}
    (hop : e.op = .addNote n) :
    WritesRow es p (stateAt w₀ es p).notes.nextKey ∧
      AddsRow es p (stateAt w₀ es p).notes.nextKey ∧
      readBefore es p e.thread = [unix n.addDate, unix n.changeDate] ∧
      lastSecond es p = some (unix n.changeDate) := by
  obtain ⟨hbefore, _⟩ := hes p e he
  have hreads := hdates p e he
  rw [hop] at hreads
  change readBefore es p e.thread = [unix n.addDate, unix n.changeDate] at hreads
  refine ⟨⟨e, he, ?_⟩, ⟨e, n, he, hop, by rw [hbefore]⟩, hreads, ?_⟩
  · rw [hop, hbefore, rowWritten]
  · rw [lastSecond, he]
    show (readBefore es p e.thread).getLast? = _
    rw [hreads]
    rfl

/-- An update that finds its row brings what its request read last. -/
theorem updateNote_reads {p : ℕ} {e : CallEvent} (he : es[p]? = some e) {n : Note} {old : Entry}
    (hop : e.op = .updateNote n) (hold : (stateAt w₀ es p).notes.lookup n.noteID = some old) :
    WritesRow es p n.noteID ∧ UpdatesRow es p n.noteID ∧
      (readBefore es p e.thread).getLast? = some (unix n.changeDate) ∧
      lastSecond es p = some (unix n.changeDate) := by
  obtain ⟨hbefore, _⟩ := hes p e he
  have hreads := hdates p e he
  rw [hop] at hreads
  change (readBefore es p e.thread).getLast? = some (unix n.changeDate) at hreads
  refine ⟨⟨e, he, ?_⟩, ⟨e, n, he, hop, rfl, by rw [hbefore, hold]; rfl⟩, hreads, ?_⟩
  · rw [hop, hbefore, rowWritten, hold]
    rfl
  · rw [lastSecond, he]
    exact hreads

variable (hdb : env.DatabaseSucceeds)

include hdb

/-- **Where the date of a creation comes from**, in every run. -/
theorem madeWith_run (hinit : DatedBy (unix (env.clock w₀.calls)) (abs w₀.notes)) {p : ℕ}
    (hp : p ≤ es.length) (k : ℤ) (row : Entry)
    (hrow : (stateAt w₀ es p).notes.lookup k = some row) :
    MadeWith es (unix (env.clock w₀.calls)) p k row.addDate := by
  induction p generalizing row with
  | zero => exact Or.inl (le_trans (hinit k row hrow).1 (hinit k row hrow).2)
  | succ p ih =>
    have he : es[p]? = some es[p] := List.getElem?_eq_getElem hp
    rw [notes_succ hes hdb he] at hrow
    rcases lookup_effect hrow with ⟨hsame, _⟩ | ⟨n, hop, hk, hentry⟩ | ⟨n, old, _, _, hold, hentry⟩
    · exact (ih (by omega) row hsame).succ
    · obtain ⟨_, hadds, hreads, _⟩ := addNote_reads hes hdates he hop
      refine Or.inr ⟨p, Nat.lt_succ_self p, by rw [hk]; exact hadds, ?_⟩
      apply (readBefore_subset es p es[p].thread).mem
      rw [hreads, hentry]
      exact List.mem_cons_self
    · rw [hentry]
      exact (ih (by omega) old hold).succ

variable (hclock : Monotone env.clock)

include hclock

/-- **An update that is not older than its row** brings no date before its creation. -/
theorem addDate_le_of_noStaleUpdate (hstale : NoStaleUpdate es)
    (hinit : DatedBy (unix (env.clock w₀.calls)) (abs w₀.notes)) {p : ℕ} (hp : p < es.length)
    {n : Note} {old : Entry} (hop : es[p].op = .updateNote n)
    (hold : (stateAt w₀ es p).notes.lookup n.noteID = some old) :
    old.addDate ≤ unix n.changeDate := by
  have he : es[p]? = some es[p] := List.getElem?_eq_getElem hp
  obtain ⟨_, hupdates, hreads, _⟩ := updateNote_reads hes hdates he hop hold
  rcases madeWith_run hes hdates hdb hinit hp.le n.noteID old hold with hle | ⟨q, hqp, hadds, hd⟩
  · have hmem := List.mem_of_getLast? hreads
    exact le_trans hle ((readBefore_inOrder hes hclock hp.le es[p].thread).2 _ hmem)
  · exact readsSince_le hes hclock hp (hstale q p n.noteID hqp hadds hupdates) hd hreads

/-- **One call** of a run in the order of the clock keeps the change dates traced,
and makes none go back. -/
theorem datesTraced_succ (horder : InClockOrder es) {p : ℕ} (hp : p < es.length)
    (hI : DatesTraced w₀ es (unix (env.clock w₀.calls)) p) :
    DatesTraced w₀ es (unix (env.clock w₀.calls)) (p + 1) ∧
      ∀ (k : ℤ) (row row' : Entry), (stateAt w₀ es p).notes.lookup k = some row →
        (stateAt w₀ es (p + 1)).notes.lookup k = some row' → row.changeDate ≤ row'.changeDate := by
  have he : es[p]? = some es[p] := List.getElem?_eq_getElem hp
  have hnext := notes_succ hes hdb he
  obtain ⟨_, hstart⟩ := readBefore_inOrder hes hclock hp.le es[p].thread
  constructor
  · intro k row hrow
    rw [hnext] at hrow
    rcases lookup_effect hrow with ⟨hsame, hne⟩ | ⟨n, hop, hk, hentry⟩ |
      ⟨n, old, hop, hk, hold, hentry⟩
    · exact (hI k row hsame).succ he hne
    · obtain ⟨hwrites, _, _, hlast⟩ := addNote_reads hes hdates he hop
      rw [hentry, hk]
      exact Source.written hwrites hlast
    · rw [← hk] at hold ⊢
      obtain ⟨hwrites, _, _, hlast⟩ := updateNote_reads hes hdates he hop hold
      rw [hentry]
      exact Source.written hwrites hlast
  · intro k row row' hrow hrow'
    rw [hnext] at hrow'
    rcases lookup_effect hrow' with ⟨hsame, _⟩ | ⟨n, _, hk, _⟩ | ⟨n, old, hop, hk, hold, hentry⟩
    · rw [hrow, Option.some.injEq] at hsame
      rw [hsame]
    · rw [hk, RowTable.lookup_nextKey] at hrow
      exact absurd hrow (by simp)
    · rw [← hk] at hold hrow
      obtain ⟨hwrites, _, hreads, hlast⟩ := updateNote_reads hes hdates he hop hold
      rw [hrow, Option.some.injEq] at hold
      rw [hentry]
      exact (hI n.noteID row hrow).le horder hwrites hlast (hstart _ (List.mem_of_getLast? hreads))

/-- **A run in the order of the clock** keeps the change dates traced at every moment. -/
theorem datesTraced_run (horder : InClockOrder es)
    (hinit : DatedBy (unix (env.clock w₀.calls)) (abs w₀.notes)) {p : ℕ} (hp : p ≤ es.length) :
    DatesTraced w₀ es (unix (env.clock w₀.calls)) p := by
  induction p with
  | zero => exact fun k row hrow => Or.inl (hinit k row hrow).2
  | succ p ih =>
    exact (datesTraced_succ hes hdates hdb hclock horder hp (ih (by omega))).1

/-- **A run in the order of the clock** makes no change date go back. -/
theorem noDateGoesBack_of_inClockOrder (horder : InClockOrder es)
    (hinit : DatedBy (unix (env.clock w₀.calls)) (abs w₀.notes)) : NoDateGoesBack w₀ es :=
  fun _ hp => (datesTraced_succ hes hdates hdb hclock horder hp
    (datesTraced_run hes hdates hdb hclock horder hinit hp.le)).2

/-- **The two dates of every row are in order** in a run none of whose updates
brings a date before the creation of its row. -/
theorem dates_ordered_run (hinit : DatedBy (unix (env.clock w₀.calls)) (abs w₀.notes))
    (hupdates : ∀ (p : ℕ) (hp : p < es.length) (n : Note) (old : Entry),
      es[p].op = .updateNote n → (stateAt w₀ es p).notes.lookup n.noteID = some old →
      old.addDate ≤ old.changeDate → old.addDate ≤ unix n.changeDate) {p : ℕ}
    (hp : p ≤ es.length) (k : ℤ) (row : Entry)
    (hrow : (stateAt w₀ es p).notes.lookup k = some row) : row.addDate ≤ row.changeDate := by
  induction p generalizing k row with
  | zero => exact (hinit k row hrow).1
  | succ p ih =>
    have he : es[p]? = some es[p] := List.getElem?_eq_getElem hp
    rw [notes_succ hes hdb he] at hrow
    rcases lookup_effect hrow with ⟨hsame, _⟩ | ⟨n, hop, _, hentry⟩ | ⟨n, old, hop, hk, hold, hentry⟩
    · exact ih (by omega) k row hsame
    · obtain ⟨_, _, hreads, _⟩ := addNote_reads hes hdates he hop
      obtain ⟨hsorted, _⟩ := readBefore_inOrder hes hclock (p := p) (by omega) es[p].thread
      rw [hreads] at hsorted
      rw [hentry]
      exact List.rel_of_pairwise_cons hsorted (List.mem_singleton.mpr rfl)
    · rw [← hk] at hold
      rw [hentry]
      exact hupdates p hp n old hop hold (ih (by omega) n.noteID old hold)

end Ordered

/-! ### Concurrent requests -/

theorem jobPool_dates {env : Env} {jobs : List Job} {w₀ : World} {ts : List ℕ} {es : Trace}
    {c : Pool Call Call.Result Response World}
    (hrun : (jobPool env jobs w₀).exec (handle env) ts = some (es, c)) (p : ℕ) (e : CallEvent)
    (he : es[p]? = some e) : datesRead.allows (readBefore es p e.thread) e.op := by
  have hwrites : ∀ (u : ℕ) (p : Prog Response), (jobPool env jobs w₀).threads[u]? = some p →
      DatesWrites [] p := by
    intro u p hp
    obtain ⟨job, _, rfl⟩ := jobPool_threads hp
    exact job_datesWrites env job
  have hfollows := Pool.exec_follows (g := fun _ => [])
    (fun t => Monitor.fits_of_expects (m := datesRead) (fun _ _ => trivial) (handle env) t)
    trivial hwrites hrun
  have hp : p < es.length := (List.getElem?_eq_some_iff.mp he).1
  have hsplit : es = es.take p ++ e :: es.drop (p + 1) := by
    have hcons := List.drop_eq_getElem_cons hp
    rw [List.getElem?_eq_getElem hp, Option.some.injEq] at he
    rw [he] at hcons
    rw [← hcons, List.take_append_drop]
  have hallows := (hfollows.2.2 (es.take p) e (es.drop (p + 1)) hsplit).2
  rw [datesRead_after, List.nil_append] at hallows
  exact hallows

/-- **Dates under concurrent requests.** No change date goes back exactly when the
writes to each row are in the order of the clock. No row ever has a change date
before its creation unless an update is older than the row that it finds. -/
theorem dates_in_order {env : Env} (hdb : env.DatabaseSucceeds) (hclock : Monotone env.clock)
    {jobs : List Job} {w₀ : World}
    (hinit : DatedBy (unix (env.clock w₀.calls)) (abs w₀.notes)) {ts : List ℕ} {es : Trace}
    {c : Pool Call Call.Result Response World}
    (hrun : (jobPool env jobs w₀).exec (handle env) ts = some (es, c)) :
    (NoDateGoesBack w₀ es ↔ InClockOrder es) ∧
      (NoStaleUpdate es ∨ InClockOrder es → ∀ p ≤ es.length, ∀ (k : ℤ) (row : Entry),
        (stateAt w₀ es p).notes.lookup k = some row → row.addDate ≤ row.changeDate) := by
  have hes : AnsweredFrom env w₀ es := (Pool.exec_states (handle env) hrun).2
  have hdates := jobPool_dates hrun
  have hback : InClockOrder es → NoDateGoesBack w₀ es := fun horder =>
    noDateGoesBack_of_inClockOrder hes hdates hdb hclock horder hinit
  refine ⟨⟨inClockOrder_of_noDateGoesBack hes hdb hdates, hback⟩, fun hcase p hp => ?_⟩
  refine dates_ordered_run hes hdates hdb hclock hinit (fun p hp n old hop hold hle => ?_) hp
  rcases hcase with hstale | horder
  · exact addDate_le_of_noStaleUpdate hes hdates hdb hclock hstale hinit hp hop hold
  · -- the update leaves the second that it brings, and the row's date does not go back
    have he : es[p]? = some es[p] := List.getElem?_eq_getElem hp
    obtain ⟨hwrites, _, _, hlast⟩ := updateNote_reads hes hdates he hop hold
    obtain ⟨row, hrow, hdate⟩ := writesRow_succ hes hdb hdates hwrites hlast
    rw [← hdate]
    exact le_trans hle (hback horder p hp n.noteID old row hold hrow)

/-! ### Runs with overlapping saves -/

inductive DateStep where
  | read
  | add
  | update
  | other
  deriving DecidableEq

def dateStep : Call → DateStep
  | .now => .read
  | .addNote _ => .add
  | .updateNote _ => .update
  | _ => .other

/-- The calls of a run as far as they bear on the dates: who made the call, what it
is, and which row it writes. -/
def dateSteps (es : Trace) : List (ℕ × DateStep × Option ℤ) :=
  es.map fun e => (e.thread, dateStep e.op, rowWritten e.op e.before.notes)

theorem dateSteps_get {es : Trace} {p : ℕ} {e : CallEvent} (he : es[p]? = some e) :
    (dateSteps es)[p]? = some (e.thread, dateStep e.op, rowWritten e.op e.before.notes) := by
  rw [dateSteps, List.getElem?_map, he]
  rfl

theorem dateSteps_of_writesRow {es : Trace} {p : ℕ} {k : ℤ} (h : WritesRow es p k) :
    ∃ t step, (dateSteps es)[p]? = some (t, step, some k) := by
  obtain ⟨e, he, hrow⟩ := h
  exact ⟨e.thread, dateStep e.op, by rw [dateSteps_get he, hrow]⟩

theorem dateSteps_of_addsRow {es : Trace} {q : ℕ} {k : ℤ} (h : AddsRow es q k) :
    ∃ t, (dateSteps es)[q]? = some (t, .add, some k) := by
  obtain ⟨e, n, he, hop, hk⟩ := h
  exact ⟨e.thread, by rw [dateSteps_get he, hop, rowWritten, hk]; rfl⟩

theorem dateSteps_of_updatesRow {es : Trace} {p : ℕ} {k : ℤ} (h : UpdatesRow es p k) :
    ∃ t, (dateSteps es)[p]? = some (t, .update, some k) := by
  obtain ⟨e, n, he, hop, hk, hrow⟩ := h
  obtain ⟨old, hold⟩ := Option.isSome_iff_exists.mp hrow
  exact ⟨e.thread, by rw [dateSteps_get he, hop, rowWritten, hk, hold]; rfl⟩

/-- A reading of the request that makes call `p`, as the steps show it. -/
theorem readsSince_of_dateSteps {es : Trace} {q r p t : ℕ} {row row' : Option ℤ} {step : DateStep}
    (hqr : q < r) (hrp : r < p) (hr : (dateSteps es)[r]? = some (t, .read, row))
    (hp : (dateSteps es)[p]? = some (t, step, row')) : ReadsSince es q p := by
  rw [dateSteps, List.getElem?_map] at hr hp
  obtain ⟨b, hb, hread⟩ := Option.map_eq_some_iff.mp hr
  obtain ⟨e, he, hstep⟩ := Option.map_eq_some_iff.mp hp
  rw [Prod.mk.injEq, Prod.mk.injEq] at hread hstep
  have hnow : b.op = .now := by
    cases hop : b.op <;> simp [hop, dateStep] at hread ⊢
  exact ⟨r, b, e, hqr, hrp, hb, he, hnow, hread.1.trans hstep.1.symm⟩

/-- The form of a save or a new note with a title and the token of `pageAndNote`. -/
def titleForm (title : Bytes) : Form :=
  (ascii "title", title) :: tokenForm (ascii "0") quietString

/-- A new note, and two saves of the note that it makes. -/
def noteAndSaves : List Job :=
  [.newNote (titleForm (ascii "b")), .saveNote (titleForm (ascii "c")) 2,
    .saveNote (titleForm (ascii "d")) 2]

/-- The second save looks the new note up before the first has updated it, and
reads the clock afterwards. -/
theorem dates_in_order_noteAndSaves :
    ∃ served w es c, serveAll quiet pageAndNote (World.initial RowTable.empty) =
        some (served, w) ∧
      (jobPool quiet noteAndSaves w).exec (handle quiet) [0, 0, 0, 0, 1, 1, 1, 2, 2, 1, 2, 2] =
        some (es, c) ∧
      dateSteps es = [(0, .other, none), (0, .read, none), (0, .read, none), (0, .add, some 2),
        (1, .other, none), (1, .other, none), (1, .read, none), (2, .other, none),
        (2, .other, none), (1, .update, some 2), (2, .read, none), (2, .update, some 2)] ∧
      c.world.notes.rows = [(1, ⟨ascii "a", [], 1500000005, 1500000006⟩),
        (2, ⟨ascii "d", [], 1500000009, 1500000018⟩)] ∧
      NoStaleUpdate es ∧ NoDateGoesBack w es ∧
      ∀ p ≤ es.length, ∀ (k : ℤ) (row : Entry),
        (stateAt w es p).notes.lookup k = some row → row.addDate ≤ row.changeDate := by
  have hexec : ((serveAll quiet pageAndNote (World.initial RowTable.empty)).bind fun p =>
      ((jobPool quiet noteAndSaves p.2).exec (handle quiet)
          [0, 0, 0, 0, 1, 1, 1, 2, 2, 1, 2, 2]).map fun q =>
        (dateSteps q.1, [lastSecond q.1 3, lastSecond q.1 9, lastSecond q.1 11])) =
      some ([(0, .other, none), (0, .read, none), (0, .read, none), (0, .add, some 2),
        (1, .other, none), (1, .other, none), (1, .read, none), (2, .other, none),
        (2, .other, none), (1, .update, some 2), (2, .read, none), (2, .update, some 2)],
        [some 1500000010, some 1500000014, some 1500000018]) := by
    decide
  have hstore : ((serveAll quiet pageAndNote (World.initial RowTable.empty)).bind fun p =>
      ((jobPool quiet noteAndSaves p.2).exec (handle quiet)
          [0, 0, 0, 0, 1, 1, 1, 2, 2, 1, 2, 2]).map fun q => q.2.world.notes.rows) =
      some [(1, ⟨ascii "a", [], 1500000005, 1500000006⟩),
        (2, ⟨ascii "d", [], 1500000009, 1500000018⟩)] := by
    decide
  have hdated : (serveAll quiet pageAndNote (World.initial RowTable.empty)).map (fun p =>
      p.2.notes.rows.all fun r => r.2.addDate ≤ r.2.changeDate ∧
        r.2.changeDate ≤ unix (quiet.clock p.2.calls)) = some true := by
    decide
  obtain ⟨⟨served, w⟩, hserved, hpool⟩ := Option.bind_eq_some_iff.mp hexec
  obtain ⟨⟨es, c⟩, hrun, hall⟩ := Option.map_eq_some_iff.mp hpool
  rw [hserved, Option.bind_some, hrun, Option.map_some, Option.some.injEq] at hstore
  rw [hserved, Option.map_some, Option.some.injEq] at hdated
  simp only [Prod.mk.injEq, List.cons.injEq, and_true] at hall
  obtain ⟨hsteps, hadd, hfirst, hsecond⟩ := hall
  -- call 3 adds the note, and the calls 9 and 11 update it
  have honly : ∀ (r t : ℕ) (step : DateStep) (k : ℤ),
      (dateSteps es)[r]? = some (t, step, some k) →
        (r = 3 ∧ step = .add) ∨ ((r = 9 ∨ r = 11) ∧ step = .update) := by
    rw [hsteps]
    intro r t step k hr
    have hlen : r < 12 := (List.getElem?_eq_some_iff.mp hr).1
    interval_cases r <;> simp_all
  have horder : InClockOrder es := by
    intro q p k s u hqp hq hp _ hs hu
    obtain ⟨_, _, hq'⟩ := dateSteps_of_writesRow hq
    obtain ⟨_, _, hp'⟩ := dateSteps_of_writesRow hp
    have hqs : q = 3 ∨ q = 9 ∨ q = 11 := by
      rcases honly _ _ _ _ hq' with h | h <;> omega
    have hps : p = 3 ∨ p = 9 ∨ p = 11 := by
      rcases honly _ _ _ _ hp' with h | h <;> omega
    rcases hqs with rfl | rfl | rfl <;> rcases hps with rfl | rfl | rfl <;>
      first | omega | simp_all
  have hstale : NoStaleUpdate es := by
    intro q p k hqp hq hp
    obtain ⟨_, hq'⟩ := dateSteps_of_addsRow hq
    obtain ⟨_, hp'⟩ := dateSteps_of_updatesRow hp
    obtain ⟨rfl, _⟩ | ⟨_, hno⟩ := honly _ _ _ _ hq'
    · obtain ⟨_, hno⟩ | ⟨rfl | rfl, _⟩ := honly _ _ _ _ hp'
      · exact absurd hno (by decide)
      · exact readsSince_of_dateSteps (r := 6) (t := 1) (by omega) (by omega) (by rw [hsteps]; rfl)
          (by rw [hsteps]; rfl)
      · exact readsSince_of_dateSteps (r := 10) (t := 2) (by omega) (by omega) (by rw [hsteps]; rfl)
          (by rw [hsteps]; rfl)
    · exact absurd hno (by decide)
  have hinit : DatedBy (unix (quiet.clock w.calls)) (abs w.notes) := by
    apply datedBy_abs
    intro r hr
    exact of_decide_eq_true (List.all_eq_true.mp hdated r hr)
  have hdates := dates_in_order quiet_succeeds quiet_clock_monotone hinit hrun
  exact ⟨served, w, es, c, hserved, hrun, hsteps, hstore, hstale, hdates.1.mpr horder,
    hdates.2 (Or.inl hstale)⟩

/-- Two saves of note 1. -/
def racingSaves : List Job :=
  [.saveNote (titleForm (ascii "b")) 1, .saveNote (titleForm (ascii "c")) 1]

/-- The first save reads the clock, the second reads it later and updates the note,
and the first then writes the earlier reading. -/
theorem racingSaves_dates :
    ∃ served w es c, serveAll quiet pageAndNote (World.initial RowTable.empty) =
        some (served, w) ∧
      (jobPool quiet racingSaves w).exec (handle quiet) [0, 0, 0, 1, 1, 1, 1, 0] = some (es, c) ∧
      c.world.notes.rows = [(1, ⟨ascii "b", [], 1500000005, 1500000010⟩)] ∧
      ¬NoDateGoesBack w es := by
  have hexec : ((serveAll quiet pageAndNote (World.initial RowTable.empty)).bind fun p =>
      ((jobPool quiet racingSaves p.2).exec (handle quiet) [0, 0, 0, 1, 1, 1, 1, 0]).map
        fun q => (q.1.length, (stateAt p.2 q.1 7).notes.lookup 1,
          (stateAt p.2 q.1 8).notes.lookup 1, q.2.world.notes.rows)) =
      some (8, some ⟨ascii "c", [], 1500000005, 1500000013⟩,
        some ⟨ascii "b", [], 1500000005, 1500000010⟩,
        [(1, ⟨ascii "b", [], 1500000005, 1500000010⟩)]) := by
    decide
  obtain ⟨⟨served, w⟩, hserved, hpool⟩ := Option.bind_eq_some_iff.mp hexec
  obtain ⟨⟨es, c⟩, hrun, hall⟩ := Option.map_eq_some_iff.mp hpool
  simp only [Prod.mk.injEq] at hall
  obtain ⟨hlen, hbefore, hafter, hrows⟩ := hall
  refine ⟨served, w, es, c, hserved, hrun, hrows, fun hback => ?_⟩
  exact absurd (hback 7 (by omega) 1 _ _ hbefore hafter) (by decide)

/-- A save of note 1, a request that removes it, and a new note. -/
def staleSave : List Job :=
  [.saveNote (titleForm (ascii "b")) 1, .deleteNote (tokenForm (ascii "0") quietString) 1,
    .newNote (titleForm (ascii "c"))]

-- A stale update: the save reads the clock, its note is removed, and the new note takes the
-- number over.
example : ((serveAll quiet pageAndNote (World.initial RowTable.empty)).bind fun p =>
    ((jobPool quiet staleSave p.2).exec (handle quiet) [0, 0, 0, 1, 1, 2, 2, 2, 2, 0]).map fun q =>
      q.2.world.notes.rows) = some [(1, ⟨ascii "b", [], 1500000014, 1500000010⟩)] := by
  decide

end ShareNotes.ConcurrentDates
