import ShareNotes.ListingErrors
import ShareNotes.UrlGrammar
import ShareNotes.SequentialNotes

/-!
# The filter pages

A filter page runs a query with `like` on a pattern of the form `%input%`. The
bytes that may stand in the path of a filter are letters, digits and blanks, none
of which is special in a pattern, so the query finds the notes that contain the
input, up to the case of ASCII letters.

A page is looked at as the list of the IDs in its table. It is the list of the
rows of the query, in their order, and every query orders its rows by their dates.
-/

namespace ShareNotes.FilterPages

open ShareNotes.Lib.Decimal ShareNotes.Lib.Interaction ShareNotes.Lib.Slices
open ShareNotes.Lib.KeyedRows ShareNotes.NoteRecord ShareNotes.Linkify ShareNotes.Manager
open ShareNotes.Calls ShareNotes.Handlers ShareNotes.Routing ShareNotes.Runs ShareNotes.UrlGrammar
open ShareNotes.ListingErrors ShareNotes.SequentialNotes
open Program

/-! ### Patterns without special bytes -/

/-- The text contains the input as a contiguous substring, up to the case of ASCII letters. -/
def Occurs (input text : Bytes) : Prop :=
  ∃ before found after, text = before ++ found ++ after ∧ found.map foldCase = input.map foldCase

theorem not_special_of_isFilterByte {b : UInt8} (hb : isFilterByte b = true) : b ≠ 37 ∧ b ≠ 95 := by
  constructor
  · intro h
    rw [h] at hb
    exact absurd hb (by decide)
  · intro h
    rw [h] at hb
    exact absurd hb (by decide)

/-- A pattern that starts with `%` matches where the rest of it matches somewhere. -/
theorem like_percent (pattern text : Bytes) :
    like (37 :: pattern) text = true ↔ ∃ before t, text = before ++ t ∧ like pattern t = true := by
  have hlike : like (37 :: pattern) text = text.tails.any fun t => like pattern t := rfl
  rw [hlike, List.any_eq_true]
  constructor
  · intro ⟨t, hmem, ht⟩
    obtain ⟨before, rfl⟩ := (List.mem_tails t text).mp hmem
    exact ⟨before, t, rfl, ht⟩
  · intro ⟨before, t, htext, ht⟩
    exact ⟨t, (List.mem_tails t text).mpr ⟨before, htext.symm⟩, ht⟩

theorem like_percent_nil (text : Bytes) : like [37] text = true :=
  (like_percent [] text).mpr ⟨text, [], (List.append_nil text).symm, rfl⟩

theorem like_nil {c : UInt8} (hpercent : c ≠ 37) (pattern : Bytes) :
    like (c :: pattern) [] = false :=
  if_neg hpercent

theorem like_byte {c : UInt8} (hpercent : c ≠ 37) (hunderscore : c ≠ 95) (pattern : Bytes)
    (b : UInt8) (text : Bytes) :
    like (c :: pattern) (b :: text) = (foldCase b == foldCase c && like pattern text) :=
  (if_neg hpercent).trans (if_neg hunderscore)

/-- Bytes that are not special match themselves. -/
theorem like_plain {input : Bytes} (hinput : ∀ b ∈ input, isFilterByte b = true)
    (pattern text : Bytes) :
    like (input ++ pattern) text = true ↔ ∃ found t, text = found ++ t ∧
      found.map foldCase = input.map foldCase ∧ like pattern t = true := by
  induction input generalizing text with
  | nil =>
    constructor
    · intro h
      exact ⟨[], text, rfl, rfl, h⟩
    · intro ⟨found, t, htext, hfound, ht⟩
      rw [List.map_nil, List.map_eq_nil_iff] at hfound
      rw [htext, hfound]
      exact ht
  | cons c input ih =>
    obtain ⟨hpercent, hunderscore⟩ := not_special_of_isFilterByte (hinput c List.mem_cons_self)
    replace ih := ih fun b hb => hinput b (List.mem_cons_of_mem c hb)
    rw [List.cons_append]
    cases text with
    | nil =>
      rw [like_nil hpercent]
      refine iff_of_false (by simp) fun ⟨found, t, htext, hfound, _⟩ => ?_
      rw [(List.append_eq_nil_iff.mp htext.symm).1] at hfound
      exact absurd hfound (by simp)
    | cons b text =>
      rw [like_byte hpercent hunderscore, Bool.and_eq_true, beq_iff_eq, ih]
      constructor
      · intro ⟨hb, found, t, htext, hfound, ht⟩
        refine ⟨b :: found, t, by rw [htext, List.cons_append], ?_, ht⟩
        rw [List.map_cons, List.map_cons, hb, hfound]
      · intro ⟨found, t, htext, hfound, ht⟩
        cases found with
        | nil => exact absurd hfound (by simp)
        | cons b' found =>
          rw [List.cons_append, List.cons.injEq] at htext
          rw [List.map_cons, List.map_cons, List.cons.injEq] at hfound
          exact ⟨by rw [htext.1, hfound.1], found, t, htext.2, hfound.2, ht⟩

/-- **The pattern of a filter is substring search.** -/
theorem like_likePattern {input : Bytes} (hinput : ∀ b ∈ input, isFilterByte b = true)
    (text : Bytes) : like (likePattern input) text = true ↔ Occurs input text := by
  have hpattern : likePattern input = 37 :: (input ++ [37]) := rfl
  rw [hpattern, like_percent]
  constructor
  · intro ⟨before, t, htext, ht⟩
    obtain ⟨found, after, hsplit, hfound, _⟩ := (like_plain hinput [37] t).mp ht
    exact ⟨before, found, after, by rw [htext, hsplit, List.append_assoc], hfound⟩
  · intro ⟨before, found, after, htext, hfound⟩
    refine ⟨before, found ++ after, by rw [htext, List.append_assoc], ?_⟩
    exact (like_plain hinput [37] _).mpr ⟨found, after, rfl, hfound, like_percent_nil after⟩

/-! ### Lists in the order of a date -/

/-- The first element stands before the second one. -/
def Before {α : Type} (a b : α) (l : List α) : Prop := List.Sublist [a, b] l

theorem before_or_before {α : Type} {a b : α} {l : List α} (ha : a ∈ l) (hb : b ∈ l) (hne : a ≠ b) :
    Before a b l ∨ Before b a l := by
  obtain ⟨front, back, rfl⟩ := List.append_of_mem ha
  rw [List.mem_append, List.mem_cons] at hb
  rcases hb with hfront | heq | hback
  · right
    exact (List.singleton_sublist.mpr hfront).append
      (List.singleton_sublist.mpr List.mem_cons_self)
  · exact absurd heq.symm hne
  · left
    exact ((List.singleton_sublist.mpr hback).cons_cons a).trans (List.sublist_append_right _ _)

/-- In a list in falling order of dates, the later date comes first. -/
theorem before_iff {α β : Type} [LinearOrder β] {date : α → β} {l : List α}
    (hl : l.Pairwise fun a b => date b ≤ date a) {a b : α} (ha : a ∈ l) (hb : b ∈ l)
    (hne : date a ≠ date b) : Before a b l ↔ date b < date a := by
  have hle {c d : α} (h : Before c d l) : date d ≤ date c :=
    List.rel_of_pairwise_cons (hl.sublist h) List.mem_cons_self
  constructor
  · intro h
    exact lt_of_le_of_ne (hle h) hne.symm
  · intro h
    rcases before_or_before ha hb (fun heq => hne (congrArg date heq)) with hab | hba
    · exact hab
    · exact absurd (hle hba) (not_le.mpr h)

/-! ### The rows of a query -/

/-- The rows that a query selects, in the order of its result set. -/
def selected (condition : Entry → Bool) (notes : NotesTable) : List (ℤ × Entry) :=
  orderByChangeDateDesc (notes.rows.filter fun r => condition r.2)

def selectedIDs (condition : Entry → Bool) (notes : NotesTable) : List ℤ :=
  (selected condition notes).map Prod.fst

theorem mem_selected {condition : Entry → Bool} {notes : NotesTable} {r : ℤ × Entry} :
    r ∈ selected condition notes ↔ notes.lookup r.1 = some r.2 ∧ condition r.2 = true := by
  rw [selected, orderByChangeDateDesc, List.mem_insertionSort, List.mem_filter]
  refine and_congr_left fun _ => ⟨notes.lookup_of_mem, fun h => notes.mem_of_lookup h⟩

theorem mem_selectedIDs {condition : Entry → Bool} {notes : NotesTable} {k : ℤ} :
    k ∈ selectedIDs condition notes ↔ ∃ e, notes.lookup k = some e ∧ condition e = true := by
  rw [selectedIDs, List.mem_map]
  constructor
  · intro ⟨r, hr, hk⟩
    rw [← hk]
    exact ⟨r.2, mem_selected.mp hr⟩
  · intro ⟨e, he⟩
    exact ⟨(k, e), mem_selected.mpr he, rfl⟩

theorem selectedIDs_nodup (condition : Entry → Bool) (notes : NotesTable) :
    (selectedIDs condition notes).Nodup := by
  have hperm : (selectedIDs condition notes).Perm
      ((notes.rows.filter fun r => condition r.2).map Prod.fst) :=
    (List.perm_insertionSort _ _).map Prod.fst
  have hsorted : (notes.rows.map Prod.fst).Pairwise fun i j => i < j :=
    List.pairwise_map.mpr notes.sorted
  rw [hperm.nodup_iff]
  exact (hsorted.imp ne_of_lt).sublist (List.filter_sublist.map Prod.fst)

/-- The date that a note is listed by. -/
def listingDate (notes : NotesTable) (k : ℤ) : ℤ :=
  (notes.lookup k).elim 0 Entry.changeDate

theorem selectedIDs_ordered (condition : Entry → Bool) (notes : NotesTable) :
    (selectedIDs condition notes).Pairwise fun i j => listingDate notes j ≤ listingDate notes i := by
  have hsorted : (selected condition notes).Pairwise fun p q => q.2.changeDate ≤ p.2.changeDate := by
    have htotal : Std.Total fun p q : ℤ × Entry => q.2.changeDate ≤ p.2.changeDate :=
      ⟨fun p q => le_total q.2.changeDate p.2.changeDate⟩
    have htrans : IsTrans (ℤ × Entry) fun p q => q.2.changeDate ≤ p.2.changeDate :=
      ⟨fun p q r hpq hqr => le_trans hqr hpq⟩
    exact List.pairwise_insertionSort _ _
  have hdate {r : ℤ × Entry} (hr : r ∈ selected condition notes) :
      listingDate notes r.1 = r.2.changeDate := by
    rw [listingDate, (mem_selected.mp hr).1, Option.elim_some]
  rw [selectedIDs, List.pairwise_map]
  refine hsorted.imp_of_mem fun hp hq hle => ?_
  rw [hdate hp, hdate hq]
  exact hle

/-! ### A listing page on its own -/

/-- The program runs to an end with this answer. -/
def Answers (env : Env) (t : ℕ) (p : Prog Response) (w : World) (a : Response) : Prop :=
  ∃ es w', run (handle env) t p w = some (a, es, w')

variable {env : Env} {t : ℕ} {w : World} {a : Response}

theorem answers_ret {b : Response} : Answers env t (.ret b) w a ↔ a = b := by
  constructor
  · intro ⟨es, w', hrun⟩
    exact (of_run_ret hrun).1
  · intro h
    exact ⟨[], w, by rw [run_ret, h]⟩

theorem answers_call {c : Call} {k : c.Result → Prog Response} {r : c.Result} {w₁ : World}
    (hop : handle env t c w = some (r, w₁)) :
    Answers env t (.call c k) w a ↔ Answers env t (k r) w₁ a := by
  constructor
  · intro ⟨es, w', hrun⟩
    obtain ⟨r', w₁', es', hop', hk, _⟩ := (run_call_iff (handle env) t c k w w' a es).mp hrun
    rw [hop, Option.some.injEq, Prod.mk.injEq] at hop'
    rw [hop'.1, hop'.2]
    exact ⟨es', w', hk⟩
  · intro ⟨es, w', hk⟩
    exact ⟨_, w', (run_call_iff (handle env) t c k w w' a _).mpr ⟨r, w₁, es, hop, hk, rfl⟩⟩

theorem answers_executePage {page : Page} (hpage : page.template ∈ templates) :
    Answers env t (executePage page) w a ↔ a = pageAnswer page (env.writeErr t) := by
  have hop : handle env t (.executeTemplate page) w = some (env.writeErr t, w.tick) := by
    rw [handle, if_pos hpage]
  show Answers env t (.call (.executeTemplate page) _) w a ↔ _
  rw [answers_call hop]
  cases env.writeErr t with
  | some err => exact answers_ret
  | none => exact answers_ret

/-- The page of a listing. -/
def listingPage (filtered : Bool) (htmlNotes : List HtmlNote) : Page :=
  ⟨ascii "index.html", .htmlTable ⟨htmlNotes, filtered⟩⟩

theorem index_mem_templates : ascii "index.html" ∈ templates := by decide

/-- **The loop over a listing**: it ends when every note left can be turned into HTML,
and the page has the notes in their order. -/
theorem answers_renderNotes {toHtml : Note → Option HtmlNote} {s : Slice} {rest : List Note}
    (hrest : rest <:+ w.heap.elements s) (hlen : (w.heap.elements s).length = s.len)
    (filtered : Bool) (done : List HtmlNote) :
    Answers env t (renderNotes toHtml s rest.length done >>= fun htmlNotes =>
        executePage (listingPage filtered htmlNotes)) w a ↔
      ∃ htmlNotes, List.Forall₂ (fun n h => toHtml n = some h) rest htmlNotes ∧
        a = pageAnswer (listingPage filtered (done ++ htmlNotes)) (env.writeErr t) := by
  induction rest generalizing w done with
  | nil =>
    show Answers env t (executePage (listingPage filtered done)) w a ↔ _
    rw [answers_executePage index_mem_templates]
    simp
  | cons n rest ih =>
    obtain ⟨front, hfront⟩ := hrest
    have hindex : w.heap.index s (s.len - (rest.length + 1)) = some n := by
      have hpos : s.len - (rest.length + 1) = front.length := by
        rw [← hlen, ← hfront, List.length_append, List.length_cons]
        omega
      rw [Heap.index_eq, hpos, ← hfront, List.getElem?_append_right le_rfl, Nat.sub_self]
      rfl
    have hop : handle env t (.index s (s.len - (rest.length + 1))) w = some (n, w.tick) := by
      rw [handle, hindex]
      rfl
    have hsuffix : rest <:+ w.tick.heap.elements s :=
      ⟨front ++ [n], by rw [List.append_assoc]; exact hfront⟩
    show Answers env t (.call (.index s (s.len - (rest.length + 1))) fun n =>
      withHtml (toHtml n) (fun h => renderNotes toHtml s rest.length (done ++ [h])) >>= _) w a ↔ _
    rw [answers_call hop]
    cases hhtml : toHtml n with
    | none =>
      refine iff_of_false ?_ ?_
      · rintro ⟨es, w', hrun⟩
        obtain ⟨r, _⟩ := (run_call_iff (handle env) t .hang _ w.tick w' a es).mp hrun
        exact r.elim
      · rintro ⟨htmlNotes, hforall, _⟩
        cases hforall with
        | cons hhead _ => exact absurd (hhtml.symm.trans hhead) (by simp)
    | some h =>
      show Answers env t (renderNotes toHtml s rest.length (done ++ [h]) >>= _) w.tick a ↔ _
      rw [ih hsuffix hlen]
      constructor
      · rintro ⟨htmlNotes, hforall, ha⟩
        exact ⟨h :: htmlNotes, .cons hhtml hforall, by rw [ha, List.append_assoc]; rfl⟩
      · rintro ⟨htmlNotes, hforall, ha⟩
        cases hforall with
        | @cons _ h' _ htmlNotes hhead htail =>
          obtain rfl := Option.some.inj (hhtml.symm.trans hhead)
          exact ⟨htmlNotes, htail, by rw [ha, List.append_assoc]; rfl⟩

/-! ### What is loaded -/

/-- Nothing fails: every row becomes the note it stands for. -/
theorem notesRead_ok (rows : List (ℤ × Entry)) :
    ListOutcome.ok.notesRead (rows.map fun r => r.2.columns r.1) =
      rows.map fun r => noteOf r.1 r.2 := by
  have hread : ListOutcome.ok.notesRead (rows.map fun r => r.2.columns r.1) =
      (rows.map fun r => r.2.columns r.1).mapIdx fun _ row => scanned (fun _ => false) row := rfl
  rw [hread]
  apply List.ext_getElem?
  intro i
  rw [List.getElem?_mapIdx, List.getElem?_map, List.getElem?_map, Option.map_map]
  rfl

/-- The slice holds the notes of the rows that the condition selects. -/
def Holds (w : World) (s : Slice) (condition : Entry → Bool) (notes : NotesTable) : Prop :=
  w.heap.elements s = (selected condition notes).map (fun r => noteOf r.1 r.2) ∧
    (w.heap.elements s).length = s.len

theorem appendRows_selected {o : ListOutcome} (ho : o = ListOutcome.ok) (condition : Entry → Bool)
    (notes : NotesTable) :
    ∃ s heap dbManager, w.dbManager.appendRows env.growth w.heap o
        (.ok ((selected condition notes).map fun r => r.2.columns r.1)) =
          ((s, none), heap, dbManager) ∧
      Holds (w.tick.setListing heap dbManager) s condition notes := by
  obtain ⟨heap, s, hresult, helements, hlen⟩ := appendRows_ok w.dbManager env.growth w.heap o
    ((selected condition notes).map fun r => r.2.columns r.1)
  rw [ho, notesRead_ok] at helements hlen
  exact ⟨s, heap, _, hresult, helements, (congrArg List.length helements).trans hlen.symm⟩

section Succeeds

variable (hdb : env.DatabaseSucceeds)

include hdb

theorem loadNotes_holds : ∃ s w₁, handle env t .loadNotes w = some ((s, none), w₁) ∧
    Holds w₁ s (fun _ => true) w.notes := by
  have hok := hdb.list w.calls
  obtain ⟨s, heap, dbManager, happend, hholds⟩ :=
    @appendRows_selected env w _ hok (fun _ => true) w.notes
  refine ⟨s, _, ?_, hholds⟩
  have hload : w.dbManager.loadNotes env.growth w.heap (env.listOutcome w.calls) =
      ((s, none), heap, dbManager) := by
    rw [← happend, DatabaseManager.loadNotes, hok]
    rfl
  rw [handle, hload]

theorem loadNotesWhere_holds {q : SelectQuery} {params : List Bytes}
    (hparams : params.length = q.numInput) :
    ∃ s w₁, handle env t (.loadNotesWhere q params) w = some ((s, none), w₁) ∧
      Holds w₁ s (q.condition params) w.notes := by
  have hok := hdb.list w.calls
  obtain ⟨s, heap, dbManager, happend, hholds⟩ :=
    @appendRows_selected env w _ hok (q.condition params) w.notes
  refine ⟨s, _, ?_, hholds⟩
  have hload : w.dbManager.loadNotesWhere env.growth w.heap (env.listOutcome w.calls) q params =
      ((s, none), heap, dbManager) := by
    have hquery : ListOutcome.ok.query q params w.dbManager.db.notes =
        .ok ((selected (q.condition params) w.notes).map fun r => r.2.columns r.1) :=
      if_pos hparams
    rw [← happend, DatabaseManager.loadNotesWhere, hok, hquery]
    rfl
  rw [handle, hload]

end Succeeds

/-! ### The IDs on a page -/

/-- The IDs in the table of a page. -/
def listedIDs : Response → Option (List ℤ)
  | .page ⟨_, .htmlTable table⟩ => some (table.notes.map HtmlNote.noteID)
  | _ => none

/-- The program runs to an end and answers with a page that lists these notes. -/
def Lists (env : Env) (t : ℕ) (p : Prog Response) (w : World) (ids : List ℤ) : Prop :=
  ∃ a, Answers env t p w a ∧ listedIDs a = some ids

/-- The text of the note can be turned into HTML. -/
def Renders (env : Env) (e : Entry) : Prop :=
  partialHtmlParser env.findAllString env.fuel e.text ≠ none

/-- Nothing fails while the page is written, and every listed text can be turned into HTML. -/
def CanShow (env : Env) (t : ℕ) (condition : Entry → Bool) (notes : NotesTable) : Prop :=
  env.writeErr t = none ∧ ∀ r ∈ selected condition notes, Renders env r.2

theorem forall₂_toHtml {rows : List (ℤ × Entry)} {htmlNotes : List HtmlNote}
    (h : List.Forall₂ (fun n html => noteToHtmlNote env.findAllString env.fuel n = some html)
      (rows.map fun r => noteOf r.1 r.2) htmlNotes) :
    (∀ r ∈ rows, Renders env r.2) ∧ htmlNotes.map HtmlNote.noteID = rows.map Prod.fst := by
  induction rows generalizing htmlNotes with
  | nil =>
    cases h with
    | nil => simp
  | cons r rows ih =>
    cases h with
    | @cons _ html _ htmlNotes hhead htail =>
      rw [noteToHtmlNote_noteOf, Option.map_eq_some_iff] at hhead
      obtain ⟨text, htext, rfl⟩ := hhead
      obtain ⟨hrenders, hids⟩ := ih htail
      constructor
      · rw [List.forall_mem_cons]
        exact ⟨by rw [Renders, htext]; simp, hrenders⟩
      · rw [List.map_cons, List.map_cons, hids]

theorem exists_toHtml {rows : List (ℤ × Entry)} (h : ∀ r ∈ rows, Renders env r.2) :
    ∃ htmlNotes, List.Forall₂ (fun n html =>
      noteToHtmlNote env.findAllString env.fuel n = some html)
        (rows.map fun r => noteOf r.1 r.2) htmlNotes := by
  induction rows with
  | nil => exact ⟨[], .nil⟩
  | cons r rows ih =>
    rw [List.forall_mem_cons] at h
    obtain ⟨htmlNotes, hforall⟩ := ih h.2
    obtain ⟨text, htext⟩ := Option.ne_none_iff_exists'.mp h.1
    have hhead : noteToHtmlNote env.findAllString env.fuel (noteOf r.1 r.2) =
        some ⟨r.1, r.2.title, text, ofUnix r.2.addDate, ofUnix r.2.changeDate⟩ := by
      rw [noteToHtmlNote_noteOf, htext]
      rfl
    exact ⟨_ :: htmlNotes, .cons hhead hforall⟩

/-- **What a listing shows** is the IDs of the selected rows, if it can be shown. -/
theorem lists_listing {s : Slice} {condition : Entry → Bool} {notes : NotesTable}
    (hholds : Holds w s condition notes) (filtered : Bool) (ids : List ℤ) :
    Lists env t (listing (noteToHtmlNote env.findAllString env.fuel) filtered (s, none)) w ids ↔
      CanShow env t condition notes ∧ ids = selectedIDs condition notes := by
  obtain ⟨helements, hlen⟩ := hholds
  have hanswers (a : Response) := @answers_renderNotes env t w a
    (noteToHtmlNote env.findAllString env.fuel) s _ (List.suffix_refl (w.heap.elements s)) hlen
    filtered []
  rw [hlen] at hanswers
  constructor
  · rintro ⟨a, ha, hids⟩
    obtain ⟨htmlNotes, hforall, rfl⟩ := (hanswers a).mp ha
    rw [helements] at hforall
    obtain ⟨hrenders, hnoteIDs⟩ := forall₂_toHtml hforall
    cases hwrite : env.writeErr t with
    | some err =>
      rw [hwrite] at hids
      exact absurd hids (by simp [pageAnswer, internalServerError, listedIDs])
    | none =>
      rw [hwrite] at hids
      exact ⟨⟨hwrite, hrenders⟩, (Option.some.inj hids).symm.trans hnoteIDs⟩
  · rintro ⟨⟨hwrite, hrenders⟩, hids⟩
    obtain ⟨htmlNotes, hforall⟩ := exists_toHtml hrenders
    refine ⟨_, (hanswers _).mpr ⟨htmlNotes, by rw [helements]; exact hforall, rfl⟩, ?_⟩
    rw [hwrite, hids]
    exact congrArg some (forall₂_toHtml hforall).2

/-! ### The pages of a store -/

/-- A request for the path, served on its own on a state with these notes once the rate
limiter lets it through, lists these notes. -/
def Shows (env : Env) (t : ℕ) (notes : NotesTable) (path : Bytes) (ids : List ℤ) : Prop :=
  ∃ w form, w.notes = notes ∧ Lists env t (letThrough (dispatch env ⟨path, form⟩)) w ids

/-- The page behind a path whose body loads a listing and shows it. -/
theorem shows_iff (filtered : Bool) {path : Bytes} {condition : Entry → Bool} {c : Call}
    {k : c.Result → Prog Response} {notes : NotesTable}
    (hbody : ∀ form, (chosen path).body env form = .call c k)
    (hload : ∀ w, w.notes = notes → ∃ s r w₁, handle env t c w = some (r, w₁) ∧
      k r = listing (noteToHtmlNote env.findAllString env.fuel) filtered (s, none) ∧
      Holds w₁ s condition notes) (ids : List ℤ) :
    Shows env t notes path ids ↔ CanShow env t condition notes ∧
      ids = selectedIDs condition notes := by
  have hlists (w : World) (form : Form) (hnotes : w.notes = notes) :
      Lists env t (letThrough (dispatch env ⟨path, form⟩)) w ids ↔
        CanShow env t condition notes ∧ ids = selectedIDs condition notes := by
    obtain ⟨s, r, w₁, hop, hk, hholds⟩ := hload w hnotes
    rw [letThrough_dispatch, hbody, ← lists_listing hholds filtered ids, Lists, Lists]
    simp only [answers_call hop, hk]
  constructor
  · intro ⟨w, form, hnotes, hshown⟩
    exact (hlists w form hnotes).mp hshown
  · intro h
    exact ⟨World.initial notes, [], rfl, (hlists _ [] rfl).mpr h⟩

/-- The condition of a filter on the title and the text of a note. -/
def matching (name input : Bytes) (e : Entry) : Bool :=
  (name != ascii "TextFilter" && like (likePattern input) e.title) ||
    (name != ascii "TitleFilter" && like (likePattern input) e.text)

theorem condition_title (input : Bytes) :
    SelectQuery.condition .selectNotesWhereTitleQS [likePattern input] =
      matching (ascii "TitleFilter") input := by
  funext e
  exact (Bool.or_false _).symm

/-- The names of the filters. -/
def filterNames : List Bytes := [ascii "TitleFilter", ascii "TextFilter", ascii "BothFilter"]

section Succeeds

variable (hdb : env.DatabaseSucceeds)

include hdb

theorem shows_index (notes : NotesTable) (ids : List ℤ) :
    Shows env t notes (ascii "/") ids ↔ CanShow env t (fun _ => true) notes ∧
      ids = selectedIDs (fun _ => true) notes := by
  have hchosen : chosen (ascii "/") = .indexHandler := by decide
  refine shows_iff false (c := .loadNotes)
    (fun form => by rw [hchosen]; rfl) (fun w hnotes => ?_) ids
  obtain ⟨s, w₁, hop, hholds⟩ := loadNotes_holds (t := t) (w := w) hdb
  rw [hnotes] at hholds
  exact ⟨s, _, w₁, hop, rfl, hholds⟩

/-- The page of a path whose body is a filter with this query. -/
theorem shows_query {path : Bytes} {q : SelectQuery} {params : List Bytes}
    (hbody : ∀ form, (chosen path).body env form =
      filteredIndexHandler (noteToHtmlNote env.findAllString env.fuel) q params)
    (hparams : params.length = q.numInput) (notes : NotesTable) (ids : List ℤ) :
    Shows env t notes path ids ↔ CanShow env t (q.condition params) notes ∧
      ids = selectedIDs (q.condition params) notes := by
  refine shows_iff true (c := .loadNotesWhere q params) hbody
    (fun w hnotes => ?_) ids
  obtain ⟨s, w₁, hop, hholds⟩ := loadNotesWhere_holds (t := t) (w := w) hdb hparams
  rw [hnotes] at hholds
  exact ⟨s, _, w₁, hop, rfl, hholds⟩

/-- **The page of a filter** for an input that its path accepts. -/
theorem shows_filter {input : Bytes} (hne : input ≠ []) (hinput : input.all isFilterByte = true) :
    ∀ name ∈ filterNames, ∀ notes ids, Shows env t notes (slashed name ++ input) ids ↔
      CanShow env t (matching name input) notes ∧ ids = selectedIDs (matching name input) notes := by
  have hchosen : ∀ b ∈ anchoredBodies, b.2.1 = isFilterByte →
      chosen (slashed b.1 ++ input) = b.2.2 input := by
    intro b hb hcls
    rw [chosen_anchored b hb, hcls, if_pos ⟨hne, hinput⟩]
  simp only [filterNames, List.forall_mem_cons]
  refine ⟨fun notes ids => ?_, fun notes ids => ?_, fun notes ids => ?_, by simp⟩
  · have htitle := hchosen _ (List.mem_of_getElem? (i := 7) rfl) rfl
    rw [← condition_title]
    exact shows_query hdb (fun form => by rw [htitle]; rfl) rfl notes ids
  · have htext := hchosen _ (List.mem_of_getElem? (i := 8) rfl) rfl
    have hcondition : SelectQuery.selectNotesWhereTextQS.condition [likePattern input] =
        matching (ascii "TextFilter") input := rfl
    rw [← hcondition]
    exact shows_query hdb (fun form => by rw [htext]; rfl) rfl notes ids
  · have hboth := hchosen _ (List.mem_of_getElem? (i := 9) rfl) rfl
    have hcondition : SelectQuery.selectNotesWhereBothQS.condition
        [likePattern input, likePattern input] = matching (ascii "BothFilter") input := rfl
    rw [← hcondition]
    exact shows_query hdb (fun form => by rw [hboth]; rfl) rfl notes ids

end Succeeds

/-- The notes are listed once each, and they are those that satisfy this. -/
def Exactly (notes : NotesTable) (wanted : Entry → Prop) (ids : List ℤ) : Prop :=
  ids.Nodup ∧ ∀ k, k ∈ ids ↔ ∃ e, notes.lookup k = some e ∧ wanted e

/-- **What the filter pages of a store show** for an input. -/
structure Searches (env : Env) (notes : NotesTable) (input : Bytes) : Prop where
  title : ∀ t ids, Shows env t notes (slashed (ascii "TitleFilter") ++ input) ids →
    Exactly notes (fun e => Occurs input e.title) ids
  text : ∀ t ids, Shows env t notes (slashed (ascii "TextFilter") ++ input) ids →
    Exactly notes (fun e => Occurs input e.text) ids
  both : ∀ t ids, Shows env t notes (slashed (ascii "BothFilter") ++ input) ids →
    Exactly notes (fun e => Occurs input e.title ∨ Occurs input e.text) ids
  union : ∀ t u v ids titleIDs textIDs,
    Shows env t notes (slashed (ascii "BothFilter") ++ input) ids →
    Shows env u notes (slashed (ascii "TitleFilter") ++ input) titleIDs →
    Shows env v notes (slashed (ascii "TextFilter") ++ input) textIDs →
    ids.Nodup ∧ ∀ k, k ∈ ids ↔ k ∈ titleIDs ∨ k ∈ textIDs
  ordered : ∀ name ∈ filterNames, ∀ t u ids allIDs,
    Shows env t notes (slashed name ++ input) ids → Shows env u notes (ascii "/") allIDs →
    ∀ i ∈ ids, ∀ j ∈ ids, listingDate notes i ≠ listingDate notes j →
      (Before i j ids ↔ Before i j allIDs)
  shown : ∀ name ∈ filterNames, ∀ t, env.writeErr t = none →
    (∀ k e, notes.lookup k = some e → Renders env e) →
    ∃ ids, Shows env t notes (slashed name ++ input) ids

theorem exactly_selectedIDs {condition : Entry → Bool} {wanted : Entry → Prop}
    (h : ∀ e, condition e = true ↔ wanted e) (notes : NotesTable) :
    Exactly notes wanted (selectedIDs condition notes) := by
  refine ⟨selectedIDs_nodup condition notes, fun k => ?_⟩
  rw [mem_selectedIDs]
  simp only [h]

/-- Two listings of a store order their common notes in the same way. -/
theorem before_selectedIDs {condition : Entry → Bool} {notes : NotesTable} {i j : ℤ}
    (hi : i ∈ selectedIDs condition notes) (hj : j ∈ selectedIDs condition notes)
    (hne : listingDate notes i ≠ listingDate notes j) :
    Before i j (selectedIDs condition notes) ↔ Before i j (selectedIDs (fun _ => true) notes) := by
  have hall {k : ℤ} (hk : k ∈ selectedIDs condition notes) :
      k ∈ selectedIDs (fun _ => true) notes := by
    obtain ⟨e, he, _⟩ := mem_selectedIDs.mp hk
    exact mem_selectedIDs.mpr ⟨e, he, rfl⟩
  rw [before_iff (selectedIDs_ordered condition notes) hi hj hne,
    before_iff (selectedIDs_ordered _ notes) (hall hi) (hall hj) hne]

/-- **Filters are substring search, and both is their union.** -/
theorem filters_search (hdb : env.DatabaseSucceeds) {input : Bytes} (hne : input ≠ [])
    (hinput : input.all isFilterByte = true) (notes : NotesTable) : Searches env notes input := by
  have hlike (text : Bytes) := like_likePattern (List.all_eq_true.mp hinput) text
  have hpage {t : ℕ} {name : Bytes} (hname : name ∈ filterNames) (ids : List ℤ) :=
    shows_filter (t := t) hdb hne hinput name hname notes ids
  have htitle (e : Entry) :
      matching (ascii "TitleFilter") input e = true ↔ Occurs input e.title := by
    rw [← hlike e.title]
    show (like (likePattern input) e.title || false) = true ↔ _
    rw [Bool.or_false]
  have htext (e : Entry) :
      matching (ascii "TextFilter") input e = true ↔ Occurs input e.text := by
    rw [← hlike e.text]
    rfl
  have hboth (e : Entry) : matching (ascii "BothFilter") input e = true ↔
      Occurs input e.title ∨ Occurs input e.text := by
    rw [← hlike e.title, ← hlike e.text, ← Bool.or_eq_true]
    rfl
  refine ⟨fun t ids h => ?_, fun t ids h => ?_, fun t ids h => ?_, fun t u v ids _ _ h h₁ h₂ => ?_,
    fun name hname t u ids _ h h₁ i hi j hj hdate => ?_, fun name hname t hwrite hrenders => ?_⟩
  · rw [((hpage (by decide) ids).mp h).2]
    exact exactly_selectedIDs htitle notes
  · rw [((hpage (by decide) ids).mp h).2]
    exact exactly_selectedIDs htext notes
  · rw [((hpage (by decide) ids).mp h).2]
    exact exactly_selectedIDs hboth notes
  · rw [((hpage (by decide) ids).mp h).2, ((hpage (by decide) _).mp h₁).2,
      ((hpage (by decide) _).mp h₂).2]
    refine ⟨selectedIDs_nodup _ notes, fun k => ?_⟩
    rw [(exactly_selectedIDs hboth notes).2, (exactly_selectedIDs htitle notes).2,
      (exactly_selectedIDs htext notes).2, ← exists_or]
    simp only [and_or_left]
  · rw [((hpage hname ids).mp h).2] at hi hj ⊢
    rw [((shows_index hdb notes _).mp h₁).2]
    exact before_selectedIDs hi hj hdate
  · refine ⟨_, (hpage hname _).mpr ⟨⟨hwrite, fun r hr => ?_⟩, rfl⟩⟩
    exact hrenders r.1 r.2 (mem_selected.mp hr).1

/-- A table with two notes. -/
def twoNotes : NotesTable :=
  (RowTable.empty.insert ⟨ascii "Groceries", ascii "milk", 0, 0⟩).insert
    ⟨ascii "Trip", ascii "big rocks", 1, 1⟩

theorem filters_search_twoNotes : Searches quiet twoNotes (ascii "ROC") :=
  filters_search quiet_succeeds (by decide) (by decide) twoNotes

end ShareNotes.FilterPages
