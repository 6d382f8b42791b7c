import ShareNotes.Lib.Liveness
import ShareNotes.TokenStrings
import ShareNotes.Effects
import ShareNotes.HandlerRuns
import ShareNotes.StoreRefinement
import ShareNotes.FilterPages
import ShareNotes.ConcurrentListings
import ShareNotes.LinkGaps

/-!
# Whether every request is answered

Two loops of the program have no bound: `randomStringLength` draws until it has its
letters, and `partialHtmlParser` goes on until it has found every link. If the draws
never run out of letters and the loop ends on every text that is stored or submitted,
every request is answered, in every interleaving of any number of requests and whatever
the database calls return: a thread that was given a listing finds each of its elements,
because no array ever shrinks, and each element holds a text that was stored.

What is interleaved are whole calls: one call of the token manager, of the database
manager, of a template or of `curl`, one reading of the clock, and one element of a
listing. The source guards neither the map of the tokens nor the source of random numbers
with a lock; what two calls do to these when they run at the same time is not modelled.

A text on which the loop does not end blocks the pages that show it, and those only
(`answered_iff`).
-/

namespace ShareNotes.Availability

open ShareNotes.Lib.Decimal ShareNotes.Lib.KeyedRows ShareNotes.Lib.Slices
open ShareNotes.Lib.Interaction ShareNotes.Lib.Streams ShareNotes.Lib.Liveness
open ShareNotes.Token ShareNotes.NoteRecord ShareNotes.Linkify ShareNotes.Manager
open ShareNotes.Calls ShareNotes.Handlers ShareNotes.Routing ShareNotes.Runs ShareNotes.Effects
open ShareNotes.TokenStrings ShareNotes.LinkedText ShareNotes.FilterPages
open ShareNotes.HandlerRuns ShareNotes.SequentialNotes ShareNotes.StoreRefinement
open ShareNotes.ConcurrentListings (pool)
open Program

/-! ### More fuel -/

/-- The environment with another bound on the rounds of the loops. -/
def withFuel (env : Env) (fuel : ℕ) : Env := { env with fuel := fuel }

theorem linkLoop_mono {fuel fuel' : ℕ} (hle : fuel ≤ fuel') {st st' : LinkLoop}
    (h : linkLoop fuel st = some st') : linkLoop fuel' st = some st' := by
  induction fuel generalizing fuel' st with
  | zero =>
    obtain ⟨hnil, hst⟩ := Option.ite_none_right_eq_some.mp h
    cases fuel' <;> rw [linkLoop, if_pos hnil, hst]
  | succ fuel ih =>
    obtain ⟨fuel', rfl⟩ : ∃ n, fuel' = n + 1 := ⟨fuel' - 1, by omega⟩
    rw [linkLoop] at h ⊢
    by_cases hnil : st.links = []
    · rw [if_pos hnil] at h ⊢
      exact h
    · rw [if_neg hnil] at h ⊢
      exact ih (by omega) h

theorem partialHtmlParser_mono {findAllString : Bytes → List Bytes} {fuel fuel' : ℕ}
    (hle : fuel ≤ fuel') {text out : Bytes}
    (h : partialHtmlParser findAllString fuel text = some out) :
    partialHtmlParser findAllString fuel' text = some out := by
  rw [partialHtmlParser] at h ⊢
  cases hlinks : findAllString text with
  | nil =>
    rw [hlinks] at h
    exact h
  | cons link links =>
    rw [hlinks] at h
    obtain ⟨st, hrun, hst⟩ := Option.map_eq_some_iff.mp h
    exact Option.map_eq_some_iff.mpr ⟨st, linkLoop_mono hle hrun, hst⟩

theorem randomLoop_mono {src : ℕ → Int63} {fuel fuel' : ℕ} (hle : fuel ≤ fuel')
    {st st' : RandomLoop} (h : randomLoop src fuel st = some st') :
    randomLoop src fuel' st = some st' := by
  induction fuel generalizing fuel' st with
  | zero =>
    obtain ⟨hleft, hst⟩ := Option.ite_none_right_eq_some.mp h
    cases fuel' <;> rw [randomLoop, if_pos hleft, hst]
  | succ fuel ih =>
    obtain ⟨fuel', rfl⟩ : ∃ n, fuel' = n + 1 := ⟨fuel' - 1, by omega⟩
    rw [randomLoop] at h ⊢
    by_cases hleft : st.left = 0
    · rw [if_pos hleft] at h ⊢
      exact h
    · rw [if_neg hleft] at h ⊢
      exact ih (by omega) h

theorem randomStringLength_mono {src : ℕ → Int63} {fuel fuel' drawn n : ℕ} (hle : fuel ≤ fuel')
    {p : Bytes × ℕ} (h : randomStringLength src fuel drawn n = some p) :
    randomStringLength src fuel' drawn n = some p := by
  rw [randomStringLength_eq] at h ⊢
  obtain ⟨st, hrun, hst⟩ := Option.map_eq_some_iff.mp h
  exact Option.map_eq_some_iff.mpr ⟨st, randomLoop_mono hle hrun, hst⟩

/-! ### Enough letters for some tokens -/

/-- Whatever was drawn, some later draw has the index of a letter in one of its groups. -/
def LettersNeverEnd (src : ℕ → Int63) : Prop :=
  ∀ drawn, ∃ k, drawn ≤ k ∧ ∃ j ∈ groups (src k), isIndex j = true

theorem groupsOf_succ (src : ℕ → Int63) (drawn d : ℕ) :
    groupsOf src drawn (d + 1) = groupsOf src drawn d ++ groups (src (drawn + d)) := by
  rw [groupsOf, List.range_succ, List.flatMap_append, List.flatMap_singleton]
  rfl

theorem keptOf_length_le {src : ℕ → Int63} {drawn d d' : ℕ} (h : d ≤ d') :
    (keptOf src drawn d).length ≤ (keptOf src drawn d').length := by
  rw [keptOf_eq, keptOf_eq]
  exact (kept_mono _ _ (Nat.mul_le_mul_left 10 h)).length_le

/-- The draws hold as many letters as are wanted. -/
theorem exists_le_keptOf {src : ℕ → Int63} (hsrc : LettersNeverEnd src) (drawn n : ℕ) :
    ∃ d, n ≤ (keptOf src drawn d).length := by
  induction n with
  | zero => exact ⟨0, Nat.zero_le _⟩
  | succ n ih =>
    obtain ⟨d, hd⟩ := ih
    obtain ⟨k, hk, j, hj, hindex⟩ := hsrc (drawn + d)
    refine ⟨k - drawn + 1, ?_⟩
    have hmore : keptOf src drawn (k - drawn + 1) =
        keptOf src drawn (k - drawn) ++ (groups (src k)).filter isIndex := by
      rw [keptOf, groupsOf_succ, List.filter_append, Nat.add_sub_of_le (by omega)]
      rfl
    have hfirst : (keptOf src drawn d).length ≤ (keptOf src drawn (k - drawn)).length :=
      keptOf_length_le (by omega)
    have hnew : 0 < ((groups (src k)).filter isIndex).length :=
      List.length_pos_of_mem (List.mem_filter.mpr ⟨hj, hindex⟩)
    rw [hmore, List.length_append]
    omega

theorem exists_randomStringLength {src : ℕ → Int63} {drawn n : ℕ}
    (h : ∃ d, n ≤ (keptOf src drawn d).length) :
    ∃ fuel s drawn', randomStringLength src fuel drawn n = some (s, drawn') := by
  obtain ⟨m, hm⟩ := (le_kept_iff src drawn n).mp h
  have hends : randomLoop src m (start src drawn n) ≠ none :=
    randomLoop_ends (atGroup_start src drawn n) (by rw [Nat.zero_add]; exact hm)
  obtain ⟨st, hrun⟩ := Option.ne_none_iff_exists'.mp hends
  exact ⟨m, st.result, st.drawn, by rw [randomStringLength_eq, hrun]; rfl⟩

/-- The fuel is enough for so many tokens, one after another. -/
def Supplies (src : ℕ → Int63) (fuel : ℕ) : ℕ → ℕ → Prop
  | 0, _ => True
  | n + 1, drawn => ∃ s drawn', randomStringLength src fuel drawn 100 = some (s, drawn') ∧
    Supplies src fuel n drawn'

theorem exists_supplies {src : ℕ → Int63} (hsrc : LettersNeverEnd src) (n drawn : ℕ) :
    ∃ fuel₀, ∀ fuel, fuel₀ ≤ fuel → Supplies src fuel n drawn := by
  induction n generalizing drawn with
  | zero => exact ⟨0, fun _ _ => trivial⟩
  | succ n ih =>
    obtain ⟨fuel₁, s, drawn', hs⟩ := exists_randomStringLength (exists_le_keptOf hsrc drawn 100)
    obtain ⟨fuel₂, hfuel₂⟩ := ih drawn'
    refine ⟨max fuel₁ fuel₂, fun fuel hle => ⟨s, drawn', ?_, hfuel₂ fuel (by omega)⟩⟩
    exact randomStringLength_mono (by omega) hs

/-! ### Texts on which the loop ends -/

/-- The loop of `partialHtmlParser` ends on the text within the fuel. -/
def LoopEnds (env : Env) (text : Bytes) : Prop :=
  partialHtmlParser env.findAllString env.fuel text ≠ none

theorem noteToHtmlNote_ne_none {env : Env} {n : Note} (hn : LoopEnds env n.text) :
    ∃ html, noteToHtmlNote env.findAllString env.fuel n = some html := by
  obtain ⟨out, hout⟩ := Option.ne_none_iff_exists'.mp hn
  exact ⟨_, Option.map_eq_some_iff.mpr ⟨out, hout, rfl⟩⟩

/-- Some fuel is enough for all of finitely many texts. -/
theorem exists_loopEnds {env : Env} {texts : List Bytes}
    (h : ∀ text ∈ texts, Terminates env.findAllString text) :
    ∃ fuel₀, ∀ fuel, fuel₀ ≤ fuel → ∀ text ∈ texts, LoopEnds (withFuel env fuel) text := by
  induction texts with
  | nil => exact ⟨0, fun _ _ _ ht => absurd ht List.not_mem_nil⟩
  | cons text texts ih =>
    rw [List.forall_mem_cons] at h
    obtain ⟨fuel₁, out, hout⟩ := h.1
    obtain ⟨fuel₂, hfuel₂⟩ := ih h.2
    refine ⟨max fuel₁ fuel₂, fun fuel hle => ?_⟩
    rw [List.forall_mem_cons]
    refine ⟨?_, hfuel₂ fuel (by omega)⟩
    have hmore : partialHtmlParser env.findAllString fuel text = some out :=
      partialHtmlParser_mono (by omega) hout
    rw [LoopEnds]
    show partialHtmlParser env.findAllString fuel text ≠ none
    rw [hmore]
    exact Option.some_ne_none out

/-! ### What the calls of a server need and give -/

section Contracts

variable (env : Env) (P : Bytes → Prop)

/-- Every text that is held somewhere is of the kind `P`, and so many more tokens can be made. -/
structure Ready (n : ℕ) (w : World) : Prop where
  rows : ∀ k e, w.notes.lookup k = some e → P e.text
  cells : ∀ a, ∀ x ∈ w.heap.cells a, P x.text
  tokens : Supplies env.int63 env.fuel n w.drawn

/-- No array has become shorter. -/
def Grows (w w' : World) : Prop := ∀ a, (w.heap.cells a).length ≤ (w'.heap.cells a).length

def cost : Call → ℕ
  | .generateSynchronizedToken => 1
  | _ => 0

/-- What a call needs: a text of the kind to store, an index in range. -/
def Allowed : Call → World → Prop
  | .addNote n, _ => P n.text
  | .updateNote n, _ => P n.text
  | .index notes i, w => i < notes.len ∧ notes.len ≤ w.heap.cap notes
  | .hang, _ => False
  | _, _ => True

/-- What its answer is good for. -/
def Promised : (c : Call) → c.Result → World → Prop
  | .getNote _, found, _ => ∀ n, found = .ok n → P n.text
  | .loadNotes, loaded, w => loaded.1.len ≤ w.heap.cap loaded.1
  | .loadNotesWhere _ _, loaded, w => loaded.1.len ≤ w.heap.cap loaded.1
  | .index _ _, n, _ => P n.text
  | _, _, _ => True

end Contracts

variable {env : Env} {P : Bytes → Prop} {n : ℕ} {w w' : World}

theorem Grows.trans {w₁ w₂ w₃ : World} (h : Grows w₁ w₂) (h' : Grows w₂ w₃) : Grows w₁ w₃ :=
  fun a => (h a).trans (h' a)

theorem Allowed.stable {c : Call} (h : Allowed P c w) (hw : Grows w w') : Allowed P c w' := by
  cases c with
  | index notes i => exact ⟨h.1, h.2.trans (hw notes.array)⟩
  | _ => exact h

/-- A call that touches nothing but the counters of the process. -/
theorem Ready.same (h : Ready env P n w) (hnotes : w'.notes = w.notes) (hheap : w'.heap = w.heap)
    (hdrawn : w'.drawn = w.drawn) : Ready env P n w' where
  rows := by
    rw [hnotes]
    exact h.rows
  cells := by
    rw [hheap]
    exact h.cells
  tokens := by
    rw [hdrawn]
    exact h.tokens

theorem grows_of_eq (hheap : w'.heap = w.heap) : Grows w w' := by
  intro a
  rw [hheap]

/-- A write keeps the texts of the rows, or adds its own. -/
theorem text_effect {c : Call} (hc : Allowed P c w) {notes : NotesTable}
    (hrows : ∀ k e, notes.lookup k = some e → P e.text) :
    ∀ k e, (effect c notes).lookup k = some e → P e.text := by
  intro k e he
  cases c with
  | addNote n =>
    rw [effect, RowTable.lookup_insert] at he
    split at he
    · rw [← Option.some.inj he]
      exact hc
    · exact hrows k e he
  | updateNote n =>
    rw [effect, RowTable.lookup_modify] at he
    split at he
    · obtain ⟨e', _, rfl⟩ := Option.map_eq_some_iff.mp he
      exact hc
    · exact hrows k e he
  | deleteNote noteID =>
    rw [effect, RowTable.lookup_erase] at he
    split at he
    · exact absurd he (by simp)
    · exact hrows k e he
  | _ => exact hrows k e he

/-! ### Listings -/

theorem scanRow_text (fails : ℕ → Bool) (row : ResultRow) :
    (scanRow fails row).1.text = [] ∨ row.text = some (scanRow fails row).1.text := by
  rw [scanRow]
  cases convertAssign (fails 0) row.noteID with
  | none => exact Or.inl rfl
  | some noteID =>
    cases convertAssign (fails 1) row.title with
    | none => exact Or.inl rfl
    | some title =>
      cases htext : convertAssign (fails 2) row.text with
      | none => exact Or.inl rfl
      | some text =>
        right
        obtain ⟨_, hrow⟩ := Option.ite_none_left_eq_some.mp htext
        rw [hrow]
        cases convertAssign (fails 3) row.addDate with
        | none => rfl
        | some addDate => cases convertAssign (fails 4) row.changeDate <;> rfl

theorem mem_delivered {o : ListOutcome} {rows : List ResultRow} {row : ResultRow}
    (h : row ∈ o.delivered rows) : row ∈ rows := by
  rw [ListOutcome.delivered] at h
  split at h
  · exact h
  · exact List.mem_of_mem_take h

/-- A note that is read has the text of a row, or none. -/
theorem notesRead_text {o : ListOutcome} {rows : List ResultRow} {x : Note}
    (hx : x ∈ o.notesRead rows) : x.text = [] ∨ ∃ row ∈ rows, row.text = some x.text := by
  obtain ⟨i, hi, rfl⟩ := List.mem_mapIdx.mp hx
  rcases scanRow_text (o.scanFails i) (o.delivered rows)[i] with hnone | hrow
  · exact Or.inl hnone
  · exact Or.inr ⟨_, mem_delivered (List.getElem_mem hi), hrow⟩

theorem text_of_query {o : ListOutcome} {q : SelectQuery} {params : List Bytes}
    {notes : NotesTable} {rows : List ResultRow} (h : o.query q params notes = .ok rows)
    {row : ResultRow} (hrow : row ∈ rows) :
    ∃ k e, notes.lookup k = some e ∧ row.text = some e.text := by
  rw [ListOutcome.query] at h
  split at h
  · exact absurd h (by simp)
  · rw [SelectQuery.rows] at h
    split at h
    · rw [← Except.ok.inj h, List.mem_map] at hrow
      obtain ⟨r, hr, rfl⟩ := hrow
      have hmem : r ∈ notes.rows := by
        rw [orderByChangeDateDesc, List.mem_insertionSort] at hr
        exact (List.mem_filter.mp hr).1
      exact ⟨r.1, r.2, notes.lookup_of_mem hmem, rfl⟩
    · exact absurd h (by simp)

/-- **A load** fills its slice, leaves every array at least as long, and reads no text but those
of the rows. -/
theorem appendRows_ready (hempty : P []) (h : Ready env P n w) (o : ListOutcome)
    (q : SelectQuery) (params : List Bytes)
    {p : (Slice × Option GoError) × Heap Note × DatabaseManager}
    (hp : w.dbManager.appendRows env.growth w.heap o (o.query q params w.notes) = p) :
    Grows w (w.tick.setListing p.2.1 p.2.2) ∧ Ready env P n (w.tick.setListing p.2.1 p.2.2) ∧
      p.1.1.len ≤ p.2.1.cap p.1.1 := by
  have hdb : p.2.2.db = w.dbManager.db := by
    rw [← hp]
    exact appendRows_db ..
  have hrows : ∀ k e, (w.tick.setListing p.2.1 p.2.2).notes.lookup k = some e → P e.text := by
    show ∀ k e, p.2.2.db.notes.lookup k = some e → _
    rw [hdb]
    exact h.rows
  cases hquery : o.query q params w.notes with
  | error err =>
    rw [hquery] at hp
    subst hp
    exact ⟨grows_of_eq rfl, ⟨hrows, h.cells, h.tokens⟩, Nat.zero_le _⟩
  | ok rows =>
    rw [hquery] at hp
    subst hp
    refine ⟨Heap.length_cells_rewrite _ _ _ _, ⟨hrows, fun a x hx => ?_, h.tokens⟩,
      (rewrite_elements _ _ _ _).2⟩
    rcases Heap.mem_cells_rewrite _ _ _ _ hx with ⟨b, hold⟩ | hread | hdefault
    · exact h.cells b x hold
    · rcases notesRead_text hread with hnone | ⟨row, hrow, htext⟩
      · rw [hnone]
        exact hempty
      · obtain ⟨k, e, he, hrowtext⟩ := text_of_query hquery hrow
        rw [htext, Option.some.injEq] at hrowtext
        rw [hrowtext]
        exact h.rows k e he
    · rw [hdefault]
      exact hempty

/-- A listing whose statement cannot be prepared gets an empty array of its own. -/
theorem cells_alloc_nil (heap : Heap Note) (a : ℕ) :
    (⟨heap.arrays ++ [[]]⟩ : Heap Note).cells a = heap.cells a := by
  rcases Nat.lt_trichotomy a heap.arrays.length with ha | rfl | ha
  · exact Heap.cells_alloc_old heap ha []
  · rw [Heap.cells_alloc_new, Heap.cells_of_le heap le_rfl]
  · rw [Heap.cells_of_le heap ha.le, Heap.cells_of_le _ (by rw [List.length_append]; exact ha)]

theorem loadNotesWhere_ready (hempty : P []) (h : Ready env P n w) (o : ListOutcome)
    (q : SelectQuery) (params : List Bytes)
    {p : (Slice × Option GoError) × Heap Note × DatabaseManager}
    (hp : w.dbManager.loadNotesWhere env.growth w.heap o q params = p) :
    Grows w (w.tick.setListing p.2.1 p.2.2) ∧ Ready env P n (w.tick.setListing p.2.1 p.2.2) ∧
      p.1.1.len ≤ p.2.1.cap p.1.1 := by
  cases hprepare : o.prepareErr with
  | some err =>
    rw [DatabaseManager.loadNotesWhere, hprepare] at hp
    subst hp
    refine ⟨fun a => ?_, ⟨h.rows, fun a x hx => ?_, h.tokens⟩, Nat.zero_le _⟩
    · exact (congrArg List.length (cells_alloc_nil w.heap a)).ge
    · exact h.cells a x (by rw [← cells_alloc_nil w.heap a]; exact hx)
  | none =>
    rw [DatabaseManager.loadNotesWhere, hprepare] at hp
    exact appendRows_ready hempty h o q params hp

/-- **Every call that is allowed is answered**, keeps the state ready, and is good for what is
promised. -/
theorem handle_answers (hempty : P []) {t : ℕ} {c : Call} (h : Ready env P (n + cost c) w)
    (hc : Allowed P c w) : ∃ r w', handle env t c w = some (r, w') ∧ Grows w w' ∧ Ready env P n w' ∧
      Promised P c r w' := by
  have hwrite {c : Call} {r : c.Result} {w' : World} (hop : handle env t c w = some (r, w'))
      (hc : Allowed P c w) (hload : ConcurrentListings.isLoad c = false)
      (h : Ready env P n w) (hdrawn : w'.drawn = w.drawn) : Grows w w' ∧ Ready env P n w' := by
    have hheap := (ConcurrentListings.handle_arrays hop hload).1
    refine ⟨grows_of_eq hheap, ⟨?_, by rw [hheap]; exact h.cells, by rw [hdrawn]; exact h.tokens⟩⟩
    rcases handle_notes hop with hsame | heffect
    · rw [hsame]
      exact h.rows
    · rw [heffect]
      exact text_effect hc h.rows
  cases c with
  | generateSynchronizedToken =>
    obtain ⟨s, drawn', hs, hrest⟩ := h.tokens
    refine ⟨_, _, Option.map_eq_some_iff.mpr ⟨_, Option.map_eq_some_iff.mpr ⟨_, hs, rfl⟩, rfl⟩,
      grows_of_eq rfl, ⟨h.rows, h.cells, hrest⟩, trivial⟩
  | addNote x =>
    obtain ⟨hgrows, hready⟩ := hwrite (c := .addNote x) rfl hc rfl h rfl
    exact ⟨_, _, rfl, hgrows, hready, trivial⟩
  | updateNote x =>
    obtain ⟨hgrows, hready⟩ := hwrite (c := .updateNote x) rfl hc rfl h rfl
    exact ⟨_, _, rfl, hgrows, hready, trivial⟩
  | deleteNote noteID =>
    obtain ⟨hgrows, hready⟩ := hwrite (c := .deleteNote noteID) rfl hc rfl h rfl
    exact ⟨_, _, rfl, hgrows, hready, trivial⟩
  | getNote noteID =>
    refine ⟨_, _, rfl, grows_of_eq rfl, h.same rfl rfl rfl, fun x hx => ?_⟩
    obtain ⟨e, he, rfl⟩ := getNote_ok hx
    exact h.rows noteID e he
  | loadNotes =>
    obtain ⟨hgrows, hready, hlen⟩ := appendRows_ready hempty (n := n) h (env.listOutcome w.calls)
      .selectNotesQS [] rfl
    exact ⟨_, _, rfl, hgrows, hready, hlen⟩
  | loadNotesWhere q params =>
    obtain ⟨hgrows, hready, hlen⟩ :=
      loadNotesWhere_ready hempty (n := n) h (env.listOutcome w.calls) q params rfl
    exact ⟨_, _, rfl, hgrows, hready, hlen⟩
  | index notes i =>
    obtain ⟨hi, hcap⟩ := hc
    have hget : w.heap.index notes i =
        some ((w.heap.cells notes.array).get ⟨i, hi.trans_le hcap⟩) := by
      rw [Heap.index, if_pos hi]
      exact List.getElem?_eq_getElem _
    refine ⟨_, _, Option.map_eq_some_iff.mpr ⟨_, hget, rfl⟩, grows_of_eq rfl,
      h.same rfl rfl rfl, ?_⟩
    exact h.cells _ _ (List.get_mem _ _)
  | executeTemplate page =>
    rw [handle]
    split
    · exact ⟨_, _, rfl, grows_of_eq rfl, h.same rfl rfl rfl, trivial⟩
    · exact ⟨_, _, rfl, grows_of_eq rfl, h.same rfl rfl rfl, trivial⟩
  | hang => exact hc.elim
  | _ => exact ⟨_, _, rfl, grows_of_eq rfl, h.same rfl rfl rfl, trivial⟩

/-- What the server's calls need and give, as a contract. -/
def serverContract (env : Env) {P : Bytes → Prop} (hempty : P []) : Contract (handle env) where
  inv := Ready env P
  rely := Grows
  cost := cost
  pre := Allowed P
  post := Promised P
  refl := fun _ _ => le_rfl
  trans := Grows.trans
  stable := Allowed.stable
  answers := handle_answers hempty

/-! ### The handlers -/

section Handlers

variable {hempty : P []} {b : ℕ}

/-- A handler meets the contract on so many tokens. -/
abbrev Serves (env : Env) {P : Bytes → Prop} (hempty : P []) (p : Prog Response) (b : ℕ)
    (w : World) : Prop :=
  Live (serverContract env hempty) p b w

/-- A call that needs nothing. -/
theorem serves_call {c : Call} {k : c.Result → Prog Response} (hcost : cost c = 0)
    (hc : Allowed P c w)
    (hk : ∀ r w', Grows w w' → Promised P c r w' → Serves env hempty (k r) b w') :
    Serves env hempty (.call c k) b w :=
  live_free hcost hc hk

theorem executePage_serves (page : Page) : Serves env hempty (executePage page) b w := by
  refine serves_call rfl trivial fun err _ _ _ => ?_
  cases err <;> trivial

theorem afterWrite_serves (url : Bytes) (err : Option GoError) :
    Serves env hempty (afterWrite url err) b w := by
  cases err <;> trivial

theorem checkToken_serves {form : Form} {invalid : Bytes} {rest : Prog Response}
    (hrest : ∀ w', Grows w w' → Serves env hempty rest b w') :
    Serves env hempty (checkToken form invalid rest) b w := by
  rw [checkToken]
  cases submittedToken form with
  | error err => trivial
  | ok token =>
    refine serves_call rfl trivial fun valid w' hw _ => ?_
    cases valid with
    | true => exact hrest w' hw
    | false => trivial

/-- **The loop over a listing** reads elements in range, and each of them can be turned into
HTML. -/
theorem renderNotes_serves (hP : ∀ text, P text → LoopEnds env text) {notes : Slice}
    {k : List HtmlNote → Prog Response}
    (hk : ∀ htmlNotes w', Serves env hempty (k htmlNotes) b w') {m : ℕ} (hm : m ≤ notes.len)
    (hcap : notes.len ≤ w.heap.cap notes) (htmlNotes : List HtmlNote) :
    Serves env hempty
      (renderNotes (noteToHtmlNote env.findAllString env.fuel) notes m htmlNotes >>= k) b w := by
  induction m generalizing w htmlNotes with
  | zero => exact hk htmlNotes w
  | succ m ih =>
    refine serves_call rfl ⟨by omega, hcap⟩ fun x w' hw hx => ?_
    obtain ⟨html, hhtml⟩ := noteToHtmlNote_ne_none (hP _ hx)
    show Serves env hempty (withHtml (noteToHtmlNote env.findAllString env.fuel x)
      (fun h => renderNotes _ notes m (htmlNotes ++ [h])) >>= k) b w'
    rw [hhtml]
    exact ih (by omega) (hcap.trans (hw notes.array)) (htmlNotes ++ [html])

theorem listing_serves (hP : ∀ text, P text → LoopEnds env text)
    {loaded : Slice × Option GoError} (filtered : Bool) (hcap : loaded.1.len ≤ w.heap.cap loaded.1) : Serves env hempty
      (listing (noteToHtmlNote env.findAllString env.fuel) filtered loaded) b w := by
  obtain ⟨notes, err⟩ := loaded
  cases err with
  | some err => trivial
  | none => exact renderNotes_serves hP (fun _ _ => executePage_serves _) le_rfl hcap []

theorem filteredIndexHandler_serves (hP : ∀ text, P text → LoopEnds env text) (q : SelectQuery)
    (params : List Bytes) : Serves env hempty
    (filteredIndexHandler (noteToHtmlNote env.findAllString env.fuel) q params) b w :=
  serves_call rfl trivial fun _ _ _ hcap => listing_serves hP true hcap

/-- A note is saved with the text that was found or the one that was submitted. -/
theorem saveFound_serves {noteID : ℤ} {foundNote : Note} {title text : Bytes}
    (hfound : P foundNote.text) (htext : P text) :
    Serves env hempty (saveFound noteID foundNote title text) b w := by
  have hdirty (dirtyBit : Bool) (saved : Note) (hsaved : P saved.text) (w : World) :
      Serves env hempty (saveIfDirty noteID (dirtyBit, saved)) b w := by
    cases dirtyBit with
    | false => trivial
    | true => exact serves_call rfl hsaved fun err _ _ _ => afterWrite_serves _ err
  have hsaveText (dirtyBit : Bool) (titled : Note) (htitled : P titled.text)
      (w : World) :
      Serves env hempty (saveText text (dirtyBit, titled) >>= saveIfDirty noteID) b w := by
    rw [saveText]
    split
    · exact serves_call rfl trivial fun now w' _ _ => hdirty true (titled.setText text now) htext w'
    · exact hdirty dirtyBit titled htitled w
  rw [saveFound, saveTitle]
  split
  · exact serves_call rfl trivial fun now w' _ _ =>
      hsaveText true (foundNote.setTitle title now) hfound w'
  · exact hsaveText false foundNote hfound w

/-- The routes that turn texts into HTML. -/
def RendersTexts : Route → Prop
  | .indexHandler => True
  | .noteDetailsHandler _ => True
  | .titleFilterHandler _ => True
  | .textFilterHandler _ => True
  | .bothFilterHandler _ => True
  | _ => False

/-- **The body of every route** meets the contract, on one token. -/
theorem body_serves {form : Form} (hform : P (formValue form (ascii "text"))) {route : Route}
    (hP : RendersTexts route → ∀ text, P text → LoopEnds env text) :
    Serves env hempty (route.body env form) 1 w := by
  cases route with
  | indexHandler =>
    exact serves_call rfl trivial fun _ _ _ hcap => listing_serves (hP trivial) false hcap
  | addNoteHandler =>
    exact ⟨trivial, le_rfl, fun _ _ _ _ => executePage_serves _⟩
  | newNoteHandler =>
    refine checkToken_serves fun _ _ => ?_
    refine serves_call rfl trivial fun _ _ _ _ => serves_call rfl trivial fun _ _ _ _ => ?_
    exact serves_call rfl hform fun err _ _ _ => afterWrite_serves _ err
  | preparePostHandler urlName noteID =>
    refine serves_call rfl trivial fun found _ _ _ => ?_
    cases found with
    | error err => trivial
    | ok foundNote => exact ⟨trivial, le_rfl, fun _ _ _ _ => executePage_serves _⟩
  | noteDetailsHandler noteID =>
    refine serves_call rfl trivial fun found w' _ hfound => ?_
    cases found with
    | error err => trivial
    | ok foundNote =>
      obtain ⟨html, hhtml⟩ := noteToHtmlNote_ne_none (hP trivial _ (hfound foundNote rfl))
      show Serves env hempty (withHtml (noteToHtmlNote env.findAllString env.fuel foundNote) _) 1 w'
      rw [hhtml]
      exact executePage_serves _
  | saveNoteHandler noteID =>
    refine serves_call rfl trivial fun found _ _ hfound => ?_
    cases found with
    | error err => trivial
    | ok foundNote =>
      exact checkToken_serves fun _ _ => saveFound_serves (hfound foundNote rfl) hform
  | deleteNoteHandler noteID =>
    refine checkToken_serves fun _ _ => ?_
    exact serves_call rfl trivial fun err _ _ _ => afterWrite_serves _ err
  | pasteBinNoteHandler noteID =>
    refine checkToken_serves fun _ _ => serves_call rfl trivial fun found _ _ _ => ?_
    cases found with
    | error err => trivial
    | ok foundNote =>
      refine serves_call rfl trivial fun output _ _ _ => ?_
      cases output <;> trivial
  | titleFilterHandler filterInput => exact filteredIndexHandler_serves (hP trivial) _ _
  | textFilterHandler filterInput => exact filteredIndexHandler_serves (hP trivial) _ _
  | bothFilterHandler filterInput => exact filteredIndexHandler_serves (hP trivial) _ _
  | notFound => trivial

theorem serveHTTP_serves {request : Request} (hform : P (formValue request.form (ascii "text")))
    (hP : RendersTexts (routed request.path) → ∀ text, P text → LoopEnds env text) :
    Serves env hempty (serveHTTP env request) 1 w := by
  rcases serveHTTP_cases env request with ⟨_, hserve | ⟨url, hserve⟩⟩ | ⟨message, hserve⟩
  · rw [hserve]
    trivial
  · rw [hserve]
    trivial
  · rw [hserve]
    refine serves_call rfl trivial fun tooMany _ _ _ => ?_
    cases tooMany with
    | true => trivial
    | false => exact body_serves hform hP

end Handlers

/-! ### Every request is answered -/

/-- The texts that a server starts with, and those that are submitted to it. -/
def textsOf (notes : NotesTable) (requests : List Request) : List Bytes :=
  (notes.rows.map fun r => r.2.text) ++
    requests.map fun request => formValue request.form (ascii "text")

/-- Requests on a ready state are covered by its tokens. -/
theorem covered_pool (hempty : P []) (hP : ∀ text, P text → LoopEnds env text)
    {requests : List Request} (hw : Ready env P requests.length w)
    (hforms : ∀ request ∈ requests, P (formValue request.form (ascii "text"))) :
    Covered (serverContract env hempty) (pool env requests w) := by
  refine ⟨fun _ => 1, ?_, fun t p ht => ?_⟩
  · show Ready env P (∑ _t ∈ Finset.range (requests.map (serveHTTP env)).length, 1) w
    rw [List.length_map, Finset.sum_const, Finset.card_range, smul_eq_mul, Nat.mul_one]
    exact hw
  · obtain ⟨request, hrequest, rfl⟩ := List.mem_map.mp (List.mem_of_getElem? ht)
    exact serveHTTP_serves (hforms request hrequest) fun _ => hP

/-- Enough fuel for the tokens and for the texts. -/
theorem alwaysReturns_of_ends {env : Env} {notes : NotesTable} {requests : List Request}
    (htokens : Supplies env.int63 env.fuel requests.length 0)
    (hends : ∀ text ∈ [] :: textsOf notes requests, LoopEnds env text) :
    AlwaysReturns (handle env) (pool env requests (World.initial notes)) := by
  rw [List.forall_mem_cons, textsOf, List.forall_mem_append] at hends
  obtain ⟨hnil, hrows, hforms⟩ := hends
  have hready : Ready env (LoopEnds env) requests.length (World.initial notes) := by
    refine ⟨fun k e he => ?_, fun a x hx => ?_, htokens⟩
    · exact hrows _ (List.mem_map.mpr ⟨(k, e), notes.mem_of_lookup he, rfl⟩)
    · have hcells : (World.initial notes).heap.cells a = [] := by
        cases a <;> rfl
      rw [hcells] at hx
      exact absurd hx List.not_mem_nil
  refine (covered_pool hnil (fun _ => id) hready fun request hrequest => ?_).alwaysReturns
  exact hforms _ (List.mem_map.mpr ⟨request, hrequest, rfl⟩)

/-- Some fuel is enough, and more of it changes nothing. -/
theorem exists_alwaysReturns {env : Env} (hdraws : LettersNeverEnd env.int63) {notes : NotesTable}
    {requests : List Request}
    (htexts : ∀ text ∈ [] :: textsOf notes requests, Terminates env.findAllString text) :
    ∃ fuel₀, ∀ fuel, fuel₀ ≤ fuel → AlwaysReturns (handle (withFuel env fuel))
      (pool (withFuel env fuel) requests (World.initial notes)) := by
  obtain ⟨fuel₁, htokens⟩ := exists_supplies hdraws requests.length 0
  obtain ⟨fuel₂, hends⟩ := exists_loopEnds htexts
  exact ⟨max fuel₁ fuel₂, fun fuel hfuel =>
    alwaysReturns_of_ends (htokens fuel (by omega)) (hends fuel (by omega))⟩

/-- **Every request is answered, in every interleaving**, when the draws never run out of letters
and the loop of `partialHtmlParser` ends on the empty text and on every text that is stored or
submitted; more fuel than enough changes nothing. -/
theorem requests_answered (env : Env) (hdraws : LettersNeverEnd env.int63)
    (hempty : Terminates env.findAllString []) (notes : NotesTable) (requests : List Request)
    (htexts : ∀ text ∈ textsOf notes requests, Terminates env.findAllString text) :
    ∃ fuel₀, ∀ fuel, fuel₀ ≤ fuel → AlwaysReturns (handle (withFuel env fuel))
      (pool (withFuel env fuel) requests (World.initial notes)) :=
  exists_alwaysReturns hdraws (List.forall_mem_cons.mpr ⟨hempty, htexts⟩)

theorem lettersNeverEnd_quiet : LettersNeverEnd quiet.int63 :=
  fun drawn => ⟨drawn, le_rfl, 0, List.mem_map.mpr ⟨0, by decide, by simp [quiet]⟩, rfl⟩

/-- The quiet environment with the pattern for links. -/
def linking : Env :=
  { quiet with
    findAllString := LinkPattern.findAllString LinkPattern.asciiUnicode LinkPattern.pseudoTLDs }

/-- Two links in the text of note 1. -/
def linkedNote : NotesTable :=
  RowTable.empty.insert ⟨ascii "a", ascii "see http://a.b, b.bit", 0, 0⟩

theorem terminates_linking {text : Bytes}
    (h : (∀ b ∈ text, b.toNat < 128) ∧ LinkGaps.ColonsApart text) :
    Terminates linking.findAllString text :=
  LinkGaps.terminates_of_plain _ _ h.1 h.2

theorem requests_answered_linkedNote : ∃ fuel₀, ∀ fuel, fuel₀ ≤ fuel →
    AlwaysReturns (handle (withFuel linking fuel)) (pool (withFuel linking fuel)
      [⟨ascii "/", []⟩, ⟨ascii "/NewNote/", [(ascii "text", ascii "http://c.d/e f.bit")]⟩,
        ⟨ascii "/Note/1", []⟩] (World.initial linkedNote)) := by
  refine requests_answered linking lettersNeverEnd_quiet (terminates_linking (by decide +kernel))
    linkedNote _ fun text ht => terminates_linking ?_
  revert text
  decide +kernel

/-- **The server of plain texts**, with the pattern for links that it has: when all texts are ASCII
and have no colon before a colon, a letter, a digit or an underscore. -/
theorem plainText_requests_answered (u : LinkPattern.Unicode) (gtld : LinkPattern.Gtld) (env : Env)
    (hfind : env.findAllString = LinkPattern.findAllString u gtld)
    (hdraws : LettersNeverEnd env.int63) (notes : NotesTable) (requests : List Request)
    (htexts : ∀ text ∈ textsOf notes requests,
      (∀ b ∈ text, b.toNat < 128) ∧ LinkGaps.ColonsApart text) :
    ∃ fuel₀, ∀ fuel, fuel₀ ≤ fuel → AlwaysReturns (handle (withFuel env fuel))
      (pool (withFuel env fuel) requests (World.initial notes)) := by
  have hplain {text : Bytes} (hascii : ∀ b ∈ text, b.toNat < 128)
      (hcolons : LinkGaps.ColonsApart text) : Terminates env.findAllString text := by
    rw [hfind]
    exact LinkGaps.terminates_of_plain u gtld hascii hcolons
  refine exists_alwaysReturns hdraws (List.forall_mem_cons.mpr ⟨?_, fun text ht => ?_⟩)
  · exact hplain (fun _ h => absurd h List.not_mem_nil) List.IsChain.nil
  · exact hplain (htexts text ht).1 (htexts text ht).2

theorem plainText_requests_answered_links : ∃ fuel₀, ∀ fuel, fuel₀ ≤ fuel →
    AlwaysReturns (handle (withFuel linking fuel)) (pool (withFuel linking fuel)
      [⟨ascii "/", []⟩, ⟨ascii "/NewNote/", [(ascii "text", ascii "see http://a.b, b.bit")]⟩]
      (World.initial twoNotes)) :=
  plainText_requests_answered _ _ linking rfl lettersNeverEnd_quiet twoNotes _ (by decide +kernel)

/-! ### Which requests are answered -/

/-- The texts of the rows that a condition selects. -/
def textsWhere (condition : Entry → Bool) (notes : NotesTable) : List Bytes :=
  (selected condition notes).map fun r => r.2.text

/-- The texts that a route turns into HTML. -/
def rendered (notes : NotesTable) : Route → List Bytes
  | .indexHandler => textsWhere (fun _ => true) notes
  | .noteDetailsHandler noteID => (notes.lookup noteID).toList.map Entry.text
  | .titleFilterHandler input =>
    textsWhere (SelectQuery.condition .selectNotesWhereTitleQS [likePattern input]) notes
  | .textFilterHandler input =>
    textsWhere (SelectQuery.condition .selectNotesWhereTextQS [likePattern input]) notes
  | .bothFilterHandler input =>
    textsWhere (SelectQuery.condition .selectNotesWhereBothQS [likePattern input, likePattern input])
      notes
  | _ => []

theorem rendered_eq_nil {route : Route} (h : ¬RendersTexts route) (notes : NotesTable) :
    rendered notes route = [] := by
  cases route with
  | indexHandler => exact absurd trivial h
  | noteDetailsHandler noteID => exact absurd trivial h
  | titleFilterHandler input => exact absurd trivial h
  | textFilterHandler input => exact absurd trivial h
  | bothFilterHandler input => exact absurd trivial h
  | _ => rfl

section Answered

variable {t : ℕ}

theorem listing_answered_iff {s : Slice} {condition : Entry → Bool} {notes : NotesTable}
    (hholds : Holds w s condition notes) (filtered : Bool) :
    (∃ a, Answers env t
      (listing (noteToHtmlNote env.findAllString env.fuel) filtered (s, none)) w a) ↔
        ∀ text ∈ textsWhere condition notes, LoopEnds env text := by
  obtain ⟨helements, hlen⟩ := hholds
  have hanswers (a : Response) := @answers_renderNotes env t w a
    (noteToHtmlNote env.findAllString env.fuel) s _ (List.suffix_refl (w.heap.elements s)) hlen
    filtered []
  rw [hlen] at hanswers
  rw [textsWhere, List.forall_mem_map]
  constructor
  · intro ⟨a, ha⟩
    obtain ⟨htmlNotes, hforall, _⟩ := (hanswers a).mp ha
    rw [helements] at hforall
    exact (forall₂_toHtml hforall).1
  · intro hends
    obtain ⟨htmlNotes, hforall⟩ := exists_toHtml hends
    exact ⟨_, (hanswers _).mpr ⟨htmlNotes, by rw [helements]; exact hforall, rfl⟩⟩

/-- A body that loads a listing and shows it. -/
theorem load_answered_iff {c : Call} {k : c.Result → Prog Response} {r : c.Result} {w₁ : World}
    {s : Slice} {condition : Entry → Bool} {notes : NotesTable} {filtered : Bool}
    (hop : handle env t c w = some (r, w₁))
    (hk : k r = listing (noteToHtmlNote env.findAllString env.fuel) filtered (s, none))
    (hholds : Holds w₁ s condition notes) :
    (∃ a, Answers env t (.call c k) w a) ↔
      ∀ text ∈ textsWhere condition notes, LoopEnds env text := by
  rw [← listing_answered_iff (t := t) hholds filtered, ← hk]
  simp only [answers_call hop]

variable (hdb : env.DatabaseSucceeds)

include hdb

theorem filter_answered_iff {q : SelectQuery} {params : List Bytes}
    (hparams : params.length = q.numInput) :
    (∃ a, Answers env t
      (filteredIndexHandler (noteToHtmlNote env.findAllString env.fuel) q params) w a) ↔
        ∀ text ∈ textsWhere (q.condition params) w.notes, LoopEnds env text := by
  obtain ⟨s, w₁, hop, hholds⟩ := loadNotesWhere_holds (t := t) (w := w) hdb hparams
  exact load_answered_iff hop rfl hholds

/-- **The body of a route that shows texts** is answered when the loop ends on each of them. -/
theorem body_answered_iff {route : Route} (hroute : RendersTexts route) (form : Form) :
    (∃ a, Answers env t (route.body env form) w a) ↔
      ∀ text ∈ rendered w.notes route, LoopEnds env text := by
  cases route with
  | indexHandler =>
    obtain ⟨s, w₁, hop, hholds⟩ := loadNotes_holds (t := t) (w := w) hdb
    exact load_answered_iff hop rfl hholds
  | titleFilterHandler input => exact filter_answered_iff hdb rfl
  | textFilterHandler input => exact filter_answered_iff hdb rfl
  | bothFilterHandler input => exact filter_answered_iff hdb rfl
  | noteDetailsHandler noteID =>
    obtain ⟨r, w₁, hop⟩ : ∃ r w₁, handle env t (.getNote noteID) w = some (r, w₁) := ⟨_, _, rfl⟩
    obtain ⟨_, hr⟩ := getNote_succeeds hdb hop
    have hbody (a : Response) :
        Answers env t ((Route.noteDetailsHandler noteID).body env form) w a ↔ _ := answers_call hop
    simp only [hbody, rendered]
    cases hrow : w.notes.lookup noteID with
    | none =>
      rw [hrow] at hr
      subst hr
      exact iff_of_true ⟨_, answers_ret.mpr rfl⟩ fun _ hx => absurd hx List.not_mem_nil
    | some e =>
      rw [hrow] at hr
      subst hr
      show (∃ a, Answers env t (withHtml (noteToHtmlNote env.findAllString env.fuel
        (noteOf noteID e)) _) w₁ a) ↔ ∀ text ∈ [e.text], LoopEnds env text
      rw [List.forall_mem_singleton]
      cases hhtml : noteToHtmlNote env.findAllString env.fuel (noteOf noteID e) with
      | none =>
        refine iff_of_false ?_ fun hends => ?_
        · rintro ⟨a, es, w', hrun⟩
          obtain ⟨r, _⟩ := (run_call_iff (handle env) t .hang _ w₁ w' a es).mp hrun
          exact r.elim
        · obtain ⟨html, hsome⟩ := noteToHtmlNote_ne_none (n := noteOf noteID e) hends
          exact absurd (hhtml.symm.trans hsome) (by simp)
      | some html =>
        refine iff_of_true ⟨_, (answers_executePage noteTemplate_mem).mpr rfl⟩ fun hnone => ?_
        rw [noteToHtmlNote, Option.map_eq_some_iff] at hhtml
        obtain ⟨out, hout, _⟩ := hhtml
        exact absurd (hnone.symm.trans hout) (by simp)
  | _ => exact hroute.elim

end Answered

/-- The bodies of the other routes are answered as long as there are letters for a token. -/
theorem other_answered {route : Route} (hroute : ¬RendersTexts route)
    (hsupply : Supplies env.int63 env.fuel 1 w.drawn) (t : ℕ) (form : Form) :
    ∃ a, Answers env t (route.body env form) w a := by
  have hready : Ready env (fun _ => True) (0 + 1) w :=
    ⟨fun _ _ _ => trivial, fun _ _ _ => trivial, hsupply⟩
  have hserves : Serves env (P := fun _ => True) trivial (route.body env form) 1 w :=
    body_serves trivial fun h => absurd h hroute
  obtain ⟨a, es, w', hrun⟩ := hserves.run (t := t) hready
  exact ⟨a, es, w', hrun⟩

/-- The state in which the limiter leaves a request that it lets through. -/
def letIn (env : Env) (w : World) : World :=
  { w.tick with
    lastRequestTime := (Calls.tooManyRequests w.lastRequestTime (wrapInt64 (env.clock w.calls))).2 }

theorem limited_answered_iff {t : ℕ} {message : Bytes} {rest : Prog Response} :
    (∃ a, Answers env t (limited message rest) w a) ↔
      limiterRefuses env w = true ∨ ∃ a, Answers env t rest (letIn env w) a := by
  have hop : handle env t .tooManyRequests w = some (limiterRefuses env w, letIn env w) := rfl
  have hlimited (a : Response) : Answers env t (limited message rest) w a ↔ _ := answers_call hop
  simp only [hlimited]
  cases limiterRefuses env w with
  | true => exact iff_of_true ⟨_, answers_ret.mpr rfl⟩ (Or.inl rfl)
  | false =>
    rw [or_iff_right (by decide)]
    rfl

theorem withFuel_succeeds {env : Env} (hdb : env.DatabaseSucceeds) (fuel : ℕ) :
    (withFuel env fuel).DatabaseSucceeds := ⟨hdb.tx, hdb.lookup, hdb.list⟩

/-- A request that is answered shows no text on which the loop does not end. -/
theorem terminates_of_answers {env : Env} (hdb : env.DatabaseSucceeds) {request : Request}
    {t fuel : ℕ} {w : World} {a : Response}
    (h : Answers (withFuel env fuel) t (serveHTTP (withFuel env fuel) request) w a) :
    limiterRefuses env w = true ∨
      ∀ text ∈ rendered w.notes (routed request.path), Terminates env.findAllString text := by
  rcases serveHTTP_cases (withFuel env fuel) request with ⟨hnot, _⟩ | ⟨message, hserve⟩
  · right
    rw [hnot]
    exact fun text hx => absurd hx List.not_mem_nil
  · have ha := Exists.intro a h
    rw [hserve, limited_answered_iff] at ha
    refine ha.imp id fun hbody text hx => ?_
    by_cases hroute : RendersTexts (routed request.path)
    · have hends := (body_answered_iff (withFuel_succeeds hdb fuel) hroute _).mp hbody text hx
      exact ⟨fuel, Option.ne_none_iff_exists'.mp hends⟩
    · rw [rendered_eq_nil hroute] at hx
      exact absurd hx List.not_mem_nil

/-- **A request is answered** exactly when it is refused by the rate limiter or the loop ends on
every text that its page shows. -/
theorem answered_iff {env : Env} (hdb : env.DatabaseSucceeds) (hdraws : LettersNeverEnd env.int63)
    (request : Request) (t : ℕ) (w : World) :
    (∃ fuel a, Answers (withFuel env fuel) t (serveHTTP (withFuel env fuel) request) w a) ↔
      limiterRefuses env w = true ∨
        ∀ text ∈ rendered w.notes (routed request.path), Terminates env.findAllString text := by
  constructor
  · intro ⟨fuel, a, ha⟩
    exact terminates_of_answers hdb ha
  · intro h
    obtain ⟨fuel, hbody⟩ : ∃ fuel, limiterRefuses env w = true ∨ ∃ a, Answers (withFuel env fuel) t
        ((routed request.path).body (withFuel env fuel) request.form) (letIn env w) a := by
      rcases h with hrefused | hends
      · exact ⟨0, Or.inl hrefused⟩
      · by_cases hroute : RendersTexts (routed request.path)
        · obtain ⟨fuel, hfuel⟩ := exists_loopEnds hends
          exact ⟨fuel, Or.inr
            ((body_answered_iff (withFuel_succeeds hdb fuel) hroute _).mpr (hfuel fuel le_rfl))⟩
        · obtain ⟨fuel, hfuel⟩ := exists_supplies hdraws 1 w.drawn
          exact ⟨fuel, Or.inr (other_answered hroute (hfuel fuel le_rfl) t _)⟩
    refine ⟨fuel, ?_⟩
    rcases serveHTTP_cases (withFuel env fuel) request with
      ⟨_, hserve | ⟨url, hserve⟩⟩ | ⟨message, hserve⟩
    · exact ⟨_, by rw [hserve]; exact answers_ret.mpr rfl⟩
    · exact ⟨_, by rw [hserve]; exact answers_ret.mpr rfl⟩
    · rw [hserve, limited_answered_iff]
      exact hbody

theorem linking_succeeds : linking.DatabaseSucceeds :=
  ⟨fun _ => rfl, fun _ => rfl, fun _ => rfl⟩

theorem answered_iff_details : ∃ fuel a, Answers (withFuel linking fuel) 0
    (serveHTTP (withFuel linking fuel) ⟨ascii "/Note/1", []⟩) (World.initial linkedNote) a := by
  have hrendered : rendered (World.initial linkedNote).notes (routed (ascii "/Note/1")) =
      [ascii "see http://a.b, b.bit"] := by
    decide
  refine (answered_iff linking_succeeds lettersNeverEnd_quiet _ 0 _).mpr (Or.inr ?_)
  rw [hrendered, List.forall_mem_singleton]
  exact terminates_linking (by decide +kernel)

/-! ### A text that blocks -/

/-- No accepted request of the run saves or deletes the note. -/
def LeftAlone (noteID : ℤ) (hs : List Handled) : Prop :=
  ∀ h ∈ hs, h.accepted = true → h.route ≠ .saveNoteHandler noteID ∧
    h.route ≠ .deleteNoteHandler noteID

/-- **A note stays as it is** until it is saved or deleted. -/
theorem Run.get_of_leftAlone {hs : List Handled} {m m' : NoteMap} {noteID : ℤ} {e : Entry}
    (hrun : Run hs m m') (he : m.get noteID = some e) (hleft : LeftAlone noteID hs) :
    m'.get noteID = some e := by
  induction hrun with
  | nil m => exact he
  | @snoc hs h m m' m'' _ hstep ih =>
    rw [LeftAlone, List.forall_mem_append, List.forall_mem_singleton] at hleft
    have hm' := ih he hleft.1
    cases haccepted : h.accepted with
    | false =>
      rw [hstep.rejected haccepted]
      exact hm'
    | true =>
      obtain ⟨hsave, hdelete⟩ := hleft.2 haccepted
      cases hroute : h.route with
      | newNoteHandler =>
        obtain ⟨_, k, _, _, _, hk, rfl⟩ := hstep.newNote hroute haccepted
        have hne : noteID ≠ k := by
          rintro rfl
          exact absurd (hm'.symm.trans hk) (by simp)
        rw [NoteMap.get_set, if_neg hne]
        exact hm'
      | saveNoteHandler k =>
        have hne : noteID ≠ k := fun h => hsave (hroute.trans (congrArg _ h.symm))
        obtain ⟨_, _, _, ⟨_, _, rfl⟩ | ⟨_, _, _, rfl⟩⟩ := hstep.saveNote k hroute haccepted
        · exact hm'
        · rw [NoteMap.get_set, if_neg hne]
          exact hm'
      | deleteNoteHandler k =>
        have hne : noteID ≠ k := fun h => hdelete (hroute.trans (congrArg _ h.symm))
        rw [(hstep.deleteNote k hroute haccepted).2, NoteMap.get_set, if_neg hne]
        exact hm'
      | _ =>
        rw [hstep.other (by rw [hroute]; exact id)]
        exact hm'

/-- A run of the server is a run of the machine. -/
theorem run_of_serveAll {env : Env} (hdb : env.DatabaseSucceeds) {notes : NotesTable}
    {requests : List Request} {served : List Served} {w : World}
    (hrun : serveAll env requests (World.initial notes) = some (served, w)) :
    Run (List.zipWith handled requests served) (abs notes) (abs w.notes) := by
  refine serveAll_induction (P := fun requests served w =>
    Run (List.zipWith handled requests served) (abs notes) (abs w.notes)) ?_ ?_ hrun
  · exact Run.nil (abs notes)
  intro requests served w request a es w' hbefore ih hlast
  rw [List.zipWith_append (serveAll_length hbefore).symm]
  exact ih.snoc (serveHTTP_step hdb hlast)

/-- **A note on which the loop does not end** blocks the index and its own page: after every run
that leaves the note alone they are never answered, unless the rate limiter refuses them. -/
theorem stored_loop_blocks {env : Env} (hdb : env.DatabaseSucceeds) {notes : NotesTable}
    {requests : List Request} {served : List Served} {w : World}
    (hrun : serveAll env requests (World.initial notes) = some (served, w)) {noteID : ℤ} {e : Entry}
    (he : notes.lookup noteID = some e) (hloop : ¬Terminates env.findAllString e.text)
    (hleft : LeftAlone noteID (List.zipWith handled requests served)) {request : Request}
    (hroute : routed request.path = .indexHandler ∨
      routed request.path = .noteDetailsHandler noteID) (hlet : limiterRefuses env w = false)
    (t fuel : ℕ) (a : Response) :
    ¬Answers (withFuel env fuel) t (serveHTTP (withFuel env fuel) request) w a := by
  intro hanswers
  have hstored : w.notes.lookup noteID = some e :=
    Run.get_of_leftAlone (run_of_serveAll hdb hrun) he hleft
  rcases terminates_of_answers hdb hanswers with hrefused | hends
  · rw [hlet] at hrefused
    exact absurd hrefused (by decide)
  · refine hloop (hends e.text ?_)
    rcases hroute with hindex | hdetails
    · rw [hindex, rendered, textsWhere, List.mem_map]
      exact ⟨(noteID, e), mem_selected.mpr ⟨hstored, rfl⟩, rfl⟩
    · rw [hdetails, rendered, hstored]
      exact List.mem_singleton.mpr rfl

/-- A note on whose text the loop does not end. -/
def loopNote : NotesTable := RowTable.empty.insert ⟨ascii "a", ascii "a.bit:b.bit", 0, 0⟩

instance (noteID : ℤ) (hs : List Handled) : Decidable (LeftAlone noteID hs) :=
  inferInstanceAs (Decidable (∀ h ∈ hs, _))

theorem stored_loop_blocks_index :
    ∃ served w, serveAll linking pageAndNote (World.initial loopNote) = some (served, w) ∧
      w.notes.rows.length = 2 ∧ ∀ fuel a,
        ¬Answers (withFuel linking fuel) 2
          (serveHTTP (withFuel linking fuel) ⟨ascii "/", []⟩) w a := by
  have hrows : (serveAll linking pageAndNote (World.initial loopNote)).map (fun p =>
      decide (p.2.notes.rows.length = 2 ∧ limiterRefuses linking p.2 = false ∧
        LeftAlone 1 (List.zipWith handled pageAndNote p.1))) = some true := by decide +kernel
  obtain ⟨⟨served, w⟩, hrun, hchecked⟩ := Option.map_eq_some_iff.mp hrows
  obtain ⟨hlen, hlet, hleft⟩ := of_decide_eq_true hchecked
  exact ⟨served, w, hrun, hlen, fun fuel a => stored_loop_blocks linking_succeeds hrun
    (by decide : loopNote.lookup 1 = some ⟨ascii "a", ascii "a.bit:b.bit", 0, 0⟩)
    LinkGaps.colon_loop.2 hleft (Or.inl (by decide)) hlet 2 fuel a⟩

end ShareNotes.Availability
