import ShareNotes.Lib.HtmlForm
import ShareNotes.TokenAuthenticity

/-!
# Every form that was served can be submitted

The four templates with a form write the token into two hidden inputs, with its
number in decimal. The number and the letters of the string come back unchanged
from an unmodified form, and the token manager still knows the token, as long as
its 64-bit counter has not come round; and no two pages share a number.
-/

namespace ShareNotes.FormPages

open ShareNotes.Lib.Decimal ShareNotes.Lib.KeyedRows ShareNotes.Lib.Interaction
open ShareNotes.Lib.Monitors ShareNotes.Lib.HtmlForm
open ShareNotes.Token ShareNotes.NoteRecord ShareNotes.Manager ShareNotes.Calls
open ShareNotes.Handlers ShareNotes.Routing ShareNotes.Runs ShareNotes.TokenAuthenticity

/-! ### The hidden fields -/

/-- The two lines of a form template that carry the token. -/
def hiddenInputs (token : SynchronizedToken) : List Bytes :=
  [hiddenInput (ascii "share_note_token_id") (formatDecimal token.id.toNat),
    hiddenInput (ascii "share_note_token_string") token.tokenString]

/-- A field as a browser sends it and the server reads it. -/
def submitField (field : Bytes × Bytes) : Option (Bytes × Bytes) :=
  (queryUnescape (urlEncode field.1)).bind fun name =>
    (queryUnescape (urlEncode field.2)).map fun value => (name, value)

/-- The form that arrives when the page's form is submitted with its hidden fields unmodified. -/
def unmodifiedForm (page : Page) : Form :=
  match pageToken page.data with
  | none => []
  | some token => (hiddenInputs token).filterMap fun html => (readInput html).bind submitField

theorem submitField_eq (field : Bytes × Bytes) : submitField field = some field := by
  rw [submitField, queryUnescape_urlEncode, queryUnescape_urlEncode]
  rfl

/-- Digits are carried unchanged. -/
theorem carried_formatDecimal (n : ℕ) : Carried (formatDecimal n) where
  ne_nil := formatDecimal_ne_nil n
  plain := by
    intro b hb
    have hdigit := isDigit_of_mem_formatDecimal hb
    refine ⟨?_, ?_, ?_⟩ <;> intro h <;> rw [h] at hdigit <;> exact absurd hdigit (by decide)

/-- The letters of token strings are carried unchanged. -/
theorem carried_letters {s : Bytes} (hlen : s.length = 100) (hs : ∀ b ∈ s, b ∈ characters) :
    Carried s where
  ne_nil := by
    intro h
    rw [h] at hlen
    exact absurd hlen (by decide)
  plain := by
    intro b hb
    have hmem := hs b hb
    refine ⟨?_, ?_, ?_⟩ <;> intro h <;> rw [h] at hmem <;> exact absurd hmem (by decide)

/-- The number of a token is read back. -/
theorem parseUint64_formatDecimal (id : UInt64) :
    parseUint64 (formatDecimal id.toNat) = .ok id := by
  have hparse : parseUint (2 ^ 64) (formatDecimal id.toNat) = .ok id.toNat :=
    parseUint_formatDecimal id.toNat_lt
  rw [parseUint64, hparse]
  exact congrArg Except.ok UInt64.ofNat_toNat

/-- The hidden fields arrive as they were written. -/
theorem unmodifiedForm_eq {page : Page} {token : SynchronizedToken}
    (hpage : pageToken page.data = some token) (hlen : token.tokenString.length = 100)
    (hletters : ∀ b ∈ token.tokenString, b ∈ characters) :
    unmodifiedForm page = tokenForm (formatDecimal token.id.toNat) token.tokenString := by
  have hid : readInput (hiddenInput (ascii "share_note_token_id")
      (formatDecimal token.id.toNat)) = some (_, _) :=
    readInput_hiddenInput (by decide) (carried_formatDecimal token.id.toNat)
  have hstring : readInput (hiddenInput (ascii "share_note_token_string")
      token.tokenString) = some (_, _) :=
    readInput_hiddenInput (by decide) (carried_letters hlen hletters)
  rw [unmodifiedForm, hpage]
  dsimp only
  rw [hiddenInputs, List.filterMap_cons, hid, List.filterMap_cons, hstring, Option.bind_some,
    Option.bind_some, submitField_eq, submitField_eq]
  rfl

/-- **An unmodified form submits its token.** -/
theorem submittedToken_unmodifiedForm {page : Page} {token : SynchronizedToken}
    (hpage : pageToken page.data = some token) (hlen : token.tokenString.length = 100)
    (hletters : ∀ b ∈ token.tokenString, b ∈ characters) :
    submittedToken (unmodifiedForm page) = .ok token := by
  have hform := unmodifiedForm_eq hpage hlen hletters
  have hidValue : formValue (unmodifiedForm page) (ascii "share_note_token_id") =
      formatDecimal token.id.toNat := by
    rw [hform]
    rfl
  have hstringValue : formValue (unmodifiedForm page) (ascii "share_note_token_string") =
      token.tokenString := by
    rw [hform]
    rfl
  rw [submittedToken, hidValue, hstringValue, parseUint64_formatDecimal]

/-! ### Runs -/

/-- The tokens generated in a run, request by request. -/
theorem issued_traceOf (served : List Served) :
    issued (traceOf served) = served.flatMap fun o => issued o.events := by
  rw [issued, traceOf, List.filterMap_flatMap]
  rfl

/-- Every page with a form carries a token that was generated for its own request. -/
theorem pages_carry {env : Env} {w₀ w : World} {requests : List Request} {served : List Served}
    (hrun : serveAll env requests w₀ = some (served, w)) :
    ∀ o ∈ served, ∀ page, o.answer = .page page → page.template ∈ formTemplates →
      ∃ token ∈ issued o.events, pageToken page.data = some token := by
  refine serveAll_induction (P := fun _ served _ => ∀ o ∈ served, ∀ page,
    o.answer = .page page → page.template ∈ formTemplates →
      ∃ token ∈ issued o.events, pageToken page.data = some token) ?_ ?_ hrun
  · intro o ho
    exact absurd ho List.not_mem_nil
  · intro requests served w request a es w' _ ih hlast o ho
    rw [List.mem_append, List.mem_singleton] at ho
    rcases ho with ho | ho
    · exact ih o ho
    · have hcarries := ((serveHTTP_guarded env ⟨false, []⟩ request).run
        (tokenGuard_fits env request.form requests.length) trivial hlast).1
      rw [ho, ← (after_tokenGuard request.form es).1]
      exact hcarries

/-- The numbers of the tokens of two requests differ. -/
theorem ids_ne {served : List Served} {sidm : SessionIDManager}
    (hI : IssuedBy sidm (issued (traceOf served)))
    (hcount : (issued (traceOf served)).length ≤ 2 ^ 64) {i j : ℕ} {o o' : Served}
    (hij : i < j) (hi : served[i]? = some o) (hj : served[j]? = some o')
    {token token' : SynchronizedToken} (ht : token ∈ issued o.events)
    (ht' : token' ∈ issued o'.events) : token.id ≠ token'.id := by
  have hnodup := hI.ids_nodup hcount
  rw [issued_traceOf, List.map_flatMap, List.nodup_flatMap] at hnodup
  obtain ⟨hilt, hio⟩ := List.getElem?_eq_some_iff.mp hi
  obtain ⟨hjlt, hjo⟩ := List.getElem?_eq_some_iff.mp hj
  have hdisjoint := List.pairwise_iff_getElem.mp hnodup.2 i j hilt hjlt hij
  rw [hio, hjo] at hdisjoint
  intro heq
  refine hdisjoint (List.mem_map_of_mem ht) ?_
  rw [heq]
  exact List.mem_map_of_mem ht'

/-- Request `i` was answered with a form page that carries the token. -/
def ServedForm (served : List Served) (i : ℕ) (token : SynchronizedToken) : Prop :=
  ∃ o page, served[i]? = some o ∧ o.answer = .page page ∧ page.template ∈ formTemplates ∧
    pageToken page.data = some token

/-- **Every form served stays submittable**, and no two pages carry the same number. -/
theorem forms_stay_submittable {env : Env} {notes : NotesTable} {requests : List Request}
    {served : List Served} {w : World}
    (hrun : serveAll env requests (World.initial notes) = some (served, w))
    (hcount : (issued (traceOf served)).length ≤ 2 ^ 64) :
    (∀ o ∈ served, ∀ page, o.answer = .page page → page.template ∈ formTemplates →
      ∃ token, pageToken page.data = some token ∧
        submittedToken (unmodifiedForm page) = .ok token ∧
        w.sidManager.synchronizedTokenIsValid token = true) ∧
      ∀ i j token token', i ≠ j → ServedForm served i token → ServedForm served j token' →
        token.id ≠ token'.id := by
  have hI := (issuedBy_run hrun).1
  have hcarry := pages_carry hrun
  constructor
  · intro o ho page hanswer htemplate
    obtain ⟨token, hgen, htoken⟩ := hcarry o ho page hanswer htemplate
    have hin : token ∈ issued (traceOf served) := by
      rw [issued_traceOf, List.mem_flatMap]
      exact ⟨o, ho, hgen⟩
    obtain ⟨hlen, hletters⟩ := hI.strings token hin
    exact ⟨token, htoken, submittedToken_unmodifiedForm htoken hlen hletters,
      hI.valid_of_mem hcount hin⟩
  · intro i j token token' hij ⟨o, page, hi, ha, hp, ht⟩ ⟨o', page', hj, ha', hp', ht'⟩
    obtain ⟨u, hu, hut⟩ := hcarry o (List.mem_of_getElem? hi) page ha hp
    obtain ⟨u', hu', hut'⟩ := hcarry o' (List.mem_of_getElem? hj) page' ha' hp'
    rw [ht, Option.some.injEq] at hut
    rw [ht', Option.some.injEq] at hut'
    subst hut hut'
    rcases Nat.lt_or_gt_of_ne hij with hlt | hgt
    · exact ids_ne hI hcount hlt hi hj hu hu'
    · exact (ids_ne hI hcount hgt hj hi hu' hu).symm

theorem forms_stay_submittable_pageAndNote :
    ∃ served w, serveAll quiet pageAndNote (World.initial RowTable.empty) = some (served, w) ∧
      ServedForm served 0 ⟨0, quietString⟩ ∧
      (∀ o ∈ served, ∀ page, o.answer = .page page → page.template ∈ formTemplates →
        ∃ token, pageToken page.data = some token ∧
          submittedToken (unmodifiedForm page) = .ok token ∧
          w.sidManager.synchronizedTokenIsValid token = true) ∧
      ∀ i j token token', i ≠ j → ServedForm served i token → ServedForm served j token' →
        token.id ≠ token'.id := by
  have hserve : (serveAll quiet pageAndNote (World.initial RowTable.empty)).map
      (fun p => ((issued (traceOf p.1)).length, (p.1[0]?).map fun o => o.answer)) =
      some (1, some (.page ⟨ascii "AddNote.html", .addNoteData ⟨0, quietString⟩⟩)) := by decide
  obtain ⟨⟨served, w⟩, hrun, hall⟩ := Option.map_eq_some_iff.mp hserve
  rw [Prod.mk.injEq, Option.map_eq_some_iff] at hall
  obtain ⟨hlen, o, ho, hanswer⟩ := hall
  have hcount : (issued (traceOf served)).length ≤ 2 ^ 64 := by
    rw [hlen]
    decide
  have hform : ServedForm served 0 ⟨0, quietString⟩ := ⟨o, _, ho, hanswer, by decide, rfl⟩
  exact ⟨served, w, hrun, hform, forms_stay_submittable hrun hcount⟩

end ShareNotes.FormPages
