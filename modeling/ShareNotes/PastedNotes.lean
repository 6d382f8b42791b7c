import ShareNotes.Lib.CurlForm
import ShareNotes.HandlerRuns
import ShareNotes.Effects

/-!
# What is pasted

`pasteBinNoteHandler` puts the text and the title of a note into arguments of
curl as they are. What curl posts is then read in the language of these
arguments: a text is posted as it stands if nothing in it is special there, and a
title, which the handler puts into double quotes, if it would not have to be
escaped.
-/

namespace ShareNotes.PastedNotes

open ShareNotes.Lib.Decimal ShareNotes.Lib.Interaction ShareNotes.Lib.CurlForm
open ShareNotes.NoteRecord ShareNotes.Manager ShareNotes.Calls ShareNotes.Handlers
open ShareNotes.Runs ShareNotes.Effects ShareNotes.HandlerRuns
open Program

/-- The ID behind the title. -/
def idSuffix (noteID : ℤ) : Bytes := ascii " (ID:" ++ itoa noteID ++ ascii ")"

/-- The fields of a note: its text, and its title with its ID. -/
def noteFields (noteID : ℤ) (title text : Bytes) : List (Option (Bytes × Part)) :=
  [some (ascii "content", .content text []),
    some (ascii "title", .content (title ++ idSuffix noteID) [])]

/-! ### The arguments of a note -/

theorem not_mem_itoa {b : UInt8} (hdigit : isDigit b = false) (hminus : b ≠ 45) (n : ℤ) :
    b ∉ itoa n := by
  have hformat (m : ℕ) : b ∉ formatDecimal m := by
    intro hmem
    rw [isDigit_of_mem_formatDecimal hmem] at hdigit
    exact absurd hdigit (by decide)
  cases n with
  | ofNat n => exact hformat n
  | negSucc n => exact List.not_mem_cons_of_ne_of_not_mem hminus (hformat (n + 1))

theorem not_mem_idSuffix {b : UInt8} (hdigit : isDigit b = false) (hminus : b ≠ 45)
    (hfront : b ∉ ascii " (ID:") (hback : b ∉ ascii ")") (noteID : ℤ) : b ∉ idSuffix noteID := by
  rw [idSuffix, List.mem_append, List.mem_append, not_or, not_or]
  exact ⟨⟨hfront, not_mem_itoa hdigit hminus noteID⟩, hback⟩

theorem readField_content (value : Bytes) :
    readField (ascii "content=" ++ value) = some (ascii "content", readValue value) := rfl

theorem readField_title (value : Bytes) :
    readField (ascii "title=" ++ value) = some (ascii "title", readValue value) := rfl

/-- The fields that the arguments of a note post. -/
theorem postedFields_curlArgs (n : Note) :
    postedFields (curlArgs n) = [some (ascii "content", readValue n.text),
      some (ascii "title", readValue (34 :: (n.title ++ (idSuffix n.noteID ++ [34]))))] := by
  have htitle : ascii "title=\"" ++ n.title ++ ascii " (ID:" ++ itoa n.noteID ++ ascii ")\"" =
      ascii "title=" ++ 34 :: (n.title ++ (idSuffix n.noteID ++ [34])) := by
    have hopen : ascii "title=\"" = ascii "title=" ++ [34] := rfl
    have hclose : ascii ")\"" = ascii ")" ++ [34] := rfl
    rw [hopen, hclose, idSuffix]
    simp only [List.append_assoc, List.cons_append]
    rfl
  rw [curlArgs, htitle]
  show [readField (ascii "content=" ++ n.text), readField (ascii "title=" ++ _)] = _
  rw [readField_content, readField_title]

/-- **The note is pasted as it is** exactly when its text is not special as a value and
its title can stand between quotes. -/
theorem noteFields_iff (n : Note) :
    postedFields (curlArgs n) = noteFields n.noteID n.title n.text ↔
      Literal n.text ∧ Quotable n.title := by
  have hne : idSuffix n.noteID ≠ [] := List.append_ne_nil_of_right_ne_nil _ (by decide)
  have htitle := readValue_quoted_iff hne
    (not_mem_idSuffix (by decide) (by decide) (by decide) (by decide) n.noteID)
    (not_mem_idSuffix (by decide) (by decide) (by decide) (by decide) n.noteID) n.title
  rw [postedFields_curlArgs, noteFields, ← readValue_eq_content_iff, ← htitle]
  simp

/-! ### The calls of curl -/

variable {env : Env} {t : ℕ} {w w' : World} {a : Response} {es : Trace}

/-- A call that is not the first one comes later. -/
theorem mem_of_op_ne {ev first : CallEvent} (hev : ev ∈ first :: es) (hne : ev.op ≠ first.op) :
    ev ∈ es := by
  rcases List.mem_cons.mp hev with heq | hlater
  · exact absurd (congrArg Event.op heq) hne
  · exact hlater

/-- Behind a token check only the rest calls curl. -/
theorem curl_behind_token {form : Form} {invalid : Bytes} {rest : Prog Response}
    (hrun : run (handle env) t (checkToken form invalid rest) w = some (a, es, w'))
    {ev : CallEvent} (hev : ev ∈ es) {args : List Bytes} (hcurl : ev.op = .runCurl args) :
    ∃ es', run (handle env) t rest w.tick = some (a, es', w') ∧ ev ∈ es' := by
  rw [checkToken] at hrun
  cases htoken : submittedToken form with
  | error err =>
    rw [htoken] at hrun
    rw [(of_run_ret hrun).2.1] at hev
    exact absurd hev List.not_mem_nil
  | ok token =>
    rw [htoken] at hrun
    obtain ⟨r, w₁, es', hop, hrest, rfl⟩ := (run_call_iff (handle env) t _ _ w w' a es).mp hrun
    rw [handle, Option.some.injEq, Prod.mk.injEq] at hop
    obtain ⟨_, rfl⟩ := hop
    have hlater : ev ∈ es' := mem_of_op_ne hev (by rw [hcurl]; simp)
    cases r with
    | true => exact ⟨es', hrest, hlater⟩
    | false =>
      rw [(of_run_ret hrest).2.1] at hlater
      exact absurd hlater List.not_mem_nil

/-- **curl is called with the arguments of the stored note.** -/
theorem curl_args {form : Form} {noteID : ℤ}
    (hrun : run (handle env) t (pasteBinNoteHandler form noteID) w = some (a, es, w'))
    {ev : CallEvent} (hev : ev ∈ es) {args : List Bytes} (hcurl : ev.op = .runCurl args) :
    ∃ e, w.notes.lookup noteID = some e ∧ args = curlArgs (noteOf noteID e) := by
  obtain ⟨es', hrest, hmem⟩ := curl_behind_token hrun hev hcurl
  obtain ⟨found, w₁, es'', hop, hk, rfl⟩ :=
    (run_call_iff (handle env) t (.getNote noteID) _ w.tick w' a es').mp hrest
  rw [handle, Option.some.injEq, Prod.mk.injEq] at hop
  have hlater : ev ∈ es'' := mem_of_op_ne hmem (by rw [hcurl]; simp)
  cases found with
  | error err =>
    rw [(of_run_ret hk).2.1] at hlater
    exact absurd hlater List.not_mem_nil
  | ok n =>
    obtain ⟨e, hrow, hn⟩ := getNote_ok hop.1
    obtain ⟨output, w₂, es₃, _, hend, rfl⟩ :=
      (run_call_iff (handle env) t (.runCurl (curlArgs n)) _ w₁ w' a es'').mp hk
    have hnone : es₃ = [] := by
      cases output with
      | error err => exact (of_run_ret hend).2.1
      | ok output => exact (of_run_ret hend).2.1
    rw [hnone, List.mem_singleton] at hlater
    rw [hlater] at hcurl
    exact ⟨e, hrow, by rw [← Call.runCurl.inj hcurl, hn]⟩

/-- **What is pasted is the note** exactly when its text is not special as a value of a
field and its title can stand between quotes. -/
theorem pasted_iff {form : Form} {noteID : ℤ}
    (hrun : run (handle env) t (pasteBinNoteHandler form noteID) w = some (a, es, w'))
    {ev : CallEvent} (hev : ev ∈ es) {args : List Bytes} (hcurl : ev.op = .runCurl args) :
    ∃ e, w.notes.lookup noteID = some e ∧
      (postedFields args = noteFields noteID e.title e.text ↔
        Literal e.text ∧ Quotable e.title) := by
  obtain ⟨e, hrow, hargs⟩ := curl_args hrun hev hcurl
  refine ⟨e, hrow, ?_⟩
  rw [hargs]
  exact noteFields_iff (noteOf noteID e)

/-- A state with one note and one token. -/
def storing (title text : Bytes) : World :=
  { World.initial (Lib.KeyedRows.RowTable.empty.insert ⟨title, text, 0, 0⟩) with
    sidManager := ⟨1, fun _ => some quietString⟩ }

/-- The note is confirmed, and curl is called. -/
theorem storing_runs (title text : Bytes) :
    ∃ a es w', run (handle quiet) 0
        (pasteBinNoteHandler (tokenForm (ascii "0") quietString) 1) (storing title text) =
          some (a, es, w') ∧
      ∃ ev ∈ es, ev.op = .runCurl (curlArgs ⟨1, title, text, 0, 0⟩) :=
  ⟨_, _, _, rfl, _, List.mem_cons_of_mem _ (List.mem_cons_of_mem _ List.mem_cons_self), rfl⟩

theorem pasted_iff_groceries :
    postedFields (curlArgs ⟨1, ascii "Groceries", ascii "milk, bread", 0, 0⟩) =
      noteFields 1 (ascii "Groceries") (ascii "milk, bread") := by
  obtain ⟨a, es, w', hrun, ev, hev, hcurl⟩ := storing_runs (ascii "Groceries") (ascii "milk, bread")
  obtain ⟨e, hrow, hiff⟩ := pasted_iff hrun hev hcurl
  have he : e = ⟨ascii "Groceries", ascii "milk, bread", 0, 0⟩ := (Option.some.inj hrow).symm
  rw [he] at hiff
  refine hiff.mpr ⟨⟨by decide, by decide, ?_, by decide⟩, by decide, by decide⟩
  intro b hb
  rcases hb with hfirst | hlast
  · rw [← Option.some.inj hfirst]
    decide
  · rw [← Option.some.inj hlast]
    decide

/-- A text that starts with `@` posts a file of the server. -/
theorem atSign_posts_file :
    ∃ a es w', run (handle quiet) 0
        (pasteBinNoteHandler (tokenForm (ascii "0") quietString) 1)
        (storing (ascii "Groceries") (ascii "@/etc/passwd")) = some (a, es, w') ∧
      ∃ ev ∈ es, ∃ args, ev.op = .runCurl args ∧
        postedFields args ≠ noteFields 1 (ascii "Groceries") (ascii "@/etc/passwd") ∧
        some (ascii "content", .fileUpload (ascii "/etc/passwd")) ∈ postedFields args := by
  obtain ⟨a, es, w', hrun, ev, hev, hcurl⟩ := storing_runs (ascii "Groceries") (ascii "@/etc/passwd")
  exact ⟨a, es, w', hrun, ev, hev, _, hcurl, by decide, by decide⟩

end ShareNotes.PastedNotes
