import ShareNotes.UrlGrammar

/-!
# Note IDs in paths

The program prints seven kinds of paths with the ID of a note in them, and two
regular expressions read the digits back. Every ID that an `int` can hold comes
back as it was. The digits of a path may denote a larger number, though, and both
wrappers drop the error of `strconv.Atoi`, so such a path addresses the note with
the largest ID.
-/

namespace ShareNotes.NotePaths

open ShareNotes.Lib.Decimal ShareNotes.Lib.Interaction
open ShareNotes.Calls ShareNotes.Handlers ShareNotes.Routing ShareNotes.UrlGrammar
open Program

/-- `/name/%d`. -/
def printed (name : Bytes) (noteID : ℤ) : Bytes := slashed name ++ itoa noteID

/-- The redirection of a saved note is one of the printed paths. -/
theorem notePath_eq (noteID : ℤ) : notePath noteID = printed (ascii "Note") noteID := rfl

/-- The names in `validNotePath`. -/
def noteNames : List Bytes :=
  [ascii "Note", ascii "ConfirmDeleteNote", ascii "SaveNote", ascii "ConfirmPasteBinNote"]

/-- The names in `validPreparePostPath`. -/
def prepareNames : List Bytes := [ascii "DeleteNote", ascii "EditNote", ascii "PasteBinNote"]

/-- One of the two expressions accepts the path and captures these two groups. -/
def Accepts (path name digits : Bytes) : Prop :=
  validNotePath path = some (name, digits) ∨ validPreparePostPath path = some (name, digits)

/-- Once the rate limiter lets the request through, the wrapper calls its function
with this number, whatever the function is. -/
def CalledWith {α : Type} (wrapper : (α → ℤ → Prog Response) → Request → Prog Response)
    (request : Request) (noteID : ℤ) : Prop :=
  ∃ arg, ∀ function, letThrough (wrapper function request) = function arg noteID

/-- The answer of the wrapper does not depend on its function. -/
def NotCalled {α : Type} (wrapper : (α → ℤ → Prog Response) → Request → Prog Response)
    (request : Request) : Prop :=
  ∃ answer, ∀ function, letThrough (wrapper function request) = answer

/-- The handler behind the path works on this note. -/
def Addresses (request : Request) (noteID : ℤ) : Prop :=
  CalledWith makeNoteIDHandler request noteID ∨ CalledWith makePreparePostHandler request noteID

/-! ### What the expressions accept -/

theorem slash_not_mem_names : ∀ name ∈ noteNames ++ prepareNames, 47 ∉ name := by decide

theorem slashed_of_isPrefixOf {name path : Bytes}
    (h : (ascii "/" ++ name ++ ascii "/").isPrefixOf path = true) :
    path = slashed name ++ path.drop (name.length + 2) := by
  obtain ⟨tail, htail⟩ := List.isPrefixOf_iff_prefix.mp h
  rw [← htail, ← slashed_length, slashed, List.drop_left]

/-- A path that is accepted consists of what was captured. -/
theorem of_findStringSubmatch {names : List Bytes} {cls : UInt8 → Bool} {path name tail : Bytes}
    (h : findStringSubmatch names cls path = some (name, tail)) :
    name ∈ names ∧ path = slashed name ++ tail ∧ tail ≠ [] ∧ tail.all cls = true := by
  rw [findStringSubmatch] at h
  obtain ⟨name', hmem, hname'⟩ := List.exists_of_findSome?_eq_some h
  split at hname'
  · rename_i b rest hstarts hdrop
    obtain ⟨hall, hcaptured⟩ := Option.ite_none_right_eq_some.mp hname'
    obtain ⟨rfl, rfl⟩ := Prod.mk.inj (Option.some.inj hcaptured)
    refine ⟨hmem, ?_, by simp, hall⟩
    rw [← hdrop]
    exact slashed_of_isPrefixOf hstarts
  · exact absurd hname' (by simp)

theorem accepts_iff {path name digits : Bytes} :
    Accepts path name digits ↔ name ∈ noteNames ++ prepareNames ∧ path = slashed name ++ digits ∧
      digits ≠ [] ∧ digits.all isDigit = true := by
  constructor
  · intro h
    rcases h with h | h
    · obtain ⟨hname, hrest⟩ := of_findStringSubmatch h
      exact ⟨List.mem_append_left _ hname, hrest⟩
    · obtain ⟨hname, hrest⟩ := of_findStringSubmatch h
      exact ⟨List.mem_append_right _ hname, hrest⟩
  · intro ⟨hname, hpath, hdigits⟩
    rw [hpath]
    rcases List.mem_append.mp hname with hnote | hprepare
    · left
      rw [validNotePath_slashed hnote, if_pos hdigits]
    · right
      rw [validPreparePostPath_slashed hprepare, if_pos hdigits]

/-- No path is accepted by both expressions. -/
theorem not_both {path name digits name' digits' : Bytes}
    (h : validNotePath path = some (name, digits))
    (h' : validPreparePostPath path = some (name', digits')) : False := by
  obtain ⟨hname, hpath, _⟩ := of_findStringSubmatch h
  obtain ⟨hname', hpath', _⟩ := of_findStringSubmatch h'
  rw [hpath] at hpath'
  have heq := (slashed_append_inj (slash_not_mem_names name (List.mem_append_left _ hname))
    (slash_not_mem_names name' (List.mem_append_right _ hname')) hpath').1
  have hdisjoint : ∀ n ∈ noteNames, n ∉ prepareNames := by decide
  exact hdisjoint name hname (heq ▸ hname')

/-! ### What the wrappers pass on -/

/-- `Atoi` with its error dropped saturates. -/
theorem atoi_digits {digits : Bytes} (hne : digits ≠ []) (hdigits : digits.all isDigit = true) :
    atoi digits = if denoted digits < 2 ^ 63 then (denoted digits : ℤ) else 2 ^ 63 - 1 := by
  rw [atoi, parseUint_digits hne (List.all_eq_true.mp hdigits) (by decide)]
  by_cases hfits : denoted digits < 2 ^ 63
  · rw [if_pos hfits, if_pos hfits]
  · rw [if_neg hfits, if_neg hfits]

theorem makeNoteIDHandler_accepted {request : Request} {name digits : Bytes}
    (h : validNotePath request.path = some (name, digits))
    (function : Form → ℤ → Prog Response) :
    letThrough (makeNoteIDHandler function request) = function request.form (atoi digits) := by
  rw [makeNoteIDHandler, h]
  rfl

theorem makeNoteIDHandler_rejected {request : Request} (h : validNotePath request.path = none)
    (function : Form → ℤ → Prog Response) :
    letThrough (makeNoteIDHandler function request) = pure .notFound := by
  rw [makeNoteIDHandler, h]
  rfl

theorem makePreparePostHandler_accepted {request : Request} {name digits : Bytes}
    (h : validPreparePostPath request.path = some (name, digits))
    (function : Bytes → ℤ → Prog Response) :
    letThrough (makePreparePostHandler function request) = function name (atoi digits) := by
  rw [makePreparePostHandler, h]
  rfl

theorem makePreparePostHandler_rejected {request : Request}
    (h : validPreparePostPath request.path = none) (function : Bytes → ℤ → Prog Response) :
    letThrough (makePreparePostHandler function request) = pure .notFound := by
  rw [makePreparePostHandler, h]
  rfl

/-- A function that answers with the number it is called with. -/
def echo {α : Type} (_ : α) (noteID : ℤ) : Prog Response := pure (.redirect (itoa noteID))

theorem echo_inj {α : Type} {a b : α} {m n : ℤ} (h : echo a m = echo b n) : m = n := by
  have hitoa : itoa m = itoa n := Response.redirect.inj (Program.ret.inj h)
  have hread := integerAffinity_itoa m
  rw [hitoa, integerAffinity_itoa] at hread
  exact (Option.some.inj hread).symm

/-- What a wrapper calls its function with, if it calls it, is one number. -/
theorem calledWith_iff {α : Type} {wrapper : (α → ℤ → Prog Response) → Request → Prog Response}
    {request : Request} {arg : α} {noteID : ℤ}
    (h : ∀ function, letThrough (wrapper function request) = function arg noteID) (n : ℤ) :
    CalledWith wrapper request n ↔ n = noteID := by
  constructor
  · intro ⟨_, hcalled⟩
    exact echo_inj ((hcalled echo).symm.trans (h echo))
  · intro hn
    exact ⟨arg, fun function => by rw [hn, h]⟩

theorem not_notCalled {α : Type} {wrapper : (α → ℤ → Prog Response) → Request → Prog Response}
    {request : Request} {arg : α} {noteID : ℤ}
    (h : ∀ function, letThrough (wrapper function request) = function arg noteID) :
    ¬NotCalled wrapper request := by
  intro ⟨answer, hanswer⟩
  have hecho : echo arg noteID = answer := (h echo).symm.trans (hanswer echo)
  have hnone : pure .notFound = answer :=
    (h fun _ _ => pure .notFound).symm.trans (hanswer fun _ _ => pure .notFound)
  rw [← hnone] at hecho
  exact absurd (Program.ret.inj hecho) (by simp)

theorem not_calledWith {α : Type} {wrapper : (α → ℤ → Prog Response) → Request → Prog Response}
    {request : Request} (h : ∀ function, letThrough (wrapper function request) = pure .notFound)
    (n : ℤ) : ¬CalledWith wrapper request n := by
  intro ⟨arg, hcalled⟩
  have hecho : pure .notFound = echo arg n := (h echo).symm.trans (hcalled echo)
  exact absurd (Program.ret.inj hecho) (by simp)

/-- **The note that a path addresses** is the number that `Atoi` leaves of its digits. -/
theorem addresses_iff {request : Request} {name digits : Bytes}
    (h : Accepts request.path name digits) (n : ℤ) :
    Addresses request n ↔ n = atoi digits := by
  rw [Addresses]
  rcases h with h | h
  · have hother : validPreparePostPath request.path = none := by
      by_contra hsome
      obtain ⟨p, hp⟩ := Option.ne_none_iff_exists'.mp hsome
      exact not_both h hp
    rw [calledWith_iff (makeNoteIDHandler_accepted h),
      or_iff_left (not_calledWith (makePreparePostHandler_rejected hother) n)]
  · have hother : validNotePath request.path = none := by
      by_contra hsome
      obtain ⟨p, hp⟩ := Option.ne_none_iff_exists'.mp hsome
      exact not_both hp h
    rw [calledWith_iff (makePreparePostHandler_accepted h),
      or_iff_right (not_calledWith (makeNoteIDHandler_rejected hother) n)]

/-! ### Both directions -/

/-- Every path that is printed for an ID is accepted and addresses the note with that ID. -/
def ReadBack (name : Bytes) : Prop :=
  ∀ noteID : ℤ, 0 ≤ noteID → noteID < 2 ^ 63 →
    Accepts (printed name noteID) name (itoa noteID) ∧
      ∀ form, Addresses ⟨printed name noteID, form⟩ noteID

/-- A path with a number in it addresses the note with just this number, or none. -/
def PassedOn (request : Request) : Prop :=
  ∀ name digits, Accepts request.path name digits → Addresses request (denoted digits) ∨
    NotCalled makeNoteIDHandler request ∧ NotCalled makePreparePostHandler request

/-- The number in the path is one that an `int` can hold. -/
def Fits (path : Bytes) : Prop :=
  ∀ name digits, Accepts path name digits → denoted digits < 2 ^ 63

/-- Paths that denote different numbers do not address one note. -/
def ToldApart (request request' : Request) : Prop :=
  ∀ name digits name' digits', Accepts request.path name digits →
    Accepts request'.path name' digits' → denoted digits ≠ denoted digits' →
    ∀ noteID, ¬(Addresses request noteID ∧ Addresses request' noteID)

/-- Of two different numbers in the paths one is below the largest that an `int` can hold. -/
def OneBelowLargest (path path' : Bytes) : Prop :=
  ∀ name digits name' digits', Accepts path name digits → Accepts path' name' digits' →
    denoted digits ≠ denoted digits' →
      denoted digits < 2 ^ 63 - 1 ∨ denoted digits' < 2 ^ 63 - 1

theorem Accepts.called {request : Request} {name digits : Bytes}
    (h : Accepts request.path name digits) :
    ¬(NotCalled makeNoteIDHandler request ∧ NotCalled makePreparePostHandler request) := by
  intro ⟨hnote, hprepare⟩
  rcases h with h | h
  · exact not_notCalled (makeNoteIDHandler_accepted h) hnote
  · exact not_notCalled (makePreparePostHandler_accepted h) hprepare

theorem Accepts.atoi_eq {path name digits : Bytes} (h : Accepts path name digits) :
    atoi digits = if denoted digits < 2 ^ 63 then (denoted digits : ℤ) else 2 ^ 63 - 1 := by
  obtain ⟨_, _, hne, hall⟩ := accepts_iff.mp h
  exact atoi_digits hne hall

theorem Accepts.atoi_eq_iff {path name digits : Bytes} (h : Accepts path name digits) :
    (denoted digits : ℤ) = atoi digits ↔ denoted digits < 2 ^ 63 := by
  rw [h.atoi_eq]
  split <;> omega

/-- Different numbers become one only where none of them is below the largest `int`. -/
theorem Accepts.atoi_ne_iff {path path' name digits name' digits' : Bytes}
    (h : Accepts path name digits) (h' : Accepts path' name' digits')
    (hne : denoted digits ≠ denoted digits') :
    atoi digits ≠ atoi digits' ↔
      denoted digits < 2 ^ 63 - 1 ∨ denoted digits' < 2 ^ 63 - 1 := by
  rw [h.atoi_eq, h'.atoi_eq]
  split <;> split <;> omega

/-- The digits of a number that an `int` can hold are read back. -/
theorem itoa_digits {noteID : ℤ} (hnonneg : 0 ≤ noteID) (hlt : noteID < 2 ^ 63) :
    itoa noteID ≠ [] ∧ (itoa noteID).all isDigit = true ∧ atoi (itoa noteID) = noteID := by
  obtain ⟨n, rfl⟩ := Int.eq_ofNat_of_zero_le hnonneg
  have hitoa : itoa n = formatDecimal n := rfl
  have hne : itoa n ≠ [] := by
    rw [hitoa]
    exact formatDecimal_ne_nil n
  have hdigits : (itoa n).all isDigit = true := by
    rw [hitoa, List.all_eq_true]
    exact fun c => isDigit_of_mem_formatDecimal
  refine ⟨hne, hdigits, ?_⟩
  have hdenoted : denoted (itoa n) = n := denoted_formatDecimal n
  rw [atoi_digits hne hdigits, hdenoted, if_pos (by omega)]

/-- **Every ID survives the path.** -/
theorem readBack {name : Bytes} (hname : name ∈ noteNames ++ prepareNames) : ReadBack name := by
  intro noteID hnonneg hlt
  obtain ⟨hne, hdigits, hatoi⟩ := itoa_digits hnonneg hlt
  have haccepts : Accepts (printed name noteID) name (itoa noteID) :=
    accepts_iff.mpr ⟨hname, rfl, hne, hdigits⟩
  refine ⟨haccepts, fun form => ?_⟩
  have hrequest : Accepts (Request.mk (printed name noteID) form).path name (itoa noteID) :=
    haccepts
  exact (addresses_iff hrequest noteID).mpr hatoi.symm

/-- The number is passed on where it fits. -/
theorem passedOn_iff (request : Request) : PassedOn request ↔ Fits request.path := by
  constructor
  · intro h name digits haccepts
    have haddress := (h name digits haccepts).resolve_right haccepts.called
    exact haccepts.atoi_eq_iff.mp ((addresses_iff haccepts _).mp haddress)
  · intro h name digits haccepts
    left
    exact (addresses_iff haccepts _).mpr (haccepts.atoi_eq_iff.mpr (h name digits haccepts))

theorem toldApart_iff (request request' : Request) :
    ToldApart request request' ↔ OneBelowLargest request.path request'.path := by
  constructor
  · intro h name digits name' digits' haccepts haccepts' hne
    rw [← haccepts.atoi_ne_iff haccepts' hne]
    intro heq
    refine h name digits name' digits' haccepts haccepts' hne (atoi digits) ⟨?_, ?_⟩
    · exact (addresses_iff haccepts _).mpr rfl
    · exact (addresses_iff haccepts' _).mpr heq
  · intro h name digits name' digits' haccepts haccepts' hne noteID ⟨haddress, haddress'⟩
    rw [addresses_iff haccepts] at haddress
    rw [addresses_iff haccepts'] at haddress'
    have hatoi := (haccepts.atoi_ne_iff haccepts' hne).mpr
      (h name digits name' digits' haccepts haccepts' hne)
    exact hatoi (haddress.symm.trans haddress')

/-- Two numbers that fit are told apart. -/
theorem oneBelowLargest {path path' : Bytes} (h : Fits path) (h' : Fits path') :
    OneBelowLargest path path' := by
  intro name digits name' digits' haccepts haccepts' hne
  have hfits := h name digits haccepts
  have hfits' := h' name' digits' haccepts'
  omega

/-- **Note IDs survive the path in both directions where they fit into an `int`.** -/
theorem noteIDs_survive (request request' : Request) :
    (∀ name ∈ noteNames ++ prepareNames, ReadBack name) ∧
      (PassedOn request ↔ Fits request.path) ∧
      (ToldApart request request' ↔ OneBelowLargest request.path request'.path) ∧
      (Fits request.path → Fits request'.path → ToldApart request request') :=
  ⟨fun _ hname => readBack hname, passedOn_iff request, toldApart_iff request request',
    fun h h' => (toldApart_iff request request').mpr (oneBelowLargest h h')⟩

theorem noteIDs_survive_twelve : Addresses ⟨ascii "/Note/12", []⟩ 12 :=
  ((noteIDs_survive ⟨ascii "/Note/12", []⟩ ⟨ascii "/Note/12", []⟩).1 (ascii "Note") (by decide) 12
    (by decide) (by decide)).2 []

/-- Two paths that delete notes, one of them for a number that no note can have. -/
theorem hugeNumber_addresses :
    ¬PassedOn ⟨ascii "/ConfirmDeleteNote/9223372036854775808", []⟩ ∧
      ¬ToldApart ⟨ascii "/ConfirmDeleteNote/9223372036854775808", []⟩
        ⟨ascii "/ConfirmDeleteNote/9223372036854775807", []⟩ := by
  have hhuge : Accepts (ascii "/ConfirmDeleteNote/9223372036854775808") (ascii "ConfirmDeleteNote")
      (ascii "9223372036854775808") := Or.inl (by decide)
  have hlargest : Accepts (ascii "/ConfirmDeleteNote/9223372036854775807")
      (ascii "ConfirmDeleteNote") (ascii "9223372036854775807") := Or.inl (by decide)
  constructor
  · intro h
    exact absurd ((passedOn_iff _).mp h _ _ hhuge) (by decide)
  · intro h
    refine h _ _ _ _ hhuge hlargest (by decide) (2 ^ 63 - 1) ⟨?_, ?_⟩
    · exact (addresses_iff hhuge _).mpr (by decide)
    · exact (addresses_iff hlargest _).mpr (by decide)

end ShareNotes.NotePaths
