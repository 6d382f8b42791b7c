import ShareNotes.LinkPattern

/-!
# What a link looks like

Whatever the text of a note is, a link that `xurls.Relaxed` finds in it consists of a
few kinds of characters: beyond ASCII anything may occur that the pattern's classes and
the list of domains hold, but of ASCII no blank, no quotation mark and no angle bracket.
A link never ends in a mark that ends or divides a sentence, a colon apart, and its
brackets are balanced.
-/

namespace ShareNotes.LinkShape

open ShareNotes.Lib.Decimal ShareNotes.Lib.Regexp ShareNotes.Lib.Regexp.Pattern
open ShareNotes.Lib.Utf8 ShareNotes.LinkPattern

variable {u : Unicode} {gtld : Gtld}

/-! ### Classes of characters -/

/-- A class that holds what is beyond ASCII, and the letters and digits. -/
structure Wide (A : ℕ → Bool) : Prop where
  beyond : ∀ c, 128 ≤ c → A c = true
  alnum : ∀ c, isAlnum c = true → A c = true

/-- It holds the characters that a path may end in. -/
structure EndClass (A : ℕ → Bool) : Prop extends Wide A where
  marks : (codes "/-+_&~*%=#").all A = true
  currency : A 36 = true

/-- And those that a path may have inside. -/
structure MidClass (A : ℕ → Bool) : Prop extends EndClass A where
  inner : (codes "@.,:;'?!|").all A = true

/-- The class, of characters. -/
def In (A : ℕ → Bool) (c : Rune) : Prop := A c.code = true

section Leaves

variable {A : ℕ → Bool} {c : Rune}

theorem of_among {s : String} (hs : (codes s).all A = true) (h : among s c = true) : In A c :=
  List.all_eq_true.mp hs c.code (List.contains_iff_mem.mp h)

theorem isAlnum_of_isAlpha {n : ℕ} (h : isAlpha n = true) : isAlnum n = true := by
  rw [isAlnum, h, Bool.true_or]

theorem isAlnum_of_isDigit {n : ℕ} (h : isDigitCode n = true) : isAlnum n = true := by
  rw [isAlnum, h, Bool.or_true]

theorem Wide.ofAlpha (hA : Wide A) (h : isAlpha c.code = true) : In A c :=
  hA.alnum _ (isAlnum_of_isAlpha h)

theorem Wide.ofDigit (hA : Wide A) {lo hi : Char} (hlo : 48 ≤ lo.toNat) (hhi : hi.toNat ≤ 57)
    (h : between lo hi c = true) : In A c := by
  rw [between, Bool.and_eq_true, decide_eq_true_eq, decide_eq_true_eq] at h
  refine hA.alnum _ (isAlnum_of_isDigit ?_)
  rw [isDigitCode, Bool.and_eq_true, decide_eq_true_eq, decide_eq_true_eq]
  omega

theorem Wide.ofHex (hA : Wide A)
    (h : (between '0' '9' c || between 'a' 'f' c || between 'A' 'F' c) = true) : In A c := by
  rw [Bool.or_eq_true, Bool.or_eq_true] at h
  rcases h with (h | h) | h
  · exact hA.ofDigit (by decide) (by decide) h
  all_goals
    rw [between, Bool.and_eq_true, decide_eq_true_eq, decide_eq_true_eq] at h
    refine hA.ofAlpha ?_
    rw [isAlpha, Bool.or_eq_true, Bool.and_eq_true, Bool.and_eq_true]
    simp only [decide_eq_true_eq]
  · exact Or.inl ⟨h.1, h.2.trans (by decide)⟩
  · exact Or.inr ⟨h.1, h.2.trans (by decide)⟩

theorem Wide.ofIri (hA : Wide A) (h : isIriChar u c = true) : In A c := by
  by_cases hc : c.code < 128
  · rw [isIriChar, u.letter_ascii _ hc, u.number_ascii _ hc] at h
    exact hA.alnum _ h
  · exact hA.beyond _ (Nat.le_of_not_lt hc)

theorem EndClass.ofEnd (hA : EndClass A) (h : isEndChar u c = true) : In A c := by
  rw [isEndChar, Bool.or_eq_true, Bool.or_eq_true] at h
  rcases h with (h | h) | h
  · exact hA.ofIri h
  · exact of_among hA.marks h
  · by_cases hc : c.code < 128
    · rw [u.currency_ascii _ hc, beq_iff_eq] at h
      rw [In, h]
      exact hA.currency
    · exact hA.beyond _ (Nat.le_of_not_lt hc)

theorem MidClass.ofMid (hA : MidClass A) (h : isMidChar u c = true) : In A c := by
  rw [isMidChar, Bool.or_eq_true, Bool.or_eq_true] at h
  rcases h with (h | h) | h
  · exact hA.ofEnd h
  · exact of_among hA.inner h
  · by_cases hc : c.code < 128
    · rw [u.otherSymb_ascii _ hc] at h
      exact absurd h (by decide)
    · exact hA.beyond _ (Nat.le_of_not_lt hc)

theorem Wide.ofFold (hA : Wide A) {x : ℕ} (hx : A x = true)
    (h : u.sameFold x c.code = true) : In A c := by
  by_cases hc : c.code < 128
  · rcases u.sameFold_ascii x c.code hc h with rfl | halpha
    · exact hx
    · exact hA.ofAlpha halpha
  · exact hA.beyond _ (Nat.le_of_not_lt hc)

theorem uses_lit {s : String} (hs : (codes s).all A = true) : (lit s).Uses (In A) := by
  refine uses_word fun x hx c hc => ?_
  rw [In, beq_iff_eq.mp hc]
  exact List.all_eq_true.mp hs x hx

end Leaves

/-! ### Addresses -/

section Addresses

variable {A : ℕ → Bool} (hA : Wide A)
include hA

theorem uses_range {lo hi : Char} (hlo : 48 ≤ lo.toNat) (hhi : hi.toNat ≤ 57) :
    (range lo hi).Uses (In A) := fun _ hc => hA.ofDigit hlo hhi hc

theorem uses_hexDigit : hexDigit.Uses (In A) := fun _ hc => hA.ofHex hc

theorem uses_hexGroup : hexGroup.Uses (In A) := ⟨uses_hexDigit hA, uses_upTo (uses_hexDigit hA) 3⟩

theorem uses_digits {s : String} (hs : (codes s).all isDigitCode = true) : (lit s).Uses (In A) :=
  uses_lit (List.all_eq_true.mpr fun x hx =>
    hA.alnum x (isAlnum_of_isDigit (List.all_eq_true.mp hs x hx)))

theorem uses_octet : octet.Uses (In A) := by
  refine uses_oneOf ?_
  simp only [List.forall_mem_cons]
  exact ⟨⟨uses_digits hA rfl, uses_range hA (by decide) (by decide)⟩,
    ⟨uses_digits hA rfl, uses_range hA (by decide) (by decide),
      uses_range hA (by decide) (by decide)⟩,
    ⟨uses_digits hA rfl, uses_times (uses_range hA (by decide) (by decide)) 2⟩,
    ⟨uses_range hA (by decide) (by decide), uses_range hA (by decide) (by decide)⟩,
    uses_range hA (by decide) (by decide), by simp⟩

theorem uses_octet6 : octet6.Uses (In A) := by
  refine ⟨⟨uses_digits hA rfl, uses_range hA (by decide) (by decide)⟩,
    ⟨uses_oneOf ?_, trivial⟩, uses_range hA (by decide) (by decide)⟩
  simp only [List.forall_mem_cons]
  exact ⟨⟨uses_digits hA rfl, uses_range hA (by decide) (by decide)⟩,
    ⟨uses_digits hA rfl, uses_range hA (by decide) (by decide)⟩,
    uses_range hA (by decide) (by decide), by simp⟩

variable (hdot : A 46 = true) (hcolon : A 58 = true)

include hcolon in
theorem uses_colonGroup : colonGroup.Uses (In A) :=
  ⟨uses_lit (by simpa [codes] using hcolon), uses_hexGroup hA⟩

include hcolon in
theorem uses_groupColon : groupColon.Uses (In A) :=
  ⟨uses_hexGroup hA, uses_lit (by simpa [codes] using hcolon)⟩

include hcolon in
theorem uses_headGroups : headGroups.Uses (In A) := by
  have hgroup := uses_groupColon hA hcolon
  have hgroups := uses_upTo (uses_colonGroup hA hcolon)
  exact ⟨⟨hgroup, ⟨hgroup, ⟨hgroup, ⟨hgroup, ⟨⟨hgroup, uses_upTo (uses_hexDigit hA) 4⟩,
    uses_colonGroup hA hcolon⟩, trivial⟩, hgroups 2⟩, hgroups 3⟩, hgroups 4⟩,
    uses_lit (by simpa [codes] using hcolon), hgroups 5⟩

include hdot hcolon in
theorem uses_lastGroups : lastGroups.Uses (In A) := by
  have hdot' : (lit ".").Uses (In A) := uses_lit (by simpa [codes] using hdot)
  have hpart : (seq (lit ".") octet6).Uses (In A) := ⟨hdot', uses_octet6 hA⟩
  exact ⟨uses_times (uses_colonGroup hA hcolon) 2, uses_lit (by simpa [codes] using hcolon),
    uses_octet6 hA, uses_times hpart 3⟩

include hdot hcolon in
theorem uses_ipv6Addr : ipv6Addr.Uses (In A) := by
  have hcolon' : (lit ":").Uses (In A) := uses_lit (by simpa [codes] using hcolon)
  have hgroup := uses_groupColon hA hcolon
  refine uses_oneOf ?_
  simp only [List.forall_mem_cons]
  exact ⟨⟨uses_headGroups hA hcolon, uses_lastGroups hA hdot hcolon⟩,
    ⟨⟨⟨hgroup, uses_upTo hgroup 5⟩, hcolon'⟩, uses_colonGroup hA hcolon⟩,
    ⟨uses_times hgroup 7, hcolon'⟩, by simp⟩

include hdot in
theorem uses_ipv4Addr : ipv4Addr.Uses (In A) := by
  have hdot' : (lit ".").Uses (In A) := uses_lit (by simpa [codes] using hdot)
  have hoctet := uses_octet hA
  exact ⟨trivial, hoctet, hdot', hoctet, hdot', hoctet, hdot', hoctet, trivial⟩

end Addresses

/-! ### The whole pattern -/

section Whole

variable {A : ℕ → Bool}

theorem Wide.uses_folded (hA : Wide A) {s : List ℕ} (hs : ∀ x ∈ s, x < 128 → A x = true) :
    (folded u s).Uses (In A) := by
  refine uses_word fun x hx c hc => ?_
  by_cases hx' : x < 128
  · exact hA.ofFold (hs x hx hx') hc
  · exact hA.ofFold (hA.beyond x (Nat.le_of_not_lt hx')) hc

theorem Wide.uses_schemeName (hA : Wide A) :
    (oneOf (["bitcoin", "file", "magnet", "mailto", "sms", "tel", "xmpp"].map fun s =>
      folded u (codes s))).Uses (In A) := by
  refine uses_oneOf fun r hr => ?_
  obtain ⟨s, hs, rfl⟩ := List.mem_map.mp hr
  refine hA.uses_folded fun x hx _ => hA.alnum x ?_
  have hall : ∀ s ∈ ["bitcoin", "file", "magnet", "mailto", "sms", "tel", "xmpp"],
      (codes s).all isAlnum = true := by decide
  exact List.all_eq_true.mp (hall s hs) x hx

theorem Wide.uses_otherScheme (hA : Wide A) (hcolon : A 58 = true) :
    (otherScheme u).Uses (In A) :=
  ⟨hA.uses_schemeName, uses_lit (by simpa [codes] using hcolon)⟩

theorem Wide.uses_site (hA : Wide A) (hdot : A 46 = true) (hdash : A 45 = true) :
    (site u gtld).Uses (In A) := by
  have hiri : (symbol (isIriChar u)).Uses (In A) := fun _ hc => hA.ofIri hc
  have hinner : (symbol fun c => isIriChar u c || among "-" c).Uses (In A) := by
    intro c hc
    rcases Bool.or_eq_true_iff.mp hc with hc | hc
    · exact hA.ofIri hc
    · exact of_among (by simpa [codes] using hdash) hc
  refine ⟨uses_plus ⟨⟨hiri, ⟨hinner, hiri⟩, trivial⟩, uses_lit (by simpa [codes] using hdot)⟩,
    uses_oneOf ?_⟩
  intro r hr
  obtain ⟨name, hname, rfl⟩ := List.mem_map.mp hr
  refine hA.uses_folded fun x hx hlt => ?_
  rcases gtld.chars name hname x hx hlt with halnum | rfl
  · exact hA.alnum x halnum
  · exact hdash

theorem Wide.uses_hostName (hA : Wide A) (hdot : A 46 = true) (hdash : A 45 = true)
    (hcolon : A 58 = true) : (hostName u gtld).Uses (In A) :=
  ⟨hA.uses_site hdot hdash, uses_ipv4Addr hA hdot, uses_ipv6Addr hA hdot hcolon⟩

theorem Wide.uses_port (hA : Wide A) (hcolon : A 58 = true) : port.Uses (In A) :=
  ⟨⟨uses_lit (by simpa [codes] using hcolon), uses_range hA (by decide) (by decide)⟩, trivial⟩

theorem EndClass.uses_comScheme (hA : EndClass A) (hdot : A 46 = true) (hcolon : A 58 = true) :
    comScheme.Uses (In A) := by
  have hmarks := List.all_eq_true.mp hA.marks
  have hslash := hmarks 47 (by decide)
  refine ⟨fun _ hc => hA.ofAlpha hc, ?_, uses_lit ?_⟩
  · intro c hc
    rcases Bool.or_eq_true_iff.mp hc with hc | hc
    · exact hA.ofAlpha hc
    · refine of_among ?_ hc
      simp [codes, hdot, hmarks 45 (by decide), hmarks 43 (by decide)]
  · simp [codes, hcolon, hslash]

theorem MidClass.uses_wellNested (hA : MidClass A) {opening closing : String}
    (ho : (codes opening).all A = true) (hc : (codes closing).all A = true) :
    (wellNested u opening closing).Uses (In A) := by
  have hmid : (midChars u).Uses (In A) := fun _ hc => hA.ofMid hc
  exact ⟨uses_lit ho, ⟨hmid, ⟨uses_lit ho, hmid, uses_lit hc⟩, hmid⟩, uses_lit hc⟩

theorem MidClass.uses_pathCont (hA : MidClass A) (hbrackets : (codes "()[]").all A = true) :
    (pathCont u).Uses (In A) := by
  have hb := List.all_eq_true.mp hbrackets
  have hmid : (midChars u).Uses (In A) := fun _ hc => hA.ofMid hc
  have hend : (symbol (isEndChar u)).Uses (In A) := fun _ hc => hA.ofEnd hc
  refine uses_plus ⟨hmid, uses_plus ⟨⟨?_, ?_⟩, hend⟩⟩
  · exact hA.uses_wellNested (by simpa [codes] using hb 40 (by decide))
      (by simpa [codes] using hb 41 (by decide))
  · exact hA.uses_wellNested (by simpa [codes] using hb 91 (by decide))
      (by simpa [codes] using hb 93 (by decide))

/-- **What a link consists of.** -/
theorem MidClass.uses_relaxed (hA : MidClass A) (hbrackets : (codes "()[]").all A = true) :
    (relaxed u gtld).Uses (In A) := by
  have hmarks := List.all_eq_true.mp hA.marks
  have hinner := List.all_eq_true.mp hA.inner
  have hdot := hinner 46 (by decide)
  have hcolon := hinner 58 (by decide)
  have hpath := hA.uses_pathCont (u := u) hbrackets
  have hslash : (lit "/").Uses (In A) := uses_lit (by simpa [codes] using hmarks 47 (by decide))
  refine ⟨⟨trivial, ⟨hA.uses_comScheme hdot hcolon, hA.uses_otherScheme hcolon⟩, hpath⟩,
    hA.uses_hostName hdot (hmarks 45 (by decide)) hcolon, hA.uses_port hcolon, uses_oneOf ?_⟩
  simp only [List.forall_mem_cons]
  exact ⟨hslash, ⟨hslash, hpath⟩, trivial, trivial, by simp⟩

end Whole

/-! ### Both ends -/

section Ends

variable {A : ℕ → Bool}

theorem nullable_folded {s : List ℕ} (hs : s ≠ []) : (folded u s).nullable = false := by
  rw [folded, nullable_word, List.isEmpty_eq_false_iff]
  exact hs

theorem nullable_topLevel : (topLevel u gtld).nullable = false := by
  refine nullable_oneOf fun r hr => ?_
  obtain ⟨name, hname, rfl⟩ := List.mem_map.mp hr
  exact nullable_folded (gtld.ne_nil name hname)

theorem Wide.endsIn_site (hA : Wide A) : (site u gtld).EndsIn (In A) := by
  refine endsIn_seq nullable_topLevel (endsIn_oneOf fun r hr => ?_) _
  obtain ⟨name, hname, rfl⟩ := List.mem_map.mp hr
  refine endsIn_word fun x hx c hc => ?_
  by_cases hlt : x < 128
  · exact hA.ofFold (hA.alnum x (gtld.last name hname x hx hlt)) hc
  · exact hA.ofFold (hA.beyond x (Nat.le_of_not_lt hlt)) hc

theorem Wide.endsIn_ipv4Addr (hA : Wide A) : ipv4Addr.EndsIn (In A) := by
  have hlast : (seq octet wordBoundary).EndsIn (In A) := ⟨trivial, fun _ => (uses_octet hA).endsIn⟩
  exact endsIn_seq rfl (endsIn_seq rfl (endsIn_seq rfl (endsIn_seq rfl (endsIn_seq rfl
    (endsIn_seq rfl (endsIn_seq rfl hlast _) _) _) _) _) _) _

theorem Wide.endsIn_ipv6Addr (hA : Wide A) (hcolon : A 58 = true) : ipv6Addr.EndsIn (In A) := by
  have hgroup := uses_colonGroup hA hcolon
  have hpart : (seq (lit ".") octet6).EndsIn (In A) := endsIn_seq rfl (uses_octet6 hA).endsIn _
  have hlast : lastGroups.EndsIn (In A) :=
    ⟨(uses_times hgroup 2).endsIn, endsIn_seq rfl (endsIn_seq rfl (endsIn_times hpart 3) _) _⟩
  refine endsIn_oneOf ?_
  simp only [List.forall_mem_cons]
  exact ⟨endsIn_seq rfl hlast _, endsIn_seq rfl hgroup.endsIn _,
    endsIn_seq rfl (uses_lit (by simpa [codes] using hcolon)).endsIn _, by simp⟩

/-- A host with its port ends in a letter, a digit or a colon, as far as it ends in ASCII. -/
theorem Wide.endsIn_hostPort (hA : Wide A) (hcolon : A 58 = true) (u : Unicode) (gtld : Gtld) :
    (hostName u gtld).EndsIn (In A) ∧ port.EndsIn (In A) :=
  ⟨⟨hA.endsIn_site, hA.endsIn_ipv4Addr, hA.endsIn_ipv6Addr hcolon⟩, (hA.uses_port hcolon).endsIn⟩

theorem EndClass.endsIn_pathCont (hA : EndClass A) (hclosing : (codes ")]").all A = true) :
    (pathCont u).EndsIn (In A) := by
  have hc := List.all_eq_true.mp hclosing
  have hend : (symbol (isEndChar u)).EndsIn (In A) := fun _ hc => hA.ofEnd hc
  have hwell {opening closing : String} (hne : (lit closing).nullable = false)
      (hclosing : (codes closing).all A = true) :
      (wellNested u opening closing).EndsIn (In A) :=
    endsIn_seq (nullable_seq hne _) (endsIn_seq hne (uses_lit hclosing).endsIn _) _
  have hparts : (alt (wellAll u) (symbol (isEndChar u))).EndsIn (In A) :=
    ⟨⟨hwell rfl (by simpa [codes] using hc 41 (by decide)),
      hwell rfl (by simpa [codes] using hc 93 (by decide))⟩, hend⟩
  exact endsIn_plus (endsIn_seq rfl (endsIn_plus hparts) _)

/-- **What a link ends in.** -/
theorem EndClass.endsIn_relaxed (hA : EndClass A) (hclosing : (codes ")]").all A = true)
    (hcolon : A 58 = true) : (relaxed u gtld).EndsIn (In A) := by
  have hpath := hA.endsIn_pathCont (u := u) hclosing
  have hslash : (lit "/").EndsIn (In A) :=
    (uses_lit (by simpa [codes] using List.all_eq_true.mp hA.marks 47 (by decide))).endsIn
  have hends := hA.endsIn_hostPort hcolon u gtld
  have hpaths : (path u).EndsIn (In A) := by
    refine endsIn_oneOf ?_
    simp only [List.forall_mem_cons]
    exact ⟨hslash, endsIn_seq rfl hpath _, trivial, trivial, by simp⟩
  exact ⟨endsIn_seq rfl (endsIn_seq rfl hpath _) _, ⟨hpaths, fun _ => hends.2⟩, fun _ => hends.1⟩

theorem Wide.startsIn_scheme (hA : Wide A) : (scheme u).StartsIn (In A) := by
  have halpha : (symbol fun c : Rune => isAlpha c.code).StartsIn (In A) :=
    fun _ hc => hA.ofAlpha hc
  exact ⟨startsIn_seq rfl halpha _, startsIn_seq rfl hA.uses_schemeName.startsIn _⟩

theorem Wide.startsIn_strict (hA : Wide A) : (strict u).StartsIn (In A) :=
  ⟨trivial, fun _ => startsIn_seq rfl hA.startsIn_scheme _⟩

theorem Wide.startsIn_site (hA : Wide A) : (site u gtld).StartsIn (In A) := by
  have hiri : (symbol (isIriChar u)).StartsIn (In A) := fun _ hc => hA.ofIri hc
  exact startsIn_seq rfl (startsIn_seq rfl (startsIn_seq rfl (startsIn_seq rfl hiri _) _) _) _

theorem Wide.startsIn_ipv4Addr (hA : Wide A) : ipv4Addr.StartsIn (In A) :=
  ⟨trivial, fun _ => startsIn_seq rfl (uses_octet hA).startsIn _⟩

/-- **What a link starts with.** -/
theorem Wide.startsIn_relaxed (hA : Wide A) (hcolon : A 58 = true) :
    (relaxed u gtld).StartsIn (In A) := by
  have hgroup := uses_groupColon hA hcolon
  have hgroups : (alt (seq groupColon (upTo groupColon 5)) (lit ":")).StartsIn (In A) :=
    ⟨startsIn_seq rfl hgroup.startsIn _, (uses_lit (by simpa [codes] using hcolon)).startsIn⟩
  have hipv6 : ipv6Addr.StartsIn (In A) := by
    refine startsIn_oneOf ?_
    simp only [List.forall_mem_cons]
    exact ⟨startsIn_seq rfl (uses_headGroups hA hcolon).startsIn _, startsIn_seq rfl hgroups _,
      startsIn_seq rfl (uses_times hgroup 7).startsIn _, by simp⟩
  have hhost : (hostName u gtld).StartsIn (In A) := ⟨hA.startsIn_site, hA.startsIn_ipv4Addr, hipv6⟩
  exact ⟨hA.startsIn_strict, startsIn_seq rfl hhost _⟩

end Ends

/-! ### Links as strings -/

/-- The bytes of characters. -/
def encode (m : List Rune) : Bytes := m.flatMap Rune.bytes

theorem encode_append (m n : List Rune) : encode (m ++ n) = encode m ++ encode n :=
  List.flatMap_append

theorem encode_ne_nil {m : List Rune} (hm : m ≠ []) : encode m ≠ [] := by
  obtain ⟨c, m, rfl⟩ := List.exists_cons_of_ne_nil hm
  rw [encode, List.flatMap_cons]
  exact List.append_ne_nil_of_left_ne_nil c.bytes_ne_nil _

/-- The bytes of a character are in a class with the character. -/
theorem Wide.bytes {A : ℕ → Bool} (hA : Wide A) {c : Rune} (hc : In A c) :
    ∀ b ∈ c.bytes, A b.toNat = true := by
  intro b hb
  rcases c.form with ⟨hcode, hbytes⟩ | ⟨_, _, hbytes⟩
  · rw [hbytes, List.mem_singleton] at hb
    rw [hb, UInt8.toNat_ofNat', Nat.mod_eq_of_lt (by omega)]
    exact hc
  · exact hA.beyond _ (hbytes b hb)

theorem Wide.encode {A : ℕ → Bool} (hA : Wide A) {m : List Rune} (hm : ∀ c ∈ m, In A c) :
    ∀ b ∈ encode m, A b.toNat = true := by
  intro b hb
  obtain ⟨c, hc, hb⟩ := List.mem_flatMap.mp hb
  exact hA.bytes (hm c hc) b hb

theorem mem_findAllString {text l : Bytes} (hl : l ∈ findAllString u gtld text) :
    ∃ b m post, m ≠ [] ∧ (relaxed u gtld).Matches isWord b m post ∧ l = encode m := by
  obtain ⟨x, hx, rfl⟩ := List.mem_map.mp hl
  have hfinds := (finds_findAll isWord (relaxed u gtld) (runes text)).forall_mem
    (Q := fun m => ∃ b post, (relaxed u gtld).Matches isWord b m post)
    (fun b m post h => ⟨b, post, h⟩) x hx
  obtain ⟨hne, b, post, hm⟩ := hfinds
  exact ⟨b, x.2, post, hne, hm, rfl⟩

/-- Letters and digits, what is beyond ASCII, and a set that is written out. -/
def classOf (s : String) (c : ℕ) : Bool := 128 ≤ c || isAlnum c || (codes s).contains c

theorem wide_classOf (s : String) : Wide (classOf s) where
  beyond c hc := by rw [classOf, decide_eq_true hc, Bool.true_or, Bool.true_or]
  alnum c hc := by rw [classOf, hc, Bool.or_true, Bool.true_or]

/-- What occurs in a link. -/
def isLinkByte (b : UInt8) : Bool := classOf "/-+_&~*%=#$@.,:;'?!|()[]" b.toNat

/-- What a link starts with. -/
def isFirstByte (b : UInt8) : Bool := classOf ":" b.toNat

/-- What a link ends in. -/
def isLastByte (b : UInt8) : Bool := classOf "/-+_&~*%=#$)]:" b.toNat

theorem forall_head_encode {A : ℕ → Bool} (hA : Wide A) {m : List Rune}
    (hm : ∀ c ∈ m.head?, In A c) : ∀ b ∈ (encode m).head?, A b.toNat = true := by
  cases m with
  | nil => simp [encode]
  | cons c m =>
    intro b hb
    refine hA.bytes (hm c rfl) b ?_
    rw [encode, List.flatMap_cons, List.head?_append_of_ne_nil _ c.bytes_ne_nil] at hb
    exact List.mem_of_mem_head? hb

theorem forall_last_encode {A : ℕ → Bool} (hA : Wide A) {m : List Rune}
    (hm : ∀ c ∈ m.getLast?, In A c) : ∀ b ∈ (encode m).getLast?, A b.toNat = true := by
  rcases List.eq_nil_or_concat m with rfl | ⟨m, c, rfl⟩
  · simp [encode]
  · intro b hb
    rw [List.concat_eq_append] at hb hm
    refine hA.bytes (hm c (by simp)) b ?_
    rw [encode_append, encode, encode, List.flatMap_singleton,
      List.getLast?_append_of_ne_nil _ c.bytes_ne_nil] at hb
    exact List.mem_of_mem_getLast? hb

theorem isLinkByte_of_link {u : Unicode} {gtld : Gtld} {text l : Bytes}
    (hl : l ∈ findAllString u gtld text) : ∀ b ∈ l, isLinkByte b = true := by
  obtain ⟨b, m, post, _, hm, rfl⟩ := mem_findAllString hl
  have hmid : MidClass (classOf "/-+_&~*%=#$@.,:;'?!|()[]") :=
    { wide_classOf _ with marks := by decide, currency := by decide, inner := by decide }
  exact (wide_classOf _).encode (hm.uses (hmid.uses_relaxed (by decide)))

theorem isFirstByte_of_link {u : Unicode} {gtld : Gtld} {text l : Bytes}
    (hl : l ∈ findAllString u gtld text) : ∀ b ∈ l.head?, isFirstByte b = true := by
  obtain ⟨b, m, post, _, hm, rfl⟩ := mem_findAllString hl
  exact forall_head_encode (wide_classOf _)
    (hm.startsIn ((wide_classOf _).startsIn_relaxed (by decide)))

theorem isLastByte_of_link {u : Unicode} {gtld : Gtld} {text l : Bytes}
    (hl : l ∈ findAllString u gtld text) : ∀ b ∈ l.getLast?, isLastByte b = true := by
  obtain ⟨b, m, post, _, hm, rfl⟩ := mem_findAllString hl
  have hend : EndClass (classOf "/-+_&~*%=#$)]:") :=
    { wide_classOf _ with marks := by decide, currency := by decide }
  exact forall_last_encode (wide_classOf _)
    (hm.endsIn (hend.endsIn_relaxed (by decide) (by decide)))

/-- **The shape of a link.** It is not empty, has no blank, quotation mark or angle bracket in it,
and does not end in a mark that ends or divides a sentence, other than a colon. -/
theorem links_shape (u : Unicode) (gtld : Gtld) (text : Bytes) :
    ∀ l ∈ findAllString u gtld text, l ≠ [] ∧ (∀ b ∈ l, isLinkByte b = true) ∧
      (∀ b ∈ l.head?, isFirstByte b = true) ∧ ∀ b ∈ l.getLast?, isLastByte b = true := by
  intro l hl
  refine ⟨?_, isLinkByte_of_link hl, isFirstByte_of_link hl, isLastByte_of_link hl⟩
  obtain ⟨_, _, _, hne, _, rfl⟩ := mem_findAllString hl
  exact encode_ne_nil hne

theorem links_shape_bit :
    (∀ b ∈ ascii "a.bit/(x)", isLinkByte b = true) ∧
      ∀ b ∈ (ascii "a.bit/(x)").getLast?, isLastByte b = true := by
  have hlink : ascii "a.bit/(x)" ∈
      findAllString asciiUnicode pseudoTLDs (ascii "see (a.bit/(x)).") := by decide +kernel
  obtain ⟨_, hbytes, _, hlast⟩ := links_shape asciiUnicode pseudoTLDs _ _ hlink
  exact ⟨hbytes, hlast⟩

/-! ### Brackets -/

/-- The brackets that are still to be closed behind a string, the innermost first; `none`
when one is closed that is not the last one opened. -/
def stillOpen : List UInt8 → Bytes → Option (List UInt8)
  | closings, [] => some closings
  | closings, b :: s =>
    if b = 40 then stillOpen (41 :: closings) s
    else if b = 91 then stillOpen (93 :: closings) s
    else if b = 41 ∨ b = 93 then
      if closings.head? = some b then stillOpen closings.tail s else none
    else stillOpen closings s

/-- Every bracket is closed, by one of its kind, and in the order of a nesting. -/
def Balanced (s : Bytes) : Prop := stillOpen [] s = some []

instance : DecidablePred Balanced :=
  fun s => inferInstanceAs (Decidable (stillOpen [] s = some []))

example : Balanced (ascii "path_(even_(nested))[a]") ∧ ¬Balanced (ascii "(]") := by decide

/-- What stands in front of a rest without a change to its brackets. -/
def Neutral (s : Bytes) : Prop :=
  ∀ closings rest, stillOpen closings (s ++ rest) = stillOpen closings rest

theorem Neutral.balanced {s : Bytes} (h : Neutral s) : Balanced s := by
  have h := h [] []
  rw [List.append_nil] at h
  exact h

theorem neutral_nil : Neutral [] := fun _ _ => rfl

theorem Neutral.append {s t : Bytes} (hs : Neutral s) (ht : Neutral t) : Neutral (s ++ t) := by
  intro closings rest
  rw [List.append_assoc, hs, ht]

def isBracket (c : ℕ) : Bool := (codes "()[]").contains c

/-- A string without brackets. -/
theorem neutral_of_plain {s : Bytes} (hs : ∀ b ∈ s, isBracket b.toNat = false) : Neutral s := by
  induction s with
  | nil => exact neutral_nil
  | cons b s ih =>
    rw [List.forall_mem_cons] at hs
    intro closings rest
    have hne {c : UInt8} (hc : isBracket c.toNat = true) : b ≠ c := by
      rintro rfl
      rw [hs.1] at hc
      exact absurd hc (by decide)
    rw [List.cons_append, stillOpen, if_neg (hne (by decide)), if_neg (hne (by decide)),
      if_neg (not_or.mpr ⟨hne (by decide), hne (by decide)⟩), ih hs.2]

/-- A pair of brackets around something neutral. -/
theorem Neutral.enclose {s : Bytes} (hs : Neutral s) {opening closing : UInt8}
    (h : (opening, closing) = (40, 41) ∨ (opening, closing) = (91, 93)) :
    Neutral (opening :: (s ++ [closing])) := by
  intro closings rest
  rcases h with h | h <;> obtain ⟨rfl, rfl⟩ := Prod.mk.inj h
  · show stillOpen (41 :: closings) (s ++ [41] ++ rest) = _
    rw [List.append_assoc, hs]
    rfl
  · show stillOpen (93 :: closings) (s ++ [93] ++ rest) = _
    rw [List.append_assoc, hs]
    rfl

theorem encode_lit {s : String} (hs : (codes s).all (fun x => x < 128) = true)
    {b : Option Rune} {m post : List Rune} (h : (lit s).Matches isWord b m post) :
    encode m = (codes s).map UInt8.ofNat := by
  rw [lit] at h
  generalize codes s = xs at hs h
  induction xs generalizing b m with
  | nil =>
    rw [h]
    rfl
  | cons x xs ih =>
    obtain ⟨_, m₂, rfl, ⟨c, hc, rfl⟩, h₂⟩ := h
    rw [List.all_cons, Bool.and_eq_true, decide_eq_true_eq] at hs
    rw [beq_iff_eq] at hc
    rw [encode_append, ih hs.2 h₂]
    rcases c.form with ⟨_, hbytes⟩ | ⟨hcode, _⟩
    · rw [encode, List.flatMap_singleton, hbytes, hc]
      rfl
    · omega

theorem neutral_encode_append {m n : List Rune} (hm : Neutral (encode m))
    (hn : Neutral (encode n)) : Neutral (encode (m ++ n)) := by
  rw [encode_append]
  exact hm.append hn

theorem ensures_bracketed {r : Pattern Rune} {opening closing : String} {o c : UInt8}
    (ho : codes opening = [o.toNat]) (hc : codes closing = [c.toNat])
    (hpair : (o, c) = (40, 41) ∨ (o, c) = (91, 93))
    (hr : Ensures isWord r fun m => Neutral (encode m)) :
    Ensures isWord (bracketed opening closing r) fun m => Neutral (encode m) := by
  have hascii {s : String} {b : UInt8} (hs : codes s = [b.toNat]) (hb : b.toNat < 128) :
      Ensures isWord (lit s) fun m => encode m = [b] := by
    intro x m post hm
    rw [encode_lit (by rw [hs]; simpa using hb) hm, hs, List.map_singleton, UInt8.ofNat_toNat]
  have hlt : o.toNat < 128 ∧ c.toNat < 128 := by
    rcases hpair with h | h <;> obtain ⟨rfl, rfl⟩ := Prod.mk.inj h <;> decide
  refine ensures_seq (hascii ho hlt.1) (ensures_seq hr (hascii hc hlt.2)
    (R := fun m => ∃ s, Neutral s ∧ encode m = s ++ [c]) ?_) ?_
  · intro m n hm hn
    exact ⟨encode m, hm, by rw [encode_append, hn]⟩
  · rintro m n hm ⟨s, hs, hn⟩
    rw [encode_append, hm, hn]
    exact hs.enclose hpair

/-- What occurs in a link outside of its brackets. -/
def plainClass : ℕ → Bool := classOf "/-+_&~*%=#$@.,:;'?!|"

theorem midClass_plain : MidClass plainClass :=
  { wide_classOf _ with marks := by decide, currency := by decide, inner := by decide }

theorem not_bracket_plain (c : ℕ) (hc : plainClass c = true) : isBracket c = false := by
  have hall : ((codes "()[]").all fun c => !plainClass c) = true := by decide
  cases hb : isBracket c with
  | false => rfl
  | true =>
    have hnot := List.all_eq_true.mp hall c (List.contains_iff_mem.mp hb)
    rw [hc] at hnot
    exact absurd hnot (by decide)

/-- Outside of the pairs of brackets there are none. -/
theorem ensures_plain {r : Pattern Rune} (hr : r.Uses (In plainClass)) :
    Ensures isWord r fun m => Neutral (encode m) :=
  (ensures_uses hr).imp fun _ hm =>
    neutral_of_plain fun b hb => not_bracket_plain _ (midClass_plain.encode hm b hb)

theorem ensures_wellNested {opening closing : String} {o c : UInt8}
    (ho : codes opening = [o.toNat]) (hc : codes closing = [c.toNat])
    (hpair : (o, c) = (40, 41) ∨ (o, c) = (91, 93)) :
    Ensures isWord (wellNested u opening closing) fun m => Neutral (encode m) := by
  have happend : ∀ m n : List Rune, Neutral (encode m) → Neutral (encode n) →
      Neutral (encode (m ++ n)) := fun _ _ hm hn => neutral_encode_append hm hn
  have hmid : Ensures isWord (midChars u) fun m => Neutral (encode m) :=
    ensures_plain fun _ hc => midClass_plain.ofMid hc
  have hpairs := ensures_star
    (ensures_seq (ensures_bracketed ho hc hpair hmid) hmid happend) neutral_nil happend
  exact ensures_bracketed ho hc hpair (ensures_seq hmid hpairs happend)

theorem ensures_pathCont : Ensures isWord (pathCont u) fun m => Neutral (encode m) := by
  have happend : ∀ m n : List Rune, Neutral (encode m) → Neutral (encode n) →
      Neutral (encode (m ++ n)) := fun _ _ hm hn => neutral_encode_append hm hn
  have hmid : Ensures isWord (midChars u) fun m => Neutral (encode m) :=
    ensures_plain fun _ hc => midClass_plain.ofMid hc
  have hend : Ensures isWord (symbol (isEndChar u)) fun m => Neutral (encode m) :=
    ensures_plain fun _ hc => midClass_plain.ofEnd hc
  have hwell : Ensures isWord (wellAll u) fun m => Neutral (encode m) :=
    ensures_alt (ensures_wellNested rfl rfl (Or.inl rfl)) (ensures_wellNested rfl rfl (Or.inr rfl))
  exact ensures_plus (ensures_seq hmid
    (ensures_plus (ensures_alt hwell hend) neutral_nil happend) happend) neutral_nil happend

/-- **The brackets of a link are balanced.** -/
theorem links_balanced (u : Unicode) (gtld : Gtld) (text : Bytes) :
    ∀ l ∈ findAllString u gtld text, Balanced l := by
  intro l hl
  obtain ⟨b, m, post, _, hm, rfl⟩ := mem_findAllString hl
  have happend : ∀ m n : List Rune, Neutral (encode m) → Neutral (encode n) →
      Neutral (encode (m ++ n)) := fun _ _ hm hn => neutral_encode_append hm hn
  have hscheme : (scheme u).Uses (In plainClass) :=
    ⟨midClass_plain.uses_comScheme rfl rfl, midClass_plain.uses_otherScheme rfl⟩
  have hboundary : (wordBoundary : Pattern Rune).Uses (In plainClass) := trivial
  have hslash : (lit "/").Uses (In plainClass) := uses_lit (by decide)
  have hpath : Ensures isWord (path u) fun m => Neutral (encode m) := by
    refine ensures_oneOf ?_
    simp only [List.forall_mem_cons]
    exact ⟨ensures_plain hslash, ensures_seq (ensures_plain hslash) ensures_pathCont happend,
      ensures_plain hboundary, ensures_plain (r := endText) trivial, by simp⟩
  have hrelaxed : Ensures isWord (relaxed u gtld) fun m => Neutral (encode m) :=
    ensures_alt
      (ensures_seq (ensures_plain hboundary)
        (ensures_seq (ensures_plain hscheme) ensures_pathCont happend) happend)
      (ensures_seq (ensures_plain (midClass_plain.uses_hostName rfl rfl rfl))
        (ensures_seq (ensures_plain (midClass_plain.uses_port rfl)) hpath happend) happend)
  exact (hrelaxed b m post hm).balanced

/-- The bracket around a link is not part of it. -/
theorem links_balanced_bit : Balanced (ascii "a.bit/(x)") :=
  links_balanced asciiUnicode pseudoTLDs (ascii "see (a.bit/(x)).") _ (by decide +kernel)

end ShareNotes.LinkShape
