import ShareNotes.Lib.Decimal

/-!
# The path of a URL

A browser that opens a URL string starting with one slash strips it, cuts it at
the query and the fragment, splits the path at slashes and backslashes, encodes
the segments, and resolves those that stand for the directory itself or the one
above. The server undoes the escapes of the path that it is asked for, and
rejects one with an escape that is none.

`unescape_encode` says that the two codes cancel on a string without a percent
sign, and `unescape_requestPath` what the server reads when a string without
slashes and percent signs is put behind a name.
-/

namespace ShareNotes.Lib.Url

open ShareNotes.Lib.Decimal

/-! ### Percent signs -/

def hexDigit (n : ℕ) : UInt8 := UInt8.ofNat (if n < 10 then 48 + n else 55 + n)

def hexValue (b : UInt8) : Option ℕ :=
  if 48 ≤ b.toNat ∧ b.toNat ≤ 57 then some (b.toNat - 48)
  else if 65 ≤ b.toNat ∧ b.toNat ≤ 70 then some (b.toNat - 55)
  else if 97 ≤ b.toNat ∧ b.toNat ≤ 102 then some (b.toNat - 87)
  else none

/-- `%XX`. -/
def percentEncode (b : UInt8) : Bytes := [37, hexDigit (b.toNat / 16), hexDigit (b.toNat % 16)]

/-- The bytes that `%XX` stands for; a percent sign without two digits is an error. -/
def unescape : Bytes → Option Bytes
  | [] => some []
  | b :: rest =>
    if b = 37 then
      match rest with
      | h :: l :: rest =>
        (hexValue h).bind fun x => (hexValue l).bind fun y =>
          (unescape rest).map fun s => UInt8.ofNat (16 * x + y) :: s
      | _ => none
    else (unescape rest).map fun s => b :: s

/-- Encode the bytes of a set. -/
def encode (inSet : UInt8 → Bool) (s : Bytes) : Bytes :=
  s.flatMap fun b => if inSet b then percentEncode b else [b]

theorem hexValue_hexDigit : ∀ n < 16, hexValue (hexDigit n) = some n := by decide

theorem unescape_percentEncode (b : UInt8) (rest : Bytes) :
    unescape (percentEncode b ++ rest) = (unescape rest).map fun s => b :: s := by
  have hb := b.toNat_lt
  have hvalue : UInt8.ofNat (16 * (b.toNat / 16) + b.toNat % 16) = b := by
    rw [Nat.div_add_mod, UInt8.ofNat_toNat]
  show unescape (37 :: _ :: _ :: rest) = _
  rw [unescape, if_pos rfl, hexValue_hexDigit _ (by omega), hexValue_hexDigit _ (by omega), Option.bind_some,
    Option.bind_some, hvalue]

theorem unescape_cons {b : UInt8} (hb : b ≠ 37) (rest : Bytes) :
    unescape (b :: rest) = (unescape rest).map fun s => b :: s := by
  rw [unescape.eq_def]
  dsimp only
  rw [if_neg hb]

/-- **An encoded string is read back**, provided that its percent signs are encoded. -/
theorem unescape_encode {inSet : UInt8 → Bool} {s : Bytes} (hs : 37 ∈ s → inSet 37 = true)
    (rest : Bytes) : unescape (encode inSet s ++ rest) = (unescape rest).map fun t => s ++ t := by
  induction s with
  | nil =>
    rw [encode, List.flatMap_nil, List.nil_append]
    cases unescape rest <;> rfl
  | cons b s ih =>
    rw [encode, List.flatMap_cons, ← encode, List.append_assoc]
    have htail := ih fun h => hs (List.mem_cons_of_mem b h)
    by_cases hb : inSet b = true
    · rw [if_pos hb, unescape_percentEncode, htail, Option.map_map]
      rfl
    · have hne : b ≠ 37 := by
        rintro rfl
        exact hb (hs List.mem_cons_self)
      rw [if_neg hb, List.singleton_append, unescape_cons hne, htail, Option.map_map]
      rfl

/-! ### What a browser requests -/

/-- A blank or a control character. -/
def isBlank (b : UInt8) : Bool := b.toNat ≤ 32

def isTabOrNewline (b : UInt8) : Bool := b = 9 || b = 10 || b = 13

/-- A URL string without blanks at its ends and without line breaks. -/
def strip (url : Bytes) : Bytes :=
  ((url.dropWhile isBlank).rdropWhile isBlank).filter fun b => !isTabOrNewline b

/-- Up to the query or the fragment. -/
def beforeQuery (url : Bytes) : Bytes := url.takeWhile fun b => b != 63 && b != 35

/-- The bytes that are encoded in a path. -/
def inPathSet (b : UInt8) : Bool :=
  b.toNat ≤ 32 || 127 ≤ b.toNat || [34, 35, 60, 62, 63, 94, 96, 123, 125].contains b

def lower (b : UInt8) : UInt8 := if 65 ≤ b.toNat ∧ b.toNat ≤ 90 then b + 32 else b

def isSingleDot (segment : Bytes) : Bool :=
  [ascii ".", ascii "%2e"].contains (segment.map lower)

def isDoubleDot (segment : Bytes) : Bool :=
  [ascii "..", ascii ".%2e", ascii "%2e.", ascii "%2e%2e"].contains (segment.map lower)

/-- Resolve one segment; the segments kept so far are in reverse order. -/
def pushSegment (kept : List Bytes) (segment : Bytes) (last : Bool) : List Bytes :=
  if isDoubleDot segment then if last then [] :: kept.tail else kept.tail
  else if isSingleDot segment then if last then [] :: kept else kept
  else segment :: kept

def pushSegments : List Bytes → List Bytes → List Bytes
  | kept, [] => kept
  | kept, [segment] => pushSegment kept segment true
  | kept, segment :: segment' :: segments =>
    pushSegments (pushSegment kept segment false) (segment' :: segments)

def isSlash (b : UInt8) : Bool := b = 47 || b = 92

/-- The segments of a path that is given without its first slash. -/
def parsePath (path : Bytes) : List Bytes :=
  (pushSegments [] ((path.splitOnP isSlash).map (encode inPathSet))).reverse

def serializePath (segments : List Bytes) : Bytes :=
  segments.flatMap fun segment => 47 :: segment

/-- The path that is requested for a URL string that starts with one slash. -/
def requestPath (url : Bytes) : Bytes :=
  serializePath (parsePath (beforeQuery (strip url)).tail)

/-! ### Dot segments -/

/-- A dot in front, escaped or not, is read as a dot. -/
theorem unescape_dot {e u rest : Bytes} (hu : u ∈ [ascii ".", ascii "%2e"])
    (h : e.map lower = u ++ rest) :
    ∃ e', e'.map lower = rest ∧ unescape e = (unescape e').map fun s => 46 :: s := by
  have hcase : ∀ b c : UInt8, lower b = c → c < 64 → b = c := by
    intro b c hb hc
    rw [lower] at hb
    split at hb
    · rename_i hupper
      have hvalue := congrArg UInt8.toNat hb
      rw [UInt8.toNat_add] at hvalue
      rw [UInt8.lt_iff_toNat_lt] at hc
      simp only [UInt8.reduceToNat] at hvalue hc
      omega
    · exact hb
  simp only [List.mem_cons, List.not_mem_nil, or_false] at hu
  rcases hu with rfl | rfl
  · obtain ⟨b, e', rfl, hb, he'⟩ := List.map_eq_cons_iff.mp h
    rw [hcase b 46 hb (by decide), unescape_cons (by decide)]
    exact ⟨e', he', rfl⟩
  · obtain ⟨b, e₁, rfl, hb, h₁⟩ := List.map_eq_cons_iff.mp h
    obtain ⟨c, e₂, rfl, hc, h₂⟩ := List.map_eq_cons_iff.mp h₁
    obtain ⟨d, e', rfl, hd, he'⟩ := List.map_eq_cons_iff.mp h₂
    have hvalue : hexValue d = some 14 := by
      rw [lower] at hd
      split at hd
      · have hsub : d = 69 := by
          rw [← UInt8.add_left_inj 32, hd]
          rfl
        rw [hsub]
        rfl
      · rw [hd]
        rfl
    rw [hcase b 37 hb (by decide), hcase c 50 hc (by decide)]
    refine ⟨e', he', ?_⟩
    rw [unescape, if_pos rfl, hvalue]
    rfl

theorem unescape_singleDot {e : Bytes} (h : isSingleDot e = true) :
    unescape e = some (ascii ".") := by
  rw [isSingleDot, List.contains_iff_mem] at h
  obtain ⟨e', he', hdot⟩ := unescape_dot h (List.append_nil _).symm
  rw [hdot, List.map_eq_nil_iff.mp he']
  rfl

theorem unescape_doubleDot {e : Bytes} (h : isDoubleDot e = true) :
    unescape e = some (ascii "..") := by
  have hsplit : ∃ u ∈ [ascii ".", ascii "%2e"], ∃ v ∈ [ascii ".", ascii "%2e"],
      e.map lower = u ++ v := by
    rw [isDoubleDot, List.contains_iff_mem] at h
    simp only [List.mem_cons, List.not_mem_nil, or_false] at h
    rcases h with h | h | h | h
    · exact ⟨ascii ".", by decide, ascii ".", by decide, h⟩
    · exact ⟨ascii ".", by decide, ascii "%2e", by decide, h⟩
    · exact ⟨ascii "%2e", by decide, ascii ".", by decide, h⟩
    · exact ⟨ascii "%2e", by decide, ascii "%2e", by decide, h⟩
  obtain ⟨u, hu, v, hv, huv⟩ := hsplit
  obtain ⟨e₁, he₁, hdot₁⟩ := unescape_dot hu huv
  obtain ⟨e₂, he₂, hdot₂⟩ := unescape_dot hv (he₁.trans (List.append_nil v).symm)
  rw [hdot₁, hdot₂, List.map_eq_nil_iff.mp he₂]
  rfl

theorem unescape_encodeSegment {s : Bytes} (hs : 37 ∉ s) :
    unescape (encode inPathSet s) = some s := by
  have h : unescape (encode inPathSet s ++ []) = _ := unescape_encode (fun h => absurd h hs) []
  rw [List.append_nil] at h
  rw [h, unescape, Option.map_some, List.append_nil]

/-- Without a percent sign, only the dot segments themselves are taken for ones. -/
theorem isSingleDot_encode_iff {s : Bytes} (hs : 37 ∉ s) :
    isSingleDot (encode inPathSet s) = true ↔ s = ascii "." := by
  constructor
  · intro h
    have hdot := unescape_singleDot h
    rw [unescape_encodeSegment hs] at hdot
    exact Option.some.inj hdot
  · rintro rfl
    decide

theorem isDoubleDot_encode_iff {s : Bytes} (hs : 37 ∉ s) :
    isDoubleDot (encode inPathSet s) = true ↔ s = ascii ".." := by
  constructor
  · intro h
    have hdots := unescape_doubleDot h
    rw [unescape_encodeSegment hs] at hdots
    exact Option.some.inj hdots
  · rintro rfl
    decide

/-! ### One segment behind a name -/

/-- What is left of a string at the end of a URL before its escapes are looked at. -/
def cut (s : Bytes) : Bytes :=
  beforeQuery ((s.rdropWhile isBlank).filter fun b => !isTabOrNewline b)

/-- A byte that a URL parser takes for part of a segment as it is. -/
def isLiteral (b : UInt8) : Bool := !([9, 10, 13, 35, 37, 46, 47, 63, 92].contains b)

theorem isLiteral_ne {b c : UInt8} (hb : isLiteral b = true) (hc : isLiteral c = false) : b ≠ c := by
  rintro rfl
  rw [hb] at hc
  exact Bool.noConfusion hc

theorem mem_cut {s : Bytes} {b : UInt8} (hb : b ∈ cut s) : b ∈ s :=
  (List.rdropWhile_prefix isBlank s).subset
    (List.mem_of_mem_filter ((List.takeWhile_prefix _).subset hb))

theorem not_tabOrNewline {b : UInt8} (hb : isLiteral b = true) : isTabOrNewline b = false := by
  rw [isTabOrNewline, decide_eq_false (isLiteral_ne hb (by decide)),
    decide_eq_false (isLiteral_ne hb (by decide)), decide_eq_false (isLiteral_ne hb (by decide))]
  rfl

theorem not_query {b : UInt8} (hb : isLiteral b = true) : (b != 63 && b != 35) = true := by
  rw [Bool.and_eq_true, bne_iff_ne, bne_iff_ne]
  exact ⟨isLiteral_ne hb (by decide), isLiteral_ne hb (by decide)⟩

theorem isSlash_literal {b : UInt8} (hb : isLiteral b = true) : isSlash b = false := by
  rw [isSlash, decide_eq_false (isLiteral_ne hb (by decide)),
    decide_eq_false (isLiteral_ne hb (by decide)), Bool.false_or]

/-- Only blanks are cut off a literal string. -/
theorem cut_literal {s : Bytes} (hs : ∀ b ∈ s, isLiteral b = true) :
    cut s = s.rdropWhile isBlank := by
  have hs' : ∀ b ∈ s.rdropWhile isBlank, isLiteral b = true :=
    fun b hb => hs b ((List.rdropWhile_prefix isBlank s).subset hb)
  have hfilter : ((s.rdropWhile isBlank).filter fun b => !isTabOrNewline b) =
      s.rdropWhile isBlank :=
    List.filter_eq_self.mpr fun b hb => by rw [not_tabOrNewline (hs' b hb), Bool.not_false]
  rw [cut, hfilter, beforeQuery, List.takeWhile_eq_self_iff]
  exact fun b hb => not_query (hs' b hb)

/-- What stands before a byte that stays does not matter. -/
theorem rdropWhile_append_cons {α : Type} {p : α → Bool} (front : List α) {c : α} (hc : ¬p c = true)
    (s : List α) : (front ++ c :: s).rdropWhile p = front ++ c :: s.rdropWhile p := by
  induction s using List.reverseRecOn with
  | nil => rw [List.rdropWhile_concat_neg p front c hc, List.rdropWhile_nil]
  | append_singleton s x ih =>
    have hsplit : front ++ c :: (s ++ [x]) = (front ++ c :: s) ++ [x] := by simp
    rw [hsplit]
    by_cases hx : p x = true
    · rw [List.rdropWhile_concat_pos p _ x hx, List.rdropWhile_concat_pos p _ x hx, ih]
    · rw [List.rdropWhile_concat_neg p _ x hx, List.rdropWhile_concat_neg p _ x hx, hsplit]

theorem beforeQuery_strip {name s : Bytes} (hname : ∀ b ∈ name, isLiteral b = true) :
    beforeQuery (strip (47 :: (name ++ 47 :: s))) = 47 :: (name ++ 47 :: cut s) := by
  have hfilter : (name.filter fun b => !isTabOrNewline b) = name :=
    List.filter_eq_self.mpr fun b hb => by rw [not_tabOrNewline (hname b hb), Bool.not_false]
  rw [strip, List.dropWhile_cons_of_neg (by decide), ← List.cons_append,
    rdropWhile_append_cons _ (by decide), List.filter_append, List.filter_cons_of_pos (by decide),
    List.filter_cons_of_pos (by decide), hfilter, List.cons_append, beforeQuery,
    List.takeWhile_cons_of_pos (by decide),
    List.takeWhile_append_of_pos fun b hb => not_query (hname b hb),
    List.takeWhile_cons_of_pos (by decide)]
  rfl

/-- **What the server reads** when a string without slashes and percent signs is put
behind a name. -/
theorem unescape_requestPath {name s : Bytes} (hname : ∀ b ∈ name, isLiteral b = true)
    (hs : ∀ b ∈ s, b ≠ 37 ∧ isSlash b = false) :
    unescape (requestPath (47 :: (name ++ 47 :: s))) = some (
      if cut s = ascii ".." then [47]
      else if cut s = ascii "." then 47 :: (name ++ [47])
      else 47 :: (name ++ 47 :: cut s)) := by
  have hpercent : 37 ∉ cut s := fun h => (hs 37 (mem_cut h)).1 rfl
  have hnamePercent : 37 ∉ name := fun h => absurd (hname 37 h) (by decide)
  have hdots : ∀ dots, (∀ b ∈ dots, b = 46) → dots ≠ [] → name ≠ dots := by
    rintro dots hall hne rfl
    obtain ⟨b, hb⟩ := List.exists_mem_of_ne_nil _ hne
    have hliteral := hname b hb
    rw [hall b hb] at hliteral
    exact absurd hliteral (by decide)
  have hsingle : isSingleDot (encode inPathSet name) = false := by
    rw [← Bool.not_eq_true, isSingleDot_encode_iff hnamePercent]
    exact hdots (ascii ".") (by decide +kernel) (by decide)
  have hdouble : isDoubleDot (encode inPathSet name) = false := by
    rw [← Bool.not_eq_true, isDoubleDot_encode_iff hnamePercent]
    exact hdots (ascii "..") (by decide +kernel) (by decide)
  have hsplit : (name ++ 47 :: cut s).splitOnP isSlash = [name, cut s] := by
    rw [List.splitOnP_append_cons_of_forall_mem (fun b hb => isSlash_literal (hname b hb)) 47
        (by decide), List.splitOnP_eq_singleton fun b hb => (hs b (mem_cut hb)).2]
  have hkept : pushSegment [] (encode inPathSet name) false = [encode inPathSet name] := by
    rw [pushSegment, hdouble, hsingle]
    rfl
  have hname' (rest : Bytes) : unescape (encode inPathSet name ++ rest) = _ :=
    unescape_encode (fun h => absurd h hnamePercent) rest
  rw [requestPath, beforeQuery_strip hname, List.tail_cons, parsePath, hsplit, List.map_cons,
    List.map_cons, List.map_nil, pushSegments, pushSegments, hkept, pushSegment]
  by_cases htwo : cut s = ascii ".."
  · rw [if_pos htwo, if_pos ((isDoubleDot_encode_iff hpercent).mpr htwo)]
    rfl
  · rw [if_neg htwo, if_neg fun h => htwo ((isDoubleDot_encode_iff hpercent).mp h)]
    by_cases hone : cut s = ascii "."
    · rw [if_pos hone, if_pos ((isSingleDot_encode_iff hpercent).mpr hone)]
      show unescape (47 :: (encode inPathSet name ++ [47])) = _
      rw [unescape_cons (by decide), hname']
      rfl
    · rw [if_neg hone, if_neg fun h => hone ((isSingleDot_encode_iff hpercent).mp h)]
      show unescape (47 :: (encode inPathSet name ++ 47 :: (encode inPathSet (cut s) ++ []))) = _
      rw [List.append_nil, unescape_cons (by decide), hname', unescape_cons (by decide),
        unescape_encodeSegment hpercent]
      rfl

/-! ### The first slash -/

theorem pushSegments_ne_nil (kept : List Bytes) {segments : List Bytes} (h : segments ≠ []) :
    pushSegments kept segments ≠ [] := by
  induction segments generalizing kept with
  | nil => exact absurd rfl h
  | cons segment segments ih =>
    cases segments with
    | nil =>
      rw [pushSegments, pushSegment]
      split
      · simp
      · split <;> simp
    | cons segment' segments =>
      rw [pushSegments]
      exact ih _ (by simp)

/-- A requested path starts with a slash. -/
theorem requestPath_cases (url : Bytes) : ∃ rest, requestPath url = 47 :: rest := by
  rw [requestPath, parsePath]
  generalize hsegments : pushSegments _ _ = segments
  have hne : segments ≠ [] := by
    rw [← hsegments]
    refine pushSegments_ne_nil _ fun h => ?_
    exact List.splitOnP_ne_nil _ _ (List.map_eq_nil_iff.mp h)
  obtain ⟨segment, rest, hreverse⟩ := List.exists_cons_of_ne_nil (List.reverse_ne_nil_iff.mpr hne)
  rw [hreverse]
  exact ⟨_, rfl⟩

/-- What the server reads of it starts with a slash, too. -/
theorem unescape_requestPath_cases {url path : Bytes}
    (h : unescape (requestPath url) = some path) : ∃ rest, path = 47 :: rest := by
  obtain ⟨rest, hrest⟩ := requestPath_cases url
  rw [hrest, unescape_cons (by decide), Option.map_eq_some_iff] at h
  obtain ⟨s, _, hs⟩ := h
  exact ⟨s, hs.symm⟩

end ShareNotes.Lib.Url
