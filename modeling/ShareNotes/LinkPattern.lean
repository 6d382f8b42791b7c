import ShareNotes.Lib.Regexp
import ShareNotes.Lib.Utf8

/-!
# The pattern for links

`xurls.Relaxed`, piece by piece as the package `xurls` puts it together, and what
`FindAllString` returns for it. Of Unicode the pattern uses four classes and case
folding, and of the list of top-level domains that the package generates each name;
both are given with what is known of their ASCII part.
-/

namespace ShareNotes.LinkPattern

open ShareNotes.Lib.Decimal ShareNotes.Lib.Regexp ShareNotes.Lib.Regexp.Pattern
open ShareNotes.Lib.Utf8

/-! ### Characters -/

def isAlpha (c : ℕ) : Bool := (97 ≤ c && c ≤ 122) || (65 ≤ c && c ≤ 90)

def isDigitCode (c : ℕ) : Bool := 48 ≤ c && c ≤ 57

def isAlnum (c : ℕ) : Bool := isAlpha c || isDigitCode c

/-- The characters of `\w`. -/
def isWord (c : Rune) : Bool := isAlnum c.code || c.code == 95

/-- The tables of Unicode: the classes `L`, `N`, `Sc` and `So`, and which characters are
the same up to case. -/
structure Unicode where
  letter : ℕ → Bool
  number : ℕ → Bool
  currency : ℕ → Bool
  otherSymb : ℕ → Bool
  sameFold : ℕ → ℕ → Bool
  letter_ascii : ∀ c < 128, letter c = isAlpha c
  number_ascii : ∀ c < 128, number c = isDigitCode c
  currency_ascii : ∀ c < 128, currency c = (c == 36)
  otherSymb_ascii : ∀ c < 128, otherSymb c = false
  /-- A character of ASCII is the same as another one only if it is a letter. -/
  sameFold_ascii : ∀ a c, c < 128 → sameFold a c = true → a = c ∨ isAlpha c = true
  sameFold_refl : ∀ c, sameFold c c = true

/-- The names of the list `gtld`, of letters, digits and hyphens as far as they are ASCII. -/
structure Gtld where
  names : List (List ℕ)
  ne_nil : ∀ name ∈ names, name ≠ []
  chars : ∀ name ∈ names, ∀ c ∈ name, c < 128 → isAlnum c = true ∨ c = 45
  last : ∀ name ∈ names, ∀ c ∈ name.getLast?, c < 128 → isAlnum c = true

/-- The tables as far as ASCII goes. -/
def asciiUnicode : Unicode where
  letter := isAlpha
  number := isDigitCode
  currency c := c == 36
  otherSymb _ := false
  sameFold a c := a == c || (isAlpha c && (a == c + 32 || a + 32 == c))
  letter_ascii _ _ := rfl
  number_ascii _ _ := rfl
  currency_ascii _ _ := rfl
  otherSymb_ascii _ _ := rfl
  sameFold_ascii a c _ h := by
    rw [Bool.or_eq_true, Bool.and_eq_true, beq_iff_eq] at h
    exact h.imp id fun h => h.1
  sameFold_refl c := by rw [beq_self_eq_true, Bool.true_or]

def codes (s : String) : List ℕ := s.toList.map Char.toNat

/-- The names of `PseudoTLDs`, which are part of the list. -/
def pseudoTLDs : Gtld where
  names := ["bit", "example", "exit", "gnu", "i2p", "invalid", "local", "localhost", "onion",
    "test", "zkey"].map codes
  ne_nil := by decide
  chars := by
    have hall : (["bit", "example", "exit", "gnu", "i2p", "invalid", "local", "localhost", "onion",
        "test", "zkey"].map codes).all (fun name => name.all isAlnum) = true := by decide
    exact fun name hname c hc _ =>
      Or.inl (List.all_eq_true.mp (List.all_eq_true.mp hall name hname) c hc)
  last := by
    have hall : (["bit", "example", "exit", "gnu", "i2p", "invalid", "local", "localhost", "onion",
        "test", "zkey"].map codes).all (fun name => name.all isAlnum) = true := by decide
    exact fun name hname c hc _ =>
      List.all_eq_true.mp (List.all_eq_true.mp hall name hname) c (List.mem_of_mem_getLast? hc)

/-- A character of a set that is written out. -/
def among (s : String) (c : Rune) : Bool := (codes s).contains c.code

def between (lo hi : Char) (c : Rune) : Bool := lo.toNat ≤ c.code && c.code ≤ hi.toNat

/-- A string that stands for itself. -/
def lit (s : String) : Pattern Rune := word (fun x c => c.code == x) (codes s)

def range (lo hi : Char) : Pattern Rune := symbol (between lo hi)

variable (u : Unicode) (gtld : Gtld)

def isIriChar (c : Rune) : Bool := u.letter c.code || u.number c.code

def isEndChar (c : Rune) : Bool := isIriChar u c || among "/-+_&~*%=#" c || u.currency c.code

def isMidChar (c : Rune) : Bool := isEndChar u c || among "@.,:;'?!|" c || u.otherSymb c.code

/-- A string up to case. -/
def folded (s : List ℕ) : Pattern Rune := word (fun x c => u.sameFold x c.code) s

/-! ### Paths and schemes -/

def midChars : Pattern Rune := star (symbol (isMidChar u))

def bracketed (opening closing : String) (r : Pattern Rune) : Pattern Rune :=
  seq (lit opening) (seq r (lit closing))

/-- A pair of brackets, and in it some pairs that have none in them. -/
def wellNested (opening closing : String) : Pattern Rune :=
  bracketed opening closing
    (seq (midChars u) (star (seq (bracketed opening closing (midChars u)) (midChars u))))

def wellParen : Pattern Rune := wellNested u "(" ")"

def wellBrack : Pattern Rune := wellNested u "[" "]"

def wellAll : Pattern Rune := alt (wellParen u) (wellBrack u)

def pathCont : Pattern Rune :=
  plus (seq (midChars u) (plus (alt (wellAll u) (symbol (isEndChar u)))))

def comScheme : Pattern Rune :=
  seq (symbol fun c => isAlpha c.code) (seq
    (star (symbol fun c => isAlpha c.code || among ".-+" c)) (lit "://"))

def otherScheme : Pattern Rune :=
  seq (oneOf (["bitcoin", "file", "magnet", "mailto", "sms", "tel", "xmpp"].map fun s =>
    folded u (codes s))) (lit ":")

def scheme : Pattern Rune := alt comScheme (otherScheme u)

/-! ### Hosts -/

def iri : Pattern Rune :=
  seq (symbol (isIriChar u)) (opt (seq (star (symbol fun c => isIriChar u c || among "-" c))
    (symbol (isIriChar u))))

def domain : Pattern Rune := plus (seq (iri u) (lit "."))

def octet : Pattern Rune :=
  oneOf [seq (lit "25") (range '0' '5'), seq (lit "2") (seq (range '0' '4') (range '0' '9')),
    seq (lit "1") (times (range '0' '9') 2), seq (range '1' '9') (range '0' '9'), range '0' '9']

def ipv4Addr : Pattern Rune :=
  seq wordBoundary (seq octet (seq (lit ".") (seq octet (seq (lit ".") (seq octet (seq (lit ".")
    (seq octet wordBoundary)))))))

def hexDigit : Pattern Rune :=
  symbol fun c => between '0' '9' c || between 'a' 'f' c || between 'A' 'F' c

/-- `[0-9a-fA-F]{1,4}` -/
def hexGroup : Pattern Rune := seq hexDigit (upTo hexDigit 3)

def colonGroup : Pattern Rune := seq (lit ":") hexGroup

def groupColon : Pattern Rune := seq hexGroup (lit ":")

/-- `25[0-5]|(2[0-4]|1[0-9]|[1-9])?[0-9]` -/
def octet6 : Pattern Rune :=
  alt (seq (lit "25") (range '0' '5'))
    (seq (opt (oneOf [seq (lit "2") (range '0' '4'), seq (lit "1") (range '0' '9'), range '1' '9']))
      (range '0' '9'))

/-- The first groups of an address, up to the place of the last two. -/
def headGroups : Pattern Rune :=
  alt
    (seq groupColon (alt
      (seq groupColon (alt
        (seq groupColon (alt
          (seq groupColon (opt (alt (seq groupColon (upTo hexDigit 4)) colonGroup)))
          (upTo colonGroup 2)))
        (upTo colonGroup 3)))
      (upTo colonGroup 4)))
    (seq (lit ":") (upTo colonGroup 5))

def lastGroups : Pattern Rune :=
  alt (times colonGroup 2) (seq (lit ":") (seq octet6 (times (seq (lit ".") octet6) 3)))

def ipv6Addr : Pattern Rune :=
  oneOf [seq headGroups lastGroups,
    seq (alt (seq groupColon (upTo groupColon 5)) (lit ":")) colonGroup,
    seq (times groupColon 7) (lit ":")]

def ipAddr : Pattern Rune := alt ipv4Addr ipv6Addr

def topLevel : Pattern Rune := oneOf (gtld.names.map (folded u))

def site : Pattern Rune := seq (domain u) (topLevel u gtld)

def hostName : Pattern Rune := alt (site u gtld) ipAddr

def port : Pattern Rune := opt (seq (lit ":") (star (range '0' '9')))

def path : Pattern Rune :=
  oneOf [lit "/", seq (lit "/") (pathCont u), wordBoundary, endText]

def webURL : Pattern Rune := seq (hostName u gtld) (seq port (path u))

def strict : Pattern Rune := seq wordBoundary (seq (scheme u) (pathCont u))

def relaxed : Pattern Rune := alt (strict u) (webURL u gtld)

/-- The matches of the pattern in the characters of a text, each with what is skipped before it. -/
def linkMatches (text : Bytes) : List (List Rune × List Rune) :=
  findAll isWord (relaxed u gtld) (runes text)

/-- `xurls.Relaxed.FindAllString(text, -1)` -/
def findAllString (text : Bytes) : List Bytes :=
  (linkMatches u gtld text).map fun x => x.2.flatMap Rune.bytes

end ShareNotes.LinkPattern
