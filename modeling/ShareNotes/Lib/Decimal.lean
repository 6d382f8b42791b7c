import Mathlib

/-!
# Byte strings and decimal numerals

A `Bytes` is a string of a language whose strings are byte sequences. Numbers
are written in decimal by `formatDecimal` (natural numbers) and `itoa` (all
integers), and read back by `parseUint`, which rejects a numeral that is not
below a bound, and by `integerAffinity`, which has no bound.

The round trips hold for every number, and the writers only write digits.
-/

namespace ShareNotes.Lib.Decimal

abbrev Bytes := List UInt8

/-- Byte strings are compared by `==`. -/
instance : LawfulBEq Bytes := inferInstance

/-- The bytes of an ASCII literal. -/
def ascii (s : String) : Bytes := s.toList.map fun c => UInt8.ofNat c.toNat

/-- `'0' <= b && b <= '9'`. -/
def isDigit (b : UInt8) : Bool := 48 ≤ b.toNat && b.toNat ≤ 57

/-- The ways in which a numeral is rejected. -/
inductive NumErr
  | errSyntax
  | errRange
  deriving DecidableEq, Repr

/-- Read digits onto the number read so far, from the left. -/
def parseDigits (bound : ℕ) : Bytes → ℕ → Except NumErr ℕ
  | [], n => .ok n
  | b :: bs, n =>
    if isDigit b then
      if n * 10 + (b.toNat - 48) < bound then parseDigits bound bs (n * 10 + (b.toNat - 48))
      else .error .errRange
    else .error .errSyntax

/-- A non-empty numeral for a number below `bound`. -/
def parseUint (bound : ℕ) : Bytes → Except NumErr ℕ
  | [] => .error .errSyntax
  | s => parseDigits bound s 0

def formatDecimal (n : ℕ) : Bytes := (Nat.toDigits 10 n).map fun c => UInt8.ofNat c.toNat

/-- A leading minus sign, then the digits. -/
def itoa : ℤ → Bytes
  | .ofNat n => formatDecimal n
  | .negSucc n => 45 :: formatDecimal (n + 1)

/-- Read digits of any length onto the number read so far. -/
def readDigits : Bytes → ℕ → Option ℕ
  | [], n => some n
  | b :: bs, n => if isDigit b then readDigits bs (n * 10 + (b.toNat - 48)) else none

/-- The integer that a text denotes when it is compared with an integer column. -/
def integerAffinity : Bytes → Option ℤ
  | [] => none
  | b :: bs =>
    if b = 45 then
      if bs = [] then none else (readDigits bs 0).map fun n => -(n : ℤ)
    else (readDigits (b :: bs) 0).map fun n => (n : ℤ)

/-- The number that a string of digits denotes. -/
def denoted (digits : Bytes) : ℕ := digits.foldl (fun n b => n * 10 + (b.toNat - 48)) 0

/-! ### Digits -/

theorem digit_bounds {c : Char} (hc : c.isDigit = true) : 48 ≤ c.toNat ∧ c.toNat ≤ 57 := by
  simp only [Char.isDigit, Bool.and_eq_true, decide_eq_true_eq] at hc
  obtain ⟨hlo, hhi⟩ := hc
  rw [ge_iff_le, UInt32.le_iff_toNat_le] at hlo
  rw [UInt32.le_iff_toNat_le] at hhi
  exact ⟨hlo, hhi⟩

theorem toNat_digit {c : Char} (hc : c.isDigit = true) : (UInt8.ofNat c.toNat).toNat = c.toNat := by
  have := digit_bounds hc
  rw [UInt8.toNat_ofNat']
  omega

theorem isDigit_digit {c : Char} (hc : c.isDigit = true) : isDigit (UInt8.ofNat c.toNat) = true := by
  have := digit_bounds hc
  simp only [isDigit, toNat_digit hc, Bool.and_eq_true, decide_eq_true_eq]
  exact this

theorem isDigit_of_mem_formatDecimal {n : ℕ} {b : UInt8} (hb : b ∈ formatDecimal n) :
    isDigit b = true := by
  obtain ⟨c, hc, rfl⟩ := List.mem_map.mp hb
  exact isDigit_digit (Nat.isDigit_of_mem_toDigits (by decide) (by decide) hc)

@[simp] theorem formatDecimal_ne_nil (n : ℕ) : formatDecimal n ≠ [] := by
  simp [formatDecimal, Nat.toDigits_ne_nil]

/-! ### Round trips -/

theorem le_ofDigitChars (cs : List Char) (n : ℕ) : n ≤ Nat.ofDigitChars 10 cs n := by
  induction cs generalizing n with
  | nil => simp
  | cons c cs ih =>
    rw [Nat.ofDigitChars_cons]
    have := ih (10 * n + (c.toNat - '0'.toNat))
    omega

theorem parseDigits_map (bound : ℕ) (cs : List Char) (n : ℕ) (hcs : ∀ c ∈ cs, c.isDigit = true)
    (hbound : Nat.ofDigitChars 10 cs n < bound) :
    parseDigits bound (cs.map fun c => UInt8.ofNat c.toNat) n =
      .ok (Nat.ofDigitChars 10 cs n) := by
  induction cs generalizing n with
  | nil => simp [parseDigits]
  | cons c cs ih =>
    have hc := hcs c (by simp)
    have h48 : '0'.toNat = 48 := rfl
    rw [Nat.ofDigitChars_cons, h48, Nat.mul_comm 10 n] at hbound ⊢
    have hle := le_ofDigitChars cs (n * 10 + (c.toNat - 48))
    rw [List.map_cons, parseDigits, if_pos (isDigit_digit hc), toNat_digit hc,
      if_pos (by omega)]
    exact ih _ (fun d hd => hcs d (by simp [hd])) hbound

theorem readDigits_map (cs : List Char) (n : ℕ) (hcs : ∀ c ∈ cs, c.isDigit = true) :
    readDigits (cs.map fun c => UInt8.ofNat c.toNat) n = some (Nat.ofDigitChars 10 cs n) := by
  induction cs generalizing n with
  | nil => simp [readDigits]
  | cons c cs ih =>
    have hc := hcs c (by simp)
    rw [Nat.ofDigitChars_cons, List.map_cons, readDigits, if_pos (isDigit_digit hc),
      toNat_digit hc, Nat.mul_comm n 10]
    exact ih _ fun d hd => hcs d (by simp [hd])

theorem isDigit_toDigits (n : ℕ) : ∀ c ∈ Nat.toDigits 10 n, c.isDigit = true :=
  fun _ hc => Nat.isDigit_of_mem_toDigits (by decide) (by decide) hc

/-- **Reading back a number.** Every number below the bound survives. -/
theorem parseUint_formatDecimal {bound n : ℕ} (hn : n < bound) :
    parseUint bound (formatDecimal n) = .ok n := by
  have hp := parseDigits_map bound (Nat.toDigits 10 n) 0 (isDigit_toDigits n)
    (by rw [Nat.ofDigitChars_ten_toDigits]; exact hn)
  rw [Nat.ofDigitChars_ten_toDigits] at hp
  unfold parseUint
  split
  · rename_i hnil
    exact absurd hnil (formatDecimal_ne_nil n)
  · exact hp

theorem readDigits_formatDecimal (n : ℕ) : readDigits (formatDecimal n) 0 = some n := by
  have hr := readDigits_map (Nat.toDigits 10 n) 0 (isDigit_toDigits n)
  rwa [Nat.ofDigitChars_ten_toDigits] at hr

theorem le_foldl_digits (digits : Bytes) (n : ℕ) :
    n ≤ digits.foldl (fun n b => n * 10 + (b.toNat - 48)) n := by
  induction digits generalizing n with
  | nil => exact le_rfl
  | cons b digits ih =>
    rw [List.foldl_cons]
    have := ih (n * 10 + (b.toNat - 48))
    omega

theorem parseDigits_foldl {bound : ℕ} {digits : Bytes} (hdigits : ∀ b ∈ digits, isDigit b = true)
    {n : ℕ} (hn : n < bound) :
    parseDigits bound digits n =
      if digits.foldl (fun n b => n * 10 + (b.toNat - 48)) n < bound then
        .ok (digits.foldl (fun n b => n * 10 + (b.toNat - 48)) n)
      else .error .errRange := by
  induction digits generalizing n with
  | nil => rw [parseDigits, List.foldl_nil, if_pos hn]
  | cons b digits ih =>
    rw [parseDigits, if_pos (hdigits b List.mem_cons_self), List.foldl_cons]
    have hle := le_foldl_digits digits (n * 10 + (b.toNat - 48))
    by_cases hnext : n * 10 + (b.toNat - 48) < bound
    · rw [if_pos hnext]
      exact ih (fun d hd => hdigits d (List.mem_cons_of_mem b hd)) hnext
    · rw [if_neg hnext, if_neg (by omega)]

/-- **What is read from digits** is the number they denote, unless it is too large. -/
theorem parseUint_digits {bound : ℕ} {digits : Bytes} (hne : digits ≠ [])
    (hdigits : ∀ b ∈ digits, isDigit b = true) (hbound : 0 < bound) :
    parseUint bound digits =
      if denoted digits < bound then .ok (denoted digits) else .error .errRange := by
  cases digits with
  | nil => exact absurd rfl hne
  | cons b digits => exact parseDigits_foldl hdigits hbound

/-- A number is denoted by its numeral. -/
theorem denoted_formatDecimal (n : ℕ) : denoted (formatDecimal n) = n := by
  have h := parseUint_formatDecimal (Nat.lt_succ_self n)
  rw [parseUint_digits (formatDecimal_ne_nil n) (fun b => isDigit_of_mem_formatDecimal)
    (Nat.succ_pos n)] at h
  split at h
  · exact Except.ok.inj h
  · exact absurd h (by simp)

/-- **Reading back an integer.** -/
@[simp] theorem integerAffinity_itoa (n : ℤ) : integerAffinity (itoa n) = some n := by
  cases n with
  | ofNat n =>
    have hr := readDigits_formatDecimal n
    have hd := fun b => isDigit_of_mem_formatDecimal (n := n) (b := b)
    have hne := formatDecimal_ne_nil n
    show integerAffinity (formatDecimal n) = _
    cases hs : formatDecimal n with
    | nil => exact absurd hs hne
    | cons b bs =>
      rw [hs] at hr hd
      have hminus : b ≠ 45 := by
        intro h
        have hb := hd b (by simp)
        rw [h] at hb
        exact absurd hb (by decide)
      rw [integerAffinity, if_neg hminus, hr]
      rfl
  | negSucc n =>
    show integerAffinity (45 :: formatDecimal (n + 1)) = _
    rw [integerAffinity, if_pos rfl, if_neg (formatDecimal_ne_nil _), readDigits_formatDecimal]
    rfl

example : itoa (-120) = ascii "-120" := by decide

example : parseUint (2 ^ 64) (ascii "18446744073709551616") = .error .errRange := by decide

end ShareNotes.Lib.Decimal
