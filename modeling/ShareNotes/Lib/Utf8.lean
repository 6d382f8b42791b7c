import ShareNotes.Lib.Decimal

/-!
# Reading UTF-8

A string is read as characters, each with the bytes it was read from. A byte that
starts no well-formed sequence is read alone, as the replacement character. So
reading loses nothing (`flatMap_runes`), and ASCII is what the ASCII bytes are.
-/

namespace ShareNotes.Lib.Utf8

open ShareNotes.Lib.Decimal

/-- A character and its bytes. -/
structure Rune where
  code : ℕ
  bytes : Bytes
  form : (code < 128 ∧ bytes = [UInt8.ofNat code]) ∨
    (128 ≤ code ∧ bytes ≠ [] ∧ ∀ b ∈ bytes, 128 ≤ b.toNat)
  deriving DecidableEq

theorem Rune.bytes_ne_nil (r : Rune) : r.bytes ≠ [] := by
  rcases r.form with ⟨_, hbytes⟩ | ⟨_, hne, _⟩
  · rw [hbytes]
    simp
  · exact hne

/-- `RuneError` -/
def runeError : ℕ := 0xFFFD

/-- How many bytes a sequence has that starts with this byte; 1 if none does. -/
def sequenceLength (b : ℕ) : ℕ :=
  if b < 0xC2 then 1 else if b < 0xE0 then 2 else if b < 0xF0 then 3 else if b < 0xF5 then 4 else 1

/-- What the second byte may be. -/
def acceptRange (b : ℕ) : ℕ × ℕ :=
  if b = 0xE0 then (0xA0, 0xBF) else if b = 0xED then (0x80, 0x9F)
  else if b = 0xF0 then (0x90, 0xBF) else if b = 0xF4 then (0x80, 0x8F) else (0x80, 0xBF)

def isTail (b : ℕ) : Bool := 0x80 ≤ b && b ≤ 0xBF

def accepts (b c : ℕ) : Bool := (acceptRange b).1 ≤ c && c ≤ (acceptRange b).2

/-- What the first byte of a sequence has on top of its part of the code. -/
def leading (length : ℕ) : ℕ := if length = 2 then 0xC0 else if length = 3 then 0xE0 else 0xF0

/-- The bytes behind `b` complete a sequence. -/
def Completes (b : ℕ) (tail : Bytes) : Prop :=
  tail ≠ [] ∧ tail.length = sequenceLength b - 1 ∧
    (∀ c ∈ tail.head?, accepts b c.toNat = true) ∧ ∀ c ∈ tail.tail, isTail c.toNat = true

instance (b : ℕ) (tail : Bytes) : Decidable (Completes b tail) :=
  inferInstanceAs (Decidable (_ ∧ _ ∧ _ ∧ _))

/-- `DecodeRune`: the code, and the bytes behind the first one. -/
def decodeRune (b : UInt8) (s : Bytes) : ℕ × Bytes :=
  if b.toNat < 0x80 then (b.toNat, [])
  else
    let tail := s.take (sequenceLength b.toNat - 1)
    if Completes b.toNat tail then
      (tail.foldl (fun n c => n * 64 + (c.toNat - 0x80))
        (b.toNat - leading (sequenceLength b.toNat)), tail)
    else (runeError, [])

/-- The second byte is a tail, and where the first one adds nothing to the code it is not the
least of them. -/
theorem accepts_spec {b c : ℕ} (h : accepts b c = true) :
    0x80 ≤ c ∧ (b = 0xE0 → 0xA0 ≤ c) ∧ (b = 0xF0 → 0x90 ≤ c) := by
  rw [accepts, Bool.and_eq_true, decide_eq_true_eq] at h
  have hle := h.1
  rw [acceptRange] at hle
  split_ifs at hle <;> omega

theorem le_of_isTail {b : ℕ} (h : isTail b = true) : 0x80 ≤ b := by
  rw [isTail, Bool.and_eq_true, decide_eq_true_eq] at h
  exact h.1

theorem sequenceLength_spec {b n : ℕ} (h : sequenceLength b = n) :
    (n = 2 → 0xC2 ≤ b) ∧ (n = 3 → 0xE0 ≤ b) ∧ (n = 4 → 0xF0 ≤ b) := by
  rw [sequenceLength] at h
  split_ifs at h <;> omega

theorem Completes.tails {b : ℕ} {tail : Bytes} (h : Completes b tail) :
    ∀ c ∈ tail, 128 ≤ c.toNat := by
  obtain ⟨hne, _, hfirst, hrest⟩ := h
  obtain ⟨c, tail, rfl⟩ := List.exists_cons_of_ne_nil hne
  rw [List.forall_mem_cons]
  exact ⟨(accepts_spec (hfirst c rfl)).1, fun d hd => le_of_isTail (hrest d hd)⟩

/-- No sequence codes an ASCII character. -/
theorem Completes.code {b : ℕ} {tail : Bytes} (h : Completes b tail) :
    128 ≤ tail.foldl (fun n c => n * 64 + (c.toNat - 0x80)) (b - leading (sequenceLength b)) := by
  obtain ⟨hne, hlen, hfirst, _⟩ := h
  obtain ⟨h2, h3, h4⟩ := sequenceLength_spec (b := b) rfl
  obtain ⟨c, tail, rfl⟩ := List.exists_cons_of_ne_nil hne
  have hc := accepts_spec (hfirst c rfl)
  rw [List.length_cons] at hlen
  have hle : sequenceLength b ≤ 4 := by
    rw [sequenceLength]
    split_ifs <;> omega
  generalize sequenceLength b = n at *
  rcases tail with _ | ⟨d, _ | ⟨e, _ | ⟨f, tail⟩⟩⟩
  · obtain rfl : n = 2 := by
      rw [List.length_nil] at hlen
      omega
    show 128 ≤ (b - 0xC0) * 64 + (c.toNat - 0x80)
    omega
  · obtain rfl : n = 3 := by
      rw [List.length_singleton] at hlen
      omega
    show 128 ≤ ((b - 0xE0) * 64 + (c.toNat - 0x80)) * 64 + (d.toNat - 0x80)
    omega
  · obtain rfl : n = 4 := by
      simp only [List.length_cons, List.length_nil] at hlen
      omega
    show 128 ≤ (((b - 0xF0) * 64 + (c.toNat - 0x80)) * 64 + (d.toNat - 0x80)) * 64 +
      (e.toNat - 0x80)
    omega
  · simp only [List.length_cons] at hlen
    omega

/-- What is read is a part of the string; beyond ASCII, so is each byte of it. -/
theorem decodeRune_spec (b : UInt8) (s : Bytes) :
    (decodeRune b s).2 <+: s ∧
      ((b.toNat < 128 ∧ (decodeRune b s).1 = b.toNat ∧ (decodeRune b s).2 = []) ∨
        (128 ≤ b.toNat ∧ 128 ≤ (decodeRune b s).1 ∧ ∀ c ∈ (decodeRune b s).2, 128 ≤ c.toNat)) := by
  rw [decodeRune]
  split
  · rename_i hb
    exact ⟨List.nil_prefix, Or.inl ⟨hb, rfl, rfl⟩⟩
  · rename_i hb
    have hle : 128 ≤ b.toNat := Nat.le_of_not_lt hb
    by_cases h : Completes b.toNat (s.take (sequenceLength b.toNat - 1))
    · rw [if_pos h]
      exact ⟨List.take_prefix _ _, Or.inr ⟨hle, h.code, h.tails⟩⟩
    · rw [if_neg h]
      exact ⟨List.nil_prefix, Or.inr ⟨hle, by decide, by simp⟩⟩

/-- The first character of a string. -/
def readRune (b : UInt8) (s : Bytes) : Rune where
  code := (decodeRune b s).1
  bytes := b :: (decodeRune b s).2
  form := by
    rcases (decodeRune_spec b s).2 with ⟨hb, hcode, htail⟩ | ⟨hb, hcode, htail⟩
    · rw [hcode, htail, UInt8.ofNat_toNat]
      exact Or.inl ⟨hb, rfl⟩
    · refine Or.inr ⟨hcode, by simp, ?_⟩
      rw [List.forall_mem_cons]
      exact ⟨hb, htail⟩

def runesFrom : ℕ → Bytes → List Rune
  | 0, _ => []
  | _ + 1, [] => []
  | n + 1, b :: s => readRune b s :: runesFrom n (s.drop (decodeRune b s).2.length)

/-- The characters of a string. -/
def runes (s : Bytes) : List Rune := runesFrom s.length s

theorem flatMap_runesFrom {n : ℕ} {s : Bytes} (hn : s.length ≤ n) :
    (runesFrom n s).flatMap Rune.bytes = s := by
  induction n generalizing s with
  | zero =>
    rw [Nat.le_zero, List.length_eq_zero_iff] at hn
    rw [hn]
    rfl
  | succ n ih =>
    cases s with
    | nil => rfl
    | cons b s =>
      obtain ⟨rest, hrest⟩ := (decodeRune_spec b s).1
      have hdrop : s.drop (decodeRune b s).2.length = rest := by
        nth_rewrite 2 [← hrest]
        exact List.drop_left
      rw [List.length_cons] at hn
      rw [runesFrom, List.flatMap_cons, hdrop, ih]
      · show b :: ((decodeRune b s).2 ++ rest) = b :: s
        rw [hrest]
      · have hlen := congrArg List.length hrest
        rw [List.length_append] at hlen
        omega

/-- **Reading loses nothing.** -/
theorem flatMap_runes (s : Bytes) : (runes s).flatMap Rune.bytes = s := flatMap_runesFrom le_rfl

/-! ### Reading a string in two parts -/

theorem runesFrom_eq {n : ℕ} {s : Bytes} (hn : s.length ≤ n) : runesFrom n s = runes s := by
  suffices h : ∀ k n, ∀ s : Bytes, s.length ≤ k → s.length ≤ n → runesFrom n s = runesFrom k s from
    h s.length n s le_rfl hn
  intro k
  induction k with
  | zero =>
    intro n s hk _
    rw [Nat.le_zero, List.length_eq_zero_iff] at hk
    rw [hk]
    cases n <;> rfl
  | succ k ih =>
    intro n s hk hn
    cases s with
    | nil => cases n <;> rfl
    | cons b s =>
      rw [List.length_cons] at hk hn
      obtain ⟨n, rfl⟩ : ∃ j, n = j + 1 := ⟨n - 1, by omega⟩
      rw [runesFrom, runesFrom]
      congr 1
      apply ih <;> rw [List.length_drop] <;> omega

theorem runes_cons (b : UInt8) (s : Bytes) :
    runes (b :: s) = readRune b s :: runes (s.drop (decodeRune b s).2.length) := by
  have hdrop : (s.drop (decodeRune b s).2.length).length ≤ s.length := by
    rw [List.length_drop]
    omega
  rw [← runesFrom_eq hdrop]
  rfl

/-- An ASCII byte starts a new character. -/
theorem decodeRune_append (b : UInt8) (s t : Bytes) (ht : ∀ c ∈ t.head?, c.toNat < 128) :
    decodeRune b (s ++ t) = decodeRune b s := by
  have htake : ∀ n, Completes b.toNat ((s ++ t).take n) → (s ++ t).take n = s.take n := by
    intro n h
    rw [List.take_append]
    cases hrest : t.take (n - s.length) with
    | nil => rw [List.append_nil]
    | cons c rest =>
      -- the byte would have to be a part of the sequence
      have hc : c.toNat < 128 := by
        refine ht c ?_
        cases t with
        | nil => simp at hrest
        | cons d t =>
          cases hn : n - s.length with
          | zero => simp [hn] at hrest
          | succ k =>
            rw [hn, List.take_succ_cons] at hrest
            rw [(List.cons.inj hrest).1]
            rfl
      have hmem : c ∈ (s ++ t).take n := by
        rw [List.take_append, hrest]
        simp
      exact absurd (h.tails c hmem) (by omega)
  rw [decodeRune, decodeRune]
  by_cases hb : b.toNat < 0x80
  · rw [if_pos hb, if_pos hb]
  · rw [if_neg hb, if_neg hb]
    dsimp only
    by_cases h : Completes b.toNat ((s ++ t).take (sequenceLength b.toNat - 1))
    · rw [htake _ h]
    · rw [if_neg h, if_neg]
      intro hs
      refine h ?_
      have hlen := hs.2.1
      rw [List.length_take] at hlen
      rw [List.take_append_of_le_length (by omega)]
      exact hs

theorem runes_append (s t : Bytes) (ht : ∀ c ∈ t.head?, c.toNat < 128) :
    runes (s ++ t) = runes s ++ runes t := by
  induction hn : s.length using Nat.strong_induction_on generalizing s with
  | _ n ih =>
    cases s with
    | nil => rfl
    | cons b s =>
      have hread : readRune b (s ++ t) = readRune b s := by
        rw [readRune, readRune]
        congr 2 <;> rw [decodeRune_append b s t ht]
      have hle := (decodeRune_spec b s).1.length_le
      rw [List.cons_append, runes_cons, runes_cons, decodeRune_append b s t ht, hread,
        List.drop_append_of_le_length hle, ih _ _ _ rfl, List.cons_append]
      rw [← hn, List.length_cons, List.length_drop]
      omega

theorem decodeRune_ascii {b : UInt8} (hb : b.toNat < 128) (s : Bytes) :
    decodeRune b s = (b.toNat, []) := by
  rw [decodeRune, if_pos hb]

theorem runes_cons_ascii {b : UInt8} (hb : b.toNat < 128) (s : Bytes) :
    runes (b :: s) = readRune b s :: runes s ∧ (readRune b s).code = b.toNat := by
  have hdecode := decodeRune_ascii hb s
  constructor
  · rw [runes_cons, hdecode]
    rfl
  · show (decodeRune b s).1 = _
    rw [hdecode]

/-- The characters of an ASCII string, whatever follows it. -/
theorem runes_ascii_append {s : Bytes} (hs : ∀ b ∈ s, b.toNat < 128) (t : Bytes) :
    ∃ m, runes (s ++ t) = m ++ runes t ∧ m.map Rune.code = s.map UInt8.toNat := by
  induction s with
  | nil => exact ⟨[], rfl, rfl⟩
  | cons b s ih =>
    rw [List.forall_mem_cons] at hs
    obtain ⟨m, hm, hcodes⟩ := ih hs.2
    obtain ⟨hcons, hcode⟩ := runes_cons_ascii hs.1 (s ++ t)
    refine ⟨readRune b (s ++ t) :: m, ?_, ?_⟩
    · rw [List.cons_append, hcons, hm, List.cons_append]
    · rw [List.map_cons, List.map_cons, hcode, hcodes]

end ShareNotes.Lib.Utf8
