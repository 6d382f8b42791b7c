import ShareNotes.Lib.Decimal

/-!
# Session tokens

A form page carries a numbered token with a random string of a hundred letters.
`randomStringLength` fills its buffer from the end, taking 6-bit groups out of
63-bit draws and skipping those that are not the index of a letter; the loop has
no bound, so the model gives it `fuel` and returns `none` when it runs out.

`IssuedBy sidm ts` relates the manager's map to the tokens generated so far, and
generating one more keeps it. From it follow the two halves of what a check of a
token means: an accepted token is an issued one unless its string is empty and
its number was never given out, and an issued token is accepted as long as the
64-bit counter has not come round.
-/

namespace ShareNotes.Token

open ShareNotes.Lib.Decimal

structure SynchronizedToken where
  id : UInt64
  tokenString : Bytes
  deriving DecidableEq, Repr

/-- The map answers `none` for a key that it does not hold. -/
structure SessionIDManager where
  currentID : UInt64
  sessionTokens : UInt64 → Option Bytes

/-- `sidManager` as the program starts. -/
def SessionIDManager.initial : SessionIDManager := ⟨0, fun _ => none⟩

/-! ### Random strings -/

def characters : Bytes := ascii "abcdefghijklmnopqrstuvwxyzABCDEFGHIJKLMNOPQRSTUVWXYZ"

def characterIndexBits : ℕ := 6

def characterIndexMask : ℕ := (1 <<< characterIndexBits) - 1

def characterIndexMax : ℕ := 63 / characterIndexBits

/-- What `src.Int63()` returns. -/
abbrev Int63 := Fin (2 ^ 63)

/-- The variables of the loop. `left` is one more than the source's `i`, and
`drawn` counts the draws taken from the source of randomness. -/
structure RandomLoop where
  result : Bytes
  cache : ℕ
  remain : ℕ
  left : ℕ
  drawn : ℕ

/-- Draw again when the cache is used up. -/
def RandomLoop.refill (src : ℕ → Int63) (st : RandomLoop) : RandomLoop :=
  if st.remain = 0 then
    { st with cache := (src st.drawn).val, remain := characterIndexMax, drawn := st.drawn + 1 }
  else st

/-- Write the letter of the lowest group, if it is the index of one. -/
def RandomLoop.accept (st : RandomLoop) : RandomLoop :=
  match characters[st.cache &&& characterIndexMask]? with
  | some c => { st with result := st.result.set (st.left - 1) c, left := st.left - 1 }
  | none => st

/-- Drop the lowest group. -/
def RandomLoop.shift (st : RandomLoop) : RandomLoop :=
  { st with cache := st.cache >>> characterIndexBits, remain := st.remain - 1 }

/-- The body of the loop. -/
def RandomLoop.next (src : ℕ → Int63) (st : RandomLoop) : RandomLoop :=
  (st.refill src).accept.shift

def randomLoop (src : ℕ → Int63) : ℕ → RandomLoop → Option RandomLoop
  | 0, st => if st.left = 0 then some st else none
  | fuel + 1, st => if st.left = 0 then some st else randomLoop src fuel (st.next src)

/-- A string of `n` letters, and the number of draws taken so far. -/
def randomStringLength (src : ℕ → Int63) (fuel drawn n : ℕ) : Option (Bytes × ℕ) :=
  let st : RandomLoop :=
    { result := List.replicate n 0, cache := (src drawn).val, remain := characterIndexMax,
      left := n, drawn := drawn + 1 }
  (randomLoop src fuel st).map fun st => (st.result, st.drawn)

/-- The positions from `left` on hold letters. -/
def RandomLoop.Filled (n : ℕ) (st : RandomLoop) : Prop :=
  st.result.length = n ∧ st.left ≤ n ∧ ∀ b ∈ st.result.drop st.left, b ∈ characters

theorem RandomLoop.Filled.refill {n : ℕ} {st : RandomLoop} (h : st.Filled n) (src : ℕ → Int63) :
    (st.refill src).Filled n := by
  unfold RandomLoop.refill
  split <;> exact h

theorem RandomLoop.Filled.accept {n : ℕ} {st : RandomLoop} (h : st.Filled n) (hleft : st.left ≠ 0) :
    st.accept.Filled n := by
  obtain ⟨hlen, hle, hdrop⟩ := h
  unfold RandomLoop.accept
  split
  · rename_i c hc
    refine ⟨by rw [List.length_set, hlen], by show st.left - 1 ≤ n; omega, ?_⟩
    intro b hb
    have hlt : st.left - 1 < (st.result.set (st.left - 1) c).length := by
      rw [List.length_set]
      omega
    rw [List.drop_eq_getElem_cons hlt, List.getElem_set_self, List.mem_cons,
      List.drop_set_of_lt (by omega), show st.left - 1 + 1 = st.left from by omega] at hb
    rcases hb with hb | hb
    · rw [hb]
      exact List.mem_of_getElem? hc
    · exact hdrop b hb
  · exact ⟨hlen, hle, hdrop⟩

theorem refill_left (src : ℕ → Int63) (st : RandomLoop) : (st.refill src).left = st.left := by
  unfold RandomLoop.refill
  split <;> rfl

theorem RandomLoop.Filled.next {n : ℕ} {st : RandomLoop} (h : st.Filled n) (hleft : st.left ≠ 0)
    (src : ℕ → Int63) : (st.next src).Filled n :=
  (h.refill src).accept (by rw [refill_left]; exact hleft)

theorem randomLoop_filled {n : ℕ} (src : ℕ → Int63) (fuel : ℕ) {st st' : RandomLoop}
    (h : st.Filled n) (hrun : randomLoop src fuel st = some st') : st'.Filled n ∧ st'.left = 0 := by
  induction fuel generalizing st with
  | zero =>
    rw [randomLoop] at hrun
    split at hrun
    · rename_i h0
      rw [← Option.some.inj hrun]
      exact ⟨h, h0⟩
    · exact absurd hrun (by simp)
  | succ fuel ih =>
    rw [randomLoop] at hrun
    split at hrun
    · rename_i h0
      rw [← Option.some.inj hrun]
      exact ⟨h, h0⟩
    · rename_i h0
      exact ih (h.next h0 src) hrun

/-- A string that is returned has `n` bytes, all of them letters. -/
theorem randomStringLength_letters {src : ℕ → Int63} {fuel drawn n drawn' : ℕ} {s : Bytes}
    (hrun : randomStringLength src fuel drawn n = some (s, drawn')) :
    s.length = n ∧ ∀ b ∈ s, b ∈ characters := by
  rw [randomStringLength, Option.map_eq_some_iff] at hrun
  obtain ⟨st', hloop, hst⟩ := hrun
  have hinit : RandomLoop.Filled n
      ⟨List.replicate n 0, (src drawn).val, characterIndexMax, n, drawn + 1⟩ :=
    ⟨List.length_replicate, le_rfl, by simp⟩
  obtain ⟨⟨hlen, _, hdrop⟩, h0⟩ := randomLoop_filled src fuel hinit hloop
  rw [h0, List.drop_zero] at hdrop
  rw [Prod.mk.injEq] at hst
  rw [← hst.1]
  exact ⟨hlen, hdrop⟩

example : randomStringLength (fun _ => 0) 3 0 3 = some (ascii "aaa", 1) := by decide

/-! ### The token manager -/

/-- A new token, the manager that knows it, and the draws taken so far. -/
def SessionIDManager.generateSynchronizedToken (sidm : SessionIDManager) (src : ℕ → Int63)
    (fuel drawn : ℕ) : Option (SynchronizedToken × SessionIDManager × ℕ) :=
  (randomStringLength src fuel drawn 100).map fun p =>
    (⟨sidm.currentID, p.1⟩,
      { currentID := sidm.currentID + 1,
        sessionTokens := Function.update sidm.sessionTokens sidm.currentID (some p.1) },
      p.2)

/-- The comparison reads the map, which yields the empty string for a missing key. -/
def SessionIDManager.synchronizedTokenIsValid (sidm : SessionIDManager)
    (token : SynchronizedToken) : Bool :=
  (sidm.sessionTokens token.id).getD [] == token.tokenString

/-- The manager's state after the tokens `ts` were generated, oldest first. -/
structure IssuedBy (sidm : SessionIDManager) (ts : List SynchronizedToken) : Prop where
  current : sidm.currentID = UInt64.ofNat ts.length
  ids : ∀ k t, ts[k]? = some t → t.id = UInt64.ofNat k
  strings : ∀ t ∈ ts, t.tokenString.length = 100 ∧ ∀ b ∈ t.tokenString, b ∈ characters
  issued : ∀ id s, sidm.sessionTokens id = some s → ⟨id, s⟩ ∈ ts
  known : ∀ t ∈ ts, sidm.sessionTokens t.id ≠ none
  stored : ts.length ≤ 2 ^ 64 → ∀ t ∈ ts, sidm.sessionTokens t.id = some t.tokenString

theorem issuedBy_initial : IssuedBy SessionIDManager.initial [] where
  current := rfl
  ids := by simp
  strings := by simp
  issued := by simp [SessionIDManager.initial]
  known := by simp
  stored := by simp

/-- The number of a token tells its place among fewer than `2 ^ 64` tokens. -/
theorem ofNat_ne_of_lt {j k : ℕ} (hjk : j < k) (hk : k < 2 ^ 64) :
    UInt64.ofNat j ≠ UInt64.ofNat k := by
  intro h
  have hnat := congrArg UInt64.toNat h
  rw [UInt64.toNat_ofNat', UInt64.toNat_ofNat'] at hnat
  omega

/-- **Generating a token keeps the map in step with the tokens generated.** -/
theorem IssuedBy.generate {sidm sidm' : SessionIDManager} {ts : List SynchronizedToken}
    {src : ℕ → Int63} {fuel drawn drawn' : ℕ} {t : SynchronizedToken} (h : IssuedBy sidm ts)
    (hgen : sidm.generateSynchronizedToken src fuel drawn = some (t, sidm', drawn')) :
    IssuedBy sidm' (ts ++ [t]) := by
  rw [SessionIDManager.generateSynchronizedToken, Option.map_eq_some_iff] at hgen
  obtain ⟨⟨s, d⟩, hstr, hout⟩ := hgen
  simp only [Prod.mk.injEq] at hout
  obtain ⟨rfl, rfl, rfl⟩ := hout
  refine ⟨?_, ?_, ?_, ?_, ?_, ?_⟩
  · show sidm.currentID + 1 = UInt64.ofNat (ts ++ [_]).length
    rw [h.current, List.length_append, List.length_singleton, UInt64.ofNat_add]
    rfl
  · intro k t hk
    rw [List.getElem?_append] at hk
    split at hk
    · exact h.ids k t hk
    · rename_i hge
      obtain ⟨hlt, hval⟩ := List.getElem?_eq_some_iff.mp hk
      rw [List.length_singleton] at hlt
      have hkl : k = ts.length := by omega
      rw [← hval]
      simp only [List.getElem_singleton]
      rw [h.current, hkl]
  · intro t ht
    rw [List.mem_append, List.mem_singleton] at ht
    rcases ht with ht | ht
    · exact h.strings t ht
    · rw [ht]
      exact randomStringLength_letters hstr
  · intro id s' hs'
    change Function.update sidm.sessionTokens sidm.currentID (some s) id = some s' at hs'
    rw [List.mem_append, List.mem_singleton]
    by_cases hid : id = sidm.currentID
    · rw [hid, Function.update_self, Option.some.injEq] at hs'
      exact Or.inr (by rw [hid, hs'])
    · rw [Function.update_of_ne hid] at hs'
      exact Or.inl (h.issued id s' hs')
  · intro t ht
    show Function.update sidm.sessionTokens sidm.currentID (some s) t.id ≠ none
    by_cases hid : t.id = sidm.currentID
    · rw [hid, Function.update_self]
      simp
    · rw [Function.update_of_ne hid]
      rw [List.mem_append, List.mem_singleton] at ht
      rcases ht with ht | ht
      · exact h.known t ht
      · rw [ht] at hid
        exact absurd rfl hid
  · intro hlen t ht
    show Function.update sidm.sessionTokens sidm.currentID (some s) t.id = some t.tokenString
    rw [List.length_append, List.length_singleton] at hlen
    rw [List.mem_append, List.mem_singleton] at ht
    rcases ht with ht | ht
    · obtain ⟨k, hk⟩ := List.mem_iff_getElem?.mp ht
      have hkl := (List.getElem?_eq_some_iff.mp hk).1
      have hid : t.id ≠ sidm.currentID := by
        rw [h.ids k t hk, h.current]
        exact ofNat_ne_of_lt hkl (by omega)
      rw [Function.update_of_ne hid]
      exact h.stored (by omega) t ht
    · rw [ht, Function.update_self]

/-- **What an accepted token is.** It was issued, except that a number never
given out is accepted with the empty string. -/
theorem IssuedBy.valid_iff {sidm : SessionIDManager} {ts : List SynchronizedToken}
    (h : IssuedBy sidm ts) (t : SynchronizedToken) :
    (sidm.synchronizedTokenIsValid t = true → t ∈ ts) ↔
      (t.tokenString ≠ [] ∨ ∃ u ∈ ts, u.id = t.id) := by
  unfold SessionIDManager.synchronizedTokenIsValid
  rw [beq_iff_eq]
  cases hs : sidm.sessionTokens t.id with
  | none =>
    constructor
    · intro hmem
      left
      intro hempty
      exact h.known t (hmem (by rw [hempty]; rfl)) hs
    · intro hor hvalid
      rcases hor with hne | ⟨u, hu, huid⟩
      · exact absurd hvalid.symm hne
      · rw [← huid] at hs
        exact absurd hs (h.known u hu)
  | some s =>
    have hin := h.issued t.id s hs
    constructor
    · intro _
      exact Or.inr ⟨_, hin, rfl⟩
    · intro _ hvalid
      rw [Option.getD_some] at hvalid
      rw [hvalid] at hin
      exact hin

/-- **An issued token stays accepted** while at most `2 ^ 64` tokens were generated. -/
theorem IssuedBy.valid_of_mem {sidm : SessionIDManager} {ts : List SynchronizedToken}
    (h : IssuedBy sidm ts) (hlen : ts.length ≤ 2 ^ 64) {t : SynchronizedToken} (ht : t ∈ ts) :
    sidm.synchronizedTokenIsValid t = true := by
  unfold SessionIDManager.synchronizedTokenIsValid
  rw [h.stored hlen t ht, Option.getD_some, beq_iff_eq]

/-- Tokens issued at different times have different numbers. -/
theorem IssuedBy.ids_nodup {sidm : SessionIDManager} {ts : List SynchronizedToken}
    (h : IssuedBy sidm ts) (hlen : ts.length ≤ 2 ^ 64) : (ts.map fun t => t.id).Nodup := by
  rw [List.nodup_iff_pairwise_ne, List.pairwise_map, List.pairwise_iff_getElem]
  intro j k hj hk hjk
  rw [h.ids j ts[j] (List.getElem?_eq_getElem hj), h.ids k ts[k] (List.getElem?_eq_getElem hk)]
  exact ofNat_ne_of_lt hjk (by omega)

end ShareNotes.Token
