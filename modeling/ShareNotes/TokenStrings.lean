import ShareNotes.Lib.Streams
import ShareNotes.Token

/-!
# Random strings as a stream of groups

Every draw is ten groups of six bits, and the groups of all draws form one stream.
`randomStringLength` reads this stream group by group: its cache and its count of
what remains are the position in the stream (`AtGroup`), and what it has written
is what it kept of the groups so far. The string is therefore spelled by the
first `n` groups that are indices of letters, and it is returned exactly when the
stream has that many.
-/

namespace ShareNotes.TokenStrings

open ShareNotes.Lib.Decimal ShareNotes.Lib.Streams ShareNotes.Token

/-! ### The stream -/

/-- The ten lowest groups of six bits, from the least significant one. -/
def groups (draw : Int63) : List ℕ := (List.range 10).map fun j => draw.val / 64 ^ j % 64

/-- The groups of the next `d` draws, one draw after another. -/
def groupsOf (src : ℕ → Int63) (drawn d : ℕ) : List ℕ :=
  (List.range d).flatMap fun i => groups (src (drawn + i))

/-- A group that is smaller than 52. -/
def isIndex (j : ℕ) : Bool := j < 52

/-- The groups that are indices of letters. -/
def keptOf (src : ℕ → Int63) (drawn d : ℕ) : List ℕ := (groupsOf src drawn d).filter isIndex

/-- The group at a position of the stream. -/
def group (src : ℕ → Int63) (drawn k : ℕ) : ℕ := (src (drawn + k / 10)).val / 64 ^ (k % 10) % 64

theorem group_chunk (src : ℕ → Int63) (drawn : ℕ) {i j : ℕ} (hj : j < 10) :
    group src drawn (10 * i + j) = (src (drawn + i)).val / 64 ^ j % 64 := by
  have hdiv : (10 * i + j) / 10 = i := by omega
  have hmod : (10 * i + j) % 10 = j := by omega
  rw [group, hdiv, hmod]

theorem groupsOf_eq (src : ℕ → Int63) (drawn d : ℕ) :
    groupsOf src drawn d = firsts (group src drawn) (10 * d) := by
  rw [← firsts_chunks, groupsOf]
  congr 1
  funext i
  rw [groups]
  refine List.map_congr_left fun j hj => ?_
  exact (group_chunk src drawn (List.mem_range.mp hj)).symm

theorem keptOf_eq (src : ℕ → Int63) (drawn d : ℕ) :
    keptOf src drawn d = kept isIndex (group src drawn) (10 * d) := by
  rw [keptOf, groupsOf_eq]
  rfl

/-! ### Letters -/

/-- The letter of an index. -/
def letter (j : ℕ) : UInt8 := characters.getD j 0

theorem characters_length : characters.length = 52 := by decide

theorem getElem?_characters {j : ℕ} (h : j < 52) : characters[j]? = some (letter j) := by
  rw [letter, List.getD_eq_getElem?_getD]
  have hsome : characters[j]? = some characters[j] :=
    List.getElem?_eq_getElem (by rw [characters_length]; exact h)
  rw [hsome, Option.getD_some]

theorem getElem?_characters_none {j : ℕ} (h : ¬j < 52) : characters[j]? = none := by
  rw [List.getElem?_eq_none_iff, characters_length]
  omega

/-! ### One round of the loop -/

/-- The state in which the loop starts. -/
def start (src : ℕ → Int63) (drawn n : ℕ) : RandomLoop where
  result := List.replicate n 0
  cache := (src drawn).val
  remain := characterIndexMax
  left := n
  drawn := drawn + 1

/-- The group that the body of the loop looks at. -/
def lookedAt (src : ℕ → Int63) (st : RandomLoop) : ℕ :=
  (st.refill src).cache &&& characterIndexMask

/-- The loop has read `k` groups of the stream: `c` draws before the last one, and all
but `remain` groups of that one. Behind `left` zero bytes it has written the letters of
the groups it kept, the first one last. -/
structure AtGroup (src : ℕ → Int63) (drawn n k : ℕ) (st : RandomLoop) : Prop where
  position : ∃ c, st.drawn = drawn + c + 1 ∧ k + st.remain = 10 * (c + 1) ∧ st.remain ≤ 10 ∧
    st.cache = (src (drawn + c)).val / 64 ^ (10 - st.remain)
  left : st.left + (kept isIndex (group src drawn) k).length = n
  result : st.result = List.replicate st.left 0 ++
    ((kept isIndex (group src drawn) k).map letter).reverse

variable {src : ℕ → Int63} {drawn n k : ℕ} {st : RandomLoop}

theorem atGroup_start (src : ℕ → Int63) (drawn n : ℕ) : AtGroup src drawn n 0 (start src drawn n) where
  position := ⟨0, rfl, rfl, le_rfl, (Nat.div_one _).symm⟩
  left := rfl
  result := (List.append_nil _).symm

/-- Drawing again does not move the position. -/
theorem AtGroup.refill (h : AtGroup src drawn n k st) :
    AtGroup src drawn n k (st.refill src) ∧ (st.refill src).remain ≠ 0 := by
  unfold RandomLoop.refill
  split
  · rename_i hremain
    obtain ⟨c, hdrawn, hk, _, _⟩ := h.position
    refine ⟨⟨⟨c + 1, ?_, ?_, le_rfl, ?_⟩, h.left, h.result⟩, Nat.succ_ne_zero 9⟩
    · show st.drawn + 1 = _
      omega
    · show k + 10 = _
      omega
    · show (src st.drawn).val = _
      rw [hdrawn]
      exact (Nat.div_one _).symm
  · rename_i hremain
    exact ⟨h, hremain⟩

/-- **The next round looks at the next group.** -/
theorem AtGroup.lookedAt (h : AtGroup src drawn n k st) :
    lookedAt src st = group src drawn k := by
  obtain ⟨hrefill, hremain⟩ := h.refill
  obtain ⟨c, _, hk, hle, hcache⟩ := hrefill.position
  have hmask : characterIndexMask = 2 ^ 6 - 1 := rfl
  have hpos : k = 10 * c + (10 - (st.refill src).remain) := by omega
  rw [TokenStrings.lookedAt, hcache, hmask, Nat.and_two_pow_sub_one_eq_mod, hpos,
    group_chunk src drawn (by omega)]

/-- Dropping the lowest group moves the position by one. -/
theorem AtGroup.shift_position (h : AtGroup src drawn n k st) (hremain : st.remain ≠ 0) :
    ∃ c, st.shift.drawn = drawn + c + 1 ∧ k + 1 + st.shift.remain = 10 * (c + 1) ∧
      st.shift.remain ≤ 10 ∧
      st.shift.cache = (src (drawn + c)).val / 64 ^ (10 - st.shift.remain) := by
  obtain ⟨c, hdrawn, hk, hle, hcache⟩ := h.position
  refine ⟨c, hdrawn, ?_, ?_, ?_⟩
  · show k + 1 + (st.remain - 1) = _
    omega
  · show st.remain - 1 ≤ 10
    omega
  · show st.cache >>> characterIndexBits = _ / 64 ^ (10 - (st.remain - 1))
    have hexp : 10 - (st.remain - 1) = (10 - st.remain) + 1 := by omega
    rw [Nat.shiftRight_eq_div_pow, hcache, Nat.div_div_eq_div_mul, hexp,
      pow_succ 64 (10 - st.remain)]
    rfl

/-- A letter is written in front of the letters written so far. -/
theorem set_replicate {m : ℕ} (hm : m ≠ 0) (c : UInt8) (tail : Bytes) :
    (List.replicate m 0 ++ tail).set (m - 1) c = List.replicate (m - 1) 0 ++ c :: tail := by
  obtain ⟨m, rfl⟩ := Nat.exists_eq_succ_of_ne_zero hm
  rw [Nat.succ_sub_one, List.replicate_succ', List.append_assoc,
    List.set_append_right _ _ (by rw [List.length_replicate]), List.length_replicate, Nat.sub_self]
  rfl

/-- **One round reads one group.** -/
theorem AtGroup.next (h : AtGroup src drawn n k st) (hleft : st.left ≠ 0) :
    AtGroup src drawn n (k + 1) (st.next src) := by
  have hgroup := h.lookedAt
  obtain ⟨hrefill, hremain⟩ := h.refill
  have hleft' : (st.refill src).left ≠ 0 := by
    rw [refill_left]
    exact hleft
  rw [RandomLoop.next]
  rw [TokenStrings.lookedAt] at hgroup
  generalize st.refill src = st' at hgroup hrefill hremain hleft'
  unfold RandomLoop.accept
  by_cases hsmall : group src drawn k < 52
  · rw [hgroup, getElem?_characters hsmall]
    have hkept := kept_succ_of_pos isIndex (group src drawn)
      (decide_eq_true hsmall)
    refine ⟨hrefill.shift_position hremain, ?_, ?_⟩
    · show st'.left - 1 + _ = n
      have := hrefill.left
      rw [hkept, List.length_append, List.length_singleton]
      omega
    · show st'.result.set (st'.left - 1) (letter (group src drawn k)) = _
      rw [hrefill.result, set_replicate hleft', hkept, List.map_append, List.reverse_append]
      rfl
  · rw [hgroup, getElem?_characters_none hsmall]
    have hkept := kept_succ_of_neg isIndex (group src drawn)
      (decide_eq_false hsmall)
    refine ⟨hrefill.shift_position hremain, ?_, ?_⟩
    · rw [hkept]
      exact hrefill.left
    · rw [hkept]
      exact hrefill.result

/-! ### A whole run -/

theorem randomStringLength_eq (src : ℕ → Int63) (fuel drawn n : ℕ) :
    randomStringLength src fuel drawn n =
      (randomLoop src fuel (start src drawn n)).map fun st => (st.result, st.drawn) := rfl

/-- **A run that ends** has read some prefix of the stream. -/
theorem atGroup_of_randomLoop {fuel : ℕ} {st' : RandomLoop} (h : AtGroup src drawn n k st)
    (hrun : randomLoop src fuel st = some st') :
    st'.left = 0 ∧ ∃ m, AtGroup src drawn n m st' := by
  induction fuel generalizing k st with
  | zero =>
    obtain ⟨hleft, hst⟩ := Option.ite_none_right_eq_some.mp hrun
    rw [← Option.some.inj hst]
    exact ⟨hleft, k, h⟩
  | succ fuel ih =>
    rw [randomLoop] at hrun
    by_cases hleft : st.left = 0
    · rw [if_pos hleft, Option.some.injEq] at hrun
      rw [← hrun]
      exact ⟨hleft, k, h⟩
    · rw [if_neg hleft] at hrun
      exact ih (h.next hleft) hrun

/-- **A run ends** as soon as it has read enough groups. -/
theorem randomLoop_ends {fuel : ℕ} (h : AtGroup src drawn n k st)
    (hkept : n ≤ (kept isIndex (group src drawn) (k + fuel)).length) :
    randomLoop src fuel st ≠ none := by
  induction fuel generalizing k st with
  | zero =>
    have hleft : st.left = 0 := by
      have := h.left
      rw [Nat.add_zero] at hkept
      omega
    rw [randomLoop, if_pos hleft]
    exact Option.some_ne_none st
  | succ fuel ih =>
    rw [randomLoop]
    by_cases hleft : st.left = 0
    · rw [if_pos hleft]
      exact Option.some_ne_none st
    · rw [if_neg hleft]
      refine ih (h.next hleft) ?_
      rw [Nat.add_right_comm]
      exact hkept

/-- The state after `k` rounds. -/
def after (src : ℕ → Int63) (drawn n k : ℕ) : RandomLoop :=
  (RandomLoop.next src)^[k] (start src drawn n)

/-- The loop makes a round after `k` rounds: it has not ended before. -/
def Reaches (src : ℕ → Int63) (drawn n k : ℕ) : Prop :=
  ∀ j ≤ k, (after src drawn n j).left ≠ 0

theorem atGroup_after (hreach : Reaches src drawn n k) :
    AtGroup src drawn n k (after src drawn n k) := by
  induction k with
  | zero => exact atGroup_start src drawn n
  | succ k ih =>
    have hk : Reaches src drawn n k := fun j hj => hreach j (Nat.le_succ_of_le hj)
    rw [after, Function.iterate_succ_apply']
    exact (ih hk).next (hk k le_rfl)

theorem le_kept_iff (src : ℕ → Int63) (drawn n : ℕ) :
    (∃ d, n ≤ (keptOf src drawn d).length) ↔
      ∃ m, n ≤ (kept isIndex (group src drawn) m).length := by
  constructor
  · intro ⟨d, hd⟩
    rw [keptOf_eq] at hd
    exact ⟨10 * d, hd⟩
  · intro ⟨m, hm⟩
    refine ⟨m, hm.trans ?_⟩
    rw [keptOf_eq]
    exact (kept_mono _ _ (by omega)).length_le

/-- **What `randomStringLength` makes of its draws.** -/
structure SpellsStream (src : ℕ → Int63) (drawn n : ℕ) : Prop where
  terminates : (∃ fuel, randomStringLength src fuel drawn n ≠ none) ↔
    ∃ d, n ≤ (keptOf src drawn d).length
  spelled : ∀ fuel s drawn', randomStringLength src fuel drawn n = some (s, drawn') →
    s.length = n ∧ (∀ b ∈ s, b ∈ characters) ∧
      ∀ d, n ≤ (keptOf src drawn d).length →
        List.Forall₂ (fun b j => characters[j]? = some b) s ((keptOf src drawn d).take n).reverse
  inTurn : ∀ k, Reaches src drawn n k → ∀ d, k < 10 * d →
    (groupsOf src drawn d)[k]? = some (lookedAt src (after src drawn n k))
  inRange : ∀ k, Reaches src drawn n k →
    (after src drawn n k).left - 1 < (after src drawn n k).result.length

theorem forall₂_letters {js : List ℕ} (hjs : ∀ j ∈ js, j < 52) :
    List.Forall₂ (fun b j => characters[j]? = some b) (js.map letter) js := by
  induction js with
  | nil => exact .nil
  | cons j js ih =>
    rw [List.forall_mem_cons] at hjs
    exact .cons (getElem?_characters hjs.1) (ih hjs.2)

/-- **The string is spelled by the stream**, for all draws and all lengths. -/
theorem randomStringLength_spells (src : ℕ → Int63) (drawn n : ℕ) : SpellsStream src drawn n where
  terminates := by
    rw [le_kept_iff]
    constructor
    · intro ⟨fuel, hfuel⟩
      obtain ⟨p, hp⟩ := Option.ne_none_iff_exists'.mp hfuel
      rw [randomStringLength_eq, Option.map_eq_some_iff] at hp
      obtain ⟨st, hrun, _⟩ := hp
      obtain ⟨hleft, m, hm⟩ := atGroup_of_randomLoop (atGroup_start src drawn n) hrun
      have := hm.left
      exact ⟨m, by omega⟩
    · intro ⟨m, hm⟩
      have hends : randomLoop src m (start src drawn n) ≠ none :=
        randomLoop_ends (atGroup_start src drawn n) (by rw [Nat.zero_add]; exact hm)
      exact ⟨m, by rw [randomStringLength_eq, ne_eq, Option.map_eq_none_iff]; exact hends⟩
  spelled := by
    intro fuel s drawn' hrun
    obtain ⟨hlen, hletters⟩ := randomStringLength_letters hrun
    refine ⟨hlen, hletters, fun d hd => ?_⟩
    rw [randomStringLength_eq, Option.map_eq_some_iff] at hrun
    obtain ⟨st, hloop, hst⟩ := hrun
    obtain ⟨hleft, m, hm⟩ := atGroup_of_randomLoop (atGroup_start src drawn n) hloop
    have hcount := hm.left
    rw [hleft, Nat.zero_add] at hcount
    have hresult : s = ((kept isIndex (group src drawn) m).map letter).reverse := by
      rw [← (Prod.mk.inj hst).1, hm.result, hleft]
      rfl
    rw [keptOf_eq] at hd ⊢
    rw [take_kept _ _ hcount hd, hresult, ← List.map_reverse]
    refine forall₂_letters fun j hj => ?_
    exact of_decide_eq_true (List.mem_filter.mp (List.mem_reverse.mp hj)).2
  inTurn := by
    intro k hreach d hk
    rw [groupsOf_eq, getElem?_firsts _ hk, (atGroup_after hreach).lookedAt]
  inRange := by
    intro k hreach
    have hleft := hreach k le_rfl
    have hresult := congrArg List.length (atGroup_after hreach).result
    rw [List.length_append, List.length_replicate] at hresult
    omega

example : randomStringLength (fun _ => 8 + 64 * 63 + 64 ^ 2 * 26) 4 0 2 = some (ascii "Ai", 1) := by
  decide

end ShareNotes.TokenStrings
