import Mathlib

/-!
# Regular expressions with assertions

Patterns over the characters of a text, with assertions for a word boundary and for the
end of the text. `Matches` says which strings a pattern matches between a character
before and the text behind; `lengths` computes them (`mem_lengths_iff`). The search
takes the leftmost match, of those the longest, and goes on behind it (`finds_findAll`).

What a pattern can match is bounded by its symbols: which characters occur at all
(`Uses`), which come first (`StartsIn`) and which last (`EndsIn`).
-/

namespace ShareNotes.Lib.Regexp

variable {α : Type}

inductive Pattern (α : Type)
  | empty
  | symbol (p : α → Bool)
  | wordBoundary
  | endText
  | seq (r s : Pattern α)
  | alt (r s : Pattern α)
  | star (r : Pattern α)

namespace Pattern

/-! ### Derived forms -/

def opt (r : Pattern α) : Pattern α := alt r empty

def plus (r : Pattern α) : Pattern α := seq r (star r)

/-- `r{n}` -/
def times (r : Pattern α) : ℕ → Pattern α
  | 0 => empty
  | n + 1 => seq r (times r n)

/-- `r{0,n}` -/
def upTo (r : Pattern α) : ℕ → Pattern α
  | 0 => empty
  | n + 1 => opt (seq r (upTo r n))

def oneOf : List (Pattern α) → Pattern α
  | [] => symbol fun _ => false
  | r :: rs => alt r (oneOf rs)

def word {β : Type} (is : β → α → Bool) : List β → Pattern α
  | [] => empty
  | x :: xs => seq (symbol (is x)) (word is xs)

end Pattern

open Pattern

/-! ### What a pattern matches -/

/-- The character before what follows `m`, if `b` is the one before `m`. -/
def behind (b : Option α) (m : List α) : Option α := m.getLast?.or b

theorem behind_append (b : Option α) (m n : List α) :
    behind b (m ++ n) = behind (behind b m) n := by
  rw [behind, behind, behind, List.getLast?_append, Option.or_assoc]

theorem behind_concat (b : Option α) (m : List α) (c : α) : behind b (m ++ [c]) = some c := by
  rw [behind, List.getLast?_concat, Option.some_or]

/-- Some number of strings, one behind the other and none of them empty. -/
inductive Repeats (P : Option α → List α → List α → Prop) : Option α → List α → List α → Prop
  | nil {b : Option α} {post : List α} : Repeats P b [] post
  | cons {b : Option α} {m n post : List α} (hne : m ≠ []) (hm : P b m (n ++ post))
      (hn : Repeats P (behind b m) n post) : Repeats P b (m ++ n) post

variable (isWord : α → Bool)

/-- `r` matches `m` when `b` is the character before it and `post` the text behind. -/
def Pattern.Matches : Pattern α → Option α → List α → List α → Prop
  | .empty, _, m, _ => m = []
  | .symbol p, _, m, _ => ∃ c, p c = true ∧ m = [c]
  | .wordBoundary, b, m, post => m = [] ∧ b.any isWord ≠ post.head?.any isWord
  | .endText, _, m, post => m = [] ∧ post = []
  | .seq r s, b, m, post => ∃ m₁ m₂, m = m₁ ++ m₂ ∧ r.Matches b m₁ (m₂ ++ post) ∧
      s.Matches (behind b m₁) m₂ post
  | .alt r s, b, m, post => r.Matches b m post ∨ s.Matches b m post
  | .star r, b, m, post => Repeats r.Matches b m post

variable {isWord}

theorem Repeats.append {P : Option α → List α → List α → Prop} {b : Option α} {m n post : List α}
    (hm : Repeats P b m (n ++ post)) (hn : Repeats P (behind b m) n post) :
    Repeats P b (m ++ n) post := by
  generalize hpost : n ++ post = post' at hm
  induction hm with
  | nil => exact hn
  | @cons b m₁ m₂ post' hne hm₁ _ ih =>
    subst hpost
    rw [List.append_assoc]
    refine .cons hne ?_ (ih ?_ rfl)
    · rw [List.append_assoc]
      exact hm₁
    · rw [← behind_append]
      exact hn

theorem Repeats.one {P : Option α → List α → List α → Prop} {b : Option α} {m post : List α}
    (hm : P b m post) : Repeats P b m post := by
  cases m with
  | nil => exact .nil
  | cons c m =>
    have h : Repeats P b (c :: m ++ []) post := .cons (by simp) hm .nil
    rw [List.append_nil] at h
    exact h

theorem matches_plus {r : Pattern α} {b : Option α} {m post : List α}
    (h : r.Matches isWord b m post) : (plus r).Matches isWord b m post :=
  ⟨m, [], (List.append_nil m).symm, h, .nil⟩

/-- One more match of `r` behind some. -/
theorem matches_plus_append {r : Pattern α} {b : Option α} {m n post : List α}
    (hm : (plus r).Matches isWord b m (n ++ post)) (hn : r.Matches isWord (behind b m) n post) :
    (plus r).Matches isWord b (m ++ n) post := by
  obtain ⟨m₁, m₂, rfl, h₁, h₂⟩ := hm
  refine ⟨m₁, m₂ ++ n, List.append_assoc m₁ m₂ n, ?_, Repeats.append h₂ (.one ?_)⟩
  · rw [List.append_assoc]
    exact h₁
  · rw [← behind_append]
    exact hn

theorem matches_oneOf {rs : List (Pattern α)} {b : Option α} {m post : List α} :
    (oneOf rs).Matches isWord b m post ↔ ∃ r ∈ rs, r.Matches isWord b m post := by
  induction rs with
  | nil => simp [oneOf, Pattern.Matches]
  | cons r rs ih =>
    show r.Matches isWord b m post ∨ (oneOf rs).Matches isWord b m post ↔ _
    rw [ih]
    simp only [List.mem_cons, exists_eq_or_imp]

theorem matches_seq_assoc {r s t : Pattern α} {b : Option α} {m post : List α} :
    (seq (seq r s) t).Matches isWord b m post ↔ (seq r (seq s t)).Matches isWord b m post := by
  constructor
  · rintro ⟨_, m₃, rfl, ⟨m₁, m₂, rfl, h₁, h₂⟩, h₃⟩
    rw [behind_append] at h₃
    rw [← List.append_assoc] at h₁
    exact ⟨m₁, m₂ ++ m₃, List.append_assoc _ _ _, h₁, m₂, m₃, rfl, h₂, h₃⟩
  · rintro ⟨m₁, _, rfl, h₁, m₂, m₃, rfl, h₂, h₃⟩
    rw [← behind_append] at h₃
    rw [List.append_assoc] at h₁
    exact ⟨m₁ ++ m₂, m₃, (List.append_assoc _ _ _).symm, ⟨m₁, m₂, rfl, h₁, h₂⟩, h₃⟩

theorem matches_alt_seq {r s t : Pattern α} {b : Option α} {m post : List α} :
    (seq (alt r s) t).Matches isWord b m post ↔
      (seq r t).Matches isWord b m post ∨ (seq s t).Matches isWord b m post := by
  constructor
  · rintro ⟨m₁, m₂, rfl, h₁ | h₁, h₂⟩
    · exact Or.inl ⟨m₁, m₂, rfl, h₁, h₂⟩
    · exact Or.inr ⟨m₁, m₂, rfl, h₁, h₂⟩
  · rintro (⟨m₁, m₂, rfl, h₁, h₂⟩ | ⟨m₁, m₂, rfl, h₁, h₂⟩)
    · exact ⟨m₁, m₂, rfl, Or.inl h₁, h₂⟩
    · exact ⟨m₁, m₂, rfl, Or.inr h₁, h₂⟩

theorem matches_word {β : Type} {is : β → α → Bool} {xs : List β} {b : Option α}
    {m post : List α} (h : List.Forall₂ (fun x c => is x c = true) xs m) :
    (word is xs).Matches isWord b m post := by
  induction h generalizing b with
  | nil => rfl
  | @cons x c xs m hc _ ih => exact ⟨[c], m, rfl, ⟨c, hc, rfl⟩, ih⟩

theorem matches_star_symbol {p : α → Bool} {b : Option α} {m post : List α}
    (h : ∀ c ∈ m, p c = true) : (star (symbol p)).Matches isWord b m post := by
  induction m generalizing b with
  | nil => exact .nil
  | cons c m ih =>
    rw [List.forall_mem_cons] at h
    exact Repeats.cons (m := [c]) (n := m) (by simp) ⟨c, h.1, rfl⟩ (ih h.2)

/-! ### What a pattern can match -/

namespace Pattern

/-- The pattern may match the empty string. -/
def nullable : Pattern α → Bool
  | .symbol _ => false
  | .seq r s => r.nullable && s.nullable
  | .alt r s => r.nullable || s.nullable
  | _ => true

/-- All characters of a match satisfy `Q`. -/
def Uses (Q : α → Prop) : Pattern α → Prop
  | .symbol p => ∀ c, p c = true → Q c
  | .seq r s => r.Uses Q ∧ s.Uses Q
  | .alt r s => r.Uses Q ∧ s.Uses Q
  | .star r => r.Uses Q
  | _ => True

/-- The first character of a match satisfies `Q`. -/
def StartsIn (Q : α → Prop) : Pattern α → Prop
  | .symbol p => ∀ c, p c = true → Q c
  | .seq r s => r.StartsIn Q ∧ (r.nullable = true → s.StartsIn Q)
  | .alt r s => r.StartsIn Q ∧ s.StartsIn Q
  | .star r => r.StartsIn Q
  | _ => True

/-- The last character of a match satisfies `Q`. -/
def EndsIn (Q : α → Prop) : Pattern α → Prop
  | .symbol p => ∀ c, p c = true → Q c
  | .seq r s => s.EndsIn Q ∧ (s.nullable = true → r.EndsIn Q)
  | .alt r s => r.EndsIn Q ∧ s.EndsIn Q
  | .star r => r.EndsIn Q
  | _ => True

end Pattern

variable {Q : α → Prop} {b : Option α} {m post : List α}

/-! The derived forms. -/

theorem Pattern.Uses.startsIn {r : Pattern α} (h : r.Uses Q) : r.StartsIn Q := by
  induction r with
  | symbol p => exact h
  | seq r s ihr ihs => exact ⟨ihr h.1, fun _ => ihs h.2⟩
  | alt r s ihr ihs => exact ⟨ihr h.1, ihs h.2⟩
  | star r ih => exact ih h
  | _ => trivial

theorem Pattern.Uses.endsIn {r : Pattern α} (h : r.Uses Q) : r.EndsIn Q := by
  induction r with
  | symbol p => exact h
  | seq r s ihr ihs => exact ⟨ihs h.2, fun _ => ihr h.1⟩
  | alt r s ihr ihs => exact ⟨ihr h.1, ihs h.2⟩
  | star r ih => exact ih h
  | _ => trivial

theorem uses_plus {r : Pattern α} (h : r.Uses Q) : (plus r).Uses Q := ⟨h, h⟩

theorem uses_times {r : Pattern α} (h : r.Uses Q) (n : ℕ) : (times r n).Uses Q := by
  induction n with
  | zero => trivial
  | succ n ih => exact ⟨h, ih⟩

theorem uses_upTo {r : Pattern α} (h : r.Uses Q) (n : ℕ) : (upTo r n).Uses Q := by
  induction n with
  | zero => trivial
  | succ n ih => exact ⟨⟨h, ih⟩, trivial⟩

theorem uses_oneOf {rs : List (Pattern α)} (h : ∀ r ∈ rs, r.Uses Q) : (oneOf rs).Uses Q := by
  induction rs with
  | nil => exact fun c hc => absurd hc (by simp)
  | cons r rs ih =>
    rw [List.forall_mem_cons] at h
    exact ⟨h.1, ih h.2⟩

theorem uses_word {β : Type} {is : β → α → Bool} {xs : List β}
    (h : ∀ x ∈ xs, ∀ c, is x c = true → Q c) : (word is xs).Uses Q := by
  induction xs with
  | nil => trivial
  | cons x xs ih =>
    rw [List.forall_mem_cons] at h
    exact ⟨h.1, ih h.2⟩

theorem nullable_word {β : Type} {is : β → α → Bool} {xs : List β} :
    (word is xs).nullable = xs.isEmpty := by
  cases xs <;> rfl

theorem nullable_oneOf {rs : List (Pattern α)} (h : ∀ r ∈ rs, r.nullable = false) :
    (oneOf rs).nullable = false := by
  induction rs with
  | nil => rfl
  | cons r rs ih =>
    rw [List.forall_mem_cons] at h
    rw [oneOf, nullable, h.1, ih h.2]
    rfl

theorem nullable_seq {s : Pattern α} (hs : s.nullable = false) (r : Pattern α) :
    (seq r s).nullable = false := by
  rw [nullable, hs, Bool.and_false]

/-- A pattern that matches no empty string decides what stands at the front. -/
theorem startsIn_seq {r : Pattern α} (hr : r.nullable = false) (h : r.StartsIn Q)
    (s : Pattern α) : (seq r s).StartsIn Q :=
  ⟨h, fun hr' => absurd (hr.symm.trans hr') (by decide)⟩

theorem startsIn_oneOf {rs : List (Pattern α)} (h : ∀ r ∈ rs, r.StartsIn Q) :
    (oneOf rs).StartsIn Q := by
  induction rs with
  | nil => exact fun c hc => absurd hc (by simp)
  | cons r rs ih =>
    rw [List.forall_mem_cons] at h
    exact ⟨h.1, ih h.2⟩

/-- A pattern that matches no empty string decides what stands at the end. -/
theorem endsIn_seq {s : Pattern α} (hs : s.nullable = false) (h : s.EndsIn Q) (r : Pattern α) :
    (seq r s).EndsIn Q :=
  ⟨h, fun hs' => absurd (hs.symm.trans hs') (by decide)⟩

theorem endsIn_plus {r : Pattern α} (h : r.EndsIn Q) : (plus r).EndsIn Q := ⟨h, fun _ => h⟩

theorem endsIn_times {r : Pattern α} (h : r.EndsIn Q) (n : ℕ) : (times r n).EndsIn Q := by
  induction n with
  | zero => trivial
  | succ n ih => exact ⟨ih, fun _ => h⟩

theorem endsIn_oneOf {rs : List (Pattern α)} (h : ∀ r ∈ rs, r.EndsIn Q) :
    (oneOf rs).EndsIn Q := by
  induction rs with
  | nil => exact fun c hc => absurd hc (by simp)
  | cons r rs ih =>
    rw [List.forall_mem_cons] at h
    exact ⟨h.1, ih h.2⟩

theorem endsIn_word {β : Type} {is : β → α → Bool} {xs : List β}
    (h : ∀ x ∈ xs.getLast?, ∀ c, is x c = true → Q c) : (word is xs).EndsIn Q := by
  induction xs with
  | nil => trivial
  | cons x xs ih =>
    cases xs with
    | nil => exact ⟨trivial, fun _ => h x rfl⟩
    | cons y ys =>
      rw [List.getLast?_cons_cons] at h
      exact endsIn_seq nullable_word (ih h) _

theorem nullable_of_matches {r : Pattern α} (h : r.Matches isWord b [] post) :
    r.nullable = true := by
  induction r generalizing b post with
  | symbol p =>
    obtain ⟨c, _, hc⟩ := h
    exact absurd hc (by simp)
  | seq r s ihr ihs =>
    obtain ⟨m₁, m₂, hm, h₁, h₂⟩ := h
    obtain ⟨rfl, rfl⟩ := List.append_eq_nil_iff.mp hm.symm
    rw [nullable, ihr h₁, ihs h₂]
    rfl
  | alt r s ihr ihs =>
    rw [nullable, Bool.or_eq_true]
    exact h.imp ihr ihs
  | _ => rfl

theorem Pattern.Matches.ne_nil {r : Pattern α} (h : r.Matches isWord b m post)
    (hr : r.nullable = false) : m ≠ [] := by
  rintro rfl
  rw [nullable_of_matches h] at hr
  exact absurd hr (by decide)

/-- A property of strings that repetition keeps. -/
theorem Repeats.keeps {P : Option α → List α → List α → Prop} {R : List α → Prop} (hnil : R [])
    (hcons : ∀ b m n post, P b m post → R n → R (m ++ n)) (h : Repeats P b m post) : R m := by
  induction h with
  | nil => exact hnil
  | cons _ hm _ ih => exact hcons _ _ _ _ hm ih

theorem Pattern.Matches.uses {r : Pattern α} (hr : r.Uses Q) (h : r.Matches isWord b m post) :
    ∀ c ∈ m, Q c := by
  induction r generalizing b m post with
  | empty =>
    rw [h]
    simp
  | wordBoundary =>
    rw [h.1]
    simp
  | endText =>
    rw [h.1]
    simp
  | symbol p =>
    obtain ⟨c, hc, rfl⟩ := h
    rw [List.forall_mem_singleton]
    exact hr c hc
  | seq r s ihr ihs =>
    obtain ⟨m₁, m₂, rfl, h₁, h₂⟩ := h
    rw [List.forall_mem_append]
    exact ⟨ihr hr.1 h₁, ihs hr.2 h₂⟩
  | alt r s ihr ihs =>
    rcases h with h | h
    · exact ihr hr.1 h
    · exact ihs hr.2 h
  | star r ih =>
    refine Repeats.keeps (R := fun m => ∀ c ∈ m, Q c) (by simp) (fun b m n post hm hn => ?_) h
    rw [List.forall_mem_append]
    exact ⟨ih hr hm, hn⟩

theorem Pattern.Matches.startsIn {r : Pattern α} (hr : r.StartsIn Q)
    (h : r.Matches isWord b m post) : ∀ c ∈ m.head?, Q c := by
  induction r generalizing b m post with
  | empty =>
    rw [h]
    simp
  | wordBoundary =>
    rw [h.1]
    simp
  | endText =>
    rw [h.1]
    simp
  | symbol p =>
    obtain ⟨c, hc, rfl⟩ := h
    intro c' hc'
    rw [List.head?_cons, Option.mem_some_iff] at hc'
    exact hr c' (hc' ▸ hc)
  | seq r s ihr ihs =>
    obtain ⟨m₁, m₂, rfl, h₁, h₂⟩ := h
    cases m₁ with
    | nil => exact ihs (hr.2 (nullable_of_matches h₁)) h₂
    | cons c m₁ =>
      have h₁ := ihr hr.1 h₁
      exact h₁
  | alt r s ihr ihs =>
    rcases h with h | h
    · exact ihr hr.1 h
    · exact ihs hr.2 h
  | star r ih =>
    refine Repeats.keeps (R := fun m => ∀ c ∈ m.head?, Q c) (by simp)
      (fun b m n post hm hn => ?_) h
    cases m with
    | nil => exact hn
    | cons c m =>
      have hm := ih hr hm
      exact hm

theorem Pattern.Matches.endsIn {r : Pattern α} (hr : r.EndsIn Q) (h : r.Matches isWord b m post) :
    ∀ c ∈ m.getLast?, Q c := by
  induction r generalizing b m post with
  | empty =>
    rw [h]
    simp
  | wordBoundary =>
    rw [h.1]
    simp
  | endText =>
    rw [h.1]
    simp
  | symbol p =>
    obtain ⟨c, hc, rfl⟩ := h
    intro c' hc'
    rw [List.getLast?_singleton, Option.mem_some_iff] at hc'
    exact hr c' (hc' ▸ hc)
  | seq r s ihr ihs =>
    obtain ⟨m₁, m₂, rfl, h₁, h₂⟩ := h
    rw [List.getLast?_append]
    cases hm₂ : m₂.getLast? with
    | none =>
      rw [List.getLast?_eq_none_iff] at hm₂
      subst hm₂
      exact ihr (hr.2 (nullable_of_matches h₂)) h₁
    | some c =>
      rw [Option.some_or, ← hm₂]
      exact ihs hr.1 h₂
  | alt r s ihr ihs =>
    rcases h with h | h
    · exact ihr hr.1 h
    · exact ihs hr.2 h
  | star r ih =>
    refine Repeats.keeps (R := fun m => ∀ c ∈ m.getLast?, Q c) (by simp)
      (fun b m n post hm hn => ?_) h
    rw [List.getLast?_append]
    cases hlast : n.getLast? with
    | none => exact ih hr hm
    | some c =>
      rw [Option.some_or, ← hlast]
      exact hn

variable (isWord) in
/-- Every match of the pattern has the property. -/
def Ensures (r : Pattern α) (R : List α → Prop) : Prop :=
  ∀ b m post, r.Matches isWord b m post → R m

section Ensures

variable {R : List α → Prop} {r s : Pattern α}

theorem ensures_seq {R₁ R₂ : List α → Prop} (hr : Ensures isWord r R₁) (hs : Ensures isWord s R₂)
    (happend : ∀ m n, R₁ m → R₂ n → R (m ++ n)) : Ensures isWord (seq r s) R := by
  rintro b _ post ⟨m₁, m₂, rfl, h₁, h₂⟩
  exact happend m₁ m₂ (hr _ _ _ h₁) (hs _ _ _ h₂)

theorem ensures_alt (hr : Ensures isWord r R) (hs : Ensures isWord s R) :
    Ensures isWord (alt r s) R :=
  fun b m post h => h.elim (hr b m post) (hs b m post)

theorem ensures_oneOf {rs : List (Pattern α)} (h : ∀ r ∈ rs, Ensures isWord r R) :
    Ensures isWord (oneOf rs) R := by
  intro b m post hm
  obtain ⟨r, hr, hm⟩ := matches_oneOf.mp hm
  exact h r hr b m post hm

theorem ensures_star (hr : Ensures isWord r R) (hnil : R [])
    (happend : ∀ m n, R m → R n → R (m ++ n)) : Ensures isWord (star r) R :=
  fun _ _ _ h => Repeats.keeps hnil (fun _ m n _ hm hn => happend m n (hr _ _ _ hm) hn) h

theorem ensures_plus (hr : Ensures isWord r R) (hnil : R [])
    (happend : ∀ m n, R m → R n → R (m ++ n)) : Ensures isWord (plus r) R :=
  ensures_seq hr (ensures_star hr hnil happend) happend

theorem ensures_uses (hr : r.Uses Q) : Ensures isWord r fun m => ∀ c ∈ m, Q c :=
  fun _ _ _ h => h.uses hr

theorem Ensures.imp {R' : List α → Prop} (hr : Ensures isWord r R) (h : ∀ m, R m → R' m) :
    Ensures isWord r R' :=
  fun b m post hm => h m (hr b m post hm)

end Ensures

/-! ### Computing the matches -/

/-- The numbers that can be reached; `news` are those among `seen` that come from the last step. -/
def reach (next : ℕ → List ℕ) : ℕ → List ℕ → List ℕ → List ℕ
  | 0, seen, _ => seen
  | fuel + 1, seen, news =>
    let found := (news.flatMap next).dedup.filter fun n => n ∉ seen
    reach next fuel (found ++ seen) found

variable (isWord)

/-- The lengths of the strings that `r` matches at the front of `t`. -/
def Pattern.lengths : Pattern α → Option α → List α → List ℕ
  | .empty, _, _ => [0]
  | .symbol p, _, t => if t.head?.any p then [1] else []
  | .wordBoundary, b, t => if b.any isWord = t.head?.any isWord then [] else [0]
  | .endText, _, t => if t.isEmpty then [0] else []
  | .seq r s, b, t => ((r.lengths b t).flatMap fun n =>
      (s.lengths (behind b (t.take n)) (t.drop n)).map (n + ·)).dedup
  | .alt r s, b, t => (r.lengths b t ++ s.lengths b t).dedup
  | .star r, b, t =>
    reach (fun n => (r.lengths (behind b (t.take n)) (t.drop n)).map (n + ·)) t.length [0] [0]

variable {isWord}

theorem subset_reach {next : ℕ → List ℕ} {fuel : ℕ} {seen news : List ℕ} {n : ℕ}
    (hn : n ∈ seen) : n ∈ reach next fuel seen news := by
  induction fuel generalizing seen news with
  | zero => exact hn
  | succ fuel ih => exact ih (List.mem_append_right _ hn)

/-- What holds of the first numbers and passes to the next ones holds of all. -/
theorem reach_keeps {next : ℕ → List ℕ} {Q : ℕ → Prop}
    (hnext : ∀ n, Q n → ∀ k ∈ next n, Q k) {fuel : ℕ} {seen news : List ℕ}
    (hseen : ∀ n ∈ seen, Q n) (hnews : ∀ n ∈ news, Q n) :
    ∀ n ∈ reach next fuel seen news, Q n := by
  induction fuel generalizing seen news with
  | zero => exact hseen
  | succ fuel ih =>
    have hfound : ∀ n ∈ (news.flatMap next).dedup.filter fun n => n ∉ seen, Q n := by
      intro n hn
      obtain ⟨k, hk, hkn⟩ := List.mem_flatMap.mp (List.mem_dedup.mp (List.mem_filter.mp hn).1)
      exact hnext k (hnews k hk) n hkn
    exact ih (List.forall_mem_append.mpr ⟨hfound, hseen⟩) hfound

/-- Every number that was seen is among the news, or what follows it was seen. -/
def Explored (next : ℕ → List ℕ) (seen news : List ℕ) : Prop :=
  ∀ n ∈ seen, n ∈ news ∨ ∀ k ∈ next n, k ∈ seen

theorem Explored.step {next : ℕ → List ℕ} {seen news : List ℕ} (h : Explored next seen news) :
    let found := (news.flatMap next).dedup.filter fun n => n ∉ seen
    (∀ n ∈ news, ∀ k ∈ next n, k ∈ found ++ seen) ∧ Explored next (found ++ seen) found := by
  intro found
  have hnews : ∀ n ∈ news, ∀ k ∈ next n, k ∈ found ++ seen := by
    intro n hn k hk
    by_cases hseen : k ∈ seen
    · exact List.mem_append_right _ hseen
    · apply List.mem_append_left
      rw [List.mem_filter, List.mem_dedup, List.mem_flatMap]
      exact ⟨⟨n, hn, hk⟩, by simpa using hseen⟩
  refine ⟨hnews, fun n hn => ?_⟩
  rcases List.mem_append.mp hn with hn | hn
  · exact Or.inl hn
  · right
    rcases h n hn with hn | hn
    · exact hnews n hn
    · exact fun k hk => List.mem_append_right _ (hn k hk)

theorem mem_reach_iff {P : Option α → List α → List α → Prop} {f : Option α → List α → List ℕ}
    (hf : ∀ b t n, n ∈ f b t ↔ ∃ m post, t = m ++ post ∧ n = m.length ∧ P b m post)
    (b : Option α) (t : List α) (n : ℕ) :
    n ∈ reach (fun k => (f (behind b (t.take k)) (t.drop k)).map (k + ·)) t.length [0] [0] ↔
      ∃ m post, t = m ++ post ∧ n = m.length ∧ Repeats P b m post := by
  let next : ℕ → List ℕ := fun k => (f (behind b (t.take k)) (t.drop k)).map (k + ·)
  show n ∈ reach next t.length [0] [0] ↔ _
  constructor
  · intro hn
    refine reach_keeps (Q := fun n => ∃ m post, t = m ++ post ∧ n = m.length ∧ Repeats P b m post)
      ?_ ?_ ?_ n hn
    · rintro _ ⟨m, post, rfl, rfl, hm⟩ k hk
      obtain ⟨j, hj, rfl⟩ := List.mem_map.mp hk
      rw [List.take_left, List.drop_left, hf] at hj
      obtain ⟨m', post', rfl, rfl, hm'⟩ := hj
      exact ⟨m ++ m', post', (List.append_assoc m m' post').symm, List.length_append.symm,
        hm.append (.one hm')⟩
    all_goals
      rw [List.forall_mem_singleton]
      exact ⟨[], t, rfl, rfl, .nil⟩
  · rintro ⟨m, post, ht, rfl, hm⟩
    -- from any part of the text that is seen, with steps enough for the rest
    have hsteps : ∀ {b' m post}, Repeats P b' m post → ∀ {u : List α} {fuel : ℕ}
        {seen news : List ℕ}, behind b u = b' → t = u ++ (m ++ post) → u.length ∈ seen →
        Explored next seen news → m.length ≤ fuel → (u ++ m).length ∈ reach next fuel seen news := by
      intro b' m post hrep
      induction hrep with
      | nil =>
        intro u fuel seen news _ _ hu _ _
        rw [List.append_nil]
        exact subset_reach hu
      | @cons b' m n post hne hm hn ih =>
        intro u fuel seen news hb ht hu hexplored hfuel
        have hpos := List.length_pos_iff.mpr hne
        rw [List.length_append] at hfuel
        have hstep : (u ++ m).length ∈ next u.length := by
          rw [List.length_append]
          apply List.mem_map_of_mem
          rw [ht, List.take_left, List.drop_left, hb, hf]
          exact ⟨m, n ++ post, List.append_assoc m n post, rfl, hm⟩
        have hb' : behind b (u ++ m) = behind b' m := by rw [behind_append, hb]
        have ht' : t = u ++ m ++ (n ++ post) := by rw [ht, List.append_assoc, List.append_assoc]
        rw [← List.append_assoc]
        rcases hexplored _ hu with hnew | hseen
        · obtain ⟨fuel, rfl⟩ : ∃ k, fuel = k + 1 := ⟨fuel - 1, by omega⟩
          obtain ⟨hnews, hnext⟩ := hexplored.step
          rw [reach]
          exact ih hb' ht' (hnews _ hnew _ hstep) hnext (by omega)
        · exact ih hb' ht' (hseen _ hstep) hexplored (by omega)
    refine hsteps hm (u := []) rfl ht (List.mem_singleton_self 0) ?_ ?_
    · exact fun n hn => Or.inl hn
    · rw [ht, List.length_append]
      exact Nat.le_add_right _ _

/-- **The lengths are those of the matches.** -/
theorem mem_lengths (r : Pattern α) (b : Option α) (t : List α) (n : ℕ) :
    n ∈ r.lengths isWord b t ↔
      ∃ m post, t = m ++ post ∧ n = m.length ∧ r.Matches isWord b m post := by
  induction r generalizing b t n with
  | empty =>
    rw [Pattern.lengths, List.mem_singleton]
    constructor
    · rintro rfl
      exact ⟨[], t, rfl, rfl, rfl⟩
    · rintro ⟨_, _, _, rfl, rfl⟩
      rfl
  | symbol p =>
    rw [Pattern.lengths]
    constructor
    · intro hn
      simp only [List.mem_ite_nil_right, List.mem_singleton] at hn
      cases t with
      | nil => exact absurd hn.1 (by simp)
      | cons c t => exact ⟨[c], t, rfl, hn.2, c, hn.1, rfl⟩
    · rintro ⟨_, post, rfl, rfl, c, hc, rfl⟩
      rw [List.singleton_append, List.head?_cons, Option.any_some, if_pos hc]
      exact List.mem_singleton_self 1
  | wordBoundary =>
    rw [Pattern.lengths]
    constructor
    · intro hn
      simp only [List.mem_ite_nil_left, List.mem_singleton] at hn
      exact ⟨[], t, rfl, hn.2, rfl, hn.1⟩
    · rintro ⟨_, post, rfl, rfl, rfl, hb⟩
      rw [List.nil_append, if_neg hb]
      exact List.mem_singleton_self 0
  | endText =>
    rw [Pattern.lengths]
    constructor
    · intro hn
      simp only [List.isEmpty_iff, List.mem_ite_nil_right, List.mem_singleton] at hn
      exact ⟨[], t, rfl, hn.2, rfl, hn.1⟩
    · rintro ⟨_, _, rfl, rfl, rfl, rfl⟩
      exact List.mem_singleton_self 0
  | seq r s ihr ihs =>
    rw [Pattern.lengths, List.mem_dedup, List.mem_flatMap]
    constructor
    · rintro ⟨k, hk, hn⟩
      obtain ⟨m, post, rfl, rfl, hm⟩ := (ihr b t k).mp hk
      obtain ⟨j, hj, rfl⟩ := List.mem_map.mp hn
      rw [List.take_left, List.drop_left, ihs] at hj
      obtain ⟨m', post', rfl, rfl, hm'⟩ := hj
      exact ⟨m ++ m', post', (List.append_assoc m m' post').symm, List.length_append.symm, m, m',
        rfl, hm, hm'⟩
    · rintro ⟨_, post, rfl, rfl, m₁, m₂, rfl, h₁, h₂⟩
      refine ⟨m₁.length, (ihr _ _ _).mpr ⟨m₁, m₂ ++ post, List.append_assoc _ _ _, rfl, h₁⟩, ?_⟩
      rw [List.append_assoc, List.take_left, List.drop_left, List.length_append]
      exact List.mem_map_of_mem ((ihs _ _ _).mpr ⟨m₂, post, rfl, rfl, h₂⟩)
  | alt r s ihr ihs =>
    rw [Pattern.lengths, List.mem_dedup, List.mem_append, ihr, ihs]
    constructor
    · rintro (⟨m, post, ht, hn, hm⟩ | ⟨m, post, ht, hn, hm⟩)
      · exact ⟨m, post, ht, hn, Or.inl hm⟩
      · exact ⟨m, post, ht, hn, Or.inr hm⟩
    · rintro ⟨m, post, ht, hn, hm | hm⟩
      · exact Or.inl ⟨m, post, ht, hn, hm⟩
      · exact Or.inr ⟨m, post, ht, hn, hm⟩
  | star r ih =>
    rw [Pattern.lengths]
    exact mem_reach_iff ih b t n

/-! ### The leftmost-longest matches -/

variable (isWord) in
/-- The length of the longest match at the front, or 0. -/
def longest (r : Pattern α) (b : Option α) (t : List α) : ℕ := (r.lengths isWord b t).foldr max 0

variable (isWord) in
/-- The matches, each with the text that is skipped before it; `skipped` is what the
search has passed since the last match. -/
def findFrom (r : Pattern α) : ℕ → Option α → List α → List α → List (List α × List α)
  | 0, _, _, _ => []
  | fuel + 1, b, skipped, t =>
    let n := longest isWord r b t
    if n = 0 then
      match t with
      | [] => []
      | c :: t => findFrom r fuel (some c) (skipped ++ [c]) t
    else (skipped, t.take n) :: findFrom r fuel (behind b (t.take n)) [] (t.drop n)

variable (isWord) in
/-- All successive matches of a pattern that does not match the empty string. -/
def findAll (r : Pattern α) (t : List α) : List (List α × List α) :=
  findFrom isWord r t.length none [] t

variable (isWord) in
/-- `r` matches `m`, which is not empty, behind the first part `g` of a text. -/
def MatchAt (r : Pattern α) (b : Option α) (g m post : List α) : Prop :=
  m ≠ [] ∧ r.Matches isWord (behind b g) m post

variable (isWord) in
/-- The leftmost match, and of those the longest. -/
structure LeftmostLongest (r : Pattern α) (b : Option α) (g m post : List α) : Prop where
  isMatch : MatchAt isWord r b g m post
  longest : ∀ m' post', m' ++ post' = m ++ post → MatchAt isWord r b g m' post' →
    m'.length ≤ m.length
  leftmost : ∀ g' m' post', g' ++ (m' ++ post') = g ++ (m ++ post) →
    MatchAt isWord r b g' m' post' → g.length ≤ g'.length

variable (isWord) in
/-- The successive matches of a text behind `b`. -/
inductive Finds (r : Pattern α) : Option α → List α → List (List α × List α) → Prop
  | none {b : Option α} {t : List α}
      (hno : ∀ g m post, t = g ++ (m ++ post) → ¬MatchAt isWord r b g m post) : Finds r b t []
  | cons {b : Option α} {g m post : List α} {ms : List (List α × List α)}
      (hfirst : LeftmostLongest isWord r b g m post)
      (hrest : Finds r (behind b (g ++ m)) post ms) : Finds r b (g ++ (m ++ post)) ((g, m) :: ms)

theorem le_foldr_max {ns : List ℕ} {n : ℕ} (hn : n ∈ ns) : n ≤ ns.foldr max 0 := by
  induction ns with
  | nil => exact absurd hn (by simp)
  | cons k ns ih =>
    rw [List.foldr_cons]
    rcases List.mem_cons.mp hn with rfl | hn
    · exact le_max_left _ _
    · exact (ih hn).trans (le_max_right _ _)

theorem foldr_max_mem {ns : List ℕ} (h : ns.foldr max 0 ≠ 0) : ns.foldr max 0 ∈ ns := by
  induction ns with
  | nil => exact absurd rfl h
  | cons k ns ih =>
    rw [List.foldr_cons] at h ⊢
    rcases le_total k (ns.foldr max 0) with hle | hle
    · rw [max_eq_right hle] at h ⊢
      exact List.mem_cons_of_mem k (ih h)
    · rw [max_eq_left hle]
      exact List.mem_cons_self

variable (isWord) in
/-- No match at the front, or the longest one. -/
theorem longest_spec (r : Pattern α) (b : Option α) (t : List α) :
    (longest isWord r b t = 0 → ∀ m post, t = m ++ post → m ≠ [] → ¬r.Matches isWord b m post) ∧
      (longest isWord r b t ≠ 0 →
        t.take (longest isWord r b t) ≠ [] ∧
        r.Matches isWord b (t.take (longest isWord r b t)) (t.drop (longest isWord r b t)) ∧
        ∀ m post, t = m ++ post → r.Matches isWord b m post →
          m.length ≤ (t.take (longest isWord r b t)).length) := by
  have hle : ∀ m post, t = m ++ post → r.Matches isWord b m post →
      m.length ≤ longest isWord r b t := fun m post ht hm =>
    le_foldr_max ((mem_lengths r b t _).mpr ⟨m, post, ht, rfl, hm⟩)
  constructor
  · intro hzero m post ht hne hm
    have hlen := hle m post ht hm
    rw [hzero, Nat.le_zero, List.length_eq_zero_iff] at hlen
    exact hne hlen
  · intro hne
    obtain ⟨m, post, ht, hn, hm⟩ := (mem_lengths r b t _).mp (foldr_max_mem hne)
    have hn' : longest isWord r b t = m.length := hn
    have htake : t.take (longest isWord r b t) = m := by rw [hn', ht, List.take_left]
    have hdrop : t.drop (longest isWord r b t) = post := by rw [hn', ht, List.drop_left]
    rw [htake, hdrop]
    refine ⟨?_, hm, fun m' post' ht' hm' => hn' ▸ hle m' post' ht' hm'⟩
    rintro rfl
    exact hne hn'

/-- **The search finds the matches.** The text it has passed starts no match. -/
theorem finds_findFrom (r : Pattern α) {fuel : ℕ} {b b₀ : Option α} {skipped t : List α}
    (hfuel : t.length ≤ fuel) (hb : behind b₀ skipped = b)
    (hpassed : ∀ g m post, g ++ (m ++ post) = skipped ++ t → MatchAt isWord r b₀ g m post →
      skipped.length ≤ g.length) :
    Finds isWord r b₀ (skipped ++ t) (findFrom isWord r fuel b skipped t) := by
  induction fuel generalizing b b₀ skipped t with
  | zero =>
    rw [Nat.le_zero, List.length_eq_zero_iff] at hfuel
    subst hfuel
    refine .none fun g m post ht hm => hm.1 ?_
    have hlen := hpassed g m post ht.symm hm
    have ht := congrArg List.length ht
    simp only [List.length_append, List.length_nil] at ht
    exact List.length_eq_zero_iff.mp (by omega)
  | succ fuel ih =>
    obtain ⟨hzero, hpos⟩ := longest_spec isWord r b t
    unfold findFrom
    by_cases hn : longest isWord r b t = 0
    · rw [if_pos hn]
      -- nothing matches in front of the rest either
      have hpassed' : ∀ g m post, g ++ (m ++ post) = skipped ++ t → MatchAt isWord r b₀ g m post →
          skipped.length < g.length := by
        intro g m post ht hm
        apply lt_of_le_of_ne (hpassed g m post ht hm)
        intro hlen
        obtain ⟨rfl, ht'⟩ := List.append_inj ht hlen.symm
        rw [MatchAt, hb] at hm
        exact hzero hn m post ht'.symm hm.1 hm.2
      cases t with
      | nil =>
        refine .none fun g m post ht hm => ?_
        have hlen := hpassed' g m post ht.symm hm
        have ht := congrArg List.length ht
        simp only [List.length_append, List.length_nil] at ht
        omega
      | cons c t =>
        have hfinds : Finds isWord r b₀ (skipped ++ [c] ++ t)
            (findFrom isWord r fuel (some c) (skipped ++ [c]) t) := by
          refine ih (Nat.le_of_succ_le_succ hfuel) (behind_concat _ _ _) fun g m post ht hm => ?_
          rw [List.append_assoc] at ht
          rw [List.length_append]
          exact hpassed' g m post ht hm
        rw [List.append_assoc] at hfinds
        exact hfinds
    · rw [if_neg hn]
      obtain ⟨hne, hm, hlongest⟩ := hpos hn
      generalize longest isWord r b t = n at hne hm hlongest hn
      have hrest : Finds isWord r (behind b (t.take n)) ([] ++ t.drop n)
          (findFrom isWord r fuel (behind b (t.take n)) [] (t.drop n)) := by
        refine ih ?_ rfl fun g m post _ _ => Nat.zero_le _
        rw [List.length_drop]
        omega
      have hfirst : LeftmostLongest isWord r b₀ skipped (t.take n) (t.drop n) := by
        refine ⟨⟨hne, hb ▸ hm⟩, fun m' post' ht hm' => ?_, fun g m' post' ht hm' => ?_⟩
        · rw [List.take_append_drop] at ht
          exact hlongest m' post' ht.symm (hb ▸ hm'.2)
        · rw [List.take_append_drop] at ht
          exact hpassed g m' post' ht hm'
      have hbehind : behind b₀ (skipped ++ t.take n) = behind b (t.take n) := by
        rw [behind_append, hb]
      rw [← hbehind, List.nil_append] at hrest
      have hall := Finds.cons hfirst hrest
      rw [List.take_append_drop, hbehind] at hall
      exact hall

variable (isWord) in
theorem finds_findAll (r : Pattern α) (t : List α) :
    Finds isWord r none t (findAll isWord r t) := by
  have h : Finds isWord r none ([] ++ t) (findFrom isWord r t.length none [] t) :=
    finds_findFrom r le_rfl rfl fun _ _ _ _ _ => Nat.zero_le _
  exact h

/-! ### What the matches have in common -/

/-- The matches, each with everything that stands before it. -/
def placed : List α → List (List α × List α) → List (List α × List α)
  | _, [] => []
  | before, (g, m) :: ms => (before ++ g, m) :: placed (before ++ g ++ m) ms

theorem Finds.forall_mem {r : Pattern α} {Q : List α → Prop}
    (hr : ∀ b m post, r.Matches isWord b m post → Q m) {b : Option α} {t : List α}
    {ms : List (List α × List α)} (h : Finds isWord r b t ms) : ∀ x ∈ ms, x.2 ≠ [] ∧ Q x.2 := by
  induction h with
  | none _ => simp
  | cons hfirst _ ih =>
    rw [List.forall_mem_cons]
    exact ⟨⟨hfirst.isMatch.1, hr _ _ _ hfirst.isMatch.2⟩, ih⟩

/-- **Wherever a match starts, a match is found that includes that place**; one that starts
there is the longest. -/
theorem Finds.covers {r : Pattern α} {b : Option α} {t : List α} {ms : List (List α × List α)}
    (h : Finds isWord r b t ms) {g m post : List α} (ht : t = g ++ (m ++ post))
    (hm : MatchAt isWord r b g m post) (before : List α) :
    ∃ x ∈ placed before ms, x.1 <+: before ++ g ∧
      (∃ c w, x.1 ++ x.2 = before ++ g ++ c :: w) ∧ (x.1 = before ++ g → m <+: x.2) := by
  induction h generalizing g before with
  | none hno => exact absurd hm (hno g m post ht)
  | @cons b g₁ m₁ post₁ ms hfirst _ ih =>
    have hle := hfirst.leftmost g m post ht.symm hm
    rw [placed]
    by_cases hlt : g.length < g₁.length + m₁.length
    · refine ⟨_, List.mem_cons_self, ?_, ?_, ?_⟩
      · rw [List.prefix_append_right_inj]
        exact List.prefix_of_prefix_length_le ⟨_, ht⟩ (List.prefix_append g _) hle
      · have hpre : g <+: g₁ ++ m₁ := by
          have hpost : g₁ ++ m₁ <+: g ++ (m ++ post) := ⟨post₁, by rw [List.append_assoc, ht]⟩
          refine List.prefix_of_prefix_length_le (List.prefix_append g _) hpost ?_
          rw [List.length_append]
          omega
        obtain ⟨w, hw⟩ := hpre
        cases w with
        | nil =>
          have hlen := congrArg List.length hw
          rw [List.append_nil, List.length_append] at hlen
          omega
        | cons c w => exact ⟨c, w, by rw [List.append_assoc, ← hw, List.append_assoc]⟩
      · intro hsame
        obtain rfl := List.append_cancel_left hsame
        have ht := List.append_cancel_left ht
        have hlen := hfirst.longest m post ht.symm hm
        exact List.prefix_of_prefix_length_le ⟨post, rfl⟩ ⟨post₁, ht⟩ hlen
    · -- the match starts behind the first one that is found
      obtain ⟨u, rfl, htail⟩ : ∃ u, g = g₁ ++ m₁ ++ u ∧ post₁ = u ++ (m ++ post) := by
        rw [← List.append_assoc] at ht
        rcases List.append_eq_append_iff.mp ht with ⟨u, hg, htail⟩ | ⟨u, hg, htail⟩
        · exact ⟨u, hg, htail⟩
        · have hlen := congrArg List.length hg
          rw [List.length_append, List.length_append] at hlen
          obtain rfl : u = [] := List.length_eq_zero_iff.mp (by omega)
          rw [List.append_nil] at hg
          exact ⟨[], by rw [List.append_nil, hg], htail.symm⟩
      rw [MatchAt, behind_append] at hm
      obtain ⟨x, hx, hcovers⟩ := ih htail hm (before ++ g₁ ++ m₁)
      have hassoc : before ++ g₁ ++ m₁ ++ u = before ++ (g₁ ++ m₁ ++ u) := by
        simp only [List.append_assoc]
      rw [hassoc] at hcovers
      exact ⟨x, List.mem_cons_of_mem _ hx, hcovers⟩

variable (isWord) in
/-- Two matches with nothing between them, the first of them the longest at its place. -/
structure Touching (r : Pattern α) (b : Option α) (m m' post : List α) : Prop where
  first : MatchAt isWord r b [] m (m' ++ post)
  longest : ∀ m₁ post₁, m₁ ++ post₁ = m ++ (m' ++ post) → MatchAt isWord r b [] m₁ post₁ →
    m₁.length ≤ m.length
  second : MatchAt isWord r b m m' post

/-- Of two successive matches with nothing skipped between them, the first is the longest. -/
theorem Finds.touching {r : Pattern α} {b : Option α} {t : List α} {ms : List (List α × List α)}
    (h : Finds isWord r b t ms) :
    ms.IsChain fun x y => y.1 = [] → ∃ v post, t = v ++ (x.2 ++ (y.2 ++ post)) ∧
      Touching isWord r (behind b v) x.2 y.2 post := by
  induction h with
  | none _ => exact .nil
  | @cons b g m post ms hfirst hrest ih =>
    have hchain := ih.imp (S := fun x y => y.1 = [] → ∃ v post',
        g ++ (m ++ post) = v ++ (x.2 ++ (y.2 ++ post')) ∧
          Touching isWord r (behind b v) x.2 y.2 post') (by
      intro x y hxy hy
      obtain ⟨v, post', ht, htouch⟩ := hxy hy
      refine ⟨g ++ m ++ v, post', ?_, ?_⟩
      · rw [ht]
        simp only [List.append_assoc]
      · rw [behind_append]
        exact htouch)
    cases hrest with
    | none _ => exact .singleton _
    | @cons _ g' m' post' ms hnext _ =>
      refine .cons_cons ?_ hchain
      intro hg
      change g' = [] at hg
      subst hg
      refine ⟨g, post', rfl, hfirst.isMatch, hfirst.longest, ?_⟩
      rw [MatchAt, ← behind_append]
      exact hnext.isMatch

end ShareNotes.Lib.Regexp
