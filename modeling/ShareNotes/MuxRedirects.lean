import ShareNotes.UrlGrammar

/-!
# Where the mux redirects

The mux answers a path that is not clean with a redirection to the clean one, and
a path that lacks the last slash of a pattern with a redirection to the pattern.
`cleanPath` keeps what it has made, and no pattern is redirected, so a browser
that follows the redirections from any path comes to exactly one path that is
dispatched.
-/

namespace ShareNotes.MuxRedirects

open ShareNotes.Lib.Decimal ShareNotes.Routing ShareNotes.UrlGrammar

/-! ### Clean paths -/

/-- A segment that `cleanPath` keeps. -/
structure Kept (segment : Bytes) : Prop where
  ne_nil : segment ≠ []
  ne_dot : segment ≠ ascii "."
  ne_dots : segment ≠ ascii ".."
  no_slash : 47 ∉ segment

/-- The path of kept segments, with or without a slash at its end. -/
def rooted (segments : List Bytes) (slash : Bool) : Bytes :=
  ascii "/" ++ (ascii "/").intercalate segments ++ if slash then ascii "/" else []

theorem cleanSegment_kept {segment : Bytes} (h : Kept segment) (kept : List Bytes) :
    cleanSegment kept segment = segment :: kept := by
  rw [cleanSegment, if_neg fun hdot => hdot.elim h.ne_nil h.ne_dot, if_neg h.ne_dots]

theorem foldl_cleanSegment {segments : List Bytes} (h : ∀ s ∈ segments, Kept s)
    (kept : List Bytes) : segments.foldl cleanSegment kept = segments.reverse ++ kept := by
  induction segments generalizing kept with
  | nil => rfl
  | cons s segments ih =>
    rw [List.forall_mem_cons] at h
    rw [List.foldl_cons, cleanSegment_kept h.1, ih h.2, List.reverse_cons, List.append_assoc]
    rfl

theorem cleanSegment_nil (kept : List Bytes) : cleanSegment kept [] = kept := if_pos (Or.inl rfl)

/-- No segment of a split path has a slash in it. -/
theorem not_mem_splitOn (path : Bytes) : ∀ segment ∈ path.splitOn 47, 47 ∉ segment := by
  induction path with
  | nil => simp
  | cons b path ih =>
    rw [List.splitOn_cons_eq_if_modifyHead]
    by_cases hb : b = 47
    · rw [if_pos (beq_iff_eq.mpr hb), List.forall_mem_cons]
      exact ⟨List.not_mem_nil, ih⟩
    · rw [if_neg fun h => hb (beq_iff_eq.mp h)]
      cases hsplit : path.splitOn 47 with
      | nil => exact absurd hsplit (List.splitOn_ne_nil 47 path)
      | cons segment segments =>
        rw [hsplit, List.forall_mem_cons] at ih
        rw [List.modifyHead_cons, List.forall_mem_cons, List.mem_cons, not_or]
        exact ⟨⟨Ne.symm hb, ih.1⟩, ih.2⟩

/-- What `cleanPath` keeps of segments without a slash. -/
theorem kept_of_foldl {segments kept : List Bytes} (hkept : ∀ s ∈ kept, Kept s)
    (hsegments : ∀ s ∈ segments, 47 ∉ s) : ∀ s ∈ segments.foldl cleanSegment kept, Kept s := by
  induction segments generalizing kept with
  | nil => exact hkept
  | cons segment segments ih =>
    rw [List.forall_mem_cons] at hsegments
    refine ih ?_ hsegments.2
    rw [cleanSegment]
    split
    · exact hkept
    · rename_i hne
      rw [not_or] at hne
      split
      · exact fun s hs => hkept s (List.mem_of_mem_tail hs)
      · rename_i hdots
        rw [List.forall_mem_cons]
        exact ⟨⟨hne.1, hne.2, hdots, hsegments.1⟩, hkept⟩

/-- A clean path is the path of its segments. -/
theorem cleanPath_cases (path : Bytes) : ∃ segments slash, (∀ s ∈ segments, Kept s) ∧
    (segments = [] → slash = false) ∧ cleanPath path = rooted segments slash := by
  have hkept : ∀ s ∈ (path.splitOn 47).foldl cleanSegment [], Kept s :=
    kept_of_foldl (by simp) (not_mem_splitOn path)
  generalize hfold : (path.splitOn 47).foldl cleanSegment [] = kept at hkept
  have hreverse : ∀ s ∈ kept.reverse, Kept s := fun s hs => hkept s (List.mem_reverse.mp hs)
  rw [cleanPath, hfold]
  by_cases hslash : path.getLast? = some 47 ∧ kept ≠ []
  · rw [if_pos hslash]
    exact ⟨kept.reverse, true, hreverse, fun h => absurd (List.reverse_eq_nil_iff.mp h) hslash.2, rfl⟩
  · rw [if_neg hslash]
    exact ⟨kept.reverse, false, hreverse, fun _ => rfl, (List.append_nil _).symm⟩

theorem foldl_rooted {segments : List Bytes} (h : ∀ s ∈ segments, Kept s) (slash : Bool) :
    ((rooted segments slash).splitOn 47).foldl cleanSegment [] = segments.reverse := by
  have hinner : (((ascii "/").intercalate segments).splitOn 47).foldl cleanSegment [] =
      segments.reverse := by
    by_cases hne : segments = []
    · rw [hne]
      rfl
    · have hsplit := List.splitOn_intercalate 47 (fun s hs => (h s hs).no_slash) hne
      have hslash : ascii "/" = [47] := rfl
      rw [hslash, hsplit, foldl_cleanSegment h, List.append_nil]
  have hpath : rooted segments slash =
      [] ++ 47 :: ((ascii "/").intercalate segments ++ if slash then ascii "/" else []) := by
    rw [rooted, List.append_assoc]
    rfl
  rw [hpath, List.splitOn_append_cons_self, List.splitOn_nil, List.singleton_append,
    List.foldl_cons, cleanSegment_nil]
  cases slash with
  | false =>
    rw [if_neg Bool.false_ne_true, List.append_nil]
    exact hinner
  | true =>
    have hslash : ascii "/" = 47 :: [] := rfl
    rw [if_pos rfl]
    nth_rewrite 2 [hslash]
    rw [List.splitOn_append_cons_self, List.foldl_append, hinner]
    exact cleanSegment_nil _

theorem intercalate_concat (init : List Bytes) (s : Bytes) :
    ∃ front, (ascii "/").intercalate (init ++ [s]) = front ++ s := by
  induction init with
  | nil => exact ⟨[], List.intercalate_singleton⟩
  | cons t init ih =>
    obtain ⟨front, hfront⟩ := ih
    refine ⟨t ++ ascii "/" ++ front, ?_⟩
    rw [List.cons_append, List.intercalate_cons_of_ne_nil (by simp), hfront]
    simp only [List.append_assoc]

/-- Only the slash that was added ends a path of segments. -/
theorem getLast_rooted {segments : List Bytes} (h : ∀ s ∈ segments, Kept s)
    (hlast : (rooted segments false).getLast? = some 47) : segments = [] := by
  induction segments using List.reverseRecOn with
  | nil => rfl
  | append_singleton init s _ =>
    obtain ⟨front, hfront⟩ := intercalate_concat init s
    have hs := h s (List.mem_append_right _ List.mem_cons_self)
    rw [rooted, hfront, if_neg Bool.false_ne_true, List.append_nil, ← List.append_assoc,
      List.getLast?_append_of_ne_nil _ hs.ne_nil] at hlast
    exact absurd (List.mem_of_getLast? hlast) hs.no_slash

/-- **The path of kept segments is clean.** -/
theorem cleanPath_rooted {segments : List Bytes} (h : ∀ s ∈ segments, Kept s) {slash : Bool}
    (hslash : segments = [] → slash = false) :
    cleanPath (rooted segments slash) = rooted segments slash := by
  have hfold := foldl_rooted h slash
  rw [cleanPath, hfold, List.reverse_reverse]
  cases slash with
  | true =>
    have hne : segments ≠ [] := fun hnil => Bool.noConfusion (hslash hnil)
    have hlast : (rooted segments true).getLast? = some 47 := List.getLast?_concat
    rw [if_pos ⟨hlast, fun hnil => hne (List.reverse_eq_nil_iff.mp hnil)⟩]
    rfl
  | false =>
    rw [if_neg fun hlast => hlast.2 (List.reverse_eq_nil_iff.mpr (getLast_rooted h hlast.1))]
    exact (List.append_nil _).symm

/-- `cleanPath` changes nothing the second time. -/
theorem cleanPath_cleanPath (path : Bytes) : cleanPath (cleanPath path) = cleanPath path := by
  obtain ⟨segments, slash, hkept, hslash, hclean⟩ := cleanPath_cases path
  rw [hclean, cleanPath_rooted hkept hslash]

/-! ### Following the redirections -/

/-- The redirections of the mux lead from the first path to the second, which is dispatched. -/
inductive Leads : Bytes → Bytes → Prop
  | here {path : Bytes} (h : muxRedirect (routes.map Prod.fst) path = none) : Leads path path
  | redirect {path next last : Bytes} (h : muxRedirect (routes.map Prod.fst) path = some next)
      (hrest : Leads next last) : Leads path last

theorem Leads.dispatched {path last : Bytes} (h : Leads path last) :
    muxRedirect (routes.map Prod.fst) last = none := by
  induction h with
  | here h => exact h
  | redirect h hrest ih => exact ih

theorem Leads.unique {path last last' : Bytes} (h : Leads path last) (h' : Leads path last') :
    last = last' := by
  induction h with
  | here hnone =>
    cases h' with
    | here => rfl
    | redirect hsome =>
      rw [hnone] at hsome
      exact absurd hsome (by simp)
  | redirect hsome hrest ih =>
    cases h' with
    | here hnone =>
      rw [hnone] at hsome
      exact absurd hsome (by simp)
    | redirect hsome' hrest' =>
      rw [hsome, Option.some.injEq] at hsome'
      rw [← hsome'] at hrest'
      exact ih hrest'

/-- A dispatched path takes the route of its longest pattern. -/
theorem Leads.routed {path last : Bytes} (h : Leads path last) : routed last = chosen last := by
  rw [Routing.routed, h.dispatched, Option.elim_none]
  rfl

theorem patterns_dispatched :
    ∀ pattern ∈ routes.map Prod.fst, muxRedirect (routes.map Prod.fst) pattern = none := by
  decide +kernel

/-- A clean path is redirected at most to a pattern. -/
theorem exists_leads_clean {path : Bytes} (hclean : cleanPath path = path) :
    ∃ last, Leads path last := by
  by_cases hpattern : path ++ ascii "/" ∈ routes.map Prod.fst
  · refine ⟨_, .redirect ?_ (.here (patterns_dispatched _ hpattern))⟩
    rw [muxRedirect, if_neg fun h => h hclean, if_pos hpattern]
  · refine ⟨path, .here ?_⟩
    rw [muxRedirect, if_neg fun h => h hclean, if_neg hpattern]

/-- **The redirections end** at a path that is dispatched. -/
theorem exists_leads (path : Bytes) : ∃ last, Leads path last := by
  by_cases hclean : cleanPath path = path
  · exact exists_leads_clean hclean
  · obtain ⟨last, hlast⟩ := exists_leads_clean (cleanPath_cleanPath path)
    exact ⟨last, .redirect (if_pos hclean) hlast⟩

/-- They stay below the root. -/
theorem Leads.root {path last : Bytes} (h : Leads path last) (hpath : ascii "/" <+: path) :
    ascii "/" <+: last := by
  induction h with
  | here => exact hpath
  | @redirect path next last hsome hrest ih =>
    refine ih ?_
    rw [muxRedirect] at hsome
    split at hsome
    · obtain ⟨segments, slash, _, _, hclean⟩ := cleanPath_cases path
      rw [← Option.some.inj hsome, hclean, rooted, List.append_assoc]
      exact List.prefix_append _ _
    · split at hsome
      · rw [← Option.some.inj hsome]
        exact hpath.trans (List.prefix_append _ _)
      · exact absurd hsome (by simp)

/-- A path of a name and one more segment is dispatched as it is. -/
theorem leads_slashed {name tail : Bytes} (hname : Kept name) (htail : tail ≠ [] → Kept tail)
    (hpattern : slashed name ++ tail ++ ascii "/" ∉ routes.map Prod.fst) :
    Leads (slashed name ++ tail) (slashed name ++ tail) := by
  have hclean : cleanPath (slashed name ++ tail) = slashed name ++ tail := by
    by_cases hnil : tail = []
    · have hrooted : slashed name ++ tail = rooted [name] true := by
        rw [hnil, rooted, List.intercalate_singleton]
        exact List.append_nil _
      rw [hrooted]
      refine cleanPath_rooted ?_ fun h => absurd h (by simp)
      rw [List.forall_mem_singleton]
      exact hname
    · have hrooted : slashed name ++ tail = rooted [name, tail] false := by
        rw [rooted, List.intercalate_cons_cons, List.intercalate_singleton, slashed]
        simp
      rw [hrooted]
      refine cleanPath_rooted ?_ fun _ => rfl
      rw [List.forall_mem_cons, List.forall_mem_singleton]
      exact ⟨hname, htail hnil⟩
  refine .here ?_
  rw [muxRedirect, if_neg fun h => h hclean, if_neg hpattern]

end ShareNotes.MuxRedirects
