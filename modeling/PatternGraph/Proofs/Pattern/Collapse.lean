import PatternGraph.Proofs.Pattern.Canonical
import PatternGraph.Proofs.Pattern.Check
import Mathlib.Data.List.TakeWhile

/-!
# Collapsed quantifiers — what writing a tree makes of the text it was read from

`collapse` writes one quantifier for every run of them and leaves all other characters as they are.
The text of a tree is the collapsed text that the tree was read from (`Branches.branchChars_eq`),
and since the tree is canonical it is read from that text again.
-/

namespace PatternGraph.Pattern

/-! ## Runs of quantifiers -/

/-- Whether a character is a quantifier. -/
def isQuantifier (c : Char) : Bool :=
  (Quantifier.ofChar? c).isSome

/-- The one character for a run of quantifiers: a plus for pluses only, else a star. -/
def mark (run : List Char) : Char :=
  if run.all (· = '+') then '+' else '*'

/-- A text with each maximal run of quantifiers replaced by the one character for it. -/
def collapse : List Char → List Char
  | [] => []
  | c :: rest =>
    if isQuantifier c then
      mark (c :: rest.takeWhile isQuantifier) :: collapse (rest.dropWhile isQuantifier)
    else
      c :: collapse rest
termination_by text => text.length
decreasing_by
  · exact Nat.lt_succ_of_le (List.dropWhile_sublist isQuantifier).length_le
  · exact Nat.lt_succ_self _

variable {c : Char} {q : Quantifier} {s t : List Char} {p : Pattern} {items branches : List Pattern}

/-- The characters that are quantifiers are those that stand for one. -/
theorem isQuantifier_iff : isQuantifier c = true ↔ ∃ q : Quantifier, c = q.toChar := by
  unfold isQuantifier
  rw [Option.isSome_iff_exists]
  simp only [Quantifier.ofChar?_eq_some_iff]

theorem isQuantifier_toChar (q : Quantifier) : isQuantifier q.toChar = true :=
  isQuantifier_iff.2 ⟨q, rfl⟩

/-- An ordinary character ends a run of quantifiers. -/
theorem isQuantifier_of_isOrdinary (h : IsOrdinary c) : isQuantifier c = false := by
  rcases h with ⟨-, -, -, hstar, hplus⟩
  rw [Bool.eq_false_iff, ne_eq, isQuantifier_iff]
  rintro ⟨q, rfl⟩
  rcases q.toChar_eq with hq | hq
  · exact hstar hq
  · exact hplus hq

/-- The character for a run is that of the quantifier which says what the run says. -/
theorem mark_map_toChar (q : Quantifier) (qs : List Quantifier) :
    mark ((q :: qs).map Quantifier.toChar) = (qs.foldl Quantifier.stack q).toChar := by
  induction qs generalizing q with
  | nil => cases q <;> rfl
  | cons r qs ih =>
    -- two quantifiers in front are one: what they say together is a plus only if both are
    rw [List.foldl_cons, ← ih]
    cases q <;> cases r <;> simp [mark, Quantifier.stack, Quantifier.toChar]

/-! ## Collapsing a text part by part -/

theorem collapse_nil : collapse [] = [] := by
  rw [collapse]

/-- A character that is no quantifier is left as it is. -/
theorem collapse_cons (hc : isQuantifier c = false) : collapse (c :: t) = c :: collapse t := by
  rw [collapse, if_neg (by simp [hc])]

/-- A character that is no quantifier keeps what stands before it apart from what stands behind. -/
theorem collapse_append_cons (hc : isQuantifier c = false) (s t : List Char) :
    collapse (s ++ c :: t) = collapse s ++ c :: collapse t := by
  fun_induction collapse s with
  | case1 => exact collapse_cons hc
  | case2 x rest hx ih =>
    -- the run that starts at `x` ends before `c`
    have htake : (rest ++ c :: t).takeWhile isQuantifier = rest.takeWhile isQuantifier := by
      rw [List.takeWhile_append]
      split
      · next hlength =>
        rw [List.takeWhile_cons_of_neg (by simp [hc]), List.append_nil]
        exact ((List.takeWhile_prefix isQuantifier).eq_of_length hlength).symm
      · rfl
    have hdrop : (rest ++ c :: t).dropWhile isQuantifier
        = rest.dropWhile isQuantifier ++ c :: t := by
      rw [List.dropWhile_append]
      split
      · next hempty => simp [hc, List.isEmpty_iff.1 hempty]
      · rfl
    rw [List.cons_append, collapse, if_pos hx, htake, hdrop, ih]
    rfl
  | case3 x rest hx ih =>
    rw [List.cons_append, collapse_cons (Bool.eq_false_iff.2 hx), ih]
    rfl

/-- A run of quantifiers collapses to one character, if it ends where the rest starts. -/
theorem collapse_run (qs : List Quantifier) (ht : ∀ (r : Quantifier) v, t ≠ r.toChar :: v) :
    collapse ((q :: qs).map Quantifier.toChar ++ t)
      = (qs.foldl Quantifier.stack q).toChar :: collapse t := by
  have hrun : ∀ x ∈ qs.map Quantifier.toChar, isQuantifier x = true := by
    intro x hx
    rcases List.mem_map.1 hx with ⟨r, -, rfl⟩
    exact isQuantifier_toChar r
  -- what follows adds nothing to the run
  have hhead : t.takeWhile isQuantifier = [] ∧ t.dropWhile isQuantifier = t := by
    cases t with
    | nil => exact ⟨rfl, rfl⟩
    | cons x t =>
      have hx : ¬isQuantifier x = true := by
        rw [isQuantifier_iff]
        rintro ⟨r, rfl⟩
        exact ht r t rfl
      exact ⟨List.takeWhile_cons_of_neg hx, List.dropWhile_cons_of_neg hx⟩
  rw [List.map_cons, List.cons_append, collapse, if_pos (isQuantifier_toChar q),
    List.takeWhile_append_of_pos hrun, List.dropWhile_append_of_pos hrun, hhead.1, hhead.2,
    List.append_nil, ← List.map_cons, mark_map_toChar]

/-- The character for a run is one of the run. -/
theorem mark_mem {run : List Char} (hne : run ≠ []) (hrun : ∀ x ∈ run, isQuantifier x = true) :
    mark run ∈ run := by
  unfold mark
  split
  · next hall =>
    obtain ⟨x, rest, rfl⟩ := List.exists_cons_of_ne_nil hne
    have hx := List.all_eq_true.1 hall x List.mem_cons_self
    rw [← of_decide_eq_true hx]
    exact List.mem_cons_self
  · next hall =>
    rw [List.all_eq_true] at hall
    -- a run that is not all pluses has a star, which is its character
    push Not at hall
    obtain ⟨x, hx, hplus⟩ := hall
    obtain ⟨q, rfl⟩ := isQuantifier_iff.1 (hrun x hx)
    cases q with
    | zeroOrMore => exact hx
    | oneOrMore => exact absurd rfl hplus

/-- Collapsing leaves characters out and changes none. -/
theorem collapse_sublist (s : List Char) : (collapse s).Sublist s := by
  fun_induction collapse s with
  | case1 => exact List.Sublist.refl []
  | case2 x rest hx ih =>
    have hrun : ∀ y ∈ x :: rest.takeWhile isQuantifier, isQuantifier y = true := by
      intro y hy
      rcases List.mem_cons.1 hy with rfl | hy
      · exact hx
      · exact List.mem_takeWhile_imp hy
    have hmark := mark_mem (List.cons_ne_nil _ _) hrun
    have hsplit : x :: rest
        = (x :: rest.takeWhile isQuantifier) ++ rest.dropWhile isQuantifier := by
      rw [List.cons_append, List.takeWhile_append_dropWhile]
    rw [hsplit]
    exact (List.singleton_sublist.2 hmark).append ih
  | case3 x rest hx ih => exact ih.cons_cons x

/-- Collapsing makes no text longer. -/
theorem length_collapse_le (s : List Char) : (collapse s).length ≤ s.length :=
  (collapse_sublist s).length_le

/-- Without two quantifiers in a row there is nothing to collapse. -/
theorem collapse_eq_self (h : Unstacked s) : collapse s = s := by
  induction s with
  | nil => exact collapse_nil
  | cons c s ih =>
    have hs : Unstacked s := Unstacked.right (s := [c]) h
    cases hc : isQuantifier c with
    | false => rw [collapse_cons hc, ih hs]
    | true =>
      rcases isQuantifier_iff.1 hc with ⟨q, rfl⟩
      have hrun := collapse_run (q := q) (t := s) [] ?_
      · rw [ih hs] at hrun
        exact hrun
      · rintro r v rfl
        exact h [] v q r rfl

/-! ## The text of a tree that was read -/

/-- A sequence is written as its items are, be there none, one or more. -/
theorem chars_ofItems (items : List Pattern) : (ofItems items).chars = itemChars items := by
  match items with
  | [] => rfl
  | [item] => exact (List.append_nil item.chars).symm
  | _ :: _ :: _ => rfl

/-- A choice is written as its branches are, with bars between them. -/
theorem chars_ofBranches (branches : List Pattern) :
    (ofBranches branches).chars = branchChars branches := by
  match branches with
  | [] => rfl
  | [branch] => rfl
  | _ :: _ :: _ => rfl

theorem branchChars_cons (p : Pattern) (h : branches ≠ []) :
    branchChars (p :: branches) = p.chars ++ '|' :: branchChars branches := by
  cases branches with
  | nil => exact absurd rfl h
  | cons branch branches => rfl

/-- An atom ends with no quantifier, so what is behind it collapses apart from it. -/
theorem Atom.collapse_append (h : Atom s p) (t : List Char) :
    collapse (s ++ t) = collapse s ++ collapse t := by
  cases h with
  | literal hc =>
    rw [List.singleton_append, collapse_cons (isQuantifier_of_isOrdinary hc),
      collapse_cons (isQuantifier_of_isOrdinary hc), collapse_nil]
    rfl
  | @group s _ h =>
    have hopen : isQuantifier '(' = false := by decide
    have hclose : isQuantifier ')' = false := by decide
    rw [List.cons_append, List.append_assoc, List.singleton_append, collapse_cons hopen,
      collapse_cons hopen, collapse_append_cons hclose, collapse_append_cons hclose, collapse_nil]
    simp

mutual

/-- The text of a tree is the collapsed text that it was read from, by mutual induction on the
derivation. A run ends where the next item begins, so it collapses by itself. -/
theorem Branches.branchChars_eq {s : List Char} {branches : List Pattern}
    (h : Branches s branches) : branchChars branches = collapse s := by
  match h with
  | .last hitems =>
    rw [branchChars, chars_ofItems]
    exact hitems.itemChars_eq
  | .bar hitems hbranches =>
    rw [branchChars_cons _ hbranches.ne_nil, chars_ofItems, collapse_append_cons (by decide),
      hitems.itemChars_eq, hbranches.branchChars_eq]

theorem Items.itemChars_eq {s : List Char} {items : List Pattern} (h : Items s items) :
    itemChars items = collapse s := by
  match h with
  | .nil => exact collapse_nil.symm
  | .cons hatom [] hitems =>
    rw [itemChars, List.foldl_nil, hatom.collapse_append, hatom.chars_eq, hitems.itemChars_eq]
    rfl
  | .cons hatom (q :: qs) hitems =>
    rw [itemChars, hatom.isCanonical.2.foldl_quantify, chars, hatom.collapse_append,
      collapse_run qs hitems.ne_quantifier, hatom.chars_eq, hitems.itemChars_eq]
    simp

theorem Atom.chars_eq {s : List Char} {atom : Pattern} (h : Atom s atom) :
    atom.chars = collapse s := by
  match h with
  | .literal hc =>
    rw [chars, collapse_cons (isQuantifier_of_isOrdinary hc), collapse_nil]
  | .group hbranches =>
    rw [chars, chars_ofBranches, hbranches.branchChars_eq, collapse_cons (by decide),
      collapse_append_cons (by decide), collapse_nil]
    rfl

end

/-! ## Writing and reading again -/

variable {options : Options} {pattern : String}

/-- The text of a parsed tree is the text it was parsed from with its quantifiers collapsed, which
is that text itself where no quantifiers are stacked. Under the same options the tree is parsed from
its own text again. -/
theorem render_of_parse (h : parse options pattern = .ok p) :
    p.render.toList = collapse pattern.toList ∧
    (Unstacked pattern.toList → p.render = pattern) ∧
    parse options p.render = .ok p := by
  have hchars : p.chars = collapse pattern.toList := by
    rcases parse_eq_ok_iff.1 h with ⟨-, branches, hbranches, -, rfl⟩
    rw [chars_ofBranches, hbranches.branchChars_eq]
  have hlength : p.chars.length ≤ options.maxLength := by
    rw [hchars]
    refine Nat.le_trans (length_collapse_le _) ?_
    rw [String.length_toList]
    exact (parse_eq_ok_iff.1 h).1
  refine ⟨?_, fun hunstacked => ?_, ?_⟩
  · rw [toList_render, hchars]
  · rw [render, hchars, collapse_eq_self hunstacked, String.ofList_toList]
  · exact (isCanonical_of_parse h).parse_render hlength (nesting_le_of_parse h)

/-- In `(a+*|b++)**c` three runs collapse; only that of two pluses stays a plus. -/
theorem render_of_parse_three_runs :
    ∃ p, parse Options.standard "(a+*|b++)**c" = .ok p ∧
      collapse "(a+*|b++)**c".toList = "(a*|b+)*c".toList ∧
      p.render.toList = "(a*|b+)*c".toList ∧ parse Options.standard p.render = .ok p := by
  have hparse : parse Options.standard "(a+*|b++)**c" = .ok (concat
      [closure (group (alternation [closure (literal 'a') .zeroOrMore,
        closure (literal 'b') .oneOrMore])) .zeroOrMore, literal 'c']) := by cbv
  have hcollapse : collapse "(a+*|b++)**c".toList = "(a*|b+)*c".toList := by cbv
  rcases render_of_parse hparse with ⟨hrender, -, hagain⟩
  exact ⟨_, hparse, hcollapse, hrender.trans hcollapse, hagain⟩

end PatternGraph.Pattern
