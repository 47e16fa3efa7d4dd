import PatternGraph.Proofs.Compile
import PatternGraph.Proofs.LaxPlus
import PatternGraph.Proofs.Pattern.Interchanged

/-!
# Interchange — stars and pluses of the textual descent

The textual descent draws a star as it draws a plus, except inside a union, where both stand for
themselves. Two patterns that differ only in which quantifier stands where, and not inside a union,
are therefore both refused or compiled to the same automaton.

The proof follows the grammar of one text while the other is taken apart at the same places
(`slice_eq_of_branches`). A slice with a bar is the same text in both, and of any other slice the
items have the same drawing.
-/

namespace PatternGraph

open Pattern Text

/-- The two texts have one length, each of them holds a quantifier where they differ, and they
differ nowhere inside a slice that has a bar at its own level. -/
structure DifferInQuantifiers (s t : List Char) : Prop where
  length_eq : s.length = t.length
  quantifiers : ∀ (i : Nat) (c d : Char), s[i]? = some c → t[i]? = some d → c ≠ d →
    (c = '*' ∨ c = '+') ∧ (d = '*' ∨ d = '+')
  outside_unions : ∀ i : Nat, s[i]? ≠ t[i]? → ¬InUnion s i

variable {s t u v : List Char} {pattern pattern' : String}

/-- Texts that differ in quantifiers alone are the same once every plus is a star. -/
theorem DifferInQuantifiers.loosenWord_eq (h : DifferInQuantifiers s t) :
    loosenWord s = loosenWord t :=
  loosenWord_eq_iff.2 ⟨h.length_eq, h.quantifiers⟩

/-- Where nothing differs inside a union, each slice that is one stands in both texts. -/
theorem DifferInQuantifiers.keepsUnions (h : DifferInQuantifiers s t) : KeepsUnions s t :=
  keepsUnions_of_not_inUnion h.length_eq h.outside_unions

/-! ## Drawing the two texts -/

namespace Drawing

/-- Wherever the two texts stand, the descent draws the same for them. -/
def SameDescent (s t : List Char) : Prop :=
  ∃ d, Descends s d ∧ Descends t d

/-- The descent goes from left to right, so what it draws for two texts is drawn for them together.
-/
theorem SameDescent.append (h : SameDescent s t) (h' : SameDescent u v) :
    SameDescent (s ++ u) (t ++ v) := by
  obtain ⟨d, hs, ht⟩ := h
  obtain ⟨e, hu, hv⟩ := h'
  exact ⟨_, hs.append hu, ht.append hv⟩

/-- A character with a quantifier or without is drawn the same with another quantifier. -/
theorem sameDescent_letter {c : Char} (hc : IsOrdinary c) {qs rs : List Quantifier}
    (hqs : Unstacked (qs.map Quantifier.toChar)) (hlength : rs.length = qs.length) :
    SameDescent ([c] ++ qs.map Quantifier.toChar) ([c] ++ rs.map Quantifier.toChar) := by
  rcases hqs.quantifiers with rfl | ⟨q, rfl⟩
  · rw [List.eq_nil_of_length_eq_zero hlength]
    exact ⟨_, descends_letter hc, descends_letter hc⟩
  · obtain ⟨r, rfl⟩ := List.length_eq_one_iff.1 hlength
    exact ⟨_, descends_letters hc q, descends_letters hc r⟩

/-- So is a group, if its contents are drawn the same. -/
theorem sameDescent_group (hs : Balanced s) (ht : Balanced t)
    (h : (fun p => slice s p p 0) = fun p => slice t p p 0) {qs rs : List Quantifier}
    (hqs : Unstacked (qs.map Quantifier.toChar)) (hlength : rs.length = qs.length) :
    SameDescent ('(' :: (s ++ [')']) ++ qs.map Quantifier.toChar)
      ('(' :: (t ++ [')']) ++ rs.map Quantifier.toChar) := by
  rcases hqs.quantifiers with rfl | ⟨q, rfl⟩
  · rw [List.eq_nil_of_length_eq_zero hlength]
    simp only [List.map_nil, List.append_nil]
    refine ⟨_, descends_group hs, ?_⟩
    rw [h]
    exact descends_group ht
  · -- the group is drawn twice from one slice and from the other, each time alike
    obtain ⟨r, rfl⟩ := List.length_eq_one_iff.1 hlength
    have htext : ∀ (w : List Char) (q : Quantifier),
        '(' :: (w ++ [')']) ++ [q].map Quantifier.toChar = '(' :: (w ++ [')', q.toChar]) := by simp
    rw [htext, htext]
    have hslice : ∀ p, slice s p p 0 = slice t p p 0 := congrFun h
    refine ⟨_, descends_groups hs q, ?_⟩
    simp only [hslice]
    exact descends_groups ht r

mutual

/-- Slices that differ in quantifiers outside their unions have the same drawing. -/
theorem slice_eq_of_branches {s t : List Char} {branches : List Pattern} (h : Branches s branches)
    (hs : Unstacked s) (hloosened : loosenWord s = loosenWord t) (hkeeps : KeepsUnions s t) :
    (fun p => slice s p p 0) = fun p => slice t p p 0 := by
  match h with
  | .last hitems =>
    obtain ⟨d, hd, hd'⟩ := sameDescent_of_items hitems hs hloosened hkeeps.groups
    rw [hd.slice_eq, hd'.slice_eq]
  | @Branches.bar u v _ _ hitems _ =>
    -- the bar makes the whole slice a union, which is kept
    have hbar : HasOpenBar (u ++ '|' :: v) := ⟨u, v, rfl, hitems.balanced⟩
    rw [hkeeps.whole hbar]

/-- The same of a slice without a bar, which is drawn item by item. What is required of the unions
goes down to the items, and into the group of each. -/
theorem sameDescent_of_items {s t : List Char} {items : List Pattern} (h : Items s items)
    (hs : Unstacked s) (hloosened : loosenWord s = loosenWord t) (hkeeps : KeepsGroups s t) :
    SameDescent s t := by
  match h with
  | .nil =>
    rw [eq_nil_of_loosenWord_eq hloosened]
    exact ⟨pure, descends_nil, descends_nil⟩
  | @Items.cons w u _ _ hatom qs hitems =>
    -- the other text has an item at the same place, and the same quantifiers or others behind it
    obtain ⟨w', rest, rfl, hw, hrest⟩ := exists_append_of_loosenWord_eq hloosened
    obtain ⟨r, u', rfl, hr, hu⟩ := exists_append_of_loosenWord_eq hrest
    obtain ⟨rs, rfl, hlength⟩ := exists_quantifiers_of_loosenWord_eq hr
    have hqs : Unstacked (qs.map Quantifier.toChar) := hs.right.left
    have hbehind : KeepsGroups u u' :=
      (hkeeps.right (length_eq_of_loosenWord_eq hw)).right (length_eq_of_loosenWord_eq hr)
    have htail : SameDescent u u' := sameDescent_of_items hitems hs.right.right hu hbehind
    rw [← List.append_assoc, ← List.append_assoc]
    refine SameDescent.append ?_ htail
    -- a character is no quantifier, so it stands in the other text as well; a group has its
    -- parentheses there
    match hatom with
    | .literal hc =>
      obtain ⟨d, w₁, rfl, hd, h₁⟩ := exists_cons_of_loosenWord_eq hw
      obtain rfl := eq_of_loosenChar_eq hc hd
      rw [eq_nil_of_loosenWord_eq h₁]
      exact sameDescent_letter hc hqs hlength
    | @Atom.group x _ hbranches =>
      obtain ⟨y, w₁, rfl, hxy, h₁⟩ := exists_group_of_loosenWord_eq hw
      obtain rfl := eq_nil_of_loosenWord_eq h₁
      have hx : Balanced x := hbranches.balanced
      have hinside : KeepsUnions x y := hkeeps.left.inside (length_eq_of_loosenWord_eq hxy) hx
      have hslice := slice_eq_of_branches hbranches hs.left.inside hxy hinside
      exact sameDescent_group hx (hx.of_loosenWord_eq hxy) hslice hqs hlength

end

end Drawing

/-! ## Compiling the two patterns -/

/-- Two texts that differ in quantifiers still do so without the blanks around them. -/
theorem Options.loosenWord_text_eq (options : Options)
    (h : loosenWord pattern.toList = loosenWord pattern'.toList) :
    loosenWord (options.text pattern).toList = loosenWord (options.text pattern').toList := by
  unfold Options.text
  split
  · rw [toList_trim, toList_trim, ← trimWord_loosenWord, ← trimWord_loosenWord, h]
  · exact h

/-- So does what the two texts must have in common: no quantifier is a blank. -/
theorem Options.keepsUnions_text (options : Options)
    (h : DifferInQuantifiers pattern.toList pattern'.toList) :
    KeepsUnions (options.text pattern).toList (options.text pattern').toList := by
  unfold Options.text
  split
  · rw [toList_trim, toList_trim]
    exact h.keepsUnions.trimWord h.loosenWord_eq
  · exact h.keepsUnions

/-- The check passes both texts or neither. -/
theorem Pattern.check_eq_ok_iff_of_loosenWord_eq (limit : Nat) (h : loosenWord s = loosenWord t) :
    check limit s = .ok () ↔ check limit t = .ok () := by
  rw [← check_loosen_eq_ok_iff, h, check_loosen_eq_ok_iff]

/-- By textual descent two patterns that differ in quantifiers outside their unions are both refused
or compiled to the same automaton. -/
theorem compile_byText_eq_ok_iff_of_differInQuantifiers
    (h : DifferInQuantifiers pattern.toList pattern'.toList) (options : Options) (a : Automaton) :
    compile options.byText pattern = .ok a ↔ compile options.byText pattern' = .ok a := by
  have hloosened := options.byText.loosenWord_text_eq h.loosenWord_eq
  have hlength := length_eq_of_loosenWord_eq hloosened
  have hlimits := and_congr (Iff.of_eq (congrArg (· ≤ options.byText.maxLength) hlength))
    -- everything that is looked at before a text is drawn turns on its loosened form
    (check_eq_ok_iff_of_loosenWord_eq options.byText.maxDepth hloosened)
  rw [compile_textual_eq_ok_iff rfl, compile_textual_eq_ok_iff rfl]
  refine (and_congr_right fun hpassed => ?_).trans (and_congr_left' hlimits)
  -- a text that passes the check is one of the grammar
  obtain ⟨branches, hbranches⟩ := exists_branches_of_check hpassed.2
  rw [Drawing.slice_eq_of_branches hbranches (unstacked_of_check hpassed.2) hloosened
    (options.byText.keepsUnions_text h)]

/-- In `(ab+)*c+(x*|y)` all quantifiers but the one in the union can be interchanged. -/
theorem compile_byText_eq_ok_iff_beside_union :
    DifferInQuantifiers "(ab+)*c+(x*|y)".toList "(ab*)+c*(x*|y)".toList ∧
    ∃ a, compile Options.standard.byText "(ab+)*c+(x*|y)" = .ok a ∧
      compile Options.standard.byText "(ab*)+c*(x*|y)" = .ok a ∧ a.size = 9 := by
  have hgroup : Balanced "ab+".toList := Balanced.of_notMem (by decide) (by decide)
  have hunion : Balanced "x*|y".toList := Balanced.of_notMem (by decide) (by decide)
  have htext : "(ab+)*c+(x*|y)".toList
      = '(' :: ("ab+".toList ++ ')' :: "*c+(x*|y)".toList) := by decide
  have hclosed : ¬HasOpenBar "(ab+)*c+(x*|y)".toList := by
    rintro ⟨u, v, hsplit, hu⟩
    -- the bar would stand behind the last group
    obtain ⟨u₁, hu₁, h₁⟩ := hu.bar_behind_group hgroup (htext.symm.trans hsplit)
    obtain ⟨u₂, hu₂, h₂⟩ := hu₁.bar_behind_char h₁ (by decide) (by decide)
    obtain ⟨u₃, hu₃, h₃⟩ := hu₂.bar_behind_char h₂ (by decide) (by decide)
    obtain ⟨u₄, hu₄, h₄⟩ := hu₃.bar_behind_char h₃ (by decide) (by decide)
    obtain ⟨u₅, hu₅, h₅⟩ := hu₄.bar_behind_group hunion h₄
    cases u₅ with
    | nil => cases h₅
    | cons c u₅ => cases h₅
  have hopening : ∀ i < 14, "(ab+)*c+(x*|y)".toList[i]? = some '(' → i = 0 ∨ i = 8 := by decide
  have hstart : ∀ start slice, IsSliceAt "(ab+)*c+(x*|y)".toList start slice → HasOpenBar slice →
      start = 9 := by
    rintro start slice (⟨-, rfl⟩ | ⟨u, v, hsplit, hslice, rfl⟩) hbar
    · exact absurd hbar hclosed
    · have hchar : "(ab+)*c+(x*|y)".toList[u.length]? = some '(' := by
        rw [hsplit]
        simp
      rcases hopening u.length (List.getElem?_eq_some_iff.1 hchar).1 hchar with hzero | height
      · -- the first group has no bar
        rw [htext, List.eq_nil_of_length_eq_zero hzero] at hsplit
        obtain ⟨rfl, -⟩ := hgroup.closed_unique hslice (List.cons.inj hsplit).2
        obtain ⟨x, y, hbar, -⟩ := hbar
        have hmem : '|' ∈ x ++ '|' :: y := List.mem_append_right x List.mem_cons_self
        rw [← hbar] at hmem
        exact absurd hmem (by decide)
      · rw [height]
  have hsame : ∀ j, "(ab+)*c+(x*|y)".toList[9 + j]? = "(ab*)+c*(x*|y)".toList[9 + j]? := by
    intro j
    have hbehind : "(ab+)*c+(x*|y)".toList.drop 9 = "(ab*)+c*(x*|y)".toList.drop 9 := by decide
    rw [← List.getElem?_drop, hbehind, List.getElem?_drop]
  have hloosened : loosenWord "(ab+)*c+(x*|y)".toList = loosenWord "(ab*)+c*(x*|y)".toList := by
    decide
  obtain ⟨hlength, hquantifiers⟩ := loosenWord_eq_iff.1 hloosened
  have hdiffer : DifferInQuantifiers "(ab+)*c+(x*|y)".toList "(ab*)+c*(x*|y)".toList := by
    refine ⟨hlength, hquantifiers, fun i hne => ?_⟩
    rintro ⟨start, slice, hslice, hbar, hle, -⟩
    rw [hstart start slice hslice hbar] at hle
    obtain ⟨j, rfl⟩ := Nat.exists_eq_add_of_le hle
    exact hne (hsame j)
  have hrun : (compile Options.standard.byText "(ab+)*c+(x*|y)").map (·.size) = .ok 9 := by cbv
  obtain ⟨a, ha, hsize⟩ := exists_of_map_compile hrun
  exact ⟨hdiffer, a, ha,
    (compile_byText_eq_ok_iff_of_differInQuantifiers hdiffer Options.standard a).1 ha, hsize⟩

/-- In a union the quantifiers stand for themselves, and interchanging them changes a word. -/
example : (compile Options.legacy "x*|y").map (·.accepts "x*") = .ok true ∧
    (compile Options.legacy "x+|y").map (·.accepts "x*") = .ok false := by
  constructor
  · cbv
  · cbv

end PatternGraph
