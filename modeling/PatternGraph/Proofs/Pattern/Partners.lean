import PatternGraph.Proofs.Pattern.Balance
import PatternGraph.Proofs.Pattern.Check

/-!
# Partners — what a checked text offers to the searches in it

1. `Partners` are the indices of two parentheses around a balanced text. Every parenthesis of a
   balanced text has its partner, and the searches find it from either side.
2. `Checked` is what the check of a text leaves behind once its limit is forgotten: parentheses are
   paired, and a quantifier has something to repeat directly before it. It is handed down to what
   stands between two partners, so the searches succeed in every slice of a checked text, by
   indices that count from the start of the slice.
-/

namespace PatternGraph.Pattern

variable {limit index opening closing : Nat} {c : Char} {text : List Char}

/-! ## Partners -/

/-- Parentheses stand at these two indices of a text, and the text between them is balanced. -/
def Partners (text : List Char) (opening closing : Nat) : Prop :=
  ∃ u s v, text = u ++ '(' :: (s ++ ')' :: v) ∧ Balanced s ∧
    opening = u.length ∧ closing = u.length + 1 + s.length

/-- A text taken apart at an index. -/
theorem exists_split_at (h : text[index]? = some c) :
    ∃ u v, text = u ++ c :: v ∧ u.length = index := by
  rcases List.getElem?_eq_some_iff.1 h with ⟨hlt, rfl⟩
  refine ⟨text.take index, text.drop (index + 1), ?_, List.length_take_of_le (Nat.le_of_lt hlt)⟩
  rw [List.getElem_cons_drop, List.take_append_drop]

/-- An opening parenthesis of a balanced text has its partner behind it. -/
theorem Balanced.exists_partner_behind (h : Balanced text) (hchar : text[index]? = some '(') :
    ∃ closing, Partners text index closing := by
  rcases exists_split_at hchar with ⟨u, v, rfl, rfl⟩
  rcases h.exists_closing rfl with ⟨s, rest, rfl, hs⟩
  exact ⟨_, u, s, rest, rfl, hs, rfl, rfl⟩

/-- A closing one has its partner before it. -/
theorem Balanced.exists_partner_before (h : Balanced text) (hchar : text[index]? = some ')') :
    ∃ opening, Partners text opening index := by
  rcases exists_split_at hchar with ⟨u, v, rfl, rfl⟩
  rcases h.exists_opening rfl with ⟨before, s, rfl, hs⟩
  exact ⟨before.length, before, s, v, (group_eq_append before s v).symm, hs, rfl,
    length_before_closing before s⟩

theorem Partners.lt (h : Partners text opening closing) : opening < closing := by
  rcases h with ⟨u, s, v, -, -, rfl, rfl⟩
  omega

theorem Partners.getElem?_opening (h : Partners text opening closing) :
    text[opening]? = some '(' := by
  rcases h with ⟨u, s, v, rfl, -, rfl, -⟩
  simp

theorem Partners.getElem?_closing (h : Partners text opening closing) :
    text[closing]? = some ')' := by
  rcases h with ⟨u, s, v, rfl, -, -, rfl⟩
  exact getElem?_group_closing u s v

/-- Between two partners parentheses are paired. -/
theorem Partners.balanced (h : Partners text opening closing) :
    Balanced (between text opening closing) := by
  rcases h with ⟨u, s, v, rfl, hs, rfl, rfl⟩
  rwa [between_group]

/-- The search for a closing parenthesis ends at the partner. -/
theorem Partners.closingOf_eq (h : Partners text opening closing) :
    closingOf text opening = .ok closing := by
  rcases h with ⟨u, s, v, rfl, hs, rfl, rfl⟩
  exact closingOf_group hs

/-- The search for an opening one ends at the partner as well. -/
theorem Partners.openingOf_eq (h : Partners text opening closing) :
    openingOf text closing = .ok opening := by
  rcases h with ⟨u, s, v, rfl, hs, rfl, rfl⟩
  exact openingOf_group hs

/-! ## Checked texts -/

/-- A text whose parentheses are paired and whose quantifiers stand behind what they repeat. -/
structure Checked (text : List Char) : Prop where
  balanced : Balanced text
  repeatable : ∀ u v (q : Quantifier), text = u ++ q.toChar :: v → isRepeatable u.getLast? = true

/-- A text that passes the check is checked, under whatever limit it passed. -/
theorem checked_of_check (h : check limit text = .ok ()) : Checked text where
  balanced := by
    rcases exists_branches_of_check h with ⟨branches, hbranches⟩
    exact hbranches.balanced
  repeatable := by
    rintro u v q rfl
    rw [check_eq_run] at h
    -- the scan has come to the quantifier, and it is no defect there
    have hdefect := (Scan.run_cons_eq_ok (Scan.run_append_eq_ok h)).1
    rw [Scan.defect?_quantifier, Scan.previous_foldl_next] at hdefect
    have hdangles : ¬nothingToRepeat (u.getLast?.or Scan.start.previous) = true := by
      intro hdangles
      rw [if_pos hdangles] at hdefect
      cases hdefect
    simpa [nothingToRepeat, Scan.start] using hdangles

/-- What stands between two partners of a checked text is checked. -/
theorem Checked.inside (h : Checked text) (hpartners : Partners text opening closing) :
    Checked (between text opening closing) := by
  rcases hpartners with ⟨u, s, v, rfl, hs, rfl, rfl⟩
  rw [between_group]
  refine ⟨hs, ?_⟩
  rintro w t q rfl
  have hwhole := h.repeatable (u ++ '(' :: w) (t ++ ')' :: v) q (by simp)
  -- a quantifier directly behind the parenthesis would have nothing to repeat
  rcases List.eq_nil_or_concat w with rfl | ⟨w, c, rfl⟩
  · simp [isRepeatable] at hwhole
  · have hsplit : u ++ '(' :: w.concat c = (u ++ '(' :: w) ++ [c] := by simp
    rw [List.concat_eq_append, List.getLast?_concat]
    rwa [hsplit, List.getLast?_concat] at hwhole

/-- The search for a closing parenthesis finds one, and what stands before it is checked. -/
theorem Checked.exists_closingOf (h : Checked text) (hchar : text[index]? = some '(') :
    ∃ closing, closingOf text index = .ok closing ∧ Checked (between text index closing) := by
  rcases h.balanced.exists_partner_behind hchar with ⟨closing, hpartners⟩
  exact ⟨closing, hpartners.closingOf_eq, h.inside hpartners⟩

/-- The search for an opening parenthesis finds one, and what stands behind it is checked. -/
theorem Checked.exists_openingOf (h : Checked text) (hchar : text[index]? = some ')') :
    ∃ opening, openingOf text index = .ok opening ∧ Checked (between text opening index) := by
  rcases h.balanced.exists_partner_before hchar with ⟨opening, hpartners⟩
  exact ⟨opening, hpartners.openingOf_eq, h.inside hpartners⟩

end PatternGraph.Pattern
