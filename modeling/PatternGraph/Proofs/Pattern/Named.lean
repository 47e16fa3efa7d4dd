import PatternGraph.Proofs.Pattern.Defects
import Mathlib.Data.List.Induction

/-!
# Named characters — a text has the character that a defect names, where the defect stands

A scan gives out two kinds of positions. Its own is that of the character it looks at, and those on
its stack are of parentheses that it went over (`getElem?_of_mem_openGroups`). Every defect that a
run yields stands at one of these (`Scan.run_marks`).
-/

namespace PatternGraph

namespace PatternError

/-- The character that a defect is about; a pattern that is too long is about none. -/
def named? : PatternError → Option Char
  | unclosedGroup _ => some '('
  | unopenedGroup _ => some ')'
  | danglingQuantifier quantifier _ => some quantifier
  | tooDeep _ _ => some '('
  | tooLong _ _ => none

/-- A defect stands at position `k` of a text and names the character `c`, which is there. -/
structure Marks (e : PatternError) (text : List Char) (k : Nat) (c : Char) : Prop where
  position : e.position? = some k
  named : e.named? = some c
  getElem? : text[k]? = some c

theorem Marks.lt_length {e : PatternError} {text : List Char} {k : Nat} {c : Char}
    (h : e.Marks text k c) : k < text.length :=
  (List.getElem?_eq_some_iff.1 h.getElem?).1

end PatternError

namespace Pattern

open PatternError (Marks)

variable {limit k : Nat} {text : List Char} {e : PatternError}

/-- Where a group was opened there is an opening parenthesis. -/
theorem getElem?_of_mem_openGroups (h : k ∈ openGroups text) : text[k]? = some '(' := by
  induction text using List.reverseRecOn with
  | nil => cases h
  | append_singleton text c ih =>
    -- a group that was open before the last character was opened before it
    have hbefore : k ∈ openGroups text → (text ++ [c])[k]? = some '(' := by
      intro hk
      have hlt := (List.getElem?_eq_some_iff.1 (ih hk)).1
      rw [List.getElem?_append_left hlt]
      exact ih hk
    rw [openGroups_concat] at h
    split at h
    · next hopen =>
      subst hopen
      rcases List.mem_cons.1 h with rfl | hk
      · exact List.getElem?_concat_length
      · exact hbefore hk
    · split at h
      · exact hbefore (List.mem_of_mem_tail h)
      · exact hbefore h

/-- A character that is a defect where it stands is the one that the defect names. -/
theorem Scan.marks_of_defect? {dangles : Option Char → Bool} {c : Char} (rest : List Char)
    (h : (Scan.after text).defect? dangles limit c = some e) :
    Marks e (text ++ c :: rest) text.length c := by
  have hc : (text ++ c :: rest)[text.length]? = some c := by
    rw [List.getElem?_append_right (Nat.le_refl _), Nat.sub_self]
    rfl
  have hposition := Scan.position_after text
  rcases Scan.defect?_cases h with ⟨rfl, -, rfl⟩ | ⟨rfl, -, rfl⟩ | ⟨-, -, rfl⟩
  all_goals exact ⟨congrArg some hposition, rfl, hc⟩

/-- Whenever a quantifier dangles, the defect that a scan yields stands where the text has the
character that it names. -/
theorem Scan.run_marks {dangles : Option Char → Bool}
    (h : Scan.start.run dangles limit text = .error e) : ∃ k c, Marks e text k c := by
  rcases Scan.run_cases h with ⟨u, c, v, rfl, hdefect⟩ | ⟨innermost, outer, hopened, rfl⟩
  · exact ⟨u.length, c, Scan.marks_of_defect? v hdefect⟩
  · -- the innermost open group is the one on top of the stack
    have hmem : innermost ∈ openGroups text := by
      rw [show openGroups text = innermost :: outer from hopened]
      exact List.mem_cons_self
    exact ⟨innermost, '(', rfl, rfl, getElem?_of_mem_openGroups hmem⟩

/-- The defect that a text cannot be read for stands where the text has the character that it
names. -/
theorem read_marks (h : read limit text = .error e) : ∃ k c, Marks e text k c :=
  Scan.run_marks (read_eq_error_iff.1 h)

end Pattern

end PatternGraph
