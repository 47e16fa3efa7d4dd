import PatternGraph.Proofs.Pattern.Check
import Mathlib.Logic.Basic

/-!
# Stacked quantifiers — where the check of a text and its reading part

The check of a text and the reader of trees differ in one thing: a quantifier directly behind a
quantifier dangles for the check and not for the reader.

1. `Scan.run_of_unstacked` follows the two scans in step over a text that stacks no quantifiers:
   either both stop in it, at the same defect, or both come out behind it.
2. `check_of_unstacked` is the first consequence: without stacked quantifiers both yield the same.
3. `check_of_stacked` is the second: with them, the first one is what the check reports, unless the
   reader finds a defect before it.
-/

namespace PatternGraph

/-- The defect is that of a character before position `k`. A group that is never closed is no such
defect, wherever it opens: it is found at the end of the text. -/
def PatternError.StandsBefore (e : PatternError) (k : Nat) : Prop :=
  (∃ i < k, e.position? = some i) ∧ ∀ i, e ≠ .unclosedGroup i

namespace Pattern

/-- The quantifier `q` at position `k` of a text stands directly behind another one. -/
def StackedAt (text : List Char) (k : Nat) (q : Quantifier) : Prop :=
  ∃ r : Quantifier, ∃ u v, text = u ++ r.toChar :: q.toChar :: v ∧ k = u.length + 1

variable {limit k : Nat} {scan : Scan} {text s t : List Char} {e : PatternError} {q : Quantifier}
  {dangles : Option Char → Bool}

/-- What stands before the second of the first two stacked quantifiers stacks none. -/
theorem unstacked_of_first {r : Quantifier} {u v : List Char}
    (hfirst : ∀ j < u.length + 1, ∀ q', ¬StackedAt (u ++ r.toChar :: v) j q') :
    Unstacked (u ++ [r.toChar]) := by
  intro x y q q' hu
  refine hfirst (x.length + 1) ?_ q' ⟨q, x, y ++ v, ?_, rfl⟩
  · have hlength := congrArg List.length hu
    simp only [List.length_append, List.length_cons, List.length_nil] at hlength
    omega
  · calc u ++ r.toChar :: v = (u ++ [r.toChar]) ++ v := by simp
      _ = (x ++ q.toChar :: q'.toChar :: y) ++ v := by rw [hu]
      _ = x ++ q.toChar :: q'.toChar :: (y ++ v) := by simp

/-! ## One character under two scans -/

/-- The check has nothing to repeat where a branch starts and behind a quantifier. -/
theorem nothingToRepeat_iff {previous : Option Char} :
    nothingToRepeat previous = true ↔
      startsBranch previous = true ∨ ∃ r : Quantifier, previous = some r.toChar := by
  cases previous with
  | none => simp [nothingToRepeat, isRepeatable, startsBranch]
  | some c =>
    constructor
    · intro h
      by_cases hstar : c = '*'
      · exact .inr ⟨.zeroOrMore, by rw [hstar]; rfl⟩
      · by_cases hplus : c = '+'
        · exact .inr ⟨.oneOrMore, by rw [hplus]; rfl⟩
        · refine .inl ?_
          simpa [nothingToRepeat, isRepeatable, startsBranch, hstar, hplus, imp_iff_not_or] using h
    · rintro (h | ⟨r, hr⟩)
      · simp only [startsBranch, Bool.or_eq_true, decide_eq_true_eq] at h
        rcases h with rfl | rfl <;> rfl
      · cases hr
        cases r <;> rfl

/-- A character that is no quantifier behind a quantifier is a defect for both scans or for
neither. -/
theorem Scan.defect?_eq_of_unstacked (limit : Nat) {c : Char}
    (h : Unstacked (scan.previous.toList ++ [c])) :
    scan.defect? nothingToRepeat limit c = scan.defect? startsBranch limit c := by
  -- the scans disagree about a quantifier behind a quantifier only, which is not there
  have hdangles : (c = '*' ∨ c = '+') →
      (nothingToRepeat scan.previous = true ↔ startsBranch scan.previous = true) := by
    intro hc
    rw [nothingToRepeat_iff]
    refine ⟨fun hor => hor.elim id ?_, .inl⟩
    rintro ⟨r, hr⟩
    rw [hr] at h
    rcases hc with rfl | rfl
    · exact absurd rfl (h [] [] r .zeroOrMore)
    · exact absurd rfl (h [] [] r .oneOrMore)
  unfold Scan.defect?
  by_cases hc : c = '*' ∨ c = '+'
  · simp only [hdangles hc]
  · simp only [hc, false_and]

/-- The defect of a character stands where the character does, and is no group left open. -/
theorem Scan.position?_of_defect? {c : Char} (h : scan.defect? dangles limit c = some e) :
    e.position? = some scan.position ∧ ∀ i, e ≠ .unclosedGroup i := by
  rcases Scan.defect?_cases h with ⟨-, -, rfl⟩ | ⟨-, -, rfl⟩ | ⟨-, -, rfl⟩
  all_goals exact ⟨rfl, fun i => PatternError.noConfusion⟩

/-! ## Texts under two scans -/

/-- Over a text that stacks no quantifiers the two scans stop at the same defect, whatever follows
the text, or come out behind it together. -/
theorem Scan.run_of_unstacked (limit : Nat) (h : Unstacked (scan.previous.toList ++ s)) :
    (∃ e : PatternError, e.StandsBefore (scan.position + s.length) ∧ ∀ rest,
      scan.run nothingToRepeat limit (s ++ rest) = .error e ∧
        scan.run startsBranch limit (s ++ rest) = .error e) ∨
    ∀ rest,
      scan.run nothingToRepeat limit (s ++ rest)
          = (s.foldl Scan.next scan).run nothingToRepeat limit rest ∧
        scan.run startsBranch limit (s ++ rest)
          = (s.foldl Scan.next scan).run startsBranch limit rest := by
  induction s generalizing scan with
  | nil => exact .inr fun rest => ⟨rfl, rfl⟩
  | cons c s ih =>
    have hsplit : scan.previous.toList ++ c :: s = (scan.previous.toList ++ [c]) ++ s := by simp
    rw [hsplit] at h
    have hsame := Scan.defect?_eq_of_unstacked limit h.left
    cases hdefect : scan.defect? startsBranch limit c with
    | some e =>
      rw [hdefect] at hsame
      obtain ⟨hposition, hopen⟩ := Scan.position?_of_defect? hdefect
      refine .inl ⟨e, ⟨⟨scan.position, by simp, hposition⟩, hopen⟩, fun rest => ?_⟩
      simp only [List.cons_append, Scan.run, hsame, hdefect, and_self]
    | none =>
      rw [hdefect] at hsame
      -- both scans move on by the character
      have hrest : Unstacked ((scan.next c).previous.toList ++ s) := by
        rw [List.append_assoc] at h
        exact h.right
      have hposition : (scan.next c).position + s.length = scan.position + (c :: s).length := by
        simp only [Scan.next, List.length_cons]
        omega
      have hstep := ih hrest
      rw [hposition] at hstep
      simp only [List.cons_append, Scan.run, hsame, hdefect, List.foldl_cons]
      exact hstep

/-- A scan reports no defect of a character before the place where it stands. -/
theorem Scan.not_standsBefore_of_run (h : scan.run dangles limit text = .error e) :
    ¬e.StandsBefore scan.position := by
  rintro ⟨⟨i, hi, hposition⟩, hopen⟩
  -- a character that fails the scan stands at the scan or behind it
  rcases Scan.run_cases h with ⟨u, c, v, -, hdefect⟩ | ⟨innermost, outer, -, rfl⟩
  · rw [(Scan.position?_of_defect? hdefect).1, Scan.position_foldl_next] at hposition
    cases hposition
    omega
  · exact hopen innermost rfl

/-! ## The check against the reader -/

/-- Without stacked quantifiers the check and the reader yield the same. -/
theorem check_of_unstacked (limit : Nat) (h : Unstacked text) :
    check limit text = (read limit text).map fun _ => () := by
  have hwhole : Unstacked (Scan.start.previous.toList ++ text) := h
  rw [check_eq_run, ← run_eq_of_read]
  rcases Scan.run_of_unstacked limit hwhole with ⟨e, -, hstop⟩ | hpass
  · have hboth := hstop []
    rw [List.append_nil] at hboth
    rw [hboth.1, hboth.2]
  · -- what is left to both scans is the end of the text
    have hboth := hpass []
    rw [List.append_nil] at hboth
    rw [hboth.1, hboth.2]
    rfl

/-- The first quantifier that stands behind another one is what the check reports, unless the reader
finds the defect of a character before it. -/
theorem check_of_stacked (limit : Nat) (hk : StackedAt text k q)
    (hfirst : ∀ j < k, ∀ r, ¬StackedAt text j r) :
    (∃ e, read limit text = .error e ∧ e.StandsBefore k ∧ check limit text = .error e) ∨
      ((∀ e, read limit text = .error e → ¬e.StandsBefore k) ∧
        check limit text = .error (.danglingQuantifier q.toChar k)) := by
  rcases hk with ⟨r, u, v, rfl, rfl⟩
  have htext : u ++ r.toChar :: q.toChar :: v = (u ++ [r.toChar]) ++ q.toChar :: v := by simp
  have hlength : Scan.start.position + (u ++ [r.toChar]).length = u.length + 1 := by
    simp [Scan.start]
  have hfront : Unstacked (Scan.start.previous.toList ++ (u ++ [r.toChar])) :=
    unstacked_of_first hfirst
  have hboth := Scan.run_of_unstacked limit hfront
  rw [hlength] at hboth
  rcases hboth with ⟨e, hbefore, hstop⟩ | hpass
  · obtain ⟨hcheck, hread⟩ := hstop (q.toChar :: v)
    rw [← htext] at hcheck hread
    exact .inl ⟨e, read_eq_error_iff.2 hread, hbefore, by rw [check_eq_run, hcheck]⟩
  · obtain ⟨hcheck, hread⟩ := hpass (q.toChar :: v)
    rw [← htext] at hcheck hread
    have hposition : ((u ++ [r.toChar]).foldl Scan.next Scan.start).position = u.length + 1 := by
      rw [Scan.position_foldl_next, hlength]
    refine .inr ⟨fun e he => ?_, ?_⟩
    · -- the reader is past every character before the two quantifiers
      rw [read_eq_error_iff, hread] at he
      have hnot := Scan.not_standsBefore_of_run he
      rwa [hposition] at hnot
    · -- the check has come to the second of the two quantifiers, with the first one before it
      have hprevious : ((u ++ [r.toChar]).foldl Scan.next Scan.start).previous = some r.toChar := by
        rw [Scan.previous_foldl_next]
        simp
      have hdangles : nothingToRepeat (some r.toChar) = true :=
        nothingToRepeat_iff.2 (.inr ⟨r, rfl⟩)
      rw [check_eq_run, hcheck, Scan.run, Scan.defect?_quantifier, hprevious, if_pos hdangles,
        hposition]

end Pattern

end PatternGraph
