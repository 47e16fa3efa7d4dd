import PatternGraph.Pattern.Parentheses
import PatternGraph.Proofs.Pattern.Defects

/-!
# The check of a text — a scan that refuses stacked quantifiers

`checkFrom_eq_run` says that the check is a scan, with a quantifier dangling behind a quantifier as
well. A text that passes it is therefore one that can be read as a tree (`exists_branches_of_check`)
and has no two quantifiers in a row (`unstacked_of_check`).
-/

namespace PatternGraph.Pattern

/-- When a quantifier dangles for the check. -/
def nothingToRepeat (previous : Option Char) : Bool :=
  !isRepeatable previous

/-- A text without two quantifiers in a row. -/
def Unstacked (text : List Char) : Prop :=
  ∀ (u v : List Char) (q r : Quantifier), text ≠ u ++ q.toChar :: r.toChar :: v

variable {limit : Nat} {scan : Scan} {text s t : List Char}

/-- A text without two quantifiers in a row has none at its front, behind it or in its groups. -/
theorem Unstacked.left (h : Unstacked (s ++ t)) : Unstacked s := by
  intro u v q r hs
  apply h u (v ++ t) q r
  rw [hs, List.append_assoc]
  rfl

theorem Unstacked.right (h : Unstacked (s ++ t)) : Unstacked t := by
  intro u v q r ht
  apply h (s ++ u) v q r
  rw [ht, List.append_assoc]

theorem Unstacked.inside (h : Unstacked ('(' :: (s ++ [')']))) : Unstacked s := by
  rw [← List.singleton_append] at h
  exact h.right.left

/-- A run of quantifiers in such a text is one quantifier or none. -/
theorem Unstacked.quantifiers {qs : List Quantifier} (h : Unstacked (qs.map Quantifier.toChar)) :
    qs = [] ∨ ∃ q, qs = [q] := by
  match qs with
  | [] => exact .inl rfl
  | [q] => exact .inr ⟨q, rfl⟩
  | q :: r :: qs => exact absurd rfl (h [] (qs.map Quantifier.toChar) q r)

/-! ## The check as a scan -/

/-- The check does at each character what the scan does. By induction on the text; the arguments of
the check are the fields of the scan. -/
theorem checkFrom_eq_run (limit : Nat) (scan : Scan) (text : List Char) :
    checkFrom limit scan.position scan.opened scan.previous text
      = scan.run nothingToRepeat limit text := by
  induction text generalizing scan with
  | nil => rfl
  | cons c rest ih =>
    have hnext := ih (scan.next c)
    unfold checkFrom Scan.run Scan.defect?
    -- in each case the scan moves on to the arguments of the recursive call
    by_cases hopen : c = '('
    · have hopened : (scan.next c).opened = scan.position :: scan.opened := by
        simp [Scan.next, hopen]
      rw [hopened] at hnext
      rw [if_pos hopen, if_pos hopen]
      by_cases hfull : limit ≤ scan.opened.length
      · rw [if_pos (Nat.lt_succ_of_le hfull), if_pos hfull]
      · rw [if_neg (by omega), if_neg hfull]
        exact hnext
    · rw [if_neg hopen, if_neg hopen]
      by_cases hclose : c = ')'
      · have hopened : (scan.next c).opened = scan.opened.tail := by
          simp [Scan.next, hclose]
        rw [hopened] at hnext
        rw [if_pos hclose, if_pos hclose]
        cases hcases : scan.opened with
        | nil => rfl
        | cons innermost outer =>
          rw [hcases] at hnext
          rw [if_neg (List.cons_ne_nil innermost outer)]
          exact hnext
      · have hopened : (scan.next c).opened = scan.opened := by
          simp [Scan.next, hopen, hclose]
        rw [hopened] at hnext
        rw [if_neg hclose, if_neg hclose]
        by_cases hdangling : (c = '*' ∨ c = '+') ∧ nothingToRepeat scan.previous = true
        · rw [if_pos hdangling, if_pos]
          simpa [nothingToRepeat] using hdangling
        · rw [if_neg hdangling, if_neg]
          · exact hnext
          · simpa [nothingToRepeat] using hdangling

/-- A check begins where a scan does. -/
theorem check_eq_run (limit : Nat) (text : List Char) :
    check limit text = Scan.start.run nothingToRepeat limit text :=
  checkFrom_eq_run limit Scan.start text

/-! ## Scans that end well -/

/-- If a scan ends well, so does each step of it. -/
theorem Scan.run_cons_eq_ok {dangles : Option Char → Bool} {c : Char}
    (h : scan.run dangles limit (c :: text) = .ok ()) :
    scan.defect? dangles limit c = none ∧ (scan.next c).run dangles limit text = .ok () := by
  unfold Scan.run at h
  cases hdefect : scan.defect? dangles limit c with
  | none =>
    rw [hdefect] at h
    exact ⟨rfl, h⟩
  | some e =>
    rw [hdefect] at h
    cases h

/-- And so does the scan of what is left behind a part of the text. -/
theorem Scan.run_append_eq_ok {dangles : Option Char → Bool}
    (h : scan.run dangles limit (s ++ t) = .ok ()) :
    (s.foldl Scan.next scan).run dangles limit t = .ok () := by
  induction s generalizing scan with
  | nil => exact h
  | cons c s ih => exact ih (Scan.run_cons_eq_ok h).2

/-- The start of a text whose scan ends well has no defect; its scan may leave groups open. -/
theorem Scan.run_eq_finish {dangles : Option Char → Bool}
    (h : scan.run dangles limit (s ++ t) = .ok ()) :
    scan.run dangles limit s = (s.foldl Scan.next scan).finish := by
  induction s generalizing scan with
  | nil => rfl
  | cons c s ih =>
    rcases Scan.run_cons_eq_ok h with ⟨hdefect, hrest⟩
    rw [Scan.run, hdefect]
    exact ih hrest

/-- Where a quantifier dangles less often, no fewer texts end well. -/
theorem Scan.run_eq_ok_of_imp {dangles dangles' : Option Char → Bool}
    (himp : ∀ previous, dangles' previous = true → dangles previous = true)
    (h : scan.run dangles limit text = .ok ()) : scan.run dangles' limit text = .ok () := by
  induction text generalizing scan with
  | nil => exact h
  | cons c text ih =>
    rcases Scan.run_cons_eq_ok h with ⟨hdefect, hrest⟩
    have hdefect' : scan.defect? dangles' limit c = none := by
      unfold Scan.defect? at hdefect ⊢
      have := himp scan.previous
      grind
    rw [Scan.run, hdefect']
    exact ih hrest

/-! ## Texts that pass the check -/

/-- A quantifier that begins a branch has nothing to repeat, so a text that passes the check has a
scan for reading that ends well, and thus a tree. -/
theorem exists_branches_of_check (h : check limit text = .ok ()) :
    ∃ branches, Branches text branches := by
  rw [check_eq_run] at h
  have himp : ∀ previous, startsBranch previous = true → nothingToRepeat previous = true := by
    intro previous hprevious
    cases previous with
    | none => rfl
    | some c =>
      simp only [startsBranch, Bool.or_eq_true, decide_eq_true_eq] at hprevious
      rcases hprevious with rfl | rfl
      · rfl
      · rfl
  -- the scan for reading stops at fewer quantifiers than the check does
  have hrun := Scan.run_eq_ok_of_imp himp h
  rw [run_eq_of_read] at hrun
  cases hread : read limit text with
  | error e =>
    rw [hread] at hrun
    cases hrun
  | ok p =>
    rcases read_eq_ok_iff.1 hread with ⟨branches, hbranches, -⟩
    exact ⟨branches, hbranches⟩

/-- A quantifier behind a quantifier does not pass the check. -/
theorem unstacked_of_check (h : check limit text = .ok ()) : Unstacked text := by
  rintro u v q r rfl
  rw [check_eq_run] at h
  have hfirst := (Scan.run_cons_eq_ok (Scan.run_append_eq_ok h)).2
  -- the scan has just passed a quantifier
  have hsecond := (Scan.run_cons_eq_ok hfirst).1
  cases q <;> cases r <;> simp [Scan.defect?, Scan.next, nothingToRepeat, isRepeatable,
    Quantifier.toChar] at hsecond

end PatternGraph.Pattern
