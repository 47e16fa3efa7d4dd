import PatternGraph.Proofs.Compile

/-!
# Limits — what a smaller limit can change

The limits of a compilation are looked at where a text exceeds them and have no part in what is
drawn. A scan under a smaller limit on open groups therefore goes step by step with the scan under
a larger one, until it comes to a group that is too deep for it (`Pattern.Scan.run_of_le`). Reading
and checking are such scans, and `compile_eq_or_exceeds_limit` says the same of whole compilations.
-/

namespace PatternGraph

namespace Pattern

variable {limit limit' : Nat}

/-! ## Scans under two limits -/

/-- Under a smaller limit a character is the same defect or none as well, or it opens a group too
many. -/
theorem Scan.defect?_of_le (h : limit ≤ limit') (dangles : Option Char → Bool) (scan : Scan)
    (c : Char) :
    scan.defect? dangles limit c = scan.defect? dangles limit' c ∨
      scan.defect? dangles limit c = some (.tooDeep limit scan.position) := by
  unfold Scan.defect?
  by_cases hopen : c = '('
  · rw [if_pos hopen, if_pos hopen]
    by_cases hfull : limit ≤ scan.opened.length
    · right
      rw [if_pos hfull]
    · left
      have hfree : ¬limit' ≤ scan.opened.length := fun hfull' => hfull (Nat.le_trans h hfull')
      rw [if_neg hfull, if_neg hfree]
  · left
    rw [if_neg hopen, if_neg hopen]

/-- Two scans go together until the smaller limit stops one of them. By induction on the text, since
what a scan keeps track of does not depend on its limit. -/
theorem Scan.run_of_le (h : limit ≤ limit') (dangles : Option Char → Bool) (scan : Scan)
    (text : List Char) :
    scan.run dangles limit text = scan.run dangles limit' text ∨
      ∃ i, scan.run dangles limit text = .error (.tooDeep limit i) := by
  induction text generalizing scan with
  | nil => exact .inl rfl
  | cons c text ih =>
    unfold Scan.run
    rcases Scan.defect?_of_le h dangles scan c with hsame | hdeep
    · rw [hsame]
      cases scan.defect? dangles limit' c with
      | some e => exact .inl rfl
      | none => exact ih (scan.next c)
    · -- the smaller limit stops the scan here, whatever follows
      rw [hdeep]
      exact .inr ⟨scan.position, rfl⟩

/-! ## Reading and checking under two limits -/

/-- A tree does not depend on the limit that it was read under. -/
theorem read_of_le (h : limit ≤ limit') (text : List Char) :
    read limit text = read limit' text ∨ ∃ i, read limit text = .error (.tooDeep limit i) := by
  rcases Scan.run_of_le h startsBranch Scan.start text with hsame | ⟨i, hdeep⟩
  · left
    cases hread : read limit text with
    | error e =>
      rw [read_eq_error_iff, hsame] at hread
      exact (read_eq_error_iff.2 hread).symm
    | ok p =>
      obtain ⟨branches, hbranches, hnesting, rfl⟩ := read_eq_ok_iff.1 hread
      exact (read_of_branches hbranches (Nat.le_trans hnesting h)).symm
  · exact .inr ⟨i, read_eq_error_iff.2 hdeep⟩

/-- A text of the grammar is read where no more groups are ever open than may be. -/
theorem read_of_openGroups {text : List Char} {branches : List Pattern} (h : Branches text branches)
    (hdepth : ∀ n, (openGroups (text.take n)).length ≤ limit) :
    read limit text = .ok (ofBranches branches) := by
  rcases read_of_le (Nat.le_max_left limit (nestingAll branches)) text with hsame | ⟨i, hdeep⟩
  · rw [hsame]
    exact read_of_branches h (Nat.le_max_right _ _)
  · exact absurd hdeep (read_ne_tooDeep hdepth limit i)

/-- A check is a scan, so it differs under a smaller limit in the same way. -/
theorem check_of_le (h : limit ≤ limit') (text : List Char) :
    check limit text = check limit' text ∨ ∃ i, check limit text = .error (.tooDeep limit i) := by
  rw [check_eq_run, check_eq_run]
  exact Scan.run_of_le h nothingToRepeat Scan.start text

/-- Neither reading nor checking finds a group too deep unless the limit is exceeded. -/
theorem exists_openGroups_gt_of_read {n i : Nat} {text : List Char}
    (h : read limit text = .error (.tooDeep n i)) :
    ∃ m, limit < (openGroups (text.take m)).length :=
  exists_openGroups_gt (read_eq_error_iff.1 h)

/-- And the same where a check finds a group too deep. -/
theorem exists_openGroups_gt_of_check {n i : Nat} {text : List Char}
    (h : check limit text = .error (.tooDeep n i)) :
    ∃ m, limit < (openGroups (text.take m)).length := by
  rw [check_eq_run] at h
  exact exists_openGroups_gt h

end Pattern

open Pattern

/-! ## Compilations under two limits -/

variable {options options' : Options}

/-- The limits have no part in what is dropped around a text. -/
theorem Options.text_eq_of_flags (h : options.flags = options'.flags) (pattern : String) :
    options.text pattern = options'.text pattern := by
  unfold Options.text
  rw [h]

/-- Under a smaller limit on open groups, a text within both limits on the length is compiled to the
same automaton or refused for the same defect, or it is too deep. -/
theorem compile_eq_or_tooDeep {pattern : String} (hflags : options.flags = options'.flags)
    (hdepth : options.maxDepth ≤ options'.maxDepth)
    (hlength : (options.text pattern).length ≤ options.maxLength)
    (hlength' : (options'.text pattern).length ≤ options'.maxLength) :
    compile options pattern = compile options' pattern ∨
      (compile options pattern = .error (.tooDeep options.maxDepth) ∧
        ∃ n, options.maxDepth < (openGroups ((options.text pattern).toList.take n)).length) := by
  have htext : options'.text pattern = options.text pattern :=
    Options.text_eq_of_flags hflags.symm pattern
  -- within the length both engines go over the text under the depth limit first, and what they draw
  -- then depends on no limit
  cases hlegacy : options.flags.legacy with
  | true =>
    have hlegacy' : options'.flags.legacy = true := by rw [← hflags, hlegacy]
    rw [compile_textual_of_length_le hlegacy hlength,
      compile_textual_of_length_le hlegacy' hlength', htext]
    rcases check_of_le hdepth (options.text pattern).toList with hsame | ⟨i, hdeep⟩
    · left
      rw [hsame]
    · right
      refine ⟨?_, exists_openGroups_gt_of_check hdeep⟩
      rw [hdeep]
      rfl
  | false =>
    have hlegacy' : options'.flags.legacy = false := by rw [← hflags, hlegacy]
    rw [compile_tree_of_length_le hlegacy hlength,
      compile_tree_of_length_le hlegacy' hlength', htext, hflags]
    rcases read_of_le hdepth (options.text pattern).toList with hsame | ⟨i, hdeep⟩
    · left
      rw [hsame]
    · right
      refine ⟨?_, exists_openGroups_gt_of_read hdeep⟩
      rw [hdeep]
      rfl

/-- Compared with larger limits, smaller ones only ever turn the result of a compilation into the
refusal by a limit, and only where the text exceeds that limit: by its groups that are open at once,
or by its length. -/
theorem compile_eq_or_exceeds_limit (hflags : options.flags = options'.flags)
    (hdepth : options.maxDepth ≤ options'.maxDepth)
    (hlength : options.maxLength ≤ options'.maxLength) (pattern : String) :
    compile options pattern = compile options' pattern ∨
      (compile options pattern = .error (.tooDeep options.maxDepth) ∧
        ∃ n, options.maxDepth < (openGroups ((options.text pattern).toList.take n)).length) ∨
      (compile options pattern
          = .error (.tooLong (options.text pattern).length options.maxLength) ∧
        options.maxLength < (options.text pattern).length) := by
  by_cases hlong : options.maxLength < (options.text pattern).length
  · exact .inr (.inr ⟨compile_of_length_gt hlong, hlong⟩)
  · have hshort : (options.text pattern).length ≤ options.maxLength := Nat.not_lt.1 hlong
    have hshort' : (options'.text pattern).length ≤ options'.maxLength := by
      rw [Options.text_eq_of_flags hflags.symm]
      exact Nat.le_trans hshort hlength
    rcases compile_eq_or_tooDeep hflags hdepth hshort hshort' with hsame | hdeep
    · exact .inl hsame
    · exact .inr (.inl hdeep)

/-- With one group open at a time `a((b)` is refused for its second group. Under the standard limits
it is the first group, which is never closed, that is reported. -/
theorem compile_eq_or_exceeds_limit_second_group :
    ∃ options : Options, options.flags = Options.standard.flags ∧
      options.maxDepth ≤ Options.standard.maxDepth ∧
      options.maxLength ≤ Options.standard.maxLength ∧
      compile Options.standard "a((b)" = .error (.malformed (.unclosedGroup 1)) ∧
      compile options "a((b)" = .error (.tooDeep 1) ∧
      ∃ n, options.maxDepth < (openGroups ((options.text "a((b)").toList.take n)).length := by
  have hflags : ({ Options.standard with maxDepth := 1 } : Options).flags
      = Options.standard.flags := rfl
  have hdepth : 1 ≤ Options.standard.maxDepth := by decide
  have hlength : Options.standard.maxLength ≤ Options.standard.maxLength := Nat.le_refl _
  have hlarge : compile Options.standard "a((b)" = .error (.malformed (.unclosedGroup 1)) := by cbv
  have hsmall : compile { Options.standard with maxDepth := 1 } "a((b)" = .error (.tooDeep 1) := by
    cbv
  refine ⟨_, hflags, hdepth, hlength, hlarge, hsmall, ?_⟩
  -- of the three cases only the group limit fits what the two compilations yield
  rcases compile_eq_or_exceeds_limit hflags hdepth hlength "a((b)" with
    hsame | ⟨-, hgroups⟩ | ⟨hlong, -⟩
  · rw [hsmall, hlarge] at hsame
    cases hsame
  · exact hgroups
  · rw [hsmall] at hlong
    cases hlong

end PatternGraph
