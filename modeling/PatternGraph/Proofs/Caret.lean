import PatternGraph.Proofs.CommandLine
import PatternGraph.Proofs.Pattern.Check
import PatternGraph.Proofs.Pattern.Named

/-!
# Carets — a report points at the character that its defect names

1. Both ways of drawing find a pattern malformed by a scan of the text that is looked at
   (`exists_run_of_compile_eq_malformed`), and what a scan finds stands where the text has the
   character that the defect names (`Pattern.Scan.run_marks`).
2. A report on that text ends with the text and, under the same margin, as many spaces as there are
   characters before the defect. So the caret is in the column of the character
   (`PatternError.Marks.pointsAt`).
-/

namespace PatternGraph

open Pattern

/-! ## Malformed patterns -/

/-- A malformation is the defect that the pattern was refused for. -/
theorem CompileError.eq_of_ofPatternError_eq_malformed {e e' : PatternError}
    (h : ofPatternError e' = .malformed e) : e' = e := by
  cases e' <;> cases h <;> rfl

/-- A pattern is malformed where a scan of the text that is looked at ends with that defect. -/
theorem exists_run_of_compile_eq_malformed {options : Options} {pattern : String} {e : PatternError}
    (h : compile options pattern = .error (.malformed e)) :
    ∃ dangles, Scan.start.run dangles options.maxDepth (options.text pattern).toList
      = .error e := by
  by_cases hlong : options.maxLength < (options.text pattern).length
  · rw [compile_of_length_gt hlong] at h
    cases h
  · have hshort : (options.text pattern).length ≤ options.maxLength := Nat.not_lt.1 hlong
    cases hlegacy : options.flags.legacy with
    | true =>
      cases hcheck : check options.maxDepth (options.text pattern).toList with
      | error e' =>
        rw [compile_textual_of_length_le hlegacy hshort, hcheck] at h
        cases CompileError.eq_of_ofPatternError_eq_malformed (Except.error.inj h)
        exact ⟨nothingToRepeat, by rw [← check_eq_run, hcheck]⟩
      | ok _ =>
        -- a text that passes the check has an automaton
        obtain ⟨a, ha⟩ := (exists_compile_textual_iff hlegacy).2 ⟨hshort, hcheck⟩
        rw [ha] at h
        cases h
    | false =>
      cases hread : read options.maxDepth (options.text pattern).toList with
      | error e' =>
        rw [compile_tree_of_length_le hlegacy hshort, hread] at h
        cases CompileError.eq_of_ofPatternError_eq_malformed (Except.error.inj h)
        exact ⟨startsBranch, read_eq_error_iff.1 hread⟩
      | ok p =>
        -- and so has a text that can be read
        have hparse : parse options (options.text pattern) = .ok p := by
          rw [parse_eq_read hshort, hread]
        obtain ⟨a, ha⟩ := (exists_compile_tree_iff hlegacy).2 ⟨p, hparse⟩
        rw [ha] at h
        cases h

/-! ## Reports -/

namespace PatternError

/-- What a report has in front of a text, and in front of the spaces before the caret. -/
def margin : List Char :=
  " | ".toList

/-- The line of a report that shows a text of one line. -/
def textLine (text : String) : List Char :=
  margin ++ text.toList

/-- The line under it, with the caret behind `k` spaces. -/
def pointer (k : Nat) : List Char :=
  margin ++ (List.replicate k ' ' ++ ['^'])

/-- The report of a defect on a text points at position `k` of the text, where the character `c`
is that the defect names. -/
structure PointsAt (e : PatternError) (text : String) (k : Nat) (c : Char) : Prop where
  marks : e.Marks text.toList k c
  lt_length : k < text.length
  /-- The report ends with the text behind its margin, and the caret under it. -/
  suffix : '\n' :: (textLine text ++ '\n' :: pointer k) <:+ (e.report .plain text).toList
  /-- If the text is one line, these are the last two lines of the report. -/
  lines : '\n' ∉ text.toList →
    ∃ above, (e.report .plain text).toList.splitOn '\n' = above ++ [textLine text, pointer k]
  /-- And the caret is in the column of the character, and in no other. -/
  column : (textLine text)[margin.length + k]? = some c ∧
    ∀ i : Nat, (pointer k)[i]? = some '^' ↔ i = margin.length + k

variable {e : PatternError} {text : String} {k : Nat} {c : Char}

/-- Whatever the defect and the text, a report that has a position ends with the text and the
pointer. -/
theorem toList_report (h : e.position? = some k) (text : String) :
    ∃ header, (e.report .plain text).toList
      = header ++ '\n' :: (textLine text ++ '\n' :: pointer k) := by
  refine ⟨(Style.plain.tag e.code ++ " " ++ e.message ++ ":").toList, ?_⟩
  simp [report, h, caretLine, Style.caret, textLine, pointer, margin, String.toList_append]

theorem newline_notMem_textLine (h : '\n' ∉ text.toList) : '\n' ∉ textLine text := by
  intro hline
  rcases List.mem_append.1 hline with hmargin | htext
  · revert hmargin
    decide
  · exact h htext

theorem newline_notMem_pointer (k : Nat) : '\n' ∉ pointer k := by
  simp [pointer, margin]

/-- A margin and `k` spaces are all that is before the caret. -/
theorem getElem?_pointer_eq_caret_iff (k i : Nat) :
    (pointer k)[i]? = some '^' ↔ i = margin.length + k := by
  -- a caret in front of the pointer's own would stand in the margin or be one of the spaces
  have hbefore : '^' ∉ margin ++ List.replicate k ' ' := by
    simp [margin]
  have hlength : (margin ++ List.replicate k ' ').length = margin.length + k := by
    rw [List.length_append, List.length_replicate]
  rw [pointer, ← List.append_assoc]
  constructor
  · intro hcaret
    rcases Nat.lt_trichotomy i (margin.length + k) with hlt | heq | hgt
    · rw [← hlength] at hlt
      rw [List.getElem?_append_left hlt] at hcaret
      exact absurd (List.mem_of_getElem? hcaret) hbefore
    · exact heq
    · have hend : (margin ++ List.replicate k ' ' ++ ['^']).length ≤ i := by
        rw [List.length_append, hlength]
        exact hgt
      rw [List.getElem?_eq_none hend] at hcaret
      cases hcaret
  · rintro rfl
    rw [← hlength]
    exact List.getElem?_concat_length

/-- A report points at the position of its defect, where the text has the character in question. -/
theorem Marks.pointsAt (h : e.Marks text.toList k c) : PointsAt e text k c := by
  obtain ⟨header, hreport⟩ := toList_report h.position text
  constructor
  · exact h
  · rw [← String.length_toList]
    exact h.lt_length
  · rw [hreport]
    exact List.suffix_append _ _
  · intro htext
    refine ⟨header.splitOn '\n', ?_⟩
    -- a header may break into lines or not: only the two behind it are said to be lines
    rw [hreport, List.splitOn_append_cons_self,
      List.splitOn_append_cons_self_of_not_mem (newline_notMem_textLine htext),
      List.splitOn_eq_singleton (newline_notMem_pointer k)]
  · refine ⟨?_, getElem?_pointer_eq_caret_iff k⟩
    rw [textLine, List.getElem?_append_right (Nat.le_add_right _ _), Nat.add_sub_cancel_left]
    exact h.getElem?

end PatternError

/-! ## Compilations and runs -/

/-- Whichever engine refuses a pattern as malformed, its report points at the defect. -/
theorem exists_pointsAt_of_compile_eq_malformed {options : Options} {pattern : String}
    {e : PatternError} (h : compile options pattern = .error (.malformed e)) :
    ∃ k c, e.PointsAt (options.text pattern) k c := by
  obtain ⟨dangles, hrun⟩ := exists_run_of_compile_eq_malformed h
  obtain ⟨k, c, hmarks⟩ := Scan.run_marks hrun
  exact ⟨k, c, hmarks.pointsAt⟩

/-- Where a pattern is malformed, the report on the text that was looked at points at the character
that the defect names. The command line looks at the pattern without the blanks around it, whatever
the environment, and that is the text that it reports on. -/
theorem report_points_at_defect :
    (∀ options pattern e, compile options pattern = .error (.malformed e) →
      ∃ k c, e.PointsAt (options.text pattern) k c) ∧
    ∀ (env : CommandLine.Environment) (pattern : String) (texts : List String) (e : PatternError),
      compile env.options pattern = .error (.malformed e) →
      env.options.flags.trim = true ∧
      CommandLine.run env (pattern :: texts)
        = ⟨2, "", e.report .plain (Text.trim pattern) ++ "\n"⟩ ∧
      ∃ k c, e.PointsAt (Text.trim pattern) k c := by
  refine ⟨fun options pattern e h => exists_pointsAt_of_compile_eq_malformed h,
    fun env pattern texts e h => ⟨?_, ?_, ?_⟩⟩
  · rw [env.flags_options]
  · exact CommandLine.run_of_compile_eq_error h texts
  · rw [← env.text_options]
    exact exists_pointsAt_of_compile_eq_malformed h

/-- Behind an ideographic space and an accented letter, each of more than one byte, the plus that
begins a branch is the fourth character of what is left. Where blanks are kept, textual descent
counts them. -/
theorem report_points_at_defect_behind_wide_characters :
    let pattern := "\u3000é(|+)"
    let untrimmed : Options := { Options.legacy with flags := ⟨true, false, false⟩ }
    compile (CommandLine.Environment.mk none none).options pattern
      = .error (.malformed (.danglingQuantifier '+' 3)) ∧
    CommandLine.run ⟨none, none⟩ [pattern]
      = ⟨2, "", "[003] '+' at position 3 has no preceding atom:\n | é(|+)\n |    ^\n"⟩ ∧
    (PatternError.danglingQuantifier '+' 3).PointsAt "é(|+)" 3 '+' ∧
    compile untrimmed " é(" = .error (.malformed (.unclosedGroup 2)) ∧
    (PatternError.unclosedGroup 2).PointsAt " é(" 2 '(' := by
  intro pattern untrimmed
  have hcompile : compile (CommandLine.Environment.mk none none).options pattern
      = .error (.malformed (.danglingQuantifier '+' 3)) := by cbv
  have hcompile' : compile untrimmed " é(" = .error (.malformed (.unclosedGroup 2)) := by cbv
  have htrim : Text.trim pattern = "é(|+)" := by cbv
  obtain ⟨-, hrun, k, c, hpoints⟩ := report_points_at_defect.2 ⟨none, none⟩ pattern [] _ hcompile
  obtain ⟨k', c', hpoints'⟩ := report_points_at_defect.1 untrimmed " é(" _ hcompile'
  refine ⟨hcompile, ?_, ?_, hcompile', ?_⟩
  · rw [hrun, htrim]
    rfl
  · cases hpoints.marks.position
    cases hpoints.marks.named
    rwa [htrim] at hpoints
  · cases hpoints'.marks.position
    cases hpoints'.marks.named
    exact hpoints'

end PatternGraph
