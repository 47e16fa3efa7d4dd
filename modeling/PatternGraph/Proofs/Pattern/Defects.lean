import PatternGraph.Proofs.Pattern.Reading

/-!
# Defects — what reading a pattern yields, told from its text alone

Three things can be wrong with a character where it stands (`Defect`): an opening parenthesis with
too many groups open, a closing one with none open, and a quantifier with nothing before it to
repeat. `parse_outcome` says that reading yields the leftmost of these, or else the innermost group
that is left open, or else a tree; a pattern over the length limit is refused before all of them.
-/

namespace PatternGraph.Pattern

/-- The positions of the parentheses that a text opens and does not close, the innermost first. -/
def openGroups (text : List Char) : List Nat :=
  (Scan.after text).opened

/-- Behind one more character: an opening parenthesis is one more open, a closing one closes the
innermost, and any other changes nothing. -/
theorem openGroups_concat (text : List Char) (c : Char) :
    openGroups (text ++ [c]) =
      if c = '(' then text.length :: openGroups text
      else if c = ')' then (openGroups text).tail
      else openGroups text := by
  unfold openGroups
  rw [Scan.after_concat, Scan.next, Scan.position_after]

/-- No more groups are open than characters were read. -/
theorem length_openGroups_le (text : List Char) : (openGroups text).length ≤ text.length := by
  have hscan : ∀ scan : Scan,
      (text.foldl Scan.next scan).opened.length ≤ scan.opened.length + text.length := by
    induction text with
    | nil => exact fun scan => Nat.le_refl _
    | cons c text ih =>
      intro scan
      have hnext : (scan.next c).opened.length ≤ scan.opened.length + 1 := by
        unfold Scan.next
        dsimp only
        split
        · exact Nat.le_refl _
        · split
          · rw [List.length_tail]
            omega
          · omega
      have htext := ih (scan.next c)
      rw [List.foldl_cons, List.length_cons]
      omega
  have hstart := hscan Scan.start
  rw [show Scan.start.opened.length = 0 from rfl, Nat.zero_add] at hstart
  exact hstart

/-- Nor are there in any part that a text begins with. -/
theorem length_openGroups_take_le (text : List Char) (n : Nat) :
    (openGroups (text.take n)).length ≤ text.length :=
  Nat.le_trans (length_openGroups_le _) (List.length_take_le' n text)

/-- The character at position `i` of a text is a defect where it stands. -/
inductive Defect (limit : Nat) (text : List Char) (i : Nat) : PatternError → Prop where
  /-- As many groups are open as may be. -/
  | tooDeep (h : text[i]? = some '(') (hopen : limit ≤ (openGroups (text.take i)).length) :
    Defect limit text i (.tooDeep limit i)
  /-- No group is open. -/
  | unopened (h : text[i]? = some ')') (hopen : openGroups (text.take i) = []) :
    Defect limit text i (.unopenedGroup i)
  /-- The text, a group or a branch starts here. -/
  | dangling (q : Quantifier) (h : text[i]? = some q.toChar)
    (hprevious : i = 0 ∨ text[i - 1]? = some '(' ∨ text[i - 1]? = some '|') :
    Defect limit text i (.danglingQuantifier q.toChar i)

variable {limit i : Nat} {text : List Char} {e : PatternError}

/-- A quantifier begins a branch where nothing, an opening parenthesis or a bar stands before it. -/
theorem startsBranch_getLast?_take (hi : i < text.length) :
    startsBranch (text.take i).getLast? = true ↔
      i = 0 ∨ text[i - 1]? = some '(' ∨ text[i - 1]? = some '|' := by
  cases i with
  | zero => simp [startsBranch]
  | succ i =>
    have hlt : i < text.length := Nat.lt_of_succ_lt hi
    rw [List.getLast?_take, Nat.add_sub_cancel, List.getElem?_eq_getElem hlt]
    simp [startsBranch]

/-- The defects of a text are those that a scan meets. -/
theorem defect_iff : Defect limit text i e ↔ Scan.DefectAt startsBranch limit text i e := by
  have hposition : ∀ c, text[i]? = some c → (Scan.after (text.take i)).position = i := by
    intro c hc
    rcases List.getElem?_eq_some_iff.1 hc with ⟨hlt, _⟩
    rw [Scan.position_after, List.length_take_of_le (Nat.le_of_lt hlt)]
  constructor
  · intro h
    cases h with
    | tooDeep h hopen =>
      refine ⟨'(', h, ?_⟩
      unfold openGroups at hopen
      simp [Scan.defect?, hopen, hposition _ h]
    | unopened h hopen =>
      refine ⟨')', h, ?_⟩
      unfold openGroups at hopen
      simp [Scan.defect?, hopen, hposition _ h]
    | dangling q h hprevious =>
      refine ⟨q.toChar, h, ?_⟩
      rcases List.getElem?_eq_some_iff.1 h with ⟨hlt, _⟩
      rw [← startsBranch_getLast?_take hlt, ← Scan.previous_after] at hprevious
      rcases q.toChar_eq with hchar | hchar <;>
        simp [Scan.defect?, hchar, hprevious, hposition _ h]
  · rintro ⟨c, hc, hdefect⟩
    have hposition := hposition c hc
    -- the three ways in which a character fails a scan are the three defects
    rcases Scan.defect?_cases hdefect with
      ⟨rfl, hfull, rfl⟩ | ⟨rfl, hnone, rfl⟩ | ⟨hquantifier, hdangles, rfl⟩
    · rw [hposition]
      exact .tooDeep hc hfull
    · rw [hposition]
      exact .unopened hc hnone
    · rcases List.getElem?_eq_some_iff.1 hc with ⟨hlt, _⟩
      rw [Scan.previous_after, startsBranch_getLast?_take hlt] at hdangles
      rw [hposition]
      rcases hquantifier with rfl | rfl
      · exact .dangling .zeroOrMore hc hdangles
      · exact .dangling .oneOrMore hc hdangles

/-! ## The outcome of reading -/

/-- A scan does not look at the length of its text. -/
theorem Scan.run_ne_tooLong {dangles : Option Char → Bool} (scan : Scan) (text : List Char)
    (length bound : Nat) : scan.run dangles limit text ≠ .error (.tooLong length bound) := by
  intro h
  rcases Scan.run_cases h with ⟨u, c, v, -, hdefect⟩ | ⟨innermost, outer, -, he⟩
  · rcases Scan.defect?_cases hdefect with ⟨-, -, he⟩ | ⟨-, -, he⟩ | ⟨-, -, he⟩ <;> cases he
  · cases he

/-- Reading fails exactly where the scan of the text does, and with the same defect. -/
theorem run_eq_of_read (limit : Nat) (text : List Char) :
    Scan.start.run startsBranch limit text = (read limit text).map fun _ => () := by
  have hagrees := read_agrees limit text
  cases hread : read limit text with
  | error e =>
    rw [hread] at hagrees
    exact hagrees
  | ok p =>
    rw [hread] at hagrees
    -- a text that was read is in the grammar, and a scan goes over it without a defect
    rcases hagrees with ⟨branches, hbranches, hdepth, _⟩
    have hclean : Scan.Clean limit Scan.start text := hbranches.clean_start hdepth
    have hrun := hclean.run_append []
    rw [List.append_nil] at hrun
    rw [hrun, Scan.run, Scan.finish, hclean.opened]
    rfl

/-- Reading reports what the scan does. -/
theorem read_eq_error_iff : read limit text = .error e ↔
    Scan.start.run startsBranch limit text = .error e := by
  rw [run_eq_of_read]
  cases read limit text with
  | error e' =>
    constructor
    · intro h
      cases h
      rfl
    · intro h
      cases h
      rfl
  | ok p =>
    constructor
    · intro h
      cases h
    · intro h
      cases h

/-- The leftmost defect is what reading reports. -/
theorem read_eq_error_of_first_defect (h : Defect limit text i e)
    (hfirst : ∀ j < i, ∀ e, ¬ Defect limit text j e) : read limit text = .error e := by
  rw [read_eq_error_iff]
  refine Scan.run_of_first_defect (defect_iff.1 h) fun j hj e hdefect => ?_
  exact hfirst j hj e (defect_iff.2 hdefect)

/-- Without a defect the scan comes to the end of the text, and groups may still be open there. -/
theorem run_of_no_defect (h : ∀ i e, ¬ Defect limit text i e) :
    Scan.start.run startsBranch limit text = (Scan.after text).finish :=
  Scan.run_of_no_defect fun i e hdefect => h i e (defect_iff.2 hdefect)

/-- A scan finds a group too deep only where as many groups are open as may be. -/
theorem Scan.exists_of_run_tooDeep {dangles : Option Char → Bool} {scan : Scan} {n : Nat}
    (h : scan.run dangles limit text = .error (.tooDeep n i)) :
    ∃ u v, text = u ++ '(' :: v ∧ limit ≤ (u.foldl next scan).opened.length := by
  rcases Scan.run_cases h with ⟨u, c, v, rfl, hdefect⟩ | ⟨innermost, outer, -, he⟩
  · rcases Scan.defect?_cases hdefect with ⟨rfl, hfull, -⟩ | ⟨-, -, he⟩ | ⟨-, -, he⟩
    · exact ⟨u, v, rfl, hfull⟩
    · cases he
    · cases he
  · cases he

/-- Such a group would be one more than may be open. -/
theorem exists_openGroups_gt {dangles : Option Char → Bool} {n : Nat}
    (h : Scan.start.run dangles limit text = .error (.tooDeep n i)) :
    ∃ m, limit < (openGroups (text.take m)).length := by
  rcases Scan.exists_of_run_tooDeep h with ⟨u, v, rfl, hfull⟩
  -- up to and with that parenthesis one group more is open than before it
  have htake : (u ++ '(' :: v).take (u ++ ['(']).length = u ++ ['('] := by
    have hsplit : u ++ '(' :: v = (u ++ ['(']) ++ v := by simp
    rw [hsplit, List.take_left]
  refine ⟨(u ++ ['(']).length, ?_⟩
  rw [htake, openGroups_concat, if_pos rfl, List.length_cons]
  exact Nat.lt_succ_of_le hfull

/-- Where no more groups are ever open than may be, none is found too deep. -/
theorem read_ne_tooDeep (h : ∀ n, (openGroups (text.take n)).length ≤ limit) (n i : Nat) :
    read limit text ≠ .error (.tooDeep n i) := by
  intro hread
  obtain ⟨m, hm⟩ := exists_openGroups_gt (read_eq_error_iff.1 hread)
  exact absurd (h m) (Nat.not_le.2 hm)

/-- Reading a pattern yields one of four things: a refusal of its length, which is decided first;
the leftmost defect; the innermost group left open; a tree. -/
theorem parse_outcome (options : Options) (pattern : String) :
    (∀ length limit, parse options pattern = .error (.tooLong length limit) ↔
      options.maxLength < pattern.length ∧ length = pattern.length ∧ limit = options.maxLength) ∧
    (pattern.length ≤ options.maxLength →
      (∀ i e, Defect options.maxDepth pattern.toList i e →
        (∀ j < i, ∀ e', ¬ Defect options.maxDepth pattern.toList j e') →
        parse options pattern = .error e) ∧
      ((∀ i e, ¬ Defect options.maxDepth pattern.toList i e) →
        match openGroups pattern.toList with
        | [] => ∃ p, parse options pattern = .ok p
        | innermost :: _ => parse options pattern = .error (.unclosedGroup innermost))) := by
  constructor
  · intro length limit
    unfold parse
    split
    · next hlong =>
      constructor
      · intro h
        cases h
        exact ⟨hlong, rfl, rfl⟩
      · rintro ⟨_, rfl, rfl⟩
        rfl
    · next hshort =>
      rw [read_eq_error_iff]
      constructor
      · intro h
        exact absurd h (Scan.run_ne_tooLong _ _ _ _)
      · intro h
        exact absurd h.1 hshort
  · intro hshort
    have hparse : parse options pattern = read options.maxDepth pattern.toList :=
      if_neg (Nat.not_lt.2 hshort)
    rw [hparse]
    constructor
    · intro i e hdefect hfirst
      exact read_eq_error_of_first_defect hdefect hfirst
    · intro hclean
      have hrun := run_of_no_defect hclean
      unfold Scan.finish at hrun
      unfold openGroups
      -- groups that are open at the end are a defect of the text as a whole
      cases hopened : (Scan.after pattern.toList).opened with
      | nil =>
        rw [hopened, run_eq_of_read] at hrun
        cases hread : read options.maxDepth pattern.toList with
        | error e =>
          rw [hread] at hrun
          cases hrun
        | ok p => exact ⟨p, rfl⟩
      | cons innermost outer =>
        rw [hopened] at hrun
        exact read_eq_error_iff.2 hrun

/-- In `a(b*|+c` the plus behind the bar is reported, and not the group before it, which is never
closed. -/
theorem parse_outcome_of_plus_behind_bar :
    "a(b*|+c".length ≤ Options.standard.maxLength ∧
    Defect Options.standard.maxDepth "a(b*|+c".toList 5 (.danglingQuantifier '+' 5) ∧
    parse Options.standard "a(b*|+c" = .error (.danglingQuantifier '+' 5) := by
  have hlength : "a(b*|+c".length ≤ Options.standard.maxLength := by decide
  have hdefect : Defect Options.standard.maxDepth "a(b*|+c".toList 5 (.danglingQuantifier '+' 5) :=
    .dangling .oneOrMore (by decide) (by decide)
  refine ⟨hlength, hdefect, ((parse_outcome _ _).2 hlength).1 5 _ hdefect fun j hj e h => ?_⟩
  rcases defect_iff.1 h with ⟨c, hc, he⟩
  have htext : "a(b*|+c".toList = ['a', '(', 'b', '*', '|', '+', 'c'] := by rfl
  rw [htext] at hc he
  -- none of the characters before the plus is a defect
  have hcases : j = 0 ∨ j = 1 ∨ j = 2 ∨ j = 3 ∨ j = 4 := by omega
  rcases hcases with rfl | rfl | rfl | rfl | rfl <;> cases hc <;> cases he

end PatternGraph.Pattern
