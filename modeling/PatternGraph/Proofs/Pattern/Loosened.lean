import PatternGraph.Proofs.Pattern.Check
import PatternGraph.Proofs.Pattern.Reading
import PatternGraph.Text.Blank

/-!
# Loosened patterns — a star in the place of every plus

Loosening turns every plus into a star: in a text, in a tree, and in the error that reports a
quantifier. Every reader of a text commutes with it. A scan meets the same defects at the same
positions (`Scan.run_loosen`), the grammar derives the loosened tree (`Branches.loosen`), and both
together say what is read from a loosened text (`read_loosen`).
-/

namespace PatternGraph

/-! ## Loosened texts -/

namespace Text

/-- A character, or a star for a plus. -/
def loosenChar (c : Char) : Char :=
  if c = '+' then '*' else c

/-- A word with a star for every plus. -/
def loosenWord (word : List Char) : List Char :=
  word.map loosenChar

/-- A text with a star for every plus. -/
def loosen (text : String) : String :=
  String.ofList (loosenWord text.toList)

variable {c d : Char}

/-- Only a plus is changed. -/
theorem loosenChar_of_ne (h : c ≠ '+') : loosenChar c = c :=
  if_neg h

/-- No character but a quantifier comes from another one. -/
theorem loosenChar_eq_iff (hstar : d ≠ '*') (hplus : d ≠ '+') : loosenChar c = d ↔ c = d := by
  unfold loosenChar
  split
  · next h =>
    subst h
    exact ⟨fun h => absurd h.symm hstar, fun h => absurd h.symm hplus⟩
  · exact Iff.rfl

@[simp] theorem loosenChar_eq_opening_iff : loosenChar c = '(' ↔ c = '(' :=
  loosenChar_eq_iff (by decide) (by decide)

@[simp] theorem loosenChar_eq_closing_iff : loosenChar c = ')' ↔ c = ')' :=
  loosenChar_eq_iff (by decide) (by decide)

@[simp] theorem loosenChar_eq_bar_iff : loosenChar c = '|' ↔ c = '|' :=
  loosenChar_eq_iff (by decide) (by decide)

/-- A quantifier stays one. -/
theorem loosenChar_quantifier_iff :
    loosenChar c = '*' ∨ loosenChar c = '+' ↔ c = '*' ∨ c = '+' := by
  unfold loosenChar
  split
  · next h =>
    subst h
    simp
  · exact Iff.rfl

theorem loosenWord_append (s t : List Char) : loosenWord (s ++ t) = loosenWord s ++ loosenWord t :=
  List.map_append

/-- A blank stays one, and no other character becomes one. -/
theorem isBlank_comp_loosenChar : isBlank ∘ loosenChar = isBlank := by
  funext c
  show isBlank (loosenChar c) = isBlank c
  unfold loosenChar
  split
  · next h =>
    subst h
    decide
  · rfl

/-- Trimming does not look at quantifiers. -/
theorem trimWord_loosenWord (word : List Char) :
    trimWord (loosenWord word) = loosenWord (trimWord word) := by
  unfold trimWord trimEnd loosenWord
  simp only [List.dropWhile_map, isBlank_comp_loosenChar, ← List.map_reverse]

@[simp] theorem toList_loosen (text : String) : (loosen text).toList = loosenWord text.toList := by
  simp [loosen]

@[simp] theorem length_loosen (text : String) : (loosen text).length = text.length := by
  rw [← String.length_toList, toList_loosen, loosenWord, List.length_map, String.length_toList]

end Text

open Text

/-! ## Loosened errors -/

/-- The same defect at the same place, with a star named for a plus. -/
def PatternError.loosen : PatternError → PatternError
  | danglingQuantifier quantifier position => danglingQuantifier (loosenChar quantifier) position
  | e => e

namespace Pattern

/-! ## Loosened scans -/

variable {limit : Nat} {scan : Scan} {dangles : Option Char → Bool}

/-- The scan that has come behind a plus as if it were a star. -/
def Scan.loosen (scan : Scan) : Scan :=
  { scan with previous := scan.previous.map loosenChar }

/-- The scan comes behind a loosened character as it does behind the character. -/
theorem Scan.next_loosen (scan : Scan) (c : Char) :
    scan.loosen.next (loosenChar c) = (scan.next c).loosen := by
  simp only [Scan.next, Scan.loosen, loosenChar_eq_opening_iff, loosenChar_eq_closing_iff,
    Option.map_some]

/-- Where stars and pluses dangle alike, a loosened character is the loosened defect. -/
theorem Scan.defect?_loosen (hdangles : ∀ previous, dangles (previous.map loosenChar)
    = dangles previous) (scan : Scan) (c : Char) :
    scan.loosen.defect? dangles limit (loosenChar c)
      = (scan.defect? dangles limit c).map PatternError.loosen := by
  unfold Scan.defect?
  simp only [loosenChar_eq_opening_iff, loosenChar_eq_closing_iff, loosenChar_quantifier_iff,
    Scan.loosen, hdangles, apply_ite (Option.map PatternError.loosen)]
  rfl

/-- A run over a loosened text stops where the run over the text does, at the loosened defect. -/
theorem Scan.run_loosen (hdangles : ∀ previous, dangles (previous.map loosenChar)
    = dangles previous) (scan : Scan) (text : List Char) :
    scan.loosen.run dangles limit (loosenWord text)
      = (scan.run dangles limit text).mapError PatternError.loosen := by
  induction text generalizing scan with
  | nil =>
    show scan.loosen.finish = scan.finish.mapError PatternError.loosen
    unfold Scan.finish Scan.loosen
    cases scan.opened with
    | nil => rfl
    | cons innermost outer => rfl
  | cons c text ih =>
    show scan.loosen.run dangles limit (loosenChar c :: loosenWord text) = _
    unfold Scan.run
    rw [Scan.defect?_loosen hdangles, Scan.next_loosen]
    cases scan.defect? dangles limit c with
    | none => exact ih (scan.next c)
    | some e => rfl

/-- A branch starts neither behind a star nor behind a plus. -/
theorem startsBranch_loosen (previous : Option Char) :
    startsBranch (previous.map loosenChar) = startsBranch previous := by
  cases previous with
  | none => rfl
  | some c =>
    simp only [Option.map_some, startsBranch, loosenChar_eq_opening_iff, loosenChar_eq_bar_iff]

/-- A star can be repeated as little as a plus. -/
theorem nothingToRepeat_loosen (previous : Option Char) :
    nothingToRepeat (previous.map loosenChar) = nothingToRepeat previous := by
  cases previous with
  | none => rfl
  | some c =>
    show nothingToRepeat (some (loosenChar c)) = _
    unfold loosenChar
    split
    · next h =>
      subst h
      rfl
    · rfl

/-- The check finds the same defect in a text and in the loosened text. -/
theorem check_loosen (limit : Nat) (text : List Char) :
    check limit (loosenWord text) = (check limit text).mapError PatternError.loosen := by
  rw [check_eq_run, check_eq_run]
  exact Scan.run_loosen nothingToRepeat_loosen Scan.start text

/-- So the check passes a text if and only if it passes the loosened one. -/
theorem check_loosen_eq_ok_iff {limit : Nat} {text : List Char} :
    check limit (loosenWord text) = .ok () ↔ check limit text = .ok () := by
  rw [check_loosen]
  cases check limit text with
  | error e =>
    constructor
    · intro h
      cases h
    · intro h
      cases h
  | ok _ => exact Iff.rfl

/-! ## Loosened trees -/

mutual

/-- The tree with a star for every plus. -/
def loosen : Pattern → Pattern
  | empty => empty
  | literal c => literal c
  | concat items => concat (loosenAll items)
  | alternation branches => alternation (loosenAll branches)
  | closure item _ => closure item.loosen .zeroOrMore
  | group inner => group inner.loosen

/-- The trees with a star for every plus. -/
def loosenAll : List Pattern → List Pattern
  | [] => []
  | p :: ps => p.loosen :: loosenAll ps

end

/-- What few items are kept as does not depend on the quantifiers in them. -/
theorem loosen_ofItems (items : List Pattern) :
    (ofItems items).loosen = ofItems (loosenAll items) := by
  match items with
  | [] => rfl
  | [item] => rfl
  | _ :: _ :: _ => rfl

/-- Nor does what few branches are kept as. -/
theorem loosen_ofBranches (branches : List Pattern) :
    (ofBranches branches).loosen = ofBranches (loosenAll branches) := by
  match branches with
  | [] => rfl
  | [branch] => rfl
  | _ :: _ :: _ => rfl

/-- Behind a loosened item every quantifier is a star, and two stars are one. -/
theorem loosen_quantify (p : Pattern) (q : Quantifier) :
    (p.quantify q).loosen = p.loosen.quantify .zeroOrMore := by
  cases p with
  | closure item previous => rfl
  | _ => rfl

/-- In the tree a run of quantifiers is loosened to as many stars. -/
theorem loosen_foldl_quantify (p : Pattern) (quantifiers : List Quantifier) :
    (quantifiers.foldl quantify p).loosen
      = (List.replicate quantifiers.length .zeroOrMore).foldl quantify p.loosen := by
  induction quantifiers generalizing p with
  | nil => rfl
  | cons q quantifiers ih =>
    rw [List.foldl_cons, ih, loosen_quantify]
    rfl

/-- In the text it is loosened to as many stars too. -/
theorem loosenWord_map_toChar (quantifiers : List Quantifier) :
    loosenWord (quantifiers.map Quantifier.toChar)
      = (List.replicate quantifiers.length Quantifier.zeroOrMore).map Quantifier.toChar := by
  induction quantifiers with
  | nil => rfl
  | cons q quantifiers ih =>
    have hhead : loosenChar q.toChar = '*' := by
      cases q with
      | zeroOrMore => rfl
      | oneOrMore => rfl
    show loosenChar q.toChar :: loosenWord (quantifiers.map Quantifier.toChar) = _
    rw [hhead, ih]
    rfl

/-! ## Reading a loosened text -/

mutual

/-- The grammar derives the loosened trees from the loosened text. -/
theorem Branches.loosen {s : List Char} {branches : List Pattern} (h : Branches s branches) :
    Branches (loosenWord s) (loosenAll branches) := by
  match h with
  | .last hitems =>
    rw [loosenAll, loosenAll, loosen_ofItems]
    exact Branches.last hitems.loosen
  | .bar hitems hbranches =>
    rw [loosenAll, loosen_ofItems, loosenWord_append]
    exact Branches.bar hitems.loosen hbranches.loosen

theorem Items.loosen {s : List Char} {items : List Pattern} (h : Items s items) :
    Items (loosenWord s) (loosenAll items) := by
  match h with
  | .nil => exact Items.nil
  | .cons hatom quantifiers hitems =>
    rw [loosenAll, loosen_foldl_quantify, loosenWord_append, loosenWord_append,
      loosenWord_map_toChar]
    exact Items.cons hatom.loosen _ hitems.loosen

theorem Atom.loosen {s : List Char} {atom : Pattern} (h : Atom s atom) :
    Atom (loosenWord s) atom.loosen := by
  match h with
  | .literal hc =>
    have hsame : loosenWord [_] = [_] := congrArg (· :: []) (loosenChar_of_ne hc.2.2.2.2)
    rw [hsame]
    exact Atom.literal hc
  | .group hbranches =>
    show Atom ('(' :: loosenWord (_ ++ [')'])) (group (ofBranches _).loosen)
    rw [loosen_ofBranches, loosenWord_append]
    exact Atom.group hbranches.loosen

end

/-- What is read from a loosened text is the loosened tree, or the loosened defect. -/
theorem read_loosen (limit : Nat) (text : List Char) :
    read limit (loosenWord text)
      = ((read limit text).map Pattern.loosen).mapError PatternError.loosen := by
  have hrun : Scan.start.run startsBranch limit (loosenWord text)
      = (Scan.start.run startsBranch limit text).mapError PatternError.loosen :=
    Scan.run_loosen startsBranch_loosen Scan.start text
  cases hread : read limit text with
  | error e =>
    rw [read_eq_error_iff.1 hread] at hrun
    exact read_eq_error_iff.2 hrun
  | ok p =>
    obtain ⟨branches, hbranches, -, rfl⟩ := read_eq_ok_iff.1 hread
    have hok : Scan.start.run startsBranch limit text = .ok () := by
      rw [run_eq_of_read, hread]
      rfl
    rw [hok] at hrun
    cases hloose : read limit (loosenWord text) with
    | error e =>
      rw [read_eq_error_iff.1 hloose] at hrun
      cases hrun
    | ok p' =>
      -- no other tree stands behind the loosened text
      obtain ⟨branches', hbranches', -, rfl⟩ := read_eq_ok_iff.1 hloose
      rw [hbranches'.unique hbranches.loosen, ← loosen_ofBranches]
      rfl

/-- The same of parsing: loosening makes a pattern neither shorter nor longer. -/
theorem parse_loosen (options : Options) (pattern : String) :
    parse options (Text.loosen pattern)
      = ((parse options pattern).map Pattern.loosen).mapError PatternError.loosen := by
  unfold parse
  rw [length_loosen, toList_loosen, read_loosen]
  by_cases hlong : pattern.length > options.maxLength
  · rw [if_pos hlong, if_pos hlong]
    rfl
  · rw [if_neg hlong, if_neg hlong]

end Pattern

end PatternGraph
