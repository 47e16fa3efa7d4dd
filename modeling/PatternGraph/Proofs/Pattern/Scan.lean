import PatternGraph.Pattern.Error
import PatternGraph.Proofs.Pattern.Grammar

/-!
# Scans — a text looked over once from left to right

1. A scan knows its position, the positions of the groups that are open, and the character before
   it. `Scan.run` stops at the first character that is a defect where it stands, and ends with the
   groups that were left open.
2. `Scan.defect?_cases` and `Scan.run_cases` say once what a character and a run can fail with.
3. `Scan.run_of_first_defect` and `Scan.run_of_no_defect` say what a run yields without running it:
   the defect at the first position that has one, or else the innermost group left open.
4. `Branches.clean` says that a text of the grammar has no defect, wherever it stands.

When a quantifier dangles is a parameter: it depends on the character before it.
-/

namespace PatternGraph.Pattern

/-- What a scan knows at a place of a text. -/
structure Scan where
  /-- The number of characters behind it. -/
  position : Nat
  /-- The positions of the open groups, the innermost first. -/
  opened : List Nat
  /-- The character directly before it. -/
  previous : Option Char
deriving Repr, DecidableEq

namespace Scan

/-- The scan before the first character of a text. -/
def start : Scan where
  position := 0
  opened := []
  previous := none

/-- The scan behind one more character. -/
def next (scan : Scan) (c : Char) : Scan where
  position := scan.position + 1
  opened :=
    if c = '(' then scan.position :: scan.opened
    else if c = ')' then scan.opened.tail
    else scan.opened
  previous := some c

/-- The scan behind a text. -/
def after (text : List Char) : Scan :=
  text.foldl next start

/-- The defect of a character that stands at the place of a scan, if it is one there. -/
def defect? (dangles : Option Char → Bool) (limit : Nat) (scan : Scan) (c : Char) :
    Option PatternError :=
  if c = '(' then
    if limit ≤ scan.opened.length then some (.tooDeep limit scan.position) else none
  else if c = ')' then
    if scan.opened = [] then some (.unopenedGroup scan.position) else none
  else if (c = '*' ∨ c = '+') ∧ dangles scan.previous = true then
    some (.danglingQuantifier c scan.position)
  else none

/-- What the end of a text yields: the innermost group that is open has no partner. -/
def finish (scan : Scan) : Except PatternError Unit :=
  match scan.opened with
  | [] => .ok ()
  | innermost :: _ => .error (.unclosedGroup innermost)

/-- The first defect from a scan on, or what the end of the text yields. -/
def run (dangles : Option Char → Bool) (limit : Nat) (scan : Scan) :
    List Char → Except PatternError Unit
  | [] => scan.finish
  | c :: rest =>
    match scan.defect? dangles limit c with
    | some e => .error e
    | none => run dangles limit (scan.next c) rest

/-! ## What a scan knows behind a text -/

/-- A scan counts the characters that it goes over. -/
theorem position_foldl_next (scan : Scan) (text : List Char) :
    (text.foldl next scan).position = scan.position + text.length := by
  induction text generalizing scan with
  | nil => rfl
  | cons c text ih =>
    rw [List.foldl_cons, ih, List.length_cons]
    simp only [next]
    omega

/-- The character before a scan is the last that it went over, if there is one. -/
theorem previous_foldl_next (scan : Scan) (text : List Char) :
    (text.foldl next scan).previous = text.getLast?.or scan.previous := by
  induction text generalizing scan with
  | nil => rfl
  | cons c text ih =>
    rw [List.foldl_cons, ih, List.getLast?_cons]
    cases text.getLast? with
    | none => rfl
    | some x => rfl

theorem position_after (text : List Char) : (after text).position = text.length := by
  rw [after, position_foldl_next]
  exact Nat.zero_add _

theorem previous_after (text : List Char) : (after text).previous = text.getLast? := by
  rw [after, previous_foldl_next]
  exact Option.or_none

theorem after_concat (text : List Char) (c : Char) :
    after (text ++ [c]) = (after text).next c := by
  simp [after]

/-- A quantifier is a defect where it dangles. -/
theorem defect?_quantifier (dangles : Option Char → Bool) (limit : Nat) (scan : Scan)
    (q : Quantifier) :
    scan.defect? dangles limit q.toChar
      = if dangles scan.previous then some (.danglingQuantifier q.toChar scan.position)
        else none := by
  cases q <;> simp [defect?, Quantifier.toChar]

/-! ## What can fail -/

/-- A character is a defect in one of three ways. -/
theorem defect?_cases {dangles : Option Char → Bool} {limit : Nat} {scan : Scan} {c : Char}
    {e : PatternError} (h : scan.defect? dangles limit c = some e) :
    (c = '(' ∧ limit ≤ scan.opened.length ∧ e = .tooDeep limit scan.position) ∨
    (c = ')' ∧ scan.opened = [] ∧ e = .unopenedGroup scan.position) ∨
    ((c = '*' ∨ c = '+') ∧ dangles scan.previous = true ∧
      e = .danglingQuantifier c scan.position) := by
  unfold defect? at h
  split at h
  · next hopen =>
    split at h
    · next hfull => exact .inl ⟨hopen, hfull, (Option.some.inj h).symm⟩
    · cases h
  · split at h
    · next hclose =>
      split at h
      · next hnone => exact .inr (.inl ⟨hclose, hnone, (Option.some.inj h).symm⟩)
      · cases h
    · split at h
      · next hquantifier =>
        exact .inr (.inr ⟨hquantifier.1, hquantifier.2, (Option.some.inj h).symm⟩)
      · cases h

/-- A run fails at a character that is a defect, or at the end of the text, where the innermost of
the groups that are open has no partner. -/
theorem run_cases {dangles : Option Char → Bool} {limit : Nat} {scan : Scan} {text : List Char}
    {e : PatternError} (h : scan.run dangles limit text = .error e) :
    (∃ u c v, text = u ++ c :: v ∧ (u.foldl next scan).defect? dangles limit c = some e) ∨
      ∃ innermost outer, (text.foldl next scan).opened = innermost :: outer ∧
        e = .unclosedGroup innermost := by
  induction text generalizing scan with
  | nil =>
    unfold run finish at h
    split at h
    · cases h
    · next innermost outer hopened =>
      cases h
      exact .inr ⟨innermost, outer, hopened, rfl⟩
  | cons c text ih =>
    unfold run at h
    split at h
    · next hdefect =>
      cases h
      exact .inl ⟨[], c, text, rfl, hdefect⟩
    · -- this character is no defect, so the run goes on behind it
      rcases ih h with ⟨u, d, v, rfl, hdefect⟩ | hopened
      · exact .inl ⟨c :: u, d, v, rfl, hdefect⟩
      · exact .inr hopened

/-! ## The first defect -/

/-- The character at position `i` of a text is the defect `e` there. -/
def DefectAt (dangles : Option Char → Bool) (limit : Nat) (text : List Char) (i : Nat)
    (e : PatternError) : Prop :=
  ∃ c, text[i]? = some c ∧ (after (text.take i)).defect? dangles limit c = some e

variable {dangles : Option Char → Bool} {limit i : Nat} {text : List Char} {e : PatternError}

/-- Up to a position before which nothing is a defect, a run only moves on. -/
theorem run_eq_run_after (hi : i ≤ text.length)
    (h : ∀ j < i, ∀ e, ¬ DefectAt dangles limit text j e) :
    run dangles limit start text = run dangles limit (after (text.take i)) (text.drop i) := by
  induction i with
  | zero => rfl
  | succ i ih =>
    have hlt : i < text.length := hi
    rw [ih (Nat.le_of_lt hlt) fun j hj => h j (Nat.lt_succ_of_lt hj)]
    have hclean : (after (text.take i)).defect? dangles limit text[i] = none := by
      rw [Option.eq_none_iff_forall_ne_some]
      intro e he
      exact h i (Nat.lt_succ_self i) e ⟨text[i], List.getElem?_eq_getElem hlt, he⟩
    rw [List.drop_eq_getElem_cons hlt, run, hclean, ← after_concat, List.take_append_getElem hlt]

/-- The first defect of a text is what a run yields. -/
theorem run_of_first_defect (h : DefectAt dangles limit text i e)
    (hfirst : ∀ j < i, ∀ e, ¬ DefectAt dangles limit text j e) :
    run dangles limit start text = .error e := by
  rcases h with ⟨c, hc, hdefect⟩
  rcases List.getElem?_eq_some_iff.1 hc with ⟨hlt, rfl⟩
  rw [run_eq_run_after (Nat.le_of_lt hlt) hfirst, List.drop_eq_getElem_cons hlt, run, hdefect]

/-- Without a defect a run comes to the end of the text. -/
theorem run_of_no_defect (h : ∀ i e, ¬ DefectAt dangles limit text i e) :
    run dangles limit start text = (after text).finish := by
  rw [run_eq_run_after (Nat.le_refl _) fun j _ => h j, List.take_length, List.drop_length, run]

end Scan

/-! ## Texts without a defect -/

/-- A quantifier dangles at the start of a text, of a group or of a branch. -/
def startsBranch : Option Char → Bool
  | none => true
  | some c => c = '(' || c = '|'

namespace Scan

/-- No character of a text is a defect where a scan meets it, and what the text opens it closes. -/
structure Clean (limit : Nat) (scan : Scan) (text : List Char) : Prop where
  run_append : ∀ rest, run startsBranch limit scan (text ++ rest)
    = run startsBranch limit (text.foldl next scan) rest
  opened : (text.foldl next scan).opened = scan.opened

variable {limit : Nat} {scan : Scan} {s t : List Char} {c : Char}

theorem Clean.nil : Clean limit scan [] :=
  ⟨fun _ => rfl, rfl⟩

/-- Clean texts stand behind one another. -/
theorem Clean.append (hs : Clean limit scan s) (ht : Clean limit (s.foldl next scan) t) :
    Clean limit scan (s ++ t) := by
  constructor
  · intro rest
    rw [List.append_assoc, hs.run_append, ht.run_append, List.foldl_append]
  · rw [List.foldl_append, ht.opened, hs.opened]

/-- A character that is no parenthesis is clean by itself unless it is a defect. -/
theorem Clean.single (h : scan.defect? startsBranch limit c = none) (hopen : c ≠ '(')
    (hclose : c ≠ ')') : Clean limit scan [c] := by
  constructor
  · intro rest
    rw [List.singleton_append, run, h, List.foldl_cons, List.foldl_nil]
  · simp [next, hopen, hclose]

theorem Clean.ordinary (h : IsOrdinary c) : Clean limit scan [c] := by
  rcases h with ⟨hopen, hclose, _, hstar, hplus⟩
  exact Clean.single (by simp [defect?, hopen, hclose, hstar, hplus]) hopen hclose

theorem Clean.bar : Clean limit scan ['|'] :=
  Clean.single (by simp [defect?]) (by decide) (by decide)

/-- A run of quantifiers is clean behind something that can be repeated; behind the first of them
the others are. -/
theorem Clean.quantifiers (qs : List Quantifier) (h : startsBranch scan.previous = false) :
    Clean limit scan (qs.map Quantifier.toChar) := by
  induction qs generalizing scan with
  | nil => exact Clean.nil
  | cons q qs ih =>
    have hq : Clean limit scan [q.toChar] := by
      rcases q.toChar_eq with hchar | hchar
      · exact Clean.single (by simp [defect?, hchar, h]) (by simp [hchar]) (by simp [hchar])
      · exact Clean.single (by simp [defect?, hchar, h]) (by simp [hchar]) (by simp [hchar])
    refine hq.append (ih ?_)
    rcases q.toChar_eq with hchar | hchar
    · simp [next, startsBranch, hchar]
    · simp [next, startsBranch, hchar]

/-- A group is clean if there is room for it and its inside is clean one level deeper. -/
theorem Clean.group (hroom : scan.opened.length < limit) (hs : Clean limit (scan.next '(') s) :
    Clean limit scan ('(' :: (s ++ [')'])) := by
  have hopened : (s.foldl next (scan.next '(')).opened = scan.position :: scan.opened := hs.opened
  have hopen : scan.defect? startsBranch limit '(' = none := by
    simp [defect?, Nat.not_le.2 hroom]
  -- the group that was opened is still the innermost when its closing parenthesis comes
  have hclose : (s.foldl next (scan.next '(')).defect? startsBranch limit ')' = none := by
    simp [defect?, hopened]
  constructor
  · intro rest
    rw [List.cons_append, run, hopen, List.append_assoc, List.singleton_append]
    simp only
    rw [hs.run_append, run, hclose]
    simp
  · rw [List.foldl_cons, List.foldl_append, List.foldl_cons, List.foldl_nil]
    show (s.foldl next (scan.next '(')).opened.tail = scan.opened
    rw [hopened, List.tail_cons]

end Scan

/-! ## Texts of the grammar -/

/-- The last character of an atom is an ordinary one or a closing parenthesis. -/
theorem Atom.startsBranch_getLast? {s : List Char} {p : Pattern} (h : Atom s p)
    (previous : Option Char) : startsBranch (s.getLast?.or previous) = false := by
  cases h with
  | literal h =>
    rcases h with ⟨hopen, _, hbar, _⟩
    simp [startsBranch, hopen, hbar]
  | group h => simp [startsBranch, List.getLast?_cons]

mutual

/-- A text of the grammar is clean wherever there is room for its groups, by mutual induction on the
derivation. What is used up of the limit is the number of groups that are open. -/
theorem Branches.clean {limit : Nat} {scan : Scan} {s : List Char} {branches : List Pattern}
    (h : Branches s branches) (hdepth : scan.opened.length + nestingAll branches ≤ limit) :
    Scan.Clean limit scan s := by
  match h with
  | .last hitems =>
    rw [nestingAll, nestingAll, nesting_ofItems, Nat.max_zero] at hdepth
    exact hitems.clean hdepth
  | @Branches.bar u v _ _ hitems hbranches =>
    rw [nestingAll, nesting_ofItems] at hdepth
    have hfirst : Scan.Clean limit scan u := hitems.clean (by omega)
    have hbar : Scan.Clean limit (u.foldl Scan.next scan) ['|'] := Scan.Clean.bar
    refine hfirst.append (hbar.append (hbranches.clean ?_))
    rw [hbar.opened, hfirst.opened]
    omega

theorem Items.clean {limit : Nat} {scan : Scan} {s : List Char} {items : List Pattern}
    (h : Items s items) (hdepth : scan.opened.length + nestingAll items ≤ limit) :
    Scan.Clean limit scan s := by
  match h with
  | .nil => exact Scan.Clean.nil
  | @Items.cons u v _ _ hatom quantifiers hitems =>
    rw [nestingAll, nesting_foldl_quantify] at hdepth
    have hfirst : Scan.Clean limit scan u := hatom.clean (by omega)
    have hprevious := hatom.startsBranch_getLast? scan.previous
    -- behind an atom no branch starts, so its quantifiers have something to repeat
    rw [← Scan.previous_foldl_next] at hprevious
    have hsecond : Scan.Clean limit (u.foldl Scan.next scan) _ :=
      Scan.Clean.quantifiers quantifiers hprevious
    refine hfirst.append (hsecond.append (hitems.clean ?_))
    rw [hsecond.opened, hfirst.opened]
    omega

theorem Atom.clean {limit : Nat} {scan : Scan} {s : List Char} {atom : Pattern}
    (h : Atom s atom) (hdepth : scan.opened.length + atom.nesting ≤ limit) :
    Scan.Clean limit scan s := by
  match h with
  | .literal hc => exact Scan.Clean.ordinary hc
  | .group hbranches =>
    rw [nesting, nesting_ofBranches] at hdepth
    refine Scan.Clean.group (by omega) (hbranches.clean ?_)
    simp only [Scan.next, if_pos, List.length_cons]
    omega

end

/-- From its start on, a text of the grammar is clean under any limit that its groups keep to. -/
theorem Branches.clean_start {limit : Nat} {s : List Char} {branches : List Pattern}
    (h : Branches s branches) (hdepth : nestingAll branches ≤ limit) :
    Scan.Clean limit Scan.start s := by
  apply h.clean
  rw [show Scan.start.opened.length = 0 from rfl, Nat.zero_add]
  exact hdepth

end PatternGraph.Pattern
