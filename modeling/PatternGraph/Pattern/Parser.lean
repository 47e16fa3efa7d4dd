import PatternGraph.Options
import PatternGraph.Pattern.Basic
import PatternGraph.Pattern.Cursor
import PatternGraph.Pattern.Error

/-!
# Reading patterns — the tree behind a text

The grammar, from the loosest binding to the tightest: branches with bars between them, items one
after the other, an item with its quantifiers, and an atom, which is a group or a character that
stands for itself. The readers follow the grammar from left to right and stop at the first defect.
-/

namespace PatternGraph.Pattern

/-- An item with all the quantifiers that stand directly behind it. -/
def readQuantifiers (item : Pattern) (c : Cursor) : Reading Pattern c 0 :=
  match h : c.peek.bind Quantifier.ofChar? with
  | none => ⟨item, c, Nat.le_refl _⟩
  | some quantifier =>
    let reading := readQuantifiers (item.quantify quantifier) c.advance
    ⟨reading.value, reading.next, by
      have := reading.length_le
      have := c.length_advance
      omega⟩
termination_by c.rest.length
decreasing_by
  obtain ⟨x, hx, _⟩ := Option.bind_eq_some_iff.1 h
  have := Cursor.length_pos_of_peek hx
  have := c.length_advance
  omega

mutual

/-- One branch or more, with bars between them. -/
def readBranches (limit : Nat) (c : Cursor) : Except PatternError (Reading (List Pattern) c 0) :=
  match readItems limit c with
  | .error e => .error e
  | .ok items =>
    match h : items.next.peek with
    | some '|' =>
      match readBranches limit items.next.advance with
      | .error e => .error e
      | .ok branches =>
        .ok ⟨ofItems items.value :: branches.value, branches.next, by
          have := items.length_le
          have := branches.length_le
          have := items.next.length_advance
          omega⟩
    | _ => .ok ⟨[ofItems items.value], items.next, items.length_le⟩
termination_by (c.rest.length, 3)
decreasing_by
  · simp [Prod.lex_def]
  · have := items.length_le
    have := items.next.length_advance
    have := Cursor.length_pos_of_peek h
    simp only [Prod.lex_def]
    omega

/-- Items one after the other, up to a bar, a closing parenthesis or the end. -/
def readItems (limit : Nat) (c : Cursor) : Except PatternError (Reading (List Pattern) c 0) :=
  match h : c.peek with
  | none | some '|' | some ')' => .ok ⟨[], c, Nat.le_refl _⟩
  | some _ =>
    match readRepetition limit c with
    | .error e => .error e
    | .ok item =>
      match readItems limit item.next with
      | .error e => .error e
      | .ok items =>
        .ok ⟨item.value :: items.value, items.next, by
          have := item.length_le
          have := items.length_le
          omega⟩
termination_by (c.rest.length, 2)
decreasing_by
  · simp [Prod.lex_def]
  · have := item.length_le
    have := Cursor.length_pos_of_peek h
    simp only [Prod.lex_def]
    omega

/-- An atom with the quantifiers behind it; a quantifier with no atom before it is refused. -/
def readRepetition (limit : Nat) (c : Cursor) : Except PatternError (Reading Pattern c 1) :=
  match c.peek with
  | some '*' => .error (.danglingQuantifier '*' c.position)
  | some '+' => .error (.danglingQuantifier '+' c.position)
  | _ =>
    match readAtom limit c with
    | .error e => .error e
    | .ok atom =>
      let item := readQuantifiers atom.value atom.next
      .ok ⟨item.value, item.next, Nat.le_trans item.length_le atom.length_le⟩
termination_by (c.rest.length, 1)
decreasing_by simp [Prod.lex_def]

/-- A group, or a character that stands for itself. -/
def readAtom (limit : Nat) (c : Cursor) : Except PatternError (Reading Pattern c 1) :=
  match h : c.peek with
  | none => .error (.unclosedGroup c.position)
  | some '(' =>
    if c.depth + 1 > limit then
      .error (.tooDeep limit c.position)
    else
      match readBranches limit c.openGroup with
      | .error e => .error e
      | .ok branches =>
        match branches.next.peek with
        | some ')' =>
          .ok ⟨group (ofBranches branches.value), branches.next.closeGroup, by
            have := branches.length_le
            have := c.length_openGroup
            have := branches.next.length_closeGroup
            omega⟩
        | _ => .error (.unclosedGroup c.position)
  | some x => .ok ⟨literal x, c.advance, Nat.le_of_eq c.length_advance⟩
termination_by (c.rest.length, 0)
decreasing_by
  have := c.length_openGroup
  have := Cursor.length_pos_of_peek h
  simp only [Prod.lex_def]
  omega

end

/-- The tree of a text with at most `limit` groups open at once. What the readers leave over starts
with a closing parenthesis, for nothing else stops them early. -/
def read (limit : Nat) (text : List Char) : Except PatternError Pattern :=
  match readBranches limit (Cursor.start text) with
  | .error e => .error e
  | .ok branches =>
    if branches.next.rest.isEmpty then
      .ok (ofBranches branches.value)
    else
      .error (.unopenedGroup branches.next.position)

/-- The tree of a pattern under the limits of the options, the limit on its length first. -/
def parse (options : Options) (pattern : String) : Except PatternError Pattern :=
  if pattern.length > options.maxLength then
    .error (.tooLong pattern.length options.maxLength)
  else
    read options.maxDepth pattern.toList

end PatternGraph.Pattern
