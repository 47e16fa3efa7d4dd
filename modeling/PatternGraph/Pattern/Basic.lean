/-!
# Patterns — the tree of a pattern's text

A pattern is built from literal characters by juxtaposition, by a bar between branches, by the
quantifiers star and plus behind an item, and by parentheses, which are kept in the tree. The
smart constructors build the trees that a reader of text builds: they add no node that
the text does not show.
-/

namespace PatternGraph

/-! ## Quantifiers -/

/-- How often an item may stand in a row. -/
inductive Quantifier where
  | zeroOrMore
  | oneOrMore
deriving Repr, DecidableEq

namespace Quantifier

/-- The quantifier that a character writes, if it writes one. -/
def ofChar? : Char → Option Quantifier
  | '*' => some zeroOrMore
  | '+' => some oneOrMore
  | _ => none

/-- The character that writes a quantifier. -/
def toChar : Quantifier → Char
  | zeroOrMore => '*'
  | oneOrMore => '+'

/-- The quantifier that says what two in a row say: only two pluses still demand an item. -/
def stack : Quantifier → Quantifier → Quantifier
  | oneOrMore, oneOrMore => oneOrMore
  | _, _ => zeroOrMore

@[simp] theorem ofChar?_toChar (q : Quantifier) : ofChar? q.toChar = some q := by
  cases q <;> rfl

end Quantifier

/-! ## Trees -/

/-- The tree of a pattern. -/
inductive Pattern where
  /-- Nothing at all: the empty word. -/
  | empty
  /-- One character that stands for itself. -/
  | literal (c : Char)
  /-- Items one after the other. -/
  | concat (items : List Pattern)
  /-- One of several branches. -/
  | alternation (branches : List Pattern)
  /-- An item in a row. -/
  | closure (item : Pattern) (quantifier : Quantifier)
  /-- A pattern in parentheses. -/
  | group (inner : Pattern)
deriving Repr

namespace Pattern

mutual

/-- Whether two trees are equal, node by node. -/
def beq : Pattern → Pattern → Bool
  | empty, empty => true
  | literal c, literal d => c == d
  | concat ps, concat qs => beqAll ps qs
  | alternation ps, alternation qs => beqAll ps qs
  | closure p s, closure q t => beq p q && s == t
  | group p, group q => beq p q
  | _, _ => false

/-- Whether two lists of trees are equal, tree by tree. -/
def beqAll : List Pattern → List Pattern → Bool
  | [], [] => true
  | p :: ps, q :: qs => beq p q && beqAll ps qs
  | _, _ => false

end

mutual

/-- Comparison node by node decides equality. -/
theorem beq_iff : ∀ p q : Pattern, beq p q = true ↔ p = q
  | empty, q => by cases q <;> simp [beq]
  | literal c, q => by cases q <;> simp [beq]
  | concat ps, q => by cases q <;> simp [beq, beqAll_iff ps]
  | alternation ps, q => by cases q <;> simp [beq, beqAll_iff ps]
  | closure p s, q => by cases q <;> simp [beq, beq_iff p]
  | group p, q => by cases q <;> simp [beq, beq_iff p]

theorem beqAll_iff : ∀ ps qs : List Pattern, beqAll ps qs = true ↔ ps = qs
  | [], qs => by cases qs <;> simp [beqAll]
  | p :: ps, qs => by cases qs <;> simp [beqAll, beq_iff p, beqAll_iff ps]

end

instance : DecidableEq Pattern :=
  fun p q => decidable_of_iff _ (beq_iff p q)

/-- The character of a pattern that is one literal. -/
def literal? : Pattern → Option Char
  | literal c => some c
  | _ => none

/-! ## Smart constructors -/

/-- The sequence of these items: none is the empty pattern, and a lone one stands for itself. -/
def ofItems : List Pattern → Pattern
  | [] => empty
  | [item] => item
  | items => concat items

/-- The choice between these branches, of which a lone one stands for itself. -/
def ofBranches : List Pattern → Pattern
  | [branch] => branch
  | branches => alternation branches

/-- An item with one more quantifier behind it: the quantifiers in a row become one. -/
def quantify : Pattern → Quantifier → Pattern
  | closure item previous, quantifier => closure item (previous.stack quantifier)
  | item, quantifier => closure item quantifier

/-! ## Text

The text of a tree is written node by node, with no parentheses but those of its groups. A tree
that no text describes (a starred sequence, a literal parenthesis) is written all the same, and
its text then reads back as another tree or not at all. -/

mutual

/-- The characters of a tree's text. -/
def chars : Pattern → List Char
  | empty => []
  | literal c => [c]
  | concat items => itemChars items
  | alternation branches => branchChars branches
  | closure item quantifier => item.chars ++ [quantifier.toChar]
  | group inner => '(' :: inner.chars ++ [')']

/-- The characters of items one after the other. -/
def itemChars : List Pattern → List Char
  | [] => []
  | item :: items => item.chars ++ itemChars items

/-- The characters of branches with a bar between two of them. -/
def branchChars : List Pattern → List Char
  | [] => []
  | [branch] => branch.chars
  | branch :: branches => branch.chars ++ '|' :: branchChars branches

end

/-- The text of a tree. -/
def render (p : Pattern) : String :=
  String.ofList p.chars

@[simp] theorem toList_render (p : Pattern) : p.render.toList = p.chars := by
  simp [render]

end Pattern

end PatternGraph
