import PatternGraph.Pattern.Basic

/-!
# Grammar — the texts that have a tree

The grammar of patterns as a relation between texts and trees, with no word on how a text is read.
A text of branches is items between bars, items are atoms with the quantifiers behind them, and an
atom is one ordinary character or branches in parentheses. Next to it stands the nesting of a tree,
which is the number of groups that its text has open at once.
-/

namespace PatternGraph

/-- A character with no meaning of its own in a pattern. -/
def IsOrdinary (c : Char) : Prop :=
  c ≠ '(' ∧ c ≠ ')' ∧ c ≠ '|' ∧ c ≠ '*' ∧ c ≠ '+'

namespace Quantifier

/-- A quantifier is written as one of two characters. -/
theorem toChar_eq (q : Quantifier) : q.toChar = '*' ∨ q.toChar = '+' := by
  cases q with
  | zeroOrMore => exact .inl rfl
  | oneOrMore => exact .inr rfl

/-- And read from the character that it is written as. -/
theorem ofChar?_eq_some_iff {c : Char} {q : Quantifier} : ofChar? c = some q ↔ c = q.toChar := by
  constructor
  · intro h
    unfold ofChar? at h
    split at h
    · cases h
      rfl
    · cases h
      rfl
    · cases h
  · intro h
    rw [h, ofChar?_toChar]

end Quantifier

namespace Pattern

/-! ## The grammar -/

mutual

/-- Texts of one branch or more with bars between them, and the trees of the branches. -/
inductive Branches : List Char → List Pattern → Prop where
  | last {s : List Char} {items : List Pattern} (h : Items s items) : Branches s [ofItems items]
  | bar {s t : List Char} {items branches : List Pattern} (h : Items s items)
    (h' : Branches t branches) : Branches (s ++ '|' :: t) (ofItems items :: branches)

/-- Texts of items one after the other, and the trees of the items. -/
inductive Items : List Char → List Pattern → Prop where
  | nil : Items [] []
  | cons {s t : List Char} {atom : Pattern} {items : List Pattern} (h : Atom s atom)
    (quantifiers : List Quantifier) (h' : Items t items) :
    Items (s ++ (quantifiers.map Quantifier.toChar ++ t)) (quantifiers.foldl quantify atom :: items)

/-- Texts of an atom, and its tree. -/
inductive Atom : List Char → Pattern → Prop where
  | literal {c : Char} (h : IsOrdinary c) : Atom [c] (literal c)
  | group {s : List Char} {branches : List Pattern} (h : Branches s branches) :
    Atom ('(' :: (s ++ [')'])) (group (ofBranches branches))

end

/-! ## Nesting -/

mutual

/-- The number of groups inside one another in a tree. -/
def nesting : Pattern → Nat
  | empty => 0
  | literal _ => 0
  | concat items => nestingAll items
  | alternation branches => nestingAll branches
  | closure item _ => item.nesting
  | group inner => inner.nesting + 1

/-- The largest nesting among trees. -/
def nestingAll : List Pattern → Nat
  | [] => 0
  | p :: ps => max p.nesting (nestingAll ps)

end

@[simp] theorem nesting_ofItems (items : List Pattern) :
    (ofItems items).nesting = nestingAll items := by
  match items with
  | [] => rfl
  | [item] => simp [ofItems, nestingAll]
  | _ :: _ :: _ => rfl

@[simp] theorem nesting_ofBranches (branches : List Pattern) :
    (ofBranches branches).nesting = nestingAll branches := by
  match branches with
  | [] => rfl
  | [branch] => simp [ofBranches, nestingAll]
  | _ :: _ :: _ => rfl

/-- A quantifier is no group. -/
@[simp] theorem nesting_quantify (p : Pattern) (q : Quantifier) :
    (p.quantify q).nesting = p.nesting := by
  cases p <;> rfl

@[simp] theorem nesting_foldl_quantify (p : Pattern) (quantifiers : List Quantifier) :
    (quantifiers.foldl quantify p).nesting = p.nesting := by
  induction quantifiers generalizing p with
  | nil => rfl
  | cons q quantifiers ih => rw [List.foldl_cons, ih, nesting_quantify]

end Pattern

end PatternGraph
