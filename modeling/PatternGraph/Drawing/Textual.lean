import PatternGraph.Drawing.Basic
import PatternGraph.Options
import PatternGraph.Pattern.Parentheses

/-!
# Drawing a text — an automaton without a tree

The older way to draw, kept so that drawings made with it can be made again. It descends into the
text itself, and its rules are its own:

1. The first bar that is met in a slice of the text (the whole, or the inside of a group) turns
   the whole slice into a union, cut at every bar whatever its nesting. Inside a branch
   parentheses and quantifiers stand for themselves.
2. A quantifier behind a group draws the group's text once more, from where its first drawing
   ended, with an ε edge back: at least two passes.
3. A quantifier behind a character loops on the state that the character led to: at least one
   pass. Star and plus mean the same.
-/

namespace PatternGraph.Drawing

/-! ## Unions -/

/-- A text cut at every bar. -/
def pieces : List Char → List (List Char)
  | [] => [[]]
  | c :: rest =>
    if c = '|' then [] :: pieces rest
    else
      match pieces rest with
      | [] => [[c]]
      | piece :: others => (c :: piece) :: others

/-- A chain of characters from `current` that ends in `join`; the empty chain adds nothing. -/
def chain (current join : StateId) : List Char → Drawing Unit
  | [] => pure ()
  | [c] => addEdge current (.char c) join
  | c :: rest => do
    let next ← newState
    addEdge current (.char c) next
    chain next join rest

/-- A chain for each piece of a text, from `entry` to one state where all of them meet. -/
def union (entry : StateId) (text : List Char) : Drawing StateId := do
  let join ← newState
  (pieces text).forM (chain entry join)
  pure join

/-! ## What a quantifier repeats -/

/-- What stands before a quantifier. -/
inductive Repeated where
  /-- One character. -/
  | letter (c : Char)
  /-- A group, by the text inside it. -/
  | group (inner : List Char)
deriving Repr, DecidableEq

/-- What the quantifier `q` at an index of a text repeats. -/
def repeatedAt (text : List Char) (q : Char) (index : Nat) : Except PatternError Repeated :=
  match index with
  | 0 => .error (.danglingQuantifier q 0)
  | previous + 1 =>
    match text[previous]? with
    | none => .error (.danglingQuantifier q index)
    | some c =>
      if c = ')' then
        match Pattern.openingOf text previous with
        | .ok opening => .ok (.group (Pattern.between text opening previous))
        | .error e => .error e
      else if Pattern.isRepeatable (some c) then .ok (.letter c)
      else .error (.danglingQuantifier q index)

/-- A group that a quantifier repeats is shorter than the text it stands in, without its
parentheses. -/
theorem length_lt_of_repeatedAt {text inner : List Char} {q : Char} {index : Nat}
    (hi : index < text.length) (h : repeatedAt text q index = .ok (.group inner)) :
    inner.length < text.length := by
  cases index with
  | zero => cases h
  | succ previous =>
    simp only [repeatedAt] at h
    split at h
    · cases h
    · split at h
      · split at h
        · -- the closing parenthesis stands before the quantifier, so it is no part of the group
          next opening _ =>
          cases h
          have := Pattern.length_between_le text opening previous
          omega
        · cases h
      · split at h <;> cases h

/-! ## The descent -/

/-- Draws a slice of the text from index `index` on, `current` being the state reached so far and
`entry` the state where the slice starts. -/
def slice (text : List Char) (entry current : StateId) (index : Nat) : Drawing StateId :=
  match h : text[index]? with
  | none => pure current
  | some '|' => union entry text
  | some '(' =>
    match hc : Pattern.closingOf text index with
    | .error e => throw (.ofPatternError e)
    | .ok closing => do
      let exit ← slice (Pattern.between text index closing) current current 0
      slice text entry exit (closing + 1)
  | some c =>
    if c = '*' ∨ c = '+' then
      match hr : repeatedAt text c index with
      | .error e => throw (.ofPatternError e)
      | .ok (.letter c) => do
        addEdge current (.char c) current
        slice text entry current (index + 1)
      | .ok (.group inner) => do
        let exit ← slice inner current current 0
        link exit current
        slice text entry exit (index + 1)
    else do
      let next ← newState
      addEdge current (.char c) next
      slice text entry next (index + 1)
termination_by (text.length, text.length - index)
decreasing_by
  all_goals
    have hi : index < text.length := (List.getElem?_eq_some_iff.1 h).1
    simp only [Prod.lex_def, true_and]
  · have := Pattern.length_between_le text index closing
    omega
  · have := Pattern.le_of_closingOf hc
    omega
  · omega
  · have := length_lt_of_repeatedAt hi hr
    omega
  · omega
  · omega

/-- The automaton of a text, checked first under the limits of the options. -/
def ofText (options : Options) (text : List Char) : Except CompileError Automaton :=
  if text.length > options.maxLength then
    .error (.tooLong text.length options.maxLength)
  else
    match Pattern.check options.maxDepth text with
    | .error e => .error (.ofPatternError e)
    | .ok () => automaton fun initial => slice text initial initial 0

end PatternGraph.Drawing
