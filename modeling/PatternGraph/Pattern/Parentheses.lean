import PatternGraph.Pattern.Error

/-!
# Parentheses in a text — pairing them by their indices

A text is looked at as it stands, without a tree: the index where the group that opens at an index
closes, the index where the group that closes at an index opens, and the check that every
parenthesis has a partner, every quantifier has something to repeat, and no more groups are open
at once than a limit allows.
-/

namespace PatternGraph.Pattern

/-! ## Partners -/

/-- The index of the closing parenthesis behind which no group is open any more, reading a text
that starts at `index` with `level` groups open. Where more groups close than have been opened, the
level sinks below zero and the search goes on. -/
def closingIndex (level : Int) (index : Nat) : List Char → Option Nat
  | [] => none
  | c :: rest =>
    if c = '(' then closingIndex (level + 1) (index + 1) rest
    else if c = ')' then
      if level - 1 = 0 then some index else closingIndex (level - 1) (index + 1) rest
    else closingIndex level (index + 1) rest

/-- The index of the opening parenthesis before which no group is left to be opened, reading
backwards a text whose last character has index `index - 1` with `level` groups closed. -/
def openingIndex (level : Int) (index : Nat) : List Char → Option Nat
  | [] => none
  | c :: before =>
    if c = ')' then openingIndex (level + 1) (index - 1) before
    else if c = '(' then
      if level - 1 = 0 then some (index - 1) else openingIndex (level - 1) (index - 1) before
    else openingIndex level (index - 1) before

/-- Where the group that opens at index `opening` of a text closes. -/
def closingOf (text : List Char) (opening : Nat) : Except PatternError Nat :=
  match closingIndex 0 opening (text.drop opening) with
  | some closing => .ok closing
  | none => .error (.unclosedGroup opening)

/-- Where the group that closes at index `closing` of a text opens. -/
def openingOf (text : List Char) (closing : Nat) : Except PatternError Nat :=
  match openingIndex 0 (closing + 1) (text.take (closing + 1)).reverse with
  | some opening => .ok opening
  | none => .error (.unopenedGroup closing)

/-- The text strictly between two indices. -/
def between (text : List Char) (opening closing : Nat) : List Char :=
  (text.take closing).drop (opening + 1)

/-- A search forwards finds nothing before the place where it starts. -/
theorem le_of_closingIndex {level : Int} {index closing : Nat} {rest : List Char}
    (h : closingIndex level index rest = some closing) : index ≤ closing := by
  induction rest generalizing level index with
  | nil => simp [closingIndex] at h
  | cons c rest ih =>
    simp only [closingIndex] at h
    split at h
    · exact Nat.le_of_succ_le (ih h)
    · split at h
      · split at h
        · cases h; exact Nat.le_refl _
        · exact Nat.le_of_succ_le (ih h)
      · exact Nat.le_of_succ_le (ih h)

/-- So a group does not close before it opens. -/
theorem le_of_closingOf {text : List Char} {opening closing : Nat}
    (h : closingOf text opening = .ok closing) : opening ≤ closing := by
  simp only [closingOf] at h
  split at h
  · next hc => cases h; exact le_of_closingIndex hc
  · cases h

/-- What stands between two indices is shorter than the text; a descent into it comes to an end. -/
theorem length_between_le (text : List Char) (opening closing : Nat) :
    (between text opening closing).length ≤ text.length - (opening + 1) := by
  simp only [between, List.length_drop, List.length_take]
  omega

/-! ## The check -/

/-- Whether a quantifier may stand directly behind a character: there has to be one, and it is
none that opens a group, starts a branch or is a quantifier itself. -/
def isRepeatable : Option Char → Bool
  | none => false
  | some c => c != '(' && c != '|' && c != '*' && c != '+'

/-- Checks the characters from index `position` on, given the character before them and the
indices of the groups that are open, the innermost first. -/
def checkFrom (limit position : Nat) (opened : List Nat) (previous : Option Char) :
    List Char → Except PatternError Unit
  | [] =>
    match opened with
    | [] => .ok ()
    | innermost :: _ => .error (.unclosedGroup innermost)
  | c :: rest =>
    if c = '(' then
      if opened.length + 1 > limit then .error (.tooDeep limit position)
      else checkFrom limit (position + 1) (position :: opened) (some c) rest
    else if c = ')' then
      match opened with
      | [] => .error (.unopenedGroup position)
      | _ :: outer => checkFrom limit (position + 1) outer (some c) rest
    else if (c = '*' || c = '+') && !isRepeatable previous then
      .error (.danglingQuantifier c position)
    else
      checkFrom limit (position + 1) opened (some c) rest

/-- Checks a text: the first defect from the left, or else the innermost group left open. Unlike a
reader of trees it refuses a quantifier behind a quantifier. -/
def check (limit : Nat) (text : List Char) : Except PatternError Unit :=
  checkFrom limit 0 [] none text

end PatternGraph.Pattern
