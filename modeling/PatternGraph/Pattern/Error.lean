/-!
# Defects of a pattern — causes, messages and reports

A pattern that cannot be read is refused with the cause and the position of the defect, counted
in characters from zero. A report shows the message, the pattern and a caret in the column of the
defect; on a terminal its tag and its caret are coloured.
-/

namespace PatternGraph

/-! ## Marks of a report -/

/-- Whether the marks of a report are coloured. -/
inductive Style where
  | plain
  | coloured
deriving Repr, DecidableEq

namespace Style

/-- A report's tag in brackets, bold red where colours are shown. -/
def tag (style : Style) (text : String) : String :=
  match style with
  | plain => "[" ++ text ++ "]"
  | coloured => "\x1b[1;31m[" ++ text ++ "]\x1b[0m"

/-- The caret under a defect, green where colours are shown. -/
def caret : Style → String
  | plain => "^"
  | coloured => "\x1b[32m^\x1b[0m"

end Style

/-! ## Causes -/

/-- Why a pattern cannot be read. -/
inductive PatternError where
  /-- An opening parenthesis has no partner. -/
  | unclosedGroup (position : Nat)
  /-- A closing parenthesis has no partner. -/
  | unopenedGroup (position : Nat)
  /-- A quantifier stands where an item has to stand. -/
  | danglingQuantifier (quantifier : Char) (position : Nat)
  /-- An opening parenthesis would leave more groups open than the limit allows. -/
  | tooDeep (limit : Nat) (position : Nat)
  /-- The pattern has more characters than the limit allows. -/
  | tooLong (length : Nat) (limit : Nat)
deriving Repr, DecidableEq

namespace PatternError

/-- Where the defect is; a pattern that is too long has no one place. -/
def position? : PatternError → Option Nat
  | unclosedGroup position => some position
  | unopenedGroup position => some position
  | danglingQuantifier _ position => some position
  | tooDeep _ position => some position
  | tooLong _ _ => none

/-- The number under which a defect is reported. -/
def code : PatternError → String
  | unclosedGroup _ => "001"
  | unopenedGroup _ => "002"
  | danglingQuantifier _ _ => "003"
  | tooDeep _ _ => "004"
  | tooLong _ _ => "005"

/-- The defect in words. -/
def message : PatternError → String
  | unclosedGroup position =>
    "unbalanced parenthesis: '(' at position " ++ position.repr ++ " is never closed"
  | unopenedGroup position => "unexpected ')' at position " ++ position.repr
  | danglingQuantifier quantifier position =>
    "'" ++ quantifier.toString ++ "' at position " ++ position.repr ++ " has no preceding atom"
  | tooDeep limit position =>
    "groups nested deeper than " ++ limit.repr ++ " at position " ++ position.repr
  | tooLong length limit =>
    "pattern is " ++ length.repr ++ " characters long, the limit is " ++ limit.repr

/-- The line under a report's pattern: a margin as wide as the pattern's own, and the caret in
the column of the defect. -/
def caretLine (style : Style) (position : Nat) : String :=
  " | " ++ String.ofList (List.replicate position ' ') ++ style.caret

/-- The message under its tag and, where the defect has a place, the pattern with a caret under
that place. -/
def report (error : PatternError) (style : Style) (pattern : String) : String :=
  let header := style.tag error.code ++ " " ++ error.message
  match error.position? with
  | some position => header ++ ":\n | " ++ pattern ++ "\n" ++ caretLine style position
  | none => header

end PatternError

end PatternGraph
