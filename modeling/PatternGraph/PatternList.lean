import PatternGraph.Text.Blank

/-!
# Pattern lists — stored patterns, tried on strings

A list keeps the patterns that a library of regular expressions accepts, in the order in which they
came and as often as they came. Whatever a pattern means is up to that library: it is a parameter
here, by the functions that a list calls. A string passes a pattern if the match that the library
finds in it begins with the string, so what follows the match does not matter.
-/

namespace PatternGraph

/-! ## The library -/

/-- Where a match begins and where it ends in a text, counted in bytes. -/
structure RegexEngine.Match where
  start : Nat
  stop : Nat
deriving Repr, DecidableEq

/-- A library of regular expressions, as far as a pattern list calls it. -/
structure RegexEngine where
  /-- What the library makes of a pattern. -/
  Compiled : Type
  /-- The library's reading of a pattern, unless it refuses the text. -/
  compile : String → Option Compiled
  /-- The text that was compiled. -/
  source : Compiled → String
  /-- The match that the library finds in a text, if it finds one. -/
  find : Compiled → String → Option RegexEngine.Match

/-! ## Lists -/

/-- Patterns in the order in which they were stored. -/
structure PatternList (engine : RegexEngine) where
  patterns : List engine.Compiled

namespace PatternList

variable {engine : RegexEngine}

/-- The list with no patterns: a new list, and what is left when a list is cleared. -/
def empty : PatternList engine :=
  ⟨[]⟩

instance : EmptyCollection (PatternList engine) := ⟨empty⟩

/-- Stores a pattern if the library accepts it, and tells whether it does. -/
def add (stored : PatternList engine) (source : String) : Bool × PatternList engine :=
  match engine.compile source with
  | some pattern => (true, ⟨stored.patterns ++ [pattern]⟩)
  | none => (false, stored)

/-- The texts of the stored patterns. -/
def sources (stored : PatternList engine) : List String :=
  stored.patterns.map engine.source

/-- Whether the match that is found in a text, if there is one, begins with the text. -/
def matchesAtStart (pattern : engine.Compiled) (text : String) : Bool :=
  match engine.find pattern text with
  | some found => found.start == 0
  | none => false

/-- The strings that are tried: without the blanks around them, and only if something is left. -/
def cleaned (texts : List String) : List String :=
  (texts.map Text.trim).filter (!·.isEmpty)

/-- Each cleaned string with the verdict of each pattern, all strings for the first pattern, then
all for the next. Without patterns each string fails once. -/
def verdicts (stored : PatternList engine) (texts : List String) : List (String × Bool) :=
  if stored.patterns.isEmpty then
    (cleaned texts).map fun text => (text, false)
  else
    stored.patterns.flatMap fun pattern =>
      (cleaned texts).map fun text => (text, matchesAtStart pattern text)

/-! ## Patterns in words -/

/-- One character of a pattern in words. -/
def describeChar (c : Char) : String :=
  match c with
  | '.' => "any character except a newline"
  | '*' => "zero or more repetitions of the previous item"
  | '+' => "one or more repetitions of the previous item"
  | '?' => "zero or one repetition of the previous item"
  | '^' => "start of the string"
  | '$' => "end of the string"
  | '|' => "or"
  | '(' => "start of group"
  | ')' => "end of group"
  | c => "'" ++ c.toString ++ "'"

/-- The line of a pattern: its text, then its characters in words. -/
def describePattern (source : String) : String :=
  "Pattern: " ++ source ++ " " ++ " ".intercalate (source.toList.map describeChar)

/-- A line for each stored pattern. -/
def describe (stored : PatternList engine) : String :=
  if stored.patterns.isEmpty then
    "No regular expression patterns are set."
  else
    "\n".intercalate (stored.sources.map describePattern)

end PatternList

end PatternGraph
