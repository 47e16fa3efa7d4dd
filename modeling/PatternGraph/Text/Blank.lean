/-!
# Blank characters — trimming text at both ends

A property that the character standard gives is held as a table of ranges. Here are the characters
with the property White_Space, and the trimming of a text at both ends by that property. A
character outside the table is never trimmed, however invisible it prints (the zero-width space
U+200B stays).
-/

namespace PatternGraph.Text

/-- Ranges of code points, each as its first and its last one. -/
abbrev Ranges := List (Nat × Nat)

/-- Whether a character is inside one of the ranges. -/
def Ranges.contains (ranges : Ranges) (c : Char) : Bool :=
  ranges.any fun (first, last) => first ≤ c.toNat && c.toNat ≤ last

/-- The ranges of code points, ends included, that carry the property White_Space. -/
def blankRanges : Ranges :=
  [(0x09, 0x0D), (0x20, 0x20), (0x85, 0x85), (0xA0, 0xA0), (0x1680, 0x1680), (0x2000, 0x200A),
   (0x2028, 0x2029), (0x202F, 0x202F), (0x205F, 0x205F), (0x3000, 0x3000)]

/-- Whether a character carries the property White_Space. -/
def isBlank (c : Char) : Bool :=
  blankRanges.contains c

/-- A word without the blanks at its end. -/
def trimEnd (word : List Char) : List Char :=
  (word.reverse.dropWhile isBlank).reverse

/-- A word without the blanks at its two ends; blanks inside it stay. -/
def trimWord (word : List Char) : List Char :=
  trimEnd (word.dropWhile isBlank)

/-- A text without the blanks at its two ends. -/
def trim (text : String) : String :=
  String.ofList (trimWord text.toList)

/-! ## Laws of trimming -/

/-- What is left of a word stands in it in one piece. -/
theorem trimWord_infix (word : List Char) : trimWord word <:+: word := by
  have hend : ∀ w : List Char, trimEnd w <+: w := by
    intro w
    have hsuffix := List.dropWhile_suffix isBlank (l := w.reverse)
    rw [← List.reverse_prefix, List.reverse_reverse] at hsuffix
    exact hsuffix
  have hstart := List.dropWhile_suffix isBlank (l := word)
  exact (hend _).isInfix.trans hstart.isInfix

@[simp] theorem toList_trim (text : String) : (trim text).toList = trimWord text.toList := by
  simp [trim]

end PatternGraph.Text
