/-!
# Cursor — a place in the text of a pattern

A cursor holds the characters that are still to be read, the number of those already read and the
number of groups that are open. What a reading function yields is a `Reading`: a value, the cursor
behind it, and the bound on what is left that lets the readers recurse.
-/

namespace PatternGraph

/-- A place in the text of a pattern. -/
structure Cursor where
  /-- The characters still to be read. -/
  rest : List Char
  /-- The number of characters already read. -/
  position : Nat
  /-- The number of groups that are open here. -/
  depth : Nat
deriving Repr, DecidableEq

namespace Cursor

/-- The cursor before the first character of a text. -/
def start (text : List Char) : Cursor where
  rest := text
  position := 0
  depth := 0

/-- The next character, if the text goes on. -/
def peek (c : Cursor) : Option Char :=
  c.rest.head?

/-- The cursor behind the next character; at the end of the text it stays. -/
def advance (c : Cursor) : Cursor :=
  match c.rest with
  | [] => c
  | _ :: rest => { c with rest, position := c.position + 1 }

/-- The cursor behind an opening parenthesis, one group deeper. -/
def openGroup (c : Cursor) : Cursor :=
  { c.advance with depth := c.depth + 1 }

/-- The cursor behind a closing parenthesis, one group further out. -/
def closeGroup (c : Cursor) : Cursor :=
  { c.advance with depth := c.depth - 1 }

theorem rest_advance (c : Cursor) : c.advance.rest = c.rest.tail := by
  unfold advance
  split <;> simp [*]

theorem rest_openGroup (c : Cursor) : c.openGroup.rest = c.rest.tail :=
  c.rest_advance

theorem rest_closeGroup (c : Cursor) : c.closeGroup.rest = c.rest.tail :=
  c.rest_advance

/-- An advance takes one character, if there is one. -/
theorem length_advance (c : Cursor) : c.advance.rest.length = c.rest.length - 1 := by
  rw [rest_advance, List.length_tail]

theorem length_openGroup (c : Cursor) : c.openGroup.rest.length = c.rest.length - 1 :=
  c.length_advance

theorem length_closeGroup (c : Cursor) : c.closeGroup.rest.length = c.rest.length - 1 :=
  c.length_advance

/-- Where a character comes next, it is the first of what is left. -/
theorem rest_eq_cons {c : Cursor} {x : Char} (h : c.peek = some x) :
    c.rest = x :: c.advance.rest := by
  obtain ⟨rest, hrest⟩ := List.head?_eq_some_iff.1 h
  rw [rest_advance, hrest, List.tail_cons]

theorem length_pos_of_peek {c : Cursor} {x : Char} (h : c.peek = some x) : 0 < c.rest.length := by
  rw [rest_eq_cons h]
  exact Nat.succ_pos _

end Cursor

/-- A value that was read from the cursor `c` on, and the cursor behind it, before which at least
`taken` of the characters left at `c` have been taken. -/
structure Reading (α : Type) (c : Cursor) (taken : Nat) where
  value : α
  next : Cursor
  length_le : next.rest.length ≤ c.rest.length - taken

end PatternGraph
