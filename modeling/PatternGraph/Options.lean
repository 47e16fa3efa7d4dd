/-!
# Options — how a pattern is read and drawn

Three switches and two limits. Outside the library the switches travel as one number, one bit
each; every other bit of such a number has no meaning and is dropped.
-/

namespace PatternGraph

/-! ## Switches -/

/-- The three switches of a compilation. -/
structure Flags where
  /-- Draw by textual descent instead of from the parsed pattern. -/
  legacy : Bool
  /-- A plus demands at least one repetition. -/
  strictPlus : Bool
  /-- Drop the blanks around the pattern first. -/
  trim : Bool
deriving Repr, DecidableEq

namespace Flags

/-- The switches that a number sets: bit 1 is `legacy`, bit 2 `strictPlus`, bit 3 `trim`. -/
def ofBits (bits : Nat) : Flags where
  legacy := bits.testBit 1
  strictPlus := bits.testBit 2
  trim := bits.testBit 3

/-- The number that sets exactly these switches. -/
def bits (flags : Flags) : Nat :=
  (if flags.legacy then 2 else 0) + (if flags.strictPlus then 4 else 0)
    + (if flags.trim then 8 else 0)

/-- Both sides' switches. -/
def insert (flags other : Flags) : Flags where
  legacy := flags.legacy || other.legacy
  strictPlus := flags.strictPlus || other.strictPlus
  trim := flags.trim || other.trim

/-- The switches without those of the other side. -/
def remove (flags other : Flags) : Flags where
  legacy := flags.legacy && !other.legacy
  strictPlus := flags.strictPlus && !other.strictPlus
  trim := flags.trim && !other.trim

/-- The switches with those of the other side reversed. -/
def toggle (flags other : Flags) : Flags where
  legacy := flags.legacy ^^ other.legacy
  strictPlus := flags.strictPlus ^^ other.strictPlus
  trim := flags.trim ^^ other.trim

/-- A number keeps its three meaningful bits and loses the others. -/
@[simp] theorem ofBits_bits (flags : Flags) : ofBits flags.bits = flags := by
  rcases flags with ⟨_ | _, _ | _, _ | _⟩ <;> rfl

end Flags

/-! ## Switches and limits together -/

/-- What a compilation is asked for. -/
structure Options where
  flags : Flags
  /-- The number of groups that may be open at once. -/
  maxDepth : Nat
  /-- The number of characters that a pattern may have. -/
  maxLength : Nat
deriving Repr, DecidableEq

namespace Options

/-- A strict plus, trimming, 64 nested groups and 4096 characters. -/
def standard : Options where
  flags := ⟨false, true, true⟩
  maxDepth := 64
  maxLength := 4096

/-- Textual descent and trimming, under the standard limits. -/
def legacy : Options :=
  { standard with flags := ⟨true, false, true⟩ }

end Options

end PatternGraph
