import PatternGraph.Compile
import PatternGraph.Proofs.Drawing.Textual
import PatternGraph.Proofs.Drawing.Tree
import Mathlib

/-!
# Compilation — the words that a compiled pattern accepts

The text of a pattern denotes one language, and the automaton drawn from its tree accepts the words
of that language. The textual descent has a language of its own for the text, and its automaton
accepts the words of that one.

Where a whole compilation is run in a proof, here and in the modules above this one, `cbv` runs it.
It asks for the equations of the state monad, which only the whole library has: hence the import.
-/

namespace PatternGraph

/-! ## One way of drawing or the other -/

namespace Options

/-- The options with drawing by textual descent. -/
def byText (options : Options) : Options :=
  { options with flags := { options.flags with legacy := true } }

/-- The options with drawing from the tree, a plus being strict or not. -/
def byTree (options : Options) (strict : Bool) : Options :=
  { options with flags := { options.flags with legacy := false, strictPlus := strict } }

end Options

/-- From the tree a text is parsed, then drawn as it was read. -/
theorem compile_byTree_eq (options : Options) (strict : Bool) (pattern : String) :
    compile (options.byTree strict) pattern =
      match Pattern.parse options (options.text pattern) with
      | .error e => .error (.ofPatternError e)
      | .ok p => Drawing.ofPattern strict p :=
  rfl

/-- A text over the length limit is refused before anything else is looked at. -/
theorem compile_of_length_gt {options : Options} {pattern : String}
    (h : options.maxLength < (options.text pattern).length) :
    compile options pattern
      = .error (.tooLong (options.text pattern).length options.maxLength) := by
  unfold compile
  simp only
  by_cases hlegacy : options.flags.legacy = true
  · rw [if_pos hlegacy, Drawing.ofText, String.length_toList, if_pos h]
  · rw [if_neg hlegacy, Pattern.parse, if_pos h]
    rfl

/-- By textual descent a text within the length limit is checked, then drawn as one slice. -/
theorem compile_textual_of_length_le {options : Options} {pattern : String}
    (hlegacy : options.flags.legacy = true)
    (h : (options.text pattern).length ≤ options.maxLength) :
    compile options pattern =
      match Pattern.check options.maxDepth (options.text pattern).toList with
      | .error e => .error (.ofPatternError e)
      | .ok () => Drawing.automaton fun p => Drawing.slice (options.text pattern).toList p p 0 := by
  have hlength : ¬(options.text pattern).toList.length > options.maxLength := by
    rw [String.length_toList]
    exact Nat.not_lt.2 h
  calc compile options pattern
    _ = Drawing.ofText options (options.text pattern).toList := if_pos hlegacy
    _ = _ := if_neg hlength

/-- From the tree a text within the length limit is read, then drawn as it was read. -/
theorem compile_tree_of_length_le {options : Options} {pattern : String}
    (hlegacy : options.flags.legacy = false)
    (h : (options.text pattern).length ≤ options.maxLength) :
    compile options pattern =
      match Pattern.read options.maxDepth (options.text pattern).toList with
      | .error e => .error (.ofPatternError e)
      | .ok p => Drawing.ofPattern options.flags.strictPlus p := by
  rw [← Pattern.parse_eq_read h]
  exact if_neg (Bool.eq_false_iff.1 hlegacy)

/-- A compilation that something is computed of has succeeded. -/
theorem exists_of_map_compile {α : Type} {options : Options} {pattern : String}
    {f : Automaton → α} {b : α} (h : (compile options pattern).map f = .ok b) :
    ∃ a, compile options pattern = .ok a ∧ f a = b := by
  cases hcompile : compile options pattern with
  | error e =>
    rw [hcompile] at h
    cases h
  | ok a =>
    rw [hcompile] at h
    exact ⟨a, rfl, Except.ok.inj h⟩

/-! ## Drawing from the tree -/

/-- Every tree has an automaton, and the automaton accepts the language of the tree. -/
theorem Drawing.exists_ofPattern (strict : Bool) (p : Pattern) :
    ∃ a, ofPattern strict p = .ok a ∧ a.WellFormed ∧
      ∀ text, a.accepts text = true ↔ text.toList ∈ p.language strict :=
  (realizes_tree strict p true wellFormed_initialState size_initialState_pos).accepts_iff

/-- A text that can be read denotes the language of its tree and no other. -/
theorem Pattern.branchesDenote_iff_of_parse {options : Options} {pattern : String} {p : Pattern}
    {strict : Bool} {L : Language Char} (h : parse options pattern = .ok p) :
    BranchesDenote strict pattern.toList L ↔ L = p.language strict := by
  rcases parse_eq_ok_iff.1 h with ⟨-, branches, hbranches, -, rfl⟩
  exact branchesDenote_iff hbranches

/-- Compiling a pattern from its tree is parsing it and drawing what was parsed. -/
theorem compile_tree_eq_ok_iff {options : Options} {pattern : String} {a : Automaton}
    (hlegacy : options.flags.legacy = false) :
    compile options pattern = .ok a ↔ ∃ p, Pattern.parse options (options.text pattern) = .ok p ∧
      Drawing.ofPattern options.flags.strictPlus p = .ok a := by
  unfold compile
  simp only [hlegacy, Bool.false_eq_true, if_false]
  cases Pattern.parse options (options.text pattern) with
  | error e =>
    constructor
    · intro h
      cases h
    · rintro ⟨p, hp, -⟩
      cases hp
  | ok p =>
    constructor
    · intro h
      exact ⟨p, rfl, h⟩
    · rintro ⟨p', hp', h⟩
      cases hp'
      exact h

/-- What can be read is compiled, to an automaton that accepts the language of the tree. -/
theorem exists_compile_of_parse {options : Options} {pattern : String} {p : Pattern}
    (hlegacy : options.flags.legacy = false)
    (hparse : Pattern.parse options (options.text pattern) = .ok p) :
    ∃ a, compile options pattern = .ok a ∧
      ∀ text, a.accepts text = true ↔ text.toList ∈ p.language options.flags.strictPlus := by
  rcases Drawing.exists_ofPattern options.flags.strictPlus p with ⟨a, ha, -, haccepts⟩
  exact ⟨a, (compile_tree_eq_ok_iff hlegacy).2 ⟨p, hparse, ha⟩, haccepts⟩

/-- Drawing from the tree never fails: a pattern that can be read has an automaton. -/
theorem exists_compile_tree_iff {options : Options} {pattern : String}
    (hlegacy : options.flags.legacy = false) :
    (∃ a, compile options pattern = .ok a) ↔
      ∃ p, Pattern.parse options (options.text pattern) = .ok p := by
  constructor
  · rintro ⟨a, ha⟩
    rcases (compile_tree_eq_ok_iff hlegacy).1 ha with ⟨p, hparse, -⟩
    exact ⟨p, hparse⟩
  · rintro ⟨p, hparse⟩
    rcases exists_compile_of_parse hlegacy hparse with ⟨a, ha, -⟩
    exact ⟨a, ha⟩

/-- An automaton compiled from the tree of a pattern accepts exactly the words of the language that
the text of the pattern denotes. -/
theorem compile_tree_accepts_iff {options : Options} {pattern : String} {a : Automaton}
    (hlegacy : options.flags.legacy = false) (h : compile options pattern = .ok a) :
    ∃ L, (∀ M, Pattern.BranchesDenote options.flags.strictPlus (options.text pattern).toList M
        ↔ M = L) ∧
      ∀ text, a.accepts text = true ↔ text.toList ∈ L := by
  rcases (exists_compile_tree_iff hlegacy).1 ⟨a, h⟩ with ⟨p, hparse⟩
  rcases exists_compile_of_parse hlegacy hparse with ⟨b, hb, haccepts⟩
  rw [hb] at h
  cases h
  exact ⟨_, fun M => Pattern.branchesDenote_iff_of_parse hparse, haccepts⟩

/-- In `(a*|b)c` the loop of the first branch keeps out of the second. -/
theorem compile_tree_accepts_iff_loop_in_branch :
    Options.standard.flags.legacy = false ∧
    ∃ a, compile Options.standard "(a*|b)c" = .ok a ∧
      ∃ L, (∀ M, Pattern.BranchesDenote Options.standard.flags.strictPlus
          (Options.standard.text "(a*|b)c").toList M ↔ M = L) ∧
        (∀ text, a.accepts text = true ↔ text.toList ∈ L) ∧
        "aac".toList ∈ L ∧ "bac".toList ∉ L := by
  -- both words are run at once, so that the pattern is compiled once
  have hrun : (match compile Options.standard "(a*|b)c" with
      | .ok a => (a.accepts "aac", a.accepts "bac")
      | .error _ => (false, true)) = (true, false) := by cbv
  cases hcompile : compile Options.standard "(a*|b)c" with
  | error e =>
    rw [hcompile] at hrun
    cases hrun
  | ok a =>
    rw [hcompile] at hrun
    rcases compile_tree_accepts_iff rfl hcompile with ⟨L, hL, haccepts⟩
    have hin : a.accepts "aac" = true := congrArg Prod.fst hrun
    have hout : a.accepts "bac" = false := congrArg Prod.snd hrun
    refine ⟨rfl, a, rfl, L, hL, haccepts, (haccepts _).1 hin, fun hmem => ?_⟩
    rw [(haccepts _).2 hmem] at hout
    cases hout

/-! ## Drawing from the text -/

/-- Compiling a pattern by textual descent is checking its text and drawing it as one slice. -/
theorem compile_textual_eq_ok_iff {options : Options} {pattern : String} {a : Automaton}
    (hlegacy : options.flags.legacy = true) :
    compile options pattern = .ok a ↔
      ((options.text pattern).toList.length ≤ options.maxLength ∧
        Pattern.check options.maxDepth (options.text pattern).toList = .ok ()) ∧
      Drawing.automaton (fun p => Drawing.slice (options.text pattern).toList p p 0) = .ok a := by
  unfold compile
  simp only [hlegacy, if_true]
  constructor
  · intro h
    have hlimits := Drawing.of_ofText_eq_ok h
    rw [Drawing.ofText_eq_automaton hlimits.1 hlimits.2] at h
    exact ⟨hlimits, h⟩
  · rintro ⟨⟨hlength, hcheck⟩, h⟩
    rwa [Drawing.ofText_eq_automaton hlength hcheck]

/-- Neither does textual descent: a text within the limits that passes the check has an
automaton. -/
theorem exists_compile_textual_iff {options : Options} {pattern : String}
    (hlegacy : options.flags.legacy = true) :
    (∃ a, compile options pattern = .ok a) ↔
      (options.text pattern).toList.length ≤ options.maxLength ∧
        Pattern.check options.maxDepth (options.text pattern).toList = .ok () := by
  constructor
  · rintro ⟨a, ha⟩
    exact ((compile_textual_eq_ok_iff hlegacy).1 ha).1
  · rintro ⟨hlength, hcheck⟩
    rcases Drawing.exists_ofText hlength hcheck with ⟨-, a, -, ha, -⟩
    rw [Drawing.ofText_eq_automaton hlength hcheck] at ha
    exact ⟨a, (compile_textual_eq_ok_iff hlegacy).2 ⟨⟨hlength, hcheck⟩, ha⟩⟩

/-- The text of a pattern that textual descent compiles is a slice, and the automaton accepts what
the slice stands for. -/
theorem exists_denotes_of_compile_textual {options : Options} {pattern : String} {a : Automaton}
    (hlegacy : options.flags.legacy = true) (h : compile options pattern = .ok a) :
    ∃ L, Pattern.SliceDenotes (options.text pattern).toList L ∧
      ∀ text, a.accepts text = true ↔ text.toList ∈ L := by
  rcases (compile_textual_eq_ok_iff hlegacy).1 h with ⟨⟨hlength, hcheck⟩, ha⟩
  rcases Drawing.exists_ofText hlength hcheck with ⟨L, b, hdenotes, hb, -, haccepts⟩
  rw [Drawing.ofText_eq_automaton hlength hcheck, ha] at hb
  cases hb
  exact ⟨L, hdenotes, haccepts⟩

/-- An automaton compiled by textual descent accepts exactly the words that the text of the pattern
stands for as a slice. -/
theorem compile_textual_accepts_iff {options : Options} {pattern : String} {a : Automaton}
    (hlegacy : options.flags.legacy = true) (h : compile options pattern = .ok a) :
    ∃ L, (∀ M, Pattern.SliceDenotes (options.text pattern).toList M ↔ M = L) ∧
      ∀ text, a.accepts text = true ↔ text.toList ∈ L := by
  rcases exists_denotes_of_compile_textual hlegacy h with ⟨L, hdenotes, haccepts⟩
  exact ⟨L, fun M => hdenotes.iff_eq, haccepts⟩

/-- In `(b*|a)+` the group is repeated from the state where its branches met, once at least, and the
star in the first branch stands for itself. -/
theorem compile_textual_accepts_iff_repeated_union :
    Options.legacy.flags.legacy = true ∧
    ∃ a, compile Options.legacy "(b*|a)+" = .ok a ∧
      ∃ L, (∀ M, Pattern.SliceDenotes (Options.legacy.text "(b*|a)+").toList M ↔ M = L) ∧
        (∀ text, a.accepts text = true ↔ text.toList ∈ L) ∧
        "ab*".toList ∈ L ∧ "a".toList ∉ L := by
  have hrun : (match compile Options.legacy "(b*|a)+" with
      | .ok a => (a.accepts "ab*", a.accepts "a")
      | .error _ => (false, true)) = (true, false) := by cbv
  cases hcompile : compile Options.legacy "(b*|a)+" with
  | error e =>
    rw [hcompile] at hrun
    cases hrun
  | ok a =>
    rw [hcompile] at hrun
    rcases compile_textual_accepts_iff rfl hcompile with ⟨L, hL, haccepts⟩
    have hin : a.accepts "ab*" = true := congrArg Prod.fst hrun
    have hout : a.accepts "a" = false := congrArg Prod.snd hrun
    refine ⟨rfl, a, rfl, L, hL, haccepts, (haccepts _).1 hin, fun hmem => ?_⟩
    rw [(haccepts _).2 hmem] at hout
    cases hout

end PatternGraph
