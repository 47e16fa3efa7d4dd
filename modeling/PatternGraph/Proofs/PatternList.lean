import PatternGraph.Proofs.Compile
import PatternGraph.Proofs.RegexEngine

/-!
# Pattern lists — verdicts of a library and of the automaton

A text that keeps to what patterns and regular expressions have in common is stored in a list if it
is compiled, and a string passes it there if the automaton accepts one of its prefixes. The library
is any that keeps the laws of `RegexEngine.Lawful`: by them a list accepts the texts of the grammar
and asks for the words of their language (`matchesAtStart_iff`), and so does the automaton.
-/

namespace PatternGraph

open Pattern RegexEngine

variable {engine : RegexEngine} {fits : String → Prop} {options : Options} {pattern : String}

namespace PatternList

/-! ## Lists -/

variable {stored : PatternList engine} {regex : engine.Compiled}

/-- A text that the library accepts is stored behind the others. -/
theorem add_of_compile (h : engine.compile pattern = some regex) :
    stored.add pattern = (true, ⟨stored.patterns ++ [regex]⟩) := by
  rw [add, h]

/-- A text that the library refuses changes nothing. -/
theorem add_of_none (h : engine.compile pattern = none) :
    stored.add pattern = (false, stored) := by
  rw [add, h]

/-- A list tells that it stores a pattern exactly if the library accepts the text. -/
theorem add_eq_true_iff :
    (stored.add pattern).1 = true ↔ ∃ regex, engine.compile pattern = some regex := by
  cases hcompile : engine.compile pattern with
  | some regex =>
    rw [add_of_compile hcompile]
    exact ⟨fun _ => ⟨regex, rfl⟩, fun _ => rfl⟩
  | none =>
    rw [add_of_none hcompile]
    constructor
    · intro h
      cases h
    · rintro ⟨regex, h⟩
      cases h

/-- A list shows the texts that it has stored, in the order in which they came; a text that is
refused leaves no trace. -/
theorem sources_add (hengine : engine.Lawful fits) :
    (stored.add pattern).2.sources =
      stored.sources ++ if (stored.add pattern).1 then [pattern] else [] := by
  cases hcompile : engine.compile pattern with
  | some regex =>
    rw [add_of_compile hcompile, sources, List.map_append, List.map_singleton,
      hengine.source_eq hcompile]
    rfl
  | none =>
    rw [add_of_none hcompile]
    exact (List.append_nil _).symm

/-- With one pattern stored, each string that is tried has the verdict of that pattern. -/
theorem mem_verdicts_iff {texts : List String} {text : String} {verdict : Bool}
    (hstored : stored.patterns = [regex]) :
    (text, verdict) ∈ stored.verdicts texts ↔
      text ∈ cleaned texts ∧ matchesAtStart regex text = verdict := by
  unfold verdicts
  rw [hstored]
  simp only [List.isEmpty_cons, Bool.false_eq_true, if_false, List.flatMap_cons, List.flatMap_nil,
    List.append_nil, List.mem_map, Prod.mk.injEq]
  constructor
  · rintro ⟨text', htext, rfl, hverdict⟩
    exact ⟨htext, hverdict⟩
  · rintro ⟨htext, hverdict⟩
    exact ⟨text, htext, rfl, hverdict⟩

/-- A string is tried without the blanks around it, unless nothing is left of it. -/
theorem trim_mem_cleaned {texts : List String} {s : String} (hs : s ∈ texts)
    (hblank : Text.trim s ≠ "") : Text.trim s ∈ cleaned texts := by
  unfold cleaned
  rw [List.mem_filter]
  refine ⟨List.mem_map_of_mem hs, ?_⟩
  rw [Bool.not_eq_true', ← Bool.not_eq_true, String.isEmpty_iff]
  exact hblank

end PatternList

/-! ## Library and automaton -/

/-- Under the standard switches, a pattern within the limits is compiled exactly if the grammar
gives its text a meaning, and then the automaton accepts the words of the language that it
denotes. -/
theorem compile_standard_iff (htrim : Text.trim pattern = pattern)
    (hflags : options.flags = Options.standard.flags)
    (hlength : pattern.length ≤ options.maxLength)
    (hdepth : ∀ n, (openGroups (pattern.toList.take n)).length ≤ options.maxDepth) :
    ((∃ a, compile options pattern = .ok a) ↔ ∃ L, BranchesDenote true pattern.toList L) ∧
    ∀ a L, compile options pattern = .ok a → BranchesDenote true pattern.toList L →
      ∀ word, a.accepts word = true ↔ word.toList ∈ L := by
  have hlegacy : options.flags.legacy = false := by rw [hflags]; rfl
  have hstrict : options.flags.strictPlus = true := by rw [hflags]; rfl
  have htext : options.text pattern = pattern := by
    unfold Options.text
    rw [hflags, htrim, ite_self]
  have hparse : parse options (options.text pattern) = read options.maxDepth pattern.toList := by
    rw [htext, parse_eq_read hlength]
  constructor
  · rw [exists_compile_tree_iff hlegacy, hparse]
    constructor
    · rintro ⟨p, hp⟩
      rcases read_eq_ok_iff.1 hp with ⟨branches, hbranches, -, -⟩
      exact ⟨_, hbranches.denote⟩
    · rintro ⟨L, hdenote⟩
      rcases hdenote.exists_branches with ⟨branches, hbranches, -⟩
      exact ⟨_, read_of_openGroups hbranches hdepth⟩
  · -- the text has one tree, and its language is the one that the text denotes
    intro a L ha hdenote word
    rcases hdenote.exists_branches with ⟨branches, hbranches, -⟩
    have hread := hparse.trans (read_of_openGroups hbranches hdepth)
    rcases exists_compile_of_parse hlegacy hread with ⟨b, hb, haccepts⟩
    cases ha.symm.trans hb
    rw [haccepts, hstrict, (branchesDenote_iff hbranches).1 hdenote]

/-- A text without the characters that only expressions give a meaning to, with no blanks around it
and within the limits of both sides, is stored in a list exactly if it is compiled under the
standard switches. Then a string passes it, alone in a list, if the automaton accepts a prefix of
the trimmed string, the empty one included. -/
theorem PatternList.agrees_with_compile {engine : RegexEngine} {fits : String → Prop}
    {options : Options} {pattern : String} (hengine : engine.Lawful fits)
    (hcommon : IsCommon pattern.toList) (hfits : fits pattern)
    (htrim : Text.trim pattern = pattern) (hflags : options.flags = Options.standard.flags)
    (hlength : pattern.length ≤ options.maxLength)
    (hdepth : ∀ n, (openGroups (pattern.toList.take n)).length ≤ options.maxDepth) :
    (∀ stored : PatternList engine,
      (stored.add pattern).1 = true ↔ ∃ a, compile options pattern = .ok a) ∧
    ∀ a, compile options pattern = .ok a → ∀ texts s, s ∈ texts → Text.trim s ≠ "" →
      ((Text.trim s, true) ∈ ((∅ : PatternList engine).add pattern).2.verdicts texts ↔
        ∃ u, u <+: (Text.trim s).toList ∧ a.accepts (String.ofList u) = true) := by
  rcases compile_standard_iff htrim hflags hlength hdepth with ⟨hcompiled, haccepts⟩
  constructor
  · intro stored
    rw [add_eq_true_iff, hengine.compile_iff hcommon hfits, hcompiled]
  · intro a ha texts s hs hblank
    rcases hcompiled.1 ⟨a, ha⟩ with ⟨L, hdenote⟩
    rcases (hengine.compile_iff hcommon hfits).2 ⟨L, hdenote⟩ with ⟨regex, hregex⟩
    have hmeans : engine.Means regex L := ⟨pattern, hcommon, hregex, hdenote⟩
    have hstored : ((∅ : PatternList engine).add pattern).2.patterns = [regex] := by
      rw [add_of_compile hregex]
      rfl
    rw [mem_verdicts_iff hstored, and_iff_right (trim_mem_cleaned hs hblank),
      matchesAtStart_iff hengine hmeans]
    -- a prefix is a word of the language exactly if the automaton accepts it
    constructor
    · rintro ⟨u, hu, hmem⟩
      refine ⟨u, hu, (haccepts a L ha hdenote _).2 ?_⟩
      rwa [String.toList_ofList]
    · rintro ⟨u, hu, haccepted⟩
      have hmem := (haccepts a L ha hdenote _).1 haccepted
      rw [String.toList_ofList] at hmem
      exact ⟨u, hu, hmem⟩

/-- In `(a*|)+b` a group that may be empty is repeated, and its second branch is empty. -/
theorem PatternList.agrees_with_compile_nullable_loop :
    IsCommon "(a*|)+b".toList ∧ Text.trim "(a*|)+b" = "(a*|)+b" ∧
    ((∅ : PatternList byDerivatives).add "(a*|)+b").1 = true ∧
    ("aabx", true) ∈
      ((∅ : PatternList byDerivatives).add "(a*|)+b").2.verdicts ["", " aabx\n"] := by
  have hcommon : IsCommon "(a*|)+b".toList := by decide
  have htrim : Text.trim "(a*|)+b" = "(a*|)+b" := by cbv
  have hlength : "(a*|)+b".length ≤ Options.standard.maxLength := by decide
  have hdepth : ∀ n, (openGroups ("(a*|)+b".toList.take n)).length ≤ Options.standard.maxDepth := by
    intro n
    calc (openGroups ("(a*|)+b".toList.take n)).length
      _ ≤ "(a*|)+b".toList.length := length_openGroups_take_le _ n
      _ ≤ Options.standard.maxDepth := by decide
  have hrun : (compile Options.standard "(a*|)+b").map (·.accepts "aab") = .ok true := by cbv
  rcases exists_of_map_compile hrun with ⟨a, hcompile, haccepts⟩
  rcases agrees_with_compile lawful_byDerivatives hcommon trivial htrim rfl hlength hdepth with
    ⟨hstored, hverdicts⟩
  have hcleaned : Text.trim " aabx\n" = "aabx" := by cbv
  have hblank : Text.trim " aabx\n" ≠ "" := by
    rw [hcleaned]
    decide
  have hverdict := hverdicts a hcompile ["", " aabx\n"] " aabx\n" (by decide) hblank
  rw [hcleaned] at hverdict
  have haccepts' : a.accepts (String.ofList "aab".toList) = true := by
    rw [String.ofList_toList]
    exact haccepts
  exact ⟨hcommon, htrim, (hstored ∅).2 ⟨a, hcompile⟩,
    hverdict.2 ⟨"aab".toList, ⟨['x'], rfl⟩, haccepts'⟩⟩

end PatternGraph
