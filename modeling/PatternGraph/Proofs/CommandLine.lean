import PatternGraph.CommandLine
import PatternGraph.Proofs.Compile
import PatternGraph.Proofs.Text.Quoted
import Mathlib.Data.List.Basic

/-!
# Command line — what a run writes tells what it was asked

1. Whatever the environment, the pattern is compiled without the blanks around it, so a report is
   about the text that was looked at (`Environment.text_options`).
2. A verdict is one line that tells the string and the verdict on it (`verdictText_inj`), and lines
   without line breaks inside are told apart (`Text.ConsistsOf.unique`).
3. `run_frames_verdicts` puts both together for a whole run.
-/

namespace PatternGraph

/-! ## Lines of a text -/

/-- A text is these lines: a line break stands behind each of them, and none inside. -/
structure Text.ConsistsOf (text : String) (lines : List (List Char)) : Prop where
  toList : text.toList = lines.flatMap (· ++ ['\n'])
  unbroken : ∀ line ∈ lines, '\n' ∉ line

/-- Splitting a text at its line breaks gives its lines back, and nothing behind the last of them.
-/
theorem Text.ConsistsOf.splitOn {text : String} {lines : List (List Char)}
    (h : ConsistsOf text lines) : text.toList.splitOn '\n' = lines ++ [[]] := by
  rw [h.toList]
  have hunbroken := h.unbroken
  clear h
  -- line by line; what is left of the text consists of the lines that are left
  induction lines with
  | nil => exact List.splitOn_nil '\n'
  | cons line lines ih =>
    have hline : '\n' ∉ line := hunbroken line List.mem_cons_self
    have hlines : ∀ line ∈ lines, '\n' ∉ line := by
      intro other hother
      exact hunbroken other (List.mem_cons_of_mem line hother)
    rw [List.flatMap_cons, List.append_assoc, List.singleton_append,
      List.splitOn_append_cons_self_of_not_mem hline, ih hlines]
    rfl

/-- There is one way to take a text apart into lines. -/
theorem Text.ConsistsOf.unique {text : String} {lines lines' : List (List Char)}
    (h : ConsistsOf text lines) (h' : ConsistsOf text lines') : lines = lines' := by
  have hsplit := h.splitOn
  rw [h'.splitOn] at hsplit
  exact (List.append_cancel_right hsplit).symm

namespace CommandLine

variable {a : Automaton} {text text' : String} {accepted accepted' : Bool}

/-! ## Options -/

/-- Textual descent never has a strict plus; drawing from the tree has one unless it is switched
off. The blanks around a pattern are dropped under every environment. -/
theorem Environment.flags_options (env : Environment) :
    env.options.flags = ⟨isOn env.legacy, !isOn env.legacy && !isOn env.laxPlus, true⟩ := by
  unfold options
  cases isOn env.legacy <;> cases isOn env.laxPlus <;> rfl

/-- The command line compiles what is left of a pattern without the blanks around it. -/
theorem Environment.text_options (env : Environment) (pattern : String) :
    env.options.text pattern = Text.trim pattern := by
  rw [Options.text, env.flags_options]
  rfl

/-! ## Verdicts -/

/-- A verdict on a string, without its line break. -/
def verdictText (text : String) (accepted : Bool) : List Char :=
  (Text.quote text).toList ++ (if accepted then ": accepted" else ": rejected").toList

theorem toList_verdictLine (a : Automaton) (text : String) :
    (verdictLine a text).toList = verdictText text (a.accepts text) ++ ['\n'] := by
  unfold verdictLine verdictText
  cases a.accepts text <;> simp [String.toList_append]

/-- A verdict tells the string, whatever the string spells, and what was said of it. -/
theorem verdictText_inj (h : verdictText text accepted = verdictText text' accepted') :
    -- behind the two quoted strings the verdicts are left, and these differ in their words
    text = text' ∧ accepted = accepted' := by
  obtain ⟨hsame, hbehind⟩ := Text.quote_append_inj h
  refine ⟨hsame, ?_⟩
  cases accepted with
  | false =>
    cases accepted' with
    | false => rfl
    | true => simp at hbehind
  | true =>
    cases accepted' with
    | false => simp at hbehind
    | true => rfl

/-- A verdict is on one line whatever the string is, since line breaks are quoted. -/
theorem newline_notMem_verdictText (text : String) (accepted : Bool) :
    '\n' ∉ verdictText text accepted := by
  intro h
  rcases List.mem_append.1 h with hquote | hverdict
  · exact Text.newline_notMem_quote text hquote
  · revert hverdict
    cases accepted <;> decide

/-- The lines that tell the verdicts on some strings. -/
def verdictTexts (a : Automaton) (texts : List String) : List (List Char) :=
  texts.map fun text => verdictText text (a.accepts text)

/-- What the runs write for some strings consists of the verdicts on them. -/
theorem consistsOf_verdictTexts (a : Automaton) (texts : List String) :
    Text.ConsistsOf (String.join (texts.map (verdictLine a))) (verdictTexts a texts) := by
  constructor
  · simp only [String.toList_join, verdictTexts, List.flatMap_map, toList_verdictLine]
  · intro line hline
    obtain ⟨text, -, rfl⟩ := List.mem_map.1 hline
    exact newline_notMem_verdictText text _

/-- The lines tell all the strings and the verdicts on them, and not which automaton gave them. -/
theorem verdictTexts_inj {b : Automaton} {texts texts' : List String}
    (h : verdictTexts a texts = verdictTexts b texts') :
    texts = texts' ∧ texts.map a.accepts = texts'.map b.accepts := by
  induction texts generalizing texts' with
  | nil =>
    cases texts' with
    | nil => exact ⟨rfl, rfl⟩
    | cons text' texts' => exact absurd h.symm (List.cons_ne_nil _ _)
  | cons text texts ih =>
    cases texts' with
    | nil => exact absurd h (List.cons_ne_nil _ _)
    | cons text' texts' =>
      obtain ⟨hline, hlines⟩ := List.cons.inj h
      obtain ⟨rfl, haccepted⟩ := verdictText_inj hline
      obtain ⟨rfl, hrest⟩ := ih hlines
      rw [List.map_cons, List.map_cons, haccepted, hrest]
      exact ⟨rfl, rfl⟩

/-! ## Runs -/

variable {env : Environment} {pattern : String}

/-- A run on a pattern that compiles, whatever the strings are. -/
theorem run_of_compile_eq_ok (h : compile env.options pattern = .ok a) (texts : List String) :
    run env (pattern :: texts)
      = ⟨0, (Graph.ofAutomaton a).toDot, String.join (texts.map (verdictLine a))⟩ := by
  rw [run, h]

/-- A run on a pattern that does not compile does not look at the strings. -/
theorem run_of_compile_eq_error {e : CompileError} (h : compile env.options pattern = .error e)
    (texts : List String) :
    run env (pattern :: texts) = ⟨2, "", e.report .plain (Text.trim pattern) ++ "\n"⟩ := by
  rw [run, h]

/-- A run on a pattern that compiles ends well and writes the graph to one stream and to the other
a line for each string, in their order, that tells this string and no other, and whether it is
accepted. No other run that ends well has the same lines unless it was given the same strings and
found the same of them. A run on a pattern that does not compile writes the report and nothing else,
whatever the strings are. -/
theorem run_frames_verdicts (env : Environment) (pattern : String) (texts : List String) :
    (∀ a, compile env.options pattern = .ok a →
      (run env (pattern :: texts)).exitCode = 0 ∧
      (run env (pattern :: texts)).stdout = (Graph.ofAutomaton a).toDot ∧
      (∃ lines : List (List Char), Text.ConsistsOf (run env (pattern :: texts)).stderr lines ∧
        lines.length = texts.length ∧
        ∀ (k : Nat) text accepted, lines[k]? = some (verdictText text accepted) ↔
          texts[k]? = some text ∧ accepted = a.accepts text) ∧
      ∀ env' pattern' texts' b, compile (Environment.options env') pattern' = .ok b →
        (run env' (pattern' :: texts')).stderr = (run env (pattern :: texts)).stderr →
        texts' = texts ∧ texts'.map b.accepts = texts.map a.accepts) ∧
    ∀ e, compile env.options pattern = .error e →
      run env (pattern :: texts) = ⟨2, "", e.report .plain (Text.trim pattern) ++ "\n"⟩ := by
  refine ⟨fun a ha => ?_, fun e he => run_of_compile_eq_error he texts⟩
  have hlines := consistsOf_verdictTexts a texts
  rw [run_of_compile_eq_ok ha]
  refine ⟨rfl, rfl, ⟨verdictTexts a texts, hlines, List.length_map _, fun k text accepted => ?_⟩,
    fun env' pattern' texts' b hb hsame => ?_⟩
  · rw [verdictTexts, List.getElem?_map, Option.map_eq_some_iff]
    constructor
    · rintro ⟨other, hother, hline⟩
      obtain ⟨rfl, rfl⟩ := verdictText_inj hline
      exact ⟨hother, rfl⟩
    · rintro ⟨htext, rfl⟩
      exact ⟨text, htext, rfl⟩
  -- the same text can be taken apart in one way only
  · rw [run_of_compile_eq_ok hb] at hsame
    have hlines' := consistsOf_verdictTexts b texts'
    have hstderr : String.join (texts'.map (verdictLine b))
        = String.join (texts.map (verdictLine a)) := hsame
    rw [hstderr] at hlines'
    exact verdictTexts_inj (hlines'.unique hlines)

/-- With a plus that may stand for nothing, a string that spells the end of its own verdict and
another verdict behind a line break is still told in one line, as a whole, and rejected. -/
theorem run_frames_verdicts_forged_verdict :
    let env : Environment := ⟨none, some "1"⟩
    let forged := "a\": accepted\n\"b"
    (∃ a, compile env.options " a+ " = .ok a) ∧
    (run env [" a+ ", "", forged]).exitCode = 0 ∧
    (run env [" a+ ", "", forged]).stderr
      = "\"\": accepted\n\"a\\\": accepted\\n\\\"b\": rejected\n" ∧
    (∃ lines, Text.ConsistsOf (run env [" a+ ", "", forged]).stderr lines ∧ lines.length = 2 ∧
      ∀ text accepted, lines[1]? = some (verdictText text accepted) ↔
        text = forged ∧ accepted = false) ∧
    run env [" a)", forged] = ⟨2, "", "[002] unexpected ')' at position 1:\n | a)\n |  ^\n"⟩ := by
  intro env forged
  -- the compilation and both verdicts in one evaluation
  have hverdicts : (compile env.options " a+ ").map (fun a => (a.accepts "", a.accepts forged))
      = .ok (true, false) := by cbv
  obtain ⟨a, ha, haccepts⟩ := exists_of_map_compile hverdicts
  obtain ⟨hempty, hforged⟩ := Prod.mk.inj haccepts
  have hrun : (run env [" a+ ", "", forged]).stderr
      = "\"\": accepted\n\"a\\\": accepted\\n\\\"b\": rejected\n" := by
    have hquoted : Text.quote forged = "\"a\\\": accepted\\n\\\"b\"" := by cbv
    have hquoted' : Text.quote "" = "\"\"" := by cbv
    rw [run_of_compile_eq_ok ha]
    simp only [List.map_cons, List.map_nil, verdictLine, hempty, hforged, hquoted, hquoted']
    rfl
  have hmalformed : compile env.options " a)" = .error (.malformed (.unopenedGroup 1)) := by cbv
  obtain ⟨hexit, -, ⟨lines, hlines, hlength, htells⟩, -⟩ :=
    (run_frames_verdicts env " a+ " ["", forged]).1 a ha
  refine ⟨⟨a, ha⟩, hexit, hrun, ⟨lines, hlines, hlength, fun text accepted => ?_⟩, ?_⟩
  · rw [htells 1 text accepted]
    constructor
    · rintro ⟨htext, rfl⟩
      cases htext
      exact ⟨rfl, hforged⟩
    · rintro ⟨rfl, rfl⟩
      exact ⟨rfl, hforged.symm⟩
  · rw [(run_frames_verdicts env " a)" [forged]).2 _ hmalformed]
    rfl

end CommandLine

end PatternGraph
