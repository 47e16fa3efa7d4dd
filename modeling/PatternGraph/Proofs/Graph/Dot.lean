import PatternGraph.Graph
import PatternGraph.Proofs.Automaton.Insertion

/-!
# Faithfulness of DOT — the text of a graph tells the graph

A text is taken apart from its front, and each part of it tells by itself where it ends.

1. A name ends at the first character that no name has (`name_append_inj`), a label at the first
   quote that has no backslash of its own before it (`readLabel_escapeLabel`).
2. So a line tells what it is the line of, and what comes behind it (`Vertex.line_append_inj`,
   `Arrow.line_append_inj`), and a list of lines ends where something comes that is no line of its
   kind (`joined_append_inj`).
3. `eq_of_toDot_eq` takes a whole graph apart, and `ofAutomaton_inj` the graph of an automaton.
-/

namespace PatternGraph.Graph

variable {u v r t : List Char}

/-! ## Names -/

/-- A character that may stand in a name: an ASCII letter, an ASCII digit or an underscore. -/
def IsNameChar (c : Char) : Prop :=
  c.isAlphanum = true ∨ c = '_'

instance : DecidablePred IsNameChar :=
  fun c => inferInstanceAs (Decidable (c.isAlphanum = true ∨ c = '_'))

/-- A name with no other characters. -/
def IsPlainName (name : String) : Prop :=
  ∀ c ∈ name.toList, IsNameChar c

instance : DecidablePred IsPlainName :=
  fun name => List.decidableBAll IsNameChar name.toList

/-- A text before which a name is over. -/
def EndsName (text : List Char) : Prop :=
  ∃ c rest, text = c :: rest ∧ ¬IsNameChar c

/-- Two texts with names at their fronts have the same names there, and the same behind them. -/
theorem name_append_inj (hu : ∀ c ∈ u, IsNameChar c) (hv : ∀ c ∈ v, IsNameChar c)
    (h : u ++ r = v ++ t) (hr : EndsName r) (ht : EndsName t) : u = v ∧ r = t := by
  induction u generalizing v with
  | nil =>
    cases v with
    | nil => exact ⟨rfl, h⟩
    | cons d v =>
      obtain ⟨c, rest, rfl, hc⟩ := hr
      -- a name that is over on one side goes on with a name's character on the other
      have hsame : c = d := (List.cons.inj h).1
      exact absurd (hv d List.mem_cons_self) (hsame ▸ hc)
  | cons c u ih =>
    cases v with
    | nil =>
      obtain ⟨d, rest, rfl, hd⟩ := ht
      have hsame : c = d := (List.cons.inj h).1
      exact absurd (hu c List.mem_cons_self) (hsame ▸ hd)
    | cons d v =>
      obtain ⟨rfl, hrest⟩ := List.cons.inj h
      obtain ⟨rfl, hbehind⟩ := ih (fun e he => hu e (List.mem_cons_of_mem c he))
        (fun e he => hv e (List.mem_cons_of_mem c he)) hrest
      exact ⟨rfl, hbehind⟩

/-- The same of names that are strings. -/
theorem plainName_append_inj {name name' : String} (hname : IsPlainName name)
    (hname' : IsPlainName name') (h : name.toList ++ r = name'.toList ++ t) (hr : EndsName r)
    (ht : EndsName t) : name = name' ∧ r = t := by
  obtain ⟨hsame, hbehind⟩ := name_append_inj hname hname' h hr ht
  exact ⟨String.toList_inj.1 hsame, hbehind⟩

/-! ## Labels -/

/-- Reads an escaped label up to the quote behind it; yields the label and what follows the
quote. -/
def readLabel : List Char → Option (List Char × List Char)
  | [] => none
  | '"' :: rest => some ([], rest)
  | '\\' :: c :: rest => (readLabel rest).map fun (label, behind) => (c :: label, behind)
  | c :: rest => (readLabel rest).map fun (label, behind) => (c :: label, behind)

/-- An escaped label is read back as it was, up to the quote behind it and not to one inside. By
induction on the label; a character that is escaped takes the backslash before it along. -/
theorem readLabel_escapeLabel (label rest : List Char) :
    readLabel (escapeLabel label ++ '"' :: rest) = some (label, rest) := by
  induction label with
  | nil => rfl
  | cons c label ih =>
    have hcons : escapeLabel (c :: label)
        = (if c = '"' ∨ c = '\\' then ['\\', c] else [c]) ++ escapeLabel label :=
      List.flatMap_cons
    rw [hcons]
    -- a quote that is escaped stands behind a backslash, which the reader takes along with it
    by_cases hspecial : c = '"' ∨ c = '\\'
    · rw [if_pos hspecial]
      show readLabel ('\\' :: c :: (escapeLabel label ++ '"' :: rest)) = _
      rw [readLabel, ih]
      rfl
    · rw [if_neg hspecial]
      obtain ⟨hquote, hbackslash⟩ := not_or.1 hspecial
      show readLabel (c :: (escapeLabel label ++ '"' :: rest)) = _
      rw [readLabel, ih]
      · rfl
      · exact hquote
      · intro d rest hc
        exact absurd hc hbackslash

/-- So what is escaped tells the label and what comes behind it. -/
theorem escapeLabel_append_inj (h : escapeLabel u ++ '"' :: r = escapeLabel v ++ '"' :: t) :
    u = v ∧ r = t := by
  have hread := readLabel_escapeLabel u r
  rw [h, readLabel_escapeLabel] at hread
  exact Prod.mk.inj (Option.some.inj hread.symm)

/-- The escapes can be put in by two replacements, of backslashes first and of quotes second. -/
theorem escapeLabel_eq_two_passes (label : List Char) :
    escapeLabel label = (label.flatMap fun c => if c = '\\' then ['\\', '\\'] else [c]).flatMap
      fun c => if c = '"' then ['\\', '"'] else [c] := by
  unfold escapeLabel
  rw [List.flatMap_assoc]
  congr 1
  funext c
  by_cases hbackslash : c = '\\'
  · subst hbackslash
    rfl
  · by_cases hquote : c = '"'
    · subst hquote
      rfl
    · simp [hbackslash, hquote]

/-- What an arrow's line has behind the names: dashes, or the label. -/
def bracket (label : String) : List Char :=
  if label.isEmpty then "[style=dashed]".toList
  else "[label=\"".toList ++ (escapeLabel label.toList ++ "\"]".toList)

/-- A name is over before a bracket. -/
theorem endsName_bracket (label : String) (rest : List Char) :
    EndsName (bracket label ++ rest) := by
  unfold bracket
  split
  · exact ⟨'[', _, rfl, by decide⟩
  · exact ⟨'[', _, rfl, by decide⟩

/-- The dashes and a label differ in the letter behind the bracket, and a label tells itself. -/
theorem bracket_append_inj {label label' : String} (h : bracket label ++ r = bracket label' ++ t) :
    label = label' ∧ r = t := by
  unfold bracket at h
  by_cases hempty : label.isEmpty = true
  · by_cases hempty' : label'.isEmpty = true
    · rw [if_pos hempty, if_pos hempty'] at h
      rw [String.isEmpty_iff.1 hempty, String.isEmpty_iff.1 hempty']
      exact ⟨rfl, List.append_cancel_left h⟩
    · -- dashes on one side only: `s` and `l` stand behind the brackets
      rw [if_pos hempty, if_neg hempty'] at h
      simp at h
  · by_cases hempty' : label'.isEmpty = true
    · rw [if_neg hempty, if_pos hempty'] at h
      simp at h
    · rw [if_neg hempty, if_neg hempty'] at h
      simp only [List.append_assoc] at h
      obtain ⟨hlabel, hbehind⟩ := escapeLabel_append_inj (List.append_cancel_left h)
      exact ⟨String.toList_inj.1 hlabel, (List.cons.inj hbehind).2⟩

/-! ## Lines -/

theorem Vertex.toList_line (vertex : Vertex) :
    vertex.line.toList = "  ".toList ++ (vertex.id.toList ++ ("[label=\"".toList ++
      (vertex.id.toList ++ ("\" shape=".toList ++
        ((if vertex.isFinal then "doublecircle" else "circle").toList ++ "]".toList))))) := by
  simp only [Vertex.line, String.toList_append, List.append_assoc]

/-- The line of a vertex tells the vertex and where the line ends. -/
theorem Vertex.line_append_inj {a b : Vertex} (ha : IsPlainName a.id) (hb : IsPlainName b.id)
    (h : a.line.toList ++ r = b.line.toList ++ t) : a = b ∧ r = t := by
  obtain ⟨id, isFinal⟩ := a
  obtain ⟨id', isFinal'⟩ := b
  simp only [Vertex.toList_line, List.append_assoc, List.append_cancel_left_eq] at h
  obtain ⟨rfl, hrest⟩ := plainName_append_inj ha hb h ⟨'[', _, rfl, by decide⟩
    ⟨'[', _, rfl, by decide⟩
  simp only [List.append_cancel_left_eq] at hrest
  -- the two shapes differ in their first letters
  cases isFinal with
  | false =>
    cases isFinal' with
    | false => exact ⟨rfl, by simpa using hrest⟩
    | true => simp at hrest
  | true =>
    cases isFinal' with
    | false => simp at hrest
    | true => exact ⟨rfl, by simpa using hrest⟩

theorem Arrow.toList_line (arrow : Arrow) :
    arrow.line.toList = "  ".toList ++ (arrow.source.toList ++
      (" -> ".toList ++ (arrow.target.toList ++ bracket arrow.label))) := by
  unfold Arrow.line bracket
  split
  · simp only [String.toList_append, List.append_assoc]
  · simp only [String.toList_append, List.append_assoc, escape, String.toList_ofList]

/-- The line of an arrow tells the arrow and where the line ends. -/
theorem Arrow.line_append_inj {a b : Arrow} (ha : IsPlainName a.source ∧ IsPlainName a.target)
    (hb : IsPlainName b.source ∧ IsPlainName b.target)
    (h : a.line.toList ++ r = b.line.toList ++ t) : a = b ∧ r = t := by
  obtain ⟨source, target, label⟩ := a
  obtain ⟨source', target', label'⟩ := b
  simp only [Arrow.toList_line, List.append_assoc, List.append_cancel_left_eq] at h
  obtain ⟨rfl, hrest⟩ := plainName_append_inj ha.1 hb.1 h ⟨' ', _, rfl, by decide⟩
    ⟨' ', _, rfl, by decide⟩
  obtain ⟨rfl, hbracket⟩ := plainName_append_inj ha.2 hb.2 (List.append_cancel_left hrest)
    (endsName_bracket _ _) (endsName_bracket _ _)
  obtain ⟨rfl, rfl⟩ := bracket_append_inj hbracket
  exact ⟨rfl, rfl⟩

/-! ## Lists of lines -/

section Lines

variable {α : Type} {line : α → String} {P : α → Prop} {xs ys : List α}

/-- The lines of a list, each with a line break behind it, before some text. -/
def linesBefore (line : α → String) (xs : List α) (text : List Char) : List Char :=
  xs.foldr (fun x rest => (line x).toList ++ '\n' :: rest) text

/-- The lines of a list with line breaks between them. -/
def joined (line : α → String) (xs : List α) : List Char :=
  ("\n".intercalate (xs.map line)).toList

/-- A text that starts with no line of its kind. -/
def EndsLines (line : α → String) (P : α → Prop) (text : List Char) : Prop :=
  ∀ x, P x → ∀ rest, (line x).toList ++ rest ≠ text

/-- One line break stands behind each line if one more stands behind the last. -/
theorem joined_cons_append (x : α) (xs : List α) (text : List Char) :
    joined line (x :: xs) ++ '\n' :: text = linesBefore line (x :: xs) text := by
  induction xs generalizing x with
  | nil => simp [joined, linesBefore]
  | cons y ys ih =>
    have hrest := ih y
    unfold joined linesBefore at hrest ⊢
    simp only [List.map_cons, List.foldr_cons] at hrest ⊢
    rw [String.intercalate_cons_cons, ← hrest]
    simp [String.toList_append]

/-- Lists of lines, each of which tells where it ends, and texts behind them that are no further
lines are told apart. -/
theorem linesBefore_inj
    (hline : ∀ x y, P x → P y → ∀ r t, (line x).toList ++ r = (line y).toList ++ t → x = y ∧ r = t)
    (hxs : ∀ x ∈ xs, P x) (hys : ∀ y ∈ ys, P y) (hr : EndsLines line P r) (ht : EndsLines line P t)
    (h : linesBefore line xs r = linesBefore line ys t) : xs = ys ∧ r = t := by
  induction xs generalizing ys with
  | nil =>
    cases ys with
    | nil => exact ⟨rfl, h⟩
    | cons y ys => exact absurd h.symm (hr y (hys y List.mem_cons_self) _)
  | cons x xs ih =>
    cases ys with
    | nil => exact absurd h (ht x (hxs x List.mem_cons_self) _)
    | cons y ys =>
      obtain ⟨rfl, hrest⟩ := hline x y (hxs x List.mem_cons_self) (hys y List.mem_cons_self) _ _ h
      obtain ⟨rfl, hbehind⟩ := ih (fun z hz => hxs z (List.mem_cons_of_mem x hz))
        (fun z hz => hys z (List.mem_cons_of_mem x hz)) (List.cons.inj hrest).2
      exact ⟨rfl, hbehind⟩

/-- Lists of lines with line breaks between them are told apart, the empty list included. -/
theorem joined_append_inj
    (hline : ∀ x y, P x → P y → ∀ r t, (line x).toList ++ r = (line y).toList ++ t → x = y ∧ r = t)
    (hstart : ∀ x, ∃ rest, (line x).toList = ' ' :: rest)
    (hxs : ∀ x ∈ xs, P x) (hys : ∀ y ∈ ys, P y) (hr : EndsLines line P r) (ht : EndsLines line P t)
    (h : joined line xs ++ '\n' :: r = joined line ys ++ '\n' :: t) : xs = ys ∧ r = t := by
  -- a line starts with a blank, so a line break in front tells that there is no line
  have hnot : ∀ x xs rest text, joined line (x :: xs) ++ '\n' :: rest ≠ '\n' :: text := by
    intro x xs rest text hsame
    obtain ⟨behind, hx⟩ := hstart x
    rw [joined_cons_append, linesBefore, List.foldr_cons, hx] at hsame
    cases hsame
  cases xs with
  | nil =>
    cases ys with
    | nil => exact ⟨rfl, (List.cons.inj h).2⟩
    | cons y ys => exact absurd h.symm (hnot y ys t r)
  | cons x xs =>
    cases ys with
    | nil => exact absurd h (hnot x xs r t)
    | cons y ys =>
      rw [joined_cons_append, joined_cons_append] at h
      exact linesBefore_inj hline hxs hys hr ht h

end Lines

/-! ## Whole graphs -/

/-- All names in a graph are made of ASCII letters, ASCII digits and underscores. -/
structure HasPlainNames (g : Graph) : Prop where
  vertices : ∀ vertex ∈ g.vertices, IsPlainName vertex.id
  arrows : ∀ arrow ∈ g.arrows, IsPlainName arrow.source ∧ IsPlainName arrow.target
  initial : IsPlainName g.initial

/-- The part of a graph's text that follows the vertices. -/
def tail (g : Graph) : List Char :=
  "  ".toList ++ (entryId.toList ++ (" -> ".toList ++ (g.initial.toList ++
    '\n' :: (joined Arrow.line g.arrows ++ '\n' :: "\x7d\n".toList))))

theorem toList_toDot (g : Graph) :
    g.toDot.toList = preamble.toList ++ (joined Vertex.line g.vertices ++ '\n' :: g.tail) := by
  simp only [toDot, String.toList_append, List.append_assoc]
  rfl

/-- The line of the entry is no line of a vertex. -/
theorem endsLines_tail (g : Graph) :
    EndsLines Vertex.line (fun vertex => IsPlainName vertex.id) g.tail := by
  intro vertex hvertex rest h
  unfold tail at h
  simp only [Vertex.toList_line, List.append_assoc, List.append_cancel_left_eq] at h
  -- a vertex has a bracket where the line of the entry has a blank
  obtain ⟨-, hbehind⟩ := plainName_append_inj hvertex (by decide) h ⟨'[', _, rfl, by decide⟩
    ⟨' ', _, rfl, by decide⟩
  simp at hbehind

/-- The brace that closes the graph is no line of an arrow. -/
theorem endsLines_closing :
    EndsLines Arrow.line (fun arrow => IsPlainName arrow.source ∧ IsPlainName arrow.target)
      "\x7d\n".toList := by
  intro arrow _ rest h
  simp [Arrow.toList_line] at h

/-- Graphs with plain names are equal if their texts are. -/
theorem eq_of_toDot_eq {g g' : Graph} (hg : g.HasPlainNames) (hg' : g'.HasPlainNames)
    (h : g.toDot = g'.toDot) : g = g' := by
  have htext : g.toDot.toList = g'.toDot.toList := by rw [h]
  rw [toList_toDot, toList_toDot] at htext
  obtain ⟨hvertices, htail⟩ := joined_append_inj
    (fun _ _ ha hb _ _ => Vertex.line_append_inj ha hb)
    (fun vertex => ⟨_, by rw [Vertex.toList_line]; rfl⟩) hg.vertices hg'.vertices
    (endsLines_tail g) (endsLines_tail g') (List.append_cancel_left htext)
  -- behind the vertices comes the entry, and then the arrows
  unfold tail at htail
  simp only [List.append_cancel_left_eq] at htail
  obtain ⟨hinitial, hbehind⟩ := plainName_append_inj hg.initial hg'.initial htail
    ⟨'\n', _, rfl, by decide⟩ ⟨'\n', _, rfl, by decide⟩
  obtain ⟨harrows, -⟩ := joined_append_inj
    (fun _ _ ha hb _ _ => Arrow.line_append_inj ha hb)
    (fun arrow => ⟨_, by rw [Arrow.toList_line]; rfl⟩) hg.arrows hg'.arrows
    endsLines_closing endsLines_closing (List.cons.inj hbehind).2
  cases g
  cases g'
  cases hvertices
  cases hinitial
  cases harrows
  rfl

/-! ## Graphs of automata -/

open Automaton

/-- The name of a state is a letter and digits. -/
theorem isPlainName_name (id : StateId) : IsPlainName id.name := by
  intro c hc
  simp only [StateId.name, Nat.repr_eq_ofList_toDigits, String.toList_append, String.toList_ofList,
    List.mem_append] at hc
  rcases hc with hc | hc
  · obtain rfl : c = 'q' := by simpa using hc
    decide
  · have hdigit : c.isDigit = true :=
      Nat.isDigit_of_mem_toDigits (by decide : 0 < 10) (Nat.le_refl 10) hc
    exact .inl (by rw [Char.isAlphanum, hdigit, Bool.or_true])

/-- Different states have different names. -/
theorem name_inj {p q : StateId} (h : p.name = q.name) : p = q := by
  have htext : p.name.toList = q.name.toList := by rw [h]
  simp only [StateId.name, Nat.repr_eq_ofList_toDigits, String.toList_append, String.toList_ofList,
    List.append_cancel_left_eq] at htext
  -- the digits can be read back
  have hnumber := congrArg (Nat.ofDigitChars 10 · 0) htext
  simpa using hnumber

/-- ε has the one label without characters. -/
theorem label_inj {s s' : Symbol} (h : s.label = s'.label) : s = s' := by
  have htext : s.label.toList = s'.label.toList := by rw [h]
  cases s with
  | epsilon =>
    cases s' with
    | epsilon => rfl
    | char d => simp [Symbol.label] at htext
  | char c =>
    cases s' with
    | epsilon => simp [Symbol.label] at htext
    | char d => simpa [Symbol.label] using htext

/-- The graph of an automaton has no other names. -/
theorem hasPlainNames_ofAutomaton (a : Automaton) : (ofAutomaton a).HasPlainNames where
  vertices := by
    intro vertex hvertex
    obtain ⟨state, -, rfl⟩ := List.mem_map.1 hvertex
    exact isPlainName_name state.id
  arrows := by
    intro arrow harrow
    obtain ⟨edge, -, rfl⟩ := List.mem_map.1 harrow
    exact ⟨isPlainName_name edge.source, isPlainName_name edge.target⟩
  initial := isPlainName_name a.initial

/-- A well-formed automaton is known by its graph. -/
theorem ofAutomaton_inj {a b : Automaton} (ha : a.WellFormed) (hb : b.WellFormed)
    (h : ofAutomaton a = ofAutomaton b) : a = b := by
  have hvertices := congrArg vertices h
  have harrows := congrArg arrows h
  simp only [ofAutomaton] at hvertices harrows
  -- there are as many vertices as states, and as many arrows as edges
  have hsize : a.size = b.size := by
    have hlength := congrArg List.length hvertices
    simpa [size] using hlength
  have hedges : a.edges = b.edges := by
    refine List.map_injective_iff.2 (fun e f hsame => ?_) harrows
    obtain ⟨hsource, htarget, hlabel⟩ := Arrow.mk.inj hsame
    cases e
    cases f
    cases name_inj hsource
    cases name_inj htarget
    cases label_inj hlabel
    rfl
  -- vertices stand in the order of their states, so their marks can be told apart
  have hfinal : ∀ q, a.isFinal q = b.isFinal q := by
    intro q
    have hvertex := congrArg (·[q]?) hvertices
    simp only [List.getElem?_map, Array.getElem?_toList] at hvertex
    have hmark := congrArg (Option.any Vertex.isFinal) hvertex
    simpa [Option.any_map, isFinal, state?] using hmark
  refine ha.ext hb hsize (fun p s q => ?_) hfinal
  unfold HasEdge
  rw [hedges]

/-- The text of a graph is faithful: graphs whose names are made of ASCII letters, ASCII digits and
underscores are equal if their texts are, whatever their labels hold, and automata that operations
make are equal if the texts of their graphs are. -/
theorem toDot_faithful :
    (∀ g g' : Graph, g.HasPlainNames → g'.HasPlainNames → g.toDot = g'.toDot → g = g') ∧
    ∀ operations operations' : List Operation,
      (ofAutomaton (grow operations)).toDot = (ofAutomaton (grow operations')).toDot →
      grow operations = grow operations' := by
  refine ⟨fun g g' => eq_of_toDot_eq, fun operations operations' h => ?_⟩
  have hgraph := eq_of_toDot_eq (hasPlainNames_ofAutomaton _) (hasPlainNames_ofAutomaton _) h
  exact ofAutomaton_inj (wellFormed_grow operations) (wellFormed_grow operations') hgraph

/-- A label that spells the end of its own arrow and the start of another does not forge that arrow.
And an edge that comes early or late, and one that is refused, do not show in the text, nor in the
automaton. -/
theorem toDot_faithful_forged_arrow :
    let honest : Graph := ⟨[⟨"q0", false⟩], [⟨"q0", "q0", "a"⟩, ⟨"q0", "q0", "b"⟩], "q0"⟩
    let forged : Graph := ⟨[⟨"q0", false⟩], [⟨"q0", "q0", "a\"]\n  q0 -> q0[label=\"b"⟩], "q0"⟩
    let operations : List Operation :=
      [.addState, .addEdge 0 (.char '"') 0, .addEdge 0 .epsilon 0]
    let operations' : List Operation :=
      [.addState, .addEdge 0 .epsilon 0, .addEdge 1 .epsilon 0, .addEdge 0 (.char '"') 0]
    honest.HasPlainNames ∧ forged.HasPlainNames ∧ honest.toDot ≠ forged.toDot ∧
    (ofAutomaton (grow operations)).toDot = (ofAutomaton (grow operations')).toDot ∧
    grow operations = grow operations' := by
  intro honest forged operations operations'
  have hhonest : honest.HasPlainNames := ⟨by decide, by decide, by decide⟩
  have hforged : forged.HasPlainNames := ⟨by decide, by decide, by decide⟩
  have hne : honest ≠ forged := by decide
  have hsame : (ofAutomaton (grow operations)).toDot = (ofAutomaton (grow operations')).toDot := by
    rfl
  exact ⟨hhonest, hforged, fun h => hne (toDot_faithful.1 honest forged hhonest hforged h), hsame,
    toDot_faithful.2 operations operations' hsame⟩

end PatternGraph.Graph
