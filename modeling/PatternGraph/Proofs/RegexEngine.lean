import PatternGraph.PatternList
import PatternGraph.Proofs.Limits
import PatternGraph.Proofs.Pattern.Language
import Mathlib.Computability.RegularExpressions

/-!
# Regex engines — what a pattern list expects of its library

1. `RegexEngine.Lawful` is what is taken for granted about a library, on the texts that patterns and
   regular expressions have in common (`IsCommon`): it accepts a text that is in the grammar and no
   other, a match that it finds spells a word of the language that the text denotes, and no match
   begins further to the left. A library may refuse texts for limits of its own. Nothing is said
   about those, they are set apart by a condition on texts.
2. `PatternList.matchesAtStart_iff` is all that a list needs to know: the match that is found begins
   with a string if and only if some word of the language does.
3. `RegexEngine.byDerivatives` is a library that keeps the laws without limits, on every common
   text. It reads the grammar and tries all places of a text from the left, and
   `lawful_byDerivatives` shows that the laws hold together.
-/

namespace PatternGraph

open Pattern
open scoped Computability

/-- The number of bytes that a word takes in a text. -/
def byteLength (word : List Char) : Nat :=
  (String.ofList word).utf8ByteSize

@[simp] theorem byteLength_nil : byteLength [] = 0 :=
  rfl

@[simp] theorem byteLength_append (u v : List Char) :
    byteLength (u ++ v) = byteLength u + byteLength v := by
  simp [byteLength]

theorem byteLength_eq_zero_iff {word : List Char} : byteLength word = 0 ↔ word = [] := by
  simp [byteLength]

namespace RegexEngine

/-! ## The laws -/

/-- The characters that have a meaning in expressions alone. -/
def reserved : List Char :=
  ['.', '?', '[', ']', '\x7b', '\x7d', '^', '$', '\\']

/-- The text has no character that means something in expressions alone. -/
def IsCommon (text : List Char) : Prop :=
  ∀ c ∈ text, c ∉ reserved

instance (text : List Char) : Decidable (IsCommon text) :=
  List.decidableBAll (fun c => c ∉ reserved) text

/-- The characters of the text between the two ends of a match are a word of the language. -/
def Match.Spells (m : Match) (L : Language Char) (text : List Char) : Prop :=
  ∃ before word after, text = before ++ (word ++ after) ∧ word ∈ L ∧
    m.start = byteLength before ∧ m.stop = byteLength before + byteLength word

/-- The library has made `regex` of a common text that denotes the language. -/
def Means (engine : RegexEngine) (regex : engine.Compiled) (L : Language Char) : Prop :=
  ∃ source : String, IsCommon source.toList ∧ engine.compile source = some regex ∧
    BranchesDenote true source.toList L

/-- What is taken for granted about a library, whose own limits are not hit by the texts that
`fits` allows. -/
structure Lawful (engine : RegexEngine) (fits : String → Prop) : Prop where
  /-- A common text is accepted if and only if the grammar gives it a meaning. -/
  compile_iff : ∀ {source : String}, IsCommon source.toList → fits source →
    ((∃ regex, engine.compile source = some regex) ↔ ∃ L, BranchesDenote true source.toList L)
  /-- The text of a pattern is kept. -/
  source_eq : ∀ {source : String} {regex : engine.Compiled},
    engine.compile source = some regex → engine.source regex = source
  /-- What is found is a match. -/
  spells_of_find : ∀ {regex : engine.Compiled} {L : Language Char} {text : String} {m : Match},
    engine.Means regex L → engine.find regex text = some m → m.Spells L text.toList
  /-- A match is found where there is one. -/
  exists_find : ∀ {regex : engine.Compiled} {L : Language Char} {text : String} {m : Match},
    engine.Means regex L → m.Spells L text.toList → ∃ found, engine.find regex text = some found
  /-- No match begins to the left of the one that is found. -/
  leftmost : ∀ {regex : engine.Compiled} {L : Language Char} {text : String} {found m : Match},
    engine.Means regex L → engine.find regex text = some found → m.Spells L text.toList →
      found.start ≤ m.start

end RegexEngine

/-! ## Matches at the start -/

namespace PatternList

open RegexEngine

variable {engine : RegexEngine} {fits : String → Prop} {regex : engine.Compiled}

/-- The match that is found begins with a string if and only if a word of the language does. -/
theorem matchesAtStart_iff (hengine : engine.Lawful fits) {L : Language Char}
    (hmeans : engine.Means regex L) (text : String) :
    matchesAtStart regex text = true ↔ ∃ u, u <+: text.toList ∧ u ∈ L := by
  unfold matchesAtStart
  constructor
  · intro h
    cases hfind : engine.find regex text with
    | none =>
      rw [hfind] at h
      cases h
    | some found =>
      rw [hfind] at h
      have hstart : found.start = 0 := by simpa using h
      rcases hengine.spells_of_find hmeans hfind with
        ⟨before, word, after, htext, hword, hbefore, -⟩
      -- no byte stands before the match, so no character does
      rw [hbefore, byteLength_eq_zero_iff] at hstart
      rw [hstart, List.nil_append] at htext
      exact ⟨word, ⟨after, htext.symm⟩, hword⟩
  · rintro ⟨u, ⟨after, htext⟩, hu⟩
    have hspells : Match.Spells ⟨0, byteLength u⟩ L text.toList :=
      ⟨[], u, after, htext.symm, hu, rfl, (Nat.zero_add _).symm⟩
    rcases hengine.exists_find hmeans hspells with ⟨found, hfind⟩
    have hleft : found.start ≤ 0 := hengine.leftmost hmeans hfind hspells
    rw [hfind]
    simpa using hleft

end PatternList

/-! ## A library by derivatives -/

/-- What a quantifier makes of an expression. -/
def Quantifier.expression : Quantifier → RegularExpression Char → RegularExpression Char
  | zeroOrMore, r => r.star
  | oneOrMore, r => r * r.star

/-- A repeated expression matches what the quantifier makes of the language. -/
theorem Quantifier.matches'_expression (q : Quantifier) (r : RegularExpression Char) :
    (q.expression r).matches' = q.language true r.matches' := by
  cases q <;> rfl

namespace Pattern

mutual

/-- A pattern as an expression of the algebra of languages. -/
def expression : Pattern → RegularExpression Char
  | empty => 1
  | literal c => .char c
  | concat items => itemsExpression items
  | alternation branches => branchesExpression branches
  | closure item q => q.expression item.expression
  | group inner => inner.expression

/-- The product of the expressions of items. -/
def itemsExpression : List Pattern → RegularExpression Char
  | [] => 1
  | item :: items => item.expression * itemsExpression items

/-- The sum of the expressions of branches. -/
def branchesExpression : List Pattern → RegularExpression Char
  | [] => 0
  | branch :: branches => branch.expression + branchesExpression branches

end

mutual

/-- The expression of a pattern matches the words of the pattern's language. -/
theorem matches'_expression (p : Pattern) : p.expression.matches' = p.language true := by
  match p with
  | empty => rfl
  | literal c => rfl
  | concat items =>
    rw [expression, language]
    exact matches'_itemsExpression items
  | alternation branches =>
    rw [expression, language]
    exact matches'_branchesExpression branches
  | closure item q =>
    rw [expression, language, q.matches'_expression, matches'_expression item]
  | group inner =>
    rw [expression, language]
    exact matches'_expression inner

/-- The product of items matches the words of one item behind the other. -/
theorem matches'_itemsExpression (items : List Pattern) :
    (itemsExpression items).matches' = product true items := by
  match items with
  | [] => rfl
  | item :: items =>
    rw [itemsExpression, product, RegularExpression.matches'_mul, matches'_expression item,
      matches'_itemsExpression items]

/-- The sum of branches matches the words of each of them. -/
theorem matches'_branchesExpression (branches : List Pattern) :
    (branchesExpression branches).matches' = choice true branches := by
  match branches with
  | [] => rfl
  | branch :: branches =>
    rw [branchesExpression, choice, RegularExpression.matches'_add, matches'_expression branch,
      matches'_branchesExpression branches]

end

end Pattern

namespace RegexEngine

/-- The length of the shortest word of an expression that a text begins with. -/
def shortest? (r : RegularExpression Char) (text : List Char) : Option Nat :=
  (List.range (text.length + 1)).find? fun n => r.rmatch (text.take n)

/-- The match in front of `rest`, which stands behind `before`. -/
def matchInFront? (r : RegularExpression Char) (before rest : List Char) : Option Match :=
  (shortest? r rest).map fun n => ⟨byteLength before, byteLength before + byteLength (rest.take n)⟩

/-- The first match from the left in `rest`, which stands behind `before`. -/
def search (r : RegularExpression Char) (before : List Char) : List Char → Option Match
  | [] => matchInFront? r before []
  | c :: rest => (matchInFront? r before (c :: rest)).or (search r (before ++ [c]) rest)

/-- A library that reads the grammar of patterns and searches by derivatives of expressions. Of the
matches that begin at one place it finds the shortest, which the laws leave open; so they do what it
makes of a text with a reserved character. -/
def byDerivatives : RegexEngine where
  Compiled := String × Pattern
  compile source :=
    match read source.length source.toList with
    | .ok p => some (source, p)
    | .error _ => none
  source := Prod.fst
  find regex text := search regex.2.expression [] text.toList

variable {r : RegularExpression Char} {before rest text u s after : List Char} {m : Match}

/-- The length that is found is that of a word. -/
theorem mem_of_shortest? {n : Nat} (h : shortest? r text = some n) :
    text.take n ∈ r.matches' :=
  (r.rmatch_iff_matches' _).1 (List.find?_range_eq_some.1 h).1

/-- A length is found wherever the text begins with a word. -/
theorem exists_shortest? (h : u <+: text) (hu : u ∈ r.matches') :
    ∃ n, shortest? r text = some n := by
  cases hshortest : shortest? r text with
  | some n => exact ⟨n, rfl⟩
  | none =>
    have hlength : u.length ∈ List.range (text.length + 1) :=
      List.mem_range.2 (Nat.lt_succ_of_le h.length_le)
    have hno := List.find?_eq_none.1 hshortest u.length hlength
    rw [← List.prefix_iff_eq_take.1 h, r.rmatch_iff_matches'] at hno
    exact absurd hu hno

/-- What is found in front is a match, with its bytes counted from the beginning of the whole text.
-/
theorem spells_of_matchInFront? (h : matchInFront? r before rest = some m) :
    m.Spells r.matches' (before ++ rest) := by
  rcases Option.map_eq_some_iff.1 h with ⟨n, hn, rfl⟩
  exact ⟨before, rest.take n, rest.drop n, by rw [List.take_append_drop], mem_of_shortest? hn,
    rfl, rfl⟩

/-- What the search finds is a match. The induction is on the text that is left, what has been
passed stands before it. -/
theorem spells_of_search (h : search r before rest = some m) :
    m.Spells r.matches' (before ++ rest) := by
  induction rest generalizing before with
  | nil => exact spells_of_matchInFront? h
  | cons c rest ih =>
    rcases Option.or_eq_some_iff.1 h with hfront | ⟨-, hlater⟩
    · exact spells_of_matchInFront? hfront
    · have hspells := ih hlater
      rwa [List.append_assoc, List.singleton_append] at hspells

/-- Where a word stands behind `u`, the search finds a match that begins no later. -/
theorem exists_search (hrest : rest = u ++ (s ++ after)) (hs : s ∈ r.matches') :
    ∃ m, search r before rest = some m ∧ m.start ≤ byteLength (before ++ u) := by
  induction rest generalizing before u with
  | nil =>
    have hprefix : s <+: [] := ⟨after, (List.append_eq_nil_iff.1 hrest.symm).2⟩
    rcases exists_shortest? hprefix hs with ⟨n, hn⟩
    refine ⟨_, by rw [search, matchInFront?, hn, Option.map_some], ?_⟩
    simp
  | cons c rest ih =>
    cases hfront : matchInFront? r before (c :: rest) with
    | some m =>
      rcases Option.map_eq_some_iff.1 hfront with ⟨n, -, rfl⟩
      refine ⟨_, by rw [search, hfront, Option.some_or], ?_⟩
      simp
    | none =>
      -- the word does not stand in front, so a character is passed before it
      cases u with
      | nil =>
        rcases exists_shortest? ⟨after, hrest.symm⟩ hs with ⟨n, hn⟩
        rw [matchInFront?, hn] at hfront
        cases hfront
      | cons d u =>
        rcases List.cons.inj hrest with ⟨rfl, htail⟩
        have hlater : ∃ m, search r (before ++ [c]) rest = some m ∧
            m.start ≤ byteLength (before ++ [c] ++ u) := ih htail
        rcases hlater with ⟨m, hm, hstart⟩
        refine ⟨m, by rw [search, hfront, Option.none_or, hm], ?_⟩
        rwa [List.append_assoc, List.singleton_append] at hstart

/-- The library compiles the texts of the grammar, and keeps each of them with its tree. -/
theorem compile_byDerivatives_eq_some_iff {source : String} {regex : String × Pattern} :
    byDerivatives.compile source = some regex ↔
      ∃ branches, Branches source.toList branches ∧ regex = (source, ofBranches branches) := by
  -- a text has no more groups open than it has characters
  have hdepth : ∀ n, (openGroups (source.toList.take n)).length ≤ source.length := by
    intro n
    rw [← String.length_toList]
    exact length_openGroups_take_le source.toList n
  unfold byDerivatives
  constructor
  · intro h
    cases hread : read source.length source.toList with
    | error e => simp [hread] at h
    | ok p =>
      rcases read_eq_ok_iff.1 hread with ⟨branches, hbranches, -, rfl⟩
      refine ⟨branches, hbranches, ?_⟩
      simpa [hread, eq_comm] using h
  · rintro ⟨branches, hbranches, rfl⟩
    simp only
    rw [read_of_openGroups hbranches hdepth]

/-- The expression of a compiled pattern matches the language that its text denotes. -/
theorem matches'_of_means_byDerivatives {regex : byDerivatives.Compiled} {L : Language Char}
    (h : byDerivatives.Means regex L) : regex.2.expression.matches' = L := by
  rcases h with ⟨source, -, hcompile, hdenote⟩
  rcases compile_byDerivatives_eq_some_iff.1 hcompile with ⟨branches, hbranches, rfl⟩
  rw [matches'_expression, (branchesDenote_iff hbranches).1 hdenote]

/-- The laws hold of the library by derivatives, which has no limits. -/
theorem lawful_byDerivatives : byDerivatives.Lawful fun _ => True where
  compile_iff {source} _ _ := by
    constructor
    · rintro ⟨regex, hregex⟩
      rcases compile_byDerivatives_eq_some_iff.1 hregex with ⟨branches, hbranches, -⟩
      exact ⟨_, hbranches.denote⟩
    · rintro ⟨L, hdenote⟩
      rcases hdenote.exists_branches with ⟨branches, hbranches, -⟩
      exact ⟨_, compile_byDerivatives_eq_some_iff.2 ⟨branches, hbranches, rfl⟩⟩
  source_eq h := by
    rcases compile_byDerivatives_eq_some_iff.1 h with ⟨branches, -, rfl⟩
    rfl
  spells_of_find hmeans hfind := by
    rw [← matches'_of_means_byDerivatives hmeans]
    exact spells_of_search hfind
  exists_find hmeans hspells := by
    rcases hspells with ⟨before, word, after, htext, hword, -, -⟩
    rw [← matches'_of_means_byDerivatives hmeans] at hword
    rcases exists_search htext hword with ⟨found, hfound, -⟩
    exact ⟨found, hfound⟩
  leftmost hmeans hfind hspells := by
    rcases hspells with ⟨before, word, after, htext, hword, hstart, -⟩
    rw [← matches'_of_means_byDerivatives hmeans] at hword
    rcases exists_search htext hword with ⟨found, hfound, hleft⟩
    cases hfind.symm.trans hfound
    rwa [hstart]

example : (byDerivatives.compile "(a*|)+b").bind (byDerivatives.find · "aabx") = some ⟨0, 3⟩ := by
  cbv

end RegexEngine

end PatternGraph
