import PatternGraph.Proofs.Pattern.Reading
import Mathlib.Computability.Language

/-!
# Languages of patterns — which words a text stands for

`BranchesDenote` reads a language off a text by the grammar alone: a bar is a union inside its own
group, juxtaposition is concatenation, and the quantifiers behind an atom are applied one after the
other. `Pattern.language` is the same for trees. A text denotes the language of its tree
(`branchesDenote_iff`), in particular one language at most, although the tree keeps no trace of
quantifiers that were stacked.
-/

namespace PatternGraph

open scoped Computability

/-! ## Quantifiers -/

/-- The words that a quantifier makes of those of an item; a plus demands one of them only where it
is strict. -/
def Quantifier.language (strict : Bool) : Quantifier → Language Char → Language Char
  | zeroOrMore, L => L∗
  | oneOrMore, L => if strict then L * L∗ else L∗

/-- Two quantifiers in a row say what the one that stands for both says. -/
theorem Quantifier.language_stack (strict : Bool) (q r : Quantifier) (L : Language Char) :
    (q.stack r).language strict L = r.language strict (q.language strict L) := by
  -- any number of non-empty runs is any number of items
  have hplus : (L * L∗)∗ = L∗ := by
    apply le_antisymm
    · calc (L * L∗)∗ ≤ (L∗)∗ := kstar_mono mul_kstar_le_kstar
        _ = L∗ := kstar_idem L
    · apply kstar_mono
      calc L = L * 1 := (mul_one L).symm
        _ ≤ L * L∗ := mul_le_mul_right one_le_kstar L
  cases q with
  | zeroOrMore =>
    cases r with
    | zeroOrMore => simp [stack, language]
    | oneOrMore => cases strict <;> simp [stack, language]
  | oneOrMore =>
    cases r with
    | zeroOrMore => cases strict <;> simp [stack, language, hplus]
    | oneOrMore => cases strict <;> simp [stack, language, hplus, mul_assoc]

namespace Pattern

/-! ## Languages of texts -/

mutual

/-- Branches between bars denote the union of what the branches denote. -/
inductive BranchesDenote (strict : Bool) : List Char → Language Char → Prop where
  | last {s : List Char} {L : Language Char} (h : ItemsDenote strict s L) :
    BranchesDenote strict s L
  | bar {s t : List Char} {L M : Language Char} (h : ItemsDenote strict s L)
    (h' : BranchesDenote strict t M) : BranchesDenote strict (s ++ '|' :: t) (L + M)

/-- Items one after the other denote the concatenation of what the items denote; none denote the
empty word. -/
inductive ItemsDenote (strict : Bool) : List Char → Language Char → Prop where
  | nil : ItemsDenote strict [] 1
  | cons {s t : List Char} {L M : Language Char} (h : AtomDenotes strict s L)
    (quantifiers : List Quantifier) (h' : ItemsDenote strict t M) :
    ItemsDenote strict (s ++ (quantifiers.map Quantifier.toChar ++ t))
      (quantifiers.foldl (fun K q => q.language strict K) L * M)

/-- An ordinary character denotes itself, and a group what stands in its parentheses. -/
inductive AtomDenotes (strict : Bool) : List Char → Language Char → Prop where
  | literal {c : Char} (h : IsOrdinary c) : AtomDenotes strict [c] {[c]}
  | group {s : List Char} {L : Language Char} (h : BranchesDenote strict s L) :
    AtomDenotes strict ('(' :: (s ++ [')'])) L

end

/-! ## Languages of trees -/

mutual

/-- The words that a tree stands for. -/
def language (strict : Bool) : Pattern → Language Char
  | empty => 1
  | literal c => {[c]}
  | concat items => product strict items
  | alternation branches => choice strict branches
  | closure item q => q.language strict (item.language strict)
  | group inner => inner.language strict

/-- One word of each tree, one after the other. -/
def product (strict : Bool) : List Pattern → Language Char
  | [] => 1
  | item :: items => item.language strict * product strict items

/-- The words of any of the trees. -/
def choice (strict : Bool) : List Pattern → Language Char
  | [] => 0
  | branch :: branches => branch.language strict + choice strict branches

end

variable {strict : Bool} {s : List Char} {L : Language Char}

@[simp] theorem language_ofItems (items : List Pattern) :
    (ofItems items).language strict = product strict items := by
  match items with
  | [] => rfl
  | [item] => simp [ofItems, product]
  | _ :: _ :: _ => rfl

@[simp] theorem language_ofBranches (branches : List Pattern) :
    (ofBranches branches).language strict = choice strict branches := by
  match branches with
  | [] => rfl
  | [branch] => simp [ofBranches, choice]
  | _ :: _ :: _ => rfl

/-- A quantifier acts on the language of what it stands behind, also where the tree keeps one
quantifier for two. -/
@[simp] theorem language_quantify (p : Pattern) (q : Quantifier) :
    (p.quantify q).language strict = q.language strict (p.language strict) := by
  cases p with
  | closure item previous => exact Quantifier.language_stack strict previous q _
  | _ => rfl

/-- So do any number of them, one after the other. -/
theorem language_foldl_quantify (p : Pattern) (quantifiers : List Quantifier) :
    (quantifiers.foldl quantify p).language strict
      = quantifiers.foldl (fun K q => q.language strict K) (p.language strict) := by
  induction quantifiers generalizing p with
  | nil => rfl
  | cons q quantifiers ih => rw [List.foldl_cons, List.foldl_cons, ih, language_quantify]

/-! ## Texts and their trees -/

mutual

/-- A text of the grammar denotes the language of its tree, by mutual induction on the derivation.
-/
theorem Branches.denote {s : List Char} {branches : List Pattern} (h : Branches s branches) :
    BranchesDenote strict s (choice strict branches) := by
  match h with
  | .last h =>
    rw [choice, choice, add_zero, language_ofItems]
    exact .last h.denote
  | .bar h h' =>
    rw [choice, language_ofItems]
    exact .bar h.denote h'.denote

theorem Items.denote {s : List Char} {items : List Pattern} (h : Items s items) :
    ItemsDenote strict s (product strict items) := by
  match h with
  | .nil => exact .nil
  | .cons h quantifiers h' =>
    rw [product, language_foldl_quantify]
    exact .cons h.denotes quantifiers h'.denote

theorem Atom.denotes {s : List Char} {atom : Pattern} (h : Atom s atom) :
    AtomDenotes strict s (atom.language strict) := by
  match h with
  | .literal h => exact .literal h
  | .group h =>
    rw [language, language_ofBranches]
    exact .group h.denote

end

mutual

/-- What a text denotes comes from a tree of it. The two inductions go over the same rules, one for
trees and one for languages. -/
theorem BranchesDenote.exists_branches {s : List Char} {L : Language Char}
    (h : BranchesDenote strict s L) :
    ∃ branches, Branches s branches ∧ choice strict branches = L := by
  match h with
  | .last h =>
    rcases h.exists_items with ⟨items, hitems, rfl⟩
    exact ⟨_, .last hitems, by rw [choice, choice, add_zero, language_ofItems]⟩
  | .bar h h' =>
    rcases h.exists_items with ⟨items, hitems, rfl⟩
    rcases h'.exists_branches with ⟨branches, hbranches, rfl⟩
    exact ⟨_, .bar hitems hbranches, by rw [choice, language_ofItems]⟩

theorem ItemsDenote.exists_items {s : List Char} {L : Language Char}
    (h : ItemsDenote strict s L) : ∃ items, Items s items ∧ product strict items = L := by
  match h with
  | .nil => exact ⟨[], .nil, rfl⟩
  | .cons h quantifiers h' =>
    rcases h.exists_atom with ⟨atom, hatom, rfl⟩
    rcases h'.exists_items with ⟨items, hitems, rfl⟩
    exact ⟨_, .cons hatom quantifiers hitems, by rw [product, language_foldl_quantify]⟩

theorem AtomDenotes.exists_atom {s : List Char} {L : Language Char}
    (h : AtomDenotes strict s L) : ∃ atom, Atom s atom ∧ atom.language strict = L := by
  match h with
  | .literal h => exact ⟨_, .literal h, rfl⟩
  | .group h =>
    rcases h.exists_branches with ⟨branches, hbranches, rfl⟩
    exact ⟨_, .group hbranches, by rw [language, language_ofBranches]⟩

end

/-- A text that has a tree denotes the language of the tree and no other. -/
theorem branchesDenote_iff {branches : List Pattern} (h : Branches s branches) :
    BranchesDenote strict s L ↔ L = (ofBranches branches).language strict := by
  rw [language_ofBranches]
  constructor
  · intro hdenote
    rcases hdenote.exists_branches with ⟨branches', hbranches', rfl⟩
    rw [h.unique hbranches']
  · rintro rfl
    exact h.denote

end Pattern

end PatternGraph
