import PatternGraph.Pattern.Basic
import PatternGraph.Proofs.Pattern.Reading
import Mathlib.Data.List.Basic

/-!
# Canonical trees — the trees that their own text reads back as

A tree is canonical when each of its nodes shows in its text what it is. These are the trees that
the grammar derives: a tree that was read is canonical (`Branches.isCanonical`), and the text of a
canonical tree is one of the grammar, with this tree behind it (`IsCanonical.exists_branches`). No
other tree is read from its own text.
-/

namespace PatternGraph.Pattern

/-! ## Trees in a tree -/

/-- The trees directly below the root of a tree. -/
def children : Pattern → List Pattern
  | empty => []
  | literal _ => []
  | concat items => items
  | alternation branches => branches
  | closure item _ => [item]
  | group inner => [inner]

/-- The second tree is the first one or stands somewhere in it. -/
inductive Contains : Pattern → Pattern → Prop where
  | root (p : Pattern) : Contains p p
  | child {p q r : Pattern} (hq : q ∈ p.children) (h : Contains q r) : Contains p r

/-- A literal or a group: what a quantifier may stand behind. -/
def IsAtom : Pattern → Prop
  | literal _ => True
  | group _ => True
  | _ => False

/-- An atom with a quantifier or without: what may stand in a sequence. -/
def IsItem : Pattern → Prop
  | closure _ _ => True
  | p => p.IsAtom

/-- A choice between branches. -/
def IsAlternation : Pattern → Prop
  | alternation _ => True
  | _ => False

/-! ## Canonical trees -/

/-- What the node at the root of a tree has to be, and what may stand directly below it. -/
def IsCanonicalNode : Pattern → Prop
  | empty => True
  | literal c => IsOrdinary c
  | concat items => 2 ≤ items.length ∧ ∀ item ∈ items, item.IsItem
  | alternation branches => 2 ≤ branches.length ∧ ∀ branch ∈ branches, ¬branch.IsAlternation
  | closure item _ => item.IsAtom
  | group _ => True

/-- A tree whose nodes all show in its text what they are. -/
structure IsCanonical (p : Pattern) : Prop where
  node : ∀ q, p.Contains q → q.IsCanonicalNode
  /-- An alternation that is not the whole tree is what a group contains. -/
  alternation_below : ∀ q branches, p.Contains q → alternation branches ∈ q.children →
    q = group (alternation branches)
  /-- The empty pattern that is not the whole tree is what a group contains, or a branch. -/
  empty_below : ∀ q, p.Contains q → empty ∈ q.children →
    q = group empty ∨ ∃ branches, q = alternation branches

variable {p q : Pattern} {items branches : List Pattern} {limit : Nat} {s : List Char}

/-- An atom may stand in a sequence without a quantifier. -/
theorem IsAtom.isItem (h : p.IsAtom) : p.IsItem := by
  cases p with
  | literal c => trivial
  | group inner => trivial
  | _ => exact h.elim

/-- What stands below a node is the contents of a group, a branch that is no choice itself, or an
item. -/
theorem IsCanonicalNode.below (h : p.IsCanonicalNode) (hq : q ∈ p.children) :
    p = group q ∨ ((∃ branches, p = alternation branches) ∧ ¬q.IsAlternation) ∨ q.IsItem := by
  cases p with
  | empty => cases hq
  | literal c => cases hq
  | concat items => exact .inr (.inr (h.2 q hq))
  | alternation branches => exact .inr (.inl ⟨⟨branches, rfl⟩, h.2 q hq⟩)
  | closure item quantifier =>
    rw [children, List.mem_singleton] at hq
    subst hq
    exact .inr (.inr (IsAtom.isItem h))
  | group inner =>
    rw [children, List.mem_singleton] at hq
    exact .inl (by rw [hq])

/-- Where the nodes are as they have to be, alternations and empty patterns are where they may
be. -/
theorem isCanonical_of_nodes (h : ∀ q, p.Contains q → q.IsCanonicalNode) : p.IsCanonical where
  node := h
  alternation_below q branches hq hmem := by
    rcases (h q hq).below hmem with hgroup | ⟨-, hchoice⟩ | hitem
    · exact hgroup
    · exact absurd trivial hchoice
    · exact hitem.elim
  empty_below q hq hmem := by
    rcases (h q hq).below hmem with hgroup | ⟨hbranches, -⟩ | hitem
    · exact .inl hgroup
    · exact .inr hbranches
    · exact hitem.elim

/-- A tree is canonical if its root is as it has to be and what stands below it is canonical. -/
theorem isCanonical_iff :
    p.IsCanonical ↔ p.IsCanonicalNode ∧ ∀ q ∈ p.children, q.IsCanonical := by
  constructor
  · intro h
    refine ⟨h.node p (.root p), fun q hq => isCanonical_of_nodes fun r hr => ?_⟩
    exact h.node r (.child hq hr)
  · rintro ⟨hroot, hbelow⟩
    refine isCanonical_of_nodes fun r hr => ?_
    cases hr with
    | root => exact hroot
    | child hq hr => exact (hbelow _ hq).node r hr

/-- Nothing stands below the empty pattern. -/
theorem isCanonical_empty : empty.IsCanonical :=
  isCanonical_iff.2 ⟨trivial, fun _ hq => absurd hq List.not_mem_nil⟩

theorem isCanonical_literal_iff {c : Char} : (literal c).IsCanonical ↔ IsOrdinary c := by
  rw [isCanonical_iff, children]
  exact ⟨fun h => h.1, fun h => ⟨h, fun _ hq => absurd hq List.not_mem_nil⟩⟩

/-- A sequence has two items or more, none of which is a sequence or a choice itself. -/
theorem isCanonical_concat_iff :
    (concat items).IsCanonical ↔
      2 ≤ items.length ∧ ∀ item ∈ items, item.IsCanonical ∧ item.IsItem := by
  rw [isCanonical_iff, children, IsCanonicalNode]
  grind

/-- A choice has two branches or more, none of which is a choice itself. -/
theorem isCanonical_alternation_iff :
    (alternation branches).IsCanonical ↔
      2 ≤ branches.length ∧ ∀ branch ∈ branches, branch.IsCanonical ∧ ¬branch.IsAlternation := by
  rw [isCanonical_iff, children, IsCanonicalNode]
  grind

theorem isCanonical_closure_iff {quantifier : Quantifier} :
    (closure p quantifier).IsCanonical ↔ p.IsCanonical ∧ p.IsAtom := by
  rw [isCanonical_iff, children, IsCanonicalNode]
  grind

theorem isCanonical_group_iff : (group p).IsCanonical ↔ p.IsCanonical := by
  rw [isCanonical_iff, children, IsCanonicalNode]
  grind

/-- Nothing that may stand in a sequence is a choice. -/
theorem IsItem.not_isAlternation (h : p.IsItem) : ¬p.IsAlternation := by
  cases p with
  | alternation branches => exact h.elim
  | _ => exact id

/-! ## What is read is canonical -/

/-- Quantifiers behind a repeated item leave it as it is and become one with its quantifier. -/
theorem foldl_quantify_closure (p : Pattern) (q : Quantifier) (qs : List Quantifier) :
    qs.foldl quantify (closure p q) = closure p (qs.foldl Quantifier.stack q) := by
  induction qs generalizing q with
  | nil => rfl
  | cons r qs ih => exact ih (q.stack r)

/-- The first quantifier puts an atom in a row. -/
theorem IsAtom.quantify (h : p.IsAtom) (q : Quantifier) : p.quantify q = closure p q := by
  cases p with
  | closure item previous => exact h.elim
  | _ => rfl

/-- An atom with quantifiers behind it is the atom itself, or the atom in a row. -/
theorem IsAtom.foldl_quantify (h : p.IsAtom) (q : Quantifier) (qs : List Quantifier) :
    (q :: qs).foldl Pattern.quantify p = closure p (qs.foldl Quantifier.stack q) := by
  rw [List.foldl_cons, h.quantify, foldl_quantify_closure]

/-- However many quantifiers stand behind an atom, what is read is an item of a canonical tree. -/
theorem isCanonical_foldl_quantify (h : p.IsCanonical) (hp : p.IsAtom) (qs : List Quantifier) :
    (qs.foldl quantify p).IsCanonical ∧ (qs.foldl quantify p).IsItem := by
  cases qs with
  | nil => exact ⟨h, hp.isItem⟩
  | cons q qs =>
    rw [hp.foldl_quantify]
    exact ⟨isCanonical_closure_iff.2 ⟨h, hp⟩, trivial⟩

/-- A few items are kept as a sequence only if there are two or more, and nothing that is kept is a
choice. -/
theorem isCanonical_ofItems (h : ∀ item ∈ items, item.IsCanonical ∧ item.IsItem) :
    (ofItems items).IsCanonical ∧ ¬(ofItems items).IsAlternation := by
  match items with
  | [] => exact ⟨isCanonical_empty, id⟩
  | [item] =>
    rcases h item List.mem_cons_self with ⟨hcanonical, hitem⟩
    exact ⟨hcanonical, hitem.not_isAlternation⟩
  | item :: item' :: items =>
    exact ⟨isCanonical_concat_iff.2 ⟨Nat.le_add_left 2 items.length, h⟩, id⟩

/-- A few branches are kept as a choice only if there are two or more. -/
theorem isCanonical_ofBranches (hne : branches ≠ [])
    (h : ∀ branch ∈ branches, branch.IsCanonical ∧ ¬branch.IsAlternation) :
    (ofBranches branches).IsCanonical := by
  match branches with
  | [] => exact absurd rfl hne
  | [branch] => exact (h branch List.mem_cons_self).1
  | branch :: branch' :: branches =>
    exact isCanonical_alternation_iff.2 ⟨Nat.le_add_left 2 branches.length, h⟩

theorem Branches.ne_nil (h : Branches s branches) : branches ≠ [] := by
  cases h with
  | last h => exact List.cons_ne_nil _ _
  | bar h h' => exact List.cons_ne_nil _ _

mutual

/-- The branches that the grammar derives are canonical, by mutual induction on the derivation. The
side conditions go along: no branch is a choice, each item may stand in a sequence, and each atom is
one. -/
theorem Branches.isCanonical {s : List Char} {branches : List Pattern} (h : Branches s branches) :
    ∀ branch ∈ branches, branch.IsCanonical ∧ ¬branch.IsAlternation := by
  match h with
  | .last hitems =>
    intro branch hbranch
    rw [List.mem_singleton.1 hbranch]
    exact isCanonical_ofItems hitems.isCanonical
  | .bar hitems hbranches =>
    intro branch hbranch
    rcases List.mem_cons.1 hbranch with rfl | hbranch
    · exact isCanonical_ofItems hitems.isCanonical
    · exact hbranches.isCanonical branch hbranch

theorem Items.isCanonical {s : List Char} {items : List Pattern} (h : Items s items) :
    ∀ item ∈ items, item.IsCanonical ∧ item.IsItem := by
  match h with
  | .nil =>
    intro item hitem
    cases hitem
  | .cons hatom quantifiers hitems =>
    intro item hitem
    rcases List.mem_cons.1 hitem with rfl | hitem
    · rcases hatom.isCanonical with ⟨hcanonical, hisAtom⟩
      exact isCanonical_foldl_quantify hcanonical hisAtom quantifiers
    · exact hitems.isCanonical item hitem

theorem Atom.isCanonical {s : List Char} {atom : Pattern} (h : Atom s atom) :
    atom.IsCanonical ∧ atom.IsAtom := by
  match h with
  | .literal hc => exact ⟨isCanonical_literal_iff.2 hc, trivial⟩
  | .group hbranches =>
    refine ⟨isCanonical_group_iff.2 ?_, trivial⟩
    exact isCanonical_ofBranches hbranches.ne_nil hbranches.isCanonical

end

/-! ## The text of a canonical tree -/

/-- Items that are each read from their own text are read from their texts one behind the other. -/
theorem items_of_forall_item (h : ∀ item ∈ items, Item item.chars item) :
    Items (itemChars items) items := by
  induction items with
  | nil => exact Items.nil
  | cons item items ih =>
    rcases List.forall_mem_cons.1 h with ⟨hitem, hrest⟩
    exact hitem.cons (ih hrest)

/-- Branches that are each read from their own text are read from their texts between bars. -/
theorem branches_of_forall_items (hne : branches ≠ [])
    (h : ∀ branch ∈ branches, ∃ items, Items branch.chars items ∧ ofItems items = branch) :
    Branches (branchChars branches) branches := by
  induction branches with
  | nil => exact absurd rfl hne
  | cons branch branches ih =>
    rcases List.forall_mem_cons.1 h with ⟨⟨items, hitems, hbranch⟩, hbelow⟩
    have hlast : Branches branch.chars [branch] := by
      have h := Branches.last hitems
      rwa [hbranch] at h
    cases branches with
    | nil => exact hlast
    | cons branch' branches =>
      have hbar := Branches.bar hitems (ih (List.cons_ne_nil _ _) hbelow)
      rwa [hbranch] at hbar

mutual

/-- The text of a canonical atom is an atom. The four theorems call one another on the same tree, so
the measure has a second part that tells which of them may call which. -/
theorem IsCanonical.atom {p : Pattern} (h : p.IsCanonical) (hp : p.IsAtom) : Atom p.chars p := by
  match p with
  | literal c => exact Atom.literal (isCanonical_literal_iff.1 h)
  | group inner =>
    rcases (isCanonical_group_iff.1 h).exists_branches with ⟨branches, hbranches, hinner⟩
    have hgroup := Atom.group hbranches
    rwa [hinner] at hgroup
  | empty | concat _ | alternation _ | closure _ _ => exact hp.elim
termination_by (sizeOf p, 0)

theorem IsCanonical.item {p : Pattern} (h : p.IsCanonical) (hp : p.IsItem) : Item p.chars p := by
  match p with
  | literal c => exact ⟨_, _, [], h.atom trivial, (List.append_nil _).symm, rfl⟩
  | group inner => exact ⟨_, _, [], h.atom trivial, (List.append_nil _).symm, rfl⟩
  | closure item quantifier =>
    rcases isCanonical_closure_iff.1 h with ⟨hitem, hatom⟩
    exact ⟨_, item, [quantifier], hitem.atom hatom, rfl, (hatom.quantify quantifier).symm⟩
  | empty | concat _ | alternation _ => exact hp.elim
termination_by (sizeOf p, 1)

/-- A canonical tree that is no choice is one branch. -/
theorem IsCanonical.exists_items {p : Pattern} (h : p.IsCanonical) (hp : ¬p.IsAlternation) :
    ∃ items, Items p.chars items ∧ ofItems items = p := by
  match p with
  | empty => exact ⟨[], Items.nil, rfl⟩
  | concat items =>
    rcases isCanonical_concat_iff.1 h with ⟨hlength, hitems⟩
    -- with two items or more the sequence is kept as such
    refine ⟨items, items_of_forall_item fun item hmem => ?_, ?_⟩
    · exact (hitems item hmem).1.item (hitems item hmem).2
    · match items, hlength with
      | _ :: _ :: _, _ => rfl
  | literal c => exact ⟨_, (h.item trivial).items, rfl⟩
  | closure item quantifier => exact ⟨_, (h.item trivial).items, rfl⟩
  | group inner => exact ⟨_, (h.item trivial).items, rfl⟩
  | alternation _ => exact absurd trivial hp
termination_by (sizeOf p, 2)

/-- The text of a canonical tree is one of the grammar, and the grammar gives it this tree. -/
theorem IsCanonical.exists_branches {p : Pattern} (h : p.IsCanonical) :
    ∃ branches, Branches p.chars branches ∧ ofBranches branches = p := by
  match p with
  | alternation branches =>
    rcases isCanonical_alternation_iff.1 h with ⟨hlength, hbranches⟩
    refine ⟨branches, branches_of_forall_items ?_ fun branch hmem => ?_, ?_⟩
    · rintro rfl
      cases hlength
    · exact (hbranches branch hmem).1.exists_items (hbranches branch hmem).2
    · match branches, hlength with
      | _ :: _ :: _, _ => rfl
  | empty | literal _ | concat _ | closure _ _ | group _ =>
    rcases h.exists_items id with ⟨items, hitems, hp⟩
    have hlast := Branches.last hitems
    rw [hp] at hlast
    exact ⟨_, hlast, rfl⟩
termination_by (sizeOf p, 3)

end

/-! ## Trees and their own texts -/

variable {options : Options} {pattern : String}

/-- A parsed tree is canonical. -/
theorem isCanonical_of_parse (h : parse options pattern = .ok p) : p.IsCanonical := by
  rcases parse_eq_ok_iff.1 h with ⟨-, branches, hbranches, -, rfl⟩
  exact isCanonical_ofBranches hbranches.ne_nil hbranches.isCanonical

/-- A parsed tree is nested no deeper than the limit allows. -/
theorem nesting_le_of_parse (h : parse options pattern = .ok p) : p.nesting ≤ options.maxDepth := by
  rcases parse_eq_ok_iff.1 h with ⟨-, branches, -, hdepth, rfl⟩
  rwa [nesting_ofBranches]

/-- A canonical tree is parsed from its own text, if the limits admit it. -/
theorem IsCanonical.parse_render (h : p.IsCanonical) (hlength : p.chars.length ≤ options.maxLength)
    (hdepth : p.nesting ≤ options.maxDepth) : parse options p.render = .ok p := by
  rcases h.exists_branches with ⟨branches, hbranches, rfl⟩
  rw [nesting_ofBranches] at hdepth
  refine parse_eq_ok_iff.2 ⟨?_, branches, ?_, hdepth, rfl⟩
  · rwa [← String.length_toList, toList_render]
  · rwa [toList_render]

/-- The trees that parsing yields are canonical, whatever the text was, and of all trees that the
limits admit it is the canonical ones that are parsed from their own text. -/
theorem parse_render_eq_self_iff :
    (∀ options pattern p, parse options pattern = .ok p → p.IsCanonical) ∧
    ∀ (options : Options) (p : Pattern), p.render.length ≤ options.maxLength →
      p.nesting ≤ options.maxDepth → (parse options p.render = .ok p ↔ p.IsCanonical) := by
  refine ⟨fun _ _ _ => isCanonical_of_parse, fun options p hlength hdepth => ?_⟩
  rw [← String.length_toList, toList_render] at hlength
  exact ⟨isCanonical_of_parse, fun h => h.parse_render hlength hdepth⟩

/-- The tree of `(a|)+b` is canonical. A sequence of `a` and `b` in a row is not: its text `ab*`
repeats only the `b`. -/
theorem parse_render_eq_self_iff_repeated_sequence :
    (∃ p, parse Options.standard "(a|)+b" = .ok p ∧ p.IsCanonical ∧
      p.render.length ≤ Options.standard.maxLength ∧ p.nesting ≤ Options.standard.maxDepth ∧
      parse Options.standard p.render = .ok p) ∧
    (closure (concat [literal 'a', literal 'b']) .zeroOrMore).render = "ab*" ∧
    ¬(closure (concat [literal 'a', literal 'b']) .zeroOrMore).IsCanonical ∧
    parse Options.standard "ab*"
      ≠ .ok (closure (concat [literal 'a', literal 'b']) .zeroOrMore) := by
  have hparse : parse Options.standard "(a|)+b" = .ok (concat
      [closure (group (alternation [literal 'a', empty])) .oneOrMore, literal 'b']) := by cbv
  have hlength : (concat [closure (group (alternation [literal 'a', empty])) .oneOrMore,
      literal 'b']).render.length ≤ Options.standard.maxLength := by decide
  have hdepth : (concat [closure (group (alternation [literal 'a', empty])) .oneOrMore,
      literal 'b']).nesting ≤ Options.standard.maxDepth := by decide
  have hcanonical := parse_render_eq_self_iff.1 _ _ _ hparse
  have hrender : (closure (concat [literal 'a', literal 'b']) .zeroOrMore).render = "ab*" := by
    decide
  have hnot : ¬(closure (concat [literal 'a', literal 'b']) .zeroOrMore).IsCanonical :=
    fun h => (isCanonical_closure_iff.1 h).2
  refine ⟨⟨_, hparse, hcanonical, hlength, hdepth, ?_⟩, hrender, hnot, fun h => hnot ?_⟩
  · exact (parse_render_eq_self_iff.2 _ _ hlength hdepth).2 hcanonical
  · rw [← hrender] at h
    exact (parse_render_eq_self_iff.2 _ _ (by decide) (by decide)).1 h

end PatternGraph.Pattern
