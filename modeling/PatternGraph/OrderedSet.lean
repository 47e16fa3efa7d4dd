/-!
# Ordered sets — finite sets that are equal when their members are

A finite set is held as the list of its members in increasing order of rank. The order is part of
the type, so two sets with the same members are the same value (`OrderedSet.ext`) and may be
compared, listed and printed without choosing an order again.
-/

namespace PatternGraph

/-! ## Ranks -/

/-- A type whose values are told apart by a natural number, their rank. -/
class Ranked (α : Type) where
  rank : α → Nat
  rank_injective : ∀ {a b : α}, rank a = rank b → a = b

export Ranked (rank rank_injective)

instance : Ranked Nat where
  rank n := n
  rank_injective h := h

/-- Characters are ranked by code point. -/
instance : Ranked Char where
  rank c := c.toNat
  rank_injective h := Char.ext (UInt32.toNat_inj.1 h)

/-! ## Sets -/

/-- A finite set, as its members in increasing order of rank. -/
structure OrderedSet (α : Type) [Ranked α] where
  toList : List α
  sorted : toList.Pairwise (rank · < rank ·)
deriving DecidableEq

variable {α : Type} [Ranked α]

/-- A list with `a` put in front of the first member of higher rank, unless it is there. -/
def insertRanked (a : α) : List α → List α
  | [] => [a]
  | b :: bs =>
    if rank a < rank b then a :: b :: bs
    else if rank a = rank b then b :: bs
    else b :: insertRanked a bs

theorem mem_insertRanked {a b : α} {bs : List α} : b ∈ insertRanked a bs ↔ b = a ∨ b ∈ bs := by
  induction bs with
  | nil => simp [insertRanked]
  | cons x xs ih =>
    simp only [insertRanked]
    split
    · simp
    · split
      · next h => cases rank_injective h; simp
      · simp only [List.mem_cons, ih]; grind

/-- Insertion keeps the order: what was in front of the member stays in front of it. -/
theorem sorted_insertRanked {a : α} {bs : List α} (h : bs.Pairwise (rank · < rank ·)) :
    (insertRanked a bs).Pairwise (rank · < rank ·) := by
  induction bs with
  | nil => simp [insertRanked]
  | cons x xs ih =>
    have hx := List.pairwise_cons.1 h
    simp only [insertRanked]
    split
    · next hlt =>
      refine List.pairwise_cons.2 ⟨fun y hy => ?_, h⟩
      rcases List.mem_cons.1 hy with rfl | hy
      · -- the member is there already
        exact hlt
      · exact Nat.lt_trans hlt (hx.1 y hy)
    · split
      · exact h
      · refine List.pairwise_cons.2 ⟨fun y hy => ?_, ih hx.2⟩
        rcases mem_insertRanked.1 hy with rfl | hy
        · omega
        · exact hx.1 y hy

/-- Two lists in increasing order as one, with what both have kept once. -/
def mergeRanked : List α → List α → List α
  | [], bs => bs
  | a :: as, [] => a :: as
  | a :: as, b :: bs =>
    if rank a < rank b then a :: mergeRanked as (b :: bs)
    else if rank b < rank a then b :: mergeRanked (a :: as) bs
    else a :: mergeRanked as bs
termination_by as bs => as.length + bs.length

/-- Merging loses no member and invents none. -/
theorem mem_mergeRanked {as bs : List α} {x : α} : x ∈ mergeRanked as bs ↔ x ∈ as ∨ x ∈ bs := by
  fun_induction mergeRanked as bs with
  | case1 => simp
  | case2 => simp
  | case3 a as b bs _ ih => simp [ih, or_assoc]
  | case4 a as b bs _ _ ih => simp only [List.mem_cons, ih]; grind
  | case5 a as b bs h₁ h₂ ih =>
    have hab : a = b := rank_injective (by omega)
    simp only [List.mem_cons, ih]
    grind

/-- Merging keeps the order: each head is the smaller one, and members of the rest come from the
rests. -/
theorem sorted_mergeRanked {as bs : List α} (ha : as.Pairwise (rank · < rank ·))
    (hb : bs.Pairwise (rank · < rank ·)) : (mergeRanked as bs).Pairwise (rank · < rank ·) := by
  fun_induction mergeRanked as bs with
  | case1 => exact hb
  | case2 => exact ha
  | case3 a as b bs h ih =>
    have ha' := List.pairwise_cons.1 ha
    have hb' := List.pairwise_cons.1 hb
    refine List.pairwise_cons.2 ⟨fun x hx => ?_, ih ha'.2 hb⟩
    rcases mem_mergeRanked.1 hx with hx | hx
    · exact ha'.1 x hx
    · rcases List.mem_cons.1 hx with rfl | hx
      · exact h
      · exact Nat.lt_trans h (hb'.1 x hx)
  | case4 a as b bs h h' ih =>
    have ha' := List.pairwise_cons.1 ha
    have hb' := List.pairwise_cons.1 hb
    refine List.pairwise_cons.2 ⟨fun x hx => ?_, ih ha hb'.2⟩
    rcases mem_mergeRanked.1 hx with hx | hx
    · rcases List.mem_cons.1 hx with rfl | hx
      · exact h'
      · exact Nat.lt_trans h' (ha'.1 x hx)
    · exact hb'.1 x hx
  | case5 a as b bs h h' ih =>
    have ha' := List.pairwise_cons.1 ha
    have hb' := List.pairwise_cons.1 hb
    refine List.pairwise_cons.2 ⟨fun x hx => ?_, ih ha'.2 hb'.2⟩
    rcases mem_mergeRanked.1 hx with hx | hx
    · exact ha'.1 x hx
    -- both heads have one rank, so what is larger than one is larger than the other
    · have := hb'.1 x hx
      omega

/-- What the first of two lists in increasing order has and the second has not. -/
def diffRanked : List α → List α → List α
  | [], _ => []
  | a :: as, [] => a :: as
  | a :: as, b :: bs =>
    if rank a < rank b then a :: diffRanked as (b :: bs)
    else if rank b < rank a then diffRanked (a :: as) bs
    else diffRanked as bs
termination_by as bs => as.length + bs.length

/-- The difference asks for order: a member is skipped because it has not come yet or is past. -/
theorem mem_diffRanked {as bs : List α} {x : α} (ha : as.Pairwise (rank · < rank ·))
    (hb : bs.Pairwise (rank · < rank ·)) : x ∈ diffRanked as bs ↔ x ∈ as ∧ x ∉ bs := by
  fun_induction diffRanked as bs with
  | case1 => simp
  | case2 => simp
  | case3 a as b bs h ih =>
    have ha' := List.pairwise_cons.1 ha
    have hb' := List.pairwise_cons.1 hb
    -- the first head is smaller than everything in the second list, so it is none of that
    have hab : a ∉ b :: bs := by
      intro hmem
      rcases List.mem_cons.1 hmem with rfl | hmem
      · exact Nat.lt_irrefl _ h
      · exact absurd (hb'.1 a hmem) (by omega)
    simp only [List.mem_cons, ih ha'.2 hb] at hab ⊢
    grind
  | case4 a as b bs h h' ih =>
    have ha' := List.pairwise_cons.1 ha
    have hb' := List.pairwise_cons.1 hb
    -- the second head is past in the first list, so it can be dropped
    have hba : b ∉ a :: as := by
      intro hmem
      rcases List.mem_cons.1 hmem with rfl | hmem
      · exact Nat.lt_irrefl _ h'
      · exact absurd (ha'.1 b hmem) (by omega)
    simp only [List.mem_cons, ih ha hb'.2] at hba ⊢
    grind
  | case5 a as b bs h h' ih =>
    have ha' := List.pairwise_cons.1 ha
    have hb' := List.pairwise_cons.1 hb
    have hab : a = b := rank_injective (by omega)
    subst hab
    have haa : a ∉ as := fun hmem => Nat.lt_irrefl _ (ha'.1 a hmem)
    simp only [List.mem_cons, ih ha'.2 hb'.2]
    grind

/-- A difference leaves out members and moves none. -/
theorem diffRanked_sublist (as bs : List α) : (diffRanked as bs).Sublist as := by
  fun_induction diffRanked as bs with
  | case1 => exact .slnil
  | case2 => exact List.Sublist.refl _
  | case3 _ _ _ _ _ ih => exact ih.cons_cons _
  | case4 _ _ _ _ _ _ ih => exact ih
  | case5 _ _ _ _ _ _ ih => exact ih.cons _

/-- Two lists in increasing order with the same members are equal. -/
theorem eq_of_sorted_of_mem_iff {as bs : List α} (ha : as.Pairwise (rank · < rank ·))
    (hb : bs.Pairwise (rank · < rank ·)) (h : ∀ x, x ∈ as ↔ x ∈ bs) : as = bs := by
  induction as generalizing bs with
  | nil => cases bs with
    | nil => rfl
    | cons b bs => exact absurd ((h b).2 List.mem_cons_self) (by simp)
  | cons a as ih =>
    cases bs with
    | nil => exact absurd ((h a).1 List.mem_cons_self) (by simp)
    | cons b bs =>
      have ha' := List.pairwise_cons.1 ha
      have hb' := List.pairwise_cons.1 hb
      -- each head is a member of the other list, so neither can be the larger one
      have hab : a = b := by
        rcases List.mem_cons.1 ((h a).1 List.mem_cons_self) with hab | hab
        · exact hab
        · rcases List.mem_cons.1 ((h b).2 List.mem_cons_self) with hba | hba
          · exact hba.symm
          · have := ha'.1 b hba
            have := hb'.1 a hab
            omega
      subst hab
      refine congrArg _ (ih ha'.2 hb'.2 fun x => ?_)
      have hx := h x
      simp only [List.mem_cons] at hx
      constructor
      · intro hxa
        rcases hx.1 (.inr hxa) with rfl | hxb
        · exact absurd (ha'.1 x hxa) (Nat.lt_irrefl _)
        · exact hxb
      · intro hxb
        rcases hx.2 (.inr hxb) with rfl | hxa
        · exact absurd (hb'.1 x hxb) (Nat.lt_irrefl _)
        · exact hxa

namespace OrderedSet

instance : Membership α (OrderedSet α) where
  mem s a := a ∈ s.toList

instance : EmptyCollection (OrderedSet α) where
  emptyCollection := ⟨[], .nil⟩

instance : Inhabited (OrderedSet α) := ⟨∅⟩

instance [DecidableEq α] (a : α) (s : OrderedSet α) : Decidable (a ∈ s) :=
  inferInstanceAs (Decidable (a ∈ s.toList))

/-- The set with one member more. -/
def insert (s : OrderedSet α) (a : α) : OrderedSet α :=
  ⟨insertRanked a s.toList, sorted_insertRanked s.sorted⟩

/-- The members of a list, added from its end: a list in increasing order costs one step each. -/
def ofList (as : List α) : OrderedSet α :=
  as.foldr (fun a s => s.insert a) ∅

/-- The members of both sets. -/
def union (s t : OrderedSet α) : OrderedSet α :=
  ⟨mergeRanked s.toList t.toList, sorted_mergeRanked s.sorted t.sorted⟩

/-- The members of the first set that the second has not. -/
def diff (s t : OrderedSet α) : OrderedSet α :=
  ⟨diffRanked s.toList t.toList, s.sorted.sublist (diffRanked_sublist _ _)⟩

/-- The members that pass a test. -/
def filter (s : OrderedSet α) (test : α → Bool) : OrderedSet α :=
  ⟨s.toList.filter test, s.sorted.sublist List.filter_sublist⟩

/-- The members of the sets that a function assigns to the members of a set. -/
def bind {β : Type} [Ranked β] (s : OrderedSet α) (f : α → OrderedSet β) : OrderedSet β :=
  ofList (s.toList.flatMap fun a => (f a).toList)

/-- Whether a set has no members. -/
def isEmpty (s : OrderedSet α) : Bool :=
  s.toList.isEmpty

/-- Whether some member passes a test. -/
def any (s : OrderedSet α) (test : α → Bool) : Bool :=
  s.toList.any test

/-! ## Members of the results -/

theorem mem_toList {s : OrderedSet α} {a : α} : a ∈ s.toList ↔ a ∈ s :=
  Iff.rfl

/-- A set is its members: the lists are in order, so they are the same list. -/
@[ext] theorem ext {s t : OrderedSet α} (h : ∀ a, a ∈ s ↔ a ∈ t) : s = t := by
  cases s; cases t
  simp only [mk.injEq]
  exact eq_of_sorted_of_mem_iff ‹_› ‹_› h

@[simp] theorem not_mem_empty (a : α) : a ∉ (∅ : OrderedSet α) :=
  List.not_mem_nil

@[simp] theorem mem_insert {s : OrderedSet α} {a b : α} : b ∈ s.insert a ↔ b = a ∨ b ∈ s :=
  mem_insertRanked

@[simp] theorem mem_ofList {as : List α} {b : α} : b ∈ ofList as ↔ b ∈ as := by
  induction as with
  | nil => simp [ofList]
  | cons a as ih =>
    simp only [ofList, List.foldr_cons, mem_insert, List.mem_cons] at ih ⊢
    rw [ih]

@[simp] theorem mem_union {s t : OrderedSet α} {a : α} : a ∈ s.union t ↔ a ∈ s ∨ a ∈ t :=
  mem_mergeRanked

@[simp] theorem mem_diff {s t : OrderedSet α} {a : α} : a ∈ s.diff t ↔ a ∈ s ∧ a ∉ t :=
  mem_diffRanked s.sorted t.sorted

@[simp] theorem mem_filter {s : OrderedSet α} {test : α → Bool} {a : α} :
    a ∈ s.filter test ↔ a ∈ s ∧ test a = true :=
  List.mem_filter

@[simp] theorem mem_bind {β : Type} [Ranked β] {s : OrderedSet α} {f : α → OrderedSet β} {b : β} :
    b ∈ s.bind f ↔ ∃ a ∈ s, b ∈ f a := by
  simp [bind, mem_toList]

theorem isEmpty_iff {s : OrderedSet α} : s.isEmpty = true ↔ s = ∅ := by
  rcases s with ⟨_ | ⟨a, as⟩, h⟩
  · simp [isEmpty, EmptyCollection.emptyCollection]
  · simp [isEmpty, EmptyCollection.emptyCollection]

/-- A set that is not empty has a member to show. -/
theorem exists_mem_of_isEmpty_eq_false {s : OrderedSet α} (h : s.isEmpty = false) :
    ∃ a, a ∈ s := by
  rcases s with ⟨_ | ⟨a, as⟩, _⟩
  · cases h
  · exact ⟨a, List.mem_cons_self⟩

theorem any_iff {s : OrderedSet α} {test : α → Bool} :
    s.any test = true ↔ ∃ a ∈ s, test a = true := by
  simp [any, mem_toList]

end OrderedSet

end PatternGraph
