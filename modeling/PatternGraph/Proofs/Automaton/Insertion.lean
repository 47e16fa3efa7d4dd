import PatternGraph.Proofs.Automaton.Finished
import Mathlib.Data.Set.Card

/-!
# Insertion — edges and final marks of an automaton are a set

1. `WellFormed.ext`: a well-formed automaton is known by the number of its states, its edges and its
   final marks, because rows and targets stand in an order of their own.
2. `WellFormed.edges_sorted`: its edges are listed by source, symbol and target.
3. `Inserted` tells what a list of operations that make no state inserts. It looks at the operations
   as a set, so neither their order nor their repetition shows in the automaton.
-/

namespace PatternGraph

/-! ## The order of edges -/

/-- ε comes before every character, and characters come by code point. -/
def Symbol.Before : Symbol → Symbol → Prop
  | epsilon, epsilon => False
  | epsilon, char _ => True
  | char _, epsilon => False
  | char c, char d => c.toNat < d.toNat

/-- The order of symbols as it is stated is the order by which rows are kept. -/
theorem Symbol.before_iff {s t : Symbol} : s.Before t ↔ rank s < rank t := by
  cases s with
  | epsilon =>
    cases t with
    | epsilon => simp [Before]
    | char d => simp [Before, rank, order]
  | char c =>
    cases t with
    | epsilon => simp [Before, rank, order]
    | char d => simp [Before, rank, order]

/-- Edges come by source, edges with one source by symbol, and those with one symbol by target. -/
def Edge.Before (e f : Edge) : Prop :=
  e.source < f.source ∨
    e.source = f.source ∧ (e.symbol.Before f.symbol ∨ e.symbol = f.symbol ∧ e.target < f.target)

theorem Edge.not_before_self (e : Edge) : ¬e.Before e := by
  rintro (hlt | ⟨-, hlt | ⟨-, hlt⟩⟩)
  · exact Nat.lt_irrefl _ hlt
  · exact Nat.lt_irrefl _ (Symbol.before_iff.1 hlt)
  · exact Nat.lt_irrefl _ hlt

/-! ## Rows are known by where they lead -/

namespace Row

variable {row : Row} {rows rows' : List Row} {s : Symbol} {q : StateId}

/-- The first row holds all that its symbol leads to. -/
theorem leads_head_iff (h : (row :: rows).Pairwise fun r t => rank r.symbol < rank t.symbol) :
    Leads (row :: rows) row.symbol q ↔ q ∈ row.targets := by
  constructor
  · rintro ⟨r, hr, hs, hq⟩
    rcases List.mem_cons.1 hr with rfl | hr
    · exact hq
    · have hlt := (List.pairwise_cons.1 h).1 r hr
      rw [hs] at hlt
      exact absurd hlt (Nat.lt_irrefl _)
  · intro hq
    exact ⟨row, List.mem_cons_self, rfl, hq⟩

/-- The other rows hold all that the other symbols lead to. -/
theorem leads_tail_iff (h : (row :: rows).Pairwise fun r t => rank r.symbol < rank t.symbol) :
    Leads rows s q ↔ Leads (row :: rows) s q ∧ s ≠ row.symbol := by
  constructor
  · rintro ⟨r, hr, rfl, hq⟩
    have hlt := (List.pairwise_cons.1 h).1 r hr
    refine ⟨⟨r, List.mem_cons_of_mem _ hr, rfl, hq⟩, fun hsame => ?_⟩
    rw [hsame] at hlt
    exact Nat.lt_irrefl _ hlt
  · rintro ⟨⟨r, hr, rfl, hq⟩, hne⟩
    rcases List.mem_cons.1 hr with rfl | hr
    · exact absurd rfl hne
    · exact ⟨r, hr, rfl, hq⟩

/-- No symbol that leads anywhere comes before the first row's. -/
theorem rank_le_of_leads (h : (row :: rows).Pairwise fun r t => rank r.symbol < rank t.symbol)
    (hq : Leads (row :: rows) s q) : rank row.symbol ≤ rank s := by
  rcases hq with ⟨r, hr, rfl, -⟩
  rcases List.mem_cons.1 hr with rfl | hr
  · exact Nat.le_refl _
  · exact Nat.le_of_lt ((List.pairwise_cons.1 h).1 r hr)

/-- Rows in order, none without a target, are known by where they lead. -/
theorem eq_of_leads_iff (h : rows.Pairwise fun r t => rank r.symbol < rank t.symbol)
    (h' : rows'.Pairwise fun r t => rank r.symbol < rank t.symbol)
    (hrows : ∀ row ∈ rows, ∃ q, q ∈ row.targets) (hrows' : ∀ row ∈ rows', ∃ q, q ∈ row.targets)
    (hleads : ∀ s q, Leads rows s q ↔ Leads rows' s q) : rows = rows' := by
  -- both sides lose their first row together, so the induction is on one of them
  induction rows generalizing rows' with
  | nil =>
    cases rows' with
    | nil => rfl
    | cons row' rows' =>
      rcases hrows' row' List.mem_cons_self with ⟨q, hq⟩
      rcases (hleads row'.symbol q).2 ((leads_head_iff h').2 hq) with ⟨r, hr, -⟩
      exact absurd hr List.not_mem_nil
  | cons row rows ih =>
    rcases hrows row List.mem_cons_self with ⟨q, hq⟩
    have hfirst := (hleads row.symbol q).1 ((leads_head_iff h).2 hq)
    cases rows' with
    | nil =>
      rcases hfirst with ⟨r, hr, -⟩
      exact absurd hr List.not_mem_nil
    | cons row' rows' =>
      rcases hrows' row' List.mem_cons_self with ⟨q', hq'⟩
      have hfirst' := (hleads row'.symbol q').2 ((leads_head_iff h').2 hq')
      -- the first symbol of either side is the least that leads anywhere
      have hsymbol : row.symbol = row'.symbol :=
        rank_injective (Nat.le_antisymm (rank_le_of_leads h hfirst')
          (rank_le_of_leads h' hfirst))
      have htargets : row.targets = row'.targets := by
        ext x
        rw [← leads_head_iff h, ← leads_head_iff h', hleads, hsymbol]
      have hrest : rows = rows' := by
        refine ih (List.pairwise_cons.1 h).2 (List.pairwise_cons.1 h').2
          (fun r hr => hrows r (List.mem_cons_of_mem _ hr))
          (fun r hr => hrows' r (List.mem_cons_of_mem _ hr)) fun s x => ?_
        rw [leads_tail_iff h, leads_tail_iff h', hleads, hsymbol]
      have hrow : row = row' := by
        cases row
        cases row'
        cases hsymbol
        cases htargets
        rfl
      rw [hrow, hrest]

end Row

namespace Automaton

variable {a b c : Automaton} {operation : Operation} {insertions : List Operation}

/-! ## Automata are known by what they show -/

/-- Two well-formed automata with as many states, the same edges and the same final marks are the
same automaton. -/
theorem WellFormed.ext (ha : a.WellFormed) (hb : b.WellFormed) (hsize : a.size = b.size)
    (hedge : ∀ p s q, a.HasEdge p s q ↔ b.HasEdge p s q)
    (hfinal : ∀ q, a.isFinal q = b.isFinal q) : a = b := by
  -- an automaton is its states, and a state is its identifier, its rows and its mark
  have hstate : ∀ p, a.state? p = b.state? p := by
    intro p
    by_cases hp : p < a.size
    · rcases state?_isSome_iff.2 hp with ⟨x, hx⟩
      rcases state?_isSome_iff.2 (hsize ▸ hp) with ⟨y, hy⟩
      have hmark := hfinal p
      have hrows : x.rows = y.rows := by
        have hxwf := ha.state_wf hx
        have hywf := hb.state_wf hy
        refine Row.eq_of_leads_iff hxwf.sorted hywf.sorted hxwf.inhabited hywf.inhabited
          fun s q => ?_
        have hpq := hedge p s q
        rw [ha.hasEdge_iff, hb.hasEdge_iff, hx, hy] at hpq
        simpa using hpq
      have hid : x.id = y.id := (ha.id_eq hx).trans (hb.id_eq hy).symm
      rw [hx, hy]
      simp only [isFinal, hx, hy, Option.any_some] at hmark
      cases x
      cases y
      cases hid
      cases hrows
      cases hmark
      rfl
    · have hnone : a.state? p = none := Array.getElem?_eq_none (Nat.not_lt.1 hp)
      have hle : b.size ≤ p := hsize ▸ Nat.not_lt.1 hp
      have hnone' : b.state? p = none := Array.getElem?_eq_none hle
      rw [hnone, hnone']
  have hstates : a.states = b.states := Array.ext_getElem? hstate
  have hinitial : a.initial = b.initial := ha.initial_eq.trans hb.initial_eq.symm
  have hnext : a.nextId = b.nextId := by rw [ha.nextId_eq, hb.nextId_eq, hsize]
  cases a
  cases b
  cases hstates
  cases hinitial
  cases hnext
  rfl

/-! ## The list of edges -/

/-- The edges are listed in strictly increasing order. -/
theorem WellFormed.edges_sorted (ha : a.WellFormed) : a.edges.Pairwise Edge.Before := by
  unfold edges
  rw [List.pairwise_flatMap]
  constructor
  · intro state hstate
    rw [List.pairwise_flatMap]
    rcases mem_states_iff.1 hstate with ⟨p, hp⟩
    constructor
    · -- within a row by target
      intro row hrow
      rw [List.pairwise_map]
      exact row.targets.sorted.imp fun hlt => .inr ⟨rfl, .inr ⟨rfl, hlt⟩⟩
    · -- within a state by symbol
      refine (ha.state_wf hp).sorted.imp fun {r t} hlt e he f hf => ?_
      rcases List.mem_map.1 he with ⟨x, -, rfl⟩
      rcases List.mem_map.1 hf with ⟨y, -, rfl⟩
      exact .inr ⟨rfl, .inl (Symbol.before_iff.2 hlt)⟩
  · -- states stand in the order of their identifiers
    have hids : (a.states.toList.map State.id).Pairwise (· < ·) := by
      rw [ha.map_id_states]
      exact List.pairwise_lt_range
    rw [List.pairwise_map] at hids
    refine hids.imp fun {x y} hlt e he f hf => ?_
    obtain ⟨r, -, he⟩ := List.mem_flatMap.1 he
    obtain ⟨t, -, hf⟩ := List.mem_flatMap.1 hf
    rcases List.mem_map.1 he with ⟨_, -, rfl⟩
    rcases List.mem_map.1 hf with ⟨_, -, rfl⟩
    exact .inl hlt

/-- No edge is listed twice, since none comes before itself. -/
theorem WellFormed.nodup_edges (ha : a.WellFormed) : a.edges.Nodup := by
  refine ha.edges_sorted.imp fun {e f} hbefore => ?_
  rintro rfl
  exact e.not_before_self hbefore

/-- The alphabet is read off the edges. -/
theorem mem_alphabet {c : Char} : c ∈ a.alphabet ↔ ∃ edge ∈ a.edges, edge.symbol = .char c := by
  unfold alphabet
  rw [OrderedSet.mem_ofList, List.mem_filterMap]
  refine exists_congr fun edge => and_congr_right fun _ => ?_
  cases edge.symbol with
  | epsilon => simp [Symbol.char?]
  | char d => simp [Symbol.char?]

/-! ## Operations that make no state -/

/-- The automaton `b` is `a` with the edges and the final marks that some operations insert between
the states of `a`. -/
structure Inserted (a b : Automaton) (insertions : List Operation) : Prop where
  wellFormed : b.WellFormed
  size_eq : b.size = a.size
  hasEdge_iff : ∀ p s q, b.HasEdge p s q ↔
    a.HasEdge p s q ∨ (.addEdge p s q ∈ insertions ∧ p < a.size ∧ q < a.size)
  isFinal_iff : ∀ q, b.isFinal q = true ↔
    a.isFinal q = true ∨ (.setFinal q ∈ insertions ∧ q < a.size)

/-- No operations insert nothing. -/
theorem inserted_nil (ha : a.WellFormed) : Inserted a a [] where
  wellFormed := ha
  size_eq := rfl
  hasEdge_iff := by simp
  isFinal_iff := by simp

/-- One edge is inserted, or refused because one of its ends is unknown: `Inserted` says so either
way. -/
theorem inserted_addEdge (ha : a.WellFormed) (p : StateId) (s : Symbol) (q : StateId) :
    Inserted a ((Operation.addEdge p s q).apply a) [.addEdge p s q] := by
  rw [apply_addEdge]
  split
  · next h =>
    refine ⟨ha.withEdge h.2, size_withEdge, fun x t y => ?_, fun x => ?_⟩
    · rw [ha.hasEdge_withEdge h.1 h.2, List.mem_singleton, Operation.addEdge.injEq]
      grind
    · rw [isFinal_withEdge]
      simp
  · -- refused: the automaton stays, and the edge is not between states of it
    next h =>
    refine ⟨ha, rfl, fun x t y => ?_, by simp⟩
    rw [List.mem_singleton, Operation.addEdge.injEq]
    grind

/-- One final mark is inserted, or refused. -/
theorem inserted_setFinal (ha : a.WellFormed) (id : StateId) :
    Inserted a ((Operation.setFinal id).apply a) [.setFinal id] := by
  rw [apply_setFinal]
  split
  · next h =>
    refine ⟨ha.withFinal, size_withFinal, fun x t y => ?_, fun x => ?_⟩
    · rw [ha.hasEdge_withFinal]
      simp
    · rw [isFinal_withFinal h, List.mem_singleton, Operation.setFinal.injEq]
      grind
  · next h =>
    refine ⟨ha, rfl, by simp, fun x => ?_⟩
    rw [List.mem_singleton, Operation.setFinal.injEq]
    grind

/-- Insertions add up. The known states stay the same, so what is refused first is refused later. -/
theorem Inserted.append {others : List Operation} (h : Inserted a b insertions)
    (h' : Inserted b c others) : Inserted a c (insertions ++ others) where
  wellFormed := h'.wellFormed
  size_eq := h'.size_eq.trans h.size_eq
  hasEdge_iff p s q := by
    rw [h'.hasEdge_iff, h.hasEdge_iff, h.size_eq, List.mem_append]
    grind
  isFinal_iff q := by
    rw [h'.isFinal_iff, h.isFinal_iff, h.size_eq, List.mem_append]
    grind

/-- What operations insert depends on them as a set. -/
theorem Inserted.unique {others : List Operation} (h : Inserted a b insertions)
    (h' : Inserted a c others) (hsame : ∀ operation, operation ∈ others ↔ operation ∈ insertions) :
    c = b := by
  refine h'.wellFormed.ext h.wellFormed (h'.size_eq.trans h.size_eq.symm) (fun p s q => ?_)
    fun q => ?_
  · rw [h'.hasEdge_iff, h.hasEdge_iff, hsame]
  · rw [Bool.eq_iff_iff, h'.isFinal_iff, h.isFinal_iff, hsame]

/-- A run that makes no state inserts what its operations insert, one after the other. -/
theorem WellFormed.inserted_run (ha : a.WellFormed) (h : .addState ∉ insertions) :
    Inserted a (insertions.foldl Operation.apply a) insertions := by
  induction insertions generalizing a with
  | nil => exact inserted_nil ha
  | cons operation insertions ih =>
    have hfirst : Inserted a (operation.apply a) [operation] := by
      cases operation with
      | addState => exact absurd List.mem_cons_self h
      | addEdge p s q => exact inserted_addEdge ha p s q
      | setFinal id => exact inserted_setFinal ha id
    exact hfirst.append
      (ih hfirst.wellFormed fun hmem => h (List.mem_cons_of_mem _ hmem))

/-- The edges of an automaton with those that operations insert between its states. -/
def edgesWith (a : Automaton) (insertions : List Operation) : Set Edge :=
  {edge | edge ∈ a.edges ∨
    .addEdge edge.source edge.symbol edge.target ∈ insertions ∧
      edge.source < a.size ∧ edge.target < a.size}

/-- The edges of the new automaton are the old ones and those inserted. -/
theorem Inserted.mem_edges {edge : Edge} (h : Inserted a b insertions) :
    edge ∈ b.edges ↔ edge ∈ a.edgesWith insertions :=
  h.hasEdge_iff edge.source edge.symbol edge.target

/-- There are as many listed edges as members of the set, because none is listed twice. -/
theorem Inserted.length_edges (h : Inserted a b insertions) :
    b.edges.length = (a.edgesWith insertions).ncard := by
  have hset : a.edgesWith insertions = b.edges.toFinset := by
    ext edge
    rw [List.coe_toFinset]
    exact h.mem_edges.symm
  rw [hset, Set.ncard_coe_finset, List.toFinset_card_of_nodup h.wellFormed.nodup_edges]

/-- Whatever an automaton was grown from, operations that make no state insert edges and final marks
as a set: their order and repetition do not show. The edges are then the old ones and those whose
two ends exist, in strictly increasing order, and their number and characters are those of that
set. -/
theorem grow_insertions (operations insertions : List Operation) (h : .addState ∉ insertions) :
    let a := grow operations
    let b := grow (operations ++ insertions)
    (∀ others : List Operation, (∀ operation, operation ∈ others ↔ operation ∈ insertions) →
      grow (operations ++ others) = b) ∧
    (∀ edge, edge ∈ b.edges ↔ edge ∈ a.edgesWith insertions) ∧
    b.edges.Nodup ∧ b.edges.Pairwise Edge.Before ∧
    b.edges.length = (a.edgesWith insertions).ncard ∧
    ∀ c, c ∈ b.alphabet ↔ ∃ edge ∈ a.edgesWith insertions, edge.symbol = .char c := by
  intro a b
  -- both runs go on from `a`, the one with the other operations too
  have ha : a.WellFormed := wellFormed_grow operations
  have hrun : ∀ {others : List Operation}, .addState ∉ others →
      Inserted a (grow (operations ++ others)) others := by
    intro others hothers
    have hgrow : grow (operations ++ others) = others.foldl Operation.apply a :=
      List.foldl_append
    rw [hgrow]
    exact ha.inserted_run hothers
  have hinserted : Inserted a b insertions := hrun h
  refine ⟨fun others hsame => ?_, fun edge => hinserted.mem_edges,
    hinserted.wellFormed.nodup_edges, hinserted.wellFormed.edges_sorted, hinserted.length_edges,
    fun c => ?_⟩
  · exact hinserted.unique (hrun (mt (hsame _).1 h)) hsame
  · rw [mem_alphabet]
    simp only [hinserted.mem_edges]

/-- Five insertions between two states, of which one comes twice and one names an unknown state.
Shuffled, with another one coming twice, they make the same automaton, and it has two edges. -/
theorem grow_insertions_shuffled :
    let insertions : List Operation :=
      [.addEdge 1 (.char 'b') 0, .setFinal 1, .addEdge 7 (.char 'c') 0, .addEdge 0 .epsilon 1,
        .addEdge 1 (.char 'b') 0]
    let others : List Operation :=
      [.addEdge 0 .epsilon 1, .addEdge 7 (.char 'c') 0, .setFinal 1, .addEdge 1 (.char 'b') 0,
        .setFinal 1]
    .addState ∉ insertions ∧
    grow ([.addState, .addState] ++ others) = grow ([.addState, .addState] ++ insertions) ∧
    ((grow [.addState, .addState]).edgesWith insertions).ncard = 2 := by
  intro insertions others
  have hinsertions : .addState ∉ insertions := by decide
  have hsame : ∀ operation, operation ∈ others ↔ operation ∈ insertions := by
    intro operation
    simp only [others, insertions, List.mem_cons, List.not_mem_nil]
    tauto
  obtain ⟨hset, -, -, -, hlength, -⟩ :=
    grow_insertions [.addState, .addState] insertions hinsertions
  have hedges : (grow ([.addState, .addState] ++ insertions)).edges
      = [⟨0, .epsilon, 1⟩, ⟨1, .char 'b', 0⟩] := by rfl
  rw [hedges] at hlength
  exact ⟨hinsertions, hset others hsame, hlength.symm⟩

end Automaton

end PatternGraph
