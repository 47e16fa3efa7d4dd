import PatternGraph.Automaton.Basic

/-!
# Growth of automata — what one operation does, and what any run of them keeps

1. `Automaton.HasEdge` reads the list of edges as a relation, and each operation is described by
   what it does to that relation.
2. `Automaton.WellFormed` is the representation invariant: states are numbered by their places,
   every edge leads to a state, and the rows of a state are in order and none is without a target.
3. `Automaton.grow` runs any list of operations from the empty automaton, a refused one changing
   nothing; `wellFormed_grow` carries the invariant along.
-/

namespace PatternGraph

/-! ## Rows and states -/

/-- An edge among the rows of a state. -/
def Row.Leads (rows : List Row) (symbol : Symbol) (target : StateId) : Prop :=
  ∃ row ∈ rows, row.symbol = symbol ∧ target ∈ row.targets

/-- An inserted edge is among the rows, and so is every edge that was there; nothing else is. -/
theorem Row.leads_insertEdge {rows : List Row} {s t : Symbol} {p q : StateId} :
    Row.Leads (Row.insertEdge s p rows) t q ↔ (t = s ∧ q = p) ∨ Row.Leads rows t q := by
  unfold Row.Leads
  induction rows with
  | nil =>
    simp only [Row.insertEdge, List.mem_singleton, exists_eq_left, OrderedSet.mem_ofList]
    grind
  | cons row rows ih =>
    unfold Row.insertEdge
    split
    · simp only [List.mem_cons, exists_eq_or_imp, OrderedSet.mem_ofList, List.not_mem_nil, or_false]
      grind
    -- the symbol comes before all rows, has a row, or belongs further back
    · split
      · simp only [List.mem_cons, exists_eq_or_imp, OrderedSet.mem_insert]
        grind
      · simp only [List.mem_cons, exists_eq_or_imp]
        rw [ih]
        grind

/-- The invariant of a state: its rows are in order, and each of them leads somewhere. -/
structure State.WellFormed (state : State) : Prop where
  sorted : state.rows.Pairwise fun r t => rank r.symbol < rank t.symbol
  inhabited : ∀ row ∈ state.rows, ∃ q, q ∈ row.targets

/-- A row behind an insertion is the one of the inserted symbol or has the symbol of an old row. -/
theorem Row.symbol_of_mem_insertEdge {rows : List Row} {s : Symbol} {p : StateId} {row : Row}
    (h : row ∈ Row.insertEdge s p rows) : row.symbol = s ∨ ∃ r ∈ rows, r.symbol = row.symbol := by
  induction rows with
  | nil =>
    rw [Row.insertEdge, List.mem_singleton] at h
    exact .inl (by rw [h])
  | cons first rows ih =>
    unfold Row.insertEdge at h
    split at h
    · rcases List.mem_cons.1 h with rfl | h
      · exact .inl rfl
      · exact .inr ⟨row, h, rfl⟩
    · split at h
      · rcases List.mem_cons.1 h with rfl | h
        · exact .inr ⟨first, List.mem_cons_self, rfl⟩
        · exact .inr ⟨row, List.mem_cons_of_mem _ h, rfl⟩
      · rcases List.mem_cons.1 h with rfl | h
        · exact .inr ⟨row, List.mem_cons_self, rfl⟩
        · rcases ih h with h | ⟨r, hr, h⟩
          · exact .inl h
          · exact .inr ⟨r, List.mem_cons_of_mem _ hr, h⟩

/-- Insertion keeps the rows in order: a new row stands between those of smaller and larger symbols.
-/
theorem Row.sorted_insertEdge {rows : List Row} {s : Symbol} {p : StateId}
    (h : rows.Pairwise fun r t => rank r.symbol < rank t.symbol) :
    (Row.insertEdge s p rows).Pairwise fun r t => rank r.symbol < rank t.symbol := by
  induction rows with
  | nil => exact List.pairwise_singleton _ _
  | cons first rows ih =>
    have hfirst := List.pairwise_cons.1 h
    unfold Row.insertEdge
    split
    · next hlt =>
      refine List.pairwise_cons.2 ⟨fun r hr => ?_, h⟩
      rcases List.mem_cons.1 hr with rfl | hr
      · exact hlt
      · exact Nat.lt_trans hlt (hfirst.1 r hr)
    · next hle =>
      split
      · exact List.pairwise_cons.2 ⟨hfirst.1, hfirst.2⟩
      · next hne =>
        refine List.pairwise_cons.2 ⟨fun r hr => ?_, ih hfirst.2⟩
        -- what stands behind the first row is an old row or the new one, which comes later here
        rcases Row.symbol_of_mem_insertEdge hr with hs | ⟨t, ht, hs⟩
        · rw [hs]
          have : rank s ≠ rank first.symbol := fun heq => hne (rank_injective heq)
          omega
        · rw [← hs]
          exact hfirst.1 t ht

/-- Insertion leaves no row without a target. -/
theorem Row.inhabited_insertEdge {rows : List Row} {s : Symbol} {p : StateId}
    (h : ∀ row ∈ rows, ∃ q, q ∈ row.targets) :
    ∀ row ∈ Row.insertEdge s p rows, ∃ q, q ∈ row.targets := by
  induction rows with
  | nil =>
    intro row hrow
    rw [Row.insertEdge, List.mem_singleton] at hrow
    exact ⟨p, by simp [hrow]⟩
  | cons first rows ih =>
    intro row hrow
    unfold Row.insertEdge at hrow
    split at hrow
    · rcases List.mem_cons.1 hrow with rfl | hrow
      · exact ⟨p, by simp⟩
      · exact h row hrow
    · split at hrow
      · rcases List.mem_cons.1 hrow with rfl | hrow
        · exact ⟨p, by simp⟩
        · exact h row (List.mem_cons_of_mem _ hrow)
      · rcases List.mem_cons.1 hrow with rfl | hrow
        · exact h row List.mem_cons_self
        · exact ih (fun r hr => h r (List.mem_cons_of_mem _ hr)) row hrow

namespace State

/-- A fresh state has no rows, so there is nothing to go wrong. -/
theorem wellFormed_fresh (id : StateId) : (fresh id).WellFormed :=
  ⟨List.Pairwise.nil, fun _ h => absurd h List.not_mem_nil⟩

theorem WellFormed.insertEdge {state : State} (h : state.WellFormed) (s : Symbol) (q : StateId) :
    (state.insertEdge s q).WellFormed :=
  ⟨Row.sorted_insertEdge h.sorted, Row.inhabited_insertEdge h.inhabited⟩

theorem WellFormed.setFinal {state : State} (h : state.WellFormed) : state.setFinal.WellFormed :=
  ⟨h.sorted, h.inhabited⟩

/-- With its rows in order a state has one row for a symbol, so that looking the symbol up finds
every edge. -/
theorem WellFormed.mem_targets {state : State} (h : state.WellFormed) {s : Symbol} {q : StateId} :
    q ∈ state.targets s ↔ Row.Leads state.rows s q := by
  unfold State.targets
  constructor
  · intro hq
    split at hq
    · next row hrow =>
      exact ⟨row, List.mem_of_find?_eq_some hrow, by simpa using List.find?_some hrow, hq⟩
    · exact absurd hq (OrderedSet.not_mem_empty q)
  · rintro ⟨row, hrow, rfl, hq⟩
    have hfind : state.rows.find? (·.symbol = row.symbol) = some row := by
      rw [List.find?_eq_some_iff_append]
      rcases List.append_of_mem hrow with ⟨before, behind, heq⟩
      -- every row before this one is strictly smaller, so it has another symbol
      refine ⟨by simp, before, behind, heq, fun r hr => ?_⟩
      have hsorted := h.sorted
      rw [heq] at hsorted
      have hlt := (List.pairwise_append.1 hsorted).2.2 r hr row List.mem_cons_self
      have hne : r.symbol ≠ row.symbol := fun hs => Nat.lt_irrefl _ (hs ▸ hlt)
      simpa using hne
    rw [hfind]
    exact hq

/-- A row never stands without a target, so a row is as good as an edge. -/
theorem WellFormed.hasEdges_iff {state : State} (h : state.WellFormed) :
    state.hasEdges = true ↔ ∃ s q, Row.Leads state.rows s q := by
  unfold State.hasEdges
  cases hrows : state.rows with
  | nil => simp [Row.Leads]
  | cons row rows =>
    rcases h.inhabited row (hrows ▸ List.mem_cons_self) with ⟨q, hq⟩
    exact ⟨fun _ => ⟨row.symbol, q, row, List.mem_cons_self, rfl, hq⟩, fun _ => rfl⟩

end State

/-! ## Edges of an automaton -/

namespace Automaton

/-- An edge of an automaton, as a relation of its ends and its symbol. -/
def HasEdge (a : Automaton) (source : StateId) (symbol : Symbol) (target : StateId) : Prop :=
  (⟨source, symbol, target⟩ : Edge) ∈ a.edges

/-- The representation invariant of an automaton. -/
structure WellFormed (a : Automaton) : Prop where
  nextId_eq : a.nextId = a.size
  initial_eq : a.initial = 0
  id_eq : ∀ {p state}, a.state? p = some state → state.id = p
  state_wf : ∀ {p state}, a.state? p = some state → state.WellFormed
  target_lt : ∀ {p state s q}, a.state? p = some state → Row.Leads state.rows s q → q < a.size

/-- The states of the list are those at some place. -/
theorem mem_states_iff {a : Automaton} {state : State} :
    state ∈ a.states.toList ↔ ∃ p, a.state? p = some state := by
  rw [List.mem_iff_getElem?]
  simp [state?]

/-- The known identifiers are the numbers below the size. -/
theorem state?_isSome_iff {a : Automaton} {p : StateId} :
    (∃ state, a.state? p = some state) ↔ p < a.size := by
  rw [← Option.isSome_iff_exists]
  simp [state?, size]

/-- States carry their places as identifiers, so the listed edges of a state are those stored
there. -/
theorem WellFormed.hasEdge_iff {a : Automaton} (h : a.WellFormed) {p q : StateId} {s : Symbol} :
    a.HasEdge p s q ↔ ∃ state, a.state? p = some state ∧ Row.Leads state.rows s q := by
  unfold HasEdge edges Row.Leads
  simp only [List.mem_flatMap, List.mem_map, mem_states_iff, Edge.mk.injEq]
  constructor
  · -- a listed edge names its source by the identifier of the state, which is its place
    rintro ⟨state, ⟨i, hi⟩, row, hrow, t, ht, hid, hs, rfl⟩
    rw [h.id_eq hi] at hid
    exact ⟨state, hid ▸ hi, row, hrow, hs, ht⟩
  · rintro ⟨state, hstate, row, hrow, hs, hq⟩
    exact ⟨state, ⟨p, hstate⟩, row, hrow, q, hq, h.id_eq hstate, hs, rfl⟩

/-- Looking a symbol up at a state finds the edges of the automaton. -/
theorem WellFormed.mem_targets {a : Automaton} (h : a.WellFormed) {p q : StateId} {s : Symbol} :
    q ∈ a.targets p s ↔ a.HasEdge p s q := by
  rw [h.hasEdge_iff, Automaton.targets]
  cases hp : a.state? p with
  | none => simp
  | some state => simp [(h.state_wf hp).mem_targets]

/-- A state has a row exactly if an edge leaves it. -/
theorem WellFormed.hasEdges_iff {a : Automaton} (h : a.WellFormed) {p : StateId} :
    a.hasEdges p = true ↔ ∃ s q, a.HasEdge p s q := by
  simp only [h.hasEdge_iff, Automaton.hasEdges]
  cases hp : a.state? p with
  | none => simp
  | some state => simp [(h.state_wf hp).hasEdges_iff]

/-- Edges run between states: neither end is unknown. -/
theorem WellFormed.edge_lt {a : Automaton} (h : a.WellFormed) {p q : StateId} {s : Symbol}
    (he : a.HasEdge p s q) : p < a.size ∧ q < a.size := by
  rcases h.hasEdge_iff.1 he with ⟨state, hp, hq⟩
  exact ⟨state?_isSome_iff.1 ⟨state, hp⟩, h.target_lt hp hq⟩

/-- The final states that are listed are the states with the mark. -/
theorem WellFormed.mem_finals {a : Automaton} (h : a.WellFormed) {q : StateId} :
    q ∈ a.finals ↔ a.isFinal q = true := by
  simp only [finals, List.mem_map, List.mem_filter, mem_states_iff, isFinal, Option.any_eq_true]
  constructor
  · rintro ⟨state, ⟨⟨p, hp⟩, hfinal⟩, rfl⟩
    exact ⟨state, h.id_eq hp ▸ hp, hfinal⟩
  · rintro ⟨state, hq, hfinal⟩
    exact ⟨state, ⟨⟨q, hq⟩, hfinal⟩, h.id_eq hq⟩

/-! ## One operation -/

/-- The automaton behind a new state. -/
def withState (a : Automaton) : Automaton :=
  a.addState.2

/-- The automaton behind a new edge. -/
def withEdge (a : Automaton) (source : StateId) (symbol : Symbol) (target : StateId) : Automaton :=
  { a with states := a.states.modify source (·.insertEdge symbol target) }

/-- The automaton behind a final mark. -/
def withFinal (a : Automaton) (id : StateId) : Automaton :=
  { a with states := a.states.modify id State.setFinal }

variable {a b : Automaton} {p q x y id : StateId} {s t : Symbol}

/-- Between two known states an edge is added. -/
theorem addEdge_eq_ok (hp : p < a.size) (hq : q < a.size) :
    a.addEdge p s q = .ok (a.withEdge p s q) := by
  unfold size at hp hq
  unfold addEdge
  rw [if_pos hq, if_pos hp, withEdge]

/-- An unknown target is reported whatever the source is. -/
theorem addEdge_eq_error_target (hq : a.size ≤ q) : a.addEdge p s q = .error ⟨q⟩ := by
  unfold size at hq
  unfold addEdge
  rw [if_neg (Nat.not_lt.2 hq)]

/-- An unknown source is reported if the target is known. -/
theorem addEdge_eq_error_source (hp : a.size ≤ p) (hq : q < a.size) :
    a.addEdge p s q = .error ⟨p⟩ := by
  unfold size at hp hq
  unfold addEdge
  rw [if_pos hq, if_neg (Nat.not_lt.2 hp)]

/-- What an added edge presupposes, and what it makes: the inverse of `addEdge_eq_ok`. -/
theorem of_addEdge_eq_ok (h : a.addEdge p s q = .ok b) :
    p < a.size ∧ q < a.size ∧ b = a.withEdge p s q := by
  unfold addEdge at h
  split at h
  · next hq =>
    split at h
    · next hp =>
      cases h
      exact ⟨hp, hq, rfl⟩
    · cases h
  · cases h

theorem setFinal_eq_ok (h : id < a.size) : a.setFinal id = .ok (a.withFinal id) := by
  unfold size at h
  unfold setFinal
  rw [if_pos h, withFinal]

theorem setFinal_eq_error (h : a.size ≤ id) : a.setFinal id = .error ⟨id⟩ := by
  unfold size at h
  unfold setFinal
  rw [if_neg (Nat.not_lt.2 h)]

/-- What an accepted final mark presupposes, and what it makes: the inverse of `setFinal_eq_ok`. -/
theorem of_setFinal_eq_ok (h : a.setFinal id = .ok b) : id < a.size ∧ b = a.withFinal id := by
  unfold setFinal at h
  split at h
  · next hid =>
    cases h
    exact ⟨hid, rfl⟩
  · cases h

@[simp] theorem size_withState : a.withState.size = a.size + 1 := by
  simp [withState, addState, size]

@[simp] theorem size_withEdge : (a.withEdge p s q).size = a.size := by
  simp [withEdge, size]

@[simp] theorem size_withFinal : (a.withFinal id).size = a.size := by
  simp [withFinal, size]

theorem lt_size_withState (hp : p < a.size) : p < a.withState.size := by
  rw [size_withState]
  exact Nat.lt_succ_of_lt hp

theorem size_lt_size_withState : a.size < a.withState.size := by
  rw [size_withState]
  exact Nat.lt_succ_self a.size

/-- The new state stands at the first free place, all others stay. -/
theorem state?_withState :
    a.withState.state? x = if x = a.size then some (State.fresh a.nextId) else a.state? x := by
  unfold withState addState state? size
  exact Array.getElem?_push

/-- A new edge changes its source alone. -/
theorem state?_withEdge :
    (a.withEdge p s q).state? x
      = if p = x then (a.state? x).map (·.insertEdge s q) else a.state? x := by
  simp [withEdge, state?, Array.getElem?_modify]

/-- A final mark changes the marked state alone. -/
theorem state?_withFinal :
    (a.withFinal id).state? x = if id = x then (a.state? x).map State.setFinal else a.state? x := by
  simp [withFinal, state?, Array.getElem?_modify]

theorem state?_size : a.state? a.size = none := by
  simp [state?, size]

/-! ### The invariant -/

/-- The empty automaton is well-formed, having no state to look at. -/
theorem wellFormed_empty : (∅ : Automaton).WellFormed := by
  have hnone : ∀ p, (∅ : Automaton).state? p = none := fun p => rfl
  constructor
  · rfl
  · rfl
  · intro p state hp
    rw [hnone] at hp
    cases hp
  · intro p state hp
    rw [hnone] at hp
    cases hp
  · intro p state s q hp
    rw [hnone] at hp
    cases hp

/-- A new state keeps the invariant: its place is its number, and it has no edges yet. -/
theorem WellFormed.withState (h : a.WellFormed) : a.withState.WellFormed := by
  constructor
  · rw [size_withState, ← h.nextId_eq]
    rfl
  · exact h.initial_eq
  · intro p state hp
    rw [state?_withState] at hp
    split at hp
    -- the new state is numbered by the counter, which the invariant ties to the size
    · next hsize =>
      cases hp
      rw [hsize, ← h.nextId_eq]
      rfl
    · exact h.id_eq hp
  · intro p state hp
    rw [state?_withState] at hp
    split at hp
    · cases hp
      exact State.wellFormed_fresh _
    · exact h.state_wf hp
  · intro p state s q hp hq
    rw [state?_withState] at hp
    rw [size_withState]
    split at hp
    · cases hp
      rcases hq with ⟨row, hrow, _⟩
      exact absurd hrow List.not_mem_nil
    · exact Nat.lt_succ_of_lt (h.target_lt hp hq)

/-- An operation that changes states in place keeps the invariant if each new state keeps its
identifier and is in order, and its new edges lead to states. -/
theorem WellFormed.of_states (h : a.WellFormed) (hnext : b.nextId = a.nextId)
    (hinitial : b.initial = a.initial) (hsize : b.size = a.size)
    (hstate : ∀ {x state}, b.state? x = some state → ∃ old, a.state? x = some old ∧
      state.id = old.id ∧ state.WellFormed ∧
      ∀ t y, Row.Leads state.rows t y → Row.Leads old.rows t y ∨ y < a.size) :
    b.WellFormed := by
  constructor
  · rw [hnext, hsize]
    exact h.nextId_eq
  · rw [hinitial]
    exact h.initial_eq
  · intro x state hx
    rcases hstate hx with ⟨old, hold, hid, _⟩
    rw [hid]
    exact h.id_eq hold
  · intro x state hx
    rcases hstate hx with ⟨_, _, _, hwf, _⟩
    exact hwf
  · intro x state t y hx hy
    rcases hstate hx with ⟨old, hold, _, _, hleads⟩
    rw [hsize]
    -- the target was one before, or is a state that was there before
    rcases hleads t y hy with hy | hy
    · exact h.target_lt hold hy
    · exact hy

/-- A new edge to a known state keeps the invariant. -/
theorem WellFormed.withEdge (h : a.WellFormed) (hq : q < a.size) :
    (a.withEdge p s q).WellFormed := by
  refine h.of_states rfl rfl size_withEdge fun {x state} hx => ?_
  rw [state?_withEdge] at hx
  split at hx
  · rcases Option.map_eq_some_iff.1 hx with ⟨old, hold, rfl⟩
    refine ⟨old, hold, rfl, (h.state_wf hold).insertEdge s q, fun t y hy => ?_⟩
    rcases Row.leads_insertEdge.1 hy with ⟨_, rfl⟩ | hy
    · exact .inr hq
    · exact .inl hy
  · exact ⟨state, hx, rfl, h.state_wf hx, fun t y hy => .inl hy⟩

/-- A final mark keeps the invariant. -/
theorem WellFormed.withFinal (h : a.WellFormed) : (a.withFinal id).WellFormed := by
  refine h.of_states rfl rfl size_withFinal fun {x state} hx => ?_
  rw [state?_withFinal] at hx
  split at hx
  · rcases Option.map_eq_some_iff.1 hx with ⟨old, hold, rfl⟩
    exact ⟨old, hold, rfl, (h.state_wf hold).setFinal, fun t y hy => .inl hy⟩
  · exact ⟨state, hx, rfl, h.state_wf hx, fun t y hy => .inl hy⟩

/-! ### Edges and final marks -/

/-- A new state has no edges, and no edge is lost. -/
theorem WellFormed.hasEdge_withState (h : a.WellFormed) :
    a.withState.HasEdge x t y ↔ a.HasEdge x t y := by
  rw [h.withState.hasEdge_iff, h.hasEdge_iff, state?_withState]
  split
  · next hx =>
    rw [hx, state?_size]
    simp [State.fresh, Row.Leads]
  · rfl

/-- Behind a new edge there are that edge and the old ones. -/
theorem WellFormed.hasEdge_withEdge (h : a.WellFormed) (hp : p < a.size) (hq : q < a.size) :
    (a.withEdge p s q).HasEdge x t y ↔ (x = p ∧ t = s ∧ y = q) ∨ a.HasEdge x t y := by
  rw [(h.withEdge hq).hasEdge_iff, h.hasEdge_iff, state?_withEdge]
  by_cases hx : p = x
  · subst hx
    rcases state?_isSome_iff.2 hp with ⟨state, hstate⟩
    simp [hstate, State.insertEdge, Row.leads_insertEdge]
  · rw [if_neg hx]
    have hne : x ≠ p := fun hxp => hx hxp.symm
    simp [hne]

/-- A final mark neither adds nor takes an edge. -/
theorem WellFormed.hasEdge_withFinal (h : a.WellFormed) :
    (a.withFinal id).HasEdge x t y ↔ a.HasEdge x t y := by
  rw [h.withFinal.hasEdge_iff, h.hasEdge_iff, state?_withFinal]
  by_cases hx : id = x
  · cases hstate : a.state? x with
    | none => simp
    | some state => simp [hx, State.setFinal]
  · rw [if_neg hx]

/-- Nothing leaves a new state that an edge has just led to. -/
theorem WellFormed.not_hasEdge_step (h : a.WellFormed) (hp : p < a.size) :
    ¬(a.withState.withEdge p s a.size).HasEdge a.size t y := by
  rw [h.withState.hasEdge_withEdge (lt_size_withState hp) size_lt_size_withState]
  rintro (⟨hsame, -, -⟩ | edge)
  · exact absurd hsame.symm (Nat.ne_of_lt hp)
  · exact absurd (h.edge_lt (h.hasEdge_withState.1 edge)).1 (Nat.lt_irrefl _)

/-- A new state is not final. -/
theorem isFinal_withState : a.withState.isFinal x = a.isFinal x := by
  unfold isFinal
  rw [state?_withState]
  split
  · next hx =>
    rw [hx, state?_size]
    rfl
  · rfl

/-- A new edge makes no state final. -/
theorem isFinal_withEdge : (a.withEdge p s q).isFinal x = a.isFinal x := by
  unfold isFinal
  rw [state?_withEdge]
  split
  · cases a.state? x with
    | none => rfl
    | some state => rfl
  · rfl

/-- Behind a final mark the marked state is final besides the old ones. -/
theorem isFinal_withFinal (h : id < a.size) :
    (a.withFinal id).isFinal x = true ↔ x = id ∨ a.isFinal x = true := by
  unfold isFinal
  rw [state?_withFinal]
  by_cases hx : id = x
  · subst hx
    rcases state?_isSome_iff.2 h with ⟨state, hstate⟩
    simp [hstate, State.setFinal]
  · have hne : x ≠ id := fun hxp => hx hxp.symm
    simp [hx, hne]

/-! ## Runs of operations -/

/-- One operation on an automaton; an ε edge is an edge by the symbol ε. -/
inductive Operation where
  | addState
  | addEdge (source : StateId) (symbol : Symbol) (target : StateId)
  | setFinal (id : StateId)
deriving Repr, DecidableEq

/-- The automaton behind an operation. One that is refused leaves it as it was. -/
def Operation.apply (a : Automaton) : Operation → Automaton
  | addState => a.addState.2
  | addEdge source symbol target =>
    match a.addEdge source symbol target with
    | .ok b => b
    | .error _ => a
  | setFinal id =>
    match a.setFinal id with
    | .ok b => b
    | .error _ => a

/-- Adding an edge does something only between known states. -/
theorem apply_addEdge :
    (Operation.addEdge p s q).apply a
      = if p < a.size ∧ q < a.size then a.withEdge p s q else a := by
  by_cases hq : q < a.size
  · by_cases hp : p < a.size
    · rw [if_pos ⟨hp, hq⟩]
      simp only [Operation.apply, addEdge_eq_ok hp hq]
    · rw [if_neg fun h => hp h.1]
      simp only [Operation.apply, addEdge_eq_error_source (Nat.not_lt.1 hp) hq]
  · rw [if_neg fun h => hq h.2]
    simp only [Operation.apply, addEdge_eq_error_target (Nat.not_lt.1 hq)]

/-- A final mark does something only on a known state. -/
theorem apply_setFinal :
    (Operation.setFinal id).apply a = if id < a.size then a.withFinal id else a := by
  by_cases hid : id < a.size
  · rw [if_pos hid]
    simp only [Operation.apply, setFinal_eq_ok hid]
  · rw [if_neg hid]
    simp only [Operation.apply, setFinal_eq_error (Nat.not_lt.1 hid)]

/-- The automaton that a list of operations makes from nothing. -/
def grow (operations : List Operation) : Automaton :=
  operations.foldl Operation.apply ∅

/-- Every operation keeps the invariant, refused or not. -/
theorem WellFormed.apply (h : a.WellFormed) (operation : Operation) :
    (operation.apply a).WellFormed := by
  cases operation with
  | addState => exact h.withState
  | addEdge source symbol target =>
    rw [apply_addEdge]
    split
    · next hlt => exact h.withEdge hlt.2
    · exact h
  | setFinal id =>
    rw [apply_setFinal]
    split
    · exact h.withFinal
    · exact h

/-- The invariant along a run, by induction on the operations from any well-formed automaton. -/
theorem WellFormed.run (h : a.WellFormed) (operations : List Operation) :
    (operations.foldl Operation.apply a).WellFormed := by
  induction operations generalizing a with
  | nil => exact h
  | cons operation operations ih => exact ih (h.apply operation)

/-- The invariant holds of every automaton that operations can make. -/
theorem wellFormed_grow (operations : List Operation) : (grow operations).WellFormed :=
  wellFormed_empty.run operations

end Automaton

end PatternGraph
