import PatternGraph.Automaton.Acceptance
import PatternGraph.Proofs.Automaton.Growth
import PatternGraph.Proofs.Automaton.Path

/-!
# Simulation — the set of states that a word reaches is the set that paths reach

1. The worklist keeps an invariant (`closeFrom_closed`): every state that has been counted in and is
   not pending has all its ε targets counted in. So what it ends with is closed, and it is the least
   closed set above the one it started from (`closeFrom_least`).
2. `mem_foldl_step` relates moving whole sets to single paths, by induction on the word.
3. `mem_reach_grow_and_accepts_iff` puts both together for every automaton that operations make.
-/

namespace PatternGraph.Automaton

variable {a : Automaton} {p q : StateId} {c : Char} {ids seen pending : OrderedSet StateId}

/-! ## The closure -/

/-- A set that no ε edge leaves. -/
def EpsilonClosed (a : Automaton) (ids : OrderedSet StateId) : Prop :=
  ∀ p ∈ ids, ∀ q ∈ a.targets p .epsilon, q ∈ ids

/-- What is counted in stays counted in. -/
theorem subset_closeFrom (h : p ∈ seen) : p ∈ a.closeFrom seen pending := by
  fun_induction closeFrom a seen pending with
  | case1 => exact h
  | case2 seen pending fresh _ ih => exact ih (OrderedSet.mem_union.2 (.inl h))

/-- The invariant of the worklist: only pending states may have ε targets that are not counted
in. -/
theorem closeFrom_closed (hpending : ∀ p ∈ pending, p ∈ seen)
    (hinv : ∀ p ∈ seen, p ∉ pending → ∀ q ∈ a.targets p .epsilon, q ∈ seen) :
    a.EpsilonClosed (a.closeFrom seen pending) := by
  fun_induction closeFrom a seen pending with
  | case1 seen pending fresh hempty =>
    intro p hp q hq
    by_cases hmem : p ∈ pending
    · by_cases hseen : q ∈ seen
      · exact hseen
      · have hfresh : q ∈ fresh :=
          OrderedSet.mem_diff.2 ⟨OrderedSet.mem_bind.2 ⟨p, hmem, hq⟩, hseen⟩
        -- nothing is fresh, so the target had been counted in already
        rw [OrderedSet.isEmpty_iff.1 hempty] at hfresh
        exact absurd hfresh (OrderedSet.not_mem_empty q)
    · exact hinv p hp hmem q hq
  | case2 seen pending fresh _ ih =>
    apply ih
    · intro p hp
      exact OrderedSet.mem_union.2 (.inr hp)
    · intro p hp hnew q hq
      rw [OrderedSet.mem_union] at hp ⊢
      rcases hp with hp | hp
      · by_cases hmem : p ∈ pending
        · -- the ε targets of a pending state are seen already, or they are what is fresh
          by_cases hseen : q ∈ seen
          · exact .inl hseen
          · exact .inr (OrderedSet.mem_diff.2 ⟨OrderedSet.mem_bind.2 ⟨p, hmem, hq⟩, hseen⟩)
        · exact .inl (hinv p hp hmem q hq)
      · exact absurd hp hnew

/-- Whatever holds of the start and is carried along ε edges holds of all that is counted in. -/
theorem closeFrom_least {P : StateId → Prop} (hseen : ∀ p ∈ seen, P p)
    (hpending : ∀ p ∈ pending, P p) (hstep : ∀ p, P p → ∀ q ∈ a.targets p .epsilon, P q)
    (h : q ∈ a.closeFrom seen pending) : P q := by
  fun_induction closeFrom a seen pending with
  | case1 => exact hseen q h
  | case2 seen pending fresh _ ih =>
    -- a fresh state is the target of an ε edge from a pending one
    have hfresh : ∀ p ∈ fresh, P p := by
      intro p hp
      rcases OrderedSet.mem_bind.1 (OrderedSet.mem_diff.1 hp).1 with ⟨x, hx, hedge⟩
      exact hstep x (hpending x hx) p hedge
    refine ih (fun p hp => ?_) hfresh h
    rcases OrderedSet.mem_union.1 hp with hp | hp
    · exact hseen p hp
    · exact hfresh p hp

theorem subset_epsilonClosure (h : p ∈ ids) : p ∈ a.epsilonClosure ids :=
  subset_closeFrom h

/-- The closure is closed: at the start everything is pending, so the invariant asks for nothing. -/
theorem epsilonClosure_closed (a : Automaton) (ids : OrderedSet StateId) :
    a.EpsilonClosed (a.epsilonClosure ids) :=
  closeFrom_closed (fun _ hp => hp) fun _ hp hnot => absurd hp hnot

/-- A path that spells nothing does not leave a closed set. -/
theorem WellFormed.mem_of_path_nil (h : a.WellFormed) (hclosed : a.EpsilonClosed ids)
    (hpath : Path a.HasEdge p [] q) (hp : p ∈ ids) : q ∈ ids := by
  generalize hword : ([] : List Char) = word at hpath
  induction hpath with
  | nil p => exact hp
  | @cons p x r s v edge rest ih =>
    cases s with
    | epsilon => exact ih (hclosed p hp x (h.mem_targets.2 edge)) hword
    | char d => cases hword

/-- The closure of a set is what paths that spell nothing reach from it. -/
theorem WellFormed.mem_epsilonClosure (h : a.WellFormed) :
    q ∈ a.epsilonClosure ids ↔ ∃ p ∈ ids, Path a.HasEdge p [] q := by
  constructor
  · intro hq
    -- being reached without reading anything is carried along ε edges
    have hstart : ∀ p ∈ ids, ∃ x ∈ ids, Path a.HasEdge x [] p := fun p hp => ⟨p, hp, .nil p⟩
    refine closeFrom_least (P := fun q => ∃ x ∈ ids, Path a.HasEdge x [] q) hstart hstart ?_ hq
    rintro p ⟨x, hx, hpath⟩ q hedge
    exact ⟨x, hx, hpath.append (.epsilon (h.mem_targets.1 hedge) (.nil q))⟩
  · rintro ⟨p, hp, hpath⟩
    exact h.mem_of_path_nil (epsilonClosure_closed a ids) hpath (subset_epsilonClosure hp)

/-! ## Steps and words -/

/-- A step reaches the states behind one edge by the character and ε edges after it. -/
theorem WellFormed.mem_step (h : a.WellFormed) :
    q ∈ a.step ids c ↔ ∃ p ∈ ids, ∃ x, a.HasEdge p (.char c) x ∧ Path a.HasEdge x [] q := by
  unfold step
  rw [h.mem_epsilonClosure]
  constructor
  · rintro ⟨x, hx, hpath⟩
    rcases OrderedSet.mem_bind.1 hx with ⟨p, hp, hedge⟩
    exact ⟨p, hp, x, h.mem_targets.1 hedge, hpath⟩
  · rintro ⟨p, hp, x, hedge, hpath⟩
    exact ⟨x, OrderedSet.mem_bind.2 ⟨p, hp, h.mem_targets.2 hedge⟩, hpath⟩

/-- A step ends in a closed set. -/
theorem step_closed (a : Automaton) (ids : OrderedSet StateId) (c : Char) :
    a.EpsilonClosed (a.step ids c) :=
  epsilonClosure_closed a _

/-- From a closed set on, moving sets along a word reaches what single paths reach. The ε edges of
a path are taken by the closures: those before a character by the closure of the set that the
character is read from. -/
theorem WellFormed.mem_foldl_step (h : a.WellFormed) {word : List Char}
    (hclosed : a.EpsilonClosed ids) :
    q ∈ word.foldl a.step ids ↔ ∃ p ∈ ids, Path a.HasEdge p word q := by
  induction word generalizing ids with
  | nil =>
    constructor
    · intro hq
      exact ⟨q, hq, .nil q⟩
    · rintro ⟨p, hp, hpath⟩
      exact h.mem_of_path_nil hclosed hpath hp
  | cons c word ih =>
    rw [List.foldl_cons, ih (step_closed a ids c)]
    constructor
    · rintro ⟨y, hy, hrest⟩
      rcases h.mem_step.1 hy with ⟨p, hp, x, hedge, hepsilon⟩
      exact ⟨p, hp, .char hedge (hepsilon.append hrest)⟩
    · rintro ⟨p, hp, hpath⟩
      -- the ε edges up to the character stay in the closed set, those behind it are the step's
      rcases hpath.split_cons with ⟨x, y, hepsilon, hedge, hrest⟩
      have hx : x ∈ ids := h.mem_of_path_nil hclosed hepsilon hp
      exact ⟨y, h.mem_step.2 ⟨x, hx, y, hedge, .nil y⟩, hrest⟩

/-- The states that a word reaches are the ends of the paths that spell it from the initial state.
-/
theorem WellFormed.mem_reach (h : a.WellFormed) {word : List Char} :
    q ∈ a.reach word ↔ Path a.HasEdge a.initial word q := by
  unfold reach start
  rw [h.mem_foldl_step (epsilonClosure_closed a _)]
  constructor
  · rintro ⟨p, hp, hrest⟩
    -- the simulation starts in the closure of the initial state, which is a path before the word
    rcases h.mem_epsilonClosure.1 hp with ⟨x, hx, hepsilon⟩
    rw [OrderedSet.mem_ofList, List.mem_singleton] at hx
    subst hx
    exact hepsilon.append hrest
  · intro hpath
    have hinitial : a.initial ∈ OrderedSet.ofList [a.initial] := by simp
    exact ⟨a.initial, subset_epsilonClosure hinitial, hpath⟩

/-! ## Acceptance -/

/-- The empty set leads nowhere. -/
theorem step_empty (a : Automaton) (c : Char) : a.step ∅ c = ∅ := by
  have hmoved : ∀ p, p ∉ (∅ : OrderedSet StateId).bind fun id => a.targets id (.char c) := by
    intro p hp
    rcases OrderedSet.mem_bind.1 hp with ⟨x, hx, _⟩
    exact OrderedSet.not_mem_empty x hx
  ext q
  constructor
  · intro hq
    -- what holds of nothing is carried along every edge
    exact (closeFrom_least (P := fun _ => False) hmoved hmoved (fun _ h _ _ => h) hq).elim
  · intro hq
    exact absurd hq (OrderedSet.not_mem_empty q)

theorem foldl_step_empty (a : Automaton) (word : List Char) : word.foldl a.step ∅ = ∅ := by
  induction word with
  | nil => rfl
  | cons c word ih => rw [List.foldl_cons, step_empty, ih]

/-- A set that has run empty stays empty, so that refusing at once is refusing in the end. -/
theorem acceptsFrom_eq (a : Automaton) (ids : OrderedSet StateId) (word : List Char) :
    a.acceptsFrom ids word = (word.foldl a.step ids).any a.isFinal := by
  induction word generalizing ids with
  | nil => rfl
  | cons c word ih =>
    unfold acceptsFrom
    split
    -- the rest of the word moves the empty set, which has no final state
    · next hempty =>
      rw [OrderedSet.isEmpty_iff.1 hempty, foldl_step_empty]
      rfl
    · rw [ih, List.foldl_cons]

/-- A text is accepted if a state that it reaches is final. -/
theorem WellFormed.accepts_iff_mem_reach (h : a.WellFormed) {text : String} :
    a.accepts text = true ↔ ∃ q ∈ a.reach text.toList, q ∈ a.finals := by
  unfold accepts
  rw [acceptsFrom_eq, OrderedSet.any_iff]
  simp only [h.mem_finals, reach]

/-- A text is accepted if it is spelled by some path from the initial state to a final one. -/
theorem WellFormed.accepts_iff_path (h : a.WellFormed) {text : String} :
    a.accepts text = true ↔ ∃ q, a.isFinal q = true ∧ Path a.HasEdge a.initial text.toList q := by
  rw [h.accepts_iff_mem_reach]
  simp only [h.mem_reach, h.mem_finals]
  exact exists_congr fun q => and_comm

/-- In every automaton that operations make, the states that a text reaches are those that paths
from the initial state reach by spelling the text, and the text is accepted if and only if one of
them is final. -/
theorem mem_reach_grow_and_accepts_iff (operations : List Operation) (text : String) :
    (∀ q, q ∈ (grow operations).reach text.toList ↔
      Path (grow operations).HasEdge (grow operations).initial text.toList q) ∧
    ((grow operations).accepts text = true ↔
      ∃ q ∈ (grow operations).reach text.toList, q ∈ (grow operations).finals) := by
  have h := wellFormed_grow operations
  exact ⟨fun q => h.mem_reach, h.accepts_iff_mem_reach⟩

end PatternGraph.Automaton
