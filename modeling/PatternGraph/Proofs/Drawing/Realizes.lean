import PatternGraph.Proofs.Automaton.Finished
import PatternGraph.Proofs.Automaton.Simulation
import PatternGraph.Proofs.Drawing.Fragment

/-!
# Realizing a language — drawings and the words through what they draw

`Realizes d exit a entry ends L` says of a drawing `d` that it succeeds on the automaton `a`, that
what it adds is a fragment behind the state `entry`, and that the words through the fragment are
those of `L`. It is proved of the steps that every drawing is made of, and carried through a
sequence of drawings. A whole drawing that realizes a language makes an automaton that accepts just
this language (`Realizes.accepts_iff`).
-/

namespace PatternGraph.Drawing

variable {α β : Type} {a b : Automaton} {entry join p q : StateId} {s : Symbol} {exclusive : Bool}
  {ends ends' outer : Set StateId} {L M : Language Char}

/-! ## Steps that succeed -/

/-- A step that succeeds hands its value and the automaton to the steps behind it. -/
theorem bind_eq_of_ok {d : Drawing α} {f : α → Drawing β} {x : α} (h : d a = .ok (x, b)) :
    (d >>= f) a = f x b := by
  show (d a >>= fun y => f y.1 y.2) = f x b
  rw [h]
  rfl

/-- The identifier of a new state is the number of states before it. -/
theorem newState_eq_ok (h : a.WellFormed) : newState a = .ok (a.size, a.withState) := by
  unfold newState
  rw [← h.nextId_eq]
  rfl

theorem addEdge_eq_ok (hp : p < a.size) (hq : q < a.size) :
    addEdge p s q a = .ok ((), a.withEdge p s q) := by
  unfold addEdge
  rw [Automaton.addEdge_eq_ok hp hq]

theorem setFinal_eq_ok (hp : p < a.size) : setFinal p a = .ok ((), a.withFinal p) := by
  unfold setFinal
  rw [Automaton.setFinal_eq_ok hp]

/-! ## Realizing a language -/

/-- The drawing `d` succeeds on `a` and adds a fragment behind `entry`; the words up to its exit,
which `exit` reads off the result of the drawing, are those of `L`. -/
def Realizes (d : Drawing α) (exit : α → StateId) (a : Automaton) (entry : StateId)
    (ends : Set StateId) (L : Language Char) : Prop :=
  ∃ x b E, d a = .ok (x, b) ∧ Fragment a b E entry (exit x) ends ∧
    E.words entry (exit x) = L

/-- Nothing drawn realizes the language of the empty word. -/
theorem realizes_pure (ha : a.WellFormed) (hentry : entry < a.size) (ends : Set StateId) :
    Realizes (pure entry) id a entry ends 1 := by
  refine ⟨entry, a, ⊥, rfl, Fragment.refl ha hentry ends, ?_⟩
  exact EdgeRelation.words_self fun _ _ => id

/-- An edge to a new state. -/
theorem step_eq_ok (ha : a.WellFormed) (hentry : entry < a.size) (s : Symbol) :
    (do let next ← newState; addEdge entry s next; pure next : Drawing StateId) a
      = .ok (a.size, a.withState.withEdge entry s a.size) := by
  have hedge := addEdge_eq_ok (s := s) (Automaton.lt_size_withState hentry)
    Automaton.size_lt_size_withState
  rw [bind_eq_of_ok (newState_eq_ok ha), bind_eq_of_ok hedge]
  rfl

/-- It realizes the one word of its symbol. -/
theorem realizes_step (ha : a.WellFormed) (hentry : entry < a.size) (s : Symbol)
    (ends : Set StateId) :
    Realizes (do let next ← newState; addEdge entry s next; pure next) id a entry ends
      {s.char?.toList} :=
  ⟨_, _, _, step_eq_ok ha hentry s, Fragment.step ha hentry s ends,
    EdgeRelation.words_one (Nat.ne_of_lt hentry)⟩

/-- An edge to a state that is there already. -/
theorem realizes_addEdge (ha : a.WellFormed) (hentry : entry < a.size) (hjoin : join < a.size)
    (hne : entry ≠ join) (s : Symbol) :
    Realizes (addEdge entry s join) (fun _ => join) a entry {join} {s.char?.toList} := by
  have htarget : a.size ≤ join ∨ join ∈ ({join} : Set StateId) := .inr rfl
  have hfragment := (Fragment.refl ha hentry {join}).withEdge (s := s) hentry hjoin (.inr hne)
    (.inl rfl) htarget (Set.Subset.refl _)
  rw [bot_sup_eq] at hfragment
  exact ⟨(), _, _, addEdge_eq_ok hentry hjoin, hfragment, EdgeRelation.words_one hne⟩

/-- An ε edge to a state that is there already. -/
theorem realizes_link (ha : a.WellFormed) (hentry : entry < a.size) (hjoin : join < a.size)
    (hne : entry ≠ join) : Realizes (link entry join) (fun _ => join) a entry {join} 1 :=
  realizes_addEdge ha hentry hjoin hne .epsilon

theorem Realizes.mono {d : Drawing α} {exit : α → StateId} (h : Realizes d exit a entry ends L)
    (hends : ends ⊆ ends') : Realizes d exit a entry ends' L := by
  rcases h with ⟨x, b, E, hd, hfragment, hwords⟩
  exact ⟨x, b, E, hd, hfragment.mono hends, hwords⟩

/-! ### Drawings one after another -/

/-- The old states that the edges of a drawing may lead to: those of `outer`, and the entry where a
loop may turn on it. That takes an entry that is exclusive, with nothing leaving it yet. -/
def loopEnds (outer : Set StateId) (a : Automaton) (entry : StateId) (exclusive : Bool) :
    Set StateId :=
  {q | q ∈ outer ∨ (q = entry ∧ exclusive = true ∧ ∀ s r, ¬a.Moves entry s r)}

/-- Nothing loops on an entry that is shared. -/
theorem loopEnds_false : loopEnds outer a entry false = outer := by
  unfold loopEnds
  ext q
  simp

theorem subset_loopEnds : outer ⊆ loopEnds outer a entry exclusive :=
  fun _ hq => .inl hq

/-- With no outer states the entry is the one old state that an edge may lead to. -/
theorem loopEnds_empty_subset : loopEnds ∅ a entry exclusive ⊆ {entry} := by
  rintro q (hq | ⟨hq, -, -⟩)
  · exact absurd hq (Set.notMem_empty q)
  · exact hq

/-- One drawing after another that starts where the first one ends. What the second one may lead
back to is nothing that the first one leaves. -/
theorem Realizes.append {d : Drawing StateId} {f : StateId → Drawing α} {exit : α → StateId}
    (h : Realizes d id a entry (loopEnds ∅ a entry exclusive) L)
    (houter : ∀ q ∈ outer, q < a.size ∧ q ≠ entry)
    (h' : ∀ m b, b.WellFormed → m < b.size → (∀ q ∈ outer, q < b.size ∧ q ≠ m) →
      Realizes (f m) exit b m (loopEnds outer b m (exclusive || m ≠ entry)) M) :
    Realizes (d >>= f) exit a entry (loopEnds outer a entry exclusive) (L * M) := by
  rcases h with ⟨m, b, E, hd, hfragment, hwords⟩
  have hm : m = entry ∨ a.size ≤ m := hfragment.exit_eq_or_le loopEnds_empty_subset
  have hlt : ∀ q ∈ outer, q < b.size ∧ q ≠ m := by
    intro q hq
    refine ⟨Nat.lt_of_lt_of_le (houter q hq).1 hfragment.size_le, ?_⟩
    rintro rfl
    rcases hm with hm | hm
    · exact (houter q hq).2 hm
    · exact absurd (houter q hq).1 (Nat.not_lt.2 hm)
  -- the edges of the first drawing neither leave the outer states nor lead to them
  have hsource : ∀ q ∈ outer, ∀ s r, ¬E q s r := by
    intro q hq s r edge
    rcases hfragment.source _ _ _ edge with hx | hx
    · exact (houter q hq).2 hx
    · exact absurd (houter q hq).1 (Nat.not_lt.2 hx)
  have htarget : ∀ q ∈ outer, ∀ x s, ¬E x s q := by
    intro q hq x s edge
    rcases hfragment.target _ _ _ edge with hx | hx
    · exact absurd (houter q hq).1 (Nat.not_lt.2 hx)
    · exact (houter q hq).2 (loopEnds_empty_subset hx)
  rcases h' m b hfragment.wellFormed hfragment.exit_lt hlt with
    ⟨x, c, F, hf, hfragment', hwords'⟩
  refine ⟨x, c, E ⊔ F, ?_, ?_, ?_⟩
  · rw [bind_eq_of_ok hd, hf]
  -- the two fragments are one, and what the second may lead back to is an end of the whole
  · refine hfragment.trans hfragment' hm ?_ ?_
    · exact Set.union_subset_union_left _ (Set.empty_subset outer)
    · rintro q (hq | ⟨rfl, hexclusive, hnone⟩)
      · exact .inr (.inl hq)
      · -- the second drawing loops on its entry, which may be that of the first
        rcases hm with rfl | hm
        · refine .inr (.inr ⟨rfl, by simpa using hexclusive, fun s r edge => ?_⟩)
          exact hnone s r ((hfragment.moves_iff _ _ _).2 (.inl edge))
        · exact .inl hm
  -- the words are those through both, as nothing of the first is left again behind it
  · rw [hfragment.words_append hfragment']
    · show E.words entry m * F.words m (exit x) = L * M
      rw [hwords', ← hwords]
      rfl
    · rintro q (hq | ⟨rfl, -, hnone⟩) s r edge
      · exact hsource q hq s r edge
      · exact hnone s r ((hfragment.moves_iff _ _ _).2 (.inr edge))
    · rintro (hq | ⟨hq, -, -⟩)
      · exact .inr ⟨(houter _ hq).2, htarget _ hq⟩
      · exact .inl hq

/-! ### Drawings that meet in a join -/

/-- Nothing drawn: no word leads to the join. -/
theorem realizes_none (ha : a.WellFormed) (hentry : entry < a.size) (hjoin : join < a.size)
    (hne : entry ≠ join) : Realizes (pure ()) (fun _ => join) a entry {join} 0 := by
  refine ⟨(), a, ⊥, rfl, ?_, ?_⟩
  · exact (Fragment.refl ha hentry {join}).withExit hjoin (.inr (.inr rfl))
  · exact EdgeRelation.words_eq_zero hne.symm fun _ _ => id

/-- Two drawings from one entry to one join, one beside the other. -/
theorem Realizes.beside {d d' : Drawing Unit} (hjoin : join < a.size) (hne : entry ≠ join)
    (h : Realizes d (fun _ => join) a entry {join} L)
    (h' : ∀ b, b.WellFormed → entry < b.size → join < b.size →
      Realizes d' (fun _ => join) b entry {join} M) :
    Realizes (do d; d') (fun _ => join) a entry {join} (L + M) := by
  rcases h with ⟨x, b, E, hd, hfragment, hwords⟩
  have hentry' : entry < b.size := Nat.lt_of_lt_of_le hfragment.entry_lt hfragment.size_le
  have hjoin' : join < b.size := Nat.lt_of_lt_of_le hjoin hfragment.size_le
  rcases h' b hfragment.wellFormed hentry' hjoin' with ⟨y, c, F, hd', hfragment', hwords'⟩
  refine ⟨y, c, E ⊔ F, ?_, ?_, ?_⟩
  · rw [bind_eq_of_ok hd, hd']
  · exact hfragment.trans hfragment' (.inl rfl) (Set.Subset.refl _) fun q hq => .inr hq
  · -- the two have nothing but the entry and the join in common
    have hlt : ∀ q ∈ ({join} : Set StateId), q < a.size := by
      rintro q rfl
      exact hjoin
    rw [hfragment.words_sup hfragment' hne hne hlt, hwords, hwords']

/-- The premises on a join, as `Realizes.append` asks for them. -/
theorem join_outer {join : StateId} (hjoin : join < a.size) (hne : entry ≠ join) :
    ∀ q ∈ ({join} : Set StateId), q < a.size ∧ q ≠ entry := by
  rintro q rfl
  exact ⟨hjoin, hne.symm⟩

/-- A drawing from a shared entry, led into a join. -/
theorem Realizes.into {d : Drawing StateId} {join : StateId} (h : Realizes d id a entry ∅ L)
    (hjoin : join < a.size) (hne : entry ≠ join) :
    Realizes (do let exit ← d; link exit join) (fun _ => join) a entry {join} L := by
  have h' : Realizes d id a entry (loopEnds ∅ a entry false) L := by
    rw [loopEnds_false]
    exact h
  have hall := h'.append (M := 1) (join_outer hjoin hne) fun m b hb hm hlt => by
    have hjoin' := hlt join rfl
    exact (realizes_link hb hm hjoin'.1 hjoin'.2.symm).mono subset_loopEnds
  rw [loopEnds_false, mul_one] at hall
  exact hall

/-- Drawings that meet in a join make a drawing that ends in a new state. -/
theorem Realizes.toNewState {d : StateId → Drawing Unit} (ha : a.WellFormed)
    (hentry : entry < a.size)
    (h : ∀ b join, b.WellFormed → entry < b.size → join < b.size → entry ≠ join →
      Realizes (d join) (fun _ => join) b entry {join} L) (ends : Set StateId) :
    Realizes (do let join ← newState; d join; pure join) id a entry ends L := by
  -- the join is a state before anything leads to it
  have hstart : Fragment a a.withState ⊥ entry a.size ends :=
    (Fragment.refl ha hentry ends).withState
  have hentry' : entry < a.withState.size := Automaton.lt_size_withState hentry
  rcases h a.withState a.size ha.withState hentry' hstart.exit_lt (Nat.ne_of_lt hentry) with
    ⟨x, b, E, hd, hfragment, hwords⟩
  refine ⟨a.size, b, ⊥ ⊔ E, ?_, ?_, ?_⟩
  · rw [bind_eq_of_ok (newState_eq_ok ha), bind_eq_of_ok hd]
    rfl
  · refine hstart.trans hfragment (.inl rfl) (Set.Subset.refl ends) ?_
    rintro q rfl
    exact .inl (Nat.le_refl _)
  · rw [bot_sup_eq]
    exact hwords

/-! ## Whole drawings -/

/-- The automaton that a whole drawing starts on: the initial state and nothing else. -/
def initialState : Automaton :=
  (∅ : Automaton).withState

/-- The initial state keeps the representation invariant. -/
theorem wellFormed_initialState : initialState.WellFormed :=
  Automaton.wellFormed_empty.withState

theorem size_initialState_pos : 0 < initialState.size :=
  Nat.one_pos

/-- Nothing is drawn on it yet. -/
theorem not_hasEdge_initialState (p : StateId) (s : Symbol) (q : StateId) :
    ¬initialState.HasEdge p s q := by
  intro edge
  have hempty : (∅ : Automaton).HasEdge p s q :=
    Automaton.wellFormed_empty.hasEdge_withState.1 edge
  exact absurd hempty List.not_mem_nil

theorem not_moves_initialState (p : StateId) (s : Symbol) (q : StateId) :
    ¬initialState.Moves p s q :=
  fun edge => not_hasEdge_initialState p s q edge.1

theorem isFinal_initialState (x : StateId) : initialState.isFinal x = false := by
  unfold initialState
  rw [Automaton.isFinal_withState]
  rfl

/-- A whole drawing is what is drawn behind the initial state, with a final mark on the exit. -/
theorem automaton_eq_of_ok {draw : StateId → Drawing StateId} {exit : StateId}
    (hdraw : draw 0 initialState = .ok (exit, b)) (hexit : exit < b.size) :
    automaton draw = .ok (b.withFinal exit) := by
  have hnew : newState ∅ = .ok (0, initialState) := newState_eq_ok Automaton.wellFormed_empty
  unfold automaton
  simp only
  rw [bind_eq_of_ok hnew, bind_eq_of_ok hdraw, setFinal_eq_ok hexit]

/-- It depends on nothing but what is drawn behind the initial state. -/
theorem automaton_congr {draw draw' : StateId → Drawing StateId}
    (h : draw 0 initialState = draw' 0 initialState) : automaton draw = automaton draw' := by
  have hrest : (do let exit ← draw 0; setFinal exit : Drawing Unit) initialState
      = (do let exit ← draw' 0; setFinal exit : Drawing Unit) initialState := by
    show (draw 0 initialState >>= fun x => setFinal x.1 x.2)
      = (draw' 0 initialState >>= fun x => setFinal x.1 x.2)
    rw [h]
  have hnew : newState ∅ = .ok (0, initialState) := newState_eq_ok Automaton.wellFormed_empty
  unfold automaton
  simp only
  rw [bind_eq_of_ok hnew, bind_eq_of_ok hnew, hrest]

/-- A drawing that realizes a language behind the initial state makes an automaton: the fragment
that it added, with a final mark on the exit. -/
theorem Realizes.automaton_eq {draw : StateId → Drawing StateId}
    (h : Realizes (draw 0) id initialState 0 ends L) :
    ∃ exit b E, automaton draw = .ok (b.withFinal exit) ∧
      Fragment initialState b E 0 exit ends ∧ E.words 0 exit = L := by
  rcases h with ⟨exit, b, E, hdraw, hfragment, hwords⟩
  exact ⟨exit, b, E, automaton_eq_of_ok hdraw hfragment.exit_lt, hfragment, hwords⟩

/-- The exit is the one final state of the automaton. -/
theorem isFinal_withFinal_iff {E : EdgeRelation} {exit : StateId}
    (h : Fragment initialState b E 0 exit ends) :
    (b.withFinal exit).isFinal q = true ↔ q = exit := by
  rw [Automaton.isFinal_withFinal h.exit_lt, h.isFinal_eq, isFinal_initialState]
  simp

/-- A drawing that realizes a language behind the initial state makes an automaton, and the
automaton accepts the words of the language. -/
theorem Realizes.accepts_iff {draw : StateId → Drawing StateId}
    (h : Realizes (draw 0) id initialState 0 ends L) :
    ∃ a, automaton draw = .ok a ∧ a.WellFormed ∧
      ∀ text, a.accepts text = true ↔ text.toList ∈ L := by
  rcases h.automaton_eq with ⟨exit, b, E, hrun, hfragment, hwords⟩
  have hb := hfragment.wellFormed
  refine ⟨b.withFinal exit, hrun, hb.withFinal, fun text => ?_⟩
  -- the initial state has no edges and is not final, so all there is comes from the drawing
  have hedges : ∀ p s q, (b.withFinal exit).Moves p s q ↔ E p s q := by
    intro p s q
    rw [hb.moves_withFinal, hfragment.moves_iff]
    exact ⟨fun edge => edge.resolve_left (not_moves_initialState p s q), .inr⟩
  rw [hb.withFinal.accepts_iff_path, hb.withFinal.initial_eq, ← hwords]
  constructor
  · rintro ⟨q, hq, hpath⟩
    rw [isFinal_withFinal_iff hfragment] at hq
    subst hq
    exact (Automaton.path_moves_iff.1 hpath).mono fun p s q => (hedges p s q).1
  · intro hpath
    refine ⟨exit, (isFinal_withFinal_iff hfragment).2 rfl, Automaton.path_moves_iff.2 ?_⟩
    exact hpath.mono fun p s q => (hedges p s q).2

/-- The automaton that it makes is finished. -/
theorem Realizes.finished {draw : StateId → Drawing StateId}
    (h : Realizes (draw 0) id initialState 0 ends L) :
    ∃ a, automaton draw = .ok a ∧ a.Finished := by
  rcases h.automaton_eq with ⟨exit, b, E, hrun, hfragment, -⟩
  have hb := hfragment.wellFormed
  exact ⟨_, hrun, hb.withFinal.finished fun _ => isFinal_withFinal_iff hfragment⟩

end PatternGraph.Drawing
