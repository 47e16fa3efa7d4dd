import PatternGraph.Proofs.Drawing.Tree

/-!
# Frames — what the drawing of a tree leaves alone

1. `Frame a b entry exit ends` says that the automaton `a` was drawn on to `b` behind the state
   `entry` and that every other old state is as it was: `entry` may have more edges, and edges that
   are new lead to new states or to `ends`.
2. `freeEnds` is the invariant of the flag: an edge back to the entry takes an entry that is
   exclusive and that nothing left when its drawing was begun. A later item of a sequence may count
   its entry as exclusive only where that is so, or where the entry is a new state
   (`Frames.append`).
3. `tree_frame` is what follows for a tree behind any state of any automaton.

Unlike fragments, frames take account of idle edges: what left the entry may have been one.
-/

namespace PatternGraph

/-- The automaton `a` was drawn on to `b` behind the state `entry`, up to the state `exit`. No other
old state has changed; `ends` are the old states that new edges may lead to. -/
structure Frame (a b : Automaton) (entry exit : StateId) (ends : Set StateId) : Prop where
  wellFormed : b.WellFormed
  entry_lt : entry < a.size
  size_le : a.size ≤ b.size
  exit_lt : exit < b.size
  state?_eq : ∀ x < a.size, x ≠ entry → b.state? x = a.state? x
  isFinal_eq : ∀ x, b.isFinal x = a.isFinal x
  hasEdge_mono : ∀ p s q, a.HasEdge p s q → b.HasEdge p s q
  target : ∀ p s q, b.HasEdge p s q → a.HasEdge p s q ∨ a.size ≤ q ∨ q ∈ ends
  exit_mem : exit = entry ∨ a.size ≤ exit ∨ exit ∈ ends

namespace Frame

variable {a b c : Automaton} {entry exit m p q : StateId} {ends ends' outer : Set StateId}

/-- Nothing drawn leaves everything alone. -/
theorem refl (ha : a.WellFormed) (hentry : entry < a.size) (ends : Set StateId) :
    Frame a a entry entry ends where
  wellFormed := ha
  entry_lt := hentry
  size_le := Nat.le_refl _
  exit_lt := hentry
  state?_eq _ _ _ := rfl
  isFinal_eq _ := rfl
  hasEdge_mono _ _ _ := id
  target _ _ _ := .inl
  exit_mem := .inl rfl

/-- A new state that no edge leads to yet. -/
theorem newState (ha : a.WellFormed) (hentry : entry < a.size) (ends : Set StateId) :
    Frame a a.withState entry a.size ends where
  wellFormed := ha.withState
  entry_lt := hentry
  size_le := Nat.le_of_lt Automaton.size_lt_size_withState
  exit_lt := Automaton.size_lt_size_withState
  state?_eq x hx _ := by rw [Automaton.state?_withState, if_neg (Nat.ne_of_lt hx)]
  isFinal_eq _ := Automaton.isFinal_withState
  hasEdge_mono _ _ _ := ha.hasEdge_withState.2
  target _ _ _ edge := .inl (ha.hasEdge_withState.1 edge)
  exit_mem := .inr (.inl (Nat.le_refl _))

/-- An edge from the entry to a state that is there already. -/
theorem edge (ha : a.WellFormed) (hentry : entry < a.size) (hq : q < a.size) (s : Symbol) :
    Frame a (a.withEdge entry s q) entry q {q} where
  wellFormed := ha.withEdge hq
  entry_lt := hentry
  size_le := Nat.le_of_eq Automaton.size_withEdge.symm
  exit_lt := by rwa [Automaton.size_withEdge]
  state?_eq x _ hx := by rw [Automaton.state?_withEdge, if_neg hx.symm]
  isFinal_eq _ := Automaton.isFinal_withEdge
  hasEdge_mono _ _ _ edge := (ha.hasEdge_withEdge hentry hq).2 (.inr edge)
  target _ _ _ edge := by
    rcases (ha.hasEdge_withEdge hentry hq).1 edge with ⟨-, -, rfl⟩ | hold
    · exact .inr (.inr rfl)
    · exact .inl hold
  exit_mem := .inr (.inr rfl)

/-- Two frames behind one another are one, wherever the second one starts among the states that
belong to the first. -/
theorem trans (h : Frame a b entry m ends) (h' : Frame b c p exit ends')
    (hp : p = entry ∨ a.size ≤ p) (hends : ends ⊆ outer)
    (hends' : ∀ q ∈ ends', a.size ≤ q ∨ q ∈ outer) : Frame a c entry exit outer where
  wellFormed := h'.wellFormed
  entry_lt := h.entry_lt
  size_le := Nat.le_trans h.size_le h'.size_le
  exit_lt := h'.exit_lt
  state?_eq x hx hne := by
    -- an old state other than the entry is not where the second one starts either
    have hstart : x ≠ p := by
      rintro rfl
      rcases hp with hp | hp
      · exact hne hp
      · exact absurd hx (Nat.not_lt.2 hp)
    rw [h'.state?_eq x (Nat.lt_of_lt_of_le hx h.size_le) hstart, h.state?_eq x hx hne]
  isFinal_eq x := (h'.isFinal_eq x).trans (h.isFinal_eq x)
  hasEdge_mono p s q edge := h'.hasEdge_mono p s q (h.hasEdge_mono p s q edge)
  target x s y edge := by
    rcases h'.target x s y edge with hold | hnew | hend
    · exact (h.target x s y hold).imp_right fun hy => hy.imp_right fun hy => hends hy
    · exact .inr (.inl (Nat.le_trans h.size_le hnew))
    · exact .inr (hends' y hend)
  exit_mem := by
    rcases h'.exit_mem with rfl | hnew | hend
    · exact hp.imp_right .inl
    · exact .inr (.inl (Nat.le_trans h.size_le hnew))
    · exact .inr (hends' exit hend)

/-- A state that nothing leaves behind the drawing was left by nothing before it. -/
theorem hasEdges_eq_false (h : Frame a b entry exit ends) (ha : a.WellFormed)
    (hp : b.hasEdges p = false) : a.hasEdges p = false := by
  rw [← Bool.not_eq_true, ha.hasEdges_iff]
  rintro ⟨s, q, hold⟩
  have hnew : b.hasEdges p = true :=
    h.wellFormed.hasEdges_iff.2 ⟨s, q, h.hasEdge_mono p s q hold⟩
  rw [hp] at hnew
  cases hnew

/-- More states may be allowed as ends. -/
theorem mono (h : Frame a b entry exit ends) (hends : ends ⊆ outer) :
    Frame a b entry exit outer where
  __ := h
  target p s q edge := (h.target p s q edge).imp_right fun hq => hq.imp_right fun hq => hends hq
  exit_mem := h.exit_mem.imp_right fun hq => hq.imp_right fun hq => hends hq

/-- Without other ends a frame has its exit where it started or in a state of its own. -/
theorem exit_eq_or_le (h : Frame a b entry exit ends) (hends : ends ⊆ {entry}) :
    exit = entry ∨ a.size ≤ exit := by
  rcases h.exit_mem with hexit | hexit | hexit
  · exact .inl hexit
  · exact .inr hexit
  · exact .inl (hends hexit)

end Frame

/-! ## Drawings with a frame -/

namespace Drawing

variable {α : Type} {a b : Automaton} {entry join : StateId} {exclusive strict : Bool}
  {ends outer : Set StateId}

/-- The drawing `d` succeeds on `a` within a frame behind `entry`; `exit` reads its exit off its
result. -/
def Frames (d : Drawing α) (exit : α → StateId) (a : Automaton) (entry : StateId)
    (ends : Set StateId) : Prop :=
  ∃ x b, d a = .ok (x, b) ∧ Frame a b entry (exit x) ends

/-- The old states that new edges may lead to: those of `outer`, and the entry where it is exclusive
and nothing leaves it. -/
def freeEnds (outer : Set StateId) (a : Automaton) (entry : StateId) (exclusive : Bool) :
    Set StateId :=
  {q | q ∈ outer ∨ (q = entry ∧ exclusive = true ∧ a.hasEdges entry = false)}

/-- An entry that is shared is no end. -/
theorem freeEnds_false : freeEnds outer a entry false = outer := by
  unfold freeEnds
  ext q
  simp

theorem subset_freeEnds : outer ⊆ freeEnds outer a entry exclusive :=
  fun _ hq => .inl hq

/-- With no outer states the entry is the one old state that an edge may lead to. -/
theorem freeEnds_empty_subset : freeEnds ∅ a entry exclusive ⊆ {entry} := by
  rintro q (hq | ⟨hq, -, -⟩)
  · exact absurd hq (Set.notMem_empty q)
  · exact hq

theorem frames_pure (ha : a.WellFormed) (hentry : entry < a.size) (ends : Set StateId) :
    Frames (pure entry) id a entry ends :=
  ⟨entry, a, rfl, Frame.refl ha hentry ends⟩

/-- An edge between two states that are there changes the first of them alone. -/
theorem frames_addEdge (ha : a.WellFormed) (hentry : entry < a.size) (hjoin : join < a.size)
    (s : Symbol) : Frames (addEdge entry s join) (fun _ => join) a entry {join} :=
  ⟨(), _, addEdge_eq_ok hentry hjoin, Frame.edge ha hentry hjoin s⟩

theorem Frames.mono {d : Drawing α} {exit : α → StateId} (h : Frames d exit a entry ends)
    (hends : ends ⊆ outer) : Frames d exit a entry outer := by
  rcases h with ⟨x, b, hd, hframe⟩
  exact ⟨x, b, hd, hframe.mono hends⟩

/-- One drawing after another that starts where the first one ends. The entry of the second one is
exclusive where it is not that of the first. -/
theorem Frames.append {d : Drawing StateId} {f : StateId → Drawing α} {exit : α → StateId}
    (ha : a.WellFormed) (h : Frames d id a entry (freeEnds ∅ a entry exclusive))
    (h' : ∀ m b, b.WellFormed → a.size ≤ b.size → m < b.size →
      Frames (f m) exit b m (freeEnds outer b m (exclusive || m ≠ entry))) :
    Frames (d >>= f) exit a entry (freeEnds outer a entry exclusive) := by
  rcases h with ⟨m, b, hd, hframe⟩
  rcases h' m b hframe.wellFormed hframe.size_le hframe.exit_lt with ⟨x, c, hf, hframe'⟩
  have hm : m = entry ∨ a.size ≤ m := hframe.exit_eq_or_le freeEnds_empty_subset
  refine ⟨x, c, ?_, hframe.trans hframe' hm ?_ ?_⟩
  · rw [bind_eq_of_ok hd, hf]
  · exact Set.union_subset_union_left _ (Set.empty_subset outer)
  · rintro q (hq | ⟨rfl, hexclusive, hfree⟩)
    · exact .inr (.inl hq)
    · -- the second drawing leads back to its entry, which may still be that of the first
      rcases hm with rfl | hm
      · have hold : exclusive = true := by simpa using hexclusive
        exact .inr (.inr ⟨rfl, hold, hframe.hasEdges_eq_false ha hfree⟩)
      · exact .inl hm

/-- Two drawings from one entry, one beside the other. -/
theorem Frames.beside {d d' : Drawing Unit} (h : Frames d (fun _ => join) a entry ends)
    (h' : ∀ b, b.WellFormed → a.size ≤ b.size → entry < b.size →
      Frames d' (fun _ => join) b entry ends) :
    Frames (do d; d') (fun _ => join) a entry ends := by
  rcases h with ⟨x, b, hd, hframe⟩
  have hentry : entry < b.size := Nat.lt_of_lt_of_le hframe.entry_lt hframe.size_le
  rcases h' b hframe.wellFormed hframe.size_le hentry with ⟨y, c, hd', hframe'⟩
  refine ⟨y, c, ?_, hframe.trans hframe' (.inl rfl) (Set.Subset.refl ends) fun q hq => .inr hq⟩
  rw [bind_eq_of_ok hd, hd']

/-- Drawings from the entry into a join make a drawing that ends in a new state. -/
theorem Frames.toNewState {d : StateId → Drawing Unit} (ha : a.WellFormed)
    (hentry : entry < a.size)
    (h : ∀ b join, b.WellFormed → entry < b.size → join < b.size →
      Frames (d join) (fun _ => join) b entry {join}) (ends : Set StateId) :
    Frames (do let join ← newState; d join; pure join) id a entry ends := by
  have hstart : Frame a a.withState entry a.size ends := Frame.newState ha hentry ends
  have hentry' : entry < a.withState.size := Automaton.lt_size_withState hentry
  rcases h a.withState a.size ha.withState hentry' hstart.exit_lt with ⟨x, b, hd, hframe⟩
  refine ⟨a.size, b, ?_, hstart.trans hframe (.inl rfl) (Set.Subset.refl ends) ?_⟩
  · rw [bind_eq_of_ok (newState_eq_ok ha), bind_eq_of_ok hd]
    rfl
  · rintro q rfl
    exact .inl (Nat.le_refl _)

theorem frames_step (ha : a.WellFormed) (hentry : entry < a.size) (s : Symbol)
    (ends : Set StateId) :
    Frames (do let next ← newState; addEdge entry s next; pure next) id a entry ends :=
  Frames.toNewState ha hentry (fun _ _ hb hp hq => frames_addEdge hb hp hq s) ends

/-! ### Loops -/

/-- The state for a loop is a new one, or the entry where that is free. -/
theorem loopState_frame (ha : a.WellFormed) (hentry : entry < a.size) (exclusive : Bool) :
    ∃ loop b, loopState entry exclusive a = .ok (loop, b) ∧ Frame a b entry loop ∅ ∧
      (a.size ≤ loop ∨ loop ∈ freeEnds ∅ a entry exclusive) := by
  rcases loopState_cases ha hentry exclusive with ⟨hexclusive, hfree, hd⟩ | hd
  · exact ⟨entry, a, hd, Frame.refl ha hentry ∅, .inr (.inr ⟨rfl, hexclusive, hfree⟩)⟩
  · have hedge := Frame.edge ha.withState (Automaton.lt_size_withState hentry)
      Automaton.size_lt_size_withState .epsilon
    have hstep : Frame a _ entry a.size ∅ :=
      (Frame.newState ha hentry ∅).trans hedge (.inl rfl) (Set.Subset.refl ∅) fun q hq =>
        .inl (Nat.le_of_eq hq.symm)
    exact ⟨a.size, _, hd, hstep, .inl (Nat.le_refl _)⟩

/-- The edge back to the loop's state is the one that may lead to an old state; the body of the loop
has none, as its entry is shared. -/
theorem frames_turn {literal? : Option Char} {body : StateId → Bool → Drawing StateId}
    {loop : StateId} (ha : a.WellFormed) (hloop : loop < a.size)
    (hbody : Frames (body loop false) id a loop ∅) :
    Frames (turn literal? body loop) id a loop {loop} := by
  cases literal? with
  | some c => exact ⟨loop, _, turn_literal hloop c, Frame.edge ha hloop hloop (.char c)⟩
  | none =>
    rcases hbody with ⟨exit, b, hd, hframe⟩
    -- a body that ends where it began has turned already
    by_cases hsame : exit = loop
    · subst hsame
      exact ⟨exit, b, turn_of_return hd, hframe.mono (Set.empty_subset _)⟩
    · have hloop' : loop < b.size := Nat.lt_of_lt_of_le hloop hframe.size_le
      refine ⟨loop, _, turn_of_exit hd hsame hframe.exit_lt hloop', ?_⟩
      exact hframe.trans (Frame.edge hframe.wellFormed hframe.exit_lt hloop' .epsilon)
        (hframe.exit_eq_or_le (Set.empty_subset _)) (Set.empty_subset _) fun q hq => .inr hq

/-- A loop leaves alone what its state and its turns leave alone, and the state is the entry only
where that is free. -/
theorem frames_star {literal? : Option Char} {body : StateId → Bool → Drawing StateId}
    (ha : a.WellFormed) (hentry : entry < a.size)
    (hbody : ∀ b loop, b.WellFormed → loop < b.size → Frames (body loop false) id b loop ∅) :
    Frames (star literal? body entry exclusive) id a entry (freeEnds ∅ a entry exclusive) := by
  rcases loopState_frame ha hentry exclusive with ⟨loop, b, hd, hframe, hmem⟩
  have hturn : Frames (turn literal? body loop) id b loop {loop} :=
    frames_turn hframe.wellFormed hframe.exit_lt (hbody b loop hframe.wellFormed hframe.exit_lt)
  rcases hturn with ⟨exit, c, hd', hframe'⟩
  refine ⟨exit, c, ?_, hframe.trans hframe' (hframe.exit_eq_or_le (Set.empty_subset _))
    (Set.empty_subset _) ?_⟩
  · unfold star
    rw [bind_eq_of_ok hd, hd']
  · -- the loop may lead back to its state, which is new or the entry that was free
    rintro q rfl
    exact hmem

/-! ### Trees -/

mutual

/-- The drawing of every tree stays within its frame, by mutual induction on trees and their lists.
The invariant is that no edge leads to an old state outside `freeEnds`, and `Frames.append` carries
it from an item to the items behind it. -/
theorem frames_tree (strict : Bool) (p : Pattern) {a : Automaton} {entry : StateId}
    (exclusive : Bool) (ha : a.WellFormed) (hentry : entry < a.size) :
    Frames (tree strict p entry exclusive) id a entry (freeEnds ∅ a entry exclusive) := by
  match p with
  | .empty => exact frames_pure ha hentry _
  | .literal c => exact frames_step ha hentry (.char c) _
  | .concat items => exact frames_sequence strict items exclusive ha hentry
  | .alternation alternatives =>
    exact Frames.toNewState ha hentry (fun b join hb hentry hjoin =>
      frames_branches strict alternatives hb hentry hjoin) _
  | .closure item .zeroOrMore => exact frames_starOf strict item exclusive ha hentry
  | .closure item .oneOrMore =>
    cases strict with
    | false => exact frames_starOf false item exclusive ha hentry
    | true =>
      -- the copy that is drawn again starts at the exit of the first, exclusive if that is a new
      -- state
      exact (frames_tree true item exclusive ha hentry).append ha fun m b hb _ hm =>
        frames_starOf true item _ hb hm
  | .group inner => exact frames_tree strict inner exclusive ha hentry

/-- The loop of a tree, whose body is the tree behind a shared entry. -/
theorem frames_starOf (strict : Bool) (item : Pattern) {a : Automaton} {entry : StateId}
    (exclusive : Bool) (ha : a.WellFormed) (hentry : entry < a.size) :
    Frames (star item.literal? (tree strict item) entry exclusive) id a entry
      (freeEnds ∅ a entry exclusive) := by
  refine frames_star ha hentry fun b loop hb hloop => ?_
  have hbody := frames_tree strict item false hb hloop
  rwa [freeEnds_false] at hbody

/-- The same of a sequence, item by item. -/
theorem frames_sequence (strict : Bool) (items : List Pattern) {a : Automaton} {entry : StateId}
    (exclusive : Bool) (ha : a.WellFormed) (hentry : entry < a.size) :
    Frames (sequence strict items entry exclusive) id a entry (freeEnds ∅ a entry exclusive) := by
  match items with
  | [] => exact frames_pure ha hentry _
  | item :: items =>
    exact (frames_tree strict item exclusive ha hentry).append ha fun m b hb _ hm =>
      frames_sequence strict items _ hb hm

/-- The same of alternatives between an entry and a join. All of them share the entry, so no loop
turns on it. -/
theorem frames_branches (strict : Bool) (alternatives : List Pattern) {a : Automaton}
    {entry join : StateId} (ha : a.WellFormed) (hentry : entry < a.size) (hjoin : join < a.size) :
    Frames (branches strict alternatives entry join) (fun _ => join) a entry {join} := by
  match alternatives with
  | [] =>
    have hrefl := Frame.refl ha hentry {join}
    exact ⟨(), a, rfl, { hrefl with exit_lt := hjoin, exit_mem := .inr (.inr rfl) }⟩
  | branch :: rest =>
    have hrest : ∀ b, b.WellFormed → a.size ≤ b.size → entry < b.size →
        Frames (branches strict rest entry join) (fun _ => join) b entry {join} :=
      fun b hb hle hentry =>
        frames_branches strict rest hb hentry (Nat.lt_of_lt_of_le hjoin hle)
    -- without an economy: the branch, shared entry and all, and a link from where it ended
    have hother : Frames (do let exit ← tree strict branch entry false; link exit join)
        (fun _ => join) a entry (freeEnds {join} a entry false) :=
      (frames_tree strict branch false ha hentry).append ha fun m b hb hle hm =>
        (frames_addEdge hb hm (Nat.lt_of_lt_of_le hjoin hle) .epsilon).mono subset_freeEnds
    rw [freeEnds_false] at hother
    match branch with
    | .literal c => exact (frames_addEdge ha hentry hjoin (.char c)).beside hrest
    | .concat items =>
      have hitems := frames_sequenceInto strict items false ha hentry hjoin
      rw [freeEnds_false] at hitems
      exact hitems.beside hrest
    | .empty | .alternation _ | .closure _ _ | .group _ =>
      rw [branches_cons, ← bind_assoc]
      · exact hother.beside hrest
      · exact id

/-- The same of a sequence into a join. Its last item may take the join for its exit. -/
theorem frames_sequenceInto (strict : Bool) (items : List Pattern) {a : Automaton}
    {entry join : StateId} (exclusive : Bool) (ha : a.WellFormed) (hentry : entry < a.size)
    (hjoin : join < a.size) :
    Frames (sequenceInto strict items entry exclusive join) (fun _ => join) a entry
      (freeEnds {join} a entry exclusive) := by
  match items with
  | [] => exact (frames_addEdge ha hentry hjoin .epsilon).mono subset_freeEnds
  | item :: items =>
    by_cases hlast : ∃ c, item = .literal c ∧ items = []
    · rcases hlast with ⟨c, rfl, rfl⟩
      exact (frames_addEdge ha hentry hjoin (.char c)).mono subset_freeEnds
    · rw [sequenceInto_cons hlast]
      exact (frames_tree strict item exclusive ha hentry).append ha fun m b hb hle hm =>
        frames_sequenceInto strict items _ hb hm (Nat.lt_of_lt_of_le hjoin hle)

end

/-- The drawing of a tree behind an entry succeeds and ends in the entry or in a new state. No other
old state changes, and the entry keeps its final mark and its edges. Where the entry is not
exclusive, no new edge leads to an old state; where it is, a new edge leads to no old state but the
entry, and to that one only if nothing left it before. -/
theorem tree_frame (strict : Bool) (p : Pattern) (exclusive : Bool) {a : Automaton}
    {entry : StateId} (ha : a.WellFormed) (hentry : entry < a.size) :
    ∃ exit b, tree strict p entry exclusive a = .ok (exit, b) ∧
      b.WellFormed ∧ a.size ≤ b.size ∧
      (exit = entry ∨ (a.size ≤ exit ∧ exit < b.size)) ∧
      (∀ x < a.size, x ≠ entry → b.state? x = a.state? x) ∧
      b.isFinal entry = a.isFinal entry ∧
      (∀ edge ∈ a.edges, edge ∈ b.edges) ∧
      (exclusive = false → ∀ edge ∈ b.edges, edge ∉ a.edges → a.size ≤ edge.target) ∧
      (exclusive = true → ∀ edge ∈ b.edges, edge ∉ a.edges → edge.target < a.size →
        edge.target = entry ∧ a.hasEdges entry = false) := by
  rcases frames_tree strict p exclusive ha hentry with ⟨exit, b, hd, hframe⟩
  have hexit : exit = entry ∨ a.size ≤ exit := hframe.exit_eq_or_le freeEnds_empty_subset
  -- a new edge leads to a new state, or back to an entry that is free
  have hnew : ∀ edge ∈ b.edges, edge ∉ a.edges → a.size ≤ edge.target ∨
      (edge.target = entry ∧ exclusive = true ∧ a.hasEdges entry = false) := by
    intro edge hedge hnot
    rcases hframe.target _ _ _ hedge with hold | htarget | htarget
    · exact absurd hold hnot
    · exact .inl htarget
    · exact .inr (htarget.resolve_left (Set.notMem_empty _))
  refine ⟨exit, b, hd, hframe.wellFormed, hframe.size_le, ?_, hframe.state?_eq,
    hframe.isFinal_eq entry, fun edge hedge => hframe.hasEdge_mono _ _ _ hedge, ?_, ?_⟩
  · exact hexit.imp_right fun hle => ⟨hle, hframe.exit_lt⟩
  · rintro rfl edge hedge hnot
    rcases hnew edge hedge hnot with htarget | ⟨-, hfalse, -⟩
    · exact htarget
    · cases hfalse
  · rintro - edge hedge hnot hlt
    rcases hnew edge hedge hnot with htarget | ⟨hentry, -, hfree⟩
    · exact absurd hlt (Nat.not_lt.2 htarget)
    · exact ⟨hentry, hfree⟩

/-- Behind the empty group of `()b*` the entry is still the one that other branches share, so the
loop turns on a new state. Where the entry is exclusive, it turns on the entry itself. -/
theorem tree_frame_loop_behind_empty_group :
    let p : Pattern := .concat [.group .empty, .closure (.literal 'b') .zeroOrMore]
    initialState.WellFormed ∧ 0 < initialState.size ∧
    (∃ b, tree true p 0 false initialState = .ok (1, b) ∧
      ∀ edge ∈ b.edges, 1 ≤ edge.target) ∧
    ∃ b, tree true p 0 true initialState = .ok (0, b) ∧ b.edges = [⟨0, .char 'b', 0⟩] := by
  intro p
  refine ⟨wellFormed_initialState, size_initialState_pos, ?_, ?_⟩
  · -- the entry is shared, so no edge may lead back to it
    obtain ⟨exit, b, hd, -, -, -, -, -, -, hshared, -⟩ :=
      tree_frame true p false wellFormed_initialState size_initialState_pos
    obtain ⟨c, hc⟩ : ∃ c, tree true p 0 false initialState = .ok (1, c) := ⟨_, rfl⟩
    rw [hc] at hd
    cases hd
    exact ⟨b, hc, fun edge hedge => hshared rfl edge hedge (not_hasEdge_initialState _ _ _)⟩
  · exact ⟨_, rfl, rfl⟩

end Drawing

end PatternGraph
