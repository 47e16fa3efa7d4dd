import PatternGraph.Proofs.Drawing.Slice
import PatternGraph.Proofs.Pattern.Check

/-!
# Drawing a text — the automaton accepts the language of the descent

`Draws` says of a drawing that it realizes a language behind any state, and that it leaves the state
behind unless the language is that of the empty word. A repeated group needs the second part: its
edge back then leads to a state of its own and never to the entry, so that nothing ever leads back
to where a slice starts. The drawings of the descent are put together along the grammar of texts
(`draws_of_branches`).
-/

namespace PatternGraph.Drawing

open Pattern
open scoped Computability

variable {a b : Automaton} {entry exit m : StateId} {E F : EdgeRelation} {c : Char}
  {L M : Language Char} {d d' : StateId → Drawing StateId}

/-! ## Languages of the empty word alone -/

/-- A product is the language of the empty word only if both factors are. -/
theorem eq_one_of_mul_eq_one (h : L * M = 1) : L = 1 ∧ M = 1 := by
  have hnil : [] ∈ L * M := by
    rw [h]
    exact Language.nil_mem_one
  -- the empty word is in the product, so it is in both factors
  rcases Language.mem_mul.1 hnil with ⟨u, hu, v, hv, huv⟩
  rcases List.append_eq_nil_iff.1 huv with ⟨rfl, rfl⟩
  constructor
  · ext w
    rw [Language.mem_one]
    constructor
    · intro hw
      have hmem : w ++ [] ∈ L * M := Language.append_mem_mul hw hv
      rw [h, List.append_nil] at hmem
      exact hmem
    · rintro rfl
      exact hu
  · ext w
    rw [Language.mem_one]
    constructor
    · intro hw
      have hmem : [] ++ w ∈ L * M := Language.append_mem_mul hu hw
      rw [h] at hmem
      exact hmem
    · rintro rfl
      exact hv

theorem letter_ne_one (c : Char) : ({[c]} : Language Char) ≠ 1 := by
  intro h
  have hmem : [c] ∈ (1 : Language Char) := by
    rw [← h]
    rfl
  cases hmem

/-! ## Drawings that leave their entry behind -/

/-- Behind any state the drawing realizes a language without ever leading back to the state, and it
ends somewhere else unless the language is that of the empty word. -/
def Draws (d : StateId → Drawing StateId) (L : Language Char) : Prop :=
  ∀ a entry, a.WellFormed → entry < a.size →
    ∃ exit b E, d entry a = .ok (exit, b) ∧ Fragment a b E entry exit ∅ ∧
      E.words entry exit = L ∧ (L = 1 → exit = entry)

/-- A drawing that draws a language realizes it from any state. -/
theorem Draws.realizes (h : Draws d L) (ha : a.WellFormed) (hentry : entry < a.size) :
    Realizes (d entry) id a entry ∅ L := by
  rcases h a entry ha hentry with ⟨exit, b, E, hd, hfragment, hwords, -⟩
  exact ⟨exit, b, E, hd, hfragment, hwords⟩

/-- A language with another word than the empty one leaves nothing else to be shown. -/
theorem Draws.of_realizes (hL : L ≠ 1)
    (h : ∀ a entry, a.WellFormed → entry < a.size → Realizes (d entry) id a entry ∅ L) :
    Draws d L := by
  intro a entry ha hentry
  rcases h a entry ha hentry with ⟨exit, b, E, hd, hfragment, hwords⟩
  exact ⟨exit, b, E, hd, hfragment, hwords, fun hone => absurd hone hL⟩

theorem draws_pure : Draws pure 1 := by
  intro a entry ha hentry
  rcases realizes_pure ha hentry ∅ with ⟨exit, b, E, hd, hfragment, hwords⟩
  cases hd
  exact ⟨entry, a, E, rfl, hfragment, hwords, fun _ => rfl⟩

/-- A character is an edge to a new state. -/
theorem draws_letter (c : Char) :
    Draws (fun p => do let next ← newState; addEdge p (.char c) next; pure next) {[c]} :=
  Draws.of_realizes (letter_ne_one c) fun _ _ ha hentry => realizes_step ha hentry (.char c) ∅

/-- One drawing behind the other draws the product. If that is the language of the empty word, so
are both factors, and neither drawing has moved. -/
theorem Draws.append (h : Draws d L) (h' : Draws d' M) : Draws (fun p => d p >>= d') (L * M) := by
  intro a entry ha hentry
  rcases h a entry ha hentry with ⟨m, b, E, hd, hfragment, hwords, hone⟩
  rcases h' b m hfragment.wellFormed hfragment.exit_lt with
    ⟨exit, c, F, hd', hfragment', hwords', hone'⟩
  rcases hfragment.append hfragment' with ⟨hboth, hproduct⟩
  refine ⟨exit, c, E ⊔ F, ?_, hboth, ?_, ?_⟩
  · show (d entry >>= d') a = _
    rw [bind_eq_of_ok hd, hd']
  · rw [hproduct, hwords, hwords']
  · -- a language that is that of the empty word has such factors, and neither drawing moved
    intro hLM
    rcases eq_one_of_mul_eq_one hLM with ⟨hL, hM⟩
    rw [hone' hM, hone hL]

/-- A character that turns on the state it led to. -/
theorem draws_letters (c : Char) :
    Draws (fun p => do
      let loop ← (do let next ← newState; addEdge p (.char c) next; pure next)
      addEdge loop (.char c) loop
      pure loop) ({[c]} * {[c]}∗) := by
  refine Draws.of_realizes (fun hone => letter_ne_one c (eq_one_of_mul_eq_one hone).1) ?_
  intro a entry ha hentry
  have hne : entry ≠ a.size := Nat.ne_of_lt hentry
  have hstep := Fragment.step ha hentry (.char c) ∅
  have hturn := Fragment.turn hstep.wellFormed hstep.exit_lt c
  have hends : ∀ q ∈ ({a.size} : Set StateId), a.size ≤ q ∨ q ∈ (∅ : Set StateId) := by
    rintro q rfl
    exact .inl (Nat.le_refl _)
  refine ⟨a.size, _, _, ?_, hstep.trans hturn (.inr (Nat.le_refl _)) (Set.Subset.refl ∅) hends, ?_⟩
  · rw [bind_eq_of_ok (step_eq_ok ha hentry (.char c)),
      bind_eq_of_ok (addEdge_eq_ok hstep.exit_lt hstep.exit_lt)]
    rfl
  · -- nothing of the first edge leaves the new state
    have hfree : ∀ q ∈ ({a.size} : Set StateId), ∀ s r,
        ¬EdgeRelation.one entry (.char c) a.size q s r := by
      rintro q rfl s r edge
      exact hne edge.1.symm
    show (_ ⊔ _ : EdgeRelation).words entry a.size = _
    rw [hstep.words_append hturn hfree fun _ => .inl rfl, EdgeRelation.words_turn,
      EdgeRelation.words_one hne]
    rfl

/-- A drawing made twice with an edge back: at least two words of the language. -/
theorem Draws.again (h : Draws d L) :
    Draws (fun p => do
      let m ← d p
      let exit ← d m
      link exit m
      pure exit) (L * L * L∗) := by
  intro a entry ha hentry
  rcases h a entry ha hentry with ⟨m, b, E, hd, hfragment, hwords, hone⟩
  rcases h b m hfragment.wellFormed hfragment.exit_lt with
    ⟨exit, c, F, hd', hfragment', hwords', hone'⟩
  rcases hfragment.append hfragment' with ⟨hboth, hproduct⟩
  have hexit : exit < c.size := hboth.exit_lt
  have hm_lt : m < c.size := Nat.lt_of_lt_of_le hfragment.exit_lt hfragment'.size_le
  have hrun : (do let m ← d entry; let exit ← d m; link exit m; pure exit : Drawing StateId) a
      = .ok (exit, c.withEdge exit .epsilon m) := by
    have hlink : link exit m c = .ok ((), c.withEdge exit .epsilon m) := addEdge_eq_ok hexit hm_lt
    rw [bind_eq_of_ok hd, bind_eq_of_ok hd', bind_eq_of_ok hlink]
    rfl
  by_cases hsame : exit = m
  · -- nothing was drawn, and the edge back is idle
    subst hsame
    have hL : L = 1 := hwords'.symm.trans hfragment'.words_entry
    refine ⟨exit, _, _, hrun, hboth.withEdge_idle hexit, ?_, fun _ => hone hL⟩
    rw [hproduct, hwords, hwords', hL, kstar_one, mul_one, mul_one]
  · -- the language has more than the empty word, so the first drawing moved on as well
    have hL : L ≠ 1 := fun hL => hsame (hone' hL)
    have hnew : a.size ≤ m := by
      rcases hfragment.exit_eq_or_le (Set.empty_subset _) with rfl | hm
      · exact absurd (hwords.symm.trans hfragment.words_entry) hL
      · exact hm
    have hexit_new : b.size ≤ exit :=
      (hfragment'.exit_eq_or_le (Set.empty_subset _)).resolve_left hsame
    have hsource : exit = entry ∨ a.size ≤ exit := .inr (Nat.le_trans hfragment.size_le hexit_new)
    have hback := hboth.withEdge (s := .epsilon) hexit hm_lt (.inr hsame) hsource (.inl hnew)
      (Set.Subset.refl ∅)
    refine ⟨exit, _, _, hrun, hback.withExit ?_ (hsource.imp_right .inl), ?_, ?_⟩
    · rw [Automaton.size_withEdge]
      exact hexit
    · rw [hfragment.words_again hfragment' hsame (hwords'.trans hwords.symm), hwords]
    · intro hLL
      exact absurd (eq_one_of_mul_eq_one (eq_one_of_mul_eq_one hLL).1).1 hL

/-- A union behind what was drawn before its first bar, which no word gets out of. -/
theorem Draws.union (h : Draws d M) (text : List Char) :
    Draws (fun p => do
      let _ ← d p
      union p text) (nonEmptyWords (text.splitOn '|')) := by
  have hne := nonEmptyWords_ne_one (text.splitOn '|')
  refine Draws.of_realizes hne fun a entry ha hentry => ?_
  rcases h a entry ha hentry with ⟨m, b, E, hd, hfragment, -, -⟩
  have hentry' : entry < b.size := Nat.lt_of_lt_of_le hentry hfragment.size_le
  rcases realizes_union text hfragment.wellFormed hentry' with
    ⟨join, c, F, hd', hfragment', hwords'⟩
  -- a word of the union has a character, so the join is not where it started
  have hjoin : b.size ≤ join := by
    rcases hfragment'.exit_eq_or_le (Set.empty_subset _) with hjoin | hjoin
    · have hjoin' : join = entry := hjoin
      subst hjoin'
      exact absurd (hwords'.symm.trans hfragment'.words_entry) hne
    · exact hjoin
  -- what was drawn before the bar is older than the join and leads nowhere else
  have hdead : E.words entry join = 0 := by
    apply EdgeRelation.words_eq_zero
    · rintro rfl
      exact absurd hentry' (Nat.not_lt.2 hjoin)
    · intro x s edge
      exact absurd (hfragment.edge_lt edge).2 (Nat.not_lt.2 hjoin)
  refine ⟨join, c, E ⊔ F, ?_, ?_, ?_⟩
  · rw [bind_eq_of_ok hd, hd']
  · exact hfragment.trans hfragment' (.inl rfl) (Set.Subset.refl ∅)
      fun q hq => absurd hq (Set.notMem_empty q)
  · show (E ⊔ F).words entry join = _
    rw [hfragment.words_sup hfragment' (Set.notMem_empty _) (Set.notMem_empty _)
      fun q hq => absurd hq (Set.notMem_empty q), hdead, zero_add]
    exact hwords'

/-! ## The descent along the grammar -/

mutual

/-- A slice that can be read and stacks no quantifiers is drawn to what it stands for. -/
theorem draws_of_branches {s : List Char} {branches : List Pattern} (h : Branches s branches)
    (hs : Unstacked s) : ∃ L, SliceDenotes s L ∧ Draws (fun p => slice s p p 0) L := by
  match h with
  | .last h =>
    rcases draws_of_items h hs with ⟨L, d, hdenotes, hdraws, hdescends⟩
    rw [hdescends.slice_eq]
    exact ⟨L, .sequence hdenotes, hdraws⟩
  | @Branches.bar u v _ _ h h' =>
    -- the branch in front of the first bar is drawn as items before the bar is seen
    rcases draws_of_items h hs.left with ⟨L, d, -, hdraws, hdescends⟩
    have hd : (fun p => slice (u ++ '|' :: v) p p 0)
        = (fun p => (do let _ ← d p; union p (u ++ '|' :: v))) := by
      funext p
      have hp := hdescends [] ('|' :: v) p p
      simp only [List.nil_append, List.length_nil, Nat.zero_add, slice_bar] at hp
      exact hp
    rw [hd]
    exact ⟨_, .union h.balanced h'.balanced, hdraws.union _⟩

/-- Items that stack no quantifiers are drawn to what they stand for. -/
theorem draws_of_items {s : List Char} {items : List Pattern} (h : Items s items)
    (hs : Unstacked s) : ∃ L d, SequenceDenotes s L ∧ Draws d L ∧ Descends s d := by
  match h with
  | .nil => exact ⟨1, pure, .nil, draws_pure, descends_nil⟩
  | @Items.cons w t _ _ hatom qs hitems =>
    rcases draws_of_items hitems hs.right.right with ⟨M, d, hdenotes, hdraws, hdescends⟩
    -- at most one quantifier stands behind an item
    rcases hs.right.left.quantifiers with rfl | ⟨q, rfl⟩
    · match hatom with
      | .literal hc =>
        exact ⟨_, _, .letter hc hdenotes, (draws_letter _).append hdraws,
          (descends_letter hc).append hdescends⟩
      | @Atom.group s _ hbranches =>
        rcases draws_of_branches hbranches hs.left.inside with ⟨L, hslice, hgroup⟩
        have htext : '(' :: (s ++ [')']) ++ t = '(' :: (s ++ ')' :: t) := by simp
        have hsequence := SequenceDenotes.group hslice hdenotes
        rw [← htext] at hsequence
        exact ⟨_, _, hsequence, hgroup.append hdraws,
          (descends_group hslice.balanced).append hdescends⟩
    · match hatom with
      | .literal hc =>
        exact ⟨_, _, .letters hc q hdenotes, (draws_letters _).append hdraws,
          (descends_letters hc q).append hdescends⟩
      | @Atom.group s _ hbranches =>
        rcases draws_of_branches hbranches hs.left.inside with ⟨L, hslice, hgroup⟩
        have htext : '(' :: (s ++ [')']) ++ ([q].map Quantifier.toChar ++ t)
            = '(' :: (s ++ [')', q.toChar]) ++ t := by simp
        have htext' : '(' :: (s ++ ')' :: q.toChar :: t) = '(' :: (s ++ [')', q.toChar]) ++ t := by
          simp
        have hsequence := SequenceDenotes.groups hslice q hdenotes
        rw [htext'] at hsequence
        rw [htext]
        exact ⟨_, _, hsequence, hgroup.again.append hdraws,
          (descends_groups hslice.balanced q).append hdescends⟩

end

/-- A descent into a text that passes the check draws what the text stands for, behind the initial
state. -/
theorem exists_realizes_of_check {limit : Nat} {text : List Char}
    (hcheck : check limit text = .ok ()) :
    ∃ L, SliceDenotes text L ∧ Realizes (slice text 0 0 0) id initialState 0 ∅ L := by
  rcases exists_branches_of_check hcheck with ⟨branches, hbranches⟩
  rcases draws_of_branches hbranches (unstacked_of_check hcheck) with ⟨L, hdenotes, hdraws⟩
  exact ⟨L, hdenotes, hdraws.realizes wellFormed_initialState size_initialState_pos⟩

/-- Once the checks are passed, the text is drawn from the initial state as one slice. -/
theorem ofText_eq_automaton {options : Options} {text : List Char}
    (hlength : text.length ≤ options.maxLength) (hcheck : check options.maxDepth text = .ok ()) :
    ofText options text = automaton fun p => slice text p p 0 := by
  unfold ofText
  rw [if_neg (Nat.not_lt.2 hlength), hcheck]

/-- What is drawn has passed the length limit and the check. -/
theorem of_ofText_eq_ok {options : Options} {text : List Char} (h : ofText options text = .ok a) :
    text.length ≤ options.maxLength ∧ check options.maxDepth text = .ok () := by
  unfold ofText at h
  split at h
  · cases h
  · next hlength =>
    split at h
    · cases h
    · next hcheck => exact ⟨Nat.not_lt.1 hlength, hcheck⟩

/-- Every text within the limits of the options that passes the check has an automaton, and the
automaton accepts what the text stands for. -/
theorem exists_ofText {options : Options} {text : List Char}
    (hlength : text.length ≤ options.maxLength) (hcheck : check options.maxDepth text = .ok ()) :
    ∃ L a, SliceDenotes text L ∧ ofText options text = .ok a ∧ a.WellFormed ∧
      ∀ word, a.accepts word = true ↔ word.toList ∈ L := by
  rcases exists_realizes_of_check hcheck with ⟨L, hdenotes, hrealizes⟩
  rw [ofText_eq_automaton hlength hcheck]
  have hautomaton : ∃ a, automaton (fun p => slice text p p 0) = .ok a ∧ a.WellFormed ∧
      ∀ word, a.accepts word = true ↔ word.toList ∈ L := Realizes.accepts_iff hrealizes
  rcases hautomaton with ⟨a, ha, hwf, haccepts⟩
  exact ⟨L, a, hdenotes, ha, hwf, haccepts⟩

end PatternGraph.Drawing
