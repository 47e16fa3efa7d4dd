import PatternGraph.Proofs.Drawing.Tree
import PatternGraph.Proofs.Pattern.Collapse

/-!
# Size — how many states the drawing of a tree adds

Two bounds, proved apart and then put together.

1. `cost` counts along a tree how many states its drawing adds at most. Where a strict plus has its
   item drawn twice, the cost of the item counts twice (`addsAtMost_tree`).
2. The cost of a tree is bounded by its text: every new state is paid for by a character that is no
   parenthesis, once for each way through the pluses around it, which double (`cost_le`). An
   alternation pays for the state where its branches meet with one of its bars.
-/

namespace PatternGraph

namespace Pattern

/-! ## Weight and nested pluses -/

/-- The number of characters of a text that are no parentheses. -/
def weight (text : List Char) : Nat :=
  text.countP fun c => c ≠ '(' && c ≠ ')'

mutual

/-- The number of pluses inside one another in a tree. -/
def plusNesting : Pattern → Nat
  | empty => 0
  | literal _ => 0
  | concat items => plusNestingAll items
  | alternation branches => plusNestingAll branches
  | closure item .zeroOrMore => item.plusNesting
  | closure item .oneOrMore => item.plusNesting + 1
  | group inner => inner.plusNesting

/-- The largest number of pluses inside one another among trees. -/
def plusNestingAll : List Pattern → Nat
  | [] => 0
  | p :: ps => max p.plusNesting (plusNestingAll ps)

end

variable {s t : List Char} {p : Pattern} {branches : List Pattern}

theorem weight_append (s t : List Char) : weight (s ++ t) = weight s + weight t :=
  List.countP_append

/-- A quantifier pays for one state. -/
theorem weight_toChar (q : Quantifier) : weight [q.toChar] = 1 := by
  cases q with
  | zeroOrMore => decide
  | oneOrMore => decide

/-- An ordinary character pays for one state. -/
theorem weight_literal {c : Char} (h : IsOrdinary c) : weight [c] = 1 := by
  simp [weight, h.1, h.2.1]

/-- Parentheses weigh nothing. -/
theorem weight_group (s : List Char) : weight ('(' :: s ++ [')']) = weight s := by
  simp [weight]

/-- A quantifier that is dropped makes a text lighter. -/
theorem weight_collapse_le (s : List Char) : weight (collapse s) ≤ weight s :=
  (collapse_sublist s).countP_le

/-- The text of branches is their texts and one bar less than there are branches. -/
theorem branchChars_perm (h : branches ≠ []) : (branchChars branches).Perm
    (List.replicate (branches.length - 1) '|' ++ itemChars branches) := by
  induction branches with
  | nil => exact absurd rfl h
  | cons branch rest ih =>
    by_cases hrest : rest = []
    · subst hrest
      simp [branchChars, itemChars]
    · -- behind the first branch comes a bar, and the bars of the rest are one fewer than all
      have hbars : rest.length = rest.length - 1 + 1 :=
        (Nat.succ_pred_eq_of_pos (List.length_pos_iff.2 hrest)).symm
      rw [branchChars_cons _ hrest, itemChars, List.length_cons, Nat.add_sub_cancel, hbars,
        List.replicate_succ, List.cons_append]
      refine List.perm_middle.trans (List.Perm.cons '|' ?_)
      refine ((ih hrest).append_left branch.chars).trans ?_
      exact List.perm_append_comm_assoc _ _ _

/-- The bars of an alternation are what its text weighs more than its branches. -/
theorem weight_branchChars (h : branches ≠ []) :
    weight (branchChars branches) = branches.length - 1 + weight (itemChars branches) := by
  unfold weight
  rw [(branchChars_perm h).countP_eq, List.countP_append, List.countP_replicate]
  rfl

/-! ## The cost of a tree -/

mutual

/-- How many states the drawing of a tree adds at most. -/
def cost (strictPlus : Bool) : Pattern → Nat
  | empty => 0
  | literal _ => 1
  | concat items => costAll strictPlus items
  | alternation branches => costAll strictPlus branches + 1
  | closure item .zeroOrMore => item.cost strictPlus + 1
  | closure item .oneOrMore =>
    if strictPlus then item.cost strictPlus + (item.cost strictPlus + 1)
    else item.cost strictPlus + 1
  | group inner => inner.cost strictPlus

/-- How many states the drawings of trees add at most. -/
def costAll (strictPlus : Bool) : List Pattern → Nat
  | [] => 0
  | p :: ps => p.cost strictPlus + costAll strictPlus ps

end

/-- How often a part of a tree is drawn at most, where so many strict pluses are nested. -/
def copies (strictPlus : Bool) (depth : Nat) : Nat :=
  2 ^ (if strictPlus then depth else 0)

theorem copies_pos (strictPlus : Bool) (depth : Nat) : 0 < copies strictPlus depth :=
  Nat.two_pow_pos _

/-- One plus more around a part has all its copies drawn twice. -/
theorem copies_succ (depth : Nat) : copies true (depth + 1) = copies true depth * 2 := by
  simp [copies, Nat.pow_succ]

/-- One character more pays for one state more, however many copies there are. -/
theorem cost_add_one_le {strictPlus : Bool} {n w depth : Nat}
    (h : n ≤ w * copies strictPlus depth) : n + 1 ≤ (w + 1) * copies strictPlus depth := by
  have hpos := copies_pos strictPlus depth
  rw [Nat.succ_mul]
  omega

mutual

/-- The cost of a canonical tree is at most the weight of its text times the number of copies. -/
theorem cost_le (strictPlus : Bool) {p : Pattern} (hp : p.IsCanonical) {depth : Nat}
    (hdepth : p.plusNesting ≤ depth) :
    p.cost strictPlus ≤ weight p.chars * copies strictPlus depth := by
  match p with
  | empty => exact Nat.zero_le _
  | literal c =>
    have hweight : weight (literal c).chars = 1 := weight_literal (isCanonical_literal_iff.1 hp)
    rw [hweight, Nat.one_mul]
    exact copies_pos strictPlus depth
  | concat items =>
    have hitems := (isCanonical_concat_iff.1 hp).2
    exact costAll_le strictPlus (fun item h => (hitems item h).1) hdepth
  | alternation branches =>
    obtain ⟨hlength, hbranches⟩ := isCanonical_alternation_iff.1 hp
    have hall := costAll_le strictPlus (fun branch h => (hbranches branch h).1) hdepth
    have hne : branches ≠ [] := by
      rintro rfl
      cases hlength
    -- one of the bars pays for the state where the branches meet
    have hbar : weight (itemChars branches) + 1 ≤ weight (branchChars branches) := by
      rw [weight_branchChars hne]
      omega
    exact Nat.le_trans (cost_add_one_le hall) (Nat.mul_le_mul_right _ hbar)
  | closure item quantifier =>
    have hitem := (isCanonical_closure_iff.1 hp).1
    have hweight : weight (closure item quantifier).chars = weight item.chars + 1 := by
      rw [chars, weight_append, weight_toChar]
    rw [hweight]
    match quantifier, strictPlus, depth, hdepth with
    | .zeroOrMore, _, _, hdepth => exact cost_add_one_le (cost_le _ hitem hdepth)
    | .oneOrMore, false, _, hdepth =>
      exact cost_add_one_le (cost_le false hitem (Nat.le_of_succ_le hdepth))
    | .oneOrMore, true, depth + 1, hdepth =>
      -- both drawings of the item have the copies of one plus less
      have honce := cost_le true hitem (Nat.le_of_succ_le_succ hdepth)
      have hagain := cost_add_one_le honce
      calc item.cost true + (item.cost true + 1)
        _ ≤ (weight item.chars + 1) * copies true depth
              + (weight item.chars + 1) * copies true depth :=
            Nat.add_le_add (Nat.le_of_succ_le hagain) hagain
        _ = (weight item.chars + 1) * copies true (depth + 1) := by
            rw [copies_succ, Nat.mul_two, Nat.mul_add]
  | group inner =>
    have hweight : weight (group inner).chars = weight inner.chars := weight_group inner.chars
    rw [hweight]
    exact cost_le strictPlus (isCanonical_group_iff.1 hp) hdepth

/-- The same of trees together, whose texts stand behind one another. -/
theorem costAll_le (strictPlus : Bool) {ps : List Pattern} (hps : ∀ p ∈ ps, p.IsCanonical)
    {depth : Nat} (hdepth : plusNestingAll ps ≤ depth) :
    costAll strictPlus ps ≤ weight (itemChars ps) * copies strictPlus depth := by
  match ps with
  | [] => exact Nat.zero_le _
  | p :: ps =>
    obtain ⟨hp, hrest⟩ := List.forall_mem_cons.1 hps
    obtain ⟨hfirst, hothers⟩ := Nat.max_le.1 hdepth
    rw [costAll, itemChars, weight_append, Nat.add_mul]
    exact Nat.add_le_add (cost_le strictPlus hp hfirst) (costAll_le strictPlus hrest hothers)

end

mutual

/-- A tree has no more pluses inside one another than its text has at all. -/
theorem plusNesting_le_count (p : Pattern) : p.plusNesting ≤ p.chars.count '+' := by
  match p with
  | empty => exact Nat.zero_le _
  | literal c => exact Nat.zero_le _
  | concat items => exact plusNestingAll_le_count items
  | alternation branches =>
    by_cases hne : branches = []
    · rw [hne]
      exact Nat.zero_le _
    · show plusNestingAll branches ≤ (branchChars branches).count '+'
      rw [(branchChars_perm hne).count_eq, List.count_append]
      exact Nat.le_trans (plusNestingAll_le_count branches) (Nat.le_add_left _ _)
  | closure item .zeroOrMore =>
    rw [chars, List.count_append]
    exact Nat.le_trans (plusNesting_le_count item) (Nat.le_add_right _ _)
  | closure item .oneOrMore =>
    rw [chars, List.count_append]
    exact Nat.succ_le_succ (plusNesting_le_count item)
  -- the parentheses are no pluses
  | group inner =>
    show inner.plusNesting ≤ _
    rw [chars, List.cons_append, List.count_cons, List.count_append]
    have := plusNesting_le_count inner
    omega

/-- The same of trees together. They are beside one another, so the largest number counts, not the
sum. -/
theorem plusNestingAll_le_count (ps : List Pattern) :
    plusNestingAll ps ≤ (itemChars ps).count '+' := by
  match ps with
  | [] => exact Nat.zero_le _
  | p :: ps =>
    have hfirst := plusNesting_le_count p
    have hothers := plusNestingAll_le_count ps
    rw [plusNestingAll, itemChars, List.count_append]
    omega

end

end Pattern

namespace Drawing

open Pattern

variable {α β : Type} {m n : Nat}

/-! ## What a drawing adds -/

/-- A drawing adds at most so many states to any automaton it succeeds on. -/
def AddsAtMost (d : Drawing α) (n : Nat) : Prop :=
  ∀ a x b, d a = .ok (x, b) → b.size ≤ a.size + n

namespace AddsAtMost

/-- A bound may be taken larger. -/
theorem mono {d : Drawing α} (h : AddsAtMost d m) (hle : m ≤ n) : AddsAtMost d n := by
  intro a x b hd
  exact Nat.le_trans (h a x b hd) (Nat.add_le_add_left hle a.size)

theorem pure (x : α) : AddsAtMost (Pure.pure x) 0 := by
  intro a y b hd
  cases hd
  exact Nat.le_refl _

/-- A new state is one state. -/
theorem newState : AddsAtMost Drawing.newState 1 := by
  intro a x b hd
  cases hd
  exact Nat.le_of_eq Automaton.size_withState

/-- An edge adds no state, and none is added where it is refused. -/
theorem addEdge (source : StateId) (symbol : Symbol) (target : StateId) :
    AddsAtMost (Drawing.addEdge source symbol target) 0 := by
  intro a x b hd
  unfold Drawing.addEdge at hd
  cases hedge : a.addEdge source symbol target with
  | error e =>
    rw [hedge] at hd
    cases hd
  | ok c =>
    rw [hedge] at hd
    cases hd
    obtain ⟨-, -, rfl⟩ := Automaton.of_addEdge_eq_ok hedge
    exact Nat.le_of_eq Automaton.size_withEdge

theorem hasEdges (id : StateId) : AddsAtMost (Drawing.hasEdges id) 0 := by
  intro a x b hd
  cases hd
  exact Nat.le_refl _

/-- What two drawings add one after the other is what each of them adds. -/
theorem bind {d : Drawing α} {f : α → Drawing β} (h : AddsAtMost d m)
    (hf : ∀ x, AddsAtMost (f x) n) : AddsAtMost (d >>= f) (m + n) := by
  intro a y c hbind
  cases hd : d a with
  | error e =>
    -- a failed first drawing is the failure of both, so no automaton comes out
    have hfailed : (d >>= f) a = .error e := by
      show Except.bind (d a) _ = _
      rw [hd]
      rfl
    rw [hfailed] at hbind
    cases hbind
  | ok result =>
    obtain ⟨x, b⟩ := result
    rw [bind_eq_of_ok hd] at hbind
    -- the states the first one adds are there before the second one adds its own
    have hfirst := h a x b hd
    have hthen := hf x b y c hbind
    omega

theorem link (source target : StateId) : AddsAtMost (Drawing.link source target) 0 :=
  addEdge source .epsilon target

/-- The state of a loop is a new one at most. -/
theorem loopState (entry : StateId) (exclusive : Bool) :
    AddsAtMost (Drawing.loopState entry exclusive) 1 := by
  unfold Drawing.loopState
  refine (bind (n := 1) (hasEdges entry) fun leaves => ?_).mono (Nat.le_refl 1)
  split
  · exact (pure entry).mono (Nat.zero_le 1)
  · exact newState.bind fun loop => (link entry loop).bind fun _ => pure loop

/-- A loop on a state adds what its body adds, and a literal adds nothing. -/
theorem turn {literal? : Option Char} {body : StateId → Bool → Drawing StateId} {loop : StateId}
    (hbody : AddsAtMost (body loop false) n) : AddsAtMost (Drawing.turn literal? body loop) n := by
  cases literal? with
  | some c => exact ((addEdge loop (.char c) loop).bind fun _ => pure loop).mono (Nat.zero_le n)
  | none =>
    show AddsAtMost (body loop false >>= fun exit =>
      if exit ≠ loop then Drawing.link exit loop >>= fun _ => Pure.pure loop
      else Pure.pure loop) n
    refine bind (n := 0) hbody fun exit => ?_
    split
    · exact (link exit loop).bind fun _ => pure loop
    · exact pure loop

/-- A loop adds its state and what its body adds. -/
theorem star {literal? : Option Char} {body : StateId → Bool → Drawing StateId}
    (hbody : ∀ loop, AddsAtMost (body loop false) n) (entry : StateId) (exclusive : Bool) :
    AddsAtMost (Drawing.star literal? body entry exclusive) (n + 1) := by
  rw [Nat.add_comm]
  exact (loopState entry exclusive).bind fun loop => turn (hbody loop)

/-- A final mark adds no state. -/
theorem setFinal (id : StateId) : AddsAtMost (Drawing.setFinal id) 0 := by
  intro a x b hd
  unfold Drawing.setFinal at hd
  cases hfinal : a.setFinal id with
  | error e =>
    rw [hfinal] at hd
    cases hd
  | ok c =>
    rw [hfinal] at hd
    cases hd
    obtain ⟨-, rfl⟩ := Automaton.of_setFinal_eq_ok hfinal
    exact Nat.le_of_eq Automaton.size_withFinal

/-- A whole automaton has its first state and what is drawn behind that one. -/
theorem size_automaton_le {draw : StateId → Drawing StateId} {a : Automaton}
    (h : ∀ initial, AddsAtMost (draw initial) n) (ha : automaton draw = .ok a) :
    a.size ≤ 1 + n := by
  have hwhole : AddsAtMost (do
      let initial ← Drawing.newState
      let exit ← draw initial
      Drawing.setFinal exit) (1 + (n + 0)) :=
    newState.bind fun initial => (h initial).bind setFinal
  unfold automaton at ha
  simp only at ha
  split at ha
  · next b hdrawn =>
    cases ha
    have hsize := hwhole ∅ _ _ hdrawn
    rwa [show (∅ : Automaton).size = 0 from rfl, Nat.zero_add] at hsize
  · cases ha

end AddsAtMost

/-! ## What the drawing of a tree adds -/

mutual

/-- The drawing of a tree adds no more states than the cost of the tree. -/
theorem addsAtMost_tree (strict : Bool) (p : Pattern) (entry : StateId) (exclusive : Bool) :
    AddsAtMost (tree strict p entry exclusive) (p.cost strict) := by
  match p with
  | .empty => exact AddsAtMost.pure entry
  | .literal c =>
    exact AddsAtMost.newState.bind fun next =>
      (AddsAtMost.addEdge entry (.char c) next).bind fun _ => AddsAtMost.pure next
  | .concat items => exact addsAtMost_sequence strict items entry exclusive
  | .alternation alternatives =>
    show AddsAtMost _ (costAll strict alternatives + 1)
    rw [Nat.add_comm]
    exact AddsAtMost.newState.bind fun join =>
      (addsAtMost_branches strict alternatives entry join).bind fun _ => AddsAtMost.pure join
  | .closure item .zeroOrMore =>
    exact AddsAtMost.star (fun loop => addsAtMost_tree strict item loop false) entry exclusive
  | .closure item .oneOrMore =>
    -- a lax plus is drawn as a star, a strict one draws its item once more in front of that star:
    -- this is where the cost doubles
    have hstar : ∀ (entry : StateId) (exclusive : Bool),
        AddsAtMost (star item.literal? (tree strict item) entry exclusive) (item.cost strict + 1) :=
      AddsAtMost.star fun loop => addsAtMost_tree strict item loop false
    cases strict with
    | false => exact hstar entry exclusive
    | true => exact (addsAtMost_tree true item entry exclusive).bind fun once => hstar once _
  | .group inner => exact addsAtMost_tree strict inner entry exclusive

/-- A sequence adds what its items add. -/
theorem addsAtMost_sequence (strict : Bool) (items : List Pattern) (entry : StateId)
    (exclusive : Bool) :
    AddsAtMost (sequence strict items entry exclusive) (costAll strict items) := by
  match items with
  | [] => exact AddsAtMost.pure entry
  | item :: items =>
    exact (addsAtMost_tree strict item entry exclusive).bind fun next =>
      addsAtMost_sequence strict items next _

/-- Alternatives between two states add what they add each. -/
theorem addsAtMost_branches (strict : Bool) (alternatives : List Pattern)
    (entry join : StateId) :
    AddsAtMost (branches strict alternatives entry join) (costAll strict alternatives) := by
  match alternatives with
  | [] => exact AddsAtMost.pure ()
  | branch :: rest =>
    have hrest := addsAtMost_branches strict rest entry join
    match branch with
    | .literal c =>
      -- the economy: no state for a literal between two states that are there
      exact ((AddsAtMost.addEdge entry (.char c) join).bind fun _ => hrest).mono
        (Nat.add_le_add_right (Nat.zero_le 1) _)
    | .concat items =>
      exact (addsAtMost_sequenceInto strict items entry false join).bind fun _ => hrest
    | .empty | .alternation _ | .closure _ _ | .group _ =>
      rw [branches_cons]
      · exact (addsAtMost_tree strict _ entry false).bind fun exit =>
          ((AddsAtMost.link exit join).bind fun _ => hrest).mono (Nat.le_of_eq (Nat.zero_add _))
      · exact id

/-- A sequence into a given state adds no more than its items do; a literal at its end adds nothing.
-/
theorem addsAtMost_sequenceInto (strict : Bool) (items : List Pattern) (entry : StateId)
    (exclusive : Bool) (join : StateId) :
    AddsAtMost (sequenceInto strict items entry exclusive join) (costAll strict items) := by
  match items with
  | [] => exact AddsAtMost.link entry join
  | item :: items =>
    by_cases hlast : ∃ c, item = .literal c ∧ items = []
    · obtain ⟨c, rfl, rfl⟩ := hlast
      exact (AddsAtMost.addEdge entry (.char c) join).mono (Nat.zero_le _)
    · rw [sequenceInto_cons hlast]
      exact (addsAtMost_tree strict item entry exclusive).bind fun next =>
        addsAtMost_sequenceInto strict items next _ join

end

/-- The automaton of a tree has its first state and the states that the tree adds. -/
theorem size_ofPattern_le {strict : Bool} {p : Pattern} {a : Automaton}
    (h : ofPattern strict p = .ok a) : a.size ≤ 1 + p.cost strict := by
  exact AddsAtMost.size_automaton_le (fun initial => addsAtMost_tree strict p initial true) h

end Drawing

end PatternGraph
