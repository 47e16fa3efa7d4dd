import PatternGraph.Proofs.Drawing.Slice
import PatternGraph.Proofs.Pattern.Partners

/-!
# Totality — a descent into a checked text never fails

The descent calls itself on slices of its text, with indices of their own, and could fail in each
of these calls: where a partner is searched for, where a quantifier looks for what it repeats, and
where an edge is added.

1. `Visits` are the slices that a descent into a text is called on; each of them is a checked text
   (`Visits.checked`).
2. `completes_slice` says that a descent into a checked text succeeds, from any of its indices and
   any two states of any automaton, and keeps the automaton well formed.
-/

namespace PatternGraph.Drawing

open Pattern

variable {α : Type} {a b : Automaton} {entry current p q : StateId} {s : Symbol} {index : Nat}
  {text inner : List Char} {E : EdgeRelation} {ends : Set StateId} {L : Language Char}

/-! ## Drawings that succeed -/

/-- The drawing succeeds on an automaton; it loses no state and ends in one that there is. -/
def Completes (d : Drawing StateId) (a : Automaton) : Prop :=
  ∃ exit b, d a = .ok (exit, b) ∧ b.WellFormed ∧ a.size ≤ b.size ∧ exit < b.size

/-- A drawing that does nothing succeeds. -/
theorem completes_pure (ha : a.WellFormed) (hp : p < a.size) : Completes (pure p) a :=
  ⟨p, a, rfl, ha, Nat.le_refl _, hp⟩

/-- What realizes a language has succeeded. -/
theorem Realizes.completes {d : Drawing StateId} (h : Realizes d id a entry ends L) :
    Completes d a := by
  rcases h with ⟨exit, b, E, hd, hfragment, -⟩
  exact ⟨exit, b, hd, hfragment.wellFormed, hfragment.size_le, hfragment.exit_lt⟩

/-- What follows a drawing may rely on all states that were there before it. -/
theorem Completes.bind {d : Drawing StateId} {f : StateId → Drawing StateId} (h : Completes d a)
    (h' : ∀ m b, b.WellFormed → a.size ≤ b.size → m < b.size → Completes (f m) b) :
    Completes (d >>= f) a := by
  rcases h with ⟨m, b, hd, hb, hle, hm⟩
  rcases h' m b hb hle hm with ⟨exit, c, hf, hc, hle', hexit⟩
  refine ⟨exit, c, ?_, hc, Nat.le_trans hle hle', hexit⟩
  rw [bind_eq_of_ok hd, hf]

/-- An edge between states that are there is added, and takes none of them away. -/
theorem Completes.afterEdge {d : Drawing StateId} (hp : p < a.size) (hq : q < a.size)
    (h : Completes d (a.withEdge p s q)) :
    Completes (do addEdge p s q; d) a := by
  rcases h with ⟨exit, b, hd, hb, hle, hexit⟩
  rw [Automaton.size_withEdge] at hle
  refine ⟨exit, b, ?_, hb, hle, hexit⟩
  rw [bind_eq_of_ok (addEdge_eq_ok hp hq), hd]

/-! ## What a quantifier repeats -/

/-- A quantifier of a checked text finds the character or the group before it. -/
theorem exists_repeatedAt (h : Checked text) {c : Char} (hc : c = '*' ∨ c = '+')
    (hchar : text[index]? = some c) :
    ∃ r, repeatedAt text c index = .ok r ∧ ∀ inner, r = .group inner → Checked inner := by
  rcases exists_split_at hchar with ⟨u, v, rfl, rfl⟩
  have hrepeatable : isRepeatable u.getLast? = true := by
    rcases hc with rfl | rfl
    · exact h.repeatable u v .zeroOrMore rfl
    · exact h.repeatable u v .oneOrMore rfl
  -- the quantifier is not the first character, since something repeatable stands before it
  rcases List.eq_nil_or_concat u with rfl | ⟨w, x, rfl⟩
  · cases hrepeatable
  · simp only [List.concat_eq_append] at h hrepeatable ⊢
    rw [List.getLast?_concat] at hrepeatable
    have hprevious : (w ++ [x] ++ c :: v)[w.length]? = some x := by simp
    rw [List.length_append, List.length_singleton, repeatedAt]
    simp only [hprevious]
    by_cases hclose : x = ')'
    · subst hclose
      rcases h.exists_openingOf hprevious with ⟨opening, hopening, hinside⟩
      rw [if_pos rfl, hopening]
      refine ⟨_, rfl, fun inner heq => ?_⟩
      cases heq
      exact hinside
    · rw [if_neg hclose, if_pos hrepeatable]
      exact ⟨_, rfl, fun inner heq => Repeated.noConfusion heq⟩

/-! ## The descent -/

/-- The descent completes at every index of a checked text. The induction is on the calls of the
descent; they change the text, the index and the automaton, so the check of the text and the two
known states are what each call hands on. -/
theorem completes_slice (h : Checked text) (ha : a.WellFormed) (hentry : entry < a.size)
    (hcurrent : current < a.size) : Completes (slice text entry current index) a := by
  fun_induction slice text entry current index generalizing a with
  | case1 text entry current index hend => exact completes_pure ha hcurrent
  | case2 text entry current index hbar => exact (realizes_union text ha hentry).completes
  | case3 text entry current index hopen e hclosing =>
    rcases h.exists_closingOf hopen with ⟨closing, hclosing', -⟩
    rw [hclosing'] at hclosing
    cases hclosing
  | case4 text entry current index hopen closing hclosing ih ih' =>
    rcases h.exists_closingOf hopen with ⟨closing', hclosing', hinside⟩
    rw [hclosing'] at hclosing
    cases hclosing
    -- the group is a checked text of its own, and the descent goes on behind it
    refine (ih hinside ha hcurrent hcurrent).bind fun m b hb hle hm => ?_
    exact ih' m h hb (Nat.lt_of_lt_of_le hentry hle) hm
  | case5 text entry current index c hbar hopen hchar hc e hrepeated =>
    rcases exists_repeatedAt h hc hchar with ⟨r, hr, -⟩
    rw [hr] at hrepeated
    cases hrepeated
  | case6 text entry current index c hbar hopen hchar hc x hrepeated ih =>
    -- a loop on the state where the descent is
    refine Completes.afterEdge hcurrent hcurrent (ih h (ha.withEdge hcurrent) ?_ ?_)
    · rwa [Automaton.size_withEdge]
    · rwa [Automaton.size_withEdge]
  | case7 text entry current index c hbar hopen hchar hc inner hrepeated ih ih' =>
    rcases exists_repeatedAt h hc hchar with ⟨r, hr, hinside⟩
    rw [hr] at hrepeated
    cases hrepeated
    refine (ih (hinside inner rfl) ha hcurrent hcurrent).bind fun m b hb hle hm => ?_
    have hcurrent' : current < b.size := Nat.lt_of_lt_of_le hcurrent hle
    -- the group once more, from where its first drawing ended, and an edge back
    refine Completes.afterEdge hm hcurrent' (ih' m h (hb.withEdge hcurrent') ?_ ?_)
    · rw [Automaton.size_withEdge]
      exact Nat.lt_of_lt_of_le hentry hle
    · rwa [Automaton.size_withEdge]
  | case8 text entry current index c hbar hopen hchar hc ih =>
    have hstep := (realizes_step ha hcurrent (.char c) ∅).completes
    have hall := hstep.bind (f := fun next => slice text entry next (index + 1))
      fun m b hb hle hm => ih m h hb (Nat.lt_of_lt_of_le hentry hle) hm
    simp only [bind_assoc, pure_bind] at hall
    exact hall

/-! ## All calls of a descent -/

/-- The slices that a descent into a text is called on: the text, what stands between the
parentheses that it comes to, and the groups that a quantifier makes it draw once more. -/
inductive Visits (text : List Char) : List Char → Prop where
  | whole : Visits text text
  | group {s : List Char} {opening closing : Nat} (h : Visits text s)
    (hchar : s[opening]? = some '(') (hclosing : closingOf s opening = .ok closing) :
    Visits text (between s opening closing)
  | again {s inner : List Char} {index : Nat} (h : Visits text s) (q : Quantifier)
    (hchar : s[index]? = some q.toChar)
    (hrepeated : repeatedAt s q.toChar index = .ok (.group inner)) : Visits text inner

/-- Each slice that the descent comes to has passed the check as a text of its own, so that the next
step into a group may rely on it. -/
theorem Visits.checked {slice : List Char} (h : Visits text slice) (ht : Checked text) :
    Checked slice := by
  induction h with
  | whole => exact ht
  | group _ hchar hclosing ih =>
    rcases ih.exists_closingOf hchar with ⟨closing, hclosing', hinside⟩
    rw [hclosing'] at hclosing
    cases hclosing
    exact hinside
  | again _ q hchar hrepeated ih =>
    rcases exists_repeatedAt ih q.toChar_eq hchar with ⟨r, hr, hinside⟩
    rw [hr] at hrepeated
    cases hrepeated
    exact hinside _ rfl

/-- No step of a descent into a slice fails, wherever in the slice it is taken: partners are found,
a quantifier has something to repeat, and the drawing comes to its end from any two states of an
automaton. -/
structure NeverFails (text : List Char) : Prop where
  exists_closing : ∀ index, text[index]? = some '(' → ∃ closing, closingOf text index = .ok closing
  exists_opening : ∀ index, text[index]? = some ')' → ∃ opening, openingOf text index = .ok opening
  exists_repeated : ∀ index (q : Quantifier), text[index]? = some q.toChar →
    ∃ r, repeatedAt text q.toChar index = .ok r
  slice_completes : ∀ (a : Automaton) entry current index, a.WellFormed → entry < a.size →
    current < a.size → Completes (slice text entry current index) a
  union_completes : ∀ (a : Automaton) entry, a.WellFormed → entry < a.size →
    Completes (union entry text) a

/-- A checked text has everything that a step of the descent relies on. -/
theorem neverFails (h : Checked text) : NeverFails text where
  exists_closing _ hchar := by
    rcases h.exists_closingOf hchar with ⟨closing, hclosing, -⟩
    exact ⟨closing, hclosing⟩
  exists_opening _ hchar := by
    rcases h.exists_openingOf hchar with ⟨opening, hopening, -⟩
    exact ⟨opening, hopening⟩
  exists_repeated _ q hchar := by
    rcases exists_repeatedAt h q.toChar_eq hchar with ⟨r, hr, -⟩
    exact ⟨r, hr⟩
  slice_completes _ _ _ _ ha hentry hcurrent := completes_slice h ha hentry hcurrent
  union_completes _ _ ha hentry := (realizes_union text ha hentry).completes

end PatternGraph.Drawing
