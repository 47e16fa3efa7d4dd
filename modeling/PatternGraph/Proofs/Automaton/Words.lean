import PatternGraph.Proofs.Automaton.Path
import Mathlib.Computability.Language
import Mathlib.Order.CompletePartialOrder
import Mathlib.Order.ConditionallyCompleteLattice.Basic

/-!
# Words — the language between two states of an edge relation

The rules by which the language of a drawing follows from the languages of its parts. Each rule
has the form of a grammar operation (one edge, a sequence, a choice, a loop) and a side condition
on where edges lead; the side condition is what keeps the words of one part from straying into
another.
-/

namespace PatternGraph

open scoped Computability

namespace EdgeRelation

/-- The words that lead from one state to another. -/
def words (E : EdgeRelation) (p r : StateId) : Language Char :=
  {w | Path E p w r}

/-- The relation of one edge. -/
def one (p : StateId) (s : Symbol) (q : StateId) : EdgeRelation :=
  fun x t y => x = p ∧ t = s ∧ y = q

/-- No edge of `F` leaves the end of an edge of `E`. -/
def NotFollowedBy (E F : EdgeRelation) : Prop :=
  ∀ x s y t z, E x s y → ¬ F y t z

/-- The states where a path from `p` can be: `p` itself and the ends of edges. -/
def Visits (E : EdgeRelation) (p x : StateId) : Prop :=
  x = p ∨ ∃ y s, E y s x

variable {E F : EdgeRelation} {p q r m : StateId} {s : Symbol} {u v w : List Char}

/-- Inclusion of languages, member by member. -/
theorem mem_of_le {L M : Language Char} (h : L ≤ M) (hw : w ∈ L) : w ∈ M :=
  h hw

/-- A word with an empty one in front of it. -/
theorem mem_mul_of_nil_mem {L M : Language Char} (h : [] ∈ L) (hw : w ∈ M) : w ∈ L * M :=
  Language.append_mem_mul h hw

theorem mem_words : w ∈ E.words p r ↔ Path E p w r :=
  Iff.rfl

theorem nil_mem_words (E : EdgeRelation) (p : StateId) : [] ∈ E.words p p :=
  Path.nil p

/-! ## States that no edge leads to -/

/-- Without an edge to it a state is left and never seen again: the empty word is all. -/
theorem words_self (h : ∀ x s, ¬ E x s p) : E.words p p = 1 := by
  ext w
  rw [mem_words, Language.mem_one]
  constructor
  · intro hw
    cases hw with
    | nil => rfl
    | cons edge rest =>
      rcases rest.eq_or_target with rfl | ⟨x, t, hx⟩
      · exact absurd edge (h _ _)
      · exact absurd hx (h _ _)
  · rintro rfl
    exact Path.nil p

/-- A state that no edge leads to is not reached from another one. -/
theorem words_eq_zero (hne : r ≠ p) (h : ∀ x s, ¬ E x s r) : E.words p r = 0 := by
  ext w
  rw [mem_words]
  constructor
  · intro hw
    rcases hw.eq_or_target with hr | ⟨x, s, hx⟩
    · exact absurd hr hne
    · exact absurd hx (h x s)
  · intro hw
    exact absurd hw (Language.notMem_zero w)

/-! ## One edge -/

/-- One edge between two states spells its symbol and nothing else. -/
theorem words_one (hne : p ≠ q) : (one p s q).words p q = {s.char?.toList} := by
  ext w
  rw [mem_words]
  constructor
  · intro hw
    cases hw with
    | nil => exact absurd rfl hne
    | cons edge rest =>
      rcases edge with ⟨-, rfl, rfl⟩
      -- nothing leaves the end of the edge
      cases rest with
      | nil => rw [List.append_nil]; rfl
      | cons edge => exact absurd edge.1 hne.symm
  · rintro rfl
    exact Path.single ⟨rfl, rfl, rfl⟩

/-- Turns on one state spell repetitions of its character, whichever ends the path has. -/
theorem mem_kstar_of_path_turn {c : Char} (h : Path (one p (.char c) p) q w r) :
    w ∈ ({[c]} : Language Char)∗ := by
  induction h with
  | nil => exact Language.nil_mem_kstar _
  | cons edge rest ih =>
    rcases edge with ⟨-, rfl, -⟩
    exact mem_of_le mul_kstar_le_kstar (Language.append_mem_mul rfl ih)

/-- An edge from a state to itself is taken any number of times. -/
theorem words_turn (p : StateId) (c : Char) : (one p (.char c) p).words p p = {[c]}∗ := by
  ext w
  rw [mem_words]
  constructor
  · intro hw
    exact mem_kstar_of_path_turn hw
  · intro hw
    rcases Language.mem_kstar.1 hw with ⟨L, rfl, hL⟩
    clear hw
    -- a word of the star is a list of characters, and each of them is one more turn
    induction L with
    | nil => exact Path.nil p
    | cons y L ih =>
      have hy : y = [c] := hL y List.mem_cons_self
      rw [hy, List.flatten_cons]
      exact Path.char ⟨rfl, rfl, rfl⟩ (ih fun z hz => hL z (List.mem_cons_of_mem _ hz))

/-! ## One relation behind another -/

/-- Where no edge of `E` leaves the end of an edge of `F`, a path over both leaves `E` once. -/
theorem path_sup (h : F.NotFollowedBy E) (hw : Path (E ⊔ F) p w r) :
    ∃ u x v, w = u ++ v ∧ Path E p u x ∧ Path F x v r := by
  induction hw with
  | nil p => exact ⟨[], p, [], rfl, Path.nil p, Path.nil p⟩
  | cons edge _ ih =>
    rcases ih with ⟨u, x, v, rfl, hu, hv⟩
    -- an edge of `F` in front leaves no room for one of `E` behind it
    rcases edge with edge | edge
    · exact ⟨_, x, v, (List.append_assoc _ _ _).symm, Path.cons edge hu, hv⟩
    · cases hu with
      | nil => exact ⟨[], _, _, rfl, Path.nil _, Path.cons edge hv⟩
      | cons next => exact absurd next (h _ _ _ _ _ edge)

/-- A sequence: `E` up to `m`, then `F` from there. The only state where a path can change over
has to be `m`. -/
theorem words_append (h : F.NotFollowedBy E)
    (hm : ∀ x, E.Visits p x → (x = r ∨ ∃ s y, F x s y) → x = m) :
    (E ⊔ F).words p r = E.words p m * F.words m r := by
  ext w
  rw [Language.mem_mul, mem_words]
  constructor
  · intro hw
    rcases path_sup h hw with ⟨u, x, v, rfl, hu, hv⟩
    -- the path changes over at a state that `E` reaches and `F` leaves, or at the end
    have hx : x = m := hm x hu.eq_or_target hv.eq_or_source
    subst hx
    exact ⟨u, hu, v, hv, rfl⟩
  · rintro ⟨u, hu, v, hv, rfl⟩
    have hu' : Path (E ⊔ F) p u m := hu.mono fun _ _ _ edge => .inl edge
    have hv' : Path (E ⊔ F) m v r := hv.mono fun _ _ _ edge => .inr edge
    exact hu'.append hv'

/-! ## One relation beside another -/

/-- Where no edge of `F` leaves the end of an edge of `E`, a path over both that starts with an
edge of `E` stays in `E`. -/
theorem path_of_sup (h : E.NotFollowedBy F) (edge : E p s q)
    (hw : Path (E ⊔ F) q w r) : Path E q w r := by
  induction hw generalizing p s with
  | nil q => exact Path.nil q
  | cons next _ ih =>
    rcases next with next | next
    · exact Path.cons next (ih next)
    · exact absurd next (h _ _ _ _ _ edge)

/-- A choice: a path stays in the relation that its first edge belongs to. -/
theorem words_sup (h : E.NotFollowedBy F)
    (h' : F.NotFollowedBy E) :
    (E ⊔ F).words p r = E.words p r + F.words p r := by
  ext w
  rw [Language.mem_add, mem_words, mem_words, mem_words]
  constructor
  · intro hw
    cases hw with
    | nil => exact .inl (Path.nil p)
    | cons edge rest =>
      rcases edge with edge | edge
      · exact .inl (Path.cons edge (path_of_sup h edge rest))
      · rw [sup_comm] at rest
        exact .inr (Path.cons edge (path_of_sup h' edge rest))
  · rintro (hw | hw)
    · exact hw.mono fun _ _ _ edge => .inl edge
    · exact hw.mono fun _ _ _ edge => .inr edge

/-! ## An edge back -/

/-- A path over `E` and an edge back to `p`, read from some state of a round: it is over, or what is
left is the rest of this round and whole rounds. The induction is on the path, so the round is only
known by the state `m` where the path stands. -/
theorem path_loop (h : ∀ x s, ¬ E x s p) (hw : Path (E ⊔ one q .epsilon p) m w r) (hr : r = p) :
    (m = p ∧ w = []) ∨ w ∈ E.words m q * (E.words p q)∗ := by
  induction hw with
  | nil => exact .inl ⟨hr, rfl⟩
  | @cons x y z s v edge rest ih =>
    refine .inr ?_
    rcases edge with edge | ⟨rfl, rfl, rfl⟩
    · -- still on the way: what is left of this round grows by the edge
      rcases ih hr with ⟨rfl, -⟩ | hv
      · exact absurd edge (h _ _)
      · rcases Language.mem_mul.1 hv with ⟨u, hu, t, ht, rfl⟩
        rw [← List.append_assoc]
        exact Language.append_mem_mul (Path.cons edge hu) ht
    · -- the edge back: from here on whole rounds are left
      have hv : v ∈ (E.words y x)∗ := by
        rcases ih hr with ⟨-, rfl⟩ | hv
        · exact Language.nil_mem_kstar _
        · exact mem_of_le mul_kstar_le_kstar hv
      exact mem_mul_of_nil_mem (nil_mem_words E x) hv

/-- A loop: an ε edge from where `E` ends back to where it starts, to which `E` itself never
returns. -/
theorem words_loop (h : ∀ x s, ¬ E x s p) :
    (E ⊔ one q .epsilon p).words p p = (E.words p q)∗ := by
  ext w
  rw [mem_words]
  constructor
  · intro hw
    rcases path_loop h hw rfl with ⟨-, rfl⟩ | hw
    · exact Language.nil_mem_kstar _
    · exact mem_of_le mul_kstar_le_kstar hw
  · intro hw
    rcases Language.mem_kstar.1 hw with ⟨L, rfl, hL⟩
    clear hw
    -- each word of the list is one round, and the edge back joins it to the next one
    induction L with
    | nil => exact Path.nil p
    | cons y L ih =>
      have hy : Path (E ⊔ one q .epsilon p) p y q :=
        (hL y List.mem_cons_self).mono fun _ _ _ edge => .inl edge
      have hL' := ih fun z hz => hL z (List.mem_cons_of_mem _ hz)
      exact hy.append (Path.epsilon (.inr ⟨rfl, rfl, rfl⟩) hL')

/-! ## Twice and more

What `E` does from `p` to `m`, `F` does once more from `m` to `q`, and an ε edge leads from `q` back
to `m`. From `m` a path may also turn in `E`, where `E` has loops on it. -/

/-- The words that lead from `m` back to `m`: turns in `E` and whole rounds of `F`. -/
def rounds (E F : EdgeRelation) (m q : StateId) : Language Char :=
  (E.words m m + F.words m q)∗

/-- What is a turn or a round may be put in front of rounds. -/
theorem mul_rounds_le {K : Language Char} (hK : K ≤ E.words m m + F.words m q) :
    K * (rounds E F m q * F.words m q) ≤ rounds E F m q * F.words m q := by
  rw [← mul_assoc]
  apply mul_le_mul_left
  calc K * rounds E F m q ≤ (E.words m m + F.words m q) * rounds E F m q := mul_le_mul_left hK _
    _ ≤ rounds E F m q := mul_kstar_le_kstar

/-- Before a path over all three relations ends in `q` it comes through `E` to `m` and goes whole
rounds from there, or else it is in `F` already. -/
theorem path_again {x : StateId} (h : F.NotFollowedBy E)
    (hm : ∀ x, E.Visits p x → (∃ s y, F x s y) → x = m) (hqm : q ≠ m) (hq : ¬E.Visits p q)
    (hw : Path (E ⊔ F ⊔ one q .epsilon m) x w r) (hr : r = q) :
    (x = m ∨ E.Visits p x → w ∈ E.words x m * (rounds E F m q * F.words m q)) ∧
      ((∃ y s, F y s x) → w ∈ F.words x q * (1 + rounds E F m q * F.words m q)) := by
  induction hw with
  -- the end is `q` itself, which is reached by `F` alone
  | nil x =>
    subst hr
    refine ⟨fun hx => absurd hx (not_or.2 ⟨hqm, hq⟩), fun _ => ?_⟩
    have hnil : ([] : List Char) ∈ (1 + rounds E F m x * F.words m x : Language Char) :=
      .inl Language.nil_mem_one
    exact mem_mul_of_nil_mem (nil_mem_words _ x) hnil
  | @cons x y r s w edge rest ih =>
    rcases ih hr with ⟨hearly, hlate⟩
    rcases edge with (edge | edge) | ⟨rfl, rfl, rfl⟩
    · -- in `E`: it is not left yet
      constructor
      · intro _
        rcases Language.mem_mul.1 (hearly (.inr (.inr ⟨x, s, edge⟩))) with ⟨u, hu, v, hv, rfl⟩
        rw [← List.append_assoc]
        exact Language.append_mem_mul (Path.cons edge hu) hv
      · rintro ⟨z, t, hz⟩
        exact absurd edge (h _ _ _ _ _ hz)
    · rcases Language.mem_mul.1 (hlate ⟨x, s, edge⟩) with ⟨u, hu, v, hv, rfl⟩
      have hround : s.char?.toList ++ u ∈ F.words x q := Path.cons edge hu
      rw [← List.append_assoc]
      constructor
      · -- from `E` to `F`: this is a round, or the last one
        intro hx
        have hxm : x = m := hx.elim id fun hx => hm x hx ⟨s, y, edge⟩
        subst hxm
        have hmem : (s.char?.toList ++ u) ++ v
            ∈ F.words x q * (1 + rounds E F x q * F.words x q) :=
          Language.append_mem_mul hround hv
        have hle : F.words x q * (1 + rounds E F x q * F.words x q)
            ≤ rounds E F x q * F.words x q := by
          rw [mul_add, mul_one]
          apply add_le
          · calc F.words x q = 1 * F.words x q := (one_mul _).symm
              _ ≤ rounds E F x q * F.words x q := mul_le_mul_left one_le_kstar _
          · exact mul_rounds_le le_add_self
        exact mem_mul_of_nil_mem (nil_mem_words _ x) (mem_of_le hle hmem)
      · intro _
        exact Language.append_mem_mul hround hv
    · -- back at `m`
      have hmem := hearly (.inl rfl)
      have hle : E.words y y * (rounds E F y x * F.words y x)
          ≤ 1 + rounds E F y x * F.words y x :=
        (mul_rounds_le le_self_add).trans le_add_self
      refine ⟨fun hx => absurd hx (not_or.2 ⟨hqm, hq⟩), fun _ => ?_⟩
      exact mem_mul_of_nil_mem (nil_mem_words _ x) (mem_of_le hle hmem)

/-- A repetition of twice and more: `F` does from `m` what `E` did up to there, and an edge leads
back to `m`. The turns that `E` leaves on `m` add nothing, since `E` could have made them
before. -/
theorem words_again (h : F.NotFollowedBy E)
    (hm : ∀ x, E.Visits p x → (∃ s y, F x s y) → x = m) (hqm : q ≠ m) (hq : ¬E.Visits p q)
    (hsame : F.words m q = E.words p m) :
    (E ⊔ F ⊔ one q .epsilon m).words p q
      = E.words p m * E.words p m * (E.words p m)∗ := by
  -- a turn on `m` that `E` leaves is absorbed by the word before it
  have hturns : E.words p m * E.words m m ≤ E.words p m := by
    intro w hw
    rcases Language.mem_mul.1 hw with ⟨u, hu, v, hv, rfl⟩
    exact Path.append hu hv
  have hrounds : E.words p m * rounds E F m q ≤ E.words p m * (E.words p m)∗ := by
    unfold rounds
    rw [hsame]
    apply mul_kstar_le
    · calc E.words p m = E.words p m * 1 := (mul_one _).symm
        _ ≤ E.words p m * (E.words p m)∗ := mul_le_mul_right one_le_kstar _
    · rw [mul_add, ← Language.mul_self_kstar_comm, mul_assoc, mul_assoc]
      apply add_le
      · exact mul_le_mul_right hturns _
      · rw [← mul_assoc]
        exact mul_le_mul_left kstar_mul_le_kstar _
  ext w
  rw [mem_words]
  constructor
  · intro hw
    have hmem := (path_again h hm hqm hq hw rfl).1 (.inr (.inl rfl))
    rw [hsame] at hmem
    have hle : E.words p m * (rounds E F m q * E.words p m)
        ≤ E.words p m * E.words p m * (E.words p m)∗ := by
      rw [← mul_assoc, mul_assoc (E.words p m) (E.words p m), ← Language.mul_self_kstar_comm,
        ← mul_assoc]
      exact mul_le_mul_left hrounds _
    exact mem_of_le hle hmem
  · intro hw
    rcases Language.mem_mul.1 hw with ⟨uv, huv, z, hz, rfl⟩
    rcases Language.mem_mul.1 huv with ⟨u, hu, v, hv, rfl⟩
    rcases Language.mem_kstar.1 hz with ⟨L, rfl, hL⟩
    have hfirst : Path (E ⊔ F ⊔ one q .epsilon m) p u m :=
      hu.mono fun _ _ _ edge => .inl (.inl edge)
    have hround : ∀ y ∈ E.words p m, Path (E ⊔ F ⊔ one q .epsilon m) m y q := by
      intro y hy
      rw [← hsame] at hy
      exact hy.mono fun _ _ _ edge => .inl (.inr edge)
    -- the words of the star are whole rounds, each entered by the edge back
    have hmore : Path (E ⊔ F ⊔ one q .epsilon m) q L.flatten q := by
      clear hz hw
      induction L with
      | nil => exact Path.nil q
      | cons y L ih =>
        have hy := hround y (hL y List.mem_cons_self)
        have hrest := ih fun z hz => hL z (List.mem_cons_of_mem _ hz)
        exact Path.epsilon (.inr ⟨rfl, rfl, rfl⟩) (hy.append hrest)
    exact (hfirst.append (hround v hv)).append hmore

end EdgeRelation

end PatternGraph
