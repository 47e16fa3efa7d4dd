import PatternGraph.Proofs.Pattern.Balance
import PatternGraph.Proofs.Pattern.Named

/-!
# Calls — what the readers take for granted where they call each other

Three places in the readers rely on their callers: a repetition and an atom are read only where
there is a character to look at, and a group is left only where one is open.

1. `Calls` are the calls that reading branches leads to, with the cursors that they are made at,
   and `Call.Holds` is what is true of each of them.
2. `Calls.holds` is the induction along the calls. What one call needs to know of the calls before
   it is how they left the cursor, which is `Agrees`.
-/

namespace PatternGraph.Pattern

/-- A reader that is called, or the step out of a group. -/
inductive Call where
  | branches
  | items
  | repetition
  | atom
  | closeGroup
deriving Repr, DecidableEq

/-- The calls that reading branches at the cursor `start` leads to, each with its own cursor. -/
inductive Calls (limit : Nat) (start : Cursor) : Call → Cursor → Prop where
  | start : Calls limit start .branches start
  /-- Branches start with items. -/
  | items {c : Cursor} (h : Calls limit start .branches c) : Calls limit start .items c
  /-- Behind a bar there are branches again. -/
  | bar {c : Cursor} {items : Reading (List Pattern) c 0} (h : Calls limit start .branches c)
    (hitems : readItems limit c = .ok items) (hbar : items.next.peek = some '|') :
    Calls limit start .branches items.next.advance
  /-- Items start with a repetition, where they do not stop. -/
  | repetition {c : Cursor} (h : Calls limit start .items c) (hstop : ¬StopsItems c) :
    Calls limit start .repetition c
  /-- Behind a repetition there are items again. -/
  | next {c : Cursor} {item : Reading Pattern c 1} (h : Calls limit start .items c)
    (hstop : ¬StopsItems c) (hitem : readRepetition limit c = .ok item) :
    Calls limit start .items item.next
  /-- A repetition starts with an atom, unless a quantifier stands there. -/
  | atom {c : Cursor} (h : Calls limit start .repetition c) (hquantifier : StopsItem c) :
    Calls limit start .atom c
  /-- In a group there are branches. -/
  | group {c : Cursor} (h : Calls limit start .atom c) (hopen : c.peek = some '(')
    (hroom : c.depth < limit) : Calls limit start .branches c.openGroup
  /-- Where the branches of a group stop at a parenthesis, the group is left. -/
  | closeGroup {c : Cursor} {branches : Reading (List Pattern) c.openGroup 0}
    (h : Calls limit start .atom c) (hopen : c.peek = some '(') (hroom : c.depth < limit)
    (hbranches : readBranches limit c.openGroup = .ok branches)
    (hclose : branches.next.peek = some ')') : Calls limit start .closeGroup branches.next

/-- What is true wherever a call is made: no more groups are open than may be, and what the call
relies on is there. -/
def Call.Holds (limit : Nat) (c : Cursor) : Call → Prop
  | branches => c.depth ≤ limit
  | items => c.depth ≤ limit
  | repetition => c.depth ≤ limit ∧ ¬StopsItems c
  | atom => c.depth ≤ limit ∧ ¬StopsItems c ∧ StopsItem c
  | closeGroup => c.depth ≤ limit ∧ 0 < c.depth

variable {limit : Nat} {c d start : Cursor} {call : Call}

/-- Where items do not stop there is a character, and it is no bar and closes no group. -/
theorem exists_peek_of_not_stopsItems (h : ¬StopsItems c) :
    ∃ x, c.peek = some x ∧ x ≠ '|' ∧ x ≠ ')' := by
  cases hpeek : c.peek with
  | none => exact absurd (.inr (.inl hpeek)) h
  | some x =>
    refine ⟨x, rfl, ?_, ?_⟩
    · rintro rfl
      exact h (.inl hpeek)
    · rintro rfl
      exact h (.inr (.inr hpeek))

/-- Branches that have been read are a balanced text; the cursor stands behind it, as deep as
before, and the text or the group ends there. -/
theorem passes_of_readBranches {branches : Reading (List Pattern) c 0} (hc : c.depth ≤ limit)
    (h : readBranches limit c = .ok branches) :
    ∃ s, Balanced s ∧ c.Passes s branches.next ∧ StopsBranches branches.next := by
  have hagrees := readBranches_agrees limit c hc
  rw [h] at hagrees
  rcases hagrees with ⟨s, hpass, ⟨hs, -⟩, hstop⟩
  exact ⟨s, hs.balanced, hpass, hstop⟩

/-- Reading items leaves as many groups open as there were. -/
theorem depth_of_readItems {items : Reading (List Pattern) c 0} (hc : c.depth ≤ limit)
    (h : readItems limit c = .ok items) : items.next.depth = c.depth := by
  have hagrees := readItems_agrees limit c hc
  rw [h] at hagrees
  rcases hagrees with ⟨s, hpass, -⟩
  exact hpass.depth

/-- And so does reading one item with its quantifiers. -/
theorem depth_of_readRepetition {item : Reading Pattern c 1} (hc : c.depth ≤ limit)
    (hstop : ¬StopsItems c) (h : readRepetition limit c = .ok item) :
    item.next.depth = c.depth := by
  rcases exists_peek_of_not_stopsItems hstop with ⟨x, hpeek, hbar, hclose⟩
  have hagrees := readRepetition_agrees limit c hc hpeek hbar hclose
  rw [h] at hagrees
  rcases hagrees with ⟨s, hpass, -⟩
  exact hpass.depth

/-- Every call finds what it relies on. -/
theorem Calls.holds (h : Calls limit start call c) (hstart : start.depth ≤ limit) :
    call.Holds limit c := by
  induction h with
  -- the induction is on the way to the call; a depth that is not known at once is that of a cursor
  -- behind something that has been read
  | start => exact hstart
  | items _ ih => exact ih
  | bar _ hitems _ ih =>
    show Cursor.depth _ ≤ limit
    rw [Cursor.depth_advance, depth_of_readItems ih hitems]
    exact ih
  | repetition _ hstop ih => exact ⟨ih, hstop⟩
  | next _ hstop hitem ih =>
    show Cursor.depth _ ≤ limit
    rw [depth_of_readRepetition ih hstop hitem]
    exact ih
  | atom _ hquantifier ih => exact ⟨ih.1, ih.2, hquantifier⟩
  | group _ _ hroom _ => exact hroom
  | @closeGroup c _ _ _ hroom hbranches _ _ =>
    -- inside the group one group more is open, and reading its branches keeps it so
    rcases passes_of_readBranches (c := c.openGroup) hroom hbranches with ⟨s, -, hpass, -⟩
    have hdepth : Cursor.depth _ = c.depth + 1 := hpass.depth
    show _ ∧ _
    rw [hdepth]
    exact ⟨hroom, Nat.succ_pos _⟩

/-- Reading branches from any cursor with no more groups open than may be: where it succeeds, a
balanced text has been passed character by character, as many groups are open as before, and the
text or a group ends. And whatever calls it leads to, a group that is left was open, and where a
repetition or an atom is read there is a character. A whole text is read from its start, where no
group is open; what is reported as never closed is a parenthesis in it, and not its end, where an
atom without a character would report it. -/
theorem readBranches_balanced_and_calls_hold {limit : Nat} {c : Cursor} (hc : c.depth ≤ limit) :
    (∀ branches, readBranches limit c = .ok branches →
      branches.next.depth = c.depth ∧
      (∃ s, c.rest = s ++ branches.next.rest ∧ Balanced s ∧
        branches.next.position = c.position + s.length) ∧
      (branches.next.peek = none ∨ branches.next.peek = some ')')) ∧
    (∀ d, Calls limit c .closeGroup d → 0 < d.depth) ∧
    (∀ d, Calls limit c .repetition d → d.peek ≠ none) ∧
    (∀ d, Calls limit c .atom d → d.peek ≠ none) ∧
    (∀ text k, read limit text = .error (.unclosedGroup k) → text[k]? = some '(') := by
  have hpeek : ∀ d : Cursor, ¬StopsItems d → d.peek ≠ none := by
    intro d hstop hnone
    exact hstop (.inr (.inl hnone))
  refine ⟨fun branches h => ?_, fun d h => ?_, fun d h => ?_, fun d h => ?_, fun text k h => ?_⟩
  · rcases passes_of_readBranches hc h with ⟨s, hs, hpass, hstop⟩
    exact ⟨hpass.depth, ⟨s, hpass.rest, hs, hpass.position⟩, hstop⟩
  · exact (h.holds hc).2
  · exact hpeek d (h.holds hc).2
  · exact hpeek d (h.holds hc).2.1
  · -- a defect that is reported names the character that stands there
    rcases read_marks h with ⟨k', x, hposition, hnamed, hx⟩
    cases hposition
    cases hnamed
    exact hx

/-- Inside one group the branches `(b)*` are read up to the parenthesis that closes that group, and
on the way the group around `b` is left, the second one that is open. -/
theorem readBranches_balanced_and_calls_hold_in_open_group :
    let c : Cursor := ⟨"(b)*)d".toList, 3, 1⟩
    c.depth ≤ 2 ∧
    (∃ branches, readBranches 2 c = .ok branches ∧ branches.next = ⟨")d".toList, 7, 1⟩ ∧
      (branches.next.peek = none ∨ branches.next.peek = some ')')) ∧
    ∃ d, Calls 2 c .closeGroup d ∧ d = ⟨")*)d".toList, 5, 2⟩ ∧ 0 < d.depth := by
  intro c
  have hc : c.depth ≤ 2 := by decide
  obtain ⟨hread, hleave, -⟩ := readBranches_balanced_and_calls_hold hc
  have hletter : IsOrdinary 'b' := by
    unfold IsOrdinary
    decide
  -- the grammar tells what is read, so no reader has to be evaluated
  have hinside : Branches "b".toList [literal 'b'] := .last (.cons (.literal hletter) [] .nil)
  have hwhole : Branches "(b)*".toList [closure (group (literal 'b')) .zeroOrMore] :=
    .last (.cons (.group hinside) [.zeroOrMore] .nil)
  refine ⟨hc, ?_, ?_⟩
  · have hdepth : c.depth + nestingAll [closure (group (literal 'b')) .zeroOrMore] ≤ 2 := by decide
    obtain ⟨branches, hok, -, hnext⟩ := readBranches_of_branches hwhole
      (⟨rfl, rfl, rfl⟩ : c.Passes _ ⟨")d".toList, 7, 1⟩) (.inr rfl) hdepth
    exact ⟨branches, hok, hnext, (hread branches hok).2.2⟩
  · have hdepth : c.openGroup.depth + nestingAll [literal 'b'] ≤ 2 := by decide
    obtain ⟨branches, hok, -, hnext⟩ := readBranches_of_branches hinside
      (⟨rfl, rfl, rfl⟩ : c.openGroup.Passes _ ⟨")*)d".toList, 5, 2⟩) (.inr rfl) hdepth
    have hstop : ¬StopsItems c := by
      rintro (h | h | h) <;> cases h
    have hquantifier : StopsItem c := by
      rintro (_ | _) h <;> cases h
    have hclose : Calls 2 c .closeGroup branches.next :=
      .closeGroup (.atom (.repetition (.items .start) hstop) hquantifier) rfl (by decide) hok
        (by rw [hnext]; rfl)
    exact ⟨branches.next, hclose, hnext, hleave _ hclose⟩

end PatternGraph.Pattern
