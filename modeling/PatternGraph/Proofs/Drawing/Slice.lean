import PatternGraph.Drawing.Textual
import PatternGraph.Proofs.Drawing.Realizes
import PatternGraph.Proofs.Pattern.Descent

/-!
# Slices — what the descent does at a place of its text

`slice_letter` and its like undo the indices of the descent: what is drawn for an item stands in
front of the rest of the descent, and the item is read off the text. `realizes_union` is all there
is to know about a union: it realizes the pieces of its text that are not empty.
-/

namespace PatternGraph.Drawing

open Pattern
open scoped Computability

variable {a : Automaton} {entry join : StateId} {c : Char} {u v s : List Char}

/-! ## Unions -/

/-- The descent cuts a text as the standard library does. -/
theorem pieces_eq_splitOn (text : List Char) : pieces text = text.splitOn '|' := by
  induction text with
  | nil => rfl
  | cons c rest ih =>
    rw [List.splitOn_cons_eq_if_modifyHead, pieces, ih]
    by_cases hbar : c = '|'
    · simp [hbar]
    · rw [if_neg hbar, if_neg (by simpa using hbar)]
      cases hrest : rest.splitOn '|' with
      | nil => exact absurd hrest (List.splitOn_ne_nil _ _)
      | cons piece others => rfl

/-- A chain of a word realizes the word, by induction on the word; the empty word is not drawn at
all. -/
theorem realizes_chain (word : List Char) {a : Automaton} {entry : StateId}
    (ha : a.WellFormed) (hentry : entry < a.size) (hjoin : join < a.size) (hne : entry ≠ join) :
    Realizes (chain entry join word) (fun _ => join) a entry {join} (nonEmptyWords [word]) := by
  match word with
  | [] =>
    rw [nonEmptyWords_singleton_nil]
    exact realizes_none ha hentry hjoin hne
  | [c] =>
    rw [nonEmptyWords_singleton_cons]
    exact realizes_addEdge ha hentry hjoin hne (.char c)
  | c :: next :: rest =>
    have hcons : nonEmptyWords [c :: next :: rest] = {[c]} * nonEmptyWords [next :: rest] := by
      rw [nonEmptyWords_singleton_cons, nonEmptyWords_singleton_cons]
      exact (Set.image2_singleton (f := (· ++ ·)) (a := [c]) (b := next :: rest)).symm
    -- the first character leads to a new state, and the chain goes on from there to the same join
    have hall := (realizes_step ha hentry (.char c) (loopEnds ∅ a entry false)).append
      (join_outer hjoin hne) fun m b hb hm hlt =>
        (realizes_chain (next :: rest) hb hm (hlt join rfl).1 (hlt join rfl).2.symm).mono
          subset_loopEnds
    rw [loopEnds_false] at hall
    simp only [bind_assoc, pure_bind] at hall
    rw [hcons]
    exact hall

/-- Chains between the same two states stand beside one another. -/
theorem realizes_chains (words : List (List Char)) (ha : a.WellFormed) (hentry : entry < a.size)
    (hjoin : join < a.size) (hne : entry ≠ join) :
    Realizes (words.forM (chain entry join)) (fun _ => join) a entry {join}
      (nonEmptyWords words) := by
  induction words generalizing a with
  | nil =>
    rw [nonEmptyWords_nil]
    exact realizes_none ha hentry hjoin hne
  | cons word words ih =>
    rw [nonEmptyWords_cons]
    exact (realizes_chain word ha hentry hjoin hne).beside hjoin hne fun b hb hentry hjoin =>
      ih hb hentry hjoin

/-- A union realizes the pieces between the bars of its text. -/
theorem realizes_union (text : List Char) (ha : a.WellFormed) (hentry : entry < a.size) :
    Realizes (union entry text) id a entry ∅ (nonEmptyWords (text.splitOn '|')) := by
  rw [← pieces_eq_splitOn]
  exact Realizes.toNewState ha hentry
    (fun b join hb hentry hjoin hne => realizes_chains (pieces text) hb hentry hjoin hne) ∅

/-! ## The descent at a place of its text -/

/-- Behind the last character the descent ends where it is. -/
theorem slice_end (text : List Char) (entry current : StateId) :
    slice text entry current text.length = pure current := by
  rw [slice]
  split
  · rfl
  all_goals
    next h => simp at h

/-- At a bar the descent starts again from its entry, with a union of the whole slice. -/
theorem slice_bar (entry current : StateId) :
    slice (u ++ '|' :: v) entry current u.length = union entry (u ++ '|' :: v) := by
  have hchar : (u ++ '|' :: v)[u.length]? = some '|' := by simp
  rw [slice]
  split
  · next h => rw [hchar] at h; cases h
  · rfl
  · next h => rw [hchar] at h; cases h
  · next hbar _ h => exact absurd (Option.some.inj (hchar.symm.trans h)).symm hbar

/-- A character is drawn, and the descent goes on behind it. -/
theorem slice_letter (hc : IsOrdinary c) (entry current : StateId) :
    slice (u ++ c :: v) entry current u.length =
      (do
        let next ← newState
        addEdge current (.char c) next
        slice (u ++ c :: v) entry next (u.length + 1)) := by
  rcases hc with ⟨hopen, -, hbar, hstar, hplus⟩
  have hchar : (u ++ c :: v)[u.length]? = some c := by simp
  rw [slice]
  split
  · next h => rw [hchar] at h; cases h
  · next h => rw [hchar] at h; cases h; exact absurd rfl hbar
  · next h => rw [hchar] at h; cases h; exact absurd rfl hopen
  · next d _ _ h =>
    rw [hchar] at h
    cases h
    rw [if_neg (not_or.2 ⟨hstar, hplus⟩)]

/-- A group is drawn as a slice of its own. -/
theorem slice_group (h : Balanced s) (entry current : StateId) :
    slice (u ++ '(' :: (s ++ ')' :: v)) entry current u.length =
      (do
        let exit ← slice s current current 0
        slice (u ++ '(' :: (s ++ ')' :: v)) entry exit (u.length + 1 + s.length + 1)) := by
  have hchar : (u ++ '(' :: (s ++ ')' :: v))[u.length]? = some '(' := by simp
  rw [slice]
  split
  · next h => rw [hchar] at h; cases h
  · next h => rw [hchar] at h; cases h
  · -- the search for the partner ends behind the contents, so they are what is drawn
    split
    · next hclosing => rw [closingOf_group h] at hclosing; cases hclosing
    · next hclosing =>
      rw [closingOf_group h] at hclosing
      cases hclosing
      rw [between_group]
  · next hopen h => exact absurd (Option.some.inj (hchar.symm.trans h)).symm hopen

/-- At a quantifier the descent looks back for what is repeated. -/
theorem slice_quantifier {text : List Char} {index : Nat} {q : Quantifier}
    (hchar : text[index]? = some q.toChar) (entry current : StateId) :
    slice text entry current index =
      match repeatedAt text q.toChar index with
      | .error e => throw (.ofPatternError e)
      | .ok (.letter c) =>
        (do
          addEdge current (.char c) current
          slice text entry current (index + 1))
      | .ok (.group inner) =>
        (do
          let exit ← slice inner current current 0
          link exit current
          slice text entry exit (index + 1)) := by
  rw [slice]
  -- of the cases of a descent only that of a quantifier has this character
  split
  · next h => rw [hchar] at h; cases h
  · next h => rw [hchar] at h; cases q <;> cases h
  · next h => rw [hchar] at h; cases q <;> cases h
  · next h =>
    rw [hchar] at h
    cases h
    rw [if_pos q.toChar_eq]
    split
    · next hr => rw [hr]
    · next hr => rw [hr]
    · next hr => rw [hr]

/-- A quantifier behind a character turns on the state that the character led to. -/
theorem slice_letter_quantifier (hc : IsOrdinary c) (q : Quantifier) (entry current : StateId) :
    slice (u ++ c :: q.toChar :: v) entry current (u.length + 1) =
      (do
        addEdge current (.char c) current
        slice (u ++ c :: q.toChar :: v) entry current (u.length + 2)) := by
  have hchar : (u ++ c :: q.toChar :: v)[u.length + 1]? = some q.toChar := by
    rw [List.getElem?_append_right (Nat.le_add_right _ 1), Nat.add_sub_cancel_left]
    rfl
  -- directly before the quantifier stands the character
  have hrepeated : repeatedAt (u ++ c :: q.toChar :: v) q.toChar (u.length + 1)
      = .ok (.letter c) := by
    rcases hc with ⟨hopen, hclose, hbar, hstar, hplus⟩
    simp [repeatedAt, hclose, isRepeatable, hopen, hbar, hstar, hplus]
  rw [slice_quantifier hchar, hrepeated]

/-- A quantifier behind a group draws the group once more, with an edge back. -/
theorem slice_group_quantifier (h : Balanced s) (q : Quantifier) (entry current : StateId) :
    slice (u ++ '(' :: (s ++ ')' :: q.toChar :: v)) entry current (u.length + 1 + s.length + 1) =
      (do
        let exit ← slice s current current 0
        link exit current
        slice (u ++ '(' :: (s ++ ')' :: q.toChar :: v)) entry exit
          (u.length + 1 + s.length + 2)) := by
  have hchar : (u ++ '(' :: (s ++ ')' :: q.toChar :: v))[u.length + 1 + s.length + 1]?
      = some q.toChar := by
    rw [group_eq_append, ← length_before_closing, List.getElem?_append_right (Nat.le_add_right _ 1),
      Nat.add_sub_cancel_left]
    rfl
  -- directly before it stands the closing parenthesis, from where the search goes back
  have hrepeated : repeatedAt (u ++ '(' :: (s ++ ')' :: q.toChar :: v)) q.toChar
      (u.length + 1 + s.length + 1) = .ok (.group s) := by
    simp [repeatedAt, getElem?_group_closing, openingOf_group h, between_group]
  rw [slice_quantifier hchar, hrepeated]

/-! ## Items in front of the rest -/

/-- Wherever `s` stands in a text, the descent first makes the drawing `d` and then goes on behind
`s` from where the drawing ended. -/
def Descends (s : List Char) (d : StateId → Drawing StateId) : Prop :=
  ∀ u v entry current, slice (u ++ (s ++ v)) entry current u.length
    = d current >>= fun m => slice (u ++ (s ++ v)) entry m (u.length + s.length)

variable {d d' : StateId → Drawing StateId}

/-- An empty text is drawn by doing nothing. -/
theorem descends_nil : Descends [] pure := by
  intro u v entry current
  rw [pure_bind]
  rfl

/-- Where nothing stands around `s`, the drawing is all that the descent makes. -/
theorem Descends.slice_eq (h : Descends s d) : (fun p => slice s p p 0) = d := by
  funext p
  have hp := h [] [] p p
  simp only [List.nil_append, List.append_nil, List.length_nil, Nat.zero_add, slice_end,
    bind_pure] at hp
  exact hp

/-- What is drawn for two texts, one behind the other, is drawn for them together. -/
theorem Descends.append (h : Descends s d) (h' : Descends v d') :
    Descends (s ++ v) (fun p => d p >>= d') := by
  intro u rest entry current
  have hfront : u ++ ((s ++ v) ++ rest) = u ++ (s ++ (v ++ rest)) := by simp
  have hback : u ++ (s ++ (v ++ rest)) = (u ++ s) ++ (v ++ rest) := by simp
  rw [hfront, h, bind_assoc]
  -- both sides draw `s` first; what is left stands behind `u ++ s`
  congr 1
  funext m
  have hrest := h' (u ++ s) rest entry m
  rw [← hback, List.length_append] at hrest
  rw [hrest, List.length_append, Nat.add_assoc]

/-- An ordinary character is an edge to a new state. -/
theorem descends_letter (hc : IsOrdinary c) :
    Descends [c] (fun p => do let next ← newState; addEdge p (.char c) next; pure next) := by
  intro u v entry current
  simp only [List.singleton_append, slice_letter hc, bind_assoc, pure_bind, List.length_singleton]

/-- With a quantifier behind it, it is a loop on that state as well, be the quantifier a star or a
plus. -/
theorem descends_letters (hc : IsOrdinary c) (q : Quantifier) :
    Descends [c, q.toChar] (fun p => do
      let loop ← (do let next ← newState; addEdge p (.char c) next; pure next)
      addEdge loop (.char c) loop
      pure loop) := by
  intro u v entry current
  simp only [List.cons_append, List.nil_append, slice_letter hc, slice_letter_quantifier hc,
    bind_assoc, pure_bind, List.length_cons, List.length_nil]

/-- A group is its slice, drawn from where the descent is. -/
theorem descends_group (h : Balanced s) :
    Descends ('(' :: (s ++ [')'])) (fun p => slice s p p 0) := by
  intro u v entry current
  have htext : u ++ ('(' :: (s ++ [')']) ++ v) = u ++ '(' :: (s ++ ')' :: v) := by simp
  have hlength : u.length + ('(' :: (s ++ [')'])).length = u.length + 1 + s.length + 1 := by
    simp only [List.length_cons, List.length_append, List.length_nil]
    omega
  rw [htext, slice_group h, hlength]

/-- With a quantifier behind it, its slice is drawn again from where the first drawing ended, and an
edge leads back there. -/
theorem descends_groups (h : Balanced s) (q : Quantifier) :
    Descends ('(' :: (s ++ [')', q.toChar])) (fun p => do
      let m ← slice s p p 0
      let exit ← slice s m m 0
      link exit m
      pure exit) := by
  intro u v entry current
  have htext : u ++ ('(' :: (s ++ [')', q.toChar]) ++ v)
      = u ++ '(' :: (s ++ ')' :: q.toChar :: v) := by simp
  have hlength : u.length + ('(' :: (s ++ [')', q.toChar])).length
      = u.length + 1 + s.length + 2 := by
    simp only [List.length_cons, List.length_append, List.length_nil]
    omega
  rw [htext, slice_group h, hlength]
  simp only [slice_group_quantifier h, bind_assoc, pure_bind]

end PatternGraph.Drawing
