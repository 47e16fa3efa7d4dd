import PatternGraph.Proofs.Pattern.Defects
import PatternGraph.Proofs.Pattern.Partners

/-!
# Pairing — the check and both searches pair parentheses alike

Three ways lead from a parenthesis to its partner: the check takes the innermost open group from
its stack, one search counts forwards and one counts backwards.

1. `pairsFrom` is the check with a record of what it takes from its stack; without the record it is
   the check (`map_pairsFrom`).
2. `mem_pairing_iff` says that the pairs on record are the partners in the text.
3. Partners in a slice are partners in the text, at indices moved by where the slice starts
   (`Partners.within`), so in each slice the searches find what the check paired in the whole.
-/

namespace PatternGraph.Pattern

variable {limit offset opening closing : Nat} {pairs : List (Nat × Nat)} {text slice s : List Char}
  {c : Char} {scan : Scan}

/-! ## What the check takes from its stack -/

/-- The check of the characters from index `position` on, with a record of the groups that close:
the index on top of the stack and the index of the parenthesis that takes it from there. -/
def pairsFrom (limit position : Nat) (opened : List Nat) (previous : Option Char) :
    List Char → Except PatternError (List (Nat × Nat))
  | [] =>
    match opened with
    | [] => .ok []
    | innermost :: _ => .error (.unclosedGroup innermost)
  | c :: rest =>
    if c = '(' then
      if opened.length + 1 > limit then .error (.tooDeep limit position)
      else pairsFrom limit (position + 1) (position :: opened) (some c) rest
    else if c = ')' then
      match opened with
      | [] => .error (.unopenedGroup position)
      | innermost :: outer =>
        (pairsFrom limit (position + 1) outer (some c) rest).map ((innermost, position) :: ·)
    else if (c = '*' || c = '+') && !isRepeatable previous then
      .error (.danglingQuantifier c position)
    else
      pairsFrom limit (position + 1) opened (some c) rest

/-- The pairs that the check of a text forms, in the order in which the groups close. -/
def pairing (limit : Nat) (text : List Char) : Except PatternError (List (Nat × Nat)) :=
  pairsFrom limit 0 [] none text

/-- Without its record it is the check. -/
theorem map_pairsFrom (limit position : Nat) (opened : List Nat) (previous : Option Char)
    (text : List Char) :
    (pairsFrom limit position opened previous text).map (fun _ => ())
      = checkFrom limit position opened previous text := by
  fun_induction pairsFrom limit position opened previous text with
  | case1 => rfl
  | case2 => rfl
  | case3 position opened previous rest hfull =>
    unfold checkFrom
    rw [if_pos rfl, if_pos hfull]
    rfl
  | case4 position opened previous rest hroom ih =>
    unfold checkFrom
    rw [if_pos rfl, if_neg hroom, ih]
  | case5 position previous rest hopen =>
    unfold checkFrom
    rw [if_neg hopen, if_pos rfl]
    rfl
  | case6 position previous rest innermost outer hopen ih =>
    unfold checkFrom
    rw [if_neg hopen, if_pos rfl]
    show _ = checkFrom limit (position + 1) outer (some ')') rest
    rw [← ih]
    cases pairsFrom limit (position + 1) outer (some ')') rest with
    | ok later => rfl
    | error e => rfl
  | case7 position opened previous c rest hopen hclose hdangling =>
    unfold checkFrom
    rw [if_neg hopen, if_neg hclose, if_pos hdangling]
    rfl
  | case8 position opened previous c rest hopen hclose hdangling ih =>
    unfold checkFrom
    rw [if_neg hopen, if_neg hclose, if_neg hdangling, ih]

/-- A text that passes the check has a record of its pairs. -/
theorem exists_pairing_of_check (h : check limit text = .ok ()) :
    ∃ pairs, pairing limit text = .ok pairs := by
  rw [check, ← map_pairsFrom] at h
  cases hpairs : pairsFrom limit 0 [] none text with
  | ok pairs => exact ⟨pairs, hpairs⟩
  | error e =>
    rw [hpairs] at h
    cases h

/-- A text with a record has passed the check. -/
theorem check_of_pairing (h : pairing limit text = .ok pairs) : check limit text = .ok () := by
  rw [check, ← map_pairsFrom, show pairsFrom limit 0 [] none text = .ok pairs from h]
  rfl

/-- One more character puts a pair on record if it closes a group, and none otherwise. -/
theorem pairsFrom_cons_eq_ok
    (h : pairsFrom limit scan.position scan.opened scan.previous (c :: text) = .ok pairs) :
    ∃ later,
      pairsFrom limit (scan.next c).position (scan.next c).opened (scan.next c).previous text
        = .ok later ∧
      ∀ opening closing, (opening, closing) ∈ pairs ↔
        (c = ')' ∧ scan.opened.head? = some opening ∧ closing = scan.position) ∨
          (opening, closing) ∈ later := by
  unfold pairsFrom at h
  split at h
  · next hopen =>
    split at h
    · cases h
    · exact ⟨pairs, by simpa [Scan.next, hopen] using h, by simp [hopen]⟩
  · next hopen =>
    split at h
    · next hclose =>
      split at h
      · cases h
      · next innermost outer hopened =>
        rcases hlater : pairsFrom limit (scan.position + 1) outer (some c) text with e | later
        · rw [hlater] at h
          cases h
        · rw [hlater] at h
          cases h
          refine ⟨later, by simpa [Scan.next, hclose, hopened] using hlater, ?_⟩
          intro opening closing
          simp [hclose, hopened, eq_comm]
    · next hclose =>
      split at h
      · cases h
      · exact ⟨pairs, by simpa [Scan.next, hopen, hclose] using h, by simp [hclose]⟩

/-- What is on record are the closing parentheses, each with the group that was the innermost one
before it. -/
theorem mem_pairsFrom
    (h : pairsFrom limit scan.position scan.opened scan.previous text = .ok pairs) :
    (opening, closing) ∈ pairs ↔
      ∃ u v, text = u ++ ')' :: v ∧ closing = scan.position + u.length ∧
        (u.foldl Scan.next scan).opened.head? = some opening := by
  induction text generalizing scan pairs with
  | nil =>
    have hpairs : pairs = [] := by
      unfold pairsFrom at h
      split at h
      · cases h
        rfl
      · cases h
    simp [hpairs]
  | cons c text ih =>
    -- a closing parenthesis stands first, or in the rest, where the scan is one character on
    rcases pairsFrom_cons_eq_ok h with ⟨later, hlater, hmem⟩
    rw [hmem, ih hlater]
    constructor
    · rintro (⟨rfl, hhead, rfl⟩ | ⟨u, v, rfl, rfl, hhead⟩)
      · exact ⟨[], text, rfl, rfl, hhead⟩
      · refine ⟨c :: u, v, rfl, ?_, hhead⟩
        simp only [Scan.next, List.length_cons]
        omega
    · rintro ⟨u, v, htext, rfl, hhead⟩
      cases u with
      | nil => exact .inl ⟨(List.cons.inj htext).1, hhead, rfl⟩
      | cons d u =>
        rcases List.cons.inj htext with ⟨rfl, htail⟩
        refine .inr ⟨u, v, htail, ?_, hhead⟩
        simp only [Scan.next, List.length_cons]
        omega

/-! ## The pairs of a checked text are its partners -/

/-- A balanced text leaves the groups around it as they are. -/
theorem Balanced.opened_foldl_next (h : Balanced s) (scan : Scan) :
    (s.foldl Scan.next scan).opened = scan.opened := by
  induction h generalizing scan with
  | nil => rfl
  | cons hopen hclose _ ih =>
    rw [List.foldl_cons, ih]
    simp [Scan.next, hopen, hclose]
  | @group s t _ _ ih ih' =>
    rw [List.foldl_cons, List.foldl_append, List.foldl_cons, ih']
    show (s.foldl Scan.next (scan.next '(')).opened.tail = scan.opened
    rw [ih]
    rfl

/-- Before the second of two partners the first is the innermost group that is open. -/
theorem innermost_of_group (u : List Char) (h : Balanced s) :
    (openGroups (u ++ '(' :: s)).head? = some u.length := by
  -- what the group contains opens and closes groups of its own and leaves the others alone
  rw [openGroups, Scan.after, List.foldl_append, List.foldl_cons, h.opened_foldl_next]
  exact congrArg some (Scan.position_after u)

/-- Cut off before the second of two partners, a checked text is refused for the first, which is
open there and would be the next to close. -/
theorem Partners.check_take (h : Partners text opening closing)
    (hcheck : check limit text = .ok ()) :
    check limit (text.take closing) = .error (.unclosedGroup opening) := by
  rcases h with ⟨u, s, v, rfl, hs, rfl, rfl⟩
  rw [check_eq_run, group_eq_append] at hcheck
  -- the scan comes to the cut without a defect, since it went over it in the whole text
  rw [take_closing, check_eq_run, Scan.run_eq_finish hcheck, Scan.finish]
  rcases List.head?_eq_some_iff.1 (innermost_of_group u hs) with ⟨outer, houter⟩
  rw [show (List.foldl Scan.next Scan.start (u ++ '(' :: s)).opened = u.length :: outer from houter]

/-- What the check of a text has on record are the partners in it. -/
theorem mem_pairing_iff (h : pairing limit text = .ok pairs) :
    (opening, closing) ∈ pairs ↔ Partners text opening closing := by
  have hbalanced : Balanced text := (checked_of_check (check_of_pairing h)).balanced
  have hlength : ∀ u s : List Char, Scan.start.position + (u ++ '(' :: s).length
      = u.length + 1 + s.length := by
    intro u s
    rw [length_before_closing]
    exact Nat.zero_add _
  have hrecord : pairsFrom limit Scan.start.position Scan.start.opened Scan.start.previous text
      = .ok pairs := h
  rw [mem_pairsFrom hrecord]
  constructor
  · rintro ⟨w, v, rfl, rfl, hhead⟩
    -- the parenthesis closes some group, and that group is the innermost one before it
    rcases hbalanced.exists_opening rfl with ⟨u, s, rfl, hs⟩
    have hopening : some opening = some u.length := hhead.symm.trans (innermost_of_group u hs)
    exact ⟨u, s, v, (group_eq_append u s v).symm, hs, Option.some.inj hopening, hlength u s⟩
  -- the converse: the group between two partners leaves the first of them innermost
  · rintro ⟨u, s, v, rfl, hs, rfl, rfl⟩
    exact ⟨u ++ '(' :: s, v, group_eq_append u s v, (hlength u s).symm, innermost_of_group u hs⟩

/-! ## Slices -/

/-- The slices of a text, each at the index where it starts: the whole text, and what stands
strictly between the two parentheses of a pair. -/
inductive SliceAt (pairs : List (Nat × Nat)) (text : List Char) : Nat → List Char → Prop where
  | whole : SliceAt pairs text 0 text
  | inside {opening closing : Nat} (h : (opening, closing) ∈ pairs) :
    SliceAt pairs text (opening + 1) (between text opening closing)

/-- A slice is a balanced part of the text. -/
theorem SliceAt.exists_split (hpairs : pairing limit text = .ok pairs)
    (h : SliceAt pairs text offset slice) :
    Balanced slice ∧
      ∃ before behind, text = before ++ slice ++ behind ∧ before.length = offset := by
  cases h with
  | whole =>
    exact ⟨(checked_of_check (check_of_pairing hpairs)).balanced, [], [], by simp, rfl⟩
  | inside h =>
    rcases (mem_pairing_iff hpairs).1 h with ⟨u, s, v, rfl, hs, rfl, rfl⟩
    rw [between_group]
    exact ⟨hs, u ++ ['('], ')' :: v, by simp, by simp⟩

/-- Partners in a part of a text are partners in the text, and the same stands between them. -/
theorem Partners.within (h : Partners slice opening closing) (before behind : List Char) :
    Partners (before ++ slice ++ behind) (before.length + opening) (before.length + closing) ∧
      between (before ++ slice ++ behind) (before.length + opening) (before.length + closing)
        = between slice opening closing := by
  rcases h with ⟨u, s, v, rfl, hs, rfl, rfl⟩
  have hsplit : before ++ (u ++ '(' :: (s ++ ')' :: v)) ++ behind
      = (before ++ u) ++ '(' :: (s ++ ')' :: (v ++ behind)) := by simp
  have hopening : before.length + u.length = (before ++ u).length := List.length_append.symm
  have hclosing : before.length + (u.length + 1 + s.length)
      = (before ++ u).length + 1 + s.length := by
    rw [List.length_append]
    omega
  rw [hsplit, hopening, hclosing, between_group, between_group]
  exact ⟨⟨before ++ u, s, v ++ behind, rfl, hs, rfl, rfl⟩, rfl⟩

/-- The parentheses at two indices of a slice belong together, whichever way one asks. -/
structure PairedIn (limit : Nat) (pairs : List (Nat × Nat)) (text : List Char) (offset : Nat)
    (slice : List Char) (opening closing : Nat) : Prop where
  lt : opening < closing
  opens : slice[opening]? = some '('
  closes : slice[closing]? = some ')'
  balanced : Balanced (between slice opening closing)
  /-- The search forwards from the first finds the second. -/
  closingOf_eq : closingOf slice opening = .ok closing
  /-- The search backwards from the second finds the first. -/
  openingOf_eq : openingOf slice closing = .ok opening
  /-- Where the check of the text reads the second, it takes the first from its stack and no
  other. -/
  mem_pairs_iff : ∀ i, (i, offset + closing) ∈ pairs ↔ i = offset + opening
  /-- If the text ended before the second, the check would find the first left open. -/
  check_take :
    check limit (text.take (offset + closing)) = .error (.unclosedGroup (offset + opening))
  /-- What stands between them is a slice again. -/
  inside : SliceAt pairs text (offset + opening + 1) (between slice opening closing)

theorem Partners.pairedIn (h : Partners slice opening closing)
    (hpairs : pairing limit text = .ok pairs) (hslice : SliceAt pairs text offset slice) :
    PairedIn limit pairs text offset slice opening closing := by
  rcases (hslice.exists_split hpairs).2 with ⟨before, behind, rfl, rfl⟩
  rcases h.within before behind with ⟨hwhole, hbetween⟩
  have hmem := (mem_pairing_iff hpairs).2 hwhole
  -- the search backwards yields one index only, so no other pair closes here
  have hunique : ∀ i, (i, before.length + closing) ∈ pairs → i = before.length + opening := by
    intro i hi
    have hfound := ((mem_pairing_iff hpairs).1 hi).openingOf_eq
    rw [hwhole.openingOf_eq] at hfound
    exact (Except.ok.inj hfound).symm
  refine
    { lt := h.lt
      opens := h.getElem?_opening
      closes := h.getElem?_closing
      balanced := h.balanced
      closingOf_eq := h.closingOf_eq
      openingOf_eq := h.openingOf_eq
      mem_pairs_iff := fun i => ⟨hunique i, ?_⟩
      check_take := hwhole.check_take (check_of_pairing hpairs)
      inside := ?_ }
  · rintro rfl
    exact hmem
  · rw [← hbetween]
    exact .inside hmem

/-- In a text that passes the check, and in every slice of it between two parentheses that the check
pairs: from each parenthesis the search for its partner succeeds, the search back returns, what
stands between the two is balanced, and by their indices in the text they are a pair that the check
takes from its stack. -/
theorem check_and_searches_pair_alike (h : check limit text = .ok ()) :
    ∃ pairs, pairing limit text = .ok pairs ∧
      ∀ offset slice, SliceAt pairs text offset slice →
        (∀ opening, slice[opening]? = some '(' →
          ∃ closing, PairedIn limit pairs text offset slice opening closing) ∧
        (∀ closing, slice[closing]? = some ')' →
          ∃ opening, PairedIn limit pairs text offset slice opening closing) := by
  rcases exists_pairing_of_check h with ⟨pairs, hpairs⟩
  refine ⟨pairs, hpairs, fun offset slice hslice => ?_⟩
  have hbalanced := (hslice.exists_split hpairs).1
  -- parentheses of a balanced slice have partners in it, whichever of the two is given
  refine ⟨fun opening hopen => ?_, fun closing hclose => ?_⟩
  · rcases hbalanced.exists_partner_behind hopen with ⟨closing, hpartners⟩
    exact ⟨closing, hpartners.pairedIn hpairs hslice⟩
  · rcases hbalanced.exists_partner_before hclose with ⟨opening, hpartners⟩
    exact ⟨opening, hpartners.pairedIn hpairs hslice⟩

/-- In `(a)((b)(c))*` the slice `(b)(c)` starts at index 4; its second group stands at the indices 3
and 5 of the slice, which are 7 and 9 in the text. -/
theorem check_and_searches_pair_alike_behind_groups :
    check 2 "(a)((b)(c))*".toList = .ok () ∧
    ∃ pairs, pairing 2 "(a)((b)(c))*".toList = .ok pairs ∧
      pairs = [(0, 2), (4, 6), (7, 9), (3, 10)] ∧
      SliceAt pairs "(a)((b)(c))*".toList 4 "(b)(c)".toList ∧
      PairedIn 2 pairs "(a)((b)(c))*".toList 4 "(b)(c)".toList 3 5 := by
  have hcheck : check 2 "(a)((b)(c))*".toList = .ok () := by cbv
  have hformed : pairing 2 "(a)((b)(c))*".toList = .ok [(0, 2), (4, 6), (7, 9), (3, 10)] := by cbv
  obtain ⟨pairs, hpairs, hall⟩ := check_and_searches_pair_alike hcheck
  rw [hformed] at hpairs
  cases hpairs
  have hgroup : (3, 10) ∈ [(0, 2), (4, 6), (7, 9), (3, 10)] := by decide
  have hslice : SliceAt _ "(a)((b)(c))*".toList 4 "(b)(c)".toList := .inside hgroup
  have hopen : "(b)(c)".toList[3]? = some '(' := by decide
  obtain ⟨closing, hpaired⟩ := (hall 4 _ hslice).1 3 hopen
  have hclosing : closingOf "(b)(c)".toList 3 = .ok 5 := by cbv
  rw [hpaired.closingOf_eq] at hclosing
  cases hclosing
  exact ⟨hcheck, _, hformed, rfl, hslice, hpaired⟩

end PatternGraph.Pattern
