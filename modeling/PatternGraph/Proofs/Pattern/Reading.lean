import PatternGraph.Pattern.Parser
import PatternGraph.Proofs.Pattern.Scan

/-!
# Reading — what the readers of patterns yield, against grammar and scan

1. `Cursor.Passes` says that a cursor stands behind a text that another cursor stands before.
2. `Agrees` is the one statement about a reader's result: a tree comes with the text of the grammar
   that was passed, and a defect is the one that a scan finds from there. `readBranches_agrees` and
   the lemmas beside it prove it of the four readers, along their own recursion.
3. `readBranches_of_branches` is the converse: what the grammar derives, the readers read.
-/

namespace PatternGraph

/-! ## Moving cursors -/

namespace Cursor

/-- The cursor `d` stands behind the text `s` that `c` stands before, at the same depth. -/
structure Passes (c : Cursor) (s : List Char) (d : Cursor) : Prop where
  rest : c.rest = s ++ d.rest
  position : d.position = c.position + s.length
  depth : d.depth = c.depth

variable {c d e : Cursor} {s t : List Char} {x : Char}

theorem Passes.refl (c : Cursor) : c.Passes [] c :=
  ⟨rfl, rfl, rfl⟩

/-- Two texts are passed one behind the other. -/
theorem Passes.trans (h : c.Passes s d) (h' : d.Passes t e) : c.Passes (s ++ t) e := by
  constructor
  · rw [h.rest, h'.rest, List.append_assoc]
  · rw [h'.position, h.position, List.length_append, Nat.add_assoc]
  · rw [h'.depth, h.depth]

/-- A cursor sees nothing at the end of the text. -/
theorem peek_eq_none_iff : c.peek = none ↔ c.rest = [] :=
  List.head?_eq_none_iff

theorem position_advance (h : c.peek = some x) : c.advance.position = c.position + 1 := by
  unfold advance
  rw [rest_eq_cons h]

theorem depth_advance (c : Cursor) : c.advance.depth = c.depth := by
  unfold advance
  split <;> rfl

/-- To advance by the character that is seen is to pass it. -/
theorem Passes.advance (h : c.peek = some x) : c.Passes [x] c.advance :=
  ⟨rest_eq_cons h, position_advance h, depth_advance c⟩

/-- A group is passed from its opening parenthesis to behind its closing one. -/
theorem Passes.group (h : c.peek = some '(') (hs : c.openGroup.Passes s d)
    (hd : d.peek = some ')') : c.Passes ('(' :: (s ++ [')'])) d.closeGroup := by
  constructor
  · rw [rest_eq_cons h, rest_closeGroup, ← rest_advance]
    have hrest := hs.rest
    rw [rest_openGroup, ← rest_advance, rest_eq_cons hd] at hrest
    simp [hrest]
  · have hopen : c.openGroup.position = c.position + 1 := position_advance h
    have hclose : d.closeGroup.position = d.position + 1 := position_advance hd
    rw [hclose, hs.position, hopen, List.length_cons, List.length_append, List.length_singleton]
    omega
  · have hdepth : d.depth = c.depth + 1 := hs.depth
    show d.depth - 1 = c.depth
    rw [hdepth, Nat.add_sub_cancel]

/-- What is passed in two parts is passed at the place between them. -/
theorem Passes.split (h : c.Passes (s ++ t) e) : ∃ d, c.Passes s d ∧ d.Passes t e := by
  refine ⟨⟨t ++ e.rest, c.position + s.length, c.depth⟩, ⟨?_, rfl, rfl⟩, ⟨rfl, ?_, h.depth⟩⟩
  · rw [h.rest, List.append_assoc]
  · rw [h.position, List.length_append, Nat.add_assoc]

theorem Passes.peek_cons (h : c.Passes (x :: s) d) : c.peek = some x := by
  rw [peek, h.rest]
  rfl

/-- Behind the first character the rest is passed. -/
theorem Passes.advance_cons (h : c.Passes (x :: s) d) : c.advance.Passes s d := by
  constructor
  · rw [rest_advance, h.rest]
    rfl
  · rw [position_advance h.peek_cons, h.position, List.length_cons]
    omega
  · rw [h.depth, depth_advance]

/-- A cursor that passes nothing is where it was. -/
theorem Passes.eq_of_nil (h : c.Passes [] d) : d = c := by
  rcases c with ⟨rest, position, depth⟩
  rcases d with ⟨rest', position', depth'⟩
  rcases h with ⟨hrest, hposition, hdepth⟩
  simp_all

/-- The inside of a group that is passed, and the place of its closing parenthesis. -/
theorem Passes.of_group (h : c.Passes ('(' :: (s ++ [')'])) e) :
    ∃ d, c.openGroup.Passes s d ∧ d.peek = some ')' ∧ d.closeGroup = e := by
  rcases h.advance_cons.split with ⟨d, hs, hd⟩
  -- inside the group one group more is open than before it
  have hopen : c.openGroup.Passes s { d with depth := c.depth + 1 } :=
    ⟨hs.rest, hs.position, rfl⟩
  have hclose : Passes { d with depth := c.depth + 1 } [')'] { e with depth := c.depth + 1 } :=
    ⟨hd.rest, hd.position, rfl⟩
  refine ⟨_, hopen, hclose.peek_cons, ?_⟩
  have hend := hclose.advance_cons.eq_of_nil
  unfold closeGroup
  rw [← hend]
  exact congrArg (Cursor.mk e.rest e.position) h.depth.symm

end Cursor

namespace Pattern

variable {limit : Nat} {c d : Cursor} {e : PatternError} {s : List Char}

/-! ## Quantifiers -/

/-- The quantifiers behind an item are read to the last. -/
theorem readQuantifiers_spec (item : Pattern) (c : Cursor) :
    ∃ quantifiers : List Quantifier,
      c.Passes (quantifiers.map Quantifier.toChar) (readQuantifiers item c).next ∧
      (readQuantifiers item c).value = quantifiers.foldl quantify item ∧
      ∀ q : Quantifier, (readQuantifiers item c).next.peek ≠ some q.toChar := by
  fun_induction readQuantifiers item c with
  | case1 item c hpeek =>
    refine ⟨[], Cursor.Passes.refl c, rfl, fun q hq => ?_⟩
    rw [hq, Option.bind_some, Quantifier.ofChar?_toChar] at hpeek
    cases hpeek
  | case2 item c q hpeek reading ih =>
    rcases ih with ⟨quantifiers, hpass, hvalue, hstop⟩
    rcases Option.bind_eq_some_iff.1 hpeek with ⟨x, hx, hq⟩
    rw [Quantifier.ofChar?_eq_some_iff] at hq
    subst hq
    exact ⟨q :: quantifiers, (Cursor.Passes.advance hx).trans hpass, hvalue, hstop⟩

/-- Between two given places the quantifiers are the ones that stand there. -/
theorem readQuantifiers_of_passes {quantifiers : List Quantifier} {item : Pattern}
    (h : c.Passes (quantifiers.map Quantifier.toChar) d)
    (hstop : ∀ q : Quantifier, d.peek ≠ some q.toChar) :
    (readQuantifiers item c).value = quantifiers.foldl quantify item ∧
      (readQuantifiers item c).next = d := by
  induction quantifiers generalizing item c with
  | nil =>
    have hd := h.eq_of_nil
    subst hd
    rw [readQuantifiers]
    split
    · exact ⟨rfl, rfl⟩
    · next q hq =>
      rcases Option.bind_eq_some_iff.1 hq with ⟨x, hx, hq⟩
      rw [Quantifier.ofChar?_eq_some_iff] at hq
      exact absurd (hq ▸ hx) (hstop q)
  | cons q quantifiers ih =>
    -- a quantifier stands at the cursor, so the reader takes it and goes on behind it
    have hpeek : c.peek = some q.toChar := h.peek_cons
    rw [readQuantifiers]
    split
    · next hnone =>
      rw [hpeek, Option.bind_some, Quantifier.ofChar?_toChar] at hnone
      cases hnone
    · next r hr =>
      rw [hpeek, Option.bind_some, Quantifier.ofChar?_toChar] at hr
      cases hr
      exact ih h.advance_cons

/-! ## Results against grammar and scan -/

/-- A scan stands where a cursor stands, and a quantifier that stands there dangles. -/
structure Scan.Meets (scan : Scan) (c : Cursor) : Prop where
  position : scan.position = c.position
  depth : scan.opened.length = c.depth
  dangles : ∀ q : Quantifier, c.peek = some q.toChar → startsBranch scan.previous = true

/-- What the result of a reader says: a value belongs to the text that was passed, and a defect is
the one that every scan finds from there on. -/
def Agrees {α : Type} {n : Nat} (limit : Nat) (c : Cursor)
    (result : Except PatternError (Reading α c n)) (Derives : List Char → α → Prop)
    (Stops : Cursor → Prop) : Prop :=
  match result with
  | .ok reading => ∃ s, c.Passes s reading.next ∧ Derives s reading.value ∧ Stops reading.next
  | .error e => ∀ scan : Scan, scan.Meets c → scan.run startsBranch limit c.rest = .error e

/-- Where branches stop: at the end of the text or of a group. -/
def StopsBranches (c : Cursor) : Prop :=
  c.peek = none ∨ c.peek = some ')'

/-- Where items stop: where branches stop, or at a bar. -/
def StopsItems (c : Cursor) : Prop :=
  c.peek = some '|' ∨ StopsBranches c

/-- Where an item stops: at no quantifier. -/
def StopsItem (c : Cursor) : Prop :=
  ∀ q : Quantifier, c.peek ≠ some q.toChar

/-- Texts of one item, and its tree. -/
def Item (s : List Char) (item : Pattern) : Prop :=
  ∃ u atom, ∃ quantifiers : List Quantifier, Atom u atom ∧
    s = u ++ quantifiers.map Quantifier.toChar ∧ item = quantifiers.foldl quantify atom

/-- An item before items, with its atom and its quantifiers in one. -/
theorem Item.cons {t : List Char} {item : Pattern} {items : List Pattern} (h : Item s item)
    (h' : Items t items) : Items (s ++ t) (item :: items) := by
  rcases h with ⟨u, atom, quantifiers, hatom, rfl, rfl⟩
  rw [List.append_assoc]
  exact Items.cons hatom quantifiers h'

/-- One item is a list of items. -/
theorem Item.items {item : Pattern} (h : Item s item) : Items s [item] := by
  have hitems := h.cons Items.nil
  rwa [List.append_nil] at hitems

/-- A scan goes over an item without a defect, as long as its groups are not nested too deep. -/
theorem Item.clean {scan : Scan} {item : Pattern} (h : Item s item)
    (hdepth : scan.opened.length + item.nesting ≤ limit) : Scan.Clean limit scan s := by
  refine h.items.clean ?_
  rw [nestingAll, nestingAll, Nat.max_zero]
  exact hdepth

/-- A scan that met a cursor and went over a clean text meets the cursor behind that text, if no
quantifier stands there. -/
theorem Scan.Meets.foldl {scan : Scan} (h : scan.Meets c) (hpass : c.Passes s d)
    (hclean : Scan.Clean limit scan s) (hstop : StopsItem d) :
    (s.foldl Scan.next scan).Meets d := by
  constructor
  · rw [Scan.position_foldl_next, h.position, hpass.position]
  · rw [hclean.opened, h.depth, hpass.depth]
  · intro q hq
    exact absurd hq (hstop q)

/-- A scan that met a cursor and went over a clean text and a bar meets the cursor behind both. -/
theorem Scan.Meets.bar {scan : Scan} (h : scan.Meets c) (hpass : c.Passes s d)
    (hclean : Scan.Clean limit scan s) (hbar : d.peek = some '|') :
    ((s.foldl Scan.next scan).next '|').Meets d.advance := by
  have hadvance := Cursor.Passes.advance hbar
  constructor
  · show (s.foldl Scan.next scan).position + 1 = d.advance.position
    rw [Scan.position_foldl_next, hadvance.position, hpass.position, h.position]
    rfl
  · show (s.foldl Scan.next scan).opened.length = d.advance.depth
    rw [hclean.opened, h.depth, hadvance.depth, hpass.depth]
  · intro _ _
    rfl

/-- Where there is room for one more group, a scan enters it with the cursor. -/
theorem Scan.Meets.openGroup {scan : Scan} (h : scan.Meets c) (hopen : c.peek = some '(')
    (hroom : c.depth < limit) :
    (scan.next '(').Meets c.openGroup ∧ scan.run startsBranch limit c.rest
      = (scan.next '(').run startsBranch limit c.openGroup.rest := by
  constructor
  · constructor
    · have hposition : c.openGroup.position = c.position + 1 := Cursor.position_advance hopen
      rw [hposition, ← h.position]
      rfl
    · show scan.opened.length + 1 = c.depth + 1
      rw [h.depth]
    · intro _ _
      rfl
  · have hrest : c.rest = '(' :: c.openGroup.rest := Cursor.rest_eq_cons hopen
    have hfree : ¬ limit ≤ scan.opened.length := by rw [h.depth]; omega
    rw [hrest, Scan.run]
    simp [Scan.defect?, hfree]

mutual

/-- Reading branches agrees with the grammar and the scan. The four theorems follow the readers:
each goes over what is left behind its cursor, and where nothing has been passed yet, a number tells
which reader may call which. What is handed on is that no more groups are open than may be; a tree
that was read tells how deep it is nested, so that the scan is known to go over its text without a
defect. -/
theorem readBranches_agrees (limit : Nat) (c : Cursor) (hc : c.depth ≤ limit) :
    Agrees limit c (readBranches limit c)
      (fun s branches => Branches s branches ∧ c.depth + nestingAll branches ≤ limit)
      StopsBranches := by
  have hitems := readItems_agrees limit c hc
  rw [readBranches]
  split
  · next e he =>
    rw [he] at hitems
    exact hitems
  · next items hok =>
    rw [hok] at hitems
    rcases hitems with ⟨s, hpass, ⟨hs, hdepth⟩, hstop⟩
    split
    · next hbar =>
      have hadvance := Cursor.Passes.advance hbar
      have hd : items.next.advance.depth = c.depth := by rw [hadvance.depth, hpass.depth]
      have hless : items.next.advance.rest.length < c.rest.length := by
        have := items.length_le
        have := items.next.length_advance
        have := Cursor.length_pos_of_peek hbar
        omega
      have hbranches := readBranches_agrees limit items.next.advance (hd ▸ hc)
      split
      · next e he =>
        -- the scan passes the first branch and the bar cleanly, then meets the defect
        rw [he] at hbranches
        intro scan hmeets
        have hclean : Scan.Clean limit scan s := hs.clean (by rw [hmeets.depth]; exact hdepth)
        have hcleanBar : Scan.Clean limit (s.foldl Scan.next scan) ['|'] := Scan.Clean.bar
        rw [hpass.rest, hclean.run_append, hadvance.rest, hcleanBar.run_append]
        exact hbranches _ (hmeets.bar hpass hclean hbar)
      · next branches hok' =>
        rw [hok'] at hbranches
        rcases hbranches with ⟨t, hpass', ⟨ht, hdepth'⟩, hstop'⟩
        refine ⟨s ++ '|' :: t, ?_, ⟨Branches.bar hs ht, ?_⟩, hstop'⟩
        · exact hpass.trans (hadvance.trans hpass')
        · rw [hd] at hdepth'
          rw [nestingAll, nesting_ofItems]
          omega
    · next hbar =>
      refine ⟨s, hpass, ⟨Branches.last hs, ?_⟩, ?_⟩
      · rw [nestingAll, nestingAll, nesting_ofItems, Nat.max_zero]
        exact hdepth
      · -- items that did not stop at a bar stopped where branches stop
        rcases hstop with hstop | hstop
        · exact absurd hstop hbar
        · exact hstop
termination_by (c.rest.length, 3)
decreasing_by
  · simp [Prod.lex_def]
  · simp only [Prod.lex_def]
    omega

/-- The same of items. A defect behind an item is found by a scan that went over the item, since
that scan meets the cursor where the item stops: at no quantifier. -/
theorem readItems_agrees (limit : Nat) (c : Cursor) (hc : c.depth ≤ limit) :
    Agrees limit c (readItems limit c)
      (fun s items => Items s items ∧ c.depth + nestingAll items ≤ limit) StopsItems := by
  have hnil : Items [] [] ∧ c.depth + nestingAll [] ≤ limit := ⟨Items.nil, hc⟩
  rw [readItems]
  split
  · next hend => exact ⟨[], Cursor.Passes.refl c, hnil, .inr (.inl hend)⟩
  · next hbar => exact ⟨[], Cursor.Passes.refl c, hnil, .inl hbar⟩
  · next hclose => exact ⟨[], Cursor.Passes.refl c, hnil, .inr (.inr hclose)⟩
  · next x hbar hclose hpeek =>
    have hitem := readRepetition_agrees limit c hc hpeek hbar hclose
    split
    · next e he =>
      rw [he] at hitem
      exact hitem
    · next item hok =>
      rw [hok] at hitem
      rcases hitem with ⟨s, hpass, ⟨hs, hdepth⟩, hstop⟩
      have hless : item.next.rest.length < c.rest.length := by
        have := item.length_le
        have := Cursor.length_pos_of_peek hpeek
        omega
      have hitems := readItems_agrees limit item.next (hpass.depth ▸ hc)
      split
      · next e he =>
        rw [he] at hitems
        -- the scan went over the first item and meets the cursor behind it
        intro scan hmeets
        have hclean : Scan.Clean limit scan s := hs.clean (by rw [hmeets.depth]; exact hdepth)
        rw [hpass.rest, hclean.run_append]
        exact hitems _ (hmeets.foldl hpass hclean hstop)
      · next items hok' =>
        rw [hok'] at hitems
        rcases hitems with ⟨t, hpass', ⟨ht, hdepth'⟩, hstop'⟩
        refine ⟨_, hpass.trans hpass', ⟨hs.cons ht, ?_⟩, hstop'⟩
        rw [hpass.depth] at hdepth'
        rw [nestingAll]
        omega
termination_by (c.rest.length, 2)
decreasing_by
  · simp [Prod.lex_def]
  · simp only [Prod.lex_def]
    omega

/-- The same of an item with its quantifiers, at a character that begins one. A quantifier there is
reported, and it dangles for the scan too, as nothing repeatable stands before the cursor. -/
theorem readRepetition_agrees (limit : Nat) (c : Cursor) (hc : c.depth ≤ limit) {x : Char}
    (hpeek : c.peek = some x) (hbar : x ≠ '|') (hclose : x ≠ ')') :
    Agrees limit c (readRepetition limit c)
      (fun s item => Item s item ∧ c.depth + item.nesting ≤ limit) StopsItem := by
  rw [readRepetition]
  split
  · next hstar =>
    intro scan hmeets
    have hdangles := hmeets.dangles .zeroOrMore hstar
    rw [Cursor.rest_eq_cons hstar, Scan.run]
    simp [Scan.defect?, hdangles, hmeets.position]
  · next hplus =>
    intro scan hmeets
    have hdangles := hmeets.dangles .oneOrMore hplus
    rw [Cursor.rest_eq_cons hplus, Scan.run]
    simp [Scan.defect?, hdangles, hmeets.position]
  · next hstar hplus =>
    have hatom := readAtom_agrees limit c hc hpeek ⟨hbar, hclose, fun h => hstar (h ▸ hpeek),
      fun h => hplus (h ▸ hpeek)⟩
    split
    · next e he =>
      rw [he] at hatom
      exact hatom
    · next atom hok =>
      rw [hok] at hatom
      rcases hatom with ⟨s, hpass, ⟨hs, hdepth⟩, _⟩
      rcases readQuantifiers_spec atom.value atom.next with ⟨quantifiers, hpass', hvalue, hstop⟩
      refine ⟨_, hpass.trans hpass', ⟨⟨s, atom.value, quantifiers, hs, rfl, hvalue⟩, ?_⟩, hstop⟩
      simp only
      rw [hvalue, nesting_foldl_quantify]
      exact hdepth
termination_by (c.rest.length, 1)
decreasing_by simp [Prod.lex_def]

/-- The same of an atom. In a group the scan has one more group open, and at the end of the text the
innermost of them is the one that is reported. -/
theorem readAtom_agrees (limit : Nat) (c : Cursor) (hc : c.depth ≤ limit) {x : Char}
    (hpeek : c.peek = some x) (hx : x ≠ '|' ∧ x ≠ ')' ∧ x ≠ '*' ∧ x ≠ '+') :
    Agrees limit c (readAtom limit c)
      (fun s atom => Atom s atom ∧ c.depth + atom.nesting ≤ limit) fun _ => True := by
  rw [readAtom]
  split
  · next hend =>
    rw [hpeek] at hend
    cases hend
  · next hopen =>
    split
    · next hdeep =>
      intro scan hmeets
      have hfull : limit ≤ scan.opened.length := by rw [hmeets.depth]; omega
      rw [Cursor.rest_eq_cons hopen, Scan.run]
      simp [Scan.defect?, hfull, hmeets.position]
    · next hroom =>
      have hbranches := readBranches_agrees limit c.openGroup (Nat.not_lt.1 hroom)
      split
      · next e he =>
        rw [he] at hbranches
        -- the defect stands inside the group, which the scan enters with the cursor
        intro scan hmeets
        rcases hmeets.openGroup hopen (Nat.not_lt.1 hroom) with ⟨hmeets', hrun⟩
        rw [hrun]
        exact hbranches _ hmeets'
      · next branches hok =>
        rw [hok] at hbranches
        rcases hbranches with ⟨s, hpass, ⟨hs, hdepth⟩, hstop⟩
        split
        · next hclose =>
          refine ⟨_, Cursor.Passes.group hopen hpass hclose, ⟨Atom.group hs, ?_⟩, trivial⟩
          have : c.openGroup.depth = c.depth + 1 := rfl
          rw [nesting, nesting_ofBranches]
          omega
        · next hclose =>
          -- the readers stopped inside the group and not at a parenthesis: the text has ended
          intro scan hmeets
          have hend : branches.next.rest = [] := by
            rcases hstop with hstop | hstop
            · exact Cursor.peek_eq_none_iff.1 hstop
            · exact absurd hstop hclose
          rcases hmeets.openGroup hopen (Nat.not_lt.1 hroom) with ⟨hmeets', hrun⟩
          have hclean : Scan.Clean limit (scan.next '(') s :=
            hs.clean (by rw [hmeets'.depth]; exact hdepth)
          rw [hrun, hpass.rest, hclean.run_append, hend, Scan.run, Scan.finish, hclean.opened]
          show Except.error (PatternError.unclosedGroup scan.position) = _
          rw [hmeets.position]
  · next y hopen hpeek' =>
    rw [hpeek] at hpeek'
    cases hpeek'
    rcases hx with ⟨hbar, hclose, hstar, hplus⟩
    exact ⟨[x], Cursor.Passes.advance hpeek,
      ⟨Atom.literal ⟨hopen, hclose, hbar, hstar, hplus⟩, hc⟩, trivial⟩
termination_by (c.rest.length, 0)
decreasing_by
  have := c.length_openGroup
  have := Cursor.length_pos_of_peek hpeek
  simp only [Prod.lex_def]
  omega

end

/-! ## The texts of the grammar are read -/

/-- An atom starts with a parenthesis or an ordinary character. -/
theorem Atom.head {atom : Pattern} (h : Atom s atom) :
    ∃ x t, s = x :: t ∧ x ≠ '|' ∧ x ≠ ')' ∧ x ≠ '*' ∧ x ≠ '+' := by
  cases h with
  | @literal c h =>
    rcases h with ⟨_, hclose, hbar, hstar, hplus⟩
    exact ⟨c, [], rfl, hbar, hclose, hstar, hplus⟩
  | group h => exact ⟨'(', _, rfl, by decide, by decide, by decide, by decide⟩

/-- Items start with no quantifier. -/
theorem Items.ne_quantifier {items : List Pattern} (h : Items s items) (q : Quantifier)
    (v : List Char) : s ≠ q.toChar :: v := by
  cases h with
  | nil =>
    intro hs
    cases hs
  | cons hatom quantifiers hitems =>
    rcases hatom.head with ⟨x, t, rfl, -, -, hstar, hplus⟩
    intro hs
    have hx : x = q.toChar := (List.cons.inj hs).1
    rcases q.toChar_eq with hq | hq
    · exact hstar (hx.trans hq)
    · exact hplus (hx.trans hq)

/-- Nor do branches. -/
theorem Branches.ne_quantifier {branches : List Pattern} (h : Branches s branches) (q : Quantifier)
    (v : List Char) : s ≠ q.toChar :: v := by
  cases h with
  | last hitems => exact hitems.ne_quantifier q v
  | @bar u t _ _ hitems hbranches =>
    intro hs
    cases u with
    | nil =>
      have hbar : '|' = q.toChar := (List.cons.inj hs).1
      cases q <;> cases hbar
    | cons x u => exact hitems.ne_quantifier q u (by rw [(List.cons.inj hs).1])

/-- Where items stop there is no quantifier. -/
theorem StopsItems.stopsItem (h : StopsItems c) : StopsItem c := by
  intro q hq
  rcases h with h | h | h <;> rw [hq] at h <;> rcases q.toChar_eq with hchar | hchar <;>
    simp [hchar] at h

/-- So the quantifiers before items end where the items start. -/
theorem Items.stopsItem {items : List Pattern} (h : Items s items) (hpass : c.Passes s d)
    (hstop : StopsItems d) : StopsItem c := by
  intro q hq
  cases s with
  | nil =>
    rw [← hpass.eq_of_nil] at hq
    exact hstop.stopsItem q hq
  | cons x t =>
    rw [hpass.peek_cons] at hq
    exact h.ne_quantifier q t (by rw [Option.some.inj hq])

/-- A reader's result is this value, with the cursor behind it. -/
def Yields {α : Type} {n : Nat} (result : Except PatternError (Reading α c n)) (value : α)
    (d : Cursor) : Prop :=
  ∃ reading, result = .ok reading ∧ reading.value = value ∧ reading.next = d

section Equations

variable {x : Cursor} {items branches : List Pattern} {item atom : Pattern}

/-- Branches end with the items behind which no bar stands. -/
theorem readBranches_last (h : Yields (readItems limit c) items d) (hbar : d.peek ≠ some '|') :
    Yields (readBranches limit c) [ofItems items] d := by
  rcases h with ⟨reading, hok, rfl, rfl⟩
  rw [readBranches, hok]
  simp only
  exact ⟨_, rfl, rfl, rfl⟩

/-- Behind a bar more branches are read. -/
theorem readBranches_bar (h : Yields (readItems limit c) items x) (hbar : x.peek = some '|')
    (h' : Yields (readBranches limit x.advance) branches d) :
    Yields (readBranches limit c) (ofItems items :: branches) d := by
  rcases h with ⟨reading, hok, rfl, rfl⟩
  rcases h' with ⟨reading', hok', rfl, rfl⟩
  rw [readBranches, hok]
  simp only
  split
  · rw [hok']
    exact ⟨_, rfl, rfl, rfl⟩
  · next hne => exact absurd hbar hne

/-- At a bar, a closing parenthesis or the end of the text there are no more items. -/
theorem readItems_stop (h : StopsItems c) : Yields (readItems limit c) [] c := by
  rw [readItems]
  split
  · exact ⟨_, rfl, rfl, rfl⟩
  · exact ⟨_, rfl, rfl, rfl⟩
  · exact ⟨_, rfl, rfl, rfl⟩
  · next y hbar hclose hpeek =>
    rcases h with h | h | h <;> rw [hpeek] at h
    · exact absurd (Option.some.inj h) hbar
    · cases h
    · exact absurd (Option.some.inj h) hclose

/-- Elsewhere an item is read, and the items behind it. -/
theorem readItems_cons {y : Char} (hpeek : c.peek = some y) (hbar : y ≠ '|') (hclose : y ≠ ')')
    (h : Yields (readRepetition limit c) item x) (h' : Yields (readItems limit x) items d) :
    Yields (readItems limit c) (item :: items) d := by
  rcases h with ⟨reading, hok, rfl, rfl⟩
  rcases h' with ⟨reading', hok', rfl, rfl⟩
  rw [readItems]
  split
  · next hend => rw [hpeek] at hend; cases hend
  · next heq => exact absurd (Option.some.inj (hpeek ▸ heq)) hbar
  · next heq => exact absurd (Option.some.inj (hpeek ▸ heq)) hclose
  · rw [hok]
    simp only
    rw [hok']
    exact ⟨_, rfl, rfl, rfl⟩

/-- An item is an atom with the quantifiers behind it. -/
theorem readRepetition_atom {y : Char} (hpeek : c.peek = some y) (hstar : y ≠ '*') (hplus : y ≠ '+')
    (h : Yields (readAtom limit c) atom x) (hnext : (readQuantifiers atom x).next = d)
    (hvalue : (readQuantifiers atom x).value = item) :
    Yields (readRepetition limit c) item d := by
  rcases h with ⟨reading, hok, rfl, rfl⟩
  rw [readRepetition]
  split
  · next heq => exact absurd (Option.some.inj (hpeek ▸ heq)) hstar
  · next heq => exact absurd (Option.some.inj (hpeek ▸ heq)) hplus
  · rw [hok]
    exact ⟨_, rfl, hvalue, hnext⟩

/-- An ordinary character is read as it is. -/
theorem readAtom_literal {y : Char} (hpeek : c.peek = some y) (hopen : y ≠ '(') :
    Yields (readAtom limit c) (literal y) c.advance := by
  rw [readAtom]
  split
  · next hend => rw [hpeek] at hend; cases hend
  · next heq => exact absurd (Option.some.inj (hpeek ▸ heq)) hopen
  · next z _ hpeek' =>
    rw [hpeek] at hpeek'
    cases hpeek'
    exact ⟨_, rfl, rfl, rfl⟩

/-- A group is read to the parenthesis that closes it, if there is room for one more. -/
theorem readAtom_group (hopen : c.peek = some '(') (hroom : c.depth < limit)
    (h : Yields (readBranches limit c.openGroup) branches x) (hclose : x.peek = some ')') :
    Yields (readAtom limit c) (group (ofBranches branches)) x.closeGroup := by
  rcases h with ⟨reading, hok, rfl, rfl⟩
  rw [readAtom]
  split
  · next hend => rw [hopen] at hend; cases hend
  · rw [if_neg (Nat.not_lt.2 hroom), hok]
    simp only
    rw [hclose]
    exact ⟨_, rfl, rfl, rfl⟩
  · next z hne hpeek' =>
    rw [hopen] at hpeek'
    cases hpeek'
    exact absurd rfl hne

end Equations

mutual

/-- What the grammar derives, the readers read. By mutual induction on the derivation, wherever its
text stands; branches read on until the text or a group ends, so one of the two has to be behind it.
-/
theorem readBranches_of_branches {c d : Cursor} {s : List Char} {branches : List Pattern}
    (h : Branches s branches) (hpass : c.Passes s d) (hstop : StopsBranches d)
    (hdepth : c.depth + nestingAll branches ≤ limit) :
    Yields (readBranches limit c) branches d := by
  match h with
  | .last hitems =>
    rw [nestingAll, nestingAll, nesting_ofItems, Nat.max_zero] at hdepth
    refine readBranches_last (readItems_of_items hitems hpass (.inr hstop) hdepth) ?_
    rcases hstop with hstop | hstop <;> simp [hstop]
  | .bar hitems hbranches =>
    rw [nestingAll, nesting_ofItems] at hdepth
    rcases hpass.split with ⟨x, hfirst, hrest⟩
    have hbar : x.peek = some '|' := hrest.peek_cons
    refine readBranches_bar (readItems_of_items hitems hfirst (.inl hbar) (by omega)) hbar
      (readBranches_of_branches hbranches hrest.advance_cons hstop ?_)
    rw [Cursor.depth_advance, hfirst.depth]
    omega

theorem readItems_of_items {c d : Cursor} {s : List Char} {items : List Pattern}
    (h : Items s items) (hpass : c.Passes s d) (hstop : StopsItems d)
    (hdepth : c.depth + nestingAll items ≤ limit) :
    Yields (readItems limit c) items d := by
  match h with
  | .nil =>
    rw [hpass.eq_of_nil] at hstop ⊢
    exact readItems_stop hstop
  | .cons hatom quantifiers hitems =>
    rw [nestingAll, nesting_foldl_quantify] at hdepth
    rcases hpass.split with ⟨x, hfirst, hrest⟩
    rcases hrest.split with ⟨y, hquantifiers, hrest⟩
    -- the text is taken apart where the atom ends and where its quantifiers end
    have hread := readAtom_of_atom hatom hfirst (by omega)
    have hrestDepth : y.depth = c.depth := by rw [hquantifiers.depth, hfirst.depth]
    have hreads := readItems_of_items hitems hrest hstop (by omega)
    obtain ⟨hvalue, hnext⟩ :=
      readQuantifiers_of_passes hquantifiers (hitems.stopsItem hrest hstop)
    rcases hatom.head with ⟨z, t, rfl, hbar, hclose, hstar, hplus⟩
    have hpeek : c.peek = some z := hfirst.peek_cons
    exact readItems_cons hpeek hbar hclose
      (readRepetition_atom hpeek hstar hplus hread hnext hvalue) hreads

theorem readAtom_of_atom {c d : Cursor} {s : List Char} {atom : Pattern} (h : Atom s atom)
    (hpass : c.Passes s d) (hdepth : c.depth + atom.nesting ≤ limit) :
    Yields (readAtom limit c) atom d := by
  match h with
  | .literal hc =>
    rw [hpass.advance_cons.eq_of_nil]
    exact readAtom_literal hpass.peek_cons hc.1
  | .group hbranches =>
    rw [nesting, nesting_ofBranches] at hdepth
    rcases hpass.of_group with ⟨x, hinside, hclose, rfl⟩
    have hdeeper : c.openGroup.depth = c.depth + 1 := rfl
    exact readAtom_group hpass.peek_cons (by omega)
      (readBranches_of_branches hbranches hinside (.inr hclose) (by omega)) hclose

end

/-! ## Whole texts -/

theorem passes_whole (text : List Char) :
    (Cursor.start text).Passes text ⟨[], text.length, 0⟩ :=
  ⟨(List.append_nil text).symm, (Nat.zero_add _).symm, rfl⟩

/-- A text of the grammar is read as a whole, if its groups are not nested too deep. -/
theorem read_of_branches {text : List Char} {branches : List Pattern} (h : Branches text branches)
    (hdepth : nestingAll branches ≤ limit) : read limit text = .ok (ofBranches branches) := by
  have hdepth' : (Cursor.start text).depth + nestingAll branches ≤ limit := by
    rw [show (Cursor.start text).depth = 0 from rfl, Nat.zero_add]
    exact hdepth
  obtain ⟨reading, hok, rfl, hnext⟩ :=
    readBranches_of_branches h (passes_whole text) (.inl rfl) hdepth'
  rw [read, hok]
  simp [hnext]

/-- Reading a text to its end: the tree is one that the grammar derives, and a defect is the one
that the scan of the text finds. -/
theorem read_agrees (limit : Nat) (text : List Char) :
    match read limit text with
    | .ok p => ∃ branches, Branches text branches ∧ nestingAll branches ≤ limit ∧
        p = ofBranches branches
    | .error e => Scan.start.run startsBranch limit text = .error e := by
  have hmeets : Scan.start.Meets (Cursor.start text) := ⟨rfl, rfl, fun _ _ => rfl⟩
  have h := readBranches_agrees limit (Cursor.start text) (Nat.zero_le limit)
  rw [read]
  cases hread : readBranches limit (Cursor.start text) with
  | error e =>
    rw [hread] at h
    exact h _ hmeets
  | ok reading =>
    rw [hread] at h
    rcases h with ⟨s, hpass, ⟨hs, hdepth⟩, hstop⟩
    rw [show (Cursor.start text).depth = 0 from rfl, Nat.zero_add] at hdepth
    have hrest : text = s ++ reading.next.rest := hpass.rest
    simp only
    by_cases hend : reading.next.rest.isEmpty = true
    · rw [if_pos hend]
      rw [List.isEmpty_iff.1 hend, List.append_nil] at hrest
      exact ⟨reading.value, hrest ▸ hs, hdepth, rfl⟩
    -- something is left, and it begins with a parenthesis that closes no group
    · rw [if_neg hend]
      have hclose : reading.next.peek = some ')' := by
        rcases hstop with hstop | hstop
        · exact absurd (List.isEmpty_iff.2 (Cursor.peek_eq_none_iff.1 hstop)) hend
        · exact hstop
      have hclean : Scan.Clean limit Scan.start s := hs.clean_start hdepth
      have hposition : (s.foldl Scan.next Scan.start).position = reading.next.position := by
        rw [Scan.position_foldl_next, hpass.position]
        rfl
      have hnone : (s.foldl Scan.next Scan.start).opened = [] := hclean.opened
      have hrun : Scan.start.run startsBranch limit text
          = (s.foldl Scan.next Scan.start).run startsBranch limit reading.next.rest := by
        rw [← hclean.run_append, ← hrest]
      show Scan.start.run startsBranch limit text = _
      rw [hrun, Cursor.rest_eq_cons hclose, Scan.run]
      simp [Scan.defect?, hnone, hposition]

/-- A text is read under a limit if and only if the grammar derives it and its groups are not
nested deeper. -/
theorem read_eq_ok_iff {text : List Char} {p : Pattern} :
    read limit text = .ok p ↔ ∃ branches,
      Branches text branches ∧ nestingAll branches ≤ limit ∧ p = ofBranches branches := by
  constructor
  · intro h
    have hagrees := read_agrees limit text
    rw [h] at hagrees
    exact hagrees
  · rintro ⟨branches, hbranches, hdepth, rfl⟩
    exact read_of_branches hbranches hdepth

/-- Within the limit on the length, parsing is reading. -/
theorem parse_eq_read {options : Options} {pattern : String}
    (h : pattern.length ≤ options.maxLength) :
    parse options pattern = read options.maxDepth pattern.toList :=
  if_neg (Nat.not_lt.2 h)

/-- A pattern is parsed if and only if it is short enough and the grammar derives it with groups
that are not nested too deep. -/
theorem parse_eq_ok_iff {options : Options} {pattern : String} {p : Pattern} :
    parse options pattern = .ok p ↔ pattern.length ≤ options.maxLength ∧ ∃ branches,
      Branches pattern.toList branches ∧ nestingAll branches ≤ options.maxDepth ∧
        p = ofBranches branches := by
  by_cases hlength : pattern.length ≤ options.maxLength
  · rw [parse_eq_read hlength, read_eq_ok_iff]
    exact (and_iff_right hlength).symm
  · constructor
    · intro h
      rw [parse, if_pos (Nat.not_le.1 hlength)] at h
      cases h
    · intro h
      exact absurd h.1 hlength

/-- A text has one list of branches at most. -/
theorem Branches.unique {text : List Char} {branches branches' : List Pattern}
    (h : Branches text branches) (h' : Branches text branches') : branches = branches' := by
  obtain ⟨reading, hok, hvalue, _⟩ := readBranches_of_branches h (passes_whole text) (.inl rfl)
    (Nat.add_le_add_left (Nat.le_max_left _ (nestingAll branches')) 0)
  obtain ⟨reading', hok', hvalue', _⟩ := readBranches_of_branches h' (passes_whole text) (.inl rfl)
    (Nat.add_le_add_left (Nat.le_max_right (nestingAll branches) _) 0)
  rw [hok] at hok'
  cases hok'
  rw [← hvalue, ← hvalue']

end Pattern

end PatternGraph
