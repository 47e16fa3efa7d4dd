import PatternGraph.Proofs.Automaton.Growth

/-!
# Stores — operations as calls on one automaton that is changed in place

`Automaton.addEdge` yields a new automaton or an error, so that where it refuses nothing can be
spoiled. In a store the one automaton is changed step by step, and what a call has changed by the
time it fails stays changed.

1. `Operation.call` takes the steps of an operation in their order: it looks its states up, then
   changes one of them, and the row of an edge's symbol is there before the target is in it.
2. `Operation.exec_call` says that a call leaves in the store what the operation yields, and the
   stored automaton as it was where the operation is refused. `Store.after_eq_grow` follows.
3. `Operation.result_of_unknown` and `WellFormed.result_of_known` say which of the two it is: an
   operation is refused for the first state that it looks up in vain.
4. `store_wellFormed_and_calls_atomic` says so of every store that calls can make, together with the
   representation invariant.
-/

namespace PatternGraph

/-! ## A target in two steps -/

/-- The rows with a row for a symbol. Where there is none yet, one without targets goes to its place
in the order. -/
def Row.openFor (symbol : Symbol) : List Row → List Row
  | [] => [⟨symbol, ∅⟩]
  | row :: rows =>
    if rank symbol < rank row.symbol then ⟨symbol, ∅⟩ :: row :: rows
    else if symbol = row.symbol then row :: rows
    else row :: openFor symbol rows

/-- The rows with one target more in the row of a symbol. -/
def Row.putTarget (symbol : Symbol) (target : StateId) : List Row → List Row
  | [] => []
  | row :: rows =>
    if symbol = row.symbol then { row with targets := row.targets.insert target } :: rows
    else row :: putTarget symbol target rows

/-- To open a row and to put a target into it is to insert an edge. -/
theorem Row.putTarget_openFor (s : Symbol) (q : StateId) (rows : List Row) :
    putTarget s q (openFor s rows) = insertEdge s q rows := by
  induction rows with
  | nil =>
    rw [openFor, putTarget, if_pos rfl]
    rfl
  | cons row rows ih =>
    unfold openFor insertEdge
    by_cases hlt : rank s < rank row.symbol
    · rw [if_pos hlt, if_pos hlt, putTarget, if_pos rfl]
      rfl
    · rw [if_neg hlt, if_neg hlt]
      by_cases hsame : s = row.symbol
      · rw [if_pos hsame, if_pos hsame, putTarget, if_pos hsame]
      · rw [if_neg hsame, if_neg hsame, putTarget, if_neg hsame, ih]

namespace State

/-- The state with a row for a symbol. -/
def openRow (state : State) (symbol : Symbol) : State :=
  { state with rows := Row.openFor symbol state.rows }

/-- The state with one target more in the row of a symbol. -/
def putTarget (state : State) (symbol : Symbol) (target : StateId) : State :=
  { state with rows := Row.putTarget symbol target state.rows }

/-- The two changes of a state that a call makes come to the insertion of an edge. -/
theorem putTarget_openRow (state : State) (s : Symbol) (q : StateId) :
    (state.openRow s).putTarget s q = state.insertEdge s q := by
  unfold openRow putTarget insertEdge
  rw [Row.putTarget_openFor]

end State

namespace Automaton

/-! ## Calls on a store -/

/-- A computation on a stored automaton. A failure does not undo what was changed before it. -/
abbrev Store (α : Type) := ExceptT UnknownState (StateM Automaton) α

namespace Store

/-- What a computation returns on a stored automaton, and the automaton that it leaves behind. -/
def exec {α : Type} (x : Store α) (a : Automaton) : Except UnknownState α × Automaton :=
  (x.run.run a).run

/-- Fails for a state that the automaton does not have. -/
def check (id : StateId) : Store Unit := do
  let a ← get
  if id < a.size then pure () else throw ⟨id⟩

/-- Changes a state in place. -/
def change (id : StateId) (f : State → State) : Store Unit :=
  modify fun a => { a with states := a.states.modify id f }

/-- A new state. The counter is moved on before the state is there. -/
def addState : Store StateId := do
  let a ← get
  set { a with nextId := a.nextId + 1 }
  modify fun b => { b with states := b.states.push (State.fresh a.nextId) }
  pure a.nextId

/-- A new edge. The target is looked up before the source. -/
def addEdge (source : StateId) (symbol : Symbol) (target : StateId) : Store Unit := do
  check target
  check source
  change source (·.openRow symbol)
  change source (·.putTarget symbol target)

/-- A final mark. -/
def setFinal (id : StateId) : Store Unit := do
  check id
  change id State.setFinal

variable {α β : Type} {x : Store α} {f : α → Store β} {a b : Automaton} {p q id : StateId}
  {s : Symbol}

/-- A computation that returns hands its value and what it leaves in the store to the next one. -/
theorem exec_bind_ok {v : α} (h : x.exec a = (.ok v, b)) : (x >>= f).exec a = (f v).exec b := by
  unfold exec at h ⊢
  simp only [ExceptT.run_bind, StateT.run_bind, Id.run_bind, h]

/-- After a failure nothing more is done, and nothing is undone. -/
theorem exec_bind_error {e : UnknownState} (h : x.exec a = (.error e, b)) :
    (x >>= f).exec a = (.error e, b) := by
  unfold exec at h ⊢
  simp only [ExceptT.run_bind, StateT.run_bind, Id.run_bind, h]
  rfl

/-- A check reads the store and leaves it as it is, whether it fails or not. -/
theorem exec_check (a : Automaton) (id : StateId) :
    (check id).exec a = if id < a.size then (.ok (), a) else (.error ⟨id⟩, a) := by
  show (if id < a.size then pure () else throw ⟨id⟩ : Store Unit).exec a = _
  split
  · rfl
  · rfl

theorem exec_check_of_lt (h : id < a.size) : (check id).exec a = (.ok (), a) := by
  rw [exec_check, if_pos h]

theorem exec_check_of_le (h : a.size ≤ id) : (check id).exec a = (.error ⟨id⟩, a) := by
  rw [exec_check, if_neg (Nat.not_lt.2 h)]

/-- With both states there, a call in place makes the edge. -/
theorem exec_addEdge_of_lt (hp : p < a.size) (hq : q < a.size) :
    (addEdge p s q).exec a = (.ok (), a.withEdge p s q) := by
  unfold addEdge
  rw [exec_bind_ok (exec_check_of_lt hq), exec_bind_ok (exec_check_of_lt hp)]
  -- both changes fall on the source, so they are one
  show (Except.ok (), { a with
    states := (a.states.modify p (·.openRow s)).modify p (·.putTarget s q) }) = _
  have hstates : (a.states.modify p (·.openRow s)).modify p (·.putTarget s q)
      = a.states.modify p (·.insertEdge s q) := by
    apply Array.ext_getElem?
    intro i
    simp only [Array.getElem?_modify]
    split
    · rw [Option.map_map]
      exact congrArg (Option.map · _) (funext fun state => state.putTarget_openRow s q)
    · rfl
  rw [hstates, withEdge]

/-- The target is looked up first, so a missing one is reported whatever the source is. -/
theorem exec_addEdge_of_target (hq : a.size ≤ q) :
    (addEdge p s q).exec a = (.error ⟨q⟩, a) :=
  exec_bind_error (exec_check_of_le hq)

theorem exec_addEdge_of_source (hp : a.size ≤ p) (hq : q < a.size) :
    (addEdge p s q).exec a = (.error ⟨p⟩, a) := by
  unfold addEdge
  rw [exec_bind_ok (exec_check_of_lt hq)]
  exact exec_bind_error (exec_check_of_le hp)

theorem exec_setFinal_of_lt (h : id < a.size) :
    (setFinal id).exec a = (.ok (), a.withFinal id) := by
  unfold setFinal
  rw [exec_bind_ok (exec_check_of_lt h)]
  rfl

theorem exec_setFinal_of_le (h : a.size ≤ id) : (setFinal id).exec a = (.error ⟨id⟩, a) :=
  exec_bind_error (exec_check_of_le h)

end Store

namespace Operation

/-- The call of an operation. A new state returns its identifier, the others return nothing. -/
def call : Operation → Store (Option StateId)
  | addState => do
    let id ← Store.addState
    pure (some id)
  | addEdge source symbol target => do
    Store.addEdge source symbol target
    pure none
  | setFinal id => do
    Store.setFinal id
    pure none

/-- What an operation returns and the automaton that it yields, unless it is refused. -/
def result (a : Automaton) : Operation → Except UnknownState (Option StateId × Automaton)
  | addState => .ok (some a.addState.1, a.addState.2)
  | addEdge source symbol target => (a.addEdge source symbol target).map (none, ·)
  | setFinal id => (a.setFinal id).map (none, ·)

/-- The states that an operation looks up, one after the other. -/
def lookups : Operation → List StateId
  | addState => []
  | addEdge source _ target => [target, source]
  | setFinal id => [id]

/-- The first state that an operation looks up in vain. -/
def unknown? (operation : Operation) (a : Automaton) : Option StateId :=
  operation.lookups.find? (a.size ≤ ·)

/-- The state that an operation makes or changes. -/
def subject (a : Automaton) : Operation → StateId
  | addState => a.size
  | addEdge source _ _ => source
  | setFinal id => id

/-- What an operation returns when it is not refused: a new state its identifier, the others
nothing. -/
def answer (a : Automaton) : Operation → Option StateId
  | addState => some a.size
  | addEdge _ _ _ => none
  | setFinal _ => none

/-- An edge is not refused exactly when the automaton has both of its states. -/
theorem unknown?_addEdge_eq_none_iff {a : Automaton} {p q : StateId} {s : Symbol} :
    (addEdge p s q).unknown? a = none ↔ p < a.size ∧ q < a.size := by
  simp [unknown?, lookups, and_comm]

theorem unknown?_setFinal_eq_none_iff {a : Automaton} {id : StateId} :
    (setFinal id).unknown? a = none ↔ id < a.size := by
  simp [unknown?, lookups]

end Operation

/-! ## Calls and results -/

variable {a b : Automaton} {p q id : StateId} {s : Symbol} {operation : Operation}

/-- What is returned and what is stored once an operation on a stored automaton has its result. -/
def Store.settle (a : Automaton) :
    Except UnknownState (Option StateId × Automaton) →
      Except UnknownState (Option StateId) × Automaton
  | .ok (answer, b) => (.ok answer, b)
  | .error unknown => (.error unknown, a)

/-- A call in place ends as the operation does, and no step of it is left behind where the operation
is refused. -/
theorem Operation.exec_call (operation : Operation) (a : Automaton) :
    operation.call.exec a = Store.settle a (operation.result a) := by
  cases operation with
  | addState => rfl
  | addEdge p s q =>
    rw [call, result]
    -- the target is looked up before the source, in the call as in the operation
    by_cases hq : q < a.size
    · by_cases hp : p < a.size
      · rw [Store.exec_bind_ok (Store.exec_addEdge_of_lt hp hq), addEdge_eq_ok hp hq]
        rfl
      · rw [Store.exec_bind_error (Store.exec_addEdge_of_source (Nat.not_lt.1 hp) hq),
          addEdge_eq_error_source (Nat.not_lt.1 hp) hq]
        rfl
    · rw [Store.exec_bind_error (Store.exec_addEdge_of_target (Nat.not_lt.1 hq)),
        addEdge_eq_error_target (Nat.not_lt.1 hq)]
      rfl
  | setFinal id =>
    rw [call, result]
    by_cases hid : id < a.size
    · rw [Store.exec_bind_ok (Store.exec_setFinal_of_lt hid), setFinal_eq_ok hid]
      rfl
    · rw [Store.exec_bind_error (Store.exec_setFinal_of_le (Nat.not_lt.1 hid)),
        setFinal_eq_error (Nat.not_lt.1 hid)]
      rfl

/-- What an operation yields is what is stored once its result is known: the same automaton where it
is refused. -/
theorem Operation.apply_eq_settle (operation : Operation) (a : Automaton) :
    operation.apply a = (Store.settle a (operation.result a)).2 := by
  cases operation with
  | addState => rfl
  | addEdge p s q =>
    rw [apply, result]
    cases a.addEdge p s q with
    | ok b => rfl
    | error e => rfl
  | setFinal id =>
    rw [apply, result]
    cases a.setFinal id with
    | ok b => rfl
    | error e => rfl

/-- Whether it fails or not, a call leaves behind what the operation yields. -/
theorem Operation.exec_call_snd (operation : Operation) (a : Automaton) :
    (operation.call.exec a).2 = operation.apply a := by
  rw [exec_call, apply_eq_settle]

/-- An operation is refused for the first state that it looks up in vain. -/
theorem Operation.result_of_unknown (h : operation.unknown? a = some id) :
    operation.result a = .error ⟨id⟩ := by
  cases operation with
  | addState => cases h
  | addEdge p s q =>
    rw [result]
    unfold unknown? lookups at h
    by_cases hq : a.size ≤ q
    · rw [List.find?_cons_of_pos (by simpa using hq)] at h
      cases h
      rw [addEdge_eq_error_target hq]
      rfl
    -- the target is there, so it is the source that is looked up in vain
    · rw [List.find?_cons_of_neg (by simpa using hq)] at h
      obtain ⟨rfl, hp⟩ : p = id ∧ a.size ≤ p := by simpa [and_comm] using h
      rw [addEdge_eq_error_source hp (Nat.not_le.1 hq)]
      rfl
  | setFinal q =>
    obtain ⟨rfl, hq⟩ : q = id ∧ a.size ≤ q := by simpa [unknown?, lookups, and_comm] using h
    rw [result, setFinal_eq_error hq]
    rfl

/-- An operation that finds all its states is not refused. -/
theorem WellFormed.result_of_known (ha : a.WellFormed) (h : operation.unknown? a = none) :
    operation.result a = .ok (operation.answer a, operation.apply a) := by
  cases operation with
  | addState =>
    unfold Operation.answer
    rw [← ha.nextId_eq]
    rfl
  | addEdge p s q =>
    obtain ⟨hp, hq⟩ := Operation.unknown?_addEdge_eq_none_iff.1 h
    rw [Operation.result, addEdge_eq_ok hp hq, apply_addEdge, if_pos ⟨hp, hq⟩]
    rfl
  | setFinal id =>
    have hid := Operation.unknown?_setFinal_eq_none_iff.1 h
    rw [Operation.result, setFinal_eq_ok hid, apply_setFinal, if_pos hid]
    rfl

/-! ## What a call leaves alone -/

/-- The automaton `b` has the states of `a` but for one, and it has the edges and the final marks
of `a` without exception. -/
structure ExtendsAt (a b : Automaton) (id : StateId) : Prop where
  state?_eq : ∀ x, x ≠ id → b.state? x = a.state? x
  edges_subset : ∀ edge ∈ a.edges, edge ∈ b.edges
  finals_subset : ∀ q ∈ a.finals, q ∈ b.finals

/-- A new state takes nothing from the states that were there. -/
theorem WellFormed.extendsAt_withState (ha : a.WellFormed) : ExtendsAt a a.withState a.size where
  state?_eq _ hx := state?_withState.trans (if_neg hx)
  edges_subset _ hedge := ha.hasEdge_withState.2 hedge
  finals_subset _ hq :=
    ha.withState.mem_finals.2 (isFinal_withState.trans (ha.mem_finals.1 hq))

/-- An edge changes the row of its source alone, and the edges that were there stay. -/
theorem WellFormed.extendsAt_withEdge (ha : a.WellFormed) (hp : p < a.size) (hq : q < a.size) :
    ExtendsAt a (a.withEdge p s q) p where
  state?_eq _ hx := state?_withEdge.trans (if_neg hx.symm)
  edges_subset _ hedge := (ha.hasEdge_withEdge hp hq).2 (.inr hedge)
  finals_subset _ hx :=
    (ha.withEdge hq).mem_finals.2 (isFinal_withEdge.trans (ha.mem_finals.1 hx))

theorem WellFormed.extendsAt_withFinal (ha : a.WellFormed) (hid : id < a.size) :
    ExtendsAt a (a.withFinal id) id where
  state?_eq _ hx := state?_withFinal.trans (if_neg hx.symm)
  edges_subset _ hedge := ha.hasEdge_withFinal.2 hedge
  finals_subset _ hx :=
    ha.withFinal.mem_finals.2 ((isFinal_withFinal hid).2 (.inr (ha.mem_finals.1 hx)))

/-- An operation that is not refused changes the one state that it names. -/
theorem WellFormed.extendsAt_apply (ha : a.WellFormed) (h : operation.unknown? a = none) :
    ExtendsAt a (operation.apply a) (operation.subject a) := by
  cases operation with
  | addState => exact ha.extendsAt_withState
  | addEdge p s q =>
    have hlt := Operation.unknown?_addEdge_eq_none_iff.1 h
    rw [apply_addEdge, if_pos hlt]
    exact ha.extendsAt_withEdge hlt.1 hlt.2
  | setFinal id =>
    have hlt := Operation.unknown?_setFinal_eq_none_iff.1 h
    rw [apply_setFinal, if_pos hlt]
    exact ha.extendsAt_withFinal hlt

/-- The two ways in which an operation and its call may end on a stored automaton. -/
structure Operation.Atomic (operation : Operation) (a : Automaton) : Prop where
  /-- It is refused for the first state that it looks up in vain, and leaves no trace. -/
  fails : ∀ id, operation.unknown? a = some id →
    operation.result a = .error ⟨id⟩ ∧ operation.call.exec a = (.error ⟨id⟩, a)
  /-- It returns, and one state has changed at most. -/
  returns : operation.unknown? a = none →
    ∃ b, operation.result a = .ok (operation.answer a, b) ∧
      operation.call.exec a = (.ok (operation.answer a), b) ∧ ExtendsAt a b (operation.subject a)

/-- Which of the two ways a call ends is decided by the states that the operation looks up. -/
theorem WellFormed.atomic (ha : a.WellFormed) (operation : Operation) : operation.Atomic a where
  fails id h := by
    have hresult := Operation.result_of_unknown h
    refine ⟨hresult, ?_⟩
    rw [operation.exec_call, hresult, Store.settle]
  returns h := by
    have hresult := ha.result_of_known h
    refine ⟨operation.apply a, hresult, ?_, ha.extendsAt_apply h⟩
    rw [operation.exec_call, hresult, Store.settle]

/-! ## Any sequence of calls -/

/-- The automaton that a list of calls leaves in a store that was empty, whatever they return. -/
def Store.after (operations : List Operation) : Automaton :=
  operations.foldl (fun a operation => (operation.call.exec a).2) ∅

/-- Calls on a store make what the operations make one after the other, since a call that fails
leaves the automaton as an operation that is refused does. -/
theorem Store.after_eq_grow (operations : List Operation) : after operations = grow operations := by
  unfold after grow
  congr 1
  funext a operation
  exact operation.exec_call_snd a

/-- Whatever was called on a store that was empty, there is in it what the operations make, and that
is well formed. A state has a row exactly where it has an edge, and the next call fails without a
trace or changes the one state that it names. -/
theorem store_wellFormed_and_calls_atomic (operations : List Operation) :
    let a := Store.after operations
    a = grow operations ∧ a.WellFormed ∧
    (∀ q, a.hasEdges q = true ↔ ∃ edge ∈ a.edges, edge.source = q) ∧
    ∀ operation : Operation, operation.Atomic a := by
  intro a
  have hgrow : a = grow operations := Store.after_eq_grow operations
  have ha : a.WellFormed := by
    rw [hgrow]
    exact wellFormed_grow operations
  refine ⟨hgrow, ha, fun q => ?_, fun operation => ha.atomic operation⟩
  rw [ha.hasEdges_iff]
  constructor
  · rintro ⟨s, p, hedge⟩
    exact ⟨_, hedge, rfl⟩
  · rintro ⟨⟨p, s, t⟩, hedge, rfl⟩
    exact ⟨s, t, hedge⟩

/-- An edge between two unknown states is refused for its target, and no row is left open for it. -/
example : (Operation.addEdge 2 (.char 'a') 1).call.exec (Store.after [.addState])
    = (.error ⟨1⟩, Store.after [.addState]) := by
  rfl

end Automaton

end PatternGraph
