import AspectLang.Automaton.Tables

/-! # States in breadth-first order

The numbers of states depend on how the automaton was explored.  `Tables.breadthFirst` numbers
them as a search from the start state meets them, so that tables of the same automaton can be
compared. -/

namespace AspectLang

namespace Row

/-- The states to which a row leads: by shifts in column order, then by nonterminals. -/
def successors (r : Row) : List Nat :=
  (r.actions.toList.filterMap fun
    | .shift target => some target
    | _ => none) ++ r.gotos.toList.filterMap id

/-- The row with other numbers for states. -/
def renumber (number : Nat → Nat) (r : Row) : Row where
  actions := r.actions.map fun
    | .shift target => .shift (number target)
    | action => action
  gotos := r.gotos.map fun target => target.map number

end Row

namespace Tables

/-- Adds states to an order, each only once. -/
def addStates (order : Array Nat) (states : List Nat) : Array Nat :=
  states.foldl (fun order state => if order.contains state then order else order.push state) order

/-- Goes on with the state at place `i` of the order found so far. -/
def orderFrom (t : Tables) : (gas i : Nat) → (order : Array Nat) → Array Nat
  | 0, _, order => order
  | gas + 1, i, order =>
    match order[i]? with
    | none => order
    | some state => t.orderFrom gas (i + 1) (addStates order (t.rows.getD state default).successors)

/-- The states in the order in which a breadth-first search meets them. -/
def breadthFirstOrder (t : Tables) : Array Nat := t.orderFrom t.rows.size 0 #[0]

/-- The tables with the states in breadth-first order. -/
def breadthFirst (t : Tables) : Tables :=
  let order := t.breadthFirstOrder
  { t with rows := order.map fun state =>
      (t.rows.getD state default).renumber fun target => (order.idxOf? target).getD target }

end Tables

end AspectLang
