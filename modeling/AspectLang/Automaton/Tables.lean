import AspectLang.Automaton.Lookahead

/-! # Parse tables

The states of the automaton propose actions: a shift for each edge with a terminal, and for
each completed item a reduction before each terminal of its lookahead set, or acceptance for
the start production at the end of input.  `Slot.place` decides between proposals for the same
state and terminal: a shift wins over reductions, and of two reductions the one with the lower
number wins.  Such decisions are counted. -/

namespace AspectLang

/-- What the automaton does in a state before a terminal. -/
inductive Action where
  | error
  | shift (target : Nat)
  | reduce (production : Nat)
  | accept
deriving DecidableEq, Inhabited, Repr

/-- Numbers of decisions between proposals. -/
structure Conflicts where
  shiftReduce : Nat := 0
  reduceReduce : Nat := 0
deriving DecidableEq, Inhabited, Repr

/-- The row of a state: its actions by column, and where nonterminals lead. -/
structure Row where
  actions : Array Action
  gotos : Array (Option Nat)
deriving DecidableEq, Inhabited, Repr

/-- Sizes of the tables and numbers of decisions. -/
structure TableSummary where
  states : Nat
  productions : Nat
  terminals : Nat
  nonterminals : Nat
  conflicts : Conflicts
deriving DecidableEq, Inhabited, Repr

/-- The statistics in words. -/
def TableSummary.render (s : TableSummary) : String :=
  s!"{s.states} states, {s.productions} productions, {s.terminals} terminals, " ++
    s!"{s.nonterminals} nonterminals, {s.conflicts.shiftReduce} shift/reduce and " ++
    s!"{s.conflicts.reduceReduce} reduce/reduce conflicts resolved"

/-- The tables of an automaton. -/
structure Tables where
  rows : Array Row
  stats : TableSummary
deriving DecidableEq, Inhabited, Repr

namespace Tables

/-- The action in a state before a terminal. -/
def action (t : Tables) (state : Nat) (kind : TokenKind) : Action :=
  match t.rows[state]? with
  | some row => row.actions.getD kind.column .error
  | none => .error

/-- Where a nonterminal leads from a state. -/
def goto? (t : Tables) (state nonterminal : Nat) : Option Nat :=
  match t.rows[state]? with
  | some row => row.gotos.getD nonterminal none
  | none => none

/-- The terminals before which a state has an action, in column order. -/
def expected (t : Tables) (state : Nat) : List TokenKind :=
  TokenKind.all.filter fun kind => t.action state kind != .error

end Tables

/-! ### Filling the tables -/

/-- Decides between what a slot holds and a further proposal of a reduction or acceptance. -/
def Action.place (held proposed : Action) (c : Conflicts) : Action × Conflicts :=
  match held with
  | .error => (proposed, c)
  | .shift _ => (held, { c with shiftReduce := c.shiftReduce + 1 })
  | .accept => (held, c)
  | .reduce p =>
    let q := match proposed with
      | .reduce q => q
      | _ => 0
    if p = q then (held, c)
    else (.reduce (min p q), { c with reduceReduce := c.reduceReduce + 1 })

namespace GrammarIndex

/-- The reductions that a state proposes, with their columns, in order. -/
def reductions (x : GrammarIndex) (items : Array LookaheadItem) : List (Nat × Action) :=
  items.toList.flatMap fun i =>
    if i.item.dot < (x.grammar.rhsOf i.item.production).length then []
    else (KindSet.columns i.follow TokenKind.columnCount).map fun column =>
      (column, if i.item.production = 0 ∧ column = TokenKind.eof.column then .accept
        else .reduce i.item.production)

/-- The shifts of a state by column. -/
def shifts (row : Array (Option Nat)) : Array Action :=
  (row.extract 0 TokenKind.columnCount).map fun
    | some target => .shift target
    | none => .error

/-- Where nonterminals lead from a state. -/
def gotos (row : Array (Option Nat)) : Array (Option Nat) :=
  row.extract (TokenKind.columnCount + 1) row.size

/-- Puts proposals into the actions of a state, one after the other. -/
def placeAll (actions : Array Action) (c : Conflicts) :
    List (Nat × Action) → Array Action × Conflicts
  | [] => (actions, c)
  | (column, proposed) :: rest =>
    let (chosen, c) := (actions.getD column .error).place proposed c
    placeAll (actions.setIfInBounds column chosen) c rest

/-- The row of a state, and the decisions so far. -/
def row (x : GrammarIndex) (graph : Grammar.ItemGraph) (sets : Array (List KindSet)) (state : Nat)
    (c : Conflicts) : Row × Conflicts :=
  let edges := graph.edges.getD state #[]
  let items := x.closure (withFollow (graph.kernels.getD state []) (sets.getD state []))
  let (actions, c) := placeAll (shifts edges) c (x.reductions items)
  (⟨actions, gotos edges⟩, c)

/-- The tables of a grammar. -/
def tables (x : GrammarIndex) : Tables :=
  let graph := x.grammar.itemGraph
  let sets := x.lookaheads graph
  let (rows, conflicts) := (List.range graph.kernels.size).foldl
    (fun (rows, c) state =>
      let (row, c) := x.row graph sets state c
      (rows.push row, c))
    ((#[] : Array Row), ({} : Conflicts))
  { rows
    stats := {
      states := graph.kernels.size
      productions := x.grammar.productions.size
      terminals := TokenKind.columnCount
      nonterminals := x.grammar.nonterminals.size
      conflicts } }

end GrammarIndex

/-- The tables of a grammar; a grammar without productions has none. -/
def Tables.ofGrammar (g : Grammar) : Except GrammarFault Tables :=
  if g.productions.isEmpty then .error .noProductions else .ok (GrammarIndex.of g).tables

end AspectLang
