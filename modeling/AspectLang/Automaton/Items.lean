import AspectLang.Automaton.First

/-! # Item sets

An item is a production with a dot in its right side.  A state of the automaton is known by
its kernel, the sorted items that its incoming edges produce; the other items of the state
are those of productions that can start at a dot.  `Grammar.itemGraph` explores the kernels
that can be reached from the start. -/

namespace AspectLang

/-- A production with the number of symbols before its dot. -/
structure Item where
  production : Nat
  dot : Nat
deriving DecidableEq, Inhabited, Repr

namespace Item

/-- Items in order of production, then of dot. -/
def le (a b : Item) : Bool :=
  a.production < b.production || (a.production == b.production && a.dot ≤ b.dot)

/-- The item after its next symbol. -/
def advance (i : Item) : Item := ⟨i.production, i.dot + 1⟩

end Item

namespace Symbol

/-- Number of a symbol: terminals by column, then nonterminals. -/
def key : Symbol → Nat
  | .terminal k => k.column
  | .nonterminal id => TokenKind.columnCount + 1 + id

end Symbol

namespace Grammar

/-- The right side of a production. -/
def rhsOf (g : Grammar) (p : Nat) : List Symbol :=
  match g.productions[p]? with
  | some production => production.rhs
  | none => []

/-- The symbol after the dot. -/
def next? (g : Grammar) (i : Item) : Option Symbol := (g.rhsOf i.production)[i.dot]?

/-- The productions of each nonterminal, in order. -/
def byLhs (g : Grammar) : Array (List Nat) :=
  (List.range g.productions.size).foldr
    (fun p table => table.modify (g.productions.getD p default).lhs (p :: ·))
    (Array.replicate g.nonterminals.size [])

/-! ### Closures without lookahead -/

/-- Adds the productions of nonterminals still to visit, each nonterminal once. -/
def expand (g : Grammar) (byLhs : Array (List Nat)) :
    Nat → List Nat → Array Bool → Array Item → Array Item
  | 0, _, _, items => items
  | _ + 1, [], _, items => items
  | fuel + 1, id :: work, seen, items =>
    if seen.getD id true then expand g byLhs fuel work seen items
    else
      let fresh := (byLhs.getD id []).map fun p => Item.mk p 0
      let further := fresh.filterMap fun i =>
        match g.next? i with
        | some (.nonterminal id) => some id
        | _ => none
      expand g byLhs fuel (further ++ work) (seen.setIfInBounds id true) (items ++ fresh)

/-- The nonterminal after an item's dot. -/
def nextNonterminal? (g : Grammar) (i : Item) : Option Nat :=
  match g.next? i with
  | some (.nonterminal id) => some id
  | _ => none

/-- The items of a state with a given kernel.  Every production puts at most one nonterminal
on the list of those to visit, which bounds the visits. -/
def closure (g : Grammar) (byLhs : Array (List Nat)) (kernel : List Item) : List Item :=
  (g.expand byLhs (kernel.length + g.productions.size + 1)
    (kernel.filterMap g.nextNonterminal?)
    (Array.replicate g.nonterminals.size false) kernel.toArray).toList

/-! ### Kernels and edges -/

/-- The kernel that a symbol leads to from a state with the given items. -/
def successor (g : Grammar) (items : List Item) (s : Symbol) : List Item :=
  (((items.filter fun i => g.next? i = some s).map Item.advance).mergeSort Item.le).eraseDups

/-- The symbols after the dots of items, in order. -/
def nextSymbols (g : Grammar) (items : List Item) : List Symbol :=
  ((items.filterMap g.next?).eraseDups).mergeSort fun a b => a.key ≤ b.key

/-- The kernels found so far and the edges of those that were explored.  Edges are kept by
the number of their symbol. -/
structure ItemGraph where
  kernels : Array (List Item)
  edges : Array (Array (Option Nat))
deriving Inhabited

/-- The number of a kernel, which is new if it was not found before. -/
def internKernel (kernels : Array (List Item)) (kernel : List Item) : Nat × Array (List Item) :=
  match kernels.idxOf? kernel with
  | some target => (target, kernels)
  | none => (kernels.size, kernels.push kernel)

/-- Adds the edges for symbols of one state. -/
def addEdges (g : Grammar) (items : List Item) :
    List Symbol → Array (List Item) → Array (Option Nat) → Array (List Item) × Array (Option Nat)
  | [], kernels, row => (kernels, row)
  | s :: rest, kernels, row =>
    let (target, kernels) := internKernel kernels (g.successor items s)
    g.addEdges items rest kernels (row.setIfInBounds s.key (some target))

/-- Explores kernels from number `state` on. -/
def explore (g : Grammar) (byLhs : Array (List Nat)) : Nat → Nat → ItemGraph → ItemGraph
  | 0, _, graph => graph
  | fuel + 1, state, graph =>
    match graph.kernels[state]? with
    | none => graph
    | some kernel =>
      let items := g.closure byLhs kernel
      let width := TokenKind.columnCount + 1 + g.nonterminals.size
      let (kernels, row) :=
        g.addEdges items (g.nextSymbols items) graph.kernels (Array.replicate width none)
      g.explore byLhs fuel (state + 1) ⟨kernels, graph.edges.push row⟩

/-- Number of items of a grammar. -/
def itemCount (g : Grammar) : Nat :=
  g.productions.foldl (fun n p => n + p.rhs.length + 1) 0

/-- The kernels that can be reached from the start, with their edges.  There are no more
kernels than sets of items. -/
def itemGraph (g : Grammar) : ItemGraph :=
  g.explore g.byLhs (Nat.pow 2 g.itemCount + 1) 0 ⟨#[[⟨0, 0⟩]], #[]⟩

end Grammar

end AspectLang
