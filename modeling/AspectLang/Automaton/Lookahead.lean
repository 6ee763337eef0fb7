import AspectLang.Automaton.Items

/-! # Lookaheads

An item with a lookahead set is one that may be completed before a terminal of the set.
`GrammarIndex.closure` adds to a kernel the items that can start at its dots, with the terminals
that may follow them.  Every kernel item is probed: in the closure of the item with a mark for its
lookahead set, the terminals that an item has may follow it in any case, and where the mark has
come to, the set of the item that was probed is handed on.  `GrammarIndex.lookaheads` merges these
terminals and hands sets on until nothing changes, which merges the canonical item sets with the
same kernel. -/

namespace AspectLang

namespace KindSet

/-- The set of a mark, a column behind those of all terminals. -/
def mark : KindSet := 1 <<< TokenKind.columnCount

/-- Whether a set has the mark. -/
def isMarked (s : KindSet) : Bool := s.has TokenKind.columnCount

/-- The terminals of a set, whose columns come before that of the mark. -/
def unmarked (s : KindSet) : KindSet := s % mark

end KindSet

/-- An item with the terminals that may follow its production. -/
structure LookaheadItem where
  item : Item
  follow : KindSet
deriving DecidableEq, Inhabited, Repr

/-- A closure in progress: the items in order of discovery, and the place of the item at the
start of each production. -/
structure ClosureState where
  items : Array LookaheadItem
  places : Array (Option Nat)

namespace ClosureState

/-- Adds the start of a production with a lookahead set, and gives its place if the set of
the item grew. -/
def add (c : ClosureState) (production : Nat) (follow : KindSet) : ClosureState × Option Nat :=
  match c.places.getD production none with
  | some place =>
    let old := (c.items.getD place default).follow
    let merged := old ||| follow
    if merged = old then (c, none)
    else ({ c with items := c.items.modify place fun i => { i with follow := merged } }, some place)
  | none =>
    let place := c.items.size
    ({ items := c.items.push ⟨⟨production, 0⟩, follow⟩
       places := c.places.setIfInBounds production (some place) }, some place)

/-- Adds the starts of productions; what grew is put on the list of places to visit. -/
def addAll (c : ClosureState) (follow : KindSet) : List Nat → List Nat → ClosureState × List Nat
  | [], work => (c, work)
  | p :: rest, work =>
    match c.add p follow with
    | (c, none) => c.addAll follow rest work
    | (c, some place) => c.addAll follow rest (place :: work)

end ClosureState

/-- A grammar with what the construction of its tables looks up again and again. -/
structure GrammarIndex where
  grammar : Grammar
  byLhs : Array (List Nat)
  firstSets : FirstSets

namespace GrammarIndex

/-- The index of a grammar. -/
def of (g : Grammar) : GrammarIndex := ⟨g, g.byLhs, g.firstSets⟩

/-- Visits places, the most recent first, until no set grows. -/
def closeFrom (x : GrammarIndex) : Nat → List Nat → ClosureState → ClosureState
  | 0, _, c => c
  | _ + 1, [], c => c
  | fuel + 1, place :: work, c =>
    let ⟨item, follow⟩ := c.items.getD place default
    match (x.grammar.rhsOf item.production).drop item.dot with
    | .nonterminal id :: rest =>
      let (c, work) := c.addAll (x.firstSets.ofSymbolsThen rest follow) (x.byLhs.getD id []) work
      x.closeFrom fuel work c
    | _ => x.closeFrom fuel work c

/-- The items of a state whose kernel has the given lookaheads, in order of discovery.  A
place is visited only after its set grew, which bounds the visits. -/
def closure (x : GrammarIndex) (kernel : List LookaheadItem) : Array LookaheadItem :=
  let places := (kernel.zipIdx).foldl
    (fun places (i, place) =>
      if i.item.dot = 0 then places.setIfInBounds i.item.production (some place) else places)
    (Array.replicate x.grammar.productions.size none)
  let bound := (kernel.length + x.grammar.productions.size) * (TokenKind.columnCount + 2)
  (x.closeFrom bound (List.range kernel.length).reverse ⟨kernel.toArray, places⟩).items

/-! ### Probes -/

/-- A kernel with its lookahead sets. -/
def withFollow (kernel : List Item) (follow : List KindSet) : List LookaheadItem :=
  kernel.zipWith LookaheadItem.mk follow

/-- What the probe of a kernel item tells of one item of its closure: the place of the item that
this one advances to, and what may follow it.  The mark stands for all that may follow the item
that is probed. -/
structure Finding where
  state : Nat
  place : Nat
  target : Nat
  targetPlace : Nat
  follow : KindSet
deriving DecidableEq, Inhabited, Repr

/-- What the probe of one kernel item tells. -/
def probe (x : GrammarIndex) (graph : Grammar.ItemGraph) (state : Nat) (item : Item) (place : Nat) :
    List Finding :=
  let row := graph.edges.getD state #[]
  (x.closure [⟨item, .mark⟩]).toList.filterMap fun i =>
    match x.grammar.next? i.item with
    | none => none
    | some s =>
      (row.getD s.key none).map fun target =>
        ⟨state, place, target, (graph.kernels.getD target []).idxOf i.item.advance, i.follow⟩

/-- What the probes of all kernel items tell, in order. -/
def findings (x : GrammarIndex) (graph : Grammar.ItemGraph) : List Finding :=
  (List.range graph.kernels.size).flatMap fun state =>
    (graph.kernels.getD state []).zipIdx.flatMap fun (item, place) =>
      x.probe graph state item place

/-! ### Lookahead sets -/

/-- The lookahead set of a kernel item. -/
def setAt (sets : Array (List KindSet)) (state place : Nat) : KindSet :=
  (sets.getD state []).getD place 0

/-- Merges a set into the lookahead set of a kernel item. -/
def mergeAt (sets : Array (List KindSet)) (state place : Nat) (follow : KindSet) :
    Array (List KindSet) :=
  sets.modify state fun own => own.modify place (· ||| follow)

/-- Merges for each finding, in order, a set into that of the item it leads to. -/
def mergeEach (give : Array (List KindSet) → Finding → KindSet) (findings : List Finding)
    (sets : Array (List KindSet)) : Array (List KindSet) :=
  findings.foldl (fun sets f => mergeAt sets f.target f.targetPlace (give sets f)) sets

/-- The set of the item that was probed, which the mark stands for. -/
def givenOn (sets : Array (List KindSet)) (f : Finding) : KindSet := setAt sets f.state f.place

/-- Hands sets on in rounds until one changes nothing, in at most `fuel` rounds. -/
def handOn (links : List Finding) : Nat → Array (List KindSet) → Array (List KindSet)
  | 0, sets => sets
  | fuel + 1, sets =>
    let next := mergeEach givenOn links sets
    if next = sets then sets else handOn links fuel next

/-- Before all probes only the start has a lookahead set: the end of input. -/
def startSets (graph : Grammar.ItemGraph) : Array (List KindSet) :=
  mergeAt (graph.kernels.map fun kernel => kernel.map fun _ => 0) 0 0 (KindSet.ofKind .eof)

/-- The lookahead sets of the kernel items of every state.  The terminals of all findings are merged
first; then findings with the mark hand on the set of the item that was probed.  A round that changes
something adds a bit, so there are no more rounds than bits. -/
def lookaheads (x : GrammarIndex) (graph : Grammar.ItemGraph) : Array (List KindSet) :=
  let findings := x.findings graph
  let bits := graph.kernels.foldl (fun n kernel => n + kernel.length) 0 * TokenKind.columnCount
  handOn (findings.filter fun f => f.follow.isMarked) (bits + 1)
    (mergeEach (fun _ f => f.follow.unmarked) findings (startSets graph))

end GrammarIndex

end AspectLang
