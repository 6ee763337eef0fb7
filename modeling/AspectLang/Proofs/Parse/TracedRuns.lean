import AspectLang.Proofs.Automaton.Tracing
import AspectLang.Proofs.Parse.AngleBrackets
import AspectLang.Proofs.Parse.HeadDeclarations
import AspectLang.Proofs.Parse.Courses

/-! # Runs on given texts

The tables of the language are too large to compute with, but a stack of views follows the machine
on a given text without them (`Outlook.turn?`).  `Language.outlook` is the outlook on the grammar of
the language, and `Outlook.quiet` reads kinds to the end.  Where it succeeds, a machine with these
kinds left never looks for a repair, whatever its actions do (`Machine.seeksRepair_of_quiet`). -/

namespace AspectLang

/-- Whether the next turn before a kind is known to shift it or to reduce. -/
def Outlook.goesOn (o : Outlook) (k : TokenKind) (views : List View) : Bool :=
  match o.turn? k views with
  | some (.shifted _) | some (.reduced _ true _) => true
  | _ => false

/-- Whether a kind is a shift operator that can be split here, and its halves pass a check. -/
def Outlook.splits (o : Outlook) (k : TokenKind) (views : List View)
    (check : TokenKind → TokenKind → Bool) : Bool :=
  match k.halves? with
  | some (first, rest) => o.goesOn first views && check first rest
  | none => false

theorem Outlook.exists_of_splits {o : Outlook} {k : TokenKind} {views : List View}
    {check : TokenKind → TokenKind → Bool} (h : o.splits k views check = true) :
    ∃ first rest, k.halves? = some (first, rest) ∧ o.goesOn first views = true ∧
      check first rest = true := by
  unfold splits at h
  split at h
  · rename_i first rest hhalves
    obtain ⟨hgoes, hcheck⟩ := Bool.and_eq_true_iff.mp h
    exact ⟨first, rest, hhalves, hgoes, hcheck⟩
  · cases h

/-- Whether the kinds are read up to acceptance.  A shift operator that does not fit is split where a
closing bracket goes on, and where it is not sure whether it fits, the kinds are read both ways. -/
def Outlook.quiet (o : Outlook) : (gas : Nat) → List TokenKind → List View → Bool
  | gas + 1, k :: kinds, views =>
    match o.turn? k views with
    | some (.shifted views) => quiet o gas kinds views
    | some (.reduced _ sure next) =>
      (sure || o.splits k views fun first rest => quiet o gas (first :: rest :: kinds) views) &&
        quiet o gas (k :: kinds) next
    | some .accepted => true
    | some .rejected =>
      o.splits k views fun first rest => quiet o gas (first :: rest :: kinds) views
    | none => false
  | _, _, _ => false

/-- Whether no repair is known to be read before a kind with another one behind it: no insertion goes
on before the kind, and nothing goes on before the other one. -/
def Outlook.mendsNot (o : Outlook) (kind next : TokenKind) (views : List View) : Bool :=
  (Automaton.insertionKinds.all fun k => o.reads? [k, kind] views == some false) &&
    o.reads? [next] views == some false

namespace Language

open Grammar GrammarIndex

/-! ### The outlook on the language -/

/-- The productions of sections of rules with their numbers, from `start` on. -/
def numberSections : List (List Rule) → (start : Nat) → List (List (Production × Nat))
  | [], _ => []
  | rules :: rest, start =>
    (rules.map Rule.production).zipIdx start :: numberSections rest (start + rules.length)

theorem flatten_numberSections (sections : List (List Rule)) (start : Nat) :
    (numberSections sections start).flatten =
      (sections.flatten.map Rule.production).zipIdx start := by
  induction sections generalizing start with
  | nil => rfl
  | cons rules rest ih =>
      rw [numberSections, List.flatten_cons, ih, List.flatten_cons, List.map_append,
        List.zipIdx_append, List.length_map]

/-- The sections of rules before those for expressions. -/
def earlySections : List (List Rule) :=
  [unitRules, typeRules, modifierRules, declarationRules, statementRules]

/-- The sections of rules after those for expressions. -/
def lateSections : List (List Rule) :=
  [aspectRules, pointcutRules, adviceRules, declareRules, interTypeRules, pseudoTokenRules]

/-- The productions with their numbers, by sections.  Those of expressions come last and the widest of
them first, so that one pass over all productions carries what is known of a left side far down. -/
@[irreducible]
def blocks : List (List (Production × Nat)) :=
  let start := earlySections.flatten.length
  numberSections earlySections 0 ++ numberSections lateSections (start + expressionRules.length) ++
    [((expressionRules.map Rule.production).zipIdx start).reverse]

/-- All productions, in the order of the blocks. -/
def ordered : List Production := blocks.flatten.map Prod.fst

theorem mem_blocks {x : Production × Nat} :
    (∃ block ∈ blocks, x ∈ block) ↔ grammar.productions[x.2]? = some x.1 := by
  have hrules : rules = earlySections.flatten ++ (expressionRules ++ lateSections.flatten) := by
    simp only [rules, earlySections, lateSections, List.flatten_cons, List.flatten_nil,
      List.append_assoc, List.append_nil]
  rw [← List.mem_flatten, blocks, List.flatten_append, List.flatten_append, flatten_numberSections,
    flatten_numberSections, List.flatten_singleton, List.mem_append, List.mem_append,
    List.mem_reverse, ← Array.getElem?_toList, productions_toList, productions,
    ← List.mem_zipIdx_iff_getElem?, hrules, List.map_append, List.map_append, List.zipIdx_append,
    List.zipIdx_append, List.mem_append, List.mem_append, List.length_map, List.length_map,
    Nat.zero_add, or_assoc, or_comm (a := x ∈ List.zipIdx (expressionRules.map _) _)]

/-- Lanes for the first sets of the language. -/
@[irreducible]
def firstLanes : Lanes := (Lanes.growFirst ordered.reverse)^[5] 0

/-- Lanes for the follow sets of the language. -/
@[irreducible]
def followLanes : Lanes :=
  (Lanes.growFollow firstLanes ordered)^[3]
    (Lanes.join 0 Nonterminal.goal.index (KindSet.ofKind .eof))

theorem lanes_settle : (Lanes.firstSettled productions firstLanes &&
    Lanes.followSettled firstLanes Nonterminal.goal.index productions followLanes) = true := by
  decide +kernel

theorem derives_firstLanes : Lanes.Derives grammar firstLanes := by
  unfold firstLanes
  refine Lanes.Derives.rounds (fun p hp => ?_) 5
  obtain ⟨x, hx, rfl⟩ := List.mem_map.mp (List.mem_reverse.mp hp)
  exact Array.mem_of_getElem? (mem_blocks.mp (List.mem_flatten.mp hx))

theorem testBit_followLanes {state : Nat} {kernel : List Item} {i : Item} {k : TokenKind}
    (hk : grammar.itemGraph.kernels[state]? = some kernel) (hkind : k ∈ TokenKind.all)
    (h : grammar.Looks state i k) :
    (followLanes.lane (grammar.lhsOf i.production)).testBit k.column = true := by
  obtain ⟨hfirst, hfollow⟩ := Bool.and_eq_true_iff.mp lanes_settle
  have hgoal : grammar.lhsOf 0 = Nonterminal.goal.index := by
    rw [lhsOf_eq (productions_of_rule ruleArray_zero)]
    rfl
  rw [← hgoal] at hfollow
  exact Lanes.follows_of_looks wellFormed_grammar hfirst hfollow hk hkind h

/-- The productions for which a check on the first symbol succeeds, with their numbers. -/
@[irreducible]
def numbered (check : Option Symbol → Bool) : List (List (Production × Nat)) :=
  blocks.map (List.filter fun x => check x.1.rhs.head?)

/-- The grammar of the language as views need it. -/
def outlook : Outlook where
  leads := numbered fun
    | some (.nonterminal _) => true
    | _ => false
  tokens := numbered fun
    | some (.terminal _) => true
    | _ => false
  empties := numbered Option.isNone
  first := firstLanes
  follow := followLanes

theorem mem_numbered {check : Option Symbol → Bool} {x : Production × Nat} :
    (∃ rules ∈ numbered check, x ∈ rules) ↔
      grammar.productions[x.2]? = some x.1 ∧ check x.1.rhs.head? = true := by
  unfold numbered
  simp only [List.mem_map, exists_exists_and_eq_and, List.mem_filter, ← and_assoc, exists_and_right,
    mem_blocks]

theorem fits_outlook : outlook.Fits grammar where
  sound s rules hrules x hx := by
    cases s with
    | none => exact (mem_numbered.mp ⟨rules, hrules, hx⟩).1
    | some s =>
        cases s with
        | terminal k => exact (mem_numbered.mp ⟨rules, hrules, hx⟩).1
        | nonterminal id => exact (mem_numbered.mp ⟨rules, hrules, hx⟩).1
  mem production p hp := by
    unfold Outlook.starting
    split
    · rename_i hhead
      exact mem_numbered.mpr ⟨hp, by rw [hhead]⟩
    · rename_i hhead
      exact mem_numbered.mpr ⟨hp, by rw [hhead]⟩
    · rename_i hhead
      exact mem_numbered.mpr ⟨hp, by rw [hhead]; rfl⟩
  first := derives_firstLanes
  follow := testBit_followLanes

/-- The view of the state at the start. -/
def startView? : Option View :=
  outlook.view? [⟨0, 0, Nonterminal.goal.index,
    [.nonterminal Nonterminal.compilationUnit.index], KindSet.ofKind .eof⟩]

theorem show_start {v : View} (h : startView? = some v) : Outlook.Show grammar [v] [0] := by
  have hk := wellFormed_grammar.kernels_zero
  refine .cons ⟨_, of_view? fits_outlook wellFormed_grammar hk ?_ ?_ h⟩ .nil
  · intro x hx
    obtain rfl := List.mem_singleton.mp hx
    refine ⟨⟨_, productions_of_rule ruleArray_zero, rfl, Nat.zero_le _, rfl⟩,
      .kernel List.mem_cons_self, fun k _ hbit => ?_⟩
    have heof : TokenKind.eof.column = k.column := of_decide_eq_true
      ((KindSet.has_ofKind .eof k.column).symm.trans hbit)
    obtain rfl := TokenKind.column_injective heof
    exact looks_start wellFormed_grammar
  · intro i hi
    obtain rfl := List.mem_singleton.mp hi
    exact ⟨_, List.mem_cons_self, rfl⟩

/-! ### Tokens before which there is no repair -/

theorem repair?_eq_none {views : List View} {states : List Nat} {kind next : TokenKind}
    (hkind : kind ∈ TokenKind.all) (hnext : next ∈ TokenKind.all) (heof : kind ≠ .eof)
    (hshow : Outlook.Show grammar views states) (h : outlook.mendsNot kind next views = true)
    (window : Nat) (rest : List TokenKind) :
    automaton.repair? window states (kind :: next :: rest) = none := by
  obtain ⟨hinsert, hdelete⟩ := Bool.and_eq_true_iff.mp h
  obtain ⟨w, hw⟩ : ∃ w, max window 1 = w + 1 := ⟨max window 1 - 1, by omega⟩
  have hreads : ∀ {kinds more : List TokenKind}, (∀ k ∈ kinds, k ∈ TokenKind.all) →
      (outlook.reads? kinds views == some false) = true → kinds <+: more →
        ¬ automaton.accepts states more = true := by
    intro kinds more hkinds hviews hprefix hmore
    have hnot := Outlook.accepts_of_reads? fits_outlook wellFormed_grammar startIsolated_grammar
      hkinds hshow (eq_of_beq hviews)
    have hfewer := Automaton.accepts_of_isPrefix hprefix hmore
    rw [show automaton.accepts states kinds = false from hnot] at hfewer
    cases hfewer
  have hnone : automaton.insertion? states (kind :: (next :: rest).take w) = none := by
    refine List.find?_eq_none.mpr fun k hk => ?_
    have hall : ∀ k ∈ Automaton.insertionKinds, k ∈ TokenKind.all := by decide
    have hkinds : ∀ j ∈ [k, kind], j ∈ TokenKind.all :=
      List.forall_mem_cons.mpr ⟨hall k hk, List.forall_mem_singleton.mpr hkind⟩
    exact hreads hkinds (List.all_eq_true.mp hinsert k hk) ⟨_, rfl⟩
  have hskip : ¬ automaton.accepts states (next :: rest.take w) = true :=
    hreads (List.forall_mem_singleton.mpr hnext) hdelete ⟨_, rfl⟩
  have hhead : (kind :: next :: rest).head? ≠ some .eof := fun h => heof (Option.some.inj h)
  unfold Automaton.repair?
  dsimp only
  rw [hw, List.take_succ_cons, hnone]
  dsimp only
  rw [if_neg hhead, List.tail_cons, List.take_succ_cons, if_neg hskip]

/-! ### Reading to the end -/

/-- Turns that reading a unit may take. -/
def readGas : Nat := 1024

/-- Whether a unit of these kinds is read to its end, if its views settle that. -/
def reads (kinds : List TokenKind) : Bool :=
  match startView? with
  | some v => outlook.quiet readGas kinds [v]
  | none => false

end Language

/-! ### Machines that never look for a repair -/

namespace Machine

open AspectLang.Language Outlook

variable {p : ParserSetup} {m : Machine} {views : List View}

theorem seeksRepair_of_action {state : Nat} {below : List Nat} {t : Token} {rest : List Token}
    (hstates : m.states = state :: below) (hrest : m.rest = t :: rest)
    (h : tables.action state t.kind ≠ .error) : m.seeksRepair = false := by
  rw [seeksRepair_eq hstates hrest, decide_eq_false h, Bool.false_and]

theorem split_ne_whole {t : Token} {first second : TokenKind}
    (h : t.kind.halves? = some (first, second)) : t.split ≠ .whole := by
  rcases split_cases h with ⟨reason, hsplit⟩ | ⟨u, v, hsplit, _⟩ <;> simp [hsplit]

theorem kinds_of_split {t u v : Token} {first second : TokenKind}
    (h : t.kind.halves? = some (first, second)) (hsplit : t.split = .halves u v) :
    u.kind = first ∧ v.kind = second := by
  rcases split_cases h with ⟨reason, hcrashes⟩ | ⟨u', v', hhalves, hu, hv⟩
  · rw [hsplit] at hcrashes
    cases hcrashes
  · rw [hsplit] at hhalves
    cases hhalves
    exact ⟨hu, hv⟩

theorem action_of_goesOn {top : Nat} {below : List Nat} {k : TokenKind} (hkind : k ∈ TokenKind.all)
    (hshow : Show grammar views (top :: below)) (h : outlook.goesOn k views = true) :
    tables.action top k ≠ .error := by
  unfold Outlook.goesOn at h
  cases hturn : outlook.turn? k views with
  | none => rw [hturn] at h; cases h
  | some turned =>
      have hholds := holds_turn? fits_outlook wellFormed_grammar startIsolated_grammar hkind hshow
        hturn
      rw [hturn] at h
      cases turned with
      | accepted | rejected => cases h
      | shifted next =>
          obtain ⟨_, _, target, hstates, haction, _⟩ := hholds
          obtain ⟨rfl, rfl⟩ := List.cons.inj hstates
          exact haction.trans_ne Action.noConfusion
      | reduced number sure next =>
          obtain ⟨_, _, _, _, _, _, hstates, haction, _⟩ := hholds
          obtain ⟨rfl, rfl⟩ := List.cons.inj hstates
          cases sure with
          | false => cases h
          | true =>
              exact (haction.resolve_right fun hnot => Bool.noConfusion hnot.1).trans_ne
                Action.noConfusion

theorem course_succ_left (m : Machine) (n : Nat) : course p m (n + 1) =
    match step p m with
    | .ok .running m' => course p m' n
    | stopped => stopped := by
  rw [course, Function.iterate_succ_apply]
  change (goOn p)^[n] (step p m) = _
  have hstays : ∀ r : EStateM.Result Fault Machine Progress, goOn p r = r →
      (goOn p)^[n] r = r := fun r hr => Function.iterate_fixed hr n
  cases step p m with
  | error e m' => exact hstays _ rfl
  | ok progress m' =>
      cases progress with
      | running => rfl
      | accepted | abandoned => exact hstays _ rfl

/-- After a step to a running machine the course goes on from there. -/
theorem course_of_running {m' : Machine} (hstep : step p m = .ok .running m') (n : Nat) :
    course p m (n + 1) = course p m' n := by
  rw [course_succ_left, hstep]

theorem course_of_step {last : Machine} {n : Nat} (h : course p m (n + 1) = .ok .running last) :
    ∃ m', step p m = .ok .running m' ∧ course p m' n = .ok .running last := by
  rw [course_succ_left] at h
  split at h
  · rename_i m' hstep
    exact ⟨m', hstep, h⟩
  · rename_i hstopped
    exact absurd h (hstopped last)

/-- Where a shift operator does not fit, a machine that goes on before a closing bracket splits it and
looks for no repair. -/
theorem split_of_goesOn {state : Nat} {below : List Nat} {t : Token} {rest : List Token}
    {first second : TokenKind} (hstates : m.states = state :: below) (hrest : m.rest = t :: rest)
    (haction : tables.action state t.kind = .error) (hhalves : t.kind.halves? = some (first, second))
    (hshow : Show grammar views m.states) (hgoes : outlook.goesOn first views = true) :
    m.seeksRepair = false ∧ ∀ progress m', step p m = .ok progress m' → ∃ u v, u.kind = first ∧
      v.kind = second ∧ m' = { m with rest := u :: v :: rest } := by
  obtain rfl := (kind_of_halves? hhalves).2
  have hgt := action_of_goesOn (by decide) (hstates ▸ hshow) hgoes
  have hquiet : m.seeksRepair = false := by
    rw [seeksRepair_eq hstates hrest, decide_eq_false hgt, decide_eq_false (split_ne_whole hhalves),
      Bool.or_false, Bool.and_false]
  refine ⟨hquiet, fun progress m' hstep => ?_⟩
  obtain ⟨u, v, hsplit, -, rfl⟩ := split_of_quiet hstates hrest haction hquiet hstep
  obtain ⟨hu, hv⟩ := kinds_of_split hhalves hsplit
  exact ⟨u, v, hu, hv, rfl⟩

/-- A machine that looks for no repair, and goes on to one that never does, never looks for one. -/
theorem seeksRepair_of_next {last : Machine} {n : Nat} (hstays : m.seeksRepair = false)
    (hcourse : course p m n = .ok .running last)
    (hnext : ∀ m' k, step p m = .ok .running m' → course p m' k = .ok .running last →
      last.seeksRepair = false) : last.seeksRepair = false := by
  cases n with
  | zero =>
      cases hcourse
      exact hstays
  | succ n =>
      obtain ⟨m', hstep, hlater⟩ := course_of_step hcourse
      exact hnext m' n hstep hlater

/-- A reduction goes to the state behind its production, and leaves the tokens as they are. -/
theorem reduced_of_step {top number origin target : Nat} {below lower : List Nat} {t : Token}
    {rest : List Token} {production : Production} {progress : Progress} {m' : Machine}
    (hstates : m.states = top :: below) (hrest : m.rest = t :: rest)
    (haction : tables.action top t.kind = .reduce number)
    (hp : grammar.productions[number]? = some production)
    (hdrop : m.states.drop production.rhs.length = origin :: lower)
    (hgoto : tables.goto? origin production.lhs = some target)
    (hstep : step p m = .ok progress m') :
    m'.states = target :: origin :: lower ∧ m'.rest = m.rest := by
  obtain ⟨rule, hrule, rfl⟩ : ∃ rule, ruleArray[number]? = some rule ∧
      rule.production = production := by
    rw [productions_getElem?, Option.map_eq_some_iff] at hp
    exact hp
  have hlength : rule.production.rhs.length = rule.rhs.length := List.length_map _
  rw [hlength] at hdrop
  rw [step_eq hstates hrest, haction] at hstep
  dsimp only at hstep
  rw [reduce_eq hrule hdrop hgoto] at hstep
  cases hact : Work.act p.dialect (m.handle rule.rhs.length t.span) rule.action
      (m.popped rule.rhs.length number).work with
  | error e w =>
      rw [hact] at hstep
      cases hstep
  | ok u w =>
      rw [hact] at hstep
      cases hstep
      exact ⟨rfl, rfl⟩

/-- **A machine whose kinds are read to the end never looks for a repair.** -/
theorem seeksRepair_of_quiet {gas : Nat} {kinds : List TokenKind}
    (hkinds : ∀ k ∈ kinds, k ∈ TokenKind.all) (hrest : m.rest.map Token.kind = kinds)
    (hshow : Show grammar views m.states) (hquiet : outlook.quiet gas kinds views = true) {n : Nat}
    {last : Machine} (hcourse : course p m n = .ok .running last) : last.seeksRepair = false := by
  induction gas generalizing kinds views m n with
  | zero => cases hquiet
  | succ gas ih =>
      cases kinds with
      | nil => cases hquiet
      | cons k kinds =>
          obtain ⟨t, rest, hrest', rfl, hkinds'⟩ := List.map_eq_cons_iff.mp hrest
          have hkind := hkinds _ List.mem_cons_self
          unfold Outlook.quiet at hquiet
          -- where the token does not fit, it is split
          have hsplits : ∀ {top below}, m.states = top :: below →
              tables.action top t.kind = .error →
              (outlook.splits t.kind views fun first rest =>
                outlook.quiet gas (first :: rest :: kinds) views) = true →
              last.seeksRepair = false := by
            intro top below hstates haction h
            obtain ⟨first, second, hhalves, hgoes, hquiet⟩ := exists_of_splits h
            obtain ⟨hstays, hsplit⟩ :=
              split_of_goesOn (p := p) hstates hrest' haction hhalves hshow hgoes
            obtain ⟨hfirst, hsecond⟩ := TokenKind.halves_mem_all hhalves
            refine seeksRepair_of_next hstays hcourse fun m' k hstep hlater => ?_
            obtain ⟨u, v, rfl, rfl, rfl⟩ := hsplit _ _ hstep
            refine ih (m := { m with rest := u :: v :: rest }) ?_ ?_ hshow hquiet hlater
            · exact List.forall_mem_cons.mpr ⟨hfirst, List.forall_mem_cons.mpr
                ⟨hsecond, fun j hj => hkinds j (List.mem_cons_of_mem _ hj)⟩⟩
            · rw [List.map_cons, List.map_cons, hkinds']
          cases hturn : outlook.turn? t.kind views with
          | none => rw [hturn] at hquiet; cases hquiet
          | some turned =>
              have hholds := holds_turn? fits_outlook wellFormed_grammar startIsolated_grammar
                hkind hshow hturn
              rw [hturn] at hquiet
              cases turned with
              | rejected =>
                  obtain ⟨top, below, hstates, haction⟩ := hholds
                  exact hsplits hstates haction hquiet
              | accepted =>
                  obtain ⟨top, below, hstates, haction⟩ := hholds
                  have haction : tables.action top t.kind = .accept := haction
                  have hstays := seeksRepair_of_action hstates hrest' (haction.trans_ne (by simp))
                  refine seeksRepair_of_next hstays hcourse fun m' k hstep _ => ?_
                  rw [step_eq hstates hrest', haction] at hstep
                  cases hstep
              | shifted next =>
                  obtain ⟨top, below, target, hstates, haction, hshow'⟩ := hholds
                  have haction : tables.action top t.kind = .shift target := haction
                  have hstays := seeksRepair_of_action hstates hrest' (haction.trans_ne (by simp))
                  refine seeksRepair_of_next hstays hcourse fun m' k hstep hlater => ?_
                  rw [step_eq hstates hrest', haction] at hstep
                  cases hstep
                  exact ih (fun j hj => hkinds j (List.mem_cons_of_mem _ hj)) hkinds' hshow' hquiet
                    hlater
              | reduced number sure next =>
                  obtain ⟨top, below, production, origin, lower, target, hstates, haction, hp, hdrop,
                    hgoto, hshow'⟩ := hholds
                  obtain ⟨hsure, hquiet⟩ := Bool.and_eq_true_iff.mp hquiet
                  rcases haction with haction | ⟨rfl, haction⟩
                  · have haction : tables.action top t.kind = .reduce number := haction
                    have hstays := seeksRepair_of_action hstates hrest' (haction.trans_ne (by simp))
                    refine seeksRepair_of_next hstays hcourse fun m' k hstep hlater => ?_
                    obtain ⟨hstates', hleft⟩ :=
                      reduced_of_step hstates hrest' haction hp hdrop hgoto hstep
                    exact ih hkinds (by rw [hleft]; exact hrest) (hstates' ▸ hshow') hquiet hlater
                  · exact hsplits hstates haction hsure

end Machine

/-- **A parser never looks for a repair in a unit whose kinds are read to the end.** -/
theorem Parser.seeksRepair_of_reads {p : Parser} {stream : TokenStream}
    (hkinds : ∀ k ∈ stream.tokens.map Token.kind, k ∈ TokenKind.all)
    (h : Language.reads (stream.tokens.map Token.kind ++ [.eof]) = true) {n : Nat} {m : Machine}
    (hcourse : Machine.course p.setup (p.start stream) n = .ok .running m) :
    m.seeksRepair = false := by
  unfold Language.reads at h
  cases hv : Language.startView? with
  | none => rw [hv] at h; cases h
  | some v =>
      rw [hv] at h
      refine Machine.seeksRepair_of_quiet ?_ ?_ (Language.show_start hv) h hcourse
      · intro k hk
        rcases List.mem_append.mp hk with hk | hk
        · exact hkinds k hk
        · rw [List.mem_singleton.mp hk]
          decide
      · exact List.map_append

end AspectLang
