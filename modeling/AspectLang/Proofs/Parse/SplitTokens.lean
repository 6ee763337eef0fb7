import AspectLang.Proofs.Automaton.TakenKinds
import AspectLang.Proofs.Parse.SeatedRuns
import AspectLang.Proofs.Parse.Suggestions

/-! # Splitting shift operators beforehand

A shift operator is split only after the reductions before it were made.  A parser that never looks
for a repair could as well be given the pieces: where a piece is taken in the end, every one of the
reductions before the operator is also made before the piece (`Language.action_gt_of_taken`), and its
action does not tell the two apart (`Work.act_of_start_eq`).  So the run on the pieces goes through
the same machines, but for the steps that split (`Machine.Finishes.presplit`). -/

namespace AspectLang

/-! ### Reductions before a closing bracket -/

namespace Automaton

theorem takes_of_reduce {a : Automaton} {top production : Nat} {below states : List Nat}
    {kind : TokenKind} (h : a.tables.action top kind = .reduce production)
    (hreduce : a.reduce? (top :: below) production = some states) (htakes : a.Takes states kind) :
    a.Takes (top :: below) kind := by
  obtain ⟨gas, hfed⟩ := htakes
  exact ⟨gas + 1, by rwa [feedWithin_of_reduce h hreduce]⟩

end Automaton

namespace Language

open Grammar GrammarIndex

/-- What is completed before a closing bracket has symbols. -/
theorem rhsOf_ne_nil {state p : Nat} {kernel : List Item}
    (hk : grammar.itemGraph.kernels[state]? = some kernel)
    (h : Completed grammar state p .gt) : grammar.rhsOf p ≠ [] := by
  obtain ⟨production, hp⟩ := exists_production_of_completed wellFormed_grammar hk h
  have hbefore := testBit_of_completed List.mem_cons_self hk hp h
  obtain ⟨e, _, rfl, he⟩ := exists_ending hp hbefore hbefore
  rw [rhsOf_eq he]
  simp

/-- **A reduction before a shift operator is made before a closing bracket that is taken after
it.** -/
theorem action_gt_of_taken {top production : Nat} {below states : List Nat} {symbols : List Symbol}
    {kind : TokenKind} (h : grammar.Spells (top :: below) symbols)
    (hkind : kind = .shiftRight ∨ kind = .shiftRightUnsigned)
    (haction : tables.action top kind = .reduce production)
    (hreduce : automaton.reduce? (top :: below) production = some states)
    (htakes : automaton.Takes states .gt) : tables.action top .gt = .reduce production := by
  obtain ⟨kernel, hk⟩ := h.kernel_top wellFormed_grammar
  obtain ⟨produced, origin, lower, before, target, _, hp, hdrop, _, hgoto, _⟩ :=
    h.reduce wellFormed_grammar startIsolated_grammar haction
  obtain rfl : target :: origin :: lower = states :=
    Option.some.inj ((reduce?_of_goto hp hdrop hgoto).symm.trans hreduce)
  obtain ⟨gas, htaken⟩ := htakes
  have hcompleted : Completed grammar top production .gt :=
    completed_of_taken wellFormed_grammar startIsolated_grammar (by decide)
      (fun _ _ _ hk h => rhsOf_ne_nil hk h) h hk haction hp hdrop hgoto htaken
  exact (action_gt_of_reduce hk hkind haction).resolve_right
    (action_ne_error_of_completed wellFormed_grammar startIsolated_grammar hk (by decide) hcompleted)

end Language

/-! ### What actions are told of the next token -/

/-- Whether an action takes the whole range of the next token. -/
def SemanticAction.readsLookahead : SemanticAction → Bool
  | .aspect .headerRest | .aspect (.adviceHeader _) => true
  | _ => false

theorem Work.act_of_start_eq {dialect : Dialect} {action : SemanticAction}
    (h : action.readsLookahead = false) (spans : List (Option Span)) {a b : Span}
    (hstart : a.start = b.start) :
    Work.act dialect ⟨spans, a⟩ action = Work.act dialect ⟨spans, b⟩ action := by
  obtain ⟨start, stop⟩ := a
  obtain ⟨_, stop'⟩ := b
  obtain rfl : start = _ := hstart
  cases action with
  | aspect action =>
      cases action with
      | headerRest | adviceHeader => cases h
      | _ => rfl
  | _ => rfl

theorem rules_ignoreLookahead : ∀ r ∈ Language.rules,
    Language.beforeShift.testBit r.lhs.index = true → r.action.readsLookahead = false := by
  decide +kernel

namespace Token

variable {t first second : Token}

/-- The first piece of an operator is a closing bracket that begins where the operator does. -/
theorem of_split (h : t.split = .halves first second) :
    (t.kind = .shiftRight ∨ t.kind = .shiftRightUnsigned) ∧ first.kind = .gt ∧
      first.span.start = t.span.start := by
  obtain ⟨kinds, _, hkinds, _, _, rfl, rfl⟩ := of_split_halves h
  exact ⟨(Machine.kind_of_halves? hkinds).1, (Machine.kind_of_halves? hkinds).2, rfl⟩

end Token

/-- What stands first after a cut is the first token or its first piece. -/
theorem Cut.head {t u : Token} {tokens pieces : List Token} (h : Cut (t :: tokens) (u :: pieces)) :
    u = t ∨ ∃ second, t.split = .halves u second := by
  cases h with
  | keep => exact .inl rfl
  | @split _ first second _ _ hsplit hcut =>
      cases hcut with
      | keep => exact .inr ⟨second, hsplit⟩
      | split hsplit' _ =>
          -- a closing bracket is not split again
          have hgt := (Token.of_split hsplit).2.1
          rcases (Token.of_split hsplit').1 with hkind | hkind
          · cases hgt.symm.trans hkind
          · cases hgt.symm.trans hkind

namespace Machine

variable {promise : Promise} {p : ParserSetup} {m m' last : Machine} {state : Nat} {below : List Nat}
  {t u : Token} {rest tokens : List Token}

/-! ### Steps on other tokens -/

/-- A reduction is the same before other tokens, if the action does not tell them apart. -/
theorem reduce_before {dialect : Dialect} {production : Nat} {a b : Span} {symbols : List Symbol}
    {kind : TokenKind} (h : Language.grammar.Spells m.states symbols)
    (hstates : m.states = state :: below)
    (haction : Language.tables.action state kind = .reduce production)
    (hstart : a.start = b.start)
    (hignores : a = b ∨ kind = .shiftRight ∨ kind = .shiftRightUnsigned)
    (hreduce : reduce dialect production a m = .ok () m') (tokens : List Token) :
    reduce dialect production b { m with rest := tokens } = .ok () { m' with rest := tokens } := by
  have hspells := h
  rw [hstates] at hspells
  obtain ⟨kernel, hk⟩ := hspells.kernel_top Language.wellFormed_grammar
  obtain ⟨_, origin, lower, _, target, _, hp, hdrop, _, hgoto, _⟩ :=
    hspells.reduce Language.wellFormed_grammar Language.startIsolated_grammar haction
  have hproduction := hp
  rw [Language.productions_getElem?, Option.map_eq_some_iff] at hp
  obtain ⟨rule, hrule, rfl⟩ := hp
  have hlength : rule.production.rhs.length = rule.rhs.length := List.length_map ..
  rw [hlength, ← hstates] at hdrop
  have hact : Work.act dialect (m.handle rule.rhs.length a) rule.action =
      Work.act dialect (m.handle rule.rhs.length b) rule.action := by
    rcases hignores with rfl | hkind
    · rfl
    · have hcompleted := (GrammarIndex.completed_of_reduce Language.wellFormed_grammar hk
        Language.startIsolated_grammar haction).2
      have hbefore := Language.beforeShift_of_completed hk hkind hproduction hcompleted
      exact Work.act_of_start_eq (rules_ignoreLookahead rule (Language.mem_rules hrule) hbefore) _
        hstart
  rw [reduce_eq hrule hdrop hgoto, hact] at hreduce
  cases hwork : Work.act dialect (m.handle rule.rhs.length b) rule.action
      (m.popped rule.rhs.length production).work with
  | error e w =>
      rw [hwork] at hreduce
      cases hreduce
  | ok u w =>
      rw [hwork] at hreduce
      cases hreduce
      -- neither the handle nor the work depends on the tokens
      have hwork' : Work.act dialect
          (handle rule.rhs.length b { m with rest := tokens }) rule.action
          (popped rule.rhs.length production { m with rest := tokens }).work =
            .ok u w := hwork
      rw [reduce_eq (m := { m with rest := tokens }) hrule hdrop hgoto, hwork']
      rfl

theorem accept_of_quiet (hstates : m.states = state :: below) (hrest : m.rest = t :: rest)
    (hquiet : m.seeksRepair = false) (hstep : step p m = .ok .accepted m') :
    Language.tables.action state t.kind = .accept := by
  cases haction : Language.tables.action state t.kind with
  | accept => rfl
  | error =>
      obtain ⟨_, _, _, hrunning, _⟩ := split_of_quiet hstates hrest haction hquiet hstep
      cases hrunning
  | shift target =>
      rw [step_eq hstates hrest, haction] at hstep
      cases hstep
  | reduce production =>
      rw [step_eq hstates hrest, haction] at hstep
      dsimp only at hstep
      split at hstep <;> cases hstep

theorem reduce_of_step {production : Nat} {progress : Progress}
    (hstates : m.states = state :: below) (hrest : m.rest = t :: rest)
    (haction : Language.tables.action state t.kind = .reduce production)
    (hstep : step p m = .ok progress m') : reduce p.dialect production t.span m = .ok () m' := by
  rw [step_eq hstates hrest, haction] at hstep
  dsimp only at hstep
  split at hstep
  · rename_i hreduce
    cases hstep
    exact hreduce
  · cases hstep

/-! ### Runs to acceptance -/

/-- So many steps end in acceptance, and none of them looks for a repair; the tokens are those that
were shifted, and those that are left in the end. -/
inductive Finishes (p : ParserSetup) : Nat → Machine → (tokens : List Token) → Machine → Prop
  | accept {m last : Machine} : m.seeksRepair = false → step p m = .ok .accepted last →
      Finishes p 1 m m.rest last
  | next {n : Nat} {m m' last : Machine} {tokens : List Token} : m.seeksRepair = false →
      step p m = .ok .running m' → Finishes p n m' tokens last →
        Finishes p (n + 1) m (m.nextShifted ++ tokens) last

section

variable {k : Nat} (hstates : m.states = state :: below)

include hstates

theorem Finishes.of_shift {target : Nat}
    (haction : Language.tables.action state t.kind = .shift target)
    (h : Finishes p k (m.afterShift p t tokens target) tokens last) :
    Finishes p (k + 1) { m with rest := t :: tokens } (t :: tokens) last := by
  have hstates' : ({ m with rest := t :: tokens } : Machine).states = state :: below := hstates
  have hstep : step p { m with rest := t :: tokens } =
      .ok .running (m.afterShift p t tokens target) := by
    rw [step_eq hstates' rfl, haction]
    rfl
  have hquiet := seeksRepair_of_action hstates' rfl (haction.trans_ne Action.noConfusion)
  have hnext := Finishes.next hquiet hstep h
  rwa [nextShifted_eq hstates' rfl, haction] at hnext

theorem Finishes.of_reduce {production : Nat}
    (haction : Language.tables.action state t.kind = .reduce production)
    (hreduce : reduce p.dialect production t.span { m with rest := t :: tokens } = .ok () m')
    (h : Finishes p k m' (t :: tokens) last) :
    Finishes p (k + 1) { m with rest := t :: tokens } (t :: tokens) last := by
  have hstates' : ({ m with rest := t :: tokens } : Machine).states = state :: below := hstates
  have hstep : step p { m with rest := t :: tokens } = .ok .running m' := by
    rw [step_eq hstates' rfl, haction]
    dsimp only
    rw [hreduce]
  have hquiet := seeksRepair_of_action hstates' rfl (haction.trans_ne Action.noConfusion)
  have hnext := Finishes.next hquiet hstep h
  rwa [nextShifted_eq hstates' rfl, haction] at hnext

end

/-- **A run to acceptance goes the same way before the tokens as they stand in the end**, without the
steps that split. -/
theorem Finishes.presplit {n : Nat} (h : Finishes p n m tokens last)
    (hleads : Leads promise .running m) :
    ∃ k ≤ n, Finishes p k { m with rest := tokens } tokens last ∧ Cut m.rest tokens ∧
      ∃ u more, tokens = u :: more ∧ Language.automaton.Takes m.states u.kind := by
  induction h with
  | @accept m last hquiet hstep =>
      obtain ⟨state, below, hstates⟩ := exists_states hleads
      obtain ⟨t, rest, hrest⟩ := exists_first hleads
      refine ⟨1, le_rfl, .accept hquiet hstep, .refl _, t, rest, hrest, ?_⟩
      rw [hstates]
      exact Automaton.takes_of_accept (a := Language.automaton)
        (accept_of_quiet hstates hrest hquiet hstep)
  | @next n m m' last tokens hquiet hstep _ ih =>
      obtain ⟨state, below, hstates⟩ := exists_states hleads
      obtain ⟨t, rest, hrest⟩ := exists_first hleads
      obtain ⟨k, hle, hfinishes, hcut, u, more, rfl, htakes⟩ := ih (leads_of_step hleads hstep)
      rw [nextShifted_eq hstates hrest, hrest]
      cases haction : Language.tables.action state t.kind with
      | accept =>
          rw [step_eq hstates hrest, haction] at hstep
          cases hstep
      | shift target =>
          rw [step_eq hstates hrest, haction] at hstep
          cases hstep
          refine ⟨k + 1, Nat.succ_le_succ hle, .of_shift hstates haction hfinishes, .keep hcut, t,
            u :: more, rfl, ?_⟩
          rw [hstates]
          exact Automaton.takes_of_shift (a := Language.automaton) haction
      | error =>
          -- splitting is what the tokens as they stand need no more
          obtain ⟨first, second, hsplit, -, rfl⟩ :=
            split_of_quiet hstates hrest haction hquiet hstep
          exact ⟨k, Nat.le_succ_of_le hle, hfinishes, .split hsplit hcut, u, more, rfl, htakes⟩
      | reduce production =>
          have hreduce := reduce_of_step hstates hrest haction hstep
          obtain ⟨symbols, hholds⟩ := hleads.1
          have hspells := hholds.spells
          obtain ⟨hreduced, hrest'⟩ := reduce?_of_reduce hspells hstates haction hreduce
          rw [hrest', hrest] at hcut
          rw [hstates] at hreduced
          obtain ⟨haction', hreduce'⟩ : Language.tables.action state u.kind = .reduce production ∧
              reduce p.dialect production u.span { m with rest := u :: more } =
                .ok () { m' with rest := u :: more } := by
            rcases hcut.head with rfl | ⟨second, hsplit⟩
            · exact ⟨haction, reduce_before hspells hstates haction rfl (.inl rfl) hreduce _⟩
            · obtain ⟨hkind, hu, hstart⟩ := Token.of_split hsplit
              rw [hu] at htakes ⊢
              exact ⟨Language.action_gt_of_taken (hstates ▸ hspells) hkind haction hreduced htakes,
                reduce_before hspells hstates haction hstart.symm (.inr hkind) hreduce _⟩
          refine ⟨k + 1, Nat.succ_le_succ hle, .of_reduce hstates haction' hreduce' hfinishes, hcut, u,
            more, rfl, ?_⟩
          rw [hstates]
          exact Automaton.takes_of_reduce (a := Language.automaton) haction' hreduced htakes

/-! ### Runs and their courses -/

/-- A course to acceptance on which no repair is looked for is a run to acceptance. -/
theorem finishes_of_course {n : Nat} (h : course p m n = .ok .accepted last)
    (hquiet : ∀ k < n, ∀ m', course p m k = .ok .running m' → m'.seeksRepair = false) :
    ∃ k ≤ n, ∃ tokens, Finishes p k m tokens last := by
  induction n generalizing m with
  | zero => cases h
  | succ n ih =>
      have hfirst : m.seeksRepair = false := hquiet 0 n.succ_pos m rfl
      rw [course_succ_left] at h
      cases hstep : step p m with
      | error e m' =>
          rw [hstep] at h
          cases h
      | ok progress m' =>
          rw [hstep] at h
          cases progress with
          | abandoned => cases h
          | accepted =>
              cases h
              exact ⟨1, Nat.le_add_left .., m.rest, .accept hfirst hstep⟩
          | running =>
              obtain ⟨k, hle, tokens, hfinishes⟩ := ih h fun k hk m'' hcourse =>
                hquiet (k + 1) (Nat.succ_lt_succ hk) m'' (by rwa [course_of_running hstep])
              exact ⟨k + 1, Nat.succ_le_succ hle, _, .next hfirst hstep hfinishes⟩

section

variable {n : Nat} (h : Finishes p n m tokens last)

include h

theorem Finishes.course : Machine.course p m n = .ok .accepted last := by
  induction h with
  | accept _ hstep => rw [course_succ_left, hstep]
  | next _ hstep _ ih => rwa [course_of_running hstep]

theorem Finishes.quiet {k : Nat} (hcourse : Machine.course p m k = .ok .running m') :
    m'.seeksRepair = false := by
  induction h generalizing k with
  | accept hquiet hstep =>
      cases k with
      | zero =>
          cases hcourse
          exact hquiet
      | succ k =>
          rw [course_succ_left, hstep] at hcourse
          cases hcourse
  | next hquiet hstep _ ih =>
      cases k with
      | zero =>
          cases hcourse
          exact hquiet
      | succ k =>
          rw [course_of_running hstep] at hcourse
          exact ih hcourse

theorem Finishes.run {limit gas : Nat} (hle : n ≤ gas) :
    Machine.run p limit gas m = .ok .accepted last := by
  obtain ⟨k, rfl⟩ := Nat.exists_eq_add_of_le hle
  have hstopped : ∀ m', Machine.course p m n ≠ .ok .running m' := by
    intro m' hrunning
    cases h.course.symm.trans hrunning
  rw [run_eq_course, course_add_of_stopped hstopped, h.course]

end

/-- The tokens as so many steps leave them: those that were shifted, and then those that are left. -/
def standing (p : ParserSetup) : Nat → Machine → List Token
  | 0, m => m.rest
  | n + 1, m =>
    match step p m with
    | .ok .running m' => m.nextShifted ++ standing p n m'
    | _ => m.rest

theorem Finishes.standing_eq {n k : Nat} (h : Finishes p n m tokens last) (hle : n ≤ k) :
    standing p k m = tokens := by
  induction h generalizing k with
  | accept _ hstep =>
      obtain ⟨k, rfl⟩ := Nat.exists_eq_add_of_le' hle
      rw [standing, hstep]
  | @next n m m' last tokens _ hstep _ ih =>
      obtain ⟨k, rfl⟩ := Nat.exists_eq_add_of_le' ((Nat.le_add_left 1 n).trans hle)
      rw [standing, hstep]
      dsimp only
      rw [ih (Nat.le_of_succ_le_succ hle)]

/-- **A run to acceptance that never looks for a repair is made as well on the tokens as it leaves
them.** -/
theorem presplit_run {limit : Nat} (hrun : run p limit limit m = .ok .accepted last)
    (hquiet : ∀ n < limit, ∀ m', course p m n = .ok .running m' → m'.seeksRepair = false)
    (hleads : Leads promise .running m) :
    Cut m.rest (standing p limit m) ∧ ∃ k ≤ limit,
      Finishes p k { m with rest := standing p limit m } (standing p limit m) last := by
  obtain ⟨n, hn, tokens, hfinishes⟩ := finishes_of_course (course_of_run hrun) hquiet
  obtain ⟨k, hk, hfinishes', hcut, -⟩ := hfinishes.presplit hleads
  rw [hfinishes.standing_eq hn]
  exact ⟨hcut, k, hk.trans hn, hfinishes'⟩

end Machine

namespace Parser

/-- No step on a stream looks for a repair. -/
def NeverRecovers (p : Parser) (stream : TokenStream) : Prop :=
  ∀ n < stepLimit, ∀ m, Machine.course p.setup (p.start stream) n = .ok .running m →
    m.seeksRepair = false

/-- The second stream has the tokens of the first as the parser splits them, and nothing else is
changed. -/
structure Presplits (p : Parser) (stream stream' : TokenStream) : Prop where
  tokens : stream'.tokens ++ [Token.eof stream'.endOffset] =
    Machine.standing p.setup stepLimit (p.start stream)
  errors : stream'.errors = stream.errors
  endOffset : stream'.endOffset = stream.endOffset

/-- The parts of a stream that a parser begins with. -/
theorem start_of_parts {p : Parser} {stream stream' : TokenStream}
    (herrors : stream'.errors = stream.errors) :
    p.start stream' =
      { p.start stream with rest := stream'.tokens ++ [Token.eof stream'.endOffset] } := by
  unfold start reportLexical
  rw [herrors]

end Parser

namespace TokenStream

/-- A stream of given errors, tokens and end. -/
def ofParts (errors : List LexicalError) (tokens : List Token) (endOffset : Nat) : TokenStream where
  pieces := errors.map .error ++ tokens.map .ok
  endOffset := endOffset

variable {errors : List LexicalError} {tokens : List Token} {endOffset : Nat}

theorem tokens_ofParts : (ofParts errors tokens endOffset).tokens = tokens := by
  simp [ofParts, TokenStream.tokens, List.filterMap_map]

theorem errors_ofParts : (ofParts errors tokens endOffset).errors = errors := by
  simp [ofParts, TokenStream.errors, List.filterMap_map]

end TokenStream

/-- The end of the input stays whole. -/
theorem Cut.of_append_eof {tokens pieces : List Token} {offset : Nat}
    (h : Cut (tokens ++ [Token.eof offset]) pieces) :
    ∃ tokens', pieces = tokens' ++ [Token.eof offset] ∧ Cut tokens tokens' := by
  obtain ⟨tokens', last, rfl, htokens, hlast⟩ := h.of_append
  obtain rfl := hlast.eq_of_whole fun t ht => by
    rw [List.mem_singleton.mp ht]
    rfl
  exact ⟨tokens', rfl, htokens⟩

/-- The tokens of `class A extends B<C<D>> \x7b\x7d`. -/
@[irreducible]
def nestedStream : TokenStream := .ofTokens
  [⟨.kwClass, ⟨0, 4⟩, "class"⟩, ⟨.identifier, ⟨6, 6⟩, "A"⟩, ⟨.kwExtends, ⟨8, 14⟩, "extends"⟩,
    ⟨.identifier, ⟨16, 16⟩, "B"⟩, ⟨.lt, ⟨17, 17⟩, "<"⟩, ⟨.identifier, ⟨18, 18⟩, "C"⟩,
    ⟨.lt, ⟨19, 19⟩, "<"⟩, ⟨.identifier, ⟨20, 20⟩, "D"⟩, ⟨.shiftRight, ⟨21, 22⟩, ">>"⟩,
    ⟨.lBrace, ⟨24, 24⟩, "\x7b"⟩, ⟨.rBrace, ⟨25, 25⟩, "\x7d"⟩]

theorem kinds_nestedStream : nestedStream.tokens.map Token.kind =
    [.kwClass, .identifier, .kwExtends, .identifier, .lt, .identifier, .lt, .identifier, .shiftRight,
      .lBrace, .rBrace] := by
  unfold nestedStream
  rfl

theorem neverRecovers_nestedStream (p : Parser) : p.NeverRecovers nestedStream := by
  intro n _ m hcourse
  refine Parser.seeksRepair_of_reads ?_ ?_ hcourse <;> rw [kinds_nestedStream]
  · decide
  · decide +kernel

end AspectLang
