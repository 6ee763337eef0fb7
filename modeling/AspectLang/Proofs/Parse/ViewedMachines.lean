import AspectLang.Proofs.Parse.HeadDeclarations
import AspectLang.Proofs.Parse.TracedRuns

/-! # Machines whose states are only viewed

What a machine does on a given text is computed without the tables of the language: views take the
place of its states, and all the rest of the machine is known (`Viewed`).  A step is computed from the
turn that the views settle (`Viewed.step?`), and so is the insertion of a token, with the message that
names what it completes.  Its steps are steps of the machine that has states which the views are of
(`Viewed.Shows.walks`), so machines of a parser are found by following it from the start
(`Parser.walks_of_follow?`). -/

namespace AspectLang

open Outlook (Show)

/-- A machine without its states, and views of them. -/
structure Viewed where
  views : List View
  machine : Machine

namespace Outlook

variable (o : Outlook)

/-- The first of the kinds that can be read before others, if views settle which it is. -/
def firstRead? (views : List View) (upcoming : List TokenKind) : List TokenKind → Option TokenKind
  | [] => none
  | kind :: kinds =>
    match o.reads? (kind :: upcoming) views with
    | some true => some kind
    | some false => firstRead? views upcoming kinds
    | none => none

/-- The nonterminal that is reduced first before a kind, if views settle what happens there. -/
def firstReduced? (views : List View) (kind : TokenKind) : Option (Option Nat) :=
  match o.turn? kind views with
  | some (.shifted _) => some none
  | some (.reduced number true _) =>
    (Language.grammar.productions[number]?).map fun production => some production.lhs
  | _ => none

/-- The name of the construct that an inserted kind completes before the next one. -/
def construct? (views : List View) (kind next : TokenKind) : Option String :=
  match o.feed? kind feedTurns views with
  | some (.shifted views) => (o.firstReduced? views next).map fun
    | some id => Language.grammar.nonterminalName id
    | none => "CompilationUnit"
  | _ => none

end Outlook

namespace Machine

/-- The machine after the insertion of a token, which completes a construct. -/
def completedBy (construct : String) (kind : TokenKind) (t : Token) (m : Machine) : Machine :=
  let place := match m.previous with
    | some previous => Span.point previous.span.stop
    | none => .point t.span.start
  let m := m.report .insertToComplete place [kind.grammarName, construct]
  { m with
    rest := ⟨kind, place, kind.lexeme?.getD ""⟩ :: m.rest
    recovery := { m.recovery with phase := .recovering }.repaired }

/-- The machine after a reduction that leads to a state, if the action does not fail. -/
def reducedTo? (p : ParserSetup) (states : List Nat) (rule : Rule) (production : Nat)
    (lookahead : Span) (m : Machine) : Option Machine :=
  let c := m.handle rule.rhs.length lookahead
  match Work.act p.dialect c rule.action (m.popped rule.rhs.length production).work with
  | .ok _ work => some { m.popped rule.rhs.length production with
      states := states
      spans := c.whole? :: m.spans.drop rule.rhs.length
      work }
  | .error _ _ => none

end Machine

namespace Viewed

variable (p : ParserSetup)

/-- The viewed machine after the insertion of a token before `t`, which fits nowhere. -/
def insert? (t : Token) (v : Viewed) : Option Viewed :=
  if t.split = .whole ∧ v.machine.mayRepair p = true then
    match Language.outlook.firstRead? v.views
      ((v.machine.rest.map Token.kind).take (max p.settings.recoveryWindow 1))
      Automaton.insertionKinds with
    | some kind => (Language.outlook.construct? v.views kind t.kind).map fun construct =>
      ⟨v.views, v.machine.completedBy construct kind t⟩
    | none => none
  else none

/-- The viewed machine after a step, if its views settle what the step does. -/
def step? (v : Viewed) : Option Viewed :=
  match v.machine.rest with
  | [] => none
  | t :: rest =>
    match Language.outlook.turn? t.kind v.views with
    | some (.shifted views) =>
      some ⟨views, { v.machine.afterShift p t rest 0 with states := [] }⟩
    | some (.reduced number true views) =>
      match Language.ruleArray[number]? with
      | some rule => (v.machine.reducedTo? p [] rule number t.span).map (⟨views, ·⟩)
      | none => none
    | some .rejected => insert? p t v
    | _ => none

/-- The viewed machine after some steps. -/
def steps? : Nat → Viewed → Option Viewed
  | 0, v => some v
  | n + 1, v => (v.step? p).bind (steps? n)

/-- The outcome of a unit, if the viewed machine accepts it now. -/
def outcome? (length : Nat) (v : Viewed) : Option ParseOutcome :=
  match v.machine.rest with
  | [] => none
  | t :: _ =>
    match Language.outlook.turn? t.kind v.views with
    | some .accepted =>
      match Parser.finishAccepted length v.machine with
      | .ok o _ => some o
      | .error _ _ => none
    | _ => none

/-- The machine with states that the views may be of. -/
def on (v : Viewed) (states : List Nat) : Machine := { v.machine with states }

/-- The views are those of the states. -/
structure Shows (v : Viewed) (states : List Nat) : Prop where
  views : Show Language.grammar v.views states
  kinds : ∀ t ∈ v.machine.rest, t.kind ∈ TokenKind.all

end Viewed

/-! ### Reductions, insertions and constructs of an automaton -/

namespace Automaton

variable {a : Automaton} {top target production : Nat} {below states next : List Nat}
  {k : TokenKind}

theorem firstReduction?_of_shift (h : a.tables.action top k = .shift target) :
    a.firstReduction? (top :: below) k = none := by
  unfold firstReduction?
  dsimp only
  rw [h]

theorem firstReduction?_of_reduce {rule : Production}
    (haction : a.tables.action top k = .reduce production)
    (hrule : a.grammar.productions[production]? = some rule)
    (hreduce : a.reduce? (top :: below) production = some next) :
    a.firstReduction? (top :: below) k = some rule.lhs := by
  unfold firstReduction?
  dsimp only
  rw [haction]
  dsimp only
  rw [hrule, hreduce]

/-- The first kind of insertion that lets the next kinds be read is the repair. -/
theorem repair?_of_find? {window : Nat} {kinds : List TokenKind}
    (h : insertionKinds.find? (fun k => a.accepts states (k :: kinds.take (max window 1))) = some k) :
    a.repair? window states kinds = some (.insert [k]) := by
  unfold repair? insertion?
  dsimp only
  rw [h]

/-- What one kind completes is the first reduction behind it. -/
theorem constructAfter_of_feed {kind : TokenKind} (h : a.feed states kind = .shifted next) :
    a.constructAfter states [kind] k = match a.firstReduction? next k with
      | some id => a.grammar.nonterminalName id
      | none => "CompilationUnit" := by
  unfold constructAfter feedOrSplit
  dsimp only
  rw [h]
  rfl

end Automaton

/-! ### What views settle -/

section

open AspectLang.Language Outlook Automaton

variable {views : List View} {states : List Nat} {k : TokenKind}

theorem Outlook.find?_of_firstRead? {upcoming kinds : List TokenKind} {kind : TokenKind}
    (hshow : Show grammar views states) (hupcoming : ∀ k ∈ upcoming, k ∈ TokenKind.all)
    (hkinds : ∀ k ∈ kinds, k ∈ TokenKind.all)
    (h : outlook.firstRead? views upcoming kinds = some kind) :
    kinds.find? (fun k => automaton.accepts states (k :: upcoming)) = some kind := by
  induction kinds with
  | nil => cases h
  | cons k kinds ih =>
      have hread : ∀ {reads}, outlook.reads? (k :: upcoming) views = some reads →
          automaton.accepts states (k :: upcoming) = reads := fun hreads =>
        accepts_of_reads? fits_outlook wellFormed_grammar startIsolated_grammar
          (List.forall_mem_cons.mpr ⟨hkinds k List.mem_cons_self, hupcoming⟩) hshow hreads
      unfold firstRead? at h
      split at h
      · rename_i hreads
        rw [List.find?_cons, hread hreads]
        exact h
      · rename_i hreads
        rw [List.find?_cons, hread hreads]
        exact ih (fun j hj => hkinds j (List.mem_cons_of_mem k hj)) h
      · cases h

theorem Outlook.firstReduction?_of_firstReduced? {lhs : Option Nat}
    (hshow : Show grammar views states) (hkind : k ∈ TokenKind.all)
    (h : outlook.firstReduced? views k = some lhs) : automaton.firstReduction? states k = lhs := by
  unfold firstReduced? at h
  split at h
  · rename_i hturn
    obtain ⟨top, below, target, rfl, haction, _⟩ :=
      holds_turn? fits_outlook wellFormed_grammar startIsolated_grammar hkind hshow hturn
    obtain rfl := Option.some.inj h
    exact firstReduction?_of_shift haction
  · rename_i number _ hturn
    obtain ⟨top, below, production, origin, lower, target, rfl, haction, hp, hdrop, hgoto, _⟩ :=
      holds_turn? fits_outlook wellFormed_grammar startIsolated_grammar hkind hshow hturn
    rw [hp, Option.map_some, Option.some.injEq] at h
    subst h
    exact firstReduction?_of_reduce (haction.resolve_right fun hnot => Bool.noConfusion hnot.1) hp
      (Grammar.reduce?_of_goto hp hdrop hgoto)
  · cases h

/-- What an insertion is said to complete. -/
theorem Outlook.constructAfter_of_construct? {kind next : TokenKind} {construct : String}
    (hshow : Show grammar views states) (hkind : kind ∈ TokenKind.all) (hnext : next ∈ TokenKind.all)
    (h : outlook.construct? views kind next = some construct) :
    automaton.constructAfter states [kind] next = construct := by
  unfold construct? at h
  split at h
  · rename_i hfed
    obtain ⟨states', hfeed, hshow'⟩ :=
      feed_of_feed? fits_outlook wellFormed_grammar startIsolated_grammar hkind hshow hfed
    obtain ⟨lhs, hlhs, rfl⟩ := Option.map_eq_some_iff.mp h
    have hfeed : automaton.feed states kind = .shifted states' := hfeed
    rw [constructAfter_of_feed hfeed, firstReduction?_of_firstReduced? hshow' hnext hlhs]
    rfl
  · cases h

end

namespace Viewed

variable {p : ParserSetup} {v v' : Viewed} {states : List Nat}

open AspectLang.Language Outlook Machine

/-- An insertion that is found is made. -/
theorem recover_of_insertion {m : Machine} {t : Token} {kinds : List TokenKind}
    (hmay : m.mayRepair p = true)
    (hrepair : automaton.repair? p.settings.recoveryWindow m.states (m.rest.map Token.kind) =
      some (.insert kinds)) :
    recover p t m = (.running, Machine.insert kinds t { m with recovery.phase := .recovering }) := by
  unfold mayRepair at hmay
  simp only [Bool.and_eq_true, decide_eq_true_eq, Bool.not_eq_true'] at hmay
  obtain ⟨⟨hphase, hbudget⟩, hallows⟩ := hmay
  unfold recover
  rw [if_neg hphase, if_neg (by simp [hbudget]), if_neg (by simp [hallows])]
  dsimp only
  rw [hrepair]

/-- What an insertion needs: a token that is not split, a machine that may make a repair, and a kind
that is the repair. -/
theorem Shows.exists_repair {t : Token} (h : v.Shows states) (hinsert : v.insert? p t = some v') :
    ∃ kind construct, t.split = .whole ∧ v.machine.mayRepair p = true ∧ kind ∈ TokenKind.all ∧
      automaton.repair? p.settings.recoveryWindow states (v.machine.rest.map Token.kind) =
        some (.insert [kind]) ∧
      outlook.construct? v.views kind t.kind = some construct ∧
      v' = ⟨v.views, v.machine.completedBy construct kind t⟩ := by
  unfold insert? at hinsert
  split at hinsert
  · rename_i hmay
    split at hinsert
    · rename_i kind hread
      obtain ⟨construct, hconstruct, rfl⟩ := Option.map_eq_some_iff.mp hinsert
      have hkinds : ∀ k ∈ v.machine.rest.map Token.kind, k ∈ TokenKind.all :=
        List.forall_mem_map.mpr h.kinds
      have hinsertable : ∀ k ∈ Automaton.insertionKinds, k ∈ TokenKind.all := by decide
      have hfound := find?_of_firstRead? h.views
        (fun k hk => hkinds k (List.mem_of_mem_take hk)) hinsertable hread
      exact ⟨kind, construct, hmay.1, hmay.2, hinsertable kind (List.mem_of_find?_eq_some hfound),
        Automaton.repair?_of_find? hfound, hconstruct, rfl⟩
    · cases hinsert
  · cases hinsert

section

variable {t : Token} {rest : List Token} {state : Nat} {below : List Nat}
  (h : v.Shows (state :: below)) (hrest : v.machine.rest = t :: rest)
  (haction : tables.action state t.kind = .error) (hinsert : v.insert? p t = some v')

include h hrest haction hinsert

theorem Shows.nextRepair?_of_insert? :
    ∃ kind, (v.on (state :: below)).nextRepair? p = some (.insert [kind]) := by
  obtain ⟨kind, _, hwhole, hmay, _, hrepair, _, _⟩ := h.exists_repair hinsert
  have hseeks := seeksRepair_of_error (m := v.on (state :: below)) rfl hrest haction hwhole
  have hmay : (v.on (state :: below)).mayRepair p = true := hmay
  refine ⟨kind, ?_⟩
  unfold nextRepair?
  rw [hseeks, hmay, Bool.and_self, if_pos rfl]
  exact hrepair

theorem Shows.step_of_insert? :
    Machine.step p (v.on (state :: below)) = .ok .running (v'.on (state :: below)) ∧
      v'.Shows (state :: below) := by
  obtain ⟨kind, construct, hwhole, hmay, hkind, hrepair, hconstruct, rfl⟩ := h.exists_repair hinsert
  have hnext : t.kind ∈ TokenKind.all := h.kinds t (hrest ▸ List.mem_cons_self)
  have hseeks := seeksRepair_of_error (m := v.on (state :: below)) rfl hrest haction hwhole
  refine ⟨?_, h.views, List.forall_mem_cons.mpr ⟨hkind, h.kinds⟩⟩
  have hrecover := recover_of_insertion (m := v.on (state :: below)) (t := t) hmay hrepair
  rw [step_of_seeksRepair hseeks hrest, hrecover]
  unfold Machine.insert
  dsimp only [on]
  rw [constructAfter_of_construct? h.views hkind hnext hconstruct]
  rfl

end

/-- A reduction whose action does not fail is made, if the state on top reduces. -/
theorem Shows.step_of_reducedTo? {t : Token} {rest : List Token} {state number origin target : Nat}
    {below lower : List Nat} {rule : Rule} {next : List View} {reduced : Machine}
    (h : v.Shows (state :: below)) (hrest : v.machine.rest = t :: rest)
    (haction : tables.action state t.kind = .reduce number) (hrule : ruleArray[number]? = some rule)
    (hdrop : (state :: below).drop rule.rhs.length = origin :: lower)
    (hgoto : tables.goto? origin rule.lhs.index = some target)
    (hreduced : v.machine.reducedTo? p [] rule number t.span = some reduced)
    (hshow : Show grammar next (target :: origin :: lower)) :
    Machine.step p (v.on (state :: below)) =
        .ok .running ((Viewed.mk next reduced).on (target :: origin :: lower)) ∧
      (Viewed.mk next reduced).Shows (target :: origin :: lower) := by
  unfold reducedTo? at hreduced
  dsimp only at hreduced
  split at hreduced
  · rename_i work hact
    obtain rfl := Option.some.inj hreduced
    have hact' : Work.act p.dialect ((v.on (state :: below)).handle rule.rhs.length t.span)
        rule.action ((v.on (state :: below)).popped rule.rhs.length number).work =
          .ok () work := hact
    refine ⟨?_, hshow, h.kinds⟩
    rw [step_eq (m := v.on (state :: below)) rfl hrest, haction]
    dsimp only
    rw [reduce_eq (m := v.on (state :: below)) hrule hdrop hgoto, hact']
    rfl
  · cases hreduced

/-- **A step of a viewed machine is one of the machines that it shows.** -/
theorem Shows.step (h : v.Shows states) (hstep : v.step? p = some v') :
    ∃ states', Machine.step p (v.on states) = .ok .running (v'.on states') ∧ v'.Shows states' := by
  unfold step? at hstep
  split at hstep
  · cases hstep
  · rename_i t rest hrest
    have hkinds := h.kinds
    rw [hrest] at hkinds
    obtain ⟨hkind, hkinds'⟩ := List.forall_mem_cons.mp hkinds
    split at hstep
    · rename_i hturn
      obtain rfl := Option.some.inj hstep
      obtain ⟨top, below, target, rfl, haction, hshow⟩ :=
        holds_turn? fits_outlook wellFormed_grammar startIsolated_grammar hkind h.views hturn
      have haction : tables.action top t.kind = .shift target := haction
      refine ⟨target :: top :: below, ?_, hshow, hkinds'⟩
      rw [step_eq (m := v.on (top :: below)) rfl hrest, haction]
      rfl
    · rename_i number views hturn
      obtain ⟨top, below, production, origin, lower, target, rfl, haction, hp, hdrop, hgoto,
        hshow⟩ := holds_turn? fits_outlook wellFormed_grammar startIsolated_grammar hkind h.views
          hturn
      have haction : tables.action top t.kind = .reduce number :=
        haction.resolve_right fun hnot => Bool.noConfusion hnot.1
      split at hstep
      · rename_i rule hrule
        obtain ⟨reduced, hreduced, rfl⟩ := Option.map_eq_some_iff.mp hstep
        have hproduction := Option.some.inj ((productions_of_rule hrule).symm.trans hp)
        have hlength : production.rhs.length = rule.rhs.length := by
          rw [← hproduction]
          exact List.length_map _
        rw [hlength] at hdrop
        rw [← congrArg Production.lhs hproduction] at hgoto
        exact ⟨target :: origin :: lower,
          h.step_of_reducedTo? hrest haction hrule hdrop hgoto hreduced hshow⟩
      · cases hstep
    · rename_i hturn
      obtain ⟨top, below, rfl, haction⟩ :=
        holds_turn? fits_outlook wellFormed_grammar startIsolated_grammar hkind h.views hturn
      obtain ⟨hstep, hshows⟩ := h.step_of_insert? hrest haction hstep
      exact ⟨top :: below, hstep, hshows⟩
    · cases hstep

/-- The steps of a viewed machine lead where those of the machines lead that it shows. -/
theorem Shows.walks {n : Nat} (h : v.Shows states) (hsteps : v.steps? p n = some v') :
    ∃ states', Walks p n (v.on states) (v'.on states') ∧ v'.Shows states' := by
  induction n generalizing v states with
  | zero =>
      obtain rfl := Option.some.inj hsteps
      exact ⟨states, .zero, h⟩
  | succ n ih =>
      obtain ⟨next, hnext, hsteps⟩ := Option.bind_eq_some_iff.mp hsteps
      obtain ⟨states₁, hstep, h₁⟩ := h.step hnext
      obtain ⟨states', hwalks, h'⟩ := ih h₁ hsteps
      exact ⟨states', .succ hstep hwalks, h'⟩

end Viewed

/-- The viewed machine after some steps on tokens without lexical errors. -/
def Parser.follow? (p : Parser) (tokens : List Token) (endOffset n : Nat) : Option Viewed :=
  Language.startView?.bind fun v =>
    Viewed.steps? p.setup n ⟨[v], p.start ⟨tokens.map .ok, endOffset⟩⟩

theorem Parser.start_of_tokens (p : Parser) {stream : TokenStream} {tokens : List Token}
    {endOffset : Nat} (htokens : stream.tokens = tokens) (herrors : stream.errors = [])
    (hend : stream.endOffset = endOffset) :
    p.start stream = p.start ⟨tokens.map .ok, endOffset⟩ := by
  have htokens' : TokenStream.tokens ⟨tokens.map .ok, endOffset⟩ = tokens := by
    unfold TokenStream.tokens
    rw [List.filterMap_map]
    exact List.filterMap_some
  have herrors' : TokenStream.errors ⟨tokens.map .ok, endOffset⟩ = [] := by
    unfold TokenStream.errors
    rw [List.filterMap_map, List.filterMap_eq_nil_iff]
    exact fun _ _ => rfl
  unfold start reportLexical
  rw [htokens, herrors, hend, htokens', herrors']

/-- **A parser goes through the machines that are shown** by following its views. -/
theorem Parser.walks_of_follow? {p : Parser} {stream : TokenStream} {tokens : List Token}
    {endOffset n : Nat} {v : Viewed} (htokens : stream.tokens = tokens)
    (herrors : stream.errors = []) (hend : stream.endOffset = endOffset)
    (hkinds : ∀ t ∈ tokens, t.kind ∈ TokenKind.all) (h : p.follow? tokens endOffset n = some v) :
    ∃ states, Machine.Walks p.setup n (p.start stream) (v.on states) ∧ v.Shows states := by
  obtain ⟨first, hfirst, hsteps⟩ := Option.bind_eq_some_iff.mp h
  have hstart := p.start_of_tokens htokens herrors hend
  have hrest : (p.start stream).rest = tokens ++ [Token.eof endOffset] := by
    change stream.tokens ++ [Token.eof stream.endOffset] = _
    rw [htokens, hend]
  rw [← hstart] at hsteps
  have hshows : Viewed.Shows ⟨[first], p.start stream⟩ [0] := by
    refine ⟨Language.show_start hfirst, fun t ht => ?_⟩
    rcases List.mem_append.mp (hrest ▸ ht) with ht | ht
    · exact hkinds t ht
    · rw [List.mem_singleton.mp ht]
      exact (by decide : TokenKind.eof ∈ TokenKind.all)
  exact hshows.walks hsteps

/-- The outcome of a unit does not depend on the states of the machine. -/
theorem Parser.finishAccepted_on {v : Viewed} {length : Nat} {o : ParseOutcome} {m : Machine}
    (h : Parser.finishAccepted length v.machine = .ok o m) (states : List Nat) :
    ∃ m', Parser.finishAccepted length (v.on states) = .ok o m' := by
  unfold finishAccepted at h ⊢
  cases hunit : v.machine.work.unit with
  | none =>
      rw [hunit] at h
      cases h
  | some unit =>
      dsimp only [Viewed.on]
      rw [hunit] at h ⊢
      dsimp only at h ⊢
      split at h
      · rename_i hzero
        rw [if_pos hzero]
        cases h
        exact ⟨_, rfl⟩
      · cases h

/-- **A unit is parsed as it is viewed to be**, if its machine is followed until it accepts. -/
theorem Parser.parseStream_of_follow? {p : Parser} {stream : TokenStream} {tokens : List Token}
    {n : Nat} {o : ParseOutcome} (htokens : stream.tokens = tokens) (herrors : stream.errors = [])
    (hkinds : ∀ t ∈ tokens, t.kind ∈ TokenKind.all) (hn : n < stepLimit)
    (h : (p.follow? tokens stream.endOffset n).bind (·.outcome? stream.endOffset) = some o) :
    (p.parseStream stream).1 = .ok o := by
  obtain ⟨v, hv, ho⟩ := Option.bind_eq_some_iff.mp h
  obtain ⟨states, hwalks, hshows⟩ := Parser.walks_of_follow? htokens herrors rfl hkinds hv
  unfold Viewed.outcome? at ho
  split at ho
  · cases ho
  · rename_i t rest hrest
    split at ho
    · rename_i hturn
      split at ho
      · rename_i last hfinish
        cases ho
        have hkind := hshows.kinds t (hrest ▸ List.mem_cons_self)
        obtain ⟨top, below, rfl, haction⟩ := Outlook.holds_turn? Language.fits_outlook
          Language.wellFormed_grammar Language.startIsolated_grammar hkind hshows.views hturn
        have haction : Language.tables.action top t.kind = .accept := haction
        have hstep : Machine.step p.setup (v.on (top :: below)) =
            .ok .accepted (v.on (top :: below)) := by
          rw [Machine.step_eq (m := v.on (top :: below)) rfl hrest, haction]
        obtain ⟨last', hfinish'⟩ := Parser.finishAccepted_on hfinish (top :: below)
        have hrun := Machine.run_of_walks_ok hwalks hstep nofun hn stepLimit
        rw [parseStream_of_finish_ok hrun hfinish']
      · cases ho
    · cases ho

end AspectLang
