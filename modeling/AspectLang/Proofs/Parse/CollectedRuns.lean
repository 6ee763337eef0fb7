import AspectLang.Proofs.Aspect.RunTexts
import AspectLang.Proofs.Parse.ShownTokens
import AspectLang.Proofs.Parse.ViewedMachines

/-! # Runs that the parser collects

The actions of headers, pointcuts, advice and declare statements take their pseudo tokens off the
stack and join them with the token that ends them (`Work.collect?`).  So the pseudo tokens of a run
show tokens in the order in which they were read (`Work.shown_collect`), and these stand in the text
one behind the other (`Machine.inReadingOrder_step`).  The main theorem (`tokenize_collected`) says
that the text of a run of tokens of the source is read as the texts of its tokens. -/

namespace AspectLang

open Scanner (stream tokenize)

/-! ### Collecting -/

/-- What an action takes off the stacks before it reads a run: the run, its first fragments, and the
annotation behind it. -/
structure Collected where
  run : Fragment
  header : List Fragment := []
  annotationUse : Option AnnotationUse := none

namespace Work

/-- Fragments with the token that ends their run. -/
def endRun (fragments : List Fragment) (terminator : String) (place : Span) : Fragment :=
  Factory.aspects.joinTokens (fragments ++ [Factory.aspects.pseudoToken terminator false place])

/-- How an action that reads a run takes it off the stacks. -/
def collect? (c : Handle) : AspectAction → Option (Work Collected)
  | .headerRest => some do
    let rest ← if c.arity = 2 then popFragments else pure []
    let first ← popFragment
    return { run := endRun (first :: rest) "\x7b" c.lookahead }
  | .pointcutDecl true => some do
    let tokens ← popFragments
    return { run := endRun tokens ";" c.lastSpan }
  | .adviceHeader _ => some do
    let tokens ← popFragments
    return { run := endRun tokens "\x7b" c.lookahead }
  | .declareDecl => some do
    let body ← popFragments
    let header ← popFragments
    return { run := endRun (header ++ body) ";" (c.span 2), header }
  | .annotationDeclare _ => some do
    let annotationUse ← expectNode .expression .annotationUse (← popExpr).annotationUse?
    let pattern ← popFragments
    let header ← popFragments
    return { run := endRun (header ++ pattern) ";" c.lastSpan, header, annotationUse }
  | _ => none

/-- What an action does with the run that it has taken off the stacks. -/
def finishRun (c : Handle) : AspectAction → Collected → Work Unit
  | .headerRest, collected => do
    let aspect ← typeOnTop .aspect
    let aspect ← withReporter (Factory.aspects.setDominates collected.run aspect)
    let aspect ← withReporter (Factory.aspects.setPerClause collected.run aspect)
    replaceTop (.type (reachTo collected.run.span.stop aspect))
  | .pointcutDecl _, collected => do
    let designator ← withReporter (Factory.aspects.designator collected.run)
    let parameters ← popParameters
    updateMethod fun m =>
      { Factory.aspects.setDesignator designator { m with parameters } with
        bodyEnd := some c.lastSpan.stop
        extent.declaration.stop := c.lastSpan.stop }
  | .adviceHeader extra, collected => do
    let throws ← popTypes
    let extra ← if extra then
        match ← popOptionalNode with
        | none => pure none
        | some n => some <$> expectNode .ast .extraParameter (asExtraParameter? n)
      else pure none
    let parameters ← popParameters
    let designator ← withReporter (Factory.aspects.designator collected.run)
    let advice ← methodOnTop .advice
    let advice := Factory.aspects.setDesignator designator
      { advice with parameters, throws, extent.declaration.stop := c.whole.stop }
    let advice ← match extra with
      | some extra => withReporter (applyExtra .aspects extra advice)
      | none => pure advice
    replaceTop (.method advice)
  | .declareDecl, collected => do
    let (keyword, kind) := headerSpans collected.header 1 c
    let w ← get
    match Factory.aspects.newDeclare collected.run w.reporter with
    | .error text => throw (.crash (.brokenText text))
    | .ok (m, reporter) =>
      set { w with reporter }
      pushNode (.method (endAtSemicolon kind keyword.start (c.span 2) m))
  | .annotationDeclare sign, collected =>
    match collected.annotationUse with
    | none => pure ()
    | some annotationUse => do
      let (keyword, kind) := headerSpans collected.header 2 c
      let m ← withReporter (Factory.aspects.newAnnotationDeclare collected.run annotationUse sign)
      pushNode (.method (endAtSemicolon kind keyword.start c.lastSpan m))
  | _, _ => pure ()

variable {w w' : Workspace} {c : Handle} {action : AspectAction} {take : Work Collected}

/-- An action that reads a run takes it off the stacks first. -/
theorem aspectAction_of_collect? (h : collect? c action = some take) :
    aspectAction (.enabled .aspects) c action = take >>= finishRun c action := by
  unfold collect? at h
  split at h
  · cases h
    by_cases hrest : c.arity = 2 <;>
      simp [aspectAction, factoryFor, headerRest, finishRun, endRun, hrest]
  · cases h
    simp [aspectAction, factoryFor, pointcutDecl, finishRun, endRun]
  · cases h
    rw [bind_assoc]
    rfl
  · cases h
    simp only [bind_assoc]
    rfl
  · cases h
    simp [aspectAction, factoryFor, annotationDeclare, finishRun, endRun]
  · cases h

/-! ### The tokens of a run -/

/-- The pseudo tokens of fragments, without guards. -/
def shownIn (fragments : List Fragment) : List PseudoToken :=
  (fragments.flatMap Factory.tokensIn).filter (·.condition.isNone)

theorem shownIn_append (above below : List Fragment) :
    shownIn (below ++ above) = shownIn below ++ shownIn above := by
  unfold shownIn
  rw [List.flatMap_append, List.filter_append]

theorem shown_fragments (fragments : List Fragment) :
    (fragments.map Node.fragment).flatMap Node.shown = shownIn fragments := by
  unfold shownIn
  induction fragments with
  | nil => rfl
  | cons first rest ih =>
      rw [List.map_cons, List.flatMap_cons, List.flatMap_cons, List.filter_append, ih]
      rfl

theorem eq_of_mapM_asFragment? {ns : List Node} {fragments : List Fragment}
    (h : ns.mapM asFragment? = some fragments) : ns = fragments.map Node.fragment := by
  induction ns generalizing fragments with
  | nil =>
      cases h
      rfl
  | cons n ns ih =>
      rw [List.mapM_cons] at h
      obtain ⟨first, hfirst, h⟩ := Option.bind_eq_some_iff.mp h
      obtain ⟨rest, hrest, h⟩ := Option.bind_eq_some_iff.mp h
      cases h
      rw [List.map_cons, ← ih hrest]
      cases n <;> cases hfirst
      rfl

theorem shown_popFragments {fragments : List Fragment} (h : popFragments w = .ok fragments w') :
    w.values.nodes.shown = w'.values.nodes.shown ++ shownIn fragments := by
  obtain ⟨ns, middle, hpop, hexpect⟩ := exists_of_bind (a := popNodes) h
  obtain ⟨rfl, hread⟩ := expectNode_ok hexpect
  obtain rfl := eq_of_mapM_asFragment? hread
  unfold SegmentStack.shown SegmentStack.toList
  rw [SegmentStack.items_of_popSegment (onNodes_ok hpop), List.reverse_append, List.reverse_reverse,
    List.flatMap_append, shown_fragments]

theorem shown_popFragment {fragment : Fragment} (h : popFragment w = .ok fragment w') :
    w.values.nodes.shown = w'.values.nodes.shown ++ shownIn [fragment] := by
  obtain ⟨n, middle, hpop, hexpect⟩ := exists_of_bind (a := popNode) h
  obtain ⟨rfl, hread⟩ := expectNode_ok hexpect
  have hpopped := onNodes_ok hpop
  unfold SegmentStack.pop at hpopped
  split at hpopped
  · cases hpopped
  · split at hpopped
    · split at hpopped
      · cases hpopped
      · rename_i hitems
        cases n <;> cases hread
        obtain ⟨rfl, hrest⟩ := EStateM.Result.ok.inj hpopped
        unfold SegmentStack.shown SegmentStack.toList
        rw [hitems, ← hrest, List.reverse_cons, List.flatMap_append, ← shown_fragments]
        rfl
    · cases hpopped

/-- A run ends with its terminator. -/
theorem tokens_endRun (fragments : List Fragment) (terminator : String) (place : Span) :
    (endRun fragments terminator place).tokens =
      fragments.flatMap Factory.tokensIn ++ [⟨terminator, false, place, none, none⟩] := by
  change (fragments ++ [_]).flatMap Factory.tokensIn = _
  rw [List.flatMap_append]
  rfl

/-- A run of fragments that were on top of the stack, with a bracket or a semicolon at its end. -/
theorem exists_endRun {fragments : List Fragment} {k : TokenKind} (hk : k ∈ Scanner.separators)
    (place : Span) (h : ∃ shown, w.values.nodes.shown = shown ++ shownIn fragments) :
    ∃ front last, (endRun fragments k.grammarName place).tokens = front ++ [last] ∧
      last.IsSeparator ∧ (front.filter (·.condition.isNone)).Sublist w.values.nodes.shown := by
  obtain ⟨shown, hshown⟩ := h
  refine ⟨_, _, tokens_endRun .., ⟨k, hk, rfl⟩, ?_⟩
  rw [hshown]
  exact List.sublist_append_right ..

/-- The token that ends a run is a bracket or a semicolon, and those before it were shown on the
stack. -/
theorem shown_collect {collected : Collected} (h : collect? c action = some take)
    (htake : take w = .ok collected w') : ∃ front last, collected.run.tokens = front ++ [last] ∧
      last.IsSeparator ∧
        (front.filter (·.condition.isNone)).Sublist w.values.nodes.shown := by
  unfold collect? at h
  split at h
  · cases h
    dsimp only at htake
    split at htake
    · obtain ⟨rest, w₁, hrest, htake⟩ := exists_of_bind (a := popFragments) htake
      obtain ⟨first, w₂, hfirst, htake⟩ := exists_of_bind (a := popFragment) htake
      cases htake
      refine exists_endRun (k := .lBrace) (by decide) _ ⟨w'.values.nodes.shown, ?_⟩
      rw [shown_popFragments hrest, shown_popFragment hfirst, List.append_assoc, ← shownIn_append]
      rfl
    · rw [pure_bind] at htake
      obtain ⟨first, w₂, hfirst, htake⟩ := exists_of_bind (a := popFragment) htake
      cases htake
      exact exists_endRun (k := .lBrace) (by decide) _ ⟨_, shown_popFragment hfirst⟩
  · cases h
    obtain ⟨tokens, w₁, htokens, htake⟩ := exists_of_bind (a := popFragments) htake
    cases htake
    exact exists_endRun (k := .semicolon) (by decide) _ ⟨_, shown_popFragments htokens⟩
  · cases h
    obtain ⟨tokens, w₁, htokens, htake⟩ := exists_of_bind (a := popFragments) htake
    cases htake
    exact exists_endRun (k := .lBrace) (by decide) _ ⟨_, shown_popFragments htokens⟩
  · cases h
    obtain ⟨body, w₁, hbody, htake⟩ := exists_of_bind (a := popFragments) htake
    obtain ⟨header, w₂, hheader, htake⟩ := exists_of_bind (a := popFragments) htake
    cases htake
    refine exists_endRun (k := .semicolon) (by decide) _ ⟨w'.values.nodes.shown, ?_⟩
    rw [shown_popFragments hbody, shown_popFragments hheader, List.append_assoc, ← shownIn_append]
  · cases h
    obtain ⟨e, w₁, he, htake⟩ := exists_of_bind (a := popExpr) htake
    obtain ⟨annotationUse, w₂, hexpect, htake⟩ := exists_of_bind htake
    obtain ⟨pattern, w₃, hpattern, htake⟩ := exists_of_bind (a := popFragments) htake
    obtain ⟨header, w₄, hheader, htake⟩ := exists_of_bind (a := popFragments) htake
    cases htake
    obtain ⟨rfl, _⟩ := expectNode_ok hexpect
    rw [← nodes_popExpr he]
    refine exists_endRun (k := .semicolon) (by decide) _ ⟨w'.values.nodes.shown, ?_⟩
    rw [shown_popFragments hpattern, shown_popFragments hheader, List.append_assoc,
      ← shownIn_append]
  · cases h

end Work

/-! ### Tokens in the order in which they are read -/

/-- The text of an inserted token is that of its kind. -/
theorem Token.spelled_inserted (kind : TokenKind) (place : Span) :
    Spelled ⟨kind, place, kind.lexeme?.getD ""⟩ := by
  intro text htext
  change kind.lexeme?.getD "" = text
  rw [htext]
  rfl

/-- The pieces of a token have the texts of their kinds. -/
theorem Token.spelled_halves {t first second : Token} (h : t.split = .halves first second)
    (ht : t.Spelled) : first.Spelled ∧ second.Spelled := by
  have htwo : dropByte? ">>" = some ">" := by decide
  have hthree : dropByte? ">>>" = some ">>" := by decide
  obtain ⟨kinds, rest, hkinds, hrest, _, rfl, rfl⟩ := of_split_halves h
  obtain ⟨kind, span, text⟩ := t
  dsimp only at hkinds hrest
  cases kind with
  | shiftRight =>
      obtain rfl : text = ">>" := ht _ rfl
      obtain rfl : ">" = rest := Option.some.inj (htwo.symm.trans hrest)
      cases hkinds
      exact ⟨fun _ htext => Option.some.inj htext, fun _ htext => Option.some.inj htext⟩
  | shiftRightUnsigned =>
      obtain rfl : text = ">>>" := ht _ rfl
      obtain rfl : ">>" = rest := Option.some.inj (hthree.symm.trans hrest)
      cases hkinds
      exact ⟨fun _ htext => Option.some.inj htext, fun _ htext => Option.some.inj htext⟩
  | _ => cases hkinds

/-- Tokens of the source have the texts of their kinds. -/
theorem Scanner.spelled_stream {source : String} {t : Token} (ht : t ∈ (stream source).tokens) :
    t.Spelled := by
  intro text htext
  obtain ⟨behind, hstands⟩ := exists_standsIn ht
  have hcovers : t.kind.Covers t.text.toList := hstands.takes.first.exists_mem
  exact String.ext (hcovers.eq_of_lexeme? htext)

namespace Machine

variable {p : ParserSetup} {m m' : Machine} {limit : Nat}

/-- The pseudo tokens on the stack show tokens that were read; these and the tokens that are left
stand one behind the other. -/
structure ReadUpTo (limit offset : Nat) (m : Machine) (seen : List Token) : Prop where
  trails : m.Trails seen
  order : seen.Pairwise fun t u => t.span.stop ≤ u.span.start
  behind : ∀ t ∈ seen, t.span.stop ≤ offset
  previous : ∀ t ∈ m.previous, t.span.stop = offset
  queued : Token.Queued limit offset m.rest
  spelled : ∀ t ∈ m.rest, t.Spelled

/-- The pseudo tokens on the stack show tokens in the order in which they were read. -/
def InReadingOrder (limit : Nat) (m : Machine) : Prop :=
  m.Staged ∧ ∃ offset seen, m.ReadUpTo limit offset seen

theorem inReadingOrder_reduce {dialect : Dialect} {lookahead : Span} {state production : Nat}
    {below : List Nat} {kind : TokenKind} (h : m.InReadingOrder limit)
    (hbalanced : m.Balanced False) (hstates : m.states = state :: below)
    (haction : Language.tables.action state kind = .reduce production)
    (hreduce : reduce dialect production lookahead m = .ok () m') : m'.InReadingOrder limit := by
  obtain ⟨hstaged, offset, seen, htrails, horder, hbehind, hprevious, hqueued, hspelled⟩ := h
  have hstaged' := staged_reduce hstaged hbalanced hstates haction hreduce
  have htrails' := trails_reduce htrails hstaged hbalanced hstates haction hreduce
  obtain ⟨symbols, hspells, _⟩ := htrails
  obtain ⟨rule, origin, rest, before, target, hrule, hdrop, rfl, hgoto, _⟩ :=
    exists_rule hspells hstates haction
  rw [reduce_eq hrule hdrop hgoto] at hreduce
  split at hreduce <;> cases hreduce
  exact ⟨hstaged', offset, seen, htrails', horder, hbehind, hprevious, hqueued, hspelled⟩

theorem inReadingOrder_afterShift {state target : Nat} {below : List Nat} {t : Token}
    {rest : List Token} (h : m.InReadingOrder limit) (hstates : m.states = state :: below)
    (hrest : m.rest = t :: rest) (haction : Language.tables.action state t.kind = .shift target) :
    (m.afterShift p t rest target).InReadingOrder limit := by
  obtain ⟨hstaged, offset, seen, htrails, horder, hbehind, hprevious, hqueued, hspelled⟩ := h
  rw [hrest] at hqueued hspelled
  obtain ⟨ht, hrest'⟩ := List.forall_mem_cons.mp hspelled
  refine ⟨stands_afterShift hstaged hstates haction, t.span.stop, seen ++ [t],
    trails_afterShift htrails ht hstates haction, ?_, ?_, ?_, hqueued.2.2, hrest'⟩
  · refine List.pairwise_append.mpr ⟨horder, List.pairwise_singleton _ _, fun u hu v hv => ?_⟩
    rw [List.mem_singleton.mp hv]
    exact (hbehind u hu).trans hqueued.1
  · intro u hu
    rcases List.mem_append.mp hu with hu | hu
    · exact (hbehind u hu).trans (hqueued.1.trans hqueued.start_le_stop)
    · rw [List.mem_singleton.mp hu]
  · intro u hu
    cases hu
    rfl

theorem inReadingOrder_recover {t : Token} {rest : List Token} (h : m.InReadingOrder limit)
    (hrest : m.rest = t :: rest) : (recover p t m).2.InReadingOrder limit := by
  obtain ⟨hstaged, offset, seen, htrails, horder, hbehind, hprevious, hqueued, hspelled⟩ := h
  have hkeeps := keeps_recover p t m
  refine ⟨stands_recover hstaged, offset, seen, ?_, horder, hbehind, ?_,
    queued_recover hrest hprevious hqueued, fun u hu => ?_⟩
  · unfold Trails
    rw [hkeeps.states, hkeeps.spans, hkeeps.values]
    exact htrails
  · rw [(recover_cases p t m).1]
    exact hprevious
  · rcases mem_rest_recover hu with hu | ⟨kind, place, _, rfl⟩
    · exact hspelled u hu
    · exact Token.spelled_inserted kind place

/-- **A step keeps the order in which pseudo tokens show what was read.** -/
theorem inReadingOrder_step {progress : Progress} (h : m.InReadingOrder limit)
    (hbalanced : m.Balanced False) (hstep : step p m = .ok progress m') :
    m'.InReadingOrder limit := by
  obtain ⟨symbols, hspells, _⟩ := h.1
  obtain ⟨state, below, hstates⟩ := List.exists_cons_of_ne_nil hspells.ne_nil
  cases hrest : m.rest with
  | nil =>
      rw [step_of_no_tokens hstates hrest] at hstep
      cases hstep
  | cons t rest =>
      cases stepped_of_step hstates hrest hstep with
      | shift haction => exact inReadingOrder_afterShift h hstates hrest haction
      | reduce haction hreduce => exact inReadingOrder_reduce h hbalanced hstates haction hreduce
      | accept => exact h
      | split _ hsplit =>
          obtain ⟨hstaged, offset, seen, htrails, horder, hbehind, hprevious, hqueued, hspelled⟩ := h
          rw [hrest] at hqueued hspelled
          obtain ⟨ht, hrest'⟩ := List.forall_mem_cons.mp hspelled
          obtain ⟨hfirst, hsecond⟩ := Token.spelled_halves hsplit ht
          exact ⟨hstaged, offset, seen, htrails, horder, hbehind, hprevious, hqueued.halves hsplit,
            List.forall_mem_cons.mpr ⟨hfirst, List.forall_mem_cons.mpr ⟨hsecond, hrest'⟩⟩⟩
      | repair => exact inReadingOrder_recover h hrest

/-- The reductions that only waited for a token keep it too. -/
theorem inReadingOrder_settle {dialect : Dialect} {offset gas : Nat} (h : m.InReadingOrder limit)
    (hbalanced : m.Balanced False) (hsettle : settle dialect offset gas m = .ok () m') :
    m'.InReadingOrder limit :=
  settle_keeps (fun _ _ _ _ _ h hbalanced => inReadingOrder_reduce h hbalanced) h hbalanced hsettle

/-- A reduction that the machine can make reads a run, which its action takes off the stacks. -/
def Collects (m : Machine) (run : Fragment) : Prop :=
  ∃ state below kind production rule action lookahead take collected w,
    m.states = state :: below ∧ Language.tables.action state kind = .reduce production ∧
      Language.ruleArray[production]? = some rule ∧ rule.action = .aspect action ∧
        Work.collect? (m.handle rule.rhs.length lookahead) action = some take ∧
          take (m.popped rule.rhs.length production).work = .ok collected w ∧ collected.run = run

/-- The tokens of a run that is collected show tokens in the order in which they were read; a
bracket or a semicolon ends them. -/
theorem InReadingOrder.exists_shown {run : Fragment} (h : m.InReadingOrder limit)
    (hrun : m.Collects run) (hplain : ∀ t ∈ run.tokens, t.condition = none) :
    ∃ front last, run.tokens = front ++ [last] ∧ last.IsSeparator ∧
      front.Pairwise fun t u => t.span.stop ≤ u.span.start := by
  obtain ⟨_, offset, seen, htrails, horder, _⟩ := h
  obtain ⟨state, below, kind, production, rule, action, lookahead, take, collected, w, _, _, _, _,
    htake, hcollected, rfl⟩ := hrun
  obtain ⟨_, _, htrail⟩ := htrails
  obtain ⟨front, last, htokens, hlast, hshown⟩ := Work.shown_collect htake hcollected
  refine ⟨front, last, htokens, hlast, ?_⟩
  have hall : front.filter (·.condition.isNone) = front := by
    refine List.filter_eq_self.mpr fun t ht => ?_
    rw [hplain t (htokens ▸ List.mem_append_left _ ht)]
    rfl
  rw [hall] at hshown
  refine List.Pairwise.sublist (hshown.trans htrail.shown) ?_
  exact List.pairwise_map.mpr horder

end Machine

namespace Parser

variable {p : Parser} {source : String} {m : Machine}

/-- A machine that a parse goes through, be it at its end, when what was not finished is reduced as
far as it goes. -/
inductive Visits (p : Parser) (stream : TokenStream) : Machine → Prop
  | walked {k : Nat} {m : Machine} : Machine.Walks p.setup k (p.start stream) m → Visits p stream m
  | settled {gas : Nat} {m m' : Machine} :
      Machine.run p.setup stepLimit stepLimit (p.start stream) = .ok .abandoned m →
        Machine.settle p.setup.dialect stream.endOffset gas m = .ok () m' → Visits p stream m'

theorem inReadingOrder_start (p : Parser) (source : String) :
    (p.start (stream source)).InReadingOrder (stream source).endOffset := by
  refine ⟨p.staged_start _, 0, [], ⟨[], .start, .start rfl⟩, .nil, nofun, nofun,
    Scanner.queued_stream source, fun t ht => ?_⟩
  rcases List.mem_append.mp ht with ht | ht
  · exact Scanner.spelled_stream ht
  · rw [List.mem_singleton.mp ht]
    exact fun _ htext => nomatch htext

/-- What steps keep, and what was not finished at the end, is so of every machine that is visited. -/
theorem Visits.keeps {P : Machine → Prop} {input : TokenStream} (h : p.Visits input m)
    (hstep : ∀ (m m' : Machine) (progress : Progress), P m → m.Balanced False →
      Machine.step p.setup m = .ok progress m' → P m')
    (hsettle : ∀ (gas : Nat) (m m' : Machine), P m → m.Balanced False →
      Machine.settle p.setup.dialect input.endOffset gas m = .ok () m' → P m')
    (hstart : P (p.start input)) : P m := by
  have hleads : Machine.Leads .nothing .running (p.start input) :=
    p.leads_start_nothing _
  cases h with
  | walked hwalks => exact (hwalks.keeps hstep hstart hleads).1
  | settled hrun hsettled =>
      exact hsettle _ _ _ (Machine.run_keeps hstep hstart hleads hrun) (leads_of_run hrun) hsettled

theorem Visits.inReadingOrder (h : p.Visits (stream source) m) :
    m.InReadingOrder (stream source).endOffset :=
  h.keeps (fun _ _ _ h hbalanced => Machine.inReadingOrder_step h hbalanced)
    (fun _ _ _ h hbalanced => Machine.inReadingOrder_settle h hbalanced)
    (p.inReadingOrder_start source)

end Parser

/-! ### Runs that viewed machines collect -/

namespace Viewed

open AspectLang.Language Outlook

variable {v : Viewed} {states : List Nat}

/-- The run that the next reduction collects. -/
def collected? (v : Viewed) : Option Fragment :=
  match v.machine.rest with
  | [] => none
  | t :: _ =>
    match Language.outlook.turn? t.kind v.views with
    | some (.reduced number true _) =>
      match Language.ruleArray[number]? with
      | some ⟨_, rhs, .aspect action⟩ =>
        match Work.collect? (v.machine.handle rhs.length t.span) action with
        | some take =>
          match take (v.machine.popped rhs.length number).work with
          | .ok collected _ => some collected.run
          | .error _ _ => none
        | none => none
      | _ => none
    | _ => none

/-- What the next reduction of a viewed machine collects is collected. -/
theorem Shows.collects {run : Fragment} (h : v.Shows states) (hrun : v.collected? = some run) :
    (v.on states).Collects run := by
  unfold collected? at hrun
  split at hrun
  · cases hrun
  · rename_i t rest hrest
    have hkind : t.kind ∈ TokenKind.all := h.kinds t (hrest ▸ List.mem_cons_self)
    split at hrun
    · rename_i number views hturn
      obtain ⟨top, below, production, origin, lower, target, rfl, haction, _⟩ :=
        holds_turn? fits_outlook wellFormed_grammar startIsolated_grammar hkind h.views hturn
      have haction : tables.action top t.kind = .reduce number :=
        haction.resolve_right fun hnot => Bool.noConfusion hnot.1
      split at hrun
      · rename_i lhs rhs action hrule
        split at hrun
        · rename_i take htake
          split at hrun
          · rename_i collected w hcollected
            obtain rfl := Option.some.inj hrun
            exact ⟨top, below, t.kind, number, _, action, t.span, take, collected, w, rfl, haction,
              hrule, rfl, htake, hcollected, rfl⟩
          · cases hrun
        · cases hrun
      · cases hrun
    · cases hrun

end Viewed

/-- A pseudo token without what cannot be compared: its text, its place, and whether it has a
guard. -/
def PseudoToken.outline (t : PseudoToken) : String × Span × Bool :=
  (t.value, t.span, t.condition.isSome)

/-- The outlines of the tokens of a run that a parser collects after some steps. -/
def Parser.collectedAfter? (p : Parser) (tokens : List Token) (endOffset n : Nat) :
    Option (List (String × Span × Bool)) :=
  ((p.follow? tokens endOffset n).bind Viewed.collected?).map fun run =>
    run.tokens.map PseudoToken.outline

section

variable {run : Fragment} {outlines : List (String × Span × Bool)}

theorem Parser.exists_collected {p : Parser} {stream : TokenStream} {tokens : List Token}
    {endOffset n : Nat} (htokens : stream.tokens = tokens) (herrors : stream.errors = [])
    (hend : stream.endOffset = endOffset) (hkinds : ∀ t ∈ tokens, t.kind ∈ TokenKind.all)
    (h : p.collectedAfter? tokens endOffset n = some outlines) :
    ∃ m run, p.Visits stream m ∧ m.Collects run ∧
      run.tokens.map PseudoToken.outline = outlines := by
  obtain ⟨run, hrun, houtlines⟩ := Option.map_eq_some_iff.mp h
  obtain ⟨v, hv, hrun⟩ := Option.bind_eq_some_iff.mp hrun
  obtain ⟨states, hwalks, hshows⟩ := Parser.walks_of_follow? htokens herrors hend hkinds hv
  exact ⟨_, run, .walked hwalks, hshows.collects hrun, houtlines⟩

theorem values_of_outlines (h : run.tokens.map PseudoToken.outline = outlines) :
    run.tokens.map PseudoToken.value = outlines.map Prod.fst := by
  rw [← h, List.map_map]
  rfl

theorem plain_of_outlines (h : run.tokens.map PseudoToken.outline = outlines)
    (hplain : ∀ x ∈ outlines, x.2.2 = false) : ∀ t ∈ run.tokens, t.condition = none := by
  intro t ht
  have hmem : t.outline ∈ outlines := h ▸ List.mem_map_of_mem ht
  exact Option.not_isSome_iff_eq_none.mp (Bool.eq_false_iff.mp (hplain _ hmem))

end

/-- **The text of a run is read as the texts of its tokens**, if the parser has collected it without
a guard, and its tokens are tokens of the source, each at a place of its own; brackets and semicolons
may have been put in. -/
theorem tokenize_collected {p : Parser} {source : String} {m : Machine} {run : Fragment}
    (hvisits : p.Visits (stream source) m) (hrun : m.Collects run)
    (hplain : ∀ t ∈ run.tokens, t.condition = none)
    (hfrom : ∀ t ∈ run.tokens, t.IsFrom source ∨ t.IsSeparator)
    (hown : run.tokens.Pairwise fun t u => t.IsSeparator ∨ u.IsSeparator ∨ t.span ≠ u.span) :
    ∃ read, tokenize (PseudoToken.renderAll run.tokens) = .ok read ∧
      read.map Token.text = run.tokens.map PseudoToken.value := by
  obtain ⟨front, last, htokens, hlast, horder⟩ := hvisits.inReadingOrder.exists_shown hrun hplain
  have hplaced : run.tokens.Pairwise fun t u =>
      t.IsSeparator ∨ u.IsSeparator ∨ t.span.stop ≤ u.span.start ∧ t.span ≠ u.span := by
    rw [htokens] at hown ⊢
    obtain ⟨hfront, _, _⟩ := List.pairwise_append.mp hown
    refine List.pairwise_append.mpr ⟨?_, List.pairwise_singleton _ _, fun t _ u hu => ?_⟩
    · exact (hfront.and horder).imp fun ⟨hown, hle⟩ =>
        hown.imp_right (Or.imp_right fun hne => ⟨hle, hne⟩)
    · rw [List.mem_singleton.mp hu]
      exact .inr (.inl hlast)
  obtain ⟨as, hshows, hexcerpt⟩ := PseudoToken.exists_excerpt hplain hfrom hplaced
  exact PseudoToken.tokenize_renderAll hshows hexcerpt

/-- A text with a per-clause. -/
def perClauseSource : String := "aspect A perthis(p) \x7b \x7d"

/-- The tokens of the text. -/
def perClauseTokens : List Token :=
  [⟨.kwAspect, ⟨0, 5⟩, "aspect"⟩, ⟨.identifier, ⟨7, 7⟩, "A"⟩, ⟨.identifier, ⟨9, 15⟩, "perthis"⟩,
    ⟨.lParen, ⟨16, 16⟩, "("⟩, ⟨.identifier, ⟨17, 17⟩, "p"⟩, ⟨.rParen, ⟨18, 18⟩, ")"⟩,
    ⟨.lBrace, ⟨20, 20⟩, "\x7b"⟩, ⟨.rBrace, ⟨22, 22⟩, "\x7d"⟩]

theorem stream_perClause : (stream perClauseSource).tokens = perClauseTokens ∧
    (stream perClauseSource).errors = [] ∧ (stream perClauseSource).endOffset = 23 := by
  unfold stream Scanner.scan
  rw [Scanner.scanFrom_eq_within (n := 23) (by decide)]
  decide +kernel

/-- The outlines of the tokens of its per-clause. -/
def perClauseOutlines : List (String × Span × Bool) :=
  [("perthis", ⟨9, 15⟩, false), ("(", ⟨16, 16⟩, false), ("p", ⟨17, 17⟩, false),
    (")", ⟨18, 18⟩, false), ("\x7b", ⟨20, 20⟩, false)]

theorem collected_perClause : (Parser.new {} (.enabled .aspects)).collectedAfter? perClauseTokens
    23 23 = some perClauseOutlines := by
  decide +kernel

/-- The per-clause of an aspect is collected and read again. -/
theorem tokenize_collected_perClause : ∃ m run,
    (Parser.new {} (.enabled .aspects)).Visits (stream perClauseSource) m ∧ m.Collects run ∧
      run.tokens.map PseudoToken.value = ["perthis", "(", "p", ")", "\x7b"] ∧
      ∃ read, tokenize (PseudoToken.renderAll run.tokens) = .ok read ∧
        read.map Token.text = run.tokens.map PseudoToken.value := by
  obtain ⟨htokens, herrors, hend⟩ := stream_perClause
  obtain ⟨m, run, hvisits, hrun, houtlines⟩ :=
    Parser.exists_collected htokens herrors hend (by decide) collected_perClause
  have hfrom : ∀ x ∈ perClauseOutlines, ∃ a ∈ perClauseTokens, a.text = x.1 ∧ a.span = x.2.1 := by
    decide
  have hown : perClauseOutlines.Pairwise fun x y => x.2.1 ≠ y.2.1 := by decide
  refine ⟨m, run, hvisits, hrun, values_of_outlines houtlines, tokenize_collected hvisits hrun
    (plain_of_outlines houtlines (by decide)) (fun t ht => .inl ?_) ?_⟩
  · have hmem : t.outline ∈ perClauseOutlines := houtlines ▸ List.mem_map_of_mem ht
    unfold PseudoToken.IsFrom
    rw [htokens]
    exact hfrom _ hmem
  · rw [← houtlines] at hown
    exact (List.pairwise_map.mp hown).imp fun hne => .inr (.inr hne)

/-- A text whose declare statement lacks a word, which is put in without a text. -/
def repairedSource : String := "class A \x7b declare : x; \x7d"

/-- The tokens of the text. -/
def repairedTokens : List Token :=
  [⟨.kwClass, ⟨0, 4⟩, "class"⟩, ⟨.identifier, ⟨6, 6⟩, "A"⟩, ⟨.lBrace, ⟨8, 8⟩, "\x7b"⟩,
    ⟨.kwDeclare, ⟨10, 16⟩, "declare"⟩, ⟨.colon, ⟨18, 18⟩, ":"⟩, ⟨.identifier, ⟨20, 20⟩, "x"⟩,
    ⟨.semicolon, ⟨21, 21⟩, ";"⟩, ⟨.rBrace, ⟨23, 23⟩, "\x7d"⟩]

theorem stream_repaired : (stream repairedSource).tokens = repairedTokens ∧
    (stream repairedSource).errors = [] ∧ (stream repairedSource).endOffset = 24 := by
  unfold stream Scanner.scan
  rw [Scanner.scanFrom_eq_within (n := 24) (by decide)]
  decide +kernel

/-- The outlines of the tokens of its declare statement. -/
def repairedOutlines : List (String × Span × Bool) :=
  [("declare", ⟨10, 16⟩, false), ("", ⟨16, 16⟩, false), (":", ⟨18, 18⟩, false),
    ("x", ⟨20, 20⟩, false), (";", ⟨21, 21⟩, false)]

theorem collected_repaired : (Parser.new {} (.enabled .aspects)).collectedAfter? repairedTokens
    24 21 = some repairedOutlines := by
  decide +kernel

/-- A word that was put in is lost when the run is read again. -/
theorem inserted_word_lost : ∃ m run,
    (Parser.new {} (.enabled .aspects)).Visits (stream repairedSource) m ∧ m.Collects run ∧
      (∀ t ∈ run.tokens, t.condition = none) ∧
      ¬ ∃ read, tokenize (PseudoToken.renderAll run.tokens) = .ok read ∧
        read.map Token.text = run.tokens.map PseudoToken.value := by
  obtain ⟨htokens, herrors, hend⟩ := stream_repaired
  obtain ⟨m, run, hvisits, hrun, houtlines⟩ :=
    Parser.exists_collected htokens herrors hend (by decide) collected_repaired
  refine ⟨m, run, hvisits, hrun, plain_of_outlines houtlines (by decide), ?_⟩
  rintro ⟨read, hread, htexts⟩
  have hempty : "" ∈ read.map Token.text := by
    rw [htexts, values_of_outlines houtlines]
    decide
  obtain ⟨t, ht, htext⟩ := List.mem_map.mp hempty
  rw [← Scanner.tokens_of_tokenize hread] at ht
  exact Scanner.text_ne_empty ht htext

end AspectLang
