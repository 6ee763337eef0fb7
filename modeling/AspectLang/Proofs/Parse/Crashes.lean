import AspectLang.Proofs.Parse.Termination
import AspectLang.Proofs.Parse.ViewedMachines

/-! # Crashes, and what holds without them

A token crashes the parser if it is a shift operator that has to be split and cannot be: its text
would be cut inside a character, or the offset behind its start is no machine word.  On tokens that
lie within a machine word and have texts that can be cut, as those of a text do, there are no crashes.
Then the parser reads after a repair what was tried (`repairs_are_read`), and it stops
(`parsing_stops`).

Both fail on some tokens that crash it.  That a run comes to its crash is computed from the views of
its states (`Viewed.Shows.crashes`). -/

namespace AspectLang

/-! ### Runs that come to a crash -/

namespace Machine

variable {p : ParserSetup} {m m' : Machine} {n : Nat} {shifted shifted' : List Token}
  {reason : Crash}

theorem after_of_walks (h : Walks p n m m') : m.after p n = m' := by
  induction h with
  | zero => rfl
  | succ hstep _ ih =>
      unfold after
      rw [hstep]
      exact ih

theorem after_of_error {e : Fault} {last : Machine} (hstep : step p m = .error e last) :
    m.after p n = m := by
  cases n with
  | zero => rfl
  | succ n =>
      unfold after
      rw [hstep]

/-- A machine does not stop if its steps lead to one whose next step fails. -/
theorem not_stops_of_walks {e : Fault} {last : Machine} (h : Walks p n m m')
    (hfails : step p m' = .error e last) : ¬ Stops p m := by
  induction h with
  | zero =>
      rintro ⟨_, _, _, hstep, _⟩
      rw [after_of_error hfails, hfails] at hstep
      cases hstep
  | succ hfirst _ ih =>
      rintro ⟨n, progress, stopped, hstep, hne⟩
      cases n with
      | zero =>
          rw [after, hfirst] at hstep
          cases hstep
          exact hne rfl
      | succ n =>
          rw [after, hfirst] at hstep
          exact ih hfails ⟨n, progress, stopped, hstep, hne⟩

/-- A machine whose next token crashes it. -/
structure CrashesNow (p : ParserSetup) (reason : Crash) (m : Machine) : Prop where
  step : Machine.step p m = .error (.crash reason) m
  first : ∃ t rest, m.rest = t :: rest ∧ t.split = .crashes reason

/-- If the machine crashes after a repair, and no shift operator is behind the tokens that were tried,
then these tokens are never read. -/
theorem CrashesNow.not_readsOn {inserted kept : List Token} {last : Machine}
    (h : m'.CrashesNow p reason) (hm : Leads .nothing .running m) (hreads : Reads p m shifted m')
    (hkept : ∀ t ∈ kept.drop (max p.settings.recoveryWindow 1), t.kind.halves? = none)
    (hlast : Reads p m shifted' last) : ¬ ReadsOn p inserted kept shifted' last := by
  rintro ⟨consumed, pieces, -, -, rfl, hread⟩
  obtain ⟨more, hmore⟩ := hlast.continues hreads fun _ _ hstep => by
    rw [h.step] at hstep
    cases hstep
  rcases hread with hread | haccept
  · obtain ⟨t, rest, hrest, hsplit⟩ := h.first
    rw [← hread, List.drop_left] at hkept
    have hcut := (hmore.cut (hlast.cut hm).1).2
    have hleft := hkept t (by rw [← hcut.eq_of_whole hkept, hrest]; simp)
    have hkind := (Token.of_split_crashes hsplit).1
    rw [hleft] at hkind
    cases hkind
  · cases hmore with
    | done =>
        rw [h.step] at haccept
        cases haccept
    | next _ hstep _ =>
        rw [hstep] at haccept
        cases haccept

end Machine

namespace Viewed

variable (p : ParserSetup) (reason : Crash)

/-- Whether the next token crashes the parser if it fits nowhere: a bracket would fit, but the token
cannot be split. -/
def isStuck (v : Viewed) (t : Token) : Bool :=
  Language.outlook.goesOn .gt v.views && decide (t.split = .crashes reason)

/-- Whether a run crashes at once, or `later` holds after a step.  Where it is not settled whether the
machine reduces, both have to be so. -/
def crashesOr (later : Viewed → Bool) (v : Viewed) : Bool :=
  match v.machine.rest with
  | [] => false
  | t :: _ =>
    if Language.outlook.goesOn t.kind v.views then (v.step? p).any later
    else v.isStuck reason t && match Language.outlook.turn? t.kind v.views with
      | some .rejected => true
      | some (.reduced number false views) =>
        match Language.ruleArray[number]? with
        | some rule => (v.machine.reducedTo? p [] rule number t.span).any (later ⟨views, ·⟩)
        | none => false
      | _ => false

/-- Whether a run without repairs crashes within some steps. -/
def crashes : (gas : Nat) → Viewed → Bool
  | 0, _ => false
  | gas + 1, v => v.crashesOr p reason (crashes gas)

/-- The viewed machine after an insertion before the next token, if that fits nowhere. -/
def insertNext? (v : Viewed) : Option Viewed :=
  match v.machine.rest with
  | [] => none
  | t :: _ =>
    match Language.outlook.turn? t.kind v.views with
    | some .rejected => v.insert? p t
    | _ => none

end Viewed

/-! ### Crashes from views -/

section

open AspectLang.Language Machine Outlook

variable {p : ParserSetup} {reason : Crash} {v : Viewed} {states : List Nat}

theorem Outlook.exists_of_goesOn {views : List View} {k : TokenKind}
    (hshow : Show grammar views states) (h : outlook.goesOn k views = true) :
    ∃ top below, states = top :: below := by
  cases hshow with
  | nil => exact absurd h Bool.false_ne_true
  | cons => exact ⟨_, _, rfl⟩

namespace Viewed

/-- Steps without repairs lead to a machine whose next token crashes it, within some steps. -/
def Crashes (p : ParserSetup) (reason : Crash) (gas : Nat) (m : Machine) : Prop :=
  ∃ n < gas, ∃ shifted last, Walks p n m last ∧ Machine.Reads p m shifted last ∧
    last.CrashesNow p reason

theorem Crashes.of_step {gas : Nat} {m m' : Machine} (hquiet : m.seeksRepair = false)
    (hstep : step p m = .ok .running m') (h : Crashes p reason gas m') :
    Crashes p reason (gas + 1) m := by
  obtain ⟨n, hn, shifted, last, hwalks, hreads, hcrash⟩ := h
  exact ⟨n + 1, Nat.succ_lt_succ hn, _, last, .succ hstep hwalks, .next hquiet hstep hreads, hcrash⟩

theorem Crashes.now {gas : Nat} {m : Machine} (h : m.CrashesNow p reason) :
    Crashes p reason (gas + 1) m :=
  ⟨0, Nat.succ_pos _, [], m, .zero, .done, h⟩

section

variable {t : Token} {rest : List Token} {top : Nat} {below : List Nat}
  (h : v.Shows (top :: below)) (hrest : v.machine.rest = t :: rest)

include h hrest

/-- A token that fits nowhere and cannot be split crashes the machine. -/
theorem Shows.crashesNow_of_isStuck (hstuck : v.isStuck reason t = true)
    (haction : tables.action top t.kind = .error) : (v.on (top :: below)).CrashesNow p reason := by
  obtain ⟨hbracket, hsplit⟩ := Bool.and_eq_true_iff.mp hstuck
  have hsplit := of_decide_eq_true hsplit
  refine ⟨?_, t, rest, hrest, hsplit⟩
  rw [step_eq (m := v.on (top :: below)) rfl hrest, haction]
  dsimp only
  rw [if_neg (action_of_goesOn (by decide) h.views hbracket), hsplit]

end

/-- **A run that is viewed to crash does so.** -/
theorem Shows.crashes {gas : Nat} (h : v.Shows states) (hcrashes : v.crashes p reason gas = true) :
    Crashes p reason gas (v.on states) := by
  induction gas generalizing v states with
  | zero => exact absurd hcrashes Bool.false_ne_true
  | succ gas ih =>
      change v.crashesOr p reason (Viewed.crashes p reason gas) = true at hcrashes
      unfold crashesOr at hcrashes
      split at hcrashes
      · cases hcrashes
      · rename_i t rest hrest
        have hkind := h.kinds t (hrest ▸ List.mem_cons_self)
        have hquiet {top : Nat} {below : List Nat} :
            tables.action top t.kind ≠ .error → (v.on (top :: below)).seeksRepair = false :=
          seeksRepair_of_action (m := v.on (top :: below)) rfl hrest
        split at hcrashes
        · rename_i hgoes
          obtain ⟨top, below, rfl⟩ := exists_of_goesOn h.views hgoes
          obtain ⟨next, hnext, hlater⟩ := Option.any_eq_true .. |>.mp hcrashes
          obtain ⟨states', hstep, hshows⟩ := h.step hnext
          exact .of_step (hquiet (action_of_goesOn hkind h.views hgoes)) hstep (ih hshows hlater)
        · obtain ⟨hstuck, hcrashes⟩ := Bool.and_eq_true_iff.mp hcrashes
          obtain ⟨top, below, rfl⟩ :=
            exists_of_goesOn h.views (Bool.and_eq_true_iff.mp hstuck).1
          split at hcrashes
          · rename_i hturn
            obtain ⟨_, _, hstates, haction⟩ :=
              holds_turn? fits_outlook wellFormed_grammar startIsolated_grammar hkind h.views hturn
            obtain ⟨rfl, rfl⟩ := List.cons.inj hstates
            exact .now (h.crashesNow_of_isStuck hrest hstuck haction)
          · rename_i number views hturn
            obtain ⟨_, _, production, origin, lower, target, hstates, haction, hp, hdrop, hgoto,
              hshow⟩ := holds_turn? fits_outlook wellFormed_grammar startIsolated_grammar hkind
                h.views hturn
            obtain ⟨rfl, rfl⟩ := List.cons.inj hstates
            rcases haction with haction | ⟨_, haction⟩
            · split at hcrashes
              · rename_i rule hrule
                obtain ⟨reduced, hreduced, hlater⟩ := Option.any_eq_true .. |>.mp hcrashes
                have hproduction := Option.some.inj ((productions_of_rule hrule).symm.trans hp)
                have hlength : production.rhs.length = rule.rhs.length := by
                  rw [← hproduction]
                  exact List.length_map _
                rw [hlength] at hdrop
                rw [← congrArg Production.lhs hproduction] at hgoto
                obtain ⟨hstep, hshows⟩ :=
                  h.step_of_reducedTo? hrest haction hrule hdrop hgoto hreduced hshow
                exact .of_step (hquiet (haction.trans_ne Action.noConfusion)) hstep
                  (ih hshows hlater)
              · cases hcrashes
            · exact .now (h.crashesNow_of_isStuck hrest hstuck haction)
          · cases hcrashes

/-- An insertion that is viewed is the next repair, and is made in front of the tokens that are
left. -/
theorem Shows.repairs {v' : Viewed} (h : v.Shows states) (hinsert : v.insertNext? p = some v') :
    (∃ kind, (v.on states).nextRepair? p = some (.insert [kind])) ∧
      Machine.step p (v.on states) = .ok .running (v'.on states) ∧ v'.Shows states ∧
        v'.machine.rest.tail = v.machine.rest := by
  unfold insertNext? at hinsert
  split at hinsert
  · cases hinsert
  · rename_i t rest hrest
    split at hinsert
    · rename_i hturn
      have hkind := h.kinds t (hrest ▸ List.mem_cons_self)
      obtain ⟨top, below, rfl, haction⟩ :=
        holds_turn? fits_outlook wellFormed_grammar startIsolated_grammar hkind h.views hturn
      obtain ⟨hstep, hshows⟩ := h.step_of_insert? hrest haction hinsert
      refine ⟨h.nextRepair?_of_insert? hrest haction hinsert, hstep, hshows, ?_⟩
      obtain ⟨kind, construct, _, _, _, _, _, rfl⟩ := h.exists_repair hinsert
      rfl
    · cases hinsert

end Viewed

end

namespace Parser

variable {p : Parser} (stream : TokenStream) {tokens : List Token} {endOffset n gas : Nat}
  {reason : Crash} (htokens : stream.tokens = tokens) (herrors : stream.errors = [])
  (hend : stream.endOffset = endOffset) (hkinds : ∀ t ∈ tokens, t.kind ∈ TokenKind.all)

include htokens herrors hend hkinds

/-- A parser comes to a crash if its views do. -/
theorem crashes_of_follow?
    (h : (p.follow? tokens endOffset 0).map (·.crashes p.setup reason gas) = some true) :
    Viewed.Crashes p.setup reason gas (p.start stream) := by
  obtain ⟨v, hv, hcrashes⟩ := Option.map_eq_some_iff.mp h
  obtain ⟨states, hwalks, hshows⟩ := Parser.walks_of_follow? htokens herrors hend hkinds hv
  have hstart : p.start stream = v.on states := Machine.after_of_walks hwalks
  rw [hstart]
  exact hshows.crashes hcrashes

omit htokens herrors hend hkinds in
/-- A unit breaks off where its machine comes to a crash. -/
theorem parseStream_of_crashes (h : Viewed.Crashes p.setup reason gas (p.start stream))
    (hgas : gas ≤ stepLimit) : (p.parseStream stream).1 = .error (.crash reason) := by
  obtain ⟨n, hn, _, last, hwalks, _, hcrash⟩ := h
  exact parseStream_of_error
    (Machine.run_of_walks_error hwalks hcrash.step (hn.trans_le hgas) stepLimit)

/-- After some steps a parser makes an insertion that its views make. -/
theorem repairs_of_follow? {v : Viewed}
    (h : (p.follow? tokens endOffset n).bind (·.insertNext? p.setup) = some v) :
    (∃ kind, ((p.start stream).after p.setup n).nextRepair? p.setup = some (.insert [kind])) ∧
      ∃ states, Machine.step p.setup ((p.start stream).after p.setup n) =
          .ok .running (v.on states) ∧ v.Shows states ∧
        v.machine.rest.tail = ((p.start stream).after p.setup n).rest := by
  obtain ⟨before, hbefore, hinsert⟩ := Option.bind_eq_some_iff.mp h
  obtain ⟨states, hwalks, hshows⟩ := Parser.walks_of_follow? htokens herrors hend hkinds hbefore
  rw [Machine.after_of_walks hwalks]
  obtain ⟨hrepair, hstep, hnext, htail⟩ := hshows.repairs hinsert
  exact ⟨hrepair, states, hstep, hnext, htail⟩

/-- An insertion is not followed by reading what was tried, if its views come to a crash while no shift
operator is behind the tokens of the trial. -/
theorem not_readsOn_of_follow?
    (h : ((p.follow? tokens endOffset n).bind (·.insertNext? p.setup)).any (fun v =>
      v.crashes p.setup reason gas &&
        (v.machine.rest.tail.drop (max p.setup.settings.recoveryWindow 1)).all
          (·.kind.halves?.isNone)) = true) :
    ∃ r m', ((p.start stream).after p.setup n).nextRepair? p.setup = some r ∧
      Machine.step p.setup ((p.start stream).after p.setup n) = .ok .running m' ∧
      ∀ inserted shifted last, Machine.Reads p.setup m' shifted last → ¬ Machine.ReadsOn p.setup
        inserted (r.kept ((p.start stream).after p.setup n).rest) shifted last := by
  obtain ⟨v, hv, hviewed⟩ := Option.any_eq_true .. |>.mp h
  obtain ⟨hcrashes, hwhole⟩ := Bool.and_eq_true_iff.mp hviewed
  obtain ⟨⟨kind, hrepair⟩, states, hstep, hshows, htail⟩ :=
    repairs_of_follow? stream htokens herrors hend hkinds hv
  obtain ⟨_, _, _, _, _, hcrash, hnow⟩ := hshows.crashes hcrashes
  have hleads := Machine.leads_of_step (Machine.leads_after n (p.leads_start_nothing stream)) hstep
  refine ⟨_, _, hrepair, hstep, fun inserted shifted last hreads =>
    hnow.not_readsOn hleads hcrash (fun t ht => ?_) hreads⟩
  rw [htail] at hwhole
  exact Option.isNone_iff_eq_none.mp (List.all_eq_true.mp hwhole t ht)

end Parser

/-! ### Repairs -/

/-- The tokens of `class A extends B<<?>> \x7b\x7d`, with a text for the brackets at the end. -/
def gappedTokens (text : String) : List Token :=
  [⟨.kwClass, ⟨0, 4⟩, "class"⟩, ⟨.identifier, ⟨6, 6⟩, "A"⟩, ⟨.kwExtends, ⟨8, 14⟩, "extends"⟩,
    ⟨.identifier, ⟨16, 16⟩, "B"⟩, ⟨.lt, ⟨17, 17⟩, "<"⟩, ⟨.lt, ⟨18, 18⟩, "<"⟩,
    ⟨.question, ⟨19, 19⟩, "?"⟩, ⟨.shiftRight, ⟨20, 21⟩, text⟩, ⟨.lBrace, ⟨23, 23⟩, "\x7b"⟩,
    ⟨.rBrace, ⟨25, 25⟩, "\x7d"⟩]

theorem inserts_gappedTokens :
    ((((Parser.new {} .disabled).follow? (gappedTokens ">>") 26 11).bind
      (·.insertNext? (Parser.new {} .disabled).setup)).isSome) = true := by
  decide +kernel

theorem crashes_gappedTokens :
    (((Parser.new {} .disabled).follow? (gappedTokens "\u00e9") 26 11).bind
      (·.insertNext? (Parser.new {} .disabled).setup)).any (fun v =>
        v.crashes (Parser.new {} .disabled).setup (.brokenText "\u00e9") 6 &&
          (v.machine.rest.tail.drop (max (Parser.new {} .disabled).setup.settings.recoveryWindow 1)).all
            (·.kind.halves?.isNone)) = true := by
  decide +kernel

/-- **Parsing stops.**  Without a limit on its steps, the machine accepts or gives the unit up after
finitely many of them, if the tokens lie within a machine word and have texts that can be cut where
their kinds ask for it.  Whatever the tokens are, there is no infinite chain of reductions.  Where the
machine looks for a repair, only tokens of the input are left, in pieces; and where it does so again
after it went on, at least one piece of them is gone. -/
theorem parsing_stops (p : Parser) (stream : TokenStream) :
    (stream.InWord → (∀ t ∈ stream.tokens, t.Plain) →
      Machine.Stops p.setup (p.start stream)) ∧
    (∀ n (chain : Nat → Machine), chain 0 = (p.start stream).after p.setup n →
      ∃ i, ¬ Machine.Reduces p.setup (chain i) (chain (i + 1))) ∧
    ∀ n, ((p.start stream).after p.setup n).seeksRepair = true →
      (∃ gone, Cut (p.start stream).rest (gone ++ ((p.start stream).after p.setup n).rest)) ∧
      ∀ next shifted again,
        Machine.step p.setup ((p.start stream).after p.setup n) = .ok .running next →
        Machine.Reads p.setup next shifted again → again.seeksRepair = true →
          ∃ gone, gone ≠ [] ∧
            Cut ((p.start stream).after p.setup n).rest (gone ++ again.rest) := by
  have hstart := p.leads_start_nothing stream
  refine ⟨fun hword hplain => ?_, fun n chain hchain => ?_, fun n hseeks => ⟨?_, ?_⟩⟩
  · exact (Machine.ends_of_leads (p.leads_start stream fun _ ht => TokenStream.meets_promise ht)).stops
      hplain fun t ht => (hword.tokens t ht).splitsBelow
  · obtain ⟨symbols, hholds⟩ := (Machine.leads_after (p := p.setup) n hstart).1
    rw [← hchain] at hholds
    exact Machine.exists_not_reduces chain hholds.spells
  · have htracked := Machine.Tracked.after (p := p.setup) n (.quiet .done) hstart hstart
    exact htracked.original hstart hseeks
  · intro next shifted again hstep hreads hagain
    exact Machine.less_of_reads (Machine.leads_after n hstart) hseeks hstep hreads hagain

/-- The tokens of `class A extends B<C<D>> \x7b\x7d`, with an operator for the brackets at the end. -/
def nestedTokens (brackets : Token) : List Token :=
  [⟨.kwClass, ⟨0, 4⟩, "class"⟩, ⟨.identifier, ⟨6, 6⟩, "A"⟩, ⟨.kwExtends, ⟨8, 14⟩, "extends"⟩,
    ⟨.identifier, ⟨16, 16⟩, "B"⟩, ⟨.lt, ⟨17, 17⟩, "<"⟩, ⟨.identifier, ⟨18, 18⟩, "C"⟩,
    ⟨.lt, ⟨19, 19⟩, "<"⟩, ⟨.identifier, ⟨20, 20⟩, "D"⟩, brackets, ⟨.lBrace, ⟨24, 24⟩, "\x7b"⟩,
    ⟨.rBrace, ⟨26, 26⟩, "\x7d"⟩]

/-- The tokens with brackets in their place and with their text. -/
def closedTokens : List Token := nestedTokens ⟨.shiftRight, ⟨21, 22⟩, ">>"⟩

/-- The brackets in their place and with their text are parsed to the end. -/
theorem closed_stops :
    (TokenStream.ofTokens closedTokens).InWord ∧
      (∀ t ∈ (TokenStream.ofTokens closedTokens).tokens, t.Plain) ∧
      Machine.Stops (Parser.new {} .disabled).setup
        ((Parser.new {} .disabled).start (.ofTokens closedTokens)) := by
  have hword : (TokenStream.ofTokens closedTokens).InWord := by decide
  have hplain : ∀ t ∈ (TokenStream.ofTokens closedTokens).tokens, t.Plain := by decide
  exact ⟨hword, hplain, (parsing_stops (Parser.new {} .disabled) _).1 hword hplain⟩

/-- The tokens, where the text of the brackets is a letter of two bytes. -/
def mistypedTokens : List Token := nestedTokens ⟨.shiftRight, ⟨21, 22⟩, "\u00e9"⟩

theorem crashes_mistypedTokens :
    (((Parser.new {} .disabled).follow? mistypedTokens 27 0).map
      (·.crashes (Parser.new {} .disabled).setup (.brokenText "\u00e9") 18)) = some true := by
  decide +kernel

/-- A parser that has to cut the letter neither accepts nor gives the unit up. -/
theorem mistyped_not_stops :
    ¬ Machine.Stops (Parser.new {} .disabled).setup
      ((Parser.new {} .disabled).start (.ofTokens mistypedTokens)) := by
  obtain ⟨_, _, _, _, hwalks, _, hcrash⟩ :=
    Parser.crashes_of_follow? (.ofTokens mistypedTokens) rfl rfl rfl (by decide)
      crashes_mistypedTokens
  exact Machine.not_stops_of_walks hwalks hcrash.step

end AspectLang
