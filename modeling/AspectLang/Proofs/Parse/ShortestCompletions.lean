import AspectLang.Proofs.Parse.Suggestions

/-! # The completion that is found is shortest

At the end of input the automaton searches breadth first for tokens that let the input be accepted,
and gives up stacks of states that it has seen before.  What carries the search is the `Frontier`:
the trials that wait are in the order of their lengths, and none of the completions is lost, since
whatever completes a stack that was seen goes on from a trial that waits
(`Frontier.exists_of_seen`).  So no completion is shorter than the first trial that waits. -/

namespace AspectLang

namespace Automaton

/-- Whether the kinds are shifted one after the other and the end of input is accepted then. -/
def completes (a : Automaton) (states : List Nat) : List TokenKind → Bool
  | [] => a.feed states .eof = .accepted
  | kind :: kinds =>
    match a.feed states kind with
    | .shifted states => a.completes states kinds
    | _ => false

/-- The trials that wait, in the order in which they come up. -/
def waiting (now later : List Trial) : List Trial := now ++ later.reverse

section

variable {a : Automaton} {states states' : List Nat} {kind : TokenKind} {kinds : List TokenKind}

theorem completes_of_shifted (h : a.feed states kind = .shifted states') (kinds : List TokenKind) :
    a.completes states (kind :: kinds) = a.completes states' kinds := by
  rw [completes, h]

theorem exists_shifted_of_completes (h : a.completes states (kind :: kinds) = true) :
    ∃ states', a.feed states kind = .shifted states' ∧ a.completes states' kinds = true := by
  rw [completes] at h
  split at h
  · exact ⟨_, ‹_›, h⟩
  · cases h

/-! ### One trial -/

/-- A trial that the tokens of its path led to from the states. -/
structure Trial.Led (trial : Trial) (a : Automaton) (states : List Nat) : Prop where
  completes : ∀ more, a.completes states (trial.path.reverse ++ more) = a.completes trial.states more
  kinds : ∀ kind ∈ trial.path, kind ∈ completionKinds

theorem Trial.Led.next {trial : Trial} (h : trial.Led a states) (hkind : kind ∈ completionKinds)
    (hfeed : a.feed trial.states kind = .shifted states') :
    Trial.Led ⟨states', kind :: trial.path⟩ a states where
  completes more := by
    rw [List.reverse_cons, List.append_assoc, h.completes]
    exact completes_of_shifted hfeed more
  kinds k hk := by
    rcases List.mem_cons.mp hk with rfl | hk
    · exact hkind
    · exact h.kinds k hk

/-- What going on from a trial by some kinds adds to the trials and to the stacks that were seen. -/
structure Extends (a : Automaton) (trial : Trial) (later : List Trial)
    (seen : Std.HashSet (List Nat)) (tried : List TokenKind)
    (found : List Trial × Std.HashSet (List Nat)) : Prop where
  fresh : ∃ fresh, found.1 = fresh ++ later ∧
    (∀ x ∈ fresh, ∃ kind ∈ tried, a.feed trial.states kind = .shifted x.states ∧
      x.path = kind :: trial.path) ∧
    ∀ s ∈ found.2, s ∈ seen ∨ ∃ x ∈ fresh, x.states = s
  keeps : ∀ s ∈ seen, s ∈ found.2
  covers : ∀ kind ∈ tried, ∀ s, a.feed trial.states kind = .shifted s → s ∈ found.2

section

variable {trial : Trial} {later later' : List Trial} {seen seen' : Std.HashSet (List Nat)}
  {tried : List TokenKind}

/-- A kind that leads nowhere new adds nothing. -/
theorem Extends.skip (h : Extends a trial later seen tried (later', seen'))
    (hknown : ∀ s, a.feed trial.states kind = .shifted s → s ∈ seen') :
    Extends a trial later seen (tried ++ [kind]) (later', seen') := by
  obtain ⟨fresh, hlater, hfresh, hseen⟩ := h.fresh
  refine ⟨⟨fresh, hlater, fun x hx => ?_, hseen⟩, h.keeps, fun k hk s hs => ?_⟩
  · obtain ⟨k, hk, hx⟩ := hfresh x hx
    exact ⟨k, List.mem_append_left _ hk, hx⟩
  · rcases List.mem_append.mp hk with hk | hk
    · exact h.covers k hk s hs
    · obtain rfl := List.mem_singleton.mp hk
      exact hknown s hs

/-- A kind that leads to a stack not seen before adds a trial. -/
theorem Extends.push (h : Extends a trial later seen tried (later', seen'))
    (hfeed : a.feed trial.states kind = .shifted states') :
    Extends a trial later seen (tried ++ [kind])
      (⟨states', kind :: trial.path⟩ :: later', seen'.insert states') := by
  obtain ⟨fresh, hlater, hfresh, hseen⟩ := h.fresh
  refine ⟨⟨⟨states', kind :: trial.path⟩ :: fresh, congrArg _ hlater, fun x hx => ?_, fun s hs => ?_⟩,
    fun s hs => Std.HashSet.mem_insert.mpr (.inr (h.keeps s hs)), fun k hk s hs => ?_⟩
  · rcases List.mem_cons.mp hx with rfl | hx
    · exact ⟨kind, List.mem_append_right _ List.mem_cons_self, hfeed, rfl⟩
    · obtain ⟨k, hk, hx⟩ := hfresh x hx
      exact ⟨k, List.mem_append_left _ hk, hx⟩
  · rcases Std.HashSet.mem_insert.mp hs with hs | hs
    · exact .inr ⟨_, List.mem_cons_self, eq_of_beq hs⟩
    · exact (hseen s hs).imp id fun ⟨x, hx, hstates⟩ => ⟨x, List.mem_cons_of_mem _ hx, hstates⟩
  · rcases List.mem_append.mp hk with hk | hk
    · exact Std.HashSet.mem_insert.mpr (.inr (h.covers k hk s hs))
    · obtain rfl := List.mem_singleton.mp hk
      obtain rfl := Fate.shifted.inj (hfeed.symm.trans hs)
      exact Std.HashSet.mem_insert_self

end

theorem extends_extend (trial : Trial) (later : List Trial) (seen : Std.HashSet (List Nat)) :
    Extends a trial later seen completionKinds (a.extend trial later seen) := by
  unfold extend
  -- the kind that was tried last is the last step of the fold
  induction completionKinds using List.reverseRecOn with
  | nil =>
      exact ⟨⟨[], rfl, fun x hx => absurd hx List.not_mem_nil, fun s hs => .inl hs⟩,
        fun s hs => hs, fun kind hkind => absurd hkind List.not_mem_nil⟩
  | append_singleton tried kind ih =>
      rw [List.foldl_concat]
      generalize List.foldl _ (later, seen) tried = found at ih ⊢
      obtain ⟨later', seen'⟩ := found
      dsimp only
      split
      · rename_i next hfeed
        split
        · rename_i hknown
          refine ih.skip fun s hs => ?_
          obtain rfl := Fate.shifted.inj (hfeed.symm.trans hs)
          exact hknown
        · exact ih.push hfeed
      · rename_i hnot
        exact ih.skip fun s hs => absurd hs (hnot s)

/-! ### What the search keeps -/

/-- Whether the kinds are among those that a completion may consist of. -/
def Allowed (kinds : List TokenKind) : Prop := ∀ kind ∈ kinds, kind ∈ completionKinds

/-- A stack that was seen waits, or it was tried in vain and all that it leads to was seen. -/
def Settled (a : Automaton) (waiting : List Trial) (seen : Std.HashSet (List Nat)) : Prop :=
  ∀ s ∈ seen, (∃ x ∈ waiting, x.states = s) ∨ a.completes s [] = false ∧
    ∀ kind ∈ completionKinds, ∀ s', a.feed s kind = .shifted s' → s' ∈ seen

/-- The trials that wait, in the order in which they come up, and the stacks that were seen, in a
search from the states. -/
structure Frontier (a : Automaton) (states : List Nat) (waiting : List Trial)
    (seen : Std.HashSet (List Nat)) : Prop where
  led : ∀ x ∈ waiting, x.Led a states
  ordered : waiting.Pairwise (·.path.length ≤ ·.path.length)
  near : ∀ x ∈ waiting, ∀ y ∈ waiting, y.path.length ≤ x.path.length + 1
  settled : Settled a waiting seen
  /-- No completion is lost: one that is no longer goes on from a trial that waits. -/
  kept : ∀ kinds, Allowed kinds → a.completes states kinds = true →
    ∃ x ∈ waiting, ∃ more, Allowed more ∧ a.completes x.states more = true ∧
      x.path.length + more.length ≤ kinds.length

section

variable {trial : Trial} {waiting later fresh : List Trial} {seen seen' : Std.HashSet (List Nat)}

/-- What completes a stack that was seen, or a shorter end of it, completes one that waits. -/
theorem Settled.exists_waiting (h : Settled a waiting seen) {s : List Nat} (hs : s ∈ seen)
    (hkinds : Allowed kinds) (hcompletes : a.completes s kinds = true) :
    ∃ x ∈ waiting, ∃ more, Allowed more ∧ a.completes x.states more = true ∧
      more.length ≤ kinds.length := by
  induction kinds generalizing s with
  | nil =>
      rcases h s hs with ⟨x, hx, rfl⟩ | ⟨hvain, _⟩
      · exact ⟨x, hx, [], hkinds, hcompletes, le_rfl⟩
      · rw [hvain] at hcompletes
        cases hcompletes
  | cons kind kinds ih =>
      rcases h s hs with ⟨x, hx, rfl⟩ | ⟨_, hleads⟩
      · exact ⟨x, hx, kind :: kinds, hkinds, hcompletes, le_rfl⟩
      · obtain ⟨hkind, hrest⟩ := List.forall_mem_cons.mp hkinds
        obtain ⟨s', hfeed, hlater⟩ := exists_shifted_of_completes hcompletes
        obtain ⟨x, hx, more, hmore, hdone, hle⟩ := ih (hleads kind hkind s' hfeed) hrest hlater
        exact ⟨x, hx, more, hmore, hdone, Nat.le_succ_of_le hle⟩

theorem Settled.next (h : Settled a (trial :: waiting) seen)
    (hvain : a.completes trial.states [] = false)
    (hextends : Extends a trial later seen completionKinds (fresh ++ later, seen')) :
    Settled a (waiting ++ fresh.reverse) seen' := by
  obtain ⟨⟨fresh', hfresh', _, hseen⟩, hkeeps, hcovers⟩ := hextends
  obtain rfl := List.append_cancel_right hfresh'
  intro s hs
  rcases hseen s hs with hs | ⟨x, hx, hstates⟩
  · rcases h s hs with ⟨x, hx, rfl⟩ | ⟨hvain', hleads⟩
    · rcases List.mem_cons.mp hx with rfl | hx
      · exact .inr ⟨hvain, hcovers⟩
      · exact .inl ⟨x, List.mem_append_left _ hx, rfl⟩
    · exact .inr ⟨hvain', fun kind hkind s' hfeed => hkeeps s' (hleads kind hkind s' hfeed)⟩
  · exact .inl ⟨x, List.mem_append_right _ (List.mem_reverse.mpr hx), hstates⟩

theorem frontier_start (a : Automaton) (states : List Nat) :
    Frontier a states [⟨states, []⟩] (Std.HashSet.emptyWithCapacity.insert states) where
  led x hx := by
    obtain rfl := List.mem_singleton.mp hx
    exact ⟨fun more => rfl, fun kind hkind => absurd hkind List.not_mem_nil⟩
  ordered := List.pairwise_singleton _ _
  near x hx y hy := by
    obtain rfl := List.mem_singleton.mp hx
    obtain rfl := List.mem_singleton.mp hy
    exact Nat.le_succ _
  settled s hs := by
    have hs := (Std.HashSet.mem_insert.mp hs).resolve_right Std.HashSet.not_mem_emptyWithCapacity
    exact .inl ⟨_, List.mem_cons_self, eq_of_beq hs⟩
  kept kinds hkinds h := ⟨_, List.mem_cons_self, kinds, hkinds, h, by simp⟩

/-- **Going on from the first trial that waits loses no completion**, if it was tried in vain. -/
theorem Frontier.next (h : Frontier a states (trial :: waiting) seen)
    (hvain : a.completes trial.states [] = false)
    (hextends : Extends a trial later seen completionKinds (fresh ++ later, seen')) :
    Frontier a states (waiting ++ fresh.reverse) seen' := by
  have hsettled := h.settled.next hvain hextends
  obtain ⟨⟨fresh', hfresh', hpaths, _⟩, _, hcovers⟩ := hextends
  obtain rfl := List.append_cancel_right hfresh'
  have hlength : ∀ x ∈ fresh, x.path.length = trial.path.length + 1 := by
    intro x hx
    obtain ⟨kind, _, _, hpath⟩ := hpaths x hx
    rw [hpath, List.length_cons]
  obtain ⟨hfirst, hordered⟩ := List.pairwise_cons.mp h.ordered
  have hrange : ∀ x ∈ waiting ++ fresh.reverse,
      trial.path.length ≤ x.path.length ∧ x.path.length ≤ trial.path.length + 1 := by
    intro x hx
    rcases List.mem_append.mp hx with hx | hx
    · exact ⟨hfirst x hx, h.near trial List.mem_cons_self x (List.mem_cons_of_mem _ hx)⟩
    · have := hlength x (List.mem_reverse.mp hx)
      omega
  refine ⟨fun x hx => ?_, ?_, fun x hx y hy => ?_, hsettled, fun kinds hkinds hdone => ?_⟩
  · rcases List.mem_append.mp hx with hx | hx
    · exact h.led x (List.mem_cons_of_mem _ hx)
    · obtain ⟨kind, hkind, hfeed, hpath⟩ := hpaths x (List.mem_reverse.mp hx)
      obtain ⟨states', path⟩ := x
      obtain rfl : path = kind :: trial.path := hpath
      exact (h.led trial List.mem_cons_self).next hkind hfeed
  · refine List.pairwise_append.mpr ⟨hordered, ?_, fun x hx y hy => ?_⟩
    · refine List.pairwise_of_forall_mem_list fun x hx y hy => ?_
      rw [hlength x (List.mem_reverse.mp hx), hlength y (List.mem_reverse.mp hy)]
    · rw [hlength y (List.mem_reverse.mp hy)]
      exact (hrange x (List.mem_append_left _ hx)).2
  · have hx := hrange x hx
    have hy := hrange y hy
    omega
  · obtain ⟨x, hx, more, hmore, hrest, hle⟩ := h.kept kinds hkinds hdone
    rcases List.mem_cons.mp hx with rfl | hx
    · -- the first trial is left, so the completion goes on from a stack that was seen by it
      cases more with
      | nil => rw [hvain] at hrest; cases hrest
      | cons kind more =>
          obtain ⟨hkind, hmore⟩ := List.forall_mem_cons.mp hmore
          obtain ⟨s, hfeed, hlater⟩ := exists_shifted_of_completes hrest
          obtain ⟨y, hy, last, hlast, hcompletes, hshorter⟩ :=
            hsettled.exists_waiting (hcovers kind hkind s hfeed) hmore hlater
          refine ⟨y, hy, last, hlast, hcompletes, ?_⟩
          have := (hrange y hy).2
          rw [List.length_cons] at hle
          omega
    · exact ⟨x, List.mem_append_left _ hx, more, hmore, hrest, hle⟩

/-- The kinds complete the states, and no fewer kinds that a completion may consist of do. -/
structure Shortest (a : Automaton) (states : List Nat) (kinds : List TokenKind) : Prop where
  allowed : Allowed kinds
  completes : a.completes states kinds = true
  least : ∀ others, Allowed others → a.completes states others = true →
    kinds.length ≤ others.length

/-- A trial that lets the input be accepted is a shortest completion, when it comes up first. -/
theorem Frontier.shortest (h : Frontier a states (trial :: waiting) seen)
    (hdone : a.completes trial.states [] = true) : Shortest a states trial.path.reverse := by
  have htrial := h.led trial List.mem_cons_self
  refine ⟨fun kind hkind => htrial.kinds kind (List.mem_reverse.mp hkind), ?_,
    fun others hothers hcompletes => ?_⟩
  · rw [← List.append_nil trial.path.reverse, htrial.completes, hdone]
  · obtain ⟨x, hx, more, _, _, hle⟩ := h.kept others hothers hcompletes
    have hfirst : trial.path.length ≤ x.path.length := by
      rcases List.mem_cons.mp hx with rfl | hx
      · exact le_rfl
      · exact (List.pairwise_cons.mp h.ordered).1 x hx
    rw [List.length_reverse]
    omega

/-- **The search finds a shortest completion**, if it finds one. -/
theorem shortest_of_searchCompletion {gas : Nat} {now : List Trial}
    (h : Frontier a states (now ++ later.reverse) seen)
    (hfound : a.searchCompletion gas now later seen = some kinds) : Shortest a states kinds := by
  induction gas generalizing now later seen with
  | zero => cases hfound
  | succ gas ih =>
      unfold searchCompletion at hfound
      -- a turn of the two lists leaves the trials that wait in their order
      have hturn : (if now.isEmpty then later.reverse else now) ++
          (if now.isEmpty then [] else later).reverse = now ++ later.reverse := by
        cases now with
        | nil => simp
        | cons x now => rfl
      rw [← hturn] at h
      split at hfound
      · cases hfound
      · rename_i later' trial now' hnow
        rw [hnow, List.cons_append] at h
        split at hfound
        · cases hfound
        · split at hfound
          · rename_i haccepted
            obtain rfl := Option.some.inj hfound
            exact h.shortest (decide_eq_true haccepted)
          · rename_i hrejected
            have hextends := extends_extend (a := a) trial
              (if now.isEmpty then [] else later) seen
            generalize a.extend trial _ seen = found at hextends hfound
            obtain ⟨found, seen'⟩ := found
            obtain ⟨fresh, rfl, _⟩ := hextends.fresh
            refine ih ?_ hfound
            rw [List.reverse_append, ← List.append_assoc]
            exact h.next (decide_eq_false hrejected) hextends

end

/-! ### Where only one kind goes on -/

/-- A stack from which only one kind goes on, and on which the input is accepted after it, is
completed by that kind. -/
theorem completion?_of_sole (hkind : kind ∈ completionKinds) (hopen : a.feed states .eof = .rejected)
    (hothers : ∀ k ∈ completionKinds, k ≠ kind → a.feed states k = .rejected)
    (hfeed : a.feed states kind = .shifted states') (hdone : a.feed states' .eof = .accepted) :
    a.completion? states = some [kind] := by
  have hne : states ≠ states' := by
    rintro rfl
    cases hopen.symm.trans hdone
  have hextend : a.extend ⟨states, []⟩ [] (Std.HashSet.emptyWithCapacity.insert states) =
      ([⟨states', [kind]⟩], (Std.HashSet.emptyWithCapacity.insert states).insert states') := by
    unfold extend
    have hsteps := hothers
    simp only [completionKinds, List.forall_mem_cons] at hsteps
    simp only [completionKinds, List.mem_cons, List.not_mem_nil, or_false] at hkind
    rcases hkind with rfl | rfl | rfl | rfl | rfl | rfl <;>
      simp [completionKinds, hsteps, hfeed, hne]
  have hfirst : ¬ completionLimit < (Std.HashSet.emptyWithCapacity.insert states).size := by
    simp [Std.HashSet.size_insert, completionLimit]
  have hsecond : ¬ completionLimit <
      ((Std.HashSet.emptyWithCapacity.insert states).insert states').size := by
    simp [Std.HashSet.size_insert, hne, completionLimit]
  calc a.completion? states
      = a.searchCompletion completionLimit [] [⟨states', [kind]⟩]
          ((Std.HashSet.emptyWithCapacity.insert states).insert states') := by
        unfold completion?
        rw [searchCompletion]
        simp [hfirst, hopen, hextend]
    _ = some [kind] := by
        rw [completionLimit, searchCompletion]
        simp [hsecond, hdone]

end

end Automaton

/-! ### An import without its semicolon -/

namespace Language

open Grammar Outlook

theorem feed_of_rejects {views : List View} {states : List Nat} {k : TokenKind}
    (hkind : k ∈ TokenKind.all) (hshow : Show grammar views states)
    (h : outlook.rejects k views = true) : automaton.feed states k = .rejected := by
  unfold Outlook.rejects at h
  split at h
  · rename_i hfed
    exact feed_of_feed? fits_outlook wellFormed_grammar startIsolated_grammar hkind hshow hfed
  · cases h

/-- What views tell of an import and its name: only a semicolon goes on, and the unit may end
after it. -/
def importCloses : Bool :=
  match startView? with
  | none => false
  | some start =>
    match outlook.feed? .kwImport feedTurns [start] with
    | some (.shifted behind) =>
      match outlook.feed? .identifier feedTurns behind with
      | some (.shifted name) =>
        match outlook.feed? .semicolon feedTurns name with
        | some (.shifted unit) =>
          match outlook.feed? .eof feedTurns unit with
          | some .accepted =>
            (.eof :: Automaton.completionKinds.erase .semicolon).all (outlook.rejects · name)
          | _ => false
        | _ => false
      | _ => false
    | _ => false

theorem importCloses_settles : importCloses = true := by
  decide +kernel

theorem exists_import_stack : ∃ behind name : List Nat,
    automaton.feed [0] .kwImport = .shifted behind ∧
    automaton.feed behind .identifier = .shifted name ∧
    automaton.completion? name = some [.semicolon] := by
  have hsettles := importCloses_settles
  unfold importCloses at hsettles
  have hfeeds : ∀ {k : TokenKind} {views : List View} {states : List Nat} {fed : Fed},
      k ∈ TokenKind.all → Show grammar views states → outlook.feed? k feedTurns views = some fed →
        fed.Holds grammar (automaton.feed states k) :=
    fun hkind => feed_of_feed? fits_outlook wellFormed_grammar startIsolated_grammar hkind
  split at hsettles
  · cases hsettles
  · rename_i start hstart
    split at hsettles
    · rename_i behindViews himport
      obtain ⟨behind, hbehind, hshow⟩ := hfeeds (by decide) (show_start hstart) himport
      split at hsettles
      · rename_i nameViews hword
        obtain ⟨name, hname, hshow⟩ := hfeeds (by decide) hshow hword
        split at hsettles
        · rename_i unitViews hsemicolon
          obtain ⟨unit, hunit, hshow'⟩ := hfeeds (by decide) hshow hsemicolon
          split at hsettles
          · rename_i hend
            have hdone : automaton.feed unit .eof = .accepted := hfeeds (by decide) hshow' hend
            have hrejects : ∀ k ∈ TokenKind.eof :: Automaton.completionKinds.erase .semicolon,
                automaton.feed name k = .rejected := by
              intro k hk
              have hall : ∀ k ∈ TokenKind.eof :: Automaton.completionKinds.erase .semicolon,
                k ∈ TokenKind.all := by decide
              exact feed_of_rejects (hall k hk) hshow (List.all_eq_true.mp hsettles k hk)
            refine ⟨behind, name, hbehind, hname, ?_⟩
            refine Automaton.completion?_of_sole (by decide) (hrejects _ List.mem_cons_self)
              (fun k hk hne => hrejects k (List.mem_cons_of_mem _ ?_)) hunit hdone
            exact (List.mem_erase_of_ne hne).mpr hk
          · cases hsettles
        · cases hsettles
      · cases hsettles
    · cases hsettles

end Language

/-- **The completion found at the end of input is shortest.**  Its kinds are shifted one after the
other, the end of input is accepted then, and no fewer of the kinds that a completion may consist
of come to that. -/
theorem Automaton.completion_shortest (a : Automaton) (states : List Nat) (kinds : List TokenKind)
    (h : a.completion? states = some kinds) : a.Shortest states kinds := by
  unfold completion? at h
  refine shortest_of_searchCompletion ?_ h
  exact frontier_start a states

/-- An import without its semicolon is completed by it. -/
theorem import_completed : ∃ behind name : List Nat,
    Language.automaton.feed [0] .kwImport = .shifted behind ∧
    Language.automaton.feed behind .identifier = .shifted name ∧
    Language.automaton.completion? name = some [.semicolon] ∧
    Language.automaton.Shortest name [.semicolon] := by
  obtain ⟨behind, name, hbehind, hname, hfound⟩ := Language.exists_import_stack
  exact ⟨behind, name, hbehind, hname, hfound,
    Automaton.completion_shortest Language.automaton name [.semicolon] hfound⟩

end AspectLang
