import AspectLang.Proofs.Automaton.Driver
import AspectLang.Proofs.Parse.Steps

/-! # What trials say

A repair is chosen by a trial run of the automaton, which reads what the repair inserts and the
next kinds that it keeps (`Automaton.of_repair?`).  Neither the end of input nor a shift operator
is ever inserted.  So a repair of the machine leaves tokens that were left before, and others that
have the text of their kind and cannot be split (`Machine.recover_cases`). -/

namespace AspectLang

/-! ### Repairs of the automaton -/

namespace Automaton

variable {a : Automaton} {states states' : List Nat} {kind : TokenKind}

/-- A trial of a completion came from the states by the tokens of its path. -/
structure Trial.From (trial : Trial) (a : Automaton) (states : List Nat) : Prop where
  accepts : ∀ more, a.accepts states (trial.path.reverse ++ more) = a.accepts trial.states more
  kinds : ∀ kind ∈ trial.path, kind ∈ completionKinds

theorem Trial.From.next {trial : Trial} (h : trial.From a states) (hkind : kind ∈ completionKinds)
    (hfeed : a.feed trial.states kind = .shifted states') :
    Trial.From ⟨states', kind :: trial.path⟩ a states where
  accepts more := by
    rw [List.reverse_cons, List.append_assoc, h.accepts]
    exact accepts_of_shifted hfeed more
  kinds k hk := by
    rcases List.mem_cons.mp hk with rfl | hk
    · exact hkind
    · exact h.kinds k hk

theorem from_of_mem_extend {trial : Trial} (htrial : trial.From a states) {later : List Trial}
    {seen : Std.HashSet (List Nat)} (hlater : ∀ x ∈ later, x.From a states) :
    ∀ x ∈ (a.extend trial later seen).1, x.From a states := by
  refine List.foldlRecOn (motive := fun found : List Trial × _ => ∀ x ∈ found.1, x.From a states)
    completionKinds _ hlater ?_
  rintro ⟨later, seen⟩ hlater kind hkind
  dsimp only
  split
  · rename_i states' hfeed
    split
    · exact hlater
    · intro x hx
      rcases List.mem_cons.mp hx with rfl | hx
      · exact htrial.next hkind hfeed
      · exact hlater x hx
  · exact hlater

/-- A completion that is found lets the input be accepted at its end. -/
theorem searchCompletion_spec {gas : Nat} {now later : List Trial}
    {seen : Std.HashSet (List Nat)} {path : List TokenKind}
    (hnow : ∀ x ∈ now, x.From a states) (hlater : ∀ x ∈ later, x.From a states)
    (h : a.searchCompletion gas now later seen = some path) :
    (∀ more, a.accepts states (path ++ .eof :: more) = true) ∧
      ∀ kind ∈ path, kind ∈ completionKinds := by
  induction gas generalizing now later seen with
  | zero => cases h
  | succ gas ih =>
      unfold searchCompletion at h
      have hturn : ∀ x ∈ (if now.isEmpty then later.reverse else now), x.From a states := by
        split
        · exact fun x hx => hlater x (List.mem_reverse.mp hx)
        · exact hnow
      have hlast : ∀ x ∈ (if now.isEmpty then [] else later), x.From a states := by
        split
        · exact fun x hx => absurd hx List.not_mem_nil
        · exact hlater
      split at h
      · cases h
      · rename_i later' trial now' hturn'
        rw [hturn'] at hturn
        have htrial := hturn trial List.mem_cons_self
        split at h
        · cases h
        · split at h
          · rename_i hfeed
            obtain rfl := Option.some.inj h
            refine ⟨fun more => ?_, fun k hk => htrial.kinds k (List.mem_reverse.mp hk)⟩
            rw [htrial.accepts]
            exact accepts_of_accepted hfeed more
          · exact ih (fun x hx => hturn x (List.mem_cons_of_mem trial hx))
              (from_of_mem_extend htrial hlast) h

end Automaton

namespace Repair

/-- The kinds that a repair inserts. -/
def kinds : Repair → List TokenKind
  | .insert kinds => kinds
  | .delete => []

/-- What a repair keeps of what is left. -/
def kept {α : Type} : Repair → List α → List α
  | .insert _, left => left
  | .delete, left => left.tail

theorem map_kept {α β : Type} (f : α → β) (r : Repair) (left : List α) :
    (r.kept left).map f = r.kept (left.map f) := by
  cases r with
  | insert kinds => rfl
  | delete => exact List.map_tail

end Repair

namespace Automaton

variable {a : Automaton} {states : List Nat} {window : Nat} {left : List TokenKind} {r : Repair}

theorem of_insertion? {kind : TokenKind} (h : a.insertion? states left = some kind) :
    a.accepts states (kind :: left) = true ∧ kind ∈ insertionKinds :=
  ⟨by simpa using List.find?_some h, List.mem_of_find?_eq_some h⟩

theorem of_completion? {path : List TokenKind} (h : a.completion? states = some path) :
    (∀ more, a.accepts states (path ++ .eof :: more) = true) ∧
      ∀ kind ∈ path, kind ∈ completionKinds := by
  refine searchCompletion_spec (fun x hx => ?_) (fun x hx => absurd hx List.not_mem_nil) h
  obtain rfl := List.mem_singleton.mp hx
  exact ⟨fun more => rfl, fun kind hkind => absurd hkind List.not_mem_nil⟩

/-- A repair was found by a trial of what it inserts and the next kinds that it keeps. -/
theorem of_repair? (h : a.repair? window states left = some r) :
    a.accepts states (r.kinds ++ (r.kept left).take (max window 1)) = true ∧
      ∀ kind ∈ r.kinds, kind ∈ insertionKinds ++ completionKinds := by
  unfold repair? at h
  dsimp only at h
  split at h
  · rename_i kind hinsertion
    obtain rfl := Option.some.inj h
    obtain ⟨haccepts, hmem⟩ := of_insertion? hinsertion
    refine ⟨haccepts, fun k hk => ?_⟩
    obtain rfl := List.mem_singleton.mp hk
    exact List.mem_append_left _ hmem
  · split at h
    · rename_i hhead
      split at h
      · cases h
      · cases h
      · rename_i completion hne hcompletion
        obtain rfl := Option.some.inj h
        obtain ⟨haccepts, hmem⟩ := of_completion? hcompletion
        obtain ⟨more, rfl⟩ := List.head?_eq_some_iff.mp hhead
        refine ⟨?_, fun k hk => List.mem_append_right _ (hmem k hk)⟩
        have htake : (TokenKind.eof :: more).take (max window 1) =
            .eof :: more.take (max window 1 - 1) := by
          obtain ⟨n, hn⟩ : ∃ n, max window 1 = n + 1 := ⟨max window 1 - 1, by omega⟩
          rw [hn, List.take_succ_cons, Nat.add_sub_cancel]
        change a.accepts states (completion ++ (TokenKind.eof :: more).take (max window 1)) = true
        rw [htake]
        exact haccepts _
    · split at h
      · rename_i haccepts
        obtain rfl := Option.some.inj h
        exact ⟨haccepts, fun k hk => absurd hk List.not_mem_nil⟩
      · cases h

end Automaton

theorem insertable_ne : ∀ kind ∈ Automaton.insertionKinds ++ Automaton.completionKinds,
    kind ≠ .eof ∧ kind.halves? = none := by
  decide

/-! ### Repairs of the machine -/

namespace Machine

variable {p : ParserSetup} {m : Machine}

/-- Where tokens are inserted before `t`. -/
def insertionPlace (m : Machine) (t : Token) : Nat :=
  m.previous.elim t.span.start (·.span.stop)

/-- A repair keeps what was read; of what is left it keeps all or all but the first token, or it
puts tokens in front. -/
theorem recover_cases (p : ParserSetup) (t : Token) (m : Machine) :
    (recover p t m).2.previous = m.previous ∧
      ((recover p t m).2.rest = m.rest ∨ (recover p t m).2.rest = m.rest.tail ∨
        ∃ kinds : List TokenKind, (∀ kind ∈ kinds, kind.halves? = none) ∧
          (recover p t m).2.rest = kinds.map (fun kind =>
            ⟨kind, .point (m.insertionPlace t), kind.lexeme?.getD ""⟩) ++ m.rest) := by
  unfold recover
  split
  · exact ⟨rfl, .inl rfl⟩
  · split
    · exact ⟨rfl, .inl rfl⟩
    · split
      · exact ⟨rfl, .inl rfl⟩
      · dsimp only
        split
        · rename_i kinds hrepair
          refine ⟨rfl, .inr (.inr ⟨kinds, fun kind hkind => ?_, ?_⟩)⟩
          · exact (insertable_ne kind ((Automaton.of_repair? hrepair).2 kind hkind)).2
          · unfold insert insertionPlace
            cases m.previous <;> rfl
        · exact ⟨rfl, .inr (.inl rfl)⟩
        · unfold passOver
          dsimp only
          split
          · exact ⟨rfl, .inl rfl⟩
          · split
            · exact ⟨rfl, .inl rfl⟩
            · exact ⟨rfl, .inr (.inl rfl)⟩

/-- The tokens that are left after a repair were left before, or have the text of their kind and
are no shift operators. -/
theorem mem_rest_recover {t u : Token} (h : u ∈ (recover p t m).2.rest) :
    u ∈ m.rest ∨ ∃ kind place, kind.halves? = none ∧ u = ⟨kind, place, kind.lexeme?.getD ""⟩ := by
  rcases (recover_cases p t m).2 with hsame | htail | ⟨kinds, hwhole, hfront⟩
  · exact .inl (hsame ▸ h)
  · exact .inl (List.mem_of_mem_tail (htail ▸ h))
  · rw [hfront] at h
    rcases List.mem_append.mp h with hnew | hold
    · obtain ⟨kind, hkind, rfl⟩ := List.mem_map.mp hnew
      exact .inr ⟨kind, _, hwhole kind hkind, rfl⟩
    · exact .inl hold

end Machine

end AspectLang
