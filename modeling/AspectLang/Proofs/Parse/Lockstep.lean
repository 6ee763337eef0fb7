import AspectLang.Parse.Machine

/-! # Computations in step

`InStep R Q x y` compares two computations that may fail and change a state either way.  Started
in states that `R` relates, they end alike: both succeed with values that `Q` relates, or both
fail with the same error, and the states they leave are related again.  `InStepUnless` leaves
the comparison open from where the first computation does something that stays in its state.

Repairs do not look at the values that were built, but for the nodes that forbid a repair: a
machine with other values repairs its input alike (`Machine.recover_withValues`). -/

namespace AspectLang

variable {ε σ τ α β γ δ : Type} {R : σ → τ → Prop} {Q : α → β → Prop} {Q' : γ → δ → Prop}

/-- Where two computations in a row succeed, the first does. -/
theorem exists_of_bind {ε σ β γ : Type} {a : EStateM ε σ β} {f : β → EStateM ε σ γ} {s s' : σ}
    {c : γ} (h : (a >>= f) s = .ok c s') : ∃ b middle, a s = .ok b middle ∧ f b middle = .ok c s' := by
  change EStateM.bind a f s = .ok c s' at h
  unfold EStateM.bind at h
  split at h
  · exact ⟨_, _, ‹_›, h⟩
  · cases h

/-- Two results are alike, up to related values and states. -/
inductive Alike (R : σ → τ → Prop) (Q : α → β → Prop) :
    EStateM.Result ε σ α → EStateM.Result ε τ β → Prop
  | ok {a : α} {b : β} {s : σ} {t : τ} : Q a b → R s t → Alike R Q (.ok a s) (.ok b t)
  | error {e : ε} {s : σ} {t : τ} : R s t → Alike R Q (.error e s) (.error e t)

theorem Alike.refl {R : σ → σ → Prop} (hR : ∀ s, R s s) (r : EStateM.Result ε σ α) :
    Alike R Eq r r := by
  cases r with
  | ok a s => exact .ok rfl (hR s)
  | error e s => exact .error (hR s)

/-- Two computations end alike whenever they start in related states. -/
def InStep (R : σ → τ → Prop) (Q : α → β → Prop) (x : EStateM ε σ α) (y : EStateM ε τ β) : Prop :=
  ∀ s t, R s t → Alike R Q (x s) (y t)

namespace InStep

variable {x : EStateM ε σ α} {y : EStateM ε τ β} {f : α → EStateM ε σ γ} {g : β → EStateM ε τ δ}

theorem pure {a : α} {b : β} (h : Q a b) :
    InStep R Q (Pure.pure a : EStateM ε σ α) (Pure.pure b : EStateM ε τ β) :=
  fun _ _ hst => .ok h hst

theorem throw (e : ε) :
    InStep R Q (MonadExcept.throw e : EStateM ε σ α) (MonadExcept.throw e : EStateM ε τ β) :=
  fun _ _ hst => .error hst

theorem bind (hx : InStep R Q x y) (hf : ∀ a b, Q a b → InStep R Q' (f a) (g b)) :
    InStep R Q' (x >>= f) (y >>= g) := by
  intro s t hst
  have h := hx s t hst
  change Alike R Q' (EStateM.bind x f s) (EStateM.bind y g t)
  unfold EStateM.bind
  generalize x s = r, y t = r' at h
  cases h with
  | ok hab hst => exact hf _ _ hab _ _ hst
  | error hst => exact .error hst

/-- As `bind`, where the first computation itself consists of two. -/
theorem chain {α' β' : Type} {x : EStateM ε σ α'} {y : EStateM ε τ β'} {x' : α' → EStateM ε σ α}
    {y' : β' → EStateM ε τ β} (hx : InStep R Q (x >>= x') (y >>= y'))
    (hf : ∀ a b, Q a b → InStep R Q' (f a) (g b)) :
    InStep R Q' (x >>= fun a => x' a >>= f) (y >>= fun b => y' b >>= g) := by
  rw [← bind_assoc, ← bind_assoc]
  exact hx.bind hf

theorem map {f : α → γ} {g : β → δ} (hx : InStep R Q x y) (hf : ∀ a b, Q a b → Q' (f a) (g b)) :
    InStep R Q' (f <$> x) (g <$> y) := by
  intro s t hst
  have h := hx s t hst
  change Alike R Q' (EStateM.map f x s) (EStateM.map g y t)
  unfold EStateM.map
  generalize x s = r, y t = r' at h
  cases h with
  | ok hab hst => exact .ok (hf _ _ hab) hst
  | error hst => exact .error hst

theorem map_some {g : α → β} (hx : InStep R (fun a b => b = g a) x y) :
    InStep R (fun a b => b = a.map g) (some <$> x) (some <$> y) :=
  hx.map fun _ _ h => congrArg some h

theorem mono {Q' : α → β → Prop} (hx : InStep R Q x y) (hQ : ∀ a b, Q a b → Q' a b) :
    InStep R Q' x y := by
  intro s t hst
  have h := hx s t hst
  generalize x s = r, y t = r' at h
  cases h with
  | ok hab hst => exact .ok (hQ _ _ hab) hst
  | error hst => exact .error hst

theorem get_bind {f : σ → EStateM ε σ γ} {g : τ → EStateM ε τ δ}
    (hf : ∀ s t, R s t → InStep R Q' (f s) (g t)) : InStep R Q' (get >>= f) (get >>= g) :=
  fun s t hst => hf s t hst s t hst

theorem modifies {f : σ → σ} {g : τ → τ} (hfg : ∀ s t, R s t → R (f s) (g t)) :
    InStep R Eq (modify f : EStateM ε σ Unit) (modify g : EStateM ε τ Unit) :=
  fun s t hst => .ok rfl (hfg s t hst)

-- With the branches as variables no table is evaluated where they mention one.
theorem match_tokens {tokens : List Token} {f : Token → List Token → EStateM ε σ α}
    {g : Token → List Token → EStateM ε τ β}
    (hnil : InStep R Q x y) (hcons : ∀ t rest, InStep R Q (f t rest) (g t rest)) :
    InStep R Q (match tokens with | [] => x | t :: rest => f t rest)
      (match tokens with | [] => y | t :: rest => g t rest) := by
  cases tokens with
  | nil => exact hnil
  | cons t rest => exact hcons t rest

end InStep

/-! ### Computations in step unless something happens -/

/-- The state that a result leaves is as `E` says. -/
inductive Ends (E : σ → Prop) : EStateM.Result ε σ α → Prop
  | ok {a : α} {s : σ} : E s → Ends E (.ok a s)
  | error {e : ε} {s : σ} : E s → Ends E (.error e s)

/-- What `E` says stays true, also when the computation fails. -/
def Stays (E : σ → Prop) (x : EStateM ε σ α) : Prop := ∀ s, E s → Ends E (x s)

/-- Two computations end alike whenever they start in related states, unless the first comes to
a state as `E` says. -/
def InStepUnless (E : σ → Prop) (R : σ → τ → Prop) (Q : α → β → Prop) (x : EStateM ε σ α)
    (y : EStateM ε τ β) : Prop :=
  ∀ s t, R s t → Ends E (x s) ∨ Alike R Q (x s) (y t)

variable {E : σ → Prop} {x : EStateM ε σ α} {y : EStateM ε τ β} {f : α → EStateM ε σ γ}
  {g : β → EStateM ε τ δ}

namespace Stays

theorem pure (a : α) : Stays E (Pure.pure a : EStateM ε σ α) := fun _ h => .ok h

theorem throw (e : ε) : Stays E (MonadExcept.throw e : EStateM ε σ α) := fun _ h => .error h

theorem modifies {k : σ → σ} (hk : ∀ s, E s → E (k s)) : Stays E (modify k : EStateM ε σ Unit) :=
  fun s h => .ok (hk s h)

theorem bind (hx : Stays E x) (hf : ∀ a, Stays E (f a)) : Stays E (x >>= f) := by
  intro s hs
  have h := hx s hs
  change Ends E (EStateM.bind x f s)
  unfold EStateM.bind
  generalize x s = r at h
  cases h with
  | ok h => exact hf _ _ h
  | error h => exact .error h

theorem get_bind {f : σ → EStateM ε σ γ} (hf : ∀ s, Stays E (f s)) : Stays E (get >>= f) :=
  fun s => hf s s

theorem match_tokens {tokens : List Token} {f : Token → List Token → EStateM ε σ α}
    (hnil : Stays E x) (hcons : ∀ t rest, Stays E (f t rest)) :
    Stays E (match tokens with | [] => x | t :: rest => f t rest) := by
  cases tokens with
  | nil => exact hnil
  | cons t rest => exact hcons t rest

end Stays

namespace InStepUnless

theorem of_inStep (h : InStep R Q x y) : InStepUnless E R Q x y := fun s t hst => .inr (h s t hst)

theorem bind (hx : InStepUnless E R Q x y) (hf : ∀ a b, Q a b → InStepUnless E R Q' (f a) (g b))
    (hstays : ∀ a, Stays E (f a)) : InStepUnless E R Q' (x >>= f) (y >>= g) := by
  intro s t hst
  have h := hx s t hst
  change Ends E (EStateM.bind x f s) ∨ Alike R Q' (EStateM.bind x f s) (EStateM.bind y g t)
  unfold EStateM.bind
  generalize x s = r, y t = r' at h
  rcases h with h | h
  · cases h with
    | ok h => exact .inl (hstays _ _ h)
    | error h => exact .inl (.error h)
  · cases h with
    | ok hab hst => exact hf _ _ hab _ _ hst
    | error hst => exact .inr (.error hst)

/-- As `bind`, where the first computation itself consists of two. -/
theorem chain {α' β' : Type} {x : EStateM ε σ α'} {y : EStateM ε τ β'} {x' : α' → EStateM ε σ α}
    {y' : β' → EStateM ε τ β} (hx : InStepUnless E R Q (x >>= x') (y >>= y'))
    (hf : ∀ a b, Q a b → InStepUnless E R Q' (f a) (g b)) (hstays : ∀ a, Stays E (f a)) :
    InStepUnless E R Q' (x >>= fun a => x' a >>= f) (y >>= fun b => y' b >>= g) := by
  rw [← bind_assoc, ← bind_assoc]
  exact hx.bind hf hstays

/-- As `bind`, where the first computations are in step. -/
theorem bind_of_inStep (hx : InStep R Q x y)
    (hf : ∀ a b, Q a b → InStepUnless E R Q' (f a) (g b)) :
    InStepUnless E R Q' (x >>= f) (y >>= g) := by
  intro s t hst
  have h := hx s t hst
  change Ends E (EStateM.bind x f s) ∨ Alike R Q' (EStateM.bind x f s) (EStateM.bind y g t)
  unfold EStateM.bind
  generalize x s = r, y t = r' at h
  cases h with
  | ok hab hst => exact hf _ _ hab _ _ hst
  | error hst => exact .inr (.error hst)

theorem get_bind {f : σ → EStateM ε σ γ} {g : τ → EStateM ε τ δ}
    (hf : ∀ s t, R s t → InStepUnless E R Q' (f s) (g t)) :
    InStepUnless E R Q' (get >>= f) (get >>= g) :=
  fun s t hst => hf s t hst s t hst

theorem match_tokens {tokens : List Token} {f : Token → List Token → EStateM ε σ α}
    {g : Token → List Token → EStateM ε τ β}
    (hnil : InStepUnless E R Q x y) (hcons : ∀ t rest, InStepUnless E R Q (f t rest) (g t rest)) :
    InStepUnless E R Q (match tokens with | [] => x | t :: rest => f t rest)
      (match tokens with | [] => y | t :: rest => g t rest) := by
  cases tokens with
  | nil => exact hnil
  | cons t rest => exact hcons t rest

end InStepUnless

/-! ### Repairs -/

namespace Machine

variable {settings : Settings} {d d' : Dialect} {m : Machine}

/-- The machine with other values and another unit. -/
def withValues (values : ValueStacks) (unit : Option CompilationUnit) (m : Machine) : Machine :=
  { m with work := { m.work with values, unit } }

variable {values : ValueStacks} {unit : Option CompilationUnit}

theorem passOver_withValues (maxFailures : Nat) (t : Token) :
    (m.withValues values unit).passOver maxFailures t =
      Prod.map id (withValues values unit) (m.passOver maxFailures t) := by
  unfold passOver
  dsimp only [withValues, reportUnexpected, report]
  split
  · rfl
  · split
    · rfl
    · rfl

theorem recover_withValues (t : Token)
    (hallows : (m.withValues values unit).allowsRepair d' = m.allowsRepair d) :
    recover ⟨settings, d'⟩ t (m.withValues values unit) =
      Prod.map id (withValues values unit) (recover ⟨settings, d⟩ t m) := by
  unfold recover
  rw [hallows]
  by_cases hphase : m.recovery.phase = .abandoned
  · rw [if_pos hphase]
    exact if_pos hphase
  · rw [if_neg hphase]
    refine (if_neg hphase).trans ?_
    by_cases hbudget : m.work.reporter.isOutOfBudget = true
    · rw [if_pos hbudget]
      exact if_pos hbudget
    · rw [if_neg hbudget]
      refine (if_neg hbudget).trans ?_
      by_cases hforbidden : (!m.allowsRepair d) = true
      · rw [if_pos hforbidden, if_pos hforbidden]
        rfl
      · rw [if_neg hforbidden, if_neg hforbidden]
        dsimp only [withValues]
        cases Language.automaton.repair? settings.recoveryWindow m.states
            (m.rest.map Token.kind) with
        | none => exact passOver_withValues ..
        | some repair => cases repair <;> rfl

end Machine

end AspectLang
