/-
Computations in lockstep.

Two computations over states of their own go in lockstep if, from states
that stand in a relation, they come to the same outcome, up to a renaming
of faults and results, and to states that stand in the relation again.
The rules below take a sequence of steps apart, so that the two sides are
compared step by step and neither is ever run.

Where a result comes into play only in the next step, the renaming of the
first result decides what the second computation goes on with.
-/
import SymbolicHeap.Proofs.Outcome

namespace SymbolicHeap

variable {ε ε' σ τ α β α' β' : Type}

/-- An outcome under other names. -/
def renamed (φ : ε → ε') (g : α → β) (outcome : Except ε α) : Except ε' β :=
  (outcome.mapError φ).map g

@[simp]
theorem renamed_ok (φ : ε → ε') (g : α → β) (a : α) :
    renamed φ g (.ok a) = .ok (g a) := rfl

@[simp]
theorem renamed_error (φ : ε → ε') (g : α → β) (e : ε) :
    renamed φ g (.error e) = .error (φ e) := rfl

/-- A renaming that changes nothing may be left out. -/
theorem renamed_self {φ : ε → ε} {g : α → α} (sameError : ∀ e, φ e = e) (same : ∀ a, g a = a)
    (outcome : Except ε α) : renamed φ g outcome = outcome := by
  cases outcome with
  | error e => exact congrArg Except.error (sameError e)
  | ok a => exact congrArg Except.ok (same a)

/-- From related states, the second computation comes to what the first
comes to, under other names, and to a related state. -/
def Lockstep (R : σ → τ → Prop) (φ : ε → ε') (g : α → β) (x : ExceptT ε (StateM σ) α)
    (y : ExceptT ε' (StateM τ) β) : Prop :=
  ∀ s t, R s t → (y.run t).1 = renamed φ g (x.run s).1 ∧ R (x.run s).2 (y.run t).2

namespace Lockstep

variable {R : σ → τ → Prop} {φ : ε → ε'} {g : α → β}

/-- Results correspond. -/
theorem pure {a : α} {b : β} (same : b = g a) :
    Lockstep R φ g (pure a) (pure b) :=
  fun _ _ related => ⟨congrArg Except.ok same, related⟩

/-- Faults correspond. -/
theorem throw {e : ε} {e' : ε'} (same : e' = φ e) :
    Lockstep R φ g (throw e) (throw e') :=
  fun _ _ related => ⟨congrArg Except.error same, related⟩

/-- After a failure nothing comes to be compared. -/
theorem throw_bind {h : α' → β'} {e : ε} {e' : ε'} {f : α → ExceptT ε (StateM σ) α'}
    {f' : β → ExceptT ε' (StateM τ) β'} (same : e' = φ e) :
    Lockstep R φ h (MonadExcept.throw e >>= f) (MonadExcept.throw e' >>= f') :=
  fun _ _ related => ⟨congrArg Except.error same, related⟩

/-- Outcomes that were computed beforehand correspond. -/
theorem liftM {x : Except ε α} {y : Except ε' β} (same : y = renamed φ g x) :
    Lockstep R φ g (liftM x) (liftM y) := by
  subst same
  intro s t related
  cases x with
  | error e => exact ⟨rfl, related⟩
  | ok a => exact ⟨rfl, related⟩

/-- What the two states say may differ as long as what is done with it is
in step. -/
theorem get_bind {f : σ → ExceptT ε (StateM σ) α} {f' : τ → ExceptT ε' (StateM τ) β}
    (h : ∀ s t, R s t → Lockstep R φ g (f s) (f' t)) : Lockstep R φ g (get >>= f) (get >>= f') :=
  fun s t related => h s t related s t related

/-- The change keeps the relation of the states. -/
theorem modify {f : σ → σ} {f' : τ → τ} (h : ∀ s t, R s t → R (f s) (f' t)) :
    Lockstep R φ (fun a : PUnit => a) (modify f) (modify f') :=
  fun s t related => ⟨rfl, h s t related⟩

theorem set {s' : σ} {t' : τ} (h : R s' t') :
    Lockstep R φ (fun a : PUnit => a) (set s') (set t') :=
  fun _ _ _ => ⟨rfl, h⟩

/-- What the first step is known to lead to may be used in the second. -/
theorem bind_known {h : α' → β'} {x : ExceptT ε (StateM σ) α} {y : ExceptT ε' (StateM τ) β}
    {f : α → ExceptT ε (StateM σ) α'} {f' : β → ExceptT ε' (StateM τ) β'} {P : σ → Prop}
    (hx : Lockstep R φ g x y) (known : ∀ {s a s'}, x.run s = (.ok a, s') → P s')
    (hf : ∀ a s t, P s → R s t →
      ((f' (g a)).run t).1 = renamed φ h ((f a).run s).1 ∧
        R ((f a).run s).2 ((f' (g a)).run t).2) :
    Lockstep R φ h (x >>= f) (y >>= f') := by
  intro s t related
  obtain ⟨same, kept⟩ := hx s t related
  rw [run_bind, run_bind]
  rcases hr : x.run s with ⟨e | a, s'⟩
  · rcases hr' : y.run t with ⟨outcome, t'⟩
    rw [hr, hr'] at same kept
    cases same
    exact ⟨rfl, kept⟩
  · rcases hr' : y.run t with ⟨outcome, t'⟩
    rw [hr, hr'] at same kept
    cases same
    exact hf a s' t' (known hr) kept

/-- Two sequences, if their first steps go in lockstep and, from results
that correspond, so do the rest. -/
theorem bind {h : α' → β'} {x : ExceptT ε (StateM σ) α} {y : ExceptT ε' (StateM τ) β}
    {f : α → ExceptT ε (StateM σ) α'} {f' : β → ExceptT ε' (StateM τ) β'}
    (hx : Lockstep R φ g x y) (hf : ∀ a, Lockstep R φ h (f a) (f' (g a))) :
    Lockstep R φ h (x >>= f) (y >>= f') :=
  hx.bind_known (fun _ => trivial) fun a s t _ => hf a s t

/-- The two sides need not decide the same question in the same way. -/
theorem ite {p q : Prop} [Decidable p] [Decidable q] {x x' : ExceptT ε (StateM σ) α}
    {y y' : ExceptT ε' (StateM τ) β} (same : q ↔ p) (hx : p → Lockstep R φ g x y)
    (hx' : ¬p → Lockstep R φ g x' y') :
    Lockstep R φ g (if p then x else x') (if q then y else y') := by
  by_cases h : p
  · rw [if_pos h, if_pos (same.2 h)]
    exact hx h
  · rw [if_neg h, if_neg fun hq => h (same.1 hq)]
    exact hx' h

/-- A renaming of the results after the fact. -/
theorem map {h : α' → β'} {k : α → α'} {k' : β → β'} {x : ExceptT ε (StateM σ) α}
    {y : ExceptT ε' (StateM τ) β} (hx : Lockstep R φ g x y) (same : ∀ a, k' (g a) = h (k a)) :
    Lockstep R φ h (k <$> x) (k' <$> y) := by
  intro s t related
  obtain ⟨outcome, kept⟩ := hx s t related
  rw [run_map, run_map]
  refine ⟨?_, kept⟩
  rw [outcome]
  cases (x.run s).1 with
  | error e => rfl
  | ok a => exact congrArg Except.ok (same a)

/-- What is caught on one side is caught on the other, as the corresponding
fault. -/
theorem tryCatch {x : ExceptT ε (StateM σ) α} {y : ExceptT ε' (StateM τ) β}
    {handle : ε → ExceptT ε (StateM σ) α} {handle' : ε' → ExceptT ε' (StateM τ) β}
    (hx : Lockstep R φ g x y) (hcatch : ∀ e, Lockstep R φ g (handle e) (handle' (φ e))) :
    Lockstep R φ g (tryCatch x handle) (tryCatch y handle') := by
  intro s t related
  obtain ⟨same, kept⟩ := hx s t related
  rw [run_tryCatch, run_tryCatch]
  rcases hr : x.run s with ⟨e | a, s'⟩
  · rcases hr' : y.run t with ⟨outcome, t'⟩
    rw [hr, hr'] at same kept
    cases same
    exact hcatch e s' t' kept
  · rcases hr' : y.run t with ⟨outcome, t'⟩
    rw [hr, hr'] at same kept
    cases same
    exact ⟨rfl, kept⟩

end Lockstep

end SymbolicHeap
