/-
Outcomes of computations that may fail.

Everything here that can fail does so in `Except`, alone or over a state
that survives the failure.  A failure ends a sequence of steps where it
stands; the lemmas below take such sequences apart, so that nothing else
has to open the monads.
-/
import SymbolicHeap.Table

namespace SymbolicHeap

variable {ε σ α β : Type}

-- ======================================================= without a state

/-- A sequence succeeds if both of its steps do. -/
theorem bind_eq_ok {x : Except ε α} {f : α → Except ε β} {b : β} :
    x >>= f = .ok b ↔ ∃ a, x = .ok a ∧ f a = .ok b := by
  cases x with
  | error e =>
      constructor
      · intro h
        cases h
      · rintro ⟨a, h, -⟩
        cases h
  | ok a =>
      constructor
      · intro h
        exact ⟨a, rfl, h⟩
      · rintro ⟨a', h, hf⟩
        cases h
        exact hf

/-- Mapping a result does not make it a failure. -/
theorem map_eq_ok {x : Except ε α} {f : α → β} {b : β} :
    x.map f = .ok b ↔ ∃ a, x = .ok a ∧ f a = b := by
  cases x with
  | error e => simp [Except.map]
  | ok a => simp [Except.map]

/-- A sequence fails in its first step, or after it. -/
theorem bind_eq_error {x : Except ε α} {f : α → Except ε β} {e : ε} :
    x >>= f = .error e ↔ x = .error e ∨ ∃ a, x = .ok a ∧ f a = .error e := by
  cases x with
  | error e' =>
      constructor
      · intro h
        cases h
        exact .inl rfl
      · rintro (h | ⟨a, h, -⟩)
        · cases h
          rfl
        · cases h
  | ok a =>
      constructor
      · intro h
        exact .inr ⟨a, rfl, h⟩
      · rintro (h | ⟨a', h, hf⟩)
        · cases h
        · cases h
          exact hf

theorem mapError_ok {ε' : Type} (a : α) (f : ε → ε') :
    (.ok a : Except ε α).mapError f = .ok a := rfl

theorem mapError_error {ε' : Type} (e : ε) (f : ε → ε') :
    (.error e : Except ε α).mapError f = .error (f e) := rfl

/-- Giving a failure another name does not make it a success. -/
theorem mapError_eq_ok {ε' : Type} {x : Except ε α} {f : ε → ε'} {a : α} :
    x.mapError f = .ok a ↔ x = .ok a := by
  cases x with
  | error e =>
      constructor
      · intro h
        cases h
      · intro h
        cases h
  | ok a' =>
      constructor
      · intro h
        cases h
        rfl
      · intro h
        cases h
        rfl

/-- A failure under another name was a failure before. -/
theorem mapError_eq_error {ε' : Type} {x : Except ε α} {f : ε → ε'} {e' : ε'} :
    x.mapError f = .error e' ↔ ∃ e, x = .error e ∧ f e = e' := by
  cases x with
  | error e => simp [mapError_error]
  | ok a => simp [mapError_ok]

/-- Mapping a result does not touch a failure. -/
theorem map_eq_error {x : Except ε α} {f : α → β} {e : ε} : x.map f = .error e ↔ x = .error e := by
  cases x with
  | error e' => simp [Except.map]
  | ok a => simp [Except.map]

-- ========================================================== with a state

/-- A sequence of steps over a state: a failure of the first leaves the
state as that step left it. -/
theorem run_bind (x : ExceptT ε (StateM σ) α) (f : α → ExceptT ε (StateM σ) β) (s : σ) :
    (x >>= f).run s =
      match x.run s with
      | (.ok a, s') => (f a).run s'
      | (.error e, s') => (.error e, s') := by
  show (ExceptT.bindCont f (x.run s).1).run (x.run s).2 = _
  rcases x.run s with ⟨_ | _, s'⟩
  · rfl
  · rfl

/-- A failure ends a sequence of steps. -/
theorem run_bind_of_error {x : ExceptT ε (StateM σ) α} {s s' : σ} {e : ε}
    (h : x.run s = (.error e, s')) (f : α → ExceptT ε (StateM σ) β) :
    (x >>= f).run s = (.error e, s') := by
  rw [run_bind, h]

/-- Mapping a result leaves the state alone. -/
theorem run_map (x : ExceptT ε (StateM σ) α) (f : α → β) (s : σ) :
    (f <$> x).run s = ((x.run s).1.map f, (x.run s).2) := by
  rw [ExceptT.run_map]
  rfl

/-- A failure is handled in the state that it left behind. -/
theorem run_tryCatch (x : ExceptT ε (StateM σ) α) (handle : ε → ExceptT ε (StateM σ) α)
    (s : σ) :
    (tryCatch x handle).run s =
      match x.run s with
      | (.ok a, s') => (.ok a, s')
      | (.error e, s') => (handle e).run s' := by
  show (match (x.run s).1 with
    | .ok a => (pure (.ok a) : StateM σ (Except ε α))
    | .error e => handle e).run (x.run s).2 = _
  rcases x.run s with ⟨_ | _, s'⟩
  · rfl
  · rfl

theorem run_get_bind (f : σ → ExceptT ε (StateM σ) β) (s : σ) :
    (get >>= f).run s = (f s).run s := rfl

theorem run_set_bind (t : σ) (f : PUnit → ExceptT ε (StateM σ) β) (s : σ) :
    (set t >>= f).run s = (f ⟨⟩).run t := rfl

theorem eq_ok_of_isOk {outcome : Except ε α × σ} (h : outcome.1.isOk = true) :
    ∃ a s, outcome = (.ok a, s) := by
  rcases outcome with ⟨e | a, s⟩
  · cases h
  · exact ⟨a, s, rfl⟩

theorem eq_error_of_isOk {outcome : Except ε α × σ} (h : outcome.1.isOk = false) :
    ∃ e s, outcome = (.error e, s) := by
  rcases outcome with ⟨e | a, s⟩
  · exact ⟨e, s, rfl⟩
  · cases h

/-- A sequence of steps succeeds if the second does after the first. -/
theorem run_bind_eq_ok {x : ExceptT ε (StateM σ) α} {f : α → ExceptT ε (StateM σ) β}
    {s s' : σ} {b : β} :
    (x >>= f).run s = (.ok b, s') ↔
      ∃ a t, x.run s = (.ok a, t) ∧ (f a).run t = (.ok b, s') := by
  rw [run_bind]
  rcases x.run s with ⟨_ | a, t⟩
  · constructor
    · intro h
      cases h
    · rintro ⟨a, t, h, -⟩
      cases h
  · constructor
    · intro h
      exact ⟨a, t, rfl, h⟩
    · rintro ⟨a, t, h, hf⟩
      cases h
      exact hf

theorem run_map_eq_ok {x : ExceptT ε (StateM σ) α} {f : α → β} {s s' : σ} {b : β} :
    (f <$> x).run s = (.ok b, s') ↔ ∃ a, x.run s = (.ok a, s') ∧ f a = b := by
  rw [run_map]
  rcases x.run s with ⟨_ | a, t⟩
  · constructor
    · intro h
      cases h
    · rintro ⟨a, h, -⟩
      cases h
  · constructor
    · intro h
      cases h
      exact ⟨a, rfl, rfl⟩
    · rintro ⟨a, h, rfl⟩
      cases h
      rfl

theorem run_liftM_eq_ok {x : Except ε α} {s s' : σ} {a : α} :
    (liftM x : ExceptT ε (StateM σ) α).run s = (.ok a, s') ↔ x = .ok a ∧ s = s' := by
  constructor
  · intro h
    cases x with
    | error e => cases h
    | ok b =>
        cases h
        exact ⟨rfl, rfl⟩
  · rintro ⟨rfl, rfl⟩
    rfl

theorem run_pure_eq_ok {s s' : σ} {a b : α} :
    (pure a : ExceptT ε (StateM σ) α).run s = (.ok b, s') ↔ a = b ∧ s = s' := by
  constructor
  · intro h
    cases h
    exact ⟨rfl, rfl⟩
  · rintro ⟨rfl, rfl⟩
    rfl

-- ----------------------------------------------- what happens in any case

/-- Whether it succeeds or not, a computation leads from any state to one
that stands in a relation to it. -/
def Leads (R : σ → σ → Prop) (x : ExceptT ε (StateM σ) α) : Prop :=
  ∀ s, R s (x.run s).2

/-- A relation that is kept by doing nothing, and from step to step. -/
structure Steady (R : σ → σ → Prop) : Prop where
  refl : ∀ s, R s s
  trans : ∀ {a b c}, R a b → R b c → R a c

namespace Leads

variable {R : σ → σ → Prop}

theorem of_run {x : ExceptT ε (StateM σ) α} (hx : Leads R x) {s s' : σ} {outcome : Except ε α}
    (h : x.run s = (outcome, s')) : R s s' := by
  have hs := hx s
  rw [h] at hs
  exact hs

theorem mono {S : σ → σ → Prop} {x : ExceptT ε (StateM σ) α} (hx : Leads R x)
    (weaker : ∀ {s t}, R s t → S s t) : Leads S x :=
  fun s => weaker (hx s)

theorem pure (steady : Steady R) (a : α) : Leads R (pure a : ExceptT ε (StateM σ) α) :=
  fun s => steady.refl s

theorem throw (steady : Steady R) (e : ε) :
    Leads R (throw e : ExceptT ε (StateM σ) α) :=
  fun s => steady.refl s

theorem liftM (steady : Steady R) (x : Except ε α) :
    Leads R (liftM x : ExceptT ε (StateM σ) α) := by
  intro s
  cases x with
  | error e => exact steady.refl s
  | ok a => exact steady.refl s

theorem get (steady : Steady R) : Leads R (get : ExceptT ε (StateM σ) σ) :=
  fun s => steady.refl s

theorem modify {f : σ → σ} (h : ∀ s, R s (f s)) :
    Leads R (modify f : ExceptT ε (StateM σ) Unit) := h

theorem bind (steady : Steady R) {x : ExceptT ε (StateM σ) α}
    {f : α → ExceptT ε (StateM σ) β} (hx : Leads R x) (hf : ∀ a, Leads R (f a)) :
    Leads R (x >>= f) := by
  intro s
  rw [run_bind]
  rcases hr : x.run s with ⟨_ | a, t⟩
  · exact hx.of_run hr
  · exact steady.trans (hx.of_run hr) (hf a t)

theorem map {x : ExceptT ε (StateM σ) α} (hx : Leads R x) (f : α → β) : Leads R (f <$> x) := by
  intro s
  rw [run_map]
  exact hx s

theorem tryCatch (steady : Steady R) {x : ExceptT ε (StateM σ) α}
    {handle : ε → ExceptT ε (StateM σ) α} (hx : Leads R x) (hcatch : ∀ e, Leads R (handle e)) :
    Leads R (tryCatch x handle) := by
  intro s
  rw [run_tryCatch]
  rcases hr : x.run s with ⟨e | a, t⟩
  · exact steady.trans (hx.of_run hr) (hcatch e t)
  · exact hx.of_run hr

end Leads

/-- A failure leads from any state to one that stands in a relation to it. -/
def Refuses (R : σ → σ → Prop) (x : ExceptT ε (StateM σ) α) : Prop :=
  ∀ s e s', x.run s = (.error e, s') → R s s'

namespace Refuses

variable {R : σ → σ → Prop}

theorem of_leads {x : ExceptT ε (StateM σ) α} (h : Leads R x) : Refuses R x :=
  fun _ _ _ hr => h.of_run hr

/-- What comes before the failure may be anything that keeps the relation. -/
theorem bind (steady : Steady R) {x : ExceptT ε (StateM σ) α}
    {f : α → ExceptT ε (StateM σ) β} (hx : Leads R x) (hf : ∀ a, Refuses R (f a)) :
    Refuses R (x >>= f) := by
  intro s e s' h
  rw [run_bind] at h
  rcases hr : x.run s with ⟨_ | a, t⟩
  · rw [hr] at h
    cases h
    exact hx.of_run hr
  · rw [hr] at h
    exact steady.trans (hx.of_run hr) (hf a t e s' h)

theorem map {x : ExceptT ε (StateM σ) α} (hx : Refuses R x) (f : α → β) :
    Refuses R (f <$> x) := by
  intro s e s' h
  rw [run_map] at h
  rcases hr : x.run s with ⟨_ | a, t⟩
  · rw [hr] at h
    cases h
    exact hx s _ _ hr
  · rw [hr] at h
    cases h

/-- If all that comes after the first step succeeds, the failure is that
of the first step. -/
theorem bind_of_ok {x : ExceptT ε (StateM σ) α} {f : α → ExceptT ε (StateM σ) β}
    (hx : Refuses R x) (hf : ∀ a s e s', (f a).run s ≠ (.error e, s')) : Refuses R (x >>= f) := by
  intro s e s' h
  rw [run_bind] at h
  rcases hr : x.run s with ⟨_ | a, t⟩
  · rw [hr] at h
    cases h
    exact hx s _ _ hr
  · rw [hr] at h
    exact absurd h (hf a t e s')

end Refuses

-- ------------------------------------------------------ causes of failure

/-- From this state, a computation fails for causes of some kind only. -/
def FailsOnly (P : ε → Prop) (s : σ) (x : ExceptT ε (StateM σ) α) : Prop :=
  ∀ e s', x.run s = (.error e, s') → P e

namespace FailsOnly

variable {P : ε → Prop} {s : σ}

theorem pure (a : α) : FailsOnly P s (pure a : ExceptT ε (StateM σ) α) := by
  intro e s' h
  cases h

theorem throw {e : ε} (h : P e) : FailsOnly P s (throw e : ExceptT ε (StateM σ) α) := by
  intro e' s' h'
  cases h'
  exact h

theorem liftM {x : Except ε α} (h : ∀ e, x = .error e → P e) :
    FailsOnly P s (liftM x : ExceptT ε (StateM σ) α) := by
  intro e s' h'
  cases x with
  | error e =>
      cases h'
      exact h e rfl
  | ok a => cases h'

theorem get : FailsOnly P s (get : ExceptT ε (StateM σ) σ) := by
  intro e s' h
  cases h

theorem modify (f : σ → σ) : FailsOnly P s (modify f : ExceptT ε (StateM σ) Unit) := by
  intro e s' h
  cases h

/-- The second step fails from the state that the first one left. -/
theorem bind {x : ExceptT ε (StateM σ) α} {f : α → ExceptT ε (StateM σ) β}
    (hx : FailsOnly P s x) (hf : ∀ a t, x.run s = (.ok a, t) → FailsOnly P t (f a)) :
    FailsOnly P s (x >>= f) := by
  intro e s' h
  rw [run_bind] at h
  rcases hr : x.run s with ⟨_ | a, t⟩
  · rw [hr] at h
    cases h
    exact hx _ _ hr
  · rw [hr] at h
    exact hf a t hr e s' h

theorem map {x : ExceptT ε (StateM σ) α} (hx : FailsOnly P s x) (f : α → β) :
    FailsOnly P s (f <$> x) := by
  intro e s' h
  rw [run_map] at h
  rcases hr : x.run s with ⟨_ | a, t⟩
  · rw [hr] at h
    cases h
    exact hx _ _ hr
  · rw [hr] at h
    cases h

end FailsOnly

end SymbolicHeap
