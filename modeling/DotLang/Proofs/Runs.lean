/-!
# Runs of steps with a state

The parser and the builder are written as steps that read and change a state and
may fail.  `Runs x s a t` says that the step `x` succeeds from the state `s`,
gives `a` and ends in the state `t`.  The lemmas read a run of a composed step
as the runs of its parts, so a proof about a step goes along its text.
`Fails x s e` says that the step fails with the error `e`, and `Preserves P x` that
a condition on the state stays true, however the step ends.
-/

namespace DotLang

variable {ε σ α β : Type}

/-- From the state `s` the step gives `a` and ends in the state `t`. -/
def Runs (x : EStateM ε σ α) (s : σ) (a : α) (t : σ) : Prop := x s = .ok a t

/-- A step gives one value and ends in one state. -/
theorem Runs.unique {x : EStateM ε σ α} {s t t' : σ} {a a' : α}
    (h : Runs x s a t) (h' : Runs x s a' t') : a = a' ∧ t = t' := by
  have he : EStateM.Result.ok a t = EStateM.Result.ok a' t' := h.symm.trans h'
  cases he
  exact ⟨rfl, rfl⟩

theorem runs_bind {x : EStateM ε σ α} {f : α → EStateM ε σ β} {s t : σ} {b : β} :
    Runs (x >>= f) s b t ↔ ∃ a u, Runs x s a u ∧ Runs (f a) u b t := by
  show EStateM.bind x f s = _ ↔ ∃ a u, x s = _ ∧ _
  unfold EStateM.bind
  cases hx : x s with
  | ok a u =>
      constructor
      · intro h
        exact ⟨a, u, rfl, h⟩
      · rintro ⟨a', u', he, h⟩
        cases he
        exact h
  | error e u =>
      constructor
      · intro h
        cases h
      · rintro ⟨a', u', he, h⟩
        cases he

@[simp] theorem runs_pure {s t : σ} {a b : α} :
    Runs (pure a : EStateM ε σ α) s b t ↔ b = a ∧ t = s := by
  show EStateM.Result.ok a s = .ok b t ↔ _
  constructor
  · intro h
    cases h
    exact ⟨rfl, rfl⟩
  · rintro ⟨rfl, rfl⟩
    rfl

theorem runs_map {x : EStateM ε σ α} {f : α → β} {s t : σ} {b : β} :
    Runs (f <$> x) s b t ↔ ∃ a, b = f a ∧ Runs x s a t := by
  have he : f <$> x = x >>= fun a => pure (f a) := rfl
  rw [he, runs_bind]
  constructor
  · rintro ⟨a, u, hx, hp⟩
    obtain ⟨rfl, rfl⟩ := runs_pure.1 hp
    exact ⟨a, rfl, hx⟩
  · rintro ⟨a, rfl, hx⟩
    exact ⟨a, t, hx, runs_pure.2 ⟨rfl, rfl⟩⟩

@[simp] theorem runs_get {s t a : σ} : Runs (get : EStateM ε σ σ) s a t ↔ a = s ∧ t = s := by
  show EStateM.Result.ok s s = .ok a t ↔ _
  constructor
  · intro h
    cases h
    exact ⟨rfl, rfl⟩
  · rintro ⟨rfl, rfl⟩
    rfl

theorem get_bind_apply (f : σ → EStateM ε σ α) (s : σ) : (get >>= f) s = f s s := rfl

/-- Reading the state changes nothing. -/
theorem runs_get_bind {f : σ → EStateM ε σ α} {s t : σ} {a : α} :
    Runs (get >>= f) s a t ↔ Runs (f s) s a t := by
  rw [runs_bind]
  constructor
  · rintro ⟨_, _, hg, h⟩
    obtain ⟨rfl, rfl⟩ := runs_get.1 hg
    exact h
  · intro h
    exact ⟨_, _, runs_get.2 ⟨rfl, rfl⟩, h⟩

@[simp] theorem runs_set {s t u : σ} {v : PUnit} :
    Runs (set u : EStateM ε σ PUnit) s v t ↔ t = u := by
  show EStateM.Result.ok PUnit.unit u = .ok v t ↔ _
  constructor
  · intro h
    cases h
    rfl
  · rintro rfl
    rfl

@[simp] theorem runs_modify {f : σ → σ} {s t : σ} {v : PUnit} :
    Runs (modify f : EStateM ε σ PUnit) s v t ↔ t = f s := by
  show EStateM.Result.ok PUnit.unit (f s) = .ok v t ↔ _
  constructor
  · intro h
    cases h
    rfl
  · rintro rfl
    rfl

@[simp] theorem runs_modifyGet {f : σ → α × σ} {s t : σ} {a : α} :
    Runs (modifyGet f : EStateM ε σ α) s a t ↔ a = (f s).1 ∧ t = (f s).2 := by
  show EStateM.Result.ok (f s).1 (f s).2 = .ok a t ↔ _
  constructor
  · intro h
    cases h
    exact ⟨rfl, rfl⟩
  · rintro ⟨rfl, rfl⟩
    rfl

@[simp] theorem not_runs_throw {e : ε} {s t : σ} {a : α} :
    ¬ Runs (throw e : EStateM ε σ α) s a t := by
  intro h
  cases h

/-! ## Failures -/

/-- From the state `s` the step fails with the error `e`. -/
def Fails (x : EStateM ε σ α) (s : σ) (e : ε) : Prop := ∃ t, x s = .error e t

theorem fails_throw {e : ε} {s : σ} : Fails (throw e : EStateM ε σ α) s e := ⟨s, rfl⟩

theorem not_fails_pure {a : α} {e : ε} {s : σ} : ¬ Fails (pure a : EStateM ε σ α) s e := by
  rintro ⟨t, h⟩
  cases h

/-- Reading the state does not fail. -/
theorem fails_get_bind {f : σ → EStateM ε σ α} {s : σ} {e : ε} :
    Fails (get >>= f) s e ↔ Fails (f s) s e := Iff.rfl

/-- Changing the state does not fail. -/
theorem fails_modify_bind {g : σ → σ} {f : PUnit → EStateM ε σ α} {s : σ} {e : ε} :
    Fails (modify g >>= f) s e ↔ Fails (f PUnit.unit) (g s) e := Iff.rfl

/-- A composed step fails in its first part or in the rest. -/
theorem fails_bind {x : EStateM ε σ α} {f : α → EStateM ε σ β} {s : σ} {e : ε} :
    Fails (x >>= f) s e ↔ Fails x s e ∨ ∃ a u, Runs x s a u ∧ Fails (f a) u e := by
  show (∃ t, EStateM.bind x f s = _) ↔ (∃ t, x s = _) ∨ ∃ a u, x s = _ ∧ _
  unfold EStateM.bind
  cases hx : x s with
  | ok a u =>
      constructor
      · exact fun h => Or.inr ⟨a, u, rfl, h⟩
      · rintro (⟨t, he⟩ | ⟨a', u', he, h⟩)
        · cases he
        · cases he
          exact h
  | error e' u =>
      constructor
      · rintro ⟨t, he⟩
        cases he
        exact Or.inl ⟨u, rfl⟩
      · rintro (⟨t, he⟩ | ⟨a', u', he, h⟩)
        · cases he
          exact ⟨u, rfl⟩
        · cases he

theorem Fails.bind {x : EStateM ε σ α} {f : α → EStateM ε σ β} {s : σ} {e : ε}
    (h : Fails x s e) : Fails (x >>= f) s e := fails_bind.2 (Or.inl h)

theorem Runs.bind_fails {x : EStateM ε σ α} {f : α → EStateM ε σ β} {s u : σ} {a : α} {e : ε}
    (h : Runs x s a u) (hf : Fails (f a) u e) : Fails (x >>= f) s e :=
  fails_bind.2 (Or.inr ⟨a, u, h, hf⟩)

/-- A step that succeeds does not fail. -/
theorem Runs.not_fails {x : EStateM ε σ α} {s t : σ} {a : α} {e : ε} (h : Runs x s a t) :
    ¬ Fails x s e := by
  rintro ⟨u, he⟩
  cases h.symm.trans he

theorem runs_or_fails (x : EStateM ε σ α) (s : σ) :
    (∃ a t, Runs x s a t) ∨ ∃ e, Fails x s e := by
  cases hx : x s with
  | ok a t => exact Or.inl ⟨a, t, hx⟩
  | error e t => exact Or.inr ⟨e, t, hx⟩

/-- A step fails with one error. -/
theorem Fails.unique {x : EStateM ε σ α} {s : σ} {e e' : ε} (h : Fails x s e)
    (h' : Fails x s e') : e = e' := by
  obtain ⟨t, h⟩ := h
  obtain ⟨t', h'⟩ := h'
  cases h.symm.trans h'
  rfl

/-! ## Conditions that stay true -/

/-- If the condition holds of the state before the step, then it holds of the state after
it, whether the step succeeds or fails. -/
structure Preserves (P : σ → Prop) (x : EStateM ε σ α) : Prop where
  runs : ∀ {s a t}, Runs x s a t → P s → P t
  error : ∀ {s e t}, x s = .error e t → P s → P t

section Preserves
variable {P : σ → Prop} {x : EStateM ε σ α} {f : α → EStateM ε σ β}

theorem preserves_pure {a : α} : Preserves P (pure a : EStateM ε σ α) where
  runs h hs := (runs_pure.1 h).2 ▸ hs
  error h := by cases h

theorem preserves_throw {e : ε} : Preserves P (throw e : EStateM ε σ α) where
  runs h := absurd h not_runs_throw
  error h hs := by
    cases h
    exact hs

theorem preserves_get : Preserves P (get : EStateM ε σ σ) where
  runs h hs := (runs_get.1 h).2 ▸ hs
  error h := by cases h

theorem preserves_modify {g : σ → σ} (h : ∀ {s}, P s → P (g s)) :
    Preserves P (modify g : EStateM ε σ PUnit) where
  runs hr hs := runs_modify.1 hr ▸ h hs
  error he := by cases he

theorem preserves_modifyGet {g : σ → α × σ} (h : ∀ {s}, P s → P (g s).2) :
    Preserves P (modifyGet g : EStateM ε σ α) where
  runs hr hs := (runs_modifyGet.1 hr).2 ▸ h hs
  error he := by cases he

/-- The rest may rely on how the first part ran. -/
theorem Preserves.bind_of_runs (hx : Preserves P x)
    (hf : ∀ {s a t}, Runs x s a t → P s → Preserves P (f a)) : Preserves P (x >>= f) where
  runs h hs := by
    obtain ⟨a, u, hr, h⟩ := runs_bind.1 h
    exact (hf hr hs).runs h (hx.runs hr hs)
  error {s e t} h hs := by
    change EStateM.bind x f s = .error e t at h
    unfold EStateM.bind at h
    cases hr : x s with
    | ok a u =>
        rw [hr] at h
        exact (hf hr hs).error h (hx.runs hr hs)
    | error e' u =>
        rw [hr] at h
        cases h
        exact hx.error hr hs

theorem Preserves.bind (hx : Preserves P x) (hf : ∀ a, Preserves P (f a)) :
    Preserves P (x >>= f) :=
  hx.bind_of_runs fun _ _ => hf _

theorem preserves_forM {γ : Type} {l : List γ} {g : γ → EStateM ε σ PUnit}
    (h : ∀ c, Preserves P (g c)) : Preserves P (l.forM g) := by
  induction l with
  | nil => exact preserves_pure
  | cons c l ih => exact (h c).bind fun _ => ih

end Preserves

end DotLang
