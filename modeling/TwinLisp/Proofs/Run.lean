/-! Successful runs of computations that can fail, taken apart step by step. -/

namespace TwinLisp

variable {ε σ α β : Type}

theorem except_bind_ok_iff {x : Except ε α} {f : α → Except ε β} {b : β} :
    (x >>= f) = .ok b ↔ ∃ a, x = .ok a ∧ f a = .ok b := by
  cases x with
  | error e => exact ⟨fun h => (nomatch h), fun ⟨_, h, _⟩ => (nomatch h)⟩
  | ok a => exact ⟨fun h => ⟨a, rfl, h⟩, fun ⟨_, h, hf⟩ => by cases h; exact hf⟩

/-- A sequence succeeds where its first part does and the rest does from there. -/
theorem bind_ok_iff {x : EStateM ε σ α} {f : α → EStateM ε σ β} {s s' : σ} {b : β} :
    (x >>= f) s = .ok b s' ↔ ∃ a s₁, x s = .ok a s₁ ∧ f a s₁ = .ok b s' := by
  change EStateM.bind x f s = _ ↔ _
  unfold EStateM.bind
  constructor
  · intro h
    cases hx : x s with
    | ok a s₁ => exact ⟨a, s₁, rfl, by simpa only [hx] using h⟩
    | error e s₁ => simp only [hx, reduceCtorEq] at h
  · rintro ⟨a, s₁, hx, hf⟩
    simpa only [hx] using hf

/-- A sequence fails where its first part does, or where the rest does from there. -/
theorem bind_error_iff {x : EStateM ε σ α} {f : α → EStateM ε σ β} {s s' : σ} {e : ε} :
    (x >>= f) s = .error e s' ↔
      x s = .error e s' ∨ ∃ a s₁, x s = .ok a s₁ ∧ f a s₁ = .error e s' := by
  change EStateM.bind x f s = _ ↔ _
  unfold EStateM.bind
  constructor
  · intro h
    -- the first part fails, or it ends and the second one fails
    cases hx : x s with
    | ok a s₁ => exact .inr ⟨a, s₁, rfl, by simpa only [hx] using h⟩
    | error e' s₁ =>
      simp only [hx] at h
      cases h
      exact .inl rfl
  · rintro (hx | ⟨a, s₁, hx, hf⟩)
    · simp only [hx]
    · simpa only [hx] using hf

theorem bind_of_error {x : EStateM ε σ α} {f : α → EStateM ε σ β} {s s₁ : σ} {e : ε}
    (hx : x s = .error e s₁) : (x >>= f) s = .error e s₁ :=
  bind_error_iff.mpr (.inl hx)

theorem bind_of_ok {x : EStateM ε σ α} {f : α → EStateM ε σ β} {s s₁ : σ} {a : α}
    (hx : x s = .ok a s₁) : (x >>= f) s = f a s₁ := by
  change EStateM.bind x f s = _
  unfold EStateM.bind
  simp only [hx]

/-- A pure run ends where it began. -/
theorem pure_ok_iff {a b : α} {s s' : σ} :
    (pure a : EStateM ε σ α) s = .ok b s' ↔ a = b ∧ s = s' := by
  simp [pure, EStateM.pure]

theorem throw_ne_ok {e : ε} {a : α} {s s' : σ} :
    (throw e : EStateM ε σ α) s ≠ .ok a s' :=
  fun h => nomatch h

end TwinLisp
