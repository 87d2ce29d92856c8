import Mathlib

namespace LcClibs.Lib.Coupling

universe u v

section Rules

variable {m : Type u → Type v} [Monad m] [LawfulMonad m] {α β γ δ : Type u}
  {R R' : α → β → Prop} {S : γ → δ → Prop} {x : m α} {y : m β}

/-- Two programs with the same effects, in whatever monad, that come to related results. -/
def Coupled (R : α → β → Prop) (x : m α) (y : m β) : Prop :=
  ∃ z : m {p : α × β // R p.1 p.2}, (fun p => p.1.1) <$> z = x ∧ (fun p => p.1.2) <$> z = y

theorem Coupled.pure {a : α} {b : β} (h : R a b) : Coupled R (Pure.pure a : m α) (Pure.pure b) :=
  ⟨Pure.pure ⟨(a, b), h⟩, map_pure _ _, map_pure _ _⟩

theorem Coupled.refl (x : m α) : Coupled Eq x x := by
  refine ⟨(fun a => ⟨(a, a), rfl⟩) <$> x, ?_, ?_⟩ <;> rw [← comp_map] <;> exact id_map x

theorem Coupled.imp (h : Coupled R x y) (hR : ∀ a b, R a b → R' a b) : Coupled R' x y := by
  obtain ⟨z, rfl, rfl⟩ := h
  refine ⟨(fun p => ⟨p.1, hR _ _ p.2⟩) <$> z, ?_, ?_⟩ <;> rw [← comp_map] <;> rfl

theorem Coupled.bind {f : α → m γ} {g : β → m δ} (h : Coupled R x y)
    (hfg : ∀ a b, R a b → Coupled S (f a) (g b)) : Coupled S (x >>= f) (y >>= g) := by
  obtain ⟨z, rfl, rfl⟩ := h
  have hw := fun p : {p : α × β // R p.1 p.2} => hfg p.1.1 p.1.2 p.2
  refine ⟨z >>= fun p => (hw p).choose, ?_, ?_⟩
  · rw [map_bind, bind_map_left]
    exact congrArg (z >>= ·) (funext fun p => (hw p).choose_spec.1)
  · rw [map_bind, bind_map_left]
    exact congrArg (z >>= ·) (funext fun p => (hw p).choose_spec.2)

theorem Coupled.bind_left {f : α → m γ} {g : α → m δ} (x : m α)
    (hfg : ∀ a, Coupled S (f a) (g a)) : Coupled S (x >>= f) (x >>= g) :=
  (Coupled.refl x).bind fun a _ h => h ▸ hfg a

theorem Coupled.map {f : α → γ} {g : β → δ} (h : Coupled R x y)
    (hfg : ∀ a b, R a b → S (f a) (g b)) : Coupled S (f <$> x) (g <$> y) := by
  rw [map_eq_pure_bind, map_eq_pure_bind]
  exact h.bind fun a b hab => .pure (hfg a b hab)

end Rules

section Outcomes

variable {ε σ α β γ : Type} {R : α → β → Prop} {x : StateT σ (Except ε) α}
  {y : StateT σ (Except ε) β}

theorem map_run (f : α → γ) (s : σ) : (f <$> x) s = (x s).map fun r => (f r.1, r.2) := by
  show (StateT.map f x) s = _
  rw [StateT.map]
  cases x s <;> rfl

/-- With a state and errors as the effects: the same error, or results that are related in the
same state. -/
theorem Coupled.outcome (h : Coupled R x y) (s : σ) :
    (∃ e, x s = .error e ∧ y s = .error e) ∨
      ∃ a b s', x s = .ok (a, s') ∧ y s = .ok (b, s') ∧ R a b := by
  obtain ⟨z, rfl, rfl⟩ := h
  rw [map_run, map_run]
  cases z s with
  | error e => exact .inl ⟨e, rfl, rfl⟩
  | ok r => exact .inr ⟨r.1.1.1, r.1.1.2, r.2, rfl, rfl, r.1.2⟩

end Outcomes

end LcClibs.Lib.Coupling
