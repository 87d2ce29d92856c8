import Mathlib

namespace LcClibs.Lib.Simulation

section Rules

variable {ε σ τ α β γ δ : Type} {S : σ → τ → Prop} {R R' : α → β → Prop} {Q : γ → δ → Prop}
  {x : StateT σ (Except ε) α} {y : StateT τ (Except ε) β}

/-- From related states two computations stop with the same error, or come to related results
in related states. -/
def Simulates (S : σ → τ → Prop) (R : α → β → Prop) (x : StateT σ (Except ε) α)
    (y : StateT τ (Except ε) β) : Prop :=
  ∀ s t, S s t → (∃ e, x s = .error e ∧ y t = .error e) ∨
    ∃ a s' b t', x s = .ok (a, s') ∧ y t = .ok (b, t') ∧ R a b ∧ S s' t'

theorem Simulates.pure {a : α} {b : β} (h : R a b) :
    Simulates S R (Pure.pure a : StateT σ (Except ε) α) (Pure.pure b) :=
  fun s t hst => .inr ⟨a, s, b, t, rfl, rfl, h, hst⟩

theorem Simulates.throw (e : ε) :
    Simulates S R (MonadExcept.throw e : StateT σ (Except ε) α) (MonadExcept.throw e) :=
  fun _ _ _ => .inl ⟨e, rfl, rfl⟩

theorem Simulates.bind {f : α → StateT σ (Except ε) γ} {g : β → StateT τ (Except ε) δ}
    (h : Simulates S R x y) (hfg : ∀ a b, R a b → Simulates S Q (f a) (g b)) :
    Simulates S Q (x >>= f) (y >>= g) := by
  intro s t hst
  obtain ⟨e, hx, hy⟩ | ⟨a, s', b, t', hx, hy, hab, hst'⟩ := h s t hst
  · refine .inl ⟨e, ?_, ?_⟩ <;> simp only [Bind.bind, StateT.bind, hx, hy, Except.bind]
  · have hrun := hfg a b hab s' t' hst'
    simpa only [Bind.bind, StateT.bind, hx, hy, Except.bind] using hrun

theorem Simulates.get_bind {f : σ → StateT σ (Except ε) γ} {g : τ → StateT τ (Except ε) δ}
    (hfg : ∀ s t, S s t → Simulates S Q (f s) (g t)) :
    Simulates S Q (get >>= f) (get >>= g) := fun s t hst => hfg s t hst s t hst

theorem Simulates.modify {f : σ → σ} {g : τ → τ} (hfg : ∀ s t, S s t → S (f s) (g t)) :
    Simulates S Eq (modify f : StateT σ (Except ε) PUnit) (modify g) :=
  fun s t hst => .inr ⟨⟨⟩, f s, ⟨⟩, g t, rfl, rfl, rfl, hfg s t hst⟩

theorem Simulates.set {s : σ} {t : τ} (h : S s t) :
    Simulates S Eq (MonadStateOf.set s : StateT σ (Except ε) PUnit) (MonadStateOf.set t) :=
  fun _ _ _ => .inr ⟨⟨⟩, s, ⟨⟩, t, rfl, rfl, rfl, h⟩

end Rules

section Partial

variable {ε σ τ α β : Type} {S : σ → τ → Prop} {x : StateT σ (Except ε) α} {d : StateT τ Option α}

/-- Where the specification has a result the computation comes to the same one, and to a state
related to its state. -/
def Implements (S : σ → τ → Prop) (x : StateT σ (Except ε) α) (d : StateT τ Option α) : Prop :=
  ∀ s t a t', S s t → d t = some (a, t') → ∃ s', x s = .ok (a, s') ∧ S s' t'

theorem Implements.pure (a : α) :
    Implements S (Pure.pure a : StateT σ (Except ε) α) (Pure.pure a) := by
  intro s t a' t' hst h
  cases h
  exact ⟨s, rfl, hst⟩

theorem Implements.bind {f : α → StateT σ (Except ε) β} {g : α → StateT τ Option β}
    (h : Implements S x d) (hfg : ∀ a, Implements S (f a) (g a)) :
    Implements S (x >>= f) (d >>= g) := by
  intro s t b t' hst hrun
  obtain ⟨⟨a, t₁⟩, hd, hg⟩ := Option.bind_eq_some_iff.mp hrun
  obtain ⟨s₁, hx, hst₁⟩ := h s t a t₁ hst hd
  obtain ⟨s', hf, hst'⟩ := hfg a s₁ t₁ b t' hst₁ hg
  refine ⟨s', ?_, hst'⟩
  simp only [Bind.bind, StateT.bind, hx, Except.bind]
  exact hf

theorem Implements.map (h : Implements S x d) (f : α → β) :
    Implements S (x >>= fun a => Pure.pure (f a)) (d >>= fun a => Pure.pure (f a)) :=
  h.bind fun a => .pure (f a)

end Partial

section Finding

variable {α β κ μ : Type} {R : α → β → Prop}

theorem find?_related {p : α → Bool} {q : β → Bool} {xs : List α} {ys : List β}
    (h : List.Forall₂ R xs ys) (hpq : ∀ x y, R x y → p x = q y) :
    Option.Rel R (xs.find? p) (ys.find? q) := by
  induction h with
  | nil => exact .none
  | @cons x y xs ys hxy _ ih =>
    rw [List.find?_cons, List.find?_cons, hpq x y hxy]
    cases q y with
    | true => exact .some hxy
    | false => exact ih

end Finding

end LcClibs.Lib.Simulation
