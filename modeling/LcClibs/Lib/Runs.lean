import Mathlib

namespace LcClibs.Lib.Runs

section Loops

variable {ε σ α : Type}

theorem bind_ok {β : Type} {x : Except ε σ} {f : σ → Except ε β} {s : σ} (h : x = .ok s) :
    (x >>= f) = f s := by
  rw [h]
  rfl

theorem ok_of_bind {β : Type} {x : Except ε α} {f : α → Except ε β} {b : β}
    (h : (x >>= f) = .ok b) : ∃ a, x = .ok a ∧ f a = .ok b := by
  cases x with
  | error e => cases h
  | ok a => exact ⟨a, rfl, h⟩

theorem ok_of_map {β : Type} {x : Except ε α} {f : α → β} {b : β} (h : x.map f = .ok b) :
    ∃ a, x = .ok a ∧ f a = b := by
  cases x with
  | error e => cases h
  | ok a => exact ⟨a, rfl, Except.ok.inj h⟩

/-- A loop over a list whose every round starts from the invariant, succeeds and
restores it. -/
theorem foldlM_invariant {f : σ → α → Except ε σ} (P : σ → Prop) (l : List α)
    (step : ∀ s, P s → ∀ a ∈ l, ∃ s', f s a = .ok s' ∧ P s') {s : σ} (hs : P s) :
    ∃ s', l.foldlM f s = .ok s' ∧ P s' := by
  induction l generalizing s with
  | nil => exact ⟨s, rfl, hs⟩
  | cons a l ih =>
    obtain ⟨s1, h1, hs1⟩ := step s hs a List.mem_cons_self
    obtain ⟨s2, h2, hs2⟩ := ih (fun t ht b hb => step t ht b (List.mem_cons_of_mem _ hb)) hs1
    exact ⟨s2, by rw [List.foldlM_cons, bind_ok h1, h2], hs2⟩

end Loops

section Outcomes

variable {ε α β : Type} {allowed : ε → Prop} {P P' : α → Prop} {Q : β → Prop} {x : Except ε α}

/-- A computation that comes to a result in `P` or stops with an allowed error. -/
def Meets (allowed : ε → Prop) (P : α → Prop) : Except ε α → Prop
  | .ok a => P a
  | .error e => allowed e

theorem Meets.ok {a : α} (h : x = .ok a) (ha : P a) : Meets allowed P x := by
  rw [h]
  exact ha

theorem Meets.imp (h : Meets allowed P x) (hP : ∀ a, P a → P' a) : Meets allowed P' x := by
  cases x with
  | ok a => exact hP a h
  | error e => exact h

theorem Meets.mono {allowed' : ε → Prop} (h : Meets allowed P x)
    (ha : ∀ e, allowed e → allowed' e) (hP : ∀ a, P a → P' a) : Meets allowed' P' x := by
  cases x with
  | ok a => exact hP a h
  | error e => exact ha e h

theorem Meets.bind {f : α → Except ε β} (h : Meets allowed P x)
    (hf : ∀ a, P a → Meets allowed Q (f a)) : Meets allowed Q (x >>= f) := by
  cases x with
  | ok a => exact hf a h
  | error e => exact h

theorem Meets.map {f : α → β} (h : Meets allowed P x) (hf : ∀ a, P a → Q (f a)) :
    Meets allowed Q (x.map f) := by
  cases x with
  | ok a => exact hf a h
  | error e => exact h

/-- A loop over a list in which every round restores what it needs of the rest. -/
theorem Meets.foldlM {f : α → β → Except ε α} {R : List β → α → Prop} {l : List β} {a : α}
    (step : ∀ b l a, R (b :: l) a → Meets allowed (R l) (f a b)) (ha : R l a) :
    Meets allowed (R []) (l.foldlM f a) := by
  induction l generalizing a with
  | nil => exact ha
  | cons b l ih => exact (step b l a ha).bind fun a' ha' => ih ha'

end Outcomes

section Steps

variable {ε σ α β : Type} {x : StateT σ (Except ε) α} {f : α → StateT σ (Except ε) β} {s s' : σ}

theorem step_ok {a : α} (h : x s = .ok (a, s')) : (x >>= f) s = f a s' := by
  simp only [bind, StateT.bind, h, Except.bind]

theorem step_error {e : ε} (h : x s = .error e) : (x >>= f) s = .error e := by
  simp only [bind, StateT.bind, h, Except.bind]

theorem step_eq_ok {r : β × σ} :
    (x >>= f) s = .ok r ↔ ∃ a s', x s = .ok (a, s') ∧ f a s' = .ok r := by
  cases hx : x s with
  | error e => simp [step_error hx]
  | ok p =>
    obtain ⟨a, s'⟩ := p
    simp [step_ok hx]

theorem Meets.step {allowed : ε → Prop} {P : α × σ → Prop} {Q : β × σ → Prop}
    (h : Meets allowed P (x s)) (hf : ∀ r, P r → Meets allowed Q (f r.1 r.2)) :
    Meets allowed Q ((x >>= f) s) := Meets.bind h hf

theorem step_get (f : σ → StateT σ (Except ε) β) (s : σ) : (get >>= f) s = f s s := rfl

theorem step_modify (g : σ → σ) (f : PUnit → StateT σ (Except ε) β) (s : σ) :
    (modify g >>= f) s = f ⟨⟩ (g s) := rfl

end Steps

section Keeping

variable {ε σ α β : Type} {I : σ → Prop} {x : StateT σ (Except ε) α}

def Keeping (I : σ → Prop) (x : StateT σ (Except ε) α) : Prop :=
  ∀ s a s', I s → x s = .ok (a, s') → I s'

theorem Keeping.bind {f : α → StateT σ (Except ε) β} (hx : Keeping I x)
    (hf : ∀ a, Keeping I (f a)) : Keeping I (x >>= f) := by
  intro s b s' hs h
  obtain ⟨a, s1, h1, h2⟩ := step_eq_ok.mp h
  exact hf a s1 b s' (hx s a s1 hs h1) h2

theorem Keeping.pure (a : α) : Keeping I (pure a : StateT σ (Except ε) α) := by
  intro s b s' hs h
  cases h
  exact hs

theorem Keeping.throw (e : ε) : Keeping I (throw e : StateT σ (Except ε) α) := by
  intro s b s' _ h
  cases h

theorem Keeping.get_bind {f : σ → StateT σ (Except ε) β} (hf : ∀ s, Keeping I (f s)) :
    Keeping I (get >>= f) := by
  intro s b s' hs h
  exact hf s s b s' hs h

theorem Keeping.modify {g : σ → σ} (hg : ∀ s, I s → I (g s)) :
    Keeping I (modify g : StateT σ (Except ε) PUnit) := by
  intro s b s' hs h
  cases h
  exact hg s hs

end Keeping

end LcClibs.Lib.Runs
