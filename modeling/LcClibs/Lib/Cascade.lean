import Mathlib

namespace LcClibs.Lib.Cascade

section Given

variable {ι α : Type} [DecidableEq α] {gives : ι → List α} {l l' : List ι} {a : α}

def given (gives : ι → List α) (l : List ι) (a : α) : Nat :=
  (l.map fun n => (gives n).count a).sum

@[simp] theorem given_nil : given gives [] a = 0 := rfl

theorem given_concat (l : List ι) (n : ι) :
    given gives (l ++ [n]) a = given gives l a + (gives n).count a := by
  simp [given]

theorem given_le (h : l.Nodup) (hsub : l ⊆ l') : given gives l a ≤ given gives l' a := by
  obtain ⟨k, hperm, hk⟩ := List.subperm_of_subset h hsub
  calc given gives l a = given gives k a := (hperm.map fun n => (gives n).count a).sum_eq.symm
    _ ≤ given gives l' a := (hk.map _).sum_le_sum fun _ _ => Nat.zero_le _

end Given

section Falls

variable {ι α : Type} [DecidableEq α]

/-- The nodes that fall, of those there are: as much is given to the place of each, by nodes
that give and have fallen before, as it can bear. -/
inductive Falls (there : ι → Prop) (place : ι → α) (bears : ι → Nat) (gives : ι → List α)
    (active : ι → Prop) : ι → Prop
  | intro {n : ι} (l : List ι) : there n → l.Nodup → (∀ k ∈ l, active k) →
    (∀ k ∈ l, Falls there place bears gives active k) → bears n ≤ given gives l (place n) →
    Falls there place bears gives active n

variable {there : ι → Prop} {place : ι → α} {bears : ι → Nat} {gives : ι → List α}
  {active active' : ι → Prop} {n : ι}

theorem Falls.mono (h : Falls there place bears gives active n)
    (ha : ∀ k, active k → active' k) : Falls there place bears gives active' n := by
  induction h with
  | intro l hn hl hact _ hle ih => exact .intro l hn hl (fun k hk => ha k (hact k hk)) ih hle

/-- A set that holds every node of which it bears no more than the set gives holds all that
fall. -/
theorem Falls.mem_of_closed (h : Falls there place bears gives active n) (fallen : ι → Prop)
    (hclosed : ∀ n l, there n → l.Nodup → (∀ k ∈ l, active k) → (∀ k ∈ l, fallen k) →
      bears n ≤ given gives l (place n) → fallen n) : fallen n := by
  induction h with
  | intro l hn hl hact _ hle ih => exact hclosed _ l hn hl hact ih hle

end Falls

end LcClibs.Lib.Cascade
