import Mathlib

namespace LcClibs.Lib.Roots

variable {α : Type} {R : α → α → Prop} {S : Set α} {root : α → Prop}

/-- Where everything that is no root has a predecessor, a finite set has above each of
its members a root or a cycle. -/
theorem exists_root_or_cycle (hS : S.Finite) (h : ∀ x ∈ S, root x ∨ ∃ y ∈ S, R y x) {x : α}
    (hx : x ∈ S) :
    ∃ y ∈ S, Relation.ReflTransGen R y x ∧ (root y ∨ Relation.TransGen R y y) := by
  by_contra hno
  have hfree : ∀ y ∈ S, Relation.ReflTransGen R y x → ¬root y ∧ ¬Relation.TransGen R y y := by
    intro y hy hyx
    rw [← not_or]
    exact fun hor => hno ⟨y, hy, hyx, hor⟩
  let above : Set α := {y | y ∈ S ∧ Relation.ReflTransGen R y x}
  have hfin : Finite above := hS.subset fun y hy => hy.1
  let before : above → above → Prop := fun y z => Relation.TransGen R y.1 z.1
  have htrans : IsTrans above before := ⟨fun _ _ _ => Relation.TransGen.trans⟩
  have hirrefl : Std.Irrefl before := ⟨fun y => (hfree y.1 y.2.1 y.2.2).2⟩
  have hwf : WellFounded before := Finite.wellFounded_of_trans_of_irrefl before
  obtain ⟨y, -, hmin⟩ := hwf.has_min Set.univ ⟨⟨x, hx, .refl⟩, trivial⟩
  obtain hroot | ⟨z, hz, hzy⟩ := h y.1 y.2.1
  · exact (hfree y.1 y.2.1 y.2.2).1 hroot
  · exact hmin ⟨z, hz, .head hzy y.2.2⟩ trivial (.single hzy)

section Loose

/-- Nothing but loose members comes before a member that is no root. -/
inductive Loose (S : Set α) (R : α → α → Prop) (root : α → Prop) : α → Prop
  | intro {x : α} : x ∈ S → ¬root x → (∀ y ∈ S, R y x → Loose S R root y) → Loose S R root x

theorem Loose.not_under (hR : ∀ x y, R x y → x ∈ S) {x : α} (h : Loose S R root x) :
    ∀ y, Relation.ReflTransGen R y x → ¬root y ∧ ¬Relation.TransGen R y y := by
  induction h with
  | @intro x _ hroot _ ih =>
    intro y hyx
    obtain rfl | ⟨z, hyz, hzx⟩ := Relation.ReflTransGen.cases_tail hyx
    · refine ⟨hroot, fun hcycle => ?_⟩
      obtain ⟨z, hyz, hzx⟩ := Relation.TransGen.tail'_iff.mp hcycle
      exact (ih z (hR z x hzx) hzx x hyz).2 hcycle
    · exact ih z (hR z x hzx) hzx y hyz

theorem not_loose_iff (hS : S.Finite) (hR : ∀ x y, R x y → x ∈ S) {x : α} (hx : x ∈ S) :
    ¬Loose S R root x ↔
      ∃ y ∈ S, Relation.ReflTransGen R y x ∧ (root y ∨ Relation.TransGen R y y) := by
  constructor
  · intro hno
    let firm : Set α := {y | y ∈ S ∧ ¬Loose S R root y}
    have hstep : ∀ y ∈ firm, root y ∨ ∃ z ∈ firm, R z y := by
      rintro y ⟨hy, hfirm⟩
      by_contra hor
      obtain ⟨hroot, hpred⟩ := not_or.mp hor
      refine hfirm (.intro hy hroot fun z hz hzy => ?_)
      by_contra hzfirm
      exact hpred ⟨z, ⟨hz, hzfirm⟩, hzy⟩
    obtain ⟨y, hy, hyx, hor⟩ :=
      exists_root_or_cycle (hS.subset fun y hy => hy.1) hstep (show x ∈ firm from ⟨hx, hno⟩)
    exact ⟨y, hy.1, hyx, hor⟩
  · rintro ⟨y, -, hyx, hor⟩ h
    obtain ⟨hroot, hcycle⟩ := h.not_under hR y hyx
    exact hor.elim hroot hcycle

end Loose

end LcClibs.Lib.Roots
