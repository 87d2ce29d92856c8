import Mathlib
import LcClibs.Mmo.Casting

namespace LcClibs.Mmo.Kinds

open Platform Mmo.Casting
open Mmo.Object (struNameToOid)

section Model

variable {F : Type}

/-- `is##stru_name` of the class of a given name. -/
def isStru (obj : Obj F) (fuel : Nat) (struName : List UInt8) : Option Nat → Option Bool
  | none => some false
  | some base =>
    (toStru obj fuel struName (some base)).map fun stru => if stru = none then false else true

def isMmobjKindOfOid (obj : Obj F) (fuel : Nat) (oid : UInt32) : Option Nat → Option Bool
  | none => some false
  | some base =>
    (find obj fuel base oid oid).map fun r => if r.2 = none then true else false

def supers : ClassChain → List ClassChain
  | .root struName => [.root struName]
  | .sub supName struName => supers supName ++ [.sub supName struName]

/-- The null pointer, or a level of an object of the class. -/
def IsView (ch : ClassChain) (stru : Option Nat) : Prop := ∀ base ∈ stru, base < ch.depth

instance (ch : ClassChain) : (stru : Option Nat) → Decidable (IsView ch stru)
  | none => .isTrue nofun
  | some base => decidable_of_iff (base < ch.depth) (by simp [IsView])

/-- Both tests say whether the class is one of the object's, and neither that of null. -/
def KindsAgree (ch : ClassChain) (obj : Obj F) (x : ClassChain) (stru : Option Nat) : Prop :=
  ∃ answer, isStru obj (ch.depth + 1) x.name stru = some answer ∧
    isMmobjKindOfOid obj (ch.depth + 1) (struNameToOid x.name) stru = some answer ∧
    (answer = true ↔ stru ≠ none ∧ x ∈ supers ch)

end Model

section Tests

variable {F : Type} {ch : ClassChain} {obj : Obj F} {x : ClassChain} {base : Nat}

theorem classes_eq_supers (ch : ClassChain) :
    ch.classes = (supers ch).map ClassChain.cls := by
  induction ch with
  | root struName => rfl
  | sub supName struName ih =>
    rw [ClassChain.classes, ih, supers, List.map_append, List.map_singleton]

theorem hasOid_iff {oid : UInt32} :
    (∃ part, HasOid ch part oid) ↔ ∃ y ∈ supers ch, struNameToOid y.name = oid := by
  constructor
  · rintro ⟨part, cls, hc, rfl⟩
    have hmem := List.mem_of_getElem? hc
    rw [classes_eq_supers] at hmem
    obtain ⟨y, hy, rfl⟩ := List.mem_map.mp hmem
    exact ⟨y, hy, rfl⟩
  · rintro ⟨y, hy, rfl⟩
    have hmem : y.cls ∈ ch.classes := by
      rw [classes_eq_supers]
      exact List.mem_map_of_mem hy
    obtain ⟨part, hc⟩ := List.mem_iff_getElem?.mp hmem
    exact ⟨part, y.cls, hc, rfl⟩

/-- The test by name is the search's answer, and the test by id its opposite. -/
theorem tests_eq (h : Made ch obj) (hd : DistinctOids ch) (hb : base < ch.depth)
    (struName : List UInt8) :
    ∃ answer, isStru obj (ch.depth + 1) struName (some base) = some answer ∧
      isMmobjKindOfOid obj (ch.depth + 1) (struNameToOid struName) (some base) = some (!answer) ∧
      (answer = true ↔ ∃ y ∈ supers ch, struNameToOid y.name = struNameToOid struName) := by
  obtain ⟨visited, found, hfind, -, hfound⟩ := find_all h.ring hd hb (struNameToOid struName)
  have hto : toStru obj (ch.depth + 1) struName (some base) = some found := by
    rw [toStru, hfind, Option.map_some]
  rw [isStru, isMmobjKindOfOid, hto, hfind, Option.map_some, Option.map_some,
    ← hasOid_iff]
  cases found with
  | none =>
    refine ⟨false, rfl, rfl, ⟨fun h => absurd h Bool.false_ne_true, ?_⟩⟩
    rintro ⟨part, hpart⟩
    cases (hfound part).mpr hpart
  | some part => exact ⟨true, rfl, rfl, ⟨fun _ => ⟨part, (hfound part).mp rfl⟩, fun _ => rfl⟩⟩

/-- The two tests agree on the null object only. -/
theorem kindsAgree_iff {stru : Option Nat} (h : Made ch obj) (hd : DistinctOids ch)
    (hs : IsView ch stru) (x : ClassChain) : KindsAgree ch obj x stru ↔ stru = none := by
  constructor
  · rintro ⟨answer, his, hkind, -⟩
    cases stru with
    | none => rfl
    | some base =>
      obtain ⟨answer', his', hkind', -⟩ := tests_eq h hd (hs base rfl) x.name
      obtain rfl : answer = answer' := Option.some.inj (his.symm.trans his')
      have hneg : answer = !answer := Option.some.inj (hkind.symm.trans hkind')
      cases answer <;> cases hneg
  · rintro rfl
    exact ⟨false, rfl, rfl, ⟨fun h => absurd h Bool.false_ne_true, fun hne => absurd rfl hne.1⟩⟩

theorem kindsAgree_tmpContext :
    (KindsAgree tmpContext (tmpContext.alloc ⟨0, 1⟩ : Obj Nat) tmpContext (some 3) ↔
      (some 3 : Option Nat) = none) ∧
    (KindsAgree tmpContext (tmpContext.alloc ⟨0, 1⟩ : Obj Nat) tmpContext none ↔
      (none : Option Nat) = none) := by
  have hd : DistinctOids tmpContext := by decide +kernel
  exact ⟨kindsAgree_iff (.alloc ⟨0, 1⟩) hd (by decide) tmpContext,
    kindsAgree_iff (.alloc ⟨0, 1⟩) hd (by decide) tmpContext⟩

/-- A map is said to be no map. -/
theorem not_kindsAgree :
    ¬∀ (ch : ClassChain) (obj : Obj Nat) (x : ClassChain) (stru : Option Nat), Made ch obj →
      DistinctOids ch → IsView ch stru → KindsAgree ch obj x stru := by
  intro h
  obtain ⟨answer, his, hkind, -⟩ := h tmpContext (tmpContext.alloc ⟨0, 1⟩)
    (.sub (.sub (.root (cstr "MMObject")) (cstr "MMContainer")) (cstr "MMMap")) (some 3)
    (.alloc ⟨0, 1⟩) (by decide +kernel) (by decide)
  rw [← his] at hkind
  exact absurd hkind (by decide +kernel)

end Tests

end LcClibs.Mmo.Kinds
