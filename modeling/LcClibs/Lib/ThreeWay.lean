import Mathlib

namespace LcClibs.Lib.ThreeWay

variable {τ : Type} [LinearOrder τ]

/-- A three-way result that tells the order of two codes, whatever follows them:
the sign says which is the smaller one, and codes that differ are no prefixes of
each other. -/
structure Agrees (d : Int) (u v : List τ) : Prop where
  lt : d < 0 → ∀ s t, u ++ s < v ++ t
  eq : d = 0 → u = v
  gt : 0 < d → ∀ s t, v ++ t < u ++ s

theorem Agrees.refl (u : List τ) : Agrees 0 u u :=
  ⟨fun h => absurd h (lt_irrefl 0), fun _ => rfl, fun h => absurd h (lt_irrefl 0)⟩

theorem Agrees.lt_iff {d : Int} {u v : List τ} (h : Agrees d u v) : d < 0 ↔ u < v := by
  constructor
  · intro hd
    simpa using h.lt hd [] []
  · intro huv
    by_contra hd
    obtain h0 | hpos := (not_lt.mp hd).eq_or_lt
    · exact absurd huv (h.eq h0.symm ▸ lt_irrefl _)
    · have hvu : v < u := by simpa using h.gt hpos [] []
      exact absurd huv hvu.asymm

theorem Agrees.gt_iff {d : Int} {u v : List τ} (h : Agrees d u v) : 0 < d ↔ v < u := by
  constructor
  · intro hd
    simpa using h.gt hd [] []
  · intro hvu
    by_contra hd
    obtain h0 | hneg := (not_lt.mp hd).eq_or_lt
    · exact absurd hvu (h.eq h0 ▸ lt_irrefl _)
    · exact absurd hvu (h.lt_iff.mp hneg).asymm

theorem Agrees.eq_iff {d : Int} {u v : List τ} (h : Agrees d u v) : d = 0 ↔ u = v := by
  constructor
  · exact h.eq
  · intro huv
    have h1 : ¬d < 0 := fun hd => absurd (h.lt_iff.mp hd) (huv ▸ lt_irrefl _)
    have h2 : ¬0 < d := fun hd => absurd (h.gt_iff.mp hd) (huv ▸ lt_irrefl _)
    omega

theorem Agrees.sign_neg {d e : Int} {u v : List τ} (h : Agrees d u v) (h' : Agrees e v u) :
    e.sign = -d.sign := by
  obtain hd | hd | hd := lt_trichotomy d 0
  · have he : 0 < e := h'.gt_iff.mpr (h.lt_iff.mp hd)
    rw [Int.sign_eq_neg_one_of_neg hd, Int.sign_eq_one_of_pos he]
    rfl
  · have he : e = 0 := h'.eq_iff.mpr (h.eq hd).symm
    rw [hd, he]
    rfl
  · have he : e < 0 := h'.lt_iff.mpr (h.gt_iff.mp hd)
    rw [Int.sign_eq_one_of_pos hd, Int.sign_eq_neg_one_of_neg he]

theorem Agrees.le_iff {d : Int} {u v : List τ} (h : Agrees d u v) : d ≤ 0 ↔ u ≤ v := by
  rw [← not_lt, h.gt_iff, not_lt]

theorem Agrees.trans_le {d e f : Int} {u v w : List τ} (h : Agrees d u v) (h' : Agrees e v w)
    (h'' : Agrees f u w) (hd : d ≤ 0) (he : e ≤ 0) : f ≤ 0 :=
  h''.le_iff.mpr ((h.le_iff.mp hd).trans (h'.le_iff.mp he))

theorem Agrees.symbol {d : Int} {x y : τ} (hlt : d < 0 → x < y) (heq : d = 0 → x = y)
    (hgt : 0 < d → y < x) : Agrees d [x] [y] where
  lt hd s t := List.cons_lt_cons_iff.mpr (Or.inl (hlt hd))
  eq hd := by rw [heq hd]
  gt hd s t := List.cons_lt_cons_iff.mpr (Or.inl (hgt hd))

/-- What follows a difference does not matter. -/
theorem Agrees.extend {d : Int} {u v : List τ} (h : Agrees d u v) (hd : d ≠ 0) (x y : List τ) :
    Agrees d (u ++ x) (v ++ y) where
  lt hlt s t := by
    rw [List.append_assoc, List.append_assoc]
    exact h.lt hlt _ _
  eq h0 := absurd h0 hd
  gt hgt s t := by
    rw [List.append_assoc, List.append_assoc]
    exact h.gt hgt _ _

theorem Agrees.append_left {d : Int} {x y : List τ} (u : List τ) (h : Agrees d x y) :
    Agrees d (u ++ x) (u ++ y) where
  lt hlt s t := by
    rw [List.append_assoc, List.append_assoc]
    exact List.append_left_lt (h.lt hlt _ _)
  eq h0 := by rw [h.eq h0]
  gt hgt s t := by
    rw [List.append_assoc, List.append_assoc]
    exact List.append_left_lt (h.gt hgt _ _)

theorem Agrees.first {d e : Int} {u v x y : List τ} (h : Agrees d u v)
    (h' : d = 0 → Agrees e x y) : Agrees (if d ≠ 0 then d else e) (u ++ x) (v ++ y) := by
  by_cases hd : d = 0
  · rw [if_neg (not_not.mpr hd), h.eq hd]
    exact (h' hd).append_left v
  · rw [if_pos hd]
    exact h.extend hd x y

end LcClibs.Lib.ThreeWay
