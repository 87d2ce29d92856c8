import Mathlib

namespace LcClibs.Lib.Links

section Linked

variable {A : Type} {link link' : A → Option (A × A)} {before before' after after' x : A}
  {xs ys : List A}

/-- The nodes of a doubly linked list, one after the other: each names the one before it
and the one behind it. The outer ends are named by `before` and `after`. -/
def Linked (link : A → Option (A × A)) : A → List A → A → Prop
  | _, [], _ => True
  | before, x :: xs, after => link x = some (before, xs.headD after) ∧ Linked link x xs after

@[simp] theorem linked_nil : Linked link before [] after := trivial

theorem linked_cons : Linked link before (x :: xs) after ↔
    link x = some (before, xs.headD after) ∧ Linked link x xs after := Iff.rfl

theorem headD_append : (xs ++ ys).headD after = xs.headD (ys.headD after) := by
  cases xs <;> rfl

theorem getLastD_append : (xs ++ ys).getLastD before = ys.getLastD (xs.getLastD before) := by
  induction xs generalizing before with
  | nil => rfl
  | cons x xs ih =>
    rw [List.cons_append, List.getLastD_cons, List.getLastD_cons, ih]

theorem getLastD_mem (h : xs ≠ []) : xs.getLastD before ∈ xs := by
  rw [List.getLastD_eq_getLast?, List.getLast?_eq_some_getLast h]
  exact List.getLast_mem h

theorem headD_mem (h : xs ≠ []) : xs.headD after ∈ xs := by
  cases xs with
  | nil => exact absurd rfl h
  | cons x xs => exact List.mem_cons_self

theorem headD_of_ne (h : xs ≠ []) (a b : A) : xs.headD a = xs.headD b := by
  cases xs with
  | nil => exact absurd rfl h
  | cons x xs => rfl

theorem getLastD_of_ne (h : xs ≠ []) (a b : A) : xs.getLastD a = xs.getLastD b := by
  cases xs with
  | nil => exact absurd rfl h
  | cons x xs => rw [List.getLastD_cons, List.getLastD_cons]

theorem linked_append : Linked link before (xs ++ ys) after ↔
    Linked link before xs (ys.headD after) ∧ Linked link (xs.getLastD before) ys after := by
  induction xs generalizing before with
  | nil => simp
  | cons x xs ih =>
    rw [List.cons_append, linked_cons, linked_cons, ih, headD_append, List.getLastD_cons,
      and_assoc]

theorem Linked.congr (h : Linked link before xs after) (hsame : ∀ x ∈ xs, link' x = link x) :
    Linked link' before xs after := by
  induction xs generalizing before with
  | nil => trivial
  | cons x xs ih =>
    exact ⟨(hsame x List.mem_cons_self).trans h.1,
      ih h.2 fun y hy => hsame y (List.mem_cons_of_mem x hy)⟩

theorem Linked.isSome (h : Linked link before xs after) (hx : x ∈ xs) : (link x).isSome := by
  induction xs generalizing before with
  | nil => exact absurd hx List.not_mem_nil
  | cons y xs ih =>
    obtain rfl | hx := List.mem_cons.mp hx
    · rw [h.1]
      rfl
    · exact ih h.2 hx

theorem Linked.at (h : Linked link before (xs ++ x :: ys) after) :
    link x = some (xs.getLastD before, ys.headD after) := (linked_append.mp h).2.1

variable [DecidableEq A]

theorem Linked.relink_after (h : Linked link before xs after) (hnd : xs.Nodup)
    (hlink : ∀ y ∈ xs, link' y =
      if y = xs.getLastD before then (link y).map fun l => (l.1, after') else link y) :
    Linked link' before xs after' := by
  obtain rfl | ⟨zs, z, rfl⟩ := List.eq_nil_or_concat xs
  · trivial
  rw [List.concat_eq_append] at *
  have hlast : (zs ++ [z]).getLastD before = z := by rw [getLastD_append]; rfl
  rw [hlast] at hlink
  obtain ⟨hzs, hz⟩ := linked_append.mp h
  refine linked_append.mpr ⟨hzs.congr fun y hy => ?_, ?_, trivial⟩
  · rw [hlink y (List.mem_append_left _ hy), if_neg]
    rintro rfl
    exact (List.nodup_append.mp hnd).2.2 y hy y (List.mem_singleton.mpr rfl) rfl
  · rw [hlink z (List.mem_append_right _ (List.mem_singleton.mpr rfl)), if_pos rfl, hz.1]
    rfl

theorem Linked.relink_before (h : Linked link before xs after) (hnd : xs.Nodup)
    (hlink : ∀ y ∈ xs, link' y =
      if y = xs.headD after then (link y).map fun l => (before', l.2) else link y) :
    Linked link' before' xs after := by
  cases xs with
  | nil => trivial
  | cons x xs =>
    rw [List.headD_cons] at hlink
    refine ⟨?_, h.2.congr fun y hy => ?_⟩
    · rw [hlink x List.mem_cons_self, if_pos rfl, h.1]
      rfl
    · rw [hlink y (List.mem_cons_of_mem x hy), if_neg]
      rintro rfl
      exact (List.nodup_cons.mp hnd).1 hy

/-- A node is put between two neighbours, of which either may be missing. -/
theorem Linked.insert (h : Linked link before (xs ++ ys) after) (hnd : (xs ++ ys).Nodup)
    (hx : link' x = some (xs.getLastD before, ys.headD after))
    (hleft : ∀ y ∈ xs, link' y =
      if y = xs.getLastD before then (link y).map fun l => (l.1, x) else link y)
    (hright : ∀ y ∈ ys, link' y =
      if y = ys.headD after then (link y).map fun l => (x, l.2) else link y) :
    Linked link' before (xs ++ x :: ys) after := by
  obtain ⟨hxs, hys⟩ := linked_append.mp h
  exact linked_append.mpr ⟨hxs.relink_after (List.nodup_append.mp hnd).1 hleft, hx,
    hys.relink_before (List.nodup_append.mp hnd).2.1 hright⟩

theorem Linked.erase (h : Linked link before (xs ++ x :: ys) after) (hnd : (xs ++ x :: ys).Nodup)
    (hleft : ∀ y ∈ xs, link' y =
      if y = xs.getLastD before then (link y).map fun l => (l.1, ys.headD after) else link y)
    (hright : ∀ y ∈ ys, link' y =
      if y = ys.headD after then (link y).map fun l => (xs.getLastD before, l.2) else link y) :
    Linked link' before (xs ++ ys) after := by
  obtain ⟨hxs, -, hys⟩ := linked_append.mp h
  obtain ⟨hnx, hny, -⟩ := List.nodup_append.mp hnd
  exact linked_append.mpr ⟨hxs.relink_after hnx hleft,
    hys.relink_before (List.nodup_cons.mp hny).2 hright⟩

end Linked

end LcClibs.Lib.Links
