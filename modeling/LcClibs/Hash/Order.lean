import Mathlib
import LcClibs.Hash.Layout

namespace LcClibs.Hash.Order

open Platform Lib.Runs Lib.Links Hash.UtHash Hash.Layout

section Relinking

variable {s : HashState} {own xs ys : List Nat}

/-- The last of some elements gets another one behind it; without any, that one is the
head. -/
theorem setNext_ok (hxs : 0 ∉ xs) (hown : xs ⊆ own) (hlive : ∀ q ∈ xs, (s.hh q).isSome) (n : Nat) :
    ∃ s', (if xs.getLastD 0 ≠ 0 then setHh (xs.getLastD 0) fun h => { h with next := n }
        else setHead n) s = .ok ((), s') ∧
      s'.tbl = s.tbl ∧ s'.head = (if xs = [] then n else s.head) ∧ OrderStep own s s' ∧
      ∀ q, app s' q =
        if q ∈ xs ∧ q = xs.getLastD 0 then (app s q).map fun l => (l.1, n) else app s q := by
  by_cases hne : xs = []
  · subst hne
    exact ⟨_, rfl, rfl, rfl, (OrderStep.refl own s).putHead n, fun q => by simp⟩
  · have hmem : xs.getLastD 0 ∈ xs := getLastD_mem hne
    obtain ⟨h, hh⟩ := Option.isSome_iff_exists.mp (hlive _ hmem)
    rw [if_pos (mt (getLastD_eq_zero hxs).mp hne), if_neg hne]
    refine ⟨_, setHh_ok (mt (getLastD_eq_zero hxs).mp hne) hh, rfl, rfl,
      (OrderStep.refl own s).put (hown hmem) hh _ (by rfl) (by rfl), fun q => ?_⟩
    rw [app_put]
    by_cases hq : q = xs.getLastD 0
    · rw [if_pos hq, if_pos ⟨hq ▸ hmem, hq⟩, hq, app, hh]
      rfl
    · rw [if_neg hq, if_neg fun h => hq h.2]

theorem setPrev_ok (hys : 0 ∉ ys) (hown : ys ⊆ own) (hlive : ∀ q ∈ ys, (s.hh q).isSome) (n : Nat) :
    ∃ s', (if ys.headD 0 ≠ 0 then setHh (ys.headD 0) fun h => { h with prev := n }
        else pure ()) s = .ok ((), s') ∧
      s'.tbl = s.tbl ∧ s'.head = s.head ∧ OrderStep own s s' ∧
      ∀ q, app s' q =
        if q ∈ ys ∧ q = ys.headD 0 then (app s q).map fun l => (n, l.2) else app s q := by
  obtain ⟨s', hrun, ht, hhead, hframe, hs⟩ := patch_ok hys
    (fun h => headD_mem (mt (headD_eq_zero hys).mpr h)) hown hlive fun h => { h with prev := n }
  exact ⟨s', hrun, ht, hhead, ⟨hframe, view_patch_same _ hs fun _ => rfl,
    view_patch_same _ hs fun _ => rfl⟩, view_patch _ (fun l => (n, l.2)) hs fun _ => rfl⟩

end Relinking

section Insert

variable {s : HashState} {t : UTHashTable} {items xs ys : List Nat} {x add : Nat}

theorem hashAppendList_ok (ho : Ordered s items) (hne : items ≠ []) (ht : s.tbl = some t)
    (htail : t.tail = items.getLastD 0) (hadd : add ∉ items) (h0 : add ≠ 0)
    (hlive : (s.hh add).isSome) :
    ∃ s', hashAppendList add s = .ok ((), s') ∧ Ordered s' (items ++ [add]) ∧
      s'.tbl = some { t with tail := add } ∧ OrderStep (add :: items) s s' := by
  obtain ⟨h, hh⟩ := Option.isSome_iff_exists.mp hlive
  have hmem : t.tail ∈ items := htail ▸ getLastD_mem hne
  have hna : t.tail ≠ add := fun he => hadd (he ▸ hmem)
  obtain ⟨l, hl⟩ := Option.isSome_iff_exists.mp (ho.isSome hmem)
  have hr := ho.ready hne ht
  rw [hashAppendList, step_ok (setHh_ok h0 hh), step_ok (getTbl_ok hr.put),
    step_ok (setHh_ok (h := { h with next := 0 }) h0 (by simp)),
    step_ok (setHh_ok (h := l) (ho.ne_zero hmem) (by simp [hna, hl])),
    setTbl_ok hr.put.put.put]
  refine ⟨_, rfl, ⟨?_, ?_, ?_, ?_⟩, rfl, ?_⟩
  · rw [headD_append, headD_of_ne hne _ 0]
    exact ho.head
  · simpa [h0.symm] using ho.live
  · simpa [List.nodup_append] using ⟨ho.nodup, fun y hy he => hadd (he ▸ hy)⟩
  · have hlinked : Linked (app s) 0 (items ++ []) 0 := by simpa using ho.linked
    refine hlinked.insert (by simpa using ho.nodup) ?_ ?_ ?_
    · simp only [app_putTbl, app_put, if_neg hna.symm, if_true, ← htail]
      rfl
    · intro y hy
      have hya : y ≠ add := fun he => hadd (he ▸ hy)
      simp only [app_putTbl, app_put, if_neg hya, ← htail]
      split_ifs with hyt
      · simp [hyt, app, hl]
      · rfl
    · exact fun y hy => absurd hy List.not_mem_nil
  · exact ((((OrderStep.refl _ s).put List.mem_cons_self hh _ (by rfl) (by rfl)).put
      List.mem_cons_self (h := { h with next := 0 }) (by simp) _ (by rfl) (by rfl)).put
      (List.mem_cons_of_mem _ hmem) (h := l) (by simp [hna, hl]) _ (by rfl) (by rfl)).putTbl _

theorem insertBefore_ok (ho : Ordered s (xs ++ x :: ys)) (hadd : add ∉ xs ++ x :: ys)
    (h0 : add ≠ 0) (hlive : (s.hh add).isSome) :
    ∃ s', insertBefore x add s = .ok ((), s') ∧ Ordered s' (xs ++ add :: x :: ys) ∧
      s'.tbl = s.tbl ∧ OrderStep (add :: (xs ++ x :: ys)) s s' := by
  have hmem : x ∈ xs ++ x :: ys := by simp
  have hax : x ≠ add := fun he => hadd (he ▸ hmem)
  have hsub : xs ⊆ add :: (xs ++ x :: ys) := fun y hy => by simp [hy]
  have hsub' : x :: ys ⊆ add :: (xs ++ x :: ys) := fun y hy => by
    simpa using .inr (.inr (List.mem_cons.mp hy))
  obtain ⟨h, hh⟩ := Option.isSome_iff_exists.mp hlive
  obtain ⟨i, hi, hip, -⟩ := hh_of_app ho.linked.at
  have hparts := List.nodup_append.mp ho.nodup
  have h2 : OrderStep (add :: (xs ++ x :: ys)) s
      ((s.put add { h with next := x }).put add { h with next := x, prev := i.prev }) :=
    ((OrderStep.refl _ s).put List.mem_cons_self hh _ (by rfl) (by rfl)).put List.mem_cons_self
      (h := { h with next := x }) (by simp) _ (by rfl) (by rfl)
  obtain ⟨s3, hrun3, ht3, hhead3, hs3, happ3⟩ := setNext_ok
    (fun h => ho.live (List.mem_append_left _ h)) hsub
    (fun q hq => by rw [h2.live]; exact ho.isSome (List.mem_append_left _ hq)) add
  obtain ⟨s4, hrun4, ht4, hhead4, hs4, happ4⟩ := setPrev_ok (s := s3)
    (fun h => ho.live (List.mem_append_right _ h)) hsub'
    (fun q hq => by rw [hs3.live, h2.live]; exact ho.isSome (List.mem_append_right _ hq)) add
  rw [List.headD_cons, if_pos (ho.ne_zero hmem)] at hrun4
  rw [insertBefore, step_ok (setHh_ok h0 hh), step_ok (getHh_ok (h := i) (ho.ne_zero hmem)
    (by simp [hax, hi])), step_ok (setHh_ok (h := { h with next := x }) h0 (by simp)), hip,
    step_ok (hip ▸ hrun3), hrun4]
  refine ⟨_, rfl, ⟨?_, ?_, ?_, ?_⟩, ht4.trans ht3, (h2.trans hs3).trans hs4⟩
  · rw [hhead4, hhead3, put_head, put_head, ho.head]
    cases xs <;> rfl
  · simpa [h0.symm] using ho.live
  · refine List.nodup_middle.mpr (List.nodup_cons.mpr ⟨hadd, ho.nodup⟩)
  · have happ2 : ∀ y ≠ add, app s3 y =
        if y ∈ xs ∧ y = xs.getLastD 0 then (app s y).map fun l => (l.1, add) else app s y := by
      intro y hy
      simp only [happ3, app_put, if_neg hy]
    refine ho.linked.insert ho.nodup ?_ ?_ ?_
    · rw [happ4, if_neg, happ3, if_neg, app_put, if_pos rfl, hip]
      · rfl
      · exact fun h => hadd (List.mem_append_left _ h.1)
      · exact fun h => hadd (List.mem_append_right _ h.1)
    · intro y hy
      rw [happ4, if_neg, happ2 y (fun he => hadd (he ▸ List.mem_append_left _ hy))]
      · simp [hy]
      · exact fun h => hparts.2.2 y hy y h.1 rfl
    · intro y hy
      have hskip : app s3 y = app s y := by
        rw [happ2 y fun he => hadd (he ▸ List.mem_append_right _ hy),
          if_neg fun h => hparts.2.2 y h.1 y hy rfl]
      simp only [happ4, hskip, hy, true_and]

end Insert

section Erase

variable {s : HashState} {t : UTHashTable} {xs ys : List Nat} {x : Nat}

theorem unlinkOrder_ok (ho : Ordered s (xs ++ x :: ys)) (ht : s.tbl = some t)
    (htail : t.tail = (xs ++ x :: ys).getLastD 0) :
    ∃ s', unlinkOrder x s = .ok ((), s') ∧ Ordered s' (xs ++ ys) ∧
      s'.tbl = some { t with tail := (xs ++ ys).getLastD 0 } ∧
      app s' x = app s x ∧ OrderStep (xs ++ x :: ys) s s' := by
  have hmem : x ∈ xs ++ x :: ys := by simp
  have hx0 : x ≠ 0 := ho.ne_zero hmem
  have hsub : xs ⊆ xs ++ x :: ys := List.subset_append_left _ _
  have hsub' : ys ⊆ xs ++ x :: ys := fun y hy => by simp [hy]
  have hparts := List.nodup_append.mp ho.nodup
  have hxx : x ∉ xs := fun h => hparts.2.2 x h x List.mem_cons_self rfl
  have hxy : x ∉ ys := (List.nodup_cons.mp hparts.2.1).1
  have hr := ho.ready (List.ne_nil_of_mem hmem) ht
  obtain ⟨d, hd, hdp, hdn⟩ := hh_of_app ho.linked.at
  have htail' : x = t.tail ↔ ys = [] := by
    rw [htail, getLastD_append, List.getLastD_cons]
    constructor
    · intro h
      by_contra hne
      exact hxy (h ▸ getLastD_mem hne)
    · rintro rfl
      rfl
  obtain ⟨s1, hrun1, hhead1, ht1, hs1⟩ : ∃ s1,
      (if x = t.tail then setTbl fun t => { t with tail := d.prev } else pure ()) s =
        .ok ((), s1) ∧ s1.head = s.head ∧
      s1.tbl = some { t with tail := (xs ++ ys).getLastD 0 } ∧ app s1 = app s ∧
      OrderStep (xs ++ x :: ys) s s1 := by
    by_cases hlast : ys = []
    · rw [if_pos (htail'.mpr hlast), setTbl_ok hr]
      refine ⟨_, rfl, rfl, ?_, rfl, (OrderStep.refl _ s).putTbl _⟩
      rw [hdp, hlast, List.append_nil]
      rfl
    · rw [if_neg (mt htail'.mp hlast)]
      refine ⟨_, rfl, rfl, ?_, rfl, .refl _ s⟩
      have hsame : (xs ++ ys).getLastD 0 = t.tail := by
        rw [htail, getLastD_append, getLastD_append, List.getLastD_cons]
        exact getLastD_of_ne hlast _ _
      rw [hsame, ht]
  obtain ⟨happ1, hs1⟩ := hs1
  obtain ⟨s2, hrun2, ht2, hhead2, hs2, happ2⟩ := setNext_ok (s := s1)
    (fun h => ho.live (List.mem_append_left _ h)) hsub
    (fun q hq => by rw [hs1.live]; exact ho.isSome (List.mem_append_left _ hq)) d.next
  obtain ⟨s3, hrun3, ht3, hhead3, hs3, happ3⟩ := setPrev_ok (s := s2)
    (fun h => ho.live (by simp [h])) hsub'
    (fun q hq => by rw [hs2.live, hs1.live]; exact ho.isSome (hsub' hq)) d.prev
  have hx2 : app s2 x = app s x := by rw [happ2, if_neg fun h => hxx h.1, happ1]
  obtain ⟨d2, hd2, hdp2, hdn2⟩ := hh_of_app (hx2.trans ho.linked.at)
  rw [unlinkOrder, step_ok (getTbl_ok hr), step_ok (getHh_ok hx0 hd), step_ok hrun1, hdp,
    hdn]
  rw [hdn] at hrun2
  rw [hdp] at hrun3
  rw [step_ok hrun2, step_ok (getHh_ok hx0 hd2), hdp2, hdn2, hrun3]
  refine ⟨_, rfl, ⟨?_, ?_, ?_, ?_⟩, (ht3.trans ht2).trans ht1, ?_, (hs1.trans hs2).trans hs3⟩
  · rw [hhead3, hhead2, hhead1, ho.head, hdn]
    cases xs with
    | nil => rw [if_pos rfl, List.nil_append]
    | cons y xs => rw [if_neg (List.cons_ne_nil y xs)]; rfl
  · exact fun h => ho.live (by simpa using (List.mem_append.mp h).imp id .inr)
  · exact (List.nodup_cons.mp (List.nodup_middle.mp ho.nodup)).2
  · refine ho.linked.erase ho.nodup (fun y hy => ?_) fun y hy => ?_
    · rw [happ3, if_neg fun h => hparts.2.2 y hy y (List.mem_cons_of_mem x h.1) rfl, happ2, happ1,
        hdn]
      simp only [hy, true_and]
    · have hskip : app s2 y = app s y := by
        rw [happ2, if_neg fun h => hparts.2.2 y h.1 y (List.mem_cons_of_mem x hy) rfl, happ1]
      simp only [happ3, hskip, hdp, hy, true_and]
  · rw [happ3, if_neg fun h => hxy h.1, hx2]

end Erase

end LcClibs.Hash.Order
