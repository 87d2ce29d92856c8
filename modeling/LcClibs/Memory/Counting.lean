import Mathlib
import LcClibs.Memory.Safety

namespace LcClibs.Memory.Counting

open Lib.Runs Memory.Managed Memory.Safety

section Model

variable (owned : Nat → List Nat)

def slotCount (D : List Nat) (pool : Pool) (mem : Nat) : Nat :=
  (pool.serials.map fun n => if n ∈ D then 0 else (owned n).count mem).sum

/-- The accounts of a pool while the releases in `pend` are still to be made: the count
of a block is the number of its owners, of the releases to come and of the slots that
hold it. The slots of the blocks in `D` do not count any more, and these blocks die
already or have an owner that does not give up. -/
structure Law (D : List Nat) (held : Nat → Nat) (pend : List Nat) (pool : Pool) : Prop where
  serials_nodup : pool.serials.Nodup
  live_nodup : pool.live.Nodup
  count : ∀ x ∈ pool.records, x.r = held x.m + pend.count x.m + slotCount owned D pool x.m
  slots_live : ∀ n ∈ pool.serials, n ∉ D → ∀ a ∈ owned n, a ∈ pool.live
  pend_live : ∀ a ∈ pend, a ∈ pool.live
  held_live : ∀ a, 0 < held a → a ∈ pool.live
  excluded : ∀ x ∈ pool.records, x.serial ∈ D → x.r = 0 ∨ 0 < held x.m
  called : ∀ x ∈ pool.records, x.r = 0 → x.cb = true

/-- A block with no owner that is held by blocks of the same kind only. -/
inductive Doomed (D : List Nat) (held : Nat → Nat) (pool : Pool) : Nat → Prop
  | intro {x : Record} : x ∈ pool.records → held x.m = 0 → 0 < x.r →
      (∀ n ∈ pool.serials, n ∉ D → x.m ∈ owned n → Doomed D held pool n) →
      Doomed D held pool x.serial

/-- What releases leave of a pool: the accounts, no block that was not there, no count
that was positive and is 0 now, and all but doomed blocks. -/
structure Swept (D : List Nat) (held : Nat → Nat) (pend : List Nat) (pool pool' : Pool) :
    Prop where
  law : Law owned D held pend pool'
  old : ∀ y ∈ pool'.records, ∃ x ∈ pool.records, y.serial = x.serial ∧ y.m = x.m ∧
    y.r ≤ x.r ∧ (0 < x.r → 0 < y.r)
  doomed : ∀ n ∈ pool.serials, n ∉ pool'.serials → Doomed owned D held pool n

end Model

section Slots

variable {owned : Nat → List Nat} {D : List Nat} {pool : Pool} {n mem : Nat}

theorem slotCount_congr {pool' : Pool} (h : pool'.serials = pool.serials) :
    slotCount owned D pool' mem = slotCount owned D pool mem := by
  rw [slotCount, slotCount, h]

theorem slotCount_pos :
    0 < slotCount owned D pool mem ↔ ∃ n ∈ pool.serials, n ∉ D ∧ mem ∈ owned n := by
  rw [slotCount, pos_iff_ne_zero, ne_eq, List.sum_eq_zero_iff]
  constructor
  · intro h
    by_contra hno
    refine h fun k hk => ?_
    obtain ⟨n, hn, rfl⟩ := List.mem_map.mp hk
    by_cases hD : n ∈ D
    · exact if_pos hD
    · rw [if_neg hD, List.count_eq_zero]
      exact fun hmem => hno ⟨n, hn, hD, hmem⟩
  · rintro ⟨n, hn, hD, hmem⟩ h
    have h0 := h _ (List.mem_map_of_mem hn)
    rw [if_neg hD, List.count_eq_zero] at h0
    exact h0 hmem

theorem slotCount_cons (hnd : pool.serials.Nodup) (hn : n ∈ pool.serials) (hD : n ∉ D) :
    slotCount owned D pool mem = (owned n).count mem + slotCount owned (n :: D) pool mem := by
  obtain ⟨before, after, hs⟩ := List.append_of_mem hn
  have hnot : ∀ k ∈ before ++ after, k ≠ n := by
    rintro k hk rfl
    rw [hs, List.nodup_middle, List.nodup_cons] at hnd
    exact hnd.1 hk
  have hsame : ∀ l : List Nat, (∀ k ∈ l, k ∈ before ++ after) →
      (l.map fun k => if k ∈ n :: D then 0 else (owned k).count mem) =
        l.map fun k => if k ∈ D then 0 else (owned k).count mem := by
    intro l hl
    apply List.map_congr_left
    intro k hk
    simp [hnot k (hl k hk)]
  simp only [slotCount, hs, List.map_append, List.map_cons, List.sum_append, List.sum_cons,
    if_neg hD, if_pos List.mem_cons_self]
  rw [hsame before fun k hk => List.mem_append_left _ hk,
    hsame after fun k hk => List.mem_append_right _ hk]
  omega

theorem serials_delete : (pool.delete n).serials = pool.serials.filter (· ≠ n) := by
  simp only [Pool.serials, Pool.delete, List.filter_map]
  rfl

theorem slotCount_delete :
    slotCount owned D (pool.delete n) mem = slotCount owned (n :: D) pool mem := by
  rw [slotCount, slotCount, serials_delete]
  induction pool.serials with
  | nil => rfl
  | cons k serials ih =>
    by_cases hk : k = n
    · subst hk
      rw [List.filter_cons_of_neg (by simp), List.map_cons, List.sum_cons, ih,
        if_pos List.mem_cons_self, Nat.zero_add]
    · have hD : k ∈ n :: D ↔ k ∈ D := by simp [hk]
      rw [List.filter_cons_of_pos (by simpa using hk), List.map_cons, List.map_cons,
        List.sum_cons, List.sum_cons, ih]
      simp only [hD]

end Slots

section Steps

variable {owned : Nat → List Nat} {D : List Nat} {held : Nat → Nat} {pend : List Nat}
  {pool : Pool} {x : Record} {mem : Nat}

theorem mem_update_iff {f : Record → Record} {n : Nat} {y : Record} :
    y ∈ (pool.update n f).records ↔
      ∃ z ∈ pool.records, (if z.serial = n then f z else z) = y := by
  simp [Pool.update]

theorem Law.eq_of_serial (h : Law owned D held pend pool) {y : Record} (hx : x ∈ pool.records)
    (hy : y ∈ pool.records) (he : y.serial = x.serial) : y = x :=
  List.inj_on_of_nodup_map h.serials_nodup hy hx he

theorem Law.eq_of_mem (h : Law owned D held pend pool) {y : Record} (hx : x ∈ pool.records)
    (hy : y ∈ pool.records) (he : y.m = x.m) : y = x :=
  List.inj_on_of_nodup_map h.live_nodup hy hx he

theorem Law.find_of_live (h : Law owned D held pend pool) (hm : mem ∈ pool.live) :
    ∃ x ∈ pool.records, x.m = mem ∧ pool.find mem = some x := by
  obtain ⟨x, hx, rfl⟩ := List.mem_map.mp hm
  cases hf : pool.find x.m with
  | none =>
    have hn := List.find?_eq_none.mp hf x hx
    simp at hn
  | some y =>
    obtain ⟨hy, hm⟩ := find_some hf
    obtain rfl := h.eq_of_mem hx hy hm
    exact ⟨y, hx, rfl, rfl⟩

theorem Law.congr {q : Pool} (h : Law owned D held pend pool)
    (hr : q.records = pool.records) : Law owned D held pend q := by
  have hs : q.serials = pool.serials := by rw [Pool.serials, Pool.serials, hr]
  have hl : q.live = pool.live := by rw [Pool.live, Pool.live, hr]
  constructor
  · rw [hs]
    exact h.serials_nodup
  · rw [hl]
    exact h.live_nodup
  · rw [hr]
    intro x hx
    rw [slotCount_congr hs]
    exact h.count x hx
  · rw [hs, hl]
    exact h.slots_live
  · rw [hl]
    exact h.pend_live
  · rw [hl]
    exact h.held_live
  · rw [hr]
    exact h.excluded
  · rw [hr]
    exact h.called

theorem Law.release (h : Law owned D held (mem :: pend) pool) (hx : x ∈ pool.records)
    (hm : x.m = mem) :
    Law owned D held pend
      (pool.update x.serial fun y => { y with r := y.r - 1, cb := true }) := by
  have hs : (pool.update x.serial fun y => { y with r := y.r - 1, cb := true }).serials =
      pool.serials := serials_update fun _ => rfl
  have hl : (pool.update x.serial fun y => { y with r := y.r - 1, cb := true }).live =
      pool.live := live_update fun _ => rfl
  have hcount := h.count
  simp only [List.count_cons] at hcount
  constructor
  · rw [hs]
    exact h.serials_nodup
  · rw [hl]
    exact h.live_nodup
  · intro y hy
    obtain ⟨z, hz, rfl⟩ := mem_update_iff.mp hy
    have hc := hcount z hz
    rw [slotCount_congr hs]
    by_cases he : z.serial = x.serial
    · obtain rfl := h.eq_of_serial hx hz he
      simp only [hm, beq_self_eq_true, if_true] at hc ⊢
      omega
    · have hne : mem ≠ z.m := fun hzm => he (by rw [h.eq_of_mem hx hz (by rw [hm, hzm])])
      simp only [if_neg he, beq_iff_eq, if_neg hne] at hc ⊢
      omega
  · rw [hs, hl]
    exact h.slots_live
  · rw [hl]
    exact fun a ha => h.pend_live a (List.mem_cons_of_mem _ ha)
  · rw [hl]
    exact h.held_live
  · intro y hy hD
    obtain ⟨z, hz, rfl⟩ := mem_update_iff.mp hy
    by_cases he : z.serial = x.serial
    · rw [if_pos he] at hD ⊢
      have hzx := h.excluded z hz hD
      simp only at hzx ⊢
      omega
    · rw [if_neg he] at hD ⊢
      exact h.excluded z hz hD
  · intro y hy
    obtain ⟨z, hz, rfl⟩ := mem_update_iff.mp hy
    by_cases he : z.serial = x.serial
    · rw [if_pos he]
      exact fun _ => rfl
    · rw [if_neg he]
      exact h.called z hz

theorem Law.transfer {owned' : Nat → List Nat} {D' : List Nat} {held' : Nat → Nat}
    {pend' : List Nat} (h : Law owned D held pend pool)
    (hsum : ∀ a, held' a + pend'.count a + slotCount owned' D' pool a =
      held a + pend.count a + slotCount owned D pool a)
    (hex : ∀ x ∈ pool.records, x.serial ∈ D' → x.r = 0 ∨ 0 < held' x.m) :
    Law owned' D' held' pend' pool := by
  have hlive : ∀ a, 0 < held' a + pend'.count a + slotCount owned' D' pool a → a ∈ pool.live := by
    intro a ha
    rw [hsum] at ha
    obtain h0 | h0 | h0 : 0 < held a ∨ 0 < pend.count a ∨ 0 < slotCount owned D pool a := by omega
    · exact h.held_live a h0
    · exact h.pend_live a (List.count_pos_iff.mp h0)
    · obtain ⟨n, hn, hD, hmem⟩ := slotCount_pos.mp h0
      exact h.slots_live n hn hD a hmem
  constructor
  · exact h.serials_nodup
  · exact h.live_nodup
  · intro x hx
    rw [hsum]
    exact h.count x hx
  · intro n hn hD a ha
    have hpos := slotCount_pos.mpr ⟨n, hn, hD, ha⟩
    exact hlive a (by omega)
  · intro a ha
    have hpos := List.count_pos_iff.mpr ha
    exact hlive a (by omega)
  · intro a ha
    exact hlive a (by omega)
  · exact hex
  · exact h.called

/-- The slots of a block stop to count: what it holds is to be released. -/
theorem Law.enter (h : Law owned D held pend pool) (hx : x ∈ pool.records)
    (h0 : x.r = 0 ∨ 0 < held x.m) (hD : x.serial ∉ D) :
    Law owned (x.serial :: D) held (owned x.serial ++ pend) pool := by
  refine h.transfer (fun a => ?_) fun y hy hyD => ?_
  · have hcons := @slotCount_cons owned D pool x.serial a h.serials_nodup (serial_mem hx) hD
    rw [List.count_append, hcons]
    omega
  · obtain he | hyD := List.mem_cons.mp hyD
    · rw [h.eq_of_serial hx hy he]
      exact h0
    · exact h.excluded y hy hyD

theorem Law.delete (h : Law owned (x.serial :: D) held pend pool) (hx : x ∈ pool.records)
    (h0 : x.r = 0) : Law owned D held pend (pool.delete x.serial) := by
  have hcx := h.count x hx
  have hsub : (pool.delete x.serial).records.Sublist pool.records := List.filter_sublist
  have hlive : ∀ a ∈ pool.live, a ≠ x.m → a ∈ (pool.delete x.serial).live := by
    intro a ha hne
    obtain ⟨y, hy, rfl⟩ := List.mem_map.mp ha
    have hys : y.serial ≠ x.serial := fun he => hne (by rw [h.eq_of_serial hx hy he])
    exact List.mem_map_of_mem (mem_delete.mpr ⟨hy, hys⟩)
  constructor
  · exact (hsub.map _).nodup h.serials_nodup
  · exact (hsub.map _).nodup h.live_nodup
  · intro y hy
    rw [slotCount_delete]
    exact h.count y (mem_delete.mp hy).1
  · intro n hn hnD a ha
    obtain ⟨hn, hne⟩ := mem_serials_delete.mp hn
    have hnD' : n ∉ x.serial :: D := by simp [hne, hnD]
    refine hlive a (h.slots_live n hn hnD' a ha) ?_
    rintro rfl
    have hpos := slotCount_pos.mpr ⟨n, hn, hnD', ha⟩
    omega
  · intro a ha
    refine hlive a (h.pend_live a ha) ?_
    rintro rfl
    have hpos := List.count_pos_iff.mpr ha
    omega
  · intro a ha
    refine hlive a (h.held_live a ha) ?_
    rintro rfl
    omega
  · intro y hy hyD
    exact h.excluded y (mem_delete.mp hy).1 (List.mem_cons_of_mem _ hyD)
  · exact fun y hy => h.called y (mem_delete.mp hy).1

theorem slotCount_rest {owned' : Nat → List Nat} {n a : Nat}
    (hsame : ∀ k, k ≠ n → owned' k = owned k) :
    slotCount owned' (n :: D) pool a = slotCount owned (n :: D) pool a := by
  rw [slotCount, slotCount]
  congr 1
  apply List.map_congr_left
  intro k _
  by_cases hk : k ∈ n :: D
  · rw [if_pos hk, if_pos hk]
  · rw [if_neg hk, if_neg hk, hsame k fun he => hk (by rw [he]; exact List.mem_cons_self)]

/-- The slots of a block outside `D` are written anew; what is held, to be released and
in slots stays the same in sum. -/
theorem Law.change {held' : Nat → Nat} {pend' : List Nat} {owned' : Nat → List Nat} {n : Nat}
    (h : Law owned D held pend pool) (hn : n ∈ pool.serials) (hD : n ∉ D)
    (hsame : ∀ k, k ≠ n → owned' k = owned k)
    (hsum : ∀ a, held' a + pend'.count a + (owned' n).count a =
      held a + pend.count a + (owned n).count a)
    (hD' : ∀ x ∈ pool.records, x.serial ∈ D → 0 < held x.m → 0 < held' x.m) :
    Law owned' D held' pend' pool := by
  refine h.transfer (fun a => ?_) fun x hx hxD => (h.excluded x hx hxD).imp_right (hD' x hx hxD)
  have hs := hsum a
  rw [slotCount_cons h.serials_nodup hn hD, slotCount_cons h.serials_nodup hn hD,
    slotCount_rest hsame]
  omega

theorem Law.leave {held' : Nat → Nat} {owned' : Nat → List Nat} {n : Nat}
    (h : Law owned [n] held [] pool) (hn : n ∈ pool.serials)
    (hsame : ∀ k, k ≠ n → owned' k = owned k)
    (hsum : ∀ a, held' a + (owned' n).count a = held a) : Law owned' [] held' [] pool := by
  refine h.transfer (fun a => ?_) fun x _ hD => absurd hD List.not_mem_nil
  have hs := hsum a
  rw [slotCount_cons h.serials_nodup hn List.not_mem_nil, slotCount_rest hsame]
  omega

theorem Law.shift {held' : Nat → Nat} {pend' : List Nat} (h : Law owned [] held pend pool)
    (hsum : ∀ a, held' a + pend'.count a = held a + pend.count a) :
    Law owned [] held' pend' pool :=
  h.transfer (fun a => by rw [hsum]) fun x _ hD => absurd hD List.not_mem_nil

theorem Law.retain {held' : Nat → Nat} (h : Law owned D held pend pool) (hx : x ∈ pool.records)
    (hmax : x.r + 1 < 2 ^ 64) (hheld : ∀ a, held' a = held a + if a = x.m then 1 else 0) :
    Law owned D held' pend (pool.update x.serial fun y => { y with r := sizeT (y.r + 1) }) := by
  have hs : (pool.update x.serial fun y => { y with r := sizeT (y.r + 1) }).serials =
      pool.serials := serials_update fun _ => rfl
  have hl : (pool.update x.serial fun y => { y with r := sizeT (y.r + 1) }).live =
      pool.live := live_update fun _ => rfl
  have hr : sizeT (x.r + 1) = x.r + 1 := Nat.mod_eq_of_lt hmax
  have hmem : ∀ y ∈ (pool.update x.serial fun y => { y with r := sizeT (y.r + 1) }).records,
      ∃ z ∈ pool.records, y.serial = z.serial ∧ y.m = z.m ∧ y.cb = z.cb ∧
        y.r = z.r + if z.m = x.m then 1 else 0 := by
    intro y hy
    obtain ⟨z, hz, rfl⟩ := mem_update_iff.mp hy
    by_cases he : z.serial = x.serial
    · obtain rfl := h.eq_of_serial hx hz he
      simp only [if_true]
      exact ⟨z, hz, rfl, rfl, rfl, by rw [hr, if_pos rfl]⟩
    · rw [if_neg he]
      have hne : z.m ≠ x.m := fun hzm => he (by rw [h.eq_of_mem hx hz hzm])
      exact ⟨z, hz, rfl, rfl, rfl, by rw [if_neg hne]; rfl⟩
  constructor
  · rw [hs]
    exact h.serials_nodup
  · rw [hl]
    exact h.live_nodup
  · intro y hy
    obtain ⟨z, hz, -, hm, -, hzr⟩ := hmem y hy
    have hc := h.count z hz
    rw [slotCount_congr hs, hm, hzr, hheld]
    omega
  · rw [hs, hl]
    exact h.slots_live
  · rw [hl]
    exact h.pend_live
  · rw [hl]
    intro a ha
    rw [hheld] at ha
    by_cases hax : a = x.m
    · rw [hax]
      exact List.mem_map_of_mem hx
    · rw [if_neg hax] at ha
      exact h.held_live a ha
  · intro y hy hD
    obtain ⟨z, hz, hzs, hm, -, hzr⟩ := hmem y hy
    have hex := h.excluded z hz (hzs ▸ hD)
    rw [hm, hzr, hheld]
    by_cases hzm : z.m = x.m
    · rw [if_pos hzm]
      omega
    · rw [if_neg hzm]
      exact hex
  · intro y hy h0
    obtain ⟨z, hz, -, -, hcb, hzr⟩ := hmem y hy
    rw [hcb]
    exact h.called z hz (by omega)

theorem Law.add {held' : Nat → Nat} {pool' : Pool} (h : Law owned D held pend pool)
    (hrec : pool'.records = pool.records ++ [x]) (hs : x.serial ∉ pool.serials)
    (hm : x.m ∉ pool.live) (hr : x.r = 1) (hown : owned x.serial = []) (hD : x.serial ∉ D)
    (hheld : ∀ a, held' a = held a + if a = x.m then 1 else 0) :
    Law owned D held' pend pool' := by
  have hser : pool'.serials = pool.serials ++ [x.serial] := by simp [Pool.serials, hrec]
  have hlive : pool'.live = pool.live ++ [x.m] := by simp [Pool.live, hrec]
  have hslot : ∀ a, slotCount owned D pool' a = slotCount owned D pool a := by
    intro a
    simp [slotCount, hser, hown]
  have hnew : ∀ a ∈ pool.live, a ∈ pool'.live := fun a ha => by
    rw [hlive]
    exact List.mem_append_left _ ha
  have hmem : ∀ y ∈ pool'.records, y ∈ pool.records ∨ y = x := by
    intro y hy
    rw [hrec] at hy
    simpa using hy
  constructor
  · rw [hser]
    exact List.Nodup.append h.serials_nodup (List.nodup_singleton _) (by simpa using hs)
  · rw [hlive]
    exact List.Nodup.append h.live_nodup (List.nodup_singleton _) (by simpa using hm)
  · intro y hy
    rw [hslot, hheld]
    obtain hy | rfl := hmem y hy
    · have hne : y.m ≠ x.m := fun he => hm (he ▸ List.mem_map_of_mem hy)
      rw [if_neg hne]
      exact h.count y hy
    · have h1 : held y.m = 0 := Nat.eq_zero_of_not_pos fun h0 => hm (h.held_live _ h0)
      have h2 : pend.count y.m = 0 := List.count_eq_zero.mpr fun ha => hm (h.pend_live _ ha)
      have h3 : slotCount owned D pool y.m = 0 := by
        apply Nat.eq_zero_of_not_pos
        intro h0
        obtain ⟨n, hn, hnD, ha⟩ := slotCount_pos.mp h0
        exact hm (h.slots_live n hn hnD _ ha)
      rw [hr, h1, h2, h3, if_pos rfl]
  · intro n hn hnD a ha
    rw [hser, List.mem_append, List.mem_singleton] at hn
    obtain hn | rfl := hn
    · exact hnew a (h.slots_live n hn hnD a ha)
    · rw [hown] at ha
      exact absurd ha List.not_mem_nil
  · exact fun a ha => hnew a (h.pend_live a ha)
  · intro a ha
    rw [hheld] at ha
    by_cases hax : a = x.m
    · rw [hlive, hax]
      exact List.mem_append_right _ (List.mem_singleton_self _)
    · rw [if_neg hax] at ha
      exact hnew a (h.held_live a ha)
  · intro y hy hyD
    rw [hheld]
    obtain hy | rfl := hmem y hy
    · have hex := h.excluded y hy hyD
      omega
    · exact absurd hyD hD
  · intro y hy h0
    obtain hy | rfl := hmem y hy
    · exact h.called y hy h0
    · omega

end Steps

section Releases

variable {owned : Nat → List Nat} {D : List Nat} {held : Nat → Nat} {pend pend' : List Nat}
  {pool p p' : Pool} {x : Record} {mem fuel : Nat}

theorem Swept.refl (h : Law owned D held pend pool) : Swept owned D held pend pool pool where
  law := h
  old y hy := ⟨y, hy, rfl, rfl, le_rfl, id⟩
  doomed _ hn hn' := absurd hn hn'

theorem Swept.doomed_before (h : Swept owned D held pend pool p) {n : Nat}
    (hn : Doomed owned D held p n) : Doomed owned D held pool n := by
  induction hn with
  | @intro y hy h0 hr _ ih =>
    obtain ⟨z, hz, hs, hm, hle, -⟩ := h.old y hy
    rw [hs]
    rw [hm] at h0 ih
    refine .intro hz h0 (by omega) fun k hk hD hmem => ?_
    by_cases hk' : k ∈ p.serials
    · exact ih k hk' hD hmem
    · exact h.doomed k hk hk'

theorem Swept.trans (h : Swept owned D held pend pool p) (h' : Swept owned D held pend' p p') :
    Swept owned D held pend' pool p' where
  law := h'.law
  old y hy := by
    obtain ⟨z, hz, hs, hm, hle, hpos⟩ := h'.old y hy
    obtain ⟨w, hw, hs', hm', hle', hpos'⟩ := h.old z hz
    exact ⟨w, hw, hs.trans hs', hm.trans hm', hle.trans hle', fun h0 => hpos (hpos' h0)⟩
  doomed n hn hn' := by
    by_cases hk : n ∈ p.serials
    · exact h.doomed_before (h'.doomed n hk hn')
    · exact h.doomed n hn hk

theorem foldlM_swept {f : Pool → Nat → Except Stop Pool} {mems : List Nat}
    (hf : ∀ mem pend p p', Law owned D held (mem :: pend) p → f p mem = .ok p' →
      Swept owned D held pend p p')
    (h : Law owned D held (mems ++ pend) pool) (hrun : mems.foldlM f pool = .ok p) :
    Swept owned D held pend pool p := by
  induction mems generalizing pool with
  | nil =>
    obtain rfl : pool = p := Except.ok.inj hrun
    exact Swept.refl h
  | cons mem mems ih =>
    rw [List.foldlM_cons] at hrun
    cases h1 : f pool mem with
    | error e =>
      rw [h1] at hrun
      cases hrun
    | ok p1 =>
      rw [bind_ok h1] at hrun
      have hs := hf mem (mems ++ pend) pool p1 h h1
      exact hs.trans (ih hs.law hrun)

theorem Law.doomed (h : Law owned D held (mem :: pend) pool) (hx : x ∈ pool.records)
    (hm : x.m = mem) (h1 : x.r - 1 = 0) : Doomed owned D held pool x.serial := by
  have hc := h.count x hx
  rw [hm, List.count_cons_self] at hc
  refine .intro hx (by rw [hm]; omega) (by omega) fun n hn hD hmem => ?_
  have hpos := slotCount_pos.mpr ⟨n, hn, hD, hmem⟩
  rw [hm] at hpos
  omega

theorem Doomed.outside {n : Nat} (hx : Doomed owned D held pool x.serial)
    (hold : ∀ y ∈ p.records, ∃ z ∈ pool.records, y.serial = z.serial ∧ y.m = z.m ∧ y.r ≤ z.r)
    (hs : p.serials = pool.serials) (h : Doomed owned (x.serial :: D) held p n) :
    Doomed owned D held pool n := by
  induction h with
  | @intro y hy h0 hpos _ ih =>
    obtain ⟨z, hz, hs', hm, hr⟩ := hold y hy
    rw [hs']
    rw [hm] at h0 ih
    refine .intro hz h0 (by omega) fun k hk hD hmem => ?_
    by_cases hkx : k = x.serial
    · rw [hkx]
      exact hx
    · exact ih k (by rw [hs]; exact hk) (by simp [hkx, hD]) hmem

def giveUp (y : Record) : Record := { y with r := y.r - 1, cb := true }

theorem mem_giveUp (h : Law owned D held pend pool) (hx : x ∈ pool.records) {y : Record}
    (hy : y ∈ (pool.update x.serial giveUp).records) :
    ∃ z ∈ pool.records, y.serial = z.serial ∧ y.m = z.m ∧ y.r ≤ z.r ∧
      (z.serial ≠ x.serial → y = z) ∧ (z.serial = x.serial → y = giveUp x) := by
  obtain ⟨z, hz, rfl⟩ := mem_update_iff.mp hy
  by_cases he : z.serial = x.serial
  · obtain rfl := h.eq_of_serial hx hz he
    rw [if_pos rfl]
    exact ⟨z, hz, rfl, rfl, Nat.sub_le _ _, fun hne => absurd rfl hne, fun _ => rfl⟩
  · rw [if_neg he]
    exact ⟨z, hz, rfl, rfl, le_rfl, fun _ => rfl, fun he' => absurd he' he⟩

theorem death_swept {log : List Event} (h : Law owned D held (mem :: pend) pool)
    (hx : x ∈ pool.records) (hm : x.m = mem) (hdie : x.r - 1 = 0)
    (hf : ∀ mem pend p p', Law owned (x.serial :: D) held (mem :: pend) p →
      mgnMemReleaseImpl owned fuel mem true true p = .ok p' →
      Swept owned (x.serial :: D) held pend p p')
    (hrun : ((owned x.serial).foldlM (fun p mem => mgnMemReleaseImpl owned fuel mem true true p)
      ((pool.update x.serial giveUp).note log) >>= fun p => p.free x.serial false) = .ok p') :
    Swept owned D held pend pool p' := by
  have hD : x.serial ∉ D := fun hD => by
    have hc := h.count x hx
    have hex := h.excluded x hx hD
    rw [hm, List.count_cons_self] at hc
    rw [hm] at hex
    omega
  have h1 : Law owned (x.serial :: D) held (owned x.serial ++ pend)
      (pool.update x.serial giveUp) :=
    Law.enter (x := giveUp x) (h.release hx hm) (mem_update hx rfl) (Or.inl hdie) hD
  cases h2 : (owned x.serial).foldlM (fun p mem => mgnMemReleaseImpl owned fuel mem true true p)
      ((pool.update x.serial giveUp).note log) with
  | error e =>
    rw [h2] at hrun
    cases hrun
  | ok p2 =>
    rw [bind_ok h2] at hrun
    have hs := foldlM_swept hf (h1.congr (q := (pool.update x.serial giveUp).note log) rfl) h2
    rw [Pool.free] at hrun
    cases hfind : p2.records.find? fun y => y.serial = x.serial with
    | none =>
      rw [hfind] at hrun
      cases hrun
    | some y =>
      rw [hfind] at hrun
      obtain rfl := Except.ok.inj hrun
      have hy := List.mem_of_find?_eq_some hfind
      have hys : y.serial = x.serial := by simpa using List.find?_some hfind
      have hy0 : y.r = 0 := by
        obtain ⟨z, hz, hs', -, hle, -⟩ := hs.old y hy
        obtain ⟨w, -, hw, -, -, -, he⟩ := mem_giveUp h hx hz
        rw [he (by rw [← hw, ← hs', hys])] at hle
        have h0 : (giveUp x).r = 0 := hdie
        omega
      have hlaw := hs.law
      rw [← hys] at hlaw ⊢
      refine ⟨(hlaw.delete hy hy0).congr rfl, fun u hu => ?_, fun n hn hn' => ?_⟩
      · obtain ⟨hu, hne⟩ := mem_delete.mp hu
        obtain ⟨z, hz, hs', hm', hle, hpos⟩ := hs.old u hu
        obtain ⟨w, hw, hws, hwm, -, he, -⟩ := mem_giveUp h hx hz
        obtain rfl := he (by rw [← hws, ← hs', ← hys]; exact hne)
        exact ⟨z, hw, hs', hm', hle, hpos⟩
      · by_cases hnx : n = y.serial
        · rw [hnx, hys]
          exact h.doomed hx hm hdie
        · have hser : ((pool.update x.serial giveUp).note log).serials = pool.serials :=
            serials_update fun _ => rfl
          have hnd : Doomed owned (x.serial :: D) held ((pool.update x.serial giveUp).note log) n :=
            hs.doomed n (by rw [hser]; exact hn) fun hn2 => hn' (mem_serials_delete.mpr ⟨hn2, hnx⟩)
          refine Doomed.outside (h.doomed hx hm hdie) (fun u hu => ?_) hser hnd
          obtain ⟨w, hw, hws, hwm, hwr, -⟩ := mem_giveUp h hx hu
          exact ⟨w, hw, hws, hwm, hwr⟩

/-- A release keeps the accounts, whatever dies of it. -/
theorem mgnMemReleaseImpl_swept (fuel : Nat) (h : Law owned D held (mem :: pend) pool)
    (hrun : mgnMemReleaseImpl owned fuel mem true true pool = .ok p) :
    Swept owned D held pend pool p := by
  induction fuel generalizing D mem pend pool p with
  | zero => cases hrun
  | succ fuel ih =>
    obtain ⟨x, hx, hm, hf⟩ := h.find_of_live (h.pend_live mem List.mem_cons_self)
    have hc := h.count x hx
    rw [hm, List.count_cons_self] at hc
    have hr0 : x.r ≠ 0 := by omega
    simp only [mgnMemReleaseImpl, hf, if_neg hr0, if_true, and_true] at hrun
    by_cases hdie : x.r - 1 = 0
    · rw [if_pos hdie] at hrun
      exact death_swept h hx hm hdie (fun _ _ _ _ h' => ih h') hrun
    · rw [if_neg hdie] at hrun
      obtain rfl : pool.update x.serial giveUp = p := Except.ok.inj hrun
      refine ⟨h.release hx hm, fun y hy => ?_, fun n hn hn' => ?_⟩
      · obtain ⟨z, hz, hs, hm', hle, hne, he⟩ := mem_giveUp h hx hy
        refine ⟨z, hz, hs, hm', hle, fun h0 => ?_⟩
        by_cases hzx : z.serial = x.serial
        · rw [he hzx]
          exact Nat.pos_of_ne_zero hdie
        · rw [hne hzx]
          exact h0
      · rw [serials_update (f := giveUp) fun _ => rfl] at hn'
        exact absurd hn hn'

end Releases

section Unused

variable {owned : Nat → List Nat} {held : Nat → Nat} {pool p : Pool} {mem : Nat}

theorem sweep_swept (h : Law owned [] held [] pool) (hrun : sweep owned pool mem = .ok p) :
    Law owned [] held [] p ∧
      ∀ y ∈ p.records, ∃ x ∈ pool.records, y.serial = x.serial ∧ y.m = x.m ∧
        y.r ≤ x.r ∧ (y.r = 0 → x.r = 0 ∧ y.m ≠ mem) := by
  rw [sweep] at hrun
  cases hf : pool.find mem with
  | none =>
    rw [hf] at hrun
    obtain rfl := Except.ok.inj hrun
    refine ⟨h, fun y hy => ⟨y, hy, rfl, rfl, le_rfl, fun h0 => ⟨h0, ?_⟩⟩⟩
    rintro rfl
    obtain ⟨z, -, -, hz⟩ := h.find_of_live (List.mem_map_of_mem hy)
    rw [hf] at hz
    cases hz
  | some x =>
    rw [hf] at hrun
    obtain ⟨hx, rfl⟩ := find_some hf
    by_cases h0 : x.r = 0
    · have h1 := h.enter hx (Or.inl h0) List.not_mem_nil
      simp only [if_pos h0, h.called x hx h0, if_true] at hrun
      cases h2 : callback owned pool x.serial with
      | error e =>
        rw [h2] at hrun
        cases hrun
      | ok p2 =>
        rw [bind_ok h2] at hrun
        have hs := foldlM_swept (fun _ _ _ _ h' hr => mgnMemReleaseImpl_swept _ h' hr)
          (h1.congr (q := pool.note _) rfl) h2
        rw [Pool.free] at hrun
        cases hfind : p2.records.find? fun y => y.serial = x.serial with
        | none =>
          rw [hfind] at hrun
          cases hrun
        | some y =>
          rw [hfind] at hrun
          obtain rfl := Except.ok.inj hrun
          have hy := List.mem_of_find?_eq_some hfind
          have hys : y.serial = x.serial := by simpa using List.find?_some hfind
          obtain ⟨z, hz, hzs, hzm, hle, -⟩ := hs.old y hy
          obtain rfl := h.eq_of_serial hx hz (by rw [← hzs, hys])
          have hlaw := hs.law
          rw [← hys] at hlaw ⊢
          refine ⟨(hlaw.delete hy (by omega)).congr rfl, fun u hu => ?_⟩
          obtain ⟨hu, hne⟩ := mem_delete.mp hu
          obtain ⟨w, hw, hws, hwm, hur, hpos⟩ := hs.old u hu
          refine ⟨w, hw, hws, hwm, hur, fun hu0 => ⟨by omega, fun hum => hne ?_⟩⟩
          rw [hlaw.eq_of_mem hy hu (by rw [hum, hzm])]
    · simp only [if_neg h0] at hrun
      obtain rfl := Except.ok.inj hrun
      refine ⟨h, fun y hy => ⟨y, hy, rfl, rfl, le_rfl, fun hy0 => ⟨hy0, fun hm => h0 ?_⟩⟩⟩
      rw [← h.eq_of_mem hx hy hm]
      exact hy0

theorem batch_swept {mems : List Nat} (h : Law owned [] held [] pool)
    (hrun : mems.foldlM (sweep owned) pool = .ok p) :
    Law owned [] held [] p ∧
      ∀ y ∈ p.records, ∃ x ∈ pool.records, y.serial = x.serial ∧ y.m = x.m ∧
        y.r ≤ x.r ∧ (y.r = 0 → x.r = 0 ∧ y.m ∉ mems) := by
  induction mems generalizing pool with
  | nil =>
    obtain rfl : pool = p := Except.ok.inj hrun
    exact ⟨h, fun y hy => ⟨y, hy, rfl, rfl, le_rfl, fun h0 => ⟨h0, List.not_mem_nil⟩⟩⟩
  | cons mem mems ih =>
    rw [List.foldlM_cons] at hrun
    cases h1 : sweep owned pool mem with
    | error e =>
      rw [h1] at hrun
      cases hrun
    | ok p1 =>
      rw [bind_ok h1] at hrun
      obtain ⟨hlaw, hold⟩ := sweep_swept h h1
      obtain ⟨hlaw', hold'⟩ := ih hlaw hrun
      refine ⟨hlaw', fun y hy => ?_⟩
      obtain ⟨z, hz, hzs, hzm, hzr, hz0⟩ := hold' y hy
      obtain ⟨x, hx, hxs, hxm, hxr, hx0⟩ := hold z hz
      refine ⟨x, hx, hzs.trans hxs, hzm.trans hxm, hzr.trans hxr, fun h0 => ?_⟩
      obtain ⟨hz0, hmems⟩ := hz0 h0
      obtain ⟨hx0, hmem⟩ := hx0 hz0
      refine ⟨hx0, ?_⟩
      rw [List.mem_cons, not_or]
      exact ⟨by rw [hzm]; exact hmem, hmems⟩

/-- When the blocks without owners are released, no block with count 0 is left. -/
theorem releaseUnusedLoop_swept (fuel : Nat) (h : Law owned [] held [] pool)
    (hrun : releaseUnusedLoop owned fuel pool = .ok p) :
    Law owned [] held [] p ∧ (∀ y ∈ p.records, 0 < y.r) ∧
      ∀ y ∈ p.records, ∃ x ∈ pool.records, y.serial = x.serial ∧ y.m = x.m ∧
        y.r ≤ x.r := by
  induction fuel generalizing pool with
  | zero => cases hrun
  | succ fuel ih =>
    rw [releaseUnusedLoop] at hrun
    cases h1 : (unusedBatch pool).foldlM (sweep owned) pool with
    | error e =>
      simp only [h1] at hrun
      cases hrun
    | ok p1 =>
      simp only [bind_ok h1] at hrun
      obtain ⟨hlaw, hold⟩ := batch_swept h h1
      by_cases hfull : (unusedBatch pool).length ≥ batchSize
      · rw [if_pos hfull] at hrun
        obtain ⟨hlaw', hpos, hold'⟩ := ih hlaw hrun
        refine ⟨hlaw', hpos, fun y hy => ?_⟩
        obtain ⟨z, hz, hzs, hzm, hzr⟩ := hold' y hy
        obtain ⟨x, hx, hxs, hxm, hxr, -⟩ := hold z hz
        exact ⟨x, hx, hzs.trans hxs, hzm.trans hxm, hzr.trans hxr⟩
      · rw [if_neg hfull] at hrun
        obtain rfl := Except.ok.inj hrun
        refine ⟨hlaw, fun y hy => Nat.pos_of_ne_zero fun hy0 => ?_, fun y hy => ?_⟩
        · obtain ⟨x, hx, -, hxm, -, hx0⟩ := hold y hy
          obtain ⟨hx0, hnot⟩ := hx0 hy0
          -- a batch that is not full holds every block with count 0
          have hall : x.m ∈ (pool.records.filter fun x => x.r = 0).map Record.m :=
            List.mem_map_of_mem (List.mem_filter.mpr ⟨hx, by simpa using hx0⟩)
          have hlen : ((pool.records.filter fun x => x.r = 0).map Record.m).length ≤ batchSize := by
            rw [unusedBatch, List.length_take] at hfull
            omega
          rw [hxm, unusedBatch, List.take_of_length_le hlen] at hnot
          exact hnot hall
        · obtain ⟨x, hx, hxs, hxm, hxr, -⟩ := hold y hy
          exact ⟨x, hx, hxs, hxm, hxr⟩

end Unused

end LcClibs.Memory.Counting
