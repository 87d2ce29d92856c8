import Mathlib
import LcClibs.Memory.Counting
import LcClibs.Mmo.Containers

namespace LcClibs.Mmo.Ownership

open Platform Lib.Runs Memory.Managed Memory.Safety Memory.Counting Mmo.Containers

section Invariant

/-- What may stop a run: null where memory is refused, and where an object is not of the class that
the operation is for, a list is empty or a key has no value; a list that would get 2^31 elements. -/
def NotFreed : Stop → Prop
  | .fault .nullDeref | .fault (.writeOutside _) | .endless => True
  | .outOfFuel | .useAfterFree _ | .fault (.readOutside _) => False

def IsItem (s : Store) (mem : Nat) : Prop :=
  ∃ x ∈ s.pool.records, x.m = mem ∧ ∃ key value, s.objects x.serial = .mmMapItem key value

def IsMap (object : Object) : Prop := ∃ sorted items, object = .mmMap sorted items

/-- Maps hold items, nothing else holds an item, and an item has one owner. -/
structure Tables (D : List Nat) (s : Store) : Prop where
  items : ∀ n ∈ s.pool.serials, n ∉ D → IsMap (s.objects n) → ∀ a ∈ s.owned n, IsItem s a
  apart : ∀ n ∈ s.pool.serials, ¬IsMap (s.objects n) → ∀ a ∈ s.owned n, ¬IsItem s a
  once : ∀ x ∈ s.pool.records, IsItem s x.m → x.r = 1

/-- What holds between two steps of an operation, with the owners there are at that time,
the operation among them, and the releases it has still to make. -/
structure Sound (D : List Nat) (held : Owners) (pend : List Nat) (s : Store) : Prop where
  inv : Inv ∅ s.pool
  law : Law s.owned D held pend s.pool
  tables : Tables D s

/-- The counts leave room for the retains in a list. -/
def Room (mems : List Nat) (s : Store) : Prop :=
  ∀ x ∈ s.pool.records, x.r + mems.count x.m < 2 ^ 64

def Valid (s : Store) (mem : Nat) : Prop := mem = 0 ∨ mem ∈ s.pool.live ∧ ¬IsItem s mem

end Invariant

section Reading

variable {D : List Nat} {held : Owners} {pend : List Nat} {s : Store} {mem : Nat} {x : Record}

theorem Sound.ne_zero (h : Sound D held pend s) (hm : mem ∈ s.pool.live) : mem ≠ 0 := by
  rintro rfl
  exact h.inv.null_not_live hm

theorem Sound.objectAt (h : Sound D held pend s) (hx : x ∈ s.pool.records) :
    s.objectAt x.m = some (s.objects x.serial) := by
  rw [Store.objectAt, h.inv.find_of_mem hx]
  rfl

theorem Sound.deref (h : Sound D held pend s) (hx : x ∈ s.pool.records) :
    deref x.m s = .ok (s.objects x.serial) := by
  rw [Containers.deref, if_neg (h.ne_zero (List.mem_map_of_mem hx)), h.objectAt hx]

theorem Sound.assign (h : Sound D held pend s) (hx : x ∈ s.pool.records) (object : Object) :
    assign x.m object s =
      .ok { s with objects := Function.update s.objects x.serial object } := by
  rw [Containers.assign, h.inv.find_of_mem hx]

theorem isItem_iff (h : Sound D held pend s) (hx : x ∈ s.pool.records) :
    IsItem s x.m ↔ ∃ key value, s.objects x.serial = .mmMapItem key value := by
  constructor
  · rintro ⟨y, hy, hm, hkv⟩
    rw [← h.law.eq_of_mem hx hy hm]
    exact hkv
  · exact fun hkv => ⟨x, hx, rfl, hkv⟩

theorem IsItem.live (h : IsItem s mem) : mem ∈ s.pool.live := by
  obtain ⟨x, hx, rfl, -⟩ := h
  exact List.mem_map_of_mem hx

theorem Tables.pool {pool : Pool} (h : Tables D s) (hnd : s.pool.live.Nodup)
    (hold : ∀ y ∈ pool.records, ∃ x ∈ s.pool.records, y.serial = x.serial ∧ y.m = x.m ∧
      (IsItem s x.m → y.r = x.r))
    (hlive : ∀ n ∈ pool.serials, n ∉ D → ∀ a ∈ s.owned n, a ∈ pool.live) :
    Tables D ⟨pool, s.objects⟩ := by
  have hback : ∀ {a}, IsItem ⟨pool, s.objects⟩ a → IsItem s a := by
    rintro a ⟨y, hy, rfl, hkv⟩
    obtain ⟨x, hx, hs, hm, -⟩ := hold y hy
    rw [hs] at hkv
    exact ⟨x, hx, hm.symm, hkv⟩
  have hser : ∀ n ∈ pool.serials, n ∈ s.pool.serials := by
    intro n hn
    obtain ⟨y, hy, rfl⟩ := List.mem_map.mp hn
    obtain ⟨x, hx, hs, -⟩ := hold y hy
    rw [hs]
    exact serial_mem hx
  refine ⟨fun n hn hD hmap a ha => ?_, fun n hn hmap a ha hit => ?_, fun y hy hit => ?_⟩
  · obtain ⟨x, hx, hxa, hkv⟩ := h.items n (hser n hn) hD hmap a ha
    obtain ⟨y, hy, hya⟩ := List.mem_map.mp (hlive n hn hD a ha)
    obtain ⟨z, hz, hs, hm, -⟩ := hold y hy
    obtain rfl := List.inj_on_of_nodup_map hnd hx hz (by rw [hxa, ← hm, hya])
    exact ⟨y, hy, hya, hs ▸ hkv⟩
  · exact h.apart n (hser n hn) hmap a ha (hback hit)
  · obtain ⟨x, hx, hs, hm, hr⟩ := hold y hy
    have hix : IsItem s x.m := hm ▸ hback hit
    rw [hr hix]
    exact h.once x hx hix

end Reading

section Calls

variable {D : List Nat} {held held' : Owners} {pend : List Nat} {s : Store} {mem : Nat}
  {mems : List Nat} {x : Record}

theorem Sound.congr (h : Sound D held pend s) (hsame : ∀ a, held' a = held a) :
    Sound D held' pend s := by
  obtain rfl : held' = held := funext hsame
  exact h

structure Retained (mem : Nat) (s s' : Store) : Prop where
  objects : s'.objects = s.objects
  serials : s'.pool.serials = s.pool.serials
  live : s'.pool.live = s.pool.live
  counts : ∀ y ∈ s'.pool.records, ∃ x ∈ s.pool.records, y.serial = x.serial ∧ y.m = x.m ∧
    y.r = x.r + [mem].count x.m

theorem retainMmobj_ok (h : Sound D held pend s) (hm : Valid s mem) (hroom : Room [mem] s) :
    ∃ s', retainMmobj mem s = .ok s' ∧ Sound D (held.take mem) pend s' ∧ Retained mem s s' := by
  by_cases h0 : mem = 0
  · subst h0
    refine ⟨s, rfl, h.congr fun a => by simp [Owners.take], rfl, rfl, rfl, fun y hy => ?_⟩
    have hne := h.ne_zero (List.mem_map_of_mem hy)
    exact ⟨y, hy, rfl, rfl, by simp [hne.symm]⟩
  · obtain ⟨hlive, hitem⟩ := hm.resolve_left h0
    obtain ⟨x, hx, rfl, hf⟩ := h.law.find_of_live hlive
    have hmax : x.r + 1 < 2 ^ 64 := by simpa using hroom x hx
    have hcount : ∀ y ∈ (s.pool.update x.serial fun y => { y with r := sizeT (y.r + 1) }).records,
        ∃ z ∈ s.pool.records, y.serial = z.serial ∧ y.m = z.m ∧ y.r = z.r + [x.m].count z.m := by
      intro y hy
      obtain ⟨z, hz, rfl⟩ := mem_update_iff.mp hy
      by_cases he : z.serial = x.serial
      · obtain rfl := h.law.eq_of_serial hx hz he
        simp only [if_true]
        exact ⟨z, hz, rfl, rfl, by rw [List.count_singleton_self]; exact Nat.mod_eq_of_lt hmax⟩
      · rw [if_neg he]
        have hne : x.m ≠ z.m := fun hzm => he (by rw [h.law.eq_of_mem hx hz hzm.symm])
        exact ⟨z, hz, rfl, rfl, by simp [hne]⟩
    refine ⟨{ s with pool := s.pool.update x.serial fun y => { y with r := sizeT (y.r + 1) } },
      ?_, ?_, rfl, serials_update fun _ => rfl, live_update fun _ => rfl, hcount⟩
    · rw [retainMmobj, if_neg h0, bind_ok (h.deref hx), mgnMemRetain, hf]
      rfl
    · have hlaw : Law s.owned D (held.take x.m) pend _ :=
        h.law.retain hx hmax fun a => by by_cases ha : a = x.m <;> simp [Owners.take, ha, h0]
      refine ⟨h.inv.update (fun _ => rfl) (fun _ => rfl) (Set.notMem_empty _), hlaw, ?_⟩
      refine h.tables.pool h.law.live_nodup (fun y hy => ?_) hlaw.slots_live
      obtain ⟨z, hz, hs, hzm, hr⟩ := hcount y hy
      refine ⟨z, hz, hs, hzm, fun hit => ?_⟩
      have hne : x.m ≠ z.m := fun he => hitem (he ▸ hit)
      rw [hr, List.count_eq_zero.mpr (by simpa using hne.symm), Nat.add_zero]

theorem Retained.isItem {s' : Store} (h : Retained mem s s') {a : Nat} :
    IsItem s' a → IsItem s a := by
  rintro ⟨y, hy, rfl, hkv⟩
  obtain ⟨x, hx, hs, hm, -⟩ := h.counts y hy
  rw [h.objects, hs] at hkv
  exact ⟨x, hx, hm.symm, hkv⟩

theorem Retained.valid {s' : Store} (h : Retained mem s s') {a : Nat} (ha : Valid s a) :
    Valid s' a := by
  refine ha.imp_right fun ⟨hl, hit⟩ => ⟨by rw [h.live]; exact hl, fun hit' => hit (h.isItem hit')⟩

theorem Retained.room {s' : Store} (h : Retained mem s s') (hroom : Room (mem :: mems) s) :
    Room mems s' := by
  intro y hy
  obtain ⟨x, hx, -, hm, hr⟩ := h.counts y hy
  have hx' := hroom x hx
  rw [List.count_cons] at hx'
  rw [hm, hr, List.count_singleton]
  omega

theorem Room.mono {l l' : List Nat} (h : Room l s) (hsub : ∀ a, l'.count a ≤ l.count a) :
    Room l' s :=
  fun x hx => lt_of_le_of_lt (Nat.add_le_add_left (hsub x.m) _) (h x hx)

structure Released (D : List Nat) (held : Owners) (pend : List Nat) (s s' : Store) : Prop where
  objects : s'.objects = s.objects
  swept : Swept s.owned D held pend s.pool s'.pool

theorem releaseMmobj_ok (h : Sound D held (notNull [mem] ++ pend) s) :
    ∃ s', releaseMmobj mem s = .ok s' ∧ Sound D held pend s' ∧ Released D held pend s s' := by
  by_cases h0 : mem = 0
  · subst h0
    exact ⟨s, rfl, h, rfl, Swept.refl h.law⟩
  · have hmem : notNull [mem] ++ pend = mem :: pend := by simp [notNull, h0]
    rw [hmem] at h
    obtain ⟨x, hx, rfl, -⟩ := h.law.find_of_live (h.law.pend_live mem List.mem_cons_self)
    obtain ⟨pool, hrun, hinv⟩ := @mgnMemReleaseWCb_released s.owned _ _ x.m h.inv
    have hs := mgnMemReleaseImpl_swept _ h.law hrun
    have hold : ∀ y ∈ pool.records, ∃ x ∈ s.pool.records, y.serial = x.serial ∧ y.m = x.m ∧
        (IsItem s x.m → y.r = x.r) := by
      intro y hy
      obtain ⟨z, hz, hsr, hzm, hle, hpos⟩ := hs.old y hy
      refine ⟨z, hz, hsr, hzm, fun hit => ?_⟩
      have h1 := h.tables.once z hz hit
      omega
    refine ⟨{ s with pool := pool }, ?_, ⟨hinv.inv, hs.law,
      h.tables.pool h.law.live_nodup hold hs.law.slots_live⟩, rfl, hs⟩
    rw [releaseMmobj, if_neg h0, bind_ok (h.deref hx), bind_ok hrun]
    rfl

theorem Released.isItem {s' : Store} (h : Released D held pend s s') {a : Nat} :
    IsItem s' a → IsItem s a := by
  rintro ⟨y, hy, rfl, hkv⟩
  obtain ⟨x, hx, hs, hm, -⟩ := h.swept.old y hy
  rw [h.objects, hs] at hkv
  exact ⟨x, hx, hm.symm, hkv⟩

theorem Released.stays {s' : Store} (h : Released D held pend s s') (hx : x ∈ s.pool.records)
    (hnd : ∀ y ∈ s.pool.records, y.serial = x.serial → y = x)
    (hkeep : ¬Doomed s.owned D held s.pool x.serial) :
    ∃ y ∈ s'.pool.records, y.serial = x.serial ∧ y.m = x.m := by
  by_contra hno
  refine hkeep (h.swept.doomed x.serial (serial_mem hx) fun hmem => hno ?_)
  obtain ⟨y, hy, hs⟩ := List.mem_map.mp hmem
  obtain ⟨z, hz, hzs, hzm, -⟩ := h.swept.old y hy
  rw [hnd z hz (by rw [← hzs, hs])] at hzm
  exact ⟨y, hy, hs, hzm⟩

theorem Released.trans {s' s'' : Store} {pend' : List Nat} (h : Released D held pend s s')
    (h' : Released D held pend' s' s'') : Released D held pend' s s'' := by
  have hown : s'.owned = s.owned := by
    funext n
    rw [Store.owned, Store.owned, h.objects]
  exact ⟨h'.objects.trans h.objects, h.swept.trans (hown ▸ h'.swept)⟩

/-- Giving an ownership up to the next sweep frees nothing. -/
theorem autoreleaseMmobj_ok (h : Sound D held (notNull [mem] ++ pend) s) (hm : Valid s mem) :
    ∃ s', autoreleaseMmobj mem s = .ok s' ∧ Sound D held pend s' ∧
      ∀ a, IsItem s' a → IsItem s a := by
  by_cases h0 : mem = 0
  · subst h0
    exact ⟨s, rfl, h, fun a ha => ha⟩
  · have hmem : notNull [mem] ++ pend = mem :: pend := by simp [notNull, h0]
    rw [hmem] at h
    obtain ⟨-, hitem⟩ := hm.resolve_left h0
    obtain ⟨x, hx, rfl, hf⟩ := h.law.find_of_live (h.law.pend_live mem List.mem_cons_self)
    have hc := h.law.count x hx
    rw [List.count_cons_self] at hc
    have hr0 : x.r ≠ 0 := by omega
    have hlaw : Law s.owned D held pend (s.pool.update x.serial giveUp) := h.law.release hx rfl
    have hrun : mgnMemAutoreleaseWCb s.owned s.pool x.m = .ok (s.pool.update x.serial giveUp) := by
      simp only [mgnMemAutoreleaseWCb, mgnMemReleaseImpl, hf, if_neg hr0, Bool.false_eq_true,
        and_false, if_false]
      rfl
    refine ⟨{ s with pool := s.pool.update x.serial giveUp }, ?_,
      ⟨h.inv.update (fun _ => rfl) (fun _ => rfl) (Set.notMem_empty _), hlaw, ?_⟩, ?_⟩
    · rw [autoreleaseMmobj, if_neg h0, bind_ok (h.deref hx), bind_ok hrun]
      rfl
    · refine h.tables.pool h.law.live_nodup (fun y hy => ?_) hlaw.slots_live
      obtain ⟨z, hz, hs, hzm, -, hne, -⟩ := mem_giveUp h.law hx hy
      refine ⟨z, hz, hs, hzm, fun hit => ?_⟩
      rw [hne fun he => hitem (by rw [← h.law.eq_of_serial hx hz he]; exact hit)]
    · rintro a ⟨y, hy, rfl, hkv⟩
      obtain ⟨z, hz, hs, hzm, -⟩ := mem_giveUp h.law hx hy
      rw [hs] at hkv
      exact ⟨z, hz, hzm.symm, hkv⟩

end Calls

section Writing

variable {D : List Nat} {held held' : Owners} {pend pend' : List Nat} {s : Store} {n : Nat}
  {object : Object}

def written (s : Store) (n : Nat) (object : Object) : Store :=
  { s with objects := Function.update s.objects n object }

theorem write_owned (s : Store) (n : Nat) (object : Object) :
    (written s n object).owned n = object.slots := by
  simp [written, Store.owned]

theorem write_owned_ne {k : Nat} (h : k ≠ n) : (written s n object).owned k = s.owned k := by
  simp [written, Store.owned, h]

theorem write_objects_ne {k : Nat} (h : k ≠ n) :
    (written s n object).objects k = s.objects k := by
  simp [written, h]

def SameKind (object object' : Object) : Prop :=
  (∃ key value, object = .mmMapItem key value) ↔ ∃ key value, object' = .mmMapItem key value

theorem isItem_write (hkind : SameKind object (s.objects n)) {a : Nat} :
    IsItem (written s n object) a ↔ IsItem s a := by
  have hone : ∀ x : Record, (∃ key value, (written s n object).objects x.serial =
      .mmMapItem key value) ↔ ∃ key value, s.objects x.serial = .mmMapItem key value := by
    intro x
    by_cases hx : x.serial = n
    · rw [hx]
      simp only [written, Function.update_self]
      exact hkind
    · rw [write_objects_ne hx]
  constructor
  · rintro ⟨x, hx, hm, hkv⟩
    exact ⟨x, hx, hm, (hone x).mp hkv⟩
  · rintro ⟨x, hx, hm, hkv⟩
    exact ⟨x, hx, hm, (hone x).mpr hkv⟩

def Fits (s : Store) (object : Object) : Prop :=
  ∀ a ∈ object.slots, IsItem s a ↔ IsMap object

theorem Tables.write (h : Tables D s) (hkind : SameKind object (s.objects n))
    (hfits : Fits s object) : Tables D (written s n object) := by
  refine ⟨fun k hk hD hmap a ha => ?_, fun k hk hmap a ha hit => ?_, fun x hx hit => ?_⟩
  · rw [isItem_write hkind]
    by_cases hkn : k = n
    · subst hkn
      rw [write_owned] at ha
      simp only [written, Function.update_self] at hmap
      exact (hfits a ha).mpr hmap
    · rw [write_owned_ne hkn] at ha
      rw [write_objects_ne hkn] at hmap
      exact h.items k hk hD hmap a ha
  · rw [isItem_write hkind] at hit
    by_cases hkn : k = n
    · subst hkn
      rw [write_owned] at ha
      simp only [written, Function.update_self] at hmap
      exact hmap ((hfits a ha).mp hit)
    · rw [write_owned_ne hkn] at ha
      rw [write_objects_ne hkn] at hmap
      exact h.apart k hk hmap a ha hit
  · exact h.once x hx ((isItem_write hkind).mp hit)

/-- The slots of a block are written anew, and what they gain or lose the owners and
the releases to come lose or gain. -/
theorem Sound.write (h : Sound D held pend s) (hn : n ∈ s.pool.serials) (hD : n ∉ D)
    (hkind : SameKind object (s.objects n)) (hfits : Fits s object)
    (hsum : ∀ a, held' a + pend'.count a + object.slots.count a =
      held a + pend.count a + (s.owned n).count a)
    (hD' : ∀ x ∈ s.pool.records, x.serial ∈ D → 0 < held x.m → 0 < held' x.m) :
    Sound D held' pend' (written s n object) :=
  ⟨h.inv, h.law.change hn hD (fun k hk => write_owned_ne hk)
    (fun a => by rw [write_owned]; exact hsum a) hD', h.tables.write hkind hfits⟩

theorem retainMmobj_write (mem : Nat) :
    retainMmobj mem (written s n object) =
      (retainMmobj mem s).map fun s' => written s' n object := by
  by_cases h0 : mem = 0
  · simp only [retainMmobj, if_pos h0]
    rfl
  · simp only [retainMmobj, if_neg h0, deref, Store.objectAt, written]
    cases s.pool.find mem with
    | none => rfl
    | some x => rfl

theorem retainAll_write (mems : List Nat) :
    mems.foldlM (fun s item => retainMmobj item s) (written s n object) =
      (mems.foldlM (fun s item => retainMmobj item s) s).map fun s' => written s' n object := by
  induction mems generalizing s with
  | nil => rfl
  | cons mem mems ih =>
    rw [List.foldlM_cons, List.foldlM_cons, retainMmobj_write]
    cases retainMmobj mem s with
    | error e => rfl
    | ok s1 => exact ih

theorem retainAll_ok {mems : List Nat} (h : Sound D held pend s) (hm : ∀ a ∈ mems, Valid s a)
    (hroom : Room mems s) :
    ∃ s', mems.foldlM (fun s item => retainMmobj item s) s = .ok s' ∧
      Sound D (fun a => held a + (notNull mems).count a) pend s' ∧ s'.objects = s.objects ∧
      s'.pool.serials = s.pool.serials ∧ ∀ a, IsItem s' a → IsItem s a := by
  induction mems generalizing s held with
  | nil => exact ⟨s, rfl, h, rfl, rfl, fun a ha => ha⟩
  | cons mem mems ih =>
    obtain ⟨s1, h1, hs1, hr1⟩ := retainMmobj_ok h (hm mem List.mem_cons_self)
      (hroom.mono fun a => by simp [List.count_cons])
    obtain ⟨s2, h2, hs2, ho2, hser2, hit2⟩ := ih hs1
      (fun a ha => hr1.valid (hm a (List.mem_cons_of_mem _ ha))) (hr1.room hroom)
    refine ⟨s2, by rw [List.foldlM_cons, bind_ok h1, h2], hs2.congr fun a => ?_,
      ho2.trans hr1.objects, hser2.trans hr1.serials, fun a ha => hr1.isItem (hit2 a ha)⟩
    by_cases h0 : mem = 0
    · simp [notNull, h0, Owners.take]
    · by_cases ha : a = mem
      · subst ha
        simp [notNull, h0, Owners.take]
        omega
      · simp [notNull, h0, Owners.take, ha, Ne.symm ha]

end Writing

section Lists

variable {held : Owners} {s : Store} {mem item : Nat}

theorem reserveLoop_meets (fuel need n : Nat) :
    Meets NotFreed (fun _ => True) (reserveLoop fuel need n) := by
  induction fuel generalizing n with
  | zero => exact trivial
  | succ fuel ih =>
    rw [reserveLoop]
    by_cases h : need > n
    · rw [if_pos h]
      exact ih _
    · rw [if_neg h]
      exact trivial

theorem utarrayReserve_meets (i n count : Nat) :
    Meets NotFreed (fun _ => True) (utarrayReserve i n count) := by
  refine (reserveLoop_meets _ _ _).bind fun n' _ => ?_
  by_cases h : n' < i + count
  · simp only [if_pos h]
    exact trivial
  · simp only [if_neg h]
    exact trivial

theorem utarrayResize_meets (list : List Nat) (n num : Nat) :
    Meets NotFreed (fun p => p.1 = list ++ List.replicate (num - list.length) 0)
      (utarrayResize list n num) :=
  (utarrayReserve_meets _ _ _).bind fun _ _ => rfl

theorem deref_meets (h : Sound [] held [] s) (hm : Valid s mem) :
    Meets NotFreed (fun object => ∃ x ∈ s.pool.records, x.m = mem ∧ s.objects x.serial = object)
      (deref mem s) := by
  obtain rfl | ⟨hlive, -⟩ := hm
  · exact trivial
  · obtain ⟨x, hx, rfl⟩ := List.mem_map.mp hlive
    exact Meets.ok (h.deref hx) ⟨x, hx, rfl, rfl⟩

theorem toMMList_meets (h : Sound [] held [] s) (hm : Valid s mem) :
    Meets NotFreed (fun p => ∃ x ∈ s.pool.records, x.m = mem ∧
      s.objects x.serial = .mmList p.1 p.2) (toMMList mem s) := by
  refine (deref_meets h hm).bind fun object ⟨x, hx, hxm, ho⟩ => ?_
  cases object with
  | mmList list n => exact ⟨x, hx, hxm, ho⟩
  | _ => exact trivial

theorem sameKind_mmList {list list' : List Nat} {n n' : Nat} :
    SameKind (.mmList list n) (.mmList list' n') := by
  simp [SameKind]

theorem fits_mmList {list : List Nat} {n : Nat} (h : ∀ a ∈ notNull list, ¬IsItem s a) :
    Fits s (.mmList list n) := by
  intro a ha
  simp [h a ha, IsMap]

theorem notItem_entry {x : Record} {list : List Nat} {n : Nat} (h : Sound [] held [] s)
    (hx : x ∈ s.pool.records) (ho : s.objects x.serial = .mmList list n) :
    ∀ a ∈ notNull list, ¬IsItem s a := by
  intro a ha
  refine h.tables.apart x.serial (serial_mem hx) ?_ a ?_
  · rw [ho]
    simp [IsMap]
  · rw [Store.owned, ho]
    exact ha

def Keeps (held : Owners) (s s' : Store) : Prop :=
  Sound [] held [] s' ∧ ∀ a, IsItem s' a → IsItem s a

theorem fill_meets {x : Record} {list : List Nat} {n : Nat} (list' w : List Nat) (n' : Nat)
    (h : Sound [] held [] s)
    (hx : x ∈ s.pool.records) (ho : s.objects x.serial = .mmList list n)
    (hcount : ∀ a, (notNull list').count a = (notNull list).count a + (notNull w).count a)
    (hw : ∀ a ∈ w, Valid s a) (hroom : Room w s) :
    Meets NotFreed (Keeps held s) (assign x.m (.mmList list' n') s >>= fun s =>
      w.foldlM (fun s item => retainMmobj item s) s) := by
  obtain ⟨s1, h1, hs1, ho1, hser, hit⟩ := retainAll_ok h hw hroom
  have hkind : SameKind (.mmList list' n') (s1.objects x.serial) := by
    rw [ho1, ho]
    exact sameKind_mmList
  refine Meets.ok (a := written s1 x.serial (.mmList list' n')) ?_ ⟨?_, fun a ha => ?_⟩
  · rw [bind_ok (h.assign hx _)]
    exact (retainAll_write w).trans (by rw [h1]; rfl)
  · refine hs1.write (by rw [hser]; exact serial_mem hx) List.not_mem_nil hkind
      (fits_mmList fun a ha hia => ?_) (fun a => ?_) fun _ _ hD => absurd hD List.not_mem_nil
    · have hpos := List.count_pos_iff.mpr ha
      rw [hcount] at hpos
      obtain h0 | h0 : 0 < (notNull list).count a ∨ 0 < (notNull w).count a := by omega
      · exact notItem_entry h hx ho a (List.count_pos_iff.mp h0) (hit a hia)
      · obtain ⟨haw, hne⟩ := List.mem_filter.mp (List.count_pos_iff.mp h0)
        obtain h0 | ⟨-, hno⟩ := hw a haw
        · simp [h0] at hne
        · exact hno (hit a hia)
    · have hown : s1.owned x.serial = notNull list := by
        rw [Store.owned, ho1, ho]
        rfl
      rw [hown]
      simp only [Object.slots, hcount, List.count_nil]
      omega
  · exact hit a ((isItem_write hkind).mp ha)

theorem pushMMListItem_meets (h : Sound [] held [] s) (hm : Valid s mem) (hi : Valid s item)
    (hroom : Room [item] s) : Meets NotFreed (Keeps held s) (pushMMListItem mem item s) := by
  refine (toMMList_meets h hm).bind fun ⟨list, n⟩ ⟨x, hx, hxm, ho⟩ => ?_
  refine (utarrayReserve_meets _ _ _).bind fun n' _ => ?_
  subst hxm
  have hfill := fill_meets (list ++ [item]) [item] n' h hx ho
    (fun a => by simp [notNull]) (by simpa using hi) hroom
  simpa using hfill

theorem fillGap_meets (list : List Nat) (n idx : Nat) :
    Meets NotFreed (fun p => idx ≤ p.1.length ∧
      ∀ a, (notNull p.1).count a = (notNull list).count a) (fillGap list n idx) := by
  rw [fillGap]
  by_cases hgt : idx > list.length
  · rw [if_pos hgt]
    refine (utarrayResize_meets _ _ _).imp fun p hp => ?_
    have hnull : notNull (List.replicate (idx - list.length) 0) = [] := by simp [notNull]
    rw [hp]
    refine ⟨by rw [List.length_append, List.length_replicate]; omega, fun a => ?_⟩
    simp only [notNull, List.filter_append] at hnull ⊢
    rw [hnull, List.append_nil]
  · rw [if_neg hgt]
    exact ⟨Nat.le_of_not_lt hgt, fun a => rfl⟩

theorem insertMMListItem_meets (idx : Nat) (h : Sound [] held [] s) (hm : Valid s mem)
    (hi : Valid s item) (hroom : Room [item] s) :
    Meets NotFreed (Keeps held s) (insertMMListItem mem item idx s) := by
  refine (toMMList_meets h hm).bind fun ⟨list, n⟩ ⟨x, hx, hxm, ho⟩ => ?_
  refine (fillGap_meets _ _ _).bind fun ⟨list', n'⟩ ⟨hle, hcount⟩ => ?_
  refine (utarrayReserve_meets _ _ _).bind fun n'' _ => ?_
  subst hxm
  have hfill := fill_meets (list'.insertIdx (uint idx) item) [item] n'' h hx ho
    (fun a => ?_) (by simpa using hi) hroom
  · simpa using hfill
  · have hperm := ((List.perm_insertIdx item list' hle).filter fun mem => mem ≠ 0).count_eq a
    rw [← hcount, notNull, hperm, ← List.singleton_append, List.filter_append, List.count_append,
      Nat.add_comm]
    rfl

theorem concatMMList_meets {aList : Nat} (h : Sound [] held [] s) (hm : Valid s mem)
    (ha : Valid s aList)
    (hroom : ∀ list n, s.objectAt aList = some (.mmList list n) → Room list s) :
    Meets NotFreed (Keeps held s) (concatMMList mem aList s) := by
  refine (toMMList_meets h ha).bind fun ⟨w, m⟩ ⟨y, hy, hym, hoy⟩ => ?_
  refine (toMMList_meets h hm).bind fun ⟨list, n⟩ ⟨x, hx, hxm, ho⟩ => ?_
  subst hym hxm
  by_cases h0 : w.length = 0
  · simp only [if_pos h0]
    exact ⟨h, fun a ha => ha⟩
  · simp only [if_neg h0]
    refine (utarrayReserve_meets _ _ _).bind fun n' _ => ?_
    refine fill_meets (list ++ w) w n' h hx ho (fun a => by simp [notNull]) (fun a haw => ?_)
      (hroom w m (by rw [h.objectAt hy, hoy]))
    by_cases ha0 : a = 0
    · exact Or.inl ha0
    · have hmem : a ∈ notNull w := List.mem_filter.mpr ⟨haw, by simpa using ha0⟩
      refine Or.inr ⟨h.law.slots_live y.serial (serial_mem hy) List.not_mem_nil a ?_,
        notItem_entry h hy hoy a hmem⟩
      rw [Store.owned, hoy]
      exact hmem

end Lists

section Pops

variable {held : Owners} {pend pend' : List Nat} {s : Store} {mem : Nat}

theorem Sound.shift {held' : Owners} (h : Sound [] held pend s)
    (hsum : ∀ a, held' a + pend'.count a = held a + pend.count a) : Sound [] held' pend' s :=
  ⟨h.inv, h.law.shift hsum, h.tables⟩

theorem Retained.record {s' : Store} {x : Record} (h : Retained mem s s')
    (hs : Sound [] held pend s) (hx : x ∈ s.pool.records) :
    ∃ y ∈ s'.pool.records, y.serial = x.serial ∧ y.m = x.m := by
  have hm : x.m ∈ s'.pool.live := by
    rw [h.live]
    exact List.mem_map_of_mem hx
  obtain ⟨y, hy, hym⟩ := List.mem_map.mp hm
  obtain ⟨z, hz, hsr, hzm, -⟩ := h.counts y hy
  rw [hs.law.eq_of_mem hx hz (by rw [← hzm, hym])] at hsr
  exact ⟨y, hy, hsr, hym⟩

theorem take_count (held : Owners) (mem a : Nat) :
    held.take mem a = held a + (notNull [mem]).count a := by
  by_cases h0 : mem = 0
  · simp [Owners.take, notNull, h0]
  · by_cases ha : a = mem
    · subst ha
      simp [Owners.take, notNull, h0]
    · simp [Owners.take, notNull, h0, ha, Ne.symm ha]

theorem popMMListItem_meets (h : Sound [] held [] s) (hm : Valid s mem)
    (hroom : ∀ list n item, s.objectAt mem = some (.mmList list n) → list.getLast? = some item →
      Room [item] s) :
    Meets NotFreed (fun p => Keeps held s p.2) (popMMListItem mem s) := by
  refine (toMMList_meets h hm).bind fun ⟨list, n⟩ ⟨x, hx, hxm, ho⟩ => ?_
  subst hxm
  cases hlast : list.getLast? with
  | none =>
    simp only [hlast]
    exact trivial
  | some item =>
    simp only [hlast]
    have hlist : list = list.dropLast ++ [item] := (List.dropLast_append_getLast? item hlast).symm
    have hcount : ∀ a, (notNull list).count a =
        (notNull list.dropLast).count a + (notNull [item]).count a := by
      intro a
      conv_lhs => rw [hlist]
      rw [notNull, List.filter_append, List.count_append]
      rfl
    have hvalid : Valid s item := by
      by_cases h0 : item = 0
      · exact Or.inl h0
      · have hmem : item ∈ notNull list := by
          rw [hlist, notNull, List.filter_append, List.mem_append]
          exact Or.inr (by simp [h0])
        refine Or.inr ⟨h.law.slots_live x.serial (serial_mem hx) List.not_mem_nil item ?_,
          notItem_entry h hx ho item hmem⟩
        rw [Store.owned, ho]
        exact hmem
    obtain ⟨s1, h1, hs1, hr1⟩ := retainMmobj_ok h hvalid
      (hroom list n item (by rw [h.objectAt hx, ho]) hlast)
    obtain ⟨x1, hx1, hxs, hxm⟩ := hr1.record h hx
    have hkind : SameKind (.mmList list.dropLast n) (s1.objects x.serial) := by
      rw [hr1.objects, ho]
      exact sameKind_mmList
    have hs2 : Sound [] (held.take item) (notNull [item])
        (written s1 x.serial (.mmList list.dropLast n)) := by
      refine hs1.write (hxs ▸ serial_mem hx1) List.not_mem_nil hkind
        (fits_mmList fun a ha hia => ?_) (fun a => ?_) fun _ _ hD => absurd hD List.not_mem_nil
      · refine notItem_entry h hx ho a ?_ (hr1.isItem hia)
        have hpos := List.count_pos_iff.mpr ha
        exact List.count_pos_iff.mp (by rw [hcount]; omega)
      · have hown : s1.owned x.serial = notNull list := by
          rw [Store.owned, hr1.objects, ho]
          rfl
        rw [hown, hcount, List.count_nil]
        simp only [Object.slots]
        omega
    obtain ⟨s3, h3, hs3, hr3⟩ := @releaseMmobj_ok _ _ [] _ item (by simpa using hs2)
    have hs3' : Sound [] held (notNull [item] ++ []) s3 :=
      hs3.shift fun a => by rw [take_count, List.append_nil, List.count_nil, Nat.add_zero]
    have hitem : ∀ a, IsItem s3 a → IsItem s a := fun a ha =>
      hr1.isItem ((isItem_write hkind).mp (hr3.isItem ha))
    have hvalid3 : Valid s3 item := by
      by_cases h0 : item = 0
      · exact Or.inl h0
      · exact Or.inr ⟨hs3'.law.pend_live item (by simp [notNull, h0]),
          fun hit => (hvalid.resolve_left h0).2 (hitem item hit)⟩
    obtain ⟨s4, h4, hs4, hit4⟩ := autoreleaseMmobj_ok hs3' hvalid3
    refine Meets.ok (a := (item, s4)) ?_ ⟨hs4, fun a ha => hitem a (hit4 a ha)⟩
    have hwrite : assign x.m (.mmList list.dropLast n) s1 =
        .ok (written s1 x.serial (.mmList list.dropLast n)) := by
      rw [← hxm, ← hxs]
      exact hs1.assign hx1 _
    rw [bind_ok h1, bind_ok hwrite, bind_ok h3, bind_ok h4]
    rfl

end Pops

section Allocation

variable {malloc : Malloc} {sizeOf : Object → Nat} {held : Owners} {s : Store} {object : Object}

structure Allocated (object : Object) (mem : Nat) (s s' : Store) : Prop where
  fresh : mem ∉ s.pool.live
  new : ∃ x ∈ s'.pool.records, x.m = mem ∧ x.serial ∉ s.pool.serials ∧
    s'.objects x.serial = object
  old : ∀ x ∈ s.pool.records, x ∈ s'.pool.records ∧ s'.objects x.serial = s.objects x.serial
  only : ∀ x ∈ s'.pool.records, x ∈ s.pool.records ∨ x.m = mem ∧ x.r = 1 ∧
    s'.objects x.serial = object

theorem Allocated.isItem {mem a : Nat} {s' : Store} (h : Allocated object mem s s')
    (ha : IsItem s' a) : IsItem s a ∨ a = mem ∧ ∃ key value, object = .mmMapItem key value := by
  obtain ⟨x, hx, rfl, hkv⟩ := ha
  obtain hx | ⟨hm, -, ho⟩ := h.only x hx
  · rw [(h.old x hx).2] at hkv
    exact Or.inl ⟨x, hx, rfl, hkv⟩
  · exact Or.inr ⟨hm, ho ▸ hkv⟩

theorem Allocated.valid {mem a : Nat} {s' : Store} (h : Allocated object mem s s')
    (ha : Valid s a) : Valid s' a := by
  refine ha.imp_right fun ⟨hl, hit⟩ => ?_
  obtain ⟨x, hx, rfl⟩ := List.mem_map.mp hl
  refine ⟨List.mem_map_of_mem (h.old x hx).1, fun hit' => ?_⟩
  obtain hia | ⟨rfl, -⟩ := h.isItem hit'
  · exact hit hia
  · exact h.fresh hl

theorem Allocated.room {mem : Nat} {mems : List Nat} {s' : Store} (h : Allocated object mem s s')
    (h0 : mem ≠ 0) (hm : ∀ a ∈ mems, Valid s a) (hroom : Room mems s) : Room mems s' := by
  intro x hx
  obtain hx | ⟨hxm, hr, -⟩ := h.only x hx
  · exact hroom x hx
  · have hnot : x.m ∉ mems := by
      intro hmem
      rw [hxm] at hmem
      obtain hz | ⟨hl, -⟩ := hm mem hmem
      · exact h0 hz
      · exact h.fresh hl
    rw [hr, List.count_eq_zero.mpr hnot]
    norm_num

def Refused (malloc : Malloc) (sizeOf : Object → Nat) (object : Object) (s : Store) : Prop :=
  sizeOf object = 0 ∨ malloc.record s.pool.clock = false ∨
    malloc.memory s.pool.clock s.pool.live (uint (sizeOf object)) = none

theorem allocMmobj_meets {allowed : Stop → Prop} (h : Sound [] held [] s)
    (hslots : object.slots = [])
    (hrefused : Refused malloc sizeOf object s → allowed (.fault .nullDeref)) :
    Meets allowed (fun p => p.1 ≠ 0 ∧ Sound [] (held.take p.1) [] p.2 ∧
      Allocated object p.1 s p.2) (allocMmobj malloc sizeOf object s) := by
  obtain ⟨⟨r, pool⟩, hrun, hinv⟩ : ∃ r, mgnMemAlloc malloc s.pool (sizeOf object) = .ok r ∧
    Inv ∅ r.2 := mgnMemAlloc_inv (sizeOf object) h.inv
  rw [allocMmobj, bind_ok hrun]
  obtain ⟨rfl, hno⟩ | ⟨a, bytes, rfl, h0, hlive, hrec⟩ := mgnMemAlloc_cases h.inv hrun
  · exact hrefused hno
  · obtain ⟨x, hxdef⟩ : ∃ x, x = newRecord s.pool.clock a (sizeOf object) bytes := ⟨_, rfl⟩
    have hxm : x.m = a := by rw [hxdef]; rfl
    have hxs : x.serial = s.pool.clock := by rw [hxdef]; rfl
    have hxr : x.r = 1 := by rw [hxdef]; rfl
    rw [← hxdef] at hrec
    have hx : x ∈ pool.records := by simp [hrec]
    have hserial : x.serial ∉ s.pool.serials := by
      rw [hxs]
      exact fun hmem => lt_irrefl _ (h.inv.serial_lt _ hmem)
    have hne : ∀ y ∈ s.pool.records, y.serial ≠ x.serial := fun y hy he =>
      hserial (he ▸ serial_mem hy)
    have hold : ∀ y ∈ s.pool.records, y ∈ pool.records ∧
        (written { s with pool := pool } x.serial object).objects y.serial = s.objects y.serial :=
      fun y hy => ⟨by rw [hrec]; exact List.mem_append_left _ hy, write_objects_ne (hne y hy)⟩
    have halloc : Allocated object a s (written { s with pool := pool } x.serial object) :=
      { fresh := hlive
        new := ⟨x, hx, hxm, hserial, by simp [written]⟩
        old := hold
        only := fun y hy => by
          rw [show (written { s with pool := pool } x.serial object).pool = pool from rfl, hrec,
            List.mem_append, List.mem_singleton] at hy
          obtain hy | rfl := hy
          · exact Or.inl hy
          · exact Or.inr ⟨hxm, hxr, by simp [written]⟩ }
    have hown : ∀ n ∈ s.pool.serials,
        (written { s with pool := pool } x.serial object).owned n = s.owned n := by
      rintro n hn
      exact write_owned_ne fun he => hserial (he ▸ hn)
    have hslot : ∀ b,
        slotCount (written { s with pool := pool } x.serial object).owned [] s.pool b =
          slotCount s.owned [] s.pool b := by
      intro b
      rw [slotCount, slotCount]
      congr 1
      apply List.map_congr_left
      intro n hn
      rw [hown n hn]
    have hlaw : Law (written { s with pool := pool } x.serial object).owned [] (held.take a) []
        pool := by
      refine (h.law.transfer (fun b => by rw [hslot]) fun y _ hD => absurd hD List.not_mem_nil).add
        hrec hserial (by rw [hxm]; exact hlive) hxr ?_ List.not_mem_nil fun b => ?_
      · rw [write_owned, hslots]
      · rw [hxm]
        by_cases hb : b = a <;> simp [Owners.take, hb, h0]
    refine Meets.ok (a := (a, written { s with pool := pool } x.serial object)) ?_
      ⟨h0, ⟨hinv, hlaw, ?_, ?_, ?_⟩, halloc⟩
    · have hfind : pool.find a = some x := hxm ▸ hinv.find_of_mem hx
      simp only [assign, hfind]
      rfl
    · intro n hn _ hmap b hb
      obtain ⟨y, hy, rfl⟩ := List.mem_map.mp hn
      obtain hy' | ⟨-, -, ho⟩ := halloc.only y hy
      · rw [hown _ (serial_mem hy')] at hb
        rw [(hold y hy').2] at hmap
        obtain ⟨z, hz, hzm, hkv⟩ := h.tables.items _ (serial_mem hy') List.not_mem_nil hmap b hb
        exact ⟨z, (hold z hz).1, hzm, by rw [(hold z hz).2]; exact hkv⟩
      · rw [Store.owned, ho, hslots] at hb
        exact absurd hb List.not_mem_nil
    · intro n hn hmap b hb hit
      obtain ⟨y, hy, rfl⟩ := List.mem_map.mp hn
      obtain hy' | ⟨-, -, ho⟩ := halloc.only y hy
      · rw [hown _ (serial_mem hy')] at hb
        rw [(hold y hy').2] at hmap
        obtain hib | ⟨rfl, -⟩ := halloc.isItem hit
        · exact h.tables.apart _ (serial_mem hy') hmap b hb hib
        · exact hlive (h.law.slots_live _ (serial_mem hy') List.not_mem_nil b hb)
      · rw [Store.owned, ho, hslots] at hb
        exact absurd hb List.not_mem_nil
    · intro y hy hit
      obtain hy' | ⟨-, hr, -⟩ := halloc.only y hy
      · obtain hib | ⟨hym, -⟩ := halloc.isItem hit
        · exact h.tables.once y hy' hib
        · exact absurd (hym ▸ List.mem_map_of_mem hy') hlive
      · exact hr

end Allocation

section References

variable {malloc : Malloc} {sizeOf : Object → Nat} {held : Owners} {s : Store} {object : Nat}

def Leaves (held : Owners) (s s' : Store) : Prop :=
  Sound [] held [] s' ∧ ∀ a, IsItem s' a → IsItem s a ∨ a ∉ s.pool.live

theorem allocMMReferenceWithStrongReference_meets (h : Sound [] held [] s)
    (hm : Valid s object) (hroom : Room [object] s) :
    Meets NotFreed (fun p => p.1 ≠ 0 ∧ ¬IsItem p.2 p.1 ∧ Leaves (held.take p.1) s p.2)
      (allocMMReferenceWithStrongReference malloc sizeOf object s) := by
  refine (allocMmobj_meets h rfl fun _ => trivial).bind fun ⟨mem, s1⟩ ⟨h0, hs1, ha⟩ => ?_
  dsimp only at h0 hs1 ha ⊢
  obtain ⟨s2, h2, hs2, hr2⟩ := retainMmobj_ok hs1 (ha.valid hm)
    (ha.room h0 (by simpa using hm) hroom)
  obtain ⟨x, hx, hxm, -, ho⟩ := ha.new
  obtain ⟨y, hy, hys, hym⟩ := hr2.record hs1 hx
  have hkind : SameKind (.mmReference object true) (s2.objects y.serial) := by
    rw [hr2.objects, hys, ho]
    simp [SameKind]
  have hitem : ∀ a, IsItem (written s2 y.serial (.mmReference object true)) a → IsItem s a := by
    intro a hia
    obtain hia | ⟨-, key, value, he⟩ := ha.isItem (hr2.isItem ((isItem_write hkind).mp hia))
    · exact hia
    · cases he
  have hs3 : Sound [] (held.take mem) [] (written s2 y.serial (.mmReference object true)) := by
    refine hs2.write (serial_mem hy) List.not_mem_nil hkind ?_ (fun a => ?_)
      fun _ _ hD => absurd hD List.not_mem_nil
    · intro a hao
      obtain ⟨hao, hne⟩ := List.mem_filter.mp hao
      obtain rfl := List.mem_singleton.mp hao
      have hno : ¬IsItem s2 a := fun hia =>
        ((hr2.valid (ha.valid hm)).resolve_left (by simpa using hne)).2 hia
      simp [hno, IsMap]
    · have hown : s2.owned y.serial = [] := by
        rw [Store.owned, hr2.objects, hys, ho]
        rfl
      rw [hown]
      simp only [Object.slots, take_count, List.count_nil]
      omega
  refine Meets.ok (a := (mem, written s2 y.serial (.mmReference object true))) ?_
    ⟨h0, fun hia => ha.fresh (hitem mem hia).live, hs3, fun a hia => Or.inl (hitem a hia)⟩
  have hwrite := hs2.assign hy (.mmReference object true)
  rw [hym, hxm] at hwrite
  rw [bind_ok h2, bind_ok hwrite]
  rfl

end References

section Maps

variable {malloc : Malloc} {sizeOf : Object → Nat} {compareMmobjs : Store → Nat → Nat → Int}
  {held : Owners} {s : Store} {mem key value item : Nat} {sorted : Bool} {items : List Nat}
  {x : Record}

theorem toMMMap_meets (h : Sound [] held [] s) (hm : Valid s mem) :
    Meets NotFreed (fun p => ∃ x ∈ s.pool.records, x.m = mem ∧
      s.objects x.serial = .mmMap p.1 p.2) (toMMMap mem s) := by
  refine (deref_meets h hm).bind fun object ⟨x, hx, hxm, ho⟩ => ?_
  cases object with
  | mmMap sorted items => exact ⟨x, hx, hxm, ho⟩
  | _ => exact trivial

theorem hashOfMmobj_meets (h : Sound [] held [] s) (hm : Valid s key) :
    Meets NotFreed (fun b => ∃ object, s.objectAt key = some object ∧ object.hash = some b)
      (hashOfMmobj key s) := by
  refine (deref_meets h hm).bind fun object ⟨x, hx, hxm, ho⟩ => ?_
  cases hh : object.hash with
  | none => exact trivial
  | some b =>
    refine ⟨object, ?_, hh⟩
    rw [← hxm, h.objectAt hx, ho]

theorem findItem_mem {b : List UInt8} (h : s.findItem items b = some item) : item ∈ items :=
  List.mem_of_find?_eq_some h

theorem sameKind_mmMap {sorted' : Bool} {items' : List Nat} :
    SameKind (.mmMap sorted items) (.mmMap sorted' items') := by
  simp [SameKind]

theorem table_ok {D : List Nat} {held held' : Owners} {pend pend' : List Nat}
    (sorted' : Bool) (items' : List Nat) (h : Sound D held pend s) (hx : x ∈ s.pool.records)
    (hD : x.serial ∉ D) (ho : s.objects x.serial = .mmMap sorted items)
    (hitems : ∀ a ∈ items', IsItem s a)
    (hsum : ∀ a, held' a + pend'.count a + items'.count a = held a + pend.count a + items.count a)
    (hD' : ∀ x ∈ s.pool.records, x.serial ∈ D → 0 < held x.m → 0 < held' x.m) :
    Sound D held' pend' (written s x.serial (.mmMap sorted' items')) ∧
      ∀ a, IsItem (written s x.serial (.mmMap sorted' items')) a ↔ IsItem s a := by
  have hkind : SameKind (.mmMap sorted' items') (s.objects x.serial) := by
    rw [ho]
    exact sameKind_mmMap
  refine ⟨h.write (serial_mem hx) hD hkind (fun a ha => ?_) (fun a => ?_) hD',
    fun a => isItem_write hkind⟩
  · simp only [hitems a ha, true_iff]
    exact ⟨sorted', items', rfl⟩
  · rw [Store.owned, ho]
    exact hsum a

theorem isItem_of_mem (h : Sound [] held [] s) (hx : x ∈ s.pool.records)
    (ho : s.objects x.serial = .mmMap sorted items) {a : Nat} (ha : a ∈ items) : IsItem s a := by
  refine h.tables.items x.serial (serial_mem hx) List.not_mem_nil ?_ a ?_
  · rw [ho]
    exact ⟨sorted, items, rfl⟩
  · rw [Store.owned, ho]
    exact ha

theorem detach_ok {held' : Owners} {pend' : List Nat} (h : Sound [] held [] s)
    (hx : x ∈ s.pool.records) (ho : s.objects x.serial = .mmMap sorted items)
    (hitem : item ∈ items) (hsum : ∀ a, held' a + pend'.count a = held a + [item].count a) :
    Sound [] held' pend' (written s x.serial (.mmMap sorted (items.erase item))) ∧
      ∀ a, IsItem (written s x.serial (.mmMap sorted (items.erase item))) a ↔ IsItem s a := by
  refine table_ok _ _ h hx List.not_mem_nil ho
    (fun a ha => isItem_of_mem h hx ho (List.mem_of_mem_erase ha)) (fun a => ?_)
    fun _ _ hD => absurd hD List.not_mem_nil
  have hs := hsum a
  have hp := (List.perm_cons_erase hitem).count_eq a
  rw [← List.singleton_append, List.count_append] at hp
  rw [hp, List.count_nil]
  omega

theorem toMMMap_ok {D : List Nat} {pend : List Nat} (h : Sound D held pend s)
    (hx : x ∈ s.pool.records) (ho : s.objects x.serial = .mmMap sorted items) :
    toMMMap x.m s = .ok (sorted, items) := by
  rw [toMMMap, bind_ok (h.deref hx), ho]
  rfl

theorem removeMMMapItem_ok {b : List UInt8} (h : Sound [] held [] s) (h0 : key ≠ 0)
    (hb : hashOfMmobj key s = .ok b) (hx : x ∈ s.pool.records)
    (ho : s.objects x.serial = .mmMap sorted items) :
    ∃ s', removeMMMapItem x.m key s = .ok s' ∧ Keeps held s s' := by
  rw [removeMMMapItem, if_neg h0, bind_ok hb, bind_ok (toMMMap_ok h hx ho)]
  cases hf : s.findItem items b with
  | none =>
    simp only [hf]
    exact ⟨s, rfl, h, fun a ha => ha⟩
  | some item =>
    simp only [hf]
    have hitem := findItem_mem hf
    have hne := h.ne_zero (isItem_of_mem h hx ho hitem).live
    obtain ⟨hs1, hit1⟩ : Sound [] held (notNull [item] ++ []) _ ∧ _ :=
      detach_ok h hx ho hitem fun a => by simp [notNull, hne]
    obtain ⟨s2, h2, hs2, hr2⟩ := releaseMmobj_ok hs1
    refine ⟨s2, ?_, hs2, fun a ha => (hit1 a).mp (hr2.isItem ha)⟩
    rw [bind_ok (h.assign hx _)]
    exact h2

theorem removeMMMapItem_meets (h : Sound [] held [] s) (hm : Valid s mem) (hk : Valid s key) :
    Meets NotFreed (Keeps held s) (removeMMMapItem mem key s) := by
  by_cases h0 : key = 0
  · rw [removeMMMapItem, if_pos h0]
    exact ⟨h, fun a ha => ha⟩
  · have hhash := hashOfMmobj_meets h hk
    have htable := toMMMap_meets h hm
    cases hb : hashOfMmobj key s with
    | error e =>
      rw [hb] at hhash
      rw [removeMMMapItem, if_neg h0, hb]
      exact hhash
    | ok b =>
      cases hmap : toMMMap mem s with
      | error e =>
        rw [hmap] at htable
        rw [removeMMMapItem, if_neg h0, bind_ok hb, hmap]
        exact htable
      | ok p =>
        rw [hmap] at htable
        obtain ⟨x, hx, hxm, ho⟩ := htable
        subst hxm
        obtain ⟨s', h1, hk⟩ := removeMMMapItem_ok h h0 hb hx ho
        exact Meets.ok h1 hk

theorem addInorder_count (compare : Nat → Nat → Int) (items : List Nat) (item a : Nat) :
    (addInorder compare items item).count a = items.count a + [item].count a := by
  have hsplit : items.count a =
      (items.takeWhile fun x => compare x item ≤ 0).count a +
        (items.dropWhile fun x => compare x item ≤ 0).count a := by
    rw [← List.count_append, List.takeWhile_append_dropWhile]
  rw [addInorder, List.count_append, ← List.singleton_append, List.count_append, hsplit]
  omega

theorem addToTable_ok (h : Sound [] (held.take item) [] s) (hitem : IsItem s item)
    (hx : x ∈ s.pool.records) (ho : s.objects x.serial = .mmMap sorted items) :
    ∃ s', addToTable compareMmobjs x.m item s = .ok s' ∧ Keeps held s s' := by
  have hne := h.ne_zero hitem.live
  have hwrite : ∀ items', (∀ a, List.count a items' = items.count a + [item].count a) →
      Keeps held s (written s x.serial (.mmMap sorted items')) := by
    intro items' hcount
    have htable : Sound [] held [] (written s x.serial (.mmMap sorted items')) ∧ _ :=
      table_ok sorted items' h hx List.not_mem_nil ho (fun a ha => ?_) (fun a => ?_)
        fun _ _ hD => absurd hD List.not_mem_nil
    · exact ⟨htable.1, fun a => (htable.2 a).mp⟩
    · have hpos := List.count_pos_iff.mpr ha
      rw [hcount] at hpos
      obtain h0 | h0 : 0 < items.count a ∨ 0 < [item].count a := by omega
      · exact isItem_of_mem h hx ho (List.count_pos_iff.mp h0)
      · obtain rfl := List.mem_singleton.mp (List.count_pos_iff.mp h0)
        exact hitem
    · have hnn : notNull [item] = [item] := by simp [notNull, hne]
      rw [take_count, hcount, hnn, List.count_nil]
      omega
  have hmap := toMMMap_ok h hx ho
  cases sorted with
  | true =>
    refine ⟨_, ?_, hwrite _ fun a => addInorder_count (compareMmobjs s) items item a⟩
    rw [addToTable, bind_ok hmap]
    exact h.assign hx _
  | false =>
    refine ⟨_, ?_, hwrite (items ++ [item]) fun a => List.count_append⟩
    rw [addToTable, bind_ok hmap]
    exact h.assign hx _

end Maps

section Adding

variable {malloc : Malloc} {sizeOf : Object → Nat} {compareMmobjs : Store → Nat → Nat → Int}
  {held : Owners} {s : Store} {key value item : Nat} {sorted : Bool} {items : List Nat}
  {x y : Record}

/-- A key and a value are not null and no items. -/
structure Entry (s : Store) (key value : Nat) : Prop where
  key_ne : key ≠ 0
  value_ne : value ≠ 0
  key_valid : Valid s key
  value_valid : Valid s value

theorem notNull_pair (h : Entry s key value) : notNull [key, value] = [key, value] := by
  simp [notNull, h.key_ne, h.value_ne]

theorem Entry.not_item (h : Entry s key value) {a : Nat} (ha : a ∈ [key, value]) :
    ¬IsItem s a := by
  obtain rfl | ha := List.mem_cons.mp ha
  · exact (h.key_valid.resolve_left h.key_ne).2
  · obtain rfl := List.mem_singleton.mp ha
    exact (h.value_valid.resolve_left h.value_ne).2

theorem fits_mmMapItem (h : ∀ a ∈ [key, value], ¬IsItem s a) : Fits s (.mmMapItem key value) := by
  intro a ha
  simp [h a (List.mem_filter.mp ha).1, IsMap]

theorem retainEntry_ok (h : Sound [] held [] s) (he : Entry s key value)
    (hroom : Room [key, value] s) :
    ∃ s1 s2, retainMmobj key s = .ok s1 ∧ retainMmobj value s1 = .ok s2 ∧
      Sound [] (fun a => held a + [key, value].count a) [] s2 ∧ s2.objects = s.objects ∧
      Entry s2 key value ∧ (∀ a, IsItem s2 a → IsItem s a) ∧
      (∀ z ∈ s.pool.records, ∃ w ∈ s2.pool.records, w.serial = z.serial ∧ w.m = z.m) ∧
      ∀ z ∈ s2.pool.records, ∃ w ∈ s.pool.records, z.serial = w.serial ∧ z.m = w.m ∧
        z.r = w.r + [key, value].count w.m := by
  obtain ⟨s1, h1, hs1, hr1⟩ := retainMmobj_ok h he.key_valid
    (hroom.mono fun a => by rw [List.count_singleton, List.count_cons]; omega)
  obtain ⟨s2, h2, hs2, hr2⟩ := retainMmobj_ok hs1 (hr1.valid he.value_valid) (hr1.room hroom)
  have hk : notNull [key] = [key] := by simp [notNull, he.key_ne]
  have hv : notNull [value] = [value] := by simp [notNull, he.value_ne]
  have hcount : ∀ a, [key, value].count a = [key].count a + [value].count a := fun a => by
    rw [← List.count_append]
    rfl
  refine ⟨s1, s2, h1, h2, hs2.congr fun a => ?_, hr2.objects.trans hr1.objects,
    ⟨he.key_ne, he.value_ne, hr2.valid (hr1.valid he.key_valid),
      hr2.valid (hr1.valid he.value_valid)⟩,
    fun a ha => hr1.isItem (hr2.isItem ha), fun z hz => ?_, fun z hz => ?_⟩
  · rw [take_count, take_count, hk, hv, hcount]
    omega
  · obtain ⟨u, hu, hus, hum⟩ := hr1.record h hz
    obtain ⟨w, hw, hws, hwm⟩ := hr2.record hs1 hu
    exact ⟨w, hw, hws.trans hus, hwm.trans hum⟩
  · obtain ⟨u, hu, hus, hum, hur⟩ := hr2.counts z hz
    obtain ⟨w, hw, hws, hwm, hwr⟩ := hr1.counts u hu
    refine ⟨w, hw, hus.trans hws, hum.trans hwm, ?_⟩
    rw [hur, hwr, hwm, hcount]
    omega

theorem allocMMMapItemWithKeyValue_meets {allowed : Stop → Prop} (h : Sound [] held [] s)
    (he : Entry s key value) (hroom : Room [key, value] s)
    (hrefused : Refused malloc sizeOf (.mmMapItem 0 0) s → allowed (.fault .nullDeref)) :
    Meets allowed (fun p => Sound [] (held.take p.1) [] p.2 ∧ IsItem p.2 p.1 ∧
      (∀ a, IsItem p.2 a → IsItem s a ∨ a ∉ s.pool.live) ∧
      ∀ z ∈ s.pool.records, ∃ w ∈ p.2.pool.records, w.serial = z.serial ∧ w.m = z.m ∧
        p.2.objects z.serial = s.objects z.serial)
      (allocMMMapItemWithKeyValue malloc sizeOf key value s) := by
  refine (allocMmobj_meets h rfl hrefused).bind fun ⟨mem, s1⟩ ⟨h0, hs1, ha⟩ => ?_
  dsimp only at h0 hs1 ha ⊢
  have he1 : Entry s1 key value :=
    ⟨he.key_ne, he.value_ne, ha.valid he.key_valid, ha.valid he.value_valid⟩
  have hroom1 : Room [key, value] s1 := by
    refine ha.room h0 (fun a hmem => ?_) hroom
    obtain rfl | hmem := List.mem_cons.mp hmem
    · exact he.key_valid
    · rw [List.mem_singleton.mp hmem]
      exact he.value_valid
  obtain ⟨s2, s3, h2, h3, hs3, ho3, he3, hit3, hin3, -⟩ := retainEntry_ok hs1 he1 hroom1
  obtain ⟨y, hy, hym, hyser, hyo⟩ := ha.new
  obtain ⟨w, hw, hws, hwm⟩ := hin3 y hy
  have hwo : s3.objects w.serial = .mmMapItem 0 0 := by rw [ho3, hws, hyo]
  have hkind : SameKind (.mmMapItem key value) (s3.objects w.serial) := by
    rw [hwo]
    simp [SameKind]
  have hs4 : Sound [] (held.take mem) [] (written s3 w.serial (.mmMapItem key value)) := by
    refine hs3.write (serial_mem hw) List.not_mem_nil hkind (fits_mmMapItem fun a => he3.not_item)
      (fun a => ?_)
      fun _ _ hD => absurd hD List.not_mem_nil
    have hown : s3.owned w.serial = [] := by
      rw [Store.owned, hwo]
      rfl
    rw [hown, Object.slots, notNull_pair he3]
    simp only [List.count_nil]
    omega
  have hwrite := hs3.assign hw (.mmMapItem key value)
  rw [hwm, hym] at hwrite
  refine Meets.ok (a := (mem, written s3 w.serial (.mmMapItem key value))) ?_
    ⟨hs4, (isItem_write hkind).mpr ⟨w, hw, hwm.trans hym, 0, 0, hwo⟩, fun a hia => ?_,
      fun z hz => ?_⟩
  · rw [bind_ok h2, bind_ok h3, bind_ok hwrite]
    rfl
  · obtain hia | ⟨rfl, -⟩ := ha.isItem (hit3 a ((isItem_write hkind).mp hia))
    · exact Or.inl hia
    · exact Or.inr ha.fresh
  · obtain ⟨u, hu, hus, hum⟩ := hin3 z (ha.old z hz).1
    have hne : z.serial ≠ w.serial := by
      rw [hws]
      rintro he'
      exact hyser (he' ▸ serial_mem hz)
    refine ⟨u, hu, hus, hum, ?_⟩
    rw [write_objects_ne hne, ho3, (ha.old z hz).2]

/-- The map goes down with the entry that is replaced: it has no owner, and what holds
it is held by the old key and the old value only. -/
def Falls (held : Owners) (s : Store) (key value : Nat) (x y : Record) : Prop :=
  Doomed s.owned [y.serial] (fun a => held a + [y.m, key, value].count a) s.pool x.serial

/-- Releasing after the retains, the operation takes down no more than before them. -/
theorem falls_of_doomed {s1 s3 : Store} {n : Nat} (hne : ∀ a ∈ items, a ≠ y.m → a ∈ items.erase y.m)
    (ho : s.objects x.serial = .mmMap sorted items)
    (hs1 : s1 = written s x.serial (.mmMap sorted (items.erase y.m)))
    (hobjects : s3.objects = s1.objects)
    (hin : ∀ z ∈ s.pool.records, ∃ w ∈ s3.pool.records, w.serial = z.serial ∧ w.m = z.m)
    (hcounts : ∀ z ∈ s3.pool.records, ∃ w ∈ s.pool.records, z.serial = w.serial ∧ z.m = w.m ∧
      z.r = w.r + [key, value].count w.m) (hy0 : y.m ≠ 0)
    (h : Doomed s3.owned [y.serial] (fun a => held.take y.m a + [key, value].count a) s3.pool n) :
    Doomed s.owned [y.serial] (fun a => held a + [y.m, key, value].count a) s.pool n := by
  induction h with
  | @intro z hz hzero hpos _ ih =>
    obtain ⟨w, hw, hws, hwm, hwr⟩ := hcounts z hz
    have htake : held.take y.m z.m = held z.m + [y.m].count z.m := by
      rw [take_count]
      simp [notNull, hy0]
    have hsplit : [y.m, key, value].count z.m = [y.m].count z.m + [key, value].count z.m := by
      rw [← List.count_append]
      rfl
    simp only [htake] at hzero
    rw [hws]
    refine .intro hw (by rw [← hwm]; simp only [hsplit]; omega) (by rw [← hwm] at hwr; omega)
      fun k hk hD hmem => ?_
    have hk3 : k ∈ s3.pool.serials := by
      obtain ⟨u, hu, rfl⟩ := List.mem_map.mp hk
      obtain ⟨v, hv, hvs, -⟩ := hin u hu
      exact hvs ▸ serial_mem hv
    refine ih k hk3 hD ?_
    rw [Store.owned, hobjects, hs1, hwm]
    by_cases hkx : k = x.serial
    · subst hkx
      rw [Store.owned, ho] at hmem
      have hnez : w.m ≠ y.m := by
        intro he
        rw [hwm, he, List.count_singleton_self] at hzero
        omega
      simp only [written, Function.update_self]
      exact hne w.m hmem hnez
    · rw [write_objects_ne hkx]
      exact hmem

theorem not_doomed {owned : Nat → List Nat} {D : List Nat} {held : Nat → Nat} {pend : List Nat}
    {pool : Pool} (h : Law owned D held pend pool) (hx : x ∈ pool.records) (h0 : 0 < held x.m) :
    ¬Doomed owned D held pool x.serial := by
  intro hd
  generalize hn : x.serial = n at hd
  cases hd with
  | @intro z hz hzero _ _ =>
    rw [h.eq_of_serial hx hz hn.symm] at hzero
    omega

theorem Tables.enter (h : Tables [] s) (n : Nat) : Tables [n] s :=
  ⟨fun k hk _ => h.items k hk List.not_mem_nil, h.apart, h.once⟩

theorem Tables.leave {n : Nat} (h : Tables [n] s) (hn : ¬IsMap (s.objects n)) : Tables [] s := by
  refine ⟨fun k hk _ hmap => ?_, h.apart, h.once⟩
  have hkn : k ≠ n := by
    rintro rfl
    exact hn hmap
  exact h.items k hk (by simpa using hkn) hmap

theorem toMMMapItem_ok {D : List Nat} {pend : List Nat} (h : Sound D held pend s)
    (hy : y ∈ s.pool.records) (ho : s.objects y.serial = .mmMapItem key value) :
    toMMMapItem y.m s = .ok (key, value) := by
  rw [toMMMapItem, bind_ok (h.deref hy), ho]
  rfl

/-- An item that somebody owns becomes the operation's, which has its entry to release. -/
theorem Sound.enterItem {k0 v0 : Nat} (h : Sound [] held [] s) (hy : y ∈ s.pool.records)
    (hyo : s.objects y.serial = .mmMapItem k0 v0) (hheld : 0 < held y.m) :
    Sound [y.serial] held (notNull [k0] ++ (notNull [v0] ++ [])) s := by
  have hent := h.law.enter hy (Or.inr hheld) List.not_mem_nil
  rw [Store.owned, hyo] at hent
  have hsplit : notNull [k0] ++ (notNull [v0] ++ []) = notNull [k0, v0] ++ [] := by
    rw [← List.append_assoc]
    simp only [notNull]
    rw [← List.filter_append]
    rfl
  refine ⟨h.inv, ?_, h.tables.enter _⟩
  rw [hsplit]
  exact hent

theorem releaseEntry_ok {k0 v0 : Nat} (h : Sound [] held [] s) (hy : y ∈ s.pool.records)
    (hyo : s.objects y.serial = .mmMapItem k0 v0) (hheld : 0 < held y.m) :
    ∃ s1 s2, toMMMapItem y.m s = .ok (k0, v0) ∧ releaseMmobj k0 s = .ok s1 ∧
      toMMMapItem y.m s1 = .ok (k0, v0) ∧ releaseMmobj v0 s1 = .ok s2 ∧
      Sound [y.serial] held [] s2 ∧ Released [y.serial] held [] s s2 ∧
      (∀ a, IsItem s2 a → IsItem s a) ∧
      ∃ z ∈ s2.pool.records, z.serial = y.serial ∧ z.m = y.m := by
  have hown := h.enterItem hy hyo hheld
  obtain ⟨s1, h1, hs1, hr1⟩ := releaseMmobj_ok hown
  obtain ⟨y1, hy1, hy1s, hy1m⟩ := hr1.stays hy (fun z hz hzs => h.law.eq_of_serial hy hz hzs)
    (not_doomed hown.law hy hheld)
  have hyo1 : s1.objects y1.serial = .mmMapItem k0 v0 := by rw [hr1.objects, hy1s, hyo]
  obtain ⟨s2, h2, hs2, hr2⟩ := releaseMmobj_ok hs1
  obtain ⟨y2, hy2, hy2s, hy2m⟩ := hr2.stays hy1 (fun z hz hzs => hs1.law.eq_of_serial hy1 hz hzs)
    (not_doomed hs1.law hy1 (by rw [hy1m]; exact hheld))
  have hread := toMMMapItem_ok hs1 hy1 hyo1
  rw [hy1m] at hread
  exact ⟨s1, s2, toMMMapItem_ok h hy hyo, h1, hread, h2, hs2, hr1.trans hr2,
    fun a ha => hr1.isItem (hr2.isItem ha), y2, hy2, hy2s.trans hy1s, hy2m.trans hy1m⟩

theorem writeEntry_ok (held : Owners) {held' : Owners} (h : Sound [y.serial] held' [] s)
    (hy : y ∈ s.pool.records)
    (hitem : IsItem s y.m) (hkey : key ≠ 0) (hvalue : value ≠ 0)
    (hnot : ∀ a ∈ [key, value], ¬IsItem s a)
    (hsum : ∀ a, held' a = held a + [key, value].count a) :
    Sound [] held [] (written s y.serial (.mmMapItem key value)) ∧
      ∀ a, IsItem (written s y.serial (.mmMapItem key value)) a ↔ IsItem s a := by
  obtain ⟨z, hz, hzm, k0, v0, hzo⟩ := hitem
  obtain rfl := List.inj_on_of_nodup_map h.law.live_nodup hz hy hzm
  have hkind : SameKind (.mmMapItem key value) (s.objects z.serial) := by
    rw [hzo]
    simp [SameKind]
  have hfits : Fits s (.mmMapItem key value) := fits_mmMapItem hnot
  refine ⟨⟨h.inv, ?_, ?_⟩, fun a => isItem_write hkind⟩
  · refine Law.leave (n := z.serial) h.law (serial_mem hy) (fun k hk => write_owned_ne hk)
      fun a => ?_
    have hpair : notNull [key, value] = [key, value] := by simp [notNull, hkey, hvalue]
    rw [write_owned, Object.slots, hpair, hsum]
  · refine Tables.leave (n := z.serial) (h.tables.write hkind hfits) ?_
    simp [written, IsMap]

/-- The old entry is released while the item belongs to the operation. -/
theorem replaceMMMapItemKeyValue_ok (h : Sound [] held [] s) (hx : x ∈ s.pool.records)
    (ho : s.objects x.serial = .mmMap sorted items) (hy : y ∈ s.pool.records)
    (hitem : y.m ∈ items) (he : Entry s key value) (hroom : Room [key, value] s)
    (hkeep : ¬Falls held s key value x y) :
    ∃ s', replaceMMMapItemKeyValue y.m key value
        (written s x.serial (.mmMap sorted (items.erase y.m))) = .ok s' ∧
      Sound [] (held.take y.m) [] s' ∧ (∀ a, IsItem s' a → IsItem s a) ∧ IsItem s' y.m ∧
      ∃ x' ∈ s'.pool.records, x'.m = x.m ∧
        s'.objects x'.serial = .mmMap sorted (items.erase y.m) := by
  have hy0 : y.m ≠ 0 := h.ne_zero (List.mem_map_of_mem hy)
  obtain ⟨k0, v0, hyo⟩ := (isItem_iff h hy).mp (isItem_of_mem h hx ho hitem)
  have hyx : y.serial ≠ x.serial := by
    intro hs
    rw [hs, ho] at hyo
    cases hyo
  obtain ⟨s1, hs1def⟩ : ∃ s1, s1 = written s x.serial (.mmMap sorted (items.erase y.m)) := ⟨_, rfl⟩
  obtain ⟨hs1, hit1⟩ : Sound [] (held.take y.m) [] s1 ∧ ∀ a, IsItem s1 a ↔ IsItem s a := by
    rw [hs1def]
    exact detach_ok h hx ho hitem fun a => by rw [take_count]; simp [notNull, hy0]
  have hpool1 : s1.pool = s.pool := by rw [hs1def]; rfl
  have he1 : Entry s1 key value := by
    have hvalid : ∀ a, Valid s a → Valid s1 a := fun a ha =>
      ha.imp_right fun ⟨hl, hi⟩ => ⟨by rw [hpool1]; exact hl, fun hia => hi ((hit1 a).mp hia)⟩
    exact ⟨he.key_ne, he.value_ne, hvalid key he.key_valid, hvalid value he.value_valid⟩
  obtain ⟨s2, s3, h2, h3, hs3, ho3, he3, hit3, hin3, hcnt3⟩ :=
    retainEntry_ok hs1 he1 (by rw [Room, hpool1]; exact hroom)
  rw [hpool1] at hin3 hcnt3
  obtain ⟨y3, hy3, hy3s, hy3m⟩ := hin3 y hy
  obtain ⟨x3, hx3, hx3s, hx3m⟩ := hin3 x hx
  have hyo3 : s3.objects y3.serial = .mmMapItem k0 v0 := by
    rw [hy3s, ho3, hs1def, write_objects_ne hyx, hyo]
  have hheld : 0 < held.take y.m y3.m + [key, value].count y3.m := by
    rw [hy3m, take_count]
    simp only [notNull, decide_not]
    simp [hy0]
  obtain ⟨s4, s5, hread3, h4, hread4, h5, hs5, hr5, hback, y5, hy5, hy5s, hy5m⟩ :=
    releaseEntry_ok hs3 hy3 hyo3 hheld
  -- the map is still there, as it does not fall with the entry
  obtain ⟨x5, hx5, hx5s, hx5m⟩ := hr5.stays hx3
    (fun z hz hzs => hs3.law.eq_of_serial hx3 hz hzs) fun hdoomed => hkeep
      (falls_of_doomed (fun a ha hne => (List.mem_erase_of_ne hne).mpr ha) ho hs1def ho3 hin3 hcnt3
        hy0 (hy3s ▸ hx3s ▸ hdoomed))
  have hitem5 : IsItem s5 y5.m := ⟨y5, hy5, rfl, k0, v0, by rw [hr5.objects, hy5s, hyo3]⟩
  rw [← hy5s] at hs5
  obtain ⟨hs6, hit6⟩ := writeEntry_ok (held.take y.m) hs5 hy5 hitem5 he.key_ne
    he.value_ne (fun a ha hia => he3.not_item ha (hback a hia)) fun a => rfl
  have hym : y5.m = y.m := hy5m.trans hy3m
  refine ⟨written s5 y5.serial (.mmMapItem key value), ?_, hs6,
    fun a ha => (hit1 a).mp (hit3 a (hback a ((hit6 a).mp ha))), hym ▸ (hit6 y5.m).mpr hitem5,
    x5, hx5, hx5m.trans hx3m, ?_⟩
  · have h6 := hs5.assign hy5 (.mmMapItem key value)
    rw [hym] at h6
    rw [hy3m] at hread3 hread4
    rw [← hs1def, replaceMMMapItemKeyValue, bind_ok h2, bind_ok h3, bind_ok hread3, bind_ok h4,
      bind_ok hread4, bind_ok h5]
    exact h6
  · have hne : x5.serial ≠ y5.serial := by
      rw [hx5s, hx3s, hy5s, hy3s]
      exact hyx.symm
    rw [write_objects_ne hne, hr5.objects, ho3, hs1def, hx5s, hx3s]
    simp [written]

/-- Only the allocator stops the call once the key is read and the object is a map. -/
theorem addEntry_meets {allowed : Stop → Prop} {b : List UInt8} (h : Sound [] held [] s)
    (he : Entry s key value) (hb : hashOfMmobj key s = .ok b) (hx : x ∈ s.pool.records)
    (ho : s.objects x.serial = .mmMap sorted items) (hroom : Room [key, value] s)
    (hkeep : ∀ y ∈ s.pool.records, s.findItem items b = some y.m → ¬Falls held s key value x y)
    (hrefused : s.findItem items b = none → Refused malloc sizeOf (.mmMapItem 0 0) s →
      allowed (.fault .nullDeref)) :
    Meets allowed (Leaves held s) (addMMMapItem malloc sizeOf compareMmobjs x.m key value s) := by
  rw [addMMMapItem, if_neg (not_or.mpr ⟨he.key_ne, he.value_ne⟩), bind_ok hb,
    bind_ok (toMMMap_ok h hx ho)]
  cases hf : s.findItem items b with
  | none =>
    simp only [hf]
    refine (allocMMMapItemWithKeyValue_meets h he hroom (hrefused hf)).bind
      fun ⟨item, s1⟩ ⟨hs1, hitem, hnew, hrec⟩ => ?_
    obtain ⟨w, hw, hws, hwm, hwo⟩ := hrec x hx
    obtain ⟨s2, h2, hkeeps⟩ := @addToTable_ok compareMmobjs held s1 item sorted items w hs1
      hitem hw (by rw [hws, hwo, ho])
    rw [hwm] at h2
    exact Meets.ok h2 ⟨hkeeps.1, fun a ha => hnew a (hkeeps.2 a ha)⟩
  | some item =>
    simp only [hf]
    have hmem := findItem_mem hf
    obtain ⟨y, hy, rfl, -⟩ := isItem_of_mem h hx ho hmem
    obtain ⟨s1, h1, hs1, hit1, hitem, w, hw, hwm, hwo⟩ := replaceMMMapItemKeyValue_ok h hx ho hy
      hmem he hroom (hkeep y hy hf)
    obtain ⟨s2, h2, hkeeps⟩ := @addToTable_ok compareMmobjs held s1 y.m sorted _ w hs1 hitem
      hw hwo
    rw [hwm] at h2
    rw [bind_ok (h.assign hx _)]
    exact Meets.ok ((bind_ok h1).trans h2)
      ⟨hkeeps.1, fun a ha => Or.inl (hit1 a (hkeeps.2 a ha))⟩

theorem addMMMapItem_meets {mem : Nat} (h : Sound [] held [] s) (hm : Valid s mem)
    (hk : Valid s key) (hv : Valid s value)
    (hroom : key ≠ 0 → value ≠ 0 → Room [key, value] s)
    (hkeep : key ≠ 0 → value ≠ 0 → ∀ x ∈ s.pool.records, ∀ y ∈ s.pool.records, ∀ sorted items b,
      x.m = mem → s.objects x.serial = .mmMap sorted items →
      (s.objectAt key).bind Object.hash = some b → s.findItem items b = some y.m →
      ¬Falls held s key value x y) :
    Meets NotFreed (Leaves held s)
      (addMMMapItem malloc sizeOf compareMmobjs mem key value s) := by
  by_cases h0 : key = 0 ∨ value = 0
  · rw [addMMMapItem, if_pos h0]
    exact ⟨h, fun a ha => Or.inl ha⟩
  · have hne := not_or.mp h0
    have hhash := hashOfMmobj_meets h hk
    have htable := toMMMap_meets h hm
    cases hb : hashOfMmobj key s with
    | error e =>
      rw [hb] at hhash
      rw [addMMMapItem, if_neg h0, hb]
      exact hhash
    | ok b =>
      cases hmap : toMMMap mem s with
      | error e =>
        rw [hmap] at htable
        rw [addMMMapItem, if_neg h0, bind_ok hb, hmap]
        exact htable
      | ok p =>
        rw [hmap] at htable
        rw [hb] at hhash
        obtain ⟨x, hx, hxm, ho⟩ := htable
        obtain ⟨object, hob, hbytes⟩ := hhash
        subst hxm
        exact addEntry_meets h ⟨hne.1, hne.2, hk, hv⟩ hb hx ho (hroom hne.1 hne.2)
          (fun y hy hf => hkeep hne.1 hne.2 x hx y hy p.1 p.2 b rfl ho
            (by rw [hob]; exact hbytes) hf) fun _ _ => trivial

end Adding

end LcClibs.Mmo.Ownership
