import Mathlib
import LcClibs.Lib.Roots
import LcClibs.Mmo.Ownership

namespace LcClibs.Mmo.Accounts

open Platform Lib.Runs Lib.Roots Memory.Managed Memory.Safety Memory.Counting Mmo.Containers
  Mmo.Ownership

section Spec

/-- The objects that an object holds: list entries, the keys and the values of the items
in the table of a map, and the target of a strong reference. -/
def contents (s : Store) : Object → List Nat
  | .mmMap _ items => items.flatMap fun item =>
    match s.objectAt item with
    | some (.mmMapItem key value) => notNull [key, value]
    | _ => []
  | .mmMapItem _ _ => []
  | object => object.slots

def slotsOf (s : Store) (mem : Nat) : Nat :=
  (s.pool.serials.map fun n => (contents s (s.objects n)).count mem).sum

def tablesOf (s : Store) (mem : Nat) : Nat :=
  (s.pool.serials.map fun n =>
    match s.objects n with
    | .mmMap _ items => items.count mem
    | _ => 0).sum

def Holds (s : Store) (a b : Nat) : Prop :=
  ∃ x ∈ s.pool.records, x.m = a ∧ b ∈ contents s (s.objects x.serial)

def Kept (st : State) (mem : Nat) : Prop :=
  ∃ a ∈ st.store.pool.live, Relation.ReflTransGen (Holds st.store) a mem ∧
    (0 < st.owners a ∨ Relation.TransGen (Holds st.store) a a)

/-- The accounts of a state: the count of an object is the number of its owners and of
the slots that hold it, and an item is in one table; what a live object reaches is live;
and a sweep leaves only objects that an owner or a cycle keeps. -/
structure Balanced (st : State) : Prop where
  count : ∀ x ∈ st.store.pool.records, ¬IsItem st.store x.m →
    mgnMemRetainedCount st.store.pool x.m = st.owners x.m + slotsOf st.store x.m
  table : ∀ x ∈ st.store.pool.records, IsItem st.store x.m →
    mgnMemRetainedCount st.store.pool x.m = 1 ∧ tablesOf st.store x.m = 1
  live : ∀ a b, a ∈ st.store.pool.live → Relation.ReflTransGen (Holds st.store) a b →
    b ∈ st.store.pool.live
  swept : ∃ s, releaseUnused st.store = .ok s ∧
    ∀ x ∈ s.pool.records, ¬IsItem s x.m → Kept ⟨s, st.owners⟩ x.m

def args : Op → List Nat
  | .retain mem | .release mem | .autorelease mem | .pop mem => [mem]
  | .push list item | .insert list item _ => [list, item]
  | .concat list aList => [list, aList]
  | .add map key value => [map, key, value]
  | .remove map key => [map, key]
  | .strongReference object => [object]
  | .alloc _ | .releaseUnused => []

/-- Callers hand over null or objects there are, and give up what they own. -/
def Proper (op : Op) (st : State) : Prop :=
  (∀ a ∈ args op, Valid st.store a) ∧
    match op with
    | .release mem | .autorelease mem => mem ≠ 0 → 0 < st.owners mem
    | _ => True

def retains (s : Store) : Op → List Nat
  | .retain mem => [mem]
  | .push _ item | .insert _ item _ => [item]
  | .pop list =>
    match s.objectAt list with
    | some (.mmList list _) => list.getLast?.toList
    | _ => []
  | .concat _ aList =>
    match s.objectAt aList with
    | some (.mmList list _) => list
    | _ => []
  | .add _ key value => if key = 0 ∨ value = 0 then [] else [key, value]
  | .strongReference object => [object]
  | _ => []

/-- No count runs over, and a map does not fall with an entry of it that is replaced. -/
def Spared (op : Op) (st : State) : Prop :=
  Room (retains st.store op) st.store ∧
    match op with
    | .add map key value => key ≠ 0 → value ≠ 0 →
      ∀ x ∈ st.store.pool.records, ∀ y ∈ st.store.pool.records, ∀ sorted items b,
        x.m = map → st.store.objects x.serial = .mmMap sorted items →
        (st.store.objectAt key).bind Object.hash = some b →
        st.store.findItem items b = some y.m → ¬Falls st.owners st.store key value x y
    | _ => True

variable (malloc : Malloc) (sizeOf : Object → Nat) (compareMmobjs : Store → Nat → Nat → Int)

def Along (P : Op → State → Prop) : List Op → State → Prop
  | [], _ => True
  | op :: ops, st => P op st ∧ ∀ st', op.step malloc sizeOf compareMmobjs st = .ok st' →
    Along P ops st'

/-- What a run comes to: a balanced state, or a stop that is no use of a freed block. -/
def Accounted (ops : List Op) : Prop :=
  Meets NotFreed Balanced (runOps malloc sizeOf compareMmobjs ops start)

end Spec

section Steps

variable {malloc : Malloc} {sizeOf : Object → Nat} {compareMmobjs : Store → Nat → Nat → Int}
  {st : State} {op : Op}

structure Good (st : State) : Prop where
  sound : Sound [] st.owners [] st.store
  unowned : ∀ a, IsItem st.store a → st.owners a = 0

theorem Good.of_leaves {owners : Owners} {s : Store} (h : Good st) (hs : Leaves owners st.store s)
    (hown : ∀ a, IsItem s a → owners a ≤ st.owners a) : Good ⟨s, owners⟩ := by
  refine ⟨hs.1, fun a ha => ?_⟩
  have hle := hown a ha
  have h0 : st.owners a = 0 := by
    obtain hit | hnot := hs.2 a ha
    · exact h.unowned a hit
    · exact Nat.eq_zero_of_not_pos fun hpos => hnot (h.sound.law.held_live a hpos)
  show owners a = 0
  omega

theorem Keeps.leaves {held : Owners} {s s' : Store} (h : Keeps held s s') : Leaves held s s' :=
  ⟨h.1, fun a ha => Or.inl (h.2 a ha)⟩

theorem take_of_ne {owners : Owners} {mem a : Nat} (h : a ≠ mem) :
    owners.take mem a = owners a := by
  simp [Owners.take, h]

theorem give_count {owners : Owners} {mem : Nat} (h : mem ≠ 0 → 0 < owners mem) (a : Nat) :
    owners.give mem a + (notNull [mem]).count a = owners a := by
  by_cases h0 : mem = 0
  · simp [Owners.give, notNull, h0]
  · by_cases ha : a = mem
    · subst ha
      have hpos := h h0
      simp only [Owners.give, notNull, h0, ne_eq, not_false_eq_true, and_self, if_true,
        decide_true, List.filter_cons_of_pos, List.filter_nil, List.count_singleton_self]
      omega
    · simp [Owners.give, notNull, h0, ha, Ne.symm ha]

theorem releaseUnused_ok (h : Sound [] st.owners [] st.store) :
    ∃ s, releaseUnused st.store = .ok s ∧ Keeps st.owners st.store s ∧
      (∀ x ∈ s.pool.records, 0 < x.r) := by
  obtain ⟨pool, hrun, hrel⟩ := @releaseUnusedLoop_released st.store.owned _
    (st.store.pool.records.length + 1) h.inv (Nat.lt_succ_self _)
  obtain ⟨hlaw, hpos, hold⟩ := releaseUnusedLoop_swept _ h.law hrun
  have hold' : ∀ y ∈ pool.records, ∃ x ∈ st.store.pool.records, y.serial = x.serial ∧ y.m = x.m ∧
      (IsItem st.store x.m → y.r = x.r) := by
    intro y hy
    obtain ⟨x, hx, hs, hm, hr⟩ := hold y hy
    refine ⟨x, hx, hs, hm, fun hit => ?_⟩
    have h1 := h.tables.once x hx hit
    have h2 := hpos y hy
    omega
  refine ⟨{ st.store with pool := pool }, ?_, ⟨⟨hrel.inv, hlaw,
    h.tables.pool h.law.live_nodup hold' hlaw.slots_live⟩, fun a ha => ?_⟩, hpos⟩
  · rw [releaseUnused, mgnMemReleaseUnused, bind_ok hrun]
    rfl
  · obtain ⟨y, hy, rfl, hkv⟩ := ha
    obtain ⟨x, hx, hs, hm, -⟩ := hold' y hy
    rw [hs] at hkv
    exact ⟨x, hx, hm.symm, hkv⟩

theorem run_same {f : Except Stop Store} {answer : Nat} (h : Good st)
    (hf : Meets NotFreed (Leaves st.owners st.store) f) :
    Meets NotFreed (fun p => Good ⟨p.2, st.owners⟩) (f.map fun s => (answer, s)) :=
  hf.map fun _ hs => h.of_leaves hs fun _ _ => le_rfl

theorem valid_arg (hp : Proper op st) {a : Nat} (ha : a ∈ args op) : Valid st.store a := hp.1 a ha

theorem alloc_good (fresh : Fresh) (h : Good st) :
    Meets NotFreed (fun p => Good ⟨p.2, (Op.alloc fresh).owners p.1 st.owners⟩)
      ((Op.alloc fresh).run malloc sizeOf compareMmobjs st.store) := by
  have hslots : fresh.object.slots = [] := by cases fresh <;> rfl
  refine (allocMmobj_meets h.sound hslots fun _ => trivial).imp fun ⟨mem, s⟩ ⟨h0, hs, ha⟩ => ?_
  have hkind : ∀ key value, fresh.object ≠ .mmMapItem key value := by
    intro key value
    cases fresh <;> simp [Fresh.object]
  have hitem : ∀ a, IsItem s a → IsItem st.store a := by
    intro a hia
    obtain hia | ⟨-, key, value, he⟩ := ha.isItem hia
    · exact hia
    · exact absurd he (hkind key value)
  refine h.of_leaves ⟨hs, fun a hia => Or.inl (hitem a hia)⟩ fun a hia => ?_
  have hne : a ≠ mem := by
    rintro rfl
    exact ha.fresh (hitem a hia).live
  exact (take_of_ne hne).le

theorem retain_good {mem : Nat} (h : Good st) (hp : Proper (.retain mem) st)
    (hs : Spared (.retain mem) st) :
    Meets NotFreed (fun p => Good ⟨p.2, (Op.retain mem).owners p.1 st.owners⟩)
      ((Op.retain mem).run malloc sizeOf compareMmobjs st.store) := by
  have hv : Valid st.store mem := valid_arg hp (List.mem_singleton_self _)
  obtain ⟨s, h1, hs1, hr1⟩ := retainMmobj_ok h.sound hv hs.1
  refine (Meets.ok (P := fun s' => s' = s) h1 rfl).map fun s' he => ?_
  subst he
  refine h.of_leaves ⟨hs1, fun a hia => Or.inl (hr1.isItem hia)⟩ fun a hia => ?_
  by_cases ha : a = mem
  · obtain hz | ⟨-, hno⟩ := hv
    · simp [Op.owners, Owners.take, hz]
    · exact absurd (hr1.isItem (ha ▸ hia)) hno
  · exact (take_of_ne ha).le

theorem give_le (owners : Owners) (mem a : Nat) : owners.give mem a ≤ owners a := by
  rw [Owners.give]
  by_cases h : a = mem ∧ mem ≠ 0
  · rw [if_pos h]
    exact Nat.sub_le _ _
  · rw [if_neg h]

theorem give_sound {mem : Nat} (h : Good st) (hgive : mem ≠ 0 → 0 < st.owners mem) :
    Sound [] (st.owners.give mem) (notNull [mem] ++ []) st.store :=
  h.sound.shift fun a => by rw [List.append_nil, give_count hgive, List.count_nil, Nat.add_zero]

theorem release_good {mem : Nat} (h : Good st) (hp : Proper (.release mem) st) :
    Meets NotFreed (fun p => Good ⟨p.2, (Op.release mem).owners p.1 st.owners⟩)
      ((Op.release mem).run malloc sizeOf compareMmobjs st.store) := by
  obtain ⟨s, h1, hs1, hr1⟩ := releaseMmobj_ok (give_sound h hp.2)
  refine (Meets.ok (P := fun s' => s' = s) h1 rfl).map fun s' he => ?_
  subst he
  exact h.of_leaves ⟨hs1, fun a hia => Or.inl (hr1.isItem hia)⟩ fun a _ => give_le _ _ a

theorem autorelease_good {mem : Nat} (h : Good st) (hp : Proper (.autorelease mem) st) :
    Meets NotFreed (fun p => Good ⟨p.2, (Op.autorelease mem).owners p.1 st.owners⟩)
      ((Op.autorelease mem).run malloc sizeOf compareMmobjs st.store) := by
  obtain ⟨s, h1, hs1, hr1⟩ := autoreleaseMmobj_ok (give_sound h hp.2)
    (valid_arg hp (List.mem_singleton_self _))
  refine (Meets.ok (P := fun s' => s' = s) h1 rfl).map fun s' he => ?_
  subst he
  exact h.of_leaves ⟨hs1, fun a hia => Or.inl (hr1 a hia)⟩ fun a _ => give_le _ _ a

theorem step_good (op : Op) (h : Good st) (hp : Proper op st) (hs : Spared op st) :
    Meets NotFreed Good (op.step malloc sizeOf compareMmobjs st) := by
  have hrun : Meets NotFreed (fun p => Good ⟨p.2, op.owners p.1 st.owners⟩)
      (op.run malloc sizeOf compareMmobjs st.store) := by
    cases op with
    | alloc fresh => exact alloc_good fresh h
    | retain mem => exact retain_good h hp hs
    | release mem => exact release_good h hp
    | autorelease mem => exact autorelease_good h hp
    | push list item =>
      exact run_same h ((pushMMListItem_meets h.sound (valid_arg hp (by simp [args]))
        (valid_arg hp (by simp [args])) hs.1).imp fun _ => Keeps.leaves)
    | pop list =>
      refine (popMMListItem_meets h.sound (valid_arg hp (by simp [args])) ?_).imp
        fun p hk => h.of_leaves (Keeps.leaves hk) fun _ _ => le_rfl
      intro l n item hl hlast
      have hroom := hs.1
      simp only [retains, hl, hlast] at hroom
      exact hroom
    | insert list item idx =>
      exact run_same h ((insertMMListItem_meets idx h.sound (valid_arg hp (by simp [args]))
        (valid_arg hp (by simp [args])) hs.1).imp fun _ => Keeps.leaves)
    | concat list aList =>
      refine run_same h ((concatMMList_meets h.sound (valid_arg hp (by simp [args]))
        (valid_arg hp (by simp [args])) ?_).imp fun _ => Keeps.leaves)
      intro l n hl
      have hroom := hs.1
      simp only [retains, hl] at hroom
      exact hroom
    | add map key value =>
      refine run_same h (addMMMapItem_meets h.sound (valid_arg hp (by simp [args]))
        (valid_arg hp (by simp [args])) (valid_arg hp (by simp [args])) (fun hk hv => ?_) hs.2)
      have hroom := hs.1
      simp only [retains, hk, hv, or_self, if_false] at hroom
      exact hroom
    | remove map key =>
      exact run_same h ((removeMMMapItem_meets h.sound (valid_arg hp (by simp [args]))
        (valid_arg hp (by simp [args]))).imp fun _ => Keeps.leaves)
    | strongReference object =>
      refine (allocMMReferenceWithStrongReference_meets h.sound
        (valid_arg hp (by simp [args])) hs.1).imp fun p hl => ?_
      refine h.of_leaves hl.2.2 fun a hia => ?_
      have hne : a ≠ p.1 := by
        rintro rfl
        exact hl.2.1 hia
      exact (take_of_ne hne).le
    | releaseUnused =>
      obtain ⟨s, h1, hs1, -⟩ := releaseUnused_ok h.sound
      exact run_same h (Meets.ok h1 (Keeps.leaves hs1))
  exact hrun.bind fun p hg => hg

theorem good_start : Good start := by
  refine ⟨⟨inv_empty, ?_, ?_⟩, ?_⟩
  · exact
      { serials_nodup := List.nodup_nil
        live_nodup := List.nodup_nil
        count := nofun
        slots_live := nofun
        pend_live := nofun
        held_live := fun a ha => absurd ha (lt_irrefl 0)
        excluded := nofun
        called := nofun }
  · exact ⟨nofun, nofun, nofun⟩
  · exact fun _ _ => rfl

/-- Every run whose operations are proper and spared keeps the invariant. -/
theorem runOps_good (ops : List Op) (h : Good st)
    (hrun : Along malloc sizeOf compareMmobjs (fun op st => Proper op st ∧ Spared op st) ops st) :
    Meets NotFreed Good (runOps malloc sizeOf compareMmobjs ops st) := by
  induction ops generalizing st with
  | nil => exact h
  | cons op ops ih =>
    obtain ⟨⟨hp, hs⟩, hrest⟩ := hrun
    have hstep : Meets NotFreed Good (op.step malloc sizeOf compareMmobjs st) :=
      step_good op h hp hs
    rw [runOps]
    cases hst : op.step malloc sizeOf compareMmobjs st with
    | error e =>
      rw [hst] at hstep
      exact hstep
    | ok st' =>
      rw [hst] at hstep
      exact ih hstep (hrest st' hst)

end Steps

section Balance

variable {malloc : Malloc} {sizeOf : Object → Nat} {compareMmobjs : Store → Nat → Nat → Int}
  {st : State} {held : Owners} {s : Store} {mem : Nat} {x : Record}

def tableOf : Object → List Nat
  | .mmMap _ items => items
  | _ => []

def entryOf : Object → List Nat
  | .mmMapItem key value => notNull [key, value]
  | _ => []

def restOf : Object → List Nat
  | .mmMap _ _ | .mmMapItem _ _ => []
  | object => object.slots

theorem sum_records (f : Nat → Nat) :
    (s.pool.serials.map f).sum = (s.pool.records.map fun x => f x.serial).sum := by
  rw [Pool.serials, List.map_map]
  rfl

theorem slotCount_records :
    slotCount s.owned [] s.pool mem =
      (s.pool.records.map fun x => (s.owned x.serial).count mem).sum := by
  rw [slotCount, sum_records]
  rfl

theorem tablesOf_records :
    tablesOf s mem =
      (s.pool.records.map fun x => (tableOf (s.objects x.serial)).count mem).sum := by
  rw [tablesOf, sum_records]
  congr 1
  apply List.map_congr_left
  intro x _
  cases s.objects x.serial <;> rfl

theorem tablesOf_item (h : Sound [] held [] s) (hit : IsItem s mem) :
    tablesOf s mem = slotCount s.owned [] s.pool mem := by
  rw [tablesOf_records, slotCount_records]
  congr 1
  apply List.map_congr_left
  intro x hx
  by_cases hmap : IsMap (s.objects x.serial)
  · obtain ⟨sorted, items, ho⟩ := hmap
    rw [Store.owned, ho]
    rfl
  · have h0 : (s.owned x.serial).count mem = 0 :=
      List.count_eq_zero.mpr fun hmem => h.tables.apart _ (serial_mem hx) hmap mem hmem hit
    rw [h0]
    cases ho : s.objects x.serial with
    | mmMap sorted items => exact absurd ⟨sorted, items, ho⟩ hmap
    | _ => rfl

theorem retainedCount_eq (h : Sound [] held [] s) (hx : x ∈ s.pool.records) :
    mgnMemRetainedCount s.pool x.m = held x.m + slotCount s.owned [] s.pool x.m := by
  rw [mgnMemRetainedCount, h.inv.find_of_mem hx]
  have hc := h.law.count x hx
  rw [List.count_nil] at hc
  exact hc

theorem tablesOf_eq_one (h : Good st) (hx : x ∈ st.store.pool.records)
    (hit : IsItem st.store x.m) : tablesOf st.store x.m = 1 := by
  have hc := h.sound.law.count x hx
  rw [h.unowned x.m hit, h.sound.tables.once x hx hit, List.count_nil] at hc
  rw [tablesOf_item h.sound hit]
  omega

def isMMMapItem : Object → Bool
  | .mmMapItem _ _ => true
  | _ => false

theorem isMMMapItem_iff (h : Sound [] held [] s) (hx : x ∈ s.pool.records) :
    isMMMapItem (s.objects x.serial) = true ↔ IsItem s x.m := by
  rw [isItem_iff h hx]
  cases s.objects x.serial <;> simp [isMMMapItem]

theorem mem_tables (h : Sound [] held [] s) (hx : x ∈ s.pool.records)
    (hm : mem ∈ tableOf (s.objects x.serial)) : IsItem s mem := by
  cases ho : s.objects x.serial with
  | mmMap sorted items =>
    rw [ho] at hm
    exact isItem_of_mem h hx ho hm
  | _ =>
    rw [ho] at hm
    exact absurd hm List.not_mem_nil

/-- The tables of the maps together hold every item once, and nothing else. -/
theorem tables_perm (h : Good st) :
    (st.store.pool.records.flatMap fun x => tableOf (st.store.objects x.serial)).Perm
      ((st.store.pool.records.filter fun x => isMMMapItem (st.store.objects x.serial)).map
        Record.m) := by
  have hone : ∀ x ∈ st.store.pool.records, IsItem st.store x.m →
      (st.store.pool.records.flatMap fun x =>
        tableOf (st.store.objects x.serial)).count x.m = 1 := by
    intro x hx hit
    have ht := tablesOf_eq_one h hx hit
    rw [tablesOf_records] at ht
    rw [List.count_flatMap]
    exact ht
  have hitems : ∀ a ∈ st.store.pool.records.flatMap fun x => tableOf (st.store.objects x.serial),
      IsItem st.store a := by
    intro a ha
    obtain ⟨y, hy, hya⟩ := List.mem_flatMap.mp ha
    exact mem_tables h.sound hy hya
  refine (List.perm_ext_iff_of_nodup ?_ ?_).mpr fun a => ⟨fun ha => ?_, fun ha => ?_⟩
  · rw [List.nodup_iff_count_le_one]
    intro a
    by_cases ha : a ∈ st.store.pool.records.flatMap fun x => tableOf (st.store.objects x.serial)
    · obtain ⟨y, hy, rfl, -⟩ := hitems a ha
      exact (hone y hy (hitems _ ha)).le
    · rw [List.count_eq_zero.mpr ha]
      exact Nat.zero_le _
  · have hsub : (st.store.pool.records.filter fun x =>
        isMMMapItem (st.store.objects x.serial)).Sublist st.store.pool.records :=
      List.filter_sublist
    exact (hsub.map Record.m).nodup h.sound.law.live_nodup
  · obtain ⟨y, hy, rfl, hkv⟩ := hitems a ha
    refine List.mem_map_of_mem (List.mem_filter.mpr ⟨hy, ?_⟩)
    exact (isMMMapItem_iff h.sound hy).mpr ⟨y, hy, rfl, hkv⟩
  · obtain ⟨y, hy, rfl⟩ := List.mem_map.mp ha
    obtain ⟨hy, hit⟩ := List.mem_filter.mp hy
    have h1 := hone y hy ((isMMMapItem_iff h.sound hy).mp hit)
    exact List.count_pos_iff.mp (by omega)

theorem tables_nodup (h : Good st) :
    (st.store.pool.records.flatMap fun x => tableOf (st.store.objects x.serial)).Nodup := by
  have hsub : (st.store.pool.records.filter fun x =>
      isMMMapItem (st.store.objects x.serial)).Sublist st.store.pool.records := List.filter_sublist
  exact (tables_perm h).nodup_iff.mpr ((hsub.map Record.m).nodup h.sound.law.live_nodup)

theorem contents_count (object : Object) :
    (contents s object).count mem = ((tableOf object).map fun item =>
      match s.objectAt item with
      | some o => (entryOf o).count mem
      | none => 0).sum + (restOf object).count mem := by
  cases object with
  | mmMap sorted items =>
    simp only [contents, tableOf, restOf, List.count_flatMap, List.count_nil, Nat.add_zero]
    congr 1
    apply List.map_congr_left
    intro item _
    rw [Function.comp_apply]
    cases s.objectAt item with
    | none => rfl
    | some o => cases o <;> rfl
  | _ => simp [contents, tableOf, restOf]

theorem slots_count (h : Sound [] held [] s) (hx : x ∈ s.pool.records) (hm : ¬IsItem s mem) :
    (s.owned x.serial).count mem =
      (entryOf (s.objects x.serial)).count mem + (restOf (s.objects x.serial)).count mem := by
  rw [Store.owned]
  cases ho : s.objects x.serial with
  | mmMap sorted items =>
    have h0 : items.count mem = 0 :=
      List.count_eq_zero.mpr fun hmem => hm (isItem_of_mem h hx ho hmem)
    simp only [Object.slots, entryOf, restOf, h0, List.count_nil]
  | _ => simp [Object.slots, entryOf, restOf]

theorem sum_filter_items (f : Object → Nat) (h0 : ∀ o, isMMMapItem o = false → f o = 0)
    (records : List Record) :
    ((records.filter fun x => isMMMapItem (s.objects x.serial)).map
      fun x => f (s.objects x.serial)).sum = (records.map fun x => f (s.objects x.serial)).sum := by
  induction records with
  | nil => rfl
  | cons x records ih =>
    rw [List.filter_cons, List.map_cons, List.sum_cons, ← ih]
    cases hx : isMMMapItem (s.objects x.serial) with
    | true => rw [if_pos rfl, List.map_cons, List.sum_cons]
    | false => rw [if_neg Bool.false_ne_true, h0 _ hx, Nat.zero_add]

theorem sum_map_flatMap {α : Type} (l : List α) (f : α → List Nat) (g : Nat → Nat) :
    ((l.flatMap f).map g).sum = (l.map fun x => ((f x).map g).sum).sum := by
  induction l with
  | nil => rfl
  | cons x l ih =>
    rw [List.flatMap_cons, List.map_append, List.sum_append, ih, List.map_cons, List.sum_cons]

/-- The slots that hold an object are those of the containers, where a map has the slots
of its items. -/
theorem slotsOf_eq (h : Good st) (hm : ¬IsItem st.store mem) :
    slotsOf st.store mem = slotCount st.store.owned [] st.store.pool mem := by
  have htables : (st.store.pool.records.map fun x => ((tableOf (st.store.objects x.serial)).map
      fun item => match st.store.objectAt item with
        | some o => (entryOf o).count mem
        | none => 0).sum).sum =
      (st.store.pool.records.map fun x => (entryOf (st.store.objects x.serial)).count mem).sum := by
    have hflat := (tables_perm h).map fun item => match st.store.objectAt item with
      | some o => (entryOf o).count mem
      | none => 0
    have hsum := hflat.sum_eq
    rw [sum_map_flatMap, List.map_map] at hsum
    rw [hsum, ← sum_filter_items (fun o => (entryOf o).count mem) ?_]
    · congr 1
      apply List.map_congr_left
      intro x hx
      rw [Function.comp_apply, h.sound.objectAt (List.mem_of_mem_filter hx)]
    · intro o ho
      cases o <;> simp_all [isMMMapItem, entryOf]
  rw [slotsOf, sum_records, slotCount_records]
  simp only [contents_count]
  rw [List.sum_map_add, htables, ← List.sum_map_add]
  congr 1
  apply List.map_congr_left
  intro x hx
  exact (slots_count h.sound hx hm).symm

theorem Holds.live {a b : Nat} (h : Sound [] held [] s) (hab : Holds s a b) : b ∈ s.pool.live := by
  obtain ⟨x, hx, -, hb⟩ := hab
  have hslot : ∀ y ∈ s.pool.records, b ∈ s.owned y.serial → b ∈ s.pool.live :=
    fun y hy => h.law.slots_live y.serial (serial_mem hy) List.not_mem_nil b
  cases ho : s.objects x.serial with
  | mmMap sorted items =>
    rw [ho] at hb
    obtain ⟨item, hitem, hb⟩ := List.mem_flatMap.mp hb
    obtain ⟨y, hy, rfl, key, value, hyo⟩ := isItem_of_mem h hx ho hitem
    rw [h.objectAt hy, hyo] at hb
    refine hslot y hy ?_
    rw [Store.owned, hyo]
    exact hb
  | mmMapItem key value =>
    rw [ho] at hb
    exact absurd hb List.not_mem_nil
  | _ =>
    refine hslot x hx ?_
    rw [ho] at hb
    rw [Store.owned, ho]
    exact hb

theorem exists_holder (h : Sound [] held [] s) (hpos : 0 < slotsOf s mem) :
    ∃ x ∈ s.pool.records, ¬IsItem s x.m ∧ Holds s x.m mem := by
  rw [slotsOf, sum_records] at hpos
  obtain ⟨x, hx, h0⟩ : ∃ x ∈ s.pool.records, 0 < (contents s (s.objects x.serial)).count mem := by
    by_contra hno
    refine hpos.ne' (List.sum_eq_zero fun k hk => ?_)
    obtain ⟨x, hx, rfl⟩ := List.mem_map.mp hk
    exact Nat.eq_zero_of_not_pos fun h0 => hno ⟨x, hx, h0⟩
  have hmem := List.count_pos_iff.mp h0
  refine ⟨x, hx, fun hit => ?_, x, hx, rfl, hmem⟩
  obtain ⟨key, value, ho⟩ := (isItem_iff h hx).mp hit
  rw [ho] at hmem
  exact absurd hmem List.not_mem_nil

/-- Where no count is 0, an owner or a cycle keeps every object. -/
theorem kept_of_pos (h : Good st) (hpos : ∀ x ∈ st.store.pool.records, 0 < x.r)
    (hx : x ∈ st.store.pool.records) (hit : ¬IsItem st.store x.m) : Kept st x.m := by
  have hfin : {a | a ∈ st.store.pool.live ∧ ¬IsItem st.store a}.Finite :=
    (List.finite_toSet st.store.pool.live).subset fun a ha => ha.1
  have hstep : ∀ a ∈ {a | a ∈ st.store.pool.live ∧ ¬IsItem st.store a}, 0 < st.owners a ∨
      ∃ b ∈ {a | a ∈ st.store.pool.live ∧ ¬IsItem st.store a}, Holds st.store b a := by
    rintro a ⟨hlive, hno⟩
    obtain ⟨y, hy, rfl⟩ := List.mem_map.mp hlive
    have hc := h.sound.law.count y hy
    rw [← slotsOf_eq h hno, List.count_nil] at hc
    by_cases h0 : 0 < st.owners y.m
    · exact Or.inl h0
    · have hr := hpos y hy
      have hslots : 0 < slotsOf st.store y.m := by omega
      obtain ⟨z, hz, hzi, hzy⟩ := exists_holder h.sound hslots
      exact Or.inr ⟨z.m, ⟨List.mem_map_of_mem hz, hzi⟩, hzy⟩
  obtain ⟨a, ha, hax, hroot⟩ := exists_root_or_cycle hfin hstep ⟨List.mem_map_of_mem hx, hit⟩
  exact ⟨a, ha.1, hax, hroot⟩

theorem Good.balanced (h : Good st) : Balanced st := by
  refine ⟨fun x hx hit => ?_, fun x hx hit => ⟨?_, tablesOf_eq_one h hx hit⟩, fun a b ha hab => ?_,
    ?_⟩
  · rw [retainedCount_eq h.sound hx, slotsOf_eq h hit]
  · rw [mgnMemRetainedCount, h.sound.inv.find_of_mem hx]
    exact h.sound.tables.once x hx hit
  · induction hab with
    | refl => exact ha
    | tail _ hbc _ => exact hbc.live h.sound
  · obtain ⟨s, hs, hkeeps, hpos⟩ := releaseUnused_ok h.sound
    have hgood : Good ⟨s, st.owners⟩ := h.of_leaves (Keeps.leaves hkeeps) fun _ _ => le_rfl
    exact ⟨s, hs, fun x hx hit => kept_of_pos hgood hpos hx hit⟩

end Balance

section Runs

variable {malloc : Malloc} {sizeOf : Object → Nat} {compareMmobjs : Store → Nat → Nat → Int}
  {st : State} {op : Op}

instance : (a : Nat) → (s : Store) → Decidable (IsItem s a) := fun a s =>
  decidable_of_iff (∃ x ∈ s.pool.records, x.m = a ∧ isMMMapItem (s.objects x.serial) = true) <| by
    have hkind : ∀ o, isMMMapItem o = true ↔ ∃ key value, o = .mmMapItem key value := by
      intro o
      cases o <;> simp [isMMMapItem]
    simp only [IsItem, hkind]

instance (s : Store) (a : Nat) : Decidable (Valid s a) :=
  inferInstanceAs (Decidable (a = 0 ∨ a ∈ s.pool.live ∧ ¬IsItem s a))

instance (mems : List Nat) (s : Store) : Decidable (Room mems s) :=
  inferInstanceAs (Decidable (∀ x ∈ s.pool.records, x.r + mems.count x.m < 2 ^ 64))

instance (op : Op) (st : State) : Decidable (Proper op st) :=
  match op with
  | .release mem | .autorelease mem => inferInstanceAs (Decidable (_ ∧ (mem ≠ 0 → _)))
  | .alloc _ | .retain _ | .push _ _ | .pop _ | .insert _ _ _ | .concat _ _ | .add _ _ _
  | .remove _ _ | .strongReference _ | .releaseUnused => inferInstanceAs (Decidable (_ ∧ True))

def AddsToOwned (op : Op) (st : State) : Prop :=
  match op with
  | .add map _ _ => 0 < st.owners map
  | _ => True

instance (op : Op) (st : State) : Decidable (AddsToOwned op st) :=
  match op with
  | .add map _ _ => inferInstanceAs (Decidable (0 < st.owners map))
  | .alloc _ | .retain _ | .release _ | .autorelease _ | .push _ _ | .pop _ | .insert _ _ _
  | .concat _ _ | .remove _ _ | .strongReference _ | .releaseUnused =>
    inferInstanceAs (Decidable True)

instance decidableAlong {P : Op → State → Prop} [∀ op st, Decidable (P op st)] :
    (ops : List Op) → (st : State) → Decidable (Along malloc sizeOf compareMmobjs P ops st)
  | [], _ => isTrue trivial
  | op :: ops, st =>
    match h : op.step malloc sizeOf compareMmobjs st with
    | .ok st' =>
      haveI := decidableAlong (P := P) ops st'
      decidable_of_iff (P op st ∧ Along malloc sizeOf compareMmobjs P ops st') (by simp [Along, h])
    | .error _ => decidable_of_iff (P op st) (by simp [Along, h])

theorem spared_of_owned (h : Good st) (hroom : Room (retains st.store op) st.store)
    (hown : AddsToOwned op st) : Spared op st := by
  refine ⟨hroom, ?_⟩
  cases op with
  | add map key value =>
    intro _ _ x hx y hy sorted items b hxm _ _ _ hfall
    have hpos : 0 < st.owners map := hown
    rw [Falls] at hfall
    generalize hn : x.serial = n at hfall
    cases hfall with
    | @intro z hz hzero _ _ =>
      rw [h.sound.law.eq_of_serial hx hz hn.symm, hxm] at hzero
      omega
  | _ => trivial

/-- Callers who own the maps they add to never reach the defect. -/
theorem along_spared {ops : List Op} (h : Good st)
    (hops : Along malloc sizeOf compareMmobjs
      (fun op st => Proper op st ∧ Room (retains st.store op) st.store ∧ AddsToOwned op st)
      ops st) :
    Along malloc sizeOf compareMmobjs (fun op st => Proper op st ∧ Spared op st) ops st := by
  induction ops generalizing st with
  | nil => trivial
  | cons op ops ih =>
    obtain ⟨⟨hp, hroom, hown⟩, hrest⟩ := hops
    have hs := spared_of_owned h hroom hown
    refine ⟨⟨hp, hs⟩, fun st' hst => ih ?_ (hrest st' hst)⟩
    have hstep : Meets NotFreed Good (op.step malloc sizeOf compareMmobjs st) :=
      step_good op h hp hs
    rw [hst] at hstep
    exact hstep

end Runs

section Results

/-- A run in which every map whose entry is replaced outlives the old entry, and no
count runs over, comes to balanced states only. -/
theorem accounted_of_spared (malloc : Malloc) (sizeOf : Object → Nat)
    (compareMmobjs : Store → Nat → Nat → Int) (ops : List Op)
    (hops : Along malloc sizeOf compareMmobjs (fun op st => Proper op st ∧ Spared op st)
      ops start) :
    Accounted malloc sizeOf compareMmobjs ops :=
  (runOps_good ops good_start hops).imp fun _ h => h.balanced

def sampleOps : List Op :=
  [.alloc .mmMapSorted, .alloc .mmList, .alloc (.mmInt 1), .add 1 4 2, .push 2 4, .insert 2 1 3,
    .concat 2 2, .pop 2, .strongReference 2, .add 1 4 4, .remove 1 4, .releaseUnused]

theorem accounted_of_spared_sampleOps :
    Accounted bumpMalloc (fun _ => 8) (fun _ _ _ => 0) sampleOps := by
  have hops : Along bumpMalloc (fun _ => 8) (fun _ _ _ => 0)
      (fun op st => Proper op st ∧ Room (retains st.store op) st.store ∧ AddsToOwned op st)
      sampleOps start := by decide +kernel
  exact accounted_of_spared bumpMalloc (fun _ => 8) (fun _ _ _ => 0) sampleOps
    (along_spared good_start hops)

/-- A map that callers have autoreleased is in a list that it holds itself; a new value
for the key of the list frees the list and the map, which is then read. -/
def fallingOps : List Op :=
  [.alloc .mmMap, .alloc .mmList, .alloc (.mmInt 1), .alloc (.mmInt 2), .add 1 4 2, .push 2 1,
    .autorelease 1, .release 2, .add 1 4 8]

def stoppedFreed : Except Stop State → Bool
  | .error (.useAfterFree _) => true
  | _ => false

theorem not_meets_of_stoppedFreed {P : State → Prop} {r : Except Stop State}
    (h : stoppedFreed r = true) : ¬Meets NotFreed P r := by
  intro hm
  cases r with
  | ok st => cases h
  | error e =>
    cases e with
    | useAfterFree n => exact hm
    | _ => cases h

theorem not_accounted :
    ¬∀ (malloc : Malloc) (sizeOf : Object → Nat) (compareMmobjs : Store → Nat → Nat → Int)
      (ops : List Op), Along malloc sizeOf compareMmobjs Proper ops start →
      Accounted malloc sizeOf compareMmobjs ops := by
  intro h
  have hfall := h bumpMalloc (fun _ => 8) (fun _ _ _ => 0) fallingOps (by decide +kernel)
  exact not_meets_of_stoppedFreed (by decide +kernel) hfall

end Results

end LcClibs.Mmo.Accounts
