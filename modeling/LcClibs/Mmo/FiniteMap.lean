import Mathlib
import LcClibs.Mmo.Frames
import LcClibs.Mmo.Handles

namespace LcClibs.Mmo.FiniteMap

open Platform Lib Lib.Runs Lib.LastAdd Memory.Managed Memory.Safety Mmo.Ownership Mmo.Accounts
  Mmo.Frames Mmo.Handles
open Mmo.Containers hiding addMMMapItem removeMMMapItem

section Spec

variable (malloc : Malloc) (sizeOf : Object → Nat) (compareMmobjs : Store → Nat → Nat → Int)

/-- A map of keys of a class that is the finite map its calls make: a look-up answers with
what was last added under the value of the key and not removed since, the size is the
number of keys under which something stands, the order is that of their last adds, and
every handle points into the key that its item has. A call comes to an end, unless it
needs an item that the allocator refuses. -/
structure IsFiniteMap (c : KeyClass) (map : Nat) (calls : List (Call Object Nat)) (t : Tracked) :
    Prop where
  get_some : ∀ key object value, t.hashed.store.objectAt key = some object →
    isKey c object = true → Stands calls object value →
      getMMMapItemValue map key t.hashed = .ok value
  get_none : ∀ key object, t.hashed.store.objectAt key = some object →
    isKey c object = true → (∀ value, ¬Stands calls object value) →
      getMMMapItemValue map key t.hashed = .ok 0
  size : ∃ keys : List Object, keys.Nodup ∧ (∀ k, k ∈ keys ↔ ∃ value, Stands calls k value) ∧
    sizeOfMMMap map t.hashed = .ok keys.length
  iter : ∃ entries, iterMMMap map t.hashed = .ok entries ∧
    (entries.map fun e => (t.hashed.store.objectAt e.1, e.2)) =
      (survivors calls).map fun e => (some e.1, e.2)
  handles : ∀ sorted items, toMMMap map t.hashed.store = .ok (sorted, items) →
    ∀ item ∈ items, ∃ key value, toMMMapItem item t.hashed.store = .ok (key, value) ∧
      hhKeyOf item t.hashed = .ok key ∧ key ∈ t.hashed.store.pool.live
  adds : ∀ key value, Proper (.add map key value) t.state → Spared (.add map key value) t.state →
    keyFor c t.hashed.store key = true → ¬Refused malloc sizeOf (.mmMapItem 0 0) t.hashed.store →
      ∃ s, addMMMapItem malloc sizeOf compareMmobjs map key value t.hashed = .ok s
  removes : ∀ key, keyFor c t.hashed.store key = true →
    ∃ s, removeMMMapItem map key t.hashed = .ok s

/-- What a run comes to: every unsorted map is a finite map, or a stop that is no use of a
freed block. -/
def KeepsFiniteMaps (classOf : Nat → KeyClass) (ops : List Op) : Prop :=
  Meets NotFreed (fun t => ∀ x ∈ t.hashed.store.pool.records,
    (unsortedItems (t.hashed.store.objects x.serial)).isSome →
      IsFiniteMap malloc sizeOf compareMmobjs (classOf x.serial) x.m (t.calls x.serial) t)
    (runTracked malloc sizeOf compareMmobjs ops trackedStart)

end Spec

section Entries

variable {c : KeyClass} {s s' : Store} {item : Nat} {items : List Nat} {object : Object}
  {bytes : List UInt8} {table : List (Object × Nat)}

def entryAt (s : Store) (item : Nat) : Option Object × Nat :=
  match s.objectAt item with
  | some (.mmMapItem key value) => (s.objectAt key, value)
  | _ => (none, 0)

def shown (e : Object × Nat) : Option Object × Nat := (some e.1, e.2)

structure Shows (c : KeyClass) (s : Store) (items : List Nat) (table : List (Object × Nat)) :
    Prop where
  entries : items.map (entryAt s) = table.map shown
  keys : ∀ e ∈ table, isKey c e.1 = true
  nodup : (table.map Prod.fst).Nodup
  small : table.length < 2 ^ 32

theorem Shows.length (h : Shows c s items table) : items.length = table.length := by
  have hlen := congrArg List.length h.entries
  rwa [List.length_map, List.length_map] at hlen

theorem itemHash_eq (s : Store) (item : Nat) :
    s.itemHash item = (entryAt s item).1.bind Object.hash := by
  rw [Store.itemHash, entryAt]
  cases s.objectAt item with
  | none => rfl
  | some object => cases object <;> rfl

theorem Shows.exists_entry (h : Shows c s items table) (hi : item ∈ items) :
    ∃ e ∈ table, entryAt s item = shown e := by
  have hmem : entryAt s item ∈ table.map shown := by
    rw [← h.entries]
    exact List.mem_map_of_mem hi
  obtain ⟨e, he, heq⟩ := List.mem_map.mp hmem
  exact ⟨e, he, heq.symm⟩

theorem Shows.itemHash (h : Shows c s items table) (hi : item ∈ items)
    (hk : isKey c object = true) (hb : object.hash = some bytes) :
    s.itemHash item = some bytes ↔ (entryAt s item).1 = some object := by
  obtain ⟨e, he, heq⟩ := h.exists_entry hi
  rw [itemHash_eq, heq, shown]
  constructor
  · intro hhash
    rw [eq_of_hash (h.keys e he) hk (hhash.trans hb.symm)]
  · intro ho
    rw [ho]
    exact hb

theorem Shows.findItem (h : Shows c s items table) (hk : isKey c object = true)
    (hb : object.hash = some bytes) :
    (s.findItem items bytes).map (entryAt s) =
      (Table.find Prod.fst object table).map shown := by
  have hcongr : s.findItem items bytes =
      items.find? ((fun e => decide (e.1 = some object)) ∘ entryAt s) := by
    rw [Store.findItem]
    refine List.find?_congr fun item hi => ?_
    rw [Function.comp_apply, decide_eq_decide]
    exact h.itemHash hi hk hb
  have hshown : (fun e => decide (e.1 = some object)) ∘ shown = fun e => decide (e.1 = object) := by
    funext e
    simp [shown]
  rw [hcongr, ← List.find?_map, h.entries, List.find?_map, hshown, Table.find]

theorem Shows.keys_nodup (h : Shows c s items table) :
    (items.map fun item => (entryAt s item).1).Nodup := by
  have hmap : (items.map fun item => (entryAt s item).1) = (table.map Prod.fst).map some := by
    rw [List.map_map, show (fun item => (entryAt s item).1) = Prod.fst ∘ entryAt s from rfl,
      ← List.map_map, h.entries, List.map_map]
    rfl
  rw [hmap]
  exact h.nodup.map (Option.some_injective _)

/-- Without the item that is found, the key is gone. -/
theorem Shows.erase (h : Shows c s items table) (hk : isKey c object = true)
    (hb : object.hash = some bytes) (hf : s.findItem items bytes = some item) :
    Shows c s (items.erase item) (Table.del Prod.fst object table) := by
  have hitem : item ∈ items := findItem_mem hf
  have hfound : (entryAt s item).1 = some object :=
    (h.itemHash hitem hk hb).mp (by simpa using List.find?_some hf)
  have hsub : (Table.del Prod.fst object table).Sublist table := List.filter_sublist
  refine ⟨?_, fun e he => h.keys e (hsub.subset he), h.nodup.sublist (hsub.map _),
    hsub.length_le.trans_lt h.small⟩
  have herase : items.erase item =
      items.filter ((fun e => decide (e.1 ≠ some object)) ∘ entryAt s) := by
    rw [(List.Nodup.of_map _ h.keys_nodup).erase_eq_filter]
    refine List.filter_congr fun a ha => ?_
    have hsame : a = item ↔ (entryAt s a).1 = some object :=
      ⟨fun he => he ▸ hfound, fun he =>
        List.inj_on_of_nodup_map h.keys_nodup ha hitem (he.trans hfound.symm)⟩
    rw [Function.comp_apply, Bool.eq_iff_iff, bne_iff_ne, decide_eq_true_iff]
    exact not_congr hsame
  have hshown : (fun e => decide (e.1 ≠ some object)) ∘ shown =
      fun e => decide (e.1 ≠ object) := by
    funext e
    simp [shown]
  rw [herase, ← List.filter_map, h.entries, List.filter_map, hshown, Table.del]

end Entries

section Links

variable {s s' : Store} {hhKey : Nat → Nat} {E : List Nat} {held : Owners} {mem item : Nat}
  {x y : Record} {object : Object}

/-- The handle of an item points into the key of the item, which is live. -/
structure LinkedBy (s : Store) (hhKey : Nat → Nat) (item : Nat) (y : Record) (key value : Nat)
    (object : Object) : Prop where
  find : s.pool.find item = some y
  entry : s.objects y.serial = .mmMapItem key value
  handle : hhKey y.serial = key
  key_ne : key ≠ 0
  value_ne : value ≠ 0
  key : s.objectAt key = some object

def Linked (s : Store) (hhKey : Nat → Nat) (item : Nat) : Prop :=
  ∃ y key value object, LinkedBy s hhKey item y key value object

theorem LinkedBy.entryAt {key value : Nat} (h : LinkedBy s hhKey item y key value object) :
    entryAt s item = (some object, value) := by
  rw [FiniteMap.entryAt, Store.objectAt, h.find, Option.map_some, h.entry]
  simp only [h.key]

theorem Linked.hhBytes (h : Linked s hhKey item) :
    hhBytes item ⟨s, hhKey⟩ = .ok (s.itemHash item) := by
  obtain ⟨y, key, value, object, hl⟩ := h
  have hkey : hhKeyOf item ⟨s, hhKey⟩ = .ok key := by
    rw [hhKeyOf]
    simp only [hl.find, hl.handle]
  have hderef : deref key s = .ok object := by
    rw [deref, if_neg hl.key_ne, hl.key]
  rw [Handles.hhBytes, bind_ok hkey, bind_ok hderef, itemHash_eq, hl.entryAt]
  rfl

theorem hashFind_eq {items : List Nat} (h : ∀ item ∈ items, Linked s hhKey item)
    (bytes : List UInt8) : hashFind bytes ⟨s, hhKey⟩ items = .ok (s.findItem items bytes) := by
  induction items with
  | nil => rfl
  | cons item items ih =>
    rw [hashFind, bind_ok (h item List.mem_cons_self).hhBytes, Store.findItem, List.find?_cons]
    by_cases hi : s.itemHash item = some bytes
    · simp only [hi, if_true, decide_true]
      rfl
    · simp only [hi, if_false, decide_false]
      exact ih fun a ha => h a (List.mem_cons_of_mem _ ha)

theorem LinkedBy.frame {key value : Nat} (h : LinkedBy s hhKey item y key value object)
    (hf : Frame E s s') (hinv : Inv ∅ s.pool) (hs : Sound [] held [] s')
    (hE : ∀ n ∈ E, isMMMapItem (s.objects n) = true) (hy : y.serial ∉ E)
    (hlive : item ∈ s'.pool.live) : ∃ y' object', LinkedBy s' hhKey item y' key value object' ∧
      y'.serial = y.serial ∧ (isMMMapItem object = false → Same object object') := by
  obtain ⟨y', hy', rfl⟩ := List.mem_map.mp hlive
  have hfind := hs.inv.find_of_mem hy'
  have hserial := hf.serial_eq hinv h.find hfind
  have hentry : s'.objects y'.serial = .mmMapItem key value := by
    have hsame := hf.objects y.serial (hinv.serial_lt _ (serial_mem (find_mem h.find).1)) hy
    rw [hserial, hsame.eq (by rw [h.entry]; exact id), h.entry]
  obtain ⟨object', hkey, hsame⟩ := hf.objectAt hinv hs.inv h.key hE
    (entry_live hs hy' hentry h.key_ne)
  exact ⟨y', object', ⟨hfind, hentry, by rw [hserial, h.handle], h.key_ne, h.value_ne, hkey⟩,
    hserial, hsame⟩

end Links

section Tidy

variable {classOf : Nat → KeyClass} {tables : Nat → List (Object × Nat)} {s s' : Store}
  {hhKey : Nat → Nat} {E : List Nat} {held : Owners} {item n : Nat} {x y : Record}
  {c : KeyClass} {object : Object} {sorted : Bool} {items : List Nat}

/-- Every item of a map is linked, and an unsorted map shows its table. -/
structure Tidy (classOf : Nat → KeyClass) (tables : Nat → List (Object × Nat)) (s : Store)
    (hhKey : Nat → Nat) : Prop where
  linked : ∀ x ∈ s.pool.records, ∀ sorted items, s.objects x.serial = .mmMap sorted items →
    ∀ item ∈ items, Linked s hhKey item
  shows : ∀ x ∈ s.pool.records, ∀ items, s.objects x.serial = .mmMap false items →
    Shows (classOf x.serial) s items (tables x.serial)
  fresh : ∀ n, s.pool.clock ≤ n → tables n = []

def Loose (s : Store) (n : Nat) : Prop :=
  isMMMapItem (s.objects n) = true ∧ ∀ x ∈ s.pool.records, ∀ sorted items,
    s.objects x.serial = .mmMap sorted items → ∀ item ∈ items, ∀ y, s.pool.find item = some y →
      y.serial ≠ n

theorem isKey_active (h : isKey c object = true) :
    isMMMapItem object = false ∧ ¬Passive object := by
  obtain ⟨v, -, rfl, -⟩ | ⟨v, -, rfl, -⟩ | ⟨cs, -, rfl⟩ := isKey_cases h <;> exact ⟨rfl, id⟩

theorem Shows.congr {table : List (Object × Nat)} (h : Shows c s items table)
    (he : ∀ item ∈ items, entryAt s' item = entryAt s item) : Shows c s' items table :=
  ⟨by rw [← h.entries]; exact List.map_congr_left he, h.keys, h.nodup, h.small⟩

theorem Shows.key {table : List (Object × Nat)} {key value : Nat} (h : Shows c s items table)
    (hi : item ∈ items) (hl : LinkedBy s hhKey item y key value object) :
    isKey c object = true := by
  obtain ⟨e, he, heq⟩ := h.exists_entry hi
  rw [hl.entryAt, shown] at heq
  obtain ⟨ho, -⟩ := Prod.mk.inj heq
  rw [Option.some.inj ho]
  exact h.keys e he

/-- An operation that touches no table, nor an item in one, leaves the maps as they are. -/
theorem Tidy.frame (h : Tidy classOf tables s hhKey) (hf : Frame E s s') (hinv : Inv ∅ s.pool)
    (hs : Sound [] held [] s') (hE : ∀ n ∈ E, Loose s n) : Tidy classOf tables s' hhKey := by
  have hstays : ∀ z ∈ s.pool.records, ∀ sorted items, s.objects z.serial = .mmMap sorted items →
      ∀ item ∈ items, item ∈ s'.pool.live → ∃ y key value object y' object',
        LinkedBy s hhKey item y key value object ∧ LinkedBy s' hhKey item y' key value object' ∧
        (isMMMapItem object = false → Same object object') := by
    intro z hz sorted items ho item hi hlive
    obtain ⟨y, key, value, object, hl⟩ := h.linked z hz sorted items ho item hi
    have hy : y.serial ∉ E := fun hmem => (hE _ hmem).2 z hz sorted items ho item hi y hl.find rfl
    obtain ⟨y', object', hl', -, hsame⟩ :=
      hl.frame hf hinv hs (fun n hn => (hE n hn).1) hy hlive
    exact ⟨y, key, value, object, y', object', hl, hl', hsame⟩
  refine ⟨fun x hx sorted items ho item hi => ?_, fun x hx items ho => ?_, fun n hn =>
    h.fresh n (hf.clock.trans hn)⟩
  · have hlive := (isItem_of_mem hs hx ho hi).live
    obtain ⟨z, hz, -, hzo⟩ | ⟨rfl, -⟩ := hf.table hinv hx ho
    · obtain ⟨y, key, value, object, y', object', -, hl', -⟩ :=
        hstays z hz sorted items hzo item hi hlive
      exact ⟨y', key, value, object', hl'⟩
    · exact absurd hi List.not_mem_nil
  · obtain ⟨z, hz, hzs, hzo⟩ | ⟨rfl, hc⟩ := hf.table hinv hx ho
    · have hshow := h.shows z hz items hzo
      rw [hzs] at hshow
      refine hshow.congr fun item hi => ?_
      obtain ⟨y, key, value, object, y', object', hl, hl', hsame⟩ :=
        hstays z hz false items hzo item hi (isItem_of_mem hs hx ho hi).live
      obtain ⟨hno, hactive⟩ := isKey_active (hshow.key hi hl)
      rw [hl.entryAt, hl'.entryAt, (hsame hno).eq hactive]
    · rw [h.fresh _ hc]
      exact ⟨rfl, fun e he => absurd he List.not_mem_nil, List.nodup_nil, by norm_num⟩

end Tidy

section Writes

variable {classOf : Nat → KeyClass} {tables : Nat → List (Object × Nat)} {s s' : Store}
  {hhKey : Nat → Nat} {E : List Nat} {item n key value : Nat} {x y : Record} {c : KeyClass}
  {object : Object} {sorted : Bool} {items items' : List Nat} {table' : List (Object × Nat)}

theorem Tidy.loose (h : Tidy classOf tables s hhKey) (hf : Frame E s s') (hinv : Inv ∅ s.pool)
    (hitem : isMMMapItem (s'.objects n) = true) (hn : Loose s n ∨ s.pool.clock ≤ n) :
    Loose s' n := by
  refine ⟨hitem, fun x hx sorted items ho a ha y' hy' => ?_⟩
  obtain ⟨z, hz, -, hzo⟩ | ⟨rfl, -⟩ := hf.table hinv hx ho
  · obtain ⟨y, key, value, object, hl⟩ := h.linked z hz sorted items hzo a ha
    rw [hf.serial_eq hinv hl.find hy']
    obtain hloose | hc := hn
    · exact hloose.2 z hz sorted items hzo a ha y hl.find
    · have hlt := hinv.serial_lt _ (serial_mem (find_mem hl.find).1)
      omega
  · exact absurd ha List.not_mem_nil

theorem Tidy.handle (h : Tidy classOf tables s hhKey) (hn : Loose s n) (key : Nat) :
    Tidy classOf tables s (Function.update hhKey n key) := by
  refine ⟨fun x hx sorted items ho item hi => ?_, h.shows, h.fresh⟩
  obtain ⟨y, key, value, object, hl⟩ := h.linked x hx sorted items ho item hi
  have hne := hn.2 x hx sorted items ho item hi y hl.find
  exact ⟨y, key, value, object, hl.find, hl.entry,
    by rw [Function.update_of_ne hne]; exact hl.handle, hl.key_ne, hl.value_ne, hl.key⟩

theorem objectAt_written (items' : List Nat) (hk : s.objectAt key = some object)
    (ho : s.objects n = .mmMap sorted items) :
    ∃ object', (written s n (.mmMap sorted items')).objectAt key = some object' ∧
      (isKey c object = true → object' = object) := by
  obtain ⟨k, hk, hko⟩ := Option.map_eq_some_iff.mp hk
  refine ⟨(written s n (.mmMap sorted items')).objects k.serial, ?_, fun hkey => ?_⟩
  · rw [Store.objectAt, show (written s n (.mmMap sorted items')).pool = s.pool from rfl, hk]
    rfl
  · have hkn : k.serial ≠ n := by
      rintro rfl
      rw [← hko, ho] at hkey
      cases c <;> cases hkey
    rw [write_objects_ne hkn, hko]

theorem LinkedBy.write (items' : List Nat) (h : LinkedBy s hhKey item y key value object)
    (ho : s.objects n = .mmMap sorted items) :
    ∃ object', LinkedBy (written s n (.mmMap sorted items')) hhKey item y key value object' ∧
      (isKey c object = true → object' = object) := by
  have hne : y.serial ≠ n := by
    rintro rfl
    rw [h.entry] at ho
    cases ho
  obtain ⟨object', hkey, hsame⟩ := objectAt_written items' h.key ho
  exact ⟨object', ⟨h.find, by rw [write_objects_ne hne, h.entry], h.handle, h.key_ne, h.value_ne,
    hkey⟩, hsame⟩

theorem Shows.write {table : List (Object × Nat)} (h : Shows c s items' table)
    (hl : ∀ item ∈ items', Linked s hhKey item) (ho : s.objects n = .mmMap sorted items)
    {items'' : List Nat} : Shows c (written s n (.mmMap sorted items'')) items' table := by
  refine h.congr fun item hi => ?_
  obtain ⟨y, key, value, object, hl⟩ := hl item hi
  obtain ⟨object', hl', he⟩ := hl.write items'' ho
  rw [hl'.entryAt, he (h.key hi hl), hl.entryAt]

theorem Linked.write (h : Linked s hhKey item) (ho : s.objects n = .mmMap sorted items) :
    Linked (written s n (.mmMap sorted items')) hhKey item := by
  obtain ⟨y, key, value, object, hl⟩ := h
  obtain ⟨object', hl', -⟩ := hl.write (c := .mmInt) items' ho
  exact ⟨y, key, value, object', hl'⟩

theorem Tidy.write (h : Tidy classOf tables s hhKey) (hinv : Inv ∅ s.pool)
    (hx : x ∈ s.pool.records) (ho : s.objects x.serial = .mmMap sorted items)
    (hlinked : ∀ item ∈ items', Linked s hhKey item)
    (hshow : sorted = false → Shows (classOf x.serial) s items' table') :
    Tidy classOf (Function.update tables x.serial table')
      (written s x.serial (.mmMap sorted items')) hhKey := by
  have hself : (written s x.serial (.mmMap sorted items')).objects x.serial =
      .mmMap sorted items' := by simp [written]
  refine ⟨fun z hz sorted' items'' hzo item hi => ?_, fun z hz items'' hzo => ?_, fun n hn => ?_⟩
  · by_cases hzx : z.serial = x.serial
    · rw [hzx, hself] at hzo
      cases hzo
      exact (hlinked item hi).write ho
    · rw [write_objects_ne hzx] at hzo
      exact (h.linked z hz sorted' items'' hzo item hi).write ho
  · by_cases hzx : z.serial = x.serial
    · rw [hzx, hself] at hzo
      cases hzo
      rw [hzx, Function.update_self]
      exact (hshow rfl).write hlinked ho
    · rw [write_objects_ne hzx] at hzo
      rw [Function.update_of_ne hzx]
      exact (h.shows z hz items'' hzo).write (h.linked z hz false items'' hzo) ho
  · have hlt := hinv.serial_lt _ (serial_mem hx)
    have hne : n ≠ x.serial := by
      rintro rfl
      exact absurd hn (Nat.not_le.mpr hlt)
    rw [Function.update_of_ne hne]
    exact h.fresh n hn

end Writes

section Inserting

variable {compareMmobjs : Store → Nat → Nat → Int} {classOf : Nat → KeyClass}
  {tables : Nat → List (Object × Nat)} {s s' : Store} {hhKey : Nat → Nat}
  {map item key value : Nat} {x y : Record} {c : KeyClass} {object : Object} {sorted : Bool}
  {items : List Nat} {table table' : List (Object × Nat)} {t : HashStore}

theorem Shows.append (h : Shows c s items table) (hk : isKey c object = true)
    (hno : Table.find Prod.fst object table = none) (hsmall : table.length + 1 < 2 ^ 32)
    (he : entryAt s item = (some object, value)) :
    Shows c s (items ++ [item]) (table ++ [(object, value)]) := by
  refine ⟨?_, fun e hmem => ?_, ?_, ?_⟩
  · rw [List.map_append, List.map_append, h.entries, List.map_singleton, he]
    rfl
  · obtain hmem | hmem := List.mem_append.mp hmem
    · exact h.keys e hmem
    · rw [List.mem_singleton.mp hmem]
      exact hk
  · rw [List.map_append, List.map_singleton]
    refine List.nodup_append.mpr ⟨h.nodup, List.nodup_singleton _, fun a ha b hb => ?_⟩
    obtain ⟨e, hmem, rfl⟩ := List.mem_map.mp ha
    rw [List.mem_singleton.mp hb]
    exact Table.find_eq_none.mp hno e hmem
  · rw [List.length_append, List.length_singleton]
    exact hsmall

theorem addToTable_inv (hx : s.pool.find map = some x)
    (ho : s.objects x.serial = .mmMap sorted items)
    (hrun : addToTable compareMmobjs map item s = .ok s') :
    ∃ items', s' = written s x.serial (.mmMap sorted items') ∧
      (∀ a ∈ items', a ∈ items ∨ a = item) ∧ (sorted = false → items' = items ++ [item]) := by
  obtain ⟨⟨sorted', items'⟩, h1, hrun⟩ := ok_of_bind hrun
  obtain ⟨x', hx', ho'⟩ := toMMMap_inv h1
  obtain rfl := Option.some.inj (hx.symm.trans hx')
  rw [ho] at ho'
  cases ho'
  cases sorted with
  | true =>
    obtain ⟨x', hx', rfl⟩ := assign_inv hrun
    obtain rfl := Option.some.inj (hx.symm.trans hx')
    refine ⟨_, rfl, fun a ha => ?_, fun hs => by cases hs⟩
    have hpos := List.count_pos_iff.mpr ha
    rw [addInorder_count] at hpos
    obtain h0 | h0 : 0 < items.count a ∨ 0 < [item].count a := by omega
    · exact Or.inl (List.count_pos_iff.mp h0)
    · exact Or.inr (List.mem_singleton.mp (List.count_pos_iff.mp h0))
  | false =>
    obtain ⟨x', hx', rfl⟩ := assign_inv hrun
    obtain rfl := Option.some.inj (hx.symm.trans hx')
    exact ⟨_, rfl, fun a ha => by simpa using ha, fun _ => rfl⟩

/-- The item of the operation goes into its map, and its handle follows its key. -/
theorem hashAddKeyptr_tidy (h : Tidy classOf tables s hhKey) (hinv : Inv ∅ s.pool)
    (hx : s.pool.find map = some x) (ho : s.objects x.serial = .mmMap sorted items)
    (hy : s.pool.find item = some y) (hyo : s.objects y.serial = .mmMapItem key value)
    (hloose : Loose s y.serial) (hkey : s.objectAt key = some object) (hk0 : key ≠ 0)
    (hv0 : value ≠ 0)
    (hshow : sorted = false → Shows (classOf x.serial) s (items ++ [item]) table')
    (hrun : hashAddKeyptr compareMmobjs map item key ⟨s, hhKey⟩ = .ok t) :
    Tidy classOf (Function.update tables x.serial table') t.store t.hhKey := by
  obtain ⟨s1, h1, hrun⟩ := ok_of_bind hrun
  obtain ⟨items', rfl, hmem, hitems⟩ := addToTable_inv hx ho h1
  have hfind : (written s x.serial (.mmMap sorted items')).pool.find item = some y := hy
  simp only [hfind] at hrun
  cases hrun
  have htidy := h.handle hloose key
  have hxr := (find_mem hx).1
  have hnew : Linked s (Function.update hhKey y.serial key) item :=
    ⟨y, key, value, object, hy, hyo, Function.update_self .., hk0, hv0, hkey⟩
  refine htidy.write hinv hxr ho (fun a ha => ?_) fun hsorted => ?_
  · obtain hold | rfl := hmem a ha
    · exact htidy.linked x hxr sorted items ho a hold
    · exact hnew
  · rw [hitems hsorted]
    exact hshow hsorted

end Inserting

section Adding

variable {malloc : Malloc} {sizeOf : Object → Nat} {compareMmobjs : Store → Nat → Nat → Int}
  {classOf : Nat → KeyClass} {tables : Nat → List (Object × Nat)} {s s' : Store}
  {hhKey : Nat → Nat} {E : List Nat} {held : Owners} {map item key value : Nat} {x y : Record}
  {object : Object} {sorted : Bool} {items : List Nat} {t : HashStore}

/-- The end of adding, from the moment at which the key is in no entry of the map. -/
theorem Tidy.insert (table' : List (Object × Nat)) (h : Tidy classOf tables s hhKey)
    (hinv : Inv ∅ s.pool) (hf : Frame E s s') (hE : ∀ n ∈ E, Loose s n)
    (hs : Sound [] held [] s') (hx : s.pool.find map = some x)
    (ho : s.objects x.serial = .mmMap sorted items) (hy : s'.pool.find item = some y)
    (hyo : s'.objects y.serial = .mmMapItem key value)
    (hloose : Loose s y.serial ∨ s.pool.clock ≤ y.serial) (hkey : s.objectAt key = some object)
    (hk0 : key ≠ 0) (hv0 : value ≠ 0)
    (hentry : sorted = false → isKey (classOf x.serial) object = true ∧
      Table.find Prod.fst object (tables x.serial) = none ∧
      (tables x.serial).length + 1 < 2 ^ 32 ∧ table' = tables x.serial ++ [(object, value)])
    (hrun : hashAddKeyptr compareMmobjs map item key ⟨s', hhKey⟩ = .ok t) :
    Tidy classOf (Function.update tables x.serial table') t.store t.hhKey := by
  have htidy := h.frame hf hinv hs hE
  have hitem : isMMMapItem (s'.objects y.serial) = true := by
    rw [hyo]
    rfl
  have hxE : x.serial ∉ E := by
    intro hmem
    have hxi := (hE _ hmem).1
    rw [ho] at hxi
    cases hxi
  obtain ⟨s1, hadd, -⟩ := ok_of_bind hrun
  obtain ⟨p, hmap, -⟩ := ok_of_bind hadd
  obtain ⟨x', hx', -⟩ := toMMMap_inv hmap
  obtain ⟨hserial, ho'⟩ := hf.map_eq hinv hx ho hxE hx'
  obtain ⟨object', hkey', hsame⟩ := hf.objectAt hinv hs.inv hkey (fun n hn => (hE n hn).1)
    (entry_live hs (find_mem hy).1 hyo hk0)
  rw [← hserial]
  refine hashAddKeyptr_tidy htidy hs.inv hx' ho' hy hyo (h.loose hf hinv hitem hloose) hkey' hk0
    hv0 (fun hsorted => ?_) hrun
  obtain ⟨hk, hno, hsmall, rfl⟩ := hentry hsorted
  subst hsorted
  rw [← hserial] at hk hno hsmall ⊢
  obtain ⟨hnoitem, hactive⟩ := isKey_active hk
  refine (htidy.shows x' (find_mem hx').1 items ho').append hk hno hsmall ?_
  rw [entryAt, Store.objectAt, hy, Option.map_some, hyo]
  simp only [hkey', (hsame hnoitem).eq hactive]

end Adding

section Operations

variable {malloc : Malloc} {sizeOf : Object → Nat} {compareMmobjs : Store → Nat → Nat → Int}
  {classOf : Nat → KeyClass} {calls : Calls} {st : State} {s : Store}
  {hhKey : Nat → Nat} {map item key value n : Nat} {x y z : Record}
  {object : Object} {bytes : List UInt8} {sorted : Bool} {items : List Nat}
  {t : HashStore}

theorem items_nodup (hg : Good st) (hx : x ∈ st.store.pool.records)
    (ho : st.store.objects x.serial = .mmMap sorted items) : items.Nodup := by
  have hnd := (List.nodup_flatMap.mp (tables_nodup hg)).1 x hx
  rwa [ho] at hnd

theorem items_apart {sorted' : Bool} {items' : List Nat} (hg : Good st)
    (hx : x ∈ st.store.pool.records) (ho : st.store.objects x.serial = .mmMap sorted items)
    (hz : z ∈ st.store.pool.records) (hzo : st.store.objects z.serial = .mmMap sorted' items')
    (hne : x ≠ z) (hi : item ∈ items) : item ∉ items' := by
  have hpair := (List.nodup_flatMap.mp (tables_nodup hg)).2
  have : Std.Symm (Function.onFun List.Disjoint
      fun x : Record => tableOf (st.store.objects x.serial)) :=
    ⟨fun _ _ hd => List.Disjoint.symm hd⟩
  have hdisjoint := hpair.forall hx hz hne
  rw [Function.onFun, ho, hzo] at hdisjoint
  exact hdisjoint hi

theorem loose_of_erase (hg : Good st) (hx : x ∈ st.store.pool.records)
    (ho : st.store.objects x.serial = .mmMap sorted items) (hi : item ∈ items)
    (hy : st.store.pool.find item = some y)
    (hyo : st.store.objects y.serial = .mmMapItem key value) :
    Loose (written st.store x.serial (.mmMap sorted (items.erase item))) y.serial := by
  have hyx : y.serial ≠ x.serial := by
    intro he
    rw [he, ho] at hyo
    cases hyo
  have hself : (written st.store x.serial (.mmMap sorted (items.erase item))).objects x.serial =
      .mmMap sorted (items.erase item) := by simp [written]
  refine ⟨by rw [write_objects_ne hyx, hyo]; rfl, fun z hz sorted' items' hzo a ha w hw hwy => ?_⟩
  have hwe : w = y := hg.sound.law.eq_of_serial (find_mem hy).1 (find_mem hw).1 hwy
  obtain rfl : a = item := by rw [← (find_mem hw).2, hwe, (find_mem hy).2]
  by_cases hzx : z.serial = x.serial
  · rw [hzx, hself] at hzo
    cases hzo
    exact (items_nodup hg hx ho).not_mem_erase ha
  · rw [write_objects_ne hzx] at hzo
    exact items_apart hg hx ho hz hzo (fun he => hzx (by rw [he])) hi ha

theorem hashOfMmobj_inv (h : hashOfMmobj key s = .ok bytes) :
    key ≠ 0 ∧ ∃ object, s.objectAt key = some object ∧ object.hash = some bytes := by
  obtain ⟨object, hd, hr⟩ := ok_of_bind h
  obtain ⟨h0, x, hx, rfl⟩ := deref_inv hd
  refine ⟨h0, s.objects x.serial, by rw [Store.objectAt, hx]; rfl, ?_⟩
  cases hb : (s.objects x.serial).hash with
  | none =>
    rw [hb] at hr
    cases hr
  | some b =>
    rw [hb] at hr
    rw [Except.ok.inj hr]

theorem survivors_note {call : Object → Call Object Nat} (hx : s.pool.find map = some x)
    (hk : s.objectAt key = some object) :
    (fun n => survivors (note s map key call calls n)) =
      Function.update (fun n => survivors (calls n)) x.serial
        (survivors (calls x.serial ++ [call object])) := by
  funext n
  simp only [note, hx, hk]
  by_cases hn : n = x.serial
  · subst hn
    simp
  · simp [hn]

end Operations

section Calls

variable {malloc : Malloc} {sizeOf : Object → Nat} {compareMmobjs : Store → Nat → Nat → Int}
  {classOf : Nat → KeyClass} {tables : Nat → List (Object × Nat)} {calls : Calls} {st : State}
  {s : Store} {hhKey : Nat → Nat} {map item key value : Nat} {x y : Record} {t : HashStore}

theorem Tidy.find_eq (h : Tidy classOf tables s hhKey) {sorted : Bool} {items : List Nat}
    (hmap : toMMMap map s = .ok (sorted, items)) (bytes : List UInt8) :
    hashFind bytes ⟨s, hhKey⟩ items = .ok (s.findItem items bytes) := by
  obtain ⟨x, hx, ho⟩ := toMMMap_inv hmap
  exact hashFind_eq (h.linked x (find_mem hx).1 sorted items ho) bytes

/-- With the handles in order, removing does what it does without them. -/
theorem removeMMMapItem_eq (h : Tidy classOf tables s hhKey) :
    removeMMMapItem map key ⟨s, hhKey⟩ =
      (Containers.removeMMMapItem map key s).map fun store => ⟨store, hhKey⟩ := by
  by_cases h0 : key = 0
  · rw [removeMMMapItem, Containers.removeMMMapItem, if_pos h0, if_pos h0]
    rfl
  · rw [removeMMMapItem, Containers.removeMMMapItem, if_neg h0, if_neg h0]
    cases hb : hashOfMmobj key s with
    | error e => rfl
    | ok bytes =>
      cases hmap : toMMMap map s with
      | error e => rfl
      | ok p =>
        obtain ⟨sorted, items⟩ := p
        have hfind := h.find_eq hmap bytes
        simp only [bind, Except.bind, hfind]
        cases s.findItem items bytes with
        | none => rfl
        | some item =>
          cases h1 : assign map (.mmMap sorted (items.erase item)) s with
          | error e =>
            simp only [h1]
            rfl
          | ok s1 =>
            cases h2 : releaseMmobj item s1 with
            | error e =>
              simp only [h1, h2]
              rfl
            | ok s2 =>
              simp only [h1, h2]
              rfl

theorem addToTable_pool {s' : Store} (h : addToTable compareMmobjs map item s = .ok s') :
    s'.pool = s.pool := by
  obtain ⟨⟨sorted, items⟩, hmap, -⟩ := ok_of_bind h
  obtain ⟨x, hx, ho⟩ := toMMMap_inv hmap
  obtain ⟨items', rfl, -⟩ := addToTable_inv hx ho h
  rfl

theorem hashAddKeyptr_store (hy : s.pool.find item = some y) :
    (hashAddKeyptr compareMmobjs map item key ⟨s, hhKey⟩).map HashStore.store =
      addToTable compareMmobjs map item s := by
  rw [hashAddKeyptr]
  cases h1 : addToTable compareMmobjs map item s with
  | error e => rfl
  | ok s1 =>
    have hfind : s1.pool.find item = some y := by rw [addToTable_pool h1, hy]
    simp only [bind, Except.bind, hfind]
    rfl

theorem replaceMMMapItemKeyValue_find {s' : Store}
    (h : replaceMMMapItemKeyValue item key value s = .ok s') :
    ∃ y, s'.pool.find item = some y := by
  obtain ⟨s1, -, h⟩ := ok_of_bind h
  obtain ⟨s2, -, h⟩ := ok_of_bind h
  obtain ⟨old, -, h⟩ := ok_of_bind h
  obtain ⟨s3, -, h⟩ := ok_of_bind h
  obtain ⟨old', -, h⟩ := ok_of_bind h
  obtain ⟨s4, -, h⟩ := ok_of_bind h
  obtain ⟨y, hy, rfl⟩ := assign_inv h
  exact ⟨y, hy⟩

/-- With the handles in order, adding changes the store as it does without them. -/
theorem addMMMapItem_store (h : Tidy classOf tables s hhKey) (hinv : Inv ∅ s.pool) :
    (addMMMapItem malloc sizeOf compareMmobjs map key value ⟨s, hhKey⟩).map HashStore.store =
      Containers.addMMMapItem malloc sizeOf compareMmobjs map key value s := by
  by_cases h0 : key = 0 ∨ value = 0
  · rw [addMMMapItem, Containers.addMMMapItem, if_pos h0, if_pos h0]
    rfl
  · rw [addMMMapItem, Containers.addMMMapItem, if_neg h0, if_neg h0]
    cases hb : hashOfMmobj key s with
    | error e => rfl
    | ok bytes =>
      cases hmap : toMMMap map s with
      | error e => rfl
      | ok p =>
        obtain ⟨sorted, items⟩ := p
        have hfind := h.find_eq hmap bytes
        simp only [bind, Except.bind, hfind]
        cases s.findItem items bytes with
        | none =>
          cases h1 : allocMMMapItemWithKeyValue malloc sizeOf key value s with
          | error e => rfl
          | ok p =>
            obtain ⟨-, -, y, hy, -⟩ := allocMMMapItemWithKeyValue_frame hinv h1
            exact hashAddKeyptr_store hy
        | some item =>
          cases h1 : assign map (.mmMap sorted (items.erase item)) s with
          | error e =>
            simp only [h1]
            rfl
          | ok s1 =>
            cases h2 : replaceMMMapItemKeyValue item key value s1 with
            | error e =>
              simp only [h1, h2]
              rfl
            | ok s2 =>
              obtain ⟨y, hy⟩ := replaceMMMapItemKeyValue_find h2
              simp only [h1, h2]
              exact hashAddKeyptr_store hy

end Calls

section Removing

variable {classOf : Nat → KeyClass} {tables : Nat → List (Object × Nat)} {calls : Calls}
  {st : State} {s s' : Store} {held : Owners} {hhKey : Nat → Nat} {map key : Nat} {x : Record}
  {object : Object} {sorted : Bool} {items : List Nat} {table' : List (Object × Nat)}

theorem Tidy.retable (h : Tidy classOf tables s hhKey) (hinv : Inv ∅ s.pool)
    (hx : x ∈ s.pool.records) (ho : s.objects x.serial = .mmMap sorted items)
    (hshow : sorted = false → Shows (classOf x.serial) s items table') :
    Tidy classOf (Function.update tables x.serial table') s hhKey := by
  have hself : written s x.serial (.mmMap sorted items) = s := by
    rw [written, ← ho, Function.update_eq_self]
  have hwrite := h.write hinv hx ho (h.linked x hx sorted items ho) hshow
  rwa [hself] at hwrite

theorem isKey_of_keyFor {c : KeyClass} (hk : s.objectAt key = some object)
    (h : keyFor c s key = true) : isKey c object = true := by
  rw [keyFor, hk] at h
  exact h

theorem removeMMMapItem_tidy (hg : Good st)
    (h : Tidy classOf (fun n => survivors (calls n)) st.store hhKey)
    (hkeyed : Keyed classOf (.remove map key) st) (hs : Sound [] held [] s')
    (hrun : Containers.removeMMMapItem map key st.store = .ok s') :
    Tidy classOf (fun n => survivors (noteOp (.remove map key) st.store calls n)) s' hhKey := by
  have hinv := hg.sound.inv
  by_cases h0 : key = 0
  · subst h0
    rw [Containers.removeMMMapItem, if_pos rfl] at hrun
    cases hrun
    have hnull : st.store.objectAt 0 = none := by
      rw [Store.objectAt, find_null hinv]
      rfl
    have hnote : noteOp (.remove map 0) st.store calls = calls := by
      rw [noteOp, note, hnull]
      cases st.store.pool.find map <;> rfl
    rw [hnote]
    exact h
  · rw [Containers.removeMMMapItem, if_neg h0] at hrun
    obtain ⟨bytes, hb, hrun⟩ := ok_of_bind hrun
    obtain ⟨⟨sorted, items⟩, hmap, hrun⟩ := ok_of_bind hrun
    obtain ⟨-, object, hk, hbytes⟩ := hashOfMmobj_inv hb
    obtain ⟨x, hx, ho⟩ := toMMMap_inv hmap
    have hxr := (find_mem hx).1
    have hkey : sorted = false → isKey (classOf x.serial) object = true := fun hsorted =>
      isKey_of_keyFor hk (hkeyed h0 x hxr (find_mem hx).2 (by rw [ho, hsorted]; rfl))
    rw [noteOp, survivors_note hx hk, survivors_remove]
    cases hf : st.store.findItem items bytes with
    | none =>
      simp only [hf] at hrun
      cases hrun
      refine h.retable hinv hxr ho fun hsorted => ?_
      have hshow := h.shows x hxr items (by rw [ho, hsorted])
      have hnone := hshow.findItem (hkey hsorted) hbytes
      rw [hf, Option.map_none] at hnone
      rw [Table.del_of_find_none (Option.map_eq_none_iff.mp hnone.symm)]
      exact hshow
    | some item =>
      simp only [hf] at hrun
      obtain ⟨s1, h1, hrun⟩ := ok_of_bind hrun
      obtain ⟨x', hx', rfl⟩ := assign_inv h1
      obtain rfl := Option.some.inj (hx.symm.trans hx')
      have htidy := h.write hinv hxr ho
        (fun a ha => h.linked x hxr sorted items ho a (List.mem_of_mem_erase ha))
        fun hsorted => (h.shows x hxr items (by rw [ho, hsorted])).erase (hkey hsorted) hbytes hf
      exact htidy.frame (release_within hrun).frame hinv hs fun n hn => absurd hn List.not_mem_nil

end Removing

section Steps

variable {malloc : Malloc} {sizeOf : Object → Nat} {compareMmobjs : Store → Nat → Nat → Int}
  {classOf : Nat → KeyClass} {calls : Calls} {st : State} {hhKey : Nat → Nat}
  {map key value : Nat} {x : Record} {object : Object} {bytes : List UInt8} {sorted : Bool}
  {items : List Nat} {t : HashStore}

structure Adds (classOf : Nat → KeyClass) (calls : Calls) (hhKey : Nat → Nat) (st : State)
    (map key value : Nat) (x : Record) (object : Object) (bytes : List UInt8) (sorted : Bool)
    (items : List Nat) : Prop where
  good : Good st
  tidy : Tidy classOf (fun n => survivors (calls n)) st.store hhKey
  entry : Entry st.store key value
  room : Room [key, value] st.store
  key : st.store.objectAt key = some object
  hash : object.hash = some bytes
  find : st.store.pool.find map = some x
  table : st.store.objects x.serial = .mmMap sorted items
  keyed : sorted = false → isKey (classOf x.serial) object = true ∧
    (st.store.findItem items bytes = none → items.length + 1 < 2 ^ 32)

theorem Adds.shows (h : Adds classOf calls hhKey st map key value x object bytes false items) :
    Shows (classOf x.serial) st.store items (survivors (calls x.serial)) :=
  h.tidy.shows x (find_mem h.find).1 items h.table

theorem Adds.fresh (h : Adds classOf calls hhKey st map key value x object bytes sorted items)
    (hf : st.store.findItem items bytes = none)
    (hrun : (allocMMMapItemWithKeyValue malloc sizeOf key value st.store >>= fun p =>
      hashAddKeyptr compareMmobjs map p.1 key ⟨p.2, hhKey⟩) = .ok t) :
    Tidy classOf (fun n => survivors (noteOp (.add map key value) st.store calls n)) t.store
      t.hhKey := by
  obtain ⟨⟨item, s1⟩, h1, hrun⟩ := ok_of_bind hrun
  have hinv := h.good.sound.inv
  obtain ⟨hframe, -, y, hy, hc, hyo⟩ := allocMMMapItemWithKeyValue_frame hinv h1
  have hmeets : Meets NotFreed (fun p => Sound [] (st.owners.take p.1) [] p.2)
      (allocMMMapItemWithKeyValue malloc sizeOf key value st.store) :=
    (allocMMMapItemWithKeyValue_meets h.good.sound h.entry h.room fun _ => trivial).imp
      fun _ hp => hp.1
  rw [h1] at hmeets
  have hne : ¬(key = 0 ∨ value = 0) := not_or.mpr ⟨h.entry.key_ne, h.entry.value_ne⟩
  rw [noteOp, if_neg hne, survivors_note h.find h.key, survivors_add]
  refine h.tidy.insert _ hinv hframe (fun n hn => absurd hn List.not_mem_nil) hmeets h.find h.table
    hy hyo (Or.inr hc) h.key h.entry.key_ne h.entry.value_ne (fun hsorted => ?_) hrun
  subst hsorted
  have hnone := h.shows.findItem (h.keyed rfl).1 h.hash
  rw [hf, Option.map_none] at hnone
  have hno := Option.map_eq_none_iff.mp hnone.symm
  have hsmall := (h.keyed rfl).2 hf
  rw [h.shows.length] at hsmall
  exact ⟨(h.keyed rfl).1, hno, hsmall, by rw [Table.del_of_find_none hno]⟩

theorem Adds.replace (h : Adds classOf calls hhKey st map key value x object bytes sorted items)
    {item : Nat} (hf : st.store.findItem items bytes = some item)
    (hkeep : ∀ y ∈ st.store.pool.records, y.m = item → ¬Falls st.owners st.store key value x y)
    (hrun : (assign map (.mmMap sorted (items.erase item)) st.store >>= fun s =>
      replaceMMMapItemKeyValue item key value s >>= fun s =>
        hashAddKeyptr compareMmobjs map item key ⟨s, hhKey⟩) = .ok t) :
    Tidy classOf (fun n => survivors (noteOp (.add map key value) st.store calls n)) t.store
      t.hhKey := by
  obtain ⟨s1, h1, hrest⟩ := ok_of_bind hrun
  obtain ⟨s2, h2, hend⟩ := ok_of_bind hrest
  have hinv := h.good.sound.inv
  have hxr := (find_mem h.find).1
  have hi := findItem_mem hf
  obtain ⟨x', hx', rfl⟩ := assign_inv h1
  obtain rfl := Option.some.inj (h.find.symm.trans hx')
  obtain ⟨y, key0, value0, object0, hl⟩ := h.tidy.linked x hxr sorted items h.table item hi
  obtain ⟨hyr, hym⟩ := find_mem hl.find
  obtain ⟨s2', h2', hs2, -⟩ := replaceMMMapItemKeyValue_ok h.good.sound hxr h.table hyr
    (hym ▸ hi) h.entry h.room (hkeep y hyr hym)
  rw [hym] at h2' hs2
  obtain rfl := Except.ok.inj (h2.symm.trans h2')
  have hnd : (written st.store x.serial (.mmMap sorted (items.erase item))).pool.live.Nodup :=
    hinv.live_nodup
  have hfind : (written st.store x.serial (.mmMap sorted (items.erase item))).pool.find item =
      some y := hl.find
  obtain ⟨hframe, y2, hy2, hy2s, hy2o⟩ := replaceMMMapItemKeyValue_frame hnd hfind h2
  have hloose := loose_of_erase h.good hxr h.table hi hl.find hl.entry
  obtain ⟨object', hkey', hsame⟩ :=
    objectAt_written (c := classOf x.serial) (items.erase item) h.key h.table
  have hself : (written st.store x.serial (.mmMap sorted (items.erase item))).objects x.serial =
      .mmMap sorted (items.erase item) := by simp [written]
  have htidy : Tidy classOf (Function.update (fun n => survivors (calls n)) x.serial
      (Table.del Prod.fst object (survivors (calls x.serial))))
      (written st.store x.serial (.mmMap sorted (items.erase item))) hhKey := by
    refine h.tidy.write hinv hxr h.table (fun a ha => ?_) fun hsorted => ?_
    · exact h.tidy.linked x hxr sorted items h.table a (List.mem_of_mem_erase ha)
    · subst hsorted
      exact h.shows.erase (h.keyed rfl).1 h.hash hf
  have hne : ¬(key = 0 ∨ value = 0) := not_or.mpr ⟨h.entry.key_ne, h.entry.value_ne⟩
  rw [noteOp, if_neg hne, survivors_note h.find h.key, survivors_add]
  have hinsert := htidy.insert
    (Table.del Prod.fst object (survivors (calls x.serial)) ++ [(object, value)]) hinv hframe
    (fun n hn => by rw [List.mem_singleton.mp hn]; exact hloose) hs2 h.find hself hy2
    (by rw [hy2s]; exact hy2o) (Or.inl (by rw [hy2s]; exact hloose)) hkey' h.entry.key_ne
    h.entry.value_ne (fun hsorted => ?_) hend
  · rwa [Function.update_idem] at hinsert
  · subst hsorted
    have hk := (h.keyed rfl).1
    have hshow := h.shows
    have hlen := (hshow.erase hk h.hash hf).length
    rw [List.length_erase_of_mem hi] at hlen
    have hpos := List.length_pos_of_mem hi
    have hsmall := hshow.small
    rw [← hshow.length] at hsmall
    rw [Function.update_self, hsame hk]
    exact ⟨hk, Table.find_del_self _ _, by omega, rfl⟩

theorem addMMMapItem_tidy (hg : Good st)
    (h : Tidy classOf (fun n => survivors (calls n)) st.store hhKey)
    (hp : Proper (.add map key value) st) (hspared : Spared (.add map key value) st)
    (hkeyed : Keyed classOf (.add map key value) st)
    (hrun : addMMMapItem malloc sizeOf compareMmobjs map key value ⟨st.store, hhKey⟩ = .ok t) :
    Tidy classOf (fun n => survivors (noteOp (.add map key value) st.store calls n)) t.store
      t.hhKey := by
  by_cases h0 : key = 0 ∨ value = 0
  · rw [addMMMapItem, if_pos h0] at hrun
    cases hrun
    rw [noteOp, if_pos h0]
    exact h
  · rw [addMMMapItem, if_neg h0] at hrun
    obtain ⟨hk0, hv0⟩ := not_or.mp h0
    obtain ⟨bytes, hb, hrun⟩ := ok_of_bind hrun
    obtain ⟨⟨sorted, items⟩, hmap, hrun⟩ := ok_of_bind hrun
    obtain ⟨found, hfind, hrun⟩ := ok_of_bind hrun
    obtain rfl := Except.ok.inj ((h.find_eq hmap bytes).symm.trans hfind)
    obtain ⟨-, object, hk, hbytes⟩ := hashOfMmobj_inv hb
    obtain ⟨x, hx, ho⟩ := toMMMap_inv hmap
    obtain ⟨hxr, hxm⟩ := find_mem hx
    have hroom := hspared.1
    rw [retains, if_neg h0] at hroom
    have hadds : Adds classOf calls hhKey st map key value x object bytes sorted items :=
      { good := hg
        tidy := h
        entry := ⟨hk0, hv0, hp.1 key (by simp [args]), hp.1 value (by simp [args])⟩
        room := hroom
        key := hk
        hash := hbytes
        find := hx
        table := ho
        keyed := fun hsorted => by
          obtain ⟨hkey, hlen⟩ := hkeyed hk0 hv0 x hxr hxm items (by rw [ho, hsorted]; rfl)
          exact ⟨isKey_of_keyFor hk hkey, hlen bytes (by rw [hk]; exact hbytes)⟩ }
    cases hf : st.store.findItem items bytes with
    | none =>
      simp only [hf] at hrun
      exact hadds.fresh hf hrun
    | some item =>
      simp only [hf] at hrun
      refine hadds.replace hf (fun y hy hym => ?_) hrun
      exact hspared.2 hk0 hv0 x hxr y hy sorted items bytes hxm ho (by rw [hk]; exact hbytes)
        (by rw [hf, hym])

end Steps

section Runs

variable {malloc : Malloc} {sizeOf : Object → Nat} {compareMmobjs : Store → Nat → Nat → Int}
  {classOf : Nat → KeyClass} {t : Tracked} {op : Op}

structure Refines (classOf : Nat → KeyClass) (t : Tracked) : Prop where
  good : Good t.state
  tidy : Tidy classOf (fun n => survivors (t.calls n)) t.hashed.store t.hashed.hhKey

theorem Refines.sound (h : Refines classOf t) : Sound [] t.owners [] t.hashed.store := h.good.sound

theorem runHashed_off {s : HashStore} (hop : OffMaps op) :
    runHashed malloc sizeOf compareMmobjs op s =
      (op.run malloc sizeOf compareMmobjs s.store).map fun p => (p.1, { s with store := p.2 }) := by
  cases op with
  | add map key value => exact hop.elim
  | remove map key => exact hop.elim
  | _ => rfl

/-- The handles change nothing in the store. -/
theorem runHashed_store (op : Op) (h : Refines classOf t) :
    (runHashed malloc sizeOf compareMmobjs op t.hashed).map (fun p => (p.1, p.2.store)) =
      op.run malloc sizeOf compareMmobjs t.hashed.store := by
  by_cases hop : OffMaps op
  · rw [runHashed_off hop]
    cases op.run malloc sizeOf compareMmobjs t.hashed.store <;> rfl
  · cases op with
    | add map key value =>
      have hadd : (addMMMapItem malloc sizeOf compareMmobjs map key value t.hashed).map
          HashStore.store = _ := addMMMapItem_store h.tidy h.good.sound.inv
      rw [runHashed, Op.run, ← hadd]
      cases addMMMapItem malloc sizeOf compareMmobjs map key value t.hashed <;> rfl
    | remove map key =>
      have hremove : removeMMMapItem map key t.hashed = _ := removeMMMapItem_eq h.tidy
      rw [runHashed, Op.run, hremove]
      cases Containers.removeMMMapItem map key t.hashed.store <;> rfl
    | _ => exact absurd trivial hop

theorem runHashed_tidy {answer : Nat} {s : HashStore} {owners : Owners} (h : Refines classOf t)
    (hp : Proper op t.state) (hspared : Spared op t.state) (hkeyed : Keyed classOf op t.state)
    (hgood : Good ⟨s.store, owners⟩)
    (hrun : runHashed malloc sizeOf compareMmobjs op t.hashed = .ok (answer, s)) :
    Tidy classOf (fun n => survivors (noteOp op t.hashed.store t.calls n)) s.store s.hhKey := by
  by_cases hop : OffMaps op
  · rw [runHashed_off hop] at hrun
    obtain ⟨⟨answer', s'⟩, hr, he⟩ := ok_of_map hrun
    cases he
    have hnote : noteOp op t.hashed.store t.calls = t.calls := by
      cases op with
      | add map key value => exact hop.elim
      | remove map key => exact hop.elim
      | _ => rfl
    rw [hnote]
    exact h.tidy.frame (run_frame op h.good.sound.inv hop hr) h.good.sound.inv hgood.sound
      fun n hn => absurd hn List.not_mem_nil
  · cases op with
    | add map key value =>
      obtain ⟨s', hr, he⟩ := ok_of_map hrun
      cases he
      exact addMMMapItem_tidy h.good h.tidy hp hspared hkeyed hr
    | remove map key =>
      obtain ⟨s', hr, he⟩ := ok_of_map hrun
      cases he
      have hremove : removeMMMapItem map key t.hashed = _ := removeMMMapItem_eq h.tidy
      rw [hremove] at hr
      obtain ⟨s'', hbase, he⟩ := ok_of_map hr
      cases he
      exact removeMMMapItem_tidy h.good h.tidy hkeyed hgood.sound hbase
    | _ => exact absurd trivial hop

/-- Every operation keeps the invariant. -/
theorem trackedStep_refines (h : Refines classOf t) (hp : Proper op t.state)
    (hspared : Spared op t.state) (hkeyed : Keyed classOf op t.state) :
    Meets NotFreed (Refines classOf) (trackedStep malloc sizeOf compareMmobjs op t) := by
  have hstep : Meets NotFreed Good (op.step malloc sizeOf compareMmobjs t.state) :=
    step_good op h.good hp hspared
  have hstore : _ = op.run malloc sizeOf compareMmobjs t.state.store := runHashed_store op h
  rw [Op.step, ← hstore] at hstep
  rw [trackedStep]
  cases hr : runHashed malloc sizeOf compareMmobjs op t.hashed with
  | error e =>
    rw [hr] at hstep
    exact hstep
  | ok p =>
    rw [hr] at hstep
    exact ⟨hstep, runHashed_tidy h hp hspared hkeyed hstep hr⟩

theorem refines_start : Refines classOf trackedStart :=
  ⟨good_start, fun _ hx => absurd hx List.not_mem_nil, fun _ hx => absurd hx List.not_mem_nil,
    fun _ _ => rfl⟩

theorem runTracked_refines (ops : List Op) (h : Refines classOf t)
    (hrun : AlongTracked malloc sizeOf compareMmobjs
      (fun op st => Proper op st ∧ Spared op st ∧ Keyed classOf op st) ops t) :
    Meets NotFreed (Refines classOf) (runTracked malloc sizeOf compareMmobjs ops t) := by
  induction ops generalizing t with
  | nil => exact h
  | cons op ops ih =>
    obtain ⟨⟨hp, hspared, hkeyed⟩, hrest⟩ := hrun
    have hstep : Meets NotFreed (Refines classOf) (trackedStep malloc sizeOf compareMmobjs op t) :=
      trackedStep_refines h hp hspared hkeyed
    rw [runTracked]
    cases hst : trackedStep malloc sizeOf compareMmobjs op t with
    | error e =>
      rw [hst] at hstep
      exact hstep
    | ok t' =>
      rw [hst] at hstep
      exact ih hstep (hrest t' hst)

end Runs

section Reads

variable {malloc : Malloc} {sizeOf : Object → Nat} {compareMmobjs : Store → Nat → Nat → Int}
  {classOf : Nat → KeyClass} {t : Tracked} {x : Record} {items : List Nat} {key : Nat}
  {object : Object}

theorem hashOfMmobj_ok {s : Store} {bytes : List UInt8} (hinv : Inv ∅ s.pool)
    (hk : s.objectAt key = some object) (hb : object.hash = some bytes) :
    key ≠ 0 ∧ hashOfMmobj key s = .ok bytes := by
  have h0 : key ≠ 0 := by
    rintro rfl
    rw [Store.objectAt, find_null hinv] at hk
    cases hk
  have hderef : deref key s = .ok object := by
    rw [deref, if_neg h0, hk]
  refine ⟨h0, ?_⟩
  rw [hashOfMmobj, bind_ok hderef, hb]
  rfl

theorem linked_of_mem (h : Refines classOf t) (hx : x ∈ t.hashed.store.pool.records)
    (ho : t.hashed.store.objects x.serial = .mmMap false items) :
    ∀ item ∈ items, Linked t.hashed.store t.hashed.hhKey item :=
  h.tidy.linked x hx false items ho

theorem readItem {item value : Nat} {y : Record} (h : Refines classOf t)
    (hl : LinkedBy t.hashed.store t.hashed.hhKey item y key value object) :
    toMMMapItem item t.hashed.store = .ok (key, value) := by
  obtain ⟨hy, rfl⟩ := find_mem hl.find
  exact toMMMapItem_ok h.sound hy hl.entry

theorem getMMMapItemValue_eq (h : Refines classOf t) (hx : x ∈ t.hashed.store.pool.records)
    (ho : t.hashed.store.objects x.serial = .mmMap false items)
    (hk : t.hashed.store.objectAt key = some object)
    (hkey : isKey (classOf x.serial) object = true) :
    getMMMapItemValue x.m key t.hashed =
      .ok (((Table.find Prod.fst object (survivors (t.calls x.serial))).map Prod.snd).getD 0) := by
  obtain ⟨bytes, hb⟩ := isKey_hash hkey
  obtain ⟨h0, hhash⟩ := hashOfMmobj_ok h.sound.inv hk hb
  have hmap : toMMMap x.m t.hashed.store = .ok (false, items) := toMMMap_ok h.sound hx ho
  have hfind : hashFind bytes t.hashed items = .ok (t.hashed.store.findItem items bytes) :=
    hashFind_eq (linked_of_mem h hx ho) bytes
  have htable := (h.tidy.shows x hx items ho).findItem hkey hb
  rw [getMMMapItemValue, if_neg h0, bind_ok hhash, bind_ok hmap]
  simp only [bind_ok hfind]
  cases hf : t.hashed.store.findItem items bytes with
  | none =>
    rw [hf, Option.map_none] at htable
    rw [Option.map_eq_none_iff.mp htable.symm]
    rfl
  | some item =>
    obtain ⟨y, key', value, object', hl⟩ := linked_of_mem h hx ho item (findItem_mem hf)
    rw [hf, Option.map_some, hl.entryAt] at htable
    obtain ⟨e, he, hshown⟩ := Option.map_eq_some_iff.mp htable.symm
    simp only [he, bind_ok (readItem h hl)]
    exact congrArg Except.ok (Prod.mk.inj hshown).2.symm

theorem iterate (h : Refines classOf t)
    (hl : ∀ item ∈ items, Linked t.hashed.store t.hashed.hhKey item) :
    ∃ entries, (items.mapM fun item => toMMMapItem item t.hashed.store) = .ok entries ∧
      (entries.map fun e => (t.hashed.store.objectAt e.1, e.2)) =
        items.map (entryAt t.hashed.store) := by
  induction items with
  | nil => exact ⟨[], rfl, rfl⟩
  | cons item items ih =>
    obtain ⟨entries, hrun, hentries⟩ := ih fun a ha => hl a (List.mem_cons_of_mem _ ha)
    obtain ⟨y, key, value, object, hi⟩ := hl item List.mem_cons_self
    refine ⟨(key, value) :: entries, ?_, ?_⟩
    · rw [List.mapM_cons, bind_ok (readItem h hi), bind_ok hrun]
      rfl
    · rw [List.map_cons, List.map_cons, hentries, hi.entryAt, hi.key]

theorem key_of_keyFor (c : KeyClass) {s : Store} (hk : keyFor c s key = true) :
    ∃ object, s.objectAt key = some object ∧ isKey c object = true := by
  cases ho : s.objectAt key with
  | none =>
    rw [keyFor, ho] at hk
    cases hk
  | some object => exact ⟨object, rfl, isKey_of_keyFor ho hk⟩

theorem addMMMapItem_returns {value : Nat} (h : Refines classOf t)
    (hx : x ∈ t.hashed.store.pool.records)
    (ho : t.hashed.store.objects x.serial = .mmMap false items)
    (hp : Proper (.add x.m key value) t.state) (hspared : Spared (.add x.m key value) t.state)
    (hk : keyFor (classOf x.serial) t.hashed.store key = true)
    (halloc : ¬Refused malloc sizeOf (.mmMapItem 0 0) t.hashed.store) :
    ∃ s, addMMMapItem malloc sizeOf compareMmobjs x.m key value t.hashed = .ok s := by
  obtain ⟨object, hobject, hkey⟩ := key_of_keyFor _ hk
  obtain ⟨bytes, hb⟩ := isKey_hash hkey
  obtain ⟨h0, hhash⟩ := hashOfMmobj_ok h.sound.inv hobject hb
  by_cases hv0 : value = 0
  · exact ⟨t.hashed, by rw [addMMMapItem, if_pos (Or.inr hv0)]⟩
  · have hroom := hspared.1
    rw [retains, if_neg (not_or.mpr ⟨h0, hv0⟩)] at hroom
    have hbase : Meets (fun _ => False) (Leaves t.owners t.hashed.store)
        (Containers.addMMMapItem malloc sizeOf compareMmobjs x.m key value t.hashed.store) :=
      addEntry_meets h.sound
        ⟨h0, hv0, hp.1 key (by simp [args]), hp.1 value (by simp [args])⟩ hhash hx ho hroom
        (fun y hy hf => hspared.2 h0 hv0 x hx y hy false items bytes rfl ho
          (by rw [show t.state.store = t.hashed.store from rfl, hobject]; exact hb) hf)
        fun _ hrefused => halloc hrefused
    have hstore : (addMMMapItem malloc sizeOf compareMmobjs x.m key value t.hashed).map
        HashStore.store = _ := addMMMapItem_store h.tidy h.sound.inv
    rw [← hstore] at hbase
    cases hr : addMMMapItem malloc sizeOf compareMmobjs x.m key value t.hashed with
    | error e =>
      rw [hr] at hbase
      exact absurd hbase id
    | ok s => exact ⟨s, rfl⟩

theorem removeMMMapItem_returns (h : Refines classOf t) (hx : x ∈ t.hashed.store.pool.records)
    (ho : t.hashed.store.objects x.serial = .mmMap false items)
    (hk : keyFor (classOf x.serial) t.hashed.store key = true) :
    ∃ s, removeMMMapItem x.m key t.hashed = .ok s := by
  obtain ⟨object, hobject, hkey⟩ := key_of_keyFor _ hk
  obtain ⟨bytes, hb⟩ := isKey_hash hkey
  obtain ⟨h0, hhash⟩ := hashOfMmobj_ok h.sound.inv hobject hb
  obtain ⟨s, hs, -⟩ := removeMMMapItem_ok h.sound h0 hhash hx ho
  have hremove : removeMMMapItem x.m key t.hashed = _ := removeMMMapItem_eq h.tidy
  refine ⟨⟨s, t.hashed.hhKey⟩, ?_⟩
  rw [hremove, show Containers.removeMMMapItem x.m key t.hashed.store = .ok s from hs]
  rfl

/-- What the invariant says of an unsorted map. -/
theorem Refines.isFiniteMap (h : Refines classOf t) (hx : x ∈ t.hashed.store.pool.records)
    (hunsorted : (unsortedItems (t.hashed.store.objects x.serial)).isSome) :
    IsFiniteMap malloc sizeOf compareMmobjs (classOf x.serial) x.m (t.calls x.serial) t := by
  obtain ⟨items, ho⟩ : ∃ items, t.hashed.store.objects x.serial = .mmMap false items := by
    unfold unsortedItems at hunsorted
    split at hunsorted
    · exact ⟨_, by assumption⟩
    · cases hunsorted
  have hmap : toMMMap x.m t.hashed.store = .ok (false, items) := toMMMap_ok h.sound hx ho
  have hlinked := linked_of_mem h hx ho
  have hshow := h.tidy.shows x hx items ho
  refine
    { get_some := fun key object value hk hkey hstands => ?_
      get_none := fun key object hk hkey hno => ?_
      size := ?_
      iter := ?_
      handles := fun sorted items' hmap' item hi => ?_
      adds := fun key value hp hspared hk halloc => ?_
      removes := fun key hk => ?_ }
  · rw [getMMMapItemValue_eq h hx ho hk hkey, find_survivors.mpr hstands]
    rfl
  · rw [getMMMapItemValue_eq h hx ho hk hkey]
    cases hf : Table.find Prod.fst object (survivors (t.calls x.serial)) with
    | none => rfl
    | some e =>
      obtain ⟨hmem, rfl⟩ := Table.find_some hf
      exact absurd (mem_survivors.mp hmem) (hno e.2)
  · refine ⟨(survivors (t.calls x.serial)).map Prod.fst, survivors_keys_nodup _, fun k => ?_, ?_⟩
    · simp [← mem_survivors]
    · have hsmall := hshow.small
      rw [sizeOfMMMap, bind_ok hmap, List.length_map, ← hshow.length]
      rw [← hshow.length] at hsmall
      exact congrArg Except.ok (Nat.mod_eq_of_lt hsmall)
  · obtain ⟨entries, hrun, hentries⟩ := iterate h hlinked
    refine ⟨entries, ?_, hentries.trans hshow.entries⟩
    rw [iterMMMap, bind_ok hmap]
    exact hrun
  · obtain ⟨rfl, rfl⟩ := Prod.mk.inj (Except.ok.inj (hmap.symm.trans hmap'))
    obtain ⟨y, key, value, object, hl⟩ := hlinked item hi
    refine ⟨key, value, readItem h hl, ?_, entry_live h.sound (find_mem hl.find).1 hl.entry
      hl.key_ne⟩
    rw [hhKeyOf, hl.find, ← hl.handle]
  · exact addMMMapItem_returns h hx ho hp hspared hk halloc
  · exact removeMMMapItem_returns h hx ho hk

end Reads

section Results

variable {malloc : Malloc} {sizeOf : Object → Nat} {compareMmobjs : Store → Nat → Nat → Int}
  {classOf : Nat → KeyClass} {t : Tracked}

/-- Callers who own the maps they add to never reach the defect. -/
theorem alongTracked_spared {ops : List Op} (h : Refines classOf t)
    (hops : AlongTracked malloc sizeOf compareMmobjs
      (fun op st => Proper op st ∧ Room (retains st.store op) st.store ∧ AddsToOwned op st ∧
        Keyed classOf op st) ops t) :
    AlongTracked malloc sizeOf compareMmobjs
      (fun op st => Proper op st ∧ Spared op st ∧ Keyed classOf op st) ops t := by
  induction ops generalizing t with
  | nil => trivial
  | cons op ops ih =>
    obtain ⟨⟨hp, hroom, hown, hkeyed⟩, hrest⟩ := hops
    have hspared := spared_of_owned h.good hroom hown
    refine ⟨⟨hp, hspared, hkeyed⟩, fun t' hst => ih ?_ (hrest t' hst)⟩
    have hstep : Meets NotFreed (Refines classOf) (trackedStep malloc sizeOf compareMmobjs op t) :=
      trackedStep_refines h hp hspared hkeyed
    rw [hst] at hstep
    exact hstep

/-- A run in which every map outlives the entry that is replaced, unsorted maps are called
with keys of their class and get fewer than `2 ^ 32` items, and no count runs over, makes
a finite map of every unsorted map. -/
theorem keepsFiniteMaps_of_spared (malloc : Malloc) (sizeOf : Object → Nat)
    (compareMmobjs : Store → Nat → Nat → Int) (classOf : Nat → KeyClass) (ops : List Op)
    (hops : AlongTracked malloc sizeOf compareMmobjs
      (fun op st => Proper op st ∧ Spared op st ∧ Keyed classOf op st) ops trackedStart) :
    KeepsFiniteMaps malloc sizeOf compareMmobjs classOf ops :=
  (runTracked_refines ops refines_start hops).imp fun _ h _ hx hunsorted =>
    h.isFiniteMap hx hunsorted

/-- Two keys of one value, the second of which takes the place of the first, and a third
one that is removed. Callers give the keys up right after adding them. -/
def equalKeysOps : List Op :=
  [.alloc .mmMap, .alloc (.mmInt 7), .alloc (.mmInt 7), .alloc (.mmInt 9), .add 1 2 8, .release 2,
    .add 1 8 4, .add 1 4 4, .release 4, .remove 1 8, .releaseUnused]

theorem keepsFiniteMaps_of_spared_equalKeysOps :
    KeepsFiniteMaps bumpMalloc (fun _ => 8) (fun _ _ _ => 0) (fun _ => .mmInt) equalKeysOps := by
  have hops : AlongTracked bumpMalloc (fun _ => 8) (fun _ _ _ => 0)
      (fun op st => Proper op st ∧ Room (retains st.store op) st.store ∧ AddsToOwned op st ∧
        Keyed (fun _ => .mmInt) op st) equalKeysOps trackedStart := by decide +kernel
  exact keepsFiniteMaps_of_spared bumpMalloc (fun _ => 8) (fun _ _ _ => 0) (fun _ => .mmInt)
    equalKeysOps (alongTracked_spared refines_start hops)

/-- A map that is its own value, and that callers have released, gets another value for the
key. The release of the old value frees the map, which is then read. -/
def ownValueOps : List Op :=
  [.alloc .mmMap, .alloc (.mmInt 1), .add 1 2 1, .release 1, .add 1 2 2]

theorem not_keepsFiniteMaps :
    ¬∀ (malloc : Malloc) (sizeOf : Object → Nat) (compareMmobjs : Store → Nat → Nat → Int)
      (classOf : Nat → KeyClass) (ops : List Op),
      AlongTracked malloc sizeOf compareMmobjs
        (fun op st => Proper op st ∧ Room (retains st.store op) st.store ∧ Keyed classOf op st)
        ops trackedStart →
      KeepsFiniteMaps malloc sizeOf compareMmobjs classOf ops := by
  intro h
  have hfall := h bumpMalloc (fun _ => 8) (fun _ _ _ => 0) (fun _ => .mmInt) ownValueOps
    (by decide +kernel)
  have hstop : Meets NotFreed (fun _ => True)
      ((runTracked bumpMalloc (fun _ => 8) (fun _ _ _ => 0) ownValueOps trackedStart).map
        Tracked.state) := hfall.map fun _ _ => trivial
  exact not_meets_of_stoppedFreed (by decide +kernel) hstop

end Results

end LcClibs.Mmo.FiniteMap
