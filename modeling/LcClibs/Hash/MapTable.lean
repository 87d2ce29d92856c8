import Mathlib
import LcClibs.Hash.Guarantees
import LcClibs.Mmo.Containers

namespace LcClibs.Hash.MapTable

open Platform Lib.Runs Hash.UtHash Hash.Layout Hash.Expand Hash.Table Hash.Lookup Hash.Refinement
  Mmo.Containers

section Model

inductive TableCall
  | find (keyptr keylen : Nat)
  | delete (item : Nat)
  | add (keyptr keylen item : Nat)
  | addInorder (keyptr keylen item : Nat)
  | count

variable (malloc : Nat → Nat → Bool) (hashFcn : HashFcn) (compareMmobjs : Nat → Nat → Int)

def TableCall.macros : TableCall → Call
  | find keyptr keylen => .find keyptr keylen
  | delete item => .delete item
  | add keyptr keylen item => .add keyptr keylen item
  | addInorder keyptr keylen item => .addInorder compareMmobjs keyptr keylen item
  | count => .count

variable (s : Store) (bytes : Nat → UInt8)

def TableCall.onItems : TableCall → List Nat → Nat × List Nat
  | find keyptr keylen, items =>
    ((s.findItem items (bytesAt bytes keyptr keylen)).getD 0, items)
  | delete item, items => (0, items.erase item)
  | add _ _ item, items => (0, items ++ [item])
  | addInorder _ _ item, items => (0, Mmo.Containers.addInorder compareMmobjs items item)
  | count, items => (items.length, items)

def onItemsRun : List TableCall → List Nat → List Nat × List Nat
  | [], items => ([], items)
  | c :: calls, items =>
    let r := c.onItems compareMmobjs s bytes items
    (r.1 :: (onItemsRun calls r.2).1, (onItemsRun calls r.2).2)

/-- An item that is not in the table, under the characters of its key, which are not in the
table either. -/
structure Joins (live : Nat → Bool) (keyptr keylen item : Nat) (items : List Nat) : Prop where
  ne_zero : item ≠ 0
  live : live item = true
  fresh : item ∉ items
  short : keylen < 2 ^ 32
  room : items.length + 1 < 2 ^ 32
  key : s.itemHash item = some (bytesAt bytes keyptr keylen)
  newKey : ∀ x ∈ items, s.itemHash x ≠ s.itemHash item

def TableCall.Proper (live : Nat → Bool) : TableCall → List Nat → Prop
  | delete item, items => item ∈ items
  | add keyptr keylen item, items => Joins s bytes live keyptr keylen item items
  | addInorder keyptr keylen item, items => Joins s bytes live keyptr keylen item items
  | _, _ => True

def ProperCalls (live : Nat → Bool) : List TableCall → List Nat → Prop
  | [], _ => True
  | c :: calls, items => c.Proper s bytes live items ∧
    ProperCalls live calls (c.onItems compareMmobjs s bytes items).2

/-- The abstract hash whose entries are the items, each under the characters of its key. -/
structure Mirrors (live : Nat → Bool) (a : Abstract) (items : List Nat) : Prop where
  items : a.entries.map Entry.el = items
  key : ∀ e ∈ a.entries, s.itemHash e.el = some e.key
  bytes : a.bytes = bytes
  live : a.allocated = live

instance (live : Nat → Bool) (keyptr keylen item : Nat) (items : List Nat) :
    Decidable (Joins s bytes live keyptr keylen item items) :=
  decidable_of_iff (item ≠ 0 ∧ live item = true ∧ item ∉ items ∧ keylen < 2 ^ 32 ∧
      items.length + 1 < 2 ^ 32 ∧ s.itemHash item = some (bytesAt bytes keyptr keylen) ∧
      ∀ x ∈ items, s.itemHash x ≠ s.itemHash item)
    ⟨fun ⟨h1, h2, h3, h4, h5, h6, h7⟩ => ⟨h1, h2, h3, h4, h5, h6, h7⟩,
      fun ⟨h1, h2, h3, h4, h5, h6, h7⟩ => ⟨h1, h2, h3, h4, h5, h6, h7⟩⟩

instance decidableProper (live : Nat → Bool) :
    (c : TableCall) → (items : List Nat) → Decidable (c.Proper s bytes live items)
  | .find _ _, _ => isTrue trivial
  | .delete item, items => inferInstanceAs (Decidable (item ∈ items))
  | .add keyptr keylen item, items =>
    inferInstanceAs (Decidable (Joins s bytes live keyptr keylen item items))
  | .addInorder keyptr keylen item, items =>
    inferInstanceAs (Decidable (Joins s bytes live keyptr keylen item items))
  | .count, _ => isTrue trivial

instance decidableProperCalls (live : Nat → Bool) : (calls : List TableCall) →
    (items : List Nat) → Decidable (ProperCalls compareMmobjs s bytes live calls items)
  | [], _ => isTrue trivial
  | c :: calls, items =>
    have := decidableProper s bytes live c items
    have := decidableProperCalls live calls (c.onItems compareMmobjs s bytes items).2
    inferInstanceAs (Decidable (c.Proper s bytes live items ∧
      ProperCalls compareMmobjs s bytes live calls (c.onItems compareMmobjs s bytes items).2))

end Model

section Simulation

variable {malloc : Nat → Nat → Bool} {hashFcn : HashFcn} {compareMmobjs : Nat → Nat → Int}
  {s : Store} {bytes : Nat → UInt8} {live : Nat → Bool} {a : Abstract} {items : List Nat}

theorem Joins.admits {keyptr keylen item : Nat} (h : Joins s bytes live keyptr keylen item items)
    (hm : Mirrors s bytes live a items) : a.Admits keyptr keylen item := by
  obtain ⟨rfl, hkey, rfl, rfl⟩ := hm
  refine ⟨⟨h.ne_zero, h.live, h.fresh, h.short, by simpa using h.room⟩, fun hmem => ?_⟩
  obtain ⟨e, he, hk⟩ := List.mem_map.mp hmem
  refine h.newKey e.el (List.mem_map_of_mem he) ?_
  rw [hkey e he, h.key, hk]

theorem find_mirrors (hm : Mirrors s bytes live a items) (keyptr keylen : Nat) :
    a.find keyptr keylen = (s.findItem items (bytesAt bytes keyptr keylen)).getD 0 := by
  obtain ⟨rfl, hkey, rfl, -⟩ := hm
  rw [Abstract.find, Abstract.lookup, Store.findItem, List.find?_map, Lib.Table.find]
  congr 2
  refine List.find?_congr fun e he => ?_
  simp [hkey e he]

theorem delete_mirrors (hm : Mirrors s bytes live a items) (hnd : items.Nodup) (item : Nat) :
    Mirrors s bytes live { a with entries := a.entries.filter fun e => e.el ≠ item }
      (items.erase item) := by
  have hsub : (a.entries.filter fun e => e.el ≠ item).Sublist a.entries := List.filter_sublist
  refine ⟨?_, fun e he => hm.key e (hsub.subset he), hm.bytes, hm.live⟩
  rw [← hm.items] at hnd ⊢
  exact map_filter_el a hnd

theorem add_mirrors {keyptr keylen item : Nat} (h : Joins s bytes live keyptr keylen item items)
    (hm : Mirrors s bytes live a items) {entries : List Entry} {items' : List Nat}
    (hmap : entries.map Entry.el = items')
    (hmem : ∀ e ∈ entries, e = a.newEntry keyptr keylen item ∨ e ∈ a.entries) :
    Mirrors s bytes live { a with entries := entries } items' := by
  refine ⟨hmap, fun e he => ?_, hm.bytes, hm.live⟩
  obtain rfl | he := hmem e he
  · rw [show (a.newEntry keyptr keylen item).el = item from rfl, h.key]
    exact congrArg (fun b => some (bytesAt b keyptr keylen)) hm.bytes.symm
  · exact hm.key e he

theorem inorder_mirrors {keyptr keylen item : Nat}
    (h : Joins s bytes live keyptr keylen item items) (hm : Mirrors s bytes live a items) :
    Mirrors s bytes live
      { a with entries := insertInorder compareMmobjs (a.newEntry keyptr keylen item) a.entries }
      (Mmo.Containers.addInorder compareMmobjs items item) := by
  refine add_mirrors h hm ?_ fun e he => ?_
  · rw [← hm.items, Mmo.Containers.addInorder, List.takeWhile_map, List.dropWhile_map,
      insertInorder, List.map_append, List.map_cons]
    rfl
  · obtain he | he := List.mem_append.mp he
    · exact .inr ((List.takeWhile_subset _) he)
    · obtain rfl | he := List.mem_cons.mp he
      · exact .inl rfl
      · exact .inr ((List.dropWhile_sublist _).subset he)

/-- What a call asks for and what it does are the same on both levels. -/
theorem call_mirrors (compareMmobjs : Nat → Nat → Int) (hm : Mirrors s bytes live a items)
    (hnd : items.Nodup) (c : TableCall)
    (hp : c.Proper s bytes live items) :
    (c.macros compareMmobjs).Proper a ∧
      ((c.macros compareMmobjs).spec a).1 = (c.onItems compareMmobjs s bytes items).1 ∧
      Mirrors s bytes live ((c.macros compareMmobjs).spec a).2
        (c.onItems compareMmobjs s bytes items).2 := by
  cases c with
  | find keyptr keylen => exact ⟨trivial, find_mirrors hm keyptr keylen, hm⟩
  | delete item =>
    refine ⟨?_, rfl, delete_mirrors hm hnd item⟩
    show item ∈ a.entries.map Entry.el
    rw [hm.items]
    exact hp
  | add keyptr keylen item =>
    refine ⟨hp.admits hm, rfl, add_mirrors hp hm ?_ fun e he => ?_⟩
    · rw [List.map_append, hm.items]
      rfl
    · exact (List.mem_append.mp he).symm.imp List.mem_singleton.mp id
  | addInorder keyptr keylen item => exact ⟨hp.admits hm, rfl, inorder_mirrors hp hm⟩
  | count =>
    refine ⟨trivial, ?_, hm⟩
    show a.entries.length = items.length
    rw [← hm.items, List.length_map]

/-- The list of items that the model of the objects has for the table of a map, with its
searching, erasing, appending and inserting in order, is what the macros make of the pointers,
through any run of calls. -/
theorem mapTable_refines (hmalloc : Bounded malloc) (calls : List TableCall) {t : HashState}
    (h : Holds hashFcn t a) (hm : Mirrors s bytes live a items)
    (hp : ProperCalls compareMmobjs s bytes live calls items) :
    Meets Fatal (fun r => r.1 = (onItemsRun compareMmobjs s bytes calls items).1 ∧
        ∃ a', Holds hashFcn r.2 a' ∧
          Mirrors s bytes live a' (onItemsRun compareMmobjs s bytes calls items).2)
      (runCalls malloc hashFcn (calls.map (TableCall.macros compareMmobjs)) t) := by
  induction calls generalizing t a items with
  | nil => exact ⟨rfl, a, h, hm⟩
  | cons c calls ih =>
    have hnd : items.Nodup := hm.items ▸ h.represents.ordered.nodup
    obtain ⟨hproper, hanswer, hm'⟩ := call_mirrors compareMmobjs hm hnd c hp.1
    refine (call_step hmalloc h _ hproper).step fun r hr => ?_
    exact (ih hr.2 hm' hp.2).step fun r' hr' =>
      ⟨congrArg₂ List.cons (hr.1.trans hanswer) hr'.1, hr'.2⟩

def demoStore : Store where
  pool := ⟨[⟨1, 100, 0, 1, true, []⟩, ⟨2, 101, 0, 1, true, []⟩, ⟨3, 200, 0, 1, true, []⟩,
    ⟨4, 201, 0, 1, true, []⟩], 0, []⟩
  objects := fun serial =>
    if serial = 1 then .mmMapItem 200 0 else if serial = 2 then .mmMapItem 201 0
    else if serial = 3 then .mmString (some [97]) else .mmString (some [97, 98])

def demoBytes (p : Nat) : UInt8 := if p = 9 then 98 else 97

def demoLive (p : Nat) : Bool := p = 100 || p = 101

def demoTable : HashState where
  head := 0
  tbl := none
  hh := fun p => if demoLive p then some ⟨0, 0, 0, 0, 0, 0, 0⟩ else none
  bytes := demoBytes
  clock := 0

def demoTableCalls : List TableCall :=
  [.add 8 1 100, .addInorder 8 2 101, .find 8 2, .delete 100, .count]

theorem demoTable_holds : Holds Functions.jen demoTable ⟨[], demoBytes, demoLive⟩ := by
  refine ⟨represents_nil rfl rfl, fun _ he => absurd he List.not_mem_nil,
    fun _ he => absurd he List.not_mem_nil, List.nodup_nil, rfl, fun p => ?_⟩
  show (if demoLive p then some _ else none : Option UTHashHandle).isSome = demoLive p
  cases demoLive p <;> rfl

theorem mapTable_refines_demo :
    Meets Fatal (fun r => r.1 = (onItemsRun (fun x y => (x : Int) - y) demoStore demoBytes
          demoTableCalls []).1 ∧
        ∃ a', Holds Functions.jen r.2 a' ∧ Mirrors demoStore demoBytes demoLive a'
          (onItemsRun (fun x y => (x : Int) - y) demoStore demoBytes demoTableCalls []).2)
      (runCalls Guarantees.demoMalloc Functions.jen
        (demoTableCalls.map (TableCall.macros fun x y => (x : Int) - y)) demoTable) :=
  mapTable_refines Guarantees.demoMalloc_bounded demoTableCalls demoTable_holds
    ⟨rfl, fun _ he => absurd he List.not_mem_nil, rfl, rfl⟩ (by decide)

end Simulation

end LcClibs.Hash.MapTable
