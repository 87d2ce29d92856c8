import Mathlib
import LcClibs.Mmo.Map

namespace LcClibs.Mmo.Sorted

open Platform Lib Lib.ThreeWay Lib.BigEndian Buffer.VarInt Mmo.Object Mmo.Compare Mmo.Map

section Model

inductive MapCall
  | add (key : Addr) (value : Option Addr)
  | remove (key : Addr)
  deriving DecidableEq, Repr

def MapCall.key : MapCall → Addr
  | .add key _ | .remove key => key

variable (host : Host)

/-- `addMMMapItem` adds no null value. -/
def MapCall.run (map : Addr) : MapCall → Heap → Heap
  | .add key (some value), heap => addMMMapItem host map key value heap
  | .add _ none, heap => heap
  | .remove key, heap => removeMMMapItem host map key heap

def runCalls (calls : List (Addr × MapCall)) (heap : Heap) : Heap :=
  calls.foldl (fun heap c => c.2.run host c.1 heap) heap

def Along (P : Addr × MapCall → Heap → Prop) : List (Addr × MapCall) → Heap → Prop
  | [], _ => True
  | c :: calls, heap => P c heap ∧ Along P calls (c.2.run host c.1 heap)

def contents (items : List MapItem) (key : List UInt8) : Option Addr :=
  (Table.find MapItem.hashKey key items).map MapItem.value

def SameContents (heap : Heap) (this that : List MapItem) : Prop :=
  ∀ key, Option.Rel (fun v w => Compared heap (some v) (some w) 0) (contents this key)
    (contents that key)

end Model

section Keys

/-- What the order of keys is the order of: their integer, or their characters. -/
def keyCode : Node → List Int
  | .mmInt v | .mmLong v => [v]
  | .mmString (some x) => cstringCode x.bytes
  | _ => []

/-- Two keys of one class whose difference is a value of the class. -/
def Close : Node → Node → Prop
  | .mmInt v, .mmInt w => -2 ^ 31 ≤ v - w ∧ v - w < 2 ^ 31
  | .mmLong v, .mmLong w => -2 ^ 63 ≤ v - w ∧ v - w < 2 ^ 63
  | .mmString _, .mmString _ => True
  | _, _ => False

structure OneClass (host : Host) (heap : Heap) (cls : Mmo.Object.Class) (keys : Set Addr) :
    Prop where
  primary : isPrimary cls = true
  valid : ∀ k ∈ keys, ∃ x, heap[k]? = some x ∧ x.cls = cls ∧ Wellformed host heap x

variable {host : Host} {heap : Heap} {x y : Node}

theorem compareNodes_agrees (hs : StringsApart heap) (hx : x ∈ heap) (hy : y ∈ heap)
    (hwx : Wellformed host heap x) (hwy : Wellformed host heap y) (hxy : Close x y) :
    ∃ d, (∀ cmp, compareNodes cmp x y = some d) ∧ Agrees d (keyCode x) (keyCode y) := by
  cases x with
  | mmInt v =>
    cases y with
    | mmInt w =>
      have hd : compareForMMInt v w = v - w := int32_of_range hxy.1 hxy.2
      exact ⟨_, fun cmp => rfl, hd ▸ Agrees.symbol (by omega) (by omega) (by omega)⟩
    | _ => exact hxy.elim
  | mmLong v =>
    cases y with
    | mmLong w =>
      have hd : int64 (v - w) = v - w := int64_of_range hxy.1 hxy.2
      refine ⟨_, fun cmp => rfl, ?_⟩
      simp only [compareForMMLong, hd]
      split_ifs <;> exact Agrees.symbol (by omega) (by omega) (by omega)
    | _ => exact hxy.elim
  | mmString v =>
    obtain ⟨v, rfl, hv0, -⟩ := hwx
    cases y with
    | mmString w =>
      obtain ⟨w, rfl, hw0, -⟩ := hwy
      refine ⟨_, fun cmp => rfl, ?_⟩
      by_cases hp : v.ptr = w.ptr
      · have hbytes := hs v w hx hy hp
        simp only [compareForMMString, Option.map_some, hp, if_true, keyCode, hbytes]
        exact Agrees.refl _
      · simp only [compareForMMString, Option.map_some, Option.some.injEq, hp, if_false]
        exact platCstrCompare_agrees hv0 hw0
    | _ => exact hxy.elim
  | _ => cases y <;> exact hxy.elim

theorem keyLess_of_code (hwx : Wellformed host heap x) (hwy : Wellformed host heap y)
    (hxy : Close x y) (h : keyCode x < keyCode y) : KeyLess x y := by
  cases x with
  | mmInt v =>
    cases y with
    | mmInt w =>
      have hlt : v < w := by simpa using List.cons_lt_cons_iff.mp h
      have hd : compareForMMInt v w = v - w := int32_of_range hxy.1 hxy.2
      rw [KeyLess, hd]
      omega
    | _ => exact hxy.elim
  | mmLong v =>
    cases y with
    | mmLong w =>
      have hlt : v < w := by simpa using List.cons_lt_cons_iff.mp h
      have hd : int64 (v - w) = v - w := int64_of_range hxy.1 hxy.2
      simp only [KeyLess, compareForMMLong, hd]
      rw [if_neg (by omega), if_pos (by omega)]
      decide
    | _ => exact hxy.elim
  | mmString v =>
    obtain ⟨v, rfl, hv0, -⟩ := hwx
    cases y with
    | mmString w =>
      obtain ⟨w, rfl, hw0, -⟩ := hwy
      exact (platCstrCompare_agrees hv0 hw0).lt_iff.mpr h
    | _ => exact hxy.elim
  | _ => cases y <;> exact hxy.elim

theorem Close.turn (hxy : Close x y) (h : keyCode y < keyCode x) : Close y x := by
  cases x with
  | mmInt v =>
    cases y with
    | mmInt w =>
      have hlt : w < v := by simpa using List.cons_lt_cons_iff.mp h
      obtain ⟨hlo, hhi⟩ := hxy
      exact ⟨by omega, by omega⟩
    | _ => exact hxy.elim
  | mmLong v =>
    cases y with
    | mmLong w =>
      have hlt : w < v := by simpa using List.cons_lt_cons_iff.mp h
      obtain ⟨hlo, hhi⟩ := hxy
      exact ⟨by omega, by omega⟩
    | _ => exact hxy.elim
  | mmString v =>
    cases y with
    | mmString w => trivial
    | _ => exact hxy.elim
  | _ => cases y <;> exact hxy.elim

theorem memoryBytes_injective {n : Nat} {v w : Int}
    (h : memoryBytes host n v = memoryBytes host n w) :
    v % 2 ^ (8 * n) = w % 2 ^ (8 * n) := by
  have hpos : (0 : Int) < 2 ^ (8 * n) := Int.pow_pos (by decide)
  have hlt : ∀ z : Int, (z % 2 ^ (8 * n)).toNat < 256 ^ n := by
    intro z
    have h0 := Int.emod_nonneg z hpos.ne'
    have h1 := Int.emod_lt_of_pos z hpos
    rw [show (256 : Nat) ^ n = 2 ^ (8 * n) by rw [Nat.pow_mul]]
    zify
    rw [Int.toNat_of_nonneg h0]
    exact h1
  have hbytes : toBytes n (v % 2 ^ (8 * n)).toNat = toBytes n (w % 2 ^ (8 * n)).toNat := by
    cases host with
    | big => exact h
    | little => exact List.reverse_injective h
  have hnat := congrArg ofBytes hbytes
  rw [ofBytes_toBytes_of_lt (hlt v), ofBytes_toBytes_of_lt (hlt w)] at hnat
  have hv := Int.toNat_of_nonneg (Int.emod_nonneg v hpos.ne')
  have hw := Int.toNat_of_nonneg (Int.emod_nonneg w hpos.ne')
  rw [← hv, ← hw, hnat]

/-- Keys of one class under the same bytes are equal. -/
theorem keyCode_of_hash (hwx : Wellformed host heap x) (hwy : Wellformed host heap y)
    (hcls : x.cls = y.cls)
    (h : hashOfMmobj host x = hashOfMmobj host y) : keyCode x = keyCode y := by
  cases x with
  | mmInt v =>
    cases y with
    | mmInt w =>
      have hmod := memoryBytes_injective h
      obtain ⟨hv0, hv1⟩ : -2 ^ 31 ≤ v ∧ v < 2 ^ 31 := hwx
      obtain ⟨hw0, hw1⟩ : -2 ^ 31 ≤ w ∧ w < 2 ^ 31 := hwy
      rw [keyCode, keyCode, show v = w by omega]
    | _ => cases hcls
  | mmLong v =>
    cases y with
    | mmLong w =>
      have hmod := memoryBytes_injective h
      obtain ⟨hv0, hv1⟩ := hwx
      obtain ⟨hw0, hw1⟩ := hwy
      rw [keyCode, keyCode, show v = w by omega]
    | _ => cases hcls
  | mmString v =>
    obtain ⟨v, rfl, -, hv⟩ := hwx
    cases y with
    | mmString w =>
      obtain ⟨w, rfl, -, hw⟩ := hwy
      rw [hashOfMmobj, hashOfMmobj, uint_of_lt (by omega), uint_of_lt (by omega), List.take_length,
        List.take_length] at h
      rw [keyCode, keyCode, h]
    | _ => cases hcls
  | _ => cases y <;> first | rfl | cases hcls

theorem hash_of_keyCode (hp : isPrimary x.cls = true) (hwx : Wellformed host heap x)
    (hwy : Wellformed host heap y) (hcls : x.cls = y.cls) (h : keyCode x = keyCode y) :
    Close x y ∧ hashOfMmobj host x = hashOfMmobj host y := by
  cases x with
  | mmInt v =>
    cases y with
    | mmInt w =>
      obtain rfl := (List.cons.inj h).1
      exact ⟨⟨by omega, by omega⟩, rfl⟩
    | _ => cases hcls
  | mmLong v =>
    cases y with
    | mmLong w =>
      obtain rfl := (List.cons.inj h).1
      exact ⟨⟨by omega, by omega⟩, rfl⟩
    | _ => cases hcls
  | mmString v =>
    obtain ⟨v, rfl, -⟩ := hwx
    cases y with
    | mmString w =>
      obtain ⟨w, rfl, -⟩ := hwy
      exact ⟨trivial, by rw [hashOfMmobj, hashOfMmobj, cstringCode_injective h]⟩
    | _ => cases hcls
  | _ => cases hp

end Keys

section Items

def codeAt (heap : Heap) (i : MapItem) : List Int := (heap[i.key]?.map keyCode).getD []

def Before (heap : Heap) (i j : MapItem) : Prop :=
  ∃ x y, heap[i.key]? = some x ∧ heap[j.key]? = some y ∧ Close x y ∧ keyCode x < keyCode y

/-- The items of a sorted map whose keys are among some others, in the order of these. -/
structure Kept (host : Host) (heap : Heap) (keys : Set Addr) (items : List MapItem) : Prop where
  keys : ∀ i ∈ items, i.key ∈ keys ∧ ∀ x, heap[i.key]? = some x → i.hashKey = hashOfMmobj host x
  ordered : items.Pairwise (Before heap)

variable {host : Host} {heap heap' : Heap} {cls : Mmo.Object.Class} {keys : Set Addr}
variable {items : List MapItem} {i j : MapItem}

theorem codeAt_eq {x : Node} (hx : heap[i.key]? = some x) : codeAt heap i = keyCode x := by
  rw [codeAt, hx]
  rfl

theorem Before.code_lt (h : Before heap i j) : codeAt heap i < codeAt heap j := by
  obtain ⟨x, y, hx, hy, -, hlt⟩ := h
  rwa [codeAt_eq hx, codeAt_eq hy]

theorem Kept.ascending (h : Kept host heap keys items) :
    (items.map (codeAt heap)).Pairwise (· < ·) :=
  List.pairwise_map.mpr (h.ordered.imp Before.code_lt)

theorem OneClass.frame (h : OneClass host heap cls keys)
    (hsame : ∀ k ∈ keys, heap'[k]? = heap[k]?) : OneClass host heap' cls keys where
  primary := h.primary
  valid k hk := by
    obtain ⟨x, hx, hcls, hwell⟩ := h.valid k hk
    refine ⟨x, (hsame k hk).trans hx, hcls, ?_⟩
    have hprimary := h.primary
    subst hcls
    cases x with
    | mmMap sorted items => cases hprimary
    | _ => exact hwell

theorem Kept.frame (h : Kept host heap keys items) (hsame : ∀ k ∈ keys, heap'[k]? = heap[k]?) :
    Kept host heap' keys items where
  keys i hi := by
    obtain ⟨hk, hhash⟩ := h.keys i hi
    exact ⟨hk, fun x hx => hhash x ((hsame _ hk).symm.trans hx)⟩
  ordered := by
    refine h.ordered.imp_of_mem fun {i j} hi hj hij => ?_
    obtain ⟨x, y, hx, hy, hrest⟩ := hij
    exact ⟨x, y, (hsame _ (h.keys i hi).1).trans hx, (hsame _ (h.keys j hj).1).trans hy, hrest⟩

theorem compareMapItems_agrees (hs : StringsApart heap) {x y : Node} (hx : heap[i.key]? = some x)
    (hy : heap[j.key]? = some y) (hwx : Wellformed host heap x) (hwy : Wellformed host heap y)
    (hcls : x.cls = y.cls) (hxy : Close x y) (hne : keyCode x ≠ keyCode y) :
    Agrees (compareMapItems heap i j) (keyCode x) (keyCode y) := by
  obtain ⟨d, hd, hagrees⟩ := compareNodes_agrees hs (List.mem_of_getElem? hx)
    (List.mem_of_getElem? hy) hwx hwy hxy
  have hkey : i.key ≠ j.key := by
    intro heq
    rw [heq, hy] at hx
    cases hx
    exact hne rfl
  rw [compareMapItems_keys hkey hx hy hcls (hd _) fun h0 => hne (hagrees.eq h0)]
  exact hagrees

theorem mem_addInOrder {cmp : MapItem → MapItem → Int} {item : MapItem} :
    j ∈ addInOrder cmp item items ↔ j = item ∨ j ∈ items := by
  induction items with
  | nil => exact List.mem_singleton.trans (or_iff_left List.not_mem_nil).symm
  | cons i items ih =>
    rw [addInOrder]
    split
    · exact List.mem_cons
    · rw [List.mem_cons, ih, List.mem_cons, or_left_comm]

theorem addInOrder_pairwise {cmp : MapItem → MapItem → Int} (code : MapItem → List Int)
    {B : MapItem → MapItem → Prop} {item : MapItem} (hB : ∀ i j, B i j → code i < code j)
    (hcmp : ∀ i ∈ items, Agrees (cmp i item) (code i) (code item))
    (hlt : ∀ i ∈ items, code i < code item → B i item)
    (hgt : ∀ i ∈ items, code item < code i → B item i)
    (hne : ∀ i ∈ items, code i ≠ code item) (h : items.Pairwise B) :
    (addInOrder cmp item items).Pairwise B := by
  induction items with
  | nil => exact List.pairwise_singleton _ _
  | cons i items ih =>
    obtain ⟨hi, htail⟩ := List.pairwise_cons.mp h
    have hagrees := hcmp i List.mem_cons_self
    rw [addInOrder]
    split
    · rename_i hpos
      have hfirst := hagrees.gt_iff.mp hpos
      refine List.pairwise_cons.mpr ⟨fun j hj => ?_, h⟩
      obtain rfl | hj := List.mem_cons.mp hj
      · exact hgt j List.mem_cons_self hfirst
      · exact hgt j (.tail _ hj) (hfirst.trans (hB i j (hi j hj)))
    · rename_i hle
      have hfirst : code i < code item :=
        lt_of_le_of_ne (hagrees.le_iff.mp (not_lt.mp hle)) (hne i List.mem_cons_self)
      refine List.pairwise_cons.mpr ⟨fun j hj => ?_, ih (fun j hj => hcmp j (.tail _ hj))
        (fun j hj => hlt j (.tail _ hj)) (fun j hj => hgt j (.tail _ hj))
        (fun j hj => hne j (.tail _ hj)) htail⟩
      obtain rfl | hj := mem_addInOrder.mp hj
      · exact hlt i List.mem_cons_self hfirst
      · exact hi j hj

theorem Kept.del (h : Kept host heap keys items) (k : List UInt8) :
    Kept host heap keys (Table.del MapItem.hashKey k items) where
  keys i hi := h.keys i (List.mem_of_mem_filter hi)
  ordered := h.ordered.sublist List.filter_sublist

theorem Kept.add (hc : OneClass host heap cls keys) (hs : StringsApart heap)
    (h : Kept host heap keys items) {key : Addr} (hkey : key ∈ keys) {x : Node}
    (hx : heap[key]? = some x) (value : Addr)
    (hclose : ∀ i ∈ items, ∀ y, heap[i.key]? = some y → Close y x) :
    Kept host heap keys
      (addItem (compareMapItems heap) true ⟨hashOfMmobj host x, key, value⟩ items) := by
  have hdel := h.del (hashOfMmobj host x)
  obtain ⟨x', hx', hcx, hwx⟩ := hc.valid key hkey
  obtain rfl := Option.some.inj (hx.symm.trans hx')
  have hcode : codeAt heap ⟨hashOfMmobj host x, key, value⟩ = keyCode x :=
    codeAt_eq (i := ⟨hashOfMmobj host x, key, value⟩) hx
  -- what is known of an item that stays: one with an equal key would be under the same bytes
  have hstay : ∀ i ∈ Table.del MapItem.hashKey (hashOfMmobj host x) items,
      ∃ y, heap[i.key]? = some y ∧ y.cls = x.cls ∧ Wellformed host heap y ∧ Close y x ∧
        codeAt heap i = keyCode y ∧ keyCode y ≠ keyCode x := by
    intro i hi
    obtain ⟨hik, hhash⟩ := hdel.keys i hi
    obtain ⟨y, hy, hcy, hwy⟩ := hc.valid _ hik
    have hcls := hcy.trans hcx.symm
    refine ⟨y, hy, hcls, hwy, hclose i (List.mem_of_mem_filter hi) y hy, codeAt_eq hy, ?_⟩
    intro heq
    have hsame := (hash_of_keyCode (hcy ▸ hc.primary) hwy hwx hcls heq).2
    have hdiff := (List.mem_filter.mp hi).2
    rw [hhash y hy, hsame] at hdiff
    simp at hdiff
  rw [addItem, if_pos rfl]
  exact
    { keys := fun i hi => by
        obtain rfl | hi := mem_addInOrder.mp hi
        · refine ⟨hkey, fun y hy => ?_⟩
          obtain rfl := Option.some.inj (hx.symm.trans hy)
          rfl
        · exact hdel.keys i hi
      ordered := by
        refine addInOrder_pairwise (codeAt heap) (fun _ _ => Before.code_lt)
          (fun i hi => ?_) (fun i hi hlt => ?_) (fun i hi hgt => ?_) (fun i hi => ?_) hdel.ordered
        all_goals obtain ⟨y, hy, hcls, hwy, hyx, hi, hne⟩ := hstay i hi
        · rw [hi, hcode]
          exact compareMapItems_agrees hs hy hx hwy hwx hcls hyx hne
        · rw [hi, hcode] at hlt
          exact ⟨y, x, hy, hx, hyx, hlt⟩
        · rw [hi, hcode] at hgt
          exact ⟨x, y, hx, hy, hyx.turn hgt, hgt⟩
        · rw [hi, hcode]
          exact hne }

end Items

section Runs

variable {host : Host} {heap start : Heap} {cls : Mmo.Object.Class} {keys : Set Addr} {a : Addr}

/-- The key that is added to a map is close to the keys that the map holds. -/
def Fitting (a : Addr) (c : Addr × MapCall) (heap : Heap) : Prop :=
  ∀ key value items, c = (a, .add key (some value)) → heap[a]? = some (.mmMap true items) →
    ∀ i ∈ items, ∀ x y, heap[key]? = some x → heap[i.key]? = some y → Close y x

/-- A call changes nothing, or the items of its map. -/
theorem run_cases (host : Host) (map : Addr) (c : MapCall) (heap : Heap) :
    c.run host map heap = heap ∨
      ∃ sorted items items', heap[map]? = some (.mmMap sorted items) ∧
        c.run host map heap = heap.set map (.mmMap sorted items') := by
  cases c with
  | add key value =>
    cases value with
    | none => exact .inl rfl
    | some value =>
      simp only [MapCall.run, addMMMapItem]
      split
      · rename_i sorted items k hmap hk
        exact .inr ⟨sorted, items, _, hmap, rfl⟩
      · exact .inl rfl
  | remove key =>
    simp only [MapCall.run, removeMMMapItem]
    split
    · rename_i sorted items k hmap hk
      exact .inr ⟨sorted, items, _, hmap, rfl⟩
    · exact .inl rfl

/-- A map during a run: the keys are as they were at the start, and its items are in order. -/
structure Running (host : Host) (start : Heap) (keys : Set Addr) (a : Addr) (heap : Heap) :
    Prop where
  same : ∀ k ∈ keys, heap[k]? = start[k]?
  apart : StringsApart heap
  kept : ∃ items, heap[a]? = some (.mmMap true items) ∧ Kept host heap keys items

theorem run_keys (hc : OneClass host heap cls keys) (map : Addr) (c : MapCall) :
    ∀ k ∈ keys, (c.run host map heap)[k]? = heap[k]? := by
  intro k hk
  obtain hrun | ⟨sorted, items, items', hmap, hrun⟩ := run_cases host map c heap
  · rw [hrun]
  · rw [hrun]
    refine List.getElem?_set_ne ?_
    rintro rfl
    obtain ⟨x, hx, hcls, -⟩ := hc.valid _ hk
    cases hmap.symm.trans hx
    have hprimary := hc.primary
    rw [← hcls] at hprimary
    cases hprimary

theorem run_apart (hs : StringsApart heap) (map : Addr) (c : MapCall) :
    StringsApart (c.run host map heap) := by
  obtain hrun | ⟨sorted, items, items', -, hrun⟩ := run_cases host map c heap
  · rw [hrun]
    exact hs
  · rw [hrun]
    exact hs.set (fun x => by nofun) map

theorem run_kept (hc : OneClass host heap cls keys) (hs : StringsApart heap)
    {items : List MapItem} (ha : heap[a]? = some (.mmMap true items))
    (hk : Kept host heap keys items) (c : MapCall) (hkey : c.key ∈ keys)
    (hfit : Fitting a (a, c) heap) :
    ∃ items', (c.run host a heap)[a]? = some (.mmMap true items') ∧ Kept host heap keys items' := by
  obtain ⟨x, hx, -⟩ := hc.valid _ hkey
  have hlt := (List.getElem?_eq_some_iff.mp ha).1
  cases c with
  | add key value =>
    cases value with
    | none => exact ⟨items, ha, hk⟩
    | some value =>
      refine ⟨_, ?_, hk.add hc hs hkey hx value fun i hi y hy =>
        hfit key value items rfl ha i hi x y hx hy⟩
      have hx' : heap[key]? = some x := hx
      simp only [MapCall.run, addMMMapItem, ha, hx']
      exact List.getElem?_set_self hlt
  | remove key =>
    refine ⟨_, ?_, hk.del (hashOfMmobj host x)⟩
    have hx' : heap[key]? = some x := hx
    simp only [MapCall.run, removeMMMapItem, ha, hx']
    exact List.getElem?_set_self hlt

theorem Running.run (hc : OneClass host start cls keys) (h : Running host start keys a heap)
    (c : Addr × MapCall) (hkey : c.1 = a → c.2.key ∈ keys) (hfit : Fitting a c heap) :
    Running host start keys a (c.2.run host c.1 heap) := by
  obtain ⟨map, c⟩ := c
  have hnow := hc.frame h.same
  have hsame := run_keys hnow map c
  refine ⟨fun k hk => (hsame k hk).trans (h.same k hk), run_apart h.apart map c, ?_⟩
  obtain ⟨items, ha, hk⟩ := h.kept
  by_cases hmap : map = a
  · subst hmap
    obtain ⟨items', ha', hk'⟩ := run_kept hnow h.apart ha hk c (hkey rfl) hfit
    exact ⟨items', ha', hk'.frame hsame⟩
  · refine ⟨items, ?_, hk.frame hsame⟩
    obtain hrun | ⟨sorted, items, items', -, hrun⟩ := run_cases host map c heap
    · rw [hrun]
      exact ha
    · rw [hrun]
      exact (List.getElem?_set_ne hmap).trans ha

theorem Running.runCalls (hc : OneClass host start cls keys) (h : Running host start keys a heap)
    {calls : List (Addr × MapCall)} (hkeys : ∀ c ∈ calls, c.1 = a → c.2.key ∈ keys)
    (hfit : Along host (Fitting a) calls heap) :
    Running host start keys a (runCalls host calls heap) := by
  induction calls generalizing heap with
  | nil => exact h
  | cons c calls ih =>
    obtain ⟨hone, hrest⟩ := hfit
    exact ih (h.run hc c (hkeys c List.mem_cons_self) hone)
      (fun d hd => hkeys d (List.mem_cons_of_mem _ hd)) hrest

theorem Along.and {P Q : Addr × MapCall → Heap → Prop} {calls : List (Addr × MapCall)}
    (hP : Along host P calls heap) (hQ : Along host Q calls heap) :
    Along host (fun c heap => P c heap ∧ Q c heap) calls heap := by
  induction calls generalizing heap with
  | nil => trivial
  | cons c calls ih => exact ⟨⟨hP.1, hQ.1⟩, ih hP.2 hQ.2⟩

theorem Along.imp {P Q : Addr × MapCall → Heap → Prop} (hPQ : ∀ c heap, P c heap → Q c heap)
    {calls : List (Addr × MapCall)} (h : Along host P calls heap) : Along host Q calls heap := by
  induction calls generalizing heap with
  | nil => trivial
  | cons c calls ih => exact ⟨hPQ c heap h.1, ih h.2⟩

/-- Keys that are all close to each other fit in any run. -/
theorem Running.along (hc : OneClass host start cls keys)
    (hclose : ∀ k ∈ keys, ∀ l ∈ keys, ∀ x y, start[k]? = some x → start[l]? = some y → Close x y)
    (h : Running host start keys a heap) {calls : List (Addr × MapCall)}
    (hkeys : ∀ c ∈ calls, c.1 = a → c.2.key ∈ keys) : Along host (Fitting a) calls heap := by
  induction calls generalizing heap with
  | nil => trivial
  | cons c calls ih =>
    have hfit : Fitting a c heap := by
      rintro key value items rfl ha i hi x y hx hy
      obtain ⟨items', ha', hk⟩ := h.kept
      cases ha.symm.trans ha'
      have hkey := hkeys _ List.mem_cons_self rfl
      have hik := (hk.keys i hi).1
      exact hclose _ hik _ hkey y x ((h.same _ hik).symm.trans hy) ((h.same _ hkey).symm.trans hx)
    exact ⟨hfit, ih (h.run hc c (hkeys c List.mem_cons_self) hfit)
      fun d hd => hkeys d (List.mem_cons_of_mem _ hd)⟩

theorem Running.new (hs : StringsApart start) (ha : start[a]? = some (.mmMap true [])) :
    Running host start keys a start where
  same _ _ := rfl
  apart := hs
  kept := ⟨[], ha, fun _ hi => absurd hi List.not_mem_nil, .nil⟩

end Runs

section Canonicity

variable {host : Host} {heap : Heap} {cls : Mmo.Object.Class} {keys : Set Addr} {a b : Addr}
variable {these those : List MapItem} {i j : MapItem}

/-- Items that are kept under the same bytes have the same place in the order. -/
theorem Kept.code_iff (hc : OneClass host heap cls keys) (hthis : Kept host heap keys these)
    (hthat : Kept host heap keys those) (hi : i ∈ these) (hj : j ∈ those) :
    codeAt heap i = codeAt heap j ↔ i.hashKey = j.hashKey := by
  obtain ⟨hik, hih⟩ := hthis.keys i hi
  obtain ⟨hjk, hjh⟩ := hthat.keys j hj
  obtain ⟨x, hx, hcx, hwx⟩ := hc.valid _ hik
  obtain ⟨y, hy, hcy, hwy⟩ := hc.valid _ hjk
  have hcls := hcx.trans hcy.symm
  rw [codeAt_eq hx, codeAt_eq hy, hih x hx, hjh y hy]
  exact ⟨fun h => (hash_of_keyCode (hcx ▸ hc.primary) hwx hwy hcls h).2,
    keyCode_of_hash hwx hwy hcls⟩

theorem Kept.mapKept (hc : OneClass host heap cls keys) (h : Kept host heap keys these) :
    MapKept host heap true these where
  keys i hi := by
    obtain ⟨hk, hhash⟩ := h.keys i hi
    obtain ⟨x, hx, hcls, -⟩ := hc.valid _ hk
    exact ⟨x, hx, hcls ▸ hc.primary, hhash x hx⟩
  distinct := by
    refine List.pairwise_map.mpr (h.ordered.imp_of_mem fun hi hj hij heq => ?_)
    exact hij.code_lt.ne ((h.code_iff hc h hi hj).mpr heq)
  ordered _ := by
    refine h.ordered.imp_of_mem fun {i j} hi hj hij => ?_
    obtain ⟨x, y, hx, hy, hxy, hlt⟩ := hij
    obtain ⟨x', hx', -, hwx⟩ := hc.valid _ (h.keys i hi).1
    obtain ⟨y', hy', -, hwy⟩ := hc.valid _ (h.keys j hj).1
    obtain rfl := Option.some.inj (hx.symm.trans hx')
    obtain rfl := Option.some.inj (hy.symm.trans hy')
    exact ⟨x, y, hx, hy, keyLess_of_code hwx hwy hxy hlt⟩

theorem Kept.contents_eq (hc : OneClass host heap cls keys) (h : Kept host heap keys these)
    (hi : i ∈ these) : contents these i.hashKey = some i.value := by
  cases hfind : Table.find MapItem.hashKey i.hashKey these with
  | none => exact absurd rfl (Table.find_eq_none.mp hfind i hi)
  | some j =>
    obtain ⟨hj, hhash⟩ := Table.find_some hfind
    have hcode := (h.code_iff hc h hi hj).mpr hhash.symm
    have hinj : ∀ u ∈ these, ∀ v ∈ these, codeAt heap u = codeAt heap v → u = v :=
      fun u hu v hv => List.inj_on_of_nodup_map (h.ascending.imp ne_of_lt) hu hv
    rw [contents, hfind, hinj i hi j hj hcode]
    rfl

theorem sameContents_of_eq (h : ∀ key, contents these key = contents those key) :
    SameContents heap these those := by
  intro key
  rw [h key]
  cases contents those key with
  | none => exact .none
  | some value => exact .some (Compared.self heap _)

theorem SameContents.isSome_eq (h : SameContents heap these those) (key : List UInt8) :
    (contents these key).isSome = (contents those key).isSome := by
  have hrel := h key
  generalize contents these key = v at hrel
  generalize contents those key = w at hrel
  cases hrel <;> rfl

theorem mem_codes (hc : OneClass host heap cls keys) (hthis : Kept host heap keys these)
    (hthat : Kept host heap keys those)
    (hsome : ∀ key, (contents these key).isSome = (contents those key).isSome) {code : List Int}
    (h : code ∈ these.map (codeAt heap)) : code ∈ those.map (codeAt heap) := by
  obtain ⟨i, hi, rfl⟩ := List.mem_map.mp h
  have hkey := hsome i.hashKey
  rw [hthis.contents_eq hc hi] at hkey
  cases hfind : Table.find MapItem.hashKey i.hashKey those with
  | none =>
    rw [contents, hfind] at hkey
    cases hkey
  | some j =>
    obtain ⟨hj, hhash⟩ := Table.find_some hfind
    rw [(hthis.code_iff hc hthat hi hj).mpr hhash.symm]
    exact List.mem_map_of_mem hj

/-- The order of the keys does not depend on the run. -/
theorem codes_eq (hc : OneClass host heap cls keys) (hthis : Kept host heap keys these)
    (hthat : Kept host heap keys those) (h : SameContents heap these those) :
    these.map (codeAt heap) = those.map (codeAt heap) :=
  List.Pairwise.eq_of_mem_iff hthis.ascending hthat.ascending fun _ =>
    ⟨mem_codes hc hthis hthat h.isSome_eq,
      mem_codes hc hthat hthis fun key => (h.isSome_eq key).symm⟩

def ItemsEqual (heap : Heap) (i j : MapItem) : Prop :=
  Compared heap (some i.key) (some j.key) 0 ∧ Compared heap (some i.value) (some j.value) 0

theorem compared_keys (hc : OneClass host heap cls keys) (hs : StringsApart heap)
    (hi : i.key ∈ keys) (hj : j.key ∈ keys) (hcode : codeAt heap i = codeAt heap j) :
    Compared heap (some i.key) (some j.key) 0 := by
  by_cases hkey : i.key = j.key
  · rw [hkey]
    exact Compared.self heap _
  obtain ⟨x, hx, hcx, hwx⟩ := hc.valid _ hi
  obtain ⟨y, hy, hcy, hwy⟩ := hc.valid _ hj
  have hcls := hcx.trans hcy.symm
  rw [codeAt_eq hx, codeAt_eq hy] at hcode
  obtain ⟨hxy, -⟩ := hash_of_keyCode (hcx ▸ hc.primary) hwx hwy hcls hcode
  obtain ⟨d, hd, hagrees⟩ := compareNodes_agrees hs (List.mem_of_getElem? hx)
    (List.mem_of_getElem? hy) hwx hwy hxy
  obtain rfl := hagrees.eq_iff.mpr hcode
  exact Compared.of_nodes hkey hx hy hcls hd

theorem items_equal (hc : OneClass host heap cls keys) (hs : StringsApart heap)
    (hthis : Kept host heap keys these) (hthat : Kept host heap keys those)
    (h : SameContents heap these those) : List.Forall₂ (ItemsEqual heap) these those := by
  have hcodes := codes_eq hc hthis hthat h
  have hlen : these.length = those.length := by
    have := congrArg List.length hcodes
    rwa [List.length_map, List.length_map] at this
  refine List.forall₂_iff_get.mpr ⟨hlen, fun n h1 h2 => ?_⟩
  have hi := List.get_mem these ⟨n, h1⟩
  have hj := List.get_mem those ⟨n, h2⟩
  have hcode : codeAt heap (these.get ⟨n, h1⟩) = codeAt heap (those.get ⟨n, h2⟩) := by
    have hget : (these.map (codeAt heap))[n]? = (those.map (codeAt heap))[n]? := by rw [hcodes]
    rw [List.getElem?_map, List.getElem?_map, List.getElem?_eq_getElem h1,
      List.getElem?_eq_getElem h2] at hget
    exact Option.some.inj hget
  refine ⟨compared_keys hc hs (hthis.keys _ hi).1 (hthat.keys _ hj).1 hcode, ?_⟩
  have hrel := h (these.get ⟨n, h1⟩).hashKey
  rw [hthis.contents_eq hc hi, (hthis.code_iff hc hthat hi hj).mp hcode,
    hthat.contents_eq hc hj] at hrel
  cases hrel with
  | some hvalue => exact hvalue

theorem compareItems_equal (h : List.Forall₂ (ItemsEqual heap) these those) :
    ∃ n, ∀ fuel, n ≤ fuel → compareItems (compareMmobjs heap fuel) these those = some 0 := by
  induction h with
  | nil => exact ⟨0, fun fuel _ => rfl⟩
  | cons hij _ ih =>
    obtain ⟨⟨nk, hk⟩, nv, hv⟩ := hij
    obtain ⟨n, hrest⟩ := ih
    refine ⟨max nk (max nv n), fun fuel hf => ?_⟩
    rw [compareItems, hk fuel (by omega), Option.bind_eq_bind, Option.bind_some,
      if_neg (not_not.mpr rfl), hv fuel (by omega), Option.bind_some, if_neg (not_not.mpr rfl)]
    exact hrest fuel (by omega)

theorem compared_maps {s t : Bool} (ha : heap[a]? = some (.mmMap s these))
    (hb : heap[b]? = some (.mmMap t those)) (h : List.Forall₂ (ItemsEqual heap) these those) :
    Compared heap (some a) (some b) 0 := by
  by_cases hab : a = b
  · rw [hab]
    exact Compared.self heap _
  obtain ⟨n, hn⟩ := compareItems_equal h
  refine ⟨n + 1, fun fuel hf => ?_⟩
  obtain ⟨k, rfl⟩ : ∃ k, fuel = k + 1 := ⟨fuel - 1, by omega⟩
  rw [compareMmobjs_some k hab ha hb, if_neg (fun hne => hne rfl), compareNodes, compareForMMMap,
    if_neg (not_not.mpr (congrArg uint h.length_eq))]
  exact hn k (by omega)

end Canonicity

end LcClibs.Mmo.Sorted
