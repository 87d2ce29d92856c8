import Mathlib
import LcClibs.Buffer.VarInt
import LcClibs.Lib.Table
import LcClibs.Mmo.Compare

namespace LcClibs.Mmo.Map

open Platform Lib Lib.BigEndian Buffer.VarInt Mmo.Object Mmo.Compare

section Model

def memoryBytes (host : Host) (n : Nat) (value : Int) : List UInt8 :=
  match host with
  | .big => toBytes n (value % 2 ^ (8 * n)).toNat
  | .little => (toBytes n (value % 2 ^ (8 * n)).toNat).reverse

variable (host : Host)

/-- `hash_of_mmobj`: the memory that is hashed for an object. A class without a hash
function leaves the null pointer and the length zero, and the length of a string is a `uint`. -/
def hashOfMmobj : Node → List UInt8
  | .mmInt value => memoryBytes host 4 value
  | .mmLong value => memoryBytes host 8 value
  | .mmString (some x) => x.bytes.take (uint x.bytes.length)
  | _ => []

/-- `compare_mmobjs` of two map items. Values nested deeper than there are objects, which
are compared without end, have no order. -/
def compareMapItems (heap : Heap) (this that : MapItem) : Int :=
  (compareForMMMapItem (compareMmobjs heap (heap.length + 1)) this that).getD 0

/-- `HASH_ADD_KEYPTR_INORDER`: before the first item that is greater. -/
def addInOrder (cmp : MapItem → MapItem → Int) (item : MapItem) : List MapItem → List MapItem
  | [] => [item]
  | i :: items => if cmp i item > 0 then item :: i :: items else i :: addInOrder cmp item items

/-- The items after the hash table has given up an item under the same key, if any. -/
def addItem (cmp : MapItem → MapItem → Int) (sorted : Bool) (item : MapItem)
    (items : List MapItem) : List MapItem :=
  if sorted then addInOrder cmp item (Table.del MapItem.hashKey item.hashKey items)
  else Table.put MapItem.hashKey item items

def addMMMapItem (map key value : Addr) (heap : Heap) : Heap :=
  match heap[map]?, heap[key]? with
  | some (.mmMap sorted items), some k =>
    heap.set map (.mmMap sorted
      (addItem (compareMapItems heap) sorted ⟨hashOfMmobj host k, key, value⟩ items))
  | _, _ => heap

def removeMMMapItem (map key : Addr) (heap : Heap) : Heap :=
  match heap[map]?, heap[key]? with
  | some (.mmMap sorted items), some k =>
    heap.set map (.mmMap sorted (Table.del MapItem.hashKey (hashOfMmobj host k) items))
  | _, _ => heap

end Model

section Graphs

def isPrimary : Mmo.Object.Class → Bool
  | .mmInt | .mmLong | .mmString => true
  | _ => false

/-- A key that is less than another one of its class, whatever memory they lie in. -/
def KeyLess : Node → Node → Prop
  | .mmInt v, .mmInt w => compareForMMInt v w < 0
  | .mmLong v, .mmLong w => compareForMMLong v w < 0
  | .mmString (some x), .mmString (some y) => platCstrCompare x.bytes y.bytes < 0
  | _, _ => False

def ItemsLess (heap : Heap) (i j : MapItem) : Prop :=
  ∃ k l, heap[i.key]? = some k ∧ heap[j.key]? = some l ∧ KeyLess k l

/-- The items of a map as `addMMMapItem` keeps them: each is found under the bytes of its key,
no two under the same, and those of a sorted map are in the order of their keys. -/
structure MapKept (host : Host) (heap : Heap) (sorted : Bool) (items : List MapItem) : Prop where
  keys : ∀ i ∈ items, ∃ k, heap[i.key]? = some k ∧ isPrimary k.cls = true ∧
    i.hashKey = hashOfMmobj host k
  distinct : (items.map MapItem.hashKey).Nodup
  ordered : sorted = true → items.Pairwise (ItemsLess heap)

/-- An object that its class can have, with a string where there should be one and no null
entry. The allocators of a string count it with its NUL in a `uint`. -/
def Wellformed (host : Host) (heap : Heap) : Node → Prop
  | .mmInt value => -2 ^ 31 ≤ value ∧ value < 2 ^ 31
  | .mmLong value => IsInt64 value
  | .mmString value => ∃ x, value = some x ∧ 0 ∉ x.bytes ∧ x.bytes.length + 1 < 2 ^ 32
  | .mmData data => ∀ x ∈ data, x.bytes.length < 2 ^ 32
  | .mmMap sorted items => MapKept host heap sorted items
  | .mmList items => ∀ o ∈ items, o.isSome

/-- Two objects of one class and one value, whose pointers lead to related objects. Data of no
bytes may have a memory or none, but comes back with none. -/
inductive Alike (R : Addr → Addr → Prop) : Node → Node → Prop
  | mmInt (value : Int) : Alike R (.mmInt value) (.mmInt value)
  | mmLong (value : Int) : Alike R (.mmLong value) (.mmLong value)
  | mmString {x y : Blob} (h : x.bytes = y.bytes) :
    Alike R (.mmString (some x)) (.mmString (some y))
  | mmData {x y : Option Blob} (h : (x.map Blob.bytes).getD [] = (y.map Blob.bytes).getD [])
    (hy : ∀ u ∈ y, u.bytes ≠ []) : Alike R (.mmData x) (.mmData y)
  | mmMap {sorted : Bool} {is js : List MapItem}
    (h : List.Forall₂
      (fun i j => i.hashKey = j.hashKey ∧ R i.key j.key ∧ R i.value j.value) is js) :
    Alike R (.mmMap sorted is) (.mmMap sorted js)
  | mmList {xs ys : List (Option Addr)} (h : List.Forall₂ (Option.Rel R) xs ys) :
    Alike R (.mmList xs) (.mmList ys)

theorem Alike.mono {R R' : Addr → Addr → Prop} (hR : ∀ a b, R a b → R' a b) {x y : Node}
    (h : Alike R x y) : Alike R' x y := by
  cases h with
  | mmInt value => exact .mmInt value
  | mmLong value => exact .mmLong value
  | mmString h => exact .mmString h
  | mmData h hy => exact .mmData h hy
  | mmMap h =>
    exact .mmMap (h.imp fun i j hij => ⟨hij.1, hR _ _ hij.2.1, hR _ _ hij.2.2⟩)
  | mmList h =>
    refine .mmList (h.imp fun o o' hoo => ?_)
    cases hoo with
    | some hab => exact .some (hR _ _ hab)
    | none => exact .none

theorem Alike.cls_eq {R : Addr → Addr → Prop} {x y : Node} (h : Alike R x y) : x.cls = y.cls := by
  cases h <;> rfl

theorem Alike.hash_eq {host : Host} {R : Addr → Addr → Prop} {x y : Node} (h : Alike R x y) :
    hashOfMmobj host x = hashOfMmobj host y := by
  cases h with
  | mmString h => simp only [hashOfMmobj, h]
  | _ => rfl

theorem KeyLess.alike {R : Addr → Addr → Prop} {k l k' l' : Node} (h : KeyLess k l)
    (hk : Alike R k k') (hl : Alike R l l') : KeyLess k' l' := by
  cases hk with
  | mmInt v =>
    cases hl with
    | mmInt w => exact h
    | _ => exact h.elim
  | mmLong v =>
    cases hl with
    | mmLong w => exact h
    | _ => exact h.elim
  | mmString hx =>
    cases hl with
    | mmString hy =>
      simp only [KeyLess, hx, hy] at h
      exact h
    | _ => exact h.elim
  | _ => cases hl <;> exact h.elim

/-- Strings that lie at one place in the memory are equal. -/
def StringsApart (heap : Heap) : Prop :=
  ∀ x y, .mmString (some x) ∈ heap → .mmString (some y) ∈ heap → x.ptr = y.ptr → x.bytes = y.bytes

theorem StringsApart.set {heap : Heap} (h : StringsApart heap) {y : Node}
    (hy : ∀ x, y ≠ .mmString (some x)) (b : Addr) : StringsApart (heap.set b y) := by
  intro u v hu hv
  obtain hu | hu := List.mem_or_eq_of_mem_set hu
  · obtain hv | hv := List.mem_or_eq_of_mem_set hv
    · exact h u v hu hv
    · exact absurd hv.symm (hy v)
  · exact absurd hu.symm (hy u)

theorem StringsApart.append {heap : Heap} (h : StringsApart heap) {y : Node}
    (hy : ∀ x, y ≠ .mmString (some x)) : StringsApart (heap ++ [y]) := by
  intro u v hu hv
  obtain hu | hu := List.mem_append.mp hu
  · obtain hv | hv := List.mem_append.mp hv
    · exact h u v hu hv
    · exact absurd (List.mem_singleton.mp hv).symm (hy v)
  · exact absurd (List.mem_singleton.mp hu).symm (hy u)

theorem StringsApart.set_new {heap : Heap} (h : StringsApart heap) {x : Blob} (b : Addr)
    (hx : ∀ u, .mmString (some u) ∈ heap → u.ptr ≠ x.ptr) :
    StringsApart (heap.set b (.mmString (some x))) := by
  intro u v hu hv huv
  obtain hu | hu := List.mem_or_eq_of_mem_set hu
  · obtain hv | hv := List.mem_or_eq_of_mem_set hv
    · exact h u v hu hv huv
    · cases hv
      exact absurd huv (hx u hu)
  · cases hu
    obtain hv | hv := List.mem_or_eq_of_mem_set hv
    · exact absurd huv.symm (hx v hv)
    · cases hv
      rfl

theorem platCstrCompare_self (s : List UInt8) : platCstrCompare s s = 0 := by
  induction s with
  | nil => rfl
  | cons b s ih => rw [platCstrCompare, if_pos rfl, ih]

theorem KeyLess.irrefl (k : Node) : ¬KeyLess k k := by
  cases k with
  | mmInt v =>
    simp only [KeyLess, compareForMMInt, sub_self]
    decide
  | mmLong v =>
    simp only [KeyLess, compareForMMLong, sub_self]
    decide
  | mmString value =>
    cases value with
    | none => exact id
    | some x =>
      simp only [KeyLess, platCstrCompare_self]
      decide
  | _ => exact id

theorem compareMapItems_keys {heap : Heap} {i j : MapItem} {k l : Node} {d : Int}
    (hne : i.key ≠ j.key) (hk : heap[i.key]? = some k) (hl : heap[j.key]? = some l)
    (hcls : k.cls = l.cls) (hd : compareNodes (compareMmobjs heap heap.length) k l = some d)
    (hd0 : d ≠ 0) : compareMapItems heap i j = d := by
  have hcmp : compareMmobjs heap (heap.length + 1) (some i.key) (some j.key) = some d := by
    rw [compareMmobjs_some _ hne hk hl, if_neg (by rw [hcls]; exact fun hne => hne rfl), hd]
  have hitem : compareForMMMapItem (compareMmobjs heap (heap.length + 1)) i j = some d := by
    rw [compareForMMMapItem, hcmp]
    simp [hd0]
  rw [compareMapItems, hitem]
  rfl

theorem compareMapItems_neg {heap : Heap} (hs : StringsApart heap) {i j : MapItem} {k l : Node}
    (hk : heap[i.key]? = some k) (hl : heap[j.key]? = some l) (h : KeyLess k l) :
    compareMapItems heap i j < 0 := by
  have hne : i.key ≠ j.key := by
    intro heq
    rw [heq, hl] at hk
    cases hk
    exact KeyLess.irrefl _ h
  obtain ⟨d, hd, hneg⟩ : ∃ d, compareNodes (compareMmobjs heap heap.length) k l = some d ∧
      d < 0 := by
    cases k with
    | mmInt v =>
      cases l with
      | mmInt w => exact ⟨_, rfl, h⟩
      | _ => exact h.elim
    | mmLong v =>
      cases l with
      | mmLong w => exact ⟨_, rfl, h⟩
      | _ => exact h.elim
    | mmString x =>
      cases l with
      | mmString y =>
        cases x with
        | none => exact h.elim
        | some x =>
          cases y with
          | none => exact h.elim
          | some y =>
            refine ⟨platCstrCompare x.bytes y.bytes, ?_, h⟩
            have hptr : x.ptr ≠ y.ptr := by
              intro heq
              have hbytes := hs x y (List.mem_of_getElem? hk) (List.mem_of_getElem? hl) heq
              simp only [KeyLess, hbytes, platCstrCompare_self] at h
              exact absurd h (by decide)
            simp [compareNodes, compareForMMString, hptr]
      | _ => cases x <;> exact h.elim
    | _ => cases l <;> exact h.elim
  have hcls : k.cls = l.cls := by
    cases k with
    | mmString x => cases x <;> cases l <;> first | rfl | exact h.elim
    | _ => cases l <;> first | rfl | exact h.elim
  rw [compareMapItems_keys hne hk hl hcls hd hneg.ne]
  exact hneg

theorem addInOrder_append {cmp : MapItem → MapItem → Int} {item : MapItem} {items : List MapItem}
    (h : ∀ i ∈ items, cmp i item ≤ 0) : addInOrder cmp item items = items ++ [item] := by
  induction items with
  | nil => rfl
  | cons i items ih =>
    rw [addInOrder, if_neg (not_lt.mpr (h i List.mem_cons_self)),
      ih fun j hj => h j (List.mem_cons_of_mem _ hj)]
    rfl

/-- An item under a new key, and greater than all others where the map is sorted, is the last. -/
theorem addItem_append {cmp : MapItem → MapItem → Int} {sorted : Bool} {item : MapItem}
    {items : List MapItem} (hnew : item.hashKey ∉ items.map MapItem.hashKey)
    (h : sorted = true → ∀ i ∈ items, cmp i item ≤ 0) :
    addItem cmp sorted item items = items ++ [item] := by
  have hdel : Table.del MapItem.hashKey item.hashKey items = items := by
    refine Table.del_of_find_none (Table.find_eq_none.mpr fun i hi heq => hnew ?_)
    rw [← heq]
    exact List.mem_map_of_mem hi
  cases sorted with
  | true =>
    rw [addItem, if_pos rfl, hdel]
    exact addInOrder_append (h rfl)
  | false =>
    rw [addItem, if_neg Bool.false_ne_true, Table.put_eq, hdel]

end Graphs

end LcClibs.Mmo.Map
