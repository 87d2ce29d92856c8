import Mathlib
import LcClibs.Mmo.Map
import LcClibs.Pack.Classes
import LcClibs.Pack.Unpacker

namespace LcClibs.Pack.Inits

open Platform Buffer.VarInt Mmo.Object Mmo.Map Pack.Packer Pack.Classes Pack.Unpacker

section InitFunctions

def blankNode : Mmo.Object.Class → Node
  | .mmInt => .mmInt 0
  | .mmLong => .mmLong 0
  | .mmString => .mmString none
  | .mmData => .mmData none
  | .mmMap => .mmMap false []
  | .mmList => .mmList []

def initMMInt (obj : Addr) : Init Heap :=
  .varInt64 0 fun value => .write (fun heap => heap.set obj (.mmInt (int32 value))) (.done true)

def initMMLong (obj : Addr) : Init Heap :=
  .varInt64 0 fun value => .write (fun heap => heap.set obj (.mmLong value)) (.done true)

/-- `mgn_mem_alloc` gives a block of memory for the bytes. -/
def initMMString (alloc : Heap → Nat) (obj : Addr) : Init Heap :=
  .data 0 fun data =>
    match data with
    | none => .done true
    | some bytes =>
      .write (fun heap => heap.set obj (.mmString (some ⟨alloc heap, bytes.takeWhile (· ≠ 0)⟩)))
        (.done true)

def initMMData (alloc : Heap → Nat) (obj : Addr) : Init Heap :=
  .data 0 fun data =>
    match data with
    | none => .done true
    | some bytes =>
      .write (fun heap => heap.set obj (.mmData (some ⟨alloc heap, bytes⟩))) (.done true)

/-- Null for no object and for one of another kind. -/
def toMMPrimary (heap : Heap) (stru : Option Addr) : Option Addr :=
  stru.filter fun a => (heap[a]?.map fun x => isPrimary x.cls).getD false

variable (host : Host)

/-- The loop over the pairs of the array; both objects are unpacked before the test. -/
def initMMMapItems (map : Addr) : Nat → Nat → Init Heap
  | 0, _ => .arrayEnd 1 (.done true)
  | left + 1, i =>
    .object i fun stru => .read fun heap => .object (i + 1) fun value =>
      match toMMPrimary heap stru, value with
      | some primary, some value =>
        .write (addMMMapItem host map primary value) (initMMMapItems map left (i + 2))
      | _, _ => .done false

def setSorted (map : Addr) (sorted : Bool) (heap : Heap) : Heap :=
  match heap[map]? with
  | some (.mmMap _ items) => heap.set map (.mmMap sorted items)
  | _ => heap

def initMMMap (map : Addr) : Init Heap :=
  .varInt64 0 fun sorted => .write (setSorted map (sorted != 0)) <|
    .array 1 fun len => if len % 2 = 1 then .done false else initMMMapItems host map (len / 2) 0

def pushMMListItem (list : Addr) (item : Option Addr) (heap : Heap) : Heap :=
  match heap[list]? with
  | some (.mmList items) => heap.set list (.mmList (items ++ [item]))
  | _ => heap

def initMMListItems (list : Addr) : Nat → Nat → Init Heap
  | 0, _ => .arrayEnd 0 (.done true)
  | left + 1, i =>
    .object i fun item =>
      match item with
      | none => .done false
      | some item => .write (pushMMListItem list (some item)) (initMMListItems list left (i + 1))

def initMMList (list : Addr) : Init Heap :=
  .array 0 fun len => initMMListItems list len 0

def initNode (alloc : Heap → Nat) : Mmo.Object.Class → Addr → Init Heap
  | .mmInt => initMMInt
  | .mmLong => initMMLong
  | .mmString => initMMString alloc
  | .mmData => initMMData alloc
  | .mmMap => initMMMap host
  | .mmList => initMMList

/-- `alloc##stru_name`: the super classes have no init function. -/
def allocNode (alloc : Heap → Nat) (c : Mmo.Object.Class) : Alloc Heap where
  blank heap := (heap.length, heap ++ [blankNode c])
  levels := (superLevels c).map (fun l => (l.name, none)) ++
    [(c.name, some (initNode host alloc c))]

/-- The classes that hold no object here come with allocators of their own. -/
def registerAllMmoExtToUnpacker (alloc : Heap → Nat) (float double mapItem : Alloc Heap) :
    Allocators Heap :=
  [(Mmo.Object.Class.mmInt.name, allocNode host alloc .mmInt),
    (Mmo.Object.Class.mmLong.name, allocNode host alloc .mmLong),
    (Mmo.Object.Class.mmData.name, allocNode host alloc .mmData),
    (Mmo.Object.Class.mmString.name, allocNode host alloc .mmString),
    (cstr "MMFloat", float), (cstr "MMDouble", double), (cstr "MMMapItem", mapItem),
    (Mmo.Object.Class.mmMap.name, allocNode host alloc .mmMap),
    (Mmo.Object.Class.mmList.name, allocNode host alloc .mmList)]

end InitFunctions

end LcClibs.Pack.Inits
