import Mathlib
import LcClibs.Mmo.Object
import LcClibs.Pack.Packer

namespace LcClibs.Pack.Classes

open Platform Mmo.Object Pack.Packer

section PackFunctions

/-- The calls of the pack functions of the six classes. -/
def packMMInt (value : Int) : List (PackCall Addr) := [.varInt64 0 value]

def packMMLong (value : Int) : List (PackCall Addr) := [.varInt64 0 value]

/-- The length argument is a `uint`, counted with the closing NUL. -/
def packMMString : Option Blob → List (PackCall Addr)
  | none => [.crash .nullDeref]
  | some x => [.data 0 ((x.bytes ++ [0]).take (uint (x.bytes.length + 1)))]

def packMMData (data : Option Blob) : List (PackCall Addr) :=
  [.data 0 ((data.map Blob.bytes).getD [])]

def packMMMapItem (i : MapItem) : List (PackCall Addr) :=
  [.object 0 (some i.key), .object 1 (some i.value)]

def packMMMap (sorted : Bool) (items : List MapItem) : List (PackCall Addr) :=
  .varInt64 0 (if sorted then 1 else 0) :: .array 1 (uint (uint items.length * 2)) ::
    (items.flatMap packMMMapItem ++ [.arrayEnd 1])

def packMMList (items : List (Option Addr)) : List (PackCall Addr) :=
  .array 0 (uint items.length) :: (items.map (PackCall.object 0) ++ [.arrayEnd 0])

def packNode : Node → List (PackCall Addr)
  | .mmInt value => packMMInt value
  | .mmLong value => packMMLong value
  | .mmString value => packMMString value
  | .mmData data => packMMData data
  | .mmMap sorted items => packMMMap sorted items
  | .mmList items => packMMList items

def silent (name : String) : Level Addr := ⟨cstr name, none⟩

def superLevels : Mmo.Object.Class → List (Level Addr)
  | .mmInt | .mmLong | .mmString => [silent "MMObject", silent "MMPrimary"]
  | .mmData => [silent "MMObject"]
  | .mmMap | .mmList => [silent "MMObject", silent "MMContainer"]

def nodeStru (x : Node) : Stru Addr := ⟨superLevels x.cls, ⟨x.cls.name, some (packNode x)⟩⟩

/-- Packing through a pointer to no object reads memory that is not there. -/
def heapStru (heap : Heap) (a : Addr) : Stru Addr :=
  match heap[a]? with
  | some x => nodeStru x
  | none => ⟨[silent "MMObject"], ⟨[], some [.crash .nullDeref]⟩⟩

theorem heapStru_isMMObject (heap : Heap) (a : Addr) : (heapStru heap a).isMMObject = true := by
  rw [heapStru]
  cases heap[a]? with
  | none => rfl
  | some x => cases x <;> rfl

end PackFunctions

end LcClibs.Pack.Classes
