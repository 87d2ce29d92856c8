import Mathlib
import LcClibs.Lib.Table
import LcClibs.Mmo.Object
import LcClibs.Pack.Records

namespace LcClibs.Pack.Packer

open Platform Lib Buffer.Cursor Buffer.Append Buffer.Typdex Buffer.VarInt Pack.Records
open Mmo.Object (namesMMObject)

section Objects

/-- A call that a pack function makes on its packer; the objects are pointers of a
type of their own. A pack function that measures a null string stops there. -/
inductive PackCall (A : Type)
  | varInt64 (key : Nat) (value : Int)
  | float (key value : Nat)
  | double (key value : Nat)
  | data (key : Nat) (value : List UInt8)
  | array (key len : Nat)
  | arrayEnd (key : Nat)
  | object (key : Nat) (stru : Option A)
  | crash (f : Fault)
  deriving DecidableEq, Repr

/-- One class of the chain an object is built from, with the calls of its pack
function where it has one. -/
structure Level (A : Type) where
  name : List UInt8
  pack : Option (List (PackCall A))

/-- An object as the packer sees it: the levels of its super classes from the root
on, and its own. -/
structure Stru (A : Type) where
  supers : List (Level A)
  last : Level A

def Stru.levels {A : Type} (s : Stru A) : List (Level A) := s.supers ++ [s.last]

/-- `isMMObject`, which an object of a root class of one's own is not. -/
def Stru.isMMObject {A : Type} (s : Stru A) : Bool := s.levels.any fun l => namesMMObject l.name

def toMMObject {A : Type} (stru : A → Stru A) (obj : Option A) : Option A :=
  obj.filter fun a => (stru a).isMMObject

end Objects

section Model

structure MMPacker (A : Type) where
  level : Nat
  objToId : List (A × Nat)
  idToObj : List (Nat × A)
  classNameToId : List (List UInt8 × Nat)
  dyb : Dybuf

abbrev PackM (A α : Type) := StateT (MMPacker A) (Except Stop) α

variable {A : Type} [DecidableEq A] (host : Host)

def onDyb {α : Type} (x : DybM α) : PackM A α := fun s =>
  match x s.dyb with
  | .ok (a, d) => .ok (a, { s with dyb := d })
  | .error f => .error (.fault f)

def emit (r : Record) : PackM A Unit := onDyb (r.append host)

def packVarInt64Impl (key : Nat) (value : Int) : PackM A Unit := emit host (.integer key value)

def packFloatImpl (key value : Nat) : PackM A Unit := emit host (.float key value)

def packDoubleImpl (key value : Nat) : PackM A Unit := emit host (.double key value)

def packDataImpl (key : Nat) (value : List UInt8) : PackM A Unit := emit host (.raw key value)

def packArrayImpl (key len : Nat) : PackM A Unit := emit host (.array key (uint (len + 1)))

def packArrayEndImpl (key : Nat) : PackM A Unit := emit host (.array key 0)

def dbSaveObjectName (name : List UInt8) : PackM A Nat := do
  let s ← get
  match Table.find Prod.fst name s.classNameToId with
  | some p => return p.2
  | none =>
    let i := s.classNameToId.length
    set { s with classNameToId := s.classNameToId ++ [(name, i)] }
    emit host (.className i name)
    return i

def packNextContextImpl (name : List UInt8) : PackM A Unit := do
  let classnameNum ← dbSaveObjectName host name
  emit host (.context classnameNum)

def packCall (packObject : Nat → Option A → PackM A Unit) : PackCall A → PackM A Unit
  | .varInt64 key value => packVarInt64Impl host key value
  | .float key value => packFloatImpl host key value
  | .double key value => packDoubleImpl host key value
  | .data key value => packDataImpl host key value
  | .array key len => packArrayImpl host key len
  | .arrayEnd key => packArrayEndImpl host key
  | .object key stru => packObject key stru
  | .crash f => throw (.fault f)

def packCalls (packObject : Nat → Option A → PackM A Unit) : List (PackCall A) → PackM A Unit
  | [] => pure ()
  | c :: calls => do
    packCall host packObject c
    packCalls packObject calls

/-- `pack_##stru_name` of each class of the chain, super classes first. -/
def packLevels (packObject : Nat → Option A → PackM A Unit) : List (Level A) → PackM A Unit
  | [] => pure ()
  | l :: levels => do
    match l.pack with
    | none => pure ()
    | some calls =>
      packNextContextImpl host l.name
      packCalls host packObject calls
    packLevels packObject levels

variable (stru : A → Stru A)

/-- The loop over the objects that have no section yet. -/
def packSections (packObject : Nat → Option A → PackM A Unit) : Nat → Nat → PackM A Unit
  | 0, _ => throw .fuel
  | fuel + 1, processing => do
    let s ← get
    if s.idToObj.length > processing then
      match Table.find Prod.fst processing s.idToObj with
      | none => return ()
      | some p =>
        let classnameNum ← dbSaveObjectName host (stru p.2).last.name
        emit host (.object processing classnameNum)
        packLevels host packObject (stru p.2).levels
        emit host (.objectEnd processing)
        packSections packObject fuel (processing + 1)
    else return ()

def saveObject (obj : A) : PackM A Nat := do
  let s ← get
  match Table.find Prod.fst obj s.objToId with
  | some p => return p.2
  | none =>
    let idx := s.objToId.length
    set { s with
      objToId := s.objToId ++ [(obj, idx)]
      idToObj := s.idToObj ++ [(idx, obj)] }
    return idx

/-- `packObject_impl` around `_packObject_impl`: a nested call only registers. -/
def packObjectImpl : Nat → Nat → Option A → PackM A Unit
  | 0, _, _ => throw .fuel
  | fuel + 1, key, obj =>
    match toMMObject stru obj with
    | none => return ()
    | some obj => do
      modify fun s => { s with level := s.level + 1 }
      let s ← get
      let processing := s.objToId.length
      let num ← saveObject obj
      emit host (.objectRef key num)
      if s.level > 1 then
        modify fun s => { s with level := s.level - 1 }
      else
        packSections host stru (packObjectImpl fuel) fuel processing
        modify fun s => { s with level := s.level - 1 }

def packTop (fuel : Nat) (calls : List (PackCall A)) : PackM A Unit :=
  packCalls host (packObjectImpl host stru fuel) calls

def initMMPacker : Except Stop (MMPacker A) := do
  let p ← emit host (.version packerVersionV1)
    { level := 0, objToId := [], idToObj := [], classNameToId := [], dyb := dybCreate 64 }
  return p.2

end Model

end LcClibs.Pack.Packer
