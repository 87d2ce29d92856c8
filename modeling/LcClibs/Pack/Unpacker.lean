import Mathlib
import LcClibs.Pack.Process

namespace LcClibs.Pack.Unpacker

open Platform Lib Buffer.VarInt Mmo.Object Pack.Records Pack.Process

section Objects

/-- An init function: the calls it makes on its unpacker, what it does to the memory of
the objects, and whether it returns its object or null. -/
inductive Init (H : Type)
  | done (ok : Bool)
  | varInt64 (key : Nat) (next : Int → Init H)
  | float (key : Nat) (next : Nat → Init H)
  | double (key : Nat) (next : Nat → Init H)
  | data (key : Nat) (next : Option (List UInt8) → Init H)
  | object (key : Nat) (next : Option Addr → Init H)
  | array (key : Nat) (next : Nat → Init H)
  | arrayEnd (key : Nat) (next : Init H)
  | read (next : H → Init H)
  | write (change : H → H) (next : Init H)

/-- `unpack##stru_name`: the allocation of the object, and the classes of the chain it is
built from, super classes first, with the init functions of those that have one. -/
structure Alloc (H : Type) where
  blank : H → Addr × H
  levels : List (List UInt8 × Option (Addr → Init H))

/-- `isMMObject` of an object of the class. -/
def Alloc.isMMObject {H : Type} (cls : Alloc H) : Bool := cls.levels.any fun l => namesMMObject l.1

/-- `toMMObject` of the level whose init begins, behind levels of these names. The search goes
down to the root and from there to the last level, which has no class before its own init. -/
def toMMObject (made : List (List UInt8)) (last : Bool) (stru : Addr) : Except Stop (Option Addr) :=
  if made.any namesMMObject then .ok (some stru)
  else if last then .ok none
  else .error (.fault .nullDeref)

/-- The unpacker as its functions see it, with the memory of the objects. -/
structure Unpacking (H : Type) extends MMUnpacker where
  lastObjectNum : Option Int
  heap : H

abbrev UnpackM (H α : Type) := StateT (Unpacking H) (Except Stop) α

end Objects

section Stack

variable {H : Type} (host : Host) (rounds : Nat)

/-- Every function parses the stream first where that was not done; the rounds this may
take are bounded. -/
def parse : UnpackM H Unit := fun s =>
  match s.roots with
  | some _ => .ok ((), s)
  | none =>
    match process host rounds s.toMMUnpacker with
    | .ok (_, u) => .ok ((), { s with toMMUnpacker := u })
    | .error e => .error e

def lastItem : UnpackM H Addr := do
  match (← get).stack with
  | [] => throw (.fault .nullDeref)
  | a :: _ => return a

def genAt (a : Addr) : UnpackM H Gen := do
  match (← get).store[a]? with
  | none => throw (.fault .nullDeref)
  | some g => return g

def pushItem (a : Addr) : UnpackM H Unit := modify fun s => { s with stack := a :: s.stack }

def popItem : UnpackM H Unit := do
  match (← get).stack with
  | [] => throw (.fault .nullDeref)
  | _ :: stack => modify fun s => { s with stack := stack }

def getByIntFromStack (key : Nat) : UnpackM H (Option Addr) := do
  let obj ← lastItem
  match ← genAt obj with
  | .map _ items => return (Table.find Prod.fst (intKey host (int32 key)) items).map Prod.snd
  | .list items =>
    match items[key]? with
    | none => throw (.fault .nullDeref)
    | some a => return some a
  | _ => return none

def getByStringFromStack (key : List UInt8) : UnpackM H (Option Addr) := do
  let obj ← lastItem
  match ← genAt obj with
  | .map _ items => return (Table.find Prod.fst key items).map Prod.snd
  | _ => return none

/-- `while (toTmpContext(getLastItemFromMMList(stack)) != null) popMMListItem(stack)`. -/
def popContexts (store : List Gen) : List Addr → Except Stop (List Addr)
  | [] => .error (.fault .nullDeref)
  | a :: stack =>
    match store[a]? with
    | none => .error (.fault .nullDeref)
    | some (.map true _) => popContexts store stack
    | some _ => .ok (a :: stack)

def popContextInStack : UnpackM H Unit := fun s =>
  match popContexts s.store s.stack with
  | .ok stack => .ok ((), { s with stack := stack })
  | .error e => .error e

end Stack

section Functions

variable {H : Type} (host : Host) (rounds : Nat)

def unpackVarInt64Impl (key : Nat) : UnpackM H Int := do
  parse host rounds
  match ← getByIntFromStack host key with
  | none => return 0
  | some obj =>
    match ← genAt obj with
    | .long value => return value
    | _ => return 0

def unpackFloatImpl (key : Nat) : UnpackM H Nat := do
  parse host rounds
  match ← getByIntFromStack host key with
  | none => return 0
  | some obj =>
    match ← genAt obj with
    | .float value => return value
    | _ => return 0

def unpackDoubleImpl (key : Nat) : UnpackM H Nat := do
  parse host rounds
  match ← getByIntFromStack host key with
  | none => return 0
  | some obj =>
    match ← genAt obj with
    | .double value => return value
    | _ => return 0

/-- The bytes at the pointer, which is null where there are none. -/
def unpackDataImpl (key : Nat) : UnpackM H (Option (List UInt8)) := do
  parse host rounds
  match ← getByIntFromStack host key with
  | none => return none
  | some obj =>
    match ← genAt obj with
    | .data bytes => return if bytes = [] then none else some bytes
    | _ => return none

def unpackArrayImpl (key : Nat) : UnpackM H Nat := do
  parse host rounds
  match ← getByIntFromStack host key with
  | none => return 0
  | some obj =>
    match ← genAt obj with
    | .list items =>
      pushItem obj
      return uint items.length
    | _ => return 0

def unpackArrayEndImpl : UnpackM H Unit := do
  parse host rounds
  popItem

/-- The reference to an object takes the place of its properties. -/
def putReference (num : Int) (obj : Except Stop (Option Addr)) : UnpackM H Unit := fun s =>
  match obj with
  | .ok object => .ok ((), { s with
      objects := Table.put Prod.fst (num, Entry.reference object) s.objects
      lastObjectNum := none })
  | .error e => .error e

/-- `unpackNextContext_impl` of the level of a given name, for which `toMMObject` finds `obj`. The
first context of an object puts the object in the place of its properties. -/
def unpackNextContextImpl (name : List UInt8) (obj : Except Stop (Option Addr)) :
    UnpackM H Unit := do
  parse host rounds
  match (← get).lastObjectNum with
  | some num => putReference num obj
  | none => popContextInStack
  match ← getByStringFromStack name with
  | none => return ()
  | some obj =>
    match ← genAt obj with
    | .map _ _ => pushItem obj
    | _ => return ()

/-- An init function run on the unpacker. -/
def runInit (unpackObject : Nat → UnpackM H (Option Addr)) : Init H → UnpackM H Bool
  | .done ok => return ok
  | .varInt64 key next => do
    runInit unpackObject (next (← unpackVarInt64Impl host rounds key))
  | .float key next => do
    runInit unpackObject (next (← unpackFloatImpl host rounds key))
  | .double key next => do
    runInit unpackObject (next (← unpackDoubleImpl host rounds key))
  | .data key next => do
    runInit unpackObject (next (← unpackDataImpl host rounds key))
  | .object key next => do
    runInit unpackObject (next (← unpackObject key))
  | .array key next => do
    runInit unpackObject (next (← unpackArrayImpl host rounds key))
  | .arrayEnd _ next => do
    unpackArrayEndImpl host rounds
    runInit unpackObject next
  | .read next => do
    runInit unpackObject (next (← get).heap)
  | .write change next => do
    modify fun s => { s with heap := change s.heap }
    runInit unpackObject next

/-- `init_##stru_name` of each class of the chain, behind those whose names are given. -/
def initLevels (unpackObject : Nat → UnpackM H (Option Addr)) (stru : Addr)
    (made : List (List UInt8)) :
    List (List UInt8 × Option (Addr → Init H)) → UnpackM H (Option Addr)
  | [] => return some stru
  | (name, none) :: levels => initLevels unpackObject stru (name :: made) levels
  | (name, some init) :: levels => do
    unpackNextContextImpl host rounds name (toMMObject (name :: made) levels.isEmpty stru)
    if ← runInit host rounds unpackObject (init stru) then
      initLevels unpackObject stru (name :: made) levels
    else
      return none

def unpackStru (unpackObject : Nat → UnpackM H (Option Addr)) (cls : Alloc H) :
    UnpackM H (Option Addr) := do
  let (stru, heap) := cls.blank (← get).heap
  modify fun s => { s with heap := heap }
  initLevels host rounds unpackObject stru [] cls.levels

inductive Found
  | null
  | reference (object : Option Addr)
  | props (num : Int) (map : Addr) (name : List UInt8)
  deriving DecidableEq, Repr

def findObject (key : Nat) : UnpackM H Found := do
  match ← getByIntFromStack host key with
  | none => return .null
  | some obj =>
    match ← genAt obj with
    | .int num =>
      match Table.find Prod.fst num (← get).objects with
      | some (_, .reference object) => return .reference object
      | some (_, .props map) =>
        match ← genAt map with
        | .map _ items =>
          match Table.find Prod.fst className items with
          | none => return .null
          | some item =>
            match ← genAt item.2 with
            | .string name => return .props num map name
            | _ => return .null
        | _ => throw (.fault .nullDeref)
      | none => throw (.fault .nullDeref)
    | _ => throw (.fault .nullDeref)

/-- The registered allocators, under the names of their classes; there is no map of them
before the first registration. -/
abbrev Allocators (H : Type) := List (List UInt8 × Alloc H)

/-- The last part of `unpackObject_impl`, after the allocation of an object of the class. -/
def leaveObject (cls : Alloc H) (ooo : Option Addr) : UnpackM H (Option Addr) := do
  match (← get).lastObjectNum with
  | some num =>
    match ooo with
    | some stru => putReference num (.ok (if cls.isMMObject then some stru else none))
    | none => modify fun s => { s with lastObjectNum := none }
  | none => popContextInStack
  popItem
  return ooo

def unpackObjectWith (allocators : Allocators H) (unpackObject : Nat → UnpackM H (Option Addr))
    (key : Nat) : UnpackM H (Option Addr) := do
  parse host rounds
  match ← findObject host key with
  | .null => return none
  | .reference object => return object
  | .props num map name =>
    pushItem map
    if allocators.isEmpty then throw (.fault .nullDeref)
    match Table.find Prod.fst name allocators with
    | none => return none
    | some (_, cls) =>
      modify fun s => { s with lastObjectNum := some num }
      let ooo ← unpackStru host rounds unpackObject cls
      leaveObject cls ooo

/-- The fuel bounds the nesting of objects. -/
def unpackObjectImpl (allocators : Allocators H) : Nat → Nat → UnpackM H (Option Addr)
  | 0, _ => throw .fuel
  | fuel + 1, key => unpackObjectWith host rounds allocators (unpackObjectImpl allocators fuel) key

def unpackingOf (u : MMUnpacker) (heap : H) : Unpacking H :=
  { toMMUnpacker := u, lastObjectNum := none, heap := heap }

end Functions

end LcClibs.Pack.Unpacker
