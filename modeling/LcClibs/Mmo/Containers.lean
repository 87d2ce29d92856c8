import Mathlib
import LcClibs.Lib.BigEndian
import LcClibs.Memory.Managed

namespace LcClibs.Mmo.Containers

open Platform Lib.BigEndian Memory.Managed

section Model

/-- What the block of an object holds. Another object is given by the address of its
block, 0 for null, and the array of a list comes with its number of slots. The blocks of
its functions and of its characters, which are freed with it, are left out. -/
inductive Object
  | mmObject
  | mmInt (value : Int)
  | mmLong (value : Int)
  | mmString (value : Option (List UInt8))
  | mmReference (reference : Nat) (strongReference : Bool)
  | mmMapItem (key value : Nat)
  | mmMap (sorted : Bool) (items : List Nat)
  | mmList (list : List Nat) (n : Nat)
  deriving DecidableEq, Repr

/-- The pool and what is in its blocks, by serial number. -/
structure Store where
  pool : Pool
  objects : Nat → Object

def notNull (mems : List Nat) : List Nat := mems.filter fun mem => mem ≠ 0

/-- The blocks that an object releases when it is destroyed. -/
def Object.slots : Object → List Nat
  | mmReference reference true => notNull [reference]
  | mmMapItem key value => notNull [key, value]
  | mmMap _ items => items
  | mmList list _ => notNull list
  | _ => []

def Store.owned (s : Store) (serial : Nat) : List Nat := (s.objects serial).slots

def Store.objectAt (s : Store) (mem : Nat) : Option Object :=
  (s.pool.find mem).map fun x => s.objects x.serial

def deref (mem : Nat) (s : Store) : Except Stop Object :=
  if mem = 0 then .error (.fault .nullDeref)
  else
    match s.objectAt mem with
    | some object => .ok object
    | none => .error (.useAfterFree mem)

def assign (mem : Nat) (object : Object) (s : Store) : Except Stop Store :=
  match s.pool.find mem with
  | some x => .ok { s with objects := Function.update s.objects x.serial object }
  | none => .error (.useAfterFree mem)

def retainMmobj (mem : Nat) (s : Store) : Except Stop Store :=
  if mem = 0 then .ok s
  else do
    let _ ← deref mem s
    return { s with pool := (mgnMemRetain s.pool mem).2 }

def releaseMmobj (mem : Nat) (s : Store) : Except Stop Store :=
  if mem = 0 then .ok s
  else do
    let _ ← deref mem s
    let pool ← mgnMemReleaseWCb s.owned s.pool mem
    return { s with pool := pool }

def autoreleaseMmobj (mem : Nat) (s : Store) : Except Stop Store :=
  if mem = 0 then .ok s
  else do
    let _ ← deref mem s
    let pool ← mgnMemAutoreleaseWCb s.owned s.pool mem
    return { s with pool := pool }

def releaseUnused (s : Store) : Except Stop Store := do
  let pool ← mgnMemReleaseUnused s.owned s.pool
  return { s with pool := pool }

/-- The table of a map. A cast to another class answers with null. -/
def toMMMap (mem : Nat) (s : Store) : Except Stop (Bool × List Nat) := do
  match ← deref mem s with
  | .mmMap sorted items => return (sorted, items)
  | _ => throw (.fault .nullDeref)

def toMMMapItem (mem : Nat) (s : Store) : Except Stop (Nat × Nat) := do
  match ← deref mem s with
  | .mmMapItem key value => return (key, value)
  | _ => throw (.fault .nullDeref)

def toMMList (mem : Nat) (s : Store) : Except Stop (List Nat × Nat) := do
  match ← deref mem s with
  | .mmList list n => return (list, n)
  | _ => throw (.fault .nullDeref)

/-- The doubling of the number of slots, an `unsigned`. -/
def reserveLoop : Nat → Nat → Nat → Except Stop Nat
  | 0, _, _ => .error .endless
  | fuel + 1, need, n =>
    if need > n then reserveLoop fuel need (if n ≠ 0 then uint (2 * n) else 8) else .ok n

/-- Sixty-four rounds that are not enough have come back to a number of slots that was
there before, and the loop never ends. A new element behind the slots is written
outside the array. -/
def utarrayReserve (i n count : Nat) : Except Stop Nat := do
  let n ← reserveLoop 64 (uint (i + count)) n
  if n < i + count then throw (.fault (.writeOutside n)) else return n

def utarrayResize (list : List Nat) (n num : Nat) : Except Stop (List Nat × Nat) := do
  let n ← utarrayReserve list.length n (num - list.length)
  return (list ++ List.replicate (num - list.length) 0, n)

def pushMMListItem (mem item : Nat) (s : Store) : Except Stop Store := do
  let (list, n) ← toMMList mem s
  let n ← utarrayReserve list.length n 1
  let s ← assign mem (.mmList (list ++ [item]) n) s
  retainMmobj item s

def popMMListItem (mem : Nat) (s : Store) : Except Stop (Nat × Store) := do
  let (list, n) ← toMMList mem s
  match list.getLast? with
  | none => throw (.fault .nullDeref)
  | some item =>
    let s ← retainMmobj item s
    let s ← assign mem (.mmList list.dropLast n) s
    let s ← releaseMmobj item s
    let s ← autoreleaseMmobj item s
    return (item, s)

/-- An index behind the end: the gap is filled with null entries first. -/
def fillGap (list : List Nat) (n idx : Nat) : Except Stop (List Nat × Nat) :=
  if idx > list.length then utarrayResize list n idx else .ok (list, n)

def insertMMListItem (mem item idx : Nat) (s : Store) : Except Stop Store := do
  let idx := uint idx
  let (list, n) ← toMMList mem s
  let (list, n) ← fillGap list n idx
  let n ← utarrayReserve list.length n 1
  let s ← assign mem (.mmList (list.insertIdx idx item) n) s
  retainMmobj item s

def concatMMList (mem aList : Nat) (s : Store) : Except Stop Store := do
  let (w, _) ← toMMList aList s
  let (list, n) ← toMMList mem s
  if w.length = 0 then return s
  else
    let n ← utarrayReserve list.length n w.length
    let s ← assign mem (.mmList (list ++ w) n) s
    w.foldlM (fun s item => retainMmobj item s) s

/-- The bytes that are hashed: those of the integer, or the characters. -/
def Object.hash : Object → Option (List UInt8)
  | mmInt value => some (toBytes 4 (value % 2 ^ 32).toNat)
  | mmLong value => some (toBytes 8 (value % 2 ^ 64).toNat)
  | mmString value => value
  | _ => none

/-- The bytes that the hash handle of an item points to, which are in its key. -/
def Store.itemHash (s : Store) (item : Nat) : Option (List UInt8) :=
  match s.objectAt item with
  | some (.mmMapItem key _) => (s.objectAt key).bind Object.hash
  | _ => none

/-- `hash_of_mmobj` of a key of one of the three classes, with its value set. -/
def hashOfMmobj (key : Nat) (s : Store) : Except Stop (List UInt8) := do
  match (← deref key s).hash with
  | some h => return h
  | none => throw (.fault .nullDeref)

def Store.findItem (s : Store) (items : List Nat) (h : List UInt8) : Option Nat :=
  items.find? fun item => s.itemHash item = some h

/-- `HASH_ADD_KEYPTR_INORDER`: in front of the first item that is larger. -/
def addInorder (compare : Nat → Nat → Int) (items : List Nat) (item : Nat) : List Nat :=
  items.takeWhile (fun x => compare x item ≤ 0) ++
    item :: items.dropWhile fun x => compare x item ≤ 0

variable (malloc : Malloc) (sizeOf : Object → Nat) (compareMmobjs : Store → Nat → Nat → Int)

/-- A new object. The root's init writes through the pointer that the pool answers
with, also when that is null. -/
def allocMmobj (object : Object) (s : Store) : Except Stop (Nat × Store) := do
  let (mem, pool) ← mgnMemAlloc malloc s.pool (sizeOf object)
  match mem with
  | some mem =>
    let s ← assign mem object { s with pool := pool }
    return (mem, s)
  | none => throw (.fault .nullDeref)

def allocMMReferenceWithStrongReference (object : Nat) (s : Store) : Except Stop (Nat × Store) := do
  let (mem, s) ← allocMmobj malloc sizeOf (.mmReference 0 false) s
  let s ← retainMmobj object s
  let s ← assign mem (.mmReference object true) s
  return (mem, s)

def allocMMMapItemWithKeyValue (key value : Nat) (s : Store) : Except Stop (Nat × Store) := do
  let (mem, s) ← allocMmobj malloc sizeOf (.mmMapItem 0 0) s
  let s ← retainMmobj key s
  let s ← retainMmobj value s
  let s ← assign mem (.mmMapItem key value) s
  return (mem, s)

def replaceMMMapItemKeyValue (item key value : Nat) (s : Store) : Except Stop Store := do
  let s ← retainMmobj key s
  let s ← retainMmobj value s
  let old ← toMMMapItem item s
  let s ← releaseMmobj old.1 s
  let old ← toMMMapItem item s
  let s ← releaseMmobj old.2 s
  assign item (.mmMapItem key value) s

def addToTable (map item : Nat) (s : Store) : Except Stop Store := do
  let (sorted, items) ← toMMMap map s
  if sorted then assign map (.mmMap sorted (addInorder (compareMmobjs s) items item)) s
  else assign map (.mmMap sorted (items ++ [item])) s

def addMMMapItem (map key value : Nat) (s : Store) : Except Stop Store :=
  if key = 0 ∨ value = 0 then .ok s
  else do
    let h ← hashOfMmobj key s
    let (sorted, items) ← toMMMap map s
    match s.findItem items h with
    | some item =>
      let s ← assign map (.mmMap sorted (items.erase item)) s
      let s ← replaceMMMapItemKeyValue item key value s
      addToTable compareMmobjs map item s
    | none =>
      let (item, s) ← allocMMMapItemWithKeyValue malloc sizeOf key value s
      addToTable compareMmobjs map item s

def removeMMMapItem (map key : Nat) (s : Store) : Except Stop Store :=
  if key = 0 then .ok s
  else do
    let h ← hashOfMmobj key s
    let (sorted, items) ← toMMMap map s
    match s.findItem items h with
    | some item =>
      let s ← assign map (.mmMap sorted (items.erase item)) s
      releaseMmobj item s
    | none => return s

end Model

section Runs

inductive Fresh
  | mmObject
  | mmInt (value : Int)
  | mmLong (value : Int)
  | mmString (value : Option (List UInt8))
  | mmMap
  | mmMapSorted
  | mmList
  deriving DecidableEq, Repr

def Fresh.object : Fresh → Object
  | mmObject => .mmObject
  | mmInt value => .mmInt value
  | mmLong value => .mmLong value
  | mmString value => .mmString value
  | mmMap => .mmMap false []
  | mmMapSorted => .mmMap true []
  | mmList => .mmList [] 0

inductive Op
  | alloc (fresh : Fresh)
  | retain (mem : Nat)
  | release (mem : Nat)
  | autorelease (mem : Nat)
  | push (list item : Nat)
  | pop (list : Nat)
  | insert (list item idx : Nat)
  | concat (list aList : Nat)
  | add (map key value : Nat)
  | remove (map key : Nat)
  | strongReference (object : Nat)
  | releaseUnused
  deriving DecidableEq, Repr

variable (malloc : Malloc) (sizeOf : Object → Nat) (compareMmobjs : Store → Nat → Nat → Int)

/-- The address of what is allocated or popped is reported too. -/
def Op.run : Op → Store → Except Stop (Nat × Store)
  | alloc fresh, s => allocMmobj malloc sizeOf fresh.object s
  | retain mem, s => (retainMmobj mem s).map fun s => (mem, s)
  | release mem, s => (releaseMmobj mem s).map fun s => (0, s)
  | autorelease mem, s => (autoreleaseMmobj mem s).map fun s => (mem, s)
  | push list item, s => (pushMMListItem list item s).map fun s => (0, s)
  | pop list, s => popMMListItem list s
  | insert list item idx, s => (insertMMListItem list item idx s).map fun s => (0, s)
  | concat list aList, s => (concatMMList list aList s).map fun s => (0, s)
  | add map key value, s =>
    (addMMMapItem malloc sizeOf compareMmobjs map key value s).map fun s => (0, s)
  | remove map key, s => (removeMMMapItem map key s).map fun s => (0, s)
  | strongReference object, s => allocMMReferenceWithStrongReference malloc sizeOf object s
  | .releaseUnused, s => (Containers.releaseUnused s).map fun s => (0, s)

abbrev Owners := Nat → Nat

def Owners.take (owners : Owners) (mem : Nat) : Owners := fun a =>
  if a = mem ∧ mem ≠ 0 then owners a + 1 else owners a

def Owners.give (owners : Owners) (mem : Nat) : Owners := fun a =>
  if a = mem ∧ mem ≠ 0 then owners a - 1 else owners a

/-- The ownerships after an operation that answers with an address. -/
def Op.owners (op : Op) (answer : Nat) (owners : Owners) : Owners :=
  match op with
  | alloc _ | strongReference _ => owners.take answer
  | retain mem => owners.take mem
  | release mem | autorelease mem => owners.give mem
  | _ => owners

structure State where
  store : Store
  owners : Owners

def Op.step (op : Op) (st : State) : Except Stop State := do
  let (answer, s) ← op.run malloc sizeOf compareMmobjs st.store
  return ⟨s, op.owners answer st.owners⟩

def runOps : List Op → State → Except Stop State
  | [], st => .ok st
  | op :: ops, st => do
    let st ← op.step malloc sizeOf compareMmobjs st
    runOps ops st

def start : State := ⟨⟨⟨[], 0, []⟩, fun _ => .mmObject⟩, fun _ => 0⟩

end Runs

end LcClibs.Mmo.Containers
