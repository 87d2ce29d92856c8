import Mathlib
import LcClibs.Lib.Table
import LcClibs.Mmo.Object
import LcClibs.Pack.Records

namespace LcClibs.Pack.Process

open Platform Lib Lib.BigEndian Buffer.Cursor Buffer.Next Buffer.Typdex Buffer.VarInt
open Mmo.Object Pack.Records

section State

/-- The objects that a parsed stream is kept in. Items of a map are kept under the
bytes that its keys hash; a map can be the context of a class. -/
inductive Gen
  | long (value : Int)
  | float (value : Nat)
  | double (value : Nat)
  | data (bytes : List UInt8)
  | int (value : Int)
  | string (value : List UInt8)
  | map (context : Bool) (items : List (List UInt8 × Addr))
  | list (items : List Addr)
  deriving DecidableEq, Repr

/-- What is known of an object number: its properties, or a reference to the object built from
them. -/
inductive Entry
  | props (map : Addr)
  | reference (object : Option Addr)
  deriving DecidableEq, Repr

/-- The stack is given from its last item on. A class name is an offset in the input. -/
structure MMUnpacker where
  stack : List Addr
  roots : Option Addr
  objects : List (Int × Entry)
  idToClassName : List (Int × Option Nat)
  dyb : Dybuf
  store : List Gen
  deriving DecidableEq

structure Parser extends MMUnpacker where
  currentObj : Option Addr
  currentObjNum : Nat

abbrev ProcM (α : Type) := StateT Parser (Except Fault) α

end State

section Stack

variable (host : Host)

def onDyb {α : Type} (x : DybM α) : ProcM α := fun p =>
  match x p.dyb with
  | .ok (a, d) => .ok (a, { p with dyb := d })
  | .error f => .error f

def alloc (value : Gen) : ProcM Addr := fun p =>
  .ok (p.store.length, { p with store := p.store ++ [value] })

/-- The bytes of an `int32` as they lie in memory. -/
def intKey (value : Int) : List UInt8 :=
  match host with
  | .big => toBytes 4 (value % 2 ^ 32).toNat
  | .little => (toBytes 4 (value % 2 ^ 32).toNat).reverse

def getLastItem : ProcM Addr := do
  match (← get).stack with
  | [] => throw .nullDeref
  | a :: _ => return a

def pushItem (a : Addr) : ProcM Unit := modify fun p => { p with stack := a :: p.stack }

def popItem : ProcM Unit := do
  match (← get).stack with
  | [] => throw .nullDeref
  | _ :: s => modify fun p => { p with stack := s }

/-- `while (getLastItemFromMMList(stack) != obj) popMMListItem(stack)`. -/
def popDownTo (obj : Addr) : List Addr → Except Fault (List Addr)
  | [] => .error .nullDeref
  | a :: s => if a = obj then .ok (a :: s) else popDownTo obj s

def popUntil (obj : Addr) : ProcM Unit := fun p =>
  match popDownTo obj p.stack with
  | .ok s => .ok ((), { p with stack := s })
  | .error f => .error f

def setObject (a : Addr) (value : Gen) : ProcM Unit :=
  modify fun p => { p with store := p.store.set a value }

def pushIntoStack (index : Nat) (value : Addr) : ProcM Unit := do
  let context ← getLastItem
  match (← get).store[context]? with
  | some (.map c items) =>
    setObject context (.map c (Table.put Prod.fst (intKey host (int32 index), value) items))
  | some (.list items) => setObject context (.list (items ++ [value]))
  | some _ => return ()
  | none => throw .nullDeref

/-- The key is a C string, read when a key object is made of it. -/
def pushKeyVal (key : ProcM (List UInt8)) (value : Addr) : ProcM Unit := do
  let context ← getLastItem
  match (← get).store[context]? with
  | some (.map c items) =>
    let k ← key
    setObject context (.map c (Table.put Prod.fst (k, value) items))
  | some _ => return ()
  | none => throw .nullDeref

end Stack

section Records

variable (host : Host)

def className : List UInt8 := cstr "__cls.name__"

/-- The test of the last byte, then the copy. -/
def takeData (data : Option Nat) (size : Nat) : DybM (List UInt8) := do
  let b ← get
  if size = 0 then return []
  else
    match data with
    | none => throw .nullDeref
    | some off =>
      if off + size ≤ b.data.length then return (b.data.drop off).take size
      else throw (.readOutside (off + size - 1))

def processValue (index : Nat) (value : Gen) : ProcM (Option Bool) := do
  let a ← alloc value
  pushIntoStack host index a
  return none

def processRaw (index : Nat) : ProcM (Option Bool) := do
  let (data, size) ← onDyb dybNextDataWithVarLen
  let bytes ← onDyb (takeData data size)
  processValue host index (.data bytes)

def processArray (index : Nat) : ProcM (Option Bool) := do
  let size ← onDyb dybNextVarU64
  if size > 0 then
    let list ← alloc (.list [])
    pushIntoStack host index list
    pushItem list
    return none
  else
    popItem
    return none

/-- The first object record begins a section and the second one ends it. -/
def processObject (index : Nat) : ProcM (Option Bool) := do
  match (← get).currentObj with
  | none =>
    let obj ← alloc (.map false [])
    modify fun p => { p with currentObj := some obj, currentObjNum := index }
    let num ← onDyb dybNextVarU64
    match Table.find Prod.fst (int32 num) (← get).idToClassName with
    | none => return some false
    | some entry =>
      pushItem obj
      modify fun p => { p with
        objects := Table.put Prod.fst (int32 index, Entry.props obj) p.objects }
      let name ← onDyb (cstringAt entry.2)
      let string ← alloc (.string name)
      pushKeyVal (pure className) string
      return none
  | some obj =>
    if (← get).currentObjNum ≠ index then return some false
    else
      popUntil obj
      modify fun p => { p with currentObj := none, currentObjNum := 0xFFFFFFFF }
      popItem
      return none

def processContext (index : Nat) : ProcM (Option Bool) := do
  match (← get).currentObj with
  | none => return some false
  | some obj =>
    match Table.find Prod.fst (int32 index) (← get).idToClassName with
    | none => return some false
    | some entry =>
      popUntil obj
      let context ← alloc (.map true [])
      pushKeyVal (onDyb (cstringAt entry.2)) context
      pushItem context
      return none

def processDb (index : Nat) : ProcM (Option Bool) := do
  if index = pkrdbClassNames then
    let num ← onDyb dybNextVarU64
    match Table.find Prod.fst (int32 num) (← get).idToClassName with
    | some _ => return some false
    | none =>
      let (name, _) ← onDyb dybNextCstringWithVarLen
      modify fun p => { p with idToClassName := p.idToClassName ++ [(int32 num, name)] }
      return none
  else return some false

/-- A version other than the first is only reported. -/
def processFunction (index : Nat) : ProcM (Option Bool) := do
  if index = pkrfnVersion then
    let _ ← onDyb dybNextVarU64
    return none
  else return some false

def processRecord (type index : Nat) : ProcM (Option Bool) := do
  if type = pkrdexInteger then
    let value ← onDyb dybNextVarS64
    processValue host index (.long value)
  else if type = pkrdexFloat then
    let value ← onDyb (dybNextFloat host)
    processValue host index (.float value)
  else if type = pkrdexDouble then
    let value ← onDyb (dybNextDouble host)
    processValue host index (.double value)
  else if type = pkrdexRaw then processRaw host index
  else if type = pkrdexArray then processArray host index
  else if type = pkrdexObjectRef then
    let num ← onDyb dybNextVarU64
    processValue host index (.int (int32 num))
  else if type = pkrdexObject then processObject index
  else if type = pkrdexContext then processContext index
  else if type = pkrdexDb then processDb index
  else if type = pkrdexFunction then processFunction index
  else return some false

/-- One round of the loop; none where it goes on. -/
def processRound : ProcM (Option Bool) := do
  if dybGetRemainder (← get).dyb = 0 then return some true
  else
    let (type, index) ← onDyb dybNextTypdex
    processRecord host type index

def afterRound (loop : Parser → Except Stop (Bool × Parser)) :
    Except Fault (Option Bool × Parser) → Except Stop (Bool × Parser)
  | .error f => .error (.fault f)
  | .ok (some answer, p) => .ok (answer, p)
  | .ok (none, p) => loop p

def processLoop : Nat → Parser → Except Stop (Bool × Parser)
  | 0, _ => .error .fuel
  | fuel + 1, p => afterRound (processLoop fuel) (processRound host p)

/-- `process` begins with a new roots map on the stack. -/
def processStart (u : MMUnpacker) : Parser :=
  { stack := [u.store.length], roots := some u.store.length, objects := [],
    idToClassName := u.idToClassName, dyb := u.dyb, store := u.store ++ [.map false []],
    currentObj := none, currentObjNum := 0xFFFFFFFF }

def process (fuel : Nat) (u : MMUnpacker) : Except Stop (Bool × MMUnpacker) := do
  let r ← processLoop host fuel (processStart u)
  return (r.1, r.2.toMMUnpacker)

def allocMMUnpacker (dyb : Dybuf) : MMUnpacker :=
  { stack := [], roots := none, objects := [], idToClassName := [], dyb := dyb, store := [] }

def allocMMUnpackerWithData (data : Option (List UInt8)) (len : Nat) : Option MMUnpacker :=
  (dybRefer data len false).map allocMMUnpacker

end Records

end LcClibs.Pack.Process
