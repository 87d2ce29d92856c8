import Mathlib
import LcClibs.Platform

namespace LcClibs.Mmo.Object

open Platform

section Classes

inductive Class
  | mmInt
  | mmLong
  | mmString
  | mmData
  | mmMap
  | mmList
  deriving DecidableEq, Repr

def Class.name : Class → List UInt8
  | mmInt => cstr "MMInt"
  | mmLong => cstr "MMLong"
  | mmString => cstr "MMString"
  | mmData => cstr "MMData"
  | mmMap => cstr "MMMap"
  | mmList => cstr "MMList"

/-- `stru_name_to_oid`, on the characters before the NUL. A plain `char` is taken as
unsigned, which matters for bytes from `0x80` on alone. -/
def struNameToOid (name : List UInt8) : UInt32 :=
  let hash := name.foldl (fun (hash : UInt32) (c : UInt8) =>
    let hash := hash + c.toUInt32
    let hash := hash + (hash <<< 10)
    hash ^^^ (hash >>> 6)) 0
  let hash := hash + (hash <<< 3)
  let hash := hash ^^^ (hash >>> 11)
  hash + (hash <<< 15)

def Class.oid (c : Class) : UInt32 := struNameToOid c.name

/-- The class that `toMMObject` looks for in a chain, no two classes of which share an id. -/
def namesMMObject (name : List UInt8) : Bool :=
  struNameToOid name == struNameToOid (cstr "MMObject")

/-- The six names are told apart by their hashes. -/
theorem Class.oid_injective : Function.Injective Class.oid := by
  intro c d h
  cases c <;> cases d <;> first | rfl | exact absurd h (by decide)

theorem Class.name_injective : Function.Injective Class.name := by
  intro c d h
  apply Class.oid_injective
  rw [Class.oid, h, Class.oid]

theorem Class.zero_not_mem_name (c : Class) : 0 ∉ c.name := by
  cases c <;> decide

end Classes

section Objects

abbrev Addr := Nat

/-- A block of memory that an object owns: where it is and what is in it. -/
structure Blob where
  ptr : Nat
  bytes : List UInt8
  deriving DecidableEq, Repr

structure MapItem where
  hashKey : List UInt8
  key : Addr
  value : Addr
  deriving DecidableEq, Repr

/-- The fields of an object. A string is given without its closing NUL, and the
size of a data object is the length of its bytes. -/
inductive Node
  | mmInt (value : Int)
  | mmLong (value : Int)
  | mmString (value : Option Blob)
  | mmData (data : Option Blob)
  | mmMap (sorted : Bool) (items : List MapItem)
  | mmList (items : List (Option Addr))
  deriving DecidableEq, Repr

def Node.cls : Node → Class
  | mmInt _ => .mmInt
  | mmLong _ => .mmLong
  | mmString _ => .mmString
  | mmData _ => .mmData
  | mmMap _ _ => .mmMap
  | mmList _ => .mmList

abbrev Heap := List Node

/-- The pointers an object holds, in order. -/
def Node.children : Node → List (Option Addr)
  | mmInt _ | mmLong _ | mmString _ | mmData _ => []
  | mmMap _ items => items.flatMap fun i => [some i.key, some i.value]
  | mmList items => items

theorem key_mem_children {sorted : Bool} {items : List MapItem} {i : MapItem} (h : i ∈ items) :
    some i.key ∈ (Node.mmMap sorted items).children :=
  List.mem_flatMap.mpr ⟨i, h, List.mem_cons_self⟩

theorem value_mem_children {sorted : Bool} {items : List MapItem} {i : MapItem} (h : i ∈ items) :
    some i.value ∈ (Node.mmMap sorted items).children :=
  List.mem_flatMap.mpr ⟨i, h, List.mem_cons_of_mem _ List.mem_cons_self⟩

end Objects

end LcClibs.Mmo.Object
