import Mathlib
import LcClibs.Lib.LastAdd
import LcClibs.Mmo.Accounts

namespace LcClibs.Mmo.Handles

open Platform Lib.BigEndian Lib.Runs Lib.LastAdd Memory.Managed Mmo.Containers

section Model

/-- The store with the hash handles of the map items. By the serial number of an item,
`hhKey` is the object whose memory `item->hh.key` points into. -/
structure HashStore where
  store : Store
  hhKey : Nat → Nat

def hhKeyOf (item : Nat) (s : HashStore) : Except Stop Nat :=
  match s.store.pool.find item with
  | some x => .ok (s.hhKey x.serial)
  | none => .error (.useAfterFree item)

def hhBytes (item : Nat) (s : HashStore) : Except Stop (Option (List UInt8)) := do
  let key ← hhKeyOf item s
  let object ← deref key s.store
  return object.hash

/-- `HASH_FIND`, which compares the bytes behind the handles with those of a key. -/
def hashFind (h : List UInt8) (s : HashStore) : List Nat → Except Stop (Option Nat)
  | [] => .ok none
  | item :: items => do
    let bytes ← hhBytes item s
    if bytes = some h then return some item else hashFind h s items

variable (malloc : Malloc) (sizeOf : Object → Nat) (compareMmobjs : Store → Nat → Nat → Int)

/-- `HASH_ADD_KEYPTR`, in order in a sorted map. The handle gets the pointer into the key. -/
def hashAddKeyptr (map item key : Nat) (s : HashStore) : Except Stop HashStore := do
  let store ← addToTable compareMmobjs map item s.store
  match store.pool.find item with
  | some x => return ⟨store, Function.update s.hhKey x.serial key⟩
  | none => throw (.useAfterFree item)

def addMMMapItem (map key value : Nat) (s : HashStore) : Except Stop HashStore :=
  if key = 0 ∨ value = 0 then .ok s
  else do
    let h ← hashOfMmobj key s.store
    let (sorted, items) ← toMMMap map s.store
    match ← hashFind h s items with
    | some item =>
      let store ← assign map (.mmMap sorted (items.erase item)) s.store
      let store ← replaceMMMapItemKeyValue item key value store
      hashAddKeyptr compareMmobjs map item key { s with store := store }
    | none =>
      let (item, store) ← allocMMMapItemWithKeyValue malloc sizeOf key value s.store
      hashAddKeyptr compareMmobjs map item key { s with store := store }

def removeMMMapItem (map key : Nat) (s : HashStore) : Except Stop HashStore :=
  if key = 0 then .ok s
  else do
    let h ← hashOfMmobj key s.store
    let (sorted, items) ← toMMMap map s.store
    match ← hashFind h s items with
    | some item =>
      let store ← assign map (.mmMap sorted (items.erase item)) s.store
      let store ← releaseMmobj item store
      return { s with store := store }
    | none => return s

def getMMMapItemValue (map key : Nat) (s : HashStore) : Except Stop Nat :=
  if key = 0 then .ok 0
  else do
    let h ← hashOfMmobj key s.store
    let (_, items) ← toMMMap map s.store
    match ← hashFind h s items with
    | some item =>
      let (_, value) ← toMMMapItem item s.store
      return value
    | none => return 0

def sizeOfMMMap (map : Nat) (s : HashStore) : Except Stop Nat := do
  let (_, items) ← toMMMap map s.store
  return uint items.length

def iterMMMap (map : Nat) (s : HashStore) : Except Stop (List (Nat × Nat)) := do
  let (_, items) ← toMMMap map s.store
  items.mapM fun item => toMMMapItem item s.store

def runHashed : Op → HashStore → Except Stop (Nat × HashStore)
  | .add map key value, s =>
    (addMMMapItem malloc sizeOf compareMmobjs map key value s).map fun s => (0, s)
  | .remove map key, s => (removeMMMapItem map key s).map fun s => (0, s)
  | op, s => (op.run malloc sizeOf compareMmobjs s.store).map fun p =>
    (p.1, { s with store := p.2 })

end Model

section Runs

/-- The calls that have been made on each map, by its serial number. A call is told with
the key object, which is the value of the key, and with the address of the value. -/
abbrev Calls := Nat → List (Call Object Nat)

def note (s : Store) (map key : Nat) (call : Object → Call Object Nat) (calls : Calls) : Calls :=
  match s.pool.find map, s.objectAt key with
  | some x, some object => Function.update calls x.serial (calls x.serial ++ [call object])
  | _, _ => calls

def noteOp (op : Op) (s : Store) (calls : Calls) : Calls :=
  match op with
  | .add map key value =>
    if key = 0 ∨ value = 0 then calls else note s map key (fun object => .add object value) calls
  | .remove map key => note s map key .remove calls
  | _ => calls

structure Tracked where
  hashed : HashStore
  owners : Owners
  calls : Calls

def Tracked.state (t : Tracked) : State := ⟨t.hashed.store, t.owners⟩

variable (malloc : Malloc) (sizeOf : Object → Nat) (compareMmobjs : Store → Nat → Nat → Int)

def trackedStep (op : Op) (t : Tracked) : Except Stop Tracked := do
  let (answer, s) ← runHashed malloc sizeOf compareMmobjs op t.hashed
  return ⟨s, op.owners answer t.owners, noteOp op t.hashed.store t.calls⟩

def runTracked : List Op → Tracked → Except Stop Tracked
  | [], t => .ok t
  | op :: ops, t => do
    let t ← trackedStep malloc sizeOf compareMmobjs op t
    runTracked ops t

def trackedStart : Tracked := ⟨⟨start.store, fun _ => 0⟩, start.owners, fun _ => []⟩

/-- Every operation of a run is made in a state that suits it. -/
def AlongTracked (P : Op → State → Prop) : List Op → Tracked → Prop
  | [], _ => True
  | op :: ops, t => P op t.state ∧
    ∀ t', trackedStep malloc sizeOf compareMmobjs op t = .ok t' → AlongTracked P ops t'

instance decidableAlongTracked {P : Op → State → Prop} [∀ op st, Decidable (P op st)] :
    (ops : List Op) → (t : Tracked) →
      Decidable (AlongTracked malloc sizeOf compareMmobjs P ops t)
  | [], _ => isTrue trivial
  | op :: ops, t =>
    match h : trackedStep malloc sizeOf compareMmobjs op t with
    | .ok t' =>
      haveI := decidableAlongTracked (P := P) ops t'
      decidable_of_iff (P op t.state ∧ AlongTracked malloc sizeOf compareMmobjs P ops t')
        (by simp [AlongTracked, h])
    | .error _ => decidable_of_iff (P op t.state) (by simp [AlongTracked, h])

end Runs

section Keys

inductive KeyClass
  | mmInt
  | mmLong
  | mmString
  deriving DecidableEq, Repr

/-- A key of a class, with a value that the class can have: an `int32`, an `int64`, or
characters without the null that ends them, of which an `unsigned` gives the number. -/
def isKey : KeyClass → Object → Bool
  | .mmInt, .mmInt value => -2 ^ 31 ≤ value && value < 2 ^ 31
  | .mmLong, .mmLong value => -2 ^ 63 ≤ value && value < 2 ^ 63
  | .mmString, .mmString (some cs) => 0 ∉ cs && cs.length < 2 ^ 32
  | _, _ => false

def keyFor (c : KeyClass) (s : Store) (key : Nat) : Bool := (s.objectAt key).any (isKey c)

def unsortedItems : Object → Option (List Nat)
  | .mmMap false items => some items
  | _ => none

/-- An unsorted map is called with keys of its class, and gets fewer than `2 ^ 32` items. -/
def Keyed (classOf : Nat → KeyClass) (op : Op) (st : State) : Prop :=
  match op with
  | .add map key value => key ≠ 0 → value ≠ 0 →
    ∀ x ∈ st.store.pool.records, x.m = map →
      ∀ items ∈ unsortedItems (st.store.objects x.serial),
        keyFor (classOf x.serial) st.store key = true ∧
        ∀ bytes ∈ (st.store.objectAt key).bind Object.hash,
          st.store.findItem items bytes = none → items.length + 1 < 2 ^ 32
  | .remove map key => key ≠ 0 → ∀ x ∈ st.store.pool.records, x.m = map →
      (unsortedItems (st.store.objects x.serial)).isSome →
        keyFor (classOf x.serial) st.store key = true
  | _ => True

instance (classOf : Nat → KeyClass) (op : Op) (st : State) : Decidable (Keyed classOf op st) :=
  match op with
  | .add _ key value => inferInstanceAs (Decidable (key ≠ 0 → value ≠ 0 → ∀ x ∈ _, _))
  | .remove _ key => inferInstanceAs (Decidable (key ≠ 0 → ∀ x ∈ _, _))
  | .alloc _ | .retain _ | .release _ | .autorelease _ | .push _ _ | .pop _ | .insert _ _ _
  | .concat _ _ | .strongReference _ | .releaseUnused => inferInstanceAs (Decidable True)

theorem isKey_cases {c : KeyClass} {object : Object} (h : isKey c object = true) :
    (∃ v, c = .mmInt ∧ object = .mmInt v ∧ -2 ^ 31 ≤ v ∧ v < 2 ^ 31) ∨
    (∃ v, c = .mmLong ∧ object = .mmLong v ∧ -2 ^ 63 ≤ v ∧ v < 2 ^ 63) ∨
    ∃ cs, c = .mmString ∧ object = .mmString (some cs) := by
  unfold isKey at h
  split at h
  · exact Or.inl ⟨_, rfl, rfl, by simpa using h⟩
  · exact Or.inr (Or.inl ⟨_, rfl, rfl, by simpa using h⟩)
  · exact Or.inr (Or.inr ⟨_, rfl, rfl⟩)
  · cases h

theorem isKey_hash {c : KeyClass} {object : Object} (h : isKey c object = true) :
    ∃ bytes, object.hash = some bytes := by
  obtain ⟨v, -, rfl, -⟩ | ⟨v, -, rfl, -⟩ | ⟨cs, -, rfl⟩ := isKey_cases h <;> exact ⟨_, rfl⟩

theorem toBytes_inj {n v w : Nat} (hv : v < 256 ^ n) (hw : w < 256 ^ n)
    (h : toBytes n v = toBytes n w) : v = w := by
  rw [← ofBytes_toBytes_of_lt hv, h, ofBytes_toBytes_of_lt hw]

theorem eq_of_hash {c : KeyClass} {object object' : Object} (h : isKey c object = true)
    (h' : isKey c object' = true) (hash : object.hash = object'.hash) : object = object' := by
  obtain ⟨v, rfl, rfl, hv⟩ | ⟨v, rfl, rfl, hv⟩ | ⟨cs, rfl, rfl⟩ := isKey_cases h
  · obtain ⟨w, -, rfl, hw⟩ | ⟨w, hc, -⟩ | ⟨w, hc, -⟩ := isKey_cases h'
    · have hb := toBytes_inj (by omega) (by omega) (Option.some.inj hash)
      rw [show v = w by omega]
    · cases hc
    · cases hc
  · obtain ⟨w, hc, -⟩ | ⟨w, -, rfl, hw⟩ | ⟨w, hc, -⟩ := isKey_cases h'
    · cases hc
    · have hb := toBytes_inj (by omega) (by omega) (Option.some.inj hash)
      rw [show v = w by omega]
    · cases hc
  · obtain ⟨w, hc, -⟩ | ⟨w, hc, -⟩ | ⟨w, -, rfl⟩ := isKey_cases h'
    · cases hc
    · cases hc
    · exact congrArg Object.mmString hash

end Keys

end LcClibs.Mmo.Handles
