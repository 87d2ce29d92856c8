import Mathlib
import LcClibs.Mmo.Containers

namespace LcClibs.Slots.Macros

open Platform Memory.Managed

section Model

/-- The functions for the elements, some of which may be missing. They may do anything else
besides: count references, take memory, end the program. -/
structure UtIcd (m : Type → Type) (α : Type) where
  init : Option (m α)
  copy : Option (α → m α)
  dtor : Option (α → m Unit)
  /-- The element whose bytes are all zero. -/
  zero : α

/-- The memory behind `d` comes as its slots, empty ones before anything is written there. -/
structure UtArray (α : Type) where
  i : Nat
  n : Nat
  d : List (Option α)
  deriving DecidableEq, Repr

variable {m : Type → Type} [Monad m] [MonadExceptOf Stop m] {α : Type}

def utarrayInit : UtArray α := ⟨0, 0, []⟩

def readSlot (d : List (Option α)) (j : Nat) : m α :=
  match d[j]? with
  | some (some x) => pure x
  | _ => throw (Stop.fault (.readOutside j))

def writeSlot (d : List (Option α)) (j : Nat) (x : α) : m (List (Option α)) :=
  if j < d.length then pure (d.set j (some x)) else throw (Stop.fault (.writeOutside j))

def moveSlots (d : List (Option α)) (dst src count : Nat) : m (List (Option α)) :=
  if dst + count ≤ d.length ∧ src + count ≤ d.length then
    pure (d.take dst ++ (d.drop src).take count ++ d.drop (dst + count))
  else throw (Stop.fault (.writeOutside (dst + count)))

variable (icd : UtIcd m α) (realloc : Nat → m Unit)

def initElement : m α := icd.init.getD (pure icd.zero)
def copyElement (x : α) : m α := (icd.copy.getD pure) x

def destroySlots (dtor : α → m Unit) (d : List (Option α)) : Nat → Nat → m Unit
  | _, 0 => return ()
  | j, count + 1 => do
    dtor (← readSlot d j)
    destroySlots dtor d (j + 1) count

/-- Without a destructor there is no loop. -/
def destroy (d : List (Option α)) (j count : Nat) : m Unit :=
  match icd.dtor with
  | some dtor => destroySlots dtor d j count
  | none => return ()

def utarrayDone (a : UtArray α) : m (UtArray α) := do
  if a.n ≠ 0 then
    destroy icd a.d 0 a.i
    return { a with n := 0, d := [] }
  else return { a with n := 0 }

/-- A `realloc` that fails ends the program. -/
def utarrayReserve (a : UtArray α) (count : Nat) : m (UtArray α) :=
  if uint (a.i + count) > a.n then do
    let n ← MonadExcept.ofExcept (Mmo.Containers.reserveLoop 64 (uint (a.i + count)) a.n)
    realloc n
    return { a with n := n, d := a.d.take n ++ List.replicate (n - a.d.length) none }
  else return a

def utarrayPushBack (p : α) (a : UtArray α) : m (UtArray α) := do
  let a ← utarrayReserve realloc a 1
  let d ← writeSlot a.d a.i (← copyElement icd p)
  return { a with d := d, i := uint (a.i + 1) }

def utarrayPopBack (a : UtArray α) : m (UtArray α) := do
  let i := uintSub a.i 1
  destroy icd a.d i 1
  return { a with i := i }

def utarrayExtendBack (a : UtArray α) : m (UtArray α) := do
  let a ← utarrayReserve realloc a 1
  let d ← writeSlot a.d a.i (← initElement icd)
  return { a with d := d, i := uint (a.i + 1) }

def utarrayLen (a : UtArray α) : Nat := a.i

/-- A pointer to an element, as the number of its slot. -/
def utarrayEltptr (a : UtArray α) (j : Nat) : Option Nat := if j < a.i then some j else none

def utarrayBack (a : UtArray α) : Option Nat := if a.i ≠ 0 then some (a.i - 1) else none

def deref (a : UtArray α) : Option Nat → m α
  | some j => readSlot a.d j
  | none => throw (Stop.fault .nullDeref)

def initSlots : List (Option α) → Nat → Nat → m (List (Option α))
  | d, _, 0 => return d
  | d, j, count + 1 => do
    let d ← writeSlot d j (← initElement icd)
    initSlots d (j + 1) count

def utarrayResize (dst : UtArray α) (num : Nat) : m (UtArray α) := do
  if dst.i > num then
    destroy icd dst.d num (dst.i - num)
    return { dst with i := num }
  else if dst.i < num then
    let dst ← utarrayReserve realloc dst (num - dst.i)
    let d ← initSlots icd dst.d dst.i (num - dst.i)
    return { dst with d := d, i := num }
  else return { dst with i := num }

/-- Room is made in front of an element, if there is one. -/
def makeRoom (a : UtArray α) (j count : Nat) : m (UtArray α) := do
  if j < a.i then return { a with d := ← moveSlots a.d (j + count) j (a.i - j) } else return a

def utarrayInsert (p : α) (j : Nat) (a : UtArray α) : m (UtArray α) := do
  let a ← (if j > a.i then utarrayResize icd realloc a j else pure a)
  let a ← utarrayReserve realloc a 1
  let a ← makeRoom a j 1
  let d ← writeSlot a.d j (← copyElement icd p)
  return { a with d := d, i := uint (a.i + 1) }

/-- The other array of an insertion, which may be the array itself. -/
def other (w : Option (UtArray α)) (a : UtArray α) : UtArray α := w.getD a

/-- Copies of the elements of `w` from one on, to the slots from `j` on. Every round reads
`w` as it is then. -/
def copySlots (w : Option (UtArray α)) (j : Nat) : UtArray α → Nat → Nat → m (UtArray α)
  | a, _, 0 => return a
  | a, k, count + 1 => do
    let y ← copyElement icd (← readSlot (other w a).d k)
    let d ← writeSlot a.d (j + k) y
    copySlots w j { a with d := d } (k + 1) count

def utarrayInserta (w : Option (UtArray α)) (j : Nat) (a : UtArray α) : m (UtArray α) := do
  if utarrayLen (other w a) = 0 then return a
  else
    let a ← (if j > a.i then utarrayResize icd realloc a j else pure a)
    let a ← utarrayReserve realloc a (utarrayLen (other w a))
    let a ← makeRoom a j (utarrayLen (other w a))
    let a ← copySlots icd w j a 0 (utarrayLen (other w a))
    return { a with i := uint (a.i + utarrayLen (other w a)) }

def utarrayConcat (src : Option (UtArray α)) (dst : UtArray α) : m (UtArray α) :=
  utarrayInserta icd realloc src (utarrayLen dst) dst

def destroyElements (dtor : α → m Unit) (a : UtArray α) : Nat → Nat → m Unit
  | _, 0 => return ()
  | j, count + 1 => do
    dtor (← deref a (utarrayEltptr a j))
    destroyElements dtor a (j + 1) count

def eraseElements (a : UtArray α) (pos len : Nat) : m Unit :=
  match icd.dtor with
  | some dtor => destroyElements dtor a pos len
  | none => return ()

def utarrayErase (pos len : Nat) (a : UtArray α) : m (UtArray α) := do
  eraseElements icd a pos len
  let a ← (if a.i > uint (pos + len) then
      return { a with d := ← moveSlots a.d pos (pos + len) (a.i - (pos + len)) }
    else pure a)
  return { a with i := uintSub a.i len }

def utarrayClear (a : UtArray α) : m (UtArray α) := do
  if a.i > 0 then
    destroy icd a.d 0 a.i
    return { a with i := 0 }
  else return a

end Model

end LcClibs.Slots.Macros
