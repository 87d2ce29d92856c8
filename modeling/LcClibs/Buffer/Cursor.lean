import Mathlib
import LcClibs.Platform

namespace LcClibs.Buffer.Cursor

open Platform

def cacheSizeUnit : Nat := 16

/-- A buffer with the memory that `_data` points to. The flags that only
`dyb_release` reads are left out. -/
structure Dybuf where
  data : List UInt8
  capacity : Nat
  limit : Nat
  position : Nat
  mark : Nat
  fixedCapacity : Bool
  deriving DecidableEq, Repr

/-- The four-way inequality of the header, with the memory really owned. -/
structure Dybuf.Ok (b : Dybuf) : Prop where
  mark_le : b.mark ≤ b.position
  position_le : b.position ≤ b.limit
  limit_le : b.limit ≤ b.capacity
  length_eq : b.data.length = b.capacity
  capacity_lt : b.capacity < 2 ^ 32

abbrev DybM (α : Type) := StateT Dybuf (Except Fault) α

section Create

/-- The size `dyb_mem_alloc` allocates; the block itself is zeroed. -/
def dybMemAlloc (size : Nat) (dyn : Bool) : Nat :=
  if dyn then max cacheSizeUnit size else size

def dybRefer (data : Option (List UInt8)) (capacity : Nat) (forWrite : Bool) : Option Dybuf :=
  data.map fun d =>
    { data := d, capacity := capacity, limit := if forWrite then 0 else capacity,
      position := 0, mark := 0, fixedCapacity := true }

def dybCreate (capacity : Nat) : Dybuf :=
  let capacity := dybMemAlloc capacity true
  { data := List.replicate capacity 0, capacity := capacity, limit := 0,
    position := 0, mark := 0, fixedCapacity := false }

def dybCopy (data : Option (List UInt8)) (capacity : Nat) (noCopy : Bool) : Dybuf :=
  match data with
  | none => dybCreate capacity
  | some d =>
    if noCopy then
      { data := d, capacity := capacity, limit := capacity,
        position := 0, mark := 0, fixedCapacity := false }
    else
      let size := dybMemAlloc capacity true
      { data := d.take capacity ++ List.replicate (size - capacity) 0, capacity := size,
        limit := capacity, position := 0, mark := 0, fixedCapacity := false }

theorem dybMemAlloc_ge (n : Nat) : n ≤ dybMemAlloc n true := Nat.le_max_right _ _

theorem dybMemAlloc_lt {n : Nat} (h : n < 2 ^ 32) : dybMemAlloc n true < 2 ^ 32 :=
  Nat.max_lt.mpr ⟨by decide, h⟩

theorem dybCreate_ok {capacity : Nat} (h : capacity < 2 ^ 32) : (dybCreate capacity).Ok where
  mark_le := le_rfl
  position_le := le_rfl
  limit_le := Nat.zero_le _
  length_eq := List.length_replicate
  capacity_lt := dybMemAlloc_lt h

end Create

section Cursors

/-- The flag tells whether the function returns the buffer or null. Allocation
is taken to succeed. -/
def dybSetCapacity (newCapacity : Nat) (b : Dybuf) : Bool × Dybuf :=
  if b.fixedCapacity && newCapacity != b.capacity then (false, b)
  else if newCapacity = b.capacity then (true, b)
  else
    let newCapacity := dybMemAlloc newCapacity true
    let kept := min b.capacity newCapacity
    (true, { b with
      data := b.data.take kept ++ List.replicate (newCapacity - kept) 0
      capacity := newCapacity
      limit := if b.limit ≥ newCapacity then newCapacity else b.limit
      position := if b.position ≥ newCapacity then newCapacity else b.position
      mark := if b.mark ≥ newCapacity then newCapacity else b.mark })

def dybSetPosition (newPosition : Nat) (b : Dybuf) : Bool × Dybuf :=
  if newPosition > b.limit then (false, b)
  else if newPosition < b.mark then (true, { b with position := b.mark })
  else (true, { b with position := newPosition })

def dybSetLimit (newLimit : Nat) (b : Dybuf) : Bool × Dybuf :=
  let grown := if newLimit > b.capacity then dybSetCapacity newLimit b else (true, b)
  if grown.1 then
    let b := grown.2
    (true, { b with
      limit := newLimit
      mark := if b.mark > newLimit then newLimit else b.mark
      position := if b.position > newLimit then newLimit else b.position })
  else (false, grown.2)

def dybCompact (b : Dybuf) : Dybuf :=
  if b.position = 0 then b
  else
    let moveSize := uintSub b.limit b.position
    { b with
      data := (b.data.drop b.position).take moveSize ++ b.data.drop moveSize
      limit := moveSize
      position := 0
      mark := 0 }

def dybGetRemainder (b : Dybuf) : Nat := uintSub b.limit b.position

def dybMark (b : Dybuf) : Dybuf := { b with mark := b.position }

def dybReset (b : Dybuf) : Dybuf := { b with position := b.mark }

def dybClear (b : Dybuf) : Dybuf := { b with position := 0, mark := 0, limit := b.capacity }

def dybFlip (b : Dybuf) : Dybuf := { b with limit := b.position, position := 0, mark := 0 }

def dybRewind (b : Dybuf) : Dybuf := { b with position := 0, mark := 0 }

end Cursors

section Access

/-- `_data[_position++]`. -/
def takeByte : DybM UInt8 := fun b =>
  match b.data[b.position]? with
  | some v => .ok (v, { b with position := uint (b.position + 1) })
  | none => .error (.readOutside b.position)

/-- `_data[_position+i]`. -/
def lookByte (i : Nat) : DybM UInt8 := fun b =>
  match b.data[uint (b.position + i)]? with
  | some v => .ok (v, b)
  | none => .error (.readOutside (uint (b.position + i)))

/-- `_data[_position++] = value`. -/
def putByte (value : UInt8) : DybM Unit := fun b =>
  if b.position < b.data.length then
    .ok ((), { b with
      data := b.data.set b.position value
      position := uint (b.position + 1) })
  else .error (.writeOutside b.position)

/-- The test `_position+n > _limit` before a write. The answer of
`dyb_set_limit` is dropped, as every caller drops it. -/
def reserve (n : Nat) : DybM Unit := fun b =>
  if uint (b.position + n) > b.limit then .ok ((), (dybSetLimit (uint (b.position + n)) b).2)
  else .ok ((), b)

/-- `dyb_mem_copy` to the position, then `_position += length`. -/
def copyIn (bs : List UInt8) : DybM Unit := fun b =>
  if b.position + bs.length ≤ b.data.length then
    .ok ((), { b with
      data := b.data.take b.position ++ bs ++ b.data.drop (b.position + bs.length)
      position := uint (b.position + bs.length) })
  else .error (.writeOutside (max b.position b.data.length))

end Access

theorem bind_ok {α β : Type} {x : DybM α} {f : α → DybM β} {b b' : Dybuf} {a : α}
    (h : x b = .ok (a, b')) : (x >>= f) b = f a b' := by
  simp only [bind, StateT.bind, h, Except.bind]

theorem bind_error {α β : Type} {x : DybM α} {f : α → DybM β} {b : Dybuf} {e : Fault}
    (h : x b = .error e) : (x >>= f) b = .error e := by
  simp only [bind, StateT.bind, h, Except.bind]

theorem bind_eq_ok {α β : Type} {x : DybM α} {f : α → DybM β} {b : Dybuf} {r : β × Dybuf} :
    (x >>= f) b = .ok r ↔ ∃ a b', x b = .ok (a, b') ∧ f a b' = .ok r := by
  cases hx : x b with
  | error e => simp [bind_error hx]
  | ok p =>
    obtain ⟨a, b'⟩ := p
    simp [bind_ok hx]

theorem get_bind {α : Type} (f : Dybuf → DybM α) (b : Dybuf) : (get >>= f) b = f b b := rfl

theorem set_bind {α : Type} (s : Dybuf) (f : PUnit → DybM α) (b : Dybuf) :
    (set s >>= f) b = f ⟨⟩ s := rfl

theorem ite_run {α : Type} {p : Prop} [Decidable p] (x y : DybM α) (b : Dybuf) :
    (if p then x else y) b = if p then x b else y b := by
  split <;> rfl

@[simp] theorem pure_apply {α : Type} (a : α) (b : Dybuf) :
    (pure a : DybM α) b = .ok (a, b) := rfl

end LcClibs.Buffer.Cursor
