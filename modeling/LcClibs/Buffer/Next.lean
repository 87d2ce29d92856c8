import Mathlib
import LcClibs.Lib.BigEndian
import LcClibs.Buffer.Cursor

namespace LcClibs.Buffer.Next

open Platform Lib.BigEndian Buffer.Cursor

/-- The unread memory, from the position on. -/
def rest (b : Dybuf) : List UInt8 := b.data.drop b.position

def advance (n : Nat) (b : Dybuf) : Dybuf := { b with position := b.position + n }

section Integers

def takeUint : Nat → Nat → DybM Nat
  | 0, acc => pure acc
  | n + 1, acc => do
    let v ← takeByte
    takeUint n ((acc <<< 8) ||| v.toNat)

def lookUint : Nat → Nat → Nat → DybM Nat
  | 0, _, acc => pure acc
  | n + 1, i, acc => do
    let v ← lookByte i
    lookUint n (i + 1) ((acc <<< 8) ||| v.toNat)

def dybNextU8 : DybM Nat := takeUint 1 0
def dybNextU16 : DybM Nat := takeUint 2 0
def dybNextU24 : DybM Nat := takeUint 3 0
def dybNextU32 : DybM Nat := takeUint 4 0
def dybNextU40 : DybM Nat := takeUint 5 0
def dybNextU48 : DybM Nat := takeUint 6 0
def dybNextU56 : DybM Nat := takeUint 7 0
def dybNextU64 : DybM Nat := takeUint 8 0

def dybPeekU8 : DybM Nat := lookUint 1 0 0
def dybPeekU16 : DybM Nat := lookUint 2 0 0
def dybPeekU24 : DybM Nat := lookUint 3 0 0
def dybPeekU32 : DybM Nat := lookUint 4 0 0
def dybPeekU40 : DybM Nat := lookUint 5 0 0
def dybPeekU48 : DybM Nat := lookUint 6 0 0
def dybPeekU56 : DybM Nat := lookUint 7 0 0
def dybPeekU64 : DybM Nat := lookUint 8 0 0

def dybNextBool : DybM Bool := do
  let v ← takeByte
  return v != 0

def dybPeekBool : DybM Bool := do
  let v ← lookByte 0
  return v != 0

end Integers

section Data

/-- The pointer returned is the offset of its target in the memory. -/
def dybNextDataWithoutLen (len : Nat) : DybM (Option Nat) := do
  let b ← get
  if len = 0 ∨ uint (b.position + len) > b.limit then
    return none
  else
    set { b with position := uint (b.position + len) }
    return some b.position

def dybNextDataWith1byteLen : DybM (Option Nat × Nat) := do
  let len ← dybNextU8
  let data ← dybNextDataWithoutLen len
  return (data, len)

def dybNextDataWith2bytesLen : DybM (Option Nat × Nat) := do
  let len ← dybNextU16
  let data ← dybNextDataWithoutLen len
  return (data, len)

/-- The bytes are copied out, so the range has to lie in the memory. -/
def dybNextStructure (size : Nat) : DybM (Option (List UInt8)) := do
  let b ← get
  if size = 0 ∨ uint (b.position + size) > b.limit then
    return none
  else if b.position + size ≤ b.data.length then
    set { b with position := uint (b.position + size) }
    return some ((rest b).take size)
  else
    throw (.readOutside b.data.length)

/-- The memory a pointer and a length stand for; the null pointer has none. -/
def dataAt (data : Option Nat) (size : Nat) : DybM (List UInt8) := do
  let b ← get
  match data with
  | none => return []
  | some off => return (b.data.drop off).take size

/-- The C string a pointer stands for, which ends at the first NUL. -/
def cstringAt (string : Option Nat) : DybM (List UInt8) := do
  let b ← get
  match string with
  | none => throw .nullDeref
  | some off =>
    if 0 ∈ b.data.drop off then
      return (b.data.drop off).takeWhile (· ≠ 0)
    else
      throw (.readOutside b.data.length)

end Data

@[simp] theorem advance_zero (b : Dybuf) : advance 0 b = b := rfl

@[simp] theorem advance_advance (m n : Nat) (b : Dybuf) :
    advance n (advance m b) = advance (m + n) b := by
  simp [advance, Nat.add_assoc]

@[simp] theorem advance_data (n : Nat) (b : Dybuf) : (advance n b).data = b.data := rfl
@[simp] theorem advance_position (n : Nat) (b : Dybuf) :
    (advance n b).position = b.position + n := rfl
@[simp] theorem advance_limit (n : Nat) (b : Dybuf) : (advance n b).limit = b.limit := rfl
@[simp] theorem advance_capacity (n : Nat) (b : Dybuf) :
    (advance n b).capacity = b.capacity := rfl

theorem rest_advance {b : Dybuf} {e r : List UInt8} (h : rest b = e ++ r) :
    rest (advance e.length b) = r := by
  have hd : rest (advance e.length b) = (rest b).drop e.length := by
    simp [rest, advance, List.drop_drop]
  rw [hd, h, List.drop_left]

theorem getElem?_position (b : Dybuf) (i : Nat) : b.data[b.position + i]? = (rest b)[i]? := by
  simp [rest, List.getElem?_drop]

theorem rest_length (b : Dybuf) : (rest b).length = b.data.length - b.position := by
  simp [rest]

theorem takeByte_of_rest {b : Dybuf} {v : UInt8} {r : List UInt8}
    (hlt : b.data.length < 2 ^ 32) (h : rest b = v :: r) :
    takeByte b = .ok (v, advance 1 b) := by
  have hv : b.data[b.position]? = some v := by
    have := getElem?_position b 0
    simpa [h] using this
  have hp : b.position < b.data.length := (List.getElem?_eq_some_iff.mp hv).1
  simp [takeByte, hv, advance, uint_of_lt (show b.position + 1 < 2 ^ 32 by omega)]

theorem takeByte_fault {b : Dybuf} (h : b.data.length ≤ b.position) :
    takeByte b = .error (.readOutside b.position) := by
  simp [takeByte, List.getElem?_eq_none h]

theorem lookByte_of_rest {b : Dybuf} {v : UInt8} {i : Nat}
    (hlt : b.data.length < 2 ^ 32) (h : (rest b)[i]? = some v) :
    lookByte i b = .ok (v, b) := by
  have hv : b.data[b.position + i]? = some v := by rw [getElem?_position, h]
  have hp : b.position + i < b.data.length := (List.getElem?_eq_some_iff.mp hv).1
  simp [lookByte, uint_of_lt (show b.position + i < 2 ^ 32 by omega), hv]

theorem takeUint_of_rest {n acc : Nat} {b : Dybuf} {e r : List UInt8}
    (hlt : b.data.length < 2 ^ 32) (h : rest b = e ++ r) (hn : e.length = n) :
    takeUint n acc b = .ok (ofBytesFrom acc e, advance n b) := by
  induction n generalizing acc b e with
  | zero =>
    have he : e = [] := List.length_eq_zero_iff.mp hn
    subst he
    rfl
  | succ n ih =>
    cases e with
    | nil => simp at hn
    | cons v e =>
      have ht := takeByte_of_rest hlt h
      have hr : rest (advance 1 b) = e ++ r := rest_advance (e := [v]) h
      have hn' : e.length = n := by simpa using hn
      rw [takeUint, bind_ok ht, ih (b := advance 1 b) hlt hr hn', ofBytesFrom_cons,
        shiftLeft_or_byte, advance_advance, Nat.add_comm 1 n]

theorem takeUint_fault {n acc : Nat} {b : Dybuf} (hlt : b.data.length < 2 ^ 32)
    (hp : b.position ≤ b.data.length) (hn : b.data.length < b.position + n) :
    takeUint n acc b = .error (.readOutside b.data.length) := by
  induction n generalizing acc b with
  | zero => omega
  | succ n ih =>
    by_cases hlast : b.position = b.data.length
    · rw [takeUint, bind_error (takeByte_fault (by omega)), hlast]
    · obtain ⟨v, r, hr⟩ : ∃ v r, rest b = v :: r := by
        cases hc : rest b with
        | nil =>
          have := rest_length b
          rw [hc, List.length_nil] at this
          omega
        | cons v r => exact ⟨v, r, rfl⟩
      rw [takeUint, bind_ok (takeByte_of_rest hlt hr)]
      exact ih hlt (by simp only [advance_position, advance_data]; omega)
        (by simp only [advance_position, advance_data]; omega)

theorem lookUint_of_rest {n i acc : Nat} {b : Dybuf} {e r : List UInt8}
    (hlt : b.data.length < 2 ^ 32) (h : (rest b).drop i = e ++ r) (hn : e.length = n) :
    lookUint n i acc b = .ok (ofBytesFrom acc e, b) := by
  induction n generalizing i acc e with
  | zero =>
    have he : e = [] := List.length_eq_zero_iff.mp hn
    subst he
    rfl
  | succ n ih =>
    cases e with
    | nil => simp at hn
    | cons v e =>
      have hv : (rest b)[i]? = some v := by
        have hd : ((rest b).drop i)[0]? = (rest b)[i + 0]? := List.getElem?_drop
        simpa [h] using hd.symm
      have hd : (rest b).drop (i + 1) = e ++ r := by
        rw [← List.drop_drop, h]
        rfl
      have hn' : e.length = n := by simpa using hn
      rw [lookUint, bind_ok (lookByte_of_rest hlt hv), ih hd hn', ofBytesFrom_cons,
        shiftLeft_or_byte]

theorem lookUint_fault {n i acc : Nat} {b : Dybuf} (hlt : b.data.length < 2 ^ 32)
    (hi : b.position + i ≤ b.data.length) (hn : b.data.length < b.position + i + n) :
    lookUint n i acc b = .error (.readOutside b.data.length) := by
  induction n generalizing i acc with
  | zero => omega
  | succ n ih =>
    by_cases hlast : b.position + i = b.data.length
    · have hlook : lookByte i b = .error (.readOutside b.data.length) := by
        rw [lookByte, uint_of_lt (by omega), hlast, List.getElem?_eq_none le_rfl]
      rw [lookUint, bind_error hlook]
    · have hv : (rest b)[i]? = some b.data[b.position + i] := by
        rw [← getElem?_position, List.getElem?_eq_getElem]
      rw [lookUint, bind_ok (lookByte_of_rest hlt hv)]
      exact ih (by omega) (by omega)

theorem dybNextBool_of_rest {b : Dybuf} {v : UInt8} {r : List UInt8}
    (hlt : b.data.length < 2 ^ 32) (h : rest b = v :: r) :
    dybNextBool b = .ok (v != 0, advance 1 b) := by
  rw [dybNextBool, bind_ok (takeByte_of_rest hlt h), pure_apply]

theorem dybNextDataWithoutLen_none {b : Dybuf} {len : Nat}
    (h : len = 0 ∨ uint (b.position + len) > b.limit) :
    dybNextDataWithoutLen len b = .ok (none, b) := by
  rw [dybNextDataWithoutLen, get_bind, ite_run, if_pos h, pure_apply]

theorem dybNextDataWithoutLen_some {b : Dybuf} {len : Nat} (h0 : 0 < len)
    (h : b.position + len ≤ b.limit) (hlim : b.limit < 2 ^ 32) :
    dybNextDataWithoutLen len b = .ok (some b.position, advance len b) := by
  have hu : uint (b.position + len) = b.position + len := uint_of_lt (by omega)
  have hc : ¬(len = 0 ∨ uint (b.position + len) > b.limit) := by omega
  rw [dybNextDataWithoutLen, get_bind, ite_run, if_neg hc, set_bind, pure_apply, hu, advance]

theorem dataAt_some {b : Dybuf} {off : Nat} {data r : List UInt8}
    (h : b.data.drop off = data ++ r) :
    dataAt (some off) data.length b = .ok (data, b) := by
  have ht : (b.data.drop off).take data.length = data := by rw [h, List.take_left]
  simp only [dataAt, get_bind, ht, pure_apply]

theorem cstringAt_some {b : Dybuf} {off : Nat} {string r : List UInt8}
    (h : b.data.drop off = string ++ 0 :: r) (h0 : 0 ∉ string) :
    cstringAt (some off) b = .ok (string, b) := by
  have hmem : 0 ∈ b.data.drop off := by simp [h]
  have hall : ∀ v ∈ string, decide (v ≠ 0) = true := fun v hv => by
    rw [decide_eq_true_eq]
    rintro rfl
    exact h0 hv
  have ht : (b.data.drop off).takeWhile (· ≠ 0) = string := by
    rw [h, List.takeWhile_append_of_pos hall]
    simp
  rw [cstringAt, get_bind]
  simp only [if_pos hmem, ht, pure_apply]

end LcClibs.Buffer.Next
