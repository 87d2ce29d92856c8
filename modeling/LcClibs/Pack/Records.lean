import Mathlib
import LcClibs.Buffer.Typdex
import LcClibs.Buffer.VarInt

namespace LcClibs.Pack.Records

open Platform Lib.BigEndian
open Buffer.Cursor Buffer.Next Buffer.Append Buffer.Typdex Buffer.VarInt

section Codes

def pkrdexInteger : Nat := 0x1
def pkrdexFloat : Nat := 0x2
def pkrdexDouble : Nat := 0x3
def pkrdexRaw : Nat := 0x7
def pkrdexArray : Nat := 0x8
def pkrdexObjectRef : Nat := 0xa
def pkrdexObject : Nat := 0xb
def pkrdexContext : Nat := 0xc
def pkrdexDb : Nat := 0xe
def pkrdexFunction : Nat := 0xf

def pkrfnVersion : Nat := 0x1

def pkrdbClassNames : Nat := 0x1

def packerVersionV1 : Nat := 1

end Codes

/-- How a run of packer or unpacker ends without a result. -/
inductive Stop
  | fault (f : Fault)
  | fuel
  deriving DecidableEq, Repr

section Model

/-- The records of a packed stream. The size of an array record is the length
of the array and one, or zero where the array ends. -/
inductive Record
  | integer (index : Nat) (value : Int)
  | float (index value : Nat)
  | double (index value : Nat)
  | raw (index : Nat) (data : List UInt8)
  | array (index size : Nat)
  | objectRef (index num : Nat)
  | object (num classnameNum : Nat)
  | objectEnd (num : Nat)
  | context (classnameNum : Nat)
  | className (num : Nat) (name : List UInt8)
  | version (v : Nat)
  deriving DecidableEq, Repr

def Record.type : Record → Nat
  | integer _ _ => pkrdexInteger
  | float _ _ => pkrdexFloat
  | double _ _ => pkrdexDouble
  | raw _ _ => pkrdexRaw
  | array _ _ => pkrdexArray
  | objectRef _ _ => pkrdexObjectRef
  | object _ _ | objectEnd _ => pkrdexObject
  | context _ => pkrdexContext
  | className _ _ => pkrdexDb
  | version _ => pkrdexFunction

def Record.index : Record → Nat
  | integer index _ | float index _ | double index _ | raw index _ | array index _
  | objectRef index _ => index
  | object num _ | objectEnd num => num
  | context classnameNum => classnameNum
  | className _ _ => pkrdbClassNames
  | version _ => pkrfnVersion

variable (host : Host)

def Record.appendValue : Record → DybM Unit
  | integer _ value => dybAppendVarS64 value
  | float _ value => dybAppendFloat host value
  | double _ value => dybAppendDouble host value
  | raw _ data => dybAppendDataWithVarLen data
  | array _ size => dybAppendVarU64 size
  | objectRef _ num => dybAppendVarU64 num
  | object _ classnameNum => dybAppendVarU64 classnameNum
  | objectEnd _ => pure ()
  | context _ => pure ()
  | className num name => do
    dybAppendVarU64 num
    dybAppendCstringWithVarLen name
  | version v => dybAppendVarU64 v

/-- The answer of the header append is dropped. -/
def Record.append (r : Record) : DybM Unit := do
  let _ ← dybAppendTypdex r.type r.index
  r.appendValue host

end Model

section Encoding

variable (host : Host)

def Record.value : Record → List UInt8
  | integer _ value => varBytes (zigzag value)
  | float _ value => toBytes 4 (dybSwapU32 host value)
  | double _ value => toBytes 8 (dybSwapU64 host value)
  | raw _ data => dataBytes (data.take (uint data.length))
  | array _ size => varBytes size
  | objectRef _ num => varBytes num
  | object _ classnameNum => varBytes classnameNum
  | objectEnd _ | context _ => []
  | className num name => varBytes num ++ dataBytes (cstringData name)
  | version v => varBytes v

def Record.bytes (r : Record) : List UInt8 := typdexBytes r.type r.index ++ r.value host

def streamBytes (rs : List Record) : List UInt8 := rs.flatMap (Record.bytes host)

@[simp] theorem streamBytes_nil : streamBytes host [] = [] := rfl

@[simp] theorem streamBytes_append (rs rs' : List Record) :
    streamBytes host (rs ++ rs') = streamBytes host rs ++ streamBytes host rs' := by
  simp [streamBytes]

@[simp] theorem streamBytes_cons (r : Record) (rs : List Record) :
    streamBytes host (r :: rs) = r.bytes host ++ streamBytes host rs := by
  simp [streamBytes]

/-- The values the fields of a record can have, and an index that the header carries. -/
def Record.Fits : Record → Prop
  | integer index value => index ≤ 0xFFFFF ∧ IsInt64 value
  | float index value => index ≤ 0xFFFFF ∧ value < 2 ^ 32
  | double index value => index ≤ 0xFFFFF ∧ value < 2 ^ 64
  | raw index data => index ≤ 0xFFFFF ∧ data.length < 2 ^ 32
  | array index size => index ≤ 0xFFFFF ∧ size < 2 ^ 32
  | objectRef index num => index ≤ 0xFFFFF ∧ num ≤ 0xFFFFF
  | object num classnameNum => num ≤ 0xFFFFF ∧ classnameNum ≤ 0xFFFFF
  | objectEnd num => num ≤ 0xFFFFF
  | context classnameNum => classnameNum ≤ 0xFFFFF
  | className num name => num ≤ 0xFFFFF ∧ 0 ∉ name ∧ name.length + 1 < 2 ^ 32
  | version v => v < 2 ^ 64

theorem Record.type_le (r : Record) : r.type ≤ 0xFF := by
  cases r <;> simp only [type] <;> decide

theorem Record.Fits.typdexFits {r : Record} (h : r.Fits) : typdexFits r.type r.index := by
  refine ⟨r.type_le, ?_⟩
  cases r with
  | objectEnd num | context num => exact h
  | version v => exact Nat.le_of_ble_eq_true rfl
  | className num name => exact Nat.le_of_ble_eq_true rfl
  | _ => exact h.1

theorem Record.appendValue_writes (r : Record) : Writes (r.appendValue host) () (r.value host) := by
  cases r with
  | integer index value => exact dybAppendVarS64_writes value
  | float index value => exact appendUint_writes 4 _
  | double index value => exact appendUint_writes 8 _
  | raw index data => exact dybAppendDataWithVarLen_take_writes data
  | array index v | objectRef index v | object index v | version v =>
    exact dybAppendVarU64_writes v
  | objectEnd num | context num => exact Writes.nothing ()
  | className num name =>
    exact (dybAppendVarU64_writes num).bind (dybAppendCstringWithVarLen_take_writes name)

/-- Whether its header fits or not, a record appends its bytes. -/
theorem Record.append_writes (r : Record) : Writes (r.append host) () (r.bytes host) :=
  (dybAppendTypdex_writes r.type r.index).bind (r.appendValue_writes host)

theorem Record.Fits.bytes_pos {r : Record} (h : r.Fits) : 0 < (r.bytes host).length := by
  have hpos := List.length_pos_iff.mpr (typdexBytes_ne_nil h.typdexFits)
  rw [Record.bytes, List.length_append]
  omega

end Encoding

end LcClibs.Pack.Records
