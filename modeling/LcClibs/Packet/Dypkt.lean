import Mathlib
import LcClibs.Buffer.Typdex
import LcClibs.Buffer.VarInt

namespace LcClibs.Packet.Dypkt

open Platform Lib.BigEndian Buffer.Cursor Buffer.Next Buffer.Append Buffer.Typdex Buffer.VarInt

section Codes

def dypeBool : Nat := 1
def dypeInt : Nat := 2
def dypeUint : Nat := 3
def dypeFloat : Nat := 6
def dypeDouble : Nat := 7
def dypeString : Nat := 0xa
def dypeBytes : Nat := 0xb
def dypeF : Nat := 0xf

def dypeFEof : Nat := 0
def dypeFVersion : Nat := 1
def dypeFProtocol : Nat := 7
def dypeFProtoVersion : Nat := 8

end Codes

section Create

def dypPack (data : Option (List UInt8)) (capacity : Nat) : Dybuf :=
  match dybRefer data capacity true with
  | some dyp => dyp
  | none => dybCreate capacity

def dypUnpack (data : Option (List UInt8)) (len : Nat) (clone : Bool) : Option Dybuf :=
  match data with
  | some d => if clone then some (dybCopy (some d) len false) else dybRefer (some d) len false
  | none => none

def dypGetPosition (dyp : Dybuf) : Nat := dyp.position

def dypGetRemainder (dyp : Dybuf) : Nat := dybGetRemainder dyp

end Create

section Append

/-- Every item is a header followed by its value; the answer of the header
append is dropped. -/
def appendTagged (type index : Nat) (value : DybM Unit) : DybM Unit := do
  let _ ← dybAppendTypdex type index
  value

def dypAppendVersion (version : Nat) : DybM Unit :=
  appendTagged dypeF dypeFVersion (dybAppendVarU64 version)

def dypAppendEof : DybM Unit := appendTagged dypeF dypeFEof (pure ())

def dypAppendProtocol (protocolName : List UInt8) : DybM Unit :=
  appendTagged dypeF dypeFProtocol (dybAppendCstringWithVarLen protocolName)

def dypAppendProtocolVersion (version : Nat) : DybM Unit :=
  appendTagged dypeF dypeFProtoVersion (dybAppendVarU64 version)

def dypAppendBool (index : Nat) (value : Bool) : DybM Unit :=
  appendTagged dypeBool index (dybAppendBool value)

def dypAppendInt (index : Nat) (value : Int) : DybM Unit :=
  appendTagged dypeInt index (dybAppendVarS64 value)

def dypAppendUint (index value : Nat) : DybM Unit :=
  appendTagged dypeUint index (dybAppendVarU64 value)

def dypAppendFloat (host : Host) (index value : Nat) : DybM Unit :=
  appendTagged dypeFloat index (dybAppendFloat host value)

def dypAppendDouble (host : Host) (index value : Nat) : DybM Unit :=
  appendTagged dypeDouble index (dybAppendDouble host value)

def dypAppendCstring (index : Nat) (string : List UInt8) : DybM Unit :=
  appendTagged dypeString index (dybAppendCstringWithVarLen string)

def dypAppendData (index : Nat) (data : List UInt8) : DybM Unit :=
  appendTagged dypeBytes index (dybAppendDataWithVarLen data)

end Append

section Next

def dypNextType : DybM (Nat × Nat) := dybPeekTypdex

def nextTagged {α : Type} (value : DybM α) : DybM α := do
  let _ ← dybNextTypdex
  value

def dypNextVersion : DybM Nat := nextTagged dybNextVarU64
def dypNextProtocol : DybM (Option Nat × Nat) := nextTagged dybNextCstringWithVarLen
def dypNextProtocolVersion : DybM Nat := nextTagged dybNextVarU64
def dypNextEof : DybM Unit := nextTagged (pure ())
def dypNextBool : DybM Bool := nextTagged dybNextBool
def dypNextInt : DybM Int := nextTagged dybNextVarS64
def dypNextUint : DybM Nat := nextTagged dybNextVarU64
def dypNextFloat (host : Host) : DybM Nat := nextTagged (dybNextFloat host)
def dypNextDouble (host : Host) : DybM Nat := nextTagged (dybNextDouble host)
def dypNextCstring : DybM (Option Nat × Nat) := nextTagged dybNextCstringWithVarLen
def dypNextData : DybM (Option Nat × Nat) := nextTagged dybNextDataWithVarLen

end Next

theorem appendTagged_writes {type index : Nat} {value : DybM Unit} {e : List UInt8}
    (h : Writes value () e) :
    Writes (appendTagged type index value) () (typdexBytes type index ++ e) :=
  (dybAppendTypdex_writes type index).bind h

theorem nextTagged_bytes {α : Type} {b b' : Dybuf} {type index : Nat} {r : List UInt8}
    {value : DybM α} {a : α} (hlt : b.data.length < 2 ^ 32) (hfit : typdexFits type index)
    (h : rest b = typdexBytes type index ++ r)
    (hv : value (advance (typdexBytes type index).length b) = .ok (a, b')) :
    nextTagged value b = .ok (a, b') := by
  rw [nextTagged, bind_ok (dybNextTypdex_bytes hlt hfit h), hv]

end LcClibs.Packet.Dypkt
