import Mathlib
import LcClibs.Packet.Dypkt

namespace LcClibs.Packet.Bounds

open Platform Lib.BigEndian Lib.PrefixCode
open Buffer.Cursor Buffer.Next Buffer.Append Buffer.Typdex Buffer.VarInt Packet.Dypkt

section Writing

inductive AppendCall
  | bool (value : Bool)
  | u8 (value : Nat)
  | u16 (value : Nat)
  | u24 (value : Nat)
  | u32 (value : Nat)
  | u40 (value : Nat)
  | u48 (value : Nat)
  | u56 (value : Nat)
  | u64 (value : Nat)
  | dataWith1byteLen (data : List UInt8)
  | dataWith2bytesLen (data : List UInt8)
  | dataWithoutLen (data : List UInt8)
  | struct (bytes : List UInt8)
  | typdex (type index : Nat)
  | varU64 (value : Nat)
  | varS64 (value : Int)
  | float (host : Host) (value : Nat)
  | double (host : Host) (value : Nat)
  | dataWithVarLen (data : List UInt8)
  | cstringWithVarLen (string : List UInt8)
  | dypVersion (version : Nat)
  | dypEof
  | dypProtocol (name : List UInt8)
  | dypProtocolVersion (version : Nat)
  | dypBool (index : Nat) (value : Bool)
  | dypInt (index : Nat) (value : Int)
  | dypUint (index value : Nat)
  | dypFloat (host : Host) (index value : Nat)
  | dypDouble (host : Host) (index value : Nat)
  | dypCstring (index : Nat) (string : List UInt8)
  | dypData (index : Nat) (data : List UInt8)

/-- Whether a call returns the buffer or null is not looked at. -/
def AppendCall.run : AppendCall → DybM Unit
  | bool value => dybAppendBool value
  | u8 value => dybAppendU8 value
  | u16 value => dybAppendU16 value
  | u24 value => dybAppendU24 value
  | u32 value => dybAppendU32 value
  | u40 value => dybAppendU40 value
  | u48 value => dybAppendU48 value
  | u56 value => dybAppendU56 value
  | u64 value => dybAppendU64 value
  | dataWith1byteLen data => dybAppendDataWith1byteLen data
  | dataWith2bytesLen data => dybAppendDataWith2bytesLen data
  | dataWithoutLen data => dybAppendDataWithoutLen data
  | struct bytes => dybAppendStructure bytes
  | typdex type index => do
    let _ ← dybAppendTypdex type index
  | varU64 value => dybAppendVarU64 value
  | varS64 value => dybAppendVarS64 value
  | float host value => dybAppendFloat host value
  | double host value => dybAppendDouble host value
  | dataWithVarLen data => dybAppendDataWithVarLen data
  | cstringWithVarLen string => dybAppendCstringWithVarLen string
  | dypVersion version => dypAppendVersion version
  | dypEof => dypAppendEof
  | dypProtocol name => dypAppendProtocol name
  | dypProtocolVersion version => dypAppendProtocolVersion version
  | dypBool index value => dypAppendBool index value
  | dypInt index value => dypAppendInt index value
  | dypUint index value => dypAppendUint index value
  | dypFloat host index value => dypAppendFloat host index value
  | dypDouble host index value => dypAppendDouble host index value
  | dypCstring index string => dypAppendCstring index string
  | dypData index data => dypAppendData index data

def AppendCall.bytes : AppendCall → List UInt8
  | bool value => [if value then 1 else 0]
  | u8 value => toBytes 1 value
  | u16 value => toBytes 2 value
  | u24 value => toBytes 3 value
  | u32 value => toBytes 4 value
  | u40 value => toBytes 5 value
  | u48 value => toBytes 6 value
  | u56 value => toBytes 7 value
  | u64 value => toBytes 8 value
  | dataWith1byteLen data => toBytes 1 (data.length % 256) ++ data.take (data.length % 256)
  | dataWith2bytesLen data => toBytes 2 (data.length % 65536) ++ data.take (data.length % 65536)
  | dataWithoutLen data => data.take (uint data.length)
  | struct bytes => bytes.take (uint bytes.length)
  | typdex type index => typdexBytes type index
  | varU64 value => varBytes value
  | varS64 value => varBytes (zigzag value)
  | float host value => toBytes 4 (dybSwapU32 host value)
  | double host value => toBytes 8 (dybSwapU64 host value)
  | dataWithVarLen data => dataBytes (data.take (uint data.length))
  | cstringWithVarLen string => dataBytes (cstringData string)
  | dypVersion version => typdexBytes dypeF dypeFVersion ++ varBytes version
  | dypEof => typdexBytes dypeF dypeFEof ++ []
  | dypProtocol name => typdexBytes dypeF dypeFProtocol ++ dataBytes (cstringData name)
  | dypProtocolVersion version => typdexBytes dypeF dypeFProtoVersion ++ varBytes version
  | dypBool index value => typdexBytes dypeBool index ++ [if value then 1 else 0]
  | dypInt index value => typdexBytes dypeInt index ++ varBytes (zigzag value)
  | dypUint index value => typdexBytes dypeUint index ++ varBytes value
  | dypFloat host index value => typdexBytes dypeFloat index ++ toBytes 4 (dybSwapU32 host value)
  | dypDouble host index value => typdexBytes dypeDouble index ++ toBytes 8 (dybSwapU64 host value)
  | dypCstring index string => typdexBytes dypeString index ++ dataBytes (cstringData string)
  | dypData index data => typdexBytes dypeBytes index ++ dataBytes (data.take (uint data.length))

def appendAll : List AppendCall → DybM Unit
  | [] => pure ()
  | c :: calls => do
    c.run
    appendAll calls

theorem AppendCall.run_writes (c : AppendCall) : Writes c.run () c.bytes := by
  cases c with
  | bool value => exact dybAppendBool_writes value
  | u8 value | u16 value | u24 value | u32 value | u40 value | u48 value | u56 value
  | u64 value => exact appendUint_writes _ value
  | dataWith1byteLen data => exact dybAppendDataWith1byteLen_writes data
  | dataWith2bytesLen data => exact dybAppendDataWith2bytesLen_writes data
  | dataWithoutLen data => exact dybAppendDataWithoutLen_take_writes data
  | struct bytes => exact dybAppendDataWithoutLen_take_writes bytes
  | typdex type index =>
    have h := (dybAppendTypdex_writes type index).bind
      (f := fun _ => (pure () : DybM Unit)) (Writes.nothing ())
    rwa [List.append_nil] at h
  | varU64 value => exact dybAppendVarU64_writes value
  | varS64 value => exact dybAppendVarS64_writes value
  | float host value => exact appendUint_writes 4 _
  | double host value => exact appendUint_writes 8 _
  | dataWithVarLen data => exact dybAppendDataWithVarLen_take_writes data
  | cstringWithVarLen string => exact dybAppendCstringWithVarLen_take_writes string
  | dypVersion version => exact appendTagged_writes (dybAppendVarU64_writes version)
  | dypEof => exact appendTagged_writes (Writes.nothing ())
  | dypProtocol name => exact appendTagged_writes (dybAppendCstringWithVarLen_take_writes name)
  | dypProtocolVersion version => exact appendTagged_writes (dybAppendVarU64_writes version)
  | dypBool index value => exact appendTagged_writes (dybAppendBool_writes value)
  | dypInt index value => exact appendTagged_writes (dybAppendVarS64_writes value)
  | dypUint index value => exact appendTagged_writes (dybAppendVarU64_writes value)
  | dypFloat host index value => exact appendTagged_writes (appendUint_writes 4 _)
  | dypDouble host index value => exact appendTagged_writes (appendUint_writes 8 _)
  | dypCstring index string =>
    exact appendTagged_writes (dybAppendCstringWithVarLen_take_writes string)
  | dypData index data => exact appendTagged_writes (dybAppendDataWithVarLen_take_writes data)

theorem appendAll_writes (calls : List AppendCall) :
    Writes (appendAll calls) () (calls.flatMap AppendCall.bytes) := by
  induction calls with
  | nil => exact Writes.nothing ()
  | cons c calls ih => exact c.run_writes.bind ih

theorem dybRefer_ok {memory : List UInt8} (h : memory.length < 2 ^ 32) (forWrite : Bool) :
    ∃ b, dybRefer (some memory) memory.length forWrite = some b ∧ b.Ok ∧ b.position = 0 ∧
      b.fixedCapacity = true ∧ b.capacity = memory.length ∧ b.data = memory ∧
      b.limit = if forWrite then 0 else memory.length := by
  refine ⟨_, rfl, ?_, rfl, rfl, rfl, rfl, rfl⟩
  exact
    { mark_le := le_rfl
      position_le := Nat.zero_le _
      limit_le := by cases forWrite <;> simp
      length_eq := rfl
      capacity_lt := h }

/-- A run of appends on a referenced memory that never writes outside it, with
the position inside it after every call. -/
def WritesInside (memory : List UInt8) (forWrite : Bool) (calls : List AppendCall) : Prop :=
  ∀ b, dybRefer (some memory) memory.length forWrite = some b → ∀ before, before <+: calls →
    ∃ b', appendAll before b = .ok ((), b') ∧ b'.position ≤ memory.length

theorem writesInside_iff {memory : List UInt8} (forWrite : Bool) (calls : List AppendCall)
    (hm : memory.length < 2 ^ 32) :
    WritesInside memory forWrite calls ↔
      (calls.flatMap AppendCall.bytes).length ≤ memory.length := by
  obtain ⟨b, hb, hok, hp, hfix, hcap, -, -⟩ := dybRefer_ok hm forWrite
  constructor
  · intro h
    obtain ⟨b', hrun, -⟩ := h b hb calls (List.prefix_refl calls)
    by_contra hlong
    obtain ⟨off, herr⟩ := (appendAll_writes calls).fault b hok fun hroom => by
      have := hroom.2 hfix
      omega
    rw [hrun] at herr
    cases herr
  · intro hfit b1 hb1 before hbefore
    obtain rfl : b = b1 := Option.some.inj (hb.symm.trans hb1)
    obtain ⟨after, rfl⟩ := hbefore
    rw [List.flatMap_append, List.length_append] at hfit
    obtain ⟨b', hrun, happ⟩ := (appendAll_writes before).ok b hok
      ⟨by omega, fun _ => by omega⟩
    refine ⟨b', hrun, ?_⟩
    rw [happ.position_eq, hp]
    omega

theorem writesInside_iff_witness :
    WritesInside [0, 0, 0, 0] true [.u16 7, .bool true] ↔
      ([AppendCall.u16 7, .bool true].flatMap AppendCall.bytes).length ≤ 4 :=
  writesInside_iff true [.u16 7, .bool true] (by decide)

/-- Two bytes appended to a memory of one. -/
theorem not_writesInside :
    ¬∀ (memory : List UInt8) (forWrite : Bool) (calls : List AppendCall),
      memory.length < 2 ^ 32 → WritesInside memory forWrite calls := by
  intro h
  obtain ⟨b', hrun, -⟩ := h [0] true [.u16 7] (by decide) _ rfl _ (List.prefix_refl _)
  cases hrun

end Writing

section Reading

/-- A reader of one number, as far as its reach goes. -/
inductive Primitive
  | fixed (n : Nat)
  | typdex
  | varInt

/-- The number of bytes a reader takes, told by the byte at the position; none
where there is no such byte. -/
def Primitive.need : Primitive → Dybuf → Option Nat
  | fixed n, _ => some n
  | typdex, b => b.data[b.position]?.map headerWidth
  | varInt, b => b.data[b.position]?.map widthOf

/-- Where a sequence of readers stops, if every one of them stops before the bound. -/
def reach (bound : Nat) : List Primitive → Dybuf → Option Nat
  | [], b => some b.position
  | p :: ps, b => do
    let n ← p.need b
    if b.position + n ≤ bound then reach bound ps (advance n b) else none

/-- A call of one of the readers. -/
inductive NextCall
  | bool
  | u8
  | u16
  | u24
  | u32
  | u40
  | u48
  | u56
  | u64
  | typdex
  | varU64
  | varS64
  | dypVersion
  | dypProtocolVersion
  | dypEof
  | dypBool
  | dypInt
  | dypUint

/-- The value read is not looked at. -/
def dropValue {α : Type} (m : DybM α) : DybM Unit := do
  let _ ← m

def NextCall.run : NextCall → DybM Unit
  | bool => dropValue dybNextBool
  | u8 => dropValue dybNextU8
  | u16 => dropValue dybNextU16
  | u24 => dropValue dybNextU24
  | u32 => dropValue dybNextU32
  | u40 => dropValue dybNextU40
  | u48 => dropValue dybNextU48
  | u56 => dropValue dybNextU56
  | u64 => dropValue dybNextU64
  | typdex => dropValue dybNextTypdex
  | varU64 => dropValue dybNextVarU64
  | varS64 => dropValue dybNextVarS64
  | dypVersion => dropValue dypNextVersion
  | dypProtocolVersion => dropValue dypNextProtocolVersion
  | dypEof => dropValue dypNextEof
  | dypBool => dropValue dypNextBool
  | dypInt => dropValue dypNextInt
  | dypUint => dropValue dypNextUint

/-- The readers a call is made of, in order. -/
def NextCall.parts : NextCall → List Primitive
  | bool => [.fixed 1]
  | u8 => [.fixed 1]
  | u16 => [.fixed 2]
  | u24 => [.fixed 3]
  | u32 => [.fixed 4]
  | u40 => [.fixed 5]
  | u48 => [.fixed 6]
  | u56 => [.fixed 7]
  | u64 => [.fixed 8]
  | typdex => [.typdex]
  | varU64 | varS64 => [.varInt]
  | dypVersion | dypProtocolVersion | dypInt | dypUint => [.typdex, .varInt]
  | dypEof => [.typdex]
  | dypBool => [.typdex, .fixed 1]

def nextAll : List NextCall → DybM Unit
  | [] => pure ()
  | c :: calls => do
    c.run
    nextAll calls

/-- A buffer whose cursors are in order, over memory that is really there. -/
structure Placed (b : Dybuf) : Prop where
  position_le : b.position ≤ b.limit
  limit_le : b.limit ≤ b.data.length
  length_lt : b.data.length < 2 ^ 32

/-- From one state to the next nothing at or past the limit is consumed, and
the remainder does not wrap around. -/
structure StaysBelow (b b' : Dybuf) : Prop where
  consumed : ∀ i, b.position ≤ i → i < b'.position → i < b.limit
  position_le : b'.position ≤ b'.limit
  remainder : dybGetRemainder b' = b'.limit - b'.position

/-- A run of readers that stays below the limit after each of its calls. -/
def ReadsBelow (calls : List NextCall) (b : Dybuf) : Prop :=
  ∀ before, before <+: calls → ∃ b', nextAll before b = .ok ((), b') ∧ StaysBelow b b'

theorem reach_cons {bound : Nat} {p : Primitive} {ps : List Primitive} {b : Dybuf} {e : Nat} :
    reach bound (p :: ps) b = some e ↔
      ∃ n, p.need b = some n ∧ b.position + n ≤ bound ∧ reach bound ps (advance n b) = some e := by
  simp only [reach, Option.bind_eq_bind, Option.bind_eq_some_iff]
  constructor
  · rintro ⟨n, hn, hr⟩
    by_cases hle : b.position + n ≤ bound
    · rw [if_pos hle] at hr
      exact ⟨n, hn, hle, hr⟩
    · rw [if_neg hle] at hr
      cases hr
  · rintro ⟨n, hn, hle, hr⟩
    exact ⟨n, hn, by rw [if_pos hle, hr]⟩

theorem position_le_reach {bound : Nat} {ps : List Primitive} {b : Dybuf} {e : Nat}
    (h : reach bound ps b = some e) : b.position ≤ e := by
  induction ps generalizing b with
  | nil => exact (Option.some.inj h).le
  | cons p ps ih =>
    obtain ⟨n, -, -, hr⟩ := reach_cons.mp h
    have := ih hr
    rw [advance_position] at this
    omega

theorem reach_le {bound : Nat} {ps : List Primitive} {b : Dybuf} {e : Nat}
    (h : reach bound ps b = some e) (hb : b.position ≤ bound) : e ≤ bound := by
  induction ps generalizing b with
  | nil => exact (Option.some.inj h).symm.le.trans hb
  | cons p ps ih =>
    obtain ⟨n, -, hle, hr⟩ := reach_cons.mp h
    exact ih hr hle

/-- The bound matters only by the place where the readers stop. -/
theorem reach_rebound {bound bound' : Nat} {ps : List Primitive} {b : Dybuf} {e : Nat}
    (h : reach bound ps b = some e) (he : e ≤ bound') : reach bound' ps b = some e := by
  induction ps generalizing b with
  | nil => exact h
  | cons p ps ih =>
    obtain ⟨n, hn, -, hr⟩ := reach_cons.mp h
    have hpos := position_le_reach hr
    rw [advance_position] at hpos
    exact reach_cons.mpr ⟨n, hn, hpos.trans he, ih hr⟩

theorem reach_append {bound : Nat} {ps qs : List Primitive} {b : Dybuf} {e : Nat} :
    reach bound (ps ++ qs) b = some e ↔
      ∃ m, reach bound ps b = some m ∧ reach bound qs { b with position := m } = some e := by
  induction ps generalizing b with
  | nil => simp [reach]
  | cons p ps ih =>
    rw [List.cons_append, reach_cons]
    constructor
    · rintro ⟨n, hn, hle, hr⟩
      obtain ⟨m, hm, hq⟩ := ih.mp hr
      exact ⟨m, reach_cons.mpr ⟨n, hn, hle, hm⟩, hq⟩
    · rintro ⟨m, hm, hq⟩
      obtain ⟨n, hn, hle, hr⟩ := reach_cons.mp hm
      exact ⟨n, hn, hle, ih.mpr ⟨m, hr, hq⟩⟩

/-- A computation that does what a sequence of readers does: it moves the
position to where they stop, and runs over the memory where they do not fit. -/
structure Reads (m : DybM Unit) (ps : List Primitive) : Prop where
  ok : ∀ b e, b.position ≤ b.data.length → b.data.length < 2 ^ 32 →
    reach b.data.length ps b = some e → m b = .ok ((), { b with position := e })
  fault : ∀ b, b.position ≤ b.data.length → b.data.length < 2 ^ 32 →
    reach b.data.length ps b = none → ∃ off, m b = .error (.readOutside off)

theorem Reads.nil : Reads (pure ()) [] where
  ok b e _ _ h := by
    obtain rfl := Option.some.inj h
    rfl
  fault b _ _ h := by cases h

theorem Reads.bind {m m' : DybM Unit} {ps qs : List Primitive} (h : Reads m ps)
    (h' : Reads m' qs) : Reads (do m; m') (ps ++ qs) where
  ok b e hb hlt hr := by
    obtain ⟨k, hk, hq⟩ := reach_append.mp hr
    have hkl := reach_le hk hb
    rw [bind_ok (h.ok b k hb hlt hk), h'.ok { b with position := k } e hkl hlt hq]
  fault b hb hlt hr := by
    cases hk : reach b.data.length ps b with
    | none =>
      obtain ⟨off, he⟩ := h.fault b hb hlt hk
      exact ⟨off, bind_error he⟩
    | some k =>
      have hkl := reach_le hk hb
      have hq : reach b.data.length qs { b with position := k } = none := by
        by_contra hne
        obtain ⟨e, he⟩ := Option.ne_none_iff_exists'.mp hne
        rw [reach_append.mpr ⟨k, hk, he⟩] at hr
        cases hr
      obtain ⟨off, he⟩ := h'.fault { b with position := k } hkl hlt hq
      exact ⟨off, by rw [bind_ok (h.ok b k hb hlt hk), he]⟩

theorem Reads.single {α : Type} {m : DybM α} {p : Primitive}
    (hok : ∀ b n, b.data.length < 2 ^ 32 → p.need b = some n →
      b.position + n ≤ b.data.length → ∃ a, m b = .ok (a, advance n b))
    (hfault : ∀ b, b.position ≤ b.data.length → b.data.length < 2 ^ 32 →
      (∀ n, p.need b = some n → b.data.length < b.position + n) →
      ∃ off, m b = .error (.readOutside off)) :
    Reads (dropValue m) [p] where
  ok b e _ hlt hr := by
    obtain ⟨n, hn, hle, he⟩ := reach_cons.mp hr
    obtain ⟨a, ha⟩ := hok b n hlt hn hle
    obtain rfl := Option.some.inj he
    rw [dropValue, bind_ok ha]
    rfl
  fault b hb hlt hr := by
    obtain ⟨off, ho⟩ := hfault b hb hlt fun n hn => by
      by_contra hle
      have hsome : reach b.data.length [p] b = some (b.position + n) :=
        reach_cons.mpr ⟨n, hn, not_lt.mp hle, rfl⟩
      rw [hsome] at hr
      cases hr
    exact ⟨off, by rw [dropValue, bind_error ho]⟩

theorem takeUint_reads (n : Nat) : Reads (dropValue (takeUint n 0)) [.fixed n] :=
  Reads.single
    (fun b k hlt hk hle => by
      obtain rfl : n = k := Option.some.inj hk
      have hr : rest b = (rest b).take n ++ (rest b).drop n := (List.take_append_drop n _).symm
      have hl : ((rest b).take n).length = n := by
        rw [List.length_take, rest_length]
        omega
      exact ⟨_, takeUint_of_rest hlt hr hl⟩)
    (fun b hb hlt h => ⟨_, takeUint_fault hlt hb (h n rfl)⟩)

theorem rest_of_getElem? {b : Dybuf} {first : UInt8} (h : b.data[b.position]? = some first) :
    ∃ r, rest b = first :: r := by
  have h0 := getElem?_position b 0
  rw [Nat.add_zero, h] at h0
  cases hc : rest b with
  | nil => simp [hc] at h0
  | cons v r =>
    obtain rfl : first = v := by simpa [hc] using h0
    exact ⟨r, rfl⟩

theorem getElem?_of_rest {b : Dybuf} {first : UInt8} {r : List UInt8} (h : rest b = first :: r) :
    b.data[b.position]? = some first := by
  have h0 := getElem?_position b 0
  simpa [h] using h0

theorem dybNextBool_reads : Reads (dropValue dybNextBool) [.fixed 1] :=
  Reads.single
    (fun b n hlt hn hle => by
      obtain rfl : 1 = n := Option.some.inj hn
      obtain ⟨r, hr⟩ := rest_of_getElem? (List.getElem?_eq_getElem hle)
      exact ⟨_, dybNextBool_of_rest hlt hr⟩)
    (fun b hb hlt h => by
      have hlen := h 1 rfl
      exact ⟨_, by rw [dybNextBool, bind_error (takeByte_fault (by omega))]⟩)

theorem dybNextTypdex_reads : Reads (dropValue dybNextTypdex) [.typdex] :=
  Reads.single
    (fun b n hlt hn hle => by
      obtain ⟨first, hf, rfl⟩ := Option.map_eq_some_iff.mp hn
      obtain ⟨r, hr⟩ := rest_of_getElem? hf
      have hlen := rest_length b
      rw [hr, List.length_cons] at hlen
      exact ⟨_, dybNextTypdex_of_rest hlt hr (by omega)⟩)
    (fun b hb hlt h => dybNextTypdex_fault hlt hb fun first r hr => by
      have hn := h (headerWidth first) (by simp [Primitive.need, getElem?_of_rest hr])
      have hlen := rest_length b
      rw [hr, List.length_cons] at hlen
      omega)

theorem dybNextVarU64_reads : Reads (dropValue dybNextVarU64) [.varInt] :=
  Reads.single
    (fun b n hlt hn hle => by
      obtain ⟨first, hf, rfl⟩ := Option.map_eq_some_iff.mp hn
      obtain ⟨r, hr⟩ := rest_of_getElem? hf
      have hlen := rest_length b
      rw [hr, List.length_cons] at hlen
      exact ⟨_, dybNextVarU64_of_rest hlt hr (by omega)⟩)
    (fun b hb hlt h => dybNextVarU64_fault hlt hb fun first r hr => by
      have hn := h (widthOf first) (by simp [Primitive.need, getElem?_of_rest hr])
      have hlen := rest_length b
      rw [hr, List.length_cons] at hlen
      omega)

theorem dybNextVarS64_reads : Reads (dropValue dybNextVarS64) [.varInt] := by
  have h : dropValue dybNextVarS64 = dropValue dybNextVarU64 := by
    rw [dybNextVarS64_eq]
    simp only [dropValue, bind_assoc, pure_bind]
  rw [h]
  exact dybNextVarU64_reads

theorem nextTagged_reads {α : Type} {value : DybM α} {ps : List Primitive}
    (h : Reads (dropValue value) ps) : Reads (dropValue (nextTagged value)) (.typdex :: ps) := by
  have hd := dybNextTypdex_reads.bind h
  simpa only [dropValue, nextTagged, bind_assoc, pure_bind, List.singleton_append] using hd

theorem NextCall.run_reads (c : NextCall) : Reads c.run c.parts := by
  cases c with
  | bool => exact dybNextBool_reads
  | u8 | u16 | u24 | u32 | u40 | u48 | u56 | u64 => exact takeUint_reads _
  | typdex => exact dybNextTypdex_reads
  | varU64 => exact dybNextVarU64_reads
  | varS64 => exact dybNextVarS64_reads
  | dypVersion | dypProtocolVersion | dypUint => exact nextTagged_reads dybNextVarU64_reads
  | dypInt => exact nextTagged_reads dybNextVarS64_reads
  | dypBool => exact nextTagged_reads dybNextBool_reads
  | dypEof => exact nextTagged_reads Reads.nil

theorem nextAll_reads (calls : List NextCall) :
    Reads (nextAll calls) (calls.flatMap NextCall.parts) := by
  induction calls with
  | nil => exact Reads.nil
  | cons c calls ih => exact c.run_reads.bind ih

theorem StaysBelow.of_le {b : Dybuf} {e : Nat} (hb : Placed b) (he : e ≤ b.limit) :
    StaysBelow b { b with position := e } where
  consumed _ _ hi := lt_of_lt_of_le hi he
  position_le := he
  remainder := uintSub_of_le he (lt_of_le_of_lt hb.limit_le hb.length_lt)

/-- A run of readers stays below the limit exactly when the widths that the
first bytes announce do. -/
theorem readsBelow_iff {b : Dybuf} (calls : List NextCall) (hb : Placed b) :
    ReadsBelow calls b ↔ (reach b.limit (calls.flatMap NextCall.parts) b).isSome := by
  have hlen := hb.position_le.trans hb.limit_le
  constructor
  · intro h
    obtain ⟨b', hrun, hstay⟩ := h calls (List.prefix_refl calls)
    cases hr : reach b.data.length (calls.flatMap NextCall.parts) b with
    | none =>
      obtain ⟨off, he⟩ := (nextAll_reads calls).fault b hlen hb.length_lt hr
      rw [hrun] at he
      cases he
    | some e =>
      have hok := (nextAll_reads calls).ok b e hlen hb.length_lt hr
      rw [hrun] at hok
      obtain rfl : b' = { b with position := e } := by simpa using hok
      rw [reach_rebound hr hstay.position_le, Option.isSome_some]
  · intro h before hbefore
    obtain ⟨after, rfl⟩ := hbefore
    obtain ⟨e, he⟩ := Option.isSome_iff_exists.mp h
    rw [List.flatMap_append] at he
    obtain ⟨m, hm, -⟩ := reach_append.mp he
    have hml := reach_le hm hb.position_le
    exact ⟨_, (nextAll_reads before).ok b m hlen hb.length_lt
      (reach_rebound hm (hml.trans hb.limit_le)), StaysBelow.of_le hb hml⟩

def window (data : List UInt8) (limit : Nat) : Dybuf :=
  { data := data, capacity := data.length, limit := limit, position := 0, mark := 0,
    fixedCapacity := true }

theorem readsBelow_iff_witness :
    ReadsBelow [.dypUint, .u8] (window [0x18, 0x80, 0x01, 0x07, 0x00] 4) ↔
      (reach 4 ([NextCall.dypUint, .u8].flatMap NextCall.parts)
        (window [0x18, 0x80, 0x01, 0x07, 0x00] 4)).isSome :=
  readsBelow_iff (b := window [0x18, 0x80, 0x01, 0x07, 0x00] 4) [.dypUint, .u8]
    ⟨by decide, by decide, by decide⟩

/-- A byte taken from a buffer that has none below its limit. -/
theorem not_readsBelow :
    ¬∀ (b : Dybuf) (calls : List NextCall), Placed b → ReadsBelow calls b := by
  intro h
  obtain ⟨b', hrun, hstay⟩ :=
    h (window [0] 0) [.u8] ⟨by decide, by decide, by decide⟩ _ (List.prefix_refl _)
  cases hrun
  exact absurd hstay.position_le (by decide)

end Reading

end LcClibs.Packet.Bounds
