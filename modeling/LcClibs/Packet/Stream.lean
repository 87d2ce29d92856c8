import Mathlib
import LcClibs.Packet.Dypkt

namespace LcClibs.Packet.Stream

open Platform Lib.BigEndian
open Buffer.Cursor Buffer.Next Buffer.Append Buffer.Typdex Buffer.VarInt Packet.Dypkt

section Model

inductive Item
  | eof
  | version (version : Nat)
  | protocol (name : List UInt8)
  | protocolVersion (version : Nat)
  | bool (index : Nat) (value : Bool)
  | int (index : Nat) (value : Int)
  | uint (index value : Nat)
  | float (index value : Nat)
  | double (index value : Nat)
  | cstring (index : Nat) (string : List UInt8)
  | data (index : Nat) (bs : List UInt8)
  deriving DecidableEq, Repr

variable (host : Host)

def Item.append : Item → DybM Unit
  | eof => dypAppendEof
  | version v => dypAppendVersion v
  | protocol name => dypAppendProtocol name
  | protocolVersion v => dypAppendProtocolVersion v
  | bool index value => dypAppendBool index value
  | int index value => dypAppendInt index value
  | uint index value => dypAppendUint index value
  | float index value => dypAppendFloat host index value
  | double index value => dypAppendDouble host index value
  | cstring index string => dypAppendCstring index string
  | data index bs => dypAppendData index bs

def appendItems : List Item → DybM Unit
  | [] => pure ()
  | i :: items => do
    i.append host
    appendItems items

/-- The reader for a reported type and, for a function, its index. None is an
item without a reader. -/
def nextValue (type index : Nat) : DybM (Option Item) := do
  if type = dypeF then
    if index = dypeFEof then
      dypNextEof
      return some .eof
    else if index = dypeFVersion then
      let v ← dypNextVersion
      return some (.version v)
    else if index = dypeFProtocol then
      let (name, _) ← dypNextProtocol
      let name ← cstringAt name
      return some (.protocol name)
    else if index = dypeFProtoVersion then
      let v ← dypNextProtocolVersion
      return some (.protocolVersion v)
    else
      return none
  else if type = dypeBool then
    let value ← dypNextBool
    return some (.bool index value)
  else if type = dypeInt then
    let value ← dypNextInt
    return some (.int index value)
  else if type = dypeUint then
    let value ← dypNextUint
    return some (.uint index value)
  else if type = dypeFloat then
    let value ← dypNextFloat host
    return some (.float index value)
  else if type = dypeDouble then
    let value ← dypNextDouble host
    return some (.double index value)
  else if type = dypeString then
    let (string, _) ← dypNextCstring
    let string ← cstringAt string
    return some (.cstring index string)
  else if type = dypeBytes then
    let (data, size) ← dypNextData
    let data ← dataAt data size
    return some (.data index data)
  else
    return none

def nextItem : DybM (Option Item) := do
  let (type, index) ← dypNextType
  nextValue host type index

def readItems : Nat → DybM (List Item)
  | 0 => pure []
  | fuel + 1 => do
    let b ← get
    if dypGetRemainder b = 0 then
      return []
    else
      match ← nextItem host with
      | none => return []
      | some item =>
        let items ← readItems fuel
        return item :: items

end Model

section Items

variable (host : Host)

def Item.type : Item → Nat
  | eof | version _ | protocol _ | protocolVersion _ => dypeF
  | bool _ _ => dypeBool
  | int _ _ => dypeInt
  | uint _ _ => dypeUint
  | float _ _ => dypeFloat
  | double _ _ => dypeDouble
  | cstring _ _ => dypeString
  | data _ _ => dypeBytes

def Item.index : Item → Nat
  | eof => dypeFEof
  | version _ => dypeFVersion
  | protocol _ => dypeFProtocol
  | protocolVersion _ => dypeFProtoVersion
  | bool index _ | int index _ | uint index _ | float index _ | double index _
  | cstring index _ | data index _ => index

def Item.value : Item → List UInt8
  | eof => []
  | version v | protocolVersion v | uint _ v => varBytes v
  | protocol string | cstring _ string => dataBytes (string ++ [0])
  | bool _ value => [if value then 1 else 0]
  | int _ value => varBytes (zigzag value)
  | float _ value => toBytes 4 (dybSwapU32 host value)
  | double _ value => toBytes 8 (dybSwapU64 host value)
  | data _ bs => dataBytes bs

def Item.bytes (i : Item) : List UInt8 := typdexBytes i.type i.index ++ i.value host

/-- The arguments are of their C types; a C string ends at its first NUL. -/
def Item.Typed : Item → Prop
  | eof => True
  | version v | protocolVersion v | uint _ v | double _ v => v < 2 ^ 64
  | protocol string | cstring _ string => 0 ∉ string
  | bool _ _ => True
  | int _ value => IsInt64 value
  | float _ value => value < 2 ^ 32
  | data _ bs => bs.length < 2 ^ 32

instance : (i : Item) → Decidable i.Typed
  | .eof | .bool _ _ => inferInstanceAs (Decidable True)
  | .version v | .protocolVersion v | .uint _ v | .double _ v =>
    inferInstanceAs (Decidable (v < 2 ^ 64))
  | .protocol string | .cstring _ string => inferInstanceAs (Decidable (0 ∉ string))
  | .int _ value => inferInstanceAs (Decidable (-2 ^ 63 ≤ value ∧ value < 2 ^ 63))
  | .float _ value => inferInstanceAs (Decidable (value < 2 ^ 32))
  | .data _ bs => inferInstanceAs (Decidable (bs.length < 2 ^ 32))

/-- A sequence of well-typed items whose indices fit the header. -/
structure ItemSeq where
  items : List Item
  typed : ∀ i ∈ items, i.Typed
  index_le : ∀ i ∈ items, i.index ≤ 0xFFFFF

def ItemSeq.bytes (p : ItemSeq) : List UInt8 := p.items.flatMap (Item.bytes host)

theorem Item.type_le (i : Item) : i.type ≤ 0xFF := by
  cases i <;> simp only [type] <;> decide

theorem Item.append_writes {i : Item} (h : (i.bytes host).length < 2 ^ 32) :
    Writes (i.append host) () (i.bytes host) := by
  have hv : (i.value host).length < 2 ^ 32 := by
    rw [Item.bytes, List.length_append] at h
    omega
  cases i with
  | eof => exact appendTagged_writes (Writes.nothing ())
  | version v | protocolVersion v | uint _ v =>
    exact appendTagged_writes (dybAppendVarU64_writes v)
  | protocol string | cstring _ string =>
    rw [Item.value, dataBytes, List.length_append, List.length_append, List.length_singleton] at hv
    exact appendTagged_writes (dybAppendCstringWithVarLen_writes (by omega))
  | bool _ value => exact appendTagged_writes (dybAppendBool_writes value)
  | int _ value => exact appendTagged_writes (dybAppendVarS64_writes value)
  | float _ value => exact appendTagged_writes (appendUint_writes 4 _)
  | double _ value => exact appendTagged_writes (appendUint_writes 8 _)
  | data _ bs =>
    rw [Item.value, dataBytes, List.length_append] at hv
    exact appendTagged_writes (dybAppendDataWithVarLen_writes (by omega))

theorem appendItems_writes {items : List Item}
    (h : (items.flatMap (Item.bytes host)).length < 2 ^ 32) :
    Writes (appendItems host items) () (items.flatMap (Item.bytes host)) := by
  induction items with
  | nil => exact Writes.nothing ()
  | cons i items ih =>
    rw [List.flatMap_cons, List.length_append] at h
    exact (Item.append_writes host (by omega)).bind (ih (by omega))

end Items

section Reading

variable {host : Host} {b : Dybuf} {r : List UInt8}

theorem cstring_bytes {string : List UInt8} (hlt : b.data.length < 2 ^ 32)
    (hlim : b.limit < 2 ^ 32) (h0 : 0 ∉ string) (h : rest b = dataBytes (string ++ [0]) ++ r)
    (hfit : b.position + (dataBytes (string ++ [0])).length ≤ b.limit) :
    ∃ off size, dybNextCstringWithVarLen b =
        .ok ((some off, size), advance (dataBytes (string ++ [0])).length b) ∧
      ∀ b', b'.data = b.data → cstringAt (some off) b' = .ok (string, b') := by
  refine ⟨_, _, dybNextCstringWithVarLen_bytes hlt hlim h hfit, fun b' hb' => ?_⟩
  rw [dataBytes, List.append_assoc, List.length_append, List.length_singleton] at h
  have hr := rest_advance h
  rw [List.append_assoc, List.singleton_append] at hr
  rw [rest, advance_data, ← hb'] at hr
  exact cstringAt_some hr h0

theorem data_bytes {bs : List UInt8} (hlt : b.data.length < 2 ^ 32)
    (hlim : b.limit < 2 ^ 32) (h : rest b = dataBytes bs ++ r)
    (hfit : b.position + (dataBytes bs).length ≤ b.limit) :
    ∃ ptr, dybNextDataWithVarLen b =
        .ok ((ptr, bs.length), advance (dataBytes bs).length b) ∧
      ∀ b', b'.data = b.data → dataAt ptr bs.length b' = .ok (bs, b') := by
  refine ⟨_, dybNextDataWithVarLen_bytes hlt hlim h hfit, fun b' hb' => ?_⟩
  by_cases he : bs = []
  · rw [if_pos he, he]
    rfl
  · rw [dataBytes, List.append_assoc] at h
    have hr := rest_advance h
    rw [rest, advance_data, ← hb'] at hr
    rw [if_neg he]
    exact dataAt_some hr

theorem nextItem_bytes {i : Item} (ht : i.Typed) (hi : i.index ≤ 0xFFFFF)
    (hlt : b.data.length < 2 ^ 32) (hlim : b.limit < 2 ^ 32)
    (h : rest b = i.bytes host ++ r) (hfit : b.position + (i.bytes host).length ≤ b.limit) :
    nextItem host b = .ok (some i, advance (i.bytes host).length b) := by
  have hfits : typdexFits i.type i.index := ⟨i.type_le, hi⟩
  rw [Item.bytes, List.append_assoc] at h
  rw [Item.bytes, List.length_append] at hfit
  have hr := rest_advance h
  have htag : ∀ {α : Type} {value : DybM α} {a : α},
      value (advance (typdexBytes i.type i.index).length b) = .ok (a, advance
        (i.value host).length (advance (typdexBytes i.type i.index).length b)) →
      nextTagged value b = .ok (a, advance (i.bytes host).length b) := fun hv => by
    rw [nextTagged_bytes hlt hfits h hv, advance_advance, Item.bytes, List.length_append]
  rw [nextItem, dypNextType, bind_ok (dybPeekTypdex_bytes hlt hfits h)]
  have hfit1 : (advance (typdexBytes i.type i.index).length b).position +
      (i.value host).length ≤ b.limit := by
    rw [advance_position]
    omega
  cases i with
  | eof =>
    have hn : dypNextEof b = _ := htag rfl
    exact bind_ok (f := fun _ => pure (some Item.eof)) hn
  | version v =>
    have hn : dypNextVersion b = _ := htag (dybNextVarU64_bytes hlt ht hr)
    exact bind_ok (f := fun v => pure (some (Item.version v))) hn
  | protocol name =>
    obtain ⟨off, size, hc, hs⟩ :=
      cstring_bytes (b := advance (typdexBytes dypeF dypeFProtocol).length b) hlt hlim ht hr hfit1
    have hn : dypNextProtocol b = _ := htag hc
    exact (bind_ok (f := fun p => do
      let name ← cstringAt p.1
      return some (Item.protocol name)) hn).trans
      (bind_ok (hs (advance (Item.bytes host (.protocol name)).length b) rfl))
  | protocolVersion v =>
    have hn : dypNextProtocolVersion b = _ := htag (dybNextVarU64_bytes hlt ht hr)
    exact bind_ok (f := fun v => pure (some (Item.protocolVersion v))) hn
  | bool index value =>
    have hbool : dybNextBool (advance (typdexBytes dypeBool index).length b) = .ok (value, advance 1
        (advance (typdexBytes dypeBool index).length b)) := by
      have hv := dybNextBool_of_rest (b := advance (typdexBytes dypeBool index).length b) hlt hr
      cases value <;> exact hv
    have hn : dypNextBool b = _ := htag hbool
    exact bind_ok (f := fun value => pure (some (Item.bool index value))) hn
  | int index value =>
    have hn : dypNextInt b = _ := htag (dybNextVarS64_bytes hlt ht hr)
    exact bind_ok (f := fun value => pure (some (Item.int index value))) hn
  | uint index value =>
    have hn : dypNextUint b = _ := htag (dybNextVarU64_bytes hlt ht hr)
    exact bind_ok (f := fun value => pure (some (Item.uint index value))) hn
  | float index value =>
    have hf : dybNextFloat host (advance (typdexBytes dypeFloat index).length b) = _ :=
      dybNextFloat_bytes hlt ht hr
    have hn : dypNextFloat host b = _ := htag (by rw [Item.value, toBytes_length]; exact hf)
    exact bind_ok (f := fun value => pure (some (Item.float index value))) hn
  | double index value =>
    have hf : dybNextDouble host (advance (typdexBytes dypeDouble index).length b) = _ :=
      dybNextDouble_bytes hlt ht hr
    have hn : dypNextDouble host b = _ := htag (by rw [Item.value, toBytes_length]; exact hf)
    exact bind_ok (f := fun value => pure (some (Item.double index value))) hn
  | cstring index string =>
    obtain ⟨off, size, hc, hs⟩ :=
      cstring_bytes (b := advance (typdexBytes dypeString index).length b) hlt hlim ht hr hfit1
    have hn : dypNextCstring b = _ := htag hc
    exact (bind_ok (f := fun p => do
      let string ← cstringAt p.1
      return some (Item.cstring index string)) hn).trans
      (bind_ok (hs (advance (Item.bytes host (.cstring index string)).length b) rfl))
  | data index bs =>
    obtain ⟨ptr, hc, hs⟩ :=
      data_bytes (b := advance (typdexBytes dypeBytes index).length b) hlt hlim hr hfit1
    have hn : dypNextData b = _ := htag hc
    exact (bind_ok (f := fun p => do
      let data ← dataAt p.1 p.2
      return some (Item.data index data)) hn).trans
      (bind_ok (hs (advance (Item.bytes host (.data index bs)).length b) rfl))

theorem Item.bytes_pos {i : Item} (hi : i.index ≤ 0xFFFFF) : 0 < (i.bytes host).length := by
  have h := List.length_pos_iff.mpr (typdexBytes_ne_nil ⟨i.type_le, hi⟩)
  rw [Item.bytes, List.length_append]
  omega

theorem dypGetRemainder_of_fit {n : Nat} (hlim : b.limit < 2 ^ 32)
    (h : b.position + n = b.limit) : dypGetRemainder b = n := by
  have hs : uintSub b.limit b.position = b.limit - b.position := uintSub_of_le (by omega) hlim
  rw [dypGetRemainder, dybGetRemainder, hs]
  omega

theorem readItems_bytes {items : List Item} {fuel : Nat} (hf : items.length < fuel)
    (ht : ∀ i ∈ items, i.Typed) (hi : ∀ i ∈ items, i.index ≤ 0xFFFFF)
    (hlt : b.data.length < 2 ^ 32) (hlim : b.limit < 2 ^ 32)
    (h : rest b = items.flatMap (Item.bytes host) ++ r)
    (hfit : b.position + (items.flatMap (Item.bytes host)).length = b.limit) :
    readItems host fuel b =
      .ok (items, advance (items.flatMap (Item.bytes host)).length b) := by
  induction items generalizing fuel b with
  | nil =>
    cases fuel with
    | zero => omega
    | succ fuel =>
      have hrem : dypGetRemainder b = 0 := dypGetRemainder_of_fit hlim hfit
      rw [readItems, get_bind, if_pos hrem]
      rfl
  | cons i items ih =>
    cases fuel with
    | zero => omega
    | succ fuel =>
      have hpos : 0 < (i.bytes host).length := Item.bytes_pos (hi i List.mem_cons_self)
      rw [List.flatMap_cons, List.append_assoc] at h
      rw [List.flatMap_cons, List.length_append] at hfit
      rw [List.length_cons] at hf
      have hrem := dypGetRemainder_of_fit hlim hfit
      have hitem := nextItem_bytes (ht i List.mem_cons_self) (hi i List.mem_cons_self) hlt hlim h
        (by omega)
      have hitems : readItems host fuel (advance (i.bytes host).length b) = _ := ih (by omega)
        (fun j hj => ht j (List.mem_cons_of_mem _ hj))
        (fun j hj => hi j (List.mem_cons_of_mem _ hj)) hlt hlim (rest_advance h)
        (by simp only [advance_position, advance_limit]; omega)
      rw [readItems, get_bind, if_neg (by omega), bind_ok hitem]
      simp only [bind_ok hitems, pure_apply, advance_advance, List.flatMap_cons,
        List.length_append]

end Reading

section RoundTrip

/-- What the packet `dyp` starts as when it is made to receive `n` bytes: a growable
packet, or a referenced memory large enough. -/
inductive Receives (n : Nat) : Dybuf → Prop
  | growable (capacity : Nat) (h : capacity < 2 ^ 32) : Receives n (dypPack none capacity)
  | referenced (memory : List UInt8) (h : memory.length < 2 ^ 32) (hn : n ≤ memory.length) :
      Receives n (dypPack (some memory) memory.length)

/-- The items appended to a packet are read again from exactly its bytes. -/
def RoundTrips (host : Host) (items : List Item) (dyp : Dybuf) : Prop :=
  ∃ dyp', appendItems host items dyp = .ok ((), dyp') ∧ ∀ clone, ∃ u,
    dypUnpack (some (dyp'.data.take (dypGetPosition dyp'))) (dypGetPosition dyp') clone = some u ∧
    ∀ fuel, items.length < fuel → ∃ u', readItems host fuel u = .ok (items, u') ∧
      dypGetRemainder u' = 0 ∧ dypGetPosition u' = dypGetPosition dyp'

theorem Receives.start {n : Nat} {dyp : Dybuf} (h : Receives n dyp) :
    dyp.Ok ∧ dyp.position = 0 ∧ (dyp.fixedCapacity = true → n ≤ dyp.capacity) := by
  cases h with
  | growable capacity h =>
    refine ⟨?_, rfl, fun hf => by cases hf⟩
    have hm : dybMemAlloc capacity true < 2 ^ 32 := by
      simp only [dybMemAlloc, if_true, cacheSizeUnit]
      omega
    exact
      { mark_le := le_rfl
        position_le := le_rfl
        limit_le := Nat.zero_le _
        length_eq := List.length_replicate
        capacity_lt := hm }
  | referenced memory h hn =>
    refine ⟨?_, rfl, fun _ => hn⟩
    exact
      { mark_le := le_rfl
        position_le := le_rfl
        limit_le := Nat.zero_le _
        length_eq := rfl
        capacity_lt := h }

/-- Unpacking a byte string, copied or not, makes it what is left to read. -/
theorem dypUnpack_some {bs : List UInt8} (h : bs.length < 2 ^ 32) (clone : Bool) :
    ∃ u zs, dypUnpack (some bs) bs.length clone = some u ∧ rest u = bs ++ zs ∧ u.position = 0 ∧
      u.limit = bs.length ∧ u.data.length < 2 ^ 32 := by
  cases clone with
  | false => exact ⟨_, [], rfl, by simp [rest], rfl, rfl, h⟩
  | true =>
    refine ⟨_, _, rfl, by simp [rest, dybCopy]; rfl, rfl, rfl, ?_⟩
    simp only [dybCopy, Bool.false_eq_true, if_false, dybMemAlloc, if_true, List.take_length,
      List.length_append, List.length_replicate, cacheSizeUnit]
    omega

theorem roundTrips (host : Host) (p : ItemSeq) {dyp : Dybuf}
    (hsize : (p.bytes host).length < 2 ^ 32) (h : Receives (p.bytes host).length dyp) :
    RoundTrips host p.items dyp := by
  obtain ⟨hok, hp, hcap⟩ := h.start
  obtain ⟨dyp', hrun, happ⟩ := (appendItems_writes host hsize).ok dyp hok
    ⟨by rw [hp, Nat.zero_add]; exact hsize, by rw [hp, Nat.zero_add]; exact hcap⟩
  have hpos : dyp'.position = (p.bytes host).length := by
    rw [happ.position_eq, hp, Nat.zero_add]
    rfl
  have hdata : dyp'.data.take dyp'.position = p.bytes host := by
    rw [happ.written, hp, List.take_zero, List.nil_append]
    rfl
  refine ⟨dyp', hrun, fun clone => ?_⟩
  rw [dypGetPosition, hdata, hpos]
  obtain ⟨u, zs, hu, hrest, hu0, hul, hud⟩ := dypUnpack_some hsize clone
  refine ⟨u, hu, fun fuel hf => ⟨_, readItems_bytes hf p.typed p.index_le hud (by omega) hrest
    (by rw [hu0, hul, Nat.zero_add]; rfl), ?_, ?_⟩⟩
  · refine dypGetRemainder_of_fit (by rw [advance_limit]; omega) ?_
    rw [advance_position, advance_limit, hu0, hul, Nat.zero_add]
    rfl
  · rw [dypGetPosition, advance_position, hu0, Nat.zero_add]
    rfl

def sample : ItemSeq where
  items := [.uint 9 0x80, .eof]
  typed := by decide
  index_le := by decide

theorem roundTrips_sample : RoundTrips .little sample.items (dypPack (some [0, 0, 0, 0, 0]) 5) :=
  roundTrips .little sample (by decide) (.referenced [0, 0, 0, 0, 0] (by decide) (by decide))

def longData : ItemSeq where
  items := [.data 0 (List.replicate (2 ^ 32 - 1) 0)]
  typed i hi := by
    obtain rfl := List.mem_singleton.mp hi
    simp only [Item.Typed, List.length_replicate]
    omega
  index_le i hi := by
    obtain rfl := List.mem_singleton.mp hi
    exact Nat.zero_le _

/-- Its end lies past the largest `uint`, so that even a growable packet does not
receive it. -/
theorem not_roundTrips :
    ¬∀ (host : Host) (p : ItemSeq) (dyp : Dybuf), Receives (p.bytes host).length dyp →
      RoundTrips host p.items dyp := by
  intro h
  have hrec : Receives (longData.bytes .little).length (dypPack none 0) := .growable 0 (by decide)
  obtain ⟨dyp', hrun, -⟩ := h .little longData _ hrec
  have hn : (List.replicate (2 ^ 32 - 1) (0 : UInt8)).length = 2 ^ 32 - 1 := List.length_replicate
  generalize hl : List.replicate (2 ^ 32 - 1) (0 : UInt8) = bs at hn
  obtain ⟨hok, hp, -⟩ := hrec.start
  -- the header and the count go through and leave the position past zero
  have hw := (dybAppendTypdex_writes dypeBytes 0).bind
    (f := fun _ => dybAppendVarU64 (uint bs.length)) (dybAppendVarU64_writes _)
  have hlt64 : uint bs.length < 2 ^ 64 := (uint_lt _).trans (by decide)
  have hv := varBytes_length hlt64
  have ht : (typdexBytes dypeBytes 0).length = 1 := by decide
  obtain ⟨b1, h1, ha⟩ := hw.ok (dypPack none 0) hok
    ⟨by rw [hp, List.length_append]; omega, fun hf => by cases hf⟩
  have hpos := ha.position_eq
  rw [hp, List.length_append] at hpos
  have hwraps : ∃ off, dybAppendDataWithoutLen bs b1 = .error (.writeOutside off) :=
    dybAppendDataWithoutLen_wraps ha.ok (by omega) (by omega)
  obtain ⟨off, hbad⟩ := hwraps
  have hitem :
      appendItems .little longData.items (dypPack none 0) = .error (.writeOutside off) := by
    have hitems : longData.items = [.data 0 bs] := by rw [← hl, longData]
    have hparts : dypAppendData 0 bs = ((dybAppendTypdex dypeBytes 0 >>= fun _ =>
        dybAppendVarU64 (uint bs.length)) >>= fun _ => dybAppendDataWithoutLen bs) := by
      simp only [dypAppendData, appendTagged, dybAppendDataWithVarLen, bind_assoc]
    rw [hitems]
    refine bind_error (x := dypAppendData 0 bs) ?_
    rw [hparts, bind_ok h1, hbad]
  rw [hrun] at hitem
  cases hitem

end RoundTrip

end LcClibs.Packet.Stream
