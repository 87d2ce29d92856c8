import Mathlib
import LcClibs.Buffer.Typdex
import LcClibs.Buffer.VarInt

namespace LcClibs.Buffer.ReadBack

open Platform Lib.BigEndian Lib.PrefixCode
open Buffer.Cursor Buffer.Next Buffer.Append Buffer.Typdex Buffer.VarInt

def back (p : Nat) (b : Dybuf) : Dybuf := { b with position := p }

section Places

variable {b b' : Dybuf} {e : List UInt8}

theorem rest_back (h : Appended b e b') (hok : b.Ok) :
    rest (back b.position b') = e ++ rest b' := by
  have hp := hok.position_le.trans (hok.limit_le.trans hok.length_eq.ge)
  have hl : (b.data.take b.position).length = b.position := List.length_take_of_le hp
  calc b'.data.drop b.position
      = (b'.data.take b'.position ++ b'.data.drop b'.position).drop b.position := by
        rw [List.take_append_drop]
    _ = (b.data.take b.position ++ (e ++ rest b')).drop b.position := by
        rw [h.written, List.append_assoc, rest]
    _ = e ++ rest b' := List.drop_left' hl

theorem advance_back (h : Appended b e b') :
    advance e.length (back b.position b') = b' := by
  rw [advance, back, ← h.position_eq]

theorem appended_length_lt (h : Appended b e b') : b'.data.length < 2 ^ 32 :=
  h.ok.length_eq.trans_lt h.ok.capacity_lt

def fullBuffer : Dybuf :=
  { data := List.replicate 4294967295 0, capacity := 4294967295, limit := 4294967295,
    position := 4294967295, mark := 0, fixedCapacity := false }

theorem fullBuffer_ok : fullBuffer.Ok where
  mark_le := Nat.zero_le _
  position_le := le_rfl
  limit_le := le_rfl
  length_eq := by simp only [fullBuffer, List.length_replicate]
  capacity_lt := by simp only [fullBuffer]; omega

theorem fullBuffer_not_room {n : Nat} (h : 1 ≤ n) : ¬Room fullBuffer n := fun hroom => by
  have h1 := hroom.1
  simp only [fullBuffer] at h1
  omega

theorem room_iff {n : Nat} (hf : b.fixedCapacity = false) :
    Room b n ↔ b.position + n < 2 ^ 32 :=
  ⟨And.left, fun h => ⟨h, fun ht => by rw [hf] at ht; cases ht⟩⟩

end Places

section Numbers

/-- An append that writes one to `most` bytes, after which the readers do as they should
on those bytes: here, and in any other memory that goes on in any way after them. -/
def ReadsBack {α : Type} (append : DybM α) (answer : α) (most : Nat)
    (reads : Dybuf → Dybuf → Prop) (b : Dybuf) : Prop :=
  ∃ e b', append b = .ok (answer, b') ∧ Appended b e b' ∧ 1 ≤ e.length ∧ e.length ≤ most ∧
    reads (back b.position b') b' ∧
    ∀ c r, c.data.length < 2 ^ 32 → rest c = e ++ r → reads c (advance e.length c)

variable {α : Type} {append : DybM α} {answer : α} {most : Nat} {reads : Dybuf → Dybuf → Prop}
  {b : Dybuf} {e : List UInt8}

theorem readsBack_iff (hw : Writes append answer e) (h1 : 1 ≤ e.length) (hm : e.length ≤ most)
    (hr : ∀ c r, c.data.length < 2 ^ 32 → rest c = e ++ r → reads c (advance e.length c))
    (hok : b.Ok) (hf : b.fixedCapacity = false) :
    ReadsBack append answer most reads b ↔ b.position + e.length < 2 ^ 32 := by
  rw [← room_iff hf]
  constructor
  · rintro ⟨-, b', hrun, -⟩
    by_contra hroom
    obtain ⟨off, herr⟩ := hw.fault b hok hroom
    rw [hrun] at herr
    cases herr
  · intro hroom
    obtain ⟨b', hrun, ha⟩ := hw.ok b hok hroom
    refine ⟨e, b', hrun, ha, h1, hm, ?_, hr⟩
    have hlt := appended_length_lt ha
    have hback := hr (back b.position b') (rest b') hlt (rest_back ha hok)
    rwa [advance_back ha] at hback

def varWidth (value : Nat) : Nat :=
  if value ≤ 0x7F then 1
  else if value ≤ 0x3FFF + 0x80 then 2
  else if value ≤ 0x1FFFFF + 0x4080 then 3
  else if value ≤ 0x0FFFFFFF + 0x204080 then 4
  else if value ≤ 0x07FFFFFFFF + 0x10204080 then 5
  else if value ≤ 0x03FFFFFFFFFF + 0x0810204080 then 6
  else if value ≤ 0x01FFFFFFFFFFFF + 0x040810204080 then 7
  else if value ≤ 0x00FFFFFFFFFFFFFF + 0x02040810204080 then 8
  else 9

theorem varBytes_length_eq (value : Nat) : (varBytes value).length = varWidth value := by
  unfold varBytes varWidth
  split_ifs <;> simp only [code_length, List.length_cons, toBytes_length]

def takes {α : Type} (next : DybM α) (value : α) (c c' : Dybuf) : Prop := next c = .ok (value, c')

def VarU64ReadsBack (value : Nat) (b : Dybuf) : Prop :=
  ReadsBack (dybAppendVarU64 value) () 9 (takes dybNextVarU64 value) b

def VarS64ReadsBack (value : Int) (b : Dybuf) : Prop :=
  ReadsBack (dybAppendVarS64 value) () 9 (takes dybNextVarS64 value) b

/-- Variable integers come back as they were written wherever the end of their bytes
is a `uint`. -/
theorem varReadsBack_iff (hok : b.Ok) (hf : b.fixedCapacity = false) :
    (∀ value < 2 ^ 64, VarU64ReadsBack value b ↔ b.position + varWidth value < 2 ^ 32) ∧
    ∀ value, IsInt64 value →
      (VarS64ReadsBack value b ↔ b.position + varWidth (zigzag value) < 2 ^ 32) := by
  constructor
  · intro value hv
    obtain ⟨h1, h9⟩ := varBytes_length hv
    rw [← varBytes_length_eq]
    exact readsBack_iff (dybAppendVarU64_writes value) h1 h9
      (fun c r hlt h => dybNextVarU64_bytes hlt hv h) hok hf
  · intro value hv
    obtain ⟨h1, h9⟩ := varBytes_length (zigzag_lt hv)
    rw [← varBytes_length_eq]
    exact readsBack_iff (dybAppendVarS64_writes value) h1 h9
      (fun c r hlt h => dybNextVarS64_bytes hlt hv h) hok hf

def midBuffer : Dybuf :=
  { data := [9, 9, 7, 7], capacity := 4, limit := 3, position := 2, mark := 1,
    fixedCapacity := false }

theorem midBuffer_ok : midBuffer.Ok where
  mark_le := by decide
  position_le := by decide
  limit_le := by decide
  length_eq := rfl
  capacity_lt := by decide

theorem varReadsBack_midBuffer :
    (∀ value < 2 ^ 64, VarU64ReadsBack value midBuffer ↔
      midBuffer.position + varWidth value < 2 ^ 32) ∧
    ∀ value, IsInt64 value → (VarS64ReadsBack value midBuffer ↔
      midBuffer.position + varWidth (zigzag value) < 2 ^ 32) :=
  varReadsBack_iff midBuffer_ok rfl

/-- A byte appended to the full buffer. -/
theorem not_varReadsBack :
    ¬∀ (b : Dybuf) (value : Nat), b.Ok → b.fixedCapacity = false → value < 2 ^ 64 →
      VarU64ReadsBack value b := by
  intro h
  obtain ⟨e, b', hrun, -⟩ := h fullBuffer 7 fullBuffer_ok rfl (by decide)
  obtain ⟨off, herr⟩ := (dybAppendVarU64_writes 7).fault fullBuffer fullBuffer_ok
    (fullBuffer_not_room (by decide))
  rw [hrun] at herr
  cases herr

end Numbers

section Headers

variable {b : Dybuf} {type index : Nat}

/-- Both header readers report the pair, and only one of them moves. -/
def takesHeader (type index : Nat) (c c' : Dybuf) : Prop :=
  dybPeekTypdex c = .ok ((type, index), c) ∧ dybNextTypdex c = .ok ((type, index), c')

/-- A header comes back as it was written, or is refused with nothing done. -/
def HeaderReadsBack (type index : Nat) (b : Dybuf) : Prop :=
  (index ≤ 0xFFFFF →
    ReadsBack (dybAppendTypdex type index) true 4 (takesHeader type index) b) ∧
  (0xFFFFF < index → dybAppendTypdex type index b = .ok (false, b))

/-- The two header readers report the same of any memory, and the one that moves does so
unless the first byte begins no header. -/
def HeadersAgree (c : Dybuf) : Prop :=
  (∃ pair c', dybPeekTypdex c = .ok (pair, c) ∧ dybNextTypdex c = .ok (pair, c') ∧
    (c.position < c'.position ∨ ∃ first, c.data[c.position]? = some first ∧ 0xF0 ≤ first.toNat)) ∨
  (∃ off off', dybPeekTypdex c = .error (.readOutside off) ∧
    dybNextTypdex c = .error (.readOutside off'))

theorem headerReadsBack_iff (hok : b.Ok) (hf : b.fixedCapacity = false) (ht : type ≤ 0xFF) :
    HeaderReadsBack type index b ↔
      (index ≤ 0xFFFFF → b.position + (typdexCode type index).1 < 2 ^ 32) := by
  have hfits : index ≤ 0xFFFFF → (ReadsBack (dybAppendTypdex type index) true 4
      (takesHeader type index) b ↔ b.position + (typdexCode type index).1 < 2 ^ 32) := by
    intro hi
    have hfit : typdexFits type index := ⟨ht, hi⟩
    obtain ⟨h1, h4⟩ := typdexCode_width type index
    have hlen := typdexBytes_length hfit
    have hw := dybAppendTypdex_writes type index
    rw [decide_eq_true hfit] at hw
    rw [← hlen]
    exact readsBack_iff hw (by omega) (by omega)
      (fun c r hlt h => ⟨dybPeekTypdex_bytes hlt hfit h, dybNextTypdex_bytes hlt hfit h⟩) hok hf
  constructor
  · exact fun h hi => (hfits hi).mp (h.1 hi)
  · refine fun h => ⟨fun hi => (hfits hi).mpr (h hi), fun hi => ?_⟩
    have hunfit : ¬typdexFits type index := fun hfit => by
      have := hfit.2
      omega
    rw [dybAppendTypdex_unfit hunfit, pure_apply]

theorem headerWidth_eq_zero {first : UInt8} (h : headerWidth first = 0) : 0xF0 ≤ first.toNat := by
  unfold headerWidth widthOf at h
  split_ifs at h <;> omega

theorem headersAgree {c : Dybuf} (hlt : c.data.length < 2 ^ 32)
    (hp : c.position ≤ c.data.length) : HeadersAgree c := by
  by_cases hin : ∃ first r, rest c = first :: r ∧ headerWidth first ≤ r.length + 1
  · obtain ⟨first, r, hr, hw⟩ := hin
    refine .inl ⟨_, _, dybPeekTypdex_of_rest hlt hr hw, dybNextTypdex_of_rest hlt hr hw, ?_⟩
    by_cases h0 : headerWidth first = 0
    · have hget := getElem?_position c 0
      rw [Nat.add_zero, hr] at hget
      exact .inr ⟨first, hget, headerWidth_eq_zero h0⟩
    · refine .inl ?_
      rw [advance_position]
      omega
  · have hshort : ∀ first r, rest c = first :: r → r.length + 1 < headerWidth first := by
      intro first r hr
      by_contra hle
      exact hin ⟨first, r, hr, not_lt.mp hle⟩
    obtain ⟨off, hpeek⟩ := dybPeekTypdex_fault hlt hp hshort
    obtain ⟨off', hnext⟩ := dybNextTypdex_fault hlt hp hshort
    exact .inr ⟨off, off', hpeek, hnext⟩

/-- Headers come back as they were written wherever the end of their bytes is a `uint`,
and both readers agree on whatever they are given. -/
theorem headerCodec_iff (hok : b.Ok) (hf : b.fixedCapacity = false) (ht : type ≤ 0xFF) :
    (HeaderReadsBack type index b ↔
      (index ≤ 0xFFFFF → b.position + (typdexCode type index).1 < 2 ^ 32)) ∧
    ∀ c : Dybuf, c.data.length < 2 ^ 32 → c.position ≤ c.data.length → HeadersAgree c :=
  ⟨headerReadsBack_iff hok hf ht, fun _ hlt hp => headersAgree hlt hp⟩

theorem headerCodec_midBuffer :
    HeaderReadsBack 3 300 midBuffer ↔
      (300 ≤ 0xFFFFF → midBuffer.position + (typdexCode 3 300).1 < 2 ^ 32) :=
  (headerCodec_iff midBuffer_ok rfl (show 3 ≤ 0xFF by decide)).1

/-- A header appended to the full buffer. -/
theorem not_headerCodec :
    ¬∀ (b : Dybuf) (type index : Nat), b.Ok → b.fixedCapacity = false → type ≤ 0xFF →
      index < 2 ^ 32 → HeaderReadsBack type index b := by
  intro h
  have hback := (h fullBuffer 3 1 fullBuffer_ok rfl (by decide) (by decide)).1 (by decide)
  obtain ⟨e, b', hrun, -⟩ := hback
  obtain ⟨off, herr⟩ := (dybAppendTypdex_writes 3 1).fault fullBuffer fullBuffer_ok
    (fullBuffer_not_room (by decide))
  rw [hrun] at herr
  cases herr

end Headers

section Data

variable {b : Dybuf} {data sent : List UInt8}

def returned (append : DybM Unit) : DybM Bool := do
  append
  return true

/-- What a reader of data returns: whether the pointer is null, the bytes it points to and
how many there are. -/
def readData (next : DybM (Option Nat × Nat)) : DybM (Bool × List UInt8 × Nat) := do
  let (data, size) ← next
  let bytes ← dataAt data size
  return (data.isNone, bytes, size)

/-- Data that is either read back whole or refused with nothing done. -/
def DataComesBack (append : List UInt8 → DybM Unit) (next : DybM (Option Nat × Nat))
    (data : List UInt8) (b : Dybuf) : Prop :=
  ∃ answer b', returned (append data) b = .ok (answer, b') ∧
    (answer = false ∧ b' = b ∨ answer = true ∧
      readData next (back b.position b') = .ok ((data.isEmpty, data, data.length), b'))

theorem readData_counted {next : DybM (Option Nat × Nat)} {c : Dybuf} {k : Nat}
    {r : List UInt8} (hlim : c.limit < 2 ^ 32)
    (hnext : next c = (do
      let ptr ← dybNextDataWithoutLen sent.length
      return (ptr, sent.length)) (advance k c))
    (h : rest (advance k c) = sent ++ r) (hfit : c.position + k + sent.length ≤ c.limit) :
    readData next c =
      .ok ((sent.isEmpty, sent, sent.length), advance (k + sent.length) c) := by
  cases sent with
  | nil =>
    have hread : next c = .ok ((none, 0), advance k c) := by
      rw [hnext, List.length_nil, bind_ok (dybNextDataWithoutLen_none (.inl rfl)), pure_apply]
    rw [readData, bind_ok hread]
    rfl
  | cons v e =>
    have hpos : 0 < (v :: e).length := Nat.succ_pos _
    have hd := dybNextDataWithoutLen_some (b := advance k c) hpos
      (by rw [advance_position]; exact hfit) hlim
    have hread : next c = .ok ((some (c.position + k), (v :: e).length),
        advance (v :: e).length (advance k c)) := by
      rw [hnext, bind_ok hd, pure_apply, advance_position]
    have hat : dataAt (some (c.position + k)) (v :: e).length
        (advance (v :: e).length (advance k c)) = .ok (v :: e, _) := dataAt_some h
    rw [readData, bind_ok hread, ← advance_advance]
    exact bind_ok hat

/-- Data comes back exactly when all of it was sent and there was room for it. -/
theorem dataComesBack_iff {append : List UInt8 → DybM Unit} {next : DybM (Option Nat × Nat)}
    {head : List UInt8} (hw : Writes (append data) () (head ++ sent))
    (hr : ∀ c r, c.data.length < 2 ^ 32 → c.limit < 2 ^ 32 → rest c = head ++ (sent ++ r) →
      next c = (do
        let ptr ← dybNextDataWithoutLen sent.length
        return (ptr, sent.length)) (advance head.length c))
    (hok : b.Ok) (hf : b.fixedCapacity = false) :
    DataComesBack append next data b ↔
      sent = data ∧ b.position + (head.length + sent.length) < 2 ^ 32 := by
  rw [← List.length_append, ← room_iff hf]
  -- what the reader returns after an append that fits
  have hread : ∀ b', Appended b (head ++ sent) b' → readData next (back b.position b') =
      .ok ((sent.isEmpty, sent, sent.length), b') := by
    intro b' ha
    have hlt := appended_length_lt ha
    have hrest := rest_back ha hok
    rw [List.append_assoc] at hrest
    have hlim : b'.limit < 2 ^ 32 := ha.ok.limit_le.trans_lt ha.ok.capacity_lt
    have hfit : b.position + head.length + sent.length ≤ b'.limit := by
      rw [ha.limit_eq, List.length_append]
      omega
    have hnext := hr (back b.position b') (rest b') hlt hlim hrest
    have h := readData_counted (c := back b.position b') hlim hnext (rest_advance hrest) hfit
    rwa [← List.length_append, advance_back ha] at h
  constructor
  · rintro ⟨answer, b', hrun, hans⟩
    have hroom : Room b (head ++ sent).length := by
      by_contra hroom
      obtain ⟨off, herr⟩ := hw.fault b hok hroom
      rw [returned, bind_error herr] at hrun
      cases hrun
    obtain ⟨b1, h1, ha⟩ := hw.ok b hok hroom
    rw [returned, bind_ok h1, pure_apply] at hrun
    cases hrun
    obtain ⟨hfalse, -⟩ | ⟨-, hback⟩ := hans
    · cases hfalse
    · rw [hread b' ha] at hback
      have hsent : (sent.isEmpty, sent, sent.length) = (data.isEmpty, data, data.length) :=
        (Prod.mk.inj (Except.ok.inj hback)).1
      exact ⟨congrArg (fun t => t.2.1) hsent, hroom⟩
  · rintro ⟨rfl, hroom⟩
    obtain ⟨b', hrun, ha⟩ := hw.ok b hok hroom
    refine ⟨true, b', ?_, .inr ⟨rfl, hread b' ha⟩⟩
    rw [returned, bind_ok hrun, pure_apply]

theorem take_mod_eq_self {n : Nat} (h0 : 0 < n) :
    data.take (data.length % n) = data ↔ data.length < n := by
  rw [List.take_eq_self_iff]
  constructor
  · exact fun h => h.trans_lt (Nat.mod_lt _ h0)
  · exact fun h => (Nat.mod_eq_of_lt h).ge

theorem nextCount_of_rest {n len : Nat} {c : Dybuf} {r : List UInt8}
    (hlt : c.data.length < 2 ^ 32) (hl : len < 256 ^ n) (h : rest c = toBytes n len ++ r) :
    takeUint n 0 c = .ok (len, advance n c) := by
  rw [takeUint_of_rest hlt h (toBytes_length n len)]
  exact congrArg (fun v => Except.ok (v, advance n c)) (ofBytes_toBytes_of_lt hl)

/-- Behind a count of `n` bytes all of the data is sent when the count holds its length. -/
theorem countedComesBack_iff {append : List UInt8 → DybM Unit}
    {next : DybM (Option Nat × Nat)} {n m : Nat} (hm : m = 256 ^ n) (h0 : 0 < m)
    (hw : Writes (append data) () (toBytes n (data.length % m) ++ data.take (data.length % m)))
    (hnext : next = do
      let len ← takeUint n 0
      let ptr ← dybNextDataWithoutLen len
      return (ptr, len))
    (hok : b.Ok) (hf : b.fixedCapacity = false) :
    DataComesBack append next data b ↔
      data.length < m ∧ b.position + (n + data.length) < 2 ^ 32 := by
  have hl : data.length % m < 256 ^ n := hm ▸ Nat.mod_lt _ h0
  have hlen : (data.take (data.length % m)).length = data.length % m :=
    List.length_take_of_le (Nat.mod_le _ _)
  rw [dataComesBack_iff hw
    (fun c r hlt _ hr => by
      rw [hnext, bind_ok (nextCount_of_rest hlt hl hr), hlen, toBytes_length]) hok hf,
    take_mod_eq_self h0, toBytes_length, hlen]
  apply and_congr_right
  intro hlt
  rw [Nat.mod_eq_of_lt hlt]

def OneByteComesBack : List UInt8 → Dybuf → Prop :=
  DataComesBack dybAppendDataWith1byteLen dybNextDataWith1byteLen

def TwoBytesComesBack : List UInt8 → Dybuf → Prop :=
  DataComesBack dybAppendDataWith2bytesLen dybNextDataWith2bytesLen

def VarComesBack : List UInt8 → Dybuf → Prop :=
  DataComesBack dybAppendDataWithVarLen dybNextDataWithVarLen

/-- Data comes back where its length fits its count and the end of it is a `uint`. -/
theorem dataComesBack_all (hok : b.Ok) (hf : b.fixedCapacity = false)
    (hd : data.length < 2 ^ 32) :
    (OneByteComesBack data b ↔
      data.length ≤ 0xFF ∧ b.position + (1 + data.length) < 2 ^ 32) ∧
    (TwoBytesComesBack data b ↔
      data.length ≤ 0xFFFF ∧ b.position + (2 + data.length) < 2 ^ 32) ∧
    (VarComesBack data b ↔ b.position + (varWidth data.length + data.length) < 2 ^ 32) := by
  refine ⟨?_, ?_, ?_⟩
  · have h : OneByteComesBack data b ↔ _ := countedComesBack_iff (n := 1) (m := 256) rfl
      (by decide) (dybAppendDataWith1byteLen_writes data) rfl hok hf
    exact h.trans (and_congr_left' Nat.lt_succ_iff)
  · have h : TwoBytesComesBack data b ↔ _ := countedComesBack_iff (n := 2) (m := 65536) rfl
      (by decide) (dybAppendDataWith2bytesLen_writes data) rfl hok hf
    exact h.trans (and_congr_left' Nat.lt_succ_iff)
  · have h : VarComesBack data b ↔ _ := dataComesBack_iff (dybAppendDataWithVarLen_writes hd)
      (fun c r hlt _ hr => by
        rw [dybNextDataWithVarLen, bind_ok (dybNextVarU64_bytes hlt (by omega) hr),
          uint_of_lt hd])
      hok hf
    rw [h, varBytes_length_eq]
    exact and_iff_right rfl

theorem dataComesBack_midBuffer :
    (OneByteComesBack [1, 2, 3] midBuffer ↔ 3 ≤ 0xFF ∧ midBuffer.position + (1 + 3) < 2 ^ 32) ∧
    (TwoBytesComesBack [1, 2, 3] midBuffer ↔
      3 ≤ 0xFFFF ∧ midBuffer.position + (2 + 3) < 2 ^ 32) ∧
    (VarComesBack [1, 2, 3] midBuffer ↔ midBuffer.position + (varWidth 3 + 3) < 2 ^ 32) :=
  dataComesBack_all midBuffer_ok rfl (show [1, 2, 3].length < 2 ^ 32 by decide)

/-- Of 256 bytes behind a count of one byte nothing is written but a zero. -/
theorem not_dataComesBack :
    ¬∀ (b : Dybuf) (data : List UInt8), b.Ok → b.fixedCapacity = false →
      data.length < 2 ^ 32 → OneByteComesBack data b := by
  intro h
  obtain ⟨answer, b', hrun, hans⟩ :=
    h midBuffer (List.replicate 256 5) midBuffer_ok rfl (by decide +kernel)
  have hsent : returned (dybAppendDataWith1byteLen (List.replicate 256 5)) midBuffer =
      .ok (true, { midBuffer with data := [9, 9, 0, 7], position := 3 }) := by decide +kernel
  rw [hrun] at hsent
  cases hsent
  obtain ⟨hfalse, -⟩ | ⟨-, hback⟩ := hans
  · cases hfalse
  · have hread : readData dybNextDataWith1byteLen
        (back midBuffer.position { midBuffer with data := [9, 9, 0, 7], position := 3 }) =
        .ok ((true, [], 0), { midBuffer with data := [9, 9, 0, 7], position := 3 }) := by
      decide +kernel
    rw [hread] at hback
    cases hback

end Data

end LcClibs.Buffer.ReadBack
