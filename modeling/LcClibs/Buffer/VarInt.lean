import Mathlib
import LcClibs.Lib.PrefixCode
import LcClibs.Buffer.Next
import LcClibs.Buffer.Append

namespace LcClibs.Buffer.VarInt

open Platform Lib.BigEndian Lib.PrefixCode Buffer.Cursor Buffer.Next Buffer.Append

section Model

def dybAppendVarU64 (value : Nat) : DybM Unit :=
  if value ≤ 0x7F then
    dybAppendU8 value
  else if value ≤ 0x3FFF + 0x80 then
    dybAppendU16 (0x8000 ||| (value - 0x80))
  else if value ≤ 0x1FFFFF + 0x4080 then
    dybAppendU24 (0xC00000 ||| (value - 0x4080))
  else if value ≤ 0x0FFFFFFF + 0x204080 then
    dybAppendU32 (0xE0000000 ||| (value - 0x204080))
  else if value ≤ 0x07FFFFFFFF + 0x10204080 then
    dybAppendU40 (0xF000000000 ||| (value - 0x10204080))
  else if value ≤ 0x03FFFFFFFFFF + 0x0810204080 then
    dybAppendU48 (0xF80000000000 ||| (value - 0x0810204080))
  else if value ≤ 0x01FFFFFFFFFFFF + 0x040810204080 then
    dybAppendU56 (0xFC000000000000 ||| (value - 0x040810204080))
  else if value ≤ 0x00FFFFFFFFFFFFFF + 0x02040810204080 then
    dybAppendU64 (0xFE00000000000000 ||| (value - 0x02040810204080))
  else do
    dybAppendU8 0xFF
    dybAppendU64 (value - 0x0102040810204080)

/-- Only the nine-byte form can leave the range of `uint64`. -/
def dybNextVarU64 : DybM Nat := do
  let b ← dybNextU8
  if b &&& 0x80 = 0 then
    return b &&& 0x7F
  else if b &&& 0x40 = 0 then
    let v ← dybNextU8
    return (((b &&& 0x3F) <<< 8) ||| (v &&& 0x00FF)) + 0x80
  else if b &&& 0x20 = 0 then
    let v ← dybNextU16
    return (((b &&& 0x1F) <<< 16) ||| (v &&& 0x00FFFF)) + 0x4080
  else if b &&& 0x10 = 0 then
    let v ← dybNextU24
    return (((b &&& 0x0F) <<< 24) ||| (v &&& 0x00FFFFFF)) + 0x204080
  else if b &&& 0x08 = 0 then
    let v ← dybNextU32
    return (((b &&& 0x07) <<< 32) ||| (v &&& 0x00FFFFFFFF)) + 0x10204080
  else if b &&& 0x04 = 0 then
    let v ← dybNextU40
    return (((b &&& 0x03) <<< 40) ||| (v &&& 0x00FFFFFFFFFF)) + 0x0810204080
  else if b &&& 0x02 = 0 then
    let v ← dybNextU48
    return (((b &&& 0x01) <<< 48) ||| (v &&& 0x00FFFFFFFFFFFF)) + 0x040810204080
  else if b &&& 0x01 = 0 then
    let v ← dybNextU56
    return (v &&& 0x00FFFFFFFFFFFFFF) + 0x02040810204080
  else
    let v ← dybNextU64
    return uint64 (v + 0x0102040810204080)

/-- An `int64` as the `uint64` of the same bits. -/
def bits64 (z : Int) : Nat := (z % 2 ^ 64).toNat

def dybAppendVarS64 (value : Int) : DybM Unit :=
  dybAppendVarU64 (bits64 (2 * value) ^^^ bits64 (value >>> (63 : Nat)))

def dybNextVarS64 : DybM Int := do
  let u ← dybNextVarU64
  if u &&& 0x01 = 0 then
    return int64 ((u >>> 1) &&& 0x7FFFFFFFFFFFFFFF : Nat)
  else
    return int64 (((u >>> 1) &&& 0x7FFFFFFFFFFFFFFF) ^^^ 0xFFFFFFFFFFFFFFFF : Nat)

inductive Host
  | little
  | big
  deriving DecidableEq, Repr

/-- The value is turned round on a little-endian host only. -/
def dybSwapU32 (host : Host) (value : Nat) : Nat :=
  match host with
  | .little => ofBytes (toBytes 4 value).reverse
  | .big => value

def dybSwapU64 (host : Host) (value : Nat) : Nat :=
  match host with
  | .little => ofBytes (toBytes 8 value).reverse
  | .big => value

/-- A float is its bit pattern. -/
def dybAppendFloat (host : Host) (value : Nat) : DybM Unit :=
  dybAppendU32 (dybSwapU32 host value)

def dybNextFloat (host : Host) : DybM Nat := do
  let v ← dybNextU32
  return dybSwapU32 host v

def dybAppendDouble (host : Host) (value : Nat) : DybM Unit :=
  dybAppendU64 (dybSwapU64 host value)

def dybNextDouble (host : Host) : DybM Nat := do
  let v ← dybNextU64
  return dybSwapU64 host v

def dybAppendDataWithVarLen (data : List UInt8) : DybM Unit := do
  dybAppendVarU64 (uint data.length)
  dybAppendDataWithoutLen data

def dybNextDataWithVarLen : DybM (Option Nat × Nat) := do
  let len ← dybNextVarU64
  let data ← dybNextDataWithoutLen (uint len)
  return (data, uint len)

/-- The string is given without its NUL, which is read from the memory after it. -/
def dybAppendCstringWithVarLen (string : List UInt8) : DybM Unit := do
  let size := uint string.length
  dybAppendVarU64 (uint (size + 1))
  dybAppendDataWithoutLen ((string ++ [0]).take (uint (size + 1)))

def dybNextCstringWithVarLen : DybM (Option Nat × Nat) := do
  let len ← dybNextVarU64
  let data ← dybNextDataWithoutLen (uint len)
  return (data, uintSub (uint len) 1)

end Model

section Unsigned

/-- The first value of each width: the count of the shorter codes. -/
def base : Nat → Nat
  | 0 => 0
  | 1 => 0
  | n + 2 => base (n + 1) + 2 ^ (7 * (n + 1))

def varBytes (value : Nat) : List UInt8 :=
  if value ≤ 0x7F then code 1 value
  else if value ≤ 0x3FFF + 0x80 then code 2 (value - base 2)
  else if value ≤ 0x1FFFFF + 0x4080 then code 3 (value - base 3)
  else if value ≤ 0x0FFFFFFF + 0x204080 then code 4 (value - base 4)
  else if value ≤ 0x07FFFFFFFF + 0x10204080 then code 5 (value - base 5)
  else if value ≤ 0x03FFFFFFFFFF + 0x0810204080 then code 6 (value - base 6)
  else if value ≤ 0x01FFFFFFFFFFFF + 0x040810204080 then code 7 (value - base 7)
  else if value ≤ 0x00FFFFFFFFFFFFFF + 0x02040810204080 then code 8 (value - base 8)
  else 0xFF :: toBytes 8 (value - base 9)

/-- The value a variable integer beginning with the given byte is read as. -/
def varValue (first : UInt8) (body : List UInt8) : Nat :=
  let n := widthOf first
  let low := ofBytes (body.take (n - 1))
  if n ≤ 8 then headBits n first * 256 ^ (n - 1) + low + base n
  else uint64 (low + base 9)

theorem varBytes_cases {value : Nat} (hv : value < 2 ^ 64) :
    (∃ n p, 1 ≤ n ∧ n ≤ 8 ∧ p < 2 ^ (7 * n) ∧ value = p + base n ∧ varBytes value = code n p) ∨
    (∃ p, p < 2 ^ 64 ∧ value = p + base 9 ∧ varBytes value = 0xFF :: toBytes 8 p) := by
  unfold varBytes
  split_ifs with h1 h2 h3 h4 h5 h6 h7 h8
  · exact .inl ⟨1, value, by decide, by decide, by omega, rfl, rfl⟩
  · exact .inl ⟨2, value - base 2, by decide, by decide, by simp only [base]; omega,
      by simp only [base]; omega, rfl⟩
  · exact .inl ⟨3, value - base 3, by decide, by decide, by simp only [base]; omega,
      by simp only [base]; omega, rfl⟩
  · exact .inl ⟨4, value - base 4, by decide, by decide, by simp only [base]; omega,
      by simp only [base]; omega, rfl⟩
  · exact .inl ⟨5, value - base 5, by decide, by decide, by simp only [base]; omega,
      by simp only [base]; omega, rfl⟩
  · exact .inl ⟨6, value - base 6, by decide, by decide, by simp only [base]; omega,
      by simp only [base]; omega, rfl⟩
  · exact .inl ⟨7, value - base 7, by decide, by decide, by simp only [base]; omega,
      by simp only [base]; omega, rfl⟩
  · exact .inl ⟨8, value - base 8, by decide, by decide, by simp only [base]; omega,
      by simp only [base]; omega, rfl⟩
  · exact .inr ⟨value - base 9, by simp only [base]; omega, by simp only [base]; omega, rfl⟩

theorem varBytes_length {value : Nat} (hv : value < 2 ^ 64) :
    1 ≤ (varBytes value).length ∧ (varBytes value).length ≤ 9 := by
  obtain ⟨n, p, h1, h8, -, -, he⟩ | ⟨p, -, -, he⟩ := varBytes_cases hv
  · rw [he, code_length]
    omega
  · rw [he, List.length_cons, toBytes_length]
    omega

theorem appendCode_writes {n p : Nat} (hp : p < 2 ^ (7 * n)) :
    Writes (appendUint n (mark n ||| p)) () (code n p) := by
  rw [mark_or hp]
  exact appendUint_writes n _

theorem dybAppendVarU64_writes (value : Nat) :
    Writes (dybAppendVarU64 value) () (varBytes value) := by
  unfold dybAppendVarU64 varBytes
  split_ifs with h1 h2 h3 h4 h5 h6 h7 h8
  · have h := appendCode_writes (n := 1) (p := value) (by omega)
    rwa [show mark 1 = 0 from rfl, Nat.zero_or] at h
  · exact appendCode_writes (n := 2) (p := value - 0x80) (by omega)
  · exact appendCode_writes (n := 3) (p := value - 0x4080) (by omega)
  · exact appendCode_writes (n := 4) (p := value - 0x204080) (by omega)
  · exact appendCode_writes (n := 5) (p := value - 0x10204080) (by omega)
  · exact appendCode_writes (n := 6) (p := value - 0x0810204080) (by omega)
  · exact appendCode_writes (n := 7) (p := value - 0x040810204080) (by omega)
  · exact appendCode_writes (n := 8) (p := value - 0x02040810204080) (by omega)
  · exact (appendUint_writes 1 0xFF).bind (appendUint_writes 8 _)

theorem cascade_eq {α : Type} (first : UInt8) (x1 x2 x3 x4 x5 x6 x7 x8 x9 : α) :
    (if first.toNat &&& 0x80 = 0 then x1 else if first.toNat &&& 0x40 = 0 then x2
      else if first.toNat &&& 0x20 = 0 then x3 else if first.toNat &&& 0x10 = 0 then x4
      else if first.toNat &&& 0x08 = 0 then x5 else if first.toNat &&& 0x04 = 0 then x6
      else if first.toNat &&& 0x02 = 0 then x7 else if first.toNat &&& 0x01 = 0 then x8
      else x9) =
    if widthOf first = 1 then x1 else if widthOf first = 2 then x2
      else if widthOf first = 3 then x3 else if widthOf first = 4 then x4
      else if widthOf first = 5 then x5 else if widthOf first = 6 then x6
      else if widthOf first = 7 then x7 else if widthOf first = 8 then x8 else x9 := by
  rw [widthOf_eq_bits]
  by_cases h7 : first.toNat &&& 0x80 = 0
  · simp only [if_pos h7]
    rfl
  by_cases h6 : first.toNat &&& 0x40 = 0
  · simp only [if_neg h7, if_pos h6]
    rfl
  by_cases h5 : first.toNat &&& 0x20 = 0
  · simp only [if_neg h7, if_neg h6, if_pos h5]
    rfl
  by_cases h4 : first.toNat &&& 0x10 = 0
  · simp only [if_neg h7, if_neg h6, if_neg h5, if_pos h4]
    rfl
  by_cases h3 : first.toNat &&& 0x08 = 0
  · simp only [if_neg h7, if_neg h6, if_neg h5, if_neg h4, if_pos h3]
    rfl
  by_cases h2 : first.toNat &&& 0x04 = 0
  · simp only [if_neg h7, if_neg h6, if_neg h5, if_neg h4, if_neg h3, if_pos h2]
    rfl
  by_cases h1 : first.toNat &&& 0x02 = 0
  · simp only [if_neg h7, if_neg h6, if_neg h5, if_neg h4, if_neg h3, if_neg h2, if_pos h1]
    rfl
  by_cases h0 : first.toNat &&& 0x01 = 0
  · simp only [if_neg h7, if_neg h6, if_neg h5, if_neg h4, if_neg h3, if_neg h2, if_neg h1,
      if_pos h0]
    rfl
  · simp only [if_neg h7, if_neg h6, if_neg h5, if_neg h4, if_neg h3, if_neg h2, if_neg h1,
      if_neg h0]
    rfl

theorem branch_value {n : Nat} {first : UInt8} {low : List UInt8} (hlen : low.length = n) :
    ((first.toNat &&& (2 ^ (8 - (n + 1)) - 1)) <<< (8 * n)) |||
      (ofBytes low &&& (2 ^ (8 * n) - 1)) =
    headBits (n + 1) first * 256 ^ n + ofBytes low := by
  have h256 : (256 : Nat) ^ n = 2 ^ (8 * n) := by rw [pow_mul]; norm_num
  have hlt := ofBytes_lt low
  rw [hlen, h256] at hlt
  rw [Nat.and_two_pow_sub_one_eq_mod, Nat.and_two_pow_sub_one_eq_mod, Nat.mod_eq_of_lt hlt,
    ← Nat.shiftLeft_add_eq_or_of_lt hlt, Nat.shiftLeft_eq, h256, headBits]

theorem dybNextVarU64_of_rest {b : Dybuf} {first : UInt8} {r : List UInt8}
    (hlt : b.data.length < 2 ^ 32) (h : rest b = first :: r) (hr : widthOf first ≤ r.length + 1) :
    dybNextVarU64 b = .ok (varValue first r, advance (widthOf first) b) := by
  have hfirst : dybNextU8 b = .ok (first.toNat, advance 1 b) := by
    have ht : takeUint 1 0 b = _ := takeUint_of_rest (e := [first]) hlt h rfl
    simpa [dybNextU8, ofBytesFrom] using ht
  have htake : ∀ n, widthOf first = n + 1 → takeUint n 0 (advance 1 b) =
      .ok (ofBytes (r.take n), advance (n + 1) b) := by
    intro n hn
    have hrest : rest (advance 1 b) = r.take n ++ r.drop n := by
      rw [List.take_append_drop]
      exact rest_advance (e := [first]) h
    have hl : (r.take n).length = n := by
      rw [List.length_take]
      omega
    rw [takeUint_of_rest (b := advance 1 b) hlt hrest hl, advance_advance, Nat.add_comm 1 n]
    rfl
  have hval : ∀ n, widthOf first = n + 1 → n ≤ 7 →
      ((first.toNat &&& (2 ^ (8 - (n + 1)) - 1)) <<< (8 * n) |||
        (ofBytes (r.take n) &&& (2 ^ (8 * n) - 1))) + base (n + 1) = varValue first r := by
    intro n hn h7
    rw [branch_value (by rw [List.length_take]; omega), varValue, hn, if_pos (by omega)]
    rfl
  rw [dybNextVarU64, bind_ok hfirst, cascade_eq]
  have hpos := widthOf_pos first
  have hle := widthOf_le first
  split_ifs with h1 h2 h3 h4 h5 h6 h7 h8
  · rw [pure_apply, ← hval 0 h1 (by decide), h1]
    simp [base]
  · rw [dybNextU8, bind_ok (htake 1 h2), pure_apply, ← hval 1 h2 (by decide), h2]
    rfl
  · rw [dybNextU16, bind_ok (htake 2 h3), pure_apply, ← hval 2 h3 (by decide), h3]
    rfl
  · rw [dybNextU24, bind_ok (htake 3 h4), pure_apply, ← hval 3 h4 (by decide), h4]
    rfl
  · rw [dybNextU32, bind_ok (htake 4 h5), pure_apply, ← hval 4 h5 (by decide), h5]
    rfl
  · rw [dybNextU40, bind_ok (htake 5 h6), pure_apply, ← hval 5 h6 (by decide), h6]
    rfl
  · rw [dybNextU48, bind_ok (htake 6 h7), pure_apply, ← hval 6 h7 (by decide), h7]
    rfl
  · have hv := hval 7 h8 (by decide)
    rw [show (2 : Nat) ^ (8 - (7 + 1)) - 1 = 0 from rfl, Nat.and_zero, Nat.zero_shiftLeft,
      Nat.zero_or] at hv
    rw [dybNextU56, bind_ok (htake 7 h8), pure_apply, ← hv, h8]
    rfl
  · have h9 : widthOf first = 9 := by omega
    rw [dybNextU64, bind_ok (htake 8 h9), pure_apply, varValue, h9, if_neg (by decide)]
    rfl

/-- A variable integer cut off by the end of the memory makes the reader run over it. -/
theorem dybNextVarU64_fault {b : Dybuf} (hlt : b.data.length < 2 ^ 32)
    (hp : b.position ≤ b.data.length)
    (h : ∀ first r, rest b = first :: r → r.length + 1 < widthOf first) :
    ∃ off, dybNextVarU64 b = .error (.readOutside off) := by
  cases hc : rest b with
  | nil =>
    have hlen := rest_length b
    rw [hc, List.length_nil] at hlen
    exact ⟨_, by rw [dybNextVarU64, dybNextU8, bind_error (takeUint_fault hlt hp (by omega))]⟩
  | cons first r =>
    have hshort := h first r hc
    have hlen := rest_length b
    rw [hc, List.length_cons] at hlen
    have hfirst : dybNextU8 b = .ok (first.toNat, advance 1 b) := by
      have ht : takeUint 1 0 b = _ := takeUint_of_rest (e := [first]) hlt hc rfl
      simpa [dybNextU8, ofBytesFrom] using ht
    have hfault : ∀ n, widthOf first = n + 1 → takeUint n 0 (advance 1 b) =
        .error (.readOutside b.data.length) := fun n hn =>
      takeUint_fault (b := advance 1 b) hlt (by simp only [advance_position, advance_data]; omega)
        (by simp only [advance_position, advance_data]; omega)
    refine ⟨b.data.length, ?_⟩
    rw [dybNextVarU64, bind_ok hfirst, cascade_eq]
    have hpos := widthOf_pos first
    have hle := widthOf_le first
    split_ifs with h1 h2 h3 h4 h5 h6 h7 h8
    · omega
    · rw [dybNextU8, bind_error (hfault 1 h2)]
    · rw [dybNextU16, bind_error (hfault 2 h3)]
    · rw [dybNextU24, bind_error (hfault 3 h4)]
    · rw [dybNextU32, bind_error (hfault 4 h5)]
    · rw [dybNextU40, bind_error (hfault 5 h6)]
    · rw [dybNextU48, bind_error (hfault 6 h7)]
    · rw [dybNextU56, bind_error (hfault 7 h8)]
    · rw [dybNextU64, bind_error (hfault 8 (by omega))]

theorem varBytes_read {value : Nat} (hv : value < 2 ^ 64) (r : List UInt8) :
    ∃ first body, varBytes value = first :: body ∧ widthOf first = body.length + 1 ∧
      varValue first (body ++ r) = value := by
  obtain ⟨n, p, h1, h8, hp, hval, he⟩ | ⟨p, hp, hval, he⟩ := varBytes_cases hv
  · obtain ⟨first, hc, hw, hh⟩ := code_eq_cons h1 h8 hp
    refine ⟨first, _, by rw [he, hc], by rw [hw, toBytes_length]; omega, ?_⟩
    rw [varValue, hw, if_pos h8, List.take_left' (toBytes_length _ _), ofBytes_toBytes, hh, hval]
    have hdiv := Nat.div_add_mod p (256 ^ (n - 1))
    rw [Nat.mul_comm] at hdiv
    omega
  · have hw : widthOf 0xFF = 9 := rfl
    refine ⟨0xFF, _, he, by rw [hw, toBytes_length], ?_⟩
    rw [varValue, hw, if_neg (by decide), List.take_left' (toBytes_length _ _),
      ofBytes_toBytes_of_lt (by rw [show (256 : Nat) ^ (9 - 1) = 2 ^ 64 by norm_num]; exact hp),
      ← hval, uint64_of_lt hv]

theorem dybNextVarU64_bytes {b : Dybuf} {value : Nat} {r : List UInt8}
    (hlt : b.data.length < 2 ^ 32) (hv : value < 2 ^ 64) (h : rest b = varBytes value ++ r) :
    dybNextVarU64 b = .ok (value, advance (varBytes value).length b) := by
  obtain ⟨first, body, hb, hw, hf⟩ := varBytes_read hv r
  rw [hb, List.cons_append] at h
  rw [dybNextVarU64_of_rest hlt h (by rw [hw, List.length_append]; omega), hf, hw, hb,
    List.length_cons]

end Unsigned

section Signed

/-- Zigzag: the bits an `int64` is written as. -/
def zigzag (value : Int) : Nat := bits64 (2 * value) ^^^ bits64 (value >>> (63 : Nat))

def unzigzag (u : Nat) : Int :=
  if u &&& 0x01 = 0 then int64 ((u >>> 1) &&& 0x7FFFFFFFFFFFFFFF : Nat)
  else int64 (((u >>> 1) &&& 0x7FFFFFFFFFFFFFFF) ^^^ 0xFFFFFFFFFFFFFFFF : Nat)

def IsInt64 (z : Int) : Prop := -2 ^ 63 ≤ z ∧ z < 2 ^ 63

theorem xor_ones {x : Nat} (h : x < 2 ^ 64) : x ^^^ (2 ^ 64 - 1) = 2 ^ 64 - 1 - x := by
  apply Nat.eq_of_testBit_eq
  intro i
  rw [Nat.testBit_xor, Nat.testBit_two_pow_sub_one, Nat.sub_sub, Nat.add_comm 1 x,
    Nat.testBit_two_pow_sub_succ h]
  by_cases hi : i < 64
  · simp [hi]
  · have hx : x.testBit i = false :=
      Nat.testBit_lt_two_pow (h.trans_le (Nat.pow_le_pow_right (by decide) (by omega)))
    simp [hi, hx]

theorem zigzag_nonneg {value : Int} (h0 : 0 ≤ value) (h : value < 2 ^ 63) :
    zigzag value = 2 * value.toNat := by
  have hs : value >>> (63 : Nat) = 0 := by rw [Int.shiftRight_eq_div_pow]; omega
  rw [zigzag, hs, show bits64 0 = 0 from rfl, Nat.xor_zero, bits64]
  omega

theorem zigzag_neg {value : Int} (h0 : value < 0) (h : -2 ^ 63 ≤ value) :
    zigzag value = 2 * (-(value + 1)).toNat + 1 := by
  have hs : value >>> (63 : Nat) = -1 := by rw [Int.shiftRight_eq_div_pow]; omega
  have hx : bits64 (2 * value) < 2 ^ 64 := by unfold bits64; omega
  rw [zigzag, hs, show bits64 (-1) = 2 ^ 64 - 1 from rfl, xor_ones hx, bits64]
  omega

theorem zigzag_lt {value : Int} (h : IsInt64 value) : zigzag value < 2 ^ 64 := by
  obtain ⟨hlo, hhi⟩ := h
  by_cases h0 : 0 ≤ value
  · rw [zigzag_nonneg h0 hhi]
    omega
  · rw [zigzag_neg (by omega) hlo]
    omega

theorem unzigzag_even (n : Nat) (h : n < 2 ^ 63) : unzigzag (2 * n) = n := by
  have ha : (2 * n) &&& 0x01 = 0 := by
    rw [show (0x01 : Nat) = 2 ^ 1 - 1 from rfl, Nat.and_two_pow_sub_one_eq_mod]
    omega
  have hs : (2 * n) >>> 1 = n := by rw [Nat.shiftRight_eq_div_pow]; omega
  rw [unzigzag, if_pos ha, hs, show (0x7FFFFFFFFFFFFFFF : Nat) = 2 ^ 63 - 1 from rfl,
    Nat.and_two_pow_sub_one_eq_mod, Nat.mod_eq_of_lt h, int64]
  rw [Int.bmod_eq_of_le] <;> omega

theorem unzigzag_odd (n : Nat) (h : n < 2 ^ 63) : unzigzag (2 * n + 1) = -(n + 1 : Int) := by
  have ha : ¬(2 * n + 1) &&& 0x01 = 0 := by
    rw [show (0x01 : Nat) = 2 ^ 1 - 1 from rfl, Nat.and_two_pow_sub_one_eq_mod]
    omega
  have hs : (2 * n + 1) >>> 1 = n := by rw [Nat.shiftRight_eq_div_pow]; omega
  rw [unzigzag, if_neg ha, hs, show (0x7FFFFFFFFFFFFFFF : Nat) = 2 ^ 63 - 1 from rfl,
    Nat.and_two_pow_sub_one_eq_mod, Nat.mod_eq_of_lt h,
    show (0xFFFFFFFFFFFFFFFF : Nat) = 2 ^ 64 - 1 from rfl, xor_ones (by omega), int64]
  rw [Int.bmod_def]
  omega

theorem unzigzag_zigzag {value : Int} (h : IsInt64 value) : unzigzag (zigzag value) = value := by
  obtain ⟨hlo, hhi⟩ := h
  by_cases h0 : 0 ≤ value
  · rw [zigzag_nonneg h0 hhi, unzigzag_even _ (by omega)]
    omega
  · rw [zigzag_neg (by omega) hlo, unzigzag_odd _ (by omega)]
    omega

theorem dybAppendVarS64_writes (value : Int) :
    Writes (dybAppendVarS64 value) () (varBytes (zigzag value)) :=
  dybAppendVarU64_writes _

theorem dybNextVarS64_eq : dybNextVarS64 = (do let u ← dybNextVarU64; return unzigzag u) := by
  unfold dybNextVarS64 unzigzag
  congr 1
  funext u
  split_ifs <;> rfl

theorem dybNextVarS64_bytes {b : Dybuf} {value : Int} {r : List UInt8}
    (hlt : b.data.length < 2 ^ 32) (hv : IsInt64 value)
    (h : rest b = varBytes (zigzag value) ++ r) :
    dybNextVarS64 b = .ok (value, advance (varBytes (zigzag value)).length b) := by
  rw [dybNextVarS64_eq, bind_ok (dybNextVarU64_bytes hlt (zigzag_lt hv) h), pure_apply,
    unzigzag_zigzag hv]

end Signed

section Floats

theorem dybSwapU32_swap (host : Host) {v : Nat} (h : v < 2 ^ 32) :
    dybSwapU32 host (dybSwapU32 host v) = v := by
  cases host with
  | big => rfl
  | little =>
    have hl : (toBytes 4 v).reverse.length = 4 := by simp
    have hb := toBytes_ofBytes (toBytes 4 v).reverse
    rw [hl] at hb
    simp only [dybSwapU32, hb, List.reverse_reverse]
    exact ofBytes_toBytes_of_lt (by simpa using h)

theorem dybSwapU64_swap (host : Host) {v : Nat} (h : v < 2 ^ 64) :
    dybSwapU64 host (dybSwapU64 host v) = v := by
  cases host with
  | big => rfl
  | little =>
    have hl : (toBytes 8 v).reverse.length = 8 := by simp
    have hb := toBytes_ofBytes (toBytes 8 v).reverse
    rw [hl] at hb
    simp only [dybSwapU64, hb, List.reverse_reverse]
    exact ofBytes_toBytes_of_lt (by simpa using h)

theorem dybSwapU32_lt (host : Host) {v : Nat} (h : v < 2 ^ 32) : dybSwapU32 host v < 2 ^ 32 := by
  cases host with
  | big => exact h
  | little =>
    have hlt := ofBytes_lt (toBytes 4 v).reverse
    simpa [dybSwapU32] using hlt

theorem dybSwapU64_lt (host : Host) {v : Nat} (h : v < 2 ^ 64) : dybSwapU64 host v < 2 ^ 64 := by
  cases host with
  | big => exact h
  | little =>
    have hlt := ofBytes_lt (toBytes 8 v).reverse
    simpa [dybSwapU64] using hlt

theorem dybNextFloat_bytes {host : Host} {b : Dybuf} {v : Nat} {r : List UInt8}
    (hlt : b.data.length < 2 ^ 32) (hv : v < 2 ^ 32)
    (h : rest b = toBytes 4 (dybSwapU32 host v) ++ r) :
    dybNextFloat host b = .ok (v, advance 4 b) := by
  have hd : takeUint 4 0 b = _ := takeUint_of_rest hlt h (toBytes_length _ _)
  have hs : ofBytesFrom 0 (toBytes 4 (dybSwapU32 host v)) = dybSwapU32 host v :=
    ofBytes_toBytes_of_lt (by simpa using dybSwapU32_lt host hv)
  rw [hs] at hd
  rw [dybNextFloat, dybNextU32, bind_ok hd, pure_apply, dybSwapU32_swap host hv]

theorem dybNextDouble_bytes {host : Host} {b : Dybuf} {v : Nat} {r : List UInt8}
    (hlt : b.data.length < 2 ^ 32) (hv : v < 2 ^ 64)
    (h : rest b = toBytes 8 (dybSwapU64 host v) ++ r) :
    dybNextDouble host b = .ok (v, advance 8 b) := by
  have hd : takeUint 8 0 b = _ := takeUint_of_rest hlt h (toBytes_length _ _)
  have hs : ofBytesFrom 0 (toBytes 8 (dybSwapU64 host v)) = dybSwapU64 host v :=
    ofBytes_toBytes_of_lt (by simpa using dybSwapU64_lt host hv)
  rw [hs] at hd
  rw [dybNextDouble, dybNextU64, bind_ok hd, pure_apply, dybSwapU64_swap host hv]

end Floats

section Data

def dataBytes (data : List UInt8) : List UInt8 := varBytes data.length ++ data

/-- A counted append of any length: both the count and the payload are cut to `uint`. -/
theorem dybAppendDataWithVarLen_take_writes (data : List UInt8) :
    Writes (dybAppendDataWithVarLen data) () (dataBytes (data.take (uint data.length))) := by
  have hlen : (data.take (uint data.length)).length = uint data.length := by
    rw [List.length_take, Nat.min_eq_left (uint_le _)]
  rw [dybAppendDataWithVarLen, dataBytes, hlen]
  exact (dybAppendVarU64_writes _).bind (dybAppendDataWithoutLen_take_writes data)

theorem dybAppendDataWithVarLen_writes {data : List UInt8} (hlt : data.length < 2 ^ 32) :
    Writes (dybAppendDataWithVarLen data) () (dataBytes data) := by
  have h := dybAppendDataWithVarLen_take_writes data
  rwa [uint_of_lt hlt, List.take_length] at h

/-- The bytes of a string that its counted append takes, the closing NUL among them. -/
def cstringData (string : List UInt8) : List UInt8 :=
  (string ++ [0]).take (uint (uint string.length + 1))

theorem cstringData_length (string : List UInt8) :
    (cstringData string).length = uint (uint string.length + 1) := by
  have h1 := uint_le string.length
  have h2 := uint_le (uint string.length + 1)
  rw [cstringData, List.length_take, List.length_append, List.length_singleton]
  omega

theorem cstringData_of_lt {string : List UInt8} (hlt : string.length + 1 < 2 ^ 32) :
    cstringData string = string ++ [0] := by
  have hl : (string ++ [0]).length = string.length + 1 := by simp
  rw [cstringData, uint_of_lt (by omega : string.length < 2 ^ 32), uint_of_lt hlt, ← hl,
    List.take_length]

theorem dybAppendCstringWithVarLen_take_writes (string : List UInt8) :
    Writes (dybAppendCstringWithVarLen string) () (dataBytes (cstringData string)) := by
  have hlen := cstringData_length string
  have hd : Writes (dybAppendDataWithoutLen (cstringData string)) () (cstringData string) :=
    dybAppendDataWithoutLen_writes (by rw [hlen]; exact uint_lt _)
  rw [dataBytes, hlen]
  exact (dybAppendVarU64_writes _).bind hd

theorem dybAppendCstringWithVarLen_writes {string : List UInt8}
    (hlt : string.length + 1 < 2 ^ 32) :
    Writes (dybAppendCstringWithVarLen string) () (dataBytes (string ++ [0])) := by
  have h := dybAppendCstringWithVarLen_take_writes string
  rwa [cstringData_of_lt hlt] at h

/-- Reading a counted byte string that lies below the limit: the empty one is
reported as null, any other by the place of its first byte. -/
theorem dybNextDataWithVarLen_bytes {b : Dybuf} {data r : List UInt8}
    (hlt : b.data.length < 2 ^ 32) (hlim : b.limit < 2 ^ 32)
    (h : rest b = dataBytes data ++ r)
    (hfit : b.position + (dataBytes data).length ≤ b.limit) :
    dybNextDataWithVarLen b =
      .ok ((if data = [] then none else some (b.position + (varBytes data.length).length),
        data.length), advance (dataBytes data).length b) := by
  rw [dataBytes, List.length_append] at hfit
  have hd : data.length < 2 ^ 32 := by omega
  have hr : rest b = varBytes data.length ++ (data ++ r) := by
    rw [h, dataBytes, List.append_assoc]
  have hv := dybNextVarU64_bytes hlt (by omega) hr
  rw [dybNextDataWithVarLen, bind_ok hv, uint_of_lt hd]
  by_cases he : data = []
  · subst he
    rw [List.length_nil, bind_ok (dybNextDataWithoutLen_none (.inl rfl)), pure_apply]
    simp [dataBytes]
  · have hpos : 0 < data.length := List.length_pos_iff.mpr he
    have hin : (advance (varBytes data.length).length b).position + data.length ≤ b.limit := by
      rw [advance_position]
      omega
    have hd' := dybNextDataWithoutLen_some (b := advance (varBytes data.length).length b)
      hpos hin hlim
    rw [bind_ok hd', pure_apply, if_neg he, advance_advance, dataBytes, List.length_append]
    rfl

theorem dybNextCstringWithVarLen_eq :
    dybNextCstringWithVarLen =
      (do let p ← dybNextDataWithVarLen; return (p.1, uintSub p.2 1)) := by
  simp only [dybNextCstringWithVarLen, dybNextDataWithVarLen, bind_assoc, pure_bind]

theorem dybNextCstringWithVarLen_bytes {b : Dybuf} {string r : List UInt8}
    (hlt : b.data.length < 2 ^ 32) (hlim : b.limit < 2 ^ 32)
    (h : rest b = dataBytes (string ++ [0]) ++ r)
    (hfit : b.position + (dataBytes (string ++ [0])).length ≤ b.limit) :
    dybNextCstringWithVarLen b =
      .ok ((some (b.position + (varBytes (string.length + 1)).length), string.length),
        advance (dataBytes (string ++ [0])).length b) := by
  have hl : (string ++ [0]).length = string.length + 1 := by simp
  have hs : string.length + 1 < 2 ^ 32 := by
    rw [dataBytes, List.length_append, hl] at hfit
    omega
  have hsub : uintSub (string.length + 1) 1 = string.length :=
    (uintSub_of_le (by omega) hs).trans (Nat.add_sub_cancel _ _)
  rw [dybNextCstringWithVarLen_eq, bind_ok (dybNextDataWithVarLen_bytes hlt hlim h hfit),
    pure_apply, hl, if_neg (by simp), hsub]

end Data

end LcClibs.Buffer.VarInt
