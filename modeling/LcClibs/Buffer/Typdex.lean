import Mathlib
import LcClibs.Lib.PrefixCode
import LcClibs.Buffer.Next
import LcClibs.Buffer.Append

namespace LcClibs.Buffer.Typdex

open Platform Lib.BigEndian Lib.PrefixCode Buffer.Cursor Buffer.Next Buffer.Append

section Model

/-- The flag tells whether the function returns the buffer or null. -/
def dybAppendTypdex (type index : Nat) : DybM Bool :=
  if type ≤ 0x0f ∧ index ≤ 0x07 then do
    dybAppendU8 ((type <<< 3) ||| index)
    return true
  else if type ≤ 0x3F ∧ index ≤ 0x0FF then do
    dybAppendU16 (0x8000 ||| (type <<< 8) ||| index)
    return true
  else if type ≤ 0xFF ∧ index ≤ 0x1FFF then do
    dybAppendU24 (0xC00000 ||| (type <<< 13) ||| index)
    return true
  else if type ≤ 0xFF ∧ index ≤ 0x0FFFFF then do
    dybAppendU32 (0xE0000000 ||| (type <<< 20) ||| index)
    return true
  else
    return false

def headerFields (width v : Nat) : Nat × Nat :=
  match width with
  | 1 => ((v >>> 3) &&& 0x0F, v &&& 0x07)
  | 2 => (((v >>> 8) &&& 0xFF) &&& 0x3F, v &&& 0x00FF)
  | 3 => (((v >>> 13) &&& 0xFF) &&& 0xFF, v &&& 0x1FFF)
  | _ => (((v >>> 20) &&& 0xFF) &&& 0xFF, v &&& 0x0FFFFF)

/-- A first byte from 0xF0 on is reported as a type of its own, and not consumed. -/
def dybNextTypdex : DybM (Nat × Nat) := do
  let typ ← dybPeekU8
  if typ &&& 0x80 = 0 then
    let v ← dybNextU8
    return headerFields 1 v
  else if typ &&& 0x40 = 0 then
    let v ← dybNextU16
    return headerFields 2 v
  else if typ &&& 0x20 = 0 then
    let v ← dybNextU24
    return headerFields 3 v
  else if typ &&& 0x10 = 0 then
    let v ← dybNextU32
    return headerFields 4 v
  else
    return (typ, 0)

def dybPeekTypdex : DybM (Nat × Nat) := do
  let typ ← dybPeekU8
  if typ &&& 0x80 = 0 then
    let v ← dybPeekU8
    return headerFields 1 v
  else if typ &&& 0x40 = 0 then
    let v ← dybPeekU16
    return headerFields 2 v
  else if typ &&& 0x20 = 0 then
    let v ← dybPeekU24
    return headerFields 3 v
  else if typ &&& 0x10 = 0 then
    let v ← dybPeekU32
    return headerFields 4 v
  else
    return (typ, 0)

end Model

section Encoding

/-- The type and index that a header can carry. -/
def typdexFits (type index : Nat) : Prop := type ≤ 0xFF ∧ index ≤ 0x0FFFFF

instance (type index : Nat) : Decidable (typdexFits type index) := by
  unfold typdexFits
  infer_instance

/-- Width of a header and its payload bits. -/
def typdexCode (type index : Nat) : Nat × Nat :=
  if type ≤ 0x0f ∧ index ≤ 0x07 then (1, type * 2 ^ 3 + index)
  else if type ≤ 0x3F ∧ index ≤ 0x0FF then (2, type * 2 ^ 8 + index)
  else if type ≤ 0xFF ∧ index ≤ 0x1FFF then (3, type * 2 ^ 13 + index)
  else (4, type * 2 ^ 20 + index)

def typdexBytes (type index : Nat) : List UInt8 :=
  if typdexFits type index then
    code (typdexCode type index).1 (typdexCode type index).2
  else []

theorem typdexCode_width (type index : Nat) :
    1 ≤ (typdexCode type index).1 ∧ (typdexCode type index).1 ≤ 4 := by
  unfold typdexCode
  split_ifs <;> simp

theorem typdexCode_payload {type index : Nat} (h : typdexFits type index) :
    (typdexCode type index).2 < 2 ^ (7 * (typdexCode type index).1) := by
  obtain ⟨ht, hi⟩ := h
  unfold typdexCode
  split_ifs <;> simp only [Nat.reduceMul, Nat.reducePow] <;> omega

theorem typdexBytes_length {type index : Nat} (h : typdexFits type index) :
    (typdexBytes type index).length = (typdexCode type index).1 := by
  rw [typdexBytes, if_pos h, code_length]

theorem typdexBytes_ne_nil {type index : Nat} (h : typdexFits type index) :
    typdexBytes type index ≠ [] := by
  intro he
  have hl := typdexBytes_length h
  rw [he, List.length_nil] at hl
  have := (typdexCode_width type index).1
  omega

/-- The header expression of the writer is the marked payload. -/
theorem header_or {n k type index : Nat} (hi : index < 2 ^ k)
    (hp : type * 2 ^ k + index < 2 ^ (7 * n)) :
    mark n ||| (type <<< k) ||| index = mark n + (type * 2 ^ k + index) := by
  rw [Nat.lor_assoc, ← Nat.shiftLeft_add_eq_or_of_lt hi, Nat.shiftLeft_eq, mark_or hp]

theorem appendHeader_writes {n k type index : Nat} (hi : index < 2 ^ k)
    (hp : type * 2 ^ k + index < 2 ^ (7 * n)) :
    Writes (do appendUint n (mark n ||| (type <<< k) ||| index); return true) true
      (code n (type * 2 ^ k + index)) := by
  rw [header_or hi hp]
  exact (appendUint_writes n _).thenPure true

theorem dybAppendTypdex_unfit {type index : Nat} (h : ¬typdexFits type index) :
    dybAppendTypdex type index = pure false := by
  have hout : ∀ t i, t ≤ 0xFF → i ≤ 0x0FFFFF → ¬(type ≤ t ∧ index ≤ i) :=
    fun t i ht hi hti => h ⟨hti.1.trans ht, hti.2.trans hi⟩
  rw [dybAppendTypdex, if_neg (hout _ _ (by decide) (by decide)),
    if_neg (hout _ _ (by decide) (by decide)), if_neg (hout _ _ (by decide) (by decide)),
    if_neg (hout _ _ (by decide) (by decide))]

theorem dybAppendTypdex_writes (type index : Nat) :
    Writes (dybAppendTypdex type index) (decide (typdexFits type index))
      (typdexBytes type index) := by
  by_cases hfit : typdexFits type index
  · unfold dybAppendTypdex typdexBytes typdexCode
    rw [if_pos hfit, decide_eq_true hfit]
    obtain ⟨ht, hi⟩ := hfit
    split_ifs with h1 h2 h3 h4
    · have h : Writes _ true (code 1 (type * 2 ^ 3 + index)) :=
        appendHeader_writes (n := 1) (k := 3) (by omega) (by omega)
      rwa [show mark 1 = 0 from rfl, Nat.zero_or] at h
    · exact appendHeader_writes (n := 2) (k := 8) (by omega) (by omega)
    · exact appendHeader_writes (n := 3) (k := 13) (by omega) (by omega)
    · exact appendHeader_writes (n := 4) (k := 20) (by omega) (by omega)
    · exact absurd ⟨ht, hi⟩ h4
  · rw [dybAppendTypdex_unfit hfit, typdexBytes, if_neg hfit, decide_eq_false hfit]
    exact Writes.nothing false

end Encoding

section Decoding

def headerOf (first : UInt8) (body : List UInt8) : Nat × Nat :=
  if widthOf first ≤ 4 then
    headerFields (widthOf first) (ofBytes (first :: body.take (widthOf first - 1)))
  else (first.toNat, 0)

def headerWidth (first : UInt8) : Nat := if widthOf first ≤ 4 then widthOf first else 0

theorem dybPeekU8_of_rest {b : Dybuf} {first : UInt8} {r : List UInt8}
    (hlt : b.data.length < 2 ^ 32) (h : rest b = first :: r) :
    dybPeekU8 b = .ok (first.toNat, b) := by
  have hd : (rest b).drop 0 = [first] ++ r := by simpa using h
  rw [dybPeekU8, lookUint_of_rest (n := 1) hlt hd rfl]
  simp [ofBytesFrom]

theorem cascade_eq {α : Type} (first : UInt8) (x1 x2 x3 x4 x5 : α) :
    (if first.toNat &&& 0x80 = 0 then x1 else if first.toNat &&& 0x40 = 0 then x2
      else if first.toNat &&& 0x20 = 0 then x3 else if first.toNat &&& 0x10 = 0 then x4
      else x5) =
    if widthOf first = 1 then x1 else if widthOf first = 2 then x2
      else if widthOf first = 3 then x3 else if widthOf first = 4 then x4 else x5 := by
  rw [widthOf_eq_bits]
  by_cases h7 : first.toNat &&& 0x80 = 0
  · simp only [if_pos h7, if_true]
  by_cases h6 : first.toNat &&& 0x40 = 0
  · simp only [if_neg h7, if_pos h6, if_true]
    rfl
  by_cases h5 : first.toNat &&& 0x20 = 0
  · simp only [if_neg h7, if_neg h6, if_pos h5, if_true]
    rfl
  by_cases h4 : first.toNat &&& 0x10 = 0
  · simp only [if_neg h7, if_neg h6, if_neg h5, if_pos h4, if_true]
    rfl
  simp only [if_neg h7, if_neg h6, if_neg h5, if_neg h4]
  generalize hw : (if first.toNat &&& 0x08 = 0 then 5 else if first.toNat &&& 0x04 = 0 then 6
    else if first.toNat &&& 0x02 = 0 then 7 else if first.toNat &&& 0x01 = 0 then 8 else 9) = w
  have h5 : 5 ≤ w := by
    rw [← hw]
    split_ifs <;> decide
  rw [if_neg (by omega), if_neg (by omega), if_neg (by omega), if_neg (by omega)]

theorem dybNextTypdex_of_rest {b : Dybuf} {first : UInt8} {r : List UInt8}
    (hlt : b.data.length < 2 ^ 32) (h : rest b = first :: r)
    (hr : headerWidth first ≤ r.length + 1) :
    dybNextTypdex b = .ok (headerOf first r, advance (headerWidth first) b) := by
  rw [dybNextTypdex, bind_ok (dybPeekU8_of_rest hlt h), cascade_eq]
  have hpos := widthOf_pos first
  by_cases hw : widthOf first ≤ 4
  · rw [headerWidth, if_pos hw] at hr
    rw [headerOf, headerWidth, if_pos hw, if_pos hw]
    have htake : ∀ n, widthOf first = n → takeUint n 0 b =
        .ok (ofBytes (first :: r.take (n - 1)), advance n b) := by
      intro n hn
      refine takeUint_of_rest (r := r.drop (n - 1)) hlt ?_ ?_
      · rw [h, List.cons_append, List.take_append_drop]
      · rw [List.length_cons, List.length_take]
        omega
    split_ifs with h1 h2 h3 h4
    · rw [dybNextU8, bind_ok (htake 1 h1), h1, pure_apply]
    · rw [dybNextU16, bind_ok (htake 2 h2), h2, pure_apply]
    · rw [dybNextU24, bind_ok (htake 3 h3), h3, pure_apply]
    · rw [dybNextU32, bind_ok (htake 4 h4), h4, pure_apply]
    · omega
  · rw [headerOf, headerWidth, if_neg hw, if_neg hw, if_neg (by omega), if_neg (by omega),
      if_neg (by omega), if_neg (by omega), pure_apply, advance_zero]

theorem dybPeekTypdex_of_rest {b : Dybuf} {first : UInt8} {r : List UInt8}
    (hlt : b.data.length < 2 ^ 32) (h : rest b = first :: r)
    (hr : headerWidth first ≤ r.length + 1) :
    dybPeekTypdex b = .ok (headerOf first r, b) := by
  rw [dybPeekTypdex, bind_ok (dybPeekU8_of_rest hlt h), cascade_eq]
  have hpos := widthOf_pos first
  by_cases hw : widthOf first ≤ 4
  · rw [headerWidth, if_pos hw] at hr
    rw [headerOf, if_pos hw]
    have hlook : ∀ n, widthOf first = n → lookUint n 0 0 b =
        .ok (ofBytes (first :: r.take (n - 1)), b) := by
      intro n hn
      refine lookUint_of_rest (r := r.drop (n - 1)) hlt ?_ ?_
      · rw [List.drop_zero, h, List.cons_append, List.take_append_drop]
      · rw [List.length_cons, List.length_take]
        omega
    split_ifs with h1 h2 h3 h4
    · rw [dybPeekU8, bind_ok (hlook 1 h1), h1, pure_apply]
    · rw [dybPeekU16, bind_ok (hlook 2 h2), h2, pure_apply]
    · rw [dybPeekU24, bind_ok (hlook 3 h3), h3, pure_apply]
    · rw [dybPeekU32, bind_ok (hlook 4 h4), h4, pure_apply]
    · omega
  · rw [headerOf, if_neg hw, if_neg (by omega), if_neg (by omega),
      if_neg (by omega), if_neg (by omega), pure_apply]

/-- A header cut off by the end of the memory makes the reader run over it. -/
theorem dybNextTypdex_fault {b : Dybuf} (hlt : b.data.length < 2 ^ 32)
    (hp : b.position ≤ b.data.length)
    (h : ∀ first r, rest b = first :: r → r.length + 1 < headerWidth first) :
    ∃ off, dybNextTypdex b = .error (.readOutside off) := by
  cases hc : rest b with
  | nil =>
    have hlen := rest_length b
    rw [hc, List.length_nil] at hlen
    have hu : uint (b.position + 0) = b.position := uint_of_lt (by omega)
    have hlook : lookByte 0 b = .error (.readOutside b.position) := by
      rw [lookByte, hu, List.getElem?_eq_none (by omega)]
    have hpeek : dybPeekU8 b = .error (.readOutside b.position) := by
      rw [dybPeekU8, lookUint, bind_error hlook]
    exact ⟨_, by rw [dybNextTypdex, bind_error hpeek]⟩
  | cons first r =>
    have hshort := h first r hc
    have hlen := rest_length b
    rw [hc, List.length_cons] at hlen
    have hw : widthOf first ≤ 4 := by
      by_contra hw
      rw [headerWidth, if_neg hw] at hshort
      omega
    rw [headerWidth, if_pos hw] at hshort
    have hfault : ∀ n, widthOf first = n → takeUint n 0 b =
        .error (.readOutside b.data.length) := fun n hn =>
      takeUint_fault hlt hp (by omega)
    refine ⟨b.data.length, ?_⟩
    rw [dybNextTypdex, bind_ok (dybPeekU8_of_rest hlt hc), cascade_eq]
    have hpos := widthOf_pos first
    split_ifs with h1 h2 h3 h4
    · rw [dybNextU8, bind_error (hfault 1 h1)]
    · rw [dybNextU16, bind_error (hfault 2 h2)]
    · rw [dybNextU24, bind_error (hfault 3 h3)]
    · rw [dybNextU32, bind_error (hfault 4 h4)]
    · omega

/-- The same header is out of reach of the one that only looks. -/
theorem dybPeekTypdex_fault {b : Dybuf} (hlt : b.data.length < 2 ^ 32)
    (hp : b.position ≤ b.data.length)
    (h : ∀ first r, rest b = first :: r → r.length + 1 < headerWidth first) :
    ∃ off, dybPeekTypdex b = .error (.readOutside off) := by
  refine ⟨b.data.length, ?_⟩
  cases hc : rest b with
  | nil =>
    have hlen := rest_length b
    rw [hc, List.length_nil] at hlen
    have hpeek : dybPeekU8 b = .error (.readOutside b.data.length) :=
      lookUint_fault hlt hp (by omega)
    rw [dybPeekTypdex, bind_error hpeek]
  | cons first r =>
    have hshort := h first r hc
    have hlen := rest_length b
    rw [hc, List.length_cons] at hlen
    have hw : widthOf first ≤ 4 := by
      by_contra hw
      rw [headerWidth, if_neg hw] at hshort
      omega
    rw [headerWidth, if_pos hw] at hshort
    have hfault : ∀ n, widthOf first = n → lookUint n 0 0 b =
        .error (.readOutside b.data.length) := fun n hn =>
      lookUint_fault hlt hp (by omega)
    rw [dybPeekTypdex, bind_ok (dybPeekU8_of_rest hlt hc), cascade_eq]
    have hpos := widthOf_pos first
    split_ifs with h1 h2 h3 h4
    · omega
    · rw [dybPeekU16, bind_error (hfault 2 h2)]
    · rw [dybPeekU24, bind_error (hfault 3 h3)]
    · rw [dybPeekU32, bind_error (hfault 4 h4)]
    · omega

theorem headerFields_one (v : Nat) : headerFields 1 v = (v / 8 % 16, v % 8) :=
  Prod.ext ((Nat.and_two_pow_sub_one_eq_mod _ 4).trans (by rw [Nat.shiftRight_eq_div_pow]))
    (Nat.and_two_pow_sub_one_eq_mod v 3)

theorem headerFields_two (v : Nat) : headerFields 2 v = (v / 256 % 256 % 64, v % 256) :=
  Prod.ext ((Nat.and_two_pow_sub_one_eq_mod _ 6).trans
    (by rw [Nat.and_two_pow_sub_one_eq_mod _ 8, Nat.shiftRight_eq_div_pow]))
    (Nat.and_two_pow_sub_one_eq_mod v 8)

theorem headerFields_three (v : Nat) : headerFields 3 v = (v / 8192 % 256 % 256, v % 8192) :=
  Prod.ext ((Nat.and_two_pow_sub_one_eq_mod _ 8).trans
    (by rw [Nat.and_two_pow_sub_one_eq_mod _ 8, Nat.shiftRight_eq_div_pow]))
    (Nat.and_two_pow_sub_one_eq_mod v 13)

theorem headerFields_four (v : Nat) :
    headerFields 4 v = (v / 1048576 % 256 % 256, v % 1048576) :=
  Prod.ext ((Nat.and_two_pow_sub_one_eq_mod _ 8).trans
    (by rw [Nat.and_two_pow_sub_one_eq_mod _ 8, Nat.shiftRight_eq_div_pow]))
    (Nat.and_two_pow_sub_one_eq_mod v 20)

theorem headerFields_mark {type index : Nat} (h : typdexFits type index) :
    headerFields (typdexCode type index).1
      (mark (typdexCode type index).1 + (typdexCode type index).2) = (type, index) := by
  obtain ⟨ht, hi⟩ := h
  unfold typdexCode
  split_ifs with h1 h2 h3
  · rw [headerFields_one, show mark 1 = 0 from rfl]
    exact Prod.ext (by simp only; omega) (by simp only; omega)
  · rw [headerFields_two, show mark 2 = 0x8000 from rfl]
    exact Prod.ext (by simp only; omega) (by simp only; omega)
  · rw [headerFields_three, show mark 3 = 0xC00000 from rfl]
    exact Prod.ext (by simp only; omega) (by simp only; omega)
  · rw [headerFields_four, show mark 4 = 0xE0000000 from rfl]
    exact Prod.ext (by simp only; omega) (by simp only; omega)

theorem typdexBytes_read {type index : Nat} (h : typdexFits type index) (r : List UInt8) :
    ∃ first body, typdexBytes type index = first :: body ∧
      headerWidth first = body.length + 1 ∧ headerOf first (body ++ r) = (type, index) := by
  obtain ⟨h1, h4⟩ := typdexCode_width type index
  obtain ⟨first, hc, hw, -⟩ := code_eq_cons h1 (by omega) (typdexCode_payload h)
  refine ⟨first, _, by rw [typdexBytes, if_pos h, hc], ?_, ?_⟩
  · rw [headerWidth, hw, if_pos h4, toBytes_length]
    omega
  · rw [headerOf, hw, if_pos h4, List.take_left' (toBytes_length _ _), ← hc, code,
      ofBytes_toBytes_of_lt, headerFields_mark h]
    have hp := typdexCode_payload h
    have hm : mark (typdexCode type index).1 + 2 ^ (7 * (typdexCode type index).1) ≤
        256 ^ (typdexCode type index).1 := by
      generalize (typdexCode type index).1 = w at h1 h4
      interval_cases w <;> decide
    omega

end Decoding

theorem dybNextTypdex_bytes {b : Dybuf} {type index : Nat} {r : List UInt8}
    (hlt : b.data.length < 2 ^ 32) (hfit : typdexFits type index)
    (h : rest b = typdexBytes type index ++ r) :
    dybNextTypdex b = .ok ((type, index), advance (typdexBytes type index).length b) := by
  obtain ⟨first, body, hb, hw, hf⟩ := typdexBytes_read hfit r
  rw [hb, List.cons_append] at h
  rw [dybNextTypdex_of_rest hlt h (by rw [hw, List.length_append]; omega), hf, hw, hb,
    List.length_cons]

theorem dybPeekTypdex_bytes {b : Dybuf} {type index : Nat} {r : List UInt8}
    (hlt : b.data.length < 2 ^ 32) (hfit : typdexFits type index)
    (h : rest b = typdexBytes type index ++ r) :
    dybPeekTypdex b = .ok ((type, index), b) := by
  obtain ⟨first, body, hb, hw, hf⟩ := typdexBytes_read hfit r
  rw [hb, List.cons_append] at h
  rw [dybPeekTypdex_of_rest hlt h (by rw [hw, List.length_append]; omega), hf]

end LcClibs.Buffer.Typdex
