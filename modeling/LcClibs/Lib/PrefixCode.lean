import Mathlib
import LcClibs.Lib.BigEndian

namespace LcClibs.Lib.PrefixCode

open BigEndian

/-- The number of bytes announced by a first byte: one more than the count of
its leading one bits. -/
def widthOf (b : UInt8) : Nat :=
  if b.toNat < 128 then 1 else if b.toNat < 192 then 2 else if b.toNat < 224 then 3
  else if b.toNat < 240 then 4 else if b.toNat < 248 then 5 else if b.toNat < 252 then 6
  else if b.toNat < 254 then 7 else if b.toNat < 255 then 8 else 9

/-- The leading ones of an `n`-byte code, in place above its `7 * n` payload bits. -/
def mark (n : Nat) : Nat := (2 ^ (n - 1) - 1) * 2 ^ (7 * n + 1)

/-- The `n`-byte code of a payload below `2 ^ (7 * n)`. -/
def code (n p : Nat) : List UInt8 := toBytes n (mark n + p)

def headBits (n : Nat) (b : UInt8) : Nat := b.toNat % 2 ^ (8 - n)

@[simp] theorem code_length (n p : Nat) : (code n p).length = n := by simp [code]

theorem widthOf_pos (b : UInt8) : 0 < widthOf b := by
  unfold widthOf
  split_ifs <;> decide

theorem widthOf_eq {b : UInt8} {n : Nat} (h1 : 1 ≤ n) (h8 : n ≤ 8)
    (hlo : 256 - 2 ^ (9 - n) ≤ b.toNat) (hhi : b.toNat < 256 - 2 ^ (8 - n)) : widthOf b = n := by
  unfold widthOf
  interval_cases n <;> simp only [Nat.reduceSub, Nat.reducePow] at hlo hhi <;> split_ifs <;> omega

theorem widthOf_le (b : UInt8) : widthOf b ≤ 9 := by
  unfold widthOf
  split_ifs <;> decide

theorem widthOf_eq_bits (b : UInt8) :
    widthOf b = if b.toNat &&& 0x80 = 0 then 1 else if b.toNat &&& 0x40 = 0 then 2
      else if b.toNat &&& 0x20 = 0 then 3 else if b.toNat &&& 0x10 = 0 then 4
      else if b.toNat &&& 0x08 = 0 then 5 else if b.toNat &&& 0x04 = 0 then 6
      else if b.toNat &&& 0x02 = 0 then 7 else if b.toNat &&& 0x01 = 0 then 8 else 9 := by
  have hall : ∀ i : Fin 256, widthOf (UInt8.ofNat i) =
      if i.val &&& 0x80 = 0 then 1 else if i.val &&& 0x40 = 0 then 2
      else if i.val &&& 0x20 = 0 then 3 else if i.val &&& 0x10 = 0 then 4
      else if i.val &&& 0x08 = 0 then 5 else if i.val &&& 0x04 = 0 then 6
      else if i.val &&& 0x02 = 0 then 7 else if i.val &&& 0x01 = 0 then 8 else 9 := by
    decide +kernel
  have h := hall ⟨b.toNat, b.toNat_lt⟩
  rwa [UInt8.ofNat_toNat] at h

theorem mark_or {n p : Nat} (hp : p < 2 ^ (7 * n)) : mark n ||| p = mark n + p := by
  have hlt : p < 2 ^ (7 * n + 1) := hp.trans (Nat.pow_lt_pow_right (by decide) (by omega))
  rw [mark, Nat.mul_comm, Nat.two_pow_add_eq_or_of_lt hlt]

/-- A code splits into its marked first byte and the plain low bytes of the payload. -/
theorem code_eq_cons {n p : Nat} (h1 : 1 ≤ n) (h8 : n ≤ 8) (hp : p < 2 ^ (7 * n)) :
    ∃ b, code n p = b :: toBytes (n - 1) p ∧ widthOf b = n ∧
      headBits n b = p / 256 ^ (n - 1) := by
  obtain ⟨m, rfl⟩ : ∃ m, n = m + 1 := ⟨n - 1, by omega⟩
  have hm : mark (m + 1) = (2 ^ m - 1) * 2 ^ (8 - m) * 256 ^ m := by
    have h256 : (256 : Nat) ^ m = 2 ^ (8 * m) := by rw [pow_mul]; norm_num
    rw [mark, h256, Nat.add_sub_cancel, mul_assoc, ← pow_add]
    congr 2
    omega
  have hb : (mark (m + 1) + p) >>> (8 * m) = (2 ^ m - 1) * 2 ^ (8 - m) + p / 256 ^ m := by
    have h256 : (2 : Nat) ^ (8 * m) = 256 ^ m := by rw [pow_mul]; norm_num
    rw [Nat.shiftRight_eq_div_pow, h256, hm, Nat.add_comm,
      Nat.add_mul_div_right _ _ (by positivity), Nat.add_comm]
  have hhead : p / 256 ^ m < 2 ^ (7 - m) := by
    have h256 : (256 : Nat) ^ m = 2 ^ (8 * m) := by rw [pow_mul]; norm_num
    rw [Nat.div_lt_iff_lt_mul (by positivity), h256, ← pow_add]
    convert hp using 2
    omega
  have hval : (UInt8.ofNat ((2 ^ m - 1) * 2 ^ (8 - m) + p / 256 ^ m)).toNat =
      256 - 2 ^ (8 - m) + p / 256 ^ m := by
    have hm7 : m ≤ 7 := by omega
    rw [UInt8.toNat_ofNat']
    generalize p / 256 ^ m = q at hhead
    interval_cases m <;> simp only [Nat.reduceSub, Nat.reducePow] at hhead ⊢ <;> omega
  have hpow : 2 ^ (8 - m) = 2 * 2 ^ (7 - m) := by
    rw [← pow_succ']
    congr 1
    omega
  have hle : 2 ^ (8 - m) ≤ 2 ^ 8 := Nat.pow_le_pow_right (by decide) (by omega)
  have hlo : 256 - 2 ^ (8 - m) ≤ 256 - 2 ^ (8 - m) + p / 256 ^ m := Nat.le_add_right _ _
  have hhi : 256 - 2 ^ (8 - m) + p / 256 ^ m < 256 - 2 ^ (7 - m) := by
    generalize p / 256 ^ m = q at hhead
    omega
  refine ⟨UInt8.ofNat ((2 ^ m - 1) * 2 ^ (8 - m) + p / 256 ^ m), ?_, ?_, ?_⟩
  · rw [code, toBytes, hb, Nat.add_sub_cancel, hm, toBytes_add_mul]
  · refine widthOf_eq h1 h8 ?_ ?_
    · rwa [hval, show 9 - (m + 1) = 8 - m by omega]
    · rwa [hval, show 8 - (m + 1) = 7 - m by omega]
  · rw [headBits, hval, Nat.add_sub_cancel, show 8 - (m + 1) = 7 - m by omega]
    obtain ⟨k, hk⟩ : ∃ k, 256 - 2 ^ (8 - m) = 2 ^ (7 - m) * k := by
      refine ⟨2 ^ (m + 1) - 2, ?_⟩
      rw [Nat.mul_sub, ← pow_add, show 7 - m + (m + 1) = 8 by omega, hpow, Nat.mul_comm 2]
      rfl
    rw [hk, Nat.mul_add_mod, Nat.mod_eq_of_lt hhead]

/-- Every string of the announced width is the code of the payload it carries. -/
theorem cons_eq_code {b : UInt8} {bs : List UInt8} (h8 : widthOf b ≤ 8)
    (hlen : bs.length = widthOf b - 1) :
    b :: bs = code (widthOf b) (headBits (widthOf b) b * 256 ^ bs.length + ofBytes bs) := by
  have hb := b.toNat_lt
  have hfull : mark (widthOf b) + headBits (widthOf b) b * 256 ^ bs.length =
      b.toNat * 256 ^ bs.length := by
    rw [hlen]
    unfold mark headBits
    unfold widthOf at h8 ⊢
    split_ifs at h8 ⊢ <;> simp only [Nat.reduceSub, Nat.reducePow, Nat.reduceMul,
      Nat.reduceAdd] at h8 ⊢ <;> omega
  have hw : widthOf b = (b :: bs).length := by
    have := widthOf_pos b
    simp only [List.length_cons, hlen]
    omega
  rw [code, ← Nat.add_assoc, hfull, ← ofBytes_cons]
  conv_rhs => rw [hw]
  exact (toBytes_ofBytes (b :: bs)).symm

theorem payload_lt {b : UInt8} {bs : List UInt8} (h8 : widthOf b ≤ 8)
    (hlen : bs.length = widthOf b - 1) :
    headBits (widthOf b) b * 256 ^ bs.length + ofBytes bs < 2 ^ (7 * widthOf b) := by
  have hlt := ofBytes_lt bs
  have hh : headBits (widthOf b) b < 2 ^ (8 - widthOf b) := Nat.mod_lt _ (by positivity)
  have h256 : (256 : Nat) ^ bs.length = 2 ^ (8 * (widthOf b - 1)) := by
    rw [hlen, pow_mul]; norm_num
  have hsplit : 2 ^ (7 * widthOf b) = 2 ^ (8 - widthOf b) * (2 : Nat) ^ (8 * (widthOf b - 1)) := by
    have := widthOf_pos b
    rw [← pow_add]
    congr 1
    omega
  rw [h256] at hlt ⊢
  rw [hsplit]
  calc headBits (widthOf b) b * 2 ^ (8 * (widthOf b - 1)) + ofBytes bs
      < headBits (widthOf b) b * 2 ^ (8 * (widthOf b - 1)) + 2 ^ (8 * (widthOf b - 1)) := by omega
    _ = (headBits (widthOf b) b + 1) * 2 ^ (8 * (widthOf b - 1)) := by ring
    _ ≤ 2 ^ (8 - widthOf b) * 2 ^ (8 * (widthOf b - 1)) := Nat.mul_le_mul_right _ hh

end LcClibs.Lib.PrefixCode
