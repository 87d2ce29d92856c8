import Mathlib

namespace LcClibs.Lib.BigEndian

/-- The lowest `n` bytes of a number, the most significant one first. -/
def toBytes : Nat → Nat → List UInt8
  | 0, _ => []
  | n + 1, v => UInt8.ofNat (v >>> (8 * n)) :: toBytes n v

/-- The number a byte string stands for, read from a given accumulator on. -/
def ofBytesFrom (acc : Nat) (bs : List UInt8) : Nat :=
  bs.foldl (fun acc b => acc * 256 + b.toNat) acc

def ofBytes (bs : List UInt8) : Nat := ofBytesFrom 0 bs

@[simp] theorem toBytes_length (n v : Nat) : (toBytes n v).length = n := by
  induction n with
  | zero => rfl
  | succ n ih => simp [toBytes, ih]

@[simp] theorem ofBytesFrom_nil (acc : Nat) : ofBytesFrom acc [] = acc := rfl

@[simp] theorem ofBytesFrom_cons (acc : Nat) (b : UInt8) (bs : List UInt8) :
    ofBytesFrom acc (b :: bs) = ofBytesFrom (acc * 256 + b.toNat) bs := rfl

theorem ofBytesFrom_eq (acc : Nat) (bs : List UInt8) :
    ofBytesFrom acc bs = acc * 256 ^ bs.length + ofBytes bs := by
  induction bs generalizing acc with
  | nil => simp [ofBytes]
  | cons b bs ih =>
    have h : ofBytes (b :: bs) = b.toNat * 256 ^ bs.length + ofBytes bs := by
      rw [← ih, ofBytes, ofBytesFrom_cons, Nat.zero_mul, Nat.zero_add]
    rw [ofBytesFrom_cons, ih, h, List.length_cons, pow_succ]
    ring

theorem ofBytes_cons (b : UInt8) (bs : List UInt8) :
    ofBytes (b :: bs) = b.toNat * 256 ^ bs.length + ofBytes bs := by
  rw [← ofBytesFrom_eq, ofBytes, ofBytesFrom_cons, Nat.zero_mul, Nat.zero_add]

theorem ofBytes_lt (bs : List UInt8) : ofBytes bs < 256 ^ bs.length := by
  induction bs with
  | nil => simp [ofBytes]
  | cons b bs ih =>
    have hb : b.toNat < 256 := b.toNat_lt
    have hm : b.toNat * 256 ^ bs.length ≤ 255 * 256 ^ bs.length :=
      Nat.mul_le_mul_right _ (by omega)
    rw [ofBytes_cons, List.length_cons, pow_succ]
    omega

/-- Shifting in one more byte is the positional step of `ofBytesFrom`. -/
theorem shiftLeft_or_byte (acc : Nat) (b : UInt8) :
    (acc <<< 8) ||| b.toNat = acc * 256 + b.toNat := by
  rw [← Nat.shiftLeft_add_eq_or_of_lt (i := 8) b.toNat_lt, Nat.shiftLeft_eq]

theorem ofBytes_toBytes (n v : Nat) : ofBytes (toBytes n v) = v % 256 ^ n := by
  induction n with
  | zero => simp [toBytes, ofBytes, Nat.mod_one]
  | succ n ih =>
    have hp : (2 : Nat) ^ (8 * n) = 256 ^ n := by rw [pow_mul]; norm_num
    rw [toBytes, ofBytes_cons, ih, toBytes_length, UInt8.toNat_ofNat',
      Nat.shiftRight_eq_div_pow, hp, pow_succ 256 n, Nat.mod_mul, Nat.mul_comm (256 ^ n)]
    exact Nat.add_comm _ _

theorem ofBytes_toBytes_of_lt {n v : Nat} (h : v < 256 ^ n) : ofBytes (toBytes n v) = v := by
  rw [ofBytes_toBytes, Nat.mod_eq_of_lt h]

theorem toBytes_add_mul (n v k : Nat) : toBytes n (k * 256 ^ n + v) = toBytes n v := by
  have hbyte : ∀ m, m < n → UInt8.ofNat ((k * 256 ^ n + v) >>> (8 * m)) =
      UInt8.ofNat (v >>> (8 * m)) := by
    intro m hm
    obtain ⟨d, rfl⟩ : ∃ d, n = m + 1 + d := ⟨n - (m + 1), by omega⟩
    have hp : (2 : Nat) ^ (8 * m) = 256 ^ m := by rw [pow_mul]; norm_num
    have hk : k * 256 ^ (m + 1 + d) + v = v + 256 ^ m * (256 * (k * 256 ^ d)) := by ring
    apply UInt8.toNat_inj.mp
    rw [UInt8.toNat_ofNat', UInt8.toNat_ofNat', Nat.shiftRight_eq_div_pow,
      Nat.shiftRight_eq_div_pow, hp, hk, Nat.add_mul_div_left _ _ (by positivity)]
    omega
  have hall : ∀ m, m ≤ n → toBytes m (k * 256 ^ n + v) = toBytes m v := by
    intro m hm
    induction m with
    | zero => rfl
    | succ m ih => rw [toBytes, toBytes, hbyte m hm, ih (by omega)]
  exact hall n le_rfl

theorem toBytes_ofBytes (bs : List UInt8) : toBytes bs.length (ofBytes bs) = bs := by
  induction bs with
  | nil => rfl
  | cons b bs ih =>
    have hp : (2 : Nat) ^ (8 * bs.length) = 256 ^ bs.length := by rw [pow_mul]; norm_num
    have hlt := ofBytes_lt bs
    rw [List.length_cons, toBytes, ofBytes_cons, toBytes_add_mul, ih,
      Nat.shiftRight_eq_div_pow, hp]
    congr 1
    apply UInt8.toNat_inj.mp
    rw [UInt8.toNat_ofNat', Nat.add_comm, Nat.add_mul_div_right _ _ (by positivity),
      Nat.div_eq_of_lt hlt, Nat.zero_add]
    exact Nat.mod_eq_of_lt b.toNat_lt

end LcClibs.Lib.BigEndian
