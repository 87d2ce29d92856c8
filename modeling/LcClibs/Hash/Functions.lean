import Mathlib
import LcClibs.Hash.UtHash

namespace LcClibs.Hash.Functions

open Platform Hash.UtHash

section Model

variable (bytes : Nat → UInt8)

def byteLoop (step : UInt32 → UInt8 → UInt32) : Nat → Nat → UInt32 → UInt32
  | _, 0, hashv => hashv
  | key, n + 1, hashv => byteLoop step (key + 1) n (step hashv (bytes key))

def hashBer (key keylen : Nat) : UInt32 :=
  byteLoop bytes (fun hashv b => (hashv <<< 5) + hashv + b.toUInt32) key (uint keylen) 0

def hashSax (key keylen : Nat) : UInt32 :=
  byteLoop bytes (fun hashv b => hashv ^^^ ((hashv <<< 5) + (hashv >>> 2) + b.toUInt32)) key
    keylen 0

def hashFnv (key keylen : Nat) : UInt32 :=
  byteLoop bytes (fun hashv b => (hashv ^^^ b.toUInt32) * 16777619) key keylen 2166136261

def oatStep (hashv : UInt32) (b : UInt8) : UInt32 :=
  let hashv := hashv + b.toUInt32
  let hashv := hashv + (hashv <<< 10)
  hashv ^^^ (hashv >>> 6)

def hashOat (key keylen : Nat) : UInt32 :=
  let hashv := byteLoop bytes oatStep key keylen 0
  let hashv := hashv + (hashv <<< 3)
  let hashv := hashv ^^^ (hashv >>> 11)
  hashv + (hashv <<< 15)

structure Jen where
  i : UInt32
  j : UInt32
  hashv : UInt32
  deriving DecidableEq, Repr

def hashJenMix (v : Jen) : Jen :=
  let a := v.i; let b := v.j; let c := v.hashv
  let a := a - b; let a := a - c; let a := a ^^^ (c >>> 13)
  let b := b - c; let b := b - a; let b := b ^^^ (a <<< 8)
  let c := c - a; let c := c - b; let c := c ^^^ (b >>> 13)
  let a := a - b; let a := a - c; let a := a ^^^ (c >>> 12)
  let b := b - c; let b := b - a; let b := b ^^^ (a <<< 16)
  let c := c - a; let c := c - b; let c := c ^^^ (b >>> 5)
  let a := a - b; let a := a - c; let a := a ^^^ (c >>> 3)
  let b := b - c; let b := b - a; let b := b ^^^ (a <<< 10)
  let c := c - a; let c := c - b; let c := c ^^^ (b >>> 15)
  ⟨a, b, c⟩

def byteAt (key shift : Nat) : UInt32 := (bytes key).toUInt32 <<< shift.toUInt32

def word (key : Nat) : UInt32 :=
  byteAt bytes key 0 + byteAt bytes (key + 1) 8 + byteAt bytes (key + 2) 16 +
    byteAt bytes (key + 3) 24

/-- A case of the switch, which is skipped for a byte behind the key. -/
def caseAt (key k m shift : Nat) : UInt32 := if m < k then byteAt bytes (key + m) shift else 0

/-- The cases of the switch fall through, so all bytes that are left are added. -/
def hashJenTail (key k : Nat) (v : Jen) : Jen where
  i := v.i + caseAt bytes key k 3 24 + caseAt bytes key k 2 16 + caseAt bytes key k 1 8 +
    caseAt bytes key k 0 0
  j := v.j + caseAt bytes key k 7 24 + caseAt bytes key k 6 16 + caseAt bytes key k 5 8 +
    caseAt bytes key k 4 0
  hashv := v.hashv + caseAt bytes key k 10 24 + caseAt bytes key k 9 16 + caseAt bytes key k 8 8

/-- Blocks of twelve bytes, and what is left of the key behind them. -/
def hashJenLoop (keylen : UInt32) (key k : Nat) (v : Jen) : UInt32 :=
  if 12 ≤ k then
    hashJenLoop keylen (key + 12) (k - 12) (hashJenMix
      ⟨v.i + word bytes key, v.j + word bytes (key + 4), v.hashv + word bytes (key + 8)⟩)
  else (hashJenMix (hashJenTail bytes key k { v with hashv := v.hashv + keylen })).hashv
termination_by k

/-- The hash function that `HASH_FCN` is unless it is defined otherwise. -/
def hashJen (key keylen : Nat) : UInt32 :=
  hashJenLoop bytes keylen.toUInt32 key (uint keylen) ⟨0x9e3779b9, 0x9e3779b9, 0xfeedbeef⟩

def get16bits (key : Nat) : UInt32 := byteAt bytes (key + 1) 8 + byteAt bytes key 0

def sfhTail (key rem : Nat) (hashv : UInt32) : UInt32 :=
  if rem = 3 then
    let hashv := hashv + get16bits bytes key
    let hashv := hashv ^^^ (hashv <<< 16)
    let hashv := hashv ^^^ byteAt bytes (key + 2) 18
    hashv + (hashv >>> 11)
  else if rem = 2 then
    let hashv := hashv + get16bits bytes key
    let hashv := hashv ^^^ (hashv <<< 11)
    hashv + (hashv >>> 17)
  else if rem = 1 then
    let hashv := hashv + byteAt bytes key 0
    let hashv := hashv ^^^ (hashv <<< 10)
    hashv + (hashv >>> 1)
  else hashv

def sfhLoop (rem : Nat) : Nat → Nat → UInt32 → UInt32
  | key, 0, hashv => sfhTail bytes key rem hashv
  | key, len + 1, hashv =>
    let hashv := hashv + get16bits bytes key
    let tmp := (get16bits bytes (key + 2) <<< 11) ^^^ hashv
    let hashv := (hashv <<< 16) ^^^ tmp
    sfhLoop rem (key + 4) len (hashv + (hashv >>> 11))

def hashSfh (key keylen : Nat) : UInt32 :=
  let hashv := sfhLoop bytes (uint keylen &&& 3) key (uint keylen >>> 2) 0xcafebabe
  let hashv := hashv ^^^ (hashv <<< 3)
  let hashv := hashv + (hashv >>> 5)
  let hashv := hashv ^^^ (hashv <<< 4)
  let hashv := hashv + (hashv >>> 17)
  let hashv := hashv ^^^ (hashv <<< 25)
  hashv + (hashv >>> 6)

end Model

section Reads

variable {bytes bytes' : Nat → UInt8} {p q n : Nat}

theorem bytesAt_eq_iff :
    bytesAt bytes p n = bytesAt bytes' q n ↔ ∀ i < n, bytes (p + i) = bytes' (q + i) := by
  rw [bytesAt, bytesAt, List.map_inj_left]
  simp only [List.mem_range]

theorem byteAt_congr {i : Nat} (shift : Nat) (h : ∀ i < n, bytes (p + i) = bytes' (q + i))
    (hi : i < n) : byteAt bytes (p + i) shift = byteAt bytes' (q + i) shift := by
  rw [byteAt, byteAt, h i hi]

theorem agree_of_add {k m : Nat} (h : ∀ i < n, bytes (p + i) = bytes' (q + i)) (hn : m + k ≤ n) :
    ∀ i < k, bytes (p + m + i) = bytes' (q + m + i) := by
  intro i hi
  rw [Nat.add_assoc, Nat.add_assoc]
  exact h (m + i) (by omega)

theorem byteLoop_congr (step : UInt32 → UInt8 → UInt32) (hashv : UInt32)
    (h : ∀ i < n, bytes (p + i) = bytes' (q + i)) :
    byteLoop bytes step p n hashv = byteLoop bytes' step q n hashv := by
  induction n generalizing p q hashv with
  | zero => rfl
  | succ n ih =>
    have h0 : bytes p = bytes' q := h 0 (Nat.succ_pos n)
    rw [byteLoop, byteLoop, h0]
    exact ih _ (agree_of_add h (by omega))

theorem word_congr (h : ∀ i < n, bytes (p + i) = bytes' (q + i)) (hn : 4 ≤ n) :
    word bytes p = word bytes' q := by
  have h0 := byteAt_congr 0 h (show 0 < n by omega)
  rw [word, word, byteAt_congr 8 h (show 1 < n by omega), byteAt_congr 16 h (show 2 < n by omega),
    byteAt_congr 24 h (show 3 < n by omega), show byteAt bytes p 0 = byteAt bytes' q 0 from h0]

theorem get16bits_congr (h : ∀ i < n, bytes (p + i) = bytes' (q + i)) (hn : 2 ≤ n) :
    get16bits bytes p = get16bits bytes' q := by
  have h0 := byteAt_congr 0 h (show 0 < n by omega)
  rw [get16bits, get16bits, byteAt_congr 8 h (show 1 < n by omega),
    show byteAt bytes p 0 = byteAt bytes' q 0 from h0]

theorem caseAt_congr (m shift : Nat) (h : ∀ i < n, bytes (p + i) = bytes' (q + i)) :
    caseAt bytes p n m shift = caseAt bytes' q n m shift := by
  rw [caseAt, caseAt]
  split_ifs with hm
  · exact byteAt_congr shift h hm
  · rfl

theorem hashJenLoop_congr (keylen : UInt32) (v : Jen)
    (h : ∀ i < n, bytes (p + i) = bytes' (q + i)) :
    hashJenLoop bytes keylen p n v = hashJenLoop bytes' keylen q n v := by
  induction n using Nat.strong_induction_on generalizing p q v with
  | _ n ih =>
    rw [hashJenLoop.eq_1 bytes, hashJenLoop.eq_1 bytes']
    split_ifs with hn
    · rw [word_congr h (by omega), word_congr (agree_of_add h (show 4 + 4 ≤ n by omega)) le_rfl,
        word_congr (agree_of_add h (show 8 + 4 ≤ n by omega)) le_rfl]
      exact ih (n - 12) (by omega) _ (agree_of_add h (by omega))
    · simp only [hashJenTail, caseAt_congr _ _ h]

theorem sfhTail_congr {rem : Nat} (hashv : UInt32)
    (h : ∀ i < rem, bytes (p + i) = bytes' (q + i)) :
    sfhTail bytes p rem hashv = sfhTail bytes' q rem hashv := by
  rw [sfhTail, sfhTail]
  split_ifs with h3 h2 h1
  · rw [get16bits_congr h (by omega), byteAt_congr 18 h (show 2 < rem by omega)]
  · rw [get16bits_congr h (by omega)]
  · have h0 := byteAt_congr 0 h (show 0 < rem by omega)
    rw [show byteAt bytes p 0 = byteAt bytes' q 0 from h0]
  · rfl

theorem sfhLoop_congr {rem len : Nat} (hashv : UInt32)
    (h : ∀ i < 4 * len + rem, bytes (p + i) = bytes' (q + i)) :
    sfhLoop bytes rem p len hashv = sfhLoop bytes' rem q len hashv := by
  induction len generalizing p q hashv with
  | zero => exact sfhTail_congr hashv (by simpa using h)
  | succ len ih =>
    rw [sfhLoop, sfhLoop, get16bits_congr h (by omega),
      get16bits_congr (agree_of_add h (show 2 + 2 ≤ 4 * (len + 1) + rem by omega)) le_rfl]
    exact ih _ (agree_of_add h (by omega))

end Reads

section Instances

/-- Equal keys have equal hash values, wherever they are in memory. -/
theorem reads_key {bytes bytes' : Nat → UInt8} {p q n : Nat}
    (h : bytesAt bytes p n = bytesAt bytes' q n) :
    hashBer bytes p n = hashBer bytes' q n ∧ hashSax bytes p n = hashSax bytes' q n ∧
      hashFnv bytes p n = hashFnv bytes' q n ∧ hashOat bytes p n = hashOat bytes' q n ∧
      hashJen bytes p n = hashJen bytes' q n ∧ hashSfh bytes p n = hashSfh bytes' q n := by
  have hall := bytesAt_eq_iff.mp h
  have huint : ∀ i < uint n, bytes (p + i) = bytes' (q + i) := fun i hi =>
    hall i (hi.trans_le (uint_le n))
  refine ⟨byteLoop_congr _ _ huint, byteLoop_congr _ _ hall, byteLoop_congr _ _ hall, ?_,
    hashJenLoop_congr _ _ huint, ?_⟩
  · rw [hashOat, hashOat, byteLoop_congr _ _ hall]
  · have hlen : 4 * (uint n >>> 2) + (uint n &&& 3) = uint n := by
      rw [Nat.shiftRight_eq_div_pow, show 3 = 2 ^ 2 - 1 from rfl, Nat.and_two_pow_sub_one_eq_mod]
      exact Nat.div_add_mod _ _
    rw [hashSfh, hashSfh, sfhLoop_congr _ (by rwa [hlen])]

def ber : HashFcn := ⟨hashBer, fun _ _ _ _ _ h => (reads_key h).1⟩
def sax : HashFcn := ⟨hashSax, fun _ _ _ _ _ h => (reads_key h).2.1⟩
def fnv : HashFcn := ⟨hashFnv, fun _ _ _ _ _ h => (reads_key h).2.2.1⟩
def oat : HashFcn := ⟨hashOat, fun _ _ _ _ _ h => (reads_key h).2.2.2.1⟩
def jen : HashFcn := ⟨hashJen, fun _ _ _ _ _ h => (reads_key h).2.2.2.2.1⟩
def sfh : HashFcn := ⟨hashSfh, fun _ _ _ _ _ h => (reads_key h).2.2.2.2.2⟩

end Instances

end LcClibs.Hash.Functions
