import Mathlib
import LcClibs.Hash.Expand

namespace LcClibs.Hash.Load

open Platform Lib.Runs Hash.UtHash Hash.Layout Hash.Buckets Hash.Expand

section Weight

def capacity (b : UTHashBucket) : Nat := (b.expandMult + 1) * hashBktCapacityThresh

/-- What a bucket costs: its multiplier, and one more for a chain that is full. -/
def weight (b : UTHashBucket) : Nat := b.expandMult + if b.count = capacity b then 1 else 0

/-- No chain is longer than its bucket allows, and the buckets as a whole do not allow more
than twice what they do at first. -/
structure Thrifty (buckets : List UTHashBucket) : Prop where
  chain : ∀ b ∈ buckets, b.count ≤ capacity b
  budget : (buckets.map weight).sum ≤ buckets.length

theorem thrifty_start (n : Nat) : Thrifty (List.replicate n ⟨0, 0, 0⟩) := by
  refine ⟨fun b hb => ?_, ?_⟩
  · obtain ⟨-, rfl⟩ := List.mem_replicate.mp hb
    exact Nat.zero_le _
  · simp [weight, capacity, hashBktCapacityThresh]

variable {buckets : List UTHashBucket} {b b' : UTHashBucket} {i : Nat}

theorem sum_set_le {f : UTHashBucket → Nat} (hb : buckets[i]? = some b) (hle : f b' ≤ f b) :
    ((buckets.set i b').map f).sum ≤ (buckets.map f).sum := by
  induction buckets generalizing i with
  | nil => exact le_rfl
  | cons c buckets ih =>
    cases i with
    | zero =>
      obtain rfl : c = b := by simpa using hb
      simpa using hle
    | succ i =>
      simpa using ih (by simpa using hb)

theorem Thrifty.set (h : Thrifty buckets) (hb : buckets[i]? = some b)
    (hmult : b'.expandMult = b.expandMult) (hcount : b'.count < capacity b ∨ b'.count ≤ b.count) :
    Thrifty (buckets.set i b') := by
  have hcap : capacity b' = capacity b := by rw [capacity, capacity, hmult]
  have hle := h.chain b (List.mem_of_getElem? hb)
  constructor
  · intro c hc
    obtain hc | rfl := List.mem_or_eq_of_mem_set hc
    · exact h.chain c hc
    · rw [hcap]
      omega
  · rw [List.length_set]
    refine (sum_set_le hb ?_).trans h.budget
    rw [weight, weight, hcap, hmult]
    split_ifs <;> omega

/-- Nineteen elements for each bucket, on the average. -/
theorem Thrifty.sum_count_le (h : Thrifty buckets) :
    (buckets.map UTHashBucket.count).sum ≤ 19 * buckets.length := by
  have hone : ∀ b ∈ buckets, b.count ≤ 10 * weight b + 9 := by
    intro b hb
    have hle := h.chain b hb
    rw [weight]
    split_ifs <;> simp only [capacity, hashBktCapacityThresh] at * <;> omega
  have hsum : (buckets.map UTHashBucket.count).sum ≤
      (buckets.map fun b => 10 * weight b + 9).sum := List.sum_le_sum hone
  have hlin : (buckets.map fun b => 10 * weight b + 9).sum =
      10 * (buckets.map weight).sum + 9 * buckets.length := by
    rw [List.sum_map_add, List.sum_map_mul_left, List.map_const', List.sum_replicate]
    simp [mul_comm]
  have := h.budget
  omega

end Weight

section Expansion

variable {s : HashState} {items : List Nat} {t t' : UTHashTable} {buckets : List UTHashBucket}
  {chain : Nat → List Nat}

theorem sum_count (hb : Bucketed s buckets chain items) (hnd : items.Nodup)
    (hhome : ∀ x, home s buckets.length x < buckets.length) :
    (buckets.map UTHashBucket.count).sum = items.length := by
  rw [← hb.sum_length hnd hhome, Finset.sum_range]
  rw [← List.sum_ofFn]
  congr 1
  refine List.ext_getElem (by simp) fun j h1 h2 => ?_
  rw [List.length_map] at h1
  rw [List.getElem_map, List.getElem_ofFn]
  exact (hb.bucket j _ (List.getElem?_eq_getElem h1)).2

/-- A chain that is at most ten times its share is within its bounds, and pays for them. -/
theorem multOf_pays {ideal : Nat} {b : UTHashBucket} (hideal : ideal ≤ 10) (h0 : ideal ≠ 0)
    (hmult : b.expandMult = multOf ideal b.count) :
    b.count ≤ capacity b ∧ ideal * weight b ≤ b.count := by
  have hlt := Nat.lt_mul_div_succ b.count (Nat.pos_of_ne_zero h0)
  have hle : ideal * (b.count / ideal + 1) ≤ 10 * (b.count / ideal + 1) :=
    Nat.mul_le_mul_right _ hideal
  rw [weight]
  simp only [capacity, hashBktCapacityThresh, hmult, multOf]
  split_ifs with hgt hfull hfull
  · -- a chain above its share is never full
    omega
  · exact ⟨by omega, by simpa using Nat.mul_div_le b.count ideal⟩
  · omega
  · omega

/-- Doubling the buckets in time restores what an addition may have broken. -/
theorem thrifty_of_expanded (h : Expanded s items t t') (hb : Bucketed s t'.buckets chain items)
    (hnd : items.Nodup) (hne : items ≠ []) (hload : items.length ≤ 20 * t.numBuckets) :
    Thrifty t'.buckets := by
  have hlen := h.ok.buckets
  have hpos : 0 < t'.numBuckets := by
    rw [h.ok.power]
    exact Nat.two_pow_pos _
  have hitems := List.length_pos_iff.mpr hne
  have hnum := h.numBuckets
  have hideal : t'.idealChainMaxlen ≤ 10 := by
    rw [h.ideal]
    refine Nat.lt_succ_iff.mp ((Nat.div_lt_iff_lt_mul hpos).mpr ?_)
    omega
  have h0 : t'.idealChainMaxlen ≠ 0 := by
    rw [h.ideal]
    exact (Nat.div_pos (by omega) hpos).ne'
  have hceil : items.length ≤ t'.idealChainMaxlen * t'.numBuckets := by
    rw [h.ideal]
    have := Nat.lt_div_mul_add (a := items.length + t'.numBuckets - 1) hpos
    omega
  have hpay : ∀ b ∈ t'.buckets,
      b.count ≤ capacity b ∧ t'.idealChainMaxlen * weight b ≤ b.count := by
    intro b hmem
    obtain ⟨j, hj⟩ := List.mem_iff_getElem?.mp hmem
    exact multOf_pays hideal h0 (h.bucket j b hj).2
  refine ⟨fun b hmem => (hpay b hmem).1, ?_⟩
  have hsum : t'.idealChainMaxlen * (t'.buckets.map weight).sum ≤ items.length := by
    rw [← sum_count hb hnd (h.ok.home_lt s), ← List.sum_map_mul_left]
    exact List.sum_le_sum fun b hmem => (hpay b hmem).2
  rw [hlen]
  exact Nat.le_of_mul_le_mul_left (hsum.trans hceil) (Nat.pos_of_ne_zero h0)

end Expansion

end LcClibs.Hash.Load
