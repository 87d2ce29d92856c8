import Mathlib
import LcClibs.Hash.Buckets

namespace LcClibs.Hash.Expand

open Platform Lib.Runs Lib.Links Hash.UtHash Hash.Layout Hash.Buckets

section Spread

variable {s s' : HashState} {new : List UTHashBucket} {ideal nonideal n : Nat} {P R own : List Nat}
  {x : Nat}

/-- The new bucket of an index after some items: they have been pushed to its front. -/
def spread (s : HashState) (n : Nat) (P : List Nat) (j : Nat) : List Nat :=
  (P.filter fun x => home s n x = j).reverse

def excess (ideal len : Nat) : Nat := len - ideal

def multOf (ideal len : Nat) : Nat := if len > ideal then len / ideal else 0

structure Spread (s : HashState) (n ideal : Nat) (new : List UTHashBucket) (nonideal : Nat)
    (P : List Nat) : Prop where
  length : new.length = n
  buckets : Bucketed s new (spread s n P) P
  mult : ∀ (j : Nat) (b : UTHashBucket), new[j]? = some b → b.expandMult = multOf ideal b.count
  surplus : nonideal = ∑ j ∈ Finset.range n, excess ideal (spread s n P j).length
  le : nonideal ≤ P.length

theorem spread_append (s : HashState) (n : Nat) (P : List Nat) (x : Nat) :
    spread s n (P ++ [x]) =
      Function.update (spread s n P) (home s n x) (x :: spread s n P (home s n x)) := by
  funext j
  rw [spread, List.filter_append, List.reverse_append]
  by_cases hj : j = home s n x
  · subst hj
    rw [Function.update_self]
    simp [spread]
  · rw [Function.update_of_ne hj]
    simp [spread, Ne.symm hj]

theorem spread_congr (hdata : data s' = data s) : spread s' n P = spread s n P := by
  funext j
  rw [spread, spread, home_of_data hdata]

theorem sum_bump {j k : Nat} (hj : j < n) {f g : Nat → Nat} (hne : ∀ i, i ≠ j → g i = f i)
    (hjk : g j = f j + k) : ∑ i ∈ Finset.range n, g i = ∑ i ∈ Finset.range n, f i + k := by
  rw [← Finset.add_sum_erase _ g (Finset.mem_range.mpr hj),
    ← Finset.add_sum_erase _ f (Finset.mem_range.mpr hj), hjk,
    Finset.sum_congr rfl fun i hi => hne i (Finset.ne_of_mem_erase hi)]
  exact Nat.add_right_comm _ _ _

end Spread

section Bucket

variable {s s' : HashState} {new : List UTHashBucket} {ideal nonideal n fuel : Nat}
  {P R own : List Nat} {x prev : Nat}

theorem overfull_ok (s : HashState) (count nonideal : Nat) {mult : Nat} (hideal : ideal ≠ 0)
    (hsmall : nonideal + 1 < 2 ^ 32) (hmult : mult = multOf ideal count) :
    ∃ rest mult', (if count + 1 > ideal then
        if ideal = 0 then throw .divByZero
        else return (uint (nonideal + 1), (count + 1) / ideal)
      else return (nonideal, mult) : HashM (Nat × Nat)) s = .ok ((rest, mult'), s) ∧
      rest = nonideal + (excess ideal (count + 1) - excess ideal count) ∧
      mult' = multOf ideal (count + 1) ∧ rest ≤ nonideal + 1 := by
  by_cases h : count + 1 > ideal
  · rw [if_pos h, if_neg hideal, uint_of_lt hsmall]
    refine ⟨_, _, rfl, ?_, (if_pos h).symm, le_rfl⟩
    unfold excess
    omega
  · rw [if_neg h]
    refine ⟨_, _, rfl, ?_, ?_, Nat.le_succ _⟩
    · unfold excess
      omega
    · rw [hmult, multOf, multOf, if_neg h, if_neg (by omega)]

theorem expandStep (own : List Nat) (hsp : Spread s n ideal new nonideal P) (hl : Live s (P ++ [x]))
    (hx : x ∉ P) (hown : P ++ [x] ⊆ own) (hn : ∀ hashv, hashToBkt hashv n < n) (hideal : ideal ≠ 0)
    {next : Nat} (hbkt : bkt s x = some (prev, next)) :
    ∃ s' new' nonideal', expandBucket n ideal (fuel + 1) x new nonideal s =
        expandBucket n ideal fuel next new' nonideal' s' ∧
      Spread s' n ideal new' nonideal' (P ++ [x]) ∧ BktStep own s s' ∧ s'.tbl = s.tbl ∧
      ∀ q, q ∉ P ++ [x] → bkt s' q = bkt s q := by
  have hxm : x ∈ P ++ [x] := by simp
  have hhome : home s n x < n := hn _
  have hx0 : x ≠ 0 := fun he => hl.zero (he ▸ hxm)
  obtain ⟨h, hh, hhp, hhn⟩ := hh_of_bkt hbkt
  have hlP := hl.subset (List.sublist_append_left P [x])
  have hj : home s n x < new.length := by rwa [hsp.length]
  have hjb : hashToBkt h.hashv n = home s n x := by
    rw [home, hashvAt, hh]
    rfl
  obtain ⟨b, hb⟩ : ∃ b, new[home s n x]? = some b := ⟨_, List.getElem?_eq_getElem hj⟩
  obtain ⟨hhead, hcount⟩ := hsp.buckets.bucket _ b hb
  have hsub := hsp.buckets.subset hj
  have hc : uint (b.count + 1) = b.count + 1 := uint_of_lt (by
    have h1 := hsp.buckets.length_le hj
    have h2 := hl.small
    rw [List.length_append, List.length_singleton] at h2
    omega)
  obtain ⟨rest, mult, hrun, hrest, hmult, hle⟩ := overfull_ok s b.count nonideal hideal
    (by
      have h1 := hsp.le
      have h2 := hl.small
      rw [List.length_append, List.length_singleton] at h2
      omega) (hsp.mult _ b hb)
  obtain ⟨s4, hrun4, ht4, h4, hlinked, hother⟩ := pushFront_ok
    (hsp.buckets.linked _ hj) (hsp.buckets.nodup _ hj) (hsp.buckets.zero hlP hj)
    (fun q hq => hlP.isSome q (hsub hq))
    (fun y hy => hown (List.mem_append_left _ (hsub hy))) (fun h => hx (hsub h))
    (((BktStep.refl own s).put (hown hxm) hh { h with hhPrev := 0 } (by rfl) (by rfl)).put
      (hown hxm) (h := { h with hhPrev := 0 }) (by simp)
      { h with hhPrev := 0, hhNext := b.hhHead } (by rfl) (by rfl))
    (by rw [bkt_put, if_pos rfl, hhead])
    (fun q hq => by rw [bkt_put, if_neg hq, bkt_put, if_neg hq])
  rw [← hhead] at hrun4
  refine ⟨s4, new.set (home s n x) ⟨x, b.count + 1, mult⟩, rest, ?_, ?_, h4, ht4, ?_⟩
  · rw [expandBucket, if_neg hx0, step_ok (getHh_ok hx0 hh), hjb, step_ok (bucketAt_ok hb), hc,
      step_ok hrun]
    dsimp only
    rw [step_ok (setHh_ok hx0 hh),
      step_ok (setHh_ok (h := { h with hhPrev := 0 }) hx0 (by simp)), step_ok hrun4, hhn]
  · have hchain := spread_append s n P x
    have hnew : spread s4 n (P ++ [x]) = spread s n (P ++ [x]) := spread_congr h4.data
    have hlen : new.length = n := hsp.length
    refine ⟨by rw [List.length_set, hlen], ?_, ?_, ?_, ?_⟩
    · rw [hnew, hchain]
      refine hsp.buckets.set hj ⟨rfl, by rw [hcount]; rfl⟩ hlinked
        (List.nodup_cons.mpr ⟨fun h => hx (hsub h), hsp.buckets.nodup _ hj⟩)
        (fun j hj' hji y hy => hother y ?_) h4.data (fun y => ?_) fun y hy => ?_
      · refine List.not_mem_cons_of_ne_of_not_mem ?_ (hsp.buckets.disjoint hj' hj hji hy)
        rintro rfl
        exact hx (hsp.buckets.subset hj' hy)
      · rw [List.mem_cons, hsp.buckets.mem _ hj, List.mem_append, List.mem_singleton]
        constructor
        · rintro (rfl | ⟨hy, hyj⟩)
          · exact ⟨.inr rfl, by rw [hlen]⟩
          · exact ⟨.inl hy, hyj⟩
        · rintro ⟨hy | rfl, hyj⟩
          · exact .inr ⟨hy, hyj⟩
          · exact .inl rfl
      · rw [List.mem_append, List.mem_singleton, or_iff_left]
        rintro rfl
        exact hy (by rw [hlen])
    · intro j b' hb'
      by_cases hjx : j = home s n x
      · rw [hjx, List.getElem?_set_self hj, Option.some.injEq] at hb'
        rw [← hb']
        exact hmult
      · rw [List.getElem?_set_ne (Ne.symm hjx)] at hb'
        exact hsp.mult j b' hb'
    · rw [hnew, hchain, hrest, hsp.surplus, hcount]
      refine (sum_bump (f := fun j => excess ideal (spread s n P j).length) hhome (fun j hji => ?_)
        ?_).symm
      · rw [Function.update_of_ne hji]
      · rw [Function.update_self, List.length_cons]
        unfold excess
        omega
    · have h1 := hsp.le
      rw [List.length_append, List.length_singleton]
      omega
  · intro q hq
    refine hother q (List.not_mem_cons_of_ne_of_not_mem ?_ fun h => hq ?_)
    · rintro rfl
      exact hq hxm
    · exact List.mem_append_left _ (hsub h)

theorem expandBucket_ok (own : List Nat) (fuel : Nat) (hn : ∀ hashv, hashToBkt hashv n < n)
    (hideal : ideal ≠ 0) (hfuel : R.length < fuel) (hsp : Spread s n ideal new nonideal P)
    (hlinked : Linked (bkt s) prev R 0) (hl : Live s (P ++ R)) (hnd : (P ++ R).Nodup)
    (hown : P ++ R ⊆ own) :
    ∃ s' new' nonideal', expandBucket n ideal fuel (R.headD 0) new nonideal s =
        .ok ((new', nonideal'), s') ∧
      Spread s' n ideal new' nonideal' (P ++ R) ∧ BktStep own s s' ∧ s'.tbl = s.tbl ∧
      ∀ q, q ∉ P ++ R → bkt s' q = bkt s q := by
  induction R generalizing P s new nonideal fuel prev with
  | nil =>
    obtain ⟨fuel, rfl⟩ : ∃ f, fuel = f + 1 := ⟨fuel - 1, by simp at hfuel; omega⟩
    exact ⟨s, new, nonideal, rfl, by rwa [List.append_nil], .refl own s, rfl, fun _ _ => rfl⟩
  | cons x R ih =>
    obtain ⟨fuel, rfl⟩ : ∃ f, fuel = f + 1 := ⟨fuel - 1, by simp at hfuel; omega⟩
    have happ : P ++ x :: R = P ++ [x] ++ R := by rw [List.append_assoc, List.singleton_append]
    rw [happ] at hl hnd hown
    have hx : x ∉ P := fun h =>
      (List.nodup_append.mp (List.nodup_append.mp hnd).1).2.2 x h x (by simp) rfl
    have hxR : ∀ y ∈ R, y ∉ P ++ [x] := fun y hy h =>
      (List.nodup_append.mp hnd).2.2 y h y hy rfl
    obtain ⟨s1, new1, nonideal1, hrun1, hsp1, hs1, ht1, hb1⟩ := expandStep own hsp
      (hl.subset (List.sublist_append_left _ R)) hx
      (fun y hy => hown (List.mem_append_left _ hy)) hn hideal hlinked.1
    obtain ⟨s2, new2, nonideal2, hrun2, hsp2, hs2, ht2, hb2⟩ := ih fuel
      (by simp at hfuel; omega) hsp1 (hlinked.2.congr fun y hy => hb1 y (hxR y hy))
      (hl.of_frame hs1.toFrame) hnd hown
    refine ⟨s2, new2, nonideal2, ?_, by rwa [happ], hs1.trans hs2, ht2.trans ht1, fun q hq => ?_⟩
    · rw [List.headD_cons, hrun1, hrun2]
    · rw [happ] at hq
      rw [hb2 q hq, hb1 q fun h => hq (List.mem_append_left _ h)]

end Bucket

section Whole

variable {s s' : HashState} {t : UTHashTable} {chain : Nat → List Nat}
  {new : List UTHashBucket} {ideal nonideal n i left : Nat} {P own items : List Nat}

/-- The buckets of the old array from an index on. -/
theorem expandFrom_ok (own : List Nat) (hn : ∀ hashv, hashToBkt hashv n < n) (hideal : ideal ≠ 0)
    (hheads : ∀ j ∈ List.range' i left, ∃ b, t.buckets[j]? = some b ∧
      b.hhHead = (chain j).headD 0 ∧ (chain j).length ≤ t.numItems)
    (hlinked : ∀ j ∈ List.range' i left, Linked (bkt s) 0 (chain j) 0)
    (hsp : Spread s n ideal new nonideal P)
    (hl : Live s (P ++ (List.range' i left).flatMap chain))
    (hnd : (P ++ (List.range' i left).flatMap chain).Nodup)
    (hown : P ++ (List.range' i left).flatMap chain ⊆ own) :
    ∃ s' new' nonideal', expandFrom t n ideal i left new nonideal s =
        .ok ((new', nonideal'), s') ∧
      Spread s' n ideal new' nonideal' (P ++ (List.range' i left).flatMap chain) ∧
      BktStep own s s' ∧ s'.tbl = s.tbl := by
  induction left generalizing i P s new nonideal with
  | zero =>
    exact ⟨s, new, nonideal, rfl, by simpa using hsp, .refl own s, rfl⟩
  | succ left ih =>
    rw [List.range'_succ] at hheads hlinked hl hnd hown ⊢
    rw [List.flatMap_cons, ← List.append_assoc] at hl hnd hown ⊢
    obtain ⟨b, hb, hhead, hlen⟩ := hheads i List.mem_cons_self
    obtain ⟨s1, new1, nonideal1, hrun1, hsp1, hs1, ht1, hb1⟩ := expandBucket_ok own
      (t.numItems + 1) hn hideal (by omega) hsp (hlinked i List.mem_cons_self)
      (hl.subset (List.sublist_append_left _ _)) (List.nodup_append.mp hnd).1
      (fun y hy => hown (List.mem_append_left _ hy))
    obtain ⟨s2, new2, nonideal2, hrun2, hsp2, hs2, ht2⟩ := ih
      (fun j hj => hheads j (List.mem_cons_of_mem _ hj))
      (fun j hj => (hlinked j (List.mem_cons_of_mem _ hj)).congr fun y hy => hb1 y fun h =>
        (List.nodup_append.mp hnd).2.2 y h y (List.mem_flatMap.mpr ⟨j, hj, hy⟩) rfl)
      hsp1 (hl.of_frame hs1.toFrame) hnd hown
    refine ⟨s2, new2, nonideal2, ?_, hsp2, hs1.trans hs2, ht2.trans ht1⟩
    rw [expandFrom, step_ok (bucketAt_ok hb), hhead, step_ok hrun1]
    exact hrun2

/-- An allocator that has not 64 GiB in one piece. -/
def Bounded (malloc : Nat → Nat → Bool) : Prop := ∀ t size, 2 ^ 36 ≤ size → malloc t size = false

def load (s : HashState) (n : Nat) (items : List Nat) (j : Nat) : Nat :=
  items.countP fun x => home s n x = j

theorem ceil_div {n d : Nat} (hd : 0 < d) :
    (n + d - 1) / d = n / d + if n % d ≠ 0 then 1 else 0 := by
  obtain ⟨q, r, hr, rfl⟩ : ∃ q r, r < d ∧ n = d * q + r :=
    ⟨n / d, n % d, Nat.mod_lt n hd, (Nat.div_add_mod n d).symm⟩
  rw [show d * q + r + d - 1 = d * q + (r + d - 1) by omega, Nat.mul_add_div hd, Nat.mul_add_div hd,
    Nat.mul_add_mod, Nat.mod_eq_of_lt hr, Nat.div_eq_of_lt hr, Nat.add_zero]
  congr 1
  split_ifs with h
  · rw [show r + d - 1 = d + (r - 1) by omega, Nat.add_div_left _ hd, Nat.div_eq_of_lt (by omega)]
  · exact Nat.div_eq_of_lt (by omega)

theorem idealChainMaxlenOf_eq {numItems k : Nat} (hk : k ≤ 30) (hn : numItems < 2 ^ 32) :
    idealChainMaxlenOf numItems k (2 ^ k) = (numItems + 2 ^ (k + 1) - 1) / 2 ^ (k + 1) := by
  have hsub := uintSub_one (k := k + 1) (by omega)
  have h2 : 2 ^ 1 ≤ 2 ^ (k + 1) := Nat.pow_le_pow_right (by decide) (by omega)
  have hhalf : numItems / 2 ^ (k + 1) ≤ numItems / 2 ^ 1 := Nat.div_le_div_left h2 (by decide)
  rw [idealChainMaxlenOf, ← pow_succ, hsub, Nat.and_two_pow_sub_one_eq_mod,
    Nat.shiftRight_eq_div_pow, ceil_div (Nat.two_pow_pos _), uint_of_lt]
  split_ifs <;> omega

/-- What doubling the buckets makes of a table. -/
structure Expanded (s : HashState) (items : List Nat) (t t' : UTHashTable) : Prop where
  ok : TableOk t'
  numBuckets : t'.numBuckets = 2 * t.numBuckets
  numItems : t'.numItems = t.numItems
  tail : t'.tail = t.tail
  ideal : t'.idealChainMaxlen = (items.length + t'.numBuckets - 1) / t'.numBuckets
  bucket : ∀ (j : Nat) (b : UTHashBucket), t'.buckets[j]? = some b →
    b.count = load s t'.numBuckets items j ∧ b.expandMult = multOf t'.idealChainMaxlen b.count
  nonideal : t'.nonidealItems =
    ∑ j ∈ Finset.range t'.numBuckets, excess t'.idealChainMaxlen (load s t'.numBuckets items j)
  ineff : t'.ineffExpands = if t'.nonidealItems > items.length / 2 then t.ineffExpands + 1 else 0

variable {malloc : Nat → Nat → Bool}

theorem spread_start (s : HashState) (n ideal : Nat) :
    Spread s n ideal (List.replicate n ⟨0, 0, 0⟩) 0 [] := by
  refine ⟨List.length_replicate, ⟨?_, ?_, ?_, ?_⟩, ?_, ?_, le_rfl⟩
  · intro i b hb
    rw [List.getElem?_replicate] at hb
    split_ifs at hb with hi
    cases hb
    exact ⟨rfl, rfl⟩
  · exact fun i hi => trivial
  · exact fun i hi => List.nodup_nil
  · intro i hi x
    simp [spread]
  · intro j b hb
    rw [List.getElem?_replicate] at hb
    split_ifs at hb with hi
    cases hb
    rfl
  · simp [spread, excess]

theorem length_spread (s : HashState) (n : Nat) (P : List Nat) (j : Nat) :
    (spread s n P j).length = load s n P j := by
  rw [spread, List.length_reverse, load, List.countP_eq_length_filter]

theorem uthashMalloc_ok {size : Nat} (h : malloc s.clock size = true) :
    uthashMalloc malloc size s = .ok ((), { s with clock := s.clock + 1 }) := if_pos h

theorem uthashMalloc_fatal {size : Nat} (h : ¬malloc s.clock size = true) :
    uthashMalloc malloc size s = .error .fatal := if_neg h

def Grants (malloc : Nat → Nat → Bool) : Nat → List Nat → Prop
  | _, [] => True
  | time, size :: sizes => malloc time size = true ∧ Grants malloc (time + 1) sizes

def Denied (malloc : Nat → Nat → Bool) (time : Nat) (sizes : List Nat) (e : Stop) : Prop :=
  e = .fatal ∧ ¬Grants malloc time sizes

theorem hashExpandBuckets_ok (hmalloc : Bounded malloc) (hr : Ready s t) (htab : TableOk t)
    (hb : Bucketed s t.buckets chain items) (hl : Live s items) (hnd : items.Nodup)
    (hnum : t.numItems = items.length) (hne : items ≠ []) (hno : t.noexpand = false) :
    Meets (Denied malloc s.clock [2 * t.numBuckets * sizeofBucket])
      (fun r => Grants malloc s.clock [2 * t.numBuckets * sizeofBucket] ∧
        ∃ t' chain', r.2.tbl = some t' ∧ Expanded r.2 items t t' ∧
          Bucketed r.2 t'.buckets chain' items ∧ BktStep items s r.2)
      (hashExpandBuckets malloc s) := by
  rw [hashExpandBuckets, step_ok (getTbl_ok hr)]
  by_cases hm : malloc s.clock (2 * t.numBuckets * sizeofBucket) = true
  · have hlog : t.log2NumBuckets ≤ 30 := by
      by_contra hlt
      have hbig : 2 ^ 31 ≤ t.numBuckets := by
        rw [htab.power]
        exact Nat.pow_le_pow_right (by decide) (by omega)
      rw [hmalloc _ _ (by rw [sizeofBucket]; omega)] at hm
      cases hm
    have hpow : uint (t.numBuckets * 2) = 2 ^ (t.log2NumBuckets + 1) := by
      rw [htab.power, ← pow_succ, uint_of_lt (Nat.pow_lt_pow_right (by decide) (by omega))]
    have hdouble : 2 * t.numBuckets = 2 ^ (t.log2NumBuckets + 1) := by
      rw [htab.power, pow_succ, mul_comm]
    have hideal := idealChainMaxlenOf_eq hlog (hnum ▸ hl.small)
    rw [← htab.power, hnum] at hideal
    have hpos : idealChainMaxlenOf t.numItems t.log2NumBuckets t.numBuckets ≠ 0 := by
      have := List.length_pos_iff.mpr hne
      have h2 := Nat.two_pow_pos (t.log2NumBuckets + 1)
      rw [hnum, hideal]
      exact (Nat.div_pos (by omega) h2).ne'
    have hone : t.ineffExpands ≤ 1 := by
      have := htab.noexpand
      rw [hno] at this
      simpa using this.symm
    have hlog' : uint (t.log2NumBuckets + 1) = t.log2NumBuckets + 1 := uint_of_lt (by omega)
    have hineff : uint (t.ineffExpands + 1) = t.ineffExpands + 1 := uint_of_lt (by omega)
    have hrange : List.range' 0 t.numBuckets = List.range' 0 t.buckets.length := by
      rw [htab.buckets]
    have hperm := hb.perm hnd (htab.home_lt s)
    have hmem : ∀ j ∈ List.range' 0 t.numBuckets, j < t.buckets.length := by
      intro j hj
      rw [htab.buckets]
      simpa using hj
    have hheads : ∀ j ∈ List.range' 0 t.numBuckets, ∃ b, t.buckets[j]? = some b ∧
        b.hhHead = (chain j).headD 0 ∧ (chain j).length ≤ t.numItems := fun j hj =>
      ⟨_, List.getElem?_eq_getElem (hmem j hj),
        (hb.bucket j _ (List.getElem?_eq_getElem (hmem j hj))).1,
        hnum ▸ hb.length_le (hmem j hj)⟩
    have hs1 : BktStep items s { s with clock := s.clock + 1 } :=
      ⟨⟨fun _ _ => rfl, fun _ => rfl, rfl⟩, rfl, rfl, rfl⟩
    obtain ⟨s2, new, nonideal, hrun, hsp, hs2, ht2⟩ := expandFrom_ok
      items (s := { s with clock := s.clock + 1 })
      (fun hashv => hashToBkt_lt (k := t.log2NumBuckets + 1) (by omega) hashv) hpos
      hheads (fun j hj => hb.linked j (hmem j hj)) (spread_start _ _ _)
      ((hl.of_frame hs1.toFrame).perm (hrange ▸ hperm.symm)) (hrange ▸ hperm.nodup_iff.mpr hnd)
      (hrange ▸ hperm.subset)
    have hs := hs1.trans hs2
    rw [List.nil_append, hrange] at hsp
    rw [step_ok (uthashMalloc_ok hm)]
    simp only [hpow, hdouble]
    rw [step_ok hrun]
    dsimp only
    rw [setTbl_ok (hr.of_frame hs.toFrame hs.head (ht2.trans hr.tbl))]
    have hload : ∀ j, (spread s2 (2 ^ (t.log2NumBuckets + 1))
        ((List.range' 0 t.buckets.length).flatMap chain) j).length =
        load s2 (2 ^ (t.log2NumBuckets + 1)) items j := by
      intro j
      rw [length_spread, load, load, hperm.countP_eq]
    simp only [hpow, hlog', hineff, hno, Bool.false_or, Nat.shiftRight_one]
    refine ⟨⟨hdouble ▸ hm, trivial⟩, _, spread s2 (2 ^ (t.log2NumBuckets + 1))
      ((List.range' 0 t.buckets.length).flatMap chain), rfl, ⟨⟨hsp.length, rfl, ?_, ?_, rfl⟩,
      hdouble.symm, rfl, rfl, ?_, ?_, ?_, ?_⟩, ?_, hs.putTbl _⟩
    · show t.log2NumBuckets + 1 ≤ 31
      omega
    · show (if nonideal > t.numItems / 2 then t.ineffExpands + 1 else 0) ≤ 2
      split_ifs <;> omega
    · rw [hnum]
      exact hideal
    · intro j b hbj
      refine ⟨?_, hsp.mult j b hbj⟩
      rw [(hsp.buckets.bucket j b hbj).2]
      exact hload j
    · show nonideal = _
      rw [hsp.surplus]
      simp only [hload]
      rfl
    · rw [hnum]
    · exact (hsp.buckets.congr (show bkt (s2.putTbl _) = bkt s2 from rfl) rfl).congr_items
        fun x => hperm.mem_iff.symm
  · rw [step_error (uthashMalloc_fatal hm)]
    exact ⟨rfl, fun h => hm h.1⟩

end Whole

end LcClibs.Hash.Expand
