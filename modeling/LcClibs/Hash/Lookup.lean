import Mathlib
import LcClibs.Hash.Table

namespace LcClibs.Hash.Lookup

open Platform Lib.Runs Lib.Links Hash.UtHash Hash.Layout Hash.Order Hash.Buckets Hash.Table

section Find

variable {s : HashState} {items zs : List Nat} {keyptr keylen fuel prev x : Nat} {hashval : UInt32}
  {hashFcn : HashFcn}

theorem length_bytesAt (bytes : Nat → UInt8) (p n : Nat) : (bytesAt bytes p n).length = n := by
  simp [bytesAt]

def keyOf (s : HashState) (x : Nat) : Option (List UInt8) :=
  (data s x).map fun d => bytesAt s.bytes d.1 d.2.1

def Hashed (hashFcn : HashFcn) (s : HashState) (items : List Nat) : Prop :=
  ∀ x ∈ items, ∀ d, data s x = some d → d.2.2 = hashFcn.value s.bytes d.1 d.2.1

theorem data_eq {h : UTHashHandle} (hh : s.hh x = some h) :
    data s x = some (h.key, h.keylen, h.hashv) := by rw [data, hh]; rfl

theorem matches_iff (hs : Hashed hashFcn s items) (hx : x ∈ items) {h : UTHashHandle}
    (hh : s.hh x = some h) :
    (h.hashv = hashFcn.value s.bytes keyptr keylen ∧ h.keylen = keylen ∧
      bytesAt s.bytes h.key keylen = bytesAt s.bytes keyptr keylen) ↔
    keyOf s x = some (bytesAt s.bytes keyptr keylen) := by
  rw [keyOf, data_eq hh, Option.map_some, Option.some.injEq]
  constructor
  · rintro ⟨-, rfl, hb⟩
    exact hb
  · intro hb
    have hlen := congrArg List.length hb
    rw [length_bytesAt, length_bytesAt] at hlen
    obtain rfl : h.keylen = keylen := hlen
    exact ⟨(hs x hx _ (data_eq hh)).trans (hashFcn.reads_key _ _ _ _ _ hb), rfl, hb⟩

theorem hashFindInBkt_ok (hs : Hashed hashFcn s items) (hl : Live s items) (hsub : zs ⊆ items)
    (hlinked : Linked (bkt s) prev zs 0) (hfuel : zs.length < fuel) :
    hashFindInBkt keyptr keylen (hashFcn.value s.bytes keyptr keylen) fuel (zs.headD 0) s =
      .ok (((zs.find? fun x => keyOf s x = some (bytesAt s.bytes keyptr keylen)).getD 0), s) := by
  induction zs generalizing prev fuel with
  | nil =>
    obtain ⟨fuel, rfl⟩ : ∃ f, fuel = f + 1 := ⟨fuel - 1, by simp at hfuel; omega⟩
    rfl
  | cons z zs ih =>
    obtain ⟨fuel, rfl⟩ : ∃ f, fuel = f + 1 := ⟨fuel - 1, by simp at hfuel; omega⟩
    have hz : z ∈ items := hsub List.mem_cons_self
    have hz0 : z ≠ 0 := fun h => hl.zero (h ▸ hz)
    obtain ⟨h, hh, -, hn⟩ := hh_of_bkt hlinked.1
    rw [List.headD_cons, hashFindInBkt, if_neg hz0, step_ok (getHh_ok hz0 hh), step_get]
    by_cases hm : keyOf s z = some (bytesAt s.bytes keyptr keylen)
    · rw [if_pos ((matches_iff hs hz hh).mpr hm), List.find?_cons_of_pos (by simpa using hm)]
      rfl
    · rw [if_neg (mt (matches_iff hs hz hh).mp hm), List.find?_cons_of_neg (by simpa using hm), hn]
      exact ih (fun y hy => hsub (List.mem_cons_of_mem z hy)) hlinked.2 (by simpa using hfuel)

/-- A look-up finds an element with the key if there is one. -/
theorem hashFind_ok (h : Represents s items) (hs : Hashed hashFcn s items)
    (keyptr keylen : Nat) :
    ∃ out, hashFind hashFcn keyptr keylen s = .ok (out, s) ∧
      (out = 0 ∧ (∀ x ∈ items, keyOf s x ≠ some (bytesAt s.bytes keyptr keylen)) ∨
        out ∈ items ∧ keyOf s out = some (bytesAt s.bytes keyptr keylen)) := by
  rw [hashFind, step_get, hashFindByhashvalue,
    step_ok (show getHead s = .ok (s.head, s) from rfl)]
  by_cases hne : items = []
  · rw [if_pos (h.head_eq_zero.mpr hne)]
    refine ⟨0, rfl, .inl ⟨rfl, fun x hx => ?_⟩⟩
    rw [hne] at hx
    exact absurd hx List.not_mem_nil
  · obtain ⟨t, chain, ht⟩ := h.table hne
    have hr := h.ordered.ready hne ht.tbl
    have hi : hashToBkt (hashFcn.value s.bytes keyptr keylen) t.numBuckets < t.buckets.length := by
      rw [ht.ok.buckets, ht.ok.power]
      exact hashToBkt_lt ht.ok.log2 _
    obtain ⟨b, hb⟩ : ∃ b, t.buckets[hashToBkt (hashFcn.value s.bytes keyptr keylen)
        t.numBuckets]? = some b := ⟨_, List.getElem?_eq_getElem hi⟩
    have hlen := ht.buckets.length_le hi
    rw [if_neg (mt h.head_eq_zero.mp hne), step_ok (getTbl_ok hr), step_ok (bucketAt_ok hb),
      (ht.buckets.bucket _ b hb).1, hashFindInBkt_ok hs h.live (ht.buckets.subset hi)
        (ht.buckets.linked _ hi) (by rw [ht.numItems]; omega)]
    refine ⟨_, rfl, ?_⟩
    cases hf : (chain (hashToBkt (hashFcn.value s.bytes keyptr keylen) t.numBuckets)).find?
        fun x => decide (keyOf s x = some (bytesAt s.bytes keyptr keylen)) with
    | none =>
      refine .inl ⟨rfl, fun x hx hk => ?_⟩
      -- an element with the key has its hash value, so it is in the bucket
      have hhome : home s t.buckets.length x =
          hashToBkt (hashFcn.value s.bytes keyptr keylen) t.numBuckets := by
        obtain ⟨d, hd⟩ := Option.isSome_iff_exists.mp (h.live.isSome x hx)
        rw [← ht.ok.buckets, home, hashvAt, hd, ← ((matches_iff hs hx hd).mpr hk).1]
        rfl
      have hmem := (ht.buckets.mem _ hi x).mpr ⟨hx, hhome⟩
      simpa [hk] using List.find?_eq_none.mp hf x hmem
    | some y =>
      exact .inr ⟨ht.buckets.subset hi (List.mem_of_find?_eq_some hf),
        by simpa using List.find?_some hf⟩

theorem hashCount_ok (h : Represents s items) : hashCount s = .ok (items.length, s) := by
  rw [hashCount, step_ok (show getHead s = .ok (s.head, s) from rfl)]
  by_cases hne : items = []
  · rw [if_neg (not_not.mpr (h.head_eq_zero.mpr hne)), hne]
    rfl
  · obtain ⟨t, chain, ht⟩ := h.table hne
    rw [if_pos (mt h.head_eq_zero.mp hne), step_ok (getTbl_ok (h.ordered.ready hne ht.tbl)),
      ht.numItems]
    rfl

end Find

section Fsck

variable {s : HashState} {items zs : List Nat} {t : UTHashTable} {chain : Nat → List Nat}
  {fuel prev count i left : Nat} {link : UTHashHandle → Nat × Nat}

theorem fsckWalk_ok (hl : Live s items) (hsub : zs ⊆ items)
    (hlinked : Linked (fun p => (s.hh p).map link) prev zs 0) (hfuel : zs.length < fuel)
    (hcount : count + zs.length < 2 ^ 32) :
    fsckWalk link fuel prev (zs.headD 0) count s = .ok (count + zs.length, s) := by
  induction zs generalizing prev fuel count with
  | nil =>
    obtain ⟨fuel, rfl⟩ : ∃ f, fuel = f + 1 := ⟨fuel - 1, by simp at hfuel; omega⟩
    rfl
  | cons z zs ih =>
    obtain ⟨fuel, rfl⟩ : ∃ f, fuel = f + 1 := ⟨fuel - 1, by simp at hfuel; omega⟩
    have hz0 : z ≠ 0 := fun h => hl.zero (h ▸ hsub List.mem_cons_self)
    obtain ⟨h, hh, hv⟩ := Option.map_eq_some_iff.mp hlinked.1
    rw [List.length_cons] at hcount
    rw [List.headD_cons, fsckWalk, if_neg hz0, step_ok (getHh_ok hz0 hh), hv,
      if_neg (not_not.mpr rfl), uint_of_lt (by omega),
      ih (fun y hy => hsub (List.mem_cons_of_mem z hy)) hlinked.2 (by simpa using hfuel) (by omega),
      List.length_cons]
    congr 2
    omega

theorem fsckBuckets_ok (ht : TableFor s items t chain) (hl : Live s items) (hnd : items.Nodup)
    (hi : i + left = t.buckets.length)
    (hcount : count = ∑ j ∈ Finset.range i, (chain j).length) :
    fsckBuckets t i left count s = .ok (items.length, s) := by
  have htotal := ht.buckets.sum_length hnd (ht.ok.home_lt s)
  induction left generalizing i count with
  | zero =>
    obtain rfl : i = t.buckets.length := by omega
    rw [fsckBuckets, hcount, htotal]
    rfl
  | succ left ih =>
    have hlt : i < t.buckets.length := by omega
    obtain ⟨b, hb⟩ : ∃ b, t.buckets[i]? = some b := ⟨_, List.getElem?_eq_getElem hlt⟩
    have hlen := ht.buckets.length_le hlt
    have hle : ∑ j ∈ Finset.range (i + 1), (chain j).length ≤ items.length := by
      rw [← htotal]
      exact Finset.sum_le_sum_of_subset (Finset.range_mono hlt)
    rw [Finset.sum_range_succ, ← hcount] at hle
    have hsmall := hl.small
    obtain ⟨hhead, hc⟩ := ht.buckets.bucket i b hb
    have hwalk : fsckWalk (fun h => (h.hhPrev, h.hhNext)) (t.numItems + 1) 0
        ((chain i).headD 0) 0 s = .ok (0 + (chain i).length, s) :=
      fsckWalk_ok hl (ht.buckets.subset hlt) (ht.buckets.linked i hlt)
        (by rw [ht.numItems]; omega) (by omega)
    rw [Nat.zero_add] at hwalk
    rw [fsckBuckets, step_ok (bucketAt_ok hb), hhead, step_ok hwalk, if_neg (not_not.mpr hc),
      uint_of_lt (by omega), ih (by omega) (by rw [Finset.sum_range_succ, hcount])]

theorem hashFsck_ok (h : Represents s items) : hashFsck s = .ok ((), s) := by
  rw [hashFsck, step_ok (show getHead s = .ok (s.head, s) from rfl)]
  by_cases hne : items = []
  · rw [if_pos (h.head_eq_zero.mpr hne)]
    rfl
  · obtain ⟨t, chain, ht⟩ := h.table hne
    have hbuckets : fsckBuckets t 0 t.numBuckets 0 s = .ok (items.length, s) :=
      fsckBuckets_ok ht h.live h.ordered.nodup (by rw [ht.ok.buckets]; omega) rfl
    have hwalk : fsckWalk (fun h => (h.prev, h.next)) (t.numItems + 1) 0 (items.headD 0) 0 s =
        .ok (0 + items.length, s) :=
      fsckWalk_ok h.live (List.Subset.refl items) h.ordered.linked
        (by rw [ht.numItems]; omega) (by have := h.live.small; omega)
    rw [Nat.zero_add] at hwalk
    rw [if_neg (mt h.head_eq_zero.mp hne), step_ok (getTbl_ok (h.ordered.ready hne ht.tbl)),
      step_ok hbuckets, ht.numItems, if_neg (not_not.mpr rfl),
      step_ok (show (pure () : HashM Unit) s = .ok ((), s) from rfl), h.ordered.head, ← ht.numItems,
      step_ok hwalk, ht.numItems, if_neg (not_not.mpr rfl)]
    rfl

end Fsck

section Iterate

variable {s : HashState} {items kept rest : List Nat} {body : Nat → HashM Unit} {fuel : Nat}

theorem nextOf_ok (kept : List Nat) (h : Represents s (kept ++ rest)) :
    nextOf (rest.headD 0) s = .ok (rest.tail.headD 0, s) := by
  cases rest with
  | nil => rfl
  | cons x rest =>
    have hx0 : x ≠ 0 := h.ordered.ne_zero (by simp)
    obtain ⟨d, hd, -, hn⟩ := hh_of_app h.ordered.linked.at
    rw [List.headD_cons, nextOf, if_pos hx0, step_ok (getHh_ok hx0 hd), hn]
    rfl

/-- The loop runs its body on one element after the other, also when the body takes the
element that it is given out of the table and frees it. -/
theorem hashIterFrom_eq (R : List Nat → HashState → Prop)
    (hR : ∀ rest s, R rest s → ∃ kept, Represents s (kept ++ rest))
    (hbody : ∀ el rest s s', R (el :: rest) s → body el s = .ok ((), s') → R rest s')
    (h : R rest s) (hfuel : rest.length < fuel) :
    hashIterFrom body fuel (rest.headD 0) (rest.tail.headD 0) s =
      rest.foldlM (fun r el => body el r.2) ((), s) := by
  induction rest generalizing fuel s with
  | nil =>
    obtain ⟨fuel, rfl⟩ : ∃ f, fuel = f + 1 := ⟨fuel - 1, by simp at hfuel; omega⟩
    rfl
  | cons el rest ih =>
    obtain ⟨fuel, rfl⟩ : ∃ f, fuel = f + 1 := ⟨fuel - 1, by simp at hfuel; omega⟩
    obtain ⟨kept, hkept⟩ := hR _ _ h
    have h0 : el ≠ 0 := hkept.ordered.ne_zero (by simp)
    rw [List.headD_cons, List.tail_cons, hashIterFrom, if_pos h0, List.foldlM_cons]
    cases hb : body el s with
    | error e =>
      rw [step_error hb]
      rfl
    | ok r =>
      obtain ⟨⟨⟩, s'⟩ := r
      have hrest := hbody el rest s s' h hb
      obtain ⟨kept', hkept'⟩ := hR _ _ hrest
      rw [step_ok hb, step_ok (nextOf_ok kept' hkept'), ih hrest (by simpa using hfuel)]
      rfl

theorem hashIter_eq (R : List Nat → HashState → Prop)
    (hR : ∀ rest s, R rest s → ∃ kept, Represents s (kept ++ rest))
    (hbody : ∀ el rest s s', R (el :: rest) s → body el s = .ok ((), s') → R rest s')
    (h : R items s) (hrep : Represents s items) :
    hashIter body s = items.foldlM (fun r el => body el r.2) ((), s) := by
  have hnext := nextOf_ok [] hrep
  rw [← hrep.ordered.head] at hnext
  rw [hashIter, step_ok (show getHead s = .ok (s.head, s) from rfl), step_ok (hashCount_ok hrep),
    step_ok hnext, hrep.ordered.head, hashIterFrom_eq R hR hbody h (Nat.lt_succ_self _)]

theorem freeElement_run {el : Nat} (h0 : el ≠ 0) (hlive : (s.hh el).isSome) :
    freeElement el s = .ok ((), { s with hh := Function.update s.hh el none }) := by
  obtain ⟨d, hd⟩ := Option.isSome_iff_exists.mp hlive
  rw [freeElement, step_ok (getHh_ok h0 hd)]
  rfl

theorem freeElement_ok {el : Nat} (h : Represents s items) (hel : el ∉ items) (h0 : el ≠ 0)
    (hlive : (s.hh el).isSome) :
    ∃ s', freeElement el s = .ok ((), s') ∧ Represents s' items ∧ s'.hh el = none ∧
      (∀ p, p ≠ el → s'.hh p = s.hh p) ∧ s'.bytes = s.bytes := by
  have hother : ∀ p, p ≠ el → Function.update s.hh el none p = s.hh p := fun p hp =>
    Function.update_of_ne hp _ _
  exact ⟨_, freeElement_run h0 hlive,
    h.of_same (fun x hx => hother x fun he => hel (he ▸ hx)) rfl rfl,
    Function.update_self _ _ _, hother, rfl⟩

theorem deleteAndFree_ok {el : Nat} (h : Represents s (el :: rest)) :
    ∃ s', (do hashDelete el; freeElement el : HashM Unit) s = .ok ((), s') ∧ Represents s' rest ∧
      s'.hh el = none ∧ (∀ p, p ∉ el :: rest → s'.hh p = s.hh p) ∧ s'.bytes = s.bytes := by
  have hel : el ∉ rest := (List.nodup_cons.mp h.ordered.nodup).1
  obtain ⟨s1, hrun1, h1, -, hf⟩ := hashDelete_ok h List.mem_cons_self
  rw [List.erase_cons_head] at h1
  obtain ⟨s2, hrun2, h2, hnone, hother, hbytes⟩ := freeElement_ok h1 hel
    (h.ordered.ne_zero List.mem_cons_self)
    (by rw [hf.live]; exact h.live.isSome el List.mem_cons_self)
  refine ⟨s2, by rw [step_ok hrun1, hrun2], h2, hnone, fun p hp => ?_, hbytes.trans hf.bytes⟩
  rw [hother p (List.ne_of_not_mem_cons hp), hf.others p hp]

/-- A table is cleaned up element by element: the loop that takes every element out and frees
it comes to its end with the table gone, has freed every element, and touched nothing else. -/
theorem hashIter_drain_ok (h : Represents s items) :
    ∃ s', hashIter (fun el => do hashDelete el; freeElement el) s = .ok ((), s') ∧
      Represents s' [] ∧ (∀ x ∈ items, s'.hh x = none) ∧
      (∀ p, p ∉ items → s'.hh p = s.hh p) ∧ s'.bytes = s.bytes := by
  rw [hashIter_eq (fun rest s => Represents s rest) (fun rest s h => ⟨[], h⟩)
    (fun el rest s s' h hb => ?_) h h]
  · induction items generalizing s with
    | nil =>
      exact ⟨s, rfl, h, fun x hx => absurd hx List.not_mem_nil, fun _ _ => rfl, rfl⟩
    | cons el rest ih =>
      obtain ⟨s1, hrun1, h1, hnone, hother, hbytes⟩ := deleteAndFree_ok h
      obtain ⟨s2, hrun2, h2, hnone2, hother2, hbytes2⟩ := ih h1
      have hel : el ∉ rest := (List.nodup_cons.mp h.ordered.nodup).1
      refine ⟨s2, ?_, h2, ?_, fun p hp => ?_, hbytes2.trans hbytes⟩
      · rw [List.foldlM_cons, bind_ok hrun1]
        exact hrun2
      · rintro x (_ | ⟨_, hx⟩)
        · rw [hother2 el hel, hnone]
        · exact hnone2 x hx
      · rw [hother2 p (List.not_mem_of_not_mem_cons hp), hother p hp]
  · obtain ⟨s1, hrun1, h1, -⟩ := deleteAndFree_ok h
    rw [hrun1] at hb
    cases hb
    exact h1

end Iterate

end LcClibs.Hash.Lookup
