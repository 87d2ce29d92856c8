import Mathlib
import LcClibs.Hash.Layout

namespace LcClibs.Hash.Buckets

open Platform Lib.Runs Lib.Links Hash.UtHash Hash.Layout

section Invariant

/-- Every bucket is the list of the items whose hash values lead to it. -/
structure Bucketed (s : HashState) (buckets : List UTHashBucket) (chain : Nat → List Nat)
    (items : List Nat) : Prop where
  bucket : ∀ i b, buckets[i]? = some b → b.hhHead = (chain i).headD 0 ∧ b.count = (chain i).length
  linked : ∀ i < buckets.length, Linked (bkt s) 0 (chain i) 0
  nodup : ∀ i < buckets.length, (chain i).Nodup
  mem : ∀ i < buckets.length, ∀ x, x ∈ chain i ↔ x ∈ items ∧ home s buckets.length x = i

structure Live (s : HashState) (items : List Nat) : Prop where
  isSome : ∀ x ∈ items, (s.hh x).isSome
  zero : 0 ∉ items
  small : items.length < 2 ^ 32

variable {s s' : HashState} {buckets : List UTHashBucket} {chain : Nat → List Nat}
  {items items' : List Nat} {i j x y : Nat} {b : UTHashBucket}

theorem Live.of_frame {own : List Nat} (h : Live s items) (hf : Frame own s s') : Live s' items :=
  ⟨fun x hx => by rw [hf.live]; exact h.isSome x hx, h.zero, h.small⟩

theorem Live.of_hh (h : Live s items) (hh : s'.hh = s.hh) : Live s' items :=
  ⟨fun x hx => by rw [hh]; exact h.isSome x hx, h.zero, h.small⟩

theorem Live.cons (h : Live s items) (hx : (s.hh x).isSome) (h0 : x ≠ 0)
    (hs : items.length + 1 < 2 ^ 32) : Live s (x :: items) := by
  refine ⟨?_, ?_, hs⟩
  · rintro y (_ | ⟨_, hy⟩)
    · exact hx
    · exact h.isSome y hy
  · simpa using ⟨h0.symm, h.zero⟩

theorem Live.subset (h : Live s items) (hsub : items'.Sublist items) : Live s items' :=
  ⟨fun x hx => h.isSome x (hsub.subset hx), fun hx => h.zero (hsub.subset hx),
    hsub.length_le.trans_lt h.small⟩

theorem Live.perm (h : Live s items) (hp : items.Perm items') : Live s items' :=
  ⟨fun x hx => h.isSome x (hp.mem_iff.mpr hx), fun hx => h.zero (hp.mem_iff.mpr hx),
    hp.length_eq ▸ h.small⟩

theorem Bucketed.subset (h : Bucketed s buckets chain items) (hi : i < buckets.length) :
    chain i ⊆ items := fun x hx => ((h.mem i hi x).mp hx).1

theorem Bucketed.zero (h : Bucketed s buckets chain items) (hl : Live s items)
    (hi : i < buckets.length) : 0 ∉ chain i := fun h0 => hl.zero (h.subset hi h0)

theorem Bucketed.length_le (h : Bucketed s buckets chain items) (hi : i < buckets.length) :
    (chain i).length ≤ items.length :=
  ((h.nodup i hi).subperm (h.subset hi)).length_le

theorem Bucketed.disjoint (h : Bucketed s buckets chain items) (hi : i < buckets.length)
    (hj : j < buckets.length) (hij : i ≠ j) (hx : x ∈ chain i) : x ∉ chain j := fun hx' =>
  hij (((h.mem i hi x).mp hx).2.symm.trans ((h.mem j hj x).mp hx').2)

theorem Bucketed.congr_items (h : Bucketed s buckets chain items)
    (hmem : ∀ x, x ∈ items' ↔ x ∈ items) : Bucketed s buckets chain items' :=
  ⟨h.bucket, h.linked, h.nodup, fun i hi x => by rw [hmem, h.mem i hi]⟩

theorem Bucketed.congr_of_hashv (h : Bucketed s buckets chain items) (hbkt : bkt s' = bkt s)
    (hhash : ∀ x ∈ items, hashvAt s' x = hashvAt s x) : Bucketed s' buckets chain items := by
  refine ⟨h.bucket, fun i hi => by rw [hbkt]; exact h.linked i hi, h.nodup, fun i hi x => ?_⟩
  rw [h.mem i hi]
  refine and_congr_right fun hx => ?_
  rw [home, home, hhash x hx]

theorem Bucketed.congr (h : Bucketed s buckets chain items) (hbkt : bkt s' = bkt s)
    (hdata : data s' = data s) : Bucketed s' buckets chain items :=
  h.congr_of_hashv hbkt fun x _ => congrFun (hashvAt_of_data hdata) x

theorem Bucketed.perm {buckets : List UTHashBucket} (hb : Bucketed s buckets chain items)
    (hnd : items.Nodup) (hhome : ∀ x, home s buckets.length x < buckets.length) :
    ((List.range' 0 buckets.length).flatMap chain).Perm items := by
  have hmem : ∀ j ∈ List.range' 0 buckets.length, j < buckets.length := by
    intro j hj
    simpa using hj
  refine (List.perm_ext_iff_of_nodup (List.nodup_flatMap.mpr ⟨fun j hj => hb.nodup j (hmem j hj),
    ?_⟩) hnd).mpr fun x => ?_
  · refine (List.nodup_range' 1).pairwise_of_forall_ne
      fun i hi j hj hij x hx hx' => ?_
    exact hb.disjoint (hmem i hi) (hmem j hj) hij hx hx'
  · rw [List.mem_flatMap]
    constructor
    · rintro ⟨j, hj, hx⟩
      exact hb.subset (hmem j hj) hx
    · exact fun hx => ⟨home s buckets.length x, by simpa using hhome x,
        (hb.mem _ (hhome x) x).mpr ⟨hx, rfl⟩⟩

theorem Bucketed.sum_length (hb : Bucketed s buckets chain items) (hnd : items.Nodup)
    (hhome : ∀ x, home s buckets.length x < buckets.length) :
    ∑ j ∈ Finset.range buckets.length, (chain j).length = items.length := by
  rw [← (hb.perm hnd hhome).length_eq, List.length_flatMap, ← List.range_eq_range']
  rfl

theorem getElem?_lt {l : List UTHashBucket} (hb : l[i]? = some b) : i < l.length :=
  (List.getElem?_eq_some_iff.mp hb).1

end Invariant

section Operations

variable {s s' : HashState} {t : UTHashTable} {chain : Nat → List Nat} {items own : List Nat}
  {i x add : Nat} {b : UTHashBucket}

/-- One bucket is rewritten and the elements outside it keep their links. -/
theorem Bucketed.set {buckets : List UTHashBucket} (h : Bucketed s buckets chain items)
    (hi : i < buckets.length) {l items' : List Nat}
    (hb : b.hhHead = l.headD 0 ∧ b.count = l.length)
    (hlinked : Linked (bkt s') 0 l 0) (hnd : l.Nodup)
    (hother : ∀ j < buckets.length, j ≠ i → ∀ x ∈ chain j, bkt s' x = bkt s x)
    (hdata : data s' = data s)
    (hl : ∀ x, x ∈ l ↔ x ∈ items' ∧ home s buckets.length x = i)
    (hitems : ∀ x, home s buckets.length x ≠ i → (x ∈ items' ↔ x ∈ items)) :
    Bucketed s' (buckets.set i b) (Function.update chain i l) items' := by
  constructor
  · intro j b' hb'
    by_cases hj : j = i
    · subst hj
      rw [List.getElem?_set_self hi, Option.some.injEq] at hb'
      rw [Function.update_self, ← hb']
      exact hb
    · rw [List.getElem?_set_ne (Ne.symm hj)] at hb'
      rw [Function.update_of_ne hj]
      exact h.bucket j b' hb'
  · intro j hj
    rw [List.length_set] at hj
    by_cases hji : j = i
    · subst hji
      rw [Function.update_self]
      exact hlinked
    · rw [Function.update_of_ne hji]
      exact (h.linked j hj).congr (hother j hj hji)
  · intro j hj
    rw [List.length_set] at hj
    by_cases hji : j = i
    · subst hji
      rw [Function.update_self]
      exact hnd
    · rw [Function.update_of_ne hji]
      exact h.nodup j hj
  · intro j hj x
    rw [List.length_set] at hj ⊢
    rw [home_of_data hdata]
    by_cases hji : j = i
    · subst hji
      rw [Function.update_self]
      exact hl x
    · rw [Function.update_of_ne hji, h.mem j hj]
      refine and_congr_left fun hx => (hitems x ?_).symm
      rw [hx]
      exact hji

theorem pushFront_ok {s3 : HashState} {zs : List Nat} (hl : Linked (bkt s) 0 zs 0) (hnd : zs.Nodup)
    (hz : 0 ∉ zs) (hlive : ∀ q ∈ zs, (s.hh q).isSome) (hsub : zs ⊆ own) (hadd : add ∉ zs)
    (h3 : BktStep own s s3) (hnew : bkt s3 add = some (0, zs.headD 0))
    (hsame : ∀ q ≠ add, bkt s3 q = bkt s q) :
    ∃ s4, (if zs.headD 0 ≠ 0 then setHh (zs.headD 0) fun h => { h with hhPrev := add }
        else pure ()) s3 = .ok ((), s4) ∧ s4.tbl = s3.tbl ∧ BktStep own s s4 ∧
      Linked (bkt s4) 0 (add :: zs) 0 ∧ ∀ q, q ∉ add :: zs → bkt s4 q = bkt s q := by
  obtain ⟨s4, hrun, ht, hhead, hf, hs⟩ := patch_ok (s := s3) hz
    (fun hp => headD_mem (mt (headD_eq_zero hz).mpr hp)) hsub
    (fun q hq => by rw [h3.live]; exact hlive q hq) fun h => { h with hhPrev := add }
  have hview : ∀ q, bkt s4 q =
      if q ∈ zs ∧ q = zs.headD 0 then (bkt s3 q).map fun l => (add, l.2) else bkt s3 q :=
    view_patch _ (fun l => (add, l.2)) hs fun _ => rfl
  refine ⟨s4, hrun, ht, h3.trans ⟨hf, hhead, view_patch_same _ hs fun _ => rfl,
    view_patch_same _ hs fun _ => rfl⟩, ⟨?_, ?_⟩, fun q hq => ?_⟩
  · rw [hview, if_neg fun h => hadd h.1, hnew]
  · refine hl.relink_before hnd fun y hy => ?_
    rw [hview, hsame y fun he => hadd (he ▸ hy)]
    simp only [hy, true_and]
  · rw [hview, if_neg fun h => List.not_mem_of_not_mem_cons hq h.1,
      hsame q (List.ne_of_not_mem_cons hq)]

theorem pushBkt_ok (hr : Ready s t) (hb : Bucketed s t.buckets chain items) (hl : Live s items)
    (hlive : (s.hh add).isSome) (h0 : add ≠ 0) (hadd : add ∉ items)
    (hsmall : items.length + 1 < 2 ^ 32) (hbi : t.buckets[i]? = some b)
    (hhome : home s t.buckets.length add = i) :
    ∃ s', pushBkt i add s = .ok ((), s') ∧
      s'.tbl = some { t with buckets := t.buckets.set i { b with
        hhHead := add, count := b.count + 1 } } ∧
      Bucketed s' (t.buckets.set i { b with hhHead := add, count := b.count + 1 })
        (Function.update chain i (add :: chain i)) (add :: items) ∧
      BktStep (add :: items) s s' := by
  have hi := getElem?_lt hbi
  obtain ⟨hhead, hcount⟩ := hb.bucket i b hbi
  have hnot : add ∉ chain i := fun h => hadd (hb.subset hi h)
  obtain ⟨h, hh⟩ := Option.isSome_iff_exists.mp hlive
  have hc : uint (b.count + 1) = b.count + 1 :=
    uint_of_lt (by have := hb.length_le hi; omega)
  have hr1 := hr.putTbl { t with buckets := t.buckets.set i { b with count := b.count + 1 } }
  obtain ⟨s4, hrun4, ht4, h4, hlinked, hother⟩ := pushFront_ok
    (hb.linked i hi) (hb.nodup i hi) (hb.zero hl hi) (fun q hq => hl.isSome q (hb.subset hi hq))
    (fun y hy => List.mem_cons_of_mem _ (hb.subset hi hy)) hnot
    ((((BktStep.refl (add :: items) s).putTbl
      { t with buckets := t.buckets.set i { b with count := b.count + 1 } }).put
      List.mem_cons_self hh { h with hhNext := b.hhHead } (by rfl) (by rfl)).put
      List.mem_cons_self (h := { h with hhNext := b.hhHead }) (by simp)
      { h with hhNext := b.hhHead, hhPrev := 0 } (by rfl) (by rfl))
    (by rw [bkt_put, if_pos rfl, hhead])
    (fun q hq => by rw [bkt_put, if_neg hq, bkt_put, if_neg hq, bkt_putTbl])
  have hset : ∀ b' : UTHashBucket, (t.buckets.set i b')[i]? = some b' := fun b' =>
    List.getElem?_set_self hi
  rw [← hhead] at hrun4
  rw [pushBkt, step_ok (setBucket_ok hr hbi), hc, step_ok (getTbl_ok hr1),
    step_ok (bucketAt_ok (hset _)),
    step_ok (setHh_ok h0 (show (s.putTbl _).hh add = some h from hh)),
    step_ok (setHh_ok (h := { h with hhNext := b.hhHead }) h0 (by simp)), step_ok hrun4,
    setBucket_ok (hr.of_frame h4.toFrame h4.head ht4) (hset _)]
  rw [List.set_set]
  refine ⟨_, rfl, rfl, ?_, h4.putTbl _⟩
  refine hb.set hi ⟨rfl, by rw [hcount]; rfl⟩ hlinked (List.nodup_cons.mpr ⟨hnot, hb.nodup i hi⟩)
    (fun j hj hji x hx => hother x ?_) h4.data (fun x => ?_) fun x hx => ?_
  · refine List.not_mem_cons_of_ne_of_not_mem ?_ (hb.disjoint hj hi hji hx)
    rintro rfl
    exact hadd (hb.subset hj hx)
  · rw [List.mem_cons, List.mem_cons, hb.mem i hi]
    constructor
    · rintro (rfl | ⟨hx, hxi⟩)
      · exact ⟨.inl rfl, hhome⟩
      · exact ⟨.inr hx, hxi⟩
    · rintro ⟨rfl | hx, hxi⟩
      · exact .inl rfl
      · exact .inr ⟨hx, hxi⟩
  · rw [List.mem_cons, or_iff_right]
    rintro rfl
    exact hx hhome

theorem dropFront_ok {us vs : List Nat} {d : UTHashHandle} (hr : Ready s t)
    (hbi : t.buckets[i]? = some b) (hhead : b.hhHead = (us ++ x :: vs).headD 0) (hxu : x ∉ us)
    (hdn : d.hhNext = vs.headD 0) :
    (if b.hhHead = x then setBucket i fun b => { b with hhHead := d.hhNext } else pure ()) s =
      .ok ((), s.putTbl { t with buckets := t.buckets.set i { b with
        hhHead := (us ++ vs).headD 0 } }) := by
  cases us with
  | nil =>
    rw [if_pos (show b.hhHead = x from hhead), setBucket_ok hr hbi, hdn]
    rfl
  | cons u us =>
    have hhu : b.hhHead = u := hhead
    have hi := getElem?_lt hbi
    have hb : t.buckets.set i { b with hhHead := u } = t.buckets := by
      rw [← hhu, ← (List.getElem?_eq_some_iff.mp hbi).2]
      exact List.set_getElem_self hi
    have hsame : s.putTbl { t with buckets := t.buckets } = s := by
      show { s with tbl := some t } = s
      rw [← hr.tbl]
    rw [if_neg fun h => hxu (by simp [← h, hhu]), List.cons_append, List.headD_cons, hb, hsame]
    rfl

theorem unlinkBkt_ok {us vs : List Nat} {d : UTHashHandle}
    (hl : Linked (bkt s) 0 (us ++ x :: vs) 0) (hnd : (us ++ x :: vs).Nodup)
    (hz : 0 ∉ us ++ x :: vs) (hlive : ∀ q ∈ us ++ x :: vs, (s.hh q).isSome)
    (hsub : us ++ x :: vs ⊆ own) (hd : s.hh x = some d) (hdp : d.hhPrev = us.getLastD 0)
    (hdn : d.hhNext = vs.headD 0) :
    ∃ s', (do
        (if d.hhPrev ≠ 0 then setHh d.hhPrev fun h => { h with hhNext := d.hhNext } else pure ())
        let d ← getHh x
        (if d.hhNext ≠ 0 then setHh d.hhNext fun h => { h with hhPrev := d.hhPrev } else pure ()) :
          HashM Unit) s = .ok ((), s') ∧ s'.tbl = s.tbl ∧ BktStep own s s' ∧
      Linked (bkt s') 0 (us ++ vs) 0 ∧ ∀ q, q ∉ us ++ x :: vs → bkt s' q = bkt s q := by
  have hparts := List.nodup_append.mp hnd
  have hxu : x ∉ us := fun h => hparts.2.2 x h x List.mem_cons_self rfl
  have hinu : ∀ q ∈ us, q ∈ us ++ x :: vs := fun q hq => List.mem_append_left _ hq
  have hinv : ∀ q ∈ vs, q ∈ us ++ x :: vs := fun q hq => by simp [hq]
  have hx0 : x ≠ 0 := fun he => hz (by simp [he])
  have hzu : 0 ∉ us := fun h => hz (hinu 0 h)
  have hzv : 0 ∉ vs := fun h => hz (hinv 0 h)
  obtain ⟨s3, hrun3, ht3, hhead3, hf3, hs3⟩ := patch_ok (p := d.hhPrev) (s := s) hzu
    (fun hp => by rw [hdp] at hp ⊢; exact getLastD_mem (mt (getLastD_eq_zero hzu).mpr hp))
    (fun q hq => hsub (hinu q hq)) (fun q hq => hlive q (hinu q hq))
    fun h => { h with hhNext := d.hhNext }
  have h3 : BktStep own s s3 :=
    ⟨hf3, hhead3, view_patch_same _ hs3 fun _ => rfl, view_patch_same _ hs3 fun _ => rfl⟩
  have hview3 := view_patch (fun h => (h.hhPrev, h.hhNext)) (fun l => (l.1, d.hhNext)) hs3
    fun _ => rfl
  obtain ⟨s4, hrun4, ht4, hhead4, hf4, hs4⟩ := patch_ok (p := d.hhNext) (s := s3) hzv
    (fun hp => by rw [hdn] at hp ⊢; exact headD_mem (mt (headD_eq_zero hzv).mpr hp))
    (fun q hq => hsub (hinv q hq)) (fun q hq => by rw [h3.live]; exact hlive q (hinv q hq))
    fun h => { h with hhPrev := d.hhPrev }
  have h4 : BktStep own s s4 := h3.trans
    ⟨hf4, hhead4, view_patch_same _ hs4 fun _ => rfl, view_patch_same _ hs4 fun _ => rfl⟩
  have hview4 := view_patch (fun h => (h.hhPrev, h.hhNext)) (fun l => (d.hhPrev, l.2)) hs4
    fun _ => rfl
  have hd3 : s3.hh x = some d := by
    rw [hs3, if_neg fun h => hxu h.1]
    exact hd
  refine ⟨s4, ?_, ht4.trans ht3, h4,
    hl.erase hnd (fun y hy => ?_) fun y hy => ?_, fun y hy => ?_⟩
  · rw [step_ok hrun3, step_ok (getHh_ok hx0 hd3), hrun4]
  · have hyv : y ∉ vs := fun h => hparts.2.2 y hy y (List.mem_cons_of_mem x h) rfl
    rw [bkt, hview4, if_neg fun h => hyv h.1, hview3, hdp, hdn]
    simp only [hy, true_and]
    rfl
  · have hyu : y ∉ us := fun h => hparts.2.2 y h y (List.mem_cons_of_mem x hy) rfl
    rw [bkt, hview4, hview3, if_neg (c := y ∈ us ∧ _) fun h => hyu h.1, hdp, hdn]
    simp only [hy, true_and]
    rfl
  · rw [bkt, hview4, if_neg fun h => hy (hinv y h.1), hview3, if_neg fun h => hy (hinu y h.1)]
    rfl

theorem Bucketed.mem_rest {buckets : List UTHashBucket} {us vs items' : List Nat}
    (hb : Bucketed s buckets chain items) (hi : i < buckets.length)
    (huv : chain i = us ++ x :: vs) (hitems : ∀ y, y ∈ items' ↔ y ∈ items ∧ y ≠ x) (y : Nat) :
    y ∈ us ++ vs ↔ y ∈ items' ∧ home s buckets.length y = i := by
  have hnd := huv ▸ hb.nodup i hi
  have hxuv : x ∉ us ++ vs := (List.nodup_cons.mp (List.nodup_middle.mp hnd)).1
  have hyi := hb.mem i hi y
  rw [huv] at hyi
  rw [hitems]
  constructor
  · intro hy
    have hin : y ∈ us ++ x :: vs := by
      simpa using (List.mem_append.mp hy).imp id .inr
    refine ⟨⟨(hyi.mp hin).1, ?_⟩, (hyi.mp hin).2⟩
    rintro rfl
    exact hxuv hy
  · rintro ⟨⟨hy, hne⟩, hhome'⟩
    simpa [hne] using hyi.mpr ⟨hy, hhome'⟩

theorem hashDelInBkt_ok (hr : Ready s t) (hb : Bucketed s t.buckets chain items)
    (hl : Live s items) (hx : x ∈ items) (hbi : t.buckets[i]? = some b)
    (hhome : home s t.buckets.length x = i) {items' : List Nat}
    (hitems : ∀ y, y ∈ items' ↔ y ∈ items ∧ y ≠ x) :
    ∃ s' zs, hashDelInBkt i x s = .ok ((), s') ∧
      s'.tbl = some { t with buckets := t.buckets.set i { b with
        hhHead := zs.headD 0, count := b.count - 1 } } ∧
      Bucketed s' (t.buckets.set i { b with hhHead := zs.headD 0, count := b.count - 1 })
        (Function.update chain i zs) items' ∧
      BktStep items s s' := by
  have hi := getElem?_lt hbi
  obtain ⟨hhead, hcount⟩ := hb.bucket i b hbi
  obtain ⟨us, vs, huv⟩ := List.append_of_mem ((hb.mem i hi x).mpr ⟨hx, hhome⟩)
  have hx0 : x ≠ 0 := fun he => hl.zero (he ▸ hx)
  have hz := hb.zero hl hi
  have hlinked := hb.linked i hi
  have hnd := hb.nodup i hi
  have hsub := hb.subset hi
  have hle := hb.length_le hi
  rw [huv] at hz hlinked hnd hsub hle hhead hcount
  obtain ⟨d, hd, hdp, hdn⟩ := hh_of_bkt hlinked.at
  have hxu : x ∉ us := fun h => (List.nodup_append.mp hnd).2.2 x h x List.mem_cons_self rfl
  have hset : ∀ b' : UTHashBucket, (t.buckets.set i b')[i]? = some b' := fun b' =>
    List.getElem?_set_self hi
  have hc : uintSub b.count 1 = b.count - 1 := by
    have := hl.small
    rw [hcount, uintSub_of_le (by simp only [List.length_append, List.length_cons]; omega)
      (by omega)]
  have hr1 := hr.putTbl { t with buckets := t.buckets.set i { b with count := b.count - 1 } }
  have hfront := dropFront_ok (d := d) hr1 (hset { b with count := b.count - 1 }) hhead hxu hdn
  rw [List.set_set] at hfront
  obtain ⟨s4, hrun, ht, h4, hlinked4, hother⟩ := unlinkBkt_ok
    (s := s.putTbl { t with buckets := t.buckets.set i { b with
      hhHead := (us ++ vs).headD 0, count := b.count - 1 } }) hlinked hnd hz
    (fun q hq => hl.isSome q (hsub hq)) hsub hd hdp hdn
  rw [hashDelInBkt, step_ok (setBucket_ok hr hbi), hc, step_ok (getTbl_ok hr1),
    step_ok (bucketAt_ok (hset _)),
    step_ok (getHh_ok hx0 (show (s.putTbl _).hh x = some d from hd)), step_ok hfront]
  have hstep : BktStep items s s4 := ((BktStep.refl items s).putTbl _).trans h4
  refine ⟨s4, us ++ vs, hrun, ht, hb.set hi ⟨rfl, by rw [hcount]; simp⟩ hlinked4
    (List.nodup_cons.mp (List.nodup_middle.mp hnd)).2
    (fun j hj hji y hy => hother y (huv ▸ hb.disjoint hj hi hji hy)) hstep.data
    (hb.mem_rest hi huv hitems) fun y hy => ?_, hstep⟩
  rw [hitems, and_iff_left]
  rintro rfl
  exact hy hhome

end Operations

end LcClibs.Hash.Buckets
