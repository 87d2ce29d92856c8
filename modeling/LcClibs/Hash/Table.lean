import Mathlib
import LcClibs.Hash.Load
import LcClibs.Hash.Order

namespace LcClibs.Hash.Table

open Platform Lib.Runs Lib.Links Hash.UtHash Hash.Layout Hash.Order Hash.Buckets Hash.Expand
  Hash.Load

section Invariant

structure TableFor (s : HashState) (items : List Nat) (t : UTHashTable) (chain : Nat → List Nat) :
    Prop where
  tbl : s.tbl = some t
  tail : t.tail = items.getLastD 0
  numItems : t.numItems = items.length
  ok : TableOk t
  buckets : Bucketed s t.buckets chain items
  thrifty : t.noexpand = false → Thrifty t.buckets

/-- The hash holds these elements in this order. -/
structure Represents (s : HashState) (items : List Nat) : Prop where
  ordered : Ordered s items
  live : Live s items
  empty : items = [] → s.tbl = none
  table : items ≠ [] → ∃ t chain, TableFor s items t chain

def Fatal (e : Stop) : Prop := e = .fatal

structure Added (keyptr keylen : Nat) (hashval : UInt32) (add : Nat) (items : List Nat)
    (s s' : HashState) : Prop extends Frame (add :: items) s s' where
  data : ∀ p, data s' p = if p = add then some (keyptr, keylen, hashval) else data s p

variable {s s' s'' : HashState} {items items' : List Nat} {t : UTHashTable}
  {chain : Nat → List Nat} {add keyptr keylen : Nat} {hashval : UInt32}
  {malloc : Nat → Nat → Bool}

theorem Represents.isSome (h : Represents s items) {x : Nat} (hx : x ∈ items) :
    (s.hh x).isSome := h.live.isSome x hx

theorem Represents.head_eq_zero (h : Represents s items) : s.head = 0 ↔ items = [] := by
  rw [h.ordered.head]
  exact headD_eq_zero h.live.zero

theorem represents_nil (hhead : s.head = 0) (htbl : s.tbl = none) : Represents s [] :=
  ⟨⟨hhead, List.not_mem_nil, List.nodup_nil, trivial⟩,
    ⟨fun _ hx => absurd hx List.not_mem_nil, List.not_mem_nil, by decide⟩, fun _ => htbl,
    fun hne => absurd rfl hne⟩

theorem Represents.of_same (h : Represents s items) (hsame : ∀ x ∈ items, s'.hh x = s.hh x)
    (hhead : s'.head = s.head) (htbl : s'.tbl = s.tbl) : Represents s' items := by
  refine ⟨⟨hhead.trans h.ordered.head, h.live.zero, h.ordered.nodup,
    h.ordered.linked.congr fun x hx => by rw [app, hsame x hx]; rfl⟩,
    ⟨fun x hx => by rw [hsame x hx]; exact h.live.isSome x hx, h.live.zero, h.live.small⟩,
    fun hne => htbl.trans (h.empty hne), fun hne => ?_⟩
  obtain ⟨t, chain, ht⟩ := h.table hne
  have hb := ht.buckets
  refine ⟨t, chain, htbl.trans ht.tbl, ht.tail, ht.numItems, ht.ok, ⟨hb.bucket, fun i hi => ?_,
    hb.nodup, fun i hi x => ?_⟩, ht.thrifty⟩
  · exact (hb.linked i hi).congr fun x hx => by rw [bkt, hsame x (hb.subset hi hx)]; rfl
  · rw [hb.mem i hi]
    refine and_congr_right fun hx => ?_
    rw [home, home, hashvAt, hashvAt, hsame x hx]

end Invariant

section Asking

variable {α : Type} {malloc : Nat → Nat → Bool}

def expandSizes (t : UTHashTable) (b : UTHashBucket) : List Nat :=
  if uint (b.count + 1) ≥ uint (uint (b.expandMult + 1) * hashBktCapacityThresh) ∧
      t.noexpand = false then [2 * t.numBuckets * sizeofBucket]
  else []

def bucketSizes (t : UTHashTable) (hashval : UInt32) : List Nat :=
  match t.buckets[hashToBkt hashval t.numBuckets]? with
  | some b => expandSizes t b
  | none => []

def tableSizes : List Nat := [sizeofTable, hashInitialNumBuckets * sizeofBucket]

/-- The sizes that adding an element under a hash value asks for. -/
def addSizes (s : HashState) (hashval : UInt32) : List Nat :=
  if s.head = 0 then tableSizes
  else
    match s.tbl with
    | some t => bucketSizes t hashval
    | none => []

def Frugal (x : HashM α) : Prop := ∀ time, Keeping (fun s : HashState => s.clock = time) x

theorem Frugal.clock {x : HashM α} (hx : Frugal x) {s s' : HashState} {a : α}
    (h : x s = .ok (a, s')) : s'.clock = s.clock := hx s.clock s a s' rfl h

theorem Frugal.bind {β : Type} {x : HashM α} {f : α → HashM β} (hx : Frugal x)
    (hf : ∀ a, Frugal (f a)) : Frugal (x >>= f) := fun time => (hx time).bind fun a => hf a time

theorem Frugal.pure (a : α) : Frugal (pure a : HashM α) := fun _ => .pure a

theorem Frugal.throw (e : Stop) : Frugal (throw e : HashM α) := fun _ => .throw e

theorem Frugal.get_bind {f : HashState → HashM α} (hf : ∀ s, Frugal (f s)) :
    Frugal (get >>= f) := fun time => .get_bind fun s => hf s time

theorem Frugal.modify {g : HashState → HashState} (hg : ∀ s, (g s).clock = s.clock) :
    Frugal (modify g : HashM PUnit) := fun _ => .modify fun s hs => (hg s).trans hs

theorem Frugal.ite {c : Prop} [Decidable c] {x y : HashM α} (hx : Frugal x) (hy : Frugal y) :
    Frugal (if c then x else y) := by
  split
  · exact hx
  · exact hy

theorem getHh_frugal (p : Nat) : Frugal (getHh p) := by
  intro time s h s' hs hrun
  rw [getHh] at hrun
  split at hrun
  · cases hrun
  · split at hrun
    · cases hrun
      exact hs
    · cases hrun

theorem setHh_frugal (p : Nat) (f : UTHashHandle → UTHashHandle) : Frugal (setHh p f) :=
  (getHh_frugal p).bind fun _ => .modify fun _ => rfl

theorem getHead_frugal : Frugal getHead := .get_bind fun _ => .pure _

theorem setHead_frugal (p : Nat) : Frugal (setHead p) := .modify fun _ => rfl

theorem getTbl_frugal : Frugal getTbl := by
  refine getHead_frugal.bind fun p => (getHh_frugal p).bind fun _ => .get_bind fun s => ?_
  split
  · exact .pure _
  · exact .throw _

theorem setTbl_frugal (f : UTHashTable → UTHashTable) : Frugal (setTbl f) :=
  getTbl_frugal.bind fun _ => .modify fun _ => rfl

theorem bucketAt_frugal (buckets : List UTHashBucket) (bkt : Nat) :
    Frugal (bucketAt buckets bkt) := by
  rw [bucketAt]
  split
  · exact .pure _
  · exact .throw _

theorem setBucket_frugal (bkt : Nat) (f : UTHashBucket → UTHashBucket) :
    Frugal (setBucket bkt f) :=
  getTbl_frugal.bind fun _ => (bucketAt_frugal _ _).bind fun _ => setTbl_frugal _

theorem hashAppendList_frugal (add : Nat) : Frugal (hashAppendList add) :=
  (setHh_frugal _ _).bind fun _ => getTbl_frugal.bind fun _ => (setHh_frugal _ _).bind fun _ =>
    (setHh_frugal _ _).bind fun _ => setTbl_frugal _

theorem pushBkt_frugal (bkt add : Nat) : Frugal (pushBkt bkt add) :=
  (setBucket_frugal _ _).bind fun _ => getTbl_frugal.bind fun _ => (bucketAt_frugal _ _).bind
    fun _ => (setHh_frugal _ _).bind fun _ => (setHh_frugal _ _).bind fun _ =>
      (Frugal.ite (setHh_frugal _ _) (.pure _)).bind fun _ => setBucket_frugal _ _

theorem hashAkbiInnerLoop_frugal (cmpfcn : Nat → Nat → Int) (add fuel iter : Nat) :
    Frugal (hashAkbiInnerLoop cmpfcn add fuel iter) := by
  induction fuel generalizing iter with
  | zero => exact .throw _
  | succ fuel ih =>
    refine .ite (.pure _) ((getHh_frugal iter).bind fun h => ?_)
    exact .ite (ih h.next) (.pure _)

theorem addInside_frugal (cmpfcn : Nat → Nat → Int) (add : Nat) :
    Frugal (addInside cmpfcn add) := by
  refine getTbl_frugal.bind fun _ => getHead_frugal.bind fun _ =>
    (hashAkbiInnerLoop_frugal _ _ _ _).bind fun _ => .ite ?_ (hashAppendList_frugal add)
  exact (setHh_frugal _ _).bind fun _ => (getHh_frugal _).bind fun _ => (setHh_frugal _ _).bind
    fun _ => (Frugal.ite (setHh_frugal _ _) (setHead_frugal _)).bind fun _ => setHh_frugal _ _

end Asking

section Adding

variable {s s' : HashState} {items items' : List Nat} {t : UTHashTable}
  {chain : Nat → List Nat} {add keyptr keylen i : Nat} {hashval : UInt32} {b : UTHashBucket}
  {malloc : Nat → Nat → Bool}

theorem hashAddToBkt_ok (hmalloc : Bounded malloc) (hr : Ready s t) (htab : TableOk t)
    (hb : Bucketed s t.buckets chain items) (hl : Live s (add :: items))
    (hnd : (add :: items).Nodup) (hnum : t.numItems = items.length + 1)
    (hhome : home s t.buckets.length add = i) (hbi : t.buckets[i]? = some b)
    (hthrifty : t.noexpand = false → Thrifty t.buckets) :
    Meets (Denied malloc s.clock (expandSizes t b)) (fun r =>
      Grants malloc s.clock (expandSizes t b) ∧
      ∃ t' chain', r.2.tbl = some t' ∧ TableOk t' ∧ t'.tail = t.tail ∧
      t'.numItems = t.numItems ∧ Bucketed r.2 t'.buckets chain' (add :: items) ∧
      (t'.noexpand = false → Thrifty t'.buckets) ∧ BktStep (add :: items) s r.2)
      (hashAddToBkt malloc i add s) := by
  have hi : i < t.buckets.length := hhome ▸ htab.home_lt s add
  have h0 : add ≠ 0 := fun h => hl.zero (h ▸ List.mem_cons_self)
  have hnot : add ∉ items := (List.nodup_cons.mp hnd).1
  have hl' : Live s items := hl.subset (List.sublist_cons_self add items)
  have hcount : uint (b.count + 1) = b.count + 1 := by
    have hsmall := hl.small
    have hle := hb.length_le hi
    rw [List.length_cons] at hsmall
    rw [(hb.bucket i b hbi).2]
    exact uint_of_lt (by omega)
  obtain ⟨s1, hrun1, ht1, hb1, hs1⟩ := pushBkt_ok hr hb hl' (hl.isSome add List.mem_cons_self) h0
    hnot hl.small hbi hhome
  have hr1 := hr.of_frame hs1.toFrame hs1.head ht1
  rw [hashAddToBkt, step_ok hrun1, step_ok (getTbl_ok hr1),
    step_ok (bucketAt_ok (List.getElem?_set_self hi)), ← (pushBkt_frugal i add).clock hrun1,
    expandSizes, hcount]
  have htab1 : TableOk { t with buckets := t.buckets.set i { b with
      hhHead := add, count := b.count + 1 } } :=
    ⟨by rw [← htab.buckets]; exact List.length_set, htab.power, htab.log2, htab.ineff,
      htab.noexpand⟩
  split_ifs with hex
  · refine (hashExpandBuckets_ok hmalloc hr1 htab1 hb1 (hl.of_frame hs1.toFrame) hnd hnum
      (List.cons_ne_nil _ _) hex.2).imp fun r h => ?_
    obtain ⟨hgrants, t', chain', ht', hx, hb', hs'⟩ := h
    refine ⟨hgrants, t', chain', ht', hx.ok, hx.tail, hx.numItems, hb', fun _ => ?_,
      hs1.trans hs'⟩
    refine thrifty_of_expanded hx hb' hnd (List.cons_ne_nil _ _) ?_
    have hsum := (hthrifty hex.2).sum_count_le
    rw [sum_count hb (List.nodup_cons.mp hnd).2 (htab.home_lt s), htab.buckets] at hsum
    have hpos : 0 < t.numBuckets := htab.buckets ▸ Nat.zero_lt_of_lt hi
    show items.length + 1 ≤ 20 * t.numBuckets
    omega
  · refine ⟨trivial, _, _, ht1, htab1, rfl, rfl, hb1, fun hno => ?_, hs1⟩
    refine (hthrifty hno).set hbi rfl (.inl ?_)
    have hlt := not_le.mp fun hge => hex ⟨hge, hno⟩
    exact hlt.trans_le ((uint_le _).trans (Nat.mul_le_mul_right _ (uint_le _)))

theorem addLast_ok (hmalloc : Bounded malloc) (ho : Ordered s items') (hl : Live s items')
    (ht : s.tbl = some t) (htail : t.tail = items'.getLastD 0) (hnum : t.numItems = items.length)
    (htab : TableOk t) (hb : Bucketed s t.buckets chain items)
    (hperm : (add :: items).Perm items') (hv : hashvAt s add = hashval)
    (hthrifty : t.noexpand = false → Thrifty t.buckets) :
    Meets (Denied malloc s.clock (bucketSizes t hashval)) (fun r =>
      Grants malloc s.clock (bucketSizes t hashval) ∧ Represents r.2 items' ∧ BktStep items' s r.2)
      (addLast malloc hashval add s) := by
  have hne : items' ≠ [] := fun h => by simpa [h] using hperm.length_eq
  have hlen : items.length + 1 = items'.length := hperm.length_eq
  have hr := ho.ready hne ht
  have hnum' : uint (t.numItems + 1) = items.length + 1 := by
    have := hl.small
    rw [hnum, uint_of_lt (by omega)]
  have htab' : TableOk { t with numItems := items.length + 1 } :=
    ⟨htab.buckets, htab.power, htab.log2, htab.ineff, htab.noexpand⟩
  have hhome : home s t.buckets.length add = hashToBkt hashval t.numBuckets := by
    rw [home, hv, htab.buckets]
  obtain ⟨b, hbi⟩ : ∃ b, t.buckets[hashToBkt hashval t.numBuckets]? = some b :=
    ⟨_, List.getElem?_eq_getElem (hhome ▸ htab.home_lt s add)⟩
  have hsizes : bucketSizes t hashval = expandSizes t b := by
    rw [bucketSizes, hbi]
  rw [addLast, step_ok (setTbl_ok hr), hnum', step_ok (getTbl_ok (hr.putTbl _)), hsizes]
  refine (hashAddToBkt_ok (s := s.putTbl { t with numItems := items.length + 1 }) hmalloc
    (hr.putTbl _) htab' (hb.congr rfl rfl) ((hl.perm hperm.symm).of_hh rfl)
    (hperm.nodup_iff.mpr ho.nodup) rfl hhome hbi hthrifty).imp fun r h => ?_
  · obtain ⟨hgrants, t', chain', ht', hok, htail', hnum'', hb', hthrifty', hs'⟩ := h
    have hs : BktStep items' s r.2 := ((BktStep.refl items' s).putTbl _).trans
      ⟨⟨fun p hp => hs'.others p (mt hperm.mem_iff.mp hp), hs'.live, hs'.bytes⟩, hs'.head, hs'.app,
        hs'.data⟩
    refine ⟨hgrants, ⟨ho.congr hs.head hs.app, hl.of_frame hs.toFrame, fun h => absurd h hne,
      fun _ => ⟨t', chain', ht', htail'.trans htail, ?_, hok,
        hb'.congr_items fun x => hperm.mem_iff.symm,
        hthrifty'⟩⟩, hs⟩
    rw [hnum'', ← hlen]

theorem addFirst_ok (hlive : (s.hh add).isSome) (h0 : add ≠ 0) :
    Meets (Denied malloc s.clock tableSizes) (fun r => Grants malloc s.clock tableSizes ∧
      ∃ t, Ordered r.2 [add] ∧ r.2.tbl = some t ∧ t.tail = add ∧
      t.numItems = 0 ∧ TableOk t ∧ Bucketed r.2 t.buckets (fun _ => []) [] ∧
      Thrifty t.buckets ∧ (∀ hashval, bucketSizes t hashval = []) ∧ OrderStep [add] s r.2)
      (addFirst malloc add s) := by
  obtain ⟨h, hh⟩ := Option.isSome_iff_exists.mp hlive
  rw [addFirst, step_ok (setHh_ok h0 hh), setHead, step_modify, hashMakeTable]
  by_cases hm : malloc s.clock sizeofTable = true
  · rw [step_ok (uthashMalloc_ok (s := { s.put add _ with head := add }) hm),
      step_ok (show getHead _ = .ok (add, _) from rfl), step_modify]
    have hr : ∀ (clock : Nat) (t : UTHashTable), Ready (HashState.putTbl
        { s.put add { h with next := 0, prev := 0 } with head := add, clock := clock } t) t :=
      fun clock t => ⟨h0, by simp, rfl⟩
    rw [step_ok (setTbl_ok (hr _ _))]
    by_cases hm' : malloc (s.clock + 1) (hashInitialNumBuckets * sizeofBucket) = true
    · rw [step_ok (uthashMalloc_ok (s := HashState.putTbl _ _) hm'),
        setTbl_ok ⟨h0, by simp, rfl⟩]
      refine ⟨⟨hm, hm', trivial⟩, _, ⟨rfl, by simpa using h0.symm, List.nodup_singleton add, ?_,
        trivial⟩, rfl, rfl, rfl, ⟨rfl, rfl, show 5 ≤ 31 by decide, Nat.zero_le 2, rfl⟩,
        ⟨(spread_start s 32 1).buckets.bucket, fun _ _ => trivial,
          fun _ _ => List.nodup_nil, fun i hi x => by simp⟩, thrifty_start _, ?_, ?_⟩
      · show app (s.put add { h with next := 0, prev := 0 }) add = _
        rw [app_put, if_pos rfl]
        rfl
      · -- no bucket is as full as that
        intro hashval
        rw [bucketSizes, List.getElem?_replicate]
        split_ifs <;> rfl
      · exact ((OrderStep.refl _ s).put (List.mem_singleton.mpr rfl) hh
          { h with next := 0, prev := 0 } (by rfl) (by rfl)).trans
          ⟨⟨fun _ _ => rfl, fun _ => rfl, rfl⟩, rfl, rfl⟩
    · rw [step_error (uthashMalloc_fatal hm')]
      exact ⟨rfl, fun h => hm' h.2.1⟩
  · rw [step_error (uthashMalloc_fatal (s := { s.put add _ with head := add }) hm)]
    exact ⟨rfl, fun h => hm h.1⟩

/-- Adding, whatever puts the element in its place among others. -/
theorem add_ok {insert : HashM Unit} (hmalloc : Bounded malloc) (h : Represents s items)
    (hlive : (s.hh add).isSome) (h0 : add ≠ 0) (hadd : add ∉ items)
    (hsmall : items.length + 1 < 2 ^ 32) (hperm : (add :: items).Perm items')
    (hfrugal : Frugal insert)
    (hinsert : ∀ s0 t chain, items ≠ [] → Ordered s0 items → TableFor s0 items t chain →
      (s0.hh add).isSome →
      ∃ s1, insert s0 = .ok ((), s1) ∧ Ordered s1 items' ∧
        s1.tbl = some { t with tail := items'.getLastD 0 } ∧ OrderStep (add :: items) s0 s1) :
    Meets (Denied malloc s.clock (addSizes s hashval)) (fun r =>
        Grants malloc s.clock (addSizes s hashval) ∧ Represents r.2 items' ∧
        Added keyptr (uint keylen) hashval add items s r.2)
      ((do
        setKey keyptr keylen hashval add
        (if (← getHead) = 0 then addFirst malloc add else insert)
        addLast malloc hashval add) s) := by
  obtain ⟨hd, hh⟩ := Option.isSome_iff_exists.mp hlive
  have hrun : setKey keyptr keylen hashval add s = .ok ((), s.put add { hd with
      hashv := hashval, key := keyptr, keylen := uint keylen }) := setHh_ok h0 hh
  generalize hs0 : s.put add { hd with
    hashv := hashval, key := keyptr, keylen := uint keylen } = s0 at hrun
  have happ0 : app s0 = app s := hs0 ▸ put_view _ hh rfl
  have hbkt0 : bkt s0 = bkt s := hs0 ▸ put_view _ hh rfl
  have hhead0 : s0.head = s.head := hs0 ▸ rfl
  have hclock0 : s0.clock = s.clock := hs0 ▸ rfl
  have hf0 : Frame (add :: items) s s0 := hs0 ▸ .put List.mem_cons_self hh
  have hdata0 : ∀ p, data s0 p = if p = add then some (keyptr, uint keylen, hashval)
      else data s p := by
    intro p
    rw [← hs0, data, data, put_hh]
    split_ifs <;> rfl
  have hv0 : hashvAt s0 add = hashval := by
    rw [← hs0, hashvAt, put_hh, if_pos rfl]
    rfl
  have hl' : Live s items' := (h.live.cons hlive h0 hsmall).perm hperm
  have ho0 : Ordered s0 items := h.ordered.congr hhead0 happ0
  have hlive0 : (s0.hh add).isSome := by rw [hf0.live]; exact hlive
  have hdone : ∀ s1, OrderStep (add :: items) s0 s1 → ∀ r : Unit × HashState,
      BktStep items' s1 r.2 → Added keyptr (uint keylen) hashval add items s r.2 := by
    intro s1 hs1 r hs2
    refine ⟨(hf0.trans hs1.toFrame).trans ⟨fun p hp => hs2.others p (mt hperm.mem_iff.mpr hp),
      hs2.live, hs2.bytes⟩, fun p => ?_⟩
    rw [hs2.data, hs1.data, hdata0]
  rw [step_ok hrun, step_ok (show getHead s0 = .ok (s0.head, s0) from rfl), hhead0]
  by_cases hne : items = []
  · subst hne
    rw [if_pos (h.head_eq_zero.mpr rfl)]
    obtain rfl : items' = [add] := List.perm_singleton.mp hperm.symm
    rw [addSizes, if_pos (h.head_eq_zero.mpr rfl), ← hclock0]
    refine (addFirst_ok hlive0 h0).step fun r hr => ?_
    obtain ⟨hgrants, t, ho, ht, htail, hnum, htab, hb, hthrifty, hsizes, hs⟩ := hr
    have hv : hashvAt r.2 add = hashval := by rw [hashvAt_of_data hs.data, hv0]
    have hlast := addLast_ok hmalloc ho (hl'.of_frame (hf0.trans hs.toFrame)) ht htail
      (show t.numItems = ([] : List Nat).length from hnum) htab hb (List.Perm.refl _) hv
      fun _ => hthrifty
    rw [hsizes] at hlast
    exact hlast.mono (fun e he => absurd trivial he.2) fun r' hr' =>
      ⟨hgrants, hr'.2.1, hdone _ hs r' hr'.2.2⟩
  · rw [if_neg (mt h.head_eq_zero.mp hne)]
    obtain ⟨t, chain, ht⟩ := h.table hne
    have hb0 : Bucketed s0 t.buckets chain items := by
      refine ht.buckets.congr_of_hashv hbkt0 fun x hx => ?_
      have hd := congrArg (fun o => (o.map fun d => d.2.2).getD 0) (hdata0 x)
      rw [if_neg fun he : x = add => hadd (he ▸ hx)] at hd
      simpa [data, hashvAt, Option.map_map, Function.comp_def] using hd
    have ht0 : TableFor s0 items t chain :=
      ⟨by rw [← hs0]; exact ht.tbl, ht.tail, ht.numItems, ht.ok, hb0, ht.thrifty⟩
    obtain ⟨s1, hrun1, ho1, ht1, hs1⟩ := hinsert s0 t chain hne ho0 ht0 hlive0
    have hsizes : addSizes s hashval = bucketSizes t hashval := by
      rw [addSizes, if_neg (mt h.head_eq_zero.mp hne), ht.tbl]
    rw [step_ok hrun1, hsizes, ← hclock0, ← hfrugal.clock hrun1]
    refine (addLast_ok hmalloc ho1 (hl'.of_frame (hf0.trans hs1.toFrame)) ht1 rfl ht.numItems
      ⟨ht.ok.buckets, ht.ok.power, ht.ok.log2, ht.ok.ineff, ht.ok.noexpand⟩
      (hb0.congr hs1.bkt hs1.data) hperm ?_ ht.thrifty).imp fun r' hr' =>
      ⟨hr'.1, hr'.2.1, hdone _ hs1 r' hr'.2.2⟩
    rw [hashvAt_of_data hs1.data, hv0]

theorem hashAddKeyptrByhashvalue_ok (hmalloc : Bounded malloc) (h : Represents s items)
    (hlive : (s.hh add).isSome) (h0 : add ≠ 0) (hadd : add ∉ items)
    (hsmall : items.length + 1 < 2 ^ 32) :
    Meets (Denied malloc s.clock (addSizes s hashval)) (fun r =>
        Grants malloc s.clock (addSizes s hashval) ∧ Represents r.2 (items ++ [add]) ∧
        Added keyptr (uint keylen) hashval add items s r.2)
      (hashAddKeyptrByhashvalue malloc keyptr keylen hashval add s) := by
  refine add_ok hmalloc h hlive h0 hadd hsmall (List.perm_append_singleton add items).symm
    (hashAppendList_frugal add) fun s0 t chain hne ho ht hlive0 => ?_
  obtain ⟨s1, hrun, ho1, ht1, hs1⟩ := hashAppendList_ok ho hne ht.tbl ht.tail hadd h0 hlive0
  refine ⟨s1, hrun, ho1, ?_, hs1⟩
  rw [ht1, getLastD_append]
  rfl

theorem hashAddKeyptr_ok (hashFcn : HashFcn) (keyptr keylen : Nat) (hmalloc : Bounded malloc)
    (h : Represents s items) (hlive : (s.hh add).isSome) (h0 : add ≠ 0) (hadd : add ∉ items)
    (hsmall : items.length + 1 < 2 ^ 32) :
    Meets (Denied malloc s.clock (addSizes s (hashFcn.value s.bytes keyptr keylen))) (fun r =>
        Grants malloc s.clock (addSizes s (hashFcn.value s.bytes keyptr keylen)) ∧
        Represents r.2 (items ++ [add]) ∧
        Added keyptr (uint keylen) (hashFcn.value s.bytes keyptr keylen) add items s r.2)
      (hashAddKeyptr malloc hashFcn keyptr keylen add s) := by
  rw [hashAddKeyptr, step_get]
  exact hashAddKeyptrByhashvalue_ok hmalloc h hlive h0 hadd hsmall

end Adding

section Inorder

variable {s : HashState} {items xs zs : List Nat} {t : UTHashTable} {chain : Nat → List Nat}
  {add keyptr keylen fuel : Nat} {hashval : UInt32} {malloc : Nat → Nat → Bool}
  {cmpfcn : Nat → Nat → Int}

/-- The order with a new element in front of the first one that is larger. -/
def inorder (cmpfcn : Nat → Nat → Int) (items : List Nat) (add : Nat) : List Nat :=
  items.takeWhile (fun x => cmpfcn x add ≤ 0) ++ add :: items.dropWhile fun x => cmpfcn x add ≤ 0

theorem inorder_perm (cmpfcn : Nat → Nat → Int) (items : List Nat) (add : Nat) :
    (add :: items).Perm (inorder cmpfcn items add) := by
  refine List.Perm.trans ?_ List.perm_middle.symm
  rw [List.takeWhile_append_dropWhile]

theorem hashAkbiInnerLoop_ok (cmpfcn : Nat → Nat → Int) (add : Nat) (xs : List Nat)
    (ho : Ordered s (xs ++ zs)) (hz : zs ≠ []) (hfuel : zs.length ≤ fuel) :
    hashAkbiInnerLoop cmpfcn add fuel (zs.headD 0) s =
      .ok ((zs.dropWhile fun x => cmpfcn x add ≤ 0).headD 0, s) := by
  induction zs generalizing xs fuel with
  | nil => exact absurd rfl hz
  | cons z zs ih =>
    obtain ⟨fuel, rfl⟩ : ∃ f, fuel = f + 1 := ⟨fuel - 1, by simp at hfuel; omega⟩
    obtain ⟨h, hh, -, hn⟩ := hh_of_app ho.linked.at
    have hz0 : z ≠ 0 := ho.ne_zero (by simp)
    rw [List.headD_cons, hashAkbiInnerLoop]
    by_cases hc : cmpfcn z add > 0
    · rw [if_pos hc, List.dropWhile_cons_of_neg (by simpa using hc)]
      rfl
    · rw [if_neg hc, step_ok (getHh_ok hz0 hh), hn,
        List.dropWhile_cons_of_pos (by simpa using hc)]
      have hzs : 0 ∉ zs := fun h => ho.live (by simp [h])
      by_cases hnil : zs = []
      · subst hnil
        rfl
      · rw [if_pos (mt (headD_eq_zero hzs).mp hnil)]
        exact ih (xs ++ [z]) (by simpa using ho) hnil (by simpa using hfuel)

theorem addInside_ok (hne : items ≠ []) (ho : Ordered s items) (ht : TableFor s items t chain)
    (hlive : (s.hh add).isSome) (h0 : add ≠ 0) (hadd : add ∉ items) :
    ∃ s', addInside cmpfcn add s = .ok ((), s') ∧ Ordered s' (inorder cmpfcn items add) ∧
      s'.tbl = some { t with tail := (inorder cmpfcn items add).getLastD 0 } ∧
      OrderStep (add :: items) s s' := by
  have hr := ho.ready hne ht.tbl
  have hwalk := hashAkbiInnerLoop_ok cmpfcn add [] ho hne
    (Nat.le_succ items.length)
  rw [← ho.head, ← ht.numItems] at hwalk
  rw [addInside, step_ok (getTbl_ok hr), step_ok (show getHead s = .ok (s.head, s) from rfl),
    step_ok hwalk, inorder]
  have hsplit :=
    List.takeWhile_append_dropWhile (p := fun x => decide (cmpfcn x add ≤ 0)) (l := items)
  cases hdrop : items.dropWhile fun x => decide (cmpfcn x add ≤ 0) with
  | nil =>
    rw [hdrop, List.append_nil] at hsplit
    obtain ⟨s', hrun, ho', ht', hs'⟩ := hashAppendList_ok ho hne ht.tbl ht.tail hadd h0 hlive
    rw [hsplit]
    refine ⟨s', hrun, ho', ?_, hs'⟩
    rw [ht', getLastD_append]
    rfl
  | cons x ys =>
    rw [hdrop] at hsplit
    have hx0 : x ≠ 0 := ho.ne_zero (by rw [← hsplit]; simp)
    rw [← hsplit] at ho hadd
    obtain ⟨s', hrun, ho', ht', hs'⟩ := insertBefore_ok ho hadd h0 hlive
    rw [hsplit] at hs'
    rw [List.headD_cons, if_pos hx0]
    refine ⟨s', hrun, ho', ?_, hs'⟩
    have hlast :
        (items.takeWhile (fun x => decide (cmpfcn x add ≤ 0)) ++ add :: x :: ys).getLastD 0 =
        t.tail := by
      rw [ht.tail, ← hsplit, getLastD_append, getLastD_append]
      rfl
    rw [ht', hlast, ht.tbl]

theorem hashAddKeyptrByhashvalueInorder_ok (hmalloc : Bounded malloc) (h : Represents s items)
    (hlive : (s.hh add).isSome) (h0 : add ≠ 0) (hadd : add ∉ items)
    (hsmall : items.length + 1 < 2 ^ 32) :
    Meets (Denied malloc s.clock (addSizes s hashval)) (fun r =>
        Grants malloc s.clock (addSizes s hashval) ∧ Represents r.2 (inorder cmpfcn items add) ∧
        Added keyptr (uint keylen) hashval add items s r.2)
      (hashAddKeyptrByhashvalueInorder malloc keyptr keylen hashval add cmpfcn s) :=
  add_ok hmalloc h hlive h0 hadd hsmall (inorder_perm cmpfcn items add)
    (addInside_frugal cmpfcn add)
    fun _ _ _ hne ho ht hlive0 => addInside_ok hne ho ht hlive0 h0 hadd

end Inorder

section Deleting

variable {s : HashState} {items xs ys : List Nat} {x : Nat}

theorem erase_middle (hnd : (xs ++ x :: ys).Nodup) : (xs ++ x :: ys).erase x = xs ++ ys := by
  have hx : x ∉ xs := fun h => (List.nodup_append.mp hnd).2.2 x h x List.mem_cons_self rfl
  rw [List.erase_append_right _ hx, List.erase_cons_head]

/-- An element leaves the table and keeps its memory; with the last one the table goes. -/
theorem hashDelete_ok (h : Represents s items) (hx : x ∈ items) :
    ∃ s', hashDelete x s = .ok ((), s') ∧ Represents s' (items.erase x) ∧ data s' = data s ∧
      Frame items s s' := by
  obtain ⟨xs, ys, rfl⟩ := List.append_of_mem hx
  have ho := h.ordered
  have hx0 : x ≠ 0 := ho.ne_zero hx
  obtain ⟨t, chain, ht⟩ := h.table (List.ne_nil_of_mem hx)
  have hr := ho.ready (List.ne_nil_of_mem hx) ht.tbl
  obtain ⟨d, hd, hdp, hdn⟩ := hh_of_app ho.linked.at
  have halone : xs.getLastD 0 = 0 ∧ ys.headD 0 = 0 ↔ xs = [] ∧ ys = [] :=
    and_congr (getLastD_eq_zero fun h0 => ho.live (List.mem_append_left _ h0))
      (headD_eq_zero fun h0 => ho.live (by simp [h0]))
  rw [erase_middle ho.nodup, hashDelete, step_ok (getHh_ok hx0 hd), hdp, hdn]
  by_cases hlast : xs = [] ∧ ys = []
  · obtain ⟨rfl, rfl⟩ := hlast
    rw [if_pos ⟨rfl, rfl⟩, step_ok (getTbl_ok hr)]
    exact ⟨_, rfl, represents_nil rfl rfl, rfl, fun _ _ => rfl, fun _ => rfl, rfl⟩
  · rw [if_neg (mt halone.mp hlast)]
    have hne : xs ++ ys ≠ [] := fun h => hlast (List.append_eq_nil_iff.mp h)
    obtain ⟨s1, hrun1, ho1, ht1, hx1, hs1⟩ := unlinkOrder_ok ho ht.tbl ht.tail
    obtain ⟨d1, hd1, -, -⟩ := hh_of_app (hx1.trans ho.linked.at)
    have hb1 := ht.buckets.congr hs1.bkt hs1.data
    have hr1 := ho1.ready hne ht1
    have hv : home s1 t.buckets.length x = hashToBkt d1.hashv t.numBuckets := by
      rw [home, hashvAt, hd1, ht.ok.buckets]
      rfl
    have hi := ht.ok.home_lt s1 x
    obtain ⟨b, hbi⟩ : ∃ b, t.buckets[hashToBkt d1.hashv t.numBuckets]? = some b :=
      ⟨_, List.getElem?_eq_getElem (hv ▸ hi)⟩
    have hitems : ∀ y, y ∈ xs ++ ys ↔ y ∈ xs ++ x :: ys ∧ y ≠ x := by
      intro y
      rw [← erase_middle ho.nodup, ho.nodup.mem_erase_iff, and_comm]
    obtain ⟨s2, zs, hrun2, ht2, hb2, hs2⟩ := hashDelInBkt_ok (s := s1) hr1 hb1
      (h.live.of_frame hs1.toFrame) hx hbi hv hitems
    have hr2 := hr1.of_frame hs2.toFrame hs2.head ht2
    have hf := hs1.toFrame.trans hs2.toFrame
    have hlen : uintSub t.numItems 1 = (xs ++ ys).length := by
      have hsmall := h.live.small
      rw [List.length_append, List.length_cons] at hsmall
      rw [ht.numItems, List.length_append, List.length_cons,
        uintSub_of_le (by omega) (by omega), List.length_append]
      omega
    rw [step_ok hrun1, step_ok (getHh_ok hx0 hd1), step_ok (getTbl_ok hr1), step_ok hrun2,
      setTbl_ok hr2]
    refine ⟨_, rfl, ⟨(ho1.congr hs2.head hs2.app), ?_, fun h => absurd h hne, fun _ =>
      ⟨_, _, rfl, rfl, hlen, ⟨?_, ht.ok.power, ht.ok.log2, ht.ok.ineff, ht.ok.noexpand⟩,
        hb2.congr rfl rfl, fun hno => (ht.thrifty hno).set hbi rfl (.inr (Nat.sub_le _ _))⟩⟩,
      hs2.data.trans hs1.data,
      hf.trans ⟨fun _ _ => rfl, fun _ => rfl, rfl⟩⟩
    · exact ((h.live.of_frame hf).subset ((List.Sublist.refl xs).append
        (List.sublist_cons_self x ys))).of_hh rfl
    · rw [← ht.ok.buckets]
      exact List.length_set

end Deleting

end LcClibs.Hash.Table
