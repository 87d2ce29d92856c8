import Mathlib
import LcClibs.Hash.UtHash
import LcClibs.Lib.Links
import LcClibs.Lib.Runs

namespace LcClibs.Hash.Layout

open Platform Lib.Runs Lib.Links Hash.UtHash

section Views

def app (s : HashState) (p : Nat) : Option (Nat × Nat) := (s.hh p).map fun h => (h.prev, h.next)

def bkt (s : HashState) (p : Nat) : Option (Nat × Nat) :=
  (s.hh p).map fun h => (h.hhPrev, h.hhNext)

def data (s : HashState) (p : Nat) : Option (Nat × Nat × UInt32) :=
  (s.hh p).map fun h => (h.key, h.keylen, h.hashv)

def hashvAt (s : HashState) (p : Nat) : UInt32 := ((s.hh p).map UTHashHandle.hashv).getD 0

def home (s : HashState) (numBuckets : Nat) (p : Nat) : Nat := hashToBkt (hashvAt s p) numBuckets

variable {s : HashState} {p q : Nat} {h h' : UTHashHandle}

@[simp] theorem put_hh : (s.put p h).hh q = if q = p then some h else s.hh q :=
  Function.update_apply s.hh p (some h) q

@[simp] theorem put_head : (s.put p h).head = s.head := rfl
@[simp] theorem put_tbl : (s.put p h).tbl = s.tbl := rfl
@[simp] theorem put_bytes : (s.put p h).bytes = s.bytes := rfl

@[simp] theorem putTbl_hh {t : UTHashTable} : (s.putTbl t).hh = s.hh := rfl
@[simp] theorem putTbl_head {t : UTHashTable} : (s.putTbl t).head = s.head := rfl
@[simp] theorem putTbl_tbl {t : UTHashTable} : (s.putTbl t).tbl = some t := rfl
@[simp] theorem app_putTbl {t : UTHashTable} : app (s.putTbl t) = app s := rfl
@[simp] theorem bkt_putTbl {t : UTHashTable} : bkt (s.putTbl t) = bkt s := rfl
@[simp] theorem app_putHead : app { s with head := p } = app s := rfl
@[simp] theorem bkt_putHead : bkt { s with head := p } = bkt s := rfl

theorem app_put :
    app (s.put p h) q = if q = p then some (h.prev, h.next) else app s q := by
  simp only [app, put_hh]
  split <;> rfl

theorem bkt_put :
    bkt (s.put p h) q = if q = p then some (h.hhPrev, h.hhNext) else bkt s q := by
  simp only [bkt, put_hh]
  split <;> rfl

theorem put_view {α : Type} (v : UTHashHandle → α) (hp : s.hh p = some h) (hv : v h' = v h) :
    (fun q => ((s.put p h').hh q).map v) = fun q => (s.hh q).map v := by
  funext q
  rw [put_hh]
  split_ifs with hq
  · rw [hq, hp, Option.map_some, Option.map_some, hv]
  · rfl

theorem hashvAt_of_data {s s' : HashState} (h : data s' = data s) : hashvAt s' = hashvAt s := by
  funext q
  have hq := congrArg (fun o => (o.map fun d => d.2.2).getD 0) (congrFun h q)
  simpa [data, hashvAt, Option.map_map, Function.comp_def] using hq

theorem home_of_data {s s' : HashState} (h : data s' = data s) : home s' = home s := by
  funext n q
  rw [home, home, hashvAt_of_data h]

end Views

section Steps

/-- What a step on the elements of a list leaves as it is. -/
structure Frame (own : List Nat) (s s' : HashState) : Prop where
  others : ∀ p ∉ own, s'.hh p = s.hh p
  live : ∀ p, (s'.hh p).isSome = (s.hh p).isSome
  bytes : s'.bytes = s.bytes

theorem Frame.refl (own : List Nat) (s : HashState) : Frame own s s :=
  ⟨fun _ _ => rfl, fun _ => rfl, rfl⟩

theorem Frame.trans {own : List Nat} {s s' s'' : HashState} (h : Frame own s s')
    (h' : Frame own s' s'') : Frame own s s'' :=
  ⟨fun p hp => (h'.others p hp).trans (h.others p hp), fun p => (h'.live p).trans (h.live p),
    h'.bytes.trans h.bytes⟩

structure OrderStep (own : List Nat) (s s' : HashState) : Prop extends Frame own s s' where
  bkt : bkt s' = bkt s
  data : data s' = data s

structure BktStep (own : List Nat) (s s' : HashState) : Prop extends Frame own s s' where
  head : s'.head = s.head
  app : app s' = app s
  data : data s' = data s

variable {own : List Nat} {s s' s'' : HashState} {p q : Nat} {h h' : UTHashHandle}
  {t t' : UTHashTable}

theorem OrderStep.refl (own : List Nat) (s : HashState) : OrderStep own s s :=
  ⟨Frame.refl own s, rfl, rfl⟩

theorem OrderStep.trans (h : OrderStep own s s') (h' : OrderStep own s' s'') :
    OrderStep own s s'' :=
  ⟨h.toFrame.trans h'.toFrame, h'.bkt.trans h.bkt, h'.data.trans h.data⟩

theorem BktStep.refl (own : List Nat) (s : HashState) : BktStep own s s :=
  ⟨Frame.refl own s, rfl, rfl, rfl⟩

theorem BktStep.trans (h : BktStep own s s') (h' : BktStep own s' s'') : BktStep own s s'' :=
  ⟨h.toFrame.trans h'.toFrame, h'.head.trans h.head, h'.app.trans h.app, h'.data.trans h.data⟩

theorem Frame.put (hp : p ∈ own) (hs : s.hh p = some h) : Frame own s (s.put p h') := by
  refine ⟨fun q hq => ?_, fun q => ?_, rfl⟩
  · rw [put_hh, if_neg]
    rintro rfl
    exact hq hp
  · rw [put_hh]
    split_ifs with hq
    · rw [hq, hs]
      rfl
    · rfl

theorem OrderStep.put (hst : OrderStep own s s') (hp : p ∈ own) (hs : s'.hh p = some h)
    (h' : UTHashHandle) (hbkt : (h'.hhPrev, h'.hhNext) = (h.hhPrev, h.hhNext))
    (hdata : (h'.key, h'.keylen, h'.hashv) = (h.key, h.keylen, h.hashv)) :
    OrderStep own s (s'.put p h') :=
  hst.trans ⟨.put hp hs, put_view _ hs hbkt, put_view _ hs hdata⟩

theorem OrderStep.putTbl (hst : OrderStep own s s') (t : UTHashTable) :
    OrderStep own s (s'.putTbl t) :=
  hst.trans ⟨⟨fun _ _ => rfl, fun _ => rfl, rfl⟩, rfl, rfl⟩

theorem OrderStep.putHead (hst : OrderStep own s s') (p : Nat) :
    OrderStep own s { s' with head := p } :=
  hst.trans ⟨⟨fun _ _ => rfl, fun _ => rfl, rfl⟩, rfl, rfl⟩

theorem BktStep.put (hst : BktStep own s s') (hp : p ∈ own) (hs : s'.hh p = some h)
    (h' : UTHashHandle) (happ : (h'.prev, h'.next) = (h.prev, h.next))
    (hdata : (h'.key, h'.keylen, h'.hashv) = (h.key, h.keylen, h.hashv)) :
    BktStep own s (s'.put p h') :=
  hst.trans ⟨.put hp hs, rfl, put_view _ hs happ, put_view _ hs hdata⟩

theorem BktStep.putTbl (hst : BktStep own s s') (t : UTHashTable) :
    BktStep own s (s'.putTbl t) :=
  hst.trans ⟨⟨fun _ _ => rfl, fun _ => rfl, rfl⟩, rfl, rfl, rfl⟩

end Steps

section Ends

variable {xs ys : List Nat}

theorem getLastD_eq_zero (hxs : 0 ∉ xs) : xs.getLastD 0 = 0 ↔ xs = [] := by
  constructor
  · intro h
    by_contra hne
    exact hxs (h ▸ getLastD_mem hne)
  · rintro rfl
    rfl

theorem headD_eq_zero (hys : 0 ∉ ys) : ys.headD 0 = 0 ↔ ys = [] := by
  constructor
  · intro h
    by_contra hne
    exact hys (h ▸ headD_mem hne)
  · rintro rfl
    rfl

end Ends

section Reads

variable {s : HashState} {p q : Nat} {h : UTHashHandle} {t : UTHashTable}
  {f : UTHashHandle → UTHashHandle} {g : UTHashTable → UTHashTable}

theorem getHh_ok (hp : p ≠ 0) (hs : s.hh p = some h) : getHh p s = .ok (h, s) := by
  rw [getHh, if_neg hp, hs]

theorem setHh_ok (hp : p ≠ 0) (hs : s.hh p = some h) : setHh p f s = .ok ((), s.put p (f h)) := by
  rw [setHh, step_ok (getHh_ok hp hs)]
  rfl

structure Ready (s : HashState) (t : UTHashTable) : Prop where
  head : s.head ≠ 0
  live : (s.hh s.head).isSome
  tbl : s.tbl = some t

theorem getTbl_ok (hr : Ready s t) : getTbl s = .ok (t, s) := by
  obtain ⟨h, hh⟩ := Option.isSome_iff_exists.mp hr.live
  rw [getTbl, step_ok (show getHead s = .ok (s.head, s) from rfl), step_ok (getHh_ok hr.head hh),
    step_get]
  simp only [hr.tbl]
  rfl

theorem setTbl_ok (hr : Ready s t) : setTbl g s = .ok ((), s.putTbl (g t)) := by
  rw [setTbl, step_ok (getTbl_ok hr)]
  rfl

theorem Ready.put (hr : Ready s t) : Ready (s.put p h) t := by
  refine ⟨hr.head, ?_, hr.tbl⟩
  rw [put_head, put_hh]
  split_ifs
  · rfl
  · exact hr.live

theorem Ready.putTbl (hr : Ready s t) (t' : UTHashTable) : Ready (s.putTbl t') t' :=
  ⟨hr.head, hr.live, rfl⟩

theorem Ready.of_frame {s' : HashState} {t' : UTHashTable} {own : List Nat} (hr : Ready s t)
    (hf : Frame own s s') (hhead : s'.head = s.head) (ht : s'.tbl = some t') : Ready s' t' :=
  ⟨hhead ▸ hr.head, by rw [hhead, hf.live]; exact hr.live, ht⟩

theorem bucketAt_ok {buckets : List UTHashBucket} {i : Nat} {b : UTHashBucket}
    (hb : buckets[i]? = some b) : bucketAt buckets i s = .ok (b, s) := by
  rw [bucketAt]
  simp only [hb]
  rfl

theorem setBucket_ok {i : Nat} {b : UTHashBucket} {f : UTHashBucket → UTHashBucket}
    (hr : Ready s t) (hb : t.buckets[i]? = some b) :
    setBucket i f s = .ok ((), s.putTbl { t with buckets := t.buckets.set i (f b) }) := by
  rw [setBucket, step_ok (getTbl_ok hr), step_ok (bucketAt_ok hb), setTbl_ok hr]

/-- `if (p) p->… = …`, where the pointer is an end of a list of elements or NULL. -/
theorem patch_ok {own zs : List Nat} (hzs : 0 ∉ zs) (hp : p ≠ 0 → p ∈ zs) (hown : zs ⊆ own)
    (hlive : ∀ q ∈ zs, (s.hh q).isSome) (f : UTHashHandle → UTHashHandle) :
    ∃ s', (if p ≠ 0 then setHh p f else pure ()) s = .ok ((), s') ∧
      s'.tbl = s.tbl ∧ s'.head = s.head ∧ Frame own s s' ∧
      ∀ q, s'.hh q = if q ∈ zs ∧ q = p then (s.hh q).map f else s.hh q := by
  by_cases h0 : p = 0
  · subst h0
    refine ⟨s, rfl, rfl, rfl, .refl own s, fun q => ?_⟩
    rw [if_neg]
    rintro ⟨hq, rfl⟩
    exact hzs hq
  · obtain ⟨h, hh⟩ := Option.isSome_iff_exists.mp (hlive p (hp h0))
    rw [if_pos h0]
    refine ⟨_, setHh_ok h0 hh, rfl, rfl, .put (hown (hp h0)) hh, fun q => ?_⟩
    rw [put_hh]
    by_cases hq : q = p
    · rw [if_pos hq, if_pos ⟨hq ▸ hp h0, hq⟩, hq, hh]
      rfl
    · rw [if_neg hq, if_neg fun h => hq h.2]

theorem view_patch {α : Type} {s s' : HashState} {c : Nat → Prop} [DecidablePred c]
    {f : UTHashHandle → UTHashHandle} (v : UTHashHandle → α) (g : α → α)
    (hs : ∀ q, s'.hh q = if c q then (s.hh q).map f else s.hh q) (hv : ∀ h, v (f h) = g (v h))
    (q : Nat) :
    (s'.hh q).map v = if c q then ((s.hh q).map v).map g else (s.hh q).map v := by
  rw [hs]
  split_ifs
  · rw [Option.map_map, Option.map_map]
    congr 1
    funext h
    exact hv h
  · rfl

theorem view_patch_same {α : Type} {s s' : HashState} {c : Nat → Prop} [DecidablePred c]
    {f : UTHashHandle → UTHashHandle} (v : UTHashHandle → α)
    (hs : ∀ q, s'.hh q = if c q then (s.hh q).map f else s.hh q) (hv : ∀ h, v (f h) = v h) :
    (fun q => (s'.hh q).map v) = fun q => (s.hh q).map v := by
  funext q
  rw [view_patch v id hs hv, Option.map_id_fun, id, ite_self]

end Reads

section Sizes

variable {k : Nat}

theorem uintSub_one (hk : k ≤ 32) : uintSub (uint (2 ^ k)) 1 = 2 ^ k - 1 := by
  have hle : 2 ^ k ≤ 2 ^ 32 := Nat.pow_le_pow_right (by decide) hk
  have hpos := Nat.two_pow_pos k
  unfold uintSub uint
  obtain rfl | hlt : k = 32 ∨ k < 32 := by omega
  · decide
  · have hlt' : 2 ^ k < 2 ^ 32 := Nat.pow_lt_pow_right (by decide) hlt
    omega

theorem hashToBkt_eq (hk : k ≤ 31) (hashv : UInt32) :
    hashToBkt hashv (2 ^ k) = hashv.toNat % 2 ^ k := by
  have hlt : 2 ^ k < 2 ^ 32 := Nat.pow_lt_pow_right (by decide) (by omega)
  have hsub := uintSub_one (k := k) (by omega)
  rw [uint_of_lt hlt] at hsub
  rw [hashToBkt, hsub, Nat.and_two_pow_sub_one_eq_mod]

theorem hashToBkt_lt (hk : k ≤ 31) (hashv : UInt32) : hashToBkt hashv (2 ^ k) < 2 ^ k := by
  rw [hashToBkt_eq hk]
  exact Nat.mod_lt _ (Nat.two_pow_pos k)

/-- The sizes that a table goes through, and when it has given up growing. -/
structure TableOk (t : UTHashTable) : Prop where
  buckets : t.buckets.length = t.numBuckets
  power : t.numBuckets = 2 ^ t.log2NumBuckets
  log2 : t.log2NumBuckets ≤ 31
  ineff : t.ineffExpands ≤ 2
  noexpand : t.noexpand = decide (t.ineffExpands > 1)

theorem TableOk.home_lt {t : UTHashTable} (h : TableOk t) (s : HashState) (p : Nat) :
    home s t.buckets.length p < t.buckets.length := by
  rw [h.buckets, h.power]
  exact hashToBkt_lt h.log2 _

end Sizes

section Order

structure Ordered (s : HashState) (items : List Nat) : Prop where
  head : s.head = items.headD 0
  live : 0 ∉ items
  nodup : items.Nodup
  linked : Linked (app s) 0 items 0

variable {s s' : HashState} {t : UTHashTable} {items xs ys : List Nat} {x add : Nat}

theorem hh_of_app {p a b : Nat} (h : app s p = some (a, b)) :
    ∃ hd, s.hh p = some hd ∧ hd.prev = a ∧ hd.next = b := by
  obtain ⟨hd, hs, hv⟩ := Option.map_eq_some_iff.mp h
  exact ⟨hd, hs, congrArg Prod.fst hv, congrArg Prod.snd hv⟩

theorem hh_of_bkt {p a b : Nat} (h : bkt s p = some (a, b)) :
    ∃ hd, s.hh p = some hd ∧ hd.hhPrev = a ∧ hd.hhNext = b := by
  obtain ⟨hd, hs, hv⟩ := Option.map_eq_some_iff.mp h
  exact ⟨hd, hs, congrArg Prod.fst hv, congrArg Prod.snd hv⟩

theorem Ordered.isSome (h : Ordered s items) (hx : x ∈ items) : (s.hh x).isSome := by
  simpa [app] using h.linked.isSome hx

theorem Ordered.ne_zero (h : Ordered s items) (hx : x ∈ items) : x ≠ 0 := by
  rintro rfl
  exact h.live hx

theorem Ordered.ready (h : Ordered s items) (hne : items ≠ []) (ht : s.tbl = some t) :
    Ready s t := by
  have hmem : s.head ∈ items := by
    rw [h.head]
    exact headD_mem hne
  exact ⟨h.ne_zero hmem, h.isSome hmem, ht⟩

theorem Ordered.congr (h : Ordered s items) (hhead : s'.head = s.head) (happ : app s' = app s) :
    Ordered s' items :=
  ⟨hhead.trans h.head, h.live, h.nodup, by rw [happ]; exact h.linked⟩

end Order

end LcClibs.Hash.Layout
