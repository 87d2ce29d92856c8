import Mathlib
import LcClibs.Pack.Pooled
import LcClibs.Pack.Registry

namespace LcClibs.Pack.Cleanup

open Lib.Runs Buffer.Cursor Buffer.VarInt Memory.Managed Memory.Safety Mmo.Lifecycle
open Mmo.Object Pack.Classes
open Pack.Packer (PackCall Stru)
open Pack.Numbering Pack.Tables Pack.Registry Pack.Pooled

section Spec

variable {A : Type} {n : Nat}

/-- The pools after the release of a packer, against those where nothing was packed. -/
structure Cleaned (s : PooledPacker A n) (idle w : Releasing n) : Prop where
  freed : ∀ mem ∈ s.records, ∀ i, mem ∉ (w.pools i).live
  count : ∀ i, mgnMemCountOfMem (w.pools i) = mgnMemCountOfMem (idle.pools i)
  owned : ∀ ask ∈ w.asked, ask.owned = true

/-- The release of a packer, which was just made at `s0` and has packed until `s`. -/
def CleansUp (home : Fin n) (s0 s : PooledPacker A n) : Prop :=
  ∃ idle w, destroyMMPacker home s0 = .ok idle ∧ destroyMMPacker home s = .ok w ∧
    Cleaned s idle w

end Spec

section Release

variable {A : Type} {n : Nat} {poolOf : A → Fin n} {home : Fin n} {base : Fin n → Pool}
  {s : PooledPacker A n} {pool : Pool} {w : Releasing n}

theorem delete_eq (h : Inv ∅ pool) {x : Record} (hx : x ∈ pool.records) :
    (pool.delete x.serial).records = pool.records.filter fun y => y.m ≠ x.m := by
  rw [Pool.delete]
  refine List.filter_congr fun y hy => decide_eq_decide.mpr (not_congr ⟨fun he => ?_, fun he => ?_⟩)
  · rw [h.eq_of_serial hy hx he]
  · rw [List.inj_on_of_nodup_map h.live_nodup hy hx he]

theorem mgnMemRelease_records (h : Inv ∅ pool) (mem : Nat)
    (h1 : ∀ x ∈ pool.records, x.m = mem → x.r = 1) :
    ∃ p, mgnMemRelease pool mem = .ok p ∧ Inv ∅ p ∧
      p.records = pool.records.filter fun y => y.m ≠ mem := by
  rw [mgnMemRelease, mgnMemReleaseImpl]
  cases hf : pool.find mem with
  | none =>
    refine ⟨pool, rfl, h, (List.filter_eq_self.mpr fun y hy => ?_).symm⟩
    simpa using List.find?_eq_none.mp hf y hy
  | some x =>
    obtain ⟨hx, rfl⟩ := find_some hf
    have hr : x.r = 1 := h1 x hx rfl
    have hinv : Inv ∅ (pool.update x.serial fun y => { y with r := y.r - 1, cb := false }) :=
      h.update (fun _ => rfl) (fun _ => rfl) (Set.notMem_empty _)
    have hx1 : ({ x with r := x.r - 1, cb := false } : Record) ∈ (pool.update x.serial
        fun y => { y with r := y.r - 1, cb := false }).records := mem_update hx rfl
    obtain ⟨p, hfree, hp, hrec⟩ := free_last (hinv.enter hx1 (by rw [hr]))
    have hdel : p.records = (pool.delete x.serial).records :=
      hrec.trans (delete_update fun _ => rfl)
    refine ⟨p, ?_, hp, hdel.trans (delete_eq h hx)⟩
    simp only [hr, Nat.one_ne_zero, if_false, Nat.sub_self, true_and, if_true]
    exact hfree

theorem release_foldlM {mems : List Nat} (h : Inv ∅ (w.pools home)) (hn : mems.Nodup)
    (h1 : ∀ x ∈ (w.pools home).records, x.m ∈ mems → x.r = 1) :
    ∃ w', mems.foldlM (fun w mem => release home mem w) w = .ok w' ∧
      (w'.pools home).records = (w.pools home).records.filter (fun x => x.m ∉ mems) ∧
      (∀ i ≠ home, w'.pools i = w.pools i) ∧
      w'.asked = w.asked ++ mems.map fun mem => ⟨home, mem, mem ∈ (w.pools home).live⟩ := by
  induction mems generalizing w with
  | nil => exact ⟨w, rfl, by simp, fun _ _ => rfl, by simp⟩
  | cons mem mems ih =>
    obtain ⟨hmem, hn⟩ := List.nodup_cons.mp hn
    obtain ⟨p, hrun, hp, hrec⟩ := mgnMemRelease_records h mem fun x hx hm =>
      h1 x hx (hm ▸ List.mem_cons_self)
    have howned : ((w.pools home).find mem).isSome = decide (mem ∈ (w.pools home).live) := by
      rw [Bool.eq_iff_iff, Pool.find, List.find?_isSome]
      simp [Pool.live]
    obtain ⟨w1, hw1, hpool1, hother1, hasked1⟩ : ∃ w1, release home mem w = .ok w1 ∧
        w1.pools home = p ∧ (∀ i ≠ home, w1.pools i = w.pools i) ∧
        w1.asked = w.asked ++ [⟨home, mem, mem ∈ (w.pools home).live⟩] := by
      refine ⟨_, bind_ok hrun, Function.update_self .., fun i hi => ?_, ?_⟩
      · exact Function.update_of_ne hi _ _
      · rw [← howned]
    obtain ⟨w', hw', hrec', hother', hasked'⟩ := ih (w := w1) (hpool1 ▸ hp) hn fun x hx hm => by
      rw [hpool1, hrec] at hx
      exact h1 x (List.mem_filter.mp hx).1 (List.mem_cons_of_mem _ hm)
    refine ⟨w', by rw [List.foldlM_cons, bind_ok hw1, hw'], ?_,
      fun i hi => (hother' i hi).trans (hother1 i hi), ?_⟩
    · rw [hrec', hpool1, hrec, List.filter_filter]
      refine List.filter_congr fun x _ => ?_
      simp [Bool.and_comm]
    · rw [hasked', hasked1, List.map_cons, List.append_assoc, List.singleton_append]
      congr 2
      refine List.map_congr_left fun m hm => ?_
      have hne : m ≠ mem := fun he => hmem (he ▸ hm)
      have hlive : m ∈ (w1.pools home).live ↔ m ∈ (w.pools home).live := by
        rw [hpool1, Pool.live, Pool.live, hrec]
        simp only [List.mem_map, List.mem_filter]
        constructor
        · rintro ⟨x, ⟨hx, -⟩, rfl⟩
          exact ⟨x, hx, rfl⟩
        · rintro ⟨x, hx, rfl⟩
          exact ⟨x, ⟨hx, by simpa using hne⟩, rfl⟩
      rw [decide_eq_decide.mpr hlive]

theorem destroyMMPacker_eq (s : PooledPacker A n) : destroyMMPacker home s =
    s.records.foldlM (fun w mem => release home mem w) ⟨s.pools, []⟩ := by
  rw [destroyMMPacker, PooledPacker.records, List.foldlM_append, List.foldlM_append]
  simp only [List.foldlM_map, bind_assoc]

/-- The packer's pool has its blocks of before again, and the other pools keep all that they
have; the packer's pool is asked for every record. -/
theorem destroyMMPacker_holding (h : Holding poolOf home base s) :
    ∃ w, destroyMMPacker home s = .ok w ∧ (w.pools home).records = (base home).records ∧
      (∀ i ≠ home, w.pools i = s.pools i) ∧
      w.asked = s.records.map fun mem => ⟨home, mem, mem ∈ (s.pools home).live⟩ := by
  obtain ⟨es, hes, h1, hperm⟩ := h.records home
  have hinv := h.apart.inv home
  have hmem : ∀ x ∈ (s.pools home).records, x.m ∈ s.records → ∃ e ∈ es, e.m = x.m :=
    fun x hx hm => by
      have hb := h.mem_held (List.mem_map_of_mem hx) hm
      exact List.mem_map.mp (hperm.mem_iff.mpr (mem_heldIn.mpr hb))
  have hone : ∀ x ∈ (s.pools home).records, x.m ∈ s.records → x.r = 1 := fun x hx hm => by
    obtain ⟨e, he, hem⟩ := hmem x hx hm
    have he' : e ∈ (s.pools home).records := hes ▸ List.mem_append_right _ he
    rw [List.inj_on_of_nodup_map hinv.live_nodup hx he' hem.symm]
    exact h1 e he
  obtain ⟨w, hw, hrec, hother, hasked⟩ :=
    release_foldlM (w := ⟨s.pools, []⟩) hinv h.records_nodup hone
  refine ⟨w, by rw [destroyMMPacker_eq, hw], ?_, hother, by rw [hasked, List.nil_append]⟩
  have hold : (base home).records.filter (fun x => x.m ∉ s.records) = (base home).records := by
    refine List.filter_eq_self.mpr fun x hx => ?_
    have hlive := hinv.live_nodup
    rw [Pool.live, hes, List.map_append] at hlive
    have hno : x.m ∉ s.records := fun hm => by
      obtain ⟨e, he, hem⟩ := hmem x (hes ▸ List.mem_append_left _ hx) hm
      exact List.disjoint_of_nodup_append hlive (List.mem_map_of_mem hx)
        (hem ▸ List.mem_map_of_mem he)
    simpa using hno
  have hnew : es.filter (fun x => x.m ∉ s.records) = [] := by
    refine List.filter_eq_nil_iff.mpr fun e he => ?_
    have hm : e.m ∈ s.records := by
      rw [records_eq poolOf home]
      exact List.mem_map_of_mem (mem_heldIn.mp (hperm.mem_iff.mp (List.mem_map_of_mem he)))
    simpa using hm
  rw [hrec, hes, List.filter_append, hold, hnew, List.append_nil]

/-- An object of another pool leaves two records there. -/
theorem length_records {order : List A} (h : Holding poolOf home base s)
    (hobj : (forget s).objToId = order.zipIdx)
    (hid : (forget s).idToObj = order.zipIdx.map Prod.swap) {i : Fin n} (hi : i ≠ home) :
    (s.pools i).records.length =
      (base i).records.length + 2 * order.countP fun a => poolOf a = i := by
  obtain ⟨es, hes, -, hperm⟩ := h.records i
  have hobj' : s.objToId.map PnI.p = order := by
    have hmap := congrArg (List.map Prod.fst) hobj
    rw [forget, List.map_map, List.zipIdx_map_fst] at hmap
    exact hmap
  have hid' : s.idToObj.map PnI.p = order := by
    have hmap := congrArg (List.map Prod.snd) hid
    rw [forget, List.map_map, List.map_map] at hmap
    exact hmap.trans (List.zipIdx_map_fst 0 order)
  have hlen := hperm.length_eq
  have hnames : s.classNameToId.countP
      ((fun b : Fin n × Nat => decide (b.1 = i)) ∘ fun e => (home, e.mem)) = 0 :=
    List.countP_eq_zero.mpr fun e _ => by simpa using Ne.symm hi
  rw [List.length_map, heldIn, List.length_map, ← List.countP_eq_length_filter, held,
    List.countP_append, List.countP_append, List.countP_map, List.countP_map, List.countP_map,
    hnames] at hlen
  have hp : ∀ t : List (PnI A), t.countP
      ((fun b : Fin n × Nat => decide (b.1 = i)) ∘ fun e => (poolOf e.p, e.mem)) =
      (t.map PnI.p).countP fun a => poolOf a = i := fun t => by
    rw [List.countP_map]
    rfl
  rw [hp, hp, hobj', hid'] at hlen
  rw [hes, List.length_append, hlen]
  omega

end Release

section Cleaning

variable {A : Type} {n : Nat} {host : Host} {malloc : Malloc} {poolOf : A → Fin n} {home : Fin n}
  {stru : A → Stru A} {base : Fin n → Pool} {s0 s : PooledPacker A n} {calls : List (PackCall A)}
  {fuel : Nat}

/-- A packer just made, which has no record yet. -/
structure Fresh (host : Host) (base : Fin n → Pool) (s0 : PooledPacker A n) : Prop where
  init : initMMPacker host base = .ok s0
  pools : s0.pools = base
  tables : s0.objToId = [] ∧ s0.idToObj = [] ∧ s0.classNameToId = []
  keeps : Keeps host 0 (forget s0) (Ledger.start : Ledger A)

theorem initMMPacker_fresh (host : Host) (base : Fin n → Pool) :
    ∃ s0 : PooledPacker A n, Fresh host base s0 := by
  obtain ⟨t, ht, hkeeps⟩ := initMMPacker_keeps (A := A) host
  rw [Packer.initMMPacker, Packer.emit, Packer.onDyb] at ht
  cases hd : (Records.Record.version Records.packerVersionV1).append host (dybCreate 64) with
  | error f =>
    rw [hd] at ht
    cases ht
  | ok p =>
    rw [hd] at ht
    cases ht
    refine ⟨⟨0, [], [], [], p.2, base⟩, ?_, rfl, ⟨rfl, rfl, rfl⟩, hkeeps⟩
    rw [initMMPacker, emit, onDyb, hd]
    rfl

theorem Fresh.holding (h : Fresh host base s0) (hbase : Apart base) :
    Holding poolOf home base s0 where
  apart := h.pools ▸ hbase
  records i := by
    obtain ⟨h1, h2, h3⟩ := h.tables
    refine ⟨[], by rw [h.pools, List.append_nil], fun e he => absurd he List.not_mem_nil, ?_⟩
    simp [heldIn, held, h1, h2, h3]

theorem Fresh.registered (h : Fresh host base s0) : Registered stru [] (forget s0) [] where
  numbered := ⟨h.keeps.level_eq, List.nodup_nil, h.keeps.objToId_eq, h.keeps.idToObj_eq⟩
  roots_mem _ ha := absurd ha List.not_mem_nil
  reach _ ha := absurd ha List.not_mem_nil
  covered j _ hj := absurd hj (Nat.not_lt_zero j)

theorem Fresh.idle (h : Fresh host base s0) : destroyMMPacker home s0 = .ok ⟨base, []⟩ := by
  obtain ⟨h1, h2, h3⟩ := h.tables
  rw [destroyMMPacker, h1, h2, h3, h.pools]
  rfl

variable [DecidableEq A]

/-- Finitely many objects whose pack functions come to their end, and not too many bytes. -/
def Bounded (host : Host) (stru : A → Stru A) (calls : List (PackCall A)) : Prop :=
  Ends calls ∧ ∃ U : Universe stru, (∀ b ∈ objectsOf calls, b ∈ U.objects) ∧
    ∃ fuel, U.objects.card < fuel ∧
      ((Ledger.start : Ledger A).run stru fuel calls).size host < 2 ^ 32

def Returns (host : Host) (malloc : Malloc) (poolOf : A → Fin n) (home : Fin n)
    (stru : A → Stru A) (calls : List (PackCall A)) (s0 : PooledPacker A n) : Prop :=
  ∃ enough, ∀ fuel, enough ≤ fuel →
    ∃ s, packTop host malloc poolOf home stru fuel calls s0 = .ok ((), s)

theorem Fresh.returns (h : Fresh host base s0) (hbase : Apart base) (hserves : Serves malloc)
    (hcalls : Bounded host (accepted stru) (calls.map (acceptedCall stru))) :
    Returns host malloc poolOf home stru calls s0 := by
  obtain ⟨hends, U, hobj, enough, hen, hlt⟩ := hcalls
  refine ⟨enough + 1, fun fuel hle => ?_⟩
  obtain ⟨fuel, rfl⟩ : ∃ m, fuel = m + 1 := ⟨fuel - 1, by omega⟩
  have hstart := Within.start U.objects
  have hsize : ((Ledger.start : Ledger A).run (accepted stru) fuel
      (calls.map (acceptedCall stru))).size host < 2 ^ 32 := by
    rw [run_fuel U.closed hstart hobj hen (Nat.le_of_succ_le_succ hle)]
    exact hlt
  obtain ⟨t, ht, -⟩ := packTop_does U h.keeps hstart hends hobj (by omega) hsize
  have htracks : Tracks malloc poolOf home base s0
      (packTop host malloc poolOf home stru (fuel + 1) calls)
      (Packer.packTop host stru (fuel + 1) calls) :=
    packTop_tracks stru (h.holding hbase) (fuel + 1) calls
  obtain ⟨e, -, herr⟩ | ⟨u, s, hs, -⟩ := htracks
  · obtain ⟨e', he'⟩ := herr hserves
    rw [ht] at he'
    cases he'
  · exact ⟨s, hs⟩

theorem Fresh.packed (h : Fresh host base s0) (hbase : Apart base)
    (hrun : packTop host malloc poolOf home stru fuel calls s0 = .ok ((), s)) :
    Holding poolOf home base s ∧ ∃ order, Registered (accepted stru)
      (objectsOf (calls.map (acceptedCall stru))) (forget s) order := by
  have htracks : Tracks malloc poolOf home base s0
      (packTop host malloc poolOf home stru fuel calls) (Packer.packTop host stru fuel calls) :=
    packTop_tracks stru (h.holding hbase) fuel calls
  obtain ⟨e, he, -⟩ | ⟨u, s', hs', hpack, hhold⟩ := htracks
  · rw [hrun] at he
    cases he
  · rw [hrun] at hs'
    cases hs'
    have hreg : ∃ order, Registered (accepted stru)
        ([] ++ objectsOf (calls.map (acceptedCall stru))) (forget s) order :=
      h.registered.packTop hpack
    exact ⟨hhold, hreg⟩

/-- The release of a packer that has packed leaves records exactly in the other pools. -/
theorem Fresh.cleansUp (h : Fresh host base s0) (hbase : Apart base)
    (hrun : packTop host malloc poolOf home stru fuel calls s0 = .ok ((), s)) :
    CleansUp home s0 s ↔ ∀ a,
      Reach (accepted stru) (objectsOf (calls.map (acceptedCall stru))) a → poolOf a = home := by
  obtain ⟨hhold, order, hreg⟩ := h.packed hbase hrun
  obtain ⟨w, hw, hrec, hother, hasked⟩ := destroyMMPacker_holding hhold
  have hcount : ∀ i ≠ home, _ := fun i hi =>
    length_records hhold hreg.numbered.objToId_eq hreg.numbered.idToObj_eq hi
  constructor
  · rintro ⟨idle, w', hidle, hw', hclean⟩ a ha
    obtain rfl := Except.ok.inj (hw.symm.trans hw')
    obtain rfl := Except.ok.inj (h.idle.symm.trans hidle)
    by_contra hne
    have hsame := hclean.count (poolOf a)
    rw [mgnMemCountOfMem, mgnMemCountOfMem, hother _ hne, hcount _ hne] at hsame
    have hpos : 0 < order.countP fun b => poolOf b = poolOf a :=
      List.countP_pos_iff.mpr ⟨a, (hreg.mem_iff a).mpr ha, by simp⟩
    have hbase' : (⟨base, []⟩ : Releasing n).pools (poolOf a) = base (poolOf a) := rfl
    rw [hbase'] at hsame
    omega
  · intro hall
    have hsame : ∀ i ≠ home, (s.pools i).records.length = (base i).records.length := fun i hi => by
      have hzero : order.countP (fun a => poolOf a = i) = 0 :=
        List.countP_eq_zero.mpr fun a ha => by
          simpa [hall a (hreg.reach a ha)] using Ne.symm hi
      rw [hcount i hi, hzero, Nat.mul_zero, Nat.add_zero]
    have hheld : ∀ mem ∈ s.records, (home, mem) ∈ held poolOf home s := fun mem hmem => by
      rw [records_eq poolOf home] at hmem
      obtain ⟨b, hb, rfl⟩ := List.mem_map.mp hmem
      by_cases hi : b.1 = home
      · have hbe : b = (home, b.2) := Prod.ext hi rfl
        rw [← hbe]
        exact hb
      · exact absurd hb (hhold.none_held (hsame b.1 hi) b.2)
    refine ⟨⟨base, []⟩, w, h.idle, hw, fun mem hmem i hlive => ?_, fun i => ?_, fun ask hask => ?_⟩
    · have hb := hheld mem hmem
      by_cases hi : i = home
      · rw [hi, Pool.live, hrec] at hlive
        exact hhold.notMem_base hb hlive
      · rw [hother i hi] at hlive
        exact hi (hhold.apart.eq_of_live hlive (hhold.live hb))
    · by_cases hi : i = home
      · rw [hi, mgnMemCountOfMem, hrec]
        rfl
      · rw [mgnMemCountOfMem, hother i hi, hsame i hi]
        rfl
    · rw [hasked] at hask
      obtain ⟨mem, hmem, rfl⟩ := List.mem_map.mp hask
      exact decide_eq_true (hhold.live (hheld mem hmem))

/-- A packer cleans up exactly where all objects that it takes are in its own pool. -/
theorem packer_cleansUp_iff (host : Host) (malloc : Malloc) (poolOf : A → Fin n) (home : Fin n)
    (stru : A → Stru A) {base : Fin n → Pool} (hbase : Apart base) (calls : List (PackCall A)) :
    ∃ s0, initMMPacker host base = .ok s0 ∧
      (Serves malloc → Bounded host (accepted stru) (calls.map (acceptedCall stru)) →
        Returns host malloc poolOf home stru calls s0) ∧
      ∀ fuel s, packTop host malloc poolOf home stru fuel calls s0 = .ok ((), s) →
        (CleansUp home s0 s ↔ ∀ a,
          Reach (accepted stru) (objectsOf (calls.map (acceptedCall stru))) a →
            poolOf a = home) := by
  obtain ⟨s0, h⟩ := initMMPacker_fresh (A := A) host base
  exact ⟨s0, h.init, h.returns hbase, fun _ _ hrun => h.cleansUp hbase hrun⟩

def twoPools : Fin 2 → Pool
  | 0 => ⟨[newRecord 0 1000 160 [], newRecord 1 2000 112 []], 2, []⟩
  | 1 => ⟨[newRecord 0 3000 112 []], 1, []⟩

theorem apart_twoPools : Apart twoPools where
  inv i := by
    refine Start.inv ?_
    match i with
    | 0 => exact ⟨by decide, by decide, by decide, by decide, rfl⟩
    | 1 => exact ⟨by decide, by decide, by decide, by decide, rfl⟩
  disjoint := by
    have hd : ∀ i j, i ≠ j → ∀ mem ∈ (twoPools i).live, mem ∉ (twoPools j).live := by decide
    exact fun i j hij mem hi hj => hd i j hij mem hi hj

theorem serves_bumpMalloc : Serves bumpMalloc := ⟨fun _ _ _ => rfl, fun _ => rfl⟩

theorem bounded_loopHeap : Bounded .little (accepted (heapStru loopHeap))
    ([PackCall.object 3 (some 0)].map (acceptedCall (heapStru loopHeap))) := by
  have hall := heapStru_isMMObject loopHeap
  rw [map_acceptedCall hall, accepted_eq_self hall]
  have hclosed : ∀ a ∈ ({0, 1} : Finset Addr), ∀ b ∈ children (heapStru loopHeap a),
      b ∈ ({0, 1} : Finset Addr) := by decide
  have hends : ∀ a ∈ ({0, 1} : Finset Addr), StruEnds (heapStru loopHeap a) := by
    intro a ha
    have hfit : ∀ a ∈ ({0, 1} : Finset Addr), ∀ l ∈ (heapStru loopHeap a).levels, ∀ cs ∈ l.pack,
        ∀ c ∈ cs, CallFits c := by decide
    exact StruEnds.of_fits (hfit a ha)
  have hobj : ∀ b ∈ objectsOf [PackCall.object 3 (some 0)], b ∈ ({0, 1} : Finset Addr) := by decide
  have hcard : ({0, 1} : Finset Addr).card < 3 := by decide
  refine ⟨fun f hf => ?_, ⟨{0, 1}, hclosed, hends⟩, hobj, 3, hcard, by decide⟩
  cases List.mem_singleton.mp hf

theorem packer_cleansUp_iff_loopHeap : ∃ s0 s fuel, initMMPacker .little twoPools = .ok s0 ∧
    packTop .little bumpMalloc (fun _ => 0) 0 (heapStru loopHeap) fuel [.object 3 (some 0)] s0 =
      .ok ((), s) ∧ CleansUp 0 s0 s := by
  obtain ⟨s0, h0, hreturns, hclean⟩ := packer_cleansUp_iff .little bumpMalloc (fun _ => 0) 0
    (heapStru loopHeap) apart_twoPools [.object 3 (some 0)]
  obtain ⟨enough, hrun⟩ := hreturns serves_bumpMalloc bounded_loopHeap
  obtain ⟨s, hs⟩ := hrun enough le_rfl
  exact ⟨s0, s, enough, h0, hs, (hclean enough s hs).mpr fun _ _ => rfl⟩

def mixed (a : Addr) : Fin 2 := if a = 1 then 1 else 0

theorem not_cleansUp : ∃ s0 s fuel, initMMPacker .little twoPools = .ok s0 ∧
    packTop .little bumpMalloc mixed 0 (heapStru loopHeap) fuel [.object 3 (some 0)] s0 =
      .ok ((), s) ∧ ¬CleansUp 0 s0 s := by
  obtain ⟨s0, h⟩ := initMMPacker_fresh (A := Addr) .little twoPools
  have hreturns : Returns .little bumpMalloc mixed 0 (heapStru loopHeap) [.object 3 (some 0)] s0 :=
    h.returns apart_twoPools serves_bumpMalloc bounded_loopHeap
  obtain ⟨enough, hrun⟩ := hreturns
  obtain ⟨s, hs⟩ := hrun enough le_rfl
  refine ⟨s0, s, enough, h.init, hs, fun hclean => ?_⟩
  have hall := (h.cleansUp apart_twoPools hs).mp hclean
  rw [map_acceptedCall (heapStru_isMMObject loopHeap),
    accepted_eq_self (heapStru_isMMObject loopHeap)] at hall
  have hitem : Reach (heapStru loopHeap) [0] 1 := .child (.root List.mem_cons_self) (by decide)
  exact absurd (hall 1 hitem) (by decide)

end Cleaning

end LcClibs.Pack.Cleanup
