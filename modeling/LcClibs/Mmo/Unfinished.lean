import Mathlib
import LcClibs.Mmo.Lifecycle

namespace LcClibs.Mmo.Unfinished

open Platform Lib.Runs Memory.Managed Memory.Safety Mmo.Casting Mmo.Kinds Mmo.Identity
open Mmo.Lifecycle

section Model

/-- What code that has an object does with it, through one of its views. -/
inductive Hold
  | retain (view : Nat)
  | release (view : Nat)
  deriving DecidableEq, Repr

variable {F : Type} (impl : (x : ClassChain) → Impl F x) (mem : Nat)

def Hold.run (w : World F) : Hold → Except Stop (World F)
  | .retain view => retainMmobj mem view w
  | .release view => releaseMmobj impl mem view w

def destroySuper (w : World F) : ClassChain → Except Stop (World F)
  | .root _ => .ok w
  | .sub supName _ => destroyStru impl w.levels.length supName.posB w

/-- The first context of an object makes a strong reference to its `MMObject`, the root of the
chain, if there is one. -/
def refer (referred : Bool) (w : World F) : Except Stop (World F) :=
  if referred then retainMmobj mem 0 w else .ok w

/-- `unpack##stru_name` from the first context on, where the init function of `x` fails, and
what is done with the object after it. -/
def life (x : ClassChain) (referred : Bool) (before after : List Hold) (w : World F) :
    Except Stop (World F) := do
  let w ← refer mem referred w
  let w ← before.foldlM (Hold.run impl mem) w
  let w ← destroySuper impl w x
  let w ← releaseObject mem none w
  after.foldlM (Hold.run impl mem) w

/-- Callers give up only what they own, and retain only what has an owner. -/
inductive Gives (depth : Nat) : Nat → List Hold → Nat → Prop
  | nil (owners : Nat) : Gives depth owners [] owners
  | retain {owners owners' view : Nat} {holds : List Hold} : view < depth →
    owners + 2 < 2 ^ 64 → Gives depth (owners + 2) holds owners' →
    Gives depth (owners + 1) (.retain view :: holds) owners'
  | release {owners owners' view : Nat} {holds : List Hold} : view < depth →
    Gives depth owners holds owners' →
    Gives depth (owners + 1) (.release view :: holds) owners'

/-- The levels down to `x` are there, and the block of the object has so many owners. -/
structure Held (last : Nat) (x : ClassChain) (count : Nat) (w : World F) : Prop
    extends Ready last x w where
  block : ∃ r ∈ w.pool.records, r.m = mem ∧ r.r = count

/-- No destroy function runs twice, and that of the class whose init failed not at all. -/
def DestroysOnce (x : ClassChain) (referred : Bool) (before after : List Hold)
    (w : World F) : Prop :=
  ∃ w', life impl mem x referred before after w = .ok w' ∧
    (∀ level, w'.acts.count (.destroy level) ≤ 1) ∧ Act.destroy x.posB ∉ w'.acts

end Model

section Owners

variable {F : Type} {impl : (x : ClassChain) → Impl F x} {mem last count owners owners' : Nat}
  {x ch : ClassChain} {w : World F} {holds : List Hold} {view : Nat}

theorem Gives.pos (h : Gives count owners holds owners') (hpos : 0 < owners') : 0 < owners := by
  cases h with
  | nil => exact hpos
  | retain => exact Nat.succ_pos _
  | release => exact Nat.succ_pos _

theorem Held.level (h : Held mem last x count w) (hv : view < x.depth) :
    ∃ b, w.levels[view]? = some b ∧ mem + b.cls.findObj view = mem := by
  obtain ⟨b, hb, hoff, -⟩ := h.built.level hv
  exact ⟨b, hb, by rw [MmClass.findObj, hoff, Nat.sub_self, Nat.add_zero]⟩

theorem Held.update {f : Record → Record} (h : Held mem last x count w) {r : Record}
    (hr : r ∈ w.pool.records) (hm : r.m = mem) (hserial : ∀ y, (f y).serial = y.serial)
    (hmem : ∀ y, (f y).m = y.m) :
    Held mem last x (f r).r { w with pool := w.pool.update r.serial f } where
  inv := h.inv.update hserial hmem (Set.notMem_empty _)
  built := h.built
  length_eq := h.length_eq
  block := ⟨f r, mem_update hr rfl, (hmem r).trans hm, rfl⟩

theorem Held.retain (h : Held mem last x count w) (hv : view < x.depth)
    (hlt : count + 1 < 2 ^ 64) :
    ∃ w', retainMmobj mem view w = .ok w' ∧ Held mem last x (count + 1) w' ∧
      w'.acts = w.acts := by
  obtain ⟨b, hb, hobj⟩ := h.level hv
  obtain ⟨r, hr, hm, hcount⟩ := h.block
  have hfind : w.pool.find mem = some r := by
    rw [← hm]
    exact h.inv.find_of_mem hr
  have hsize : sizeT (r.r + 1) = count + 1 := by
    rw [hcount]
    exact Nat.mod_eq_of_lt hlt
  have hheld := h.update (f := fun x => { x with r := sizeT (x.r + 1) }) hr hm (fun _ => rfl)
    fun _ => rfl
  rw [hsize] at hheld
  refine ⟨_, ?_, hheld, rfl⟩
  rw [retainMmobj, hb]
  simp only [hobj, mgnMemRetain, hfind]

theorem releaseObject_more (h : Held mem last x (count + 1) w) (hpos : count ≠ 0)
    (cb : Option (World F → Except Stop (World F))) :
    ∃ w', releaseObject mem cb w = .ok w' ∧ Held mem last x count w' ∧ w'.acts = w.acts := by
  obtain ⟨r, hr, hm, hcount⟩ := h.block
  have hfind : w.pool.find mem = some r := by
    rw [← hm]
    exact h.inv.find_of_mem hr
  have hheld := h.update (f := fun x => { x with r := x.r - 1, cb := cb.isSome }) hr hm
    (fun _ => rfl) fun _ => rfl
  rw [hcount, Nat.add_sub_cancel] at hheld
  refine ⟨_, ?_, hheld, rfl⟩
  rw [releaseObject, hfind]
  simp only [hcount, Nat.succ_ne_zero, if_false, Nat.add_sub_cancel, hpos]
  rfl

theorem Held.release (h : Held mem last x (count + 1) w) (hpos : count ≠ 0)
    (hv : view < x.depth) :
    ∃ w', releaseMmobj impl mem view w = .ok w' ∧ Held mem last x count w' ∧
      w'.acts = w.acts := by
  obtain ⟨b, hb, hobj⟩ := h.level hv
  rw [releaseMmobj, hb]
  simp only [hobj]
  exact releaseObject_more h hpos _

/-- While an owner is left, nothing is destroyed. -/
theorem Held.run (impl : (x : ClassChain) → Impl F x) (hg : Gives x.depth owners holds owners')
    (hpos : 0 < owners') (h : Held mem last x owners w) :
    ∃ w', holds.foldlM (Hold.run impl mem) w = .ok w' ∧ Held mem last x owners' w' ∧
      w'.acts = w.acts := by
  induction hg generalizing w with
  | nil => exact ⟨w, rfl, h, rfl⟩
  | retain hv hlt _ ih =>
    obtain ⟨w1, h1, hheld, hacts⟩ := h.retain hv hlt
    obtain ⟨w2, h2, hheld2, hacts2⟩ := ih hpos hheld
    refine ⟨w2, ?_, hheld2, hacts2.trans hacts⟩
    rw [List.foldlM_cons, Hold.run, bind_ok h1, h2]
  | release hv hg ih =>
    obtain ⟨w1, h1, hheld, hacts⟩ := h.release (hg.pos hpos).ne' hv
    obtain ⟨w2, h2, hheld2, hacts2⟩ := ih hpos hheld
    refine ⟨w2, ?_, hheld2, hacts2.trans hacts⟩
    rw [List.foldlM_cons, Hold.run, bind_ok h1, h2]

/-- Where all owners give the object up, one of them is the last. -/
theorem Held.run_last (impl : (x : ClassChain) → Impl F x) (hg : Gives x.depth owners holds 0)
    (hpos : 0 < owners) (h : Held mem last x owners w) :
    ∃ w1 view, view < x.depth ∧ Held mem last x 1 w1 ∧ w1.acts = w.acts ∧
      holds.foldlM (Hold.run impl mem) w = releaseMmobj impl mem view w1 := by
  obtain ⟨owners', hzero⟩ : ∃ n, n = 0 := ⟨0, rfl⟩
  rw [← hzero] at hg
  induction hg generalizing w with
  | nil => exact absurd hzero hpos.ne'
  | retain hv hlt _ ih =>
    obtain ⟨w1, h1, hheld, hacts⟩ := h.retain hv hlt
    obtain ⟨w2, view, hview, hheld2, hacts2, h2⟩ := ih (Nat.succ_pos _) hheld hzero
    refine ⟨w2, view, hview, hheld2, hacts2.trans hacts, ?_⟩
    rw [List.foldlM_cons, Hold.run, bind_ok h1, h2]
  | @release n _ view holds hv hg ih =>
    by_cases hn : n = 0
    · subst hn
      cases hg
      refine ⟨w, view, hv, h, rfl, ?_⟩
      rw [List.foldlM_cons, Hold.run]
      exact bind_pure _
    · obtain ⟨w1, h1, hheld, hacts⟩ := h.release hn hv
      obtain ⟨w2, view', hview, hheld2, hacts2, h2⟩ := ih (Nat.pos_of_ne_zero hn) hheld hzero
      refine ⟨w2, view', hview, hheld2, hacts2.trans hacts, ?_⟩
      rw [List.foldlM_cons, Hold.run, bind_ok h1, h2]

theorem held_of_alloc {malloc : Malloc} {pool p : Pool} {size : Nat} (struName : List UInt8)
    (h : Inv ∅ pool) (ha : mgnMemAlloc malloc pool size = .ok (some mem, p)) :
    Held mem last (.root struName) 1
      (⟨p, [⟨(ClassChain.root struName).cls, last, [], .root struName⟩], []⟩ : World F) := by
  obtain ⟨r, hrun, hinv⟩ : ∃ r, mgnMemAlloc malloc pool size = .ok r ∧ Inv ∅ r.2 :=
    mgnMemAlloc_inv size h
  rw [ha] at hrun
  cases hrun
  obtain ⟨hno, -⟩ | ⟨a, bytes, hr, -, -, hrec⟩ := mgnMemAlloc_cases h ha
  · cases hno
  · cases hr
    refine ⟨⟨hinv, ⟨[], rfl⟩, rfl⟩, newRecord pool.clock mem size bytes, ?_, rfl, rfl⟩
    rw [hrec]
    simp

theorem held_of_inited {malloc : Malloc} {fns : RootFns F} {pool p : Pool} {size : Nat}
    {supName : ClassChain} (struName : List UInt8) (h : Inv ∅ pool)
    (ha : mgnMemAlloc malloc pool size = .ok (some mem, p))
    (hi : initStru malloc fns impl supName last ⟨p, [], []⟩ = .ok (true, w)) :
    Held mem last (.sub supName struName) 1 { w with levels := w.levels ++
        [⟨(ClassChain.sub supName struName).cls, supName.posB, [], .sub supName struName⟩] } ∧
      ∀ level, Act.destroy level ∉ w.acts := by
  -- the block is in the pool whatever its first level was to be
  have hblock : Held mem last (.root struName) 1
      (⟨p, [⟨(ClassChain.root struName).cls, last, [], .root struName⟩], []⟩ : World F) :=
    held_of_alloc struName h ha
  obtain ⟨r, hr, hm, hcount⟩ := hblock.block
  have hmeets : Meets (Short malloc) (Inited impl last supName ⟨p, [], []⟩)
      (initStru malloc fns impl supName last ⟨p, [], []⟩) :=
    initStru_meets supName hblock.inv
  rw [hi] at hmeets
  obtain ⟨es, -, -, hes⟩ := hmeets.entries
  cases hf : failing impl supName with
  | some y => cases (hmeets.failed y hf).1
  | none =>
    obtain ⟨-, hready, hacts⟩ := hmeets.succeeded hf
    refine ⟨⟨hready.sub struName, r, ?_, hm, hcount⟩, ?_⟩
    · rw [hes]
      exact List.mem_append_left es hr
    · rw [hacts]
      simp [initActs]

end Owners

section Levels

variable {F : Type} {impl : (x : ClassChain) → Impl F x} {x ch : ClassChain} {level : Nat}

theorem supers_eq_concat (x : ClassChain) : supers x = (supers x).dropLast ++ [x] := by
  cases x with
  | root struName => rfl
  | sub supName struName => rw [supers_sub, List.dropLast_concat]

theorem map_posB_supers (x : ClassChain) : (supers x).map ClassChain.posB = List.range x.depth := by
  induction x with
  | root struName => rfl
  | sub supName struName ih =>
    rw [supers_sub, List.map_append, ih]
    exact List.range_succ.symm

theorem depth_le_of_ne (h : x ∈ supers ch) (hne : x ≠ ch) : x.depth ≤ ch.posB := by
  rw [supers_eq_concat, List.mem_append, List.mem_singleton] at h
  obtain h | h := h
  · cases ch with
    | root struName => cases h
    | sub supName struName =>
      rw [supers_sub, List.dropLast_concat] at h
      exact Nat.succ_le_succ (view_le (fun _ => 0) h).1
  · exact absurd h hne

theorem destroyActs_self (impl : (x : ClassChain) → Impl F x) (x : ClassChain) :
    destroyActs impl (supers x) = (if (impl x).destroy then [.destroy x.posB] else []) ++
      destroyActs impl (supers x).dropLast := by
  rw [← destroyActs_concat, ← supers_eq_concat]

theorem destroyActs_eq_nil {classes : List ClassChain} :
    destroyActs impl classes = [] ↔ ∀ y ∈ classes, (impl y).destroy = false := by
  simp [destroyActs]

theorem destroyActs_nodup (impl : (x : ClassChain) → Impl F x) (x : ClassChain) :
    (destroyActs impl (supers x)).Nodup := by
  have hsub : (destroyActs impl (supers x)).Sublist
      (((supers x).map ClassChain.posB).reverse.map Act.destroy) := by
    rw [destroyActs, ← List.map_reverse, List.map_map]
    exact List.filter_sublist.map _
  refine hsub.nodup (List.Nodup.map (fun _ _ => Act.destroy.inj) ?_)
  rw [map_posB_supers, List.nodup_reverse]
  exact List.nodup_range

theorem destroy_notMem_super (x : ClassChain) :
    Act.destroy x.posB ∉ destroyActs impl (supers x).dropLast := by
  intro h
  obtain ⟨y, hy, hpos⟩ := List.mem_map.mp h
  have hmem := List.mem_reverse.mp (List.mem_of_mem_filter hy)
  cases x with
  | root struName => cases hmem
  | sub supName struName =>
    rw [supers_sub, List.dropLast_concat] at hmem
    have hle := (view_le (fun _ => 0) hmem).1
    have heq : y.posB = supName.posB + 1 := Act.destroy.inj hpos
    omega

theorem count_super_le (x : ClassChain) (level : Nat) :
    (destroyActs impl (supers x).dropLast).count (.destroy level) ≤ 1 := by
  have hnodup := destroyActs_nodup impl x
  rw [destroyActs_self] at hnodup
  exact List.nodup_iff_count_le_one.mp hnodup.of_append_right _

/-- The super classes are destroyed by the failure and once more with the object. -/
theorem twice_iff :
    (∀ level, (destroyActs impl (supers x).dropLast).count (.destroy level) +
        (destroyActs impl (supers x)).count (.destroy level) ≤ 1) ∧
      Act.destroy x.posB ∉ destroyActs impl (supers x) ↔
      ∀ y ∈ supers x, (impl y).destroy = false := by
  rw [← destroyActs_eq_nil]
  constructor
  · rintro ⟨hcount, hself⟩
    have hno : (impl x).destroy = false := by
      cases h : (impl x).destroy with
      | false => rfl
      | true => exact absurd (by simp [destroyActs_self, h]) hself
    rw [destroyActs_self, hno, if_neg Bool.false_ne_true, List.nil_append] at hcount ⊢
    refine List.eq_nil_iff_forall_not_mem.mpr fun act hact => ?_
    obtain ⟨y, -, rfl⟩ := List.mem_map.mp hact
    have hpos := List.count_pos_iff.mpr hact
    have hle := hcount y.posB
    omega
  · intro h
    have hself := destroyActs_self impl x
    rw [h] at hself
    rw [h, (List.append_eq_nil_iff.mp hself.symm).2]
    exact ⟨fun _ => Nat.zero_le 1, List.not_mem_nil⟩

end Levels

section End

variable {F : Type} {impl : (x : ClassChain) → Impl F x} {mem last owners owners' : Nat}
  {x ch : ClassChain} {referred : Bool} {before after : List Hold} {w : World F} {view : Nat}

theorem Held.destroySuper (impl : (x : ClassChain) → Impl F x) (h : Held mem last x owners w) :
    Unfinished.destroySuper impl w x =
        .ok { w with acts := w.acts ++ destroyActs impl (supers x).dropLast } ∧
      Held mem last x owners
        { w with acts := w.acts ++ destroyActs impl (supers x).dropLast } := by
  refine ⟨?_, ⟨⟨h.inv, h.built, h.length_eq⟩, h.block⟩⟩
  cases x with
  | root struName => exact congrArg Except.ok (by simp [supers, destroyActs])
  | sub supName struName =>
    have hlt : supName.posB < w.levels.length := by
      rw [h.length_eq]
      exact Nat.lt_succ_of_lt (Nat.lt_succ_self _)
    rw [supers_sub, List.dropLast_concat]
    exact destroyStru_built h.built.1 _ hlt

theorem life_eq (impl : (x : ClassChain) → Impl F x) (after : List Hold)
    (h : Held mem last x 1 w)
    (hb : Gives x.depth (referred.toNat + 1) before (referred.toNat + owners + 1)) :
    ∃ w', Held mem last x (referred.toNat + owners + 1) w' ∧
      w'.acts = w.acts ++ destroyActs impl (supers x).dropLast ∧
      life impl mem x referred before after w =
        releaseObject mem none w' >>= fun w => after.foldlM (Hold.run impl mem) w := by
  obtain ⟨w1, h1, hheld1, hacts1⟩ : ∃ w1, refer mem referred w = .ok w1 ∧
      Held mem last x (referred.toNat + 1) w1 ∧ w1.acts = w.acts := by
    cases referred with
    | false => exact ⟨w, rfl, h, rfl⟩
    | true => exact h.retain x.depth_pos (by decide)
  obtain ⟨w2, h2, hheld2, hacts2⟩ := hheld1.run impl hb (Nat.succ_pos _)
  obtain ⟨h3, hheld3⟩ := hheld2.destroySuper impl
  refine ⟨_, hheld3, by rw [hacts2, hacts1], ?_⟩
  rw [life, bind_ok h1, bind_ok h2, bind_ok h3]

theorem Held.final (impl : (x : ClassChain) → Impl F x) (h : Held mem ch.posB ch 1 w)
    (hv : view < ch.depth) :
    ∃ w', releaseMmobj impl mem view w = .ok w' ∧
      w'.acts = w.acts ++ destroyActs impl (supers ch) ++ [.freed] := by
  obtain ⟨r, hr, rfl, h1⟩ := h.block
  obtain ⟨pool', hrun, -⟩ := releaseMmobj_final h.inv h.built h.length_eq hr h1 hv
  exact ⟨_, hrun, rfl⟩

/-- With some levels missing, it goes to the last child, whose functions are not set. -/
theorem Held.final_missing (h : Held mem last x 1 w) (hlast : x.depth ≤ last)
    (hv : view < x.depth) : releaseMmobj impl mem view w = .error (.fault .nullDeref) := by
  obtain ⟨r, hr, rfl, h1⟩ := h.block
  obtain ⟨b, hb, hobj⟩ := h.level hv
  obtain ⟨first, hfirst, -, hpre⟩ := h.built.level x.depth_pos
  have hnone : w.levels[last]? = none := by
    rw [List.getElem?_eq_none_iff, h.length_eq]
    exact hlast
  have hdestroy : ∀ pool, triggerReleaseMmobj impl { w with pool := pool } =
      .error (.fault .nullDeref) := by
    intro pool
    have hlen : w.levels.length = x.posB + 1 := h.length_eq
    rw [if_pos rfl] at hpre
    simp only [triggerReleaseMmobj, hfirst, hpre, hlen, destroyStru, hnone]
    rfl
  rw [releaseMmobj, hb]
  simp only [hobj, releaseObject, h.inv.find_of_mem hr, h1, Nat.one_ne_zero, if_false,
    Nat.sub_self, if_true]
  rw [hdestroy]
  rfl

/-- Either nothing but the failed function owned the object, or some owner keeps it for ever,
or the class that failed is the last of the chain and none of them has a destroy function. -/
def Harmless (impl : (x : ClassChain) → Impl F x) (ch x : ClassChain) (referred : Bool)
    (owners owners' : Nat) : Prop :=
  (referred = false ∧ owners = 0) ∨ 0 < owners' ∨
    x = ch ∧ ∀ y ∈ supers ch, (impl y).destroy = false

/-- The owners are those other than the reference before the failure, and all after it. -/
theorem destroysOnce_iff (h : Held mem ch.posB x 1 w) (hx : x ∈ supers ch)
    (hnone : ∀ level, Act.destroy level ∉ w.acts)
    (hb : Gives x.depth (referred.toNat + 1) before (referred.toNat + owners + 1))
    (ha : Gives x.depth (referred.toNat + owners) after owners') :
    DestroysOnce impl mem x referred before after w ↔
      Harmless impl ch x referred owners owners' := by
  obtain ⟨w1, hheld, hacts, hlife⟩ := life_eq impl after h hb
  have hcount : ∀ level, w1.acts.count (.destroy level) =
      (destroyActs impl (supers x).dropLast).count (.destroy level) := fun level => by
    rw [hacts, List.count_append, List.count_eq_zero_of_not_mem (hnone level), Nat.zero_add]
  have honce : (∀ level, w1.acts.count (.destroy level) ≤ 1) ∧ Act.destroy x.posB ∉ w1.acts := by
    refine ⟨fun level => ?_, ?_⟩
    · rw [hcount]
      exact count_super_le x level
    · rw [hacts, List.mem_append, not_or]
      exact ⟨hnone _, destroy_notMem_super x⟩
  rw [DestroysOnce, hlife, Harmless]
  by_cases hkept : referred.toNat + owners = 0
  · -- the release of the failed unpack is the last one, and has no callback
    have hr : referred = false := by
      cases referred with
      | false => rfl
      | true => simp at hkept
    rw [hkept] at hheld ha
    obtain ⟨r, hmem, rfl, h1⟩ := hheld.block
    obtain ⟨pool', hrun, -⟩ := releaseObject_none hheld.inv hmem h1
    cases ha
    rw [bind_ok hrun]
    refine iff_of_true ⟨_, rfl, fun level => ?_, ?_⟩ (.inl ⟨hr, by omega⟩)
    · simpa using honce.1 level
    · simpa using honce.2
  · obtain ⟨w2, h2, hheld2, hacts2⟩ := releaseObject_more hheld hkept none
    have hno : ¬(referred = false ∧ owners = 0) := by
      rintro ⟨rfl, rfl⟩
      exact hkept rfl
    rw [bind_ok h2, or_iff_right hno]
    by_cases hpos : 0 < owners'
    · obtain ⟨w3, h3, -, hacts3⟩ := hheld2.run impl ha hpos
      refine iff_of_true ⟨w3, h3, ?_⟩ (.inl hpos)
      rw [hacts3, hacts2]
      exact honce
    · obtain rfl : owners' = 0 := Nat.eq_zero_of_not_pos hpos
      obtain ⟨w3, view, hv, hheld3, hacts3, h3⟩ :=
        hheld2.run_last impl ha (Nat.pos_of_ne_zero hkept)
      rw [h3, or_iff_right hpos]
      by_cases hlast : x = ch
      · subst hlast
        obtain ⟨w4, h4, hacts4⟩ := hheld3.final impl hv
        have hacts5 : w4.acts = w1.acts ++ destroyActs impl (supers x) ++ [.freed] := by
          rw [hacts4, hacts3, hacts2]
        rw [← twice_iff, and_iff_right rfl, h4]
        constructor
        · rintro ⟨w5, h5, h6, h7⟩
          cases h5
          rw [hacts5] at h6 h7
          refine ⟨fun level => ?_, fun hmem => h7 (by simp [hmem])⟩
          have hle := h6 level
          rw [List.count_append, List.count_append, hcount] at hle
          omega
        · rintro ⟨h6, h7⟩
          refine ⟨w4, rfl, fun level => ?_, ?_⟩
          · rw [hacts5]
            simpa [hcount] using h6 level
          · rw [hacts5]
            simp [honce.2, h7]
      · rw [hheld3.final_missing (depth_le_of_ne hx hlast) hv]
        refine iff_of_false ?_ fun h => hlast h.1
        rintro ⟨w4, h4, -⟩
        cases h4

end End

end LcClibs.Mmo.Unfinished
