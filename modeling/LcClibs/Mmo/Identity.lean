import Mathlib
import LcClibs.Mmo.Compare
import LcClibs.Mmo.Dispatch
import LcClibs.Mmo.Kinds

namespace LcClibs.Mmo.Identity

open Platform Mmo.Casting Mmo.Dispatch Mmo.Kinds
open Mmo.Object (struNameToOid)

section Layout

variable (sizeOf : List UInt8 → Nat)

/-- The end of a structure at an address that a pointer can have. -/
def align (n : Nat) : Nat := (n + 7) / 8 * 8

/-- `sizeof(struct MM__##stru_name)`: `struct mmObj` has 16 bytes, `struct mmStruBase` 40. -/
def structSize : ClassChain → Nat
  | .root struName => align (16 + 40 + sizeOf struName)
  | .sub supName struName => align (structSize supName + 40 + sizeOf struName)

/-- `pos_o_##stru_name`: where the `iso` of a class lies. -/
def posO : ClassChain → Nat
  | .root _ => 16 + 40
  | .sub supName _ => structSize sizeOf supName + 40

end Layout

section Model

abbrev Fn := Nat → Nat → Int

def compareMmobjThisWithThat (this that : Nat) : Int := int32 (int32 this - int32 that)

/-- An object in memory whose class sets functions, but no comparator of its own. -/
structure Object (sizeOf : List UInt8 → Nat) where
  ch : ClassChain
  hash : Fn
  calls : List (SetCall ch.depth Fn)
  addr : Nat
  no_compare : ∀ c ∈ calls, c.fnTypeName ≠ mmobjCompare
  c_name : 0 ∉ ch.name
  size_lt : structSize sizeOf ch < 2 ^ 32
  inside : addr + structSize sizeOf ch ≤ 2 ^ 64

variable {sizeOf : List UInt8 → Nat} {a b : Object sizeOf}

def Object.levels (o : Object sizeOf) : Obj Fn :=
  runCalls (o.ch.alloc ⟨o.hash, compareMmobjThisWithThat⟩) o.calls

/-- A pointer to an object as one of its classes, as the casts give it. -/
structure View (o : Object sizeOf) where
  cls : ClassChain
  mem : cls ∈ supers o.ch

def View.ptr (v : View a) : Nat := a.addr + posO sizeOf v.cls

def lastBase (obj : Obj Fn) (stru : Nat) : Option (MmStruBase Fn) := do
  let first ← baseOfFirst obj stru
  let b ← obj[first]?
  obj[b.preBase]?

def oidOfLastMmobj (obj : Obj Fn) (stru : Nat) : Option UInt32 :=
  (lastBase obj stru).map fun b => b.cls.oid

def nameOfLastMmobj (obj : Obj Fn) (stru : Nat) : Option (List UInt8) :=
  (lastBase obj stru).map fun b => b.cls.name

def compareMmobjs (this : Option (View a)) (that : Option (View b)) : Option Int :=
  if this.map View.ptr = that.map View.ptr then some 0
  else
    match this, that with
    | none, _ => some (-1)
    | _, none => some 1
    | some v, some w => do
      let thisOid ← oidOfLastMmobj a.levels v.cls.posB
      let thatOid ← oidOfLastMmobj b.levels w.cls.posB
      if thisOid ≠ thatOid then
        let thisName ← nameOfLastMmobj a.levels v.cls.posB
        let thatName ← nameOfLastMmobj b.levels w.cls.posB
        return Compare.platCstrCompare thisName thatName
      else
        let fn ← getLastFunction a.levels a.ch.depth v.cls.posB mmobjCompare
        return (fn.map fun f => f v.ptr w.ptr).getD 0

def Apart (a b : Object sizeOf) : Prop :=
  a.addr + structSize sizeOf a.ch ≤ b.addr ∨ b.addr + structSize sizeOf b.ch ≤ a.addr

/-- The comparison of two objects tells whether they are the same, is antisymmetric, and is
the same for all views. -/
structure IdentityLaw (a b : Object sizeOf) : Prop where
  zero : ∀ (v : View a) (w : View b), compareMmobjs (some v) (some w) = some 0 ↔ a = b
  swapped : ∀ (v : View a) (w : View b), ∃ d e, compareMmobjs (some v) (some w) = some d ∧
    compareMmobjs (some w) (some v) = some e ∧ e.sign = -d.sign
  views : ∀ (v v' : View a) (w w' : View b),
    compareMmobjs (some v) (some w) = compareMmobjs (some v') (some w')

/-- The lower halves of the addresses differ, and not by the one difference that is its own
opposite. -/
def Distant (a b : Object sizeOf) : Prop :=
  int32 (a.addr - b.addr) ≠ 0 ∧ int32 (a.addr - b.addr) ≠ -2 ^ 31

end Model

section Views

variable {sizeOf : List UInt8 → Nat} {a b : Object sizeOf} {ch x : ClassChain}

theorem le_align (n : Nat) : n ≤ align n := by
  unfold align
  omega

theorem posO_le (sizeOf : List UInt8 → Nat) (ch : ClassChain) :
    56 ≤ posO sizeOf ch ∧ posO sizeOf ch ≤ structSize sizeOf ch := by
  induction ch with
  | root struName =>
    have h := le_align (16 + 40 + sizeOf struName)
    exact ⟨le_rfl, by rw [posO, structSize]; omega⟩
  | sub supName struName ih =>
    have h := le_align (structSize sizeOf supName + 40 + sizeOf struName)
    exact ⟨by rw [posO]; omega, by rw [posO, structSize]; omega⟩

theorem self_mem_supers (ch : ClassChain) : ch ∈ supers ch := by
  cases ch with
  | root struName => exact List.mem_cons_self
  | sub supName struName => exact List.mem_append_right _ List.mem_cons_self

theorem view_le (sizeOf : List UInt8 → Nat) (h : x ∈ supers ch) :
    x.posB ≤ ch.posB ∧ posO sizeOf x ≤ structSize sizeOf ch := by
  induction ch with
  | root struName =>
    obtain rfl := List.mem_singleton.mp h
    exact ⟨le_rfl, (posO_le sizeOf _).2⟩
  | sub supName struName ih =>
    obtain h | h := List.mem_append.mp h
    · obtain ⟨hpos, hsize⟩ := ih h
      have hle := le_align (structSize sizeOf supName + 40 + sizeOf struName)
      exact ⟨by rw [ClassChain.posB]; omega, by rw [structSize]; omega⟩
    · obtain rfl := List.mem_singleton.mp h
      exact ⟨le_rfl, (posO_le sizeOf _).2⟩

def lastView (o : Object sizeOf) : View o := ⟨o.ch, self_mem_supers o.ch⟩

theorem levels_ring (o : Object sizeOf) : IsRing o.ch o.levels :=
  (runCalls_made (Made.alloc _) o.calls).ring

theorem classes_last (ch : ClassChain) : ch.classes[ch.posB]? = some ch.cls := by
  cases ch with
  | root struName => rfl
  | sub supName struName =>
    have hlen : supName.posB + 1 = supName.classes.length := supName.classes_length.symm
    rw [ClassChain.posB, ClassChain.classes, hlen]
    exact List.getElem?_concat_length

theorem lastBase_eq (v : View a) :
    ∃ base, lastBase a.levels v.cls.posB = some base ∧ base.cls = a.ch.cls := by
  have hring := levels_ring a
  have hpos : v.cls.posB < a.ch.depth := Nat.lt_succ_of_le (view_le sizeOf v.mem).1
  obtain ⟨first, hf, -, -, hpre⟩ := hring.level 0 a.ch.depth_pos
  obtain ⟨last, hl, hc, -, -⟩ := hring.level a.ch.posB (Nat.lt_succ_self _)
  refine ⟨last, ?_, Option.some.inj (hc.symm.trans (classes_last a.ch))⟩
  rw [lastBase, baseOfFirst_eq hring hpos, Option.bind_eq_bind, Option.bind_some, hf,
    Option.bind_eq_bind, Option.bind_some, hpre]
  exact hl

theorem last_eq (v : View a) : oidOfLastMmobj a.levels v.cls.posB = some a.ch.cls.oid ∧
    nameOfLastMmobj a.levels v.cls.posB = some a.ch.name := by
  obtain ⟨base, hb, hcls⟩ := lastBase_eq v
  rw [oidOfLastMmobj, nameOfLastMmobj, hb, Option.map_some, Option.map_some, hcls]
  exact ⟨rfl, rfl⟩

end Views

section Comparison

variable {sizeOf : List UInt8 → Nat} {a b : Object sizeOf} {p q : Nat}

theorem nearest_compare {ch : ClassChain} {fns : RootFns Fn} {calls : List (SetCall ch.depth Fn)}
    (h : ∀ c ∈ calls, c.fnTypeName ≠ mmobjCompare) :
    nearest (rootCalls ch fns ++ calls) mmobjCompare ch.depth = some (some fns.compare) := by
  have hlast : ∀ k, lastSet (rootCalls ch fns ++ calls) k mmobjCompare =
      if k = 0 then some (some fns.compare) else none := by
    intro k
    have hnone : calls.reverse.find? (fun c => c.level.val = k ∧ c.fnTypeName = mmobjCompare) =
        none := by
      rw [List.find?_eq_none]
      intro c hc
      simp [h c (List.mem_reverse.mp hc)]
    have hroot := rootCalls_lastSet ch fns k mmobjCompare
    rw [lastSet] at hroot
    rw [lastSet, List.reverse_append, List.find?_append, hnone, Option.none_or, hroot, rootFn]
    rfl
  have hlevel : ∀ level, nearest (rootCalls ch fns ++ calls) mmobjCompare (level + 1) =
      some (some fns.compare) := by
    intro level
    induction level with
    | zero => rw [nearest, hlast 0, if_pos rfl]
    | succ level ih => rw [nearest, hlast (level + 1), if_neg (Nat.succ_ne_zero level), ih]
  exact hlevel ch.posB

theorem compareMmobjThisWithThat_eq (p q : Nat) :
    compareMmobjThisWithThat p q = int32 ((p : Int) - q) := by
  rw [compareMmobjThisWithThat, int32, int32, int32, int32, Int.sub_bmod_bmod, Int.bmod_sub_bmod]

theorem getLastFunction_compare (v : View a) :
    getLastFunction a.levels a.ch.depth v.cls.posB mmobjCompare =
      some (some compareMmobjThisWithThat) := by
  have hpos : v.cls.posB < a.ch.depth := Nat.lt_succ_of_le (view_le sizeOf v.mem).1
  have hlast : KeepsLast a.levels _ := (alloc_keepsLast a.ch _).runCalls a.calls
  rw [getLastFunction_eq (levels_ring a) hlast mmobjCompare hpos, nearest_compare a.no_compare,
    Option.join_some]

/-- Two pointers that differ are compared by name or by the addresses passed. -/
theorem compareMmobjs_some (v : View a) (w : View b) (h : v.ptr ≠ w.ptr) :
    compareMmobjs (some v) (some w) =
      if a.ch.cls.oid ≠ b.ch.cls.oid then some (Compare.platCstrCompare a.ch.name b.ch.name)
      else some (compareMmobjThisWithThat v.ptr w.ptr) := by
  obtain ⟨hoid, hname⟩ := last_eq v
  obtain ⟨hoid', hname'⟩ := last_eq w
  have hne : ¬Option.map View.ptr (some v) = Option.map View.ptr (some w) := fun hp =>
    h (Option.some.inj hp)
  rw [compareMmobjs, if_neg hne]
  rw [hoid, hoid', hname, hname', getLastFunction_compare v, Option.bind_eq_bind, Option.bind_some,
    Option.bind_eq_bind, Option.bind_some]
  by_cases ho : a.ch.cls.oid = b.ch.cls.oid
  · rw [if_neg (not_not.mpr ho), if_neg (not_not.mpr ho), Option.bind_eq_bind, Option.bind_some,
      Option.map_some, Option.getD_some, Option.pure_def]
  · rw [if_pos ho, if_pos ho]
    rfl

/-- Objects whose classes have the same id are compared by the addresses passed. -/
theorem compareMmobjs_same (hoid : a.ch.cls.oid = b.ch.cls.oid) (v : View a) (w : View b) :
    compareMmobjs (some v) (some w) = some (int32 ((v.ptr : Int) - w.ptr)) := by
  by_cases hptr : v.ptr = w.ptr
  · have hsome : Option.map View.ptr (some v) = Option.map View.ptr (some w) := congrArg some hptr
    rw [compareMmobjs, if_pos hsome, hptr, sub_self]
    rfl
  · rw [compareMmobjs_some v w hptr, if_neg (not_not.mpr hoid), compareMmobjThisWithThat_eq]

theorem Apart.ptr_ne (h : Apart a b) (v : View a) (w : View b) : v.ptr ≠ w.ptr := by
  have hv := (view_le sizeOf v.mem).2
  have hw := (view_le sizeOf w.mem).2
  have hv' := (posO_le sizeOf v.cls).1
  have hw' := (posO_le sizeOf w.cls).1
  unfold View.ptr
  obtain h | h := h <;> omega

/-- Classes of different ids have names that tell the objects apart. -/
theorem identityLaw_of_oids (h : a = b ∨ Apart a b) (hoid : a.ch.cls.oid ≠ b.ch.cls.oid) :
    IdentityLaw a b := by
  have hne : a ≠ b := fun he => hoid (by rw [he])
  have hapart : Apart a b := h.resolve_left hne
  have hab : ∀ (v : View a) (w : View b), compareMmobjs (some v) (some w) =
      some (Compare.platCstrCompare a.ch.name b.ch.name) := fun v w => by
    rw [compareMmobjs_some v w (hapart.ptr_ne v w), if_pos hoid]
  have hba : ∀ (v : View a) (w : View b), compareMmobjs (some w) (some v) =
      some (Compare.platCstrCompare b.ch.name a.ch.name) := fun v w => by
    rw [compareMmobjs_some w v (hapart.ptr_ne v w).symm, if_pos hoid.symm]
  have hagree := Compare.platCstrCompare_agrees a.c_name b.c_name
  have hagree' := Compare.platCstrCompare_agrees b.c_name a.c_name
  refine ⟨fun v w => ?_, fun v w => ⟨_, _, hab v w, hba v w, hagree.sign_neg hagree'⟩,
    fun v v' w w' => by rw [hab, hab]⟩
  rw [hab v w, Option.some_inj, hagree.eq_iff]
  refine ⟨fun hname => absurd (Compare.cstringCode_injective hname) fun hname => hoid ?_,
    fun he => absurd he hne⟩
  exact congrArg struNameToOid hname

end Comparison

section Law

variable {sizeOf : List UInt8 → Nat} {a b : Object sizeOf}

theorem int32_eq_iff {y z : Int} : int32 y = int32 z ↔ (2 ^ 32 : Int) ∣ y - z := by
  rw [int32, int32, Int.bmod_eq_bmod_iff_bmod_sub_eq_zero, ← Int.dvd_iff_bmod_eq_zero]
  norm_num

theorem int32_range (z : Int) : -2 ^ 31 ≤ int32 z ∧ int32 z < 2 ^ 31 := by
  have hle : -((2 ^ 32 : Nat) : Int) / 2 ≤ z.bmod (2 ^ 32) := Int.le_bmod (by decide)
  have hlt : z.bmod (2 ^ 32) < (((2 ^ 32 : Nat) : Int) + 1) / 2 := Int.bmod_lt (by decide)
  norm_num at hle hlt
  exact ⟨hle, hlt⟩

theorem int32_neg {z : Int} (h : int32 z ≠ -2 ^ 31) : int32 (-z) = -int32 z := by
  have hz := int32_range z
  have hn : int32 (-z) = int32 (-int32 z) := by
    rw [int32, int32, int32, Int.bmod_neg_bmod]
  rw [hn]
  exact int32_of_range (by omega) (by omega)

theorem int32_neg_least {z : Int} (h : int32 z = -2 ^ 31) : int32 (-z) = -2 ^ 31 := by
  have hn : int32 (-z) = int32 (-int32 z) := by
    rw [int32, int32, int32, Int.bmod_neg_bmod]
  rw [hn, h]
  decide

theorem exists_views (h : a.ch.posB ≠ 0) :
    ∃ v v' : View a, v.ptr < v'.ptr ∧ v'.ptr < v.ptr + 2 ^ 32 := by
  have hsize := a.size_lt
  have hlast := posO_le sizeOf a.ch
  cases hch : a.ch with
  | root struName =>
    rw [hch] at h
    exact absurd rfl h
  | sub supName struName =>
    have hsup := posO_le sizeOf supName
    have hmem : supName ∈ supers a.ch := by
      rw [hch]
      exact List.mem_append_left _ (self_mem_supers supName)
    have hpos : posO sizeOf a.ch = structSize sizeOf supName + 40 := by rw [hch, posO]
    refine ⟨⟨supName, hmem⟩, lastView a, ?_, ?_⟩
    · change a.addr + posO sizeOf supName < a.addr + posO sizeOf a.ch
      omega
    · change a.addr + posO sizeOf a.ch < a.addr + posO sizeOf supName + 2 ^ 32
      omega

theorem ptr_of_root (h : a.ch.posB = 0) (v : View a) : v.ptr = a.addr + 56 := by
  have hmem := v.mem
  cases hch : a.ch with
  | root struName =>
    rw [hch] at hmem
    rw [View.ptr, List.mem_singleton.mp hmem, posO]
  | sub supName struName =>
    rw [hch] at h
    exact absurd h (Nat.succ_ne_zero _)

theorem identityLaw_roots (hoid : a.ch.cls.oid = b.ch.cls.oid) (ha : a.ch.posB = 0)
    (hb : b.ch.posB = 0) : IdentityLaw a b ↔ a = b ∨ Distant a b := by
  have hcmp : ∀ (v : View a) (w : View b),
      compareMmobjs (some v) (some w) = some (int32 (a.addr - b.addr)) := fun v w => by
    rw [compareMmobjs_same hoid, ptr_of_root ha, ptr_of_root hb]
    congr 2
    omega
  have hswap : ∀ (v : View a) (w : View b),
      compareMmobjs (some w) (some v) = some (int32 (-(a.addr - b.addr))) := fun v w => by
    rw [compareMmobjs_same hoid.symm, ptr_of_root ha, ptr_of_root hb]
    congr 2
    omega
  constructor
  · intro h
    by_cases hab : a = b
    · exact Or.inl hab
    · have hzero := h.zero (lastView a) (lastView b)
      obtain ⟨d, e, hd, he, hsign⟩ := h.swapped (lastView a) (lastView b)
      rw [hcmp] at hzero hd
      rw [hswap] at he
      cases hd
      cases he
      refine Or.inr ⟨fun h0 => hab (hzero.mp (congrArg some h0)), fun hmin => ?_⟩
      rw [int32_neg_least hmin, hmin] at hsign
      exact absurd hsign (by decide)
  · intro h
    have hsame : int32 (a.addr - b.addr) = 0 ↔ a = b := by
      constructor
      · intro h0
        exact h.resolve_right fun hd => hd.1 h0
      · rintro rfl
        rw [sub_self]
        rfl
    have hmin : int32 (a.addr - b.addr) ≠ -2 ^ 31 := by
      obtain hab | hd := h
      · rw [hsame.mpr hab]
        decide
      · exact hd.2
    refine ⟨fun v w => ?_, fun v w => ⟨_, _, hcmp v w, hswap v w, ?_⟩,
      fun v v' w w' => by rw [hcmp, hcmp]⟩
    · rw [hcmp, Option.some_inj, hsame]
    · rw [int32_neg hmin, Int.sign_neg]

/-- The comparison of two objects whose classes set no comparator is right where the classes
differ, and otherwise only for root classes, where the addresses passed are those of the
objects, and far enough apart. -/
theorem identityLaw_iff (sizeOf : List UInt8 → Nat) (a b : Object sizeOf) (h : a = b ∨ Apart a b) :
    IdentityLaw a b ↔ a.ch.cls.oid ≠ b.ch.cls.oid ∨
      (a.ch.posB = 0 ∧ b.ch.posB = 0 ∧ (a = b ∨ Distant a b)) := by
  by_cases hoid : a.ch.cls.oid = b.ch.cls.oid
  · have hone : IdentityLaw a b → a.ch.posB = 0 ∧ b.ch.posB = 0 := by
      intro hlaw
      constructor
      · by_contra hne
        obtain ⟨v, v', hlt, hlt'⟩ := exists_views hne
        have hv := hlaw.views v v' (lastView b) (lastView b)
        rw [compareMmobjs_same hoid, compareMmobjs_same hoid, Option.some_inj,
          int32_eq_iff] at hv
        omega
      · by_contra hne
        obtain ⟨w, w', hlt, hlt'⟩ := exists_views hne
        have hv := hlaw.views (lastView a) (lastView a) w w'
        rw [compareMmobjs_same hoid, compareMmobjs_same hoid, Option.some_inj,
          int32_eq_iff] at hv
        omega
    constructor
    · intro hlaw
      obtain ⟨ha, hb⟩ := hone hlaw
      exact Or.inr ⟨ha, hb, (identityLaw_roots hoid ha hb).mp hlaw⟩
    · rintro (hne | ⟨ha, hb, hab⟩)
      · exact absurd hoid hne
      · exact (identityLaw_roots hoid ha hb).mpr hab
  · exact ⟨fun _ => Or.inl hoid, fun _ => identityLaw_of_oids h hoid⟩

def reference (addr : Nat) (h : addr + 152 ≤ 2 ^ 64) :
    Object (fun struName => if struName = cstr "MMReference" then 16 else 0) where
  ch := .sub (.sub (.root (cstr "MMObject")) (cstr "MMPrimary")) (cstr "MMReference")
  hash := fun _ _ => 0
  calls := [⟨⟨2, by decide⟩, mmobjHash, some fun _ _ => 0⟩]
  addr := addr
  no_compare := by decide
  c_name := by decide
  size_lt := by decide
  inside := by
    rw [show structSize _ _ = 152 by decide]
    exact h

theorem identityLaw_iff_reference :
    IdentityLaw (reference 4096 (by decide)) (reference 8192 (by decide)) ↔
      (reference 4096 (by decide)).ch.cls.oid ≠ (reference 8192 (by decide)).ch.cls.oid ∨
      ((reference 4096 (by decide)).ch.posB = 0 ∧ (reference 8192 (by decide)).ch.posB = 0 ∧
        (reference 4096 (by decide) = reference 8192 (by decide) ∨
          Distant (reference 4096 (by decide)) (reference 8192 (by decide)))) :=
  identityLaw_iff _ _ _ (Or.inr (Or.inl (by decide)))

/-- A reference passed as such and as a plain object is not equal to itself. -/
theorem not_identityLaw :
    ¬∀ (sizeOf : List UInt8 → Nat) (a b : Object sizeOf), a = b ∨ Apart a b →
      IdentityLaw a b := by
  intro h
  have hlaw := h _ (reference 4096 (by decide)) (reference 4096 (by decide)) (Or.inl rfl)
  have hself := (hlaw.zero (lastView _) ⟨.root (cstr "MMObject"), by decide⟩).mpr rfl
  rw [compareMmobjs_same rfl, Option.some_inj] at hself
  exact absurd hself (by decide)

end Law

end LcClibs.Mmo.Identity
