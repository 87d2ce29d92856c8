import Mathlib
import LcClibs.Lib.Ring
import LcClibs.Lib.Table
import LcClibs.Mmo.Object

namespace LcClibs.Mmo.Casting

open Platform Lib Lib.Ring
open Mmo.Object (struNameToOid)

section Classes

/-- A class as `MMRootObject` or `MMSubObject` defines it. -/
inductive ClassChain
  | root (struName : List UInt8)
  | sub (supName : ClassChain) (struName : List UInt8)
  deriving DecidableEq, Repr

/-- Where the `isb` of a class lies in its structure, after those of its super classes. -/
def ClassChain.posB : ClassChain → Nat
  | root _ => 0
  | sub supName _ => supName.posB + 1

def ClassChain.depth (ch : ClassChain) : Nat := ch.posB + 1

def ClassChain.name : ClassChain → List UInt8
  | root struName | sub _ struName => struName

/-- `struct mmClass`. Its `find_obj` goes back by the offset of its own `isb`. -/
structure MmClass where
  oid : UInt32
  name : List UInt8
  offset : Nat
  deriving DecidableEq, Repr

def MmClass.findObj (cls : MmClass) (base : Nat) : Nat := base - cls.offset

def ClassChain.cls (ch : ClassChain) : MmClass :=
  { oid := struNameToOid ch.name, name := ch.name, offset := ch.posB }

def ClassChain.classes : ClassChain → List MmClass
  | root struName => [(root struName).cls]
  | sub supName struName => supName.classes ++ [(sub supName struName).cls]

end Classes

section Objects

structure MmStruBase (F : Type) where
  cls : MmClass
  preBase : Nat
  fns : List (List UInt8 × Option F)

/-- The levels of an object, at the addresses `0`, `1` and so on. -/
abbrev Obj (F : Type) := List (MmStruBase F)

variable {F : Type}

def setFunction (obj : Obj F) (base : Nat) (fnTypeName : List UInt8) (fn : Option F) :
    Option F × Obj F :=
  match obj[base]? with
  | none => (none, obj)
  | some b =>
    ((Table.find Prod.fst fnTypeName b.fns).bind Prod.snd,
      obj.set base { b with fns := Table.put Prod.fst (fnTypeName, fn) b.fns })

/-- The functions that the root class sets: its hash and its compare function. -/
structure RootFns (F : Type) where
  hash : F
  compare : F

def mmobjHash : List UInt8 := cstr "mmobj_hash"
def mmobjCompare : List UInt8 := cstr "mmobj_compare"

/-- `init_##stru_name`: the super class first, which gets the address of the last level. -/
def ClassChain.init (fns : RootFns F) : ClassChain → Nat → Obj F
  | root struName, lastChildBase =>
    let obj := [{ cls := (root struName).cls, preBase := lastChildBase, fns := [] }]
    let obj := (setFunction obj 0 mmobjHash (some fns.hash)).2
    (setFunction obj 0 mmobjCompare (some fns.compare)).2
  | sub supName struName, lastChildBase =>
    supName.init fns lastChildBase ++
      [{ cls := (sub supName struName).cls, preBase := supName.posB, fns := [] }]

def ClassChain.alloc (fns : RootFns F) (ch : ClassChain) : Obj F := ch.init fns ch.posB

/-- `find_##stru_name`, which is the same function in both kinds of class. The levels
it visits are reported as well; none where the fuel runs out or a level is missing. -/
def find (obj : Obj F) : Nat → Nat → UInt32 → UInt32 → Option (List Nat × Option Nat)
  | 0, _, _, _ => none
  | fuel + 1, base, mmid, untilid =>
    match obj[base]? with
    | none => none
    | some b =>
      if mmid = b.cls.oid then some ([base], some base)
      else if mmid = untilid then
        (find obj fuel b.preBase mmid b.cls.oid).map fun r => (base :: r.1, r.2)
      else if b.cls.oid ≠ untilid then
        (find obj fuel b.preBase mmid untilid).map fun r => (base :: r.1, r.2)
      else some ([base], none)

def toStru (obj : Obj F) (fuel : Nat) (struName : List UInt8) : Option Nat → Option (Option Nat)
  | none => some none
  | some base =>
    (find obj fuel base (struNameToOid struName) (struNameToOid struName)).map Prod.snd

/-- An object of a class, after any functions were set on any of its levels. -/
inductive Made (ch : ClassChain) : Obj F → Prop
  | alloc (fns : RootFns F) : Made ch (ch.alloc fns)
  | setFunction {obj : Obj F} (base : Nat) (fnTypeName : List UInt8) (fn : Option F) :
    Made ch obj → Made ch (setFunction obj base fnTypeName fn).2

end Objects

section Ring

variable {F : Type} {ch : ClassChain} {obj : Obj F}

theorem ClassChain.classes_length (ch : ClassChain) : ch.classes.length = ch.depth := by
  induction ch with
  | root struName => rfl
  | sub supName struName ih =>
    rw [classes, List.length_append, ih]
    rfl

theorem ClassChain.depth_pos (ch : ClassChain) : 0 < ch.depth := Nat.succ_pos _

/-- The base pointers lead from every level to the one above it, and from the root to
the last level. -/
structure IsRing (ch : ClassChain) (obj : Obj F) : Prop where
  length_eq : obj.length = ch.depth
  level : ∀ k < ch.depth, ∃ b, obj[k]? = some b ∧ ch.classes[k]? = some b.cls ∧
    b.cls.offset = k ∧ b.preBase = prev ch.depth k

theorem ClassChain.init_level (fns : RootFns F) (ch : ClassChain) (last : Nat) :
    (ch.init fns last).length = ch.depth ∧ ∀ k < ch.depth, ∃ b, (ch.init fns last)[k]? = some b ∧
      ch.classes[k]? = some b.cls ∧ b.cls.offset = k ∧
      b.preBase = if k = 0 then last else k - 1 := by
  induction ch with
  | root struName =>
    refine ⟨rfl, fun k hk => ?_⟩
    obtain rfl : k = 0 := by
      have h1 : k < 1 := hk
      omega
    exact ⟨_, rfl, rfl, rfl, rfl⟩
  | sub supName struName ih =>
    obtain ⟨hlen, hlevel⟩ := ih
    have hclasses := supName.classes_length
    refine ⟨?_, fun k hk => ?_⟩
    · rw [init, List.length_append, hlen]
      rfl
    · have hk' : k < supName.depth + 1 := hk
      obtain hlt | rfl := Nat.lt_succ_iff_lt_or_eq.mp hk'
      · obtain ⟨b, hb, hc, hoff, hpre⟩ := hlevel k hlt
        refine ⟨b, ?_, ?_, hoff, hpre⟩
        · rw [init, List.getElem?_append_left (by omega), hb]
        · rw [classes, List.getElem?_append_left (by omega), hc]
      · refine ⟨{ cls := (sub supName struName).cls, preBase := supName.posB, fns := [] },
          ?_, ?_, rfl, ?_⟩
        · rw [init, ← hlen]
          exact List.getElem?_concat_length
        · rw [classes, ← hclasses]
          exact List.getElem?_concat_length
        · rw [if_neg (Nat.pos_iff_ne_zero.mp supName.depth_pos)]
          rfl

theorem ClassChain.alloc_ring (fns : RootFns F) (ch : ClassChain) : IsRing ch (ch.alloc fns) :=
  ⟨(ch.init_level fns ch.posB).1, (ch.init_level fns ch.posB).2⟩

theorem setFunction_level {obj : Obj F} {base k : Nat} {b : MmStruBase F} (t : List UInt8)
    (fn : Option F) (h : obj[k]? = some b) :
    ∃ b', (setFunction obj base t fn).2[k]? = some b' ∧ b'.cls = b.cls ∧
      b'.preBase = b.preBase := by
  unfold setFunction
  cases hb : obj[base]? with
  | none => exact ⟨b, h, rfl, rfl⟩
  | some c =>
    by_cases hk : base = k
    · subst hk
      obtain rfl : b = c := Option.some.inj (h.symm.trans hb)
      exact ⟨_, List.getElem?_set_self (List.getElem?_eq_some_iff.mp hb).1, rfl, rfl⟩
    · exact ⟨b, by rw [List.getElem?_set_ne hk, h], rfl, rfl⟩

theorem setFunction_length (obj : Obj F) (base : Nat) (t : List UInt8) (fn : Option F) :
    (setFunction obj base t fn).2.length = obj.length := by
  unfold setFunction
  split
  · rfl
  · exact List.length_set

theorem Made.ring (h : Made ch obj) : IsRing ch obj := by
  induction h with
  | alloc fns => exact ch.alloc_ring fns
  | setFunction base t fn _ ih =>
    refine ⟨(setFunction_length _ base t fn).trans ih.length_eq, fun k hk => ?_⟩
    obtain ⟨b, hb, hc, hoff, hpre⟩ := ih.level k hk
    obtain ⟨b', hb', hcls, hpre'⟩ := @setFunction_level F _ base k b t fn hb
    exact ⟨b', hb', by rw [hcls, hc], by rw [hcls, hoff], by rw [hpre', hpre]⟩

end Ring

section Find

def HasOid (ch : ClassChain) (part : Nat) (oid : UInt32) : Prop :=
  ∃ cls, ch.classes[part]? = some cls ∧ cls.oid = oid

def DistinctOids (ch : ClassChain) : Prop := (ch.classes.map MmClass.oid).Nodup

instance (ch : ClassChain) : Decidable (DistinctOids ch) :=
  inferInstanceAs (Decidable (List.Nodup _))

variable {F : Type} {ch : ClassChain} {obj : Obj F} {oid : UInt32} {s : Nat}

theorem HasOid.lt {part : Nat} (h : HasOid ch part oid) : part < ch.depth := by
  obtain ⟨cls, hc, -⟩ := h
  rw [← ch.classes_length]
  exact (List.getElem?_eq_some_iff.mp hc).1

theorem HasOid.oid_eq {part : Nat} {oid' : UInt32} (h : HasOid ch part oid)
    (h' : HasOid ch part oid') : oid = oid' := by
  obtain ⟨c, hc, rfl⟩ := h
  obtain ⟨c', hc', rfl⟩ := h'
  rw [Option.some.inj (hc.symm.trans hc')]

theorem DistinctOids.inj (hd : DistinctOids ch) {part part' : Nat} (h : HasOid ch part oid)
    (h' : HasOid ch part' oid) : part = part' := by
  obtain ⟨c, hc, rfl⟩ := h
  obtain ⟨c', hc', hoid⟩ := h'
  have hlt := (List.getElem?_eq_some_iff.mp hc).1
  refine (List.getElem?_inj (by rw [List.length_map]; exact hlt) hd).mp ?_
  rw [List.getElem?_map, List.getElem?_map, hc, hc', Option.map_some, Option.map_some, hoid]

theorem find_round (h : IsRing ch obj) (hd : DistinctOids ch) {start : UInt32}
    (hs : HasOid ch s start) (hne : oid ≠ start) (d i : Nat) (h0 : 0 < i)
    (hi : i + d = ch.depth) :
    ∃ visited found, find obj (d + 1) (stop ch.depth s i) oid start = some (visited, found) ∧
      visited <+: places ch.depth s i (d + 1) ∧
      ∀ part, found = some part ↔ part ∈ places ch.depth s i (d + 1) ∧ HasOid ch part oid := by
  have hlt := hs.lt
  induction d generalizing i with
  | zero =>
    obtain rfl : i = ch.depth := by omega
    have hstop : stop ch.depth s ch.depth = s := stop_full hlt
    obtain ⟨b, hb, hc, -, -⟩ := h.level s hlt
    obtain ⟨c, hc', rfl⟩ := hs
    obtain rfl : b.cls = c := Option.some.inj (hc.symm.trans hc')
    refine ⟨[s], none, ?_, ?_, fun part => ⟨nofun, fun ⟨hp, hhas⟩ => ?_⟩⟩
    · rw [hstop, find, hb]
      simp only [if_neg hne, ne_eq, not_true_eq_false, if_false]
    · rw [places_succ, hstop]
      exact List.prefix_append [s] _
    · rw [places_succ, hstop, places, List.range'_zero, List.map_nil, List.mem_singleton] at hp
      subst hp
      exact absurd (hhas.oid_eq ⟨b.cls, hc, rfl⟩) hne
  | succ d ih =>
    have hilt : i < ch.depth := by omega
    obtain ⟨b, hb, hc, -, hpre⟩ := h.level (stop ch.depth s i) (stop_lt hlt hilt.le)
    have hhere : HasOid ch (stop ch.depth s i) b.cls.oid := ⟨b.cls, hc, rfl⟩
    by_cases heq : oid = b.cls.oid
    · subst heq
      refine ⟨[stop ch.depth s i], some (stop ch.depth s i), ?_, ?_, fun part => ?_⟩
      · rw [find, hb]
        simp only [if_true]
      · rw [places_succ]
        exact List.prefix_append [_] _
      · rw [places_succ, Option.some_inj]
        constructor
        · rintro rfl
          exact ⟨List.mem_cons_self, hhere⟩
        · exact fun hp => hd.inj hhere hp.2
    · have hother : b.cls.oid ≠ start := fun heq => stop_ne h0 hilt (hd.inj (heq ▸ hhere) hs)
      obtain ⟨visited, found, hfind, hpre', hfound⟩ := ih (i + 1) (by omega) (by omega)
      refine ⟨stop ch.depth s i :: visited, found, ?_, ?_, fun part => ?_⟩
      · rw [find, hb]
        simp only [if_neg heq, if_neg hne, if_pos hother, hpre, prev_stop hilt, hfind,
          Option.map_some]
      · rw [places_succ]
        exact (List.prefix_cons_inj _).mpr hpre'
      · rw [hfound part, places_succ ch.depth s i (d + 1), List.mem_cons]
        constructor
        · exact fun hp => ⟨.inr hp.1, hp.2⟩
        · rintro ⟨rfl | hp, hhas⟩
          · exact absurd (hhas.oid_eq hhere) heq
          · exact ⟨hp, hhas⟩

/-- The search from any level comes to its end within a round and finds the one level of
that id there is. -/
theorem find_all (h : IsRing ch obj) (hd : DistinctOids ch) (hs : s < ch.depth) (oid : UInt32) :
    ∃ visited found, find obj (ch.depth + 1) s oid oid = some (visited, found) ∧
      (visited.Nodup ∨ ∃ tour, visited = tour ++ [s] ∧ tour.Nodup) ∧
      ∀ part, found = some part ↔ HasOid ch part oid := by
  obtain ⟨b, hb, hc, -, hpre⟩ := h.level s hs
  have hhere : HasOid ch s b.cls.oid := ⟨b.cls, hc, rfl⟩
  by_cases heq : oid = b.cls.oid
  · subst heq
    refine ⟨[s], some s, ?_, .inl (List.nodup_singleton s), fun part => ?_⟩
    · rw [find, hb]
      simp only [if_true]
    · rw [Option.some_inj]
      constructor
      · rintro rfl
        exact hhere
      · exact hd.inj hhere
  · obtain ⟨m, hm⟩ : ∃ m, ch.depth = m + 1 := ⟨ch.posB, rfl⟩
    obtain ⟨visited, found, hfind, hpre', hfound⟩ :=
      find_round h hd hhere heq m 1 Nat.one_pos (by omega)
    rw [← hm] at hfind hpre' hfound
    refine ⟨s :: visited, found, ?_, round_nodup hs hpre', fun part => ?_⟩
    · rw [find, hb]
      simp only [if_neg heq, if_true, hpre, prev_self hs, hfind, Option.map_some]
    · rw [hfound part]
      refine ⟨And.right, fun hhas => ⟨?_, hhas⟩⟩
      obtain ⟨i, h0, hi, hstop⟩ := exists_stop hs hhas.lt
      exact mem_places.mpr ⟨i, by omega, by omega, hstop⟩

end Find

section Casts

variable {F : Type} {ch : ClassChain} {obj : Obj F}

/-- Casting among the classes of an object, from any of its levels. -/
structure Casts (ch : ClassChain) (obj : Obj F) : Prop where
  finds : ∀ base < ch.depth, ∀ oid, ∃ visited found,
    find obj (ch.depth + 1) base oid oid = some (visited, found) ∧
      (visited.Nodup ∨ ∃ tour, visited = tour ++ [base] ∧ tour.Nodup) ∧
      ∀ part, found = some part ↔ HasOid ch part oid
  any_view : ∀ base < ch.depth, ∀ base' < ch.depth, ∀ oid,
    (find obj (ch.depth + 1) base oid oid).map Prod.snd =
      (find obj (ch.depth + 1) base' oid oid).map Prod.snd
  to_part : ∀ base < ch.depth, ∀ struName,
    (∃ part cls, toStru obj (ch.depth + 1) struName (some base) = some (some part) ∧
      ch.classes[part]? = some cls ∧ cls.name = struName) ↔
    ∃ cls ∈ ch.classes, cls.name = struName
  to_null : ∀ base < ch.depth, ∀ struName,
    toStru obj (ch.depth + 1) struName (some base) = some none ↔
      ∀ cls ∈ ch.classes, cls.oid ≠ struNameToOid struName
  to_to : ∀ base < ch.depth, ∀ struName struName' part part',
    toStru obj (ch.depth + 1) struName (some base) = some (some part) →
    toStru obj (ch.depth + 1) struName' (some base) = some (some part') →
    toStru obj (ch.depth + 1) struName (some part') = some (some part)

theorem ClassChain.oid_eq {ch : ClassChain} {cls : MmClass} (h : cls ∈ ch.classes) :
    cls.oid = struNameToOid cls.name := by
  induction ch with
  | root struName =>
    obtain rfl := List.mem_singleton.mp h
    rfl
  | sub supName struName ih =>
    obtain h | h := List.mem_append.mp h
    · exact ih h
    · obtain rfl := List.mem_singleton.mp h
      rfl

/-- A cast answers the level of that id, whichever level it starts from. -/
theorem toStru_eq (h : IsRing ch obj) (hd : DistinctOids ch) (struName : List UInt8) :
    ∃ found, (∀ base < ch.depth, toStru obj (ch.depth + 1) struName (some base) = some found) ∧
      ∀ part, found = some part ↔ HasOid ch part (struNameToOid struName) := by
  obtain ⟨-, found, -, -, hfound⟩ := find_all h hd ch.depth_pos (struNameToOid struName)
  refine ⟨found, fun base hbase => ?_, hfound⟩
  obtain ⟨visited', found', hfind', -, hfound'⟩ := find_all h hd hbase (struNameToOid struName)
  have heq : found' = found := Option.ext fun part => (hfound' part).trans (hfound part).symm
  rw [toStru, hfind', heq]
  rfl

theorem casts (h : Made ch obj) (hd : DistinctOids ch) : Casts ch obj where
  finds base hbase oid := find_all h.ring hd hbase oid
  any_view base hbase base' hbase' oid := by
    obtain ⟨v, f, hfind, -, hf⟩ := find_all h.ring hd hbase oid
    obtain ⟨v', f', hfind', -, hf'⟩ := find_all h.ring hd hbase' oid
    rw [hfind, hfind', Option.map_some, Option.map_some]
    exact congrArg some (Option.ext fun part => (hf part).trans (hf' part).symm)
  to_part base hbase struName := by
    obtain ⟨found, hto, hfound⟩ := toStru_eq h.ring hd struName
    constructor
    · rintro ⟨part, cls, -, hc, hname⟩
      exact ⟨cls, List.mem_of_getElem? hc, hname⟩
    · rintro ⟨cls, hmem, rfl⟩
      obtain ⟨part, hc⟩ := List.mem_iff_getElem?.mp hmem
      have hhas := (hfound part).mpr ⟨cls, hc, ClassChain.oid_eq hmem⟩
      exact ⟨part, cls, by rw [hto base hbase, hhas], hc, rfl⟩
  to_null base hbase struName := by
    obtain ⟨found, hto, hfound⟩ := toStru_eq h.ring hd struName
    rw [hto base hbase, Option.some_inj]
    constructor
    · rintro rfl cls hmem hoid
      obtain ⟨part, hc⟩ := List.mem_iff_getElem?.mp hmem
      cases (hfound part).mpr ⟨cls, hc, hoid⟩
    · intro hno
      refine Option.eq_none_iff_forall_ne_some.mpr fun part hp => ?_
      obtain ⟨cls, hc, hoid⟩ := (hfound part).mp hp
      exact hno cls (List.mem_of_getElem? hc) hoid
  to_to base hbase struName struName' part part' hpart hpart' := by
    obtain ⟨found, hto, -⟩ := toStru_eq h.ring hd struName
    obtain ⟨found', hto', hfound'⟩ := toStru_eq h.ring hd struName'
    rw [hto' base hbase] at hpart'
    have hlt := ((hfound' part').mp (Option.some.inj hpart')).lt
    rw [hto part' hlt, ← hto base hbase, hpart]

def tmpContext : ClassChain :=
  .sub (.sub (.sub (.root (cstr "MMObject")) (cstr "MMContainer")) (cstr "MMMap"))
    (cstr "TmpContext")

theorem casts_tmpContext : Casts tmpContext (tmpContext.alloc ⟨0, 1⟩ : Obj Nat) :=
  casts (.alloc ⟨0, 1⟩) (by decide +kernel)

end Casts

end LcClibs.Mmo.Casting
