import Mathlib
import LcClibs.Mmo.Casting

namespace LcClibs.Mmo.Dispatch

open Platform Lib Lib.Ring Mmo.Casting

section Model

variable {F : Type}

def baseOfFirst (obj : Obj F) (stru : Nat) : Option Nat :=
  obj[stru]?.map fun b => b.cls.findObj stru

/-- The loop of both look-ups: up to the first level, after which it stops. None where
the fuel runs out or a level is missing. -/
def walk (obj : Obj F) (first : Nat) (fnTypeName : List UInt8) : Nat → Nat → Option (Option F)
  | 0, _ => none
  | fuel + 1, base =>
    match obj[base]? with
    | none => none
    | some b =>
      match Table.find Prod.fst fnTypeName b.fns with
      | some fncb => some fncb.2
      | none => if base = first then some none else walk obj first fnTypeName fuel b.preBase

def getParentFunction (obj : Obj F) (fuel stru : Nat) (fnTypeName : List UInt8) :
    Option (Option F) := do
  let first ← baseOfFirst obj stru
  let b ← obj[stru]?
  walk obj first fnTypeName fuel b.preBase

def getLastFunction (obj : Obj F) (fuel stru : Nat) (fnTypeName : List UInt8) :
    Option (Option F) := do
  let first ← baseOfFirst obj stru
  let b ← obj[first]?
  walk obj first fnTypeName fuel b.preBase

/-- A call of `set_function_for_mmobj` on a view of an object of `n` levels. -/
structure SetCall (n : Nat) (F : Type) where
  level : Fin n
  fnTypeName : List UInt8
  fn : Option F

def runCalls {n : Nat} (obj : Obj F) (calls : List (SetCall n F)) : Obj F :=
  calls.foldl (fun obj c => (setFunction obj c.level c.fnTypeName c.fn).2) obj

end Model

section Spec

variable {F : Type} {n : Nat}

/-- The function last set at a level under a type; it can be null. -/
def lastSet (calls : List (SetCall n F)) (level : Nat) (fnTypeName : List UInt8) :
    Option (Option F) :=
  (calls.reverse.find? fun c => c.level.val = level ∧ c.fnTypeName = fnTypeName).map SetCall.fn

/-- The function last set at the nearest of the levels below a number that has set the
type, seen from there towards the root. -/
def nearest (calls : List (SetCall n F)) (fnTypeName : List UInt8) : Nat → Option (Option F)
  | 0 => none
  | level + 1 =>
    match lastSet calls level fnTypeName with
    | some fn => some fn
    | none => nearest calls fnTypeName level

/-- The root class sets two functions before any other call. -/
def rootCalls (ch : ClassChain) (fns : RootFns F) : List (SetCall ch.depth F) :=
  [⟨⟨0, ch.depth_pos⟩, mmobjHash, some fns.hash⟩,
    ⟨⟨0, ch.depth_pos⟩, mmobjCompare, some fns.compare⟩]

/-- Both look-ups of a type from a view of an object, after a sequence of calls: the
most derived function, and the one above the level of the view. -/
structure Dispatches (ch : ClassChain) (fns : RootFns F) (calls : List (SetCall ch.depth F))
    (view : Fin ch.depth) (fnTypeName : List UInt8) : Prop where
  last : getLastFunction (runCalls (ch.alloc fns) calls) ch.depth view fnTypeName =
    some (nearest (rootCalls ch fns ++ calls) fnTypeName ch.depth).join
  parent : getParentFunction (runCalls (ch.alloc fns) calls) ch.depth view fnTypeName =
    some (nearest (rootCalls ch fns ++ calls) fnTypeName view).join

end Spec

section Tables

variable {F : Type} {n : Nat}

theorem lastSet_concat (calls : List (SetCall n F)) (c : SetCall n F) (level : Nat)
    (t : List UInt8) :
    lastSet (calls ++ [c]) level t =
      if c.level.val = level ∧ c.fnTypeName = t then some c.fn else lastSet calls level t := by
  rw [lastSet, List.reverse_append, List.reverse_singleton, List.singleton_append, List.find?_cons]
  by_cases h : c.level.val = level ∧ c.fnTypeName = t
  · rw [if_pos h, decide_eq_true h]
    rfl
  · rw [if_neg h, decide_eq_false h]
    rfl

theorem find_put (t t' : List UInt8) (fn : Option F) (fns : List (List UInt8 × Option F)) :
    (Table.find Prod.fst t (Table.put Prod.fst (t', fn) fns)).map Prod.snd =
      if t' = t then some fn else (Table.find Prod.fst t fns).map Prod.snd := by
  by_cases h : t' = t
  · subst h
    rw [if_pos rfl, @Table.find_put_self _ _ _ Prod.fst (t', fn) fns]
    rfl
  · rw [if_neg h, @Table.find_put_ne _ _ _ Prod.fst t (t', fn) h fns]

def KeepsLast (obj : Obj F) (calls : List (SetCall n F)) : Prop :=
  ∀ k < n, ∃ b, obj[k]? = some b ∧
    ∀ t, (Table.find Prod.fst t b.fns).map Prod.snd = lastSet calls k t

theorem KeepsLast.setFunction {obj : Obj F} {calls : List (SetCall n F)} (h : KeepsLast obj calls)
    (c : SetCall n F) :
    KeepsLast (setFunction obj c.level c.fnTypeName c.fn).2 (calls ++ [c]) := by
  intro k hk
  obtain ⟨b, hb, hlast⟩ := h k hk
  obtain ⟨d, hd, -⟩ := h c.level c.level.isLt
  rw [Casting.setFunction, hd]
  by_cases hlevel : c.level.val = k
  · subst hlevel
    obtain rfl : d = b := Option.some.inj (hd.symm.trans hb)
    refine ⟨_, List.getElem?_set_self (List.getElem?_eq_some_iff.mp hd).1, fun t => ?_⟩
    rw [lastSet_concat, find_put, hlast t]
    simp only [true_and]
  · refine ⟨b, ?_, fun t => ?_⟩
    · rw [List.getElem?_set_ne hlevel, hb]
    · rw [lastSet_concat, if_neg fun hc => hlevel hc.1, hlast t]

theorem KeepsLast.runCalls {obj : Obj F} {before : List (SetCall n F)} (h : KeepsLast obj before)
    (calls : List (SetCall n F)) : KeepsLast (runCalls obj calls) (before ++ calls) := by
  induction calls generalizing obj before with
  | nil =>
    rw [List.append_nil]
    exact h
  | cons c calls ih =>
    have hc := ih (h.setFunction c)
    rw [List.append_assoc, List.singleton_append] at hc
    exact hc

def rootFn (fns : RootFns F) (level : Nat) (t : List UInt8) : Option (Option F) :=
  if level = 0 then
    if mmobjCompare = t then some (some fns.compare)
    else if mmobjHash = t then some (some fns.hash) else none
  else none

theorem ClassChain.init_fns (fns : RootFns F) (ch : ClassChain) (last : Nat) :
    ∀ k < ch.depth, ∃ b, (ch.init fns last)[k]? = some b ∧
      ∀ t, (Table.find Prod.fst t b.fns).map Prod.snd = rootFn fns k t := by
  induction ch with
  | root struName =>
    intro k hk
    obtain rfl : k = 0 := by
      have h1 : k < 1 := hk
      omega
    refine ⟨{ cls := (ClassChain.root struName).cls, preBase := last
              fns := Table.put Prod.fst (mmobjCompare, some fns.compare)
                (Table.put Prod.fst (mmobjHash, some fns.hash) []) }, rfl, fun t => ?_⟩
    rw [find_put, find_put, rootFn, if_pos rfl]
    rfl
  | sub supName struName ih =>
    intro k hk
    have hlen := (supName.init_level fns last).1
    have hk' : k < supName.depth + 1 := hk
    obtain hlt | rfl := Nat.lt_succ_iff_lt_or_eq.mp hk'
    · obtain ⟨b, hb, hfn⟩ := ih k hlt
      exact ⟨b, by rw [ClassChain.init, List.getElem?_append_left (by omega), hb], hfn⟩
    · refine ⟨{ cls := (ClassChain.sub supName struName).cls, preBase := supName.posB, fns := [] },
        ?_, fun t => ?_⟩
      · rw [ClassChain.init, ← hlen]
        exact List.getElem?_concat_length
      · rw [rootFn, if_neg (Nat.pos_iff_ne_zero.mp supName.depth_pos)]
        rfl

theorem rootCalls_lastSet (ch : ClassChain) (fns : RootFns F) (k : Nat) (t : List UInt8) :
    lastSet (rootCalls ch fns) k t = rootFn fns k t := by
  have h := lastSet_concat [⟨⟨0, ch.depth_pos⟩, mmobjHash, some fns.hash⟩]
    ⟨⟨0, ch.depth_pos⟩, mmobjCompare, some fns.compare⟩ k t
  have h' := lastSet_concat [] ⟨⟨0, ch.depth_pos⟩, mmobjHash, some fns.hash⟩ k t
  rw [List.nil_append] at h'
  rw [rootCalls, rootFn]
  refine h.trans ?_
  rw [h']
  by_cases hk : k = 0
  · subst hk
    simp only [true_and, if_true]
    rfl
  · simp only [Ne.symm hk, hk, false_and, if_false]
    rfl

theorem alloc_keepsLast (ch : ClassChain) (fns : RootFns F) :
    KeepsLast (ch.alloc fns) (rootCalls ch fns) := by
  intro k hk
  obtain ⟨b, hb, hfn⟩ := ClassChain.init_fns fns ch ch.posB k hk
  exact ⟨b, hb, fun t => by rw [hfn, rootCalls_lastSet]⟩

theorem runCalls_made {ch : ClassChain} {obj : Obj F} (h : Made ch obj)
    (calls : List (SetCall n F)) : Made ch (runCalls obj calls) := by
  induction calls generalizing obj with
  | nil => exact h
  | cons c calls ih => exact ih (.setFunction c.level c.fnTypeName c.fn h)

end Tables

section Walk

variable {F : Type} {ch : ClassChain} {obj : Obj F} {calls : List (SetCall ch.depth F)}

theorem baseOfFirst_eq (h : IsRing ch obj) {stru : Nat} (hs : stru < ch.depth) :
    baseOfFirst obj stru = some 0 := by
  obtain ⟨b, hb, -, hoff, -⟩ := h.level stru hs
  rw [baseOfFirst, hb, Option.map_some, MmClass.findObj, hoff, Nat.sub_self]

theorem walk_nearest (h : IsRing ch obj) (hlast : KeepsLast obj calls) (t : List UInt8)
    {k fuel : Nat} (hk : k < ch.depth) (hf : k < fuel) :
    walk obj 0 t fuel k = some (nearest calls t (k + 1)).join := by
  induction k generalizing fuel with
  | zero =>
    obtain ⟨fuel, rfl⟩ : ∃ m, fuel = m + 1 := ⟨fuel - 1, by omega⟩
    obtain ⟨b, hb, hfn⟩ := hlast 0 hk
    rw [walk, hb, nearest, ← hfn t]
    cases hfind : Table.find Prod.fst t b.fns with
    | none => simp only [hfind, Option.map_none, if_true, nearest, Option.join_none]
    | some fncb => simp only [hfind, Option.map_some, Option.join_some]
  | succ k ih =>
    obtain ⟨fuel, rfl⟩ : ∃ m, fuel = m + 1 := ⟨fuel - 1, by omega⟩
    obtain ⟨b, hb, hfn⟩ := hlast (k + 1) hk
    obtain ⟨b', hb', -, -, hpre⟩ := h.level (k + 1) hk
    obtain rfl : b = b' := Option.some.inj (hb.symm.trans hb')
    rw [walk, hb, nearest, ← hfn t]
    cases hfind : Table.find Prod.fst t b.fns with
    | none =>
      have hprev : prev ch.depth (k + 1) = k := rfl
      simp only [hfind, Option.map_none, Nat.add_one_ne_zero, if_false, hpre, hprev]
      exact ih (by omega) (by omega)
    | some fncb => simp only [hfind, Option.map_some, Option.join_some]

/-- From the root the parent look-up goes round to the last level. -/
theorem getParentFunction_eq (h : IsRing ch obj) (hlast : KeepsLast obj calls) (t : List UInt8)
    {stru : Nat} (hs : stru < ch.depth) :
    getParentFunction obj ch.depth stru t =
      some (nearest calls t (if stru = 0 then ch.depth else stru)).join := by
  obtain ⟨b, hb, -, -, hpre⟩ := h.level stru hs
  have hpos := ch.depth_pos
  have hlt : prev ch.depth stru < ch.depth := by
    unfold prev
    split_ifs <;> omega
  have hw : walk obj 0 t ch.depth (prev ch.depth stru) = _ := walk_nearest h hlast t hlt hlt
  have hnext : prev ch.depth stru + 1 = if stru = 0 then ch.depth else stru := by
    unfold prev
    split_ifs <;> omega
  rw [hnext] at hw
  rw [getParentFunction, baseOfFirst_eq h hs, Option.bind_eq_bind, Option.bind_some, hb,
    Option.bind_eq_bind, Option.bind_some, hpre, hw]

theorem getLastFunction_eq (h : IsRing ch obj) (hlast : KeepsLast obj calls) (t : List UInt8)
    {stru : Nat} (hs : stru < ch.depth) :
    getLastFunction obj ch.depth stru t = some (nearest calls t ch.depth).join := by
  have hroot := getParentFunction_eq h hlast t ch.depth_pos
  rw [getParentFunction, baseOfFirst_eq h ch.depth_pos] at hroot
  rw [getLastFunction, baseOfFirst_eq h hs]
  exact hroot

end Walk

section Dispatch

variable {F : Type}

theorem dispatches_iff (ch : ClassChain) (fns : RootFns F) (calls : List (SetCall ch.depth F))
    (view : Fin ch.depth) (fnTypeName : List UInt8) :
    Dispatches ch fns calls view fnTypeName ↔
      view.val ≠ 0 ∨ (nearest (rootCalls ch fns ++ calls) fnTypeName ch.depth).join = none := by
  have hring := (runCalls_made (Made.alloc fns : Made ch _) calls).ring
  have hlast := (alloc_keepsLast ch fns).runCalls calls
  have hparent := getParentFunction_eq hring hlast fnTypeName view.isLt
  by_cases hv : view.val = 0
  · rw [hv, if_pos rfl] at hparent
    constructor
    · intro h
      have hnone := h.parent
      rw [hv, hparent] at hnone
      exact .inr (Option.some.inj hnone)
    · rintro (hne | hnone)
      · exact absurd hv hne
      · exact ⟨getLastFunction_eq hring hlast fnTypeName view.isLt, by rw [hv, hparent, hnone]; rfl⟩
  · rw [if_neg hv] at hparent
    exact ⟨fun _ => .inl hv,
      fun _ => ⟨getLastFunction_eq hring hlast fnTypeName view.isLt, hparent⟩⟩

/-- The hash function of a plain object is its own parent function. -/
theorem not_dispatches :
    ¬∀ (ch : ClassChain) (fns : RootFns Nat) (calls : List (SetCall ch.depth Nat))
      (view : Fin ch.depth) (fnTypeName : List UInt8), Dispatches ch fns calls view fnTypeName := by
  intro h
  have hparent := (h (.root (cstr "MMObject")) ⟨0, 1⟩ [] ⟨0, by decide⟩ mmobjHash).parent
  exact absurd hparent (by decide +kernel)

end Dispatch

end LcClibs.Mmo.Dispatch
