import Mathlib
import LcClibs.Lib.Coupling
import LcClibs.Slots.Macros

namespace LcClibs.Slots.Contents

open Platform Memory.Managed Lib.Coupling Slots.Macros

section Spec

variable {m : Type → Type} [Monad m] [MonadExceptOf Stop m] {α : Type}
  (icd : UtIcd m α) (realloc : Nat → m Unit)

/-- An array as the list of its elements, and how many slots it has. -/
abbrev Elements (α : Type) := List α × Nat

def reserve (count : Nat) (r : Elements α) : m (Elements α) :=
  if r.1.length + count > r.2 then do
    let n ← MonadExcept.ofExcept (Mmo.Containers.utarrayReserve r.1.length r.2 count)
    realloc n
    return (r.1, n)
  else return r

def destroyAll (list : List α) : m Unit :=
  match icd.dtor with
  | some dtor => list.forM dtor
  | none => return ()

def initAll : Nat → m (List α)
  | 0 => return []
  | count + 1 => do
    let x ← initElement icd
    return x :: (← initAll count)

def resize (num : Nat) (r : Elements α) : m (Elements α) :=
  if r.1.length > num then do
    destroyAll icd (r.1.drop num)
    return (r.1.take num, r.2)
  else if r.1.length < num then do
    let r ← reserve realloc (num - r.1.length) r
    return (r.1 ++ (← initAll icd (num - r.1.length)), r.2)
  else return r

/-- Copies of some elements go in front of an index, behind new elements where the array
does not reach that far. -/
def inserta (ws : List α) (j : Nat) (r : Elements α) : m (Elements α) :=
  if ws.length = 0 then return r
  else do
    let r ← (if j > r.1.length then resize icd realloc j r else pure r)
    let r ← reserve realloc ws.length r
    let ys ← ws.mapM (copyElement icd)
    return (r.1.take j ++ ys ++ r.1.drop j, r.2)

def extendBack (r : Elements α) : m (Elements α) := do
  let r ← reserve realloc 1 r
  return (r.1 ++ [← initElement icd], r.2)

def popBack (r : Elements α) : m (Elements α) := do
  destroyAll icd (r.1.drop (r.1.length - 1))
  return (r.1.dropLast, r.2)

def erase (pos len : Nat) (r : Elements α) : m (Elements α) := do
  destroyAll icd ((r.1.drop pos).take len)
  return (r.1.take pos ++ r.1.drop (pos + len), r.2)

def clear (r : Elements α) : m (Elements α) := do
  destroyAll icd r.1
  return ([], r.2)

/-- The slots of an array hold its elements, from the first one on. -/
structure Represents (a : UtArray α) (r : Elements α) : Prop where
  i : a.i = r.1.length
  n : a.n = r.2
  slots : a.d.length = a.n
  elements : r.1.map some <+: a.d
  small : a.n < 2 ^ 32

def Holding (len : Nat) (a : UtArray α) (r : Elements α) : Prop :=
  Represents a r ∧ r.1.length = len

end Spec

section Slots

variable {m : Type → Type} [Monad m] [MonadExceptOf Stop m] {α : Type} {a : UtArray α}
  {r : Elements α} {d d' : List (Option α)} {ys : List α} {j count : Nat}

theorem Represents.length_le (h : Represents a r) : r.1.length ≤ a.n := by
  have hle := h.elements.length_le
  rwa [List.length_map, h.slots] at hle

theorem Represents.slot (h : Represents a r) {j : Nat} {x : α} (hx : r.1[j]? = some x) :
    a.d[j]? = some (some x) := by
  obtain ⟨rest, hrest⟩ := h.elements
  have hj : j < (r.1.map some).length := by
    rw [List.length_map]
    exact (List.getElem?_eq_some_iff.mp hx).1
  rw [← hrest, List.getElem?_append_left hj, List.getElem?_map, hx]
  rfl

theorem Represents.take (h : Represents a r) {j : Nat} (hj : j ≤ r.1.length) :
    a.d.take j = (r.1.take j).map some := by
  obtain ⟨rest, hrest⟩ := h.elements
  rw [← hrest, List.take_append_of_le_length (by rwa [List.length_map]), List.map_take]

theorem readSlot_ok {x : α} (h : d[j]? = some (some x)) : (readSlot d j : m α) = pure x := by
  rw [readSlot, h]

theorem writeSlot_ok {x : α} (h : j < d.length) :
    (writeSlot d j x : m (List (Option α))) = pure (d.set j (some x)) := if_pos h

theorem moveSlots_ok {dst src : Nat} (hd : dst + count ≤ d.length) (hs : src + count ≤ d.length) :
    (moveSlots d dst src count : m (List (Option α))) =
      pure (d.take dst ++ (d.drop src).take count ++ d.drop (dst + count)) := if_pos ⟨hd, hs⟩

/-- New elements are in the slots from one on, and nothing else has changed. -/
structure Written (d : List (Option α)) (j count : Nat) (d' : List (Option α)) (ys : List α) :
    Prop where
  length : ys.length = count
  slots : d' = d.take j ++ ys.map some ++ d.drop (j + count)

theorem written_nil (d : List (Option α)) (j : Nat) : Written d j 0 d [] :=
  ⟨rfl, by simp⟩

theorem Written.cons {y : α} (hj : j < d.length)
    (h : Written (d.set j (some y)) (j + 1) count d' ys) :
    Written d j (count + 1) d' (y :: ys) := by
  refine ⟨by rw [List.length_cons, h.length], ?_⟩
  have hlen : (d.take j).length = j := List.length_take_of_le hj.le
  have htake : (d.set j (some y)).take (j + 1) = d.take j ++ [some y] := by
    rw [List.set_eq_take_append_cons_drop, if_pos hj, List.take_append, hlen,
      List.take_of_length_le (by omega), show j + 1 - j = 1 by omega]
    rfl
  have hdrop : (d.set j (some y)).drop (j + 1 + count) = d.drop (j + (count + 1)) := by
    rw [List.drop_set_of_lt (by omega), show j + 1 + count = j + (count + 1) by omega]
  rw [h.slots, htake, hdrop]
  simp

theorem Written.length_eq (h : Written d j count d' ys) (hin : j + count ≤ d.length) :
    d'.length = d.length := by
  rw [h.slots]
  simp only [List.length_append, List.length_take, List.length_map, List.length_drop, h.length]
  omega

end Slots

section Loops

variable {m : Type → Type} [Monad m] [LawfulMonad m] [MonadExceptOf Stop m] {α : Type}
  {icd : UtIcd m α} {a : UtArray α} {r : Elements α}

theorem destroySlots_eq (dtor : α → m Unit) {d : List (Option α)} {xs : List α} {j : Nat}
    (h : ∀ k x, xs[k]? = some x → d[j + k]? = some (some x)) :
    destroySlots dtor d j xs.length = xs.forM dtor := by
  induction xs generalizing j with
  | nil => rfl
  | cons x xs ih =>
    have hnext : ∀ k y, xs[k]? = some y → d[j + 1 + k]? = some (some y) := by
      intro k y hy
      rw [show j + 1 + k = j + (k + 1) by omega]
      exact h (k + 1) y (by simpa using hy)
    have hfirst : d[j]? = some (some x) := h 0 x rfl
    rw [List.length_cons, destroySlots, readSlot_ok hfirst, pure_bind, ih hnext]
    rfl

theorem destroy_eq (icd : UtIcd m α) (h : Represents a r) (j count : Nat)
    (hin : j + count ≤ r.1.length) :
    destroy icd a.d j count = destroyAll icd ((r.1.drop j).take count) := by
  have hlen : ((r.1.drop j).take count).length = count := by simp; omega
  rw [destroy, destroyAll]
  cases icd.dtor with
  | none => rfl
  | some dtor =>
    have hslots : ∀ k x, ((r.1.drop j).take count)[k]? = some x → a.d[j + k]? = some (some x) := by
      intro k x hx
      rw [List.getElem?_take] at hx
      split_ifs at hx
      exact h.slot (by rwa [List.getElem?_drop] at hx)
    have hloop := destroySlots_eq dtor hslots
    rwa [hlen] at hloop

theorem destroy_from (icd : UtIcd m α) (h : Represents a r) (j : Nat) (hj : j ≤ r.1.length) :
    destroy icd a.d j (r.1.length - j) = destroyAll icd (r.1.drop j) := by
  have hall : (r.1.drop j).take (r.1.length - j) = r.1.drop j :=
    List.take_of_length_le (by rw [List.length_drop])
  rw [destroy_eq icd h j _ (by omega), hall]

theorem eraseElements_eq (h : Represents a r) {pos len : Nat} (hin : pos + len ≤ r.1.length) :
    eraseElements icd a pos len = destroyAll icd ((r.1.drop pos).take len) := by
  have hloop : ∀ dtor : α → m Unit, ∀ len pos, pos + len ≤ r.1.length →
      destroyElements dtor a pos len = destroySlots dtor a.d pos len := by
    intro dtor len
    induction len with
    | zero => exact fun _ _ => rfl
    | succ len ih =>
      intro pos hin
      rw [destroyElements, destroySlots, ih (pos + 1) (by omega), utarrayEltptr,
        if_pos (by rw [h.i]; omega)]
      rfl
  rw [eraseElements, ← destroy_eq icd h pos len hin, destroy]
  cases icd.dtor with
  | none => rfl
  | some dtor => exact hloop dtor len pos hin

theorem initSlots_coupled (d : List (Option α)) (j count : Nat) (hin : j + count ≤ d.length) :
    Coupled (Written d j count) (initSlots icd d j count) (initAll icd count) := by
  induction count generalizing d j with
  | zero => exact .pure (written_nil d j)
  | succ count ih =>
    have hj : j < d.length := by omega
    refine .bind_left _ fun y => ?_
    rw [writeSlot_ok hj, pure_bind, ← bind_pure (initSlots icd _ _ _)]
    refine (ih (d.set j (some y)) (j + 1) (by rw [List.length_set]; omega)).bind
      fun d' ys h => .pure (h.cons hj)

/-- The copies come from slots that the loop does not write to. -/
theorem copySlots_coupled (w : Option (UtArray α)) (j : Nat) (ws : List α) (a : UtArray α) (k : Nat)
    (hin : j + k + ws.length ≤ a.d.length)
    (hsrc : ∀ q x, ws[q]? = some x → (other w a).d[k + q]? = some (some x))
    (hself : w = none → ws.length ≤ j) :
    Coupled (fun a' ys => a'.i = a.i ∧ a'.n = a.n ∧ Written a.d (j + k) ws.length a'.d ys)
      (copySlots icd w j a k ws.length) (ws.mapM (copyElement icd)) := by
  induction ws generalizing a k with
  | nil => exact .pure ⟨rfl, rfl, written_nil _ _⟩
  | cons x ws ih =>
    rw [List.length_cons] at hin
    have hj : j + k < a.d.length := by omega
    have hfirst : (other w a).d[k]? = some (some x) := hsrc 0 x rfl
    rw [List.length_cons, copySlots, readSlot_ok hfirst, pure_bind, List.mapM_cons]
    refine .bind_left _ fun y => ?_
    rw [writeSlot_ok hj, pure_bind, ← bind_pure (copySlots icd w j _ _ _)]
    refine (ih { a with d := a.d.set (j + k) (some y) } (k + 1)
      (by rw [List.length_set]; omega) (fun q x' hx => ?_)
      fun hw => (Nat.le_succ _).trans (hself hw)).bind fun a' ys h => .pure ⟨h.1, h.2.1, ?_⟩
    · have hx' := hsrc (q + 1) x' (by simpa using hx)
      rw [show k + 1 + q = k + (q + 1) by omega]
      cases w with
      | some w => exact hx'
      | none =>
        have hq : q < ws.length := (List.getElem?_eq_some_iff.mp hx).1
        have hle := hself rfl
        rw [List.length_cons] at hle
        show (a.d.set (j + k) (some y))[k + (q + 1)]? = _
        rw [List.getElem?_set_ne (by omega)]
        exact hx'
    · exact h.2.2.cons hj

end Loops

section Growing

variable {m : Type → Type} [Monad m] [LawfulMonad m] [MonadExceptOf Stop m] {α : Type}
  {icd : UtIcd m α} {realloc : Nat → m Unit} {a : UtArray α} {r : Elements α}

theorem reserveLoop_ok {need : Nat} (hneed : need ≤ 2 ^ 31) (fuel n : Nat) (hn : n < 2 ^ 32)
    (h0 : 0 < n) (hfuel : need ≤ n * 2 ^ fuel) :
    ∃ n', Mmo.Containers.reserveLoop (fuel + 1) need n = .ok n' ∧ need ≤ n' ∧ n ≤ n' ∧
      n' < 2 ^ 32 := by
  induction fuel generalizing n with
  | zero =>
    rw [pow_zero, mul_one] at hfuel
    exact ⟨n, by rw [Mmo.Containers.reserveLoop, if_neg (by omega)], hfuel, le_rfl, hn⟩
  | succ fuel ih =>
    rw [Mmo.Containers.reserveLoop]
    by_cases h : need > n
    · rw [if_pos h, if_pos h0.ne', uint_of_lt (by omega)]
      obtain ⟨n', hrun, h1, h2, h3⟩ := ih (2 * n) (by omega) (by omega) (by
        rw [pow_succ] at hfuel
        nlinarith)
      exact ⟨n', hrun, h1, by omega, h3⟩
    · rw [if_neg h]
      exact ⟨n, rfl, by omega, le_rfl, hn⟩

theorem reserveLoop_enough {need : Nat} (hneed : need ≤ 2 ^ 31) {n : Nat} (hn : n < 2 ^ 32) :
    ∃ n', Mmo.Containers.reserveLoop 64 need n = .ok n' ∧ need ≤ n' ∧ n ≤ n' ∧ n' < 2 ^ 32 := by
  by_cases h0 : n = 0
  · subst h0
    rw [Mmo.Containers.reserveLoop]
    by_cases h : need > 0
    · rw [if_pos h, if_neg (not_not.mpr rfl)]
      obtain ⟨n', hrun, h1, -, h3⟩ := reserveLoop_ok hneed 62 8 (by decide) (by decide) (by omega)
      exact ⟨n', hrun, h1, Nat.zero_le n', h3⟩
    · rw [if_neg h]
      exact ⟨0, rfl, by omega, le_rfl, hn⟩
  · exact reserveLoop_ok hneed 63 n hn (Nat.pos_of_ne_zero h0) (by
      have := Nat.mul_le_mul_right (2 ^ 63) (Nat.pos_of_ne_zero h0)
      omega)

theorem utarrayReserve_ok {i n count : Nat} (hsmall : i + count ≤ 2 ^ 31) (hn : n < 2 ^ 32) :
    ∃ n', Mmo.Containers.reserveLoop 64 (i + count) n = .ok n' ∧
      Mmo.Containers.utarrayReserve i n count = .ok n' ∧ i + count ≤ n' ∧ n ≤ n' ∧
      n' < 2 ^ 32 := by
  obtain ⟨n', hrun, hle, hge, hlt⟩ := reserveLoop_enough hsmall hn
  refine ⟨n', hrun, ?_, hle, hge, hlt⟩
  rw [Mmo.Containers.utarrayReserve, uint_of_lt (by omega), hrun]
  show (if n' < i + count then _ else _) = _
  rw [if_neg (by omega)]
  rfl

/-- There is room for more elements after that. -/
def Roomy (count : Nat) (a : UtArray α) (r : Elements α) : Prop :=
  Represents a r ∧ r.1.length + count ≤ a.n

theorem reserve_coupled {count : Nat} (h : Represents a r) (hsmall : r.1.length + count ≤ 2 ^ 31) :
    Coupled (fun a' r' => Roomy count a' r' ∧ r'.1 = r.1) (utarrayReserve realloc a count)
      (reserve realloc count r) := by
  have hneed : uint (a.i + count) = r.1.length + count := by
    rw [h.i, uint_of_lt (by omega)]
  rw [utarrayReserve, reserve, hneed, h.n]
  by_cases hmore : r.1.length + count > r.2
  · obtain ⟨n', hrun, hspec, hle, hge, hlt⟩ := utarrayReserve_ok hsmall (h.n ▸ h.small)
    rw [if_pos hmore, if_pos hmore, hrun, hspec]
    show Coupled _ (Pure.pure n' >>= _) (Pure.pure n' >>= _)
    rw [pure_bind, pure_bind]
    have hd : a.d.take n' = a.d := List.take_of_length_le (by rw [h.slots, h.n]; exact hge)
    refine .bind_left _ fun _ => .pure ⟨⟨⟨h.i, rfl, ?_, ?_, hlt⟩, hle⟩, rfl⟩
    · show (a.d.take n' ++ List.replicate (n' - a.d.length) none).length = n'
      rw [hd, List.length_append, List.length_replicate, h.slots, h.n]
      omega
    · show r.1.map some <+: a.d.take n' ++ List.replicate (n' - a.d.length) none
      rw [hd]
      exact h.elements.trans (List.prefix_append _ _)
  · rw [if_neg hmore, if_neg hmore]
    exact .pure ⟨⟨h, by rw [h.n]; omega⟩, rfl⟩

end Growing

section Operations

variable {m : Type → Type} [Monad m] [LawfulMonad m] [MonadExceptOf Stop m] {α : Type}
  {icd : UtIcd m α} {realloc : Nat → m Unit} {a : UtArray α} {r : Elements α}

theorem init_represents : Represents (utarrayInit : UtArray α) ([], 0) :=
  ⟨rfl, rfl, rfl, List.nil_prefix, Nat.two_pow_pos 32⟩

theorem Represents.shorten (h : Represents a r) (num : Nat) (hnum : num ≤ r.1.length) :
    Represents { a with i := num } (r.1.take num, r.2) := by
  refine ⟨(List.length_take_of_le hnum).symm, h.n, h.slots, ?_, h.small⟩
  exact ((List.take_prefix num r.1).map some).trans h.elements

theorem Roomy.written {count : Nat} {d' : List (Option α)} {ys : List α} (h : Roomy count a r)
    (hw : Written a.d r.1.length count d' ys) :
    Represents { a with d := d', i := r.1.length + count } (r.1 ++ ys, r.2) := by
  have hslots := h.1.slots
  refine ⟨?_, h.1.n, (hw.length_eq (by rw [hslots]; exact h.2)).trans hslots, ?_, h.1.small⟩
  · rw [List.length_append, hw.length]
  · rw [List.map_append, hw.slots, h.1.take le_rfl, List.take_length]
    exact List.prefix_append _ _

theorem resize_coupled {num : Nat} (h : Represents a r) (hsmall : num ≤ 2 ^ 31) :
    Coupled (Holding num) (utarrayResize icd realloc a num) (resize icd realloc num r) := by
  rw [utarrayResize, resize, h.i]
  split_ifs with hgt hlt
  · rw [destroy_from icd h num hgt.le]
    exact .bind_left _ fun _ => .pure ⟨h.shorten num hgt.le, List.length_take_of_le hgt.le⟩
  · refine (reserve_coupled h (by omega)).bind fun a' r' ⟨h', hr'⟩ => ?_
    rw [h'.1.i]
    have hin : r'.1.length + (num - r'.1.length) ≤ a'.d.length := by
      rw [h'.1.slots]
      exact hr' ▸ h'.2
    have hnum : r'.1.length + (num - r'.1.length) = num := by rw [hr']; omega
    refine (initSlots_coupled a'.d r'.1.length _ hin).bind fun d' ys hw => ?_
    have hrep := (hr' ▸ h' : Roomy (num - r'.1.length) a' r').written hw
    rw [hnum] at hrep
    exact .pure ⟨hrep, hrep.i.symm⟩
  · have hnum : num = r.1.length := by omega
    exact .pure ⟨⟨hnum, h.n, h.slots, h.elements, h.small⟩, hnum.symm⟩

/-- What making room does to the slots: those before the gap stay, the elements behind it move
up. -/
theorem makeRoom_ok {j count : Nat} (h : Roomy count a r) (hj : j ≤ r.1.length) :
    ∃ d, (makeRoom a j count : m (UtArray α)) = pure { a with d := d } ∧
      d.length = a.d.length ∧ d.take j = (r.1.take j).map some ∧
      (r.1.drop j).map some <+: d.drop (j + count) := by
  have hroom : r.1.length + count ≤ a.d.length := by rw [h.1.slots]; exact h.2
  obtain ⟨rest, hrest⟩ := h.1.elements
  have hi := h.1.i
  by_cases hlt : j < a.i
  · have hmoved : (a.d.drop j).take (a.i - j) = (r.1.drop j).map some := by
      rw [← hrest, List.drop_append_of_le_length (by rw [List.length_map]; exact hj),
        ← List.map_drop]
      exact List.take_left' (by rw [List.length_map, List.length_drop, hi])
    have htake : (a.d.take (j + count)).length = j + count := List.length_take_of_le (by omega)
    rw [makeRoom, if_pos hlt, moveSlots_ok (by omega) (by omega), pure_bind, hmoved]
    refine ⟨_, rfl, ?_, ?_, ?_⟩
    · simp only [List.length_append, List.length_take, List.length_map, List.length_drop]
      omega
    · rw [List.append_assoc, List.take_append_of_le_length (by omega), List.take_take,
        Nat.min_eq_left (Nat.le_add_right j count)]
      exact h.1.take hj
    · rw [List.append_assoc, List.drop_left' htake]
      exact List.prefix_append _ _
  · obtain rfl : j = r.1.length := by omega
    rw [makeRoom, if_neg hlt]
    exact ⟨a.d, rfl, rfl, h.1.take le_rfl, by simp⟩

theorem inserted_represents {j count : Nat} {d d' : List (Option α)} {ys : List α}
    (h : Roomy count a r) (hj : j ≤ r.1.length) (hlen : d.length = a.d.length)
    (htake : d.take j = (r.1.take j).map some)
    (hdrop : (r.1.drop j).map some <+: d.drop (j + count))
    (hw : Written d j count d' ys) :
    Represents { a with d := d', i := r.1.length + count }
      (r.1.take j ++ ys ++ r.1.drop j, r.2) := by
  have hroom : r.1.length + count ≤ a.d.length := by rw [h.1.slots]; exact h.2
  refine ⟨?_, h.1.n, ?_, ?_, h.1.small⟩
  · simp only [List.length_append, List.length_take, List.length_drop, hw.length]
    omega
  · exact (hw.length_eq (by omega)).trans (hlen.trans h.1.slots)
  · show (r.1.take j ++ ys ++ r.1.drop j).map some <+: d'
    rw [hw.slots, htake, List.map_append, List.map_append]
    exact List.prefix_append_right_inj _ |>.mpr hdrop

theorem fillGap_coupled {j : Nat} (h : Represents a r) (hsmall : j ≤ 2 ^ 31) :
    Coupled (Holding (max r.1.length j))
      (if j > a.i then utarrayResize icd realloc a j else pure a)
      (if j > r.1.length then resize icd realloc j r else pure r) := by
  rw [h.i]
  split_ifs with hgt
  · exact (resize_coupled h hsmall).imp fun a' r' h' => ⟨h'.1, by rw [h'.2]; omega⟩
  · exact .pure ⟨h, by omega⟩

theorem insert_coupled {j : Nat} (p : α) (h : Represents a r)
    (hsmall : max r.1.length j + 1 ≤ 2 ^ 31) :
    Coupled (Holding (max r.1.length j + 1)) (utarrayInsert icd realloc p j a)
      (inserta icd realloc [p] j r) := by
  rw [utarrayInsert, inserta, if_neg (show ¬[p].length = 0 by simp)]
  refine (fillGap_coupled h (by omega)).bind fun a1 r1 ⟨h1, hlen1⟩ => ?_
  refine (reserve_coupled h1 (by omega)).bind fun a2 r2 ⟨h2, hr2⟩ => ?_
  have hj : j ≤ r2.1.length := by rw [hr2]; omega
  obtain ⟨d, hrun, hlen, htake, hdrop⟩ := makeRoom_ok (m := m) h2 hj
  have hin : j < d.length := by
    have := h2.2
    rw [hlen, h2.1.slots]
    omega
  have hi : uint (a2.i + 1) = r2.1.length + 1 := by
    rw [h2.1.i, uint_of_lt (by rw [hr2]; omega)]
  rw [hrun, pure_bind, List.mapM_cons, List.mapM_nil, bind_assoc]
  refine .bind_left _ fun y => ?_
  rw [writeSlot_ok hin, pure_bind, pure_bind, pure_bind]
  have hw : Written d j 1 (d.set j (some y)) [y] := (written_nil _ _).cons hin
  have hrep := inserted_represents h2 hj hlen htake hdrop hw
  rw [← hi] at hrep
  exact .pure ⟨hrep, hrep.i.symm.trans (by rw [hi, hr2, hlen1])⟩

theorem pushBack_coupled (p : α) (h : Represents a r) (hsmall : r.1.length + 1 ≤ 2 ^ 31) :
    Coupled (Holding (r.1.length + 1)) (utarrayPushBack icd realloc p a)
      (inserta icd realloc [p] r.1.length r) := by
  rw [utarrayPushBack, inserta, if_neg (show ¬[p].length = 0 by simp), if_neg (by omega),
    pure_bind]
  refine (reserve_coupled h hsmall).bind fun a' r' ⟨h', hr'⟩ => ?_
  have hin : a'.i < a'.d.length := by
    have := h'.2
    rw [h'.1.i, h'.1.slots]
    omega
  have hi : uint (a'.i + 1) = r'.1.length + 1 := by
    rw [h'.1.i, uint_of_lt (by rw [hr']; omega)]
  rw [List.mapM_cons, List.mapM_nil, bind_assoc]
  refine .bind_left _ fun y => ?_
  rw [writeSlot_ok hin, pure_bind, pure_bind, pure_bind, hi, h'.1.i]
  have hw : Written a'.d r'.1.length 1 (a'.d.set r'.1.length (some y)) [y] :=
    (written_nil _ _).cons (h'.1.i ▸ hin)
  rw [← hr', List.take_length, List.drop_length, List.append_nil]
  exact .pure ⟨h'.written hw, by simp⟩

theorem extendBack_coupled (h : Represents a r) (hsmall : r.1.length + 1 ≤ 2 ^ 31) :
    Coupled (Holding (r.1.length + 1)) (utarrayExtendBack icd realloc a)
      (extendBack icd realloc r) := by
  refine (reserve_coupled h hsmall).bind fun a' r' ⟨h', hr'⟩ => ?_
  have hin : a'.i < a'.d.length := by
    have := h'.2
    rw [h'.1.i, h'.1.slots]
    omega
  have hi : uint (a'.i + 1) = r'.1.length + 1 := by
    rw [h'.1.i, uint_of_lt (by rw [hr']; omega)]
  refine .bind_left _ fun y => ?_
  rw [writeSlot_ok hin, pure_bind, hi, h'.1.i]
  exact .pure ⟨h'.written ((written_nil _ _).cons (h'.1.i ▸ hin)), by simp [hr']⟩

theorem copy_coupled (icd : UtIcd m α) {j : Nat} {ws : List α} {w : Option (UtArray α)}
    (h : Roomy ws.length a r)
    (hj : j ≤ r.1.length) (hsmall : r.1.length + ws.length ≤ 2 ^ 31)
    (hlen : ∀ a' : UtArray α, a'.i = a.i → utarrayLen (other w a') = ws.length)
    (hsrc : ∀ (a' : UtArray α) (q : Nat) (x : α), a'.d.take j = (r.1.take j).map some →
      ws[q]? = some x → (other w a').d[q]? = some (some x)) (hself : w = none → ws.length ≤ j) :
    Coupled (Holding (r.1.length + ws.length)) (do
        let a ← makeRoom a j (utarrayLen (other w a))
        let a ← copySlots icd w j a 0 (utarrayLen (other w a))
        return { a with i := uint (a.i + utarrayLen (other w a)) })
      (do
        let ys ← ws.mapM (copyElement icd)
        return (r.1.take j ++ ys ++ r.1.drop j, r.2)) := by
  obtain ⟨d, hrun, hd, htake, hdrop⟩ := makeRoom_ok (m := m) h hj
  have hroom := h.2
  rw [hlen a rfl, hrun, pure_bind, hlen { a with d := d } rfl]
  refine (copySlots_coupled w j ws { a with d := d } 0 ?_ (fun q x hx => ?_) hself).bind
    fun a' ys ⟨hi, hn, hw⟩ => ?_
  · show j + 0 + ws.length ≤ d.length
    rw [hd, h.1.slots]
    omega
  · rw [Nat.zero_add]
    exact hsrc _ q x htake hx
  · have hi' : uint (a'.i + utarrayLen (other w a')) = r.1.length + ws.length := by
      rw [hlen a' hi, hi]
      show uint (a.i + _) = _
      rw [h.1.i, uint_of_lt (by omega)]
    have hrep := inserted_represents h hj hd htake hdrop hw
    rw [hi']
    exact .pure ⟨⟨hrep.i, hn.trans hrep.n, hrep.slots.trans hn.symm, hrep.elements,
      hn ▸ hrep.small⟩, hrep.i.symm⟩

theorem inserta_coupled {j : Nat} {ws : Elements α} {w : UtArray α} (h : Represents a r)
    (hw : Represents w ws) (hsmall : max r.1.length j + ws.1.length ≤ 2 ^ 31) :
    Coupled (Holding (if ws.1.length = 0 then r.1.length else max r.1.length j + ws.1.length))
      (utarrayInserta icd realloc (some w) j a) (inserta icd realloc ws.1 j r) := by
  have hlen : utarrayLen w = ws.1.length := hw.i
  rw [utarrayInserta, inserta]
  simp only [other, Option.getD_some, hlen]
  by_cases h0 : ws.1.length = 0
  · rw [if_pos h0, if_pos h0, if_pos h0]
    exact .pure ⟨h, rfl⟩
  · rw [if_neg h0, if_neg h0, if_neg h0]
    refine (fillGap_coupled h (by omega)).bind fun a1 r1 ⟨h1, hlen1⟩ => ?_
    refine (reserve_coupled h1 (by omega)).bind fun a2 r2 ⟨h2, hr2⟩ => ?_
    have hj : j ≤ r2.1.length := by rw [hr2]; omega
    have hcopy := copy_coupled icd (w := some w) h2 hj (by rw [hr2]; omega)
      (fun _ _ => hlen) (fun _ _ _ _ hx => hw.slot hx) (fun hnone => by cases hnone)
    simp only [other, Option.getD_some, hlen] at hcopy
    have hmax : r2.1.length = max r.1.length j := by rw [hr2, hlen1]
    rwa [hmax] at hcopy

/-- An array behind itself: the elements that are copied stay where they are, also when the
array moves. -/
theorem concatSelf_coupled (h : Represents a r) (hsmall : 2 * r.1.length ≤ 2 ^ 31) :
    Coupled (Holding (r.1.length + r.1.length)) (utarrayConcat icd realloc none a)
      (inserta icd realloc r.1 r.1.length r) := by
  have hlen : utarrayLen a = r.1.length := h.i
  rw [utarrayConcat, utarrayInserta, inserta]
  simp only [other, Option.getD_none, hlen, h.i]
  by_cases h0 : r.1.length = 0
  · rw [if_pos h0, if_pos h0]
    exact .pure ⟨h, by omega⟩
  · rw [if_neg h0, if_neg h0, if_neg (lt_irrefl _), if_neg (lt_irrefl _), pure_bind, pure_bind,
      hlen]
    refine (reserve_coupled h (by omega)).bind fun a2 r2 ⟨h2, hr2⟩ => ?_
    rw [← hr2] at h2 ⊢
    have hi : a2.i = r2.1.length := h2.1.i
    exact copy_coupled icd (w := none) h2 le_rfl (by rw [hr2]; omega) (fun a' ha' => ha'.trans hi)
      (fun a' q x htake hx => by
        rw [List.take_length] at htake
        have hq : q < r2.1.length := (List.getElem?_eq_some_iff.mp hx).1
        have hmap : (r2.1.map some)[q]? = some (some x) := by rw [List.getElem?_map, hx]; rfl
        rw [← htake, List.getElem?_take_of_lt hq] at hmap
        exact hmap)
      (fun _ => le_rfl)

theorem popBack_coupled (h : Represents a r) (hne : r.1 ≠ []) :
    Coupled (Holding (r.1.length - 1)) (utarrayPopBack icd a) (popBack icd r) := by
  have hpos := List.length_pos_iff.mpr hne
  have hle := h.length_le
  have hsmall := h.small
  have hi : uintSub a.i 1 = r.1.length - 1 := by
    rw [h.i, uintSub_of_le hpos (by omega)]
  have hd := destroy_from icd h (r.1.length - 1) (Nat.sub_le _ _)
  rw [show r.1.length - (r.1.length - 1) = 1 by omega] at hd
  rw [utarrayPopBack, popBack, hi, hd, List.dropLast_eq_take]
  exact .bind_left _ fun _ => .pure ⟨h.shorten _ (Nat.sub_le _ _), by simp⟩

theorem clear_coupled (h : Represents a r) :
    Coupled (Holding 0) (utarrayClear icd a) (clear icd r) := by
  rw [utarrayClear, clear, h.i]
  have hd : destroy icd a.d 0 r.1.length = destroyAll icd r.1 :=
    destroy_from icd h 0 (Nat.zero_le _)
  split_ifs with hpos
  · rw [hd]
    exact .bind_left _ fun _ => .pure ⟨h.shorten 0 (Nat.zero_le _), rfl⟩
  · have hnil : r.1 = [] := List.length_eq_zero_iff.mp (by omega)
    have hnone : destroyAll icd r.1 = pure () := by
      rw [hnil, destroyAll]
      cases icd.dtor <;> rfl
    rw [hnone, pure_bind]
    exact .pure ⟨⟨by rw [h.i, hnil], h.n, h.slots, List.nil_prefix, h.small⟩, rfl⟩

theorem erase_coupled {pos len : Nat} (h : Represents a r) (hin : pos + len ≤ r.1.length) :
    Coupled (Holding (r.1.length - len)) (utarrayErase icd pos len a) (erase icd pos len r) := by
  have hle := h.length_le
  have hsmall := h.small
  have hslots := h.slots
  rw [utarrayErase, erase, eraseElements_eq h hin]
  refine .bind_left _ fun _ => ?_
  have hsum : uint (pos + len) = pos + len := uint_of_lt (by omega)
  have hi : uintSub a.i len = r.1.length - len := by
    rw [h.i, uintSub_of_le (by omega) (by omega)]
  obtain ⟨rest, hrest⟩ := h.elements
  rw [hsum]
  by_cases hgt : a.i > pos + len
  · have hmoved : (a.d.drop (pos + len)).take (a.i - (pos + len)) =
        (r.1.drop (pos + len)).map some := by
      rw [← hrest, List.drop_append_of_le_length (by rw [List.length_map]; exact hin),
        ← List.map_drop]
      exact List.take_left' (by rw [List.length_map, List.length_drop, h.i])
    have hi' := h.i
    rw [if_pos hgt, moveSlots_ok (by omega) (by omega), pure_bind, pure_bind, hmoved]
    refine .pure ⟨⟨?_, h.n, ?_, ?_, h.small⟩, ?_⟩
    · show uintSub a.i len = _
      rw [hi, List.length_append, List.length_take, List.length_drop]
      omega
    · simp only [List.length_append, List.length_take, List.length_map, List.length_drop]
      omega
    · rw [List.map_append, h.take (by omega), List.append_assoc]
      exact List.prefix_append_right_inj _ |>.mpr (List.prefix_append _ _)
    · simp only [List.length_append, List.length_take, List.length_drop]
      omega
  · have hend : pos + len = r.1.length := by have := h.i; omega
    have htake : r.1.take pos ++ r.1.drop (pos + len) = r.1.take (r.1.length - len) := by
      rw [hend, List.drop_length, List.append_nil, show r.1.length - len = pos by omega]
    rw [if_neg hgt, pure_bind, htake, hi]
    exact .pure ⟨h.shorten _ (Nat.sub_le _ _), List.length_take_of_le (Nat.sub_le _ _)⟩

/-- In the end every element that is left is destroyed, once. -/
theorem done_eq (h : Represents a r) :
    utarrayDone icd a = (do destroyAll icd r.1; return { a with n := 0, d := [] }) := by
  have hd : destroy icd a.d 0 r.1.length = destroyAll icd r.1 :=
    destroy_from icd h 0 (Nat.zero_le _)
  have hle := h.length_le
  rw [utarrayDone]
  split_ifs with h0
  · rw [h.i, hd]
  · have hzero : a.n = 0 := not_not.mp h0
    have hnil : r.1 = [] := List.length_eq_zero_iff.mp (by omega)
    have hnone : destroyAll icd r.1 = pure () := by
      rw [hnil, destroyAll]
      cases icd.dtor <;> rfl
    have hd0 : a.d = [] := List.length_eq_zero_iff.mp (h.slots.trans hzero)
    rw [hnone, pure_bind, hd0]

end Operations

end LcClibs.Slots.Contents
