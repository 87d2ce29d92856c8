import Mathlib
import LcClibs.Slots.Contents

namespace LcClibs.Slots.Sequences

open Platform Memory.Managed Lib.Coupling Slots.Macros Slots.Contents

section Model

inductive ArrayCall (α : Type)
  | reserve (count : Nat)
  | pushBack (p : α)
  | popBack
  | extendBack
  | insert (p : α) (j : Nat)
  | inserta (w : UtArray α) (j : Nat)
  | concatSelf
  | resize (num : Nat)
  | erase (pos len : Nat)
  | clear

variable {m : Type → Type} [Monad m] [MonadExceptOf Stop m] {α : Type}

def elements (w : UtArray α) : List α := (w.d.take w.i).filterMap id

variable (icd : UtIcd m α) (realloc : Nat → m Unit)

def ArrayCall.run : ArrayCall α → UtArray α → m (UtArray α)
  | reserve count, a => utarrayReserve realloc a count
  | pushBack p, a => utarrayPushBack icd realloc p a
  | popBack, a => utarrayPopBack icd a
  | extendBack, a => utarrayExtendBack icd realloc a
  | insert p j, a => utarrayInsert icd realloc p j a
  | inserta w j, a => utarrayInserta icd realloc (some w) j a
  | concatSelf, a => utarrayConcat icd realloc none a
  | resize num, a => utarrayResize icd realloc a num
  | erase pos len, a => utarrayErase icd pos len a
  | clear, a => utarrayClear icd a

def ArrayCall.onList : ArrayCall α → Elements α → m (Elements α)
  | reserve count, r => Contents.reserve realloc count r
  | pushBack p, r => Contents.inserta icd realloc [p] r.1.length r
  | popBack, r => Contents.popBack icd r
  | extendBack, r => Contents.extendBack icd realloc r
  | insert p j, r => Contents.inserta icd realloc [p] j r
  | inserta w j, r => Contents.inserta icd realloc (elements w) j r
  | concatSelf, r => Contents.inserta icd realloc r.1 r.1.length r
  | resize num, r => Contents.resize icd realloc num r
  | erase pos len, r => Contents.erase icd pos len r
  | clear, r => Contents.clear icd r

def runArray : List (ArrayCall α) → UtArray α → m (UtArray α)
  | [], a => return a
  | c :: calls, a => do runArray calls (← c.run icd realloc a)

def runList : List (ArrayCall α) → Elements α → m (Elements α)
  | [], r => return r
  | c :: calls, r => do runList calls (← c.onList icd realloc r)

def ArrayCall.lengthAfter : ArrayCall α → Nat → Nat
  | reserve _, len => len
  | pushBack _, len => len + 1
  | popBack, len => len - 1
  | extendBack, len => len + 1
  | insert _ j, len => max len j + 1
  | inserta w j, len =>
    if (elements w).length = 0 then len else max len j + (elements w).length
  | concatSelf, len => len + len
  | resize num, _ => num
  | erase _ count, len => len - count
  | clear, _ => 0

/-- An array is not popped when it is empty, is erased where it has elements, is handed a
well formed one and is kept to two to the thirty-first elements. -/
def ArrayCall.Proper : ArrayCall α → Nat → Prop
  | reserve count, len => len + count ≤ 2 ^ 31
  | popBack, len => 0 < len
  | inserta w j, len =>
    Represents w (elements w, w.n) ∧ max len j + (elements w).length ≤ 2 ^ 31
  | erase pos count, len => pos + count ≤ len
  | c, len => c.lengthAfter len ≤ 2 ^ 31

def ProperCalls : List (ArrayCall α) → Nat → Prop
  | [], _ => True
  | c :: calls, len => c.Proper len ∧ ProperCalls calls (c.lengthAfter len)

instance [DecidableEq α] (a : UtArray α) (r : Elements α) : Decidable (Represents a r) :=
  decidable_of_iff (a.i = r.1.length ∧ a.n = r.2 ∧ a.d.length = a.n ∧ r.1.map some <+: a.d ∧
      a.n < 2 ^ 32)
    ⟨fun ⟨h1, h2, h3, h4, h5⟩ => ⟨h1, h2, h3, h4, h5⟩,
      fun ⟨h1, h2, h3, h4, h5⟩ => ⟨h1, h2, h3, h4, h5⟩⟩

instance decidableProper [DecidableEq α] :
    (c : ArrayCall α) → (len : Nat) → Decidable (c.Proper len)
  | .reserve count, len => inferInstanceAs (Decidable (len + count ≤ 2 ^ 31))
  | .pushBack _, len => inferInstanceAs (Decidable (len + 1 ≤ 2 ^ 31))
  | .popBack, len => inferInstanceAs (Decidable (0 < len))
  | .extendBack, len => inferInstanceAs (Decidable (len + 1 ≤ 2 ^ 31))
  | .insert _ j, len => inferInstanceAs (Decidable (max len j + 1 ≤ 2 ^ 31))
  | .inserta w j, len => inferInstanceAs (Decidable
      (Represents w (elements w, w.n) ∧ max len j + (elements w).length ≤ 2 ^ 31))
  | .concatSelf, len => inferInstanceAs (Decidable (len + len ≤ 2 ^ 31))
  | .resize num, _ => inferInstanceAs (Decidable (num ≤ 2 ^ 31))
  | .erase pos count, len => inferInstanceAs (Decidable (pos + count ≤ len))
  | .clear, _ => inferInstanceAs (Decidable (0 ≤ 2 ^ 31))

instance decidableProperCalls [DecidableEq α] :
    (calls : List (ArrayCall α)) → (len : Nat) → Decidable (ProperCalls calls len)
  | [], _ => isTrue trivial
  | c :: calls, len =>
    have := decidableProperCalls calls (c.lengthAfter len)
    inferInstanceAs (Decidable (c.Proper len ∧ ProperCalls calls (c.lengthAfter len)))

end Model

section Refinement

variable {m : Type → Type} [Monad m] [LawfulMonad m] [MonadExceptOf Stop m] {α : Type}
  {a : UtArray α} {r : Elements α}

theorem elements_of_represents (h : Represents a r) : elements a = r.1 := by
  rw [elements, h.i, h.take le_rfl, List.take_length, List.filterMap_map]
  exact List.filterMap_some

theorem call_coupled (icd : UtIcd m α) (realloc : Nat → m Unit) (h : Represents a r)
    (c : ArrayCall α) (hp : c.Proper r.1.length) :
    Coupled (Holding (c.lengthAfter r.1.length)) (c.run icd realloc a)
      (c.onList icd realloc r) := by
  cases c with
  | reserve count =>
    exact (reserve_coupled h hp).imp fun a' r' h' => ⟨h'.1.1, congrArg List.length h'.2⟩
  | pushBack p => exact pushBack_coupled p h hp
  | popBack => exact popBack_coupled h (List.length_pos_iff.mp hp)
  | extendBack => exact extendBack_coupled h hp
  | insert p j => exact insert_coupled p h hp
  | inserta w j =>
    obtain ⟨hw, hsmall⟩ := hp
    exact inserta_coupled h hw hsmall
  | concatSelf => exact concatSelf_coupled h ((two_mul _).trans_le hp)
  | resize num => exact resize_coupled h hp
  | erase pos len => exact erase_coupled h hp
  | clear => exact clear_coupled h

theorem run_coupled (icd : UtIcd m α) (realloc : Nat → m Unit) (calls : List (ArrayCall α))
    (h : Represents a r)
    (hp : ProperCalls calls r.1.length) :
    Coupled Represents (runArray icd realloc calls a) (runList icd realloc calls r) := by
  induction calls generalizing a r with
  | nil => exact .pure h
  | cons c calls ih =>
    refine (call_coupled icd realloc h c hp.1).bind fun a' r' h' => ih h'.1 ?_
    rw [h'.2]
    exact hp.2

/-- Whatever the functions for the elements do, and wherever the allocator or they end the
program: the macros do it in the same order as the operations on a list do, and the slots hold
that list. -/
theorem array_refines (icd : UtIcd m α) (realloc : Nat → m Unit) (calls : List (ArrayCall α))
    (hp : ProperCalls calls 0) :
    Coupled Represents (runArray icd realloc calls utarrayInit)
      (runList icd realloc calls ([], 0)) :=
  run_coupled icd realloc calls init_represents hp

/-- Strings that are copied to addresses of their own, with the addresses that are in use, and
an allocator that has no more than sixteen slots. -/
def strings : UtIcd (StateT (List Nat) (Except Stop)) Nat where
  init := none
  copy := some fun _ => modifyGet fun used => (used.sum + 1, (used.sum + 1) :: used)
  dtor := some fun x => modify fun used => used.erase x
  zero := 0

def sixteen (n : Nat) : StateT (List Nat) (Except Stop) Unit :=
  if n ≤ 16 then return () else throw (.fault .nullDeref)

def demoStrings : List (ArrayCall Nat) :=
  [.pushBack 7, .pushBack 7, .concatSelf, .insert 9 1, .erase 0 2, .resize 9, .popBack, .clear]

theorem array_refines_strings :
    Coupled Represents (runArray strings sixteen demoStrings utarrayInit)
      (runList strings sixteen demoStrings ([], 0)) :=
  array_refines strings sixteen demoStrings (by decide)

end Refinement

end LcClibs.Slots.Sequences
