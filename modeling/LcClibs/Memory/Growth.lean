import Mathlib
import LcClibs.Memory.Safety

namespace LcClibs.Memory.Growth

open Platform Lib.Runs Memory.Managed Memory.Safety

section Model

variable (malloc : Malloc) (pool : Pool) (originMem newSize : Nat)

/-- The pool after one of several owners has given up its ownership. -/
def givenUp (pool : Pool) (x : Record) : Pool :=
  if x.r > 0 then { pool with clock := pool.clock + 1 }.update x.serial
      fun x => { x with r := x.r - 1 }
  else { pool with clock := pool.clock + 1 }

inductive Refuses : Prop
  | record : malloc.record pool.clock = false → Refuses
  | memory : malloc.record pool.clock = true → platMemAllocate malloc pool newSize = none →
    Refuses

/-- What a call of `mgn_mem_ralloc` comes to, with all that has been tested by then. -/
inductive Outcome : Option Nat × Pool → Prop
  | nothing : newSize = 0 → Outcome (none, pool)
  | foreign : newSize ≠ 0 → pool.find originMem = none → originMem ≠ 0 → Outcome (none, pool)
  | fits {x : Record} : newSize ≠ 0 → pool.find originMem = some x → newSize ≤ x.s →
    Outcome (some x.m, pool)
  | lost {x : Record} : pool.find originMem = some x → x.s < newSize → x.r = 1 →
    platMemAllocate malloc pool newSize = none →
    Outcome (none, { pool with clock := pool.clock + 1 }.delete x.serial)
  | moved {x : Record} {a : Nat} {zeros bytes : List UInt8} : pool.find originMem = some x →
    x.s < newSize → x.r = 1 → platMemAllocate malloc pool newSize = some (a, zeros) →
    platMemCopy zeros x.bytes x.s = .ok bytes →
    Outcome (some a, (({ pool with clock := pool.clock + 1 }.delete x.serial).note
      [.freedMemory x.serial]).add { x with m := a, s := newSize, bytes := bytes })
  | left {x : Record} : pool.find originMem = some x → x.s < newSize → x.r ≠ 1 →
    Refuses malloc pool newSize → Outcome (none, givenUp pool x)
  | shared {x : Record} {a : Nat} {zeros bytes : List UInt8} : pool.find originMem = some x →
    x.s < newSize → x.r ≠ 1 → malloc.record pool.clock = true →
    platMemAllocate malloc pool newSize = some (a, zeros) →
    platMemCopy zeros x.bytes x.s = .ok bytes →
    Outcome (some a, (givenUp pool x).add (newRecord pool.clock a newSize bytes))
  | none : newSize ≠ 0 → pool.find originMem = none → originMem = 0 →
    Refuses malloc pool newSize → Outcome (none, { pool with clock := pool.clock + 1 })
  | block {a : Nat} {zeros : List UInt8} : newSize ≠ 0 → pool.find originMem = none →
    originMem = 0 → malloc.record pool.clock = true →
    platMemAllocate malloc pool newSize = some (a, zeros) →
    Outcome (some a, { pool with clock := pool.clock + 1 }.add
      (newRecord pool.clock a newSize zeros))

end Model

section Outcomes

variable {malloc : Malloc} {pool : Pool} {originMem newSize : Nat}

theorem copied_ok {dest src : List UInt8} {size : Nat} {α : Type} {f : List UInt8 → α} {r : α}
    (h : (do let bytes ← platMemCopy dest src size; return f bytes : Except Stop α) = .ok r) :
    ∃ bytes, platMemCopy dest src size = .ok bytes ∧ f bytes = r := by
  cases hc : platMemCopy dest src size with
  | error e =>
    rw [hc] at h
    cases h
  | ok bytes =>
    rw [bind_ok hc] at h
    exact ⟨bytes, rfl, Except.ok.inj h⟩

theorem outcome {r : Option Nat × Pool} (h : mgnMemRalloc malloc pool originMem newSize = .ok r) :
    Outcome malloc pool originMem newSize r := by
  unfold mgnMemRalloc at h
  dsimp only at h
  by_cases h0 : newSize = 0
  · rw [if_pos h0] at h
    cases h
    exact .nothing h0
  rw [if_neg h0] at h
  cases hf : pool.find originMem with
  | none =>
    rw [hf] at h
    by_cases hm : originMem ≠ 0
    · simp only [if_pos hm] at h
      cases h
      exact .foreign h0 hf hm
    · simp only [if_neg hm] at h
      have hm : originMem = 0 := not_ne_iff.mp hm
      cases hr : malloc.record pool.clock with
      | false =>
        simp only [hr, Bool.false_eq_true, if_false] at h
        cases h
        exact .none h0 hf hm (.record hr)
      | true =>
        simp only [hr, if_true] at h
        cases ha : platMemAllocate malloc pool newSize with
        | none =>
          rw [ha] at h
          cases h
          exact .none h0 hf hm (.memory hr ha)
        | some p =>
          rw [ha] at h
          cases h
          exact .block h0 hf hm hr ha
  | some x =>
    rw [hf] at h
    dsimp only at h
    by_cases hs : newSize > x.s
    · rw [if_pos hs] at h
      by_cases h1 : x.r = 1
      · rw [if_pos h1] at h
        cases ha : platMemAllocate malloc pool newSize with
        | none =>
          rw [ha] at h
          cases h
          exact .lost hf hs h1 ha
        | some p =>
          rw [ha] at h
          obtain ⟨bytes, hb, rfl⟩ := copied_ok h
          exact .moved hf hs h1 ha hb
      · rw [if_neg h1] at h
        cases hr : malloc.record pool.clock with
        | false =>
          simp only [hr, Bool.false_eq_true, if_false] at h
          cases h
          exact .left hf hs h1 (.record hr)
        | true =>
          simp only [hr, if_true] at h
          cases ha : platMemAllocate malloc pool newSize with
          | none =>
            rw [ha] at h
            cases h
            exact .left hf hs h1 (.memory hr ha)
          | some p =>
            rw [ha] at h
            obtain ⟨bytes, hb, rfl⟩ := copied_ok h
            exact .shared hf hs h1 hr ha hb
    · rw [if_neg hs] at h
      cases h
      exact .fits h0 hf (not_lt.mp hs)

theorem Refuses.not_given (h : Refuses malloc pool newSize) :
    ¬((platMemAllocate malloc pool newSize).isSome ∧ malloc.record pool.clock = true) := by
  rintro ⟨hsome, hrec⟩
  cases h with
  | record h => simp [h] at hrec
  | memory h h' => simp [h'] at hsome

end Outcomes

end LcClibs.Memory.Growth
