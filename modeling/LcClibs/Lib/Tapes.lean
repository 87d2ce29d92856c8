import Mathlib

namespace LcClibs.Lib.Tapes

variable {α : Type}

/-- Cells with a position among them and a mark before it. -/
structure Tape (α : Type) where
  cells : List α
  position : Nat
  mark : Nat
  mark_le : mark ≤ position
  position_le : position ≤ cells.length
  deriving DecidableEq

abbrev TapeM (α β : Type) := StateT (Tape α) Option β

namespace Tape

section Moves

def blank : Tape α := ⟨[], 0, 0, le_rfl, le_rfl⟩

def full (cells : List α) : Tape α := ⟨cells, 0, 0, le_rfl, Nat.zero_le _⟩

def ahead (t : Tape α) : List α := t.cells.drop t.position

def advance (t : Tape α) (n : Nat) (h : t.position + n ≤ t.cells.length) : Tape α :=
  ⟨t.cells, t.position + n, t.mark, t.mark_le.trans (Nat.le_add_right _ _), h⟩

/-- The mark holds the position back. -/
def seek (t : Tape α) (n : Nat) (h : n ≤ t.cells.length) : Tape α :=
  ⟨t.cells, max t.mark n, t.mark, Nat.le_max_left _ _,
    Nat.max_le.mpr ⟨t.mark_le.trans t.position_le, h⟩⟩

def setMark (t : Tape α) : Tape α := ⟨t.cells, t.position, t.position, le_rfl, t.position_le⟩

def reset (t : Tape α) : Tape α :=
  ⟨t.cells, t.mark, t.mark, le_rfl, t.mark_le.trans t.position_le⟩

def rewind (t : Tape α) : Tape α := full t.cells

def flip (t : Tape α) : Tape α := full (t.cells.take t.position)

def compact (t : Tape α) : Tape α := full t.ahead

def truncate (t : Tape α) (n : Nat) (h : n ≤ t.cells.length) : Tape α where
  cells := t.cells.take n
  position := min t.position n
  mark := min t.mark n
  mark_le := min_le_min_right n t.mark_le
  position_le := (Nat.min_le_right _ _).trans_eq (List.length_take_of_le h).symm

def write (t : Tape α) (e : List α) : Tape α where
  cells := t.cells.take t.position ++ e ++ t.cells.drop (t.position + e.length)
  position := t.position + e.length
  mark := t.mark
  mark_le := t.mark_le.trans (Nat.le_add_right _ _)
  position_le := by
    rw [List.length_append, List.length_append, List.length_take_of_le t.position_le]
    exact Nat.le_add_right _ _

end Moves

section Readers

def take (n : Nat) : TapeM α (List α) := fun t =>
  if h : t.position + n ≤ t.cells.length then some (t.ahead.take n, t.advance n h) else none

def look (n : Nat) : TapeM α (List α) := fun t =>
  if t.position + n ≤ t.cells.length then some (t.ahead.take n, t) else none

/-- A word whose first cell tells its length, with all that is ahead. -/
def lookWord (width : α → Nat) : TapeM α (α × List α) := fun t =>
  match t.ahead with
  | [] => none
  | first :: r => if width first ≤ r.length + 1 then some ((first, r), t) else none

def takeWord (width : α → Nat) : TapeM α (α × List α) := do
  let word ← lookWord width
  let _ ← take (width word.1)
  return word

end Readers

section Lemmas

variable {t t' : Tape α} {e : List α} {n : Nat}

theorem length_ahead (t : Tape α) : t.ahead.length = t.cells.length - t.position :=
  List.length_drop

theorem take_some (h : take n t = some (e, t')) :
    e = t.ahead.take n ∧ ∃ hn : t.position + n ≤ t.cells.length, t' = t.advance n hn := by
  rw [take] at h
  split_ifs at h with hn
  cases h
  exact ⟨rfl, hn, rfl⟩

theorem look_some (h : look n t = some (e, t')) :
    e = t.ahead.take n ∧ t.position + n ≤ t.cells.length ∧ t' = t := by
  rw [look] at h
  split_ifs at h with hn
  cases h
  exact ⟨rfl, hn, rfl⟩

variable {width : α → Nat} {first : α} {r : List α}

theorem lookWord_some (h : lookWord width t = some ((first, r), t')) :
    t.ahead = first :: r ∧ width first ≤ r.length + 1 ∧ t' = t := by
  rw [lookWord] at h
  cases hc : t.ahead with
  | nil =>
    rw [hc] at h
    cases h
  | cons v l =>
    rw [hc] at h
    simp only at h
    split_ifs at h with hw
    cases h
    exact ⟨rfl, hw, rfl⟩

theorem takeWord_some (h : takeWord width t = some ((first, r), t')) :
    t.ahead = first :: r ∧ width first ≤ r.length + 1 ∧
      ∃ hn : t.position + width first ≤ t.cells.length, t' = t.advance (width first) hn := by
  obtain ⟨⟨⟨v, l⟩, t₁⟩, hlook, hrest⟩ := Option.bind_eq_some_iff.mp h
  obtain ⟨hahead, hw, rfl⟩ := lookWord_some hlook
  obtain ⟨⟨e, t₂⟩, htake, hpure⟩ := Option.bind_eq_some_iff.mp hrest
  obtain ⟨-, hn, rfl⟩ := take_some htake
  cases hpure
  exact ⟨hahead, hw, hn, rfl⟩

end Lemmas

end Tape

end LcClibs.Lib.Tapes
