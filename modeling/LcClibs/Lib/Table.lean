import Mathlib

namespace LcClibs.Lib.Table

variable {α β κ : Type} [DecidableEq κ] (key : α → κ)

/-- A hash table that keeps the order of insertion, as the list of its entries. -/
def find (k : κ) (t : List α) : Option α := t.find? fun x => key x = k

def del (k : κ) (t : List α) : List α := t.filter fun x => key x ≠ k

/-- An entry under a key already present takes the place of the old one, at the end. -/
def put (x : α) (t : List α) : List α :=
  if (find key (key x) t).isSome then del key (key x) t ++ [x] else t ++ [x]

variable {key}

theorem find_some {k : κ} {t : List α} {x : α} (h : find key k t = some x) :
    x ∈ t ∧ key x = k :=
  ⟨List.mem_of_find?_eq_some h, by simpa using List.find?_some h⟩

theorem find_eq_none {k : κ} {t : List α} : find key k t = none ↔ ∀ x ∈ t, key x ≠ k := by
  simp [find]

@[simp] theorem find_nil (k : κ) : find key k ([] : List α) = none := rfl

theorem find_append (k : κ) (s t : List α) :
    find key k (s ++ t) = (find key k s).or (find key k t) := by
  simp [find]

theorem find_singleton (k : κ) (x : α) :
    find key k [x] = if key x = k then some x else none := by
  by_cases h : key x = k <;> simp [find, h]

theorem del_of_find_none {k : κ} {t : List α} (h : find key k t = none) : del key k t = t := by
  rw [del, List.filter_eq_self]
  intro x hx
  simpa using find_eq_none.mp h x hx

theorem put_eq (x : α) (t : List α) : put key x t = del key (key x) t ++ [x] := by
  unfold put
  split_ifs with h
  · rfl
  · rw [del_of_find_none (by simpa using h)]

theorem find_del_self (k : κ) (t : List α) : find key k (del key k t) = none := by
  rw [find_eq_none]
  intro x hx
  simpa using (List.mem_filter.mp hx).2

theorem find_del_ne {k l : κ} (hkl : l ≠ k) (t : List α) :
    find key l (del key k t) = find key l t := by
  rw [find, del, List.find?_filter]
  congr 1
  funext x
  by_cases hx : key x = l <;> simp [hx, hkl]

@[simp] theorem find_put_self (x : α) (t : List α) : find key (key x) (put key x t) = some x := by
  rw [put_eq, find_append, find_del_self, find_singleton, if_pos rfl]
  rfl

theorem find_put_ne {k : κ} {x : α} (h : key x ≠ k) (t : List α) :
    find key k (put key x t) = find key k t := by
  rw [put_eq, find_append, find_del_ne (Ne.symm h), find_singleton, if_neg h, Option.or_none]

theorem mem_put {x y : α} {t : List α} (h : y ∈ put key x t) : y = x ∨ y ∈ t := by
  rw [put_eq, List.mem_append, List.mem_singleton] at h
  obtain h | h := h
  · exact .inr (List.mem_filter.mp h).1
  · exact .inl h

section Map

variable {β : Type} {key' : β → κ}

theorem find_map (f : α → β) (h : ∀ x, key' (f x) = key x) (k : κ) (t : List α) :
    find key' k (t.map f) = (find key k t).map f := by
  rw [find, find, List.find?_map]
  congr 2
  funext x
  simp [h]

/-- What is kept besides the keys does not matter to the table. -/
theorem put_map (f : α → β) (h : ∀ x, key' (f x) = key x) (x : α) (t : List α) :
    (put key x t).map f = put key' (f x) (t.map f) := by
  rw [put_eq, put_eq, List.map_append, List.map_singleton, h, del, del, List.filter_map]
  congr 3
  funext y
  simp [h]

end Map

theorem find_zipIdx [DecidableEq α] [BEq α] [LawfulBEq α] {t : List α} {x : α} (hx : x ∈ t) :
    find Prod.fst x t.zipIdx = some (x, t.idxOf x) := by
  have hgen : ∀ n, find Prod.fst x (t.zipIdx n) = some (x, t.idxOf x + n) := by
    induction t with
    | nil => simp at hx
    | cons y t ih =>
      intro n
      rw [List.zipIdx_cons, find, List.find?_cons]
      by_cases hy : y = x
      · subst hy
        simp
      · have ht : x ∈ t := by simpa [Ne.symm hy] using hx
        have h := ih ht (n + 1)
        rw [find] at h
        simp only [hy, decide_false, h, List.idxOf_cons_ne _ hy]
        congr 2
        omega
  exact hgen 0

theorem find_zipIdx_none [DecidableEq α] {t : List α} {x : α} (hx : x ∉ t) :
    find Prod.fst x t.zipIdx = none := by
  rw [find_eq_none]
  rintro ⟨y, i⟩ hy rfl
  exact hx (List.fst_mem_of_mem_zipIdx hy)

/-- The inverse table: looking a number up gives the entry at that position. -/
theorem find_zipIdx_swap (t : List α) (i : Nat) :
    find Prod.fst i (t.zipIdx.map Prod.swap) = t[i]?.map fun x => (i, x) := by
  have hgen : ∀ n, find Prod.fst i ((t.zipIdx n).map Prod.swap) =
      if n ≤ i then t[i - n]?.map fun x => (i, x) else none := by
    induction t with
    | nil => simp [find]
    | cons y t ih =>
      intro n
      rw [List.zipIdx_cons, List.map_cons, find, List.find?_cons]
      have h := ih (n + 1)
      rw [find] at h
      by_cases hn : n = i
      · subst hn
        simp
      · simp only [Prod.fst_swap, hn, decide_false, h]
        by_cases hlt : n ≤ i
        · obtain ⟨d, rfl⟩ : ∃ d, i = n + 1 + d := ⟨i - (n + 1), by omega⟩
          rw [if_pos (by omega), if_pos hlt, Nat.add_sub_cancel_left,
            show n + 1 + d - n = d + 1 by omega, List.getElem?_cons_succ]
        · rw [if_neg (by omega), if_neg hlt]
  simpa using hgen 0

end LcClibs.Lib.Table
