import Mathlib
import LcClibs.Lib.Table

namespace LcClibs.Lib.LastAdd

variable {K V : Type}

inductive Call (K V : Type)
  | add (k : K) (v : V)
  | remove (k : K)
  deriving DecidableEq, Repr

def Call.key : Call K V → K
  | add k _ | remove k => k

/-- A value was the last one added under a key, which has not been removed since. -/
def Stands (calls : List (Call K V)) (k : K) (v : V) : Prop :=
  ∃ before later, calls = before ++ .add k v :: later ∧ ∀ c ∈ later, c.key ≠ k

variable {calls : List (Call K V)} {k : K} {v : V}

theorem stands_cons {c : Call K V} : Stands (c :: calls) k v ↔
    (c = .add k v ∧ ∀ d ∈ calls, d.key ≠ k) ∨ Stands calls k v := by
  constructor
  · rintro ⟨before, later, h, hlater⟩
    cases before with
    | nil =>
      obtain ⟨rfl, rfl⟩ := List.cons.inj h
      exact Or.inl ⟨rfl, hlater⟩
    | cons d before =>
      obtain ⟨-, rfl⟩ := List.cons.inj h
      exact Or.inr ⟨before, later, rfl, hlater⟩
  · rintro (⟨rfl, hlater⟩ | ⟨before, later, rfl, hlater⟩)
    · exact ⟨[], calls, rfl, hlater⟩
    · exact ⟨c :: before, later, rfl, hlater⟩

variable [DecidableEq K]

/-- The adds that no later call has undone, in the order in which they were made. -/
def survivors : List (Call K V) → List (K × V)
  | [] => []
  | .add k v :: later =>
    if ∀ c ∈ later, c.key ≠ k then (k, v) :: survivors later else survivors later
  | .remove _ :: later => survivors later

/-- One more call undoes what was added under its key. -/
theorem survivors_append (calls : List (Call K V)) (c : Call K V) :
    survivors (calls ++ [c]) = Table.del Prod.fst c.key (survivors calls) ++ survivors [c] := by
  induction calls with
  | nil => rfl
  | cons d calls ih =>
    cases d with
    | remove l => exact ih
    | add l w =>
      rw [List.cons_append, survivors, survivors, ih]
      have hiff : (∀ d ∈ calls ++ [c], d.key ≠ l) ↔ (∀ d ∈ calls, d.key ≠ l) ∧ c.key ≠ l := by
        simp only [List.forall_mem_append, List.forall_mem_singleton]
      simp only [hiff]
      by_cases hlater : ∀ d ∈ calls, d.key ≠ l
      · by_cases hcl : c.key = l
        · rw [if_neg fun h => h.2 hcl, if_pos hlater, Table.del, Table.del,
            List.filter_cons_of_neg (by simp [hcl])]
        · rw [if_pos ⟨hlater, hcl⟩, if_pos hlater, Table.del, Table.del,
            List.filter_cons_of_pos (by simpa using Ne.symm hcl), List.cons_append]
      · rw [if_neg hlater, if_neg fun h => hlater h.1]

theorem survivors_add (calls : List (Call K V)) (k : K) (v : V) :
    survivors (calls ++ [.add k v]) = Table.del Prod.fst k (survivors calls) ++ [(k, v)] := by
  rw [survivors_append]
  simp [survivors, Call.key]

theorem survivors_remove (calls : List (Call K V)) (k : K) :
    survivors (calls ++ [.remove k]) = Table.del Prod.fst k (survivors calls) := by
  rw [survivors_append]
  simp [survivors, Call.key]

theorem mem_survivors : (k, v) ∈ survivors calls ↔ Stands calls k v := by
  induction calls with
  | nil => simp [survivors, Stands]
  | cons c calls ih =>
    rw [stands_cons, ← ih]
    cases c with
    | remove l => simp [survivors]
    | add l w =>
      rw [survivors]
      by_cases hlater : ∀ c ∈ calls, c.key ≠ l
      · rw [if_pos hlater, List.mem_cons]
        refine or_congr_left ⟨fun h => ?_, fun h => ?_⟩
        · obtain ⟨rfl, rfl⟩ := Prod.mk.inj h
          exact ⟨rfl, hlater⟩
        · obtain ⟨rfl, rfl⟩ := Call.add.inj h.1
          rfl
      · rw [if_neg hlater]
        refine ⟨Or.inr, fun h => h.resolve_left ?_⟩
        rintro ⟨he, hk⟩
        obtain ⟨rfl, rfl⟩ := Call.add.inj he
        exact hlater hk

theorem exists_call_of_mem {x : K × V} (h : x ∈ survivors calls) : ∃ c ∈ calls, c.key = x.1 := by
  obtain ⟨before, later, rfl, -⟩ := mem_survivors.mp h
  exact ⟨.add x.1 x.2, by simp, rfl⟩

theorem survivors_keys_nodup (calls : List (Call K V)) :
    ((survivors calls).map Prod.fst).Nodup := by
  induction calls with
  | nil => exact List.nodup_nil
  | cons c calls ih =>
    cases c with
    | remove l => exact ih
    | add l w =>
      rw [survivors]
      by_cases hlater : ∀ c ∈ calls, c.key ≠ l
      · rw [if_pos hlater, List.map_cons]
        refine List.nodup_cons.mpr ⟨fun hmem => ?_, ih⟩
        obtain ⟨x, hx, rfl⟩ := List.mem_map.mp hmem
        obtain ⟨c, hc, hkey⟩ := exists_call_of_mem hx
        exact hlater c hc hkey
      · rw [if_neg hlater]
        exact ih

/-- Looking a key up gives what stands under it. -/
theorem find_survivors : Table.find Prod.fst k (survivors calls) = some (k, v) ↔
    Stands calls k v := by
  rw [← mem_survivors]
  refine ⟨fun h => (Table.find_some h).1, fun hmem => ?_⟩
  cases hf : Table.find Prod.fst k (survivors calls) with
  | none => exact absurd rfl (Table.find_eq_none.mp hf (k, v) hmem)
  | some x =>
    obtain ⟨hx, hk⟩ := Table.find_some hf
    rw [List.inj_on_of_nodup_map (survivors_keys_nodup calls) hx hmem hk]

end LcClibs.Lib.LastAdd
