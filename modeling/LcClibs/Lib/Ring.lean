import Mathlib

namespace LcClibs.Lib.Ring

/-- The place before a place in a ring of `n`; the first one is preceded by the last. -/
def prev (n k : Nat) : Nat := if k = 0 then n - 1 else k - 1

def stop (n s i : Nat) : Nat := if i ≤ s then s - i else s + n - i

variable {n s i j k : Nat}

theorem stop_lt (hs : s < n) (hi : i ≤ n) : stop n s i < n := by
  unfold stop
  split_ifs
  · omega
  · omega

@[simp] theorem stop_zero (n s : Nat) : stop n s 0 = s := by
  rw [stop, if_pos (Nat.zero_le s), Nat.sub_zero]

@[simp] theorem stop_full (hs : s < n) : stop n s n = s := by
  rw [stop, if_neg (by omega), Nat.add_sub_cancel]

theorem prev_stop (hi : i < n) : prev n (stop n s i) = stop n s (i + 1) := by
  unfold prev stop
  split_ifs <;> omega

theorem prev_self (hs : s < n) : prev n s = stop n s 1 := by
  rw [← prev_stop (by omega : 0 < n), stop_zero]

theorem stop_ne (h0 : 0 < i) (hi : i < n) : stop n s i ≠ s := by
  unfold stop
  split_ifs
  · omega
  · omega

theorem stop_inj (hi : 0 < i ∧ i ≤ n) (hj : 0 < j ∧ j ≤ n)
    (h : stop n s i = stop n s j) : i = j := by
  unfold stop at h
  split_ifs at h <;> omega

theorem exists_stop (hs : s < n) (hk : k < n) : ∃ i, 0 < i ∧ i ≤ n ∧ stop n s i = k := by
  by_cases hks : k < s
  · refine ⟨s - k, by omega, by omega, ?_⟩
    rw [stop, if_pos (by omega)]
    omega
  · refine ⟨s + n - k, by omega, by omega, ?_⟩
    rw [stop, if_neg (by omega)]
    omega

def places (n s i d : Nat) : List Nat := (List.range' i d).map (stop n s)

theorem places_succ (n s i d : Nat) :
    places n s i (d + 1) = stop n s i :: places n s (i + 1) d := by
  rw [places, List.range'_succ, List.map_cons]
  rfl

theorem mem_places : k ∈ places n s i j ↔ ∃ m, i ≤ m ∧ m < i + j ∧ stop n s m = k := by
  simp only [places, List.mem_map, List.mem_range'_1, and_assoc]

theorem places_nodup (h0 : 0 < i) (hij : i + j ≤ n + 1) : (places n s i j).Nodup := by
  refine List.Nodup.map_on (fun a ha b hb h => ?_) List.nodup_range'
  rw [List.mem_range'_1] at ha hb
  exact stop_inj ⟨by omega, by omega⟩ ⟨by omega, by omega⟩ h

theorem places_round (hs : s < n) : places n s 1 n = places n s 1 (n - 1) ++ [s] := by
  obtain ⟨m, rfl⟩ : ∃ m, n = m + 1 := ⟨n - 1, by omega⟩
  rw [places, List.range'_1_concat, List.map_append, List.map_singleton, Nat.add_comm 1 m,
    stop_full hs]
  rfl

theorem self_notMem_places (hs : s < n) : s ∉ places n s 1 (n - 1) := by
  intro h
  obtain ⟨m, h1, h2, hm⟩ := mem_places.mp h
  exact stop_ne (by omega) (by omega) hm

/-- From the starting place on, a part of a round repeats no place but, at its very end,
the first. -/
theorem round_nodup (hs : s < n) {l : List Nat} (h : l <+: places n s 1 n) :
    (s :: l).Nodup ∨ ∃ tour, s :: l = tour ++ [s] ∧ tour.Nodup := by
  have hnodup : (s :: places n s 1 (n - 1)).Nodup :=
    List.nodup_cons.mpr ⟨self_notMem_places hs, places_nodup Nat.one_pos (by omega)⟩
  rw [places_round hs] at h
  obtain rfl | hpre := List.prefix_concat_iff.mp h
  · exact .inr ⟨s :: places n s 1 (n - 1), rfl, hnodup⟩
  · exact .inl (hnodup.sublist (hpre.sublist.cons_cons s))

end LcClibs.Lib.Ring
