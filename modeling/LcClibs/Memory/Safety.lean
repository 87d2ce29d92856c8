import Mathlib
import LcClibs.Lib.Runs
import LcClibs.Memory.Managed

namespace LcClibs.Memory.Safety

open Platform Lib.Runs Memory.Managed

def eventSerial : Event → Nat
  | .callback n _ | .removed n _ _ | .freedMemory n | .freedRecord n => n

/-- A log in which every block is freed at most once, its callback runs at most
once and only while the block is in the pool, and no block is removed with a
positive retained count but in emptying the pool. -/
structure Safe (log : List Event) : Prop where
  callback_once : ∀ n, log.count (.callback n true) ≤ 1
  callback_in : ∀ n, .callback n false ∉ log
  memory_once : ∀ n, log.count (.freedMemory n) ≤ 1
  record_once : ∀ n, log.count (.freedRecord n) ≤ 1
  removed_zero : ∀ n r, .removed n r false ∈ log → r = 0

/-- What holds of a pool while the callbacks of the blocks in `D` run: these stay
in the pool with count zero, and no other block in the pool has been called. -/
structure Inv (D : Set Nat) (pool : Pool) : Prop where
  serials_nodup : pool.serials.Nodup
  live_nodup : pool.live.Nodup
  null_not_live : 0 ∉ pool.live
  serial_lt : ∀ n ∈ pool.serials, n < pool.clock
  log_lt : ∀ e ∈ pool.log, eventSerial e < pool.clock
  dying : ∀ n ∈ D, ∃ x ∈ pool.records, x.serial = n ∧ x.r = 0
  called : ∀ n ∈ pool.serials, n ∉ D → .callback n true ∉ pool.log
  kept : ∀ n ∈ pool.serials, .freedMemory n ∉ pool.log ∧ .freedRecord n ∉ pool.log
  safe : Safe pool.log

section Table

variable {D : Set Nat} {pool : Pool} {x y : Record} {n : Nat}

theorem find_some {mem : Nat} (h : pool.find mem = some x) :
    x ∈ pool.records ∧ x.m = mem :=
  ⟨List.mem_of_find?_eq_some h, by simpa using List.find?_some h⟩

theorem serial_mem (h : x ∈ pool.records) : x.serial ∈ pool.serials := List.mem_map_of_mem h

theorem Inv.eq_of_serial (h : Inv D pool) (hx : x ∈ pool.records) (hy : y ∈ pool.records)
    (he : x.serial = y.serial) : x = y :=
  List.inj_on_of_nodup_map h.serials_nodup hx hy he

theorem Inv.not_dying (h : Inv D pool) (hx : x ∈ pool.records) (h0 : x.r ≠ 0) :
    x.serial ∉ D := by
  intro hD
  obtain ⟨y, hy, hyx, hy0⟩ := h.dying _ hD
  rw [h.eq_of_serial hy hx hyx] at hy0
  exact h0 hy0

theorem Inv.find_of_mem (h : Inv D pool) (hx : x ∈ pool.records) : pool.find x.m = some x := by
  cases hf : pool.find x.m with
  | none =>
    have hn := List.find?_eq_none.mp hf x hx
    simp at hn
  | some y =>
    obtain ⟨hy, hm⟩ := find_some hf
    rw [List.inj_on_of_nodup_map h.live_nodup hy hx hm]

theorem find_serial (h : Inv D pool) (hx : x ∈ pool.records) :
    (pool.records.find? fun y => y.serial = x.serial) = some x := by
  cases hf : pool.records.find? fun y => y.serial = x.serial with
  | none =>
    have hn := List.find?_eq_none.mp hf x hx
    simp at hn
  | some y =>
    have hy := List.mem_of_find?_eq_some hf
    have he : y.serial = x.serial := by simpa using List.find?_some hf
    rw [h.eq_of_serial hy hx he]

theorem mem_delete : y ∈ (pool.delete n).records ↔ y ∈ pool.records ∧ y.serial ≠ n := by
  simp [Pool.delete]

theorem mem_serials_delete {k : Nat} :
    k ∈ (pool.delete n).serials ↔ k ∈ pool.serials ∧ k ≠ n := by
  simp only [Pool.serials, List.mem_map, mem_delete]
  constructor
  · rintro ⟨y, ⟨hy, hne⟩, rfl⟩
    exact ⟨⟨y, hy, rfl⟩, hne⟩
  · rintro ⟨⟨y, hy, rfl⟩, hne⟩
    exact ⟨y, ⟨hy, hne⟩, rfl⟩

theorem serials_update {f : Record → Record} (hs : ∀ x, (f x).serial = x.serial) :
    (pool.update n f).serials = pool.serials := by
  simp only [Pool.serials, Pool.update, List.map_map]
  apply List.map_congr_left
  intro y _
  by_cases he : y.serial = n <;> simp [he, hs]

theorem live_update {f : Record → Record} (hm : ∀ x, (f x).m = x.m) :
    (pool.update n f).live = pool.live := by
  simp only [Pool.live, Pool.update, List.map_map]
  apply List.map_congr_left
  intro y _
  by_cases he : y.serial = n <;> simp [he, hm]

theorem mem_update {f : Record → Record} (hx : x ∈ pool.records) (hn : x.serial = n) :
    f x ∈ (pool.update n f).records := by
  simp only [Pool.update, List.mem_map]
  exact ⟨x, hx, by rw [if_pos hn]⟩

theorem mem_update_of_ne {f : Record → Record} (hx : x ∈ pool.records) (hn : x.serial ≠ n) :
    x ∈ (pool.update n f).records := by
  simp only [Pool.update, List.mem_map]
  exact ⟨x, hx, by rw [if_neg hn]⟩

end Table

section Steps

variable {D : Set Nat} {pool : Pool} {x : Record} {n : Nat}

theorem Inv.update {f : Record → Record} (h : Inv D pool) (hs : ∀ x, (f x).serial = x.serial)
    (hm : ∀ x, (f x).m = x.m) (hn : n ∉ D) : Inv D (pool.update n f) where
  serials_nodup := by rw [serials_update hs]; exact h.serials_nodup
  live_nodup := by rw [live_update hm]; exact h.live_nodup
  null_not_live := by rw [live_update hm]; exact h.null_not_live
  serial_lt := by rw [serials_update hs]; exact h.serial_lt
  log_lt := h.log_lt
  dying k hk := by
    obtain ⟨y, hy, hyk, hy0⟩ := h.dying k hk
    refine ⟨y, mem_update_of_ne hy ?_, hyk, hy0⟩
    rintro rfl
    exact hn (hyk ▸ hk)
  called := by rw [serials_update hs]; exact h.called
  kept := by rw [serials_update hs]; exact h.kept
  safe := h.safe

theorem Inv.enter (h : Inv D pool) (hx : x ∈ pool.records) (h0 : x.r = 0) :
    Inv (insert x.serial D) pool where
  serials_nodup := h.serials_nodup
  live_nodup := h.live_nodup
  null_not_live := h.null_not_live
  serial_lt := h.serial_lt
  log_lt := h.log_lt
  dying k hk := by
    obtain rfl | hk := hk
    · exact ⟨x, hx, rfl, h0⟩
    · exact h.dying k hk
  called k hk hD := h.called k hk fun hk' => hD (Or.inr hk')
  kept := h.kept
  safe := h.safe

theorem Safe.callback {log : List Event} (h : Safe log) (hn : .callback n true ∉ log) :
    Safe (log ++ [.callback n true]) where
  callback_once k := by
    rw [List.count_append]
    by_cases hk : n = k
    · subst hk
      rw [List.count_eq_zero.mpr hn]
      simp
    · have hc := h.callback_once k
      simpa [List.count_singleton, hk] using hc
  callback_in k := by simpa using h.callback_in k
  memory_once k := by simpa [List.count_singleton] using h.memory_once k
  record_once k := by simpa [List.count_singleton] using h.record_once k
  removed_zero k r hk := h.removed_zero k r (by simpa using hk)

theorem Inv.callback (h : Inv D pool) (hx : x ∈ pool.records) (h0 : x.r = 0)
    (hn : x.serial ∉ D) :
    Inv (insert x.serial D) (pool.note [.callback x.serial (x.serial ∈ pool.serials)]) := by
  have hin : decide (x.serial ∈ pool.serials) = true := decide_eq_true (serial_mem hx)
  have hnot := h.called _ (serial_mem hx) hn
  have he := h.enter hx h0
  rw [hin]
  exact
    { serials_nodup := h.serials_nodup
      live_nodup := h.live_nodup
      null_not_live := h.null_not_live
      serial_lt := h.serial_lt
      log_lt := fun e hmem => by
        obtain hmem | hmem := List.mem_append.mp hmem
        · exact h.log_lt e hmem
        · obtain rfl := List.mem_singleton.mp hmem
          exact h.serial_lt _ (serial_mem hx)
      dying := he.dying
      called := fun k hk hD hmem => by
        obtain hmem | hmem := List.mem_append.mp hmem
        · exact he.called k hk hD hmem
        · have hk' : k = x.serial := by simpa using hmem
          exact hD (Or.inl hk')
      kept := fun k hk => by
        have hkept := h.kept k hk
        simpa [Pool.note] using hkept
      safe := h.safe.callback hnot }

theorem Safe.free {log : List Event} {r : Nat} {emptying : Bool} (h : Safe log)
    (hm : .freedMemory n ∉ log) (hr : .freedRecord n ∉ log) (h0 : emptying = false → r = 0) :
    Safe (log ++ [.removed n r emptying, .freedMemory n, .freedRecord n]) where
  callback_once k := by simpa [List.count_cons] using h.callback_once k
  callback_in k := by simpa using h.callback_in k
  memory_once k := by
    rw [List.count_append]
    by_cases hk : n = k
    · subst hk
      rw [List.count_eq_zero.mpr hm]
      simp
    · simpa [List.count_cons, hk] using h.memory_once k
  record_once k := by
    rw [List.count_append]
    by_cases hk : n = k
    · subst hk
      rw [List.count_eq_zero.mpr hr]
      simp
    · simpa [List.count_cons, hk] using h.record_once k
  removed_zero k r' hk := by
    obtain hk | hk := List.mem_append.mp hk
    · exact h.removed_zero k r' hk
    · simp only [List.mem_cons, Event.removed.injEq, reduceCtorEq, List.not_mem_nil, or_false] at hk
      obtain ⟨-, rfl, rfl⟩ := hk
      exact h0 rfl

theorem Inv.free {emptying : Bool} (h : Inv D pool) (hx : x ∈ pool.records)
    (h0 : emptying = false → x.r = 0) :
    ∃ pool', pool.free x.serial emptying = .ok pool' ∧ Inv (D \ {x.serial}) pool' ∧
      pool'.records = (pool.delete x.serial).records := by
  have hkept := h.kept _ (serial_mem hx)
  refine ⟨(pool.delete x.serial).note
    [.removed x.serial x.r emptying, .freedMemory x.serial, .freedRecord x.serial],
    by rw [Pool.free, find_serial h hx], ?_, rfl⟩
  have hsub : (pool.delete x.serial).records.Sublist pool.records := List.filter_sublist
  exact
    { serials_nodup := (hsub.map _).nodup h.serials_nodup
      live_nodup := (hsub.map _).nodup h.live_nodup
      null_not_live := fun h0 => h.null_not_live ((hsub.map _).subset h0)
      serial_lt := fun k hk => h.serial_lt k (mem_serials_delete.mp hk).1
      log_lt := fun e hmem => by
        obtain hmem | hmem := List.mem_append.mp hmem
        · exact h.log_lt e hmem
        · have hs : eventSerial e = x.serial := by
            obtain rfl | hmem := List.mem_cons.mp hmem
            · rfl
            · obtain rfl | hmem := List.mem_cons.mp hmem
              · rfl
              · obtain rfl := List.mem_singleton.mp hmem
                rfl
          rw [hs]
          exact h.serial_lt _ (serial_mem hx)
      dying := fun k hk => by
        obtain ⟨y, hy, hyk, hy0⟩ := h.dying k hk.1
        exact ⟨y, mem_delete.mpr ⟨hy, by rw [hyk]; exact hk.2⟩, hyk, hy0⟩
      called := fun k hk hD hmem => by
        obtain ⟨hk1, hk2⟩ := mem_serials_delete.mp hk
        refine h.called k hk1 (fun hkD => hD ⟨hkD, hk2⟩) ?_
        simpa [Pool.note, Pool.delete] using hmem
      kept := fun k hk => by
        obtain ⟨hk1, hk2⟩ := mem_serials_delete.mp hk
        have hold := h.kept k hk1
        simpa [Pool.note, Pool.delete, hk2] using hold
      safe := h.safe.free hkept.1 hkept.2 h0 }

end Steps

section Measures

variable {D : Set Nat} {pool : Pool} {x : Record} {n : Nat}

theorem length_update (f : Record → Record) :
    (pool.update n f).records.length = pool.records.length := by
  simp [Pool.update]

/-- Taking one ownership away makes the sum of the counts smaller. -/
theorem retained_release (hx : x ∈ pool.records) (h0 : x.r ≠ 0) (cb : Bool) :
    (pool.update x.serial fun y => { y with r := y.r - 1, cb := cb }).retained <
      pool.retained := by
  simp only [Pool.retained, Pool.update, List.map_map]
  apply List.sum_lt_sum
  · intro y _
    by_cases he : y.serial = x.serial <;> simp [he]
  · refine ⟨x, hx, ?_⟩
    simp only [Function.comp_apply, if_true]
    omega

theorem retained_delete : (pool.delete n).retained ≤ pool.retained := by
  have hsub : (pool.delete n).records.Sublist pool.records := List.filter_sublist
  exact (hsub.map _).sum_le_sum fun _ _ => Nat.zero_le _

theorem length_delete_lt (hx : x ∈ pool.records) :
    (pool.delete x.serial).records.length < pool.records.length := by
  apply List.length_filter_lt_length_iff_exists.mpr
  exact ⟨x, hx, by simp⟩

end Measures

section Release

/-- What a release leaves: the invariant, and no more ownerships or blocks than before. -/
structure Released (D : Set Nat) (pool pool' : Pool) : Prop where
  inv : Inv D pool'
  retained_le : pool'.retained ≤ pool.retained
  length_le : pool'.records.length ≤ pool.records.length

theorem Released.refl {D : Set Nat} {pool : Pool} (h : Inv D pool) : Released D pool pool :=
  ⟨h, le_rfl, le_rfl⟩

theorem Released.trans {D D' : Set Nat} {p p' p'' : Pool} (h : Released D p p')
    (h' : Released D' p' p'') : Released D' p p'' :=
  ⟨h'.inv, h'.retained_le.trans h.retained_le, h'.length_le.trans h.length_le⟩

variable {owned : Nat → List Nat} {D : Set Nat} {pool : Pool}

theorem free_released {n : Nat} (h : Inv (insert n D) pool) (hn : n ∉ D) :
    ∃ pool', pool.free n false = .ok pool' ∧ Released D pool pool' ∧
      pool'.records.length < pool.records.length := by
  obtain ⟨x, hx, rfl, h0⟩ := h.dying n (Or.inl rfl)
  obtain ⟨pool', hf, hinv, hrec⟩ := h.free hx fun _ => h0
  rw [Set.insert_sdiff_self_of_notMem hn] at hinv
  have hret : pool'.retained ≤ pool.retained := by
    rw [Pool.retained, hrec]
    exact retained_delete
  have hlen := length_delete_lt hx
  rw [← hrec] at hlen
  exact ⟨pool', hf, ⟨hinv, hret, hlen.le⟩, hlen⟩

theorem foldlM_released {f : Pool → Nat → Except Stop Pool} {mems : List Nat}
    (h : Inv D pool)
    (hf : ∀ p, Released D pool p → ∀ mem, ∃ p', f p mem = .ok p' ∧ Released D p p') :
    ∃ pool', mems.foldlM f pool = .ok pool' ∧ Released D pool pool' :=
  foldlM_invariant (Released D pool) mems
    (fun p hp mem _ => by
      obtain ⟨p', he, hr⟩ := hf p hp mem
      exact ⟨p', he, hp.trans hr⟩)
    (Released.refl h)

/-- A release ends, whatever the ownership graph: a nested one that reaches a
callback has taken an ownership away. -/
theorem mgnMemReleaseImpl_released (fuel : Nat) (mem : Nat) (release cb : Bool)
    (h : Inv D pool) (hfuel : pool.retained < fuel) :
    ∃ pool', mgnMemReleaseImpl owned fuel mem release cb pool = .ok pool' ∧
      Released D pool pool' := by
  induction fuel generalizing D pool mem release cb with
  | zero => omega
  | succ fuel ih =>
    rw [mgnMemReleaseImpl]
    cases hf : pool.find mem with
    | none => exact ⟨pool, rfl, Released.refl h⟩
    | some x =>
      obtain ⟨hx, rfl⟩ := find_some hf
      by_cases h0 : x.r = 0
      · exact ⟨pool, by simp only [if_pos h0], Released.refl h⟩
      · have hnD := h.not_dying hx h0
        have h1 : Inv D (pool.update x.serial fun y => { y with r := y.r - 1, cb := cb }) :=
          h.update (fun _ => rfl) (fun _ => rfl) hnD
        obtain ⟨x1, hx1, hs1, hr1⟩ : ∃ x1 ∈ (pool.update x.serial
            fun y => { y with r := y.r - 1, cb := cb }).records,
            x1.serial = x.serial ∧ x1.r = x.r - 1 := ⟨_, mem_update hx rfl, rfl, rfl⟩
        have hret := retained_release hx h0 cb
        have hlen : (pool.update x.serial
            fun y => { y with r := y.r - 1, cb := cb }).records.length = pool.records.length :=
          length_update _
        simp only [if_neg h0]
        generalize (pool.update x.serial fun y => { y with r := y.r - 1, cb := cb }) = pool1 at *
        have hback : ∀ {D' pool'}, Released D' pool1 pool' → Released D' pool pool' := fun hr =>
          ⟨hr.inv, hr.retained_le.trans hret.le, hr.length_le.trans hlen.le⟩
        by_cases hdie : x.r - 1 = 0 ∧ release = true
        · simp only [if_pos hdie]
          have hx0 : x1.r = 0 := hr1.trans hdie.1
          cases cb with
          | false =>
            have h2 := h1.enter hx1 hx0
            rw [hs1] at h2
            obtain ⟨pool', hfree, hr, -⟩ := free_released h2 hnD
            exact ⟨pool', hfree, hback hr⟩
          | true =>
            have h2 := h1.callback hx1 hx0 (by rw [hs1]; exact hnD)
            rw [hs1] at h2
            have hnest : ∀ p : Pool, p.retained ≤ pool1.retained → p.retained < fuel := by
              intro p hp
              omega
            obtain ⟨pool2, hrun, hr2⟩ := foldlM_released h2 fun p hp mem =>
              ih mem true true hp.inv (hnest p hp.retained_le)
            have hsame : Released _ pool1 pool2 := ⟨hr2.inv, hr2.retained_le, hr2.length_le⟩
            obtain ⟨pool', hfree, hr, -⟩ := free_released hr2.inv hnD
            refine ⟨pool', ?_, hback (hsame.trans hr)⟩
            simp only [if_true]
            rw [bind_ok hrun, hfree]
        · exact ⟨pool1, by simp only [if_neg hdie]; rfl, hback (Released.refl h1)⟩

theorem mgnMemReleaseWCb_released (mem : Nat) (h : Inv D pool) :
    ∃ pool', mgnMemReleaseWCb owned pool mem = .ok pool' ∧ Released D pool pool' :=
  mgnMemReleaseImpl_released _ mem true true h (Nat.lt_succ_self _)

theorem mgnMemAutoreleaseWCb_released (mem : Nat) (h : Inv D pool) :
    ∃ pool', mgnMemAutoreleaseWCb owned pool mem = .ok pool' ∧ Released D pool pool' :=
  mgnMemReleaseImpl_released _ mem false true h (Nat.lt_succ_self _)

theorem mgnMemReleaseImpl_unchanged {mem : Nat} (release cb : Bool)
    (h : ∀ x, pool.find mem = some x → x.r = 0) (fuel : Nat) :
    mgnMemReleaseImpl owned (fuel + 1) mem release cb pool = .ok pool := by
  rw [mgnMemReleaseImpl]
  cases hf : pool.find mem with
  | none => rfl
  | some x => simp only [if_pos (h x hf)]

/-- One round of the sweep frees its block if the count is zero still. -/
theorem sweep_released (mem : Nat) (h : Inv ∅ pool) :
    ∃ pool', sweep owned pool mem = .ok pool' ∧ Released ∅ pool pool' ∧
      ((∃ x, pool.find mem = some x ∧ x.r = 0) →
        pool'.records.length < pool.records.length) := by
  rw [sweep]
  cases hf : pool.find mem with
  | none => exact ⟨pool, rfl, Released.refl h, fun ⟨x, hx, _⟩ => by cases hx⟩
  | some x =>
    obtain ⟨hx, rfl⟩ := find_some hf
    by_cases h0 : x.r = 0
    · simp only [if_pos h0]
      have hn : x.serial ∉ (∅ : Set Nat) := Set.notMem_empty _
      cases hcb : x.cb with
      | false =>
        obtain ⟨pool', hfree, hr, hlen⟩ := free_released (h.enter hx h0) hn
        exact ⟨pool', hfree, hr, fun _ => hlen⟩
      | true =>
        obtain ⟨pool2, hrun, hr2⟩ : ∃ pool2, callback owned pool x.serial = .ok pool2 ∧ _ :=
          foldlM_released (h.callback hx h0 hn) fun p hp mem =>
            mgnMemReleaseWCb_released mem hp.inv
        have hsame : Released _ pool pool2 := ⟨hr2.inv, hr2.retained_le, hr2.length_le⟩
        obtain ⟨pool', hfree, hr, hlen⟩ := free_released hr2.inv hn
        refine ⟨pool', ?_, hsame.trans hr, fun _ => hlen.trans_le hsame.length_le⟩
        simp only [if_true]
        rw [bind_ok hrun, hfree]
    · refine ⟨pool, by simp only [if_neg h0], Released.refl h, ?_⟩
      rintro ⟨y, hy, hy0⟩
      obtain rfl := Option.some.inj hy
      exact absurd hy0 h0

/-- A full batch frees at least the first of its blocks. -/
theorem batch_released (h : Inv ∅ pool) :
    ∃ pool', (unusedBatch pool).foldlM (sweep owned) pool = .ok pool' ∧ Released ∅ pool pool' ∧
      (unusedBatch pool ≠ [] → pool'.records.length < pool.records.length) := by
  have hmem : ∀ mem ∈ unusedBatch pool, ∃ x, pool.find mem = some x ∧ x.r = 0 := by
    intro mem hm
    obtain ⟨x, hx, rfl⟩ := List.mem_map.mp (List.mem_of_mem_take hm)
    obtain ⟨hx, h0⟩ := List.mem_filter.mp hx
    exact ⟨x, h.find_of_mem hx, by simpa using h0⟩
  cases hb : unusedBatch pool with
  | nil => exact ⟨pool, rfl, Released.refl h, fun hne => absurd rfl hne⟩
  | cons mem mems =>
    obtain ⟨p1, h1, hr1, hlt⟩ : ∃ p1, sweep owned pool mem = .ok p1 ∧ Released ∅ pool p1 ∧ _ :=
      sweep_released mem h
    obtain ⟨p2, h2, hr2⟩ : ∃ p2, mems.foldlM (sweep owned) p1 = .ok p2 ∧ Released ∅ p1 p2 :=
      foldlM_released hr1.inv fun p hp mem => by
        obtain ⟨p', hs, hr, -⟩ := sweep_released mem hp.inv
        exact ⟨p', hs, hr⟩
    refine ⟨p2, by rw [List.foldlM_cons, bind_ok h1, h2], hr1.trans hr2, fun _ => ?_⟩
    exact lt_of_le_of_lt hr2.length_le (hlt (hmem mem (by rw [hb]; exact List.mem_cons_self)))

theorem releaseUnusedLoop_released (fuel : Nat) (h : Inv ∅ pool)
    (hfuel : pool.records.length < fuel) :
    ∃ pool', releaseUnusedLoop owned fuel pool = .ok pool' ∧ Released ∅ pool pool' := by
  induction fuel generalizing pool with
  | zero => omega
  | succ fuel ih =>
    obtain ⟨p1, h1, hr1, hlt⟩ :
        ∃ p1, (unusedBatch pool).foldlM (sweep owned) pool = .ok p1 ∧ Released ∅ pool p1 ∧ _ :=
      batch_released h
    simp only [releaseUnusedLoop]
    rw [bind_ok h1]
    by_cases hfull : (unusedBatch pool).length ≥ batchSize
    · have hne : unusedBatch pool ≠ [] := by
        intro he
        rw [he] at hfull
        exact absurd hfull (by decide)
      obtain ⟨p2, h2, hr2⟩ := ih hr1.inv (by have := hlt hne; omega)
      exact ⟨p2, by rw [if_pos hfull, h2], hr1.trans hr2⟩
    · exact ⟨p1, by rw [if_neg hfull]; rfl, hr1⟩

theorem mgnMemReleaseAll_inv (h : Inv ∅ pool) :
    ∃ pool', mgnMemReleaseAll pool = .ok pool' ∧ Inv ∅ pool' ∧ pool'.records = [] := by
  have hgo : ∀ serials : List Nat, ∀ p : Pool, Inv ∅ p → p.serials = serials →
      ∃ p', serials.foldlM (fun pool serial => pool.free serial true) p = .ok p' ∧ Inv ∅ p' ∧
        p'.records = [] := by
    intro serials
    induction serials with
    | nil => exact fun p hp hs => ⟨p, rfl, hp, by simpa [Pool.serials] using hs⟩
    | cons n serials ih =>
      intro p hp hs
      have hn : n ∈ p.serials := by rw [hs]; exact List.mem_cons_self
      obtain ⟨x, hx, rfl⟩ := List.mem_map.mp hn
      obtain ⟨p1, h1, hinv, hrec⟩ : ∃ p1, p.free x.serial true = .ok p1 ∧ _ :=
        hp.free hx fun he => by cases he
      rw [Set.empty_sdiff] at hinv
      have hs1 : p1.serials = serials := by
        have hnd := hp.serials_nodup
        rw [hs, List.nodup_cons] at hnd
        have hfil : p1.serials = p.serials.filter fun k => k ≠ x.serial := by
          simp only [Pool.serials, hrec, Pool.delete, List.filter_map]
          rfl
        rw [hfil, hs, List.filter_cons_of_neg (by simp), List.filter_eq_self]
        intro k hk
        simp only [ne_eq, decide_eq_true_eq]
        rintro rfl
        exact hnd.1 hk
      obtain ⟨p2, h2, hinv2, hempty⟩ := ih p1 hinv hs1
      exact ⟨p2, by rw [List.foldlM_cons, bind_ok h1, h2], hinv2, hempty⟩
  exact hgo _ pool h rfl

end Release

section Lasting

structure Lasting (R : Pool → Pool → Prop) : Prop where
  refl : ∀ p, R p p
  trans : ∀ {p p' p''}, R p p' → R p' p'' → R p p''
  giveUp : ∀ (p : Pool) n cb, R p (p.update n fun x => { x with r := x.r - 1, cb := cb })
  note : ∀ (p : Pool) events, R p (p.note events)
  free : ∀ {p p' : Pool} {n emptying}, p.free n emptying = .ok p' → R p p'

variable {R : Pool → Pool → Prop} {owned : Nat → List Nat} {pool p p' : Pool}

theorem Lasting.foldlM {α : Type} {f : Pool → α → Except Stop Pool} {l : List α}
    (hR : Lasting R) (hf : ∀ a p p', f p a = .ok p' → R p p') (h : l.foldlM f pool = .ok p) :
    R pool p := by
  induction l generalizing pool with
  | nil =>
    obtain rfl : pool = p := Except.ok.inj h
    exact hR.refl pool
  | cons a l ih =>
    rw [List.foldlM_cons] at h
    obtain ⟨p1, h1, h2⟩ := ok_of_bind h
    exact hR.trans (hf a pool p1 h1) (ih h2)

theorem Lasting.free_after {x : Except Stop Pool} {n : Nat} (hR : Lasting R)
    (hx : ∀ p, x = .ok p → R pool p) (h : (x >>= fun p => p.free n false) = .ok p') :
    R pool p' := by
  obtain ⟨p1, h1, h2⟩ := ok_of_bind h
  exact hR.trans (hx p1 h1) (hR.free h2)

theorem Lasting.mgnMemReleaseImpl (hR : Lasting R) (fuel : Nat) {mem : Nat} {release cb : Bool}
    (h : mgnMemReleaseImpl owned fuel mem release cb pool = .ok p) : R pool p := by
  induction fuel generalizing pool p mem release cb with
  | zero => cases h
  | succ fuel ih =>
    rw [Managed.mgnMemReleaseImpl] at h
    cases hf : pool.find mem with
    | none =>
      rw [hf] at h
      cases h
      exact hR.refl pool
    | some x =>
      simp only [hf] at h
      by_cases h0 : x.r = 0
      · rw [if_pos h0] at h
        cases h
        exact hR.refl pool
      · rw [if_neg h0] at h
        have hupd : R pool (pool.update x.serial fun y => { y with r := y.r - 1, cb := cb }) :=
          hR.giveUp pool x.serial cb
        by_cases hdie : x.r - 1 = 0 ∧ release = true
        · rw [if_pos hdie] at h
          cases cb with
          | false => exact hR.trans hupd (hR.free h)
          | true =>
            refine hR.trans hupd (hR.free_after (fun p2 hp2 => ?_) h)
            exact hR.trans (hR.note _ _) (hR.foldlM (fun _ _ _ hr => ih hr) hp2)
        · rw [if_neg hdie] at h
          cases h
          exact hupd

theorem Lasting.sweep (hR : Lasting R) {mem : Nat} (h : sweep owned pool mem = .ok p) :
    R pool p := by
  rw [Managed.sweep] at h
  cases hf : pool.find mem with
  | none =>
    rw [hf] at h
    cases h
    exact hR.refl pool
  | some x =>
    simp only [hf] at h
    by_cases h0 : x.r = 0
    · rw [if_pos h0] at h
      cases hcb : x.cb with
      | false =>
        rw [hcb] at h
        exact hR.free h
      | true =>
        rw [hcb] at h
        refine hR.free_after (fun p2 hp2 => ?_) h
        exact hR.trans (hR.note _ _)
          (hR.foldlM (fun _ _ _ hr => hR.mgnMemReleaseImpl _ hr) hp2)
    · rw [if_neg h0] at h
      cases h
      exact hR.refl pool

theorem Lasting.releaseUnusedLoop (hR : Lasting R) (fuel : Nat)
    (h : releaseUnusedLoop owned fuel pool = .ok p) : R pool p := by
  induction fuel generalizing pool with
  | zero => cases h
  | succ fuel ih =>
    rw [Managed.releaseUnusedLoop] at h
    obtain ⟨p1, h1, h2⟩ := ok_of_bind h
    have hk : R pool p1 := hR.foldlM (fun _ _ _ hs => hR.sweep hs) h1
    split_ifs at h2
    · exact hR.trans hk (ih h2)
    · cases h2
      exact hk

def Shrinks (pool pool' : Pool) : Prop :=
  pool'.clock = pool.clock ∧
    ∀ y ∈ pool'.records, ∃ x ∈ pool.records, x.serial = y.serial ∧ x.m = y.m

theorem shrinks_update {f : Record → Record} {n : Nat}
    (hf : ∀ x, (f x).serial = x.serial ∧ (f x).m = x.m) : Shrinks pool (pool.update n f) := by
  refine ⟨rfl, fun y hy => ?_⟩
  obtain ⟨x, hx, rfl⟩ := List.mem_map.mp hy
  by_cases he : x.serial = n
  · rw [if_pos he]
    exact ⟨x, hx, (hf x).1.symm, (hf x).2.symm⟩
  · rw [if_neg he]
    exact ⟨x, hx, rfl, rfl⟩

theorem Shrinks.refl (pool : Pool) : Shrinks pool pool := ⟨rfl, fun y hy => ⟨y, hy, rfl, rfl⟩⟩

theorem Shrinks.trans (h : Shrinks pool p) (h' : Shrinks p p') : Shrinks pool p' := by
  refine ⟨h'.1.trans h.1, fun y hy => ?_⟩
  obtain ⟨z, hz, hs, hm⟩ := h'.2 y hy
  obtain ⟨x, hx, hs', hm'⟩ := h.2 z hz
  exact ⟨x, hx, hs'.trans hs, hm'.trans hm⟩

theorem lasting_shrinks : Lasting Shrinks where
  refl := Shrinks.refl
  trans := Shrinks.trans
  giveUp _ _ _ := shrinks_update fun _ => ⟨rfl, rfl⟩
  note p _ := Shrinks.refl p
  free {p p' n emptying} h := by
    unfold Pool.free at h
    split at h
    · cases h
      exact ⟨rfl, fun y hy => ⟨y, (mem_delete.mp hy).1, rfl, rfl⟩⟩
    · cases h

end Lasting

section Runs

variable {malloc : Malloc} {owned : Nat → List Nat} {pool : Pool}

theorem Inv.add {x : Record} (h : Inv ∅ pool) (hs : x.serial = pool.clock) (h0 : x.m ≠ 0)
    (hm : x.m ∉ pool.live) : Inv ∅ ({ pool with clock := pool.clock + 1 }.add x) := by
  have hserials : ({ pool with clock := pool.clock + 1 }.add x).serials =
      pool.serials ++ [pool.clock] := by simp [Pool.serials, Pool.add, hs]
  have hlive : ({ pool with clock := pool.clock + 1 }.add x).live = pool.live ++ [x.m] := by
    simp [Pool.live, Pool.add]
  have hnew : pool.clock ∉ pool.serials := fun hc => lt_irrefl _ (h.serial_lt _ hc)
  have hlog : ∀ e ∈ pool.log, eventSerial e ≠ pool.clock := fun e he => (h.log_lt e he).ne
  exact
    { serials_nodup := by
        rw [hserials]
        exact List.Nodup.append h.serials_nodup (List.nodup_singleton _) (by simpa using hnew)
      live_nodup := by
        rw [hlive]
        exact List.Nodup.append h.live_nodup (List.nodup_singleton _) (by simpa using hm)
      null_not_live := by
        rw [hlive, List.mem_append, List.mem_singleton]
        rintro (hl | hl)
        · exact h.null_not_live hl
        · exact h0 hl.symm
      serial_lt := fun n hn => by
        rw [hserials, List.mem_append, List.mem_singleton] at hn
        obtain hn | rfl := hn
        · exact (h.serial_lt n hn).trans (Nat.lt_succ_self _)
        · exact Nat.lt_succ_self _
      log_lt := fun e he => (h.log_lt e he).trans (Nat.lt_succ_self _)
      dying := fun n hn => absurd hn (Set.notMem_empty _)
      called := fun n hn hD => by
        rw [hserials, List.mem_append, List.mem_singleton] at hn
        obtain hn | rfl := hn
        · exact h.called n hn hD
        · exact fun he => hlog _ he rfl
      kept := fun n hn => by
        rw [hserials, List.mem_append, List.mem_singleton] at hn
        obtain hn | rfl := hn
        · exact h.kept n hn
        · exact ⟨fun he => hlog _ he rfl, fun he => hlog _ he rfl⟩
      safe := h.safe }

theorem Inv.tick (h : Inv ∅ pool) : Inv ∅ { pool with clock := pool.clock + 1 } where
  serials_nodup := h.serials_nodup
  live_nodup := h.live_nodup
  null_not_live := h.null_not_live
  serial_lt n hn := (h.serial_lt n hn).trans (Nat.lt_succ_self _)
  log_lt e he := (h.log_lt e he).trans (Nat.lt_succ_self _)
  dying _ hn := absurd hn (Set.notMem_empty _)
  called := h.called
  kept := h.kept
  safe := h.safe

theorem find_null (h : Inv ∅ pool) : pool.find 0 = none := by
  rw [Pool.find, List.find?_eq_none]
  intro x hx h0
  exact h.null_not_live (List.mem_map.mpr ⟨x, hx, by simpa using h0⟩)

theorem mgnMemAlloc_inv (newSize : Nat) (h : Inv ∅ pool) :
    ∃ r, mgnMemAlloc malloc pool newSize = .ok r ∧ Inv ∅ r.2 := by
  simp only [mgnMemAlloc, mgnMemRalloc, find_null h, ne_eq, not_true_eq_false, if_false]
  by_cases hz : newSize = 0
  · exact ⟨_, by rw [if_pos hz], h⟩
  rw [if_neg hz]
  by_cases hrec : malloc.record pool.clock = true
  · rw [if_pos hrec]
    simp only [platMemAllocate]
    cases ha : malloc.memory pool.clock pool.live (uint newSize) with
    | none => exact ⟨_, rfl, h.tick⟩
    | some a =>
      obtain ⟨h0, hm⟩ := malloc.fresh _ _ _ _ ha
      exact ⟨_, rfl, h.add rfl h0 hm⟩
  · exact ⟨_, by rw [if_neg hrec], h.tick⟩

theorem mgnMemAlloc_answer {p : Pool} {size : Nat} {r : Option Nat} (h : Inv ∅ pool)
    (hrun : mgnMemAlloc malloc pool size = .ok (r, p)) :
    (r = none ∧ (size = 0 ∨ malloc.record pool.clock = false ∨
      malloc.memory pool.clock pool.live (uint size) = none)) ∨
    ∃ a bytes, r = some a ∧ malloc.memory pool.clock pool.live (uint size) = some a ∧
      p.records = pool.records ++ [newRecord pool.clock a size bytes] := by
  simp only [mgnMemAlloc, mgnMemRalloc, find_null h, ne_eq, not_true_eq_false, if_false] at hrun
  by_cases hz : size = 0
  · rw [if_pos hz] at hrun
    cases hrun
    exact Or.inl ⟨rfl, Or.inl hz⟩
  · rw [if_neg hz] at hrun
    by_cases hrec : malloc.record pool.clock = true
    · simp only [if_pos hrec, platMemAllocate] at hrun
      cases ha : malloc.memory pool.clock pool.live (uint size) with
      | none =>
        simp only [ha, Option.map_none] at hrun
        cases hrun
        exact Or.inl ⟨rfl, Or.inr (Or.inr rfl)⟩
      | some a =>
        simp only [ha, Option.map_some] at hrun
        cases hrun
        exact Or.inr ⟨a, _, rfl, rfl, rfl⟩
    · rw [if_neg hrec] at hrun
      cases hrun
      exact Or.inl ⟨rfl, Or.inr (Or.inl (by simpa using hrec))⟩

theorem mgnMemAlloc_log {p : Pool} {size : Nat} {r : Option Nat} (h : Inv ∅ pool)
    (hrun : mgnMemAlloc malloc pool size = .ok (r, p)) : p.log = pool.log := by
  simp only [mgnMemAlloc, mgnMemRalloc, find_null h, ne_eq, not_true_eq_false, if_false] at hrun
  by_cases hz : size = 0
  · rw [if_pos hz] at hrun
    cases hrun
    rfl
  · rw [if_neg hz] at hrun
    by_cases hrec : malloc.record pool.clock = true
    · simp only [if_pos hrec, platMemAllocate] at hrun
      cases ha : malloc.memory pool.clock pool.live (uint size) <;>
        simp only [ha, Option.map_none, Option.map_some] at hrun <;> cases hrun <;> rfl
    · rw [if_neg hrec] at hrun
      cases hrun
      rfl

theorem mgnMemAlloc_cases {p : Pool} {size : Nat} {r : Option Nat} (h : Inv ∅ pool)
    (hrun : mgnMemAlloc malloc pool size = .ok (r, p)) :
    (r = none ∧ (size = 0 ∨ malloc.record pool.clock = false ∨
      malloc.memory pool.clock pool.live (uint size) = none)) ∨
    ∃ a bytes, r = some a ∧ a ≠ 0 ∧ a ∉ pool.live ∧
      p.records = pool.records ++ [newRecord pool.clock a size bytes] := by
  obtain hno | ⟨a, bytes, hr, ha, hrec⟩ := mgnMemAlloc_answer h hrun
  · exact Or.inl hno
  · obtain ⟨h0, hm⟩ := malloc.fresh _ _ _ _ ha
    exact Or.inr ⟨a, bytes, hr, h0, hm, hrec⟩

theorem mgnMemRetain_inv (mem : Nat) (h : Inv ∅ pool) : Inv ∅ (mgnMemRetain pool mem).2 := by
  rw [mgnMemRetain]
  cases pool.find mem with
  | none => exact h
  | some x => exact h.update (fun _ => rfl) (fun _ => rfl) (Set.notMem_empty _)

inductive Command
  | alloc (newSize : Nat)
  | retain (mem : Nat)
  | releaseWCb (mem : Nat)
  | autoreleaseWCb (mem : Nat)
  | releaseUnused
  | releaseAll

def Command.run (malloc : Malloc) (owned : Nat → List Nat) : Command → Pool → Except Stop Pool
  | alloc newSize, pool => do
    let (_, pool) ← mgnMemAlloc malloc pool newSize
    return pool
  | retain mem, pool => .ok (mgnMemRetain pool mem).2
  | releaseWCb mem, pool => mgnMemReleaseWCb owned pool mem
  | autoreleaseWCb mem, pool => mgnMemAutoreleaseWCb owned pool mem
  | releaseUnused, pool => mgnMemReleaseUnused owned pool
  | releaseAll, pool => mgnMemReleaseAll pool

def runAll (malloc : Malloc) (owned : Nat → List Nat) (commands : List Command) (pool : Pool) :
    Except Stop Pool :=
  commands.foldlM (fun pool c => c.run malloc owned pool) pool

theorem Command.run_inv (c : Command) (h : Inv ∅ pool) :
    ∃ pool', c.run malloc owned pool = .ok pool' ∧ Inv ∅ pool' := by
  cases c with
  | alloc newSize =>
    obtain ⟨r, ha, hinv⟩ : ∃ r, mgnMemAlloc malloc pool newSize = .ok r ∧ Inv ∅ r.2 :=
      mgnMemAlloc_inv newSize h
    exact ⟨r.2, by rw [Command.run, bind_ok ha]; rfl, hinv⟩
  | retain mem => exact ⟨_, rfl, mgnMemRetain_inv mem h⟩
  | releaseWCb mem =>
    obtain ⟨pool', hr, hrel⟩ := mgnMemReleaseWCb_released mem h
    exact ⟨pool', hr, hrel.inv⟩
  | autoreleaseWCb mem =>
    obtain ⟨pool', hr, hrel⟩ := mgnMemAutoreleaseWCb_released mem h
    exact ⟨pool', hr, hrel.inv⟩
  | releaseUnused =>
    obtain ⟨pool', hr, hrel⟩ := releaseUnusedLoop_released _ h (Nat.lt_succ_self _)
    exact ⟨pool', hr, hrel.inv⟩
  | releaseAll =>
    obtain ⟨pool', hr, hinv, -⟩ := mgnMemReleaseAll_inv h
    exact ⟨pool', hr, hinv⟩

/-- A pool whose blocks have addresses of their own, with nothing noted yet. -/
structure Start (pool : Pool) : Prop where
  serials_nodup : pool.serials.Nodup
  live_nodup : pool.live.Nodup
  null_not_live : 0 ∉ pool.live
  serial_lt : ∀ n ∈ pool.serials, n < pool.clock
  log_eq : pool.log = []

theorem Start.inv (h : Start pool) : Inv ∅ pool where
  serials_nodup := h.serials_nodup
  live_nodup := h.live_nodup
  null_not_live := h.null_not_live
  serial_lt := h.serial_lt
  log_lt := by simp [h.log_eq]
  dying _ hn := absurd hn (Set.notMem_empty _)
  called := by simp [h.log_eq]
  kept := by simp [h.log_eq]
  safe := by
    rw [h.log_eq]
    constructor <;> simp

theorem inv_empty : Inv ∅ ⟨[], 0, []⟩ :=
  Start.inv ⟨List.nodup_nil, List.nodup_nil, List.not_mem_nil,
    fun _ hn => absurd hn List.not_mem_nil, rfl⟩

/-- Every run of calls comes to its end without touching a freed record, its log is
safe, and a release of a block that is absent or has count zero changes nothing. -/
theorem runAll_safe (malloc : Malloc) (owned : Nat → List Nat) (commands : List Command)
    (h : Start pool) :
    (∃ pool', runAll malloc owned commands pool = .ok pool' ∧ Safe pool'.log) ∧
    ∀ (p : Pool) (mem fuel : Nat) (release cb : Bool), (∀ x, p.find mem = some x → x.r = 0) →
      mgnMemReleaseImpl owned (fuel + 1) mem release cb p = .ok p := by
  constructor
  · obtain ⟨pool', hrun, hinv⟩ :
        ∃ pool', runAll malloc owned commands pool = .ok pool' ∧ Inv ∅ pool' :=
      foldlM_invariant (Inv ∅) commands (fun p hp c _ => c.run_inv hp) h.inv
    exact ⟨pool', hrun, hinv.safe⟩
  · exact fun p mem fuel release cb hp => mgnMemReleaseImpl_unchanged release cb hp fuel

/-- An allocator that never fails and answers with the first address above those in use. -/
def bumpMalloc : Malloc where
  memory _ live _ := some (live.sum + 1)
  record _ := true
  fresh _ live _ a ha := by
    obtain rfl := Option.some.inj ha
    refine ⟨Nat.succ_ne_zero _, fun hmem => ?_⟩
    have hle := List.single_le_sum (fun _ _ => Nat.zero_le _) _ hmem
    omega

/-- Two blocks that own each other, both given up. -/
theorem runAll_safe_cycle :
    (∃ pool', runAll bumpMalloc (fun n => if n = 0 then [2] else [1])
      [.alloc 8, .alloc 8, .retain 1, .retain 2, .releaseWCb 1, .releaseWCb 2, .releaseUnused]
      ⟨[], 0, []⟩ = .ok pool' ∧ Safe pool'.log) ∧
    ∀ (p : Pool) (mem fuel : Nat) (release cb : Bool), (∀ x, p.find mem = some x → x.r = 0) →
      mgnMemReleaseImpl (fun n => if n = 0 then [2] else [1]) (fuel + 1) mem release cb p = .ok p :=
  runAll_safe bumpMalloc _ _ ⟨List.nodup_nil, List.nodup_nil, List.not_mem_nil, nofun, rfl⟩

end Runs

end LcClibs.Memory.Safety
