import Mathlib
import LcClibs.Mmo.Lifecycle

namespace LcClibs.Mmo.Leftovers

open Platform Lib.Runs Memory.Managed Memory.Safety Mmo.Casting Mmo.Identity Mmo.Lifecycle

/-- The pool has the blocks it had, retained as often. -/
structure NoTrace (pool pool' : Pool) : Prop where
  blocks : ∀ mem, mem ∈ pool'.live ↔ mem ∈ pool.live
  counts : ∀ mem, mgnMemRetainedCount pool' mem = mgnMemRetainedCount pool mem

section Failures

variable {F : Type} {malloc : Malloc} {sizeOf : List UInt8 → Nat} {fns : RootFns F}
  {impl : (x : ClassChain) → Impl F x} {ch : ClassChain} {pool : Pool} {w : World F}

theorem apart {D : Set Nat} {p : Pool} {l es : List Record} {x : Record} (h : Inv D p)
    (hp : p.records = l ++ x :: es) :
    (p.records.filter fun y => y.serial ≠ x.serial) = l ++ es ∧
      ∀ e ∈ x :: es, e.m ∉ l.map Record.m := by
  have hs := h.serials_nodup
  have hl := h.live_nodup
  rw [Pool.serials, hp, List.map_append, List.map_cons, List.nodup_append, List.nodup_cons] at hs
  rw [Pool.live, hp, List.map_append, List.nodup_append] at hl
  obtain ⟨-, ⟨hes, -⟩, hapart⟩ := hs
  constructor
  · rw [hp, List.filter_append, List.filter_cons_of_neg (by simp)]
    congr 1
    · rw [List.filter_eq_self]
      intro y hy
      have hne := hapart y.serial (List.mem_map_of_mem hy) x.serial List.mem_cons_self
      simpa using hne
    · rw [List.filter_eq_self]
      intro y hy
      have hne : y.serial ≠ x.serial := fun he => hes (he ▸ List.mem_map_of_mem hy)
      simpa using hne
  · exact fun e he hmem => hl.2.2 e.m hmem e.m (List.mem_map_of_mem he) rfl

/-- A failed allocation takes the object's block out again and leaves the function entries of
the levels that were initialised, of which there are always some. -/
theorem allocStru_leaves (h : Inv ∅ pool)
    (hrun : allocStru malloc sizeOf fns impl ch pool = .ok (none, w)) :
    ∃ es, es ≠ [] ∧ (∀ e ∈ es, IsEntry e ∧ e.m ∉ pool.live) ∧
      w.pool.records = pool.records ++ es := by
  have hsize : structSize sizeOf ch ≠ 0 := by
    have hpos := posO_le sizeOf ch
    omega
  unfold allocStru at hrun
  obtain ⟨p, ha, -⟩ | ⟨a, bytes, p, ha, hinv, hlive, hrec⟩ := alloc_cases malloc h hsize
  · simp only [bind_ok ha] at hrun
    cases hrun
  · simp only [bind_ok ha] at hrun
    have hinit : Meets (Short malloc) _ (initStru malloc fns impl ch ch.posB ⟨p, [], []⟩) :=
      initStru_meets (w := ⟨p, [], []⟩) ch hinv
    cases hr : initStru malloc fns impl ch ch.posB ⟨p, [], []⟩ with
    | error e =>
      rw [hr] at hrun
      cases hrun
    | ok r =>
      rw [hr] at hinit
      simp only [bind_ok hr] at hrun
      obtain ⟨es, hne, hentry, hes⟩ := hinit.entries
      have hrecords : r.2.pool.records = pool.records ++ (newRecord pool.clock a
          (structSize sizeOf ch) bytes :: es) := by
        rw [hes, hrec, List.append_assoc]
        rfl
      obtain ⟨hserials, hlives⟩ := apart hinit.inv hrecords
      have hmem : newRecord pool.clock a (structSize sizeOf ch) bytes ∈ r.2.pool.records := by
        rw [hrecords]
        simp
      obtain ⟨pool', hfree, hleft⟩ := releaseObject_none hinit.inv hmem rfl
      have hfree' : releaseObject a none r.2 = .ok _ := hfree
      cases hok : r.1 with
      | true =>
        rw [hok] at hrun
        cases hrun
      | false =>
        simp only [hok, Bool.false_eq_true, if_false, bind_ok hfree'] at hrun
        cases hrun
        refine ⟨es, hne, fun e he => ⟨hentry e he, hlives e (List.mem_cons_of_mem _ he)⟩, ?_⟩
        rw [hleft]
        exact hserials

/-- Whenever an allocation returns null it leaves function entries behind. -/
theorem allocStru_traces (malloc : Malloc) (sizeOf : List UInt8 → Nat) (fns : RootFns F)
    (impl : (x : ClassChain) → Impl F x) (ch : ClassChain) (pool : Pool) (w : World F)
    (h : Inv ∅ pool) (hrun : allocStru malloc sizeOf fns impl ch pool = .ok (none, w)) :
    ¬NoTrace pool w.pool := by
  intro hno
  obtain ⟨es, hne, hes, hrec⟩ := allocStru_leaves h hrun
  obtain ⟨e, he⟩ := List.exists_mem_of_ne_nil es hne
  refine (hes e he).2 ((hno.blocks e.m).mp (List.mem_map_of_mem ?_))
  rw [hrec]
  exact List.mem_append_right _ he

theorem allocStru_traces_tmpContext : ∃ w,
    allocStru bumpMalloc (fun _ => 8) ⟨0, 1⟩ failingImpl tmpContext ⟨[], 0, []⟩ = .ok (none, w) ∧
      ¬NoTrace ⟨[], 0, []⟩ w.pool :=
  ⟨_, rfl, allocStru_traces bumpMalloc (fun _ => 8) ⟨0, 1⟩ failingImpl tmpContext ⟨[], 0, []⟩ _
    inv_empty rfl⟩

/-- A map that cannot be initialised in an empty pool. -/
theorem not_noTrace :
    ¬∀ (malloc : Malloc) (sizeOf : List UInt8 → Nat) (fns : RootFns Nat)
      (impl : (x : ClassChain) → Impl Nat x) (ch : ClassChain) (pool : Pool) (w : World Nat),
      Inv ∅ pool → allocStru malloc sizeOf fns impl ch pool = .ok (none, w) →
        NoTrace pool w.pool := by
  intro h
  have hno := h bumpMalloc (fun _ => 8) ⟨0, 1⟩ failingImpl tmpContext ⟨[], 0, []⟩ _
    inv_empty rfl
  exact absurd (hno.blocks 2) (by decide)

end Failures

end LcClibs.Mmo.Leftovers
