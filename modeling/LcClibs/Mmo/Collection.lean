import Mathlib
import LcClibs.Memory.Collection
import LcClibs.Mmo.Accounts

namespace LcClibs.Mmo.Collection

open Lib.Runs Memory.Managed Memory.Safety Memory.Collection Mmo.Containers Mmo.Ownership
  Mmo.Accounts

section Collection

variable {malloc : Malloc} {sizeOf : Object → Nat} {compareMmobjs : Store → Nat → Nat → Int}
  {st : State}

/-- What a sweep does in a state: it takes all but what is reached from owned objects and from
objects that hold each other. -/
structure Collected (st : State) (s : Store) : Prop where
  objects : s.objects = st.store.objects
  live : ∀ mem, mem ∈ s.pool.live ↔
    mem ∈ st.store.pool.live ∧ Reached st.store.owned st.owners st.store.pool mem
  emptied : (∀ mem, st.owners mem = 0) →
    (∀ mem, ¬Relation.TransGen (Points st.store.owned st.store.pool) mem mem) →
    s.pool.records = []

theorem Good.collected (h : Good st) : ∃ s, releaseUnused st.store = .ok s ∧ Collected st s := by
  obtain ⟨pool, hrun, -⟩ := @releaseUnusedLoop_released st.store.owned _
    (st.store.pool.records.length + 1) h.sound.inv (Nat.lt_succ_self _)
  have hlive := releaseUnusedLoop_collects _ h.sound.law hrun
  refine ⟨{ st.store with pool := pool }, ?_, ⟨rfl, hlive, fun howners hcycles => ?_⟩⟩
  · rw [releaseUnused, mgnMemReleaseUnused, bind_ok hrun]
    rfl
  · refine List.eq_nil_iff_forall_not_mem.mpr fun x hx => ?_
    obtain ⟨-, a, -, -, hor⟩ := (hlive x.m).mp (List.mem_map_of_mem hx)
    rw [howners a] at hor
    exact hor.elim (lt_irrefl 0) (hcycles a)

/-- After any run, the next sweep collects as a tracing collector does whose roots are what
the callers own and the objects that hold each other: nothing that is reached goes, all else
goes, and the pool is empty when nothing is owned and nothing holds itself in a circle. -/
theorem runs_collect (malloc : Malloc) (sizeOf : Object → Nat)
    (compareMmobjs : Store → Nat → Nat → Int) (ops : List Op)
    (hops : Along malloc sizeOf compareMmobjs (fun op st => Proper op st ∧ Spared op st)
      ops start) :
    Meets NotFreed (fun st => ∃ s, releaseUnused st.store = .ok s ∧ Collected st s)
      (runOps malloc sizeOf compareMmobjs ops start) :=
  (runOps_good ops good_start hops).imp fun _ h => Good.collected h

def circleOps : List Op :=
  [.alloc .mmList, .alloc .mmList, .push 1 2, .push 2 1, .alloc .mmMap, .alloc (.mmInt 7),
    .add 4 8 1, .autorelease 4, .release 1, .release 2, .release 8]

theorem runs_collect_circle :
    Meets NotFreed (fun st => ∃ s, releaseUnused st.store = .ok s ∧ Collected st s)
      (runOps bumpMalloc (fun _ => 8) (fun _ _ _ => 0) circleOps start) := by
  have hops : Along bumpMalloc (fun _ => 8) (fun _ _ _ => 0)
      (fun op st => Proper op st ∧ Room (retains st.store op) st.store ∧ AddsToOwned op st)
      circleOps start := by decide +kernel
  exact runs_collect bumpMalloc (fun _ => 8) (fun _ _ _ => 0) circleOps
    (along_spared good_start hops)

end Collection

end LcClibs.Mmo.Collection
