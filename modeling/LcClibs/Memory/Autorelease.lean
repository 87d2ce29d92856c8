import Mathlib
import LcClibs.Memory.Safety

namespace LcClibs.Memory.Autorelease

open Platform Lib.Runs Memory.Managed Memory.Safety

section Model

inductive Call
  | alloc (newSize : Nat)
  | ralloc (mem newSize : Nat)
  | retain (mem : Nat)
  | release (mem : Nat) (cb : Bool)
  | autorelease (mem : Nat) (cb : Bool)
  | releaseUnused
  | releaseAll

variable (malloc : Malloc) (owned : Nat → List Nat)

/-- The address that the call answers with is reported too. -/
def Call.run : Call → Pool → Except Stop (Option Nat × Pool)
  | alloc newSize, pool => mgnMemAlloc malloc pool newSize
  | ralloc mem newSize, pool => mgnMemRalloc malloc pool mem newSize
  | retain mem, pool => .ok (mgnMemRetain pool mem)
  | release mem cb, pool =>
    (mgnMemReleaseImpl owned (pool.retained + 1) mem true cb pool).map fun p => (none, p)
  | autorelease mem cb, pool =>
    (mgnMemReleaseImpl owned (pool.retained + 1) mem false cb pool).map fun p => (none, p)
  | releaseUnused, pool => (mgnMemReleaseUnused owned pool).map fun p => (none, p)
  | releaseAll, pool => (mgnMemReleaseAll pool).map fun p => (none, p)

def runCalls : List Call → Pool → Except Stop Pool
  | [], pool => .ok pool
  | c :: calls, pool => do
    let r ← c.run malloc owned pool
    runCalls calls r.2

/-- The calls that release what is not used any more. -/
def Call.Sweeps : Call → Prop
  | releaseUnused | releaseAll => True
  | _ => False

abbrev Held := Nat → Nat

def Call.heldAfter (held : Held) : Call → Option Nat → Held
  | alloc _, some a => fun i => if i = a then held i + 1 else held i
  | ralloc mem _, some a => fun i =>
    (if i = mem then held i - 1 else held i) + if i = a then 1 else 0
  | ralloc mem _, none => fun i => if i = mem then held i - 1 else held i
  | retain mem, some _ => fun i => if i = mem then held i + 1 else held i
  | release mem _, _ | autorelease mem _, _ => fun i => if i = mem then held i - 1 else held i
  | releaseAll, _ => fun _ => 0
  | _, _ => held

def Call.Holds (held : Held) : Call → Prop
  | release mem _ | autorelease mem _ => 0 < held mem
  | ralloc mem _ => mem = 0 ∨ 0 < held mem
  | _ => True

instance (held : Held) : (c : Call) → Decidable (c.Holds held)
  | .release mem _ | .autorelease mem _ => inferInstanceAs (Decidable (0 < held mem))
  | .ralloc mem _ => inferInstanceAs (Decidable (mem = 0 ∨ 0 < held mem))
  | .alloc _ | .retain _ | .releaseUnused | .releaseAll => inferInstanceAs (Decidable True)

def GivesUpHeld : Held → List Call → Pool → Prop
  | _, [], _ => True
  | held, c :: calls, pool => c.Holds held ∧ ∀ r, c.run malloc owned pool = .ok r →
    GivesUpHeld (c.heldAfter held r.1) calls r.2

def InPool (serial mem : Nat) (pool : Pool) : Prop :=
  ∃ x ∈ pool.records, x.serial = serial ∧ x.m = mem

/-- In a run, a block that was autoreleased stays in the pool up to the next sweep. -/
def Survives (pool : Pool) (calls : List Call) : Prop :=
  ∀ before mem cb after rest, calls = before ++ .autorelease mem cb :: after ++ rest →
    (∀ c ∈ after, ¬c.Sweeps) → ∀ p x p', runCalls malloc owned before pool = .ok p →
    p.find mem = some x → x.r ≠ 0 →
    runCalls malloc owned (.autorelease mem cb :: after) p = .ok p' → InPool x.serial mem p'

end Model

section Condition

variable (malloc : Malloc) (owned : Nat → List Nat) (pending : List Nat)

def EachSpared (spared : Nat → Pool → Prop) (f : Pool → Nat → Except Stop Pool) :
    List Nat → Pool → Prop
  | [], _ => True
  | mem :: mems, pool => spared mem pool ∧ ∀ pool', f pool mem = .ok pool' →
    EachSpared spared f mems pool'

/-- A release does not find an autoreleased block with a single ownership left, nor do
the releases that a callback makes. -/
def ReleaseSpared : Nat → Nat → Bool → Pool → Prop
  | 0, _, _, _ => True
  | fuel + 1, mem, cb, pool => ∀ x, pool.find mem = some x → x.r = 1 →
    x.serial ∉ pending ∧ (cb = true →
      let pool := pool.update x.serial fun x => { x with r := x.r - 1, cb := cb }
      EachSpared (fun mem pool => ReleaseSpared fuel mem true pool)
        (fun pool mem => mgnMemReleaseImpl owned fuel mem true true pool) (owned x.serial)
        (pool.note [.callback x.serial (x.serial ∈ pool.serials)]))

/-- Nor does a `mgn_mem_ralloc` to a larger size. -/
def RallocSpared (mem newSize : Nat) (pool : Pool) : Prop :=
  ∀ x, pool.find mem = some x → x.r = 1 → newSize > x.s → x.serial ∉ pending

/-- An allocation is a `mgn_mem_ralloc` of null, where no block is. -/
def Call.Spared : Call → Pool → Prop
  | release mem cb, pool => ReleaseSpared owned pending (pool.retained + 1) mem cb pool
  | ralloc mem newSize, pool => RallocSpared pending mem newSize pool
  | alloc newSize, pool => RallocSpared pending 0 newSize pool
  | _, _ => True

/-- The blocks that were autoreleased since the last sweep. -/
def Call.pendingAfter (pool : Pool) : Call → List Nat
  | autorelease mem _ =>
    match pool.find mem with
    | some x => if x.r = 0 then pending else x.serial :: pending
    | none => pending
  | releaseUnused | releaseAll => []
  | _ => pending

/-- A run whose calls are all spared ones. -/
def RunSpared : List Nat → List Call → Pool → Prop
  | _, [], _ => True
  | pending, c :: calls, pool => c.Spared owned pending pool ∧
    ∀ r, c.run malloc owned pool = .ok r → RunSpared (c.pendingAfter pending pool) calls r.2

end Condition

section Steps

variable {malloc : Malloc} {owned : Nat → List Nat} {pending : List Nat} {n a : Nat}
  {pool pool' : Pool}

theorem InPool.update {k : Nat} {f : Record → Record} (hs : ∀ x, (f x).serial = x.serial)
    (hm : ∀ x, (f x).m = x.m) (h : InPool n a pool) : InPool n a (pool.update k f) := by
  obtain ⟨x, hx, hn, ha⟩ := h
  by_cases hk : x.serial = k
  · exact ⟨f x, mem_update hx hk, by rw [hs, hn], by rw [hm, ha]⟩
  · exact ⟨x, mem_update_of_ne hx hk, hn, ha⟩

theorem InPool.delete {k : Nat} (hk : n ≠ k) (h : InPool n a pool) :
    InPool n a (pool.delete k) := by
  obtain ⟨x, hx, hn, ha⟩ := h
  exact ⟨x, mem_delete.mpr ⟨hx, by rw [hn]; exact hk⟩, hn, ha⟩

theorem InPool.add {x : Record} (h : InPool n a pool) : InPool n a (pool.add x) := by
  obtain ⟨y, hy, hn, ha⟩ := h
  exact ⟨y, List.mem_append_left _ hy, hn, ha⟩

theorem InPool.note (events : List Event) (h : InPool n a pool) : InPool n a (pool.note events) := h

theorem InPool.free {k : Nat} {emptying : Bool} (hk : n ≠ k) (h : InPool n a pool)
    (hf : pool.free k emptying = .ok pool') : InPool n a pool' := by
  unfold Pool.free at hf
  split at hf
  · cases hf
    exact h.delete hk
  · cases hf

theorem InPool.foldlM {spared : Nat → Pool → Prop} {f : Pool → Nat → Except Stop Pool}
    {mems : List Nat} (h : InPool n a pool) (hs : EachSpared spared f mems pool)
    (hstep : ∀ mem p p', spared mem p → f p mem = .ok p' → InPool n a p → InPool n a p')
    (hf : mems.foldlM f pool = .ok pool') : InPool n a pool' := by
  induction mems generalizing pool with
  | nil =>
    cases hf
    exact h
  | cons mem mems ih =>
    obtain ⟨hmem, hmems⟩ := hs
    rw [List.foldlM_cons] at hf
    cases hp : f pool mem with
    | error e =>
      rw [hp] at hf
      cases hf
    | ok p =>
      rw [bind_ok hp] at hf
      exact ih (hstep mem pool p hmem hp h) (hmems p hp) hf

theorem InPool.release {fuel mem : Nat} {release cb : Bool} (hn : n ∈ pending)
    (hs : release = true → ReleaseSpared owned pending fuel mem cb pool)
    (hrun : mgnMemReleaseImpl owned fuel mem release cb pool = .ok pool') (h : InPool n a pool) :
    InPool n a pool' := by
  induction fuel generalizing pool pool' mem release cb with
  | zero => cases hrun
  | succ fuel ih =>
    rw [mgnMemReleaseImpl] at hrun
    cases hfind : pool.find mem with
    | none =>
      rw [hfind] at hrun
      cases hrun
      exact h
    | some x =>
      simp only [hfind] at hrun
      by_cases h0 : x.r = 0
      · rw [if_pos h0] at hrun
        cases hrun
        exact h
      · rw [if_neg h0] at hrun
        have hupd : InPool n a (pool.update x.serial fun y => { y with r := y.r - 1, cb := cb }) :=
          h.update (fun _ => rfl) (fun _ => rfl)
        by_cases hdie : x.r - 1 = 0 ∧ release = true
        · rw [if_pos hdie] at hrun
          obtain ⟨hx, hcb⟩ := hs hdie.2 x hfind (by omega)
          have hne : n ≠ x.serial := fun he => hx (he ▸ hn)
          cases cb with
          | false => exact hupd.free hne hrun
          | true =>
            simp only [if_true] at hrun hcb
            generalize (pool.update x.serial fun y => { y with r := y.r - 1, cb := true }) = p0 at *
            have hin : InPool n a (p0.note [.callback x.serial (x.serial ∈ p0.serials)]) := hupd
            generalize p0.note [.callback x.serial (x.serial ∈ p0.serials)] = p1 at *
            cases hfold : (owned x.serial).foldlM
                (fun pool mem => mgnMemReleaseImpl owned fuel mem true true pool) p1 with
            | error e =>
              rw [hfold] at hrun
              cases hrun
            | ok p2 =>
              rw [bind_ok hfold] at hrun
              refine InPool.free hne (hin.foldlM (hcb trivial) ?_ hfold) hrun
              exact fun mem p p' hmem hf hp => ih (fun _ => hmem) hf hp
        · rw [if_neg hdie] at hrun
          cases hrun
          exact hupd

theorem copied_inPool {size : Nat} {dest src : List UInt8} {mem : Option Nat}
    {f : List UInt8 → Pool} {r : Option Nat × Pool} (h : ∀ bytes, InPool n a (f bytes))
    (hrun : (do let bytes ← platMemCopy dest src size; return (mem, f bytes)) = .ok r) :
    InPool n a r.2 := by
  cases hcopy : platMemCopy dest src size with
  | error e =>
    rw [hcopy] at hrun
    cases hrun
  | ok bytes =>
    rw [bind_ok hcopy] at hrun
    cases hrun
    exact h bytes

theorem InPool.ralloc {mem newSize : Nat} {r : Option Nat × Pool} (hn : n ∈ pending)
    (hs : RallocSpared pending mem newSize pool)
    (hrun : mgnMemRalloc malloc pool mem newSize = .ok r) (h : InPool n a pool) :
    InPool n a r.2 := by
  have htick : InPool n a { pool with clock := pool.clock + 1 } := h
  unfold mgnMemRalloc at hrun
  dsimp only at hrun
  by_cases h0 : newSize = 0
  · rw [if_pos h0] at hrun
    cases hrun
    exact h
  rw [if_neg h0] at hrun
  cases hfind : pool.find mem with
  | none =>
    simp only [hfind] at hrun
    split_ifs at hrun
    · cases hrun
      exact h
    · cases halloc : platMemAllocate malloc pool newSize with
      | none =>
        rw [halloc] at hrun
        cases hrun
        exact htick
      | some p =>
        simp only [halloc] at hrun
        cases hrun
        exact htick.add
    · cases hrun
      exact htick
  | some x =>
    simp only [hfind] at hrun
    by_cases hsize : newSize > x.s
    · rw [if_pos hsize] at hrun
      by_cases h1 : x.r = 1
      · rw [if_pos h1] at hrun
        have hne : n ≠ x.serial := fun he => hs x hfind h1 hsize (he ▸ hn)
        cases halloc : platMemAllocate malloc pool newSize with
        | none =>
          rw [halloc] at hrun
          cases hrun
          exact htick.delete hne
        | some p =>
          simp only [halloc] at hrun
          exact copied_inPool (fun _ => ((htick.delete hne).note _).add) hrun
      · rw [if_neg h1] at hrun
        have hgiven : InPool n a (if x.r > 0 then
            { pool with clock := pool.clock + 1 }.update x.serial fun x => { x with r := x.r - 1 }
            else { pool with clock := pool.clock + 1 }) := by
          split_ifs
          · exact htick.update (fun _ => rfl) fun _ => rfl
          · exact htick
        generalize (if x.r > 0 then
            { pool with clock := pool.clock + 1 }.update x.serial fun x => { x with r := x.r - 1 }
            else { pool with clock := pool.clock + 1 }) = p0 at hrun hgiven
        split_ifs at hrun
        · cases halloc : platMemAllocate malloc pool newSize with
          | none =>
            rw [halloc] at hrun
            cases hrun
            exact hgiven
          | some p =>
            simp only [halloc] at hrun
            exact copied_inPool (fun _ => hgiven.add) hrun
        · cases hrun
          exact hgiven
    · rw [if_neg hsize] at hrun
      cases hrun
      exact h

/-- A call that is spared and does not sweep leaves the autoreleased blocks. -/
theorem InPool.run {c : Call} {r : Option Nat × Pool} (hn : n ∈ pending)
    (hs : c.Spared owned pending pool) (hc : ¬c.Sweeps) (hrun : c.run malloc owned pool = .ok r)
    (h : InPool n a pool) : InPool n a r.2 := by
  have hmap : ∀ {x : Except Stop Pool}, (x.map fun p => ((none : Option Nat), p)) = .ok r →
      x = .ok r.2 := fun {x} hx => by
    cases x with
    | error e => cases hx
    | ok p =>
      cases hx
      rfl
  cases c with
  | alloc newSize | ralloc mem newSize => exact InPool.ralloc hn hs hrun h
  | retain mem =>
    cases hrun
    unfold mgnMemRetain
    split
    · exact h.update (fun _ => rfl) fun _ => rfl
    · exact h
  | release mem cb => exact InPool.release hn (fun _ => hs) (hmap hrun) h
  | autorelease mem cb =>
    have hrel : mgnMemReleaseImpl owned (pool.retained + 1) mem false cb pool = .ok r.2 := hmap hrun
    exact InPool.release hn (fun hf => by cases hf) hrel h
  | releaseUnused | releaseAll => exact absurd trivial hc

end Steps

section Runs

variable {malloc : Malloc} {owned : Nat → List Nat} {pending : List Nat} {n a : Nat}
  {pool pool' : Pool}

theorem Call.mem_pendingAfter {c : Call} (hc : ¬c.Sweeps) (hn : n ∈ pending) :
    n ∈ c.pendingAfter pending pool := by
  cases c with
  | autorelease mem cb =>
    simp only [pendingAfter]
    split
    · split_ifs
      · exact hn
      · exact List.mem_cons_of_mem _ hn
    · exact hn
  | releaseUnused | releaseAll => exact absurd trivial hc
  | _ => exact hn

theorem runCalls_cons {c : Call} {calls : List Call}
    (h : runCalls malloc owned (c :: calls) pool = .ok pool') :
    ∃ r, c.run malloc owned pool = .ok r ∧ runCalls malloc owned calls r.2 = .ok pool' := by
  rw [runCalls] at h
  cases hr : c.run malloc owned pool with
  | error e =>
    rw [hr] at h
    cases h
  | ok r =>
    rw [hr] at h
    exact ⟨r, rfl, h⟩

theorem InPool.runCalls {calls : List Call} (hn : n ∈ pending)
    (hs : RunSpared malloc owned pending calls pool) (hc : ∀ c ∈ calls, ¬c.Sweeps)
    (hrun : runCalls malloc owned calls pool = .ok pool') (h : InPool n a pool) :
    InPool n a pool' := by
  induction calls generalizing pending pool with
  | nil =>
    cases hrun
    exact h
  | cons c calls ih =>
    obtain ⟨r, hr, hrest⟩ := runCalls_cons hrun
    obtain ⟨hspared, hcalls⟩ := hs
    have hc1 := hc c List.mem_cons_self
    exact ih (Call.mem_pendingAfter hc1 hn) (hcalls r hr)
      (fun d hd => hc d (List.mem_cons_of_mem _ hd)) hrest (h.run hn hspared hc1 hr)

theorem RunSpared.left {before calls : List Call}
    (hs : RunSpared malloc owned pending (before ++ calls) pool) :
    RunSpared malloc owned pending before pool := by
  induction before generalizing pending pool with
  | nil => trivial
  | cons c before ih => exact ⟨hs.1, fun r hr => ih (hs.2 r hr)⟩

theorem RunSpared.after {before calls : List Call}
    (hs : RunSpared malloc owned pending (before ++ calls) pool)
    (hrun : Autorelease.runCalls malloc owned before pool = .ok pool') :
    ∃ pending', RunSpared malloc owned pending' calls pool' := by
  induction before generalizing pending pool with
  | nil =>
    cases hrun
    exact ⟨pending, hs⟩
  | cons c before ih =>
    obtain ⟨r, hr, hrest⟩ := runCalls_cons hrun
    exact ih (hs.2 r hr) hrest

/-- In a run in which no release and no reallocation finds an autoreleased block with one
ownership left, autoreleased blocks stay up to the next sweep. -/
theorem survives_of_spared (malloc : Malloc) (owned : Nat → List Nat) {calls : List Call}
    {pool : Pool} (h : RunSpared malloc owned [] calls pool) :
    Survives malloc owned pool calls := by
  rintro before mem cb after rest rfl hafter p x p' hbefore hfind hx hrun
  rw [List.append_assoc] at h
  obtain ⟨pending', hs⟩ := RunSpared.after h hbefore
  obtain ⟨r, hr, hrest⟩ := runCalls_cons hrun
  obtain ⟨hxp, hm⟩ := find_some hfind
  have hpending : x.serial ∈ (Call.autorelease mem cb).pendingAfter pending' p := by
    simp only [Call.pendingAfter, hfind, if_neg hx]
    exact List.mem_cons_self
  have hspared : (Call.autorelease mem cb).Spared owned [x.serial] p := trivial
  have hin : InPool x.serial mem r.2 :=
    InPool.run List.mem_cons_self hspared id hr ⟨x, hxp, rfl, hm⟩
  exact hin.runCalls hpending ((hs.2 r hr).left) hafter hrest

theorem RunSpared.cons {c : Call} {calls : List Call} {r : Option Nat × Pool}
    (hs : c.Spared owned pending pool) (hr : c.run malloc owned pool = .ok r)
    (h : RunSpared malloc owned (c.pendingAfter pending pool) calls r.2) :
    RunSpared malloc owned pending (c :: calls) pool := by
  refine ⟨hs, fun r' hr' => ?_⟩
  obtain rfl := Except.ok.inj (hr.symm.trans hr')
  exact h

theorem GivesUpHeld.cons {held : Held} {c : Call} {calls : List Call} {r : Option Nat × Pool}
    (hs : c.Holds held) (hr : c.run malloc owned pool = .ok r)
    (h : GivesUpHeld malloc owned (c.heldAfter held r.1) calls r.2) :
    GivesUpHeld malloc owned held (c :: calls) pool := by
  refine ⟨hs, fun r' hr' => ?_⟩
  obtain rfl := Except.ok.inj (hr.symm.trans hr')
  exact h

/-- A block with two owners, of whom the one that autoreleases is the last, and another one that
is retained and freed before the sweep. -/
def lastAutoreleases : List Call :=
  [.alloc 8, .alloc 8, .retain 1, .release 1 false, .autorelease 1 false, .retain 2,
    .release 2 false, .release 2 false, .releaseUnused]

theorem survives_of_spared_last :
    Survives bumpMalloc (fun _ => []) ⟨[], 0, []⟩ lastAutoreleases := by
  have hnone : ∀ fuel mem pool, ReleaseSpared (fun _ => []) [] (fuel + 1) mem false pool :=
    fun _ _ _ _ _ _ => ⟨List.not_mem_nil, nofun⟩
  refine survives_of_spared bumpMalloc (fun _ => []) ?_
  refine RunSpared.cons (fun _ _ _ _ => List.not_mem_nil) rfl ?_
  refine RunSpared.cons (fun _ _ _ _ => List.not_mem_nil) rfl ?_
  refine RunSpared.cons trivial rfl ?_
  refine RunSpared.cons (hnone _ _ _) rfl ?_
  refine RunSpared.cons trivial rfl (RunSpared.cons trivial rfl ?_)
  refine RunSpared.cons (fun x hx hr => ?_) rfl (RunSpared.cons (fun x hx hr => ?_) rfl ?_)
  · cases hx
    cases hr
  · cases hx
    exact ⟨by decide, nofun⟩
  · exact RunSpared.cons trivial rfl trivial

def firstAutoreleases : List Call := [.alloc 8, .retain 1, .autorelease 1 false, .release 1 false]

theorem not_survives :
    ¬∀ (malloc : Malloc) (owned : Nat → List Nat) (pool : Pool) (calls : List Call), Start pool →
      GivesUpHeld malloc owned (fun _ => 0) calls pool → Survives malloc owned pool calls := by
  intro h
  have hheld : GivesUpHeld bumpMalloc (fun _ => []) (fun _ => 0) firstAutoreleases ⟨[], 0, []⟩ := by
    refine GivesUpHeld.cons trivial rfl (GivesUpHeld.cons trivial rfl ?_)
    exact GivesUpHeld.cons (by decide) rfl (GivesUpHeld.cons (by decide) rfl trivial)
  have hs := h bumpMalloc (fun _ => []) ⟨[], 0, []⟩ firstAutoreleases
    ⟨List.nodup_nil, List.nodup_nil, List.not_mem_nil, nofun, rfl⟩ hheld
  obtain ⟨x, hx, -⟩ := hs [.alloc 8, .retain 1] 1 false [.release 1 false] [] rfl
    (fun c hc => by obtain rfl := List.mem_singleton.mp hc; exact id) _ _ _ rfl rfl (by decide) rfl
  exact List.not_mem_nil hx

end Runs

end LcClibs.Memory.Autorelease
