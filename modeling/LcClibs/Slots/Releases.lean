import Mathlib
import LcClibs.Memory.Safety
import LcClibs.Slots.Contents

namespace LcClibs.Slots.Releases

open Platform Lib.Runs Memory.Managed Memory.Safety Slots.Macros Slots.Contents
open Mmo.Containers (Store Object notNull reserveLoop)

section Model

/-- The store with the arrays in the blocks of its lists, by serial number. -/
structure SlotStore where
  store : Store
  arrays : Nat → UtArray Nat

def SlotStore.withPool (t : SlotStore) (pool : Pool) : SlotStore :=
  { t with store := { t.store with pool := pool } }

def SlotStore.free (t : SlotStore) (serial : Nat) : Except Stop SlotStore := do
  let pool ← t.store.pool.free serial false
  return t.withPool pool

/-- An array of objects retains what it takes in, with `ut_ast_copy`, and releases what it gives
up, with `ut_ast_del`. -/
def utAstIcd (releaseMmobj : Nat → SlotStore → Except Stop SlotStore) :
    UtIcd (StateT SlotStore (Except Stop)) Nat where
  init := none
  copy := some fun src t =>
    (Mmo.Containers.retainMmobj src t.store).map fun s => (src, { t with store := s })
  dtor := some fun ptr t => (releaseMmobj ptr t).map fun t => ((), t)
  zero := 0

def unlessNull (release : Nat → SlotStore → Except Stop SlotStore) (mem : Nat) (t : SlotStore) :
    Except Stop SlotStore :=
  if mem = 0 then .ok t else release mem t

/-- The destroy functions of an object, of which that of a list is `utarray_done`. -/
def destroyObject (release : Nat → SlotStore → Except Stop SlotStore) (serial : Nat)
    (t : SlotStore) : Except Stop SlotStore :=
  match t.store.objects serial with
  | .mmList _ _ => do
    let (a, t) ← utarrayDone (utAstIcd (unlessNull release)) (t.arrays serial) t
    return { t with arrays := Function.update t.arrays serial a }
  | object => object.slots.foldlM (fun t mem => release mem t) t

/-- The release function of the pool, with the destroy functions on the slots as the callback. -/
def mgnMemReleaseImpl : Nat → Nat → Bool → Bool → SlotStore → Except Stop SlotStore
  | 0, _, _, _, _ => .error .outOfFuel
  | fuel + 1, originMem, release, cb, t =>
    match t.store.pool.find originMem with
    | none => .ok t
    | some x =>
      if x.r = 0 then .ok t
      else do
        let pool := t.store.pool.update x.serial fun x => { x with r := x.r - 1, cb := cb }
        if x.r - 1 = 0 ∧ release then
          let t ←
            if cb then
              destroyObject (fun mem t => mgnMemReleaseImpl fuel mem true true t) x.serial
                (t.withPool (pool.note [.callback x.serial (x.serial ∈ pool.serials)]))
            else pure (t.withPool pool)
          t.free x.serial
        else return t.withPool pool

def mgnMemReleaseWCb (originMem : Nat) (t : SlotStore) : Except Stop SlotStore :=
  mgnMemReleaseImpl (t.store.pool.retained + 1) originMem true true t

def mgnMemAutoreleaseWCb (originMem : Nat) (t : SlotStore) : Except Stop SlotStore :=
  mgnMemReleaseImpl (t.store.pool.retained + 1) originMem false true t

def callback (serial : Nat) (t : SlotStore) : Except Stop SlotStore :=
  destroyObject mgnMemReleaseWCb serial
    (t.withPool (t.store.pool.note [.callback serial (serial ∈ t.store.pool.serials)]))

def sweep (t : SlotStore) (mem : Nat) : Except Stop SlotStore :=
  match t.store.pool.find mem with
  | none => .ok t
  | some x =>
    if x.r = 0 then do
      let t ← if x.cb then callback x.serial t else pure t
      t.free x.serial
    else .ok t

def releaseUnusedLoop : Nat → SlotStore → Except Stop SlotStore
  | 0, _ => .error .outOfFuel
  | fuel + 1, t => do
    let batch := unusedBatch t.store.pool
    let t ← batch.foldlM sweep t
    if batch.length ≥ batchSize then releaseUnusedLoop fuel t else return t

def mgnMemReleaseUnused (t : SlotStore) : Except Stop SlotStore :=
  releaseUnusedLoop (t.store.pool.records.length + 1) t

def releaseMmobj (mem : Nat) (t : SlotStore) : Except Stop SlotStore :=
  if mem = 0 then .ok t
  else do
    let _ ← Mmo.Containers.deref mem t.store
    mgnMemReleaseWCb mem t

def autoreleaseMmobj (mem : Nat) (t : SlotStore) : Except Stop SlotStore :=
  if mem = 0 then .ok t
  else do
    let _ ← Mmo.Containers.deref mem t.store
    mgnMemAutoreleaseWCb mem t

def Doubled (n : Nat) : Prop := n = 0 ∨ ∃ k ≤ 28, n = 8 * 2 ^ k

/-- While the blocks of `D` are destroyed, the slots behind every list in the pool hold its
elements, and the lists that were destroyed and are gone have given their slots back. -/
structure Backed (D : Set Nat) (t : SlotStore) : Prop where
  inv : Inv D t.store.pool
  slots : ∀ serial ∈ t.store.pool.serials, ∀ list n, t.store.objects serial = .mmList list n →
    Represents (t.arrays serial) (list, n) ∧ Doubled n
  given : ∀ serial ∉ t.store.pool.serials, .callback serial true ∈ t.store.pool.log →
    ∀ list n, t.store.objects serial = .mmList list n →
      (t.arrays serial).n = 0 ∧ (t.arrays serial).d = []

/-- A run on the slots comes to the given store, whose lists the slots hold. -/
def Lands (D : Set Nat) (s : Store) (run : Except Stop SlotStore) : Prop :=
  ∃ arrays, run = .ok ⟨s, arrays⟩ ∧ Backed D ⟨s, arrays⟩

/-- Where the pool comes to a state by what the contents of the objects release, the slots come
to the same one. -/
def Follows (objects : Nat → Object) (D : Set Nat) (f : SlotStore → Except Stop SlotStore)
    (g : Pool → Except Stop Pool) : Prop :=
  ∀ pool pool' arrays, Backed D ⟨⟨pool, objects⟩, arrays⟩ → g pool = .ok pool' →
    Lands D ⟨pool', objects⟩ (f ⟨⟨pool, objects⟩, arrays⟩)

end Model

section Doubling

variable {n n' : Nat}

theorem Doubled.le (h : Doubled n) : n ≤ 2 ^ 31 := by
  obtain rfl | ⟨k, hk, rfl⟩ := h
  · exact Nat.zero_le _
  · calc 8 * 2 ^ k ≤ 8 * 2 ^ 28 := Nat.mul_le_mul_left _ (Nat.pow_le_pow_right (by decide) hk)
      _ = 2 ^ 31 := by norm_num

theorem Doubled.next (h : Doubled n) : Doubled (if n ≠ 0 then uint (2 * n) else 8) := by
  obtain rfl | ⟨k, hk, rfl⟩ := h
  · exact .inr ⟨0, by decide, rfl⟩
  · rw [if_pos (by positivity)]
    obtain hlt | rfl := hk.lt_or_eq
    · have hpow : 2 * (8 * 2 ^ k) = 8 * 2 ^ (k + 1) := by ring
      have hle : 8 * 2 ^ (k + 1) ≤ 2 ^ 31 := Doubled.le (.inr ⟨k + 1, hlt, rfl⟩)
      rw [hpow, uint_of_lt (by omega)]
      exact .inr ⟨k + 1, hlt, rfl⟩
    · exact .inl (by decide)

theorem reserveLoop_doubled (fuel need : Nat) (h : Doubled n)
    (hrun : reserveLoop fuel need n = .ok n') : Doubled n' := by
  induction fuel generalizing n with
  | zero => cases hrun
  | succ fuel ih =>
    rw [reserveLoop] at hrun
    by_cases hmore : need > n
    · rw [if_pos hmore] at hrun
      exact ih h.next hrun
    · rw [if_neg hmore] at hrun
      cases hrun
      exact h

theorem reserveLoop_endless_of_doubled {need : Nat} (hneed : 2 ^ 31 < need) (fuel : Nat)
    (h : Doubled n) : reserveLoop fuel need n = .error .endless := by
  induction fuel generalizing n with
  | zero => rfl
  | succ fuel ih =>
    have hle := h.le
    rw [reserveLoop, if_pos (by omega)]
    exact ih h.next

/-- Sixty-four rounds decide whether the doubling comes to an end. -/
theorem reserveLoop_endless {need : Nat} (hn : n < 2 ^ 32)
    (h : reserveLoop 64 need n = .error .endless) (fuel : Nat) :
    reserveLoop fuel need n = .error .endless := by
  have hneed : 2 ^ 31 < need := by
    by_contra hle
    obtain ⟨n', hrun, -⟩ := reserveLoop_enough (not_lt.mp hle) hn
    rw [hrun] at h
    cases h
  -- every round shifts one more bit out, until only zero is left
  have hshift : ∀ d ≤ 32, ∀ rounds > d, ∀ m < 2 ^ 32, 2 ^ (32 - d) ∣ m →
      reserveLoop rounds need m = .error .endless →
      ∀ fuel, reserveLoop fuel need m = .error .endless := by
    intro d
    induction d with
    | zero =>
      intro _ rounds _ m hm hdvd _ fuel
      exact reserveLoop_endless_of_doubled hneed fuel (.inl (Nat.eq_zero_of_dvd_of_lt hdvd hm))
    | succ d ih =>
      intro hd rounds hrounds m hm hdvd hrun fuel
      by_cases h0 : m = 0
      · exact reserveLoop_endless_of_doubled hneed fuel (.inl h0)
      obtain ⟨rounds, rfl⟩ : ∃ r, rounds = r + 1 := ⟨rounds - 1, by omega⟩
      rw [reserveLoop] at hrun
      by_cases hmore : need > m
      · rw [if_pos hmore, if_pos h0] at hrun
        have hpow : 2 ^ (32 - d) ∣ 2 * m := by
          rw [show 32 - d = 32 - (d + 1) + 1 by omega, pow_succ, mul_comm]
          exact Nat.mul_dvd_mul_left 2 hdvd
        have hdvd' : 2 ^ (32 - d) ∣ uint (2 * m) :=
          (Nat.dvd_mod_iff (pow_dvd_pow 2 (Nat.sub_le 32 d))).mpr hpow
        cases fuel with
        | zero => rfl
        | succ fuel =>
          rw [reserveLoop, if_pos hmore, if_pos h0]
          exact ih (by omega) rounds (by omega) _ (Nat.mod_lt _ (by decide)) hdvd' hrun fuel
      · rw [if_neg hmore] at hrun
        cases hrun
  exact hshift 32 le_rfl 64 (by decide) n hn (one_dvd n) h fuel

end Doubling

section Rules

variable {objects : Nat → Object} {D : Set Nat} {pool pool' : Pool} {arrays : Nat → UtArray Nat}
  {s s' : Store} {serial : Nat} {x : Record}

theorem Lands.bind {run : Except Stop SlotStore} {f : SlotStore → Except Stop SlotStore}
    (h : Lands D s run) (hf : ∀ arrays, Backed D ⟨s, arrays⟩ → Lands D s' (f ⟨s, arrays⟩)) :
    Lands D s' (run >>= f) := by
  obtain ⟨arrays, hrun, hb⟩ := h
  rw [bind_ok hrun]
  exact hf arrays hb

theorem Follows.foldlM {f : SlotStore → Nat → Except Stop SlotStore}
    {g : Pool → Nat → Except Stop Pool}
    (step : ∀ mem, Follows objects D (fun t => f t mem) fun pool => g pool mem)
    (mems : List Nat) :
    Follows objects D (fun t => mems.foldlM f t) fun pool => mems.foldlM g pool := by
  induction mems with
  | nil =>
    intro pool pool' arrays hb hrun
    cases hrun
    exact ⟨arrays, rfl, hb⟩
  | cons mem mems ih =>
    intro pool pool' arrays hb hrun
    simp only [List.foldlM_cons] at hrun ⊢
    obtain ⟨pool1, h1, h2⟩ := ok_of_bind hrun
    exact (step mem pool pool1 arrays hb h1).bind fun arrays1 hb1 =>
      ih pool1 pool' arrays1 hb1 h2

theorem Backed.update (h : Backed D ⟨⟨pool, objects⟩, arrays⟩) {n : Nat} (hn : n ∉ D)
    {f : Record → Record} (hm : ∀ x, (f x).m = x.m) (hs : ∀ x, (f x).serial = x.serial) :
    Backed D ⟨⟨pool.update n f, objects⟩, arrays⟩ where
  inv := h.inv.update hs hm hn
  slots k hk := h.slots k (serials_update hs ▸ hk)
  given k hk := h.given k fun hin =>
    hk (show k ∈ (pool.update n f).serials by rwa [serials_update hs])

theorem Backed.enter (h : Backed D ⟨⟨pool, objects⟩, arrays⟩) (hx : x ∈ pool.records)
    (h0 : x.r = 0) : Backed (insert x.serial D) ⟨⟨pool, objects⟩, arrays⟩ :=
  ⟨h.inv.enter hx h0, h.slots, h.given⟩

theorem Backed.callback (h : Backed D ⟨⟨pool, objects⟩, arrays⟩) (hx : x ∈ pool.records)
    (h0 : x.r = 0) (hn : x.serial ∉ D) :
    Backed (insert x.serial D)
      ⟨⟨pool.note [.callback x.serial (x.serial ∈ pool.serials)], objects⟩, arrays⟩ where
  inv := h.inv.callback hx h0 hn
  slots := h.slots
  given k hk hlog := by
    obtain hlog | hlog := List.mem_append.mp hlog
    · exact h.given k hk hlog
    · obtain ⟨rfl, -⟩ := Event.callback.inj (List.mem_singleton.mp hlog)
      exact absurd (serial_mem hx) hk

/-- A block goes. Where it is a list that was destroyed, its slots are gone by then. -/
theorem Backed.gone (h : Backed (insert serial D) ⟨⟨pool, objects⟩, arrays⟩) (hn : serial ∉ D)
    (a : UtArray Nat)
    (ha : .callback serial true ∈ pool.log → ∀ list n, objects serial = .mmList list n →
      a.n = 0 ∧ a.d = [])
    (hfree : pool.free serial false = .ok pool') :
    Backed D ⟨⟨pool', objects⟩, Function.update arrays serial a⟩ := by
  obtain ⟨p, hp, hr, -⟩ := free_released h.inv hn
  obtain rfl := Except.ok.inj (hp.symm.trans hfree)
  rw [Pool.free] at hfree
  split at hfree
  · cases hfree
    refine ⟨hr.inv, fun k hk list n ho => ?_, fun k hk hlog list n ho => ?_⟩
    · obtain ⟨hk, hne⟩ := mem_serials_delete.mp hk
      show Represents (Function.update arrays serial a k) _ ∧ _
      rw [Function.update_of_ne hne]
      exact h.slots k hk list n ho
    · have hold : .callback k true ∈ pool.log := by simpa [Pool.note, Pool.delete] using hlog
      show (Function.update arrays serial a k).n = 0 ∧ (Function.update arrays serial a k).d = []
      by_cases hks : k = serial
      · subst hks
        rw [Function.update_self]
        exact ha hold list n ho
      · rw [Function.update_of_ne hks]
        exact h.given k (fun hin => hk (mem_serials_delete.mpr ⟨hin, hks⟩)) hold list n ho
  · cases hfree

theorem Backed.freed (h : Backed (insert serial D) ⟨⟨pool, objects⟩, arrays⟩) (hn : serial ∉ D)
    (hother : .callback serial true ∈ pool.log → ∀ list n, objects serial ≠ .mmList list n)
    (hfree : pool.free serial false = .ok pool') :
    Lands D ⟨pool', objects⟩ (SlotStore.free ⟨⟨pool, objects⟩, arrays⟩ serial) := by
  have hgone := h.gone hn (arrays serial)
    (fun hlog list n ho => absurd ho (hother hlog list n)) hfree
  rw [Function.update_eq_self] at hgone
  exact ⟨arrays, bind_ok hfree, hgone⟩

/-- A block that goes without its destroy functions was not destroyed. -/
theorem Backed.dropped (h : Backed D ⟨⟨pool, objects⟩, arrays⟩) (hx : x ∈ pool.records)
    (h0 : x.r = 0) (hn : x.serial ∉ D) (hfree : pool.free x.serial false = .ok pool') :
    Lands D ⟨pool', objects⟩ (SlotStore.free ⟨⟨pool, objects⟩, arrays⟩ x.serial) :=
  (h.enter hx h0).freed hn
    (fun hlog => absurd hlog (h.inv.called x.serial (serial_mem hx) hn)) hfree

end Rules

section Destroying

variable {objects : Nat → Object} {D : Set Nat} {release : Nat → SlotStore → Except Stop SlotStore}
  {g : Pool → Nat → Except Stop Pool} {pool pool1 pool' : Pool} {arrays : Nat → UtArray Nat}
  {x : Record}

/-- Every element is released in turn, but null. -/
theorem destroyAll_follows
    (hrelease : ∀ mem, Follows objects D (release mem) fun pool => g pool mem) (list : List Nat)
    (hb : Backed D ⟨⟨pool, objects⟩, arrays⟩)
    (hrun : (notNull list).foldlM g pool = .ok pool') :
    ∃ arrays', destroyAll (utAstIcd (unlessNull release)) list ⟨⟨pool, objects⟩, arrays⟩ =
        .ok ((), ⟨⟨pool', objects⟩, arrays'⟩) ∧
      Backed D ⟨⟨pool', objects⟩, arrays'⟩ := by
  induction list generalizing pool arrays with
  | nil =>
    cases hrun
    exact ⟨arrays, rfl, hb⟩
  | cons ptr list ih =>
    have hcons : ∀ t t', unlessNull release ptr t = .ok t' →
        destroyAll (utAstIcd (unlessNull release)) (ptr :: list) t =
          destroyAll (utAstIcd (unlessNull release)) list t' := by
      intro t t' h
      have hdtor : (unlessNull release ptr t).map (fun t => ((), t)) = .ok ((), t') := by
        rw [h]
        rfl
      exact step_ok hdtor
    by_cases h0 : ptr = 0
    · rw [notNull, List.filter_cons_of_neg (by simp [h0])] at hrun
      rw [hcons _ _ (if_pos h0)]
      exact ih hb hrun
    · rw [notNull, List.filter_cons_of_pos (by simp [h0]), List.foldlM_cons] at hrun
      obtain ⟨pool1, h1, h2⟩ := ok_of_bind hrun
      obtain ⟨arrays1, hrelease1, hb1⟩ := hrelease ptr pool pool1 arrays hb h1
      rw [hcons _ _ ((if_neg h0).trans hrelease1)]
      exact ih hb1 h2

/-- A block is destroyed and freed: where it is a list, `utarray_done` releases its elements. -/
theorem destroyObject_lands (hb : Backed D ⟨⟨pool, objects⟩, arrays⟩) (hx : x ∈ pool.records)
    (h0 : x.r = 0) (hn : x.serial ∉ D)
    (hrelease : ∀ mem, Follows objects (insert x.serial D) (release mem) fun pool => g pool mem)
    (hrun : (objects x.serial).slots.foldlM g
      (pool.note [.callback x.serial (x.serial ∈ pool.serials)]) = .ok pool1)
    (hfree : pool1.free x.serial false = .ok pool') :
    Lands D ⟨pool', objects⟩ (destroyObject release x.serial
      ⟨⟨pool.note [.callback x.serial (x.serial ∈ pool.serials)], objects⟩, arrays⟩ >>=
        fun t => t.free x.serial) := by
  have hcalled := hb.callback hx h0 hn
  cases ho : objects x.serial with
  | mmList list n =>
    rw [ho] at hrun
    obtain ⟨hrep, -⟩ := hb.slots x.serial (serial_mem hx) list n ho
    obtain ⟨arrays1, hall, hb1⟩ := destroyAll_follows hrelease list hcalled hrun
    refine ⟨_, ?_, hb1.gone hn { arrays x.serial with n := 0, d := [] }
      (fun _ _ _ _ => ⟨rfl, rfl⟩) hfree⟩
    simp only [destroyObject, ho]
    rw [done_eq hrep, step_ok hall]
    exact bind_ok hfree
  | _ =>
    rw [ho] at hrun
    obtain ⟨arrays1, hall, hb1⟩ := Follows.foldlM hrelease _ _ pool1 arrays hcalled hrun
    simp only [destroyObject, ho]
    rw [bind_ok hall]
    exact hb1.freed hn (fun _ _ _ he => Object.noConfusion (ho.symm.trans he)) hfree

end Destroying

section Releasing

variable (objects : Nat → Object) (D : Set Nat)

theorem mgnMemReleaseImpl_follows (fuel mem : Nat) (release cb : Bool) :
    Follows objects D (mgnMemReleaseImpl fuel mem release cb)
      (Memory.Managed.mgnMemReleaseImpl (fun serial => (objects serial).slots) fuel mem release
        cb) := by
  induction fuel generalizing D mem release cb with
  | zero =>
    intro pool pool' arrays _ hrun
    cases hrun
  | succ fuel ih =>
    intro pool pool' arrays hb hrun
    rw [Memory.Managed.mgnMemReleaseImpl] at hrun
    rw [mgnMemReleaseImpl]
    cases hf : pool.find mem with
    | none =>
      simp only [hf] at hrun ⊢
      cases hrun
      exact ⟨arrays, rfl, hb⟩
    | some x =>
      simp only [hf] at hrun ⊢
      by_cases h0 : x.r = 0
      · simp only [if_pos h0] at hrun ⊢
        cases hrun
        exact ⟨arrays, rfl, hb⟩
      · simp only [if_neg h0] at hrun ⊢
        have hx := (find_some hf).1
        have hn := hb.inv.not_dying hx h0
        let f : Record → Record := fun x => { x with r := x.r - 1, cb := cb }
        have hb1 : Backed D ⟨⟨pool.update x.serial f, objects⟩, arrays⟩ :=
          hb.update hn (fun _ => rfl) fun _ => rfl
        have hx1 : f x ∈ (pool.update x.serial f).records := mem_update hx rfl
        by_cases hlast : x.r - 1 = 0 ∧ release = true
        · simp only [if_pos hlast] at hrun ⊢
          cases cb with
          | false => exact hb1.dropped (x := f x) hx1 hlast.1 hn hrun
          | true =>
            obtain ⟨pool1, h1, hfree⟩ := ok_of_bind hrun
            exact destroyObject_lands (x := f x) hb1 hx1 hlast.1 hn
              (fun mem => ih (insert x.serial D) mem true true) h1 hfree
        · simp only [if_neg hlast] at hrun ⊢
          cases hrun
          exact ⟨arrays, rfl, hb1⟩

theorem mgnMemReleaseWCb_follows (mem : Nat) :
    Follows objects D (mgnMemReleaseWCb mem)
      fun pool => Memory.Managed.mgnMemReleaseWCb (fun serial => (objects serial).slots) pool mem :=
  fun pool => mgnMemReleaseImpl_follows objects D (pool.retained + 1) mem true true pool

theorem mgnMemAutoreleaseWCb_follows (mem : Nat) :
    Follows objects D (mgnMemAutoreleaseWCb mem) fun pool =>
      Memory.Managed.mgnMemAutoreleaseWCb (fun serial => (objects serial).slots) pool mem :=
  fun pool => mgnMemReleaseImpl_follows objects D (pool.retained + 1) mem false true pool

theorem sweep_follows (mem : Nat) :
    Follows objects ∅ (fun t => sweep t mem)
      fun pool => Memory.Managed.sweep (fun serial => (objects serial).slots) pool mem := by
  intro pool pool' arrays hb hrun
  simp only [Memory.Managed.sweep] at hrun
  simp only [sweep]
  cases hf : pool.find mem with
  | none =>
    simp only [hf] at hrun ⊢
    cases hrun
    exact ⟨arrays, rfl, hb⟩
  | some x =>
    simp only [hf] at hrun ⊢
    have hx := (find_some hf).1
    have hn : x.serial ∉ (∅ : Set Nat) := Set.notMem_empty _
    by_cases h0 : x.r = 0
    · simp only [if_pos h0] at hrun ⊢
      cases hcb : x.cb with
      | false =>
        rw [hcb] at hrun
        exact hb.dropped hx h0 hn hrun
      | true =>
        rw [hcb] at hrun
        obtain ⟨pool1, h1, hfree⟩ := ok_of_bind hrun
        exact destroyObject_lands hb hx h0 hn (mgnMemReleaseWCb_follows objects _) h1 hfree
    · simp only [if_neg h0] at hrun ⊢
      cases hrun
      exact ⟨arrays, rfl, hb⟩

theorem releaseUnusedLoop_follows (fuel : Nat) :
    Follows objects ∅ (releaseUnusedLoop fuel)
      (Memory.Managed.releaseUnusedLoop (fun serial => (objects serial).slots) fuel) := by
  induction fuel with
  | zero =>
    intro pool pool' arrays _ hrun
    cases hrun
  | succ fuel ih =>
    intro pool pool' arrays hb hrun
    obtain ⟨pool1, h1, h2⟩ := ok_of_bind hrun
    refine (Follows.foldlM (sweep_follows objects) (unusedBatch pool) pool pool1 arrays hb h1).bind
      fun arrays1 hb1 => ?_
    by_cases hfull : (unusedBatch pool).length ≥ batchSize
    · simp only [if_pos hfull] at h2 ⊢
      exact ih pool1 pool' arrays1 hb1 h2
    · simp only [if_neg hfull] at h2 ⊢
      cases h2
      exact ⟨arrays1, rfl, hb1⟩

theorem mgnMemReleaseUnused_follows :
    Follows objects ∅ mgnMemReleaseUnused
      (Memory.Managed.mgnMemReleaseUnused fun serial => (objects serial).slots) :=
  fun pool => releaseUnusedLoop_follows objects (pool.records.length + 1) pool

end Releasing

section Objects

variable {t : SlotStore} {s' : Store} {mem : Nat}

theorem releaseMmobj_lands (h : Backed ∅ t)
    (hrun : Mmo.Containers.releaseMmobj mem t.store = .ok s') :
    Lands ∅ s' (releaseMmobj mem t) := by
  rw [Mmo.Containers.releaseMmobj] at hrun
  rw [releaseMmobj]
  split_ifs at hrun ⊢ with h0
  · cases hrun
    exact ⟨t.arrays, rfl, h⟩
  · obtain ⟨object, hderef, hrun⟩ := ok_of_bind hrun
    obtain ⟨pool', hpool, hrun⟩ := ok_of_bind hrun
    cases hrun
    rw [bind_ok hderef]
    exact mgnMemReleaseWCb_follows t.store.objects ∅ mem _ _ t.arrays h hpool

theorem autoreleaseMmobj_lands (h : Backed ∅ t)
    (hrun : Mmo.Containers.autoreleaseMmobj mem t.store = .ok s') :
    Lands ∅ s' (autoreleaseMmobj mem t) := by
  rw [Mmo.Containers.autoreleaseMmobj] at hrun
  rw [autoreleaseMmobj]
  split_ifs at hrun ⊢ with h0
  · cases hrun
    exact ⟨t.arrays, rfl, h⟩
  · obtain ⟨object, hderef, hrun⟩ := ok_of_bind hrun
    obtain ⟨pool', hpool, hrun⟩ := ok_of_bind hrun
    cases hrun
    rw [bind_ok hderef]
    exact mgnMemAutoreleaseWCb_follows t.store.objects ∅ mem _ _ t.arrays h hpool

theorem releaseUnused_lands (h : Backed ∅ t)
    (hrun : Mmo.Containers.releaseUnused t.store = .ok s') :
    Lands ∅ s' (mgnMemReleaseUnused t) := by
  obtain ⟨pool', hpool, hrun⟩ := ok_of_bind hrun
  cases hrun
  exact mgnMemReleaseUnused_follows t.store.objects _ _ t.arrays h hpool

end Objects

end LcClibs.Slots.Releases
