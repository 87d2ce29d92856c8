import Mathlib
import LcClibs.Memory.Autorelease
import LcClibs.Memory.Growth

namespace LcClibs.Memory.Sizes

open Platform Lib.Runs Memory.Managed Memory.Safety Memory.Autorelease Memory.Growth

section Model

variable (malloc : Malloc) (owned : Nat → List Nat)

/-- A caller writes into a block, inside the size it has asked for. -/
def write (mem pos : Nat) (bytes : List UInt8) (pool : Pool) : Except Stop Pool :=
  match pool.find mem with
  | none => .ok pool
  | some x =>
    if pos + bytes.length ≤ x.s then
      if x.bytes.length < pos + bytes.length then
        .error (.fault (.writeOutside x.bytes.length))
      else .ok (pool.update x.serial fun x =>
        { x with bytes := x.bytes.take pos ++ bytes ++ x.bytes.drop (pos + bytes.length) })
    else .ok pool

inductive Use
  | call (c : Call)
  | write (mem pos : Nat) (bytes : List UInt8)

def Use.run : Use → Pool → Except Stop (Option Nat × Pool)
  | call c, pool => c.run malloc owned pool
  | write mem pos bytes, pool => (Sizes.write mem pos bytes pool).map fun p => (none, p)

def Sized (pool : Pool) : Prop := ∀ x ∈ pool.records, x.s ≤ x.bytes.length

/-- What lies at the address that a call for a block, or for more of it, has answered. -/
structure Usable (pool : Pool) (mem newSize a : Nat) (pool' : Pool) : Prop where
  bytes : ∃ y, pool'.find a = some y ∧ newSize ≤ y.bytes.length
  copied : ∀ x y, pool.find mem = some x → x.s < newSize → pool'.find a = some y →
    y.bytes = x.bytes.take x.s ++ List.replicate (newSize - x.s) 0
  kept : ∀ x, pool.find mem = some x → x.r ≠ 1 →
    ∃ x', pool'.find mem = some x' ∧ x'.serial = x.serial ∧ x'.s = x.s ∧ x'.bytes = x.bytes

def Answers (pool : Pool) (mem newSize : Nat) : Prop :=
  ∃ r, mgnMemRalloc malloc pool mem newSize = .ok r ∧
    ∀ a, r.1 = some a → Usable pool mem newSize a r.2

/-- A write goes into memory that is there, and a block that is given is one of that size. -/
def Use.Served (pool : Pool) : Use → Prop
  | call (.alloc newSize) => Answers malloc pool 0 newSize
  | call (.ralloc mem newSize) => Answers malloc pool mem newSize
  | write mem pos bytes => ∀ f, Sizes.write mem pos bytes pool ≠ .error (.fault f)
  | _ => True

/-- Sizes and contents are right in every state of a run. -/
def SizesHold : List Use → Pool → Prop
  | [], pool => Sized pool
  | u :: uses, pool => Sized pool ∧ u.Served malloc pool ∧
    ∀ r, u.run malloc owned pool = .ok r → SizesHold uses r.2

def Grants (pool : Pool) (mem newSize : Nat) : Prop :=
  newSize ≠ 0 ∧ (platMemAllocate malloc pool newSize).isSome ∧
    match pool.find mem with
    | some x => x.s < newSize ∧ (x.r = 1 ∨ malloc.record pool.clock = true)
    | none => mem = 0 ∧ malloc.record pool.clock = true

/-- Memory is given for sizes that are a `uint` only. -/
def Use.Fits (pool : Pool) : Use → Prop
  | call (.alloc newSize) => Grants malloc pool 0 newSize → newSize < 2 ^ 32
  | call (.ralloc mem newSize) => Grants malloc pool mem newSize → newSize < 2 ^ 32
  | _ => True

def RunFits : List Use → Pool → Prop
  | [], _ => True
  | u :: uses, pool => u.Fits malloc pool ∧
    ∀ r, u.run malloc owned pool = .ok r → RunFits uses r.2

end Model

section Table

variable {pool : Pool} {x : Record} {mem n : Nat}

theorem find_update {f : Record → Record} (hm : ∀ x, (f x).m = x.m) :
    (pool.update n f).find mem =
      (pool.find mem).map fun x => if x.serial = n then f x else x := by
  have hsame : ∀ x : Record, (if x.serial = n then f x else x).m = x.m := by
    intro x
    by_cases he : x.serial = n
    · rw [if_pos he, hm]
    · rw [if_neg he]
  simp only [Pool.find, Pool.update, List.find?_map]
  congr 2
  funext x
  simp [hsame]

theorem find_add_self (h : x.m ∉ pool.live) : (pool.add x).find x.m = some x := by
  have hnone : pool.records.find? (fun y => y.m = x.m) = none := by
    rw [List.find?_eq_none]
    intro y hy he
    exact h (List.mem_map.mpr ⟨y, hy, by simpa using he⟩)
  simp [Pool.find, Pool.add, List.find?_append, hnone]

theorem find_add_of_some {y : Record} (h : pool.find mem = some y) :
    (pool.add x).find mem = some y := by
  simp only [Pool.find] at h
  simp [Pool.find, Pool.add, List.find?_append, h]

theorem givenUp_live : (givenUp pool x).live = pool.live := by
  unfold givenUp
  split_ifs
  · exact live_update fun _ => rfl
  · rfl

theorem find_givenUp (h : pool.find mem = some x) :
    ∃ r, (givenUp pool x).find mem = some { x with r := r } := by
  unfold givenUp
  split_ifs
  · refine ⟨x.r - 1, ?_⟩
    have hf : ({ pool with clock := pool.clock + 1 } : Pool).find mem = some x := h
    rw [find_update (f := fun y : Record => { y with r := y.r - 1 }) fun _ => rfl, hf,
      Option.map_some, if_pos rfl]
  · exact ⟨x.r, h⟩

end Table

section Growing

variable {malloc : Malloc} {pool : Pool} {x : Record} {mem newSize a : Nat}
  {zeros bytes : List UInt8}

theorem platMemAllocate_some (h : platMemAllocate malloc pool newSize = some (a, zeros)) :
    a ∉ pool.live ∧ zeros = List.replicate (uint newSize) 0 := by
  rw [platMemAllocate, Option.map_eq_some_iff] at h
  obtain ⟨b, hb, he⟩ := h
  obtain ⟨rfl, rfl⟩ := Prod.mk.inj he
  exact ⟨(malloc.fresh _ _ _ _ hb).2, rfl⟩

theorem platMemCopy_length {dest src : List UInt8} {size : Nat}
    (h : platMemCopy dest src size = .ok bytes) : bytes.length = dest.length := by
  unfold platMemCopy at h
  split_ifs at h with h1 h2
  obtain rfl := Except.ok.inj h
  rw [List.length_append, List.length_take, List.length_drop]
  omega

/-- The clone into a larger memory, when all sizes are a `uint`. -/
theorem platMemCopy_grown (hs : x.s ≤ x.bytes.length) (hx : x.s < newSize)
    (hn : newSize < 2 ^ 32) :
    platMemCopy (List.replicate (uint newSize) 0) x.bytes x.s =
      .ok (x.bytes.take x.s ++ List.replicate (newSize - x.s) 0) := by
  rw [platMemCopy, uint_of_lt hn, uint_of_lt (hx.trans hn), if_neg (by omega),
    if_neg (by rw [List.length_replicate]; omega), List.drop_replicate]

theorem error_copy {e : Stop} (h : mgnMemRalloc malloc pool mem newSize = .error e) :
    ∃ x a zeros, pool.find mem = some x ∧ x.s < newSize ∧ Grants malloc pool mem newSize ∧
      platMemAllocate malloc pool newSize = some (a, zeros) ∧
      platMemCopy zeros x.bytes x.s = .error e := by
  have hcopied : ∀ {dest src : List UInt8} {size : Nat} {α : Type} {f : List UInt8 → α},
      (do let bytes ← platMemCopy dest src size; return f bytes : Except Stop α) = .error e →
      platMemCopy dest src size = .error e := by
    intro dest src size α f h
    cases hc : platMemCopy dest src size with
    | error e' =>
      rw [hc] at h
      cases h
      rfl
    | ok bytes =>
      rw [bind_ok hc] at h
      cases h
  unfold mgnMemRalloc at h
  dsimp only at h
  by_cases h0 : newSize = 0
  · rw [if_pos h0] at h
    cases h
  rw [if_neg h0] at h
  cases hf : pool.find mem with
  | none =>
    rw [hf] at h
    dsimp only at h
    split_ifs at h
    cases ha : platMemAllocate malloc pool newSize <;> simp [ha] at h
  | some x =>
    rw [hf] at h
    dsimp only at h
    by_cases hs : newSize > x.s
    · rw [if_pos hs] at h
      have hgrants : ∀ p, platMemAllocate malloc pool newSize = some p →
          (x.r = 1 ∨ malloc.record pool.clock = true) → Grants malloc pool mem newSize := by
        intro p hp hr
        refine ⟨h0, by rw [hp]; rfl, ?_⟩
        rw [hf]
        exact ⟨hs, hr⟩
      cases ha : platMemAllocate malloc pool newSize with
      | none =>
        simp only [ha] at h
        split_ifs at h
      | some p =>
        simp only [ha] at h
        by_cases h1 : x.r = 1
        · rw [if_pos h1] at h
          exact ⟨x, p.1, p.2, rfl, hs, hgrants p ha (.inl h1), rfl, hcopied h⟩
        · rw [if_neg h1] at h
          by_cases hr : malloc.record pool.clock = true
          · rw [if_pos hr] at h
            exact ⟨x, p.1, p.2, rfl, hs, hgrants p ha (.inr hr), rfl, hcopied h⟩
          · rw [if_neg hr] at h
            cases h
    · rw [if_neg hs] at h
      cases h

theorem usable_new {pool' : Pool} {y : Record} (hlive : y.m ∉ pool'.live)
    (hlen : newSize ≤ y.bytes.length)
    (hcopied : ∀ x, pool.find mem = some x → x.s < newSize →
      y.bytes = x.bytes.take x.s ++ List.replicate (newSize - x.s) 0)
    (hkept : ∀ x, pool.find mem = some x → x.r ≠ 1 → ∃ r, pool'.find mem = some { x with r := r }) :
    Usable pool mem newSize y.m (pool'.add y) where
  bytes := ⟨y, find_add_self hlive, hlen⟩
  copied x z hx hs hz := by
    obtain rfl := Option.some.inj ((find_add_self hlive).symm.trans hz)
    exact hcopied x hx hs
  kept x hx hr := by
    obtain ⟨r, hf⟩ := hkept x hx hr
    exact ⟨_, find_add_of_some hf, rfl, rfl, rfl⟩

theorem usable_same (hf : pool.find mem = some x) (hs : newSize ≤ x.s)
    (hx : x.s ≤ x.bytes.length) : Usable pool mem newSize x.m pool := by
  obtain ⟨-, rfl⟩ := find_some hf
  refine ⟨⟨x, hf, hs.trans hx⟩, fun y z hy hlt _ => ?_, fun y hy _ => ⟨y, hy, rfl, rfl, rfl⟩⟩
  obtain rfl := Option.some.inj (hf.symm.trans hy)
  omega

theorem usable_of_outcome {r : Option Nat × Pool} (hs : Sized pool)
    (hn : Grants malloc pool mem newSize → newSize < 2 ^ 32)
    (h : Outcome malloc pool mem newSize r) (ha : r.1 = some a) :
    Usable pool mem newSize a r.2 := by
  cases h with
  | nothing _ | foreign _ _ _ | lost _ _ _ _ | left _ _ _ _ | none _ _ _ _ => cases ha
  | fits _ hf hle =>
    obtain rfl := Option.some.inj ha
    exact usable_same hf hle (hs _ (find_some hf).1)
  | @moved x b zeros bytes hf hlt h1 halloc hcopy =>
    obtain rfl := Option.some.inj ha
    obtain ⟨hnew, rfl⟩ := platMemAllocate_some halloc
    have hlt32 : newSize < 2 ^ 32 :=
      hn ⟨by omega, by rw [halloc]; rfl, by rw [hf]; exact ⟨hlt, .inl h1⟩⟩
    have hgrown := platMemCopy_grown (hs x (find_some hf).1) hlt hlt32
    obtain rfl := Except.ok.inj (hcopy.symm.trans hgrown)
    refine usable_new (y := { x with m := b, s := newSize, bytes := _ }) ?_ ?_ ?_ ?_
    · exact fun hmem => hnew ((List.filter_sublist.map Record.m).subset hmem)
    · have hlen := platMemCopy_length hcopy
      rw [List.length_replicate, uint_of_lt hlt32] at hlen
      exact hlen.ge
    · intro y hy _
      obtain rfl := Option.some.inj (hf.symm.trans hy)
      rfl
    · intro y hy hne
      obtain rfl := Option.some.inj (hf.symm.trans hy)
      exact absurd h1 hne
  | @shared x b zeros bytes hf hlt h1 hr halloc hcopy =>
    obtain rfl := Option.some.inj ha
    obtain ⟨hnew, rfl⟩ := platMemAllocate_some halloc
    have hlt32 : newSize < 2 ^ 32 :=
      hn ⟨by omega, by rw [halloc]; rfl, by rw [hf]; exact ⟨hlt, .inr hr⟩⟩
    have hgrown := platMemCopy_grown (hs x (find_some hf).1) hlt hlt32
    obtain rfl := Except.ok.inj (hcopy.symm.trans hgrown)
    refine usable_new (y := newRecord pool.clock b newSize _) ?_ ?_ ?_ ?_
    · rw [givenUp_live]
      exact hnew
    · have hlen := platMemCopy_length hcopy
      rw [List.length_replicate, uint_of_lt hlt32] at hlen
      exact hlen.ge
    · intro y hy _
      obtain rfl := Option.some.inj (hf.symm.trans hy)
      rfl
    · intro y hy _
      obtain rfl := Option.some.inj (hf.symm.trans hy)
      exact find_givenUp hf
  | @block b zeros h0 hf hm hr halloc =>
    obtain rfl := Option.some.inj ha
    obtain ⟨hnew, rfl⟩ := platMemAllocate_some halloc
    have hlt32 : newSize < 2 ^ 32 := hn ⟨h0, by rw [halloc]; rfl, by rw [hf]; exact ⟨hm, hr⟩⟩
    refine usable_new (y := newRecord pool.clock b newSize _) hnew ?_ ?_ ?_
    · rw [newRecord, List.length_replicate, uint_of_lt hlt32]
    · intro y hy
      rw [hf] at hy
      cases hy
    · intro y hy
      rw [hf] at hy
      cases hy

theorem lt_of_outcome {r : Option Nat × Pool} (hg : Grants malloc pool mem newSize)
    (h : Outcome malloc pool mem newSize r)
    (hr : ∀ a, r.1 = some a → Usable pool mem newSize a r.2) : newSize < 2 ^ 32 := by
  obtain ⟨h0, hsome, hfind⟩ := hg
  have hnew : ∀ y : Record, ∀ pool' : Pool, y.m ∉ pool'.live → y.bytes.length = uint newSize →
      Usable pool mem newSize y.m (pool'.add y) → newSize < 2 ^ 32 := by
    rintro y pool' hlive hlen ⟨⟨z, hz, hle⟩, -, -⟩
    obtain rfl := Option.some.inj ((find_add_self hlive).symm.trans hz)
    exact (hle.trans hlen.le).trans_lt (uint_lt newSize)
  cases h with
  | nothing h => exact absurd h h0
  | foreign _ hf hm =>
    rw [hf] at hfind
    exact absurd hfind.1 hm
  | fits _ hf hle =>
    rw [hf] at hfind
    exact absurd hfind.1 (not_lt.mpr hle)
  | lost _ _ _ ha => simp [ha] at hsome
  | left hf _ h1 href =>
    rw [hf] at hfind
    exact absurd ⟨hsome, hfind.2.resolve_left h1⟩ href.not_given
  | none _ hf _ href =>
    rw [hf] at hfind
    exact absurd ⟨hsome, hfind.2⟩ href.not_given
  | moved _ _ _ halloc hcopy =>
    obtain ⟨hlive, rfl⟩ := platMemAllocate_some halloc
    have hlen := platMemCopy_length hcopy
    rw [List.length_replicate] at hlen
    exact hnew _ _ (fun hmem => hlive ((List.filter_sublist.map Record.m).subset hmem)) hlen
      (hr _ rfl)
  | shared _ _ _ _ halloc hcopy =>
    obtain ⟨hlive, rfl⟩ := platMemAllocate_some halloc
    have hlen := platMemCopy_length hcopy
    rw [List.length_replicate] at hlen
    exact hnew _ _ (by rw [givenUp_live]; exact hlive) hlen (hr _ rfl)
  | block _ _ _ _ halloc =>
    obtain ⟨hlive, rfl⟩ := platMemAllocate_some halloc
    exact hnew _ _ hlive List.length_replicate (hr _ rfl)

/-- A call for memory answers as it should when memory is given for a `uint` only. -/
theorem answers_iff (hs : Sized pool) :
    Answers malloc pool mem newSize ↔ (Grants malloc pool mem newSize → newSize < 2 ^ 32) := by
  constructor
  · rintro ⟨r, hrun, hr⟩ hg
    exact lt_of_outcome hg (outcome hrun) hr
  · intro hn
    cases hrun : mgnMemRalloc malloc pool mem newSize with
    | error e =>
      obtain ⟨x, a, zeros, hf, hlt, hg, halloc, hcopy⟩ := error_copy hrun
      obtain ⟨-, rfl⟩ := platMemAllocate_some halloc
      rw [platMemCopy_grown (hs x (find_some hf).1) hlt (hn hg)] at hcopy
      cases hcopy
    | ok r => exact ⟨r, hrun, fun a ha => usable_of_outcome hs hn (outcome hrun) ha⟩

end Growing

section Releasing

variable {pool p p' : Pool}

def Keeps (pool pool' : Pool) : Prop :=
  ∀ y ∈ pool'.records, ∃ x ∈ pool.records, y.m = x.m ∧ y.s = x.s ∧ y.bytes = x.bytes

theorem Keeps.refl (pool : Pool) : Keeps pool pool := fun y hy => ⟨y, hy, rfl, rfl, rfl⟩

theorem Keeps.trans (h : Keeps pool p) (h' : Keeps p p') : Keeps pool p' := by
  intro y hy
  obtain ⟨z, hz, hm, hs, hb⟩ := h' y hy
  obtain ⟨x, hx, hm', hs', hb'⟩ := h z hz
  exact ⟨x, hx, hm.trans hm', hs.trans hs', hb.trans hb'⟩

theorem Keeps.sized (h : Keeps pool p) (hs : Sized pool) : Sized p := by
  intro y hy
  obtain ⟨x, hx, -, hsize, hb⟩ := h y hy
  rw [hsize, hb]
  exact hs x hx

theorem keeps_update {f : Record → Record} {n : Nat}
    (hf : ∀ x, (f x).m = x.m ∧ (f x).s = x.s ∧ (f x).bytes = x.bytes) :
    Keeps pool (pool.update n f) := by
  intro y hy
  obtain ⟨x, hx, rfl⟩ := List.mem_map.mp hy
  by_cases he : x.serial = n
  · rw [if_pos he]
    exact ⟨x, hx, hf x⟩
  · rw [if_neg he]
    exact ⟨x, hx, rfl, rfl, rfl⟩

theorem lasting_keeps : Lasting Keeps where
  refl := Keeps.refl
  trans := Keeps.trans
  giveUp _ _ _ := keeps_update fun _ => ⟨rfl, rfl, rfl⟩
  note p _ := Keeps.refl p
  free {p p' n emptying} h := by
    unfold Pool.free at h
    split at h
    · cases h
      exact fun y hy => ⟨y, (mem_delete.mp hy).1, rfl, rfl, rfl⟩
    · cases h

end Releasing

section Runs

variable {malloc : Malloc} {owned : Nat → List Nat} {pool : Pool}

theorem map_none {x : Except Stop Pool} {r : Option Nat × Pool}
    (h : (x.map fun p => ((none : Option Nat), p)) = .ok r) : x = .ok r.2 := by
  cases x with
  | error e => cases h
  | ok p =>
    cases h
    rfl

theorem ralloc_sized {mem newSize : Nat} {r : Option Nat × Pool} (hs : Sized pool)
    (hn : Grants malloc pool mem newSize → newSize < 2 ^ 32)
    (h : mgnMemRalloc malloc pool mem newSize = .ok r) : Sized r.2 := by
  have hgiven : ∀ x : Record, Keeps pool (givenUp pool x) := by
    intro x
    unfold givenUp
    split_ifs
    · have hupdate : Keeps { pool with clock := pool.clock + 1 }
          (Pool.update { pool with clock := pool.clock + 1 } x.serial
            fun x => { x with r := x.r - 1 }) := keeps_update fun _ => ⟨rfl, rfl, rfl⟩
      exact hupdate
    · exact Keeps.refl pool
  have hadd : ∀ (p : Pool) (y : Record), Sized p → y.s ≤ y.bytes.length → Sized (p.add y) := by
    intro p y hp hy z hz
    obtain hz | hz := List.mem_append.mp hz
    · exact hp z hz
    · obtain rfl := List.mem_singleton.mp hz
      exact hy
  have hdelete : ∀ n, Keeps pool ({ pool with clock := pool.clock + 1 }.delete n) :=
    fun n y hy => ⟨y, (mem_delete.mp hy).1, rfl, rfl, rfl⟩
  have hfound : ∀ a y, r.1 = some a → r.2.find a = some y → newSize ≤ y.bytes.length := by
    intro a y ha hy
    obtain ⟨⟨z, hz, hle⟩, -, -⟩ := usable_of_outcome hs hn (outcome h) ha
    rw [hy] at hz
    rw [Option.some.inj hz]
    exact hle
  cases outcome h with
  | nothing _ | foreign _ _ _ | fits _ _ _ => exact hs
  | lost _ _ _ _ => exact (hdelete _).sized hs
  | left _ _ _ _ => exact (hgiven _).sized hs
  | none _ _ _ _ => exact hs
  | moved _ _ _ halloc _ =>
    obtain ⟨hlive, -⟩ := platMemAllocate_some halloc
    refine hadd _ _ ((hdelete _).sized hs) (hfound _ _ rfl (find_add_self fun hmem => ?_))
    exact hlive ((List.filter_sublist.map Record.m).subset hmem)
  | shared _ _ _ _ halloc _ =>
    obtain ⟨hlive, -⟩ := platMemAllocate_some halloc
    refine hadd _ _ ((hgiven _).sized hs) (hfound _ _ rfl (find_add_self fun hmem => ?_))
    rw [givenUp_live] at hmem
    exact hlive hmem
  | block _ _ _ _ halloc =>
    obtain ⟨hlive, -⟩ := platMemAllocate_some halloc
    exact hadd _ _ hs (hfound _ _ rfl (find_add_self hlive))

theorem write_sized {mem pos : Nat} {bytes : List UInt8} {p : Pool} (hs : Sized pool)
    (h : write mem pos bytes pool = .ok p) : Sized p := by
  unfold write at h
  split at h
  · cases h
    exact hs
  · split_ifs at h
    · cases h
      intro y hy
      obtain ⟨z, hz, rfl⟩ := List.mem_map.mp hy
      have hle := hs z hz
      split_ifs
      · simp only [List.length_append, List.length_take, List.length_drop]
        omega
      · exact hle
    · cases h
      exact hs

theorem Use.sized {u : Use} {r : Option Nat × Pool} (hs : Sized pool) (hu : u.Fits malloc pool)
    (h : u.run malloc owned pool = .ok r) : Sized r.2 := by
  cases u with
  | write mem pos bytes => exact write_sized hs (map_none h)
  | call c =>
    cases c with
    | alloc newSize | ralloc mem newSize => exact ralloc_sized hs hu h
    | retain mem =>
      cases h
      unfold mgnMemRetain
      split
      · exact (keeps_update (f := fun x : Record => { x with r := sizeT (x.r + 1) })
          fun _ => ⟨rfl, rfl, rfl⟩).sized hs
      · exact hs
    | release mem cb | autorelease mem cb =>
      exact (lasting_keeps.mgnMemReleaseImpl _ (map_none h)).sized hs
    | releaseUnused => exact (lasting_keeps.releaseUnusedLoop _ (map_none h)).sized hs
    | releaseAll =>
      exact (lasting_keeps.foldlM (fun _ _ _ hf => lasting_keeps.free hf) (map_none h)).sized hs

theorem Use.served_iff {u : Use} (hs : Sized pool) : u.Served malloc pool ↔ u.Fits malloc pool := by
  cases u with
  | call c =>
    cases c with
    | alloc newSize | ralloc mem newSize => exact answers_iff hs
    | _ => exact Iff.rfl
  | write mem pos bytes =>
    refine ⟨fun _ => trivial, fun _ f h => ?_⟩
    unfold Sizes.write at h
    split at h
    · cases h
    · rename_i x hf
      have hle := hs x (find_some hf).1
      split_ifs at h
      omega

/-- A run keeps sizes and contents if and only if memory is given for sizes below 4 GiB only. -/
theorem sizesHold_iff (malloc : Malloc) (owned : Nat → List Nat) (uses : List Use)
    (hs : Sized pool) :
    SizesHold malloc owned uses pool ↔ RunFits malloc owned uses pool := by
  induction uses generalizing pool with
  | nil => exact ⟨fun _ => trivial, fun _ => hs⟩
  | cons u uses ih =>
    constructor
    · rintro ⟨-, hserved, hrest⟩
      have hfits := (Use.served_iff hs).mp hserved
      exact ⟨hfits, fun r hr => (ih (Use.sized hs hfits hr)).mp (hrest r hr)⟩
    · rintro ⟨hfits, hrest⟩
      exact ⟨hs, (Use.served_iff hs).mpr hfits,
        fun r hr => (ih (Use.sized hs hfits hr)).mpr (hrest r hr)⟩

def grownTwice : List Use :=
  [.call (.alloc 2), .write 1 0 [1, 2], .call (.retain 1), .call (.ralloc 1 3), .call (.ralloc 1 4)]

theorem sizesHold_iff_grownTwice :
    SizesHold bumpMalloc (fun _ => []) grownTwice ⟨[], 0, []⟩ ↔
      RunFits bumpMalloc (fun _ => []) grownTwice ⟨[], 0, []⟩ :=
  sizesHold_iff bumpMalloc (fun _ => []) grownTwice nofun

/-- A block of 4 GiB is answered with, of which no byte is there. -/
theorem not_sizesHold :
    ¬∀ (malloc : Malloc) (owned : Nat → List Nat) (uses : List Use) (pool : Pool), Sized pool →
      SizesHold malloc owned uses pool := by
  intro h
  obtain ⟨-, ⟨r, hrun, hr⟩, -⟩ :=
    h bumpMalloc (fun _ => []) [.call (.alloc (2 ^ 32))] ⟨[], 0, []⟩ nofun
  have hans : mgnMemRalloc bumpMalloc ⟨[], 0, []⟩ 0 (2 ^ 32) =
      .ok (some 1, ⟨[newRecord 0 1 (2 ^ 32) []], 1, []⟩) := rfl
  obtain rfl := Except.ok.inj (hans.symm.trans hrun)
  obtain ⟨⟨y, hy, hle⟩, -, -⟩ := hr 1 rfl
  obtain rfl : newRecord 0 1 (2 ^ 32) [] = y := Option.some.inj hy
  exact absurd hle (by decide)

end Runs

end LcClibs.Memory.Sizes
