import Mathlib
import LcClibs.Lib.Roots
import LcClibs.Memory.Counting

namespace LcClibs.Memory.Collection

open Lib.Runs Lib.Roots Memory.Managed Memory.Safety Memory.Counting

section Model

variable (owned : Nat → List Nat)

def Points (pool : Pool) (a b : Nat) : Prop :=
  ∃ x ∈ pool.records, x.m = a ∧ b ∈ owned x.serial

/-- A block without owners that is held by such blocks only. -/
def Unheld (held : Nat → Nat) (pool : Pool) : Nat → Prop :=
  Loose {a | a ∈ pool.live} (Points owned pool) fun a => 0 < held a

/-- A block that is reached from one with owners, or from blocks that hold each other. -/
def Reached (held : Nat → Nat) (pool : Pool) (mem : Nat) : Prop :=
  ∃ a ∈ pool.live, Relation.ReflTransGen (Points owned pool) a mem ∧
    (0 < held a ∨ Relation.TransGen (Points owned pool) a a)

end Model

section Unheld

variable {owned : Nat → List Nat} {D : List Nat} {held : Nat → Nat} {pend : List Nat}
  {pool p : Pool} {x : Record} {a mem : Nat}

theorem Points.live {b : Nat} (h : Points owned pool a b) : a ∈ pool.live := by
  obtain ⟨x, hx, rfl, -⟩ := h
  exact List.mem_map_of_mem hx

theorem not_unheld_iff (ha : a ∈ pool.live) :
    ¬Unheld owned held pool a ↔ Reached owned held pool a :=
  not_loose_iff (List.finite_toSet pool.live) (fun _ _ h => h.live) ha

theorem unheld_of_zero (h : Law owned [] held pend pool) (hx : x ∈ pool.records)
    (h0 : x.r = 0) : Unheld owned held pool x.m := by
  have hc := h.count x hx
  refine .intro (List.mem_map_of_mem hx) (by omega) fun y _ hy => ?_
  obtain ⟨z, hz, -, hmem⟩ := hy
  have hpos := slotCount_pos.mpr ⟨z.serial, serial_mem hz, List.not_mem_nil, hmem⟩
  omega

theorem unheld_of_doomed {n : Nat} (hnd : pool.serials.Nodup) (hrec : p.records = pool.records)
    (hD : ∀ y ∈ pool.records, y.serial ∈ D → Unheld owned held pool y.m)
    (h : Doomed owned D held p n) :
    ∀ x ∈ pool.records, x.serial = n → Unheld owned held pool x.m := by
  induction h with
  | @intro z hz h0 _ _ ih =>
    intro x hx hs
    obtain rfl := List.inj_on_of_nodup_map hnd hx (hrec ▸ hz) hs
    refine .intro (List.mem_map_of_mem hx) (by omega) fun y _ hy => ?_
    obtain ⟨w, hw, rfl, hmem⟩ := hy
    by_cases hwD : w.serial ∈ D
    · exact hD w hw hwD
    · exact ih w.serial (serial_mem (hrec.symm ▸ hw)) hwD hmem w hw rfl

theorem Unheld.before (hnd : pool.live.Nodup)
    (hold : ∀ y ∈ p.records, ∃ x ∈ pool.records, y.serial = x.serial ∧ y.m = x.m)
    (hgone : ∀ x ∈ pool.records, x.m ∉ p.live → Unheld owned held pool x.m)
    (h : Unheld owned held p a) : Unheld owned held pool a := by
  have hlive : ∀ b ∈ p.live, b ∈ pool.live := by
    intro b hb
    obtain ⟨y, hy, rfl⟩ := List.mem_map.mp hb
    obtain ⟨x, hx, -, hm⟩ := hold y hy
    exact hm ▸ List.mem_map_of_mem hx
  induction h with
  | @intro b hb hroot _ ih =>
    refine .intro (hlive b hb) hroot fun c _ hc => ?_
    obtain ⟨x, hx, rfl, hmem⟩ := hc
    by_cases hxp : x.m ∈ p.live
    · obtain ⟨y, hy, hym⟩ := List.mem_map.mp hxp
      obtain ⟨z, hz, hs, hm⟩ := hold y hy
      obtain rfl := List.inj_on_of_nodup_map hnd hx hz (hym.symm.trans hm)
      exact ih x.m hxp ⟨y, hy, hym, hs ▸ hmem⟩
    · exact hgone x hx hxp

end Unheld

section Sweeps

variable {owned : Nat → List Nat} {held : Nat → Nat} {pool p : Pool} {mem : Nat}

/-- A sweep of one address takes only blocks that nothing else holds. -/
theorem sweep_unheld (h : Law owned [] held [] pool) (hrun : sweep owned pool mem = .ok p) :
    ∀ y ∈ pool.records, y.m ∉ p.live → Unheld owned held pool y.m := by
  intro y hy hgone
  have hsame : pool ≠ p := by
    rintro rfl
    exact hgone (List.mem_map_of_mem hy)
  rw [sweep] at hrun
  cases hf : pool.find mem with
  | none =>
    rw [hf] at hrun
    exact absurd (Except.ok.inj hrun) hsame
  | some x =>
    rw [hf] at hrun
    obtain ⟨hx, rfl⟩ := find_some hf
    by_cases h0 : x.r = 0
    · have hfirst := unheld_of_zero h hx h0
      have h1 := h.enter hx (Or.inl h0) List.not_mem_nil
      simp only [if_pos h0, h.called x hx h0, if_true] at hrun
      obtain ⟨p2, h2, hrun⟩ := ok_of_bind hrun
      have hs := foldlM_swept (fun _ _ _ _ h' hr => mgnMemReleaseImpl_swept _ h' hr)
        (h1.congr (q := pool.note _) rfl) h2
      rw [Pool.free] at hrun
      cases hfind : p2.records.find? fun y => y.serial = x.serial with
      | none =>
        rw [hfind] at hrun
        cases hrun
      | some z =>
        rw [hfind] at hrun
        obtain rfl := Except.ok.inj hrun
        by_cases hyx : y.serial = x.serial
        · rwa [h.eq_of_serial hx hy hyx]
        · have hns : y.serial ∉ p2.serials := by
            intro hmem
            obtain ⟨w, hw, hws⟩ := List.mem_map.mp hmem
            obtain ⟨v, hv, hvs, hvm, -⟩ := hs.old w hw
            obtain rfl := h.eq_of_serial hy hv (by rw [← hvs, hws])
            refine hgone (hvm ▸ List.mem_map_of_mem (mem_delete.mpr ⟨hw, ?_⟩))
            rw [hws]
            exact hyx
          have hdoomed := hs.doomed y.serial (serial_mem hy) hns
          have hstart : ∀ w ∈ pool.records, w.serial ∈ [x.serial] →
              Unheld owned held pool w.m := fun w hw hwD => by
            rwa [h.eq_of_serial hx hw (List.mem_singleton.mp hwD)]
          exact unheld_of_doomed h.serials_nodup (by rfl) hstart hdoomed y hy rfl
    · simp only [if_neg h0] at hrun
      exact absurd (Except.ok.inj hrun) hsame

theorem batch_unheld {mems : List Nat} (h : Law owned [] held [] pool)
    (hrun : mems.foldlM (sweep owned) pool = .ok p) :
    ∀ y ∈ pool.records, y.m ∉ p.live → Unheld owned held pool y.m := by
  induction mems generalizing pool with
  | nil =>
    obtain rfl : pool = p := Except.ok.inj hrun
    exact fun y hy hgone => absurd (List.mem_map_of_mem hy) hgone
  | cons mem mems ih =>
    rw [List.foldlM_cons] at hrun
    obtain ⟨p1, h1, hrun⟩ := ok_of_bind hrun
    obtain ⟨hlaw, hold⟩ := sweep_swept h h1
    have hold' : ∀ y ∈ p1.records, ∃ x ∈ pool.records, y.serial = x.serial ∧ y.m = x.m :=
      fun y hy => (hold y hy).imp fun x hx => ⟨hx.1, hx.2.1, hx.2.2.1⟩
    have hfirst := sweep_unheld h h1
    intro y hy hgone
    by_cases hy1 : y.m ∈ p1.live
    · obtain ⟨z, hz, hzm⟩ := List.mem_map.mp hy1
      rw [← hzm] at hgone ⊢
      exact (ih hlaw hrun z hz hgone).before h.live_nodup hold' hfirst
    · exact hfirst y hy hy1

theorem releaseUnusedLoop_unheld (fuel : Nat) (h : Law owned [] held [] pool)
    (hrun : releaseUnusedLoop owned fuel pool = .ok p) :
    ∀ y ∈ pool.records, y.m ∉ p.live → Unheld owned held pool y.m := by
  induction fuel generalizing pool with
  | zero => cases hrun
  | succ fuel ih =>
    rw [releaseUnusedLoop] at hrun
    obtain ⟨p1, h1, hrun⟩ := ok_of_bind hrun
    obtain ⟨hlaw, hold⟩ := batch_swept h h1
    have hold' : ∀ y ∈ p1.records, ∃ x ∈ pool.records, y.serial = x.serial ∧ y.m = x.m :=
      fun y hy => (hold y hy).imp fun x hx => ⟨hx.1, hx.2.1, hx.2.2.1⟩
    have hfirst := batch_unheld h h1
    by_cases hfull : (unusedBatch pool).length ≥ batchSize
    · simp only [if_pos hfull] at hrun
      intro y hy hgone
      by_cases hy1 : y.m ∈ p1.live
      · obtain ⟨z, hz, hzm⟩ := List.mem_map.mp hy1
        rw [← hzm] at hgone ⊢
        exact (ih hlaw hrun z hz hgone).before h.live_nodup hold' hfirst
      · exact hfirst y hy hy1
    · simp only [if_neg hfull] at hrun
      obtain rfl := Except.ok.inj hrun
      exact hfirst

/-- The sweep leaves exactly what is reached from blocks with owners and from blocks that
hold each other. -/
theorem releaseUnusedLoop_collects (fuel : Nat) (h : Law owned [] held [] pool)
    (hrun : releaseUnusedLoop owned fuel pool = .ok p) (mem : Nat) :
    mem ∈ p.live ↔ mem ∈ pool.live ∧ Reached owned held pool mem := by
  obtain ⟨hlaw, hpos, hold⟩ := releaseUnusedLoop_swept fuel h hrun
  have hlive : ∀ b ∈ p.live, b ∈ pool.live := by
    intro b hb
    obtain ⟨y, hy, rfl⟩ := List.mem_map.mp hb
    obtain ⟨x, hx, -, hm, -⟩ := hold y hy
    exact hm ▸ List.mem_map_of_mem hx
  have hgone : ∀ b, Unheld owned held pool b → b ∉ p.live := by
    intro b hb
    induction hb with
    | @intro b _ hroot _ ih =>
      intro hbp
      obtain ⟨y, hy, rfl⟩ := List.mem_map.mp hbp
      -- what is left has a count, so something that is left holds it
      have hc := hlaw.count y hy
      have hy0 := hpos y hy
      rw [List.count_nil] at hc
      obtain ⟨n, hn, -, hmem⟩ := slotCount_pos.mp (show 0 < slotCount owned [] p y.m by omega)
      obtain ⟨z, hz, rfl⟩ := List.mem_map.mp hn
      obtain ⟨x, hx, hs, hm, -⟩ := hold z hz
      have hzp : z.m ∈ p.live := List.mem_map_of_mem hz
      exact ih z.m (hlive z.m hzp) ⟨x, hx, hm.symm, hs ▸ hmem⟩ hzp
  constructor
  · intro hmem
    have hpool := hlive mem hmem
    exact ⟨hpool, (not_unheld_iff hpool).mp fun hu => hgone mem hu hmem⟩
  · rintro ⟨hpool, hreached⟩
    by_contra hno
    obtain ⟨y, hy, rfl⟩ := List.mem_map.mp hpool
    exact (not_unheld_iff hpool).mpr hreached (releaseUnusedLoop_unheld fuel h hrun y hy hno)

end Sweeps

end LcClibs.Memory.Collection
