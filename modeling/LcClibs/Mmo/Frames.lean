import Mathlib
import LcClibs.Mmo.Accounts

namespace LcClibs.Mmo.Frames

open Platform Lib.Runs Memory.Managed Memory.Safety Mmo.Containers Mmo.Ownership Mmo.Accounts

section Reads

variable {s s' : Store} {mem : Nat}

theorem deref_inv {object : Object} (h : deref mem s = .ok object) :
    mem ≠ 0 ∧ ∃ x, s.pool.find mem = some x ∧ s.objects x.serial = object := by
  rw [deref] at h
  by_cases h0 : mem = 0
  · rw [if_pos h0] at h
    cases h
  · rw [if_neg h0, Store.objectAt] at h
    cases hf : s.pool.find mem with
    | none =>
      rw [hf] at h
      cases h
    | some x =>
      rw [hf] at h
      exact ⟨h0, x, rfl, Except.ok.inj h⟩

theorem toMMMap_inv {sorted : Bool} {items : List Nat} (h : toMMMap mem s = .ok (sorted, items)) :
    ∃ x, s.pool.find mem = some x ∧ s.objects x.serial = .mmMap sorted items := by
  obtain ⟨object, hd, hr⟩ := ok_of_bind h
  obtain ⟨-, x, hf, rfl⟩ := deref_inv hd
  cases ho : s.objects x.serial with
  | mmMap sorted' items' =>
    rw [ho] at hr
    cases hr
    exact ⟨x, hf, ho⟩
  | _ =>
    rw [ho] at hr
    cases hr

theorem toMMList_inv {list : List Nat} {n : Nat} (h : toMMList mem s = .ok (list, n)) :
    ∃ x, s.pool.find mem = some x ∧ s.objects x.serial = .mmList list n := by
  obtain ⟨object, hd, hr⟩ := ok_of_bind h
  obtain ⟨-, x, hf, rfl⟩ := deref_inv hd
  cases ho : s.objects x.serial with
  | mmList list' n' =>
    rw [ho] at hr
    cases hr
    exact ⟨x, hf, ho⟩
  | _ =>
    rw [ho] at hr
    cases hr

theorem assign_inv {object : Object} (h : assign mem object s = .ok s') :
    ∃ x, s.pool.find mem = some x ∧ s' = written s x.serial object := by
  rw [assign] at h
  cases hf : s.pool.find mem with
  | none =>
    rw [hf] at h
    cases h
  | some x =>
    rw [hf] at h
    exact ⟨x, rfl, (Except.ok.inj h).symm⟩

end Reads

section Within

def Passive : Object → Prop
  | .mmObject | .mmReference _ _ | .mmList _ _ => True
  | _ => False

def Same (object object' : Object) : Prop :=
  object' = object ∨ Passive object ∧ Passive object'

variable {object object' object'' : Object}

theorem Same.refl (object : Object) : Same object object := Or.inl rfl

theorem Same.trans (h : Same object object') (h' : Same object' object'') :
    Same object object'' := by
  obtain rfl | ⟨hp, hp'⟩ := h
  · exact h'
  · obtain rfl | ⟨-, hp''⟩ := h'
    · exact Or.inr ⟨hp, hp'⟩
    · exact Or.inr ⟨hp, hp''⟩

theorem Same.eq (h : Same object object') (hp : ¬Passive object) : object' = object :=
  h.resolve_right fun hs => hp hs.1

theorem Same.eq_of_after (h : Same object object') (hp : ¬Passive object') : object' = object :=
  h.resolve_right fun hs => hp hs.2

/-- No block is new, and what is read to read a map is as it was. -/
structure Within (s s' : Store) : Prop where
  pool : Shrinks s.pool s'.pool
  objects : ∀ n, Same (s.objects n) (s'.objects n)

variable {s s' s'' : Store} {mem : Nat} {x y : Record}

theorem Within.refl (s : Store) : Within s s := ⟨Shrinks.refl _, fun _ => Same.refl _⟩

theorem Within.trans (h : Within s s') (h' : Within s' s'') : Within s s'' :=
  ⟨h.pool.trans h'.pool, fun n => (h.objects n).trans (h'.objects n)⟩

theorem within_pool {pool : Pool} (h : Shrinks s.pool pool) : Within s { s with pool := pool } :=
  ⟨h, fun _ => Same.refl _⟩

theorem find_mem (h : s.pool.find mem = some x) : x ∈ s.pool.records ∧ x.m = mem := find_some h

theorem Within.serial_eq (h : Within s s') (hnd : s.pool.live.Nodup)
    (hx : s.pool.find mem = some x) (hy : s'.pool.find mem = some y) : y.serial = x.serial := by
  obtain ⟨hxr, hxm⟩ := find_mem hx
  obtain ⟨hyr, hym⟩ := find_mem hy
  obtain ⟨z, hz, hs, hm⟩ := h.pool.2 y hyr
  rw [← hs, List.inj_on_of_nodup_map hnd hz hxr (by rw [hm, hym, hxm])]

theorem retain_within (h : retainMmobj mem s = .ok s') : Within s s' := by
  by_cases h0 : mem = 0
  · rw [retainMmobj, if_pos h0] at h
    cases h
    exact Within.refl s
  · rw [retainMmobj, if_neg h0] at h
    obtain ⟨object, -, hr⟩ := ok_of_bind h
    cases hr
    refine within_pool ?_
    rw [mgnMemRetain]
    cases s.pool.find mem with
    | none => exact Shrinks.refl _
    | some x => exact shrinks_update fun _ => ⟨rfl, rfl⟩

theorem retainAll_within {mems : List Nat}
    (h : mems.foldlM (fun s item => retainMmobj item s) s = .ok s') : Within s s' := by
  induction mems generalizing s with
  | nil =>
    cases h
    exact Within.refl _
  | cons mem mems ih =>
    rw [List.foldlM_cons] at h
    obtain ⟨s1, h1, h2⟩ := ok_of_bind h
    exact (retain_within h1).trans (ih h2)

theorem release_within (h : releaseMmobj mem s = .ok s') : Within s s' := by
  by_cases h0 : mem = 0
  · rw [releaseMmobj, if_pos h0] at h
    cases h
    exact Within.refl s
  · rw [releaseMmobj, if_neg h0] at h
    obtain ⟨object, -, hr⟩ := ok_of_bind h
    obtain ⟨pool, hp, hr⟩ := ok_of_bind hr
    cases hr
    exact within_pool (lasting_shrinks.mgnMemReleaseImpl _ hp)

theorem autorelease_within (h : autoreleaseMmobj mem s = .ok s') : Within s s' := by
  by_cases h0 : mem = 0
  · rw [autoreleaseMmobj, if_pos h0] at h
    cases h
    exact Within.refl s
  · rw [autoreleaseMmobj, if_neg h0] at h
    obtain ⟨object, -, hr⟩ := ok_of_bind h
    obtain ⟨pool, hp, hr⟩ := ok_of_bind hr
    cases hr
    exact within_pool (lasting_shrinks.mgnMemReleaseImpl _ hp)

theorem releaseUnused_within (h : releaseUnused s = .ok s') : Within s s' := by
  obtain ⟨pool, hp, hr⟩ := ok_of_bind h
  cases hr
  exact within_pool (lasting_shrinks.releaseUnusedLoop _ hp)

theorem written_within {n : Nat} (hp : Passive (s.objects n)) (hp' : Passive object) :
    Within s (written s n object) := by
  refine ⟨Shrinks.refl _, fun k => ?_⟩
  by_cases hk : k = n
  · subst hk
    refine Or.inr ⟨hp, ?_⟩
    simpa only [written, Function.update_self] using hp'
  · rw [write_objects_ne hk]
    exact Same.refl _

theorem assign_within {list list' : List Nat} {n n' : Nat} (hx : s.pool.find mem = some x)
    (ho : s.objects x.serial = .mmList list n) (h : assign mem (.mmList list' n') s = .ok s') :
    Within s s' := by
  obtain ⟨y, hy, rfl⟩ := assign_inv h
  obtain rfl := Option.some.inj (hx.symm.trans hy)
  exact written_within (by rw [ho]; trivial) trivial

end Within

section Lists

variable {s s' : Store} {mem item : Nat}

theorem pushMMListItem_within (h : pushMMListItem mem item s = .ok s') : Within s s' := by
  obtain ⟨⟨list, n⟩, h1, h⟩ := ok_of_bind h
  obtain ⟨n', -, h⟩ := ok_of_bind h
  obtain ⟨s1, h2, h⟩ := ok_of_bind h
  obtain ⟨x, hx, ho⟩ := toMMList_inv h1
  exact (assign_within hx ho h2).trans (retain_within h)

theorem popMMListItem_within {p : Nat × Store} (hnd : s.pool.live.Nodup)
    (h : popMMListItem mem s = .ok p) : Within s p.2 := by
  obtain ⟨⟨list, n⟩, h1, h⟩ := ok_of_bind h
  obtain ⟨x, hx, ho⟩ := toMMList_inv h1
  cases hlast : list.getLast? with
  | none =>
    simp only [hlast] at h
    cases h
  | some item =>
    simp only [hlast] at h
    obtain ⟨s1, h2, h⟩ := ok_of_bind h
    obtain ⟨s2, h3, h⟩ := ok_of_bind h
    obtain ⟨s3, h4, h⟩ := ok_of_bind h
    obtain ⟨s4, h5, h⟩ := ok_of_bind h
    cases h
    have hs1 := retain_within h2
    obtain ⟨y, hy, rfl⟩ := assign_inv h3
    have hserial := hs1.serial_eq hnd hx hy
    have hpassive : Passive (s1.objects y.serial) := by
      obtain he | ⟨-, hp⟩ := hs1.objects y.serial
      · rw [he, hserial, ho]
        trivial
      · exact hp
    have hs2 : Within s1 (written s1 y.serial (.mmList list.dropLast n)) :=
      written_within hpassive trivial
    exact ((hs1.trans hs2).trans (release_within h4)).trans (autorelease_within h5)

theorem insertMMListItem_within {idx : Nat} (h : insertMMListItem mem item idx s = .ok s') :
    Within s s' := by
  obtain ⟨⟨list, n⟩, h1, h⟩ := ok_of_bind h
  obtain ⟨⟨list', n'⟩, -, h⟩ := ok_of_bind h
  obtain ⟨n'', -, h⟩ := ok_of_bind h
  obtain ⟨s1, h2, h⟩ := ok_of_bind h
  obtain ⟨x, hx, ho⟩ := toMMList_inv h1
  exact (assign_within hx ho h2).trans (retain_within h)

theorem concatMMList_within {aList : Nat} (h : concatMMList mem aList s = .ok s') :
    Within s s' := by
  obtain ⟨⟨w, m⟩, -, h⟩ := ok_of_bind h
  obtain ⟨⟨list, n⟩, h1, h⟩ := ok_of_bind h
  by_cases h0 : w.length = 0
  · simp only [if_pos h0] at h
    cases h
    exact Within.refl s
  · simp only [if_neg h0] at h
    obtain ⟨n', -, h⟩ := ok_of_bind h
    obtain ⟨s1, h2, h⟩ := ok_of_bind h
    obtain ⟨x, hx, ho⟩ := toMMList_inv h1
    exact (assign_within hx ho h2).trans (retainAll_within h)

end Lists

section Frame

/-- What an operation leaves: a block that is new has an address that was not in use and
no table, and an item that was in no table may get another entry. -/
structure Frame (E : List Nat) (s s' : Store) : Prop where
  clock : s.pool.clock ≤ s'.pool.clock
  records : ∀ y ∈ s'.pool.records, (∃ x ∈ s.pool.records, x.serial = y.serial ∧ x.m = y.m) ∨
    s.pool.clock ≤ y.serial ∧ y.m ∉ s.pool.live ∧ tableOf (s'.objects y.serial) = []
  objects : ∀ n < s.pool.clock, n ∉ E → Same (s.objects n) (s'.objects n)
  excepted : ∀ n ∈ E, isMMMapItem (s'.objects n) = true

variable {malloc : Malloc} {sizeOf : Object → Nat} {E : List Nat} {s s' s'' : Store}
  {object : Object} {mem n : Nat} {x y : Record}

theorem Within.frame (h : Within s s') : Frame [] s s' where
  clock := h.pool.1.ge
  records y hy := Or.inl (h.pool.2 y hy)
  objects n _ _ := h.objects n
  excepted _ hn := absurd hn List.not_mem_nil

theorem Same.tableOf {object' : Object} (h : Same object object') (ht : tableOf object = []) :
    tableOf object' = [] := by
  obtain rfl | ⟨-, hp⟩ := h
  · exact ht
  · cases object' <;> first | rfl | exact absurd hp id

theorem Frame.within (h : Frame E s s') (h' : Within s' s'') : Frame E s s'' := by
  refine ⟨h.clock.trans h'.pool.1.ge, fun y hy => ?_, fun n hn hE => ?_, fun n hn => ?_⟩
  · obtain ⟨z, hz, hzs, hzm⟩ := h'.pool.2 y hy
    rw [← hzs, ← hzm]
    exact (h.records z hz).imp_right fun ⟨hc, hm, ht⟩ => ⟨hc, hm, (h'.objects _).tableOf ht⟩
  · exact (h.objects n hn hE).trans (h'.objects n)
  · have hitem := h.excepted n hn
    rw [(h'.objects n).eq fun hp => ?_]
    · exact hitem
    · cases ho : s'.objects n <;> rw [ho] at hp hitem
      all_goals first | exact hp | cases hitem

theorem Frame.write (h : Frame [] s s') (hn : s.pool.clock ≤ n) (ht : tableOf object = []) :
    Frame [] s (written s' n object) := by
  refine ⟨h.clock, fun y hy => ?_, fun k hk hE => ?_, fun k hk => absurd hk List.not_mem_nil⟩
  · refine (h.records y hy).imp_right fun ⟨hc, hm, hy'⟩ => ⟨hc, hm, ?_⟩
    by_cases hyn : y.serial = n
    · subst hyn
      simpa only [written, Function.update_self] using ht
    · rw [write_objects_ne hyn]
      exact hy'
  · rw [write_objects_ne (by omega)]
    exact h.objects k hk hE

structure Made (object : Object) (mem : Nat) (s s' : Store) (x : Record) : Prop where
  records : s'.pool.records = s.pool.records ++ [x]
  serial : x.serial = s.pool.clock
  find : s'.pool.find mem = some x
  fresh : mem ∉ s.pool.live
  clock : s.pool.clock ≤ s'.pool.clock
  inv : Inv ∅ s'.pool
  log : s'.pool.log = s.pool.log
  objects : s'.objects = Function.update s.objects x.serial object

theorem allocMmobj_made (h : Inv ∅ s.pool)
    (hrun : allocMmobj malloc sizeOf object s = .ok (mem, s')) : ∃ x, Made object mem s s' x := by
  obtain ⟨⟨r, pool⟩, h1, hrun⟩ := ok_of_bind hrun
  obtain ⟨p, hp, hinv⟩ : ∃ p, mgnMemAlloc malloc s.pool (sizeOf object) = .ok p ∧ Inv ∅ p.2 :=
    mgnMemAlloc_inv (sizeOf object) h
  obtain rfl := Except.ok.inj (h1.symm.trans hp)
  obtain ⟨rfl, -⟩ | ⟨a, bytes, rfl, -, hfresh, hrec⟩ := mgnMemAlloc_cases h h1
  · cases hrun
  · obtain ⟨s1, h2, hrun⟩ := ok_of_bind hrun
    cases hrun
    obtain ⟨x, hx, rfl⟩ := assign_inv h2
    have hnew : newRecord s.pool.clock mem (sizeOf object) bytes ∈ pool.records := by simp [hrec]
    obtain rfl : newRecord s.pool.clock mem (sizeOf object) bytes = x :=
      Option.some.inj ((hinv.find_of_mem hnew).symm.trans hx)
    exact ⟨_, hrec, rfl, hx, hfresh, (hinv.serial_lt _ (serial_mem hnew)).le, hinv,
      mgnMemAlloc_log h h1, rfl⟩

theorem Made.frame (h : Made object mem s s' x) (ht : tableOf object = []) : Frame [] s s' := by
  refine ⟨h.clock, fun y hy => ?_, fun k hk _ => ?_, fun k hk => absurd hk List.not_mem_nil⟩
  · rw [h.records, List.mem_append, List.mem_singleton] at hy
    obtain hy | rfl := hy
    · exact Or.inl ⟨y, hy, rfl, rfl⟩
    · refine Or.inr ⟨h.serial.ge, ?_, ?_⟩
      · rw [(find_mem h.find).2]
        exact h.fresh
      · rw [h.objects, Function.update_self]
        exact ht
  · rw [h.objects, Function.update_of_ne (by rw [h.serial]; omega)]
    exact Same.refl _

theorem allocMmobj_frame (h : Inv ∅ s.pool) (ht : tableOf object = [])
    (hrun : allocMmobj malloc sizeOf object s = .ok (mem, s')) : Frame [] s s' := by
  obtain ⟨x, hx⟩ := allocMmobj_made h hrun
  exact hx.frame ht

end Frame

section Items

variable {malloc : Malloc} {sizeOf : Object → Nat} {E : List Nat} {s s' : Store}
  {mem key value item : Nat} {x y : Record}

theorem Frame.new (h : Frame E s s') (hm : mem ∉ s.pool.live)
    (hy : s'.pool.find mem = some y) : s.pool.clock ≤ y.serial := by
  obtain ⟨hyr, hym⟩ := find_mem hy
  obtain ⟨x, hx, -, hxm⟩ | ⟨hc, -⟩ := h.records y hyr
  · have hlive : x.m ∈ s.pool.live := List.mem_map_of_mem hx
    rw [hxm, hym] at hlive
    exact absurd hlive hm
  · exact hc

theorem allocMMReferenceWithStrongReference_frame {object : Nat} (h : Inv ∅ s.pool)
    (hrun : allocMMReferenceWithStrongReference malloc sizeOf object s = .ok (mem, s')) :
    Frame [] s s' := by
  obtain ⟨⟨a, s1⟩, h1, hrun⟩ := ok_of_bind hrun
  obtain ⟨s2, h2, hrun⟩ := ok_of_bind hrun
  obtain ⟨s3, h3, hrun⟩ := ok_of_bind hrun
  cases hrun
  obtain ⟨x, hmade⟩ := allocMmobj_made h h1
  have hframe := (hmade.frame rfl).within (retain_within h2)
  obtain ⟨y, hy, rfl⟩ := assign_inv h3
  exact hframe.write (hframe.new hmade.fresh hy) rfl

theorem allocMMMapItemWithKeyValue_frame (h : Inv ∅ s.pool)
    (hrun : allocMMMapItemWithKeyValue malloc sizeOf key value s = .ok (item, s')) :
    Frame [] s s' ∧ item ∉ s.pool.live ∧ ∃ y, s'.pool.find item = some y ∧
      s.pool.clock ≤ y.serial ∧ s'.objects y.serial = .mmMapItem key value := by
  obtain ⟨⟨a, s1⟩, h1, hrun⟩ := ok_of_bind hrun
  obtain ⟨s2, h2, hrun⟩ := ok_of_bind hrun
  obtain ⟨s3, h3, hrun⟩ := ok_of_bind hrun
  obtain ⟨s4, h4, hrun⟩ := ok_of_bind hrun
  cases hrun
  obtain ⟨x, hmade⟩ := allocMmobj_made h h1
  have hframe := ((hmade.frame rfl).within (retain_within h2)).within (retain_within h3)
  obtain ⟨y, hy, rfl⟩ := assign_inv h4
  have hnew := hframe.new hmade.fresh hy
  exact ⟨hframe.write hnew rfl, hmade.fresh, y, hy, hnew, by simp [written]⟩

theorem replaceMMMapItemKeyValue_frame (hnd : s.pool.live.Nodup)
    (hy : s.pool.find item = some y)
    (hrun : replaceMMMapItemKeyValue item key value s = .ok s') :
    Frame [y.serial] s s' ∧ ∃ z, s'.pool.find item = some z ∧ z.serial = y.serial ∧
      s'.objects y.serial = .mmMapItem key value := by
  obtain ⟨s1, h1, hrun⟩ := ok_of_bind hrun
  obtain ⟨s2, h2, hrun⟩ := ok_of_bind hrun
  obtain ⟨old, -, hrun⟩ := ok_of_bind hrun
  obtain ⟨s3, h3, hrun⟩ := ok_of_bind hrun
  obtain ⟨old', -, hrun⟩ := ok_of_bind hrun
  obtain ⟨s4, h4, hrun⟩ := ok_of_bind hrun
  have hwithin := (((retain_within h1).trans (retain_within h2)).trans
    (release_within h3)).trans (release_within h4)
  obtain ⟨z, hz, rfl⟩ := assign_inv hrun
  have hserial := hwithin.serial_eq hnd hy hz
  have hself : (written s4 z.serial (.mmMapItem key value)).objects y.serial =
      .mmMapItem key value := by
    rw [← hserial]
    simp [written]
  refine ⟨⟨hwithin.pool.1.ge, fun w hw => Or.inl (hwithin.pool.2 w hw), fun n _ hn => ?_,
    fun n hn => ?_⟩, z, hz, hserial, hself⟩
  · rw [write_objects_ne (by rw [hserial]; simpa using hn)]
    exact hwithin.objects n
  · rw [List.mem_singleton.mp hn, hself]
    rfl

end Items

section Reading

variable {E : List Nat} {s s' : Store} {held : Owners} {mem : Nat} {x y : Record}
  {object : Object}

theorem Frame.serial_eq (h : Frame E s s') (hinv : Inv ∅ s.pool) (hx : s.pool.find mem = some x)
    (hy : s'.pool.find mem = some y) : y.serial = x.serial := by
  obtain ⟨hxr, hxm⟩ := find_mem hx
  obtain ⟨hyr, hym⟩ := find_mem hy
  obtain ⟨z, hz, hs, hm⟩ | ⟨-, hno, -⟩ := h.records y hyr
  · rw [← hs, List.inj_on_of_nodup_map hinv.live_nodup hz hxr (by rw [hm, hym, hxm])]
  · have hlive : x.m ∈ s.pool.live := List.mem_map_of_mem hxr
    rw [hxm, ← hym] at hlive
    exact absurd hlive hno

theorem Frame.objectAt (h : Frame E s s') (hinv : Inv ∅ s.pool) (hinv' : Inv ∅ s'.pool)
    (ho : s.objectAt mem = some object) (hE : ∀ n ∈ E, isMMMapItem (s.objects n) = true)
    (hlive : mem ∈ s'.pool.live) : ∃ object', s'.objectAt mem = some object' ∧
      (isMMMapItem object = false → Same object object') := by
  obtain ⟨x, hx, rfl⟩ := Option.map_eq_some_iff.mp ho
  obtain ⟨y, hy, rfl⟩ := List.mem_map.mp hlive
  have hfind := hinv'.find_of_mem hy
  have hserial := h.serial_eq hinv hx hfind
  refine ⟨s'.objects x.serial, by rw [Store.objectAt, hfind, ← hserial]; rfl, fun hno => ?_⟩
  refine h.objects x.serial (hinv.serial_lt _ (serial_mem (find_mem hx).1)) fun hmem => ?_
  rw [hE _ hmem] at hno
  cases hno

theorem entry_live {key value : Nat} (hs : Sound [] held [] s) (hy : y ∈ s.pool.records)
    (ho : s.objects y.serial = .mmMapItem key value) (h0 : key ≠ 0) : key ∈ s.pool.live := by
  refine hs.law.slots_live y.serial (serial_mem hy) List.not_mem_nil key ?_
  rw [Store.owned, ho]
  simp [Object.slots, notNull, h0]

/-- A map after an operation is one from before, or is new and empty. -/
theorem Frame.table {sorted : Bool} {items : List Nat} (hf : Frame E s s') (hinv : Inv ∅ s.pool)
    (hx : x ∈ s'.pool.records) (ho : s'.objects x.serial = .mmMap sorted items) :
    (∃ z ∈ s.pool.records, z.serial = x.serial ∧ s.objects z.serial = .mmMap sorted items) ∨
      items = [] ∧ s.pool.clock ≤ x.serial := by
  obtain ⟨z, hz, hs, -⟩ | ⟨hc, -, ht⟩ := hf.records x hx
  · refine Or.inl ⟨z, hz, hs, ?_⟩
    have hE : z.serial ∉ E := by
      intro hmem
      have hitem := hf.excepted _ hmem
      rw [hs, ho] at hitem
      cases hitem
    have hsame := hf.objects z.serial (hinv.serial_lt _ (serial_mem hz)) hE
    rw [← hsame.eq_of_after (by rw [hs, ho]; exact id), hs, ho]
  · rw [ho] at ht
    exact Or.inr ⟨ht, hc⟩

theorem Frame.map_eq {sorted : Bool} {items : List Nat} (h : Frame E s s') (hinv : Inv ∅ s.pool)
    (hx : s.pool.find mem = some x) (ho : s.objects x.serial = .mmMap sorted items)
    (hE : x.serial ∉ E) (hy : s'.pool.find mem = some y) :
    y.serial = x.serial ∧ s'.objects y.serial = .mmMap sorted items := by
  have hserial := h.serial_eq hinv hx hy
  have hsame := h.objects x.serial (hinv.serial_lt _ (serial_mem (find_mem hx).1)) hE
  exact ⟨hserial, by rw [hserial, hsame.eq (by rw [ho]; exact id), ho]⟩

end Reading

section Operations

variable {malloc : Malloc} {sizeOf : Object → Nat} {compareMmobjs : Store → Nat → Nat → Int}
  {s s' : Store} {answer : Nat}

def OffMaps : Op → Prop
  | .add _ _ _ | .remove _ _ => False
  | _ => True

theorem run_frame (op : Op) (h : Inv ∅ s.pool) (hop : OffMaps op)
    (hrun : op.run malloc sizeOf compareMmobjs s = .ok (answer, s')) : Frame [] s s' := by
  cases op with
  | alloc fresh => exact allocMmobj_frame h (by cases fresh <;> rfl) hrun
  | retain mem =>
    obtain ⟨s1, h1, he⟩ := ok_of_map hrun
    cases he
    exact (retain_within h1).frame
  | release mem =>
    obtain ⟨s1, h1, he⟩ := ok_of_map hrun
    cases he
    exact (release_within h1).frame
  | autorelease mem =>
    obtain ⟨s1, h1, he⟩ := ok_of_map hrun
    cases he
    exact (autorelease_within h1).frame
  | push list item =>
    obtain ⟨s1, h1, he⟩ := ok_of_map hrun
    cases he
    exact (pushMMListItem_within h1).frame
  | pop list => exact (popMMListItem_within h.live_nodup hrun).frame
  | insert list item idx =>
    obtain ⟨s1, h1, he⟩ := ok_of_map hrun
    cases he
    exact (insertMMListItem_within h1).frame
  | concat list aList =>
    obtain ⟨s1, h1, he⟩ := ok_of_map hrun
    cases he
    exact (concatMMList_within h1).frame
  | add map key value => exact hop.elim
  | remove map key => exact hop.elim
  | strongReference object => exact allocMMReferenceWithStrongReference_frame h hrun
  | releaseUnused =>
    obtain ⟨s1, h1, he⟩ := ok_of_map hrun
    cases he
    exact (releaseUnused_within h1).frame

end Operations

end LcClibs.Mmo.Frames
