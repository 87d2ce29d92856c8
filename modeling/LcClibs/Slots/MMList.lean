import Mathlib
import LcClibs.Memory.Safety
import LcClibs.Memory.Sizes
import LcClibs.Mmo.Frames
import LcClibs.Slots.Releases
import LcClibs.Slots.Sequences

namespace LcClibs.Slots.MMList

open Platform Lib.Runs Lib.Coupling Memory.Safety Memory.Sizes Mmo.Ownership Mmo.Frames
open Slots.Macros Slots.Contents Slots.Sequences Slots.Releases
open Memory.Managed (Malloc Stop Pool Record mgnMemRetain newRecord sizeT)
open Mmo.Containers hiding releaseMmobj autoreleaseMmobj utarrayReserve pushMMListItem
  popMMListItem insertMMListItem concatMMList replaceMMMapItemKeyValue addMMMapItem
  removeMMMapItem

section Model

def realloc (_ : Nat) : StateT SlotStore (Except Stop) Unit := return ()

def serialOf (mem : Nat) (s : Store) : Except Stop Nat :=
  match s.pool.find mem with
  | some x => .ok x.serial
  | none => .error (.useAfterFree mem)

def listSerial (mem : Nat) (s : Store) : Except Stop Nat := do
  let _ ← toMMList mem s
  serialOf mem s

/-- What others see of a list are the elements of its array. -/
def putArray (mem serial : Nat) (a : UtArray Nat) (t : SlotStore) : Except Stop SlotStore := do
  let s ← assign mem (.mmList (elements a) a.n) t.store
  return ⟨s, Function.update t.arrays serial a⟩

def pushMMListItem (mem item : Nat) (t : SlotStore) : Except Stop SlotStore := do
  let serial ← listSerial mem t.store
  let (a, t) ← utarrayPushBack (utAstIcd releaseMmobj) realloc item (t.arrays serial) t
  putArray mem serial a t

/-- The number of elements goes down before the last one is destroyed. -/
def popMMListItem (mem : Nat) (t : SlotStore) : Except Stop (Nat × SlotStore) := do
  let serial ← listSerial mem t.store
  let a := t.arrays serial
  let item ← Macros.deref a (utarrayBack a)
  let s ← retainMmobj item t.store
  let t ← putArray mem serial { a with i := uintSub a.i 1 } { t with store := s }
  let (_, t) ← utarrayPopBack (utAstIcd releaseMmobj) a t
  let t ← autoreleaseMmobj item t
  return (item, t)

def insertMMListItem (mem item idx : Nat) (t : SlotStore) : Except Stop SlotStore := do
  let serial ← listSerial mem t.store
  let (a, t) ← utarrayInsert (utAstIcd releaseMmobj) realloc item (uint idx) (t.arrays serial) t
  putArray mem serial a t

/-- The two lists may be the same. -/
def concatMMList (mem aList : Nat) (t : SlotStore) : Except Stop SlotStore := do
  let src ← listSerial aList t.store
  let serial ← listSerial mem t.store
  let w := if src = serial then none else some (t.arrays src)
  let (a, t) ← utarrayConcat (utAstIcd releaseMmobj) realloc w (t.arrays serial) t
  putArray mem serial a t

def replaceMMMapItemKeyValue (item key value : Nat) (t : SlotStore) : Except Stop SlotStore := do
  let s ← retainMmobj key t.store
  let s ← retainMmobj value s
  let old ← toMMMapItem item s
  let t ← releaseMmobj old.1 { t with store := s }
  let old ← toMMMapItem item t.store
  let t ← releaseMmobj old.2 t
  let s ← assign item (.mmMapItem key value) t.store
  return { t with store := s }

variable (malloc : Malloc) (sizeOf : Object → Nat) (compareMmobjs : Store → Nat → Nat → Int)

def addMMMapItem (map key value : Nat) (t : SlotStore) : Except Stop SlotStore :=
  if key = 0 ∨ value = 0 then .ok t
  else do
    let h ← hashOfMmobj key t.store
    let (sorted, items) ← toMMMap map t.store
    match t.store.findItem items h with
    | some item =>
      let s ← assign map (.mmMap sorted (items.erase item)) t.store
      let t ← replaceMMMapItemKeyValue item key value { t with store := s }
      let s ← addToTable compareMmobjs map item t.store
      return { t with store := s }
    | none =>
      let (item, s) ← allocMMMapItemWithKeyValue malloc sizeOf key value t.store
      let s ← addToTable compareMmobjs map item s
      return { t with store := s }

def removeMMMapItem (map key : Nat) (t : SlotStore) : Except Stop SlotStore :=
  if key = 0 then .ok t
  else do
    let h ← hashOfMmobj key t.store
    let (sorted, items) ← toMMMap map t.store
    match t.store.findItem items h with
    | some item =>
      let s ← assign map (.mmMap sorted (items.erase item)) t.store
      releaseMmobj item { t with store := s }
    | none => return t

/-- The operations with the arrays of lists in slots. `initMMList` empties the array of a new
list. -/
def runSlotOp : Op → SlotStore → Except Stop (Nat × SlotStore)
  | .alloc .mmList, t => do
    let (mem, s) ← allocMmobj malloc sizeOf (.mmList [] 0) t.store
    let serial ← serialOf mem s
    return (mem, ⟨s, Function.update t.arrays serial utarrayInit⟩)
  | .alloc fresh, t => do
    let (mem, s) ← allocMmobj malloc sizeOf fresh.object t.store
    return (mem, { t with store := s })
  | .retain mem, t => do
    let s ← retainMmobj mem t.store
    return (mem, { t with store := s })
  | .release mem, t => (releaseMmobj mem t).map fun t => (0, t)
  | .autorelease mem, t => (autoreleaseMmobj mem t).map fun t => (mem, t)
  | .push list item, t => (pushMMListItem list item t).map fun t => (0, t)
  | .pop list, t => popMMListItem list t
  | .insert list item idx, t => (insertMMListItem list item idx t).map fun t => (0, t)
  | .concat list aList, t => (concatMMList list aList t).map fun t => (0, t)
  | .add map key value, t =>
    (addMMMapItem malloc sizeOf compareMmobjs map key value t).map fun t => (0, t)
  | .remove map key, t => (removeMMMapItem map key t).map fun t => (0, t)
  | .strongReference object, t => do
    let (mem, s) ← allocMMReferenceWithStrongReference malloc sizeOf object t.store
    return (mem, { t with store := s })
  | .releaseUnused, t => (mgnMemReleaseUnused t).map fun t => (0, t)

def answers {σ : Type} (run : Op → σ → Except Stop (Nat × σ)) :
    List Op → σ → Except Stop (List Nat × σ)
  | [], s => .ok ([], s)
  | op :: ops, s => do
    let (answer, s) ← run op s
    let (rest, s) ← answers run ops s
    return (answer :: rest, s)

end Model

section Slots

variable {list ws : List Nat} {n n' i count idx : Nat} {s' : Store} {t : SlotStore}

theorem reserve_bounds (h : Doubled n) (hrun : Mmo.Containers.utarrayReserve i n count = .ok n') :
    Doubled n' ∧ i + count ≤ n' := by
  obtain ⟨m, hloop, hrun⟩ := ok_of_bind hrun
  by_cases hlt : m < i + count
  · rw [if_pos hlt] at hrun
    cases hrun
  · rw [if_neg hlt] at hrun
    cases hrun
    exact ⟨reserveLoop_doubled _ _ h hloop, not_lt.mp hlt⟩

theorem reserve_run (hrun : Mmo.Containers.utarrayReserve list.length n count = .ok n')
    (t : SlotStore) :
    Contents.reserve realloc count (list, n) t = .ok ((list, n'), t) := by
  rw [Contents.reserve]
  by_cases hmore : list.length + count > n
  · rw [if_pos hmore, hrun]
    rfl
  · rw [if_neg hmore]
    have hneed : ¬uint (list.length + count) > n :=
      not_lt.mpr ((Nat.mod_le _ _).trans (not_lt.mp hmore))
    obtain ⟨m, hloop, hrun⟩ := ok_of_bind hrun
    rw [reserveLoop, if_neg hneed] at hloop
    cases hloop
    rw [if_neg (by omega)] at hrun
    cases hrun
    rfl

theorem initAll_run (count : Nat) (t : SlotStore) :
    initAll (utAstIcd releaseMmobj) count t = .ok (List.replicate count 0, t) := by
  induction count with
  | zero => rfl
  | succ count ih =>
    have hinit : initElement (utAstIcd releaseMmobj) t = .ok (0, t) := rfl
    rw [initAll, step_ok hinit, step_ok ih]
    rfl

theorem fillGap_run {r : Elements Nat} (hgap : fillGap list n idx = .ok r) (t : SlotStore) :
    (if idx > list.length then Contents.resize (utAstIcd releaseMmobj) realloc idx (list, n)
      else pure (list, n)) t = .ok (r, t) := by
  rw [fillGap] at hgap
  by_cases hgt : idx > list.length
  · rw [if_pos hgt] at hgap ⊢
    obtain ⟨m, hreserve, hgap⟩ := ok_of_bind hgap
    cases hgap
    rw [Contents.resize, if_neg (not_lt.mpr hgt.le), if_pos hgt, step_ok (reserve_run hreserve t),
      step_ok (initAll_run _ t)]
    rfl
  · rw [if_neg hgt] at hgap ⊢
    cases hgap
    rfl

theorem copyAll_run (hretain : ws.foldlM (fun s item => retainMmobj item s) t.store = .ok s') :
    ws.mapM (copyElement (utAstIcd releaseMmobj)) t = .ok (ws, { t with store := s' }) := by
  induction ws generalizing t with
  | nil =>
    cases hretain
    rfl
  | cons w ws ih =>
    rw [List.foldlM_cons] at hretain
    obtain ⟨s1, h1, hretain⟩ := ok_of_bind hretain
    have hcopy : copyElement (utAstIcd releaseMmobj) w t = .ok (w, { t with store := s1 }) := by
      show (retainMmobj w t.store).map _ = _
      rw [h1]
      rfl
    rw [List.mapM_cons, step_ok hcopy, step_ok (ih (t := { t with store := s1 }) hretain)]
    rfl

theorem inserta_run (ws : List Nat) {r : Elements Nat} (hne : ws.length ≠ 0)
    (hgap : fillGap list n idx = .ok r)
    (hreserve : Mmo.Containers.utarrayReserve r.1.length r.2 ws.length = .ok n')
    (hretain : ws.foldlM (fun s item => retainMmobj item s) t.store = .ok s') :
    Contents.inserta (utAstIcd releaseMmobj) realloc ws idx (list, n) t =
      .ok ((r.1.take idx ++ ws ++ r.1.drop idx, n'), { t with store := s' }) := by
  rw [Contents.inserta, if_neg hne, step_ok (fillGap_run hgap t), step_ok (reserve_run hreserve t),
    step_ok (copyAll_run hretain)]
  rfl

theorem fillGap_bounds {r : Elements Nat} (h : Doubled n) (hgap : fillGap list n idx = .ok r) :
    Doubled r.2 ∧ r.1.length = max list.length idx := by
  rw [fillGap] at hgap
  by_cases hgt : idx > list.length
  · rw [if_pos hgt] at hgap
    obtain ⟨m, hreserve, hgap⟩ := ok_of_bind hgap
    cases hgap
    refine ⟨(reserve_bounds h hreserve).1, ?_⟩
    rw [List.length_append, List.length_replicate]
    omega
  · rw [if_neg hgt] at hgap
    cases hgap
    exact ⟨h, by simp only; omega⟩

end Slots

section Lists

variable {t : SlotStore} {s s1 s' s'' : Store} {mem item : Nat} {x : Record} {list ws : List Nat}
  {n len : Nat} {object : Object}

theorem listSerial_ok (hlist : toMMList mem s = .ok (list, n)) (hx : s.pool.find mem = some x) :
    listSerial mem s = .ok x.serial := by
  rw [listSerial, bind_ok hlist, serialOf, hx]

/-- The blocks are the same, nothing was destroyed, and every list was there before, with the same
elements. -/
structure Older (s s' : Store) : Prop where
  inv : Inv ∅ s.pool → Inv ∅ s'.pool
  serials : s'.pool.serials = s.pool.serials
  log : s'.pool.log = s.pool.log
  lists : ∀ k list n, s'.objects k = .mmList list n → s.objects k = .mmList list n

theorem Older.refl (s : Store) : Older s s := ⟨id, rfl, rfl, fun _ _ _ hk => hk⟩

theorem Older.trans (h : Older s s') (h' : Older s' s'') : Older s s'' :=
  ⟨fun hi => h'.inv (h.inv hi), h'.serials.trans h.serials, h'.log.trans h.log,
    fun k list n hk => h.lists k list n (h'.lists k list n hk)⟩

theorem Older.backed {arrays : Nat → UtArray Nat} (hs : Older s s') (h : Backed ∅ ⟨s, arrays⟩) :
    Backed ∅ ⟨s', arrays⟩ where
  inv := hs.inv h.inv
  slots k hk list n ho := h.slots k (hs.serials ▸ hk) list n (hs.lists k list n ho)
  given k hk hlog list n ho :=
    h.given k (hs.serials ▸ hk) (hs.log ▸ hlog) list n (hs.lists k list n ho)

theorem backed_write {arrays : Nat → UtArray Nat} {a : UtArray Nat} {serial : Nat}
    (h : Backed ∅ ⟨s, arrays⟩) (hserial : serial ∈ s.pool.serials)
    (hrep : Represents a (list, n)) (hn : Doubled n) :
    Backed ∅ ⟨written s serial (.mmList list n), Function.update arrays serial a⟩ := by
  refine ⟨h.inv, fun k hk list' n' ho => ?_, fun k hk hlog list' n' ho => ?_⟩
  · show Represents (Function.update arrays serial a k) _ ∧ _
    by_cases hks : k = serial
    · subst hks
      simp only [written, Function.update_self, Object.mmList.injEq] at ho
      rw [Function.update_self, ← ho.1, ← ho.2]
      exact ⟨hrep, hn⟩
    · rw [Function.update_of_ne hks]
      rw [write_objects_ne hks] at ho
      exact h.slots k hk list' n' ho
  · have hks : k ≠ serial := by
      rintro rfl
      exact hk hserial
    show (Function.update arrays serial a k).n = 0 ∧ (Function.update arrays serial a k).d = []
    rw [Function.update_of_ne hks]
    rw [write_objects_ne hks] at ho
    exact h.given k hk hlog list' n' ho

theorem putArray_ok {a : UtArray Nat} (serial : Nat) (h : Represents a (list, n))
    (hassign : assign mem (.mmList list n) t.store = .ok s') :
    putArray mem serial a t = .ok ⟨s', Function.update t.arrays serial a⟩ := by
  rw [putArray, elements_of_represents h, h.n, bind_ok hassign]
  rfl

theorem retain_older (h : retainMmobj mem s = .ok s') : Older s s' := by
  rw [retainMmobj] at h
  split_ifs at h with h0
  · cases h
    exact Older.refl s
  · obtain ⟨o, -, hs⟩ := ok_of_bind h
    cases hs
    refine ⟨mgnMemRetain_inv mem, ?_, ?_, fun _ _ _ hk => hk⟩
    all_goals
      rw [mgnMemRetain]
      cases s.pool.find mem with
      | none => rfl
      | some x => first | rfl | exact serials_update fun _ => rfl

theorem retain_find {a : Nat} (h : retainMmobj mem s = .ok s') (hx : s.pool.find a = some x) :
    ∃ y, s'.pool.find a = some y ∧ y.serial = x.serial := by
  rw [retainMmobj] at h
  split_ifs at h with h0
  · cases h
    exact ⟨x, hx, rfl⟩
  · obtain ⟨o, -, hs⟩ := ok_of_bind h
    cases hs
    show ∃ y, (mgnMemRetain s.pool mem).2.find a = some y ∧ _
    rw [mgnMemRetain]
    cases s.pool.find mem with
    | none => exact ⟨x, hx, rfl⟩
    | some z =>
      let f : Record → Record := fun y => { y with r := sizeT (y.r + 1) }
      have hfound : (s.pool.update z.serial f).find a = _ := find_update fun _ => rfl
      rw [hx] at hfound
      refine ⟨_, hfound, ?_⟩
      show (if x.serial = z.serial then f x else x).serial = _
      split_ifs <;> rfl

theorem retainAll_older (ws : List Nat)
    (h : ws.foldlM (fun s item => retainMmobj item s) s = .ok s')
    (hx : s.pool.find mem = some x) :
    Older s s' ∧ ∃ y, s'.pool.find mem = some y ∧ y.serial = x.serial := by
  induction ws generalizing s x with
  | nil =>
    cases h
    exact ⟨Older.refl _, x, hx, rfl⟩
  | cons w ws ih =>
    rw [List.foldlM_cons] at h
    obtain ⟨s1, h1, h2⟩ := ok_of_bind h
    obtain ⟨y, hy, hys⟩ := retain_find h1 hx
    obtain ⟨hold, z, hz, hzs⟩ := ih h2 hy
    exact ⟨(retain_older h1).trans hold, z, hz, hzs.trans hys⟩

theorem assign_older (hobject : ∀ list n, object ≠ .mmList list n)
    (h : assign mem object s = .ok s') : Older s s' := by
  obtain ⟨x, -, rfl⟩ := assign_inv h
  refine ⟨id, rfl, rfl, fun k list n hk => ?_⟩
  by_cases hkn : k = x.serial
  · subst hkn
    simp only [written, Function.update_self] at hk
    exact absurd hk (hobject list n)
  · rwa [write_objects_ne hkn] at hk

/-- A list gets elements: the model of the objects writes it first, and the macros retain the
elements first. -/
theorem gain_ok (ws : List Nat) (r : Elements Nat)
    {f : UtArray Nat → StateT SlotStore (Except Stop) (UtArray Nat)}
    {spec : StateT SlotStore (Except Stop) (Elements Nat)} (h : Backed ∅ t)
    (hx : t.store.pool.find mem = some x)
    (hspec : ∀ s1, ws.foldlM (fun s item => retainMmobj item s) t.store = .ok s1 →
      spec t = .ok (r, { t with store := s1 }))
    (hf : Coupled (Holding len) (f (t.arrays x.serial)) spec) (hr : Doubled r.2)
    (hrun : (do
      let s ← assign mem (.mmList r.1 r.2) t.store
      ws.foldlM (fun s item => retainMmobj item s) s) = .ok s') :
    Lands ∅ s' (do
      let (a, t) ← f (t.arrays x.serial) t
      putArray mem x.serial a t) := by
  obtain ⟨s0, hassign, hrun⟩ := ok_of_bind hrun
  obtain ⟨y, hy, rfl⟩ := assign_inv hassign
  obtain rfl := Option.some.inj (hx.symm.trans hy)
  rw [retainAll_write] at hrun
  obtain ⟨s1, hretain, rfl⟩ := ok_of_map hrun
  obtain ⟨hold, z, hz, hzs⟩ := retainAll_older ws hretain hx
  obtain ⟨e, -, herr⟩ | ⟨a, r', t2, ha, hr', hrep, -⟩ := hf.outcome t
  · rw [hspec s1 hretain] at herr
    cases herr
  · rw [hspec s1 hretain] at hr'
    cases hr'
    refine ⟨Function.update t.arrays x.serial a, ?_,
      backed_write (hold.backed h) (hzs ▸ serial_mem (find_some hz).1) hrep hr⟩
    rw [bind_ok ha]
    exact putArray_ok x.serial hrep (by rw [assign, hz, ← hzs]; rfl)

end Lists

section Operations

variable {t : SlotStore} {s' : Store} {mem item : Nat}

theorem insertIdx_eq (list : List Nat) (item idx : Nat) (h : idx ≤ list.length) :
    list.insertIdx idx item = list.take idx ++ [item] ++ list.drop idx := by
  induction idx generalizing list with
  | zero => rfl
  | succ idx ih =>
    cases list with
    | nil => cases h
    | cons x list =>
      rw [List.insertIdx_succ_cons, ih list (Nat.le_of_succ_le_succ h)]
      rfl

theorem pushMMListItem_lands (h : Backed ∅ t)
    (hrun : Mmo.Containers.pushMMListItem mem item t.store = .ok s') :
    Lands ∅ s' (pushMMListItem mem item t) := by
  obtain ⟨⟨list, n⟩, hlist, hrun⟩ := ok_of_bind hrun
  obtain ⟨n', hreserve, hrun⟩ := ok_of_bind hrun
  obtain ⟨x, hx, ho⟩ := toMMList_inv hlist
  obtain ⟨hrep, hn⟩ := h.slots x.serial (serial_mem (find_some hx).1) list n ho
  obtain ⟨hn', hle⟩ := reserve_bounds hn hreserve
  have hgap : fillGap list n list.length = .ok (list, n) := if_neg (lt_irrefl _)
  rw [pushMMListItem, bind_ok (listSerial_ok hlist hx)]
  refine gain_ok [item] (list ++ [item], n') h hx (fun s1 hretain => ?_)
    (pushBack_coupled item hrep (hle.trans hn'.le)) hn' ?_
  · rw [inserta_run [item] (by simp) hgap hreserve hretain, List.take_length, List.drop_length,
      List.append_nil]
  · simpa using hrun

theorem insertMMListItem_lands {idx : Nat} (h : Backed ∅ t)
    (hrun : Mmo.Containers.insertMMListItem mem item idx t.store = .ok s') :
    Lands ∅ s' (insertMMListItem mem item idx t) := by
  obtain ⟨⟨list, n⟩, hlist, hrun⟩ := ok_of_bind hrun
  obtain ⟨r, hgap, hrun⟩ := ok_of_bind hrun
  obtain ⟨n', hreserve, hrun⟩ := ok_of_bind hrun
  obtain ⟨x, hx, ho⟩ := toMMList_inv hlist
  obtain ⟨hrep, hn⟩ := h.slots x.serial (serial_mem (find_some hx).1) list n ho
  obtain ⟨hr, hlen⟩ := fillGap_bounds hn hgap
  obtain ⟨hn', hle⟩ := reserve_bounds hr hreserve
  rw [insertMMListItem, bind_ok (listSerial_ok hlist hx)]
  refine gain_ok [item] (r.1.insertIdx (uint idx) item, n') h hx
    (fun s1 hretain => ?_) (insert_coupled item hrep (hlen ▸ hle.trans hn'.le)) hn' ?_
  · rw [inserta_run [item] (by simp) hgap hreserve hretain, insertIdx_eq _ _ _ (by omega)]
  · simpa using hrun

theorem concatMMList_lands {aList : Nat} (h : Backed ∅ t)
    (hrun : Mmo.Containers.concatMMList mem aList t.store = .ok s') :
    Lands ∅ s' (concatMMList mem aList t) := by
  obtain ⟨⟨ws, nw⟩, hsrc, hrun⟩ := ok_of_bind hrun
  obtain ⟨⟨list, n⟩, hlist, hrun⟩ := ok_of_bind hrun
  obtain ⟨y, hy, hyo⟩ := toMMList_inv hsrc
  obtain ⟨x, hx, ho⟩ := toMMList_inv hlist
  obtain ⟨hrepw, -⟩ := h.slots y.serial (serial_mem (find_some hy).1) ws nw hyo
  obtain ⟨hrep, hn⟩ := h.slots x.serial (serial_mem (find_some hx).1) list n ho
  have hgap : fillGap list n list.length = .ok (list, n) := if_neg (lt_irrefl _)
  rw [concatMMList, bind_ok (listSerial_ok hsrc hy), bind_ok (listSerial_ok hlist hx)]
  -- a list behind itself is handed to the macros as such
  have hcoupled : list.length + ws.length ≤ 2 ^ 31 → ∃ len, Coupled (Holding len)
      (utarrayConcat (utAstIcd releaseMmobj) realloc (if y.serial = x.serial then none
        else some (t.arrays y.serial)) (t.arrays x.serial))
      (Contents.inserta (utAstIcd releaseMmobj) realloc ws list.length (list, n)) := by
    intro hsmall
    by_cases hself : y.serial = x.serial
    · rw [if_pos hself]
      rw [hself, ho, Object.mmList.injEq] at hyo
      obtain ⟨rfl, rfl⟩ := hyo
      exact ⟨_, concatSelf_coupled hrep ((two_mul _).trans_le hsmall)⟩
    · rw [if_neg hself, utarrayConcat, utarrayLen, hrep.i]
      exact ⟨_, inserta_coupled hrep hrepw (by rwa [max_self])⟩
  by_cases h0 : ws.length = 0
  · simp only [if_pos h0] at hrun
    cases hrun
    obtain ⟨len, hc⟩ := hcoupled (by rw [h0]; exact hrep.length_le.trans (hrep.n ▸ hn.le))
    have hnil : ws = [] := List.length_eq_zero_iff.mp h0
    have hsame : assign mem (.mmList list n) t.store = .ok t.store := by
      rw [assign, hx]
      simp only [← ho, Function.update_eq_self]
    refine gain_ok [] (list, n) h hx (fun s1 hretain => ?_) hc hn ?_
    · cases hretain
      rw [Contents.inserta, if_pos h0]
      rfl
    · rw [bind_ok hsame]
      rfl
  · simp only [if_neg h0] at hrun
    obtain ⟨n', hreserve, hrun⟩ := ok_of_bind hrun
    obtain ⟨hn', hle⟩ := reserve_bounds hn hreserve
    obtain ⟨len, hc⟩ := hcoupled (hle.trans hn'.le)
    refine gain_ok ws (list ++ ws, n') h hx (fun s1 hretain => ?_) hc hn' hrun
    rw [inserta_run ws h0 hgap hreserve hretain, List.take_length, List.drop_length,
      List.append_nil]

end Operations
section Runs

variable {t t' : SlotStore} {s' : Store} {mem item : Nat}

section Last

variable {a : UtArray Nat} {list : List Nat} {n : Nat}

theorem count_down (h : Represents a (list, n)) (hlast : list.getLast? = some item) :
    list.length ≠ 0 ∧ uintSub a.i 1 = list.length - 1 := by
  obtain ⟨list, rfl⟩ := List.getLast?_eq_some_iff.mp hlast
  have hle : (list ++ [item]).length ≤ a.n := h.length_le
  have hsmall := h.small
  have hpos : 0 < (list ++ [item]).length := by simp
  exact ⟨hpos.ne', by rw [h.i, uintSub_of_le hpos (hle.trans_lt hsmall)]⟩

theorem back_item (h : Represents a (list, n)) (hlast : list.getLast? = some item) :
    Macros.deref a (utarrayBack a) = (.ok item : Except Stop Nat) := by
  rw [utarrayBack, h.i, if_pos (count_down h hlast).1]
  exact readSlot_ok (h.slot (by rw [← hlast, List.getLast?_eq_getElem?]))

theorem last_gone (h : Represents a (list, n)) (hlast : list.getLast? = some item) :
    Represents { a with i := uintSub a.i 1 } (list.dropLast, n) := by
  rw [(count_down h hlast).2, List.dropLast_eq_take]
  exact h.shorten (list.length - 1) (Nat.sub_le _ _)

theorem popBack_run (h : Represents a (list, n)) (hlast : list.getLast? = some item)
    (hrelease : releaseMmobj item t = .ok t') :
    utarrayPopBack (utAstIcd releaseMmobj) a t = .ok ({ a with i := uintSub a.i 1 }, t') := by
  obtain ⟨hpos, hi⟩ := count_down h hlast
  have hd : destroy (utAstIcd releaseMmobj) a.d (list.length - 1) 1 =
      destroyAll (utAstIcd releaseMmobj) [item] := by
    obtain ⟨list, rfl⟩ := List.getLast?_eq_some_iff.mp hlast
    have hd := destroy_from (utAstIcd releaseMmobj) h list.length (by simp)
    simpa using hd
  have hdestroy : destroyAll (utAstIcd releaseMmobj) [item] t = .ok ((), t') := by
    have hdtor : ((releaseMmobj item t).map fun t => ((), t)) = .ok ((), t') := by
      rw [hrelease]
      rfl
    show ((fun t => (releaseMmobj item t).map fun t => ((), t)) >>= _ :
      StateT SlotStore (Except Stop) Unit) t = _
    rw [step_ok hdtor]
    rfl
  rw [utarrayPopBack, hi, hd, step_ok hdestroy]
  rfl

end Last

theorem popMMListItem_lands {answer : Nat} (h : Backed ∅ t)
    (hrun : Mmo.Containers.popMMListItem mem t.store = .ok (answer, s')) :
    ∃ arrays, popMMListItem mem t = .ok (answer, ⟨s', arrays⟩) ∧ Backed ∅ ⟨s', arrays⟩ := by
  obtain ⟨⟨list, n⟩, hlist, hrun⟩ := ok_of_bind hrun
  obtain ⟨x, hx, ho⟩ := toMMList_inv hlist
  obtain ⟨hrep, hn⟩ := h.slots x.serial (serial_mem (find_some hx).1) list n ho
  cases hlast : list.getLast? with
  | none =>
    simp only [hlast] at hrun
    cases hrun
  | some item =>
    simp only [hlast] at hrun
    obtain ⟨s1, hretain, hrun⟩ := ok_of_bind hrun
    obtain ⟨s2, hassign, hrun⟩ := ok_of_bind hrun
    obtain ⟨s3, hrelease, hrun⟩ := ok_of_bind hrun
    obtain ⟨s4, hautorelease, hrun⟩ := ok_of_bind hrun
    cases hrun
    have hshort := last_gone hrep hlast
    obtain ⟨y, hy, rfl⟩ := assign_inv hassign
    obtain ⟨z, hz, hzs⟩ := retain_find hretain hx
    obtain rfl := Option.some.inj (hy.symm.trans hz)
    have hb2 := backed_write ((retain_older hretain).backed h)
      (hzs ▸ serial_mem (find_some hz).1) hshort hn
    rw [hzs] at hassign hrelease
    obtain ⟨arrays3, hrelease3, hb3⟩ := releaseMmobj_lands hb2 hrelease
    obtain ⟨arrays4, hauto4, hb4⟩ := autoreleaseMmobj_lands hb3 hautorelease
    refine ⟨arrays4, ?_, hb4⟩
    rw [popMMListItem, bind_ok (listSerial_ok hlist hx)]
    simp only [back_item hrep hlast]
    rw [bind_ok rfl, bind_ok hretain,
      bind_ok (putArray_ok (t := { t with store := s1 }) x.serial hshort hassign),
      bind_ok (popBack_run hrep hlast hrelease3)]
    simp only [bind_ok hauto4]
    rfl

end Runs

section Others

variable {malloc : Malloc} {sizeOf : Object → Nat} {compareMmobjs : Store → Nat → Nat → Int}
  {t : SlotStore} {s s' : Store} {mem item key value : Nat} {object : Object}

theorem alloc_backed {arrays : Nat → UtArray Nat} (h : Backed ∅ t)
    (hrun : allocMmobj malloc sizeOf object t.store = .ok (mem, s'))
    (harrays : ∀ x, s'.pool.find mem = some x → (∀ k ≠ x.serial, arrays k = t.arrays k) ∧
      ∀ list n, object = .mmList list n → Represents (arrays x.serial) (list, n) ∧ Doubled n) :
    Backed ∅ ⟨s', arrays⟩ := by
  obtain ⟨x, hx⟩ := allocMmobj_made h.inv hrun
  obtain ⟨hother, hnew⟩ := harrays x hx.find
  have hserials : s'.pool.serials = t.store.pool.serials ++ [x.serial] := by
    rw [Pool.serials, hx.records, List.map_append]
    rfl
  refine ⟨hx.inv, fun k hk list n ho => ?_, fun k hk hlog list n ho => ?_⟩
  · rw [hx.objects] at ho
    rw [show k ∈ s'.pool.serials ↔ _ from by rw [hserials, List.mem_append, List.mem_singleton]]
      at hk
    show Represents (arrays k) _ ∧ _
    by_cases hks : k = x.serial
    · subst hks
      rw [Function.update_self] at ho
      exact hnew list n ho
    · rw [Function.update_of_ne hks] at ho
      rw [hother k hks]
      exact h.slots k (hk.resolve_right hks) list n ho
  · rw [hx.objects] at ho
    replace hk : k ∉ t.store.pool.serials ∧ k ≠ x.serial := by
      simpa [hserials] using hk
    rw [Function.update_of_ne hk.2] at ho
    show (arrays k).n = 0 ∧ (arrays k).d = []
    rw [hother k hk.2]
    exact h.given k hk.1 (hx.log ▸ hlog) list n ho

theorem alloc_other_backed (h : Backed ∅ t) (hobject : ∀ list n, object ≠ .mmList list n)
    (hrun : allocMmobj malloc sizeOf object t.store = .ok (mem, s')) :
    Backed ∅ { t with store := s' } :=
  alloc_backed h hrun fun _ _ => ⟨fun _ _ => rfl, fun list n ho => absurd ho (hobject list n)⟩

theorem addToTable_older (h : addToTable compareMmobjs mem item s = .ok s') : Older s s' := by
  obtain ⟨⟨sorted, items⟩, -, h⟩ := ok_of_bind h
  cases sorted <;> exact assign_older (fun _ _ => Object.noConfusion) h

theorem strongReference_backed (h : Backed ∅ t)
    (hrun : allocMMReferenceWithStrongReference malloc sizeOf mem t.store = .ok (item, s')) :
    Backed ∅ { t with store := s' } := by
  obtain ⟨⟨a, s1⟩, h1, hrun⟩ := ok_of_bind hrun
  obtain ⟨s2, h2, hrun⟩ := ok_of_bind hrun
  obtain ⟨s3, h3, hrun⟩ := ok_of_bind hrun
  cases hrun
  exact ((retain_older h2).trans (assign_older (fun _ _ => Object.noConfusion) h3)).backed
    (alloc_other_backed h (fun _ _ => Object.noConfusion) h1)

theorem mapItem_backed (h : Backed ∅ t)
    (hrun : allocMMMapItemWithKeyValue malloc sizeOf key value t.store = .ok (item, s')) :
    Backed ∅ { t with store := s' } := by
  obtain ⟨⟨a, s1⟩, h1, hrun⟩ := ok_of_bind hrun
  obtain ⟨s2, h2, hrun⟩ := ok_of_bind hrun
  obtain ⟨s3, h3, hrun⟩ := ok_of_bind hrun
  obtain ⟨s4, h4, hrun⟩ := ok_of_bind hrun
  cases hrun
  exact (((retain_older h2).trans (retain_older h3)).trans
    (assign_older (fun _ _ => Object.noConfusion) h4)).backed
    (alloc_other_backed h (fun _ _ => Object.noConfusion) h1)

theorem replaceMMMapItemKeyValue_lands (h : Backed ∅ t)
    (hrun : Mmo.Containers.replaceMMMapItemKeyValue item key value t.store = .ok s') :
    Lands ∅ s' (replaceMMMapItemKeyValue item key value t) := by
  obtain ⟨s1, h1, hrun⟩ := ok_of_bind hrun
  obtain ⟨s2, h2, hrun⟩ := ok_of_bind hrun
  obtain ⟨old, hold, hrun⟩ := ok_of_bind hrun
  obtain ⟨s3, h3, hrun⟩ := ok_of_bind hrun
  obtain ⟨old', hold', hrun⟩ := ok_of_bind hrun
  obtain ⟨s4, h4, hassign⟩ := ok_of_bind hrun
  rw [replaceMMMapItemKeyValue, bind_ok h1, bind_ok h2, bind_ok hold]
  refine (releaseMmobj_lands (((retain_older h1).trans (retain_older h2)).backed h) h3).bind
    fun arrays3 hb3 => ?_
  rw [bind_ok hold']
  refine (releaseMmobj_lands hb3 h4).bind fun arrays4 hb4 => ?_
  rw [bind_ok hassign]
  exact ⟨arrays4, rfl, (assign_older (fun _ _ => Object.noConfusion) hassign).backed hb4⟩

theorem addMMMapItem_lands (h : Backed ∅ t)
    (hrun : Mmo.Containers.addMMMapItem malloc sizeOf compareMmobjs mem key value t.store =
      .ok s') : Lands ∅ s' (addMMMapItem malloc sizeOf compareMmobjs mem key value t) := by
  rw [Mmo.Containers.addMMMapItem] at hrun
  rw [addMMMapItem]
  split_ifs at hrun ⊢ with h0
  · cases hrun
    exact ⟨t.arrays, rfl, h⟩
  · obtain ⟨hash, hhash, hrun⟩ := ok_of_bind hrun
    obtain ⟨⟨sorted, items⟩, htable, hrun⟩ := ok_of_bind hrun
    rw [bind_ok hhash, bind_ok htable]
    cases hfind : t.store.findItem items hash with
    | some item =>
      simp only [hfind] at hrun ⊢
      obtain ⟨s1, h1, hrun⟩ := ok_of_bind hrun
      obtain ⟨s2, h2, h3⟩ := ok_of_bind hrun
      rw [bind_ok h1]
      refine (replaceMMMapItemKeyValue_lands
        ((assign_older (fun _ _ => Object.noConfusion) h1).backed h) h2).bind fun arrays hb => ?_
      rw [bind_ok h3]
      exact ⟨arrays, rfl, (addToTable_older h3).backed hb⟩
    | none =>
      simp only [hfind] at hrun ⊢
      obtain ⟨⟨item, s1⟩, h1, h2⟩ := ok_of_bind hrun
      rw [bind_ok h1]
      simp only [bind_ok h2]
      exact ⟨t.arrays, rfl, (addToTable_older h2).backed (mapItem_backed h h1)⟩

theorem removeMMMapItem_lands (h : Backed ∅ t)
    (hrun : Mmo.Containers.removeMMMapItem mem key t.store = .ok s') :
    Lands ∅ s' (removeMMMapItem mem key t) := by
  rw [Mmo.Containers.removeMMMapItem] at hrun
  rw [removeMMMapItem]
  split_ifs at hrun ⊢ with h0
  · cases hrun
    exact ⟨t.arrays, rfl, h⟩
  · obtain ⟨hash, hhash, hrun⟩ := ok_of_bind hrun
    obtain ⟨⟨sorted, items⟩, htable, hrun⟩ := ok_of_bind hrun
    rw [bind_ok hhash, bind_ok htable]
    cases hfind : t.store.findItem items hash with
    | some item =>
      simp only [hfind] at hrun ⊢
      obtain ⟨s1, h1, h2⟩ := ok_of_bind hrun
      rw [bind_ok h1]
      exact releaseMmobj_lands ((assign_older (fun _ _ => Object.noConfusion) h1).backed h) h2
    | none =>
      simp only [hfind] at hrun ⊢
      cases hrun
      exact ⟨t.arrays, rfl, h⟩

end Others

section Refinement

variable (malloc : Malloc) (sizeOf : Object → Nat) (compareMmobjs : Store → Nat → Nat → Int)
  {t : SlotStore} {s' : Store} {answer : Nat}

theorem allocMMList_lands (h : Backed ∅ t)
    (hrun : allocMmobj malloc sizeOf (.mmList [] 0) t.store = .ok (answer, s')) :
    ∃ arrays, runSlotOp malloc sizeOf compareMmobjs (.alloc .mmList) t =
      .ok (answer, ⟨s', arrays⟩) ∧ Backed ∅ ⟨s', arrays⟩ := by
  obtain ⟨x, hmade⟩ := allocMmobj_made h.inv hrun
  have hx' := hmade.find
  have hserial : serialOf answer s' = .ok x.serial := by rw [serialOf, hx']
  refine ⟨Function.update t.arrays x.serial utarrayInit, ?_, alloc_backed h hrun fun y hy => ?_⟩
  · rw [runSlotOp, bind_ok hrun]
    simp only [hserial]
    rfl
  · obtain rfl := Option.some.inj (hx'.symm.trans hy)
    refine ⟨fun k hk => Function.update_of_ne hk _ _, fun list n ho => ?_⟩
    cases ho
    rw [Function.update_self]
    exact ⟨init_represents, .inl rfl⟩

theorem Lands.answered {answer a : Nat} {run : Except Stop Store} {run' : Except Stop SlotStore}
    (hrun : (run.map fun s => (a, s)) = .ok (answer, s'))
    (h : ∀ s, run = .ok s → Lands ∅ s run') :
    ∃ arrays, (run'.map fun t => (a, t)) = .ok (answer, ⟨s', arrays⟩) ∧ Backed ∅ ⟨s', arrays⟩ := by
  obtain ⟨s, hs, he⟩ := ok_of_map hrun
  cases he
  obtain ⟨arrays, rfl, hb⟩ := h _ hs
  exact ⟨arrays, rfl, hb⟩

/-- An operation of the model of the objects that ends has the macros end, with slots that hold
the lists. -/
theorem runSlotOp_lands (op : Op) (h : Backed ∅ t)
    (hrun : op.run malloc sizeOf compareMmobjs t.store = .ok (answer, s')) :
    ∃ arrays, runSlotOp malloc sizeOf compareMmobjs op t = .ok (answer, ⟨s', arrays⟩) ∧
      Backed ∅ ⟨s', arrays⟩ := by
  have hother : ∀ {run : Except Stop (Nat × Store)}, run = .ok (answer, s') →
      Backed ∅ { t with store := s' } → ∃ arrays,
      (run >>= fun p => pure (p.1, { t with store := p.2 })) =
        (.ok (answer, ⟨s', arrays⟩) : Except Stop (Nat × SlotStore)) ∧ Backed ∅ ⟨s', arrays⟩ := by
    rintro run rfl hb
    exact ⟨t.arrays, rfl, hb⟩
  cases op with
  | alloc fresh =>
    cases fresh with
    | mmList => exact allocMMList_lands malloc sizeOf compareMmobjs h hrun
    | _ => exact hother hrun (alloc_other_backed h (fun _ _ => Object.noConfusion) hrun)
  | retain mem =>
    obtain ⟨s1, h1, he⟩ := ok_of_map hrun
    cases he
    exact ⟨t.arrays, bind_ok h1, (retain_older h1).backed h⟩
  | release mem => exact Lands.answered hrun fun _ => releaseMmobj_lands h
  | autorelease mem => exact Lands.answered hrun fun _ => autoreleaseMmobj_lands h
  | push list item => exact Lands.answered hrun fun _ => pushMMListItem_lands h
  | pop list => exact popMMListItem_lands h hrun
  | insert list item idx => exact Lands.answered hrun fun _ => insertMMListItem_lands h
  | concat list aList => exact Lands.answered hrun fun _ => concatMMList_lands h
  | add map key value => exact Lands.answered hrun fun _ => addMMMapItem_lands h
  | remove map key => exact Lands.answered hrun fun _ => removeMMMapItem_lands h
  | strongReference object => exact hother hrun (strongReference_backed h hrun)
  | releaseUnused => exact Lands.answered hrun fun _ => releaseUnused_lands h

theorem answers_cons {σ : Type} {run : Op → σ → Except Stop (Nat × σ)} {op : Op} {s1 s2 : σ}
    (ops : List Op) (h : run op s1 = .ok (answer, s2)) :
    answers run (op :: ops) s1 = (answers run ops s2).map fun r => (answer :: r.1, r.2) := by
  rw [answers, bind_ok h]
  rfl

/-- The stores are those that the operations lead to with the owners at their side. -/
theorem answers_store (ops : List Op) (st : State) :
    (answers (Op.run malloc sizeOf compareMmobjs) ops st.store).map (fun r => r.2) =
      (runOps malloc sizeOf compareMmobjs ops st).map State.store := by
  induction ops generalizing st with
  | nil => rfl
  | cons op ops ih =>
    cases hrun : op.run malloc sizeOf compareMmobjs st.store with
    | error e =>
      rw [answers, runOps, Op.step, hrun]
      rfl
    | ok r =>
      have hstep : op.step malloc sizeOf compareMmobjs st =
          .ok ⟨r.2, op.owners r.1 st.owners⟩ := by
        rw [Op.step, hrun]
        rfl
      rw [answers_cons ops hrun, runOps, bind_ok hstep, ← ih]
      cases answers (Op.run malloc sizeOf compareMmobjs) ops r.2 <;> rfl

theorem answers_backed (ops : List Op) {s : Store} {arrays : Nat → UtArray Nat}
    (h : Backed ∅ ⟨s, arrays⟩) :
    Meets (fun _ => True) (fun r => ∃ arrays',
        answers (runSlotOp malloc sizeOf compareMmobjs) ops ⟨s, arrays⟩ =
          .ok (r.1, ⟨r.2, arrays'⟩) ∧ Backed ∅ ⟨r.2, arrays'⟩)
      (answers (Op.run malloc sizeOf compareMmobjs) ops s) := by
  induction ops generalizing s arrays with
  | nil => exact ⟨arrays, rfl, h⟩
  | cons op ops ih =>
    cases hrun : op.run malloc sizeOf compareMmobjs s with
    | error e =>
      have hstop : answers (Op.run malloc sizeOf compareMmobjs) (op :: ops) s = .error e := by
        rw [answers, hrun]
        rfl
      rw [hstop]
      trivial
    | ok r =>
      obtain ⟨arrays1, hslots, hb⟩ := runSlotOp_lands malloc sizeOf compareMmobjs op h hrun
      rw [answers_cons ops hrun]
      refine (ih hb).map fun r' ⟨arrays', hrest, hb'⟩ => ⟨arrays', ?_, hb'⟩
      rw [answers_cons ops hslots, hrest]
      rfl

theorem start_backed : Backed ∅ ⟨start.store, fun _ => utarrayInit⟩ where
  inv := inv_empty
  slots _ hk := absurd hk List.not_mem_nil
  given _ _ hlog := absurd hlog List.not_mem_nil

/-- Any operations on any objects, in any order: where the model of the objects comes to an end
of them, with lists for the contents of its lists, the macros on the slots in memory come to the
same end with the same answers, never outside an array and never at a slot without an element.
The slots of every list then hold its elements, and the lists that were destroyed have given
theirs back. -/
theorem lists_in_slots (ops : List Op) :
    Meets (fun _ => True) (fun r => ∃ arrays,
        answers (runSlotOp malloc sizeOf compareMmobjs) ops ⟨start.store, fun _ => utarrayInit⟩ =
          .ok (r.1, ⟨r.2, arrays⟩) ∧ Backed ∅ ⟨r.2, arrays⟩)
      (answers (Op.run malloc sizeOf compareMmobjs) ops start.store) :=
  answers_backed malloc sizeOf compareMmobjs ops start_backed

def listOps : List Op :=
  [.alloc (.mmInt 7), .alloc .mmList, .push 2 1, .insert 2 1 3, .concat 2 2, .pop 2, .release 2,
    .releaseUnused]

theorem lists_in_slots_listOps :
    ∃ s arrays, answers (runSlotOp bumpMalloc (fun _ => 8) fun _ _ _ => 0) listOps
        ⟨start.store, fun _ => utarrayInit⟩ = .ok ([1, 2, 0, 0, 0, 1, 0, 0], ⟨s, arrays⟩) ∧
      s.pool.live = [1] ∧ Backed ∅ ⟨s, arrays⟩ := by
  have hslots := lists_in_slots bumpMalloc (fun _ => 8) (fun _ _ _ => 0) listOps
  have hanswers : (answers (Op.run bumpMalloc (fun _ => 8) fun _ _ _ => 0) listOps
      start.store).map (fun r => (r.1, r.2.pool.live)) = .ok ([1, 2, 0, 0, 0, 1, 0, 0], [1]) := by
    decide +kernel
  obtain ⟨⟨_, s⟩, hrun, he⟩ := ok_of_map hanswers
  obtain ⟨rfl, hlive⟩ := Prod.mk.inj he
  rw [hrun] at hslots
  obtain ⟨arrays, h, hb⟩ := hslots
  exact ⟨s, arrays, h, hlive, hb⟩

end Refinement

end LcClibs.Slots.MMList
