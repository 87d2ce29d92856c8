import Mathlib
import LcClibs.Lib.Runs
import LcClibs.Pack.Tables

namespace LcClibs.Pack.Registry

open Lib Lib.Runs Buffer.VarInt Pack.Packer Pack.Numbering Pack.Tables

section Registration

variable {A : Type} {host : Host} {stru : A → Stru A} {α β : Type} {l : Nat}
  {order objs objs' roots : List A} {s s' : MMPacker A}

structure Numbered (l : Nat) (order : List A) (s : MMPacker A) : Prop where
  level_eq : s.level = l
  nodup : order.Nodup
  objToId_eq : s.objToId = order.zipIdx
  idToObj_eq : s.idToObj = order.zipIdx.map Prod.swap

/-- A computation that comes to its end has registered these objects, and no others. -/
def Registers (l : Nat) (objs : List A) (x : PackM A α) : Prop :=
  ∀ s order r, Numbered l order s → x s = .ok r →
    ∃ order', Numbered l order' r.2 ∧ order <+: order' ∧
      ∀ a, a ∈ order' ↔ a ∈ order ∨ a ∈ objs

theorem Registers.bind {x : PackM A α} {f : α → PackM A β} (hx : Registers l objs x)
    (hf : ∀ a, Registers l objs' (f a)) : Registers l (objs ++ objs') (x >>= f) := by
  intro s order r hs h
  obtain ⟨a, s1, h1, h2⟩ := step_eq_ok.mp h
  obtain ⟨order1, hs1, hpre1, hmem1⟩ := hx s order _ hs h1
  obtain ⟨order2, hs2, hpre2, hmem2⟩ := hf a s1 order1 _ hs1 h2
  refine ⟨order2, hs2, hpre1.trans hpre2, fun b => ?_⟩
  rw [hmem2, hmem1, List.mem_append, or_assoc]

theorem Registers.nothing {x : PackM A α} (h : ∀ s r, x s = .ok r → r.2.level = s.level ∧
    r.2.objToId = s.objToId ∧ r.2.idToObj = s.idToObj) : Registers l [] x := by
  intro s order r hs hrun
  obtain ⟨h1, h2, h3⟩ := h s r hrun
  exact ⟨order, ⟨h1.trans hs.level_eq, hs.nodup, h2.trans hs.objToId_eq, h3.trans hs.idToObj_eq⟩,
    List.prefix_refl order, fun a => by simp⟩

theorem emit_registers (r : Records.Record) : Registers l [] (Packer.emit host r : PackM A Unit) :=
  Registers.nothing fun s p h => by
    rw [Packer.emit, Packer.onDyb] at h
    cases hd : r.append host s.dyb with
    | error f =>
      rw [hd] at h
      cases h
    | ok q =>
      rw [hd] at h
      cases h
      exact ⟨rfl, rfl, rfl⟩

theorem dbSaveObjectName_registers (name : List UInt8) :
    Registers l [] (Packer.dbSaveObjectName host name : PackM A Nat) := by
  intro s order r hs h
  rw [Packer.dbSaveObjectName, step_get] at h
  cases hf : Table.find Prod.fst name s.classNameToId with
  | some p =>
    rw [hf] at h
    cases h
    exact ⟨order, hs, List.prefix_refl order, fun a => by simp⟩
  | none =>
    rw [hf] at h
    have hs1 : Numbered l order
        { s with classNameToId := s.classNameToId ++ [(name, s.classNameToId.length)] } :=
      ⟨hs.level_eq, hs.nodup, hs.objToId_eq, hs.idToObj_eq⟩
    obtain ⟨_, s2, h2, h⟩ := step_eq_ok.mp h
    cases h2
    obtain ⟨_, s3, h3, h⟩ := step_eq_ok.mp h
    cases h
    exact emit_registers _ _ order _ hs1 h3

theorem packNextContextImpl_registers (name : List UInt8) :
    Registers l [] (Packer.packNextContextImpl host name : PackM A Unit) :=
  (dbSaveObjectName_registers name).bind fun _ => emit_registers _

section Calls

variable {packObject : Nat → Option A → PackM A Unit}
  (hp : ∀ key obj, Registers l (toMMObject stru obj).toList (packObject key obj))

include hp

theorem packCalls_registers (cs : List (PackCall A)) :
    Registers l (objectsOf (cs.map (acceptedCall stru))) (Packer.packCalls host packObject cs) := by
  induction cs with
  | nil => exact Registers.nothing fun s r h => by cases h; exact ⟨rfl, rfl, rfl⟩
  | cons c cs ih =>
    have hc : Registers l (objectsOf [acceptedCall stru c])
        (Packer.packCall host packObject c) := by
      cases c with
      | object key obj =>
        have hobj : objectsOf [acceptedCall stru (.object key obj)] =
            (toMMObject stru obj).toList := by
          rw [acceptedCall]
          cases toMMObject stru obj <;> rfl
        rw [hobj]
        exact hp key obj
      | crash f => exact Registers.nothing fun s r h => by cases h
      | _ => exact emit_registers _
    rw [List.map_cons, objectsOf_cons]
    exact hc.bind fun _ => ih

theorem packLevels_registers (ls : List (Level A)) :
    Registers l ((ls.map (acceptedLevel stru)).flatMap fun l => (l.pack.map objectsOf).getD [])
      (Packer.packLevels host packObject ls) := by
  induction ls with
  | nil => exact Registers.nothing fun s r h => by cases h; exact ⟨rfl, rfl, rfl⟩
  | cons l ls ih =>
    rw [Packer.packLevels, List.map_cons, List.flatMap_cons, acceptedLevel]
    cases l.pack with
    | none => exact ih
    | some calls =>
      exact (packNextContextImpl_registers l.name).bind fun _ =>
        (packCalls_registers hp calls).bind fun _ => ih

end Calls

theorem reach_trans {roots' : List A} (h : ∀ b ∈ roots', Reach stru roots b) {a : A}
    (ha : Reach stru roots' a) : Reach stru roots a := by
  induction ha with
  | root hr => exact h _ hr
  | child _ hb ih => exact .child ih hb

theorem getElem?_grown {order' : List A} (hpre : order <+: order') {j : Nat} {a : A}
    (h : order[j]? = some a) : order'[j]? = some a := by
  obtain ⟨hj, rfl⟩ := List.getElem?_eq_some_iff.mp h
  exact List.prefix_iff_getElem?.mp hpre j hj

def Covered (stru : A → Stru A) (i : Nat) (order : List A) : Prop :=
  ∀ j a, j < i → order[j]? = some a → ∀ b ∈ children (stru a), b ∈ order

theorem Covered.grown {i : Nat} {order' : List A} (h : Covered stru i order)
    (hi : i ≤ order.length) (hpre : order <+: order') : Covered stru i order' := by
  intro j a hj ha b hb
  have hold := getElem?_grown hpre (List.getElem?_eq_getElem (show j < order.length by omega))
  obtain rfl := Option.some.inj (ha.symm.trans hold)
  exact hpre.subset (h j _ hj (List.getElem?_eq_getElem _) b hb)

theorem Covered.all (h : Covered stru order.length order) :
    ∀ a ∈ order, ∀ b ∈ children (stru a), b ∈ order := by
  intro a ha b hb
  obtain ⟨j, hj, hget⟩ := List.getElem_of_mem ha
  exact h j a hj (by rw [List.getElem?_eq_getElem hj, hget]) b hb

/-- Between two calls: the objects are those that the roots so far lead to. -/
structure Registered (stru : A → Stru A) (roots : List A) (s : MMPacker A) (order : List A) :
    Prop where
  numbered : Numbered 0 order s
  roots_mem : ∀ a ∈ roots, a ∈ order
  reach : ∀ a ∈ order, Reach stru roots a
  covered : Covered stru order.length order

theorem Registered.mem_iff (h : Registered stru roots s order) (a : A) :
    a ∈ order ↔ Reach stru roots a := by
  refine ⟨h.reach a, fun ha => ?_⟩
  induction ha with
  | root hr => exact h.roots_mem _ hr
  | child _ hb ih => exact h.covered.all _ ih _ hb

theorem Registered.nothing {x : PackM A α} {r : α × MMPacker A}
    (hs : Registered stru roots s order) (hx : Registers 0 [] x) (h : x s = .ok r) :
    ∃ order', Registered stru roots r.2 order' := by
  obtain ⟨order', hr, hpre, hmem⟩ := hx s order r hs.numbered h
  have hold : ∀ a ∈ order', a ∈ order := fun a ha =>
    ((hmem a).mp ha).resolve_right List.not_mem_nil
  exact ⟨order', hr, fun a ha => hpre.subset (hs.roots_mem a ha),
    fun a ha => hs.reach a (hold a ha), fun j a _ ha b hb =>
      hpre.subset (hs.covered.all a (hold a (List.mem_of_getElem? ha)) b hb)⟩

variable [DecidableEq A]

theorem saveObject_registers (obj : A) : Registers l [obj] (Packer.saveObject obj) := by
  intro s order r hs h
  rw [Packer.saveObject, step_get] at h
  by_cases hmem : obj ∈ order
  · rw [hs.objToId_eq, Table.find_zipIdx hmem] at h
    cases h
    refine ⟨order, hs, List.prefix_refl order, fun a => ⟨Or.inl, ?_⟩⟩
    rintro (ha | ha)
    · exact ha
    · rw [List.mem_singleton.mp ha]
      exact hmem
  · rw [hs.objToId_eq, Table.find_zipIdx_none hmem] at h
    cases h
    refine ⟨order ++ [obj], ⟨hs.level_eq, ?_, ?_, ?_⟩, List.prefix_append order [obj],
      fun a => List.mem_append⟩
    · exact List.nodup_append.mpr ⟨hs.nodup, List.nodup_singleton obj, fun a ha b hb => by
        rw [List.mem_singleton.mp hb]
        rintro rfl
        exact hmem ha⟩
    · simp [List.zipIdx_append]
    · simp [hs.idToObj_eq, List.zipIdx_append]

theorem reference_registers (key : Nat) (obj : A) :
    Registers l [obj] (do
      let num ← Packer.saveObject obj
      Packer.emit host (.objectRef key num)) :=
  (saveObject_registers obj).bind fun num => emit_registers (.objectRef key num)

theorem packObjectImpl_registers (hl : 0 < l) (fuel key : Nat) (o : Option A) :
    Registers l (toMMObject stru o).toList (Packer.packObjectImpl host stru fuel key o) := by
  cases fuel with
  | zero => exact fun s order r hs h => by cases h
  | succ fuel =>
    cases ho : toMMObject stru o with
    | none =>
      rw [packObjectImpl_none ho]
      exact Registers.nothing fun s r h => by cases h; exact ⟨rfl, rfl, rfl⟩
    | some obj =>
      intro s order r hs h
      rw [packObjectImpl_some ho, step_modify, step_get] at h
      have hs1 : Numbered (l + 1) order { s with level := s.level + 1 } :=
        ⟨by rw [hs.level_eq], hs.nodup, hs.objToId_eq, hs.idToObj_eq⟩
      obtain ⟨num, s2, h2, h⟩ := step_eq_ok.mp h
      obtain ⟨u, s3, h3, h⟩ := step_eq_ok.mp h
      obtain ⟨order', hs3, hpre, hmem⟩ :=
        reference_registers key obj _ order _ hs1 ((step_ok h2).trans h3)
      have hlevel : s.level + 1 > 1 := by
        rw [hs.level_eq]
        omega
      rw [if_pos hlevel] at h
      cases h
      refine ⟨order', ⟨?_, hs3.nodup, hs3.objToId_eq, hs3.idToObj_eq⟩, hpre, hmem⟩
      show s3.level - 1 = l
      rw [hs3.level_eq, Nat.add_sub_cancel]

theorem section_registers (n i : Nat) (obj : A) :
    Registers 1 (children (accepted stru obj)) (do
      let num ← Packer.dbSaveObjectName host (stru obj).last.name
      Packer.emit host (.object i num)
      Packer.packLevels host (Packer.packObjectImpl host stru n) (stru obj).levels
      Packer.emit host (.objectEnd i)) := by
  have hlevels : Registers 1 (children (accepted stru obj))
      (Packer.packLevels host (Packer.packObjectImpl host stru n) (stru obj).levels) := by
    rw [children, levels_accepted]
    exact packLevels_registers (packObjectImpl_registers Nat.one_pos n) (stru obj).levels
  have hnil : [] ++ ([] ++ (children (accepted stru obj) ++ [])) =
      children (accepted stru obj) := by
    simp
  rw [← hnil]
  exact (dbSaveObjectName_registers _).bind fun num => (emit_registers _).bind fun _ =>
    hlevels.bind fun _ => emit_registers _

/-- The loop over the sections, when it comes to its end, has registered all that its objects
lead to. -/
theorem packSections_registers {fuel n i : Nat} {r : Unit × MMPacker A} (hs : Numbered 1 order s)
    (hi : i ≤ order.length) (hcov : Covered (accepted stru) i order)
    (h : Packer.packSections host stru (Packer.packObjectImpl host stru n) fuel i s = .ok r) :
    ∃ order', Numbered 1 order' r.2 ∧ order <+: order' ∧
      (∀ a ∈ order', Reach (accepted stru) order a) ∧
      Covered (accepted stru) order'.length order' := by
  induction fuel generalizing i s order with
  | zero => cases h
  | succ fuel ih =>
    have hlen : s.idToObj.length = order.length := by
      rw [hs.idToObj_eq, List.length_map, List.length_zipIdx]
    rw [Packer.packSections, step_get] at h
    by_cases hlt : s.idToObj.length > i
    · rw [if_pos hlt] at h
      obtain ⟨obj, hget⟩ : ∃ obj, order[i]? = some obj := by
        rw [List.getElem?_eq_getElem (by omega)]
        exact ⟨_, rfl⟩
      rw [hs.idToObj_eq, Table.find_zipIdx_swap, hget] at h
      obtain ⟨num, s1, h1, h⟩ := step_eq_ok.mp h
      obtain ⟨_, s2, h2, h⟩ := step_eq_ok.mp h
      obtain ⟨_, s3, h3, h⟩ := step_eq_ok.mp h
      obtain ⟨_, s4, h4, h⟩ := step_eq_ok.mp h
      obtain ⟨order1, hs4, hpre, hmem⟩ := section_registers n i obj s order _ hs
        ((step_ok h1).trans ((step_ok h2).trans ((step_ok h3).trans h4)))
      have hcov1 : Covered (accepted stru) (i + 1) order1 := fun j a hj ha b hb => by
        by_cases hji : j = i
        · subst hji
          obtain rfl : a = obj := Option.some.inj (ha.symm.trans (getElem?_grown hpre hget))
          exact (hmem b).mpr (Or.inr hb)
        · exact hcov.grown hi hpre j a (by omega) ha b hb
      obtain ⟨order', hs', hpre', hreach, hcov'⟩ :=
        ih hs4 (by have := hpre.length_le; omega) hcov1 h
      refine ⟨order', hs', hpre.trans hpre', fun a ha =>
        reach_trans (fun b hb => ?_) (hreach a ha), hcov'⟩
      obtain hb | hb := (hmem b).mp hb
      · exact .root hb
      · exact .child (.root (List.mem_of_getElem? hget)) hb
    · rw [if_neg hlt] at h
      cases h
      obtain rfl : i = order.length := by omega
      exact ⟨order, hs, List.prefix_refl order, fun a ha => .root ha, hcov⟩

theorem Registered.packObject {fuel key : Nat} {o : Option A} {obj : A}
    {r : Unit × MMPacker A} (hs : Registered (accepted stru) roots s order)
    (ho : toMMObject stru o = some obj)
    (h : Packer.packObjectImpl host stru fuel key o s = .ok r) :
    ∃ order', Registered (accepted stru) (roots ++ [obj]) r.2 order' := by
  cases fuel with
  | zero => cases h
  | succ fuel =>
    rw [packObjectImpl_some ho, step_modify, step_get] at h
    have hn := hs.numbered
    have hs1 : Numbered 1 order { s with level := s.level + 1 } :=
      ⟨by rw [hn.level_eq], hn.nodup, hn.objToId_eq, hn.idToObj_eq⟩
    have hlen : s.objToId.length = order.length := by rw [hn.objToId_eq, List.length_zipIdx]
    obtain ⟨num, s2, h2, h⟩ := step_eq_ok.mp h
    obtain ⟨_, s3, h3, h⟩ := step_eq_ok.mp h
    obtain ⟨order1, hs3, hpre, hmem⟩ :=
      reference_registers key obj _ order _ hs1 ((step_ok h2).trans h3)
    have hlevel : ¬s.level + 1 > 1 := by
      rw [hn.level_eq]
      omega
    rw [if_neg hlevel] at h
    obtain ⟨_, s4, h4, h⟩ := step_eq_ok.mp h
    cases h
    obtain ⟨order', hs4, hpre', hreach, hcov⟩ :=
      packSections_registers hs3 (hlen ▸ hpre.length_le)
        (hlen ▸ hs.covered.grown le_rfl hpre) h4
    refine ⟨order', ⟨?_, hs4.nodup, hs4.objToId_eq, hs4.idToObj_eq⟩, fun a ha => ?_,
      fun a ha => reach_trans (fun b hb => ?_) (hreach a ha), hcov⟩
    · show s4.level - 1 = 0
      rw [hs4.level_eq]
    · refine hpre'.subset ((hmem a).mpr ?_)
      rw [List.mem_append] at ha
      exact ha.imp (hs.roots_mem a) id
    · obtain hb | hb := (hmem b).mp hb
      · exact (hs.reach b hb).mono (List.subset_append_left _ _)
      · exact .root (List.mem_append_right _ hb)

theorem Registered.packCall {fuel : Nat} {c : PackCall A} {r : Unit × MMPacker A}
    (hs : Registered (accepted stru) roots s order)
    (h : Packer.packCall host (Packer.packObjectImpl host stru fuel) c s = .ok r) :
    ∃ order', Registered (accepted stru) (roots ++ objectsOf [acceptedCall stru c]) r.2 order' := by
  cases c with
  | object key o =>
    rw [acceptedCall]
    cases ho : toMMObject stru o with
    | none =>
      have hnil : roots ++ objectsOf [PackCall.object key (none : Option A)] = roots :=
        List.append_nil roots
      rw [hnil]
      cases fuel with
      | zero => cases h
      | succ fuel =>
        rw [Packer.packCall, packObjectImpl_none ho] at h
        cases h
        exact ⟨order, hs⟩
    | some obj => exact hs.packObject ho h
  | crash f => cases h
  | _ =>
    have hs' : Registered (accepted stru) (roots ++ []) s order := (List.append_nil roots).symm ▸ hs
    exact hs'.nothing (emit_registers _) h

theorem Registered.packTop {fuel : Nat} {calls : List (PackCall A)} {r : Unit × MMPacker A}
    (hs : Registered (accepted stru) roots s order)
    (h : Packer.packTop host stru fuel calls s = .ok r) :
    ∃ order', Registered (accepted stru) (roots ++ objectsOf (calls.map (acceptedCall stru))) r.2
      order' := by
  induction calls generalizing s roots order with
  | nil =>
    cases h
    exact ⟨order, (List.append_nil roots).symm ▸ hs⟩
  | cons c calls ih =>
    obtain ⟨_, s1, h1, h2⟩ := step_eq_ok.mp h
    obtain ⟨order1, hs1⟩ := hs.packCall h1
    rw [List.map_cons, objectsOf_cons, ← List.append_assoc]
    exact ih hs1 h2

end Registration

end LcClibs.Pack.Registry
