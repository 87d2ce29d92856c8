import Mathlib
import LcClibs.Lib.Simulation
import LcClibs.Pack.Packer

namespace LcClibs.Pack.Renaming

open Platform Lib Lib.Simulation Buffer.Cursor Buffer.Append Buffer.VarInt
open Pack.Records Pack.Packer

section Renaming

variable {A B : Type} {R : A → B → Prop}

inductive SameCall (R : A → B → Prop) : PackCall A → PackCall B → Prop
  | varInt64 (key : Nat) (value : Int) : SameCall R (.varInt64 key value) (.varInt64 key value)
  | float (key value : Nat) : SameCall R (.float key value) (.float key value)
  | double (key value : Nat) : SameCall R (.double key value) (.double key value)
  | data (key : Nat) (value : List UInt8) : SameCall R (.data key value) (.data key value)
  | array (key len : Nat) : SameCall R (.array key len) (.array key len)
  | arrayEnd (key : Nat) : SameCall R (.arrayEnd key) (.arrayEnd key)
  | object (key : Nat) {o : Option A} {o' : Option B} (h : Option.Rel R o o') :
    SameCall R (.object key o) (.object key o')
  | crash (f : Fault) : SameCall R (.crash f) (.crash f)

structure SameLevel (R : A → B → Prop) (l : Level A) (k : Level B) : Prop where
  name : l.name = k.name
  pack : Option.Rel (List.Forall₂ (SameCall R)) l.pack k.pack

structure SameStru (R : A → B → Prop) (s : Stru A) (t : Stru B) : Prop where
  supers : List.Forall₂ (SameLevel R) s.supers t.supers
  last : SameLevel R s.last t.last

theorem SameStru.levels {s : Stru A} {t : Stru B} (h : SameStru R s t) :
    List.Forall₂ (SameLevel R) s.levels t.levels :=
  List.rel_append h.supers (.cons h.last .nil)

theorem SameStru.isMMObject {s : Stru A} {t : Stru B} (h : SameStru R s t) :
    s.isMMObject = t.isMMObject := by
  have hlevels := h.levels
  rw [Stru.isMMObject, Stru.isMMObject]
  generalize s.levels = ls, t.levels = ks at hlevels
  induction hlevels with
  | nil => rfl
  | cons hl _ ih => rw [List.any_cons, List.any_cons, hl.name, ih]

/-- The packer takes an object on both sides, or on neither. -/
theorem toMMObject_same {stru : A → Stru A} {stru' : B → Stru B}
    (hstru : ∀ a b, R a b → SameStru R (stru a) (stru' b)) {o : Option A} {o' : Option B}
    (h : Option.Rel R o o') : Option.Rel R (toMMObject stru o) (toMMObject stru' o') := by
  cases h with
  | none => exact .none
  | @some a b hab =>
    rw [toMMObject, toMMObject, Option.filter_some, Option.filter_some,
      (hstru a b hab).isMMObject]
    split_ifs
    · exact .some hab
    · exact .none

/-- Two packers with the same bytes, whose tables have corresponding objects in them. -/
structure SamePacker (R : A → B → Prop) (s : MMPacker A) (t : MMPacker B) : Prop where
  level : s.level = t.level
  objToId : List.Forall₂ (fun p q => R p.1 q.1 ∧ p.2 = q.2) s.objToId t.objToId
  idToObj : List.Forall₂ (fun p q => p.1 = q.1 ∧ R p.2 q.2) s.idToObj t.idToObj
  classNameToId : s.classNameToId = t.classNameToId
  dyb : s.dyb = t.dyb

def OneToOne (R : A → B → Prop) : Prop := ∀ a b a' b', R a b → R a' b' → (a = a' ↔ b = b')

end Renaming

section Simulation

variable {A B : Type} {R : A → B → Prop} (host : Host)

theorem emit_simulates (r : Record) :
    Simulates (SamePacker R) Eq (emit host r : PackM A Unit) (emit host r : PackM B Unit) := by
  intro s t h
  rw [emit, onDyb, emit, onDyb, h.dyb]
  cases r.append host t.dyb with
  | error f => exact .inl ⟨_, rfl, rfl⟩
  | ok p =>
    exact .inr ⟨_, _, _, _, rfl, rfl, rfl, h.level, h.objToId, h.idToObj, h.classNameToId, rfl⟩

theorem dbSaveObjectName_simulates (name : List UInt8) :
    Simulates (SamePacker R) Eq (dbSaveObjectName host name : PackM A Nat)
      (dbSaveObjectName host name : PackM B Nat) := by
  refine .get_bind fun s t h => ?_
  rw [h.classNameToId]
  cases Table.find Prod.fst name t.classNameToId with
  | some p => exact .pure rfl
  | none =>
    exact (Simulates.set ⟨h.level, h.objToId, h.idToObj, rfl, h.dyb⟩).bind fun _ _ _ =>
      (emit_simulates host _).bind fun _ _ _ => .pure rfl

theorem packNextContextImpl_simulates (name : List UInt8) :
    Simulates (SamePacker R) Eq (packNextContextImpl host name : PackM A Unit)
      (packNextContextImpl host name : PackM B Unit) :=
  (dbSaveObjectName_simulates host name).bind fun _ _ hi => hi ▸ emit_simulates host _

section Calls

variable {packObject : Nat → Option A → PackM A Unit} {packObject' : Nat → Option B → PackM B Unit}

theorem packCall_simulates
    (hobject : ∀ key o o', Option.Rel R o o' →
      Simulates (SamePacker R) Eq (packObject key o) (packObject' key o'))
    {c : PackCall A} {d : PackCall B} (h : SameCall R c d) :
    Simulates (SamePacker R) Eq (packCall host packObject c) (packCall host packObject' d) := by
  cases h with
  | object key h => exact hobject key _ _ h
  | crash f => exact .throw _
  | _ => exact emit_simulates host _

theorem packCalls_simulates
    (hobject : ∀ key o o', Option.Rel R o o' →
      Simulates (SamePacker R) Eq (packObject key o) (packObject' key o'))
    {calls : List (PackCall A)} {calls' : List (PackCall B)}
    (h : List.Forall₂ (SameCall R) calls calls') :
    Simulates (SamePacker R) Eq (packCalls host packObject calls)
      (packCalls host packObject' calls') := by
  induction h with
  | nil => exact .pure rfl
  | cons hc _ ih => exact (packCall_simulates host hobject hc).bind fun _ _ _ => ih

theorem packLevels_simulates
    (hobject : ∀ key o o', Option.Rel R o o' →
      Simulates (SamePacker R) Eq (packObject key o) (packObject' key o'))
    {levels : List (Level A)} {levels' : List (Level B)}
    (h : List.Forall₂ (SameLevel R) levels levels') :
    Simulates (SamePacker R) Eq (packLevels host packObject levels)
      (packLevels host packObject' levels') := by
  induction h with
  | nil => exact .pure rfl
  | @cons l k _ _ hl _ ih =>
    obtain ⟨name, pack⟩ := l
    obtain ⟨name', pack'⟩ := k
    obtain ⟨rfl, hpack⟩ := hl
    cases hpack with
    | none => exact ih
    | some hcalls =>
      exact (packNextContextImpl_simulates host name).bind fun _ _ _ =>
        (packCalls_simulates host hobject hcalls).bind fun _ _ _ => ih

variable {stru : A → Stru A} {stru' : B → Stru B}

theorem packSections_simulates
    (hobject : ∀ key o o', Option.Rel R o o' →
      Simulates (SamePacker R) Eq (packObject key o) (packObject' key o'))
    (hstru : ∀ a b, R a b → SameStru R (stru a) (stru' b)) (fuel processing : Nat) :
    Simulates (SamePacker R) Eq (packSections host stru packObject fuel processing)
      (packSections host stru' packObject' fuel processing) := by
  induction fuel generalizing processing with
  | zero => exact .throw _
  | succ fuel ih =>
    rw [packSections, packSections]
    refine .get_bind fun s t h => ?_
    rw [h.idToObj.length_eq]
    by_cases hmore : t.idToObj.length > processing
    · rw [if_pos hmore, if_pos hmore]
      have hfind := find?_related h.idToObj (p := fun p => p.1 = processing)
        (q := fun q => q.1 = processing) fun p q hpq => decide_eq_decide.mpr (by rw [hpq.1])
      rw [show Table.find Prod.fst processing s.idToObj = s.idToObj.find? _ from rfl,
        show Table.find Prod.fst processing t.idToObj = t.idToObj.find? _ from rfl]
      revert hfind
      generalize s.idToObj.find? _ = o, t.idToObj.find? _ = o'
      intro hfind
      cases hfind with
      | none => exact .pure rfl
      | @some p q hpq =>
        have hsame := hstru p.2 q.2 hpq.2
        simp only [hsame.last.name]
        refine (dbSaveObjectName_simulates host _).bind fun i _ hi => ?_
        subst hi
        exact (emit_simulates host _).bind fun _ _ _ =>
          (packLevels_simulates host hobject hsame.levels).bind fun _ _ _ =>
            (emit_simulates host _).bind fun _ _ _ => ih _
    · rw [if_neg hmore, if_neg hmore]
      exact .pure rfl

variable [DecidableEq A] [DecidableEq B]

theorem saveObject_simulates (hone : OneToOne R) {a : A} {b : B} (hab : R a b) :
    Simulates (SamePacker R) Eq (saveObject a) (saveObject b) := by
  refine .get_bind fun s t h => ?_
  have hfind := find?_related h.objToId (p := fun p => p.1 = a) (q := fun q => q.1 = b)
    fun p q hpq => decide_eq_decide.mpr (hone _ _ _ _ hpq.1 hab)
  rw [show Table.find Prod.fst a s.objToId = s.objToId.find? _ from rfl,
    show Table.find Prod.fst b t.objToId = t.objToId.find? _ from rfl]
  have hlen := h.objToId.length_eq
  revert hfind
  generalize s.objToId.find? _ = o, t.objToId.find? _ = o'
  intro hfind
  cases hfind with
  | some hpq => exact .pure hpq.2
  | none =>
    refine (Simulates.set ⟨h.level, ?_, ?_, h.classNameToId, h.dyb⟩).bind fun _ _ _ =>
      .pure hlen
    · exact List.rel_append h.objToId (.cons ⟨hab, hlen⟩ .nil)
    · exact List.rel_append h.idToObj (.cons ⟨hlen, hab⟩ .nil)

theorem packObjectImpl_simulates (hone : OneToOne R)
    (hstru : ∀ a b, R a b → SameStru R (stru a) (stru' b)) (fuel : Nat) :
    ∀ key o o', Option.Rel R o o' → Simulates (SamePacker R) Eq
      (packObjectImpl host stru fuel key o) (packObjectImpl host stru' fuel key o') := by
  have hlevel : ∀ (f : Nat → Nat) (s : MMPacker A) (t : MMPacker B), SamePacker R s t →
      SamePacker R { s with level := f s.level } { t with level := f t.level } :=
    fun f s t h => ⟨congrArg f h.level, h.objToId, h.idToObj, h.classNameToId, h.dyb⟩
  induction fuel with
  | zero => exact fun _ _ _ _ => .throw _
  | succ fuel ih =>
    intro key o o' h
    rw [packObjectImpl, packObjectImpl]
    have htaken := toMMObject_same hstru h
    revert htaken
    generalize toMMObject stru o = p, toMMObject stru' o' = p'
    intro htaken
    cases htaken with
    | none => exact .pure rfl
    | some hab =>
      refine (Simulates.modify (hlevel (· + 1))).bind fun _ _ _ => ?_
      refine .get_bind fun s t hst => ?_
      refine (saveObject_simulates hone hab).bind fun num _ hnum => ?_
      subst hnum
      refine (emit_simulates host _).bind fun _ _ _ => ?_
      have hback : Simulates (SamePacker R) Eq
          (modify fun s => { s with level := s.level - 1 } : PackM A PUnit)
          (modify fun s => { s with level := s.level - 1 } : PackM B PUnit) :=
        .modify (hlevel (· - 1))
      rw [hst.level, hst.objToId.length_eq]
      by_cases hnested : t.level > 1
      · rw [if_pos hnested, if_pos hnested]
        exact hback
      · rw [if_neg hnested, if_neg hnested]
        exact (packSections_simulates host ih hstru fuel _).bind fun _ _ _ => hback

theorem packTop_simulates (hone : OneToOne R)
    (hstru : ∀ a b, R a b → SameStru R (stru a) (stru' b)) (fuel : Nat)
    {calls : List (PackCall A)} {calls' : List (PackCall B)}
    (hcalls : List.Forall₂ (SameCall R) calls calls') :
    Simulates (SamePacker R) Eq (packTop host stru fuel calls) (packTop host stru' fuel calls') :=
  packCalls_simulates host (packObjectImpl_simulates host hone hstru fuel) hcalls

end Calls

end Simulation

section Graphs

variable {A B : Type} {R : A → B → Prop} {host : Host}

theorem initMMPacker_same {s : MMPacker A} {t : MMPacker B} (hs : initMMPacker host = .ok s)
    (ht : initMMPacker host = .ok t) : SamePacker R s t := by
  have hempty : SamePacker R ⟨0, [], [], [], dybCreate 64⟩ ⟨0, [], [], [], dybCreate 64⟩ :=
    ⟨rfl, .nil, .nil, rfl, rfl⟩
  rw [initMMPacker] at hs ht
  obtain ⟨e, hfail, -⟩ | ⟨_, s₁, _, t₁, h₁, h₂, -, hpackers⟩ :=
    emit_simulates host (.version packerVersionV1) _ _ hempty
  · rw [hfail] at hs
    cases hs
  · rw [h₁] at hs
    rw [h₂] at ht
    cases hs
    cases ht
    exact hpackers

def chainStru {A : Type} (next : A → A) (a : A) : Stru A :=
  ⟨[⟨cstr "MMObject", none⟩],
    ⟨cstr "MMList", some [.array 0 1, .object 0 (some (next a)), .arrayEnd 0]⟩⟩

theorem chainStru_same {next : A → A} {next' : B → B} (hnext : ∀ a b, R a b → R (next a) (next' b))
    (a : A) (b : B) (hab : R a b) : SameStru R (chainStru next a) (chainStru next' b) where
  supers := .cons ⟨rfl, .none⟩ .nil
  last := ⟨rfl, .some (.cons (.array 0 1) (.cons (.object 0 (.some (hnext a b hab)))
    (.cons (.arrayEnd 0) .nil)))⟩

variable [DecidableEq A] [DecidableEq B] {stru : A → Stru A} {stru' : B → Stru B}

/-- What is packed does not depend on where the objects are: for two graphs that correspond one
to one, new packers stop with the same error, or write the same bytes. -/
theorem packing_renames (hone : OneToOne R)
    (hstru : ∀ a b, R a b → SameStru R (stru a) (stru' b)) {calls : List (PackCall A)}
    {calls' : List (PackCall B)} (hcalls : List.Forall₂ (SameCall R) calls calls') (fuel : Nat)
    {s0 : MMPacker A} {t0 : MMPacker B} (hs : initMMPacker host = .ok s0)
    (ht : initMMPacker host = .ok t0) :
    (∃ e, packTop host stru fuel calls s0 = .error e ∧
      packTop host stru' fuel calls' t0 = .error e) ∨
    ∃ s t, packTop host stru fuel calls s0 = .ok ((), s) ∧
      packTop host stru' fuel calls' t0 = .ok ((), t) ∧ SamePacker R s t := by
  obtain hfail | ⟨_, s, _, t, hrun, hrun', -, hsame⟩ :=
    packTop_simulates host hone hstru fuel hcalls s0 t0 (initMMPacker_same hs ht)
  · exact .inl hfail
  · exact .inr ⟨s, t, hrun, hrun', hsame⟩

def newPacker (A : Type) : MMPacker A where
  level := 0
  objToId := []
  idToObj := []
  classNameToId := []
  dyb := { dybCreate 64 with data := 0x79 :: 1 :: List.replicate 62 0, position := 2, limit := 2 }

/-- A ring of two lists, at the places true and false or at the places 1 and 0. -/
theorem packing_renames_ring :
    ∃ s t, packTop .little (chainStru not) 4 [.object 4 (some true)] (newPacker Bool) =
        .ok ((), s) ∧
      packTop .little (chainStru (1 - ·)) 4 [.object 4 (some 1)] (newPacker Nat) = .ok ((), t) ∧
      SamePacker (fun a b => b = Bool.toNat a) s t := by
  have hring : ∀ a b, b = Bool.toNat a → 1 - b = Bool.toNat (!a) := by
    rintro a b rfl
    cases a <;> rfl
  have hone : OneToOne fun a b => b = Bool.toNat a := by
    rintro a b a' b' rfl rfl
    cases a <;> cases a' <;> decide
  have hs : initMMPacker .little = .ok (newPacker Bool) := rfl
  have ht : initMMPacker .little = .ok (newPacker Nat) := rfl
  obtain ⟨e, hfail, -⟩ | h := packing_renames hone (chainStru_same hring)
    (.cons (.object 4 (.some rfl)) .nil) 4 hs ht
  · have hok : (packTop .little (chainStru not) 4 [.object 4 (some true)]
        (newPacker Bool)).toBool = true := by decide +kernel
    rw [hfail] at hok
    cases hok
  · exact h

end Graphs

end LcClibs.Pack.Renaming
