import Mathlib
import LcClibs.Pack.Nesting

namespace LcClibs.Pack.Grammar

open Platform Lib Buffer.VarInt Pack.Records Pack.Process Pack.Nesting

section Documented

/-- What is open in a stream: an array with its index and the number of items that are still
to come, an object with its number, a context. -/
inductive Frame
  | array (index left : Nat)
  | object (num : Nat)
  | context
  deriving DecidableEq, Repr

/-- What is open, the innermost first, and the class numbers declared so far. -/
structure Scope where
  frames : List Frame
  names : List Nat
  deriving DecidableEq, Repr

/-- One more item where an array has announced it, or outside of arrays. -/
def putItem : List Frame → Option (List Frame)
  | .array _ 0 :: _ => none
  | .array index (left + 1) :: frames => some (.array index left :: frames)
  | frames => some frames

def openArray (index left : Nat) (frames : List Frame) : Option (List Frame) :=
  (putItem frames).map (.array index left :: ·)

def closeArray (index : Nat) : List Frame → Option (List Frame)
  | .array i 0 :: frames => if i = index then some frames else none
  | _ => none

def inObject : List Frame → Bool
  | [] => false
  | .object _ :: _ => true
  | _ :: frames => inObject frames

def closeObject (num : Nat) : List Frame → Option (List Frame)
  | .context :: .object k :: frames => if k = num then some frames else none
  | .object k :: frames => if k = num then some frames else none
  | _ => none

def enterContext : List Frame → Option (List Frame)
  | .context :: .object k :: frames => some (.context :: .object k :: frames)
  | .object k :: frames => some (.context :: .object k :: frames)
  | _ => none

variable (s : Scope) (bs : List UInt8)

def valueRecord {α : Type} (value : Option (α × List UInt8)) : Option (Scope × List UInt8) := do
  let (_, bs) ← value
  let frames ← putItem s.frames
  return ({ s with frames := frames }, bs)

def rawRecord : Option (Scope × List UInt8) := do
  let (size, bs) ← readVar bs
  let frames ← putItem s.frames
  if size ≤ bs.length then return ({ s with frames := frames }, bs.drop size) else none

/-- The size and one begins an array, zero ends it. -/
def arrayFrames (index size : Nat) (frames : List Frame) : Option (List Frame) :=
  if size > 0 then openArray index (size - 1) frames else closeArray index frames

def arrayRecord (index : Nat) : Option (Scope × List UInt8) := do
  let (size, bs) ← readVar bs
  let frames ← arrayFrames index size s.frames
  return ({ s with frames := frames }, bs)

/-- An object record ends the object that is open; else it begins one. -/
def objectRecord (num : Nat) : Option (Scope × List UInt8) := do
  if inObject s.frames then
    let frames ← closeObject num s.frames
    return ({ s with frames := frames }, bs)
  else
    let (classnameNum, bs) ← readVar bs
    if classnameNum ∈ s.names then return ({ s with frames := .object num :: s.frames }, bs)
    else none

def contextRecord (classnameNum : Nat) : Option (Scope × List UInt8) := do
  let frames ← enterContext s.frames
  if classnameNum ∈ s.names then return ({ s with frames := frames }, bs) else none

/-- A class name is a string with its NUL, as the packer writes it: the unpacker keeps a pointer
to it, and without a NUL it would be read on into the next records. -/
def classNameRecord : Option (Scope × List UInt8) := do
  let (classnameNum, bs) ← readVar bs
  let (size, bs) ← readVar bs
  if classnameNum ∉ s.names ∧ size ≤ bs.length ∧ 0 ∈ bs.take size then
    return ({ s with names := s.names ++ [classnameNum] }, bs.drop size)
  else none

def versionRecord : Option (Scope × List UInt8) := do
  let (_, bs) ← readVar bs
  return (s, bs)

def recordAfter (type index : Nat) : Option (Scope × List UInt8) :=
  if type = pkrdexInteger then valueRecord s (readVar bs)
  else if type = pkrdexFloat then valueRecord s (readUint 4 bs)
  else if type = pkrdexDouble then valueRecord s (readUint 8 bs)
  else if type = pkrdexRaw then rawRecord s bs
  else if type = pkrdexArray then arrayRecord s bs index
  else if type = pkrdexObjectRef then valueRecord s (readVar bs)
  else if type = pkrdexObject then objectRecord s bs index
  else if type = pkrdexContext then contextRecord s bs index
  else if type = pkrdexDb then if index = pkrdbClassNames then classNameRecord s bs else none
  else if type = pkrdexFunction then if index = pkrfnVersion then versionRecord s bs else none
  else none

def record : Option (Scope × List UInt8) := do
  let ((type, index), bs) ← readHeader bs
  recordAfter s bs type index

/-- A stream of complete records in which whatever is opened is closed, with the class numbers
that it declares. -/
inductive Documented : Scope → List UInt8 → List Nat → Prop
  | done (names : List Nat) : Documented ⟨[], names⟩ [] names
  | record {s s' : Scope} {bs bs' : List UInt8} {names : List Nat} :
    record s bs = some (s', bs') → Documented s' bs' names → Documented s bs names

end Documented

section Loose

variable (data : List UInt8) (bare : Bool) (σ : Shape)

/-- The array end that comes where nothing else is open takes the roots off the stack. -/
def looseArray (bs : List UInt8) : Option (Bool × Shape × List UInt8) := do
  let (size, bs) ← readVar bs
  if size > 0 then return (bare, σ.opened, bs)
  else
    match σ.closed with
    | some σ' => return (bare, σ', bs)
    | none => if bare then none else return (true, σ, bs)

/-- A name that ends beyond the range of `uint` is read on from where its end offset wraps
around to. -/
def wrappedName (num : Int) (bs : List UInt8) : Option (Bool × Shape × List UInt8) := do
  let (len, bs) ← readVar bs
  return (bare, { σ with names := σ.names ++ [(num, decide (0 ∈ bs))] },
    data.drop (data.length - bs.length + uint len - 2 ^ 32))

def looseName (num : Int) (bs : List UInt8) : Option (Bool × Shape × List UInt8) :=
  match scanName data.length σ num bs with
  | .next σ' bs' => some (bare, σ', bs')
  | .accept => none
  | .reject => wrappedName data bare σ num bs

def looseDb (index : Nat) (bs : List UInt8) : Option (Bool × Shape × List UInt8) := do
  let (num, bs) ← readVar bs
  if index = pkrdbClassNames ∧ Table.find Prod.fst (int32 num) σ.names = none then
    looseName data bare σ (int32 num) bs
  else none

def looseScan (v : Verdict) : Option (Bool × Shape × List UInt8) :=
  match v with
  | .next σ bs => some (bare, σ, bs)
  | _ => none

/-- One record as it is read when nothing is asked of it but that it can be carried out: the
stack is bare once the roots have been taken off it. -/
def looseRecord (bs : List UInt8) : Option (Bool × Shape × List UInt8) := do
  let ((type, index), bs) ← readHeader bs
  if bare ∧ σ.closed = none ∧ UsesLast type then none
  else if type = pkrdexArray then looseArray bare σ bs
  else if type = pkrdexDb then looseDb data bare σ index bs
  else looseScan bare (scanRecord data.length σ type index bs)

/-- A stream of which every record can be carried out, and what is open after the last. -/
inductive Loose : Bool → Shape → List UInt8 → Bool → Shape → Prop
  | done (bare : Bool) (σ : Shape) : Loose bare σ [] bare σ
  | record {bare bare' bareEnd : Bool} {σ σ' σEnd : Shape} {bs bs' : List UInt8} :
    looseRecord data bare σ bs = some (bare', σ', bs') → Loose bare' σ' bs' bareEnd σEnd →
    Loose bare σ bs bareEnd σEnd

variable {data bare σ}

theorem looseArray_eq {bs bs' : List UInt8} {size : Nat} (h : readVar bs = some (size, bs')) :
    looseArray bare σ bs =
      if size > 0 then some (bare, σ.opened, bs')
      else
        match σ.closed with
        | some σ' => some (bare, σ', bs')
        | none => if bare then none else some (true, σ, bs') := by
  rw [looseArray, h]
  rfl

theorem looseDb_eq {bs bs' : List UInt8} {num : Nat} (h : readVar bs = some (num, bs'))
    (index : Nat) :
    looseDb data bare σ index bs =
      if index = pkrdbClassNames ∧ Table.find Prod.fst (int32 num) σ.names = none then
        looseName data bare σ (int32 num) bs'
      else none := by
  rw [looseDb, h]
  rfl

theorem looseRecord_eq {bs bs' : List UInt8} {type index : Nat}
    (h : readHeader bs = some ((type, index), bs')) :
    looseRecord data bare σ bs =
      if bare ∧ σ.closed = none ∧ UsesLast type then none
      else if type = pkrdexArray then looseArray bare σ bs'
      else if type = pkrdexDb then looseDb data bare σ index bs'
      else looseScan bare (scanRecord data.length σ type index bs') := by
  rw [looseRecord, h]
  rfl

end Loose

section Lockstep

variable {data : List UInt8} {s s' : Scope} {bs bs' : List UInt8}

def shapeOf (names : List (Int × Bool)) : List Frame → Shape
  | [] => ⟨0, none, names⟩
  | .object num :: frames => { shapeOf names frames with object := some (num, some 0) }
  | _ :: frames => (shapeOf names frames).opened

def Nests : List Frame → Prop
  | [] => True
  | .object _ :: frames => inObject frames = false ∧ Nests frames
  | _ :: frames => Nests frames

def keyOf (num : Nat) : Int × Bool := (int32 num, true)

theorem keyOf_fst (num : Nat) : (keyOf num).1 = int32 num := by
  simp only [keyOf]

/-- Both readings in step: every class number is kept as an `int`. -/
structure Mirrors (s : Scope) (σ : Shape) : Prop where
  shape : σ = shapeOf (s.names.map keyOf) s.frames
  nests : Nests s.frames
  nodup : (s.names.map fun num : Nat => int32 num).Nodup

theorem opened_isSome (σ : Shape) : σ.opened.object.isSome = σ.object.isSome := by
  unfold Shape.opened
  split
  · rename_i ho
    rw [ho]
    rfl
  · rfl

theorem inObject_eq (names : List (Int × Bool)) (frames : List Frame) :
    inObject frames = (shapeOf names frames).object.isSome := by
  induction frames with
  | nil => rfl
  | cons frame frames ih =>
    cases frame with
    | object num => rfl
    | array index left | context => exact ih.trans (opened_isSome _).symm

theorem shapeOf_object (names : List (Int × Bool)) (frames : List Frame) (num : Nat) :
    (shapeOf names frames).object ≠ some (num, none) := by
  induction frames with
  | nil => exact fun h => by cases h
  | cons frame frames ih =>
    cases frame with
    | object k => exact fun h => by cases h
    | array index left | context =>
      rw [shapeOf, Shape.opened]
      · split
        · exact fun h => by cases h
        · exact ih
      · exact fun _ h => by cases h

theorem closed_opened {σ : Shape} (h : ∀ num, σ.object ≠ some (num, none)) :
    σ.opened.closed = some σ := by
  obtain ⟨outer, object, names⟩ := σ
  cases object with
  | none => rfl
  | some o =>
    obtain ⟨num, inside⟩ := o
    cases inside with
    | none => exact absurd rfl (h num)
    | some k => rfl

theorem shapeOf_names (names : List (Int × Bool)) (frames : List Frame) :
    (shapeOf names frames).names = names := by
  induction frames with
  | nil => rfl
  | cons frame frames ih =>
    cases frame with
    | object num => exact ih
    | array index left | context => exact (Shape.names_opened _).trans ih

theorem opened_setNames (σ : Shape) (names : List (Int × Bool)) :
    { σ.opened with names := names } = Shape.opened { σ with names := names } := by
  obtain ⟨outer, object, old⟩ := σ
  cases object with
  | none => rfl
  | some o =>
    obtain ⟨num, inside⟩ := o
    cases inside <;> rfl

theorem shapeOf_setNames (names names' : List (Int × Bool)) (frames : List Frame) :
    { shapeOf names frames with names := names' } = shapeOf names' frames := by
  induction frames with
  | nil => rfl
  | cons frame frames ih =>
    cases frame with
    | object num =>
      rw [shapeOf, shapeOf, ← ih]
    | array index left | context =>
      exact (opened_setNames _ _).trans (congrArg Shape.opened ih)

theorem putItem_shape {frames frames' : List Frame} (h : putItem frames = some frames')
    (names : List (Int × Bool)) :
    shapeOf names frames' = shapeOf names frames ∧ (Nests frames → Nests frames') := by
  cases frames with
  | nil =>
    cases h
    exact ⟨rfl, id⟩
  | cons frame frames =>
    cases frame with
    | array index left =>
      cases left with
      | zero => cases h
      | succ left =>
        cases h
        exact ⟨rfl, id⟩
    | object num | context =>
      cases h
      exact ⟨rfl, id⟩

theorem Mirrors.putItem {σ : Shape} {frames : List Frame} (h : Mirrors s σ)
    (hp : putItem s.frames = some frames) : Mirrors { s with frames := frames } σ := by
  obtain ⟨hs, hn⟩ := putItem_shape hp (s.names.map keyOf)
  exact ⟨h.shape.trans hs.symm, hn h.nests, h.nodup⟩

theorem Mirrors.opened {σ : Shape} {index left : Nat} (h : Mirrors s σ) :
    Mirrors { s with frames := .array index left :: s.frames } σ.opened :=
  ⟨congrArg Shape.opened h.shape, h.nests, h.nodup⟩

theorem closeArray_eq_some {index : Nat} {frames frames' : List Frame}
    (h : closeArray index frames = some frames') : frames = .array index 0 :: frames' := by
  cases frames with
  | nil => cases h
  | cons frame frames =>
    cases frame with
    | array i left =>
      cases left with
      | zero =>
        have hc : (if i = index then some frames else none) = some frames' := h
        by_cases hi : i = index
        · rw [if_pos hi] at hc
          cases hc
          rw [hi]
        · rw [if_neg hi] at hc
          cases hc
      | succ left => cases h
    | _ => cases h

theorem Mirrors.closed {σ : Shape} {index : Nat} {frames : List Frame} (h : Mirrors s σ)
    (hc : closeArray index s.frames = some frames) :
    ∃ σ', σ.closed = some σ' ∧ Mirrors { s with frames := frames } σ' := by
  obtain ⟨hshape, hnests, hnodup⟩ := h
  rw [closeArray_eq_some hc] at hshape hnests
  rw [hshape]
  exact ⟨_, closed_opened (shapeOf_object _ _), rfl, hnests, hnodup⟩

theorem Mirrors.find {σ : Shape} {num : Nat} (h : Mirrors s σ) (hm : num ∈ s.names) :
    ∃ f, Table.find Prod.fst (int32 num) σ.names = some f ∧ f.2 = true := by
  rw [h.shape, shapeOf_names]
  cases hf : Table.find Prod.fst (int32 num) (s.names.map keyOf) with
  | none =>
    have hne := Table.find_eq_none.mp hf (int32 num, true) (List.mem_map_of_mem hm)
    exact absurd (keyOf_fst num) hne
  | some f =>
    obtain ⟨k, -, rfl⟩ := List.mem_map.mp (Table.find_some hf).1
    exact ⟨_, rfl, rfl⟩

def InStep (s' : Scope) (bs' : List UInt8) (v : Verdict) : Prop :=
  ∃ σ', v = .next σ' bs' ∧ Mirrors s' σ'

theorem readVar_le {v : Nat} (h : readVar bs = some (v, bs')) : bs'.length ≤ bs.length := by
  unfold readVar at h
  split at h
  · cases h
  · split at h
    · cases h
      exact List.length_drop ▸ Nat.sub_le _ _
    · cases h

theorem valueRecord_inStep {α : Type} {σ : Shape} {value : Option (α × List UInt8)}
    (h : Mirrors s σ) (hr : valueRecord s value = some (s', bs')) :
    InStep s' bs' (after value fun _ bs => .next σ bs) := by
  obtain ⟨⟨a, bs1⟩, hv, hr⟩ := Option.bind_eq_some_iff.mp hr
  obtain ⟨frames, hp, hr⟩ := Option.bind_eq_some_iff.mp hr
  cases hr
  rw [hv]
  exact ⟨σ, rfl, h.putItem hp⟩

theorem rawRecord_inStep {σ : Shape} (hlt : bs.length < 2 ^ 32) (h : Mirrors s σ)
    (hr : rawRecord s bs = some (s', bs')) : InStep s' bs' (scanRaw σ bs) := by
  obtain ⟨⟨size, bs1⟩, hv, hr⟩ := Option.bind_eq_some_iff.mp hr
  obtain ⟨frames, hp, hr⟩ := Option.bind_eq_some_iff.mp hr
  split at hr
  · rename_i hsize
    cases hr
    have hu : uint size = size := uint_of_lt (hsize.trans_lt ((readVar_le hv).trans_lt hlt))
    rw [scanRaw, hv, after, hu, if_pos hsize]
    exact ⟨σ, rfl, h.putItem hp⟩
  · cases hr

theorem arrayRecord_inStep {σ : Shape} {index : Nat} (h : Mirrors s σ)
    (hr : arrayRecord s bs index = some (s', bs')) :
    InStep s' bs' (scanArray σ bs) := by
  obtain ⟨⟨size, bs1⟩, hv, hr⟩ := Option.bind_eq_some_iff.mp hr
  obtain ⟨frames, hf, hr⟩ := Option.bind_eq_some_iff.mp hr
  cases hr
  rw [scanArray, hv, after]
  unfold arrayFrames at hf
  split at hf
  · rename_i hsize
    obtain ⟨frames1, hp, rfl⟩ := Option.map_eq_some_iff.mp hf
    rw [if_pos hsize]
    exact ⟨σ.opened, rfl, (h.putItem hp).opened⟩
  · rename_i hsize
    obtain ⟨σ', hc, h'⟩ := h.closed hf
    rw [if_neg hsize, hc]
    exact ⟨σ', rfl, h'⟩

theorem Mirrors.isSome {σ : Shape} (h : Mirrors s σ) : σ.object.isSome = inObject s.frames := by
  rw [h.shape, ← inObject_eq]

theorem Mirrors.openObject {σ : Shape} {num : Nat} (h : Mirrors s σ)
    (ho : inObject s.frames = false) :
    Mirrors { s with frames := .object num :: s.frames } { σ with object := some (num, some 0) } :=
  ⟨by rw [h.shape]; rfl, ⟨ho, h.nests⟩, h.nodup⟩

theorem closeObject_eq_some {num : Nat} {frames frames' : List Frame}
    (h : closeObject num frames = some frames') :
    frames = .context :: .object num :: frames' ∨ frames = .object num :: frames' := by
  cases frames with
  | nil => cases h
  | cons frame frames =>
    cases frame with
    | array index left => cases h
    | object k =>
      have hc : (if k = num then some frames else none) = some frames' := h
      by_cases hk : k = num
      · rw [if_pos hk] at hc
        cases hc
        rw [hk]
        exact .inr rfl
      · rw [if_neg hk] at hc
        cases hc
    | context =>
      cases frames with
      | nil => cases h
      | cons frame frames =>
        cases frame with
        | object k =>
          have hc : (if k = num then some frames else none) = some frames' := h
          by_cases hk : k = num
          · rw [if_pos hk] at hc
            cases hc
            rw [hk]
            exact .inl rfl
          · rw [if_neg hk] at hc
            cases hc
        | _ => cases h

theorem enterContext_eq_some {frames frames' : List Frame}
    (h : enterContext frames = some frames') :
    ∃ num rest, frames' = .context :: .object num :: rest ∧
      (frames = frames' ∨ frames = .object num :: rest) := by
  cases frames with
  | nil => cases h
  | cons frame frames =>
    cases frame with
    | array index left => cases h
    | object k =>
      cases h
      exact ⟨k, frames, rfl, .inr rfl⟩
    | context =>
      cases frames with
      | nil => cases h
      | cons frame frames =>
        cases frame with
        | object k =>
          cases h
          exact ⟨k, frames, rfl, .inl rfl⟩
        | _ => cases h

theorem shapeOf_closeObject {names : List (Int × Bool)} {frames : List Frame}
    (h : inObject frames = false) :
    { shapeOf names frames with object := none } = shapeOf names frames := by
  rw [inObject_eq names, Option.isSome_eq_false_iff, Option.isNone_iff_eq_none] at h
  rw [← h]

theorem Mirrors.closeObject {σ : Shape} {num : Nat} {frames : List Frame} (h : Mirrors s σ)
    (hc : closeObject num s.frames = some frames) :
    (∃ k, σ.object = some (num, some k)) ∧
      Mirrors { s with frames := frames } { σ with object := none } := by
  obtain ⟨hshape, hnests, hnodup⟩ := h
  obtain hf | hf := closeObject_eq_some hc
  · rw [hf] at hshape hnests
    rw [hshape]
    exact ⟨⟨1, rfl⟩, shapeOf_closeObject hnests.1, hnests.2, hnodup⟩
  · rw [hf] at hshape hnests
    rw [hshape]
    exact ⟨⟨0, rfl⟩, shapeOf_closeObject hnests.1, hnests.2, hnodup⟩

theorem Mirrors.enterContext {σ : Shape} {frames : List Frame} (h : Mirrors s σ)
    (hc : enterContext s.frames = some frames) :
    ∃ num k, σ.object = some (num, some k) ∧
      Mirrors { s with frames := frames } { σ with object := some (num, some 1) } := by
  obtain ⟨hshape, hnests, hnodup⟩ := h
  obtain ⟨num, rest, rfl, hf | hf⟩ := enterContext_eq_some hc
  · rw [hf] at hshape hnests
    rw [hshape]
    exact ⟨num, 1, rfl, rfl, hnests, hnodup⟩
  · rw [hf] at hshape hnests
    rw [hshape]
    exact ⟨num, 0, rfl, rfl, hnests, hnodup⟩

theorem objectRecord_inStep {σ : Shape} {num : Nat} (h : Mirrors s σ)
    (hr : objectRecord s bs num = some (s', bs')) : InStep s' bs' (scanObject σ num bs) := by
  unfold objectRecord at hr
  split at hr
  · obtain ⟨frames, hc, hr⟩ := Option.bind_eq_some_iff.mp hr
    cases hr
    obtain ⟨⟨k, hk⟩, h'⟩ := h.closeObject hc
    rw [scanObject, hk]
    exact ⟨_, if_neg (not_not.mpr rfl), h'⟩
  · rename_i ho
    obtain ⟨⟨cls, bs1⟩, hv, hr⟩ := Option.bind_eq_some_iff.mp hr
    dsimp only at hr
    split at hr
    · rename_i hm
      cases hr
      have hnone : σ.object = none := by
        have hs := h.isSome
        rwa [Bool.eq_false_iff.mpr ho, Option.isSome_eq_false_iff, Option.isNone_iff_eq_none] at hs
      obtain ⟨f, hf, hu⟩ := h.find hm
      rw [scanObject, hnone]
      dsimp only
      rw [hv, after, hf]
      dsimp only
      rw [hu, if_pos rfl]
      exact ⟨_, rfl, h.openObject (Bool.eq_false_iff.mpr ho)⟩
    · cases hr

theorem contextRecord_inStep {σ : Shape} {cls : Nat} (h : Mirrors s σ)
    (hr : contextRecord s bs cls = some (s', bs')) : InStep s' bs' (scanContext σ cls bs) := by
  obtain ⟨frames, hc, hr⟩ := Option.bind_eq_some_iff.mp hr
  split at hr
  · rename_i hm
    cases hr
    obtain ⟨num, k, ho, h'⟩ := h.enterContext hc
    obtain ⟨f, hf, hu⟩ := h.find hm
    rw [scanContext, ho]
    dsimp only
    rw [hf]
    dsimp only
    rw [hu]
    exact ⟨_, rfl, h'⟩
  · cases hr

/-- A class number is kept unless another one is the same `int`. -/
theorem Mirrors.find_none {σ : Shape} {num : Nat} (h : Mirrors s σ) :
    Table.find Prod.fst (int32 num) σ.names = none ↔
      ((s.names ++ [num]).map fun num : Nat => int32 num).Nodup := by
  rw [h.shape, shapeOf_names, Table.find_eq_none, List.map_append, List.nodup_append']
  simp only [h.nodup, List.map_cons, List.map_nil, List.nodup_singleton, true_and,
    List.disjoint_singleton, List.mem_map, not_exists, not_and, forall_exists_index, and_imp,
    forall_apply_eq_imp_iff₂, keyOf_fst]

/-- The loose reading follows a record, or the record declares a class number that is the
same `int` as another one. -/
def Follows (s' : Scope) (bs' : List UInt8) (x : Option (Bool × Shape × List UInt8)) : Prop :=
  (∃ σ', x = some (false, σ', bs') ∧ Mirrors s' σ') ∨
    x = none ∧ ¬(s'.names.map fun num : Nat => int32 num).Nodup

theorem classNameRecord_follows {σ : Shape} (hlt : bs.length < 2 ^ 32) (h : Mirrors s σ)
    (hr : classNameRecord s bs = some (s', bs')) :
    Follows s' bs' (looseDb data false σ pkrdbClassNames bs) := by
  obtain ⟨⟨num, bs1⟩, hv, hr⟩ := Option.bind_eq_some_iff.mp hr
  obtain ⟨⟨size, bs2⟩, hv2, hr⟩ := Option.bind_eq_some_iff.mp hr
  dsimp only at hr
  split at hr
  swap
  · cases hr
  rename_i hc
  obtain ⟨-, hsize, hzero⟩ := hc
  cases hr
  have hle := (readVar_le hv2).trans (readVar_le hv)
  have hu : uint size = size := uint_of_lt (by omega)
  have hpos : size ≠ 0 := by
    intro h0
    rw [h0, List.take_zero] at hzero
    cases hzero
  rw [looseDb_eq hv]
  by_cases hf : Table.find Prod.fst (int32 num) σ.names = none
  · rw [if_pos ⟨rfl, hf⟩, looseName, scanName, hv2, after, hu, if_neg hpos, if_pos hsize]
    refine .inl ⟨_, rfl, ?_, h.nests, h.find_none.mp hf⟩
    have hmem : 0 ∈ bs2 := List.mem_of_mem_take hzero
    rw [decide_eq_true hmem, h.shape, shapeOf_names, shapeOf_setNames, List.map_append]
    rfl
  · rw [if_neg fun hc => hf hc.2]
    exact .inr ⟨rfl, fun hn => hf (h.find_none.mpr hn)⟩

theorem versionRecord_inStep {σ : Shape} (h : Mirrors s σ)
    (hr : versionRecord s bs = some (s', bs')) :
    InStep s' bs' (scanFunction σ pkrfnVersion bs) := by
  obtain ⟨⟨v, bs1⟩, hv, hr⟩ := Option.bind_eq_some_iff.mp hr
  cases hr
  rw [scanFunction, if_pos rfl, hv]
  exact ⟨σ, rfl, h⟩

/-- The records of which the loose reading is the scan, one case for each type. -/
theorem recordAfter_inStep {σ : Shape} {type index : Nat} (hlt : bs.length < 2 ^ 32)
    (h : Mirrors s σ) (ha : type ≠ pkrdexArray) (hd : type ≠ pkrdexDb)
    (hr : recordAfter s bs type index = some (s', bs')) :
    InStep s' bs' (scanRecord data.length σ type index bs) := by
  unfold recordAfter at hr
  unfold scanRecord
  by_cases ht : type = pkrdexInteger
  · rw [if_pos ht] at hr ⊢
    exact valueRecord_inStep h hr
  rw [if_neg ht] at hr ⊢
  by_cases ht : type = pkrdexFloat
  · rw [if_pos ht] at hr ⊢
    exact valueRecord_inStep h hr
  rw [if_neg ht] at hr ⊢
  by_cases ht : type = pkrdexDouble
  · rw [if_pos ht] at hr ⊢
    exact valueRecord_inStep h hr
  rw [if_neg ht] at hr ⊢
  by_cases ht : type = pkrdexRaw
  · rw [if_pos ht] at hr ⊢
    exact rawRecord_inStep hlt h hr
  rw [if_neg ht, if_neg ha] at hr ⊢
  by_cases ht : type = pkrdexObjectRef
  · rw [if_pos ht] at hr ⊢
    exact valueRecord_inStep h hr
  rw [if_neg ht] at hr ⊢
  by_cases ht : type = pkrdexObject
  · rw [if_pos ht] at hr ⊢
    exact objectRecord_inStep h hr
  rw [if_neg ht] at hr ⊢
  by_cases ht : type = pkrdexContext
  · rw [if_pos ht] at hr ⊢
    exact contextRecord_inStep h hr
  rw [if_neg ht, if_neg hd] at hr ⊢
  by_cases ht : type = pkrdexFunction
  · rw [if_pos ht] at hr ⊢
    by_cases hi : index = pkrfnVersion
    · rw [if_pos hi] at hr
      rw [hi]
      exact versionRecord_inStep h hr
    · rw [if_neg hi] at hr
      cases hr
  · rw [if_neg ht] at hr
    cases hr

theorem looseArray_follows {σ : Shape} (h : InStep s' bs' (scanArray σ bs)) :
    Follows s' bs' (looseArray false σ bs) := by
  obtain ⟨σ', hs, h'⟩ := h
  refine .inl ⟨σ', ?_, h'⟩
  rw [scanArray] at hs
  cases hv : readVar bs with
  | none =>
    rw [hv] at hs
    cases hs
  | some v =>
    obtain ⟨size, bs1⟩ := v
    rw [hv, after] at hs
    rw [looseArray_eq hv]
    by_cases hsize : size > 0
    · rw [if_pos hsize] at hs
      cases hs
      exact if_pos hsize
    · rw [if_neg hsize] at hs
      rw [if_neg hsize]
      cases hc : σ.closed with
      | none =>
        rw [hc] at hs
        cases hs
      | some σ1 =>
        rw [hc] at hs
        cases hs
        rfl

theorem readHeader_le {header : Nat × Nat} (h : readHeader bs = some (header, bs')) :
    bs'.length ≤ bs.length := by
  unfold readHeader at h
  split at h
  · cases h
  · split at h
    · cases h
      exact List.length_drop ▸ Nat.sub_le _ _
    · cases h

theorem record_follows {σ : Shape} (hlt : bs.length < 2 ^ 32) (h : Mirrors s σ)
    (hr : record s bs = some (s', bs')) : Follows s' bs' (looseRecord data false σ bs) := by
  obtain ⟨⟨⟨type, index⟩, bs1⟩, hh, hr⟩ := Option.bind_eq_some_iff.mp hr
  have hlt1 : bs1.length < 2 ^ 32 := (readHeader_le hh).trans_lt hlt
  rw [looseRecord_eq hh, if_neg fun hb => by cases hb.1]
  by_cases ha : type = pkrdexArray
  · subst ha
    rw [if_pos rfl]
    exact looseArray_follows (arrayRecord_inStep h hr)
  rw [if_neg ha]
  by_cases hd : type = pkrdexDb
  · subst hd
    rw [if_pos rfl]
    by_cases hi : index = pkrdbClassNames
    · subst hi
      exact classNameRecord_follows hlt1 h hr
    · have hnone : recordAfter s bs1 pkrdexDb index = none := if_neg hi
      cases hnone.symm.trans hr
  rw [if_neg hd]
  have hin : InStep s' bs' (scanRecord data.length σ type index bs1) :=
    recordAfter_inStep hlt1 h ha hd hr
  obtain ⟨σ', hs, h'⟩ := hin
  rw [hs]
  exact .inl ⟨σ', rfl, h'⟩

theorem readUint_le {k v : Nat} (h : readUint k bs = some (v, bs')) : bs'.length ≤ bs.length := by
  unfold readUint at h
  split at h
  · cases h
    exact List.length_drop ▸ Nat.sub_le _ _
  · cases h

def Consumes (s s' : Scope) (bs bs' : List UInt8) : Prop :=
  bs'.length ≤ bs.length ∧ ∃ more, s'.names = s.names ++ more

theorem Consumes.keep {names : List Nat} {frames frames' : List Frame}
    (h : bs'.length ≤ bs.length) : Consumes ⟨frames, names⟩ ⟨frames', names⟩ bs bs' :=
  ⟨h, [], (List.append_nil _).symm⟩

theorem valueRecord_le {α : Type} {value : Option (α × List UInt8)}
    (hle : ∀ a bs', value = some (a, bs') → bs'.length ≤ bs.length)
    (hr : valueRecord s value = some (s', bs')) : Consumes s s' bs bs' := by
  obtain ⟨⟨a, bs1⟩, hv, hr⟩ := Option.bind_eq_some_iff.mp hr
  obtain ⟨frames, -, hr⟩ := Option.bind_eq_some_iff.mp hr
  cases hr
  exact .keep (hle a _ hv)

theorem rawRecord_le (hr : rawRecord s bs = some (s', bs')) : Consumes s s' bs bs' := by
  obtain ⟨⟨size, bs1⟩, hv, hr⟩ := Option.bind_eq_some_iff.mp hr
  obtain ⟨frames, -, hr⟩ := Option.bind_eq_some_iff.mp hr
  split at hr
  · cases hr
    refine .keep (le_trans ?_ (readVar_le hv))
    exact List.length_drop ▸ Nat.sub_le _ _
  · cases hr

theorem arrayRecord_le {index : Nat} (hr : arrayRecord s bs index = some (s', bs')) :
    Consumes s s' bs bs' := by
  obtain ⟨⟨size, bs1⟩, hv, hr⟩ := Option.bind_eq_some_iff.mp hr
  obtain ⟨frames, -, hr⟩ := Option.bind_eq_some_iff.mp hr
  cases hr
  exact .keep (readVar_le hv)

theorem objectRecord_le {num : Nat} (hr : objectRecord s bs num = some (s', bs')) :
    Consumes s s' bs bs' := by
  unfold objectRecord at hr
  split at hr
  · obtain ⟨frames, -, hr⟩ := Option.bind_eq_some_iff.mp hr
    cases hr
    exact .keep le_rfl
  · obtain ⟨⟨cls, bs1⟩, hv, hr⟩ := Option.bind_eq_some_iff.mp hr
    dsimp only at hr
    split at hr
    · cases hr
      exact .keep (readVar_le hv)
    · cases hr

theorem contextRecord_le {cls : Nat} (hr : contextRecord s bs cls = some (s', bs')) :
    Consumes s s' bs bs' := by
  obtain ⟨frames, -, hr⟩ := Option.bind_eq_some_iff.mp hr
  split at hr
  · cases hr
    exact .keep le_rfl
  · cases hr

theorem classNameRecord_le (hr : classNameRecord s bs = some (s', bs')) :
    Consumes s s' bs bs' := by
  obtain ⟨⟨num, bs1⟩, hv, hr⟩ := Option.bind_eq_some_iff.mp hr
  obtain ⟨⟨size, bs2⟩, hv2, hr⟩ := Option.bind_eq_some_iff.mp hr
  dsimp only at hr
  split at hr
  · cases hr
    refine ⟨le_trans ?_ ((readVar_le hv2).trans (readVar_le hv)), [num], rfl⟩
    exact List.length_drop ▸ Nat.sub_le _ _
  · cases hr

theorem versionRecord_le (hr : versionRecord s bs = some (s', bs')) : Consumes s s' bs bs' := by
  obtain ⟨⟨v, bs1⟩, hv, hr⟩ := Option.bind_eq_some_iff.mp hr
  cases hr
  exact .keep (readVar_le hv)

theorem recordAfter_le {type index : Nat} (hr : recordAfter s bs type index = some (s', bs')) :
    Consumes s s' bs bs' := by
  unfold recordAfter at hr
  by_cases ht : type = pkrdexInteger
  · rw [if_pos ht] at hr
    exact valueRecord_le (fun _ _ => readVar_le) hr
  rw [if_neg ht] at hr
  by_cases ht : type = pkrdexFloat
  · rw [if_pos ht] at hr
    exact valueRecord_le (fun _ _ => readUint_le) hr
  rw [if_neg ht] at hr
  by_cases ht : type = pkrdexDouble
  · rw [if_pos ht] at hr
    exact valueRecord_le (fun _ _ => readUint_le) hr
  rw [if_neg ht] at hr
  by_cases ht : type = pkrdexRaw
  · rw [if_pos ht] at hr
    exact rawRecord_le hr
  rw [if_neg ht] at hr
  by_cases ht : type = pkrdexArray
  · rw [if_pos ht] at hr
    exact arrayRecord_le hr
  rw [if_neg ht] at hr
  by_cases ht : type = pkrdexObjectRef
  · rw [if_pos ht] at hr
    exact valueRecord_le (fun _ _ => readVar_le) hr
  rw [if_neg ht] at hr
  by_cases ht : type = pkrdexObject
  · rw [if_pos ht] at hr
    exact objectRecord_le hr
  rw [if_neg ht] at hr
  by_cases ht : type = pkrdexContext
  · rw [if_pos ht] at hr
    exact contextRecord_le hr
  rw [if_neg ht] at hr
  by_cases ht : type = pkrdexDb
  · rw [if_pos ht] at hr
    by_cases hi : index = pkrdbClassNames
    · rw [if_pos hi] at hr
      exact classNameRecord_le hr
    · rw [if_neg hi] at hr
      cases hr
  rw [if_neg ht] at hr
  by_cases ht : type = pkrdexFunction
  · rw [if_pos ht] at hr
    by_cases hi : index = pkrfnVersion
    · rw [if_pos hi] at hr
      exact versionRecord_le hr
    · rw [if_neg hi] at hr
      cases hr
  · rw [if_neg ht] at hr
    cases hr

theorem record_le (hr : record s bs = some (s', bs')) : Consumes s s' bs bs' := by
  obtain ⟨⟨⟨type, index⟩, bs1⟩, hh, hr⟩ := Option.bind_eq_some_iff.mp hr
  obtain ⟨hle, hmore⟩ := recordAfter_le hr
  exact ⟨hle.trans (readHeader_le hh), hmore⟩

theorem Documented.more {names : List Nat} (h : Documented s bs names) :
    ∃ more, names = s.names ++ more := by
  induction h with
  | done names => exact ⟨[], (List.append_nil _).symm⟩
  | record hr _ ih =>
    obtain ⟨-, more, hmore⟩ := record_le hr
    obtain ⟨more', hmore'⟩ := ih
    exact ⟨more ++ more', by rw [hmore', hmore, List.append_assoc]⟩

/-- A documented stream is read loosely to its end, with nothing left open, if its class numbers
differ as `int`s. -/
theorem Documented.loose {names : List Nat} {σ : Shape} (hd : Documented s bs names)
    (hlt : bs.length < 2 ^ 32) (h : Mirrors s σ)
    (hn : (names.map fun num : Nat => int32 num).Nodup) :
    ∃ σEnd, Loose data false σ bs false σEnd := by
  induction hd generalizing σ with
  | done names => exact ⟨σ, .done false σ⟩
  | record hr hd ih =>
    obtain ⟨hle, -⟩ := record_le hr
    obtain ⟨σ', hl, h'⟩ | ⟨-, hdup⟩ : Follows _ _ (looseRecord data false σ _) :=
      record_follows hlt h hr
    · obtain ⟨σEnd, hrest⟩ := ih (hle.trans_lt hlt) h' hn
      exact ⟨σEnd, .record hl hrest⟩
    · obtain ⟨more, hmore⟩ := hd.more
      rw [hmore, List.map_append] at hn
      exact absurd (List.Nodup.of_append_left hn) hdup

/-- The same run of records read in both ways. -/
theorem Documented.ends {names : List Nat} {σ σEnd : Shape} {bareEnd : Bool}
    (hd : Documented s bs names) (hlt : bs.length < 2 ^ 32) (h : Mirrors s σ)
    (hl : Loose data false σ bs bareEnd σEnd) :
    (names.map fun num : Nat => int32 num).Nodup ∧ bareEnd = false ∧ σEnd.outer = 0 ∧
      σEnd.object = none := by
  induction hd generalizing σ with
  | done names =>
    cases hl with
    | done =>
      obtain ⟨hshape, -, hnodup⟩ := h
      subst hshape
      exact ⟨hnodup, rfl, rfl, rfl⟩
    | record hr _ => cases hr
  | record hr _ ih =>
    obtain ⟨hle, -⟩ := record_le hr
    cases hl with
    | done => cases hr
    | record hl hrest =>
      obtain ⟨σ', hl', h'⟩ | ⟨hnone, -⟩ : Follows _ _ (looseRecord data false σ _) :=
        record_follows hlt h hr
      · cases hl.symm.trans hl'
        exact ih (hle.trans_lt hlt) h' hrest
      · cases hl.symm.trans hnone

end Lockstep

end LcClibs.Pack.Grammar
