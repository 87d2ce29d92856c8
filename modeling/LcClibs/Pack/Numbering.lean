import Mathlib
import LcClibs.Pack.Packer

namespace LcClibs.Pack.Numbering

open Platform Lib Buffer.Cursor Buffer.Append Buffer.VarInt Pack.Records Pack.Packer

section Acceptance

variable {A : Type} (stru : A → Stru A)

/-- A call as the packer takes it: an object that is no `MMObject` counts as null. -/
def acceptedCall : PackCall A → PackCall A
  | .object key obj => .object key (toMMObject stru obj)
  | c => c

def acceptedLevel (l : Level A) : Level A :=
  { l with pack := l.pack.map (List.map (acceptedCall stru)) }

/-- The objects as the packer takes them. -/
def accepted (a : A) : Stru A :=
  ⟨(stru a).supers.map (acceptedLevel stru), acceptedLevel stru (stru a).last⟩

theorem levels_accepted (a : A) :
    (accepted stru a).levels = (stru a).levels.map (acceptedLevel stru) := by
  simp [accepted, Stru.levels]

variable {stru}

theorem toMMObject_eq_self (h : ∀ a, (stru a).isMMObject = true) (obj : Option A) :
    toMMObject stru obj = obj := by
  cases obj with
  | none => rfl
  | some a => exact Option.filter_some_pos (h a)

theorem acceptedCall_eq_self (h : ∀ a, (stru a).isMMObject = true) (c : PackCall A) :
    acceptedCall stru c = c := by
  cases c with
  | object key obj => rw [acceptedCall, toMMObject_eq_self h]
  | _ => rfl

theorem map_acceptedCall (h : ∀ a, (stru a).isMMObject = true) (cs : List (PackCall A)) :
    cs.map (acceptedCall stru) = cs := by
  rw [funext (acceptedCall_eq_self h)]
  exact List.map_id cs

theorem accepted_eq_self (h : ∀ a, (stru a).isMMObject = true) : accepted stru = stru := by
  have hlevel : acceptedLevel stru = id := funext fun l => by
    rw [acceptedLevel, funext (map_acceptedCall h)]
    cases hp : l.pack <;> simp [← hp]
  funext a
  rw [accepted, hlevel, List.map_id]
  rfl

end Acceptance

/-- What a packer keeps, without its buffer: the objects and the class names in the
order of their numbers, and the records so far. -/
structure Ledger (A : Type) where
  order : List A
  names : List (List UInt8)
  out : List Record

namespace Ledger

section Operations

variable {A : Type}

def emit (r : Record) (T : Ledger A) : Ledger A := { T with out := T.out ++ [r] }

def start : Ledger A where
  order := []
  names := []
  out := [.version packerVersionV1]

variable [DecidableEq A]

def saveName (name : List UInt8) (T : Ledger A) : Ledger A :=
  if name ∈ T.names then T
  else { T with
    names := T.names ++ [name]
    out := T.out ++ [.className T.names.length name] }

def saveObject (obj : A) (T : Ledger A) : Ledger A :=
  if obj ∈ T.order then T else { T with order := T.order ++ [obj] }

def call : PackCall A → Ledger A → Ledger A
  | .varInt64 key value, T => T.emit (.integer key value)
  | .float key value, T => T.emit (.float key value)
  | .double key value, T => T.emit (.double key value)
  | .data key value, T => T.emit (.raw key value)
  | .array key len, T => T.emit (.array key (uint (len + 1)))
  | .arrayEnd key, T => T.emit (.array key 0)
  | .object _ none, T => T
  | .object key (some obj), T =>
    (T.saveObject obj).emit (.objectRef key ((T.saveObject obj).order.idxOf obj))
  | .crash _, T => T

def calls : List (PackCall A) → Ledger A → Ledger A
  | [], T => T
  | c :: cs, T => calls cs (T.call c)

def context (name : List UInt8) (T : Ledger A) : Ledger A :=
  (T.saveName name).emit (.context ((T.saveName name).names.idxOf name))

def levels : List (Level A) → Ledger A → Ledger A
  | [], T => T
  | l :: ls, T =>
    match l.pack with
    | none => levels ls T
    | some cs => levels ls ((T.context l.name).calls cs)

def packSection (s : Stru A) (i : Nat) (T : Ledger A) : Ledger A :=
  (((T.saveName s.last.name).emit
    (.object i ((T.saveName s.last.name).names.idxOf s.last.name))).levels s.levels).emit
    (.objectEnd i)

variable (stru : A → Stru A)

def sections : Nat → Nat → Ledger A → Ledger A
  | 0, _, T => T
  | fuel + 1, i, T =>
    match T.order[i]? with
    | none => T
    | some obj => sections fuel (i + 1) (T.packSection (stru obj) i)

/-- A call from outside: a new object brings the sections of all that it leads to. -/
def top (fuel : Nat) : PackCall A → Ledger A → Ledger A
  | .object key (some obj), T =>
    sections stru fuel T.order.length (T.call (.object key (some obj)))
  | c, T => T.call c

def run (fuel : Nat) : List (PackCall A) → Ledger A → Ledger A
  | [], T => T
  | c :: cs, T => run fuel cs (T.top stru fuel c)

end Operations

section Growth

variable {A : Type}

/-- Numbers once given stay, and records once written stay. -/
structure Grows (T T' : Ledger A) : Prop where
  order : T.order <+: T'.order
  names : T.names <+: T'.names
  out : T.out <+: T'.out

theorem Grows.refl (T : Ledger A) : Grows T T := ⟨List.prefix_rfl, List.prefix_rfl, List.prefix_rfl⟩

theorem Grows.trans {T T' T'' : Ledger A} (h : Grows T T') (h' : Grows T' T'') : Grows T T'' :=
  ⟨h.order.trans h'.order, h.names.trans h'.names, h.out.trans h'.out⟩

theorem grows_emit (r : Record) (T : Ledger A) : Grows T (T.emit r) :=
  ⟨List.prefix_rfl, List.prefix_rfl, List.prefix_append _ _⟩

theorem grows_saveName (name : List UInt8) (T : Ledger A) : Grows T (T.saveName name) := by
  unfold saveName
  split_ifs
  · exact Grows.refl T
  · exact ⟨List.prefix_rfl, List.prefix_append _ _, List.prefix_append _ _⟩

theorem grows_context (name : List UInt8) (T : Ledger A) : Grows T (T.context name) :=
  (grows_saveName name T).trans (grows_emit _ _)

theorem mem_saveName (name : List UInt8) (T : Ledger A) : name ∈ (T.saveName name).names := by
  unfold saveName
  split_ifs with h
  · exact h
  · simp

@[simp] theorem saveName_order (name : List UInt8) (T : Ledger A) :
    (T.saveName name).order = T.order := by
  unfold saveName
  split_ifs <;> rfl

variable [DecidableEq A]

theorem grows_saveObject (obj : A) (T : Ledger A) : Grows T (T.saveObject obj) := by
  unfold saveObject
  split_ifs
  · exact Grows.refl T
  · exact ⟨List.prefix_append _ _, List.prefix_rfl, List.prefix_rfl⟩

theorem grows_call (c : PackCall A) (T : Ledger A) : Grows T (T.call c) := by
  cases c with
  | object key stru =>
    cases stru with
    | none => exact Grows.refl T
    | some obj => exact (grows_saveObject obj T).trans (grows_emit _ _)
  | crash f => exact Grows.refl T
  | _ => exact grows_emit _ T

theorem grows_calls (cs : List (PackCall A)) (T : Ledger A) : Grows T (T.calls cs) := by
  induction cs generalizing T with
  | nil => exact Grows.refl T
  | cons c cs ih => exact (grows_call c T).trans (ih _)

theorem grows_levels (ls : List (Level A)) (T : Ledger A) : Grows T (T.levels ls) := by
  induction ls generalizing T with
  | nil => exact Grows.refl T
  | cons l ls ih =>
    unfold levels
    cases l.pack with
    | none => exact ih T
    | some cs => exact ((grows_context l.name T).trans (grows_calls cs _)).trans (ih _)

theorem grows_packSection (s : Stru A) (i : Nat) (T : Ledger A) : Grows T (T.packSection s i) :=
  (((grows_saveName _ T).trans (grows_emit _ _)).trans (grows_levels _ _)).trans (grows_emit _ _)

theorem grows_sections (stru : A → Stru A) (fuel i : Nat) (T : Ledger A) :
    Grows T (T.sections stru fuel i) := by
  induction fuel generalizing i T with
  | zero => exact Grows.refl T
  | succ fuel ih =>
    unfold sections
    cases T.order[i]? with
    | none => exact Grows.refl T
    | some obj => exact (grows_packSection _ i T).trans (ih _ _)

theorem grows_top (stru : A → Stru A) (fuel : Nat) (c : PackCall A) (T : Ledger A) :
    Grows T (T.top stru fuel c) := by
  unfold top
  split
  · exact (grows_call _ T).trans (grows_sections stru fuel _ _)
  · exact grows_call _ T

theorem grows_run (stru : A → Stru A) (fuel : Nat) (cs : List (PackCall A)) (T : Ledger A) :
    Grows T (T.run stru fuel cs) := by
  induction cs generalizing T with
  | nil => exact Grows.refl T
  | cons c cs ih => exact (grows_top stru fuel c T).trans (ih _)

theorem run_append (fuel : Nat) (cs cs' : List (PackCall A)) (stru : A → Stru A) (T : Ledger A) :
    T.run stru fuel (cs ++ cs') = (T.run stru fuel cs).run stru fuel cs' := by
  induction cs generalizing T with
  | nil => rfl
  | cons c cs ih => exact ih _

theorem mem_saveObject (obj : A) (T : Ledger A) : obj ∈ (T.saveObject obj).order := by
  unfold saveObject
  split_ifs with h
  · exact h
  · simp

theorem mem_saveObject_iff {obj a : A} {T : Ledger A} :
    a ∈ (T.saveObject obj).order ↔ a ∈ T.order ∨ a = obj := by
  unfold saveObject
  split_ifs with h
  · constructor
    · exact .inl
    · rintro (ha | rfl)
      · exact ha
      · exact h
  · simp

@[simp] theorem saveObject_names (obj : A) (T : Ledger A) :
    (T.saveObject obj).names = T.names := by
  unfold saveObject
  split_ifs <;> rfl

@[simp] theorem saveObject_out (obj : A) (T : Ledger A) :
    (T.saveObject obj).out = T.out := by
  unfold saveObject
  split_ifs <;> rfl

end Growth

end Ledger

open Ledger

section Simulation

variable {A : Type} (host : Host)

def Ledger.size (T : Ledger A) : Nat := (streamBytes host T.out).length

theorem Ledger.Grows.size_le {T T' : Ledger A} (h : Grows T T') : T.size host ≤ T'.size host := by
  obtain ⟨rs, hrs⟩ := h.out
  rw [Ledger.size, Ledger.size, ← hrs, streamBytes_append, List.length_append]
  exact Nat.le_add_right _ _

/-- A packer at a nesting level that keeps the ledger, its buffer holding the
encoded records. -/
structure Keeps (level : Nat) (s : MMPacker A) (T : Ledger A) : Prop where
  level_eq : s.level = level
  objToId_eq : s.objToId = T.order.zipIdx
  idToObj_eq : s.idToObj = T.order.zipIdx.map Prod.swap
  names_eq : s.classNameToId = T.names.zipIdx
  written : Appended (dybCreate 64) (streamBytes host T.out) s.dyb

/-- A step of the packer that does on its state what a step of the ledger says, as
long as the bytes can be counted. -/
def Does (level : Nat) (x : PackM A Unit) (f : Ledger A → Ledger A) : Prop :=
  ∀ s T, Keeps host level s T → (f T).size host < 2 ^ 32 →
    ∃ s', x s = .ok ((), s') ∧ Keeps host level s' (f T)

variable {host} {level : Nat}

theorem bind_ok {α β : Type} {x : PackM A α} {f : α → PackM A β} {s s' : MMPacker A} {a : α}
    (h : x s = .ok (a, s')) : (x >>= f) s = f a s' := by
  simp only [bind, StateT.bind, h, Except.bind]

theorem get_bind {β : Type} (f : MMPacker A → PackM A β) (s : MMPacker A) :
    (get >>= f) s = f s s := rfl

theorem Does.nothing : Does host level (pure () : PackM A Unit) id :=
  fun s _ hs _ => ⟨s, rfl, hs⟩

theorem Does.bind {x y : PackM A Unit} {f g : Ledger A → Ledger A} (hx : Does host level x f)
    (hy : Does host level y g) (hg : ∀ T, Grows T (g T)) :
    Does host level (do x; y) fun T => g (f T) := by
  intro s T hs hlt
  obtain ⟨s1, h1, hs1⟩ := hx s T hs (((hg _).size_le host).trans_lt hlt)
  obtain ⟨s2, h2, hs2⟩ := hy s1 _ hs1 hlt
  exact ⟨s2, by rw [bind_ok h1, h2], hs2⟩

theorem Keeps.emit {s : MMPacker A} {T : Ledger A} (hs : Keeps host level s T) (r : Record)
    (hlt : (T.emit r).size host < 2 ^ 32) :
    ∃ s', Packer.emit host r s = .ok ((), s') ∧ Keeps host level s' (T.emit r) := by
  have hsize : (streamBytes host T.out).length + (r.bytes host).length < 2 ^ 32 := by
    simpa [Ledger.size, Ledger.emit] using hlt
  have hpos := hs.written.position_eq
  have hroom : Room s.dyb (r.bytes host).length := by
    refine ⟨by rw [hpos]; simpa [dybCreate] using hsize, fun hf => ?_⟩
    rw [hs.written.fixed_eq] at hf
    cases hf
  obtain ⟨d, hd, happ⟩ := (r.append_writes host).ok s.dyb hs.written.ok hroom
  refine ⟨{ s with dyb := d }, by rw [Packer.emit, onDyb, hd], ?_⟩
  exact
    { level_eq := hs.level_eq
      objToId_eq := hs.objToId_eq
      idToObj_eq := hs.idToObj_eq
      names_eq := hs.names_eq
      written := by simpa [Ledger.emit] using hs.written.trans happ }

theorem emit_does (r : Record) : Does host level (Packer.emit host r : PackM A Unit)
    (Ledger.emit r) :=
  fun _ _ hs hlt => hs.emit r hlt

theorem Keeps.withLevel {s : MMPacker A} {T : Ledger A} (hs : Keeps host level s T) (l : Nat) :
    Keeps host l { s with level := l } T :=
  { hs with level_eq := rfl }

theorem Keeps.saveName {s : MMPacker A} {T : Ledger A} (hs : Keeps host level s T)
    (name : List UInt8) (hlt : (T.saveName name).size host < 2 ^ 32) :
    ∃ s', dbSaveObjectName host name s = .ok ((T.saveName name).names.idxOf name, s') ∧
      Keeps host level s' (T.saveName name) := by
  rw [dbSaveObjectName, get_bind]
  by_cases hmem : name ∈ T.names
  · have hfind : Table.find Prod.fst name s.classNameToId = some (name, T.names.idxOf name) := by
      rw [hs.names_eq, Table.find_zipIdx hmem]
    have hT : T.saveName name = T := if_pos hmem
    rw [hT]
    exact ⟨s, by simp only [hfind]; rfl, hs⟩
  · have hfind : Table.find Prod.fst name s.classNameToId = none := by
      rw [hs.names_eq, Table.find_zipIdx_none hmem]
    have hlen : s.classNameToId.length = T.names.length := by rw [hs.names_eq, List.length_zipIdx]
    have hT : T.saveName name = Ledger.emit (.className T.names.length name)
        { T with names := T.names ++ [name] } := if_neg hmem
    have hidx : (T.names ++ [name]).idxOf name = T.names.length := by
      rw [List.idxOf_append_of_notMem hmem, List.idxOf_cons_self, Nat.add_zero]
    rw [hT] at hlt ⊢
    have hadd : Keeps host level
        { s with classNameToId := s.classNameToId ++ [(name, T.names.length)] }
        { T with names := T.names ++ [name] } :=
      { hs with
        names_eq := by simp only [hs.names_eq, List.zipIdx_append, Nat.zero_add]; rfl }
    obtain ⟨s', hs', hk⟩ := hadd.emit _ hlt
    refine ⟨s', ?_, hk⟩
    simp only [hfind, hlen]
    exact (bind_ok (f := fun _ => pure T.names.length) hs').trans (by rw [← hidx]; rfl)

theorem packNextContextImpl_does (name : List UInt8) :
    Does host level (packNextContextImpl host name : PackM A Unit) (Ledger.context name) := by
  intro s T hs hlt
  obtain ⟨s1, h1, hs1⟩ := hs.saveName name (((grows_emit _ _).size_le host).trans_lt hlt)
  obtain ⟨s2, h2, hs2⟩ := hs1.emit _ hlt
  exact ⟨s2, by rw [packNextContextImpl, bind_ok h1, h2], hs2⟩

variable [DecidableEq A]

theorem Keeps.saveObject {s : MMPacker A} {T : Ledger A} (hs : Keeps host level s T) (obj : A) :
    ∃ s', Packer.saveObject obj s = .ok ((T.saveObject obj).order.idxOf obj, s') ∧
      Keeps host level s' (T.saveObject obj) := by
  rw [Packer.saveObject, get_bind]
  by_cases hmem : obj ∈ T.order
  · have hfind : Table.find Prod.fst obj s.objToId = some (obj, T.order.idxOf obj) := by
      rw [hs.objToId_eq, Table.find_zipIdx hmem]
    have hT : T.saveObject obj = T := if_pos hmem
    rw [hT]
    exact ⟨s, by simp only [hfind]; rfl, hs⟩
  · have hfind : Table.find Prod.fst obj s.objToId = none := by
      rw [hs.objToId_eq, Table.find_zipIdx_none hmem]
    have hlen : s.objToId.length = T.order.length := by rw [hs.objToId_eq, List.length_zipIdx]
    have hT : T.saveObject obj = { T with order := T.order ++ [obj] } := if_neg hmem
    have hidx : (T.order ++ [obj]).idxOf obj = T.order.length := by
      rw [List.idxOf_append_of_notMem hmem, List.idxOf_cons_self, Nat.add_zero]
    rw [hT]
    simp only [hfind, hlen, hidx]
    exact ⟨_, rfl,
      { hs with
        objToId_eq := by simp only [hs.objToId_eq, List.zipIdx_append, Nat.zero_add]; rfl
        idToObj_eq := by
          simp only [hs.idToObj_eq, List.zipIdx_append, Nat.zero_add, List.map_append]
          rfl }⟩

/-- The calls of a pack function that comes to its end. -/
def Ends (cs : List (PackCall A)) : Prop := ∀ f, .crash f ∉ cs

def StruEnds (s : Stru A) : Prop := ∀ l ∈ s.levels, ∀ cs ∈ l.pack, Ends cs

variable {packObject : Nat → Option A → PackM A Unit} {stru : A → Stru A}

theorem packCall_does (hp : ∀ key obj, Does host level (packObject key obj)
      (Ledger.call (.object key (toMMObject stru obj))))
    {c : PackCall A} (hc : ∀ f, acceptedCall stru c ≠ .crash f) :
    Does host level (packCall host packObject c) (Ledger.call (acceptedCall stru c)) := by
  cases c with
  | object key obj => exact hp key obj
  | crash f => exact absurd rfl (hc f)
  | _ => exact emit_does _

theorem packCalls_does (hp : ∀ key obj, Does host level (packObject key obj)
      (Ledger.call (.object key (toMMObject stru obj))))
    {cs : List (PackCall A)} (hcs : Ends (cs.map (acceptedCall stru))) :
    Does host level (packCalls host packObject cs)
      (Ledger.calls (cs.map (acceptedCall stru))) := by
  induction cs with
  | nil => exact Does.nothing
  | cons c cs ih =>
    rw [List.map_cons] at hcs ⊢
    have hc := packCall_does hp (c := c) fun f h => hcs f (h ▸ List.mem_cons_self)
    exact hc.bind (ih fun f h => hcs f (List.mem_cons_of_mem _ h)) (grows_calls _)

theorem packLevels_does (hp : ∀ key obj, Does host level (packObject key obj)
      (Ledger.call (.object key (toMMObject stru obj))))
    {ls : List (Level A)} (hls : ∀ l ∈ ls.map (acceptedLevel stru), ∀ cs ∈ l.pack, Ends cs) :
    Does host level (packLevels host packObject ls)
      (Ledger.levels (ls.map (acceptedLevel stru))) := by
  induction ls with
  | nil => exact Does.nothing
  | cons l ls ih =>
    rw [List.map_cons] at hls ⊢
    have ih' := ih fun m hm => hls m (List.mem_cons_of_mem _ hm)
    have hl := hls _ List.mem_cons_self
    rw [packLevels]
    cases hpack : l.pack with
    | none =>
      have hd := Does.nothing.bind ih' (grows_levels _)
      intro s T hs hlt
      simp only [Ledger.levels, acceptedLevel, hpack] at hlt ⊢
      exact hd s T hs hlt
    | some cs =>
      have hcalls := packCalls_does hp (hl (cs.map (acceptedCall stru))
        (by rw [acceptedLevel, hpack]; rfl))
      have hd := (packNextContextImpl_does l.name).bind (hcalls.bind ih' (grows_levels _))
        fun T => (grows_calls _ T).trans (grows_levels _ _)
      intro s T hs hlt
      simp only [Ledger.levels, acceptedLevel, hpack] at hlt ⊢
      exact hd s T hs hlt

theorem packObjectImpl_some {stru : A → Stru A} {fuel key : Nat} {o : Option A} {obj : A}
    (ho : toMMObject stru o = some obj) :
    packObjectImpl host stru (fuel + 1) key o = (do
      modify fun s => { s with level := s.level + 1 }
      let s ← get
      let num ← Packer.saveObject obj
      Packer.emit host (.objectRef key num)
      if s.level > 1 then
        modify fun s => { s with level := s.level - 1 }
      else
        packSections host stru (packObjectImpl host stru fuel) fuel s.objToId.length
        modify fun s => { s with level := s.level - 1 }) := by
  rw [packObjectImpl, ho]

theorem packObjectImpl_none {stru : A → Stru A} {fuel key : Nat} {o : Option A}
    (ho : toMMObject stru o = none) :
    packObjectImpl host stru (fuel + 1) key o = pure () := by
  rw [packObjectImpl, ho]

/-- A nested call only registers and writes its reference. -/
theorem packObjectImpl_nested (stru : A → Stru A) (fuel key : Nat) (o : Option A)
    (hl : 0 < level) :
    Does host level (packObjectImpl host stru (fuel + 1) key o)
      (Ledger.call (.object key (toMMObject stru o))) := by
  cases ho : toMMObject stru o with
  | none =>
    rw [packObjectImpl_none ho]
    exact Does.nothing
  | some obj =>
    intro s T hs hlt
    obtain ⟨s1, h1, hs1⟩ := (hs.withLevel (level + 1)).saveObject obj
    obtain ⟨s2, h2, hs2⟩ := hs1.emit _ hlt
    refine ⟨{ s2 with level := level }, ?_, hs2.withLevel level⟩
    have hmod : (modify fun s => { s with level := s.level + 1 } : PackM A Unit) s =
        .ok ((), { s with level := level + 1 }) := by
      rw [← hs.level_eq]
      rfl
    rw [packObjectImpl_some ho, bind_ok hmod, get_bind, bind_ok h1, bind_ok h2,
      if_pos (show level + 1 > 1 by omega)]
    show Except.ok ((), { s2 with level := s2.level - 1 }) = _
    rw [hs2.level_eq, Nat.add_sub_cancel]

end Simulation

section Universe

variable {A : Type} {stru : A → Stru A}

def objectsOf (cs : List (PackCall A)) : List A :=
  cs.filterMap fun c => match c with
    | .object _ obj => obj
    | _ => none

/-- The objects that an object holds, as its pack functions name them. -/
def children (s : Stru A) : List A := s.levels.flatMap fun l => (l.pack.map objectsOf).getD []

def Closed (stru : A → Stru A) (U : Finset A) : Prop := ∀ a ∈ U, ∀ b ∈ children (stru a), b ∈ U

/-- A finite closed set of objects whose pack functions come to their end. -/
structure Universe (stru : A → Stru A) where
  objects : Finset A
  closed : Closed stru objects
  ends : ∀ a ∈ objects, StruEnds (stru a)

/-- Each object of the universe has at most one number. -/
structure Within (U : Finset A) (T : Ledger A) : Prop where
  nodup : T.order.Nodup
  mem : ∀ a ∈ T.order, a ∈ U

theorem objectsOf_cons (c : PackCall A) (cs : List (PackCall A)) :
    objectsOf (c :: cs) = objectsOf [c] ++ objectsOf cs := by
  rw [objectsOf, objectsOf, objectsOf, ← List.filterMap_append]
  rfl

theorem Within.of_order {U : Finset A} {T T' : Ledger A} (h : Within U T)
    (ho : T'.order = T.order) : Within U T' :=
  ⟨ho ▸ h.nodup, ho ▸ h.mem⟩

theorem Within.start (U : Finset A) : Within U (Ledger.start : Ledger A) :=
  ⟨List.nodup_nil, fun _ h => absurd h List.not_mem_nil⟩

theorem initMMPacker_keeps (host : Host) :
    ∃ s, initMMPacker host = .ok s ∧ Keeps host 0 s (Ledger.start : Ledger A) := by
  have hstart : Keeps host 0
      ⟨0, [], [], [], dybCreate 64⟩ (⟨[], [], []⟩ : Ledger A) :=
    { level_eq := rfl
      objToId_eq := rfl
      idToObj_eq := rfl
      names_eq := rfl
      written := Appended.nil ⟨by decide, by decide, by decide, by decide, by decide⟩ }
  have hsize : (streamBytes host [.version packerVersionV1]).length < 2 ^ 32 := by
    cases host <;> decide
  obtain ⟨s, h, hs⟩ := hstart.emit (.version packerVersionV1) hsize
  exact ⟨s, by rw [initMMPacker, h]; rfl, hs⟩

variable [DecidableEq A]

theorem Within.length_le {U : Finset A} {T : Ledger A} (h : Within U T) :
    T.order.length ≤ U.card := by
  rw [← List.toFinset_card_of_nodup h.nodup]
  exact Finset.card_le_card fun a ha => h.mem a (List.mem_toFinset.mp ha)

theorem Within.saveObject {U : Finset A} {T : Ledger A} (h : Within U T) {obj : A}
    (hobj : obj ∈ U) : Within U (T.saveObject obj) where
  nodup := by
    unfold Ledger.saveObject
    split_ifs with hmem
    · exact h.nodup
    · exact List.nodup_append.mpr ⟨h.nodup, List.nodup_singleton obj, fun a ha b hb => by
        rw [List.mem_singleton.mp hb]
        rintro rfl
        exact hmem ha⟩
  mem a ha := by
    obtain ha | rfl := mem_saveObject_iff.mp ha
    · exact h.mem a ha
    · exact hobj

theorem Within.call {U : Finset A} {T : Ledger A} (h : Within U T) {c : PackCall A}
    (hc : ∀ b ∈ objectsOf [c], b ∈ U) : Within U (T.call c) := by
  cases c with
  | object key obj =>
    cases obj with
    | none => exact h
    | some obj => exact (h.saveObject (hc obj (by simp [objectsOf]))).of_order rfl
  | crash f => exact h
  | _ => exact h.of_order rfl

theorem Within.calls {U : Finset A} {T : Ledger A} (h : Within U T) {cs : List (PackCall A)}
    (hcs : ∀ b ∈ objectsOf cs, b ∈ U) : Within U (T.calls cs) := by
  induction cs generalizing T with
  | nil => exact h
  | cons c cs ih =>
    rw [objectsOf_cons] at hcs
    exact ih (h.call fun b hb => hcs b (List.mem_append_left _ hb))
      fun b hb => hcs b (List.mem_append_right _ hb)

theorem Within.levels {U : Finset A} {T : Ledger A} (h : Within U T) {ls : List (Level A)}
    (hls : ∀ b ∈ ls.flatMap (fun l => (l.pack.map objectsOf).getD []), b ∈ U) :
    Within U (T.levels ls) := by
  induction ls generalizing T with
  | nil => exact h
  | cons l ls ih =>
    rw [List.flatMap_cons] at hls
    have ht : ∀ b ∈ ls.flatMap (fun l => (l.pack.map objectsOf).getD []), b ∈ U :=
      fun b hb => hls b (List.mem_append_right _ hb)
    unfold Ledger.levels
    cases hpack : l.pack with
    | none => exact ih h ht
    | some cs =>
      have hc : Within U (T.context l.name) := h.of_order (saveName_order _ _)
      exact ih (hc.calls fun b hb => hls b (List.mem_append_left _ (by rw [hpack]; exact hb))) ht

theorem Within.packSection {U : Finset A} {T : Ledger A} (h : Within U T) (hU : Closed stru U)
    {a : A} (ha : a ∈ U) (i : Nat) : Within U (T.packSection (stru a) i) := by
  have h1 : Within U (T.saveName (stru a).last.name) := h.of_order (saveName_order _ _)
  have h2 : Within U ((T.saveName (stru a).last.name).emit
      (.object i ((T.saveName (stru a).last.name).names.idxOf (stru a).last.name))) :=
    h1.of_order rfl
  have h3 := h2.levels (hU a ha)
  exact h3.of_order rfl

variable {host : Host}

theorem Keeps.packSection {β : Type} {s : MMPacker A} {T : Ledger A} (hs : Keeps host 1 s T)
    {obj : A} (hends : StruEnds (accepted stru obj)) (n i : Nat)
    (hlt : (T.packSection (accepted stru obj) i).size host < 2 ^ 32) (next : PackM A β) :
    ∃ s', (do
        let classnameNum ← dbSaveObjectName host (stru obj).last.name
        Packer.emit host (.object i classnameNum)
        packLevels host (packObjectImpl host stru (n + 1)) (stru obj).levels
        Packer.emit host (.objectEnd i)
        next) s = next s' ∧ Keeps host 1 s' (T.packSection (accepted stru obj) i) := by
  have hname : (accepted stru obj).last.name = (stru obj).last.name := rfl
  rw [StruEnds, levels_accepted] at hends
  rw [Ledger.packSection, levels_accepted, hname] at hlt ⊢
  obtain ⟨s1, h1, hs1⟩ := hs.saveName (stru obj).last.name
    ((((grows_emit _ _).trans (grows_levels _ _)).trans (grows_emit _ _)).size_le host
      |>.trans_lt hlt)
  obtain ⟨s2, h2, hs2⟩ := hs1.emit _
    (((grows_levels _ _).trans (grows_emit _ _)).size_le host |>.trans_lt hlt)
  obtain ⟨s3, h3, hs3⟩ := packLevels_does
    (fun key o => packObjectImpl_nested stru n key o (Nat.succ_pos 0)) hends s2 _ hs2
    ((grows_emit _ _).size_le host |>.trans_lt hlt)
  obtain ⟨s4, h4, hs4⟩ := hs3.emit (.objectEnd i) hlt
  refine ⟨s4, ?_, hs4⟩
  rw [bind_ok h1, bind_ok h2, bind_ok h3, bind_ok h4]

/-- The loop comes to its end, as the objects of the universe are its measure. -/
theorem packSections_does (U : Universe (accepted stru)) {fuel n i : Nat} {s : MMPacker A}
    {T : Ledger A} (hs : Keeps host 1 s T) (hT : Within U.objects T) (hi : i ≤ T.order.length)
    (hfuel : U.objects.card < fuel + i)
    (hlt : (T.sections (accepted stru) fuel i).size host < 2 ^ 32) :
    ∃ s', packSections host stru (packObjectImpl host stru (n + 1)) fuel i s = .ok ((), s') ∧
      Keeps host 1 s' (T.sections (accepted stru) fuel i) := by
  induction fuel generalizing i s T with
  | zero =>
    have := hT.length_le
    omega
  | succ fuel ih =>
    have hlen : s.idToObj.length = T.order.length := by
      rw [hs.idToObj_eq, List.length_map, List.length_zipIdx]
    rw [packSections, get_bind]
    cases ho : T.order[i]? with
    | none =>
      have hge := List.getElem?_eq_none_iff.mp ho
      rw [if_neg (by omega)]
      refine ⟨s, rfl, ?_⟩
      simpa only [Ledger.sections, ho] using hs
    | some obj =>
      have hmem := hT.mem obj (List.mem_of_getElem? ho)
      have hget := (List.getElem?_eq_some_iff.mp ho).1
      have hfind : Table.find Prod.fst i s.idToObj = some (i, obj) := by
        rw [hs.idToObj_eq, Table.find_zipIdx_swap, ho]
        rfl
      have hT' := hT.packSection U.closed hmem i
      have hgrow := (grows_packSection (accepted stru obj) i T).order.length_le
      have hlen' : i + 1 ≤ (T.packSection (accepted stru obj) i).order.length := by omega
      simp only [Ledger.sections, ho] at hlt ⊢
      have hsec := ((grows_sections (accepted stru) fuel (i + 1) _).size_le host).trans_lt hlt
      obtain ⟨s1, h1, hs1⟩ := hs.packSection (U.ends obj hmem) n i hsec
        (packSections host stru (packObjectImpl host stru (n + 1)) fuel (i + 1))
      obtain ⟨s2, h2, hs2⟩ := ih hs1 hT' hlen' (by omega) hlt
      refine ⟨s2, ?_, hs2⟩
      rw [if_pos (by omega)]
      simp only [hfind]
      rw [h1, h2]

theorem Keeps.packObject {s : MMPacker A} {T : Ledger A} (hs : Keeps host 0 s T) (n key : Nat)
    {o : Option A} {obj : A} (ho : toMMObject stru o = some obj)
    (hlt : (T.call (.object key (some obj))).size host < 2 ^ 32) :
    ∃ s', packObjectImpl host stru (n + 1) key o s =
        (packSections host stru (packObjectImpl host stru n) n T.order.length >>= fun _ =>
          modify fun s => { s with level := s.level - 1 }) s' ∧
      Keeps host 1 s' (T.call (.object key (some obj))) := by
  have hlen : s.objToId.length = T.order.length := by rw [hs.objToId_eq, List.length_zipIdx]
  obtain ⟨s1, h1, hs1⟩ := (hs.withLevel 1).saveObject obj
  obtain ⟨s2, h2, hs2⟩ := hs1.emit _ hlt
  refine ⟨s2, ?_, hs2⟩
  have hmod : (modify fun s => { s with level := s.level + 1 } : PackM A Unit) s =
      .ok ((), { s with level := 0 + 1 }) := by
    conv_rhs => rw [← hs.level_eq]
    rfl
  rw [packObjectImpl_some ho, bind_ok hmod, get_bind, bind_ok h1, bind_ok h2,
    if_neg (show ¬1 > 1 by omega), hlen]

theorem packObjectImpl_does (U : Universe (accepted stru)) {fuel key : Nat} {s : MMPacker A}
    {T : Ledger A} {o : Option A} (hs : Keeps host 0 s T) (hT : Within U.objects T)
    (hobj : ∀ obj ∈ toMMObject stru o, obj ∈ U.objects) (hfuel : U.objects.card < fuel)
    (hlt : (T.top (accepted stru) fuel (.object key (toMMObject stru o))).size host < 2 ^ 32) :
    ∃ s', packObjectImpl host stru (fuel + 1) key o s = .ok ((), s') ∧
      Keeps host 0 s' (T.top (accepted stru) fuel (.object key (toMMObject stru o))) := by
  cases ho : toMMObject stru o with
  | none => exact ⟨s, by rw [packObjectImpl_none ho]; rfl, hs⟩
  | some obj =>
    rw [ho] at hobj hlt
    obtain ⟨n, rfl⟩ : ∃ n, fuel = n + 1 := ⟨fuel - 1, by omega⟩
    have hcall :=
      ((grows_sections (accepted stru) (n + 1) T.order.length _).size_le host).trans_lt hlt
    obtain ⟨s1, h1, hs1⟩ := hs.packObject (n + 1) key ho hcall
    have hT' : Within U.objects (T.call (.object key (some obj))) :=
      hT.call fun b hb => by
        obtain rfl : b = obj := by simpa [objectsOf] using hb
        exact hobj b rfl
    have hgrow := (grows_call (.object key (some obj)) T).order.length_le
    obtain ⟨s2, h2, hs2⟩ := packSections_does U (n := n) hs1 hT' hgrow (by omega) hlt
    refine ⟨{ s2 with level := 0 }, ?_, hs2.withLevel 0⟩
    rw [h1, bind_ok h2]
    show Except.ok ((), { s2 with level := s2.level - 1 }) = _
    rw [hs2.level_eq]

theorem Within.sections {U : Finset A} {T : Ledger A} (h : Within U T) (hU : Closed stru U)
    (fuel i : Nat) : Within U (T.sections stru fuel i) := by
  induction fuel generalizing i T with
  | zero => exact h
  | succ fuel ih =>
    unfold Ledger.sections
    cases ho : T.order[i]? with
    | none => exact h
    | some obj => exact ih (h.packSection hU (h.mem obj (List.mem_of_getElem? ho)) i) (i + 1)

theorem Within.top {U : Finset A} {T : Ledger A} (h : Within U T) (hU : Closed stru U)
    {c : PackCall A} (hc : ∀ b ∈ objectsOf [c], b ∈ U) (fuel : Nat) :
    Within U (T.top stru fuel c) := by
  unfold Ledger.top
  split
  · exact (h.call hc).sections hU fuel _
  · exact h.call hc

/-- Fuel beyond the size of the universe changes nothing. -/
theorem sections_fuel {U : Finset A} (hU : Closed stru U) {fuel fuel' i : Nat} {T : Ledger A}
    (hT : Within U T) (hi : i ≤ T.order.length) (hfuel : U.card < fuel + i) (hle : fuel ≤ fuel') :
    T.sections stru fuel' i = T.sections stru fuel i := by
  induction fuel generalizing i T fuel' with
  | zero =>
    have := hT.length_le
    omega
  | succ fuel ih =>
    obtain ⟨n, rfl⟩ : ∃ n, fuel' = n + 1 := ⟨fuel' - 1, by omega⟩
    unfold Ledger.sections
    cases ho : T.order[i]? with
    | none => rfl
    | some obj =>
      have hgrow := (grows_packSection (stru obj) i T).order.length_le
      have hlt := (List.getElem?_eq_some_iff.mp ho).1
      exact ih (hT.packSection hU (hT.mem obj (List.mem_of_getElem? ho)) i) (by omega) (by omega)
        (by omega)

theorem top_fuel {U : Finset A} (hU : Closed stru U) {fuel fuel' : Nat} {T : Ledger A}
    {c : PackCall A} (hT : Within U T) (hc : ∀ b ∈ objectsOf [c], b ∈ U) (hfuel : U.card < fuel)
    (hle : fuel ≤ fuel') :
    T.top stru fuel' c = T.top stru fuel c := by
  unfold Ledger.top
  split
  · exact sections_fuel hU (hT.call hc) (grows_call _ T).order.length_le
      (Nat.lt_add_right _ hfuel) hle
  · rfl

theorem run_fuel {U : Finset A} (hU : Closed stru U) {fuel fuel' : Nat} {T : Ledger A}
    {cs : List (PackCall A)} (hT : Within U T) (hobj : ∀ b ∈ objectsOf cs, b ∈ U)
    (hfuel : U.card < fuel) (hle : fuel ≤ fuel') :
    T.run stru fuel' cs = T.run stru fuel cs := by
  induction cs generalizing T with
  | nil => rfl
  | cons c cs ih =>
    rw [objectsOf_cons] at hobj
    have hc : ∀ b ∈ objectsOf [c], b ∈ U := fun b hb => hobj b (List.mem_append_left _ hb)
    rw [Ledger.run, Ledger.run, top_fuel hU hT hc hfuel hle]
    exact ih (hT.top hU hc fuel) fun b hb => hobj b (List.mem_append_right _ hb)

/-- Every sequence of calls on a packer comes to its end, with the tables and records
that the ledger says. -/
theorem packTop_does (U : Universe (accepted stru)) {fuel : Nat} {s : MMPacker A} {T : Ledger A}
    {cs : List (PackCall A)} (hs : Keeps host 0 s T) (hT : Within U.objects T)
    (hcs : Ends (cs.map (acceptedCall stru)))
    (hobj : ∀ b ∈ objectsOf (cs.map (acceptedCall stru)), b ∈ U.objects)
    (hfuel : U.objects.card < fuel)
    (hlt : (T.run (accepted stru) fuel (cs.map (acceptedCall stru))).size host < 2 ^ 32) :
    ∃ s', packTop host stru (fuel + 1) cs s = .ok ((), s') ∧
      Keeps host 0 s' (T.run (accepted stru) fuel (cs.map (acceptedCall stru))) := by
  induction cs generalizing s T with
  | nil => exact ⟨s, rfl, hs⟩
  | cons c cs ih =>
    rw [List.map_cons] at hcs hobj hlt ⊢
    rw [objectsOf_cons] at hobj
    have hc : ∀ b ∈ objectsOf [acceptedCall stru c], b ∈ U.objects :=
      fun b hb => hobj b (List.mem_append_left _ hb)
    have hstep :=
      ((grows_run (accepted stru) fuel (cs.map (acceptedCall stru)) _).size_le host).trans_lt hlt
    have hone : ∃ s', packCall host (packObjectImpl host stru (fuel + 1)) c s = .ok ((), s') ∧
        Keeps host 0 s' (T.top (accepted stru) fuel (acceptedCall stru c)) := by
      cases c with
      | object key o =>
        refine packObjectImpl_does U hs hT (fun obj ho => hc obj ?_) hfuel hstep
        rw [acceptedCall, Option.mem_def.mp ho]
        exact List.mem_singleton_self obj
      | crash f => exact absurd List.mem_cons_self (hcs f)
      | _ => exact hs.emit _ hstep
    obtain ⟨s1, h1, hs1⟩ := hone
    obtain ⟨s2, h2, hs2⟩ := ih hs1 (hT.top U.closed hc fuel)
      (fun f hf => hcs f (List.mem_cons_of_mem _ hf))
      (fun b hb => hobj b (List.mem_append_right _ hb)) hlt
    refine ⟨s2, ?_, hs2⟩
    rw [packTop, packCalls, bind_ok h1]
    exact h2

/-- The same, where every object is an `MMObject`. -/
theorem packTop_does_all (hall : ∀ a, (stru a).isMMObject = true) (U : Universe stru)
    {fuel : Nat} {s : MMPacker A} {T : Ledger A} {cs : List (PackCall A)} (hs : Keeps host 0 s T)
    (hT : Within U.objects T) (hcs : Ends cs) (hobj : ∀ b ∈ objectsOf cs, b ∈ U.objects)
    (hfuel : U.objects.card < fuel) (hlt : (T.run stru fuel cs).size host < 2 ^ 32) :
    ∃ s', packTop host stru (fuel + 1) cs s = .ok ((), s') ∧
      Keeps host 0 s' (T.run stru fuel cs) := by
  have ha := accepted_eq_self hall
  have hc := map_acceptedCall hall cs
  have h := packTop_does ⟨U.objects, by rw [ha]; exact U.closed, by rw [ha]; exact U.ends⟩ hs hT
    (by rwa [hc]) (by rwa [hc]) hfuel (by rwa [hc, ha])
  rwa [hc, ha] at h

end Universe

end LcClibs.Pack.Numbering
