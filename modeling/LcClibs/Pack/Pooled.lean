import Mathlib
import LcClibs.Mmo.Lifecycle
import LcClibs.Pack.Packer

namespace LcClibs.Pack.Pooled

open Platform Lib Lib.Runs Buffer.Cursor Buffer.VarInt
open Memory.Managed Memory.Safety Mmo.Lifecycle Pack.Packer

section Model

/-- `PnI`, which is a block of a pool at `mem`. -/
structure PnI (K : Type) where
  mem : Nat
  p : K
  i : Nat

/-- An `MMPacker` with the memory pools of the program. -/
structure PooledPacker (A : Type) (n : Nat) where
  level : Nat
  objToId : List (PnI A)
  idToObj : List (PnI A)
  classNameToId : List (PnI (List UInt8))
  dyb : Dybuf
  pools : Fin n → Pool

def PooledPacker.records {A : Type} {n : Nat} (s : PooledPacker A n) : List Nat :=
  s.objToId.map PnI.mem ++ s.idToObj.map PnI.mem ++ s.classNameToId.map PnI.mem

abbrev PoolM (A : Type) (n : Nat) (α : Type) := StateT (PooledPacker A n) (Except Stop) α

variable {A : Type} [DecidableEq A] {n : Nat} (host : Host) (malloc : Malloc)

def liveIn (pools : Fin n → Pool) : List Nat := (List.finRange n).flatMap fun i => (pools i).live

def clockOf (pools : Fin n → Pool) : Nat := ((List.finRange n).map fun i => (pools i).clock).sum

/-- The allocator of the platform, which serves all pools. -/
def shared (pools : Fin n → Pool) : Malloc where
  memory _ live size := malloc.memory (clockOf pools) (liveIn pools ++ live) size
  record _ := malloc.record (clockOf pools)
  fresh _ live size a h := by
    obtain ⟨h0, hm⟩ := malloc.fresh _ _ _ _ h
    exact ⟨h0, fun hl => hm (List.mem_append_right _ hl)⟩

def pniSize : Nat := 72

/-- `mgn_mem_alloc` of a record, which is written to without a test for null. -/
def allocPnI (pool : Fin n) : PoolM A n Nat := fun s =>
  match mgnMemAlloc (shared malloc s.pools) (s.pools pool) pniSize with
  | .error e => .error e
  | .ok (none, _) => .error (.fault .nullDeref)
  | .ok (some mem, p) => .ok (mem, { s with pools := Function.update s.pools pool p })

def onDyb {α : Type} (x : DybM α) : PoolM A n α := fun s =>
  match x s.dyb with
  | .ok (a, d) => .ok (a, { s with dyb := d })
  | .error f => .error (.fault f)

def emit (r : Records.Record) : PoolM A n Unit := onDyb (r.append host)

variable (poolOf : A → Fin n) (home : Fin n)

/-- The record of a name is a block of the packer's own pool. -/
def dbSaveObjectName (name : List UInt8) : PoolM A n Nat := do
  let s ← get
  match Table.find PnI.p name s.classNameToId with
  | some e => return e.i
  | none =>
    let mem ← allocPnI malloc home
    let i := s.classNameToId.length
    modify fun s => { s with classNameToId := s.classNameToId ++ [⟨mem, name, i⟩] }
    emit host (.className i name)
    return i

def packNextContextImpl (name : List UInt8) : PoolM A n Unit := do
  let classnameNum ← dbSaveObjectName host malloc home name
  emit host (.context classnameNum)

def packCall (packObject : Nat → Option A → PoolM A n Unit) : PackCall A → PoolM A n Unit
  | .varInt64 key value => emit host (.integer key value)
  | .float key value => emit host (.float key value)
  | .double key value => emit host (.double key value)
  | .data key value => emit host (.raw key value)
  | .array key len => emit host (.array key (uint (len + 1)))
  | .arrayEnd key => emit host (.array key 0)
  | .object key stru => packObject key stru
  | .crash f => throw (.fault f)

def packCalls (packObject : Nat → Option A → PoolM A n Unit) : List (PackCall A) → PoolM A n Unit
  | [] => pure ()
  | c :: calls => do
    packCall host packObject c
    packCalls packObject calls

def packLevels (packObject : Nat → Option A → PoolM A n Unit) : List (Level A) → PoolM A n Unit
  | [] => pure ()
  | l :: levels => do
    match l.pack with
    | none => pure ()
    | some calls =>
      packNextContextImpl host malloc home l.name
      packCalls host packObject calls
    packLevels packObject levels

variable (stru : A → Stru A)

def packSections (packObject : Nat → Option A → PoolM A n Unit) : Nat → Nat → PoolM A n Unit
  | 0, _ => throw .outOfFuel
  | fuel + 1, processing => do
    let s ← get
    if s.idToObj.length > processing then
      match Table.find PnI.i processing s.idToObj with
      | none => return ()
      | some e =>
        let classnameNum ← dbSaveObjectName host malloc home (stru e.p).last.name
        emit host (.object processing classnameNum)
        packLevels host malloc home packObject (stru e.p).levels
        emit host (.objectEnd processing)
        packSections packObject fuel (processing + 1)
    else return ()

/-- The two records of an object are blocks of the object's pool. -/
def saveObject (obj : A) : PoolM A n Nat := do
  let s ← get
  match Table.find PnI.p obj s.objToId with
  | some e => return e.i
  | none =>
    let idx := s.objToId.length
    let mem ← allocPnI malloc (poolOf obj)
    modify fun s => { s with objToId := s.objToId ++ [⟨mem, obj, idx⟩] }
    let mem ← allocPnI malloc (poolOf obj)
    modify fun s => { s with idToObj := s.idToObj ++ [⟨mem, obj, idx⟩] }
    return idx

def packObjectImpl : Nat → Nat → Option A → PoolM A n Unit
  | 0, _, _ => throw .outOfFuel
  | fuel + 1, key, obj =>
    match toMMObject stru obj with
    | none => return ()
    | some obj => do
      modify fun s => { s with level := s.level + 1 }
      let s ← get
      let processing := s.objToId.length
      let num ← saveObject malloc poolOf obj
      emit host (.objectRef key num)
      if s.level > 1 then
        modify fun s => { s with level := s.level - 1 }
      else
        packSections host malloc home stru (packObjectImpl fuel) fuel processing
        modify fun s => { s with level := s.level - 1 }

def packTop (fuel : Nat) (calls : List (PackCall A)) : PoolM A n Unit :=
  packCalls host (packObjectImpl host malloc poolOf home stru fuel) calls

def initMMPacker (pools : Fin n → Pool) : Except Stop (PooledPacker A n) := do
  let p ← emit host (.version Records.packerVersionV1)
    { level := 0, objToId := [], idToObj := [], classNameToId := [], dyb := dybCreate 64,
      pools := pools }
  return p.2

/-- A block that a pool is asked to release, and whether it owns the block. -/
structure Ask (n : Nat) where
  pool : Fin n
  mem : Nat
  owned : Bool

structure Releasing (n : Nat) where
  pools : Fin n → Pool
  asked : List (Ask n)

def release (pool : Fin n) (mem : Nat) (w : Releasing n) : Except Stop (Releasing n) := do
  let p ← mgnMemRelease (w.pools pool) mem
  return {
    pools := Function.update w.pools pool p
    asked := w.asked ++ [⟨pool, mem, ((w.pools pool).find mem).isSome⟩] }

/-- The three loops over the tables all use the packer's own pool. -/
def destroyMMPacker (s : PooledPacker A n) : Except Stop (Releasing n) := do
  let w ← s.objToId.foldlM (fun w e => release home e.mem w) ⟨s.pools, []⟩
  let w ← s.idToObj.foldlM (fun w e => release home e.mem w) w
  s.classNameToId.foldlM (fun w e => release home e.mem w) w

end Model

section Allocation

variable {A : Type} {n : Nat} {malloc : Malloc} {poolOf : A → Fin n} {home : Fin n}
  {pools base : Fin n → Pool} {s s' : PooledPacker A n}

structure Apart (pools : Fin n → Pool) : Prop where
  inv : ∀ i, Inv ∅ (pools i)
  disjoint : ∀ i j, i ≠ j → (pools i).live.Disjoint (pools j).live

theorem mem_liveIn {mem : Nat} : mem ∈ liveIn pools ↔ ∃ i, mem ∈ (pools i).live := by
  simp [liveIn]

theorem Apart.eq_of_live (h : Apart pools) {i j : Fin n} {mem : Nat} (hi : mem ∈ (pools i).live)
    (hj : mem ∈ (pools j).live) : i = j :=
  by_contra fun hne => h.disjoint i j hne hi hj

theorem Apart.update (h : Apart pools) {i : Fin n} {mem : Nat} {p : Pool} (hp : Inv ∅ p)
    (hlive : p.live = (pools i).live ++ [mem]) (hmem : mem ∉ liveIn pools) :
    Apart (Function.update pools i p) := by
  have hnew : ∀ j, mem ∉ (pools j).live := fun j hj => hmem (mem_liveIn.mpr ⟨j, hj⟩)
  have hother : ∀ j ≠ i, p.live.Disjoint (pools j).live := fun j hj m hm hmj => by
    rw [hlive, List.mem_append, List.mem_singleton] at hm
    obtain hm | rfl := hm
    · exact h.disjoint j i hj hmj hm
    · exact hnew j hmj
  refine ⟨fun j => ?_, fun j k hjk => ?_⟩
  · by_cases hj : j = i
    · rw [hj, Function.update_self]
      exact hp
    · rw [Function.update_of_ne hj]
      exact h.inv j
  · by_cases hj : j = i
    · rw [hj, Function.update_self, Function.update_of_ne (fun hk => hjk (hj.trans hk.symm))]
      exact hother k fun hk => hjk (hj.trans hk.symm)
    · rw [Function.update_of_ne hj]
      by_cases hk : k = i
      · rw [hk, Function.update_self]
        exact (hother j hj).symm
      · rw [Function.update_of_ne hk]
        exact h.disjoint j k hjk

def held (poolOf : A → Fin n) (home : Fin n) (s : PooledPacker A n) : List (Fin n × Nat) :=
  s.objToId.map (fun e => (poolOf e.p, e.mem)) ++ s.idToObj.map (fun e => (poolOf e.p, e.mem)) ++
    s.classNameToId.map fun e => (home, e.mem)

def heldIn (poolOf : A → Fin n) (home : Fin n) (s : PooledPacker A n) (i : Fin n) : List Nat :=
  ((held poolOf home s).filter fun b => b.1 = i).map Prod.snd

/-- The pools have the blocks of before and the records of the packer. -/
structure Holding (poolOf : A → Fin n) (home : Fin n) (base : Fin n → Pool)
    (s : PooledPacker A n) : Prop where
  apart : Apart s.pools
  records : ∀ i, ∃ es, (s.pools i).records = (base i).records ++ es ∧ (∀ e ∈ es, e.r = 1) ∧
    (es.map Record.m).Perm (heldIn poolOf home s i)

theorem heldIn_perm {i j : Fin n} {mem : Nat}
    (h : (held poolOf home s').Perm ((i, mem) :: held poolOf home s)) :
    (heldIn poolOf home s' j).Perm
      ((if i = j then [mem] else []) ++ heldIn poolOf home s j) := by
  have hf := (h.filter fun b => b.1 = j).map Prod.snd
  rw [List.filter_cons] at hf
  by_cases hij : i = j
  · rw [if_pos hij]
    simpa [hij, heldIn] using hf
  · rw [if_neg hij]
    simpa [hij, heldIn] using hf

theorem records_eq (poolOf : A → Fin n) (home : Fin n) (s : PooledPacker A n) :
    s.records = (held poolOf home s).map Prod.snd := by
  simp only [PooledPacker.records, held, List.map_append, List.map_map]
  rfl

theorem mem_heldIn {i : Fin n} {mem : Nat} :
    mem ∈ heldIn poolOf home s i ↔ (i, mem) ∈ held poolOf home s := by
  simp [heldIn]

theorem Holding.live {i : Fin n} {mem : Nat} (h : Holding poolOf home base s)
    (hb : (i, mem) ∈ held poolOf home s) : mem ∈ (s.pools i).live := by
  obtain ⟨es, hes, -, hperm⟩ := h.records i
  rw [Pool.live, hes, List.map_append]
  exact List.mem_append_right _ (hperm.mem_iff.mpr (mem_heldIn.mpr hb))

theorem Holding.notMem_base {i : Fin n} {mem : Nat} (h : Holding poolOf home base s)
    (hb : (i, mem) ∈ held poolOf home s) : mem ∉ (base i).live := by
  obtain ⟨es, hes, -, hperm⟩ := h.records i
  have hlive := (h.apart.inv i).live_nodup
  rw [Pool.live, hes, List.map_append] at hlive
  exact fun hm => List.disjoint_of_nodup_append hlive hm (hperm.mem_iff.mpr (mem_heldIn.mpr hb))

theorem Holding.none_held {i : Fin n} (h : Holding poolOf home base s)
    (hlen : (s.pools i).records.length = (base i).records.length) (mem : Nat) :
    (i, mem) ∉ held poolOf home s := by
  obtain ⟨es, hes, -, hperm⟩ := h.records i
  rw [hes, List.length_append] at hlen
  obtain rfl : es = [] := List.length_eq_zero_iff.mp (by omega)
  exact fun hb => absurd (hperm.mem_iff.mpr (mem_heldIn.mpr hb)) List.not_mem_nil

theorem Holding.records_nodup (h : Holding poolOf home base s) : s.records.Nodup := by
  rw [records_eq poolOf home]
  refine List.Nodup.map_on (fun b hb c hc he => ?_) (List.nodup_iff_count_le_one.mpr fun b => ?_)
  · have hc' := h.live hc
    rw [← he] at hc'
    exact Prod.ext (h.apart.eq_of_live (h.live hb) hc') he
  · obtain ⟨es, hes, -, hperm⟩ := h.records b.1
    have hlive := (h.apart.inv b.1).live_nodup
    rw [Pool.live, hes, List.map_append] at hlive
    have hfilter : ((held poolOf home s).filter fun c => c.1 = b.1).Nodup :=
      (hperm.nodup_iff.mp hlive.of_append_right).of_map _
    rw [← List.count_filter (p := fun c => decide (c.1 = b.1)) (by simp)]
    exact List.nodup_iff_count_le_one.mp hfilter b

theorem Holding.mem_held (h : Holding poolOf home base s) {i : Fin n} {mem : Nat}
    (hlive : mem ∈ (s.pools i).live) (hmem : mem ∈ s.records) : (i, mem) ∈ held poolOf home s := by
  rw [records_eq poolOf home] at hmem
  obtain ⟨b, hb, rfl⟩ := List.mem_map.mp hmem
  rw [h.apart.eq_of_live hlive (h.live hb)]
  exact hb

theorem serves_shared (pools : Fin n → Pool) (h : Serves malloc) : Serves (shared malloc pools) :=
  ⟨fun _ _ _ => h.1 _ _ _, fun _ => h.2 _⟩

/-- A record is given, to be entered in one of the tables, or else the allocator has failed. -/
theorem Holding.alloc (hs : Holding poolOf home base s) (malloc : Malloc) (i : Fin n) :
    (∃ e, allocPnI malloc i s = .error e ∧ ¬Serves malloc) ∨
    ∃ mem p, allocPnI malloc i s = .ok (mem, { s with pools := Function.update s.pools i p }) ∧
      ∀ s', s'.pools = Function.update s.pools i p →
        (held poolOf home s').Perm ((i, mem) :: held poolOf home s) →
        Holding poolOf home base s' := by
  have hi := hs.apart.inv i
  obtain ⟨⟨r, p⟩, hrun, hinv⟩ : ∃ r, mgnMemAlloc (shared malloc s.pools) (s.pools i) pniSize =
      .ok r ∧ Inv ∅ r.2 := mgnMemAlloc_inv pniSize hi
  obtain ⟨rfl, hno⟩ | ⟨mem, bytes, rfl, hmem, hrec⟩ := mgnMemAlloc_answer hi hrun
  · refine Or.inl ⟨.fault .nullDeref, by simp only [allocPnI, hrun], fun hserves => ?_⟩
    obtain ⟨hsome, hrecord⟩ := serves_shared s.pools hserves
    obtain h0 | hr | hm := hno
    · cases h0
    · rw [hrecord] at hr
      cases hr
    · have := hsome (s.pools i).clock (s.pools i).live (uint pniSize)
      rw [hm] at this
      cases this
  · refine Or.inr ⟨mem, p, by simp only [allocPnI, hrun], fun s' hpools hheld => ?_⟩
    have hfresh : mem ∉ liveIn s.pools := fun hl =>
      (malloc.fresh _ _ _ _ hmem).2 (List.mem_append_left _ hl)
    have hlive : p.live = (s.pools i).live ++ [mem] := by
      rw [Pool.live, hrec, List.map_append]
      rfl
    refine ⟨hpools ▸ hs.apart.update hinv hlive hfresh, fun j => ?_⟩
    obtain ⟨es, hes, h1, hperm⟩ := hs.records j
    have hp := heldIn_perm (j := j) hheld
    by_cases hij : i = j
    · subst hij
      rw [if_pos rfl] at hp
      refine ⟨es ++ [newRecord (s.pools i).clock mem pniSize bytes], ?_, fun e he => ?_, ?_⟩
      · rw [hpools, Function.update_self, hrec, hes, List.append_assoc]
      · obtain he | he := List.mem_append.mp he
        · exact h1 e he
        · rw [List.mem_singleton.mp he]
          rfl
      · rw [List.map_append]
        exact (List.perm_append_comm.trans (hperm.append_left [mem])).trans hp.symm
    · rw [if_neg hij, List.nil_append] at hp
      refine ⟨es, ?_, h1, hperm.trans hp.symm⟩
      rw [hpools, Function.update_of_ne (Ne.symm hij), hes]

end Allocation

section Simulation

variable {A : Type} {n : Nat} {host : Host} {malloc : Malloc} {poolOf : A → Fin n} {home : Fin n}
  {base : Fin n → Pool} {s : PooledPacker A n} {α β : Type}

def forget (s : PooledPacker A n) : MMPacker A where
  level := s.level
  objToId := s.objToId.map fun e => (e.p, e.i)
  idToObj := s.idToObj.map fun e => (e.i, e.p)
  classNameToId := s.classNameToId.map fun e => (e.p, e.i)
  dyb := s.dyb

/-- From this state on a computation does what it does without the pools, unless the
allocator fails. -/
def Tracks (malloc : Malloc) (poolOf : A → Fin n) (home : Fin n) (base : Fin n → Pool)
    (s : PooledPacker A n) (x' : PoolM A n α) (x : PackM A α) : Prop :=
  (∃ e, x' s = .error e ∧ (Serves malloc → ∃ e', x (forget s) = .error e')) ∨
  ∃ a s', x' s = .ok (a, s') ∧ x (forget s) = .ok (a, forget s') ∧ Holding poolOf home base s'

theorem Tracks.bind {x' : PoolM A n α} {x : PackM A α} {f' : α → PoolM A n β} {f : α → PackM A β}
    (hx : Tracks malloc poolOf home base s x' x)
    (hf : ∀ a s', Holding poolOf home base s' →
      Tracks malloc poolOf home base s' (f' a) (f a)) :
    Tracks malloc poolOf home base s (x' >>= f') (x >>= f) := by
  obtain ⟨e, h, herr⟩ | ⟨a, s', h', h, hs'⟩ := hx
  · refine Or.inl ⟨e, step_error h, fun hserves => ?_⟩
    obtain ⟨e', he'⟩ := herr hserves
    exact ⟨e', step_error he'⟩
  · obtain ⟨e, h2, herr⟩ | ⟨b, s2, h2', h2, hs2⟩ := hf a s' hs'
    · refine Or.inl ⟨e, (step_ok h').trans h2, fun hserves => ?_⟩
      obtain ⟨e', he'⟩ := herr hserves
      exact ⟨e', (step_ok h).trans he'⟩
    · exact Or.inr ⟨b, s2, (step_ok h').trans h2', (step_ok h).trans h2, hs2⟩

theorem Tracks.pure (hs : Holding poolOf home base s) (a : α) :
    Tracks malloc poolOf home base s (Pure.pure a) (Pure.pure a) :=
  Or.inr ⟨a, s, rfl, rfl, hs⟩

theorem Tracks.throw (e : Stop) (e' : Records.Stop) :
    Tracks malloc poolOf home base s (throw e : PoolM A n α) (throw e') :=
  Or.inl ⟨e, rfl, fun _ => ⟨e', rfl⟩⟩

theorem Holding.of_tables {s' : PooledPacker A n} (hs : Holding poolOf home base s)
    (hp : s'.pools = s.pools) (hh : held poolOf home s' = held poolOf home s) :
    Holding poolOf home base s' where
  apart := hp ▸ hs.apart
  records i := by
    rw [hp, heldIn, hh]
    exact hs.records i

theorem Tracks.level (hs : Holding poolOf home base s) (g : Nat → Nat) :
    Tracks malloc poolOf home base s (modify fun s => { s with level := g s.level })
      (modify fun s => { s with level := g s.level }) :=
  Or.inr ⟨⟨⟩, { s with level := g s.level }, rfl, rfl, hs.of_tables rfl rfl⟩

theorem emit_tracks (hs : Holding poolOf home base s) (r : Records.Record) :
    Tracks malloc poolOf home base s (emit host r) (Packer.emit host r) := by
  cases h : r.append host s.dyb with
  | error f =>
    refine Or.inl ⟨.fault f, ?_, fun _ => ⟨.fault f, ?_⟩⟩
    · rw [emit, onDyb, h]
    · rw [Packer.emit, Packer.onDyb, forget, h]
  | ok p =>
    refine Or.inr ⟨p.1, { s with dyb := p.2 }, ?_, ?_, hs.of_tables rfl rfl⟩
    · rw [emit, onDyb, h]
    · rw [Packer.emit, Packer.onDyb, forget, h]
      rfl

theorem Tracks.enter (malloc : Malloc) (hs : Holding poolOf home base s) (i : Fin n)
    {k : Nat → PooledPacker A n → PooledPacker A n} {g : MMPacker A → MMPacker A}
    {f' : PoolM A n α} {f : PackM A α} (hpools : ∀ mem s, (k mem s).pools = s.pools)
    (hheld : ∀ mem s, (held poolOf home (k mem s)).Perm ((i, mem) :: held poolOf home s))
    (hforget : ∀ mem s, forget (k mem s) = g (forget s))
    (hf : ∀ s', Holding poolOf home base s' → Tracks malloc poolOf home base s' f' f) :
    Tracks malloc poolOf home base s
      (do let mem ← allocPnI malloc i; modify (k mem); f') (do modify g; f) := by
  obtain ⟨e, h, hno⟩ | ⟨mem, p, h, hadd⟩ := hs.alloc malloc i
  · exact Or.inl ⟨e, step_error h, fun hserves => absurd hserves hno⟩
  · have hnew := hadd (k mem { s with pools := Function.update s.pools i p }) (hpools mem _)
      (hheld mem _)
    have hrun := hf _ hnew
    rw [Tracks, hforget] at hrun
    rw [Tracks, step_ok h]
    exact hrun

theorem find_idToObj (i : Nat) :
    Table.find Prod.fst i (forget s).idToObj =
      (Table.find PnI.i i s.idToObj).map fun e => (e.i, e.p) :=
  Table.find_map (fun e : PnI A => (e.i, e.p)) (fun _ => rfl) i s.idToObj

theorem find_classNameToId (name : List UInt8) :
    Table.find Prod.fst name (forget s).classNameToId =
      (Table.find PnI.p name s.classNameToId).map fun e => (e.p, e.i) :=
  Table.find_map (fun e : PnI (List UInt8) => (e.p, e.i)) (fun _ => rfl) name s.classNameToId

theorem dbSaveObjectName_tracks (hs : Holding poolOf home base s) (name : List UInt8) :
    Tracks malloc poolOf home base s (dbSaveObjectName host malloc home name)
      (Packer.dbSaveObjectName host name) := by
  rw [Tracks, dbSaveObjectName, Packer.dbSaveObjectName, step_get, step_get, find_classNameToId]
  cases Table.find PnI.p name s.classNameToId with
  | some e => exact Tracks.pure hs e.i
  | none =>
    have hlen : (forget s).classNameToId.length = s.classNameToId.length := List.length_map _
    have hrest : ∀ s', Holding poolOf home base s' → Tracks malloc poolOf home base s'
        (do emit host (.className s.classNameToId.length name); return s.classNameToId.length)
        (do Packer.emit host (.className s.classNameToId.length name)
            return s.classNameToId.length) :=
      fun s' hs' => (emit_tracks hs' _).bind fun _ _ hs2 => Tracks.pure hs2 _
    have hrun := Tracks.enter malloc hs home
      (k := fun mem t => { t with
        classNameToId := t.classNameToId ++ [⟨mem, name, s.classNameToId.length⟩] })
      (g := fun t => { t with
        classNameToId := t.classNameToId ++ [(name, s.classNameToId.length)] })
      (fun _ _ => rfl) (fun mem t => ?_) (fun mem t => ?_) hrest
    · simp only [Option.map_none, hlen]
      exact hrun
    · simp only [held, List.map_append, List.map_singleton, ← List.append_assoc]
      exact List.perm_append_singleton _ _
    · simp only [forget, List.map_append, List.map_singleton]

theorem packNextContextImpl_tracks (hs : Holding poolOf home base s) (name : List UInt8) :
    Tracks malloc poolOf home base s (packNextContextImpl host malloc home name)
      (Packer.packNextContextImpl host name) :=
  (dbSaveObjectName_tracks hs name).bind fun classnameNum _ hs' =>
    emit_tracks hs' (.context classnameNum)

section Calls

variable {packObject' : Nat → Option A → PoolM A n Unit}
  {packObject : Nat → Option A → PackM A Unit}
  (hp : ∀ key obj s, Holding poolOf home base s →
    Tracks malloc poolOf home base s (packObject' key obj) (packObject key obj))

include hp

theorem packCall_tracks (hs : Holding poolOf home base s) (c : PackCall A) :
    Tracks malloc poolOf home base s (packCall host packObject' c)
      (Packer.packCall host packObject c) := by
  cases c with
  | object key stru => exact hp key stru s hs
  | crash f => exact Tracks.throw (.fault f) (.fault f)
  | _ => exact emit_tracks hs _

theorem packCalls_tracks (hs : Holding poolOf home base s) (cs : List (PackCall A)) :
    Tracks malloc poolOf home base s (packCalls host packObject' cs)
      (Packer.packCalls host packObject cs) := by
  induction cs generalizing s with
  | nil => exact Tracks.pure hs ()
  | cons c cs ih => exact (packCall_tracks hp hs c).bind fun _ _ hs' => ih hs'

theorem packLevels_tracks (hs : Holding poolOf home base s) (ls : List (Level A)) :
    Tracks malloc poolOf home base s (packLevels host malloc home packObject' ls)
      (Packer.packLevels host packObject ls) := by
  induction ls generalizing s with
  | nil => exact Tracks.pure hs ()
  | cons l ls ih =>
    rw [packLevels, Packer.packLevels]
    cases l.pack with
    | none => exact ih hs
    | some calls =>
      exact (packNextContextImpl_tracks hs l.name).bind fun _ _ hs1 =>
        (packCalls_tracks hp hs1 calls).bind fun _ _ hs2 => ih hs2

theorem packSections_tracks (stru : A → Stru A) (hs : Holding poolOf home base s)
    (fuel processing : Nat) :
    Tracks malloc poolOf home base s
      (packSections host malloc home stru packObject' fuel processing)
      (Packer.packSections host stru packObject fuel processing) := by
  induction fuel generalizing s processing with
  | zero => exact Tracks.throw .outOfFuel .fuel
  | succ fuel ih =>
    have hlen : (forget s).idToObj.length = s.idToObj.length := List.length_map _
    rw [Tracks, packSections, Packer.packSections, step_get, step_get, find_idToObj, hlen]
    by_cases hlt : s.idToObj.length > processing
    · rw [if_pos hlt, if_pos hlt]
      cases Table.find PnI.i processing s.idToObj with
      | none => exact Tracks.pure hs ()
      | some e =>
        exact (dbSaveObjectName_tracks hs _).bind fun num _ hs1 =>
          (emit_tracks hs1 (.object processing num)).bind fun _ _ hs2 =>
          (packLevels_tracks hp hs2 _).bind fun _ _ hs3 =>
          (emit_tracks hs3 (.objectEnd processing)).bind fun _ _ hs4 => ih hs4 (processing + 1)
    · rw [if_neg hlt, if_neg hlt]
      exact Tracks.pure hs ()

end Calls

variable [DecidableEq A]

theorem find_objToId (obj : A) :
    Table.find Prod.fst obj (forget s).objToId =
      (Table.find PnI.p obj s.objToId).map fun e => (e.p, e.i) :=
  Table.find_map (fun e : PnI A => (e.p, e.i)) (fun _ => rfl) obj s.objToId

theorem saveObject_tracks (hs : Holding poolOf home base s) (obj : A) :
    Tracks malloc poolOf home base s (saveObject malloc poolOf obj) (Packer.saveObject obj) := by
  rw [Tracks, saveObject, Packer.saveObject, step_get, step_get, find_objToId]
  cases Table.find PnI.p obj s.objToId with
  | some e => exact Tracks.pure hs e.i
  | none =>
    have hlen : (forget s).objToId.length = s.objToId.length := List.length_map _
    have hrun := Tracks.enter malloc hs (poolOf obj)
      (k := fun mem t => { t with objToId := t.objToId ++ [⟨mem, obj, s.objToId.length⟩] })
      (g := fun t => { t with objToId := t.objToId ++ [(obj, s.objToId.length)] })
      (fun _ _ => rfl) (fun mem t => ?_) (fun mem t => ?_)
      fun s' hs' => Tracks.enter malloc hs' (poolOf obj)
        (k := fun mem t => { t with idToObj := t.idToObj ++ [⟨mem, obj, s.objToId.length⟩] })
        (g := fun t => { t with idToObj := t.idToObj ++ [(s.objToId.length, obj)] })
        (fun _ _ => rfl) (fun mem t => ?_) (fun mem t => ?_)
        fun s' hs' => Tracks.pure hs' s.objToId.length
    · simp only [Option.map_none, hlen]
      exact hrun
    · simp only [held, List.map_append, List.map_singleton, List.append_assoc,
        List.singleton_append]
      exact List.perm_middle
    · simp only [forget, List.map_append, List.map_singleton]
    · simp only [held, List.map_append, List.map_singleton, List.append_assoc,
        List.singleton_append]
      rw [← List.append_assoc, ← List.append_assoc]
      exact List.perm_middle
    · simp only [forget, List.map_append, List.map_singleton]

theorem packObjectImpl_tracks (stru : A → Stru A) (hs : Holding poolOf home base s)
    (fuel key : Nat) (obj : Option A) :
    Tracks malloc poolOf home base s (packObjectImpl host malloc poolOf home stru fuel key obj)
      (Packer.packObjectImpl host stru fuel key obj) := by
  induction fuel generalizing s key obj with
  | zero => exact Tracks.throw .outOfFuel .fuel
  | succ fuel ih =>
    rw [packObjectImpl, Packer.packObjectImpl]
    cases toMMObject stru obj with
    | none => exact Tracks.pure hs ()
    | some obj =>
      refine (Tracks.level hs (· + 1)).bind fun _ s1 hs1 => ?_
      have hlen : (forget s1).objToId.length = s1.objToId.length := List.length_map _
      have hlevel : (forget s1).level = s1.level := rfl
      rw [Tracks, step_get, step_get, hlen, hlevel]
      refine (saveObject_tracks hs1 obj).bind fun num s2 hs2 =>
        (emit_tracks hs2 (.objectRef key num)).bind fun _ s3 hs3 => ?_
      by_cases hl : s1.level > 1
      · rw [if_pos hl, if_pos hl]
        exact Tracks.level hs3 (· - 1)
      · rw [if_neg hl, if_neg hl]
        exact (packSections_tracks (fun key obj s hs => ih hs key obj) stru hs3 fuel _).bind
          fun _ s4 hs4 => Tracks.level hs4 (· - 1)

/-- The packer with pools does what the packer does, unless the allocator fails. -/
theorem packTop_tracks (stru : A → Stru A) (hs : Holding poolOf home base s) (fuel : Nat)
    (calls : List (PackCall A)) :
    Tracks malloc poolOf home base s (packTop host malloc poolOf home stru fuel calls)
      (Packer.packTop host stru fuel calls) :=
  packCalls_tracks (fun key obj _ hs => packObjectImpl_tracks stru hs fuel key obj) hs calls

end Simulation

end LcClibs.Pack.Pooled
