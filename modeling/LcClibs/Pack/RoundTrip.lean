import Mathlib
import LcClibs.Pack.Rebuild

namespace LcClibs.Pack.RoundTrip

open Platform Lib Lib.Runs Buffer.VarInt Mmo.Object Mmo.Map
open Pack.Records Pack.Packer Pack.Classes Pack.Numbering Pack.Numbering.Ledger Pack.Tables
open Pack.Process (Gen MMUnpacker intKey process allocMMUnpackerWithData)
open Pack.Unpacker Pack.Inits Pack.Mirror Pack.Rebuild

section Calls

/-- A call on a packer from outside: `pack_varint` or `pack_mmobj`. -/
inductive TopCall
  | varInt64 (key : Nat) (value : Int)
  | object (key : Nat) (stru : Option Addr)
  deriving DecidableEq, Repr

def TopCall.key : TopCall → Nat
  | .varInt64 key _ | .object key _ => key

def TopCall.pack : TopCall → PackCall Addr
  | .varInt64 key value => .varInt64 key value
  | .object key stru => .object key stru

inductive Answer
  | integer (value : Int)
  | object (stru : Option Addr)
  deriving DecidableEq, Repr

variable (host : Host) (rounds nesting : Nat) (allocators : Allocators Heap)

/-- `unpack_varint` or `unpack_mmobj` of the key that a call has used. -/
def unpackKey : TopCall → UnpackM Heap Answer
  | .varInt64 key _ => do
    return .integer (← unpackVarInt64Impl host rounds key)
  | .object key _ => do
    return .object (← unpackObjectImpl host rounds allocators nesting key)

def unpackKeys : List TopCall → UnpackM Heap (List Answer)
  | [] => return []
  | c :: calls => do
    let answer ← unpackKey host rounds nesting allocators c
    return answer :: (← unpackKeys calls)

end Calls

section Specification

/-- A relation between the objects of two memories that is one to one, and by which related
objects are alike. -/
structure Isomorphic (heap heap' : Heap) (R : Addr → Addr → Prop) : Prop where
  one_to_one : ∀ a b a' b', R a b → R a' b' → (a = a' ↔ b = b')
  alike : ∀ a b, R a b → ∃ x y, heap[a]? = some x ∧ heap'[b]? = some y ∧ Alike R x y

/-- The answer is the integer, or the object, that the call has packed. -/
def Answers (R : Addr → Addr → Prop) : TopCall → Answer → Prop
  | .varInt64 _ value, .integer v => v = value
  | .object _ stru, .object obj => Option.Rel R stru obj
  | _, _ => False

variable (host : Host)

/-- The bytes are parsed to their end, and the keys of the calls, in any order and any number
of times, give a graph like the packed one. Whatever is in the memory before stays. -/
def UnpacksTo (heap : Heap) (calls : List TopCall) (bytes : List UInt8)
    (memory : (Heap → Nat) → Heap → Prop) : Prop :=
  ∃ u, allocMMUnpackerWithData (some bytes) bytes.length = some u ∧
    ∃ enough, ∀ rounds nesting, enough ≤ rounds → enough ≤ nesting →
      (∃ root parsed, process host rounds u = .ok (true, parsed) ∧
        parsed.roots = some root ∧ parsed.stack = [root]) ∧
      ∀ alloc float double mapItem start asked, memory alloc start → asked ⊆ calls →
        ∃ answers s R, unpackKeys host rounds nesting
            (registerAllMmoExtToUnpacker host alloc float double mapItem) asked
            (unpackingOf u start) = .ok (answers, s) ∧
          start <+: s.heap ∧ Isomorphic heap s.heap R ∧ List.Forall₂ (Answers R) asked answers

/-- A new packer takes the calls, and what it has packed is unpacked. -/
def RoundTrips (heap : Heap) (calls : List TopCall) (memory : (Heap → Nat) → Heap → Prop) : Prop :=
  ∃ s0, initMMPacker host = .ok s0 ∧ ∃ enough, ∀ fuel, enough ≤ fuel →
    ∃ s, packTop host (heapStru heap) fuel (calls.map TopCall.pack) s0 = .ok ((), s) ∧
      UnpacksTo host heap calls (s.dyb.data.take s.dyb.position) memory

def Packs (heap : Heap) (calls : List TopCall) : Addr → Prop :=
  Reach (heapStru heap) (objectsOf (calls.map TopCall.pack))

def written (heap : Heap) (calls : List TopCall) : Ledger Addr :=
  (Ledger.start : Ledger Addr).run (heapStru heap) (heap.length + 1) (calls.map TopCall.pack)

/-- Calls under distinct keys that lead to fewer than 2^20 objects, each such as its class can
have, and whose packed bytes can be counted. -/
structure Sent (heap : Heap) (calls : List TopCall) : Prop where
  keys : ∀ c ∈ calls, c.key ≤ 0xFFFFF
  distinct : (calls.map TopCall.key).Nodup
  values : ∀ key value, .varInt64 key value ∈ calls → IsInt64 value
  graph : ∀ a, Packs heap calls a → ∃ x, heap[a]? = some x ∧ Wellformed host heap x
  objects : {a | Packs heap calls a}.ncard < 2 ^ 20
  bytes : (written heap calls).size host < 2 ^ 32

end Specification

section Packing

variable {host : Host} {heap : Heap} {calls : List TopCall} {a : Addr} {x : Node}

theorem present_of_wellformed (h : Wellformed host heap x) : Present x := by
  cases x with
  | mmString value =>
    obtain ⟨x, rfl, -⟩ := h
    rfl
  | mmList items => exact h
  | _ => trivial

theorem callFits_packNode (h : Wellformed host heap x) : ∀ c ∈ packNode x, CallFits c := by
  cases x with
  | mmInt value =>
    intro c hc
    obtain rfl := List.mem_singleton.mp hc
    obtain ⟨hlo, hhi⟩ : -2 ^ 31 ≤ value ∧ value < 2 ^ 31 := h
    exact ⟨Nat.zero_le _, by unfold IsInt64; omega⟩
  | mmLong value =>
    intro c hc
    obtain rfl := List.mem_singleton.mp hc
    exact ⟨Nat.zero_le _, h⟩
  | mmString value =>
    obtain ⟨x, rfl, -⟩ := h
    intro c hc
    obtain rfl := List.mem_singleton.mp hc
    exact ⟨Nat.zero_le _, (List.length_take_le _ _).trans_lt (uint_lt _)⟩
  | mmData data =>
    intro c hc
    obtain rfl := List.mem_singleton.mp hc
    refine ⟨Nat.zero_le _, ?_⟩
    cases data with
    | none => decide
    | some x => exact h x rfl
  | mmMap sorted items =>
    intro c hc
    simp only [packNode, packMMMap, List.mem_cons, List.mem_append, List.mem_flatMap,
      packMMMapItem, List.not_mem_nil, or_false] at hc
    obtain rfl | rfl | ⟨i, -, rfl | rfl⟩ | rfl := hc
    · exact ⟨Nat.zero_le _, by unfold IsInt64; cases sorted <;> decide⟩
    all_goals exact show _ ≤ 0xFFFFF by decide
  | mmList items =>
    intro c hc
    simp only [packNode, packMMList, List.mem_cons, List.mem_append, List.mem_map,
      List.not_mem_nil, or_false] at hc
    obtain rfl | ⟨_ | o, -, rfl⟩ | rfl := hc
    · exact Nat.zero_le _
    · trivial
    all_goals exact Nat.zero_le _

theorem pack_superLevels (c : Mmo.Object.Class) : ∀ l ∈ superLevels c, l.pack = none := by
  cases c <;> decide

theorem children_nodeStru (x : Node) : children (nodeStru x) = objectsOf (packNode x) := by
  have hsuper : (superLevels x.cls).flatMap (fun l => (l.pack.map objectsOf).getD []) = [] := by
    rw [List.flatMap_eq_nil_iff]
    intro l hl
    rw [pack_superLevels _ l hl]
    rfl
  rw [children, Stru.levels, nodeStru, List.flatMap_append, hsuper]
  exact List.append_nil _

theorem savedNames_nodeStru (x : Node) : savedNames (nodeStru x) = [x.cls.name, x.cls.name] := by
  have hsuper : (superLevels x.cls).filter (fun l => l.pack.isSome) = [] := by
    rw [List.filter_eq_nil_iff]
    intro l hl
    rw [pack_superLevels _ l hl]
    exact Bool.false_ne_true
  rw [savedNames, Stru.levels, nodeStru, List.filter_append, hsuper]
  rfl

theorem calls_nodeStru (h : Wellformed host heap x) :
    ∀ l ∈ (nodeStru x).levels, ∀ cs ∈ l.pack, ∀ c ∈ cs, CallFits c := by
  intro l hl cs hcs
  obtain hl | hl := List.mem_append.mp hl
  · rw [pack_superLevels _ l hl] at hcs
    cases hcs
  · obtain rfl := List.mem_singleton.mp hl
    obtain rfl := Option.mem_some.mp hcs
    exact callFits_packNode h

theorem ref_mem_children (hx : Present x) {key : Nat} {refs : List (Nat × Addr)}
    (hs : .array key refs ∈ slots x) {r : Nat × Addr} (hr : r ∈ refs) :
    r.2 ∈ children (nodeStru x) := by
  rw [children_nodeStru, packNode_eq hx, objectsOf]
  refine List.mem_filterMap.mpr ⟨.object r.1 (some r.2), ?_, rfl⟩
  refine List.mem_flatMap.mpr ⟨_, hs, List.mem_cons_of_mem _ (List.mem_append_left _ ?_)⟩
  exact List.mem_map_of_mem hr

def classNames : List (List UInt8) :=
  [Mmo.Object.Class.mmInt, .mmLong, .mmString, .mmData, .mmMap, .mmList].map
    Mmo.Object.Class.name

theorem name_mem_classNames (c : Mmo.Object.Class) : c.name ∈ classNames := by
  cases c <;> simp [classNames]

theorem Sent.finite (h : Sent host heap calls) : {a | Packs heap calls a}.Finite := by
  refine (Set.finite_lt_nat heap.length).subset fun a ha => ?_
  obtain ⟨x, hx, -⟩ := h.graph a ha
  exact (List.getElem?_eq_some_iff.mp hx).1

theorem Sent.names (h : Sent host heap calls) :
    reachNames (heapStru heap) (objectsOf (calls.map TopCall.pack)) ⊆
      {name | name ∈ classNames} := by
  rintro name ⟨a, ha, hn⟩
  obtain ⟨x, hx, -⟩ := h.graph a ha
  rw [heapStru_eq hx, savedNames_nodeStru] at hn
  obtain rfl : name = x.cls.name := by simpa using hn
  exact name_mem_classNames _

theorem Sent.universe (h : Sent host heap calls) :
    ∃ (U : Universe (heapStru heap)) (N : Finset (List UInt8)), Room U N ∧
      (∀ a, a ∈ U.objects ↔ Packs heap calls a) ∧ U.objects.card < heap.length + 1 := by
  have hfits : ∀ a, Packs heap calls a → ∀ l ∈ (heapStru heap a).levels, ∀ cs ∈ l.pack,
      ∀ c ∈ cs, CallFits c := by
    intro a ha
    obtain ⟨x, hx, hwell⟩ := h.graph a ha
    rw [heapStru_eq hx]
    exact calls_nodeStru hwell
  have hvalid : ∀ name ∈ classNames, nameValid name := by
    intro name hn
    obtain ⟨c, -, rfl⟩ := List.mem_map.mp hn
    exact ⟨c.zero_not_mem_name, by cases c <;> decide⟩
  have hncard : {name | name ∈ classNames}.ncard ≤ 2 ^ 20 := by
    have heq : {name | name ∈ classNames} = (classNames.toFinset : Set (List UInt8)) := by
      ext name
      simp
    rw [heq, Set.ncard_coe_finset]
    exact (List.toFinset_card_le _).trans (by decide)
  obtain ⟨U, N, hroom, hU, -⟩ := universe_of_reach h.finite hfits
    (fun name hn => hvalid name (h.names hn)) h.objects.le
    ((Set.ncard_le_ncard h.names (List.finite_toSet _)).trans hncard)
  refine ⟨U, N, hroom, hU, Nat.lt_succ_of_le ?_⟩
  have hsub : U.objects ⊆ Finset.range heap.length := by
    intro a ha
    obtain ⟨x, hx, -⟩ := h.graph a ((hU a).mp ha)
    exact Finset.mem_range.mpr (List.getElem?_eq_some_iff.mp hx).1
  exact (Finset.card_le_card hsub).trans_eq (Finset.card_range _)

theorem isTop_pack : ∀ c ∈ calls.map TopCall.pack, IsTop c := by
  intro c hc
  obtain ⟨c, -, rfl⟩ := List.mem_map.mp hc
  cases c <;> trivial

theorem callKey_pack (c : TopCall) : callKey c.pack = c.key := by
  cases c <;> rfl

theorem map_callKey (calls : List TopCall) :
    (calls.map TopCall.pack).map callKey = calls.map TopCall.key := by
  rw [List.map_map]
  exact List.map_congr_left fun c _ => callKey_pack c

theorem Sent.callFits (h : Sent host heap calls) : ∀ c ∈ calls.map TopCall.pack, CallFits c := by
  intro c' hc'
  obtain ⟨c, hc, rfl⟩ := List.mem_map.mp hc'
  cases c with
  | varInt64 key value => exact ⟨h.keys _ hc, h.values key value hc⟩
  | object key stru =>
    cases stru with
    | none => trivial
    | some a => exact h.keys _ hc

theorem Sent.packs (h : Sent host heap calls) :
    ∃ s0, initMMPacker host = .ok s0 ∧ ∃ enough, ∀ fuel, enough ≤ fuel →
      ∃ s, packTop host (heapStru heap) fuel (calls.map TopCall.pack) s0 = .ok ((), s) ∧
        s.dyb.data.take s.dyb.position = streamBytes host (written heap calls).out := by
  obtain ⟨U, N, -, hU, hcard⟩ := h.universe
  obtain ⟨s0, hinit, h0⟩ := initMMPacker_keeps (A := Addr) host
  have hstart := Within.start U.objects
  have hobj : ∀ b ∈ objectsOf (calls.map TopCall.pack), b ∈ U.objects := fun b hb =>
    (hU b).mpr (.root hb)
  have hends : Ends (calls.map TopCall.pack) := fun f hf => h.callFits _ hf
  refine ⟨s0, hinit, heap.length + 2, fun fuel hle => ?_⟩
  obtain ⟨fuel, rfl⟩ : ∃ n, fuel = n + 1 := ⟨fuel - 1, by omega⟩
  have hsame := run_fuel U.closed hstart hobj hcard (Nat.le_of_succ_le_succ hle)
  have hlt : ((Ledger.start : Ledger Addr).run (heapStru heap) fuel
      (calls.map TopCall.pack)).size host < 2 ^ 32 := by
    rw [hsame]
    exact h.bytes
  obtain ⟨s, hrun, hs⟩ := packTop_does_all (heapStru_isMMObject heap) U h0 hstart hends hobj
    (hcard.trans_le (Nat.le_of_succ_le_succ hle)) hlt
  refine ⟨s, hrun, ?_⟩
  rw [hs.written.written, hsame]
  rfl

theorem Sent.settled (h : Sent host heap calls) :
    ∃ (U : Universe (heapStru heap)) (N : Finset (List UInt8)), Room U N ∧
      (∀ a, a ∈ U.objects ↔ Packs heap calls a) ∧ U.objects.card < heap.length + 1 ∧
      Settled U N (objectsOf (calls.map TopCall.pack)) (written heap calls) := by
  obtain ⟨U, N, hroom, hU, hcard⟩ := h.universe
  exact ⟨U, N, hroom, hU, hcard, Settled.start.run hroom hcard h.callFits fun b hb =>
    (hU b).mpr (.root hb)⟩

theorem Sent.processed (h : Sent host heap calls) {bytes : List UInt8}
    (hbytes : bytes = streamBytes host (written heap calls).out) {u : MMUnpacker}
    (hu : allocMMUnpackerWithData (some bytes) bytes.length = some u) :
    ∃ p, Mirrors host bytes heap (written heap calls).order (written heap calls).names
        (written heap calls).order.length (calls.map TopCall.pack) p ∧
      ∀ rounds, (written heap calls).out.length < rounds →
        process host rounds u = .ok (true, p.toMMUnpacker) := by
  obtain ⟨U, N, hroom, hU, hcard, hset⟩ := h.settled
  refine process_mirrors (U := U) ?_ hcard isTop_pack (fun b hb => (hU b).mpr (.root hb)) ?_ ?_ rfl
    hset.sound.fits hbytes (by rw [hbytes]; exact h.bytes) hu
  · intro a ha
    obtain ⟨x, hx, hwell⟩ := h.graph a ((hU a).mp ha)
    exact ⟨x, hx, present_of_wellformed hwell⟩
  · intro c' hc'
    obtain ⟨c, hc, rfl⟩ := List.mem_map.mp hc'
    rw [callKey_pack]
    exact h.keys c hc
  · rw [map_callKey]
    exact h.distinct

theorem Sent.plan (h : Sent host heap calls) {ordered : Prop}
    (hsorted : ∀ a items, Packs heap calls a → heap[a]? = some (.mmMap true items) → ordered)
    {bytes : List UInt8} {p : Process.Parser}
    (hp : Mirrors host bytes heap (written heap calls).order (written heap calls).names
      (written heap calls).order.length (calls.map TopCall.pack) p) :
    Plan host heap (written heap calls).order ordered := by
  obtain ⟨U, N, hroom, hU, hcard, hset⟩ := h.settled
  have hpacks : ∀ a ∈ (written heap calls).order, Packs heap calls a := fun a ha =>
    (hU a).mp (hset.sound.within.mem a ha)
  exact
    { nodup := hset.sound.within.nodup
      length_le := hset.sound.within.length_le.trans hroom.objects
      valid := fun a ha => h.graph a (hpacks a ha)
      closed := fun a ha x hx s hs => by
        obtain ⟨i, hi, hget⟩ := List.getElem_of_mem ha
        have hsome := (List.getElem?_eq_getElem hi).trans (congrArg some hget)
        constructor
        · obtain ⟨a', x', m, ha', hx', -, -, hcount, -⟩ := hp.sections i hi
          obtain rfl := Option.some.inj (hsome.symm.trans ha')
          obtain rfl := Option.some.inj (hx.symm.trans hx')
          exact hcount s hs
        · rintro key refs rfl r hr
          obtain ⟨x', hx', hwell⟩ := h.graph a (hpacks a ha)
          obtain rfl := Option.some.inj (hx.symm.trans hx')
          refine hset.drained i a hi hsome r.2 ?_
          rw [heapStru_eq hx]
          exact ref_mem_children (present_of_wellformed hwell) hs hr
      sorted := fun a ha items hx => hsorted a items (hpacks a ha) hx }

end Packing

section Unpacked

variable {host : Host} {rounds nesting : Nat} {heap : Heap} {order : List Addr} {ordered : Prop}
variable {calls : List TopCall} {s : Unpacking Heap} {alloc : Heap → Nat}
variable {float double mapItem : Alloc Heap}

theorem stage_start {bytes : List UInt8} {names : List (List UInt8)} {tops : List (PackCall Addr)}
    {p : Process.Parser} (h : Mirrors host bytes heap order names order.length tops p)
    {start : Heap} (hstart : ordered → StringsApart start) :
    Stage host heap order ordered [] (unpackingOf p.toMMUnpacker start) := by
  have hnone : ∀ i < order.length, ∀ b, ¬Built (unpackingOf p.toMMUnpacker start) i b := by
    intro i hi b hb
    obtain ⟨a, x, m, -, -, hfind, -⟩ := h.sections i hi
    have hfind' : Table.find Prod.fst (int32 i) (unpackingOf p.toMMUnpacker start).objects = _ :=
      hfind
    rw [Built, hfind'] at hb
    cases hb
  exact
    { parsed := Option.isSome_iff_exists.mpr ⟨0, h.roots⟩
      idle := rfl
      entries := fun i hi => by
        obtain ⟨a, x, m, ha, hx, hfind, -, -, hsec⟩ := h.sections i hi
        exact .inl ⟨a, x, m, ha, hx, hfind, hsec⟩
      inside := fun i hi b hb => absurd hb (hnone i hi b)
      apart := fun i hi _ _ b hb => absurd hb (hnone i hi b)
      done := fun i hi b hb => absurd hb (hnone i hi b)
      memory := hstart }

def AtRoots (host : Host) (order : List Addr) (calls : List TopCall) (s : Unpacking Heap) : Prop :=
  ∃ items, s.stack = [0] ∧ s.store[0]? = some (.map false items) ∧
    RootsAt host order s.store items (calls.map TopCall.pack)

theorem AtRoots.later {s' : Unpacking Heap} (h : AtRoots host order calls s) (hl : Later s s') :
    AtRoots host order calls s' := by
  obtain ⟨items, hs, h0, hroots⟩ := h
  refine ⟨items, hl.stack.trans hs, ?_, ?_⟩
  · rw [hl.store]
    exact h0
  · rw [hl.store]
    exact hroots

theorem left_le_length (order : List Addr) (s : Unpacking Heap) : left order s ≤ order.length := by
  classical
  exact (Finset.card_filter_le _ _).trans_eq (Finset.card_range _)

theorem unpackObjectImpl_absent {allocators : Allocators Heap} {key : Nat} {r : Addr}
    {st : List Addr} {items : List (List UInt8 × Addr)} {c : Bool} (hp : Balance.Parsed s)
    (hs : s.stack = r :: st) (hr : s.store[r]? = some (.map c items))
    (hnone : Table.find Prod.fst (intKey host (int32 key)) items = none) :
    unpackObjectImpl host rounds allocators (nesting + 1) key s = .ok (none, s) := by
  have hget : getByIntFromStack host key s = .ok (none, s) := by
    rw [getByIntFromStack, lastItem_bind _ hs, genAt_bind _ hr]
    simp only [hnone]
    rfl
  have hfound : findObject host key s = .ok (.null, s) := by
    rw [findObject, step_ok hget]
    rfl
  rw [unpackObjectImpl, unpackObjectWith, Balance.parse_bind hp, step_ok hfound]
  rfl

theorem unpackKey_ok (rounds : Nat) (float double mapItem : Alloc Heap)
    (hp : Plan host heap order ordered) (hfresh : ordered → Fresh alloc)
    (h : Stage host heap order ordered [] s) (hat : AtRoots host order calls s)
    (hkeys : ∀ c ∈ calls, c.key ≤ 0xFFFFF) (hdistinct : (calls.map TopCall.key).Nodup)
    (hmem : ∀ key a, .object key (some a) ∈ calls → a ∈ order) (hn : order.length < nesting)
    {c : TopCall} (hc : c ∈ calls) :
    ∃ answer s', unpackKey host rounds nesting
        (registerAllMmoExtToUnpacker host alloc float double mapItem) c s = .ok (answer, s') ∧
      Stage host heap order ordered [] s' ∧ Later s s' ∧ Answers (Pair order s') c answer := by
  obtain ⟨items, hs, h0, hroots⟩ := hat
  cases c with
  | varInt64 key value =>
    obtain ⟨b, hfind, hb⟩ := hroots.held _ (List.mem_map_of_mem hc) _ rfl
    have hrun : unpackVarInt64Impl host rounds key s = .ok (value, s) :=
      unpackVarInt64Impl_ok h.parsed ⟨0, [], hs, .inl ⟨false, items, _, h0, hfind⟩⟩ hb
    exact ⟨.integer value, s, by rw [unpackKey, step_ok hrun]; rfl, h, .refl s, rfl⟩
  | object key stru =>
    cases stru with
    | none =>
      have hnone := hroots.absent key (hkeys _ hc) fun t ht hkey => by
        obtain ⟨c', hc', rfl⟩ := List.mem_map.mp ht
        rw [callKey_pack] at hkey
        obtain rfl := List.inj_on_of_nodup_map hdistinct hc' hc hkey
        rfl
      obtain ⟨n, rfl⟩ : ∃ n, nesting = n + 1 := ⟨nesting - 1, by omega⟩
      have hrun : unpackObjectImpl host rounds (registerAllMmoExtToUnpacker host alloc float double
          mapItem) (n + 1) key s = .ok (none, s) :=
        unpackObjectImpl_absent h.parsed hs h0 hnone
      exact ⟨.object none, s, by rw [unpackKey, step_ok hrun]; rfl, h, .refl s, .none⟩
    | some a =>
      obtain ⟨r, hfind, hr⟩ := hroots.held _ (List.mem_map_of_mem hc) _ rfl
      have ha := hmem key a hc
      have hi : order.idxOf a < order.length := List.idxOf_lt_length_iff.mpr ha
      obtain ⟨b, s', hrun, h', hl, hb⟩ := unpackObjectImpl_unpacks rounds float double
        mapItem hp hfresh nesting [] s key _ h (fun j hj => absurd hj List.not_mem_nil) hi
        ((left_le_length order s).trans_lt hn)
        ⟨r, ⟨0, [], hs, .inl ⟨false, items, _, h0, hfind⟩⟩, hr⟩
      refine ⟨.object (some b), s', by rw [unpackKey, step_ok hrun]; rfl, h', hl, .some ?_⟩
      exact ⟨_, List.getElem?_idxOf ha, hb⟩

theorem Answers.mono {R R' : Addr → Addr → Prop} (hR : ∀ a b, R a b → R' a b) {c : TopCall}
    {answer : Answer} (h : Answers R c answer) : Answers R' c answer := by
  cases c with
  | varInt64 key value =>
    cases answer with
    | integer v => exact h
    | object obj => exact h
  | object key stru =>
    cases answer with
    | integer v => exact h
    | object obj =>
      cases h with
      | some hab => exact .some (hR _ _ hab)
      | none => exact .none

theorem unpackKeys_ok (rounds : Nat) (float double mapItem : Alloc Heap)
    (hp : Plan host heap order ordered) (hfresh : ordered → Fresh alloc)
    (h : Stage host heap order ordered [] s) (hat : AtRoots host order calls s)
    (hkeys : ∀ c ∈ calls, c.key ≤ 0xFFFFF) (hdistinct : (calls.map TopCall.key).Nodup)
    (hmem : ∀ key a, .object key (some a) ∈ calls → a ∈ order) (hn : order.length < nesting)
    {asked : List TopCall} (hasked : asked ⊆ calls) :
    ∃ answers s', unpackKeys host rounds nesting
        (registerAllMmoExtToUnpacker host alloc float double mapItem) asked s =
          .ok (answers, s') ∧
      Stage host heap order ordered [] s' ∧ Later s s' ∧
      List.Forall₂ (Answers (Pair order s')) asked answers := by
  induction asked generalizing s with
  | nil => exact ⟨[], s, rfl, h, .refl s, .nil⟩
  | cons c asked ih =>
    obtain ⟨answer, s1, hrun, h1, hl, hanswer⟩ := unpackKey_ok rounds float double
      mapItem hp hfresh h hat hkeys hdistinct hmem hn
      (hasked List.mem_cons_self)
    obtain ⟨answers, s2, hruns, h2, hl2, hanswers⟩ := ih h1 (hat.later hl)
      fun c hc => hasked (List.mem_cons_of_mem _ hc)
    refine ⟨answer :: answers, s2, ?_, h2, hl.trans hl2, .cons ?_ hanswers⟩
    · rw [unpackKeys, step_ok hrun, step_ok hruns]
      rfl
    · exact hanswer.mono fun a b hab => hab.later hl2.built

/-- What has been built is isomorphic to what was packed. -/
theorem isomorphic_of_stage (hp : Plan host heap order ordered)
    (h : Stage host heap order ordered [] s) : Isomorphic heap s.heap (Pair order s) where
  one_to_one a b a' b' hab hab' := by
    obtain ⟨i, ha, hb⟩ := hab
    obtain ⟨j, ha', hb'⟩ := hab'
    have hi := (List.getElem?_eq_some_iff.mp ha).1
    have hj := (List.getElem?_eq_some_iff.mp ha').1
    constructor
    · rintro rfl
      obtain rfl : i = j := (List.getElem?_inj hi hp.nodup).mp (ha.trans ha'.symm)
      rw [Built, hb] at hb'
      cases hb'
      rfl
    · rintro rfl
      obtain rfl := h.apart i hi j hj b hb hb'
      exact Option.some.inj (ha.symm.trans ha')
  alike a b hab := by
    obtain ⟨i, ha, hb⟩ := hab
    obtain ⟨a', x, y, ha', hx, hy, hxy⟩ :=
      h.done i (List.getElem?_eq_some_iff.mp ha).1 b hb List.not_mem_nil
    obtain rfl := Option.some.inj (ha.symm.trans ha')
    exact ⟨x, y, hx, hy, hxy⟩

/-- The first call parses the stream. -/
theorem unpackKey_first (allocators : Allocators Heap) (start : Heap) {u v : MMUnpacker}
    {b : Bool} (hu : u.roots = none) (hv : v.roots.isSome) (hn : 0 < nesting)
    (hrun : process host rounds u = .ok (b, v)) (c : TopCall) :
    unpackKey host rounds nesting allocators c (unpackingOf u start) =
      unpackKey host rounds nesting allocators c (unpackingOf v start) := by
  have hparse : ∀ {α : Type} (f : PUnit → UnpackM Heap α),
      (parse host rounds >>= f) (unpackingOf u start) =
        (parse host rounds >>= f) (unpackingOf v start) := by
    intro α f
    have hfirst : parse host rounds (unpackingOf u start) = .ok ((), unpackingOf v start) := by
      have hroots : (unpackingOf u start).roots = none := hu
      have hrun' : process host rounds (unpackingOf u start).toMMUnpacker = .ok (b, v) := hrun
      rw [parse, hroots]
      simp only [hrun']
      rfl
    rw [step_ok hfirst, Balance.parse_bind (s := unpackingOf v start) hv]
  obtain ⟨n, rfl⟩ : ∃ n, nesting = n + 1 := ⟨nesting - 1, by omega⟩
  cases c with
  | varInt64 key value =>
    have h : unpackVarInt64Impl host rounds key (unpackingOf u start) =
        unpackVarInt64Impl host rounds key (unpackingOf v start) := hparse _
    simp only [unpackKey, bind, StateT.bind, h]
  | object key stru =>
    have h : unpackObjectImpl host rounds allocators (n + 1) key (unpackingOf u start) =
        unpackObjectImpl host rounds allocators (n + 1) key (unpackingOf v start) := hparse _
    simp only [unpackKey, bind, StateT.bind, h]

theorem unpackKeys_first (allocators : Allocators Heap) (start : Heap) {u v : MMUnpacker}
    {b : Bool} (hu : u.roots = none) (hv : v.roots.isSome) (hn : 0 < nesting)
    (hrun : process host rounds u = .ok (b, v)) (c : TopCall) (asked : List TopCall) :
    unpackKeys host rounds nesting allocators (c :: asked) (unpackingOf u start) =
      unpackKeys host rounds nesting allocators (c :: asked) (unpackingOf v start) := by
  have hfirst := unpackKey_first allocators start hu hv hn hrun c
  simp only [unpackKeys, bind, StateT.bind, hfirst]

end Unpacked

section Graphs

variable {host : Host} {heap : Heap} {calls : List TopCall}

/-- What was packed is unpacked; where maps are sorted, the memory must keep strings apart. -/
theorem roundTrips_of_sent {memory : (Heap → Nat) → Heap → Prop} (ordered : Prop)
    (h : Sent host heap calls)
    (hsorted : ∀ a items, Packs heap calls a → heap[a]? = some (.mmMap true items) → ordered)
    (hmemory : ∀ alloc start, memory alloc start → ordered → Fresh alloc ∧ StringsApart start) :
    RoundTrips host heap calls memory := by
  obtain ⟨s0, hinit, enough, hpacks⟩ := h.packs
  refine ⟨s0, hinit, enough, fun fuel hle => ?_⟩
  obtain ⟨s, hrun, hbytes⟩ := hpacks fuel hle
  refine ⟨s, hrun, ?_⟩
  rw [hbytes]
  obtain ⟨u, hu, hnew⟩ : ∃ u, allocMMUnpackerWithData
      (some (streamBytes host (written heap calls).out))
      (streamBytes host (written heap calls).out).length = some u ∧ u.roots = none :=
    ⟨_, rfl, rfl⟩
  obtain ⟨p, hp, hprocess⟩ := h.processed rfl hu
  have hplan := h.plan hsorted hp
  obtain ⟨U, N, -, hU, -, hset⟩ := h.settled
  have hmem : ∀ key a, .object key (some a) ∈ calls → a ∈ (written heap calls).order := by
    intro key a hc
    refine hset.roots_mem a (List.mem_filterMap.mpr ⟨_, List.mem_map_of_mem hc, rfl⟩)
  refine ⟨u, hu, (written heap calls).out.length + (written heap calls).order.length + 1, ?_⟩
  intro rounds nesting hr hn
  have hdone := hprocess rounds (by omega)
  refine ⟨⟨0, p.toMMUnpacker, hdone, hp.roots, hp.stack⟩, ?_⟩
  intro alloc float double mapItem start asked hstart hasked
  have hboth := hmemory alloc start hstart
  have hstage := stage_start hp fun ho => (hboth ho).2
  have hat : AtRoots host (written heap calls).order calls (unpackingOf p.toMMUnpacker start) := by
    obtain ⟨items, h0, hroots⟩ := hp.rooted
    exact ⟨items, hp.stack, h0, hroots⟩
  obtain ⟨answers, s', hruns, hend, hl, hanswers⟩ := unpackKeys_ok rounds float
    double mapItem hplan (fun ho => (hboth ho).1) hstage hat h.keys h.distinct hmem
    (show _ < nesting by omega) hasked
  cases asked with
  | nil =>
    cases hanswers
    refine ⟨[], unpackingOf u start, fun _ _ => False, rfl, List.prefix_rfl, ⟨?_, ?_⟩, .nil⟩
    · exact fun _ _ _ _ hR => hR.elim
    · exact fun _ _ hR => hR.elim
  | cons c asked =>
    refine ⟨answers, s', Pair (written heap calls).order s', ?_, hl.heap,
      isomorphic_of_stage hplan hend, hanswers⟩
    rw [← hruns]
    exact unpackKeys_first _ start hnew (Option.isSome_iff_exists.mpr ⟨0, hp.roots⟩) (by omega)
      hdone c asked

/-- Graphs of objects with their maps unsorted. -/
theorem graph_roundTrips (h : Sent host heap calls)
    (hunsorted : ∀ a items, Packs heap calls a → heap[a]? ≠ some (.mmMap true items)) :
    RoundTrips host heap calls fun _ _ => True :=
  roundTrips_of_sent False h (fun a items ha hx => hunsorted a items ha hx)
    fun _ _ _ => False.elim

def ringHeap : Heap :=
  [.mmList [some 0, some 1, some 2, some 1], .mmInt (-7), .mmMap false [⟨[0x6B], 3, 0⟩],
    .mmString (some ⟨100, [0x6B]⟩)]

def ringCalls : List TopCall :=
  [.object 4 (some 2), .varInt64 1048575 (-300), .object 0 none, .object 9 (some 0)]

theorem packs_lt {n : Nat} (hroots : ∀ b ∈ objectsOf (calls.map TopCall.pack), b < n)
    (hchildren : ∀ a < n, ∀ b ∈ children (heapStru heap a), b < n) {a : Addr}
    (h : Packs heap calls a) : a < n := by
  induction h with
  | root hr => exact hroots _ hr
  | child _ hb ih => exact hchildren _ ih _ hb

theorem ncard_packs_lt {n : Nat} (h : ∀ a, Packs heap calls a → a < n) (hn : n < 2 ^ 20) :
    {a | Packs heap calls a}.ncard < 2 ^ 20 := by
  have hsub : {a | Packs heap calls a} ⊆ (Finset.range n : Set Addr) := fun a ha =>
    Finset.mem_coe.mpr (Finset.mem_range.mpr (h a ha))
  have hle := Set.ncard_le_ncard hsub (Finset.finite_toSet _)
  rw [Set.ncard_coe_finset, Finset.card_range] at hle
  exact hle.trans_lt hn

theorem packs_ringHeap {a : Addr} (h : Packs ringHeap ringCalls a) : a < 4 :=
  packs_lt (by decide) (by decide) h

theorem sent_ringHeap : Sent .little ringHeap ringCalls where
  keys := by decide
  distinct := by decide
  values key value hmem := by
    simp only [ringCalls, List.mem_cons, TopCall.varInt64.injEq, reduceCtorEq, false_or, or_false,
      List.not_mem_nil] at hmem
    obtain ⟨-, rfl⟩ := hmem
    exact ⟨by decide, by decide⟩
  graph a ha := by
    have hlt := packs_ringHeap ha
    interval_cases a
    · exact ⟨_, rfl, by intro o ho; fin_cases ho <;> rfl⟩
    · exact ⟨_, rfl, by decide, by decide⟩
    · refine ⟨_, rfl, ?_, by decide, nofun⟩
      intro i hi
      obtain rfl := List.mem_singleton.mp hi
      exact ⟨_, rfl, rfl, rfl⟩
    · exact ⟨_, rfl, _, rfl, by decide, by decide⟩
  objects := ncard_packs_lt (fun _ => packs_ringHeap) (by decide)
  bytes := by decide

theorem graph_roundTrips_ringHeap : RoundTrips .little ringHeap ringCalls fun _ _ => True := by
  refine graph_roundTrips sent_ringHeap fun a items ha hx => ?_
  have hlt := packs_ringHeap ha
  interval_cases a <;> cases hx

end Graphs

end LcClibs.Pack.RoundTrip
