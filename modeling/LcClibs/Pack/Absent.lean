import Mathlib
import LcClibs.Pack.Contents
import LcClibs.Pack.Invariants
import LcClibs.Pack.RoundTrip

namespace LcClibs.Pack.Absent

open Platform Lib Lib.Runs Buffer.VarInt Mmo.Object Mmo.Map
open Pack.Records Pack.Packer Pack.Classes Pack.Numbering Pack.Numbering.Ledger Pack.Tables
open Pack.Process (Gen MMUnpacker process allocMMUnpackerWithData)
open Pack.Unpacker Pack.Invariants Pack.Inits Pack.Mirror Pack.Rebuild Pack.RoundTrip

section Offers

/-- `insertMMListItem` on the entries: a gap behind the end is filled with null. -/
def insertEntry (entry : Option Addr) (idx : Nat) (entries : List (Option Addr)) :
    List (Option Addr) :=
  (entries ++ List.replicate (uint idx - entries.length) none).insertIdx (uint idx) entry

inductive Filled : List (Option Addr) → Prop
  | empty : Filled []
  | push {entries : List (Option Addr)} (h : Filled entries) (entry : Option Addr) :
    Filled (entries ++ [entry])
  | insert {entries : List (Option Addr)} (h : Filled entries) (entry : Option Addr) (idx : Nat) :
    Filled (insertEntry entry idx entries)

/-- An object that its class can have: lists may have null entries, and a string may be without
a value. -/
def Allowed (host : Host) (heap : Heap) : Node → Prop
  | .mmString value => ∀ x ∈ value, 0 ∉ x.bytes
  | .mmList items => Filled items
  | x => Wellformed host heap x

/-- A memory that gives each string a place of its own. -/
def StringsKept (alloc : Heap → Nat) (start : Heap) : Prop := Fresh alloc ∧ StringsApart start

/-- Calls such as `Sent` describes them, for objects with absent values. -/
structure Offered (host : Host) (heap : Heap) (calls : List TopCall) : Prop where
  keys : ∀ c ∈ calls, c.key ≤ 0xFFFFF
  distinct : (calls.map TopCall.key).Nodup
  values : ∀ key value, .varInt64 key value ∈ calls → IsInt64 value
  graph : ∀ a, Packs heap calls a → ∃ x, heap[a]? = some x ∧ Allowed host heap x
  objects : {a | Packs heap calls a}.ncard < 2 ^ 20
  bytes : (written heap calls).size host < 2 ^ 32

/-- A string whose length, counted with its NUL, is a `uint`. -/
def Short : Node → Prop
  | .mmString (some x) => x.bytes.length + 1 < 2 ^ 32
  | _ => True

variable {host : Host} {heap : Heap} {calls : List TopCall}

theorem wellformed_of_present {x : Node} (h : Allowed host heap x) (hx : Present x)
    (hshort : Short x) : Wellformed host heap x := by
  cases x with
  | mmString value =>
    obtain ⟨x, rfl⟩ := Option.isSome_iff_exists.mp hx
    exact ⟨x, rfl, h x rfl, hshort⟩
  | mmList items => exact hx
  | _ => exact h

theorem Offered.sent (h : Offered host heap calls)
    (hpresent : ∀ a x, Packs heap calls a → heap[a]? = some x → Present x ∧ Short x) :
    Sent host heap calls where
  keys := h.keys
  distinct := h.distinct
  values := h.values
  graph a ha := by
    obtain ⟨x, hx, hallowed⟩ := h.graph a ha
    obtain ⟨hx', hshort⟩ := hpresent a x ha hx
    exact ⟨x, hx, wellformed_of_present hallowed hx' hshort⟩
  objects := h.objects
  bytes := h.bytes

end Offers

section Ends

variable {A : Type} {host : Host} {stru : A → Stru A}
variable {packObject : Nat → Option A → PackM A Unit} {s : MMPacker A} {r : Unit × MMPacker A}

theorem ends_of_packCalls {cs : List (PackCall A)} (h : packCalls host packObject cs s = .ok r) :
    Ends cs := by
  induction cs generalizing s with
  | nil => exact fun f hf => absurd hf List.not_mem_nil
  | cons c cs ih =>
    obtain ⟨u, s1, h1, h2⟩ := step_eq_ok.mp h
    intro f hf
    obtain rfl | hf := List.mem_cons.mp hf
    · cases h1
    · exact ih h2 f hf

theorem ends_of_packLevels {ls : List (Level A)} (h : packLevels host packObject ls s = .ok r) :
    ∀ l ∈ ls, ∀ cs ∈ l.pack, Ends cs := by
  induction ls generalizing s with
  | nil => exact fun l hl => absurd hl List.not_mem_nil
  | cons l ls ih =>
    rw [packLevels] at h
    intro l' hl' cs hcs
    cases hpack : l.pack with
    | none =>
      rw [hpack] at h
      obtain rfl | hl' := List.mem_cons.mp hl'
      · rw [hpack] at hcs
        cases hcs
      · exact ih h l' hl' cs hcs
    | some calls =>
      rw [hpack] at h
      obtain ⟨u, s1, -, h1⟩ := step_eq_ok.mp h
      obtain ⟨u', s2, h2, h3⟩ := step_eq_ok.mp h1
      obtain rfl | hl' := List.mem_cons.mp hl'
      · rw [hpack] at hcs
        cases hcs
        exact ends_of_packCalls h2
      · exact ih h3 l' hl' cs hcs

variable [DecidableEq A] (hall : ∀ a, (stru a).isMMObject = true)

include hall

theorem keeps_of_packSections {U : Finset A} (hU : Closed stru U) {fuel n i : Nat} {T : Ledger A}
    (hs : Keeps host 1 s T) (hT : Within U T) (hi : i ≤ T.order.length)
    (hfuel : U.card < fuel + i) (hlt : (T.sections stru fuel i).size host < 2 ^ 32)
    (h : packSections host stru (packObjectImpl host stru (n + 1)) fuel i s = .ok r) :
    Keeps host 1 r.2 (T.sections stru fuel i) := by
  induction fuel generalizing i s T with
  | zero => cases h
  | succ fuel ih =>
    have hlen : s.idToObj.length = T.order.length := by
      rw [hs.idToObj_eq, List.length_map, List.length_zipIdx]
    rw [packSections, Numbering.get_bind] at h
    cases ho : T.order[i]? with
    | none =>
      have hge := List.getElem?_eq_none_iff.mp ho
      rw [if_neg (by omega)] at h
      cases h
      simp only [Ledger.sections, ho]
      exact hs
    | some obj =>
      have hmem := hT.mem obj (List.mem_of_getElem? ho)
      have hget := (List.getElem?_eq_some_iff.mp ho).1
      have hfind : Table.find Prod.fst i s.idToObj = some (i, obj) := by
        rw [hs.idToObj_eq, Table.find_zipIdx_swap, ho]
        rfl
      have hgrow := grows_packSection (stru obj) i T
      simp only [Ledger.sections, ho] at hlt ⊢
      have hsec := ((grows_sections stru fuel (i + 1) _).size_le host).trans_lt hlt
      rw [if_pos (by omega)] at h
      simp only [hfind] at h
      -- the pack functions of the object ended, as the section did
      have hacc := accepted_eq_self hall
      have hobj : StruEnds (accepted stru obj) := by
        rw [hacc]
        obtain ⟨num, s1, _, h1⟩ := step_eq_ok.mp h
        obtain ⟨_, s2, _, h2⟩ := step_eq_ok.mp h1
        obtain ⟨_, s3, h3, _⟩ := step_eq_ok.mp h2
        exact ends_of_packLevels h3
      obtain ⟨s1, h1, hs1⟩ := hs.packSection hobj n i (by rwa [hacc])
        (packSections host stru (packObjectImpl host stru (n + 1)) fuel (i + 1))
      rw [h1] at h
      rw [hacc] at hs1
      have := hgrow.order.length_le
      exact ih hs1 (hT.packSection hU hmem i) (by omega) (by omega) hlt h

theorem keeps_of_packTop {U : Finset A} (hU : Closed stru U) {fuel : Nat} {T : Ledger A}
    {cs : List (PackCall A)} (hs : Keeps host 0 s T) (hT : Within U T)
    (hobj : ∀ b ∈ objectsOf cs, b ∈ U) (hfuel : U.card < fuel)
    (hlt : (T.run stru fuel cs).size host < 2 ^ 32)
    (h : packTop host stru (fuel + 1) cs s = .ok r) : Keeps host 0 r.2 (T.run stru fuel cs) := by
  obtain ⟨n, rfl⟩ : ∃ n, fuel = n + 1 := ⟨fuel - 1, by omega⟩
  induction cs generalizing s T with
  | nil =>
    cases h
    exact hs
  | cons c cs ih =>
    rw [objectsOf_cons] at hobj
    have hc : ∀ b ∈ objectsOf [c], b ∈ U := fun b hb => hobj b (List.mem_append_left _ hb)
    have hstep := ((grows_run stru (n + 1) cs _).size_le host).trans_lt hlt
    obtain ⟨u, s1, h1, h2⟩ := step_eq_ok.mp h
    have hs1 : Keeps host 0 s1 (T.top stru (n + 1) c) := by
      cases c with
      | object key o =>
        have ho := toMMObject_eq_self hall o
        cases o with
        | none =>
          rw [packCall, packObjectImpl_none ho] at h1
          cases h1
          exact hs
        | some obj =>
          have hcall := ((grows_sections stru (n + 1) T.order.length _).size_le host).trans_lt hstep
          obtain ⟨s2, h3, hs2⟩ := hs.packObject (n + 1) key ho hcall
          rw [packCall, h3] at h1
          obtain ⟨_, s3, h4, h5⟩ := step_eq_ok.mp h1
          have hgrow := grows_call (.object key (some obj)) T
          have hs3 := keeps_of_packSections hall hU hs2 (hT.call hc) hgrow.order.length_le
            (Nat.lt_add_right _ hfuel) hstep h4
          cases h5
          have hlevel : s3.level - 1 = 0 := by rw [hs3.level_eq]
          exact { hs3 with level_eq := hlevel }
      | crash f => cases h1
      | _ =>
        obtain ⟨s2, h3, hs2⟩ := hs.emit _ hstep
        obtain rfl : s1 = s2 := by
          have := h1.symm.trans h3
          simpa using this
        exact hs2
    exact ih hs1 (hT.top hU hc (n + 1)) (fun b hb => hobj b (List.mem_append_right _ hb)) hlt h2

end Ends

section Plainness

/-- An object as the init functions build them: lists have no null entry, and the bytes of a
string are a part of the stream. -/
def Plain (m : Nat) : Node → Prop
  | .mmString value => ∀ x ∈ value, x.bytes.length ≤ m
  | .mmList items => ∀ o ∈ items, o.isSome
  | _ => True

/-- An unpacker of such objects. -/
structure PlainState (m : Nat) (s : Unpacking Heap) : Prop where
  parsed : Balance.Parsed s
  data : ∀ bytes, .data bytes ∈ s.store → bytes.length ≤ m
  heap : ∀ x ∈ s.heap, Plain m x

def Bounded (m : Nat) (data : Option (List UInt8)) : Prop := ∀ bytes ∈ data, bytes.length ≤ m

variable {host : Host} {rounds m : Nat} {heap : Heap}

theorem PlainState.write {s : Unpacking Heap} (h : PlainState m s) (a : Addr) {x : Node}
    (hx : Plain m x) : PlainState m { s with heap := s.heap.set a x } :=
  { h with
    heap := fun y hy => by
      obtain hy | rfl := List.mem_or_eq_of_mem_set hy
      · exact h.heap y hy
      · exact hx }

theorem plain_lasting : Lasting host rounds (PlainState m) (Bounded m) where
  parsed s h := h.parsed
  stack s st h := ⟨h.parsed, h.data, h.heap⟩
  drop s h := ⟨h.parsed, h.data, h.heap⟩
  register s num stru h hnum := ⟨h.parsed, h.data, h.heap⟩
  entering s key num map name h hfound := ⟨h.parsed, h.data, h.heap⟩
  data s key d s' h hrun bytes hb := by
    rw [unpackDataImpl, Balance.parse_bind h.parsed] at hrun
    obtain ⟨obj, s1, h1, h2⟩ := step_eq_ok.mp hrun
    obtain rfl := Balance.getByIntFromStack_reads key s obj s1 h1
    cases obj with
    | none =>
      cases h2
      cases hb
    | some obj =>
      obtain ⟨g, s2, h3, h4⟩ := step_eq_ok.mp h2
      have hg := Balance.genAt_ok h3
      cases g with
      | data kept =>
        cases h4
        split at hb
        · cases hb
        · cases hb
          exact h.data _ (List.mem_of_getElem? hg)
      | _ =>
        cases h4
        cases hb

theorem plain_initMMMapItems (map : Addr) (left i : Nat) :
    Tame (PlainState m) (Bounded m) (initMMMapItems host map left i) := by
  induction left generalizing i with
  | zero => trivial
  | succ left ih =>
    intro stru heap value
    cases toMMPrimary heap stru with
    | none => trivial
    | some primary =>
      cases value with
      | none => trivial
      | some value =>
        refine ⟨fun s h => ?_, ih (i + 2)⟩
        simp only [addMMMapItem]
        split
        · exact h.write map trivial
        · exact h

theorem plain_initMMListItems (list : Addr) (left i : Nat) :
    Tame (PlainState m) (Bounded m) (initMMListItems list left i) := by
  induction left generalizing i with
  | zero => trivial
  | succ left ih =>
    intro item
    cases item with
    | none => trivial
    | some item =>
      refine ⟨fun s h => ?_, ih (i + 1)⟩
      simp only [pushMMListItem]
      split
      · rename_i items hlist
        refine h.write list fun o ho => ?_
        obtain ho | ho := List.mem_append.mp ho
        · exact h.heap _ (List.mem_of_getElem? hlist) o ho
        · rw [List.mem_singleton.mp ho]
          rfl
      · exact h

theorem plain_initNode (alloc : Heap → Nat) (c : Mmo.Object.Class) (b : Addr) :
    Tame (PlainState m) (Bounded m) (initNode host alloc c b) := by
  cases c with
  | mmInt => exact fun value => ⟨fun s h => h.write b trivial, trivial⟩
  | mmLong => exact fun value => ⟨fun s h => h.write b trivial, trivial⟩
  | mmString =>
    intro data hdata
    cases data with
    | none => trivial
    | some bytes =>
      refine ⟨fun s h => h.write b fun x hx => ?_, trivial⟩
      cases hx
      exact (List.takeWhile_sublist _).length_le.trans (hdata bytes rfl)
  | mmData =>
    intro data hdata
    cases data with
    | none => trivial
    | some bytes => exact ⟨fun s h => h.write b trivial, trivial⟩
  | mmMap =>
    refine fun sorted => ⟨fun s h => ?_, fun len => ?_⟩
    · simp only [setSorted]
      split
      · exact h.write b trivial
      · exact h
    · dsimp only
      split_ifs
      · trivial
      · exact plain_initMMMapItems b _ 0
  | mmList => exact fun len => plain_initMMListItems b len 0

theorem plain_blankNode (c : Mmo.Object.Class) : Plain m (blankNode c) := by
  cases c with
  | mmString => exact fun x hx => by cases hx
  | mmList => exact fun o ho => absurd ho List.not_mem_nil
  | _ => trivial

theorem plain_allocNode (alloc : Heap → Nat) (c : Mmo.Object.Class) :
    TameAlloc (PlainState m) (Bounded m) (allocNode host alloc c) where
  blank s h :=
    { h with
      heap := fun x hx => by
        obtain hx | hx := List.mem_append.mp hx
        · exact h.heap x hx
        · rw [List.mem_singleton.mp hx]
          exact plain_blankNode c }
  inits level hl init hinit stru := by
    obtain hl | hl := List.mem_append.mp hl
    · obtain ⟨l, -, rfl⟩ := List.mem_map.mp hl
      cases hinit
    · cases List.mem_singleton.mp hl
      cases hinit
      exact plain_initNode alloc c stru

/-- An allocator of nothing, for the classes that hold no object here. -/
def nothing : Alloc Heap := ⟨fun heap => (0, heap), []⟩

theorem plain_nothing : TameAlloc (PlainState m) (Bounded m) nothing where
  blank _ h := h
  inits _ hl := absurd hl List.not_mem_nil

theorem plain_registered (alloc : Heap → Nat) :
    ∀ e ∈ registerAllMmoExtToUnpacker host alloc nothing nothing nothing,
      TameAlloc (PlainState m) (Bounded m) e.2 := by
  intro e he
  simp only [registerAllMmoExtToUnpacker, List.mem_cons, List.not_mem_nil, or_false] at he
  obtain rfl | rfl | rfl | rfl | rfl | rfl | rfl | rfl | rfl := he
  all_goals first | exact plain_allocNode alloc _ | exact plain_nothing

theorem plain_unpackKeys (nesting : Nat) {allocators : Allocators Heap}
    (ha : ∀ e ∈ allocators, TameAlloc (PlainState m) (Bounded m) e.2) (asked : List TopCall) :
    Keeping (PlainState m) (unpackKeys host rounds nesting allocators asked) := by
  have hkey : ∀ c, Keeping (PlainState m) (unpackKey host rounds nesting allocators c) := by
    intro c
    cases c with
    | varInt64 key value =>
      exact (plain_lasting.unpackVarInt64Impl key).bind fun _ => .pure _
    | object key stru =>
      exact (plain_lasting.unpackObjectImpl ha nesting key).bind fun _ => .pure _
  induction asked with
  | nil => exact .pure _
  | cons c asked ih => exact (hkey c).bind fun _ => ih.bind fun _ => .pure _

end Plainness

section Absence

variable {host : Host} {heap heap' : Heap} {calls : List TopCall} {R : Addr → Addr → Prop}
variable {x y : Node} {m : Nat}

theorem counterpart {α β : Type} {S : α → β → Prop} {xs : List α} {ys : List β}
    (h : List.Forall₂ S xs ys) {x : α} (hx : x ∈ xs) : ∃ y ∈ ys, S x y := by
  induction h with
  | nil => cases hx
  | cons hxy _ ih =>
    obtain rfl | hx := List.mem_cons.mp hx
    · exact ⟨_, List.mem_cons_self, hxy⟩
    · obtain ⟨y, hy, hxy⟩ := ih hx
      exact ⟨y, List.mem_cons_of_mem _ hy, hxy⟩

theorem present_of_alike (h : Alike R x y) (hy : Plain m y) (hm : m + 1 < 2 ^ 32) :
    Present x ∧ Short x := by
  cases h with
  | mmString hxy =>
    refine ⟨rfl, ?_⟩
    have hle := hy _ rfl
    rw [← hxy] at hle
    exact (Nat.succ_le_succ hle).trans_lt hm
  | mmList hxy =>
    refine ⟨fun o ho => ?_, trivial⟩
    obtain ⟨o', ho', hrel⟩ := counterpart hxy ho
    cases hrel with
    | some _ => rfl
    | none => exact hy none ho'
  | _ => exact ⟨trivial, trivial⟩

theorem related_child (h : Alike R x y) {a : Addr} (ha : a ∈ objectsOf (packNode x)) :
    ∃ b, R a b := by
  obtain ⟨c, hc, hobj⟩ := List.mem_filterMap.mp ha
  cases h with
  | @mmMap sorted is js hxy =>
    simp only [packNode, packMMMap, List.mem_cons, List.mem_append, List.mem_flatMap,
      packMMMapItem, List.not_mem_nil, or_false] at hc
    obtain rfl | rfl | ⟨i, hi, hc⟩ | rfl := hc
    · cases hobj
    · cases hobj
    · obtain ⟨j, -, -, hkey, hvalue⟩ := counterpart hxy hi
      obtain rfl | rfl := hc
      all_goals cases hobj
      · exact ⟨_, hkey⟩
      · exact ⟨_, hvalue⟩
    · cases hobj
  | mmList hxy =>
    simp only [packNode, packMMList, List.mem_cons, List.mem_append, List.mem_map,
      List.not_mem_nil, or_false] at hc
    obtain rfl | ⟨o, ho, rfl⟩ | rfl := hc
    · cases hobj
    · obtain rfl : o = some a := hobj
      obtain ⟨o', -, hrel⟩ := counterpart hxy ho
      cases hrel with
      | some hab => exact ⟨_, hab⟩
    · cases hobj
  | _ => cases ha

/-- Every packed object has come back as one like it. -/
theorem related_of_packs (hiso : Isomorphic heap heap' R) {answers : List Answer}
    (hanswers : List.Forall₂ (Answers R) calls answers) {a : Addr} (h : Packs heap calls a) :
    ∃ b, R a b := by
  induction h with
  | root ha =>
    obtain ⟨c', hc', hobj⟩ := List.mem_filterMap.mp ha
    obtain ⟨c, hc, rfl⟩ := List.mem_map.mp hc'
    obtain ⟨answer, -, hanswer⟩ := counterpart hanswers hc
    cases c with
    | varInt64 key value => cases hobj
    | object key stru =>
      cases hobj
      cases answer with
      | integer v => cases hanswer
      | object obj =>
        cases hanswer with
        | some hab => exact ⟨_, hab⟩
  | @child a a' _ ha' ih =>
    obtain ⟨b, hab⟩ := ih
    obtain ⟨x, y, hx, -, hxy⟩ := hiso.alike a b hab
    rw [heapStru_eq hx, children_nodeStru] at ha'
    exact related_child hxy ha'

def placeOf : Node → Nat
  | .mmString (some x) => x.ptr
  | _ => 0

def behindAll (heap : Heap) : Nat := (heap.map placeOf).sum + 1

theorem fresh_behindAll : Fresh behindAll := by
  intro heap x hx
  have hle := List.le_sum_of_mem (List.mem_map_of_mem (f := placeOf) hx)
  have hplace : placeOf (.mmString (some x)) = x.ptr := rfl
  unfold behindAll
  omega

/-- The packed objects, closed under what they hold. -/
theorem Offered.closed (h : Offered host heap calls) :
    ∃ U : Finset Addr, Closed (heapStru heap) U ∧ (∀ a, a ∈ U ↔ Packs heap calls a) ∧
      U.card < heap.length + 1 := by
  have hsub : ∀ a, Packs heap calls a → a < heap.length := by
    intro a ha
    obtain ⟨x, hx, -⟩ := h.graph a ha
    exact (List.getElem?_eq_some_iff.mp hx).1
  have hfin : {a | Packs heap calls a}.Finite := (Set.finite_lt_nat heap.length).subset hsub
  have hmem : ∀ a, a ∈ hfin.toFinset ↔ Packs heap calls a := fun a => hfin.mem_toFinset
  refine ⟨hfin.toFinset, fun a ha b hb => (hmem b).mpr (.child ((hmem a).mp ha) hb), hmem, ?_⟩
  have hrange : hfin.toFinset ⊆ Finset.range heap.length := fun a ha =>
    Finset.mem_range.mpr (hsub a ((hmem a).mp ha))
  exact Nat.lt_succ_of_le ((Finset.card_le_card hrange).trans_eq (Finset.card_range _))

theorem Offered.packed (h : Offered host heap calls) {s0 s : MMPacker Addr} {fuel : Nat}
    (hinit : initMMPacker host = .ok s0) (hle : heap.length + 2 ≤ fuel)
    (hrun : packTop host (heapStru heap) fuel (calls.map TopCall.pack) s0 = .ok ((), s)) :
    s.dyb.data.take s.dyb.position = streamBytes host (written heap calls).out := by
  obtain ⟨U, hU, hmem, hcard⟩ := h.closed
  obtain ⟨s1, hinit', h0⟩ := initMMPacker_keeps (A := Addr) host
  obtain rfl := Except.ok.inj (hinit.symm.trans hinit')
  obtain ⟨fuel, rfl⟩ : ∃ n, fuel = n + 1 := ⟨fuel - 1, by omega⟩
  have hobj : ∀ b ∈ objectsOf (calls.map TopCall.pack), b ∈ U := fun b hb =>
    (hmem b).mpr (.root hb)
  have hsame := run_fuel hU (Within.start U) hobj hcard (Nat.le_of_succ_le_succ hle)
  have hlt : ((Ledger.start : Ledger Addr).run (heapStru heap) fuel
      (calls.map TopCall.pack)).size host < 2 ^ 32 := by
    rw [hsame]
    exact h.bytes
  have hs := keeps_of_packTop (heapStru_isMMObject heap) hU h0 (Within.start U) hobj
    (hcard.trans_le (Nat.le_of_succ_le_succ hle)) hlt hrun
  rw [hs.written.written, hsame]
  rfl

/-- What comes back has come back with all its values. -/
theorem present_of_roundTrips (h : Offered host heap calls)
    (hrt : RoundTrips host heap calls StringsKept) {a : Addr} {x : Node}
    (ha : Packs heap calls a) (hx : heap[a]? = some x) : Present x ∧ Short x := by
  obtain ⟨s0, hinit, enough, hpack⟩ := hrt
  obtain ⟨s, hrun, u, hu, many, hunpack⟩ :=
    hpack (enough + (heap.length + 2)) (Nat.le_add_right _ _)
  have hbytes := h.packed hinit (Nat.le_add_left _ _) hrun
  have hlen : (s.dyb.data.take s.dyb.position).length ≤ 2 ^ 32 - 2 + 1 := by
    have hlt : (streamBytes host (written heap calls).out).length < 2 ^ 32 := h.bytes
    rw [hbytes]
    omega
  obtain ⟨⟨root, parsed, hprocess, hroots, -⟩, hall⟩ :=
    hunpack many (many + 1) le_rfl (Nat.le_add_right _ _)
  obtain ⟨answers, s', R, hruns, -, hiso, hanswers⟩ := hall behindAll nothing nothing nothing []
    calls ⟨fresh_behindAll, fun u v hu => absurd hu List.not_mem_nil⟩ (List.Subset.refl _)
  obtain ⟨hnew, hstore, hdata⟩ : u.roots = none ∧ u.store = [] ∧
      u.dyb.data = s.dyb.data.take s.dyb.position := by
    cases Option.some.inj hu
    exact ⟨rfl, rfl, rfl⟩
  have hparsed : parsed.roots.isSome := Option.isSome_iff_exists.mpr ⟨root, hroots⟩
  have hplain : PlainState (2 ^ 32 - 2) (unpackingOf parsed []) :=
    { parsed := hparsed
      data := Contents.process_limited hstore (hdata ▸ hlen) (by decide) hprocess
      heap := fun x hx => absurd hx List.not_mem_nil }
  obtain ⟨b, hab⟩ := related_of_packs hiso hanswers ha
  obtain ⟨x', y, hx', hy, hxy⟩ := hiso.alike a b hab
  obtain rfl := Option.some.inj (hx.symm.trans hx')
  cases calls with
  | nil =>
    cases hruns
    cases hy
  | cons c asked =>
    rw [unpackKeys_first _ [] hnew hparsed (Nat.succ_pos many) hprocess c asked] at hruns
    have hend := plain_unpackKeys (many + 1) (plain_registered behindAll) (c :: asked) _ answers s'
      hplain hruns
    exact present_of_alike hxy (hend.heap y (List.mem_of_getElem? hy)) (by decide)

/-- A graph comes back exactly where no list that it holds has a null entry, and every string has a
value that a `uint` counts. -/
theorem absent_roundTrips_iff (h : Offered host heap calls) :
    RoundTrips host heap calls StringsKept ↔
      ∀ a x, Packs heap calls a → heap[a]? = some x → Present x ∧ Short x := by
  constructor
  · intro hrt a x ha hx
    exact present_of_roundTrips h hrt ha hx
  · intro hall
    exact roundTrips_of_sent True (h.sent hall) (fun _ _ _ _ => trivial) fun _ _ hmem _ => hmem

def oneCall : List TopCall := [.object 0 (some 0)]

def wholeHeap : Heap := [.mmList [some 1, some 2, some 1], .mmString (some ⟨100, []⟩), .mmInt 7]

theorem packs_wholeHeap {a : Addr} (h : Packs wholeHeap oneCall a) : a < 3 :=
  packs_lt (by decide) (by decide) h

theorem offered_wholeHeap : Offered .little wholeHeap oneCall where
  keys := by decide
  distinct := by decide
  values key value hmem := by cases List.mem_singleton.mp hmem
  graph a ha := by
    have hlt := packs_wholeHeap ha
    interval_cases a
    · exact ⟨_, rfl, ((Filled.empty.push (some 1)).push (some 2)).push (some 1)⟩
    · refine ⟨_, rfl, fun x hx => ?_⟩
      cases hx
      exact List.not_mem_nil
    · exact ⟨_, rfl, by decide, by decide⟩
  objects := ncard_packs_lt (fun _ => packs_wholeHeap) (by decide)
  bytes := by decide

theorem absent_roundTrips_iff_wholeHeap : RoundTrips .little wholeHeap oneCall StringsKept := by
  refine (absent_roundTrips_iff offered_wholeHeap).mpr fun a x ha hx => ?_
  have hlt := packs_wholeHeap ha
  interval_cases a <;> cases hx
  all_goals simp [Present, Short]

def gapHeap : Heap := [.mmList (insertEntry (some 1) 2 []), .mmInt 7]

theorem packs_gapHeap {a : Addr} (h : Packs gapHeap oneCall a) : a < 2 :=
  packs_lt (by decide) (by decide) h

theorem offered_gapHeap : Offered .little gapHeap oneCall where
  keys := by decide
  distinct := by decide
  values key value hmem := by cases List.mem_singleton.mp hmem
  graph a ha := by
    have hlt := packs_gapHeap ha
    interval_cases a
    · exact ⟨_, rfl, Filled.empty.insert (some 1) 2⟩
    · exact ⟨_, rfl, by decide, by decide⟩
  objects := ncard_packs_lt (fun _ => packs_gapHeap) (by decide)
  bytes := by decide

def unsetHeap : Heap := [.mmString none]

theorem offered_unsetHeap : Offered .little unsetHeap oneCall where
  keys := by decide
  distinct := by decide
  values key value hmem := by cases List.mem_singleton.mp hmem
  graph a ha := by
    have hlt : a < 1 := packs_lt (by decide) (by decide) ha
    interval_cases a
    exact ⟨_, rfl, fun x hx => by cases hx⟩
  objects := ncard_packs_lt (fun a => packs_lt (n := 1) (by decide) (by decide)) (by decide)
  bytes := by decide

theorem absent_not_roundTrips :
    (Offered .little gapHeap oneCall ∧ ¬RoundTrips .little gapHeap oneCall StringsKept) ∧
      Offered .little unsetHeap oneCall ∧
      ¬RoundTrips .little unsetHeap oneCall StringsKept := by
  have hroot : ∀ heap, Packs heap oneCall 0 := fun heap => .root List.mem_cons_self
  refine ⟨⟨offered_gapHeap, fun hrt => ?_⟩, offered_unsetHeap, fun hrt => ?_⟩
  · have hpresent := (present_of_roundTrips offered_gapHeap hrt (hroot _) rfl).1
    exact absurd (hpresent none (by decide)) (by decide)
  · exact Bool.false_ne_true (present_of_roundTrips offered_unsetHeap hrt (hroot _) rfl).1

end Absence

end LcClibs.Pack.Absent
