import Mathlib
import LcClibs.Pack.HalfBuilt
import LcClibs.Pack.Inits
import LcClibs.Pack.Mirror

namespace LcClibs.Pack.Rebuild

open Platform Lib Lib.Runs Buffer.VarInt Mmo.Object Mmo.Map
open Pack.Records Pack.Process Pack.Classes Pack.Unpacker Pack.Inits Pack.Layout Pack.Mirror
open Pack.Balance (Parsed parse_parsed parse_bind)

section Access

variable {H : Type} {host : Host} {rounds : Nat} {s : Unpacking H} {key : Nat} {a b : Addr}

theorem lastItem_bind {α : Type} {st : List Addr} (f : Addr → UnpackM H α)
    (hs : s.stack = a :: st) : (lastItem >>= f) s = f a s := by
  refine step_ok ?_
  rw [lastItem, step_get, hs]
  rfl

theorem genAt_bind {α : Type} {g : Gen} (f : Gen → UnpackM H α) (h : s.store[a]? = some g) :
    (genAt a >>= f) s = f g s := by
  refine step_ok ?_
  rw [genAt, step_get, h]
  rfl

def Holds (host : Host) (s : Unpacking H) (key : Nat) (b : Addr) : Prop :=
  ∃ top st, s.stack = top :: st ∧
    ((∃ c items k, s.store[top]? = some (.map c items) ∧
      Table.find Prod.fst (intKey host (int32 key)) items = some (k, b)) ∨
    ∃ items, s.store[top]? = some (.list items) ∧ items[key]? = some b)

theorem getByIntFromStack_bind {α : Type} (f : Option Addr → UnpackM H α)
    (h : Holds host s key b) : (getByIntFromStack host key >>= f) s = f (some b) s := by
  obtain ⟨top, st, hs, h⟩ := h
  refine step_ok ?_
  rw [getByIntFromStack, lastItem_bind _ hs]
  obtain ⟨c, items, k, htop, hfind⟩ | ⟨items, htop, hget⟩ := h
  · rw [genAt_bind _ htop]
    simp only [hfind]
    rfl
  · rw [genAt_bind _ htop]
    simp only [hget]
    rfl

theorem unpackVarInt64Impl_ok {v : Int} (hp : Parsed s) (h : Holds host s key b)
    (hb : s.store[b]? = some (.long v)) :
    unpackVarInt64Impl host rounds key s = .ok (v, s) := by
  rw [unpackVarInt64Impl, parse_bind hp, getByIntFromStack_bind _ h]
  exact genAt_bind _ hb

theorem unpackDataImpl_ok (rounds : Nat) {bytes : List UInt8} (hp : Parsed s)
    (h : Holds host s key b) (hb : s.store[b]? = some (.data bytes)) :
    unpackDataImpl host rounds key s = .ok (if bytes = [] then none else some bytes, s) := by
  rw [unpackDataImpl, parse_bind hp, getByIntFromStack_bind _ h]
  exact genAt_bind _ hb

theorem unpackArrayImpl_ok {items : List Addr} (hp : Parsed s) (h : Holds host s key b)
    (hb : s.store[b]? = some (.list items)) :
    unpackArrayImpl host rounds key s =
      .ok (uint items.length, { s with stack := b :: s.stack }) := by
  rw [unpackArrayImpl, parse_bind hp, getByIntFromStack_bind _ h]
  exact genAt_bind _ hb

theorem unpackArrayEndImpl_ok {st : List Addr} (hp : Parsed s) (hs : s.stack = a :: st) :
    unpackArrayEndImpl host rounds s = .ok ((), { s with stack := st }) := by
  rw [unpackArrayEndImpl, parse_bind hp, Unpacker.popItem, step_get, hs]
  rfl

def Leads (host : Host) (s : Unpacking H) (key i : Nat) : Prop :=
  ∃ b, Holds host s key b ∧ s.store[b]? = some (.int (int32 i))

theorem findObject_reference {i : Nat} {k : Int} (h : Leads host s key i)
    (hi : Table.find Prod.fst (int32 i) s.objects = some (k, .reference (some a))) :
    findObject host key s = .ok (.reference (some a), s) := by
  obtain ⟨b, hb, hint⟩ := h
  rw [findObject, getByIntFromStack_bind _ hb]
  refine (genAt_bind _ hint).trans ?_
  simp only [step_get, hi]
  rfl

theorem findObject_props {i : Nat} {k : Int} {m : Addr} {c : Bool} {name k' : List UInt8}
    {items : List (List UInt8 × Addr)} (h : Leads host s key i)
    (hi : Table.find Prod.fst (int32 i) s.objects = some (k, .props m))
    (hm : s.store[m]? = some (.map c items))
    (hn : Table.find Prod.fst className items = some (k', a))
    (ha : s.store[a]? = some (.string name)) :
    findObject host key s = .ok (.props (int32 i) m name, s) := by
  obtain ⟨b, hb, hint⟩ := h
  rw [findObject, getByIntFromStack_bind _ hb]
  refine (genAt_bind _ hint).trans ?_
  simp only [step_get, hi]
  rw [genAt_bind _ hm]
  simp only [hn]
  rw [genAt_bind _ ha]
  rfl

end Access

section Stages

variable {host : Host} {heap : Heap} {order : List Addr} {ordered : Prop} {store : List Gen}
variable {O : List Nat} {s s' s'' : Unpacking Heap} {i j : Nat} {a b : Addr}

def Built (s : Unpacking Heap) (i : Nat) (b : Addr) : Prop :=
  Table.find Prod.fst (int32 i) s.objects = some (int32 i, .reference (some b))

/-- A packed object and what has been built for its number. -/
def Pair (order : List Addr) (s : Unpacking Heap) (a b : Addr) : Prop :=
  ∃ i : Nat, order[i]? = some a ∧ Built s i b

/-- A number for which there are only properties yet, those of its object. -/
def Waits (host : Host) (heap : Heap) (order : List Addr) (s : Unpacking Heap) (i : Nat) : Prop :=
  ∃ a x m, order[i]? = some a ∧ heap[a]? = some x ∧
    Table.find Prod.fst (int32 i) s.objects = some (int32 i, .props m) ∧
    SectionAt host order.idxOf s.store m x.cls.name (slots x)

/-- The objects that were packed: each has one number that a header carries, is what its class
can have, and holds none but packed ones. -/
structure Plan (host : Host) (heap : Heap) (order : List Addr) (ordered : Prop) : Prop where
  nodup : order.Nodup
  length_le : order.length ≤ 2 ^ 20
  valid : ∀ a ∈ order, ∃ x, heap[a]? = some x ∧ Wellformed host heap x
  closed : ∀ a ∈ order, ∀ x, heap[a]? = some x → ∀ s ∈ slots x, s.Counted ∧
    ∀ key refs, s = .array key refs → ∀ r ∈ refs, r.2 ∈ order
  sorted : ∀ a ∈ order, ∀ items, heap[a]? = some (.mmMap true items) → ordered

/-- The unpacker between two calls, some objects being under construction. Every other object
that has been built is like the packed one. -/
structure Stage (host : Host) (heap : Heap) (order : List Addr) (ordered : Prop) (O : List Nat)
    (s : Unpacking Heap) : Prop where
  parsed : Parsed s
  idle : s.lastObjectNum = none
  entries : ∀ i < order.length, Waits host heap order s i ∨ ∃ b, Built s i b
  inside : ∀ i < order.length, ∀ b, Built s i b → b < s.heap.length
  apart : ∀ i < order.length, ∀ j < order.length, ∀ b, Built s i b → Built s j b → i = j
  done : ∀ i < order.length, ∀ b, Built s i b → i ∉ O →
    ∃ a x y, order[i]? = some a ∧ heap[a]? = some x ∧ s.heap[b]? = some y ∧
      Alike (Pair order s) x y
  memory : ordered → StringsApart s.heap

structure Later (s s' : Unpacking Heap) : Prop where
  stack : s'.stack = s.stack
  store : s'.store = s.store
  heap : s.heap <+: s'.heap
  built : ∀ i b, Built s i b → Built s' i b

theorem Later.refl (s : Unpacking Heap) : Later s s := ⟨rfl, rfl, List.prefix_rfl, fun _ _ h => h⟩

theorem Later.trans (h : Later s s') (h' : Later s' s'') : Later s s'' where
  stack := h'.stack.trans h.stack
  store := h'.store.trans h.store
  heap := h.heap.trans h'.heap
  built i b hb := h'.built i b (h.built i b hb)

theorem Pair.later (h : Pair order s a b) (hl : ∀ i b, Built s i b → Built s' i b) :
    Pair order s' a b := by
  obtain ⟨i, ha, hb⟩ := h
  exact ⟨i, ha, hl i b hb⟩

open Classical in
/-- How many objects have not been built. -/
noncomputable def left (order : List Addr) (s : Unpacking Heap) : Nat :=
  ((Finset.range order.length).filter fun i => ∀ b, ¬Built s i b).card

theorem left_le (h : ∀ i b, Built s i b → Built s' i b) : left order s' ≤ left order s := by
  classical
  refine Finset.card_le_card fun i hi => ?_
  obtain ⟨hlt, hnone⟩ := Finset.mem_filter.mp hi
  exact Finset.mem_filter.mpr ⟨hlt, fun b hb => hnone b (h i b hb)⟩

theorem left_lt (h : ∀ i b, Built s i b → Built s' i b) (hi : i < order.length)
    (hs : ∀ b, ¬Built s i b) (hs' : Built s' i b) : left order s' < left order s := by
  classical
  refine Finset.card_lt_card (Finset.ssubset_iff_of_subset ?_ |>.mpr ⟨i, ?_, ?_⟩)
  · intro j hj
    obtain ⟨hlt, hnone⟩ := Finset.mem_filter.mp hj
    exact Finset.mem_filter.mpr ⟨hlt, fun b hb => hnone b (h j b hb)⟩
  · exact Finset.mem_filter.mpr ⟨Finset.mem_range.mpr hi, hs⟩
  · intro hmem
    exact (Finset.mem_filter.mp hmem).2 b hs'

theorem Stage.withStack (h : Stage host heap order ordered O s) (st : List Addr) :
    Stage host heap order ordered O { s with stack := st } :=
  ⟨h.parsed, h.idle, h.entries, h.inside, h.apart, h.done, h.memory⟩

theorem Stage.write (h : Stage host heap order ordered (i :: O) s) (hi : i < order.length)
    (hb : Built s i b) {y : Node} (hy : ordered → StringsApart (s.heap.set b y)) :
    Stage host heap order ordered (i :: O) { s with heap := s.heap.set b y } where
  parsed := h.parsed
  idle := h.idle
  entries := h.entries
  inside j hj c hc := by
    rw [List.length_set]
    exact h.inside j hj c hc
  apart := h.apart
  done j hj c hc hO := by
    obtain ⟨a, x, z, ha, hx, hz, halike⟩ := h.done j hj c hc hO
    have hne : b ≠ c := by
      rintro rfl
      exact hO (h.apart j hj i hi b hc hb ▸ List.mem_cons_self)
    exact ⟨a, x, z, ha, hx, (List.getElem?_set_ne hne).trans hz, halike⟩
  memory := hy

theorem Stage.close (h : Stage host heap order ordered (i :: O) s) (hb : Built s i b) {x y : Node}
    (ha : order[i]? = some a) (hx : heap[a]? = some x) (hy : s.heap[b]? = some y)
    (hxy : Alike (Pair order s) x y) : Stage host heap order ordered O s :=
  { h with
    done := fun j hj c hc hO => by
      by_cases hji : j = i
      · subst hji
        obtain rfl : b = c := by
          rw [Built, hb] at hc
          cases hc
          rfl
        exact ⟨a, x, y, ha, hx, hy, hxy⟩
      · exact h.done j hj c hc fun hmem => (List.mem_cons.mp hmem).elim hji hO }

def registered (s : Unpacking Heap) (i : Nat) (st : List Addr) (y : Node) : Unpacking Heap :=
  { s with
    stack := st
    objects := Table.put Prod.fst (int32 i, Entry.reference (some s.heap.length)) s.objects
    lastObjectNum := none
    heap := s.heap ++ [y] }

theorem built_registered (i : Nat) (s : Unpacking Heap) (st : List Addr) (y : Node) :
    Built (registered s i st y) i s.heap.length :=
  find_put_pair _ _ _

theorem built_mono (hw : Waits host heap order s i) (st : List Addr) (y : Node) (j : Nat) (b : Addr)
    (h : Built s j b) : Built (registered s i st y) j b := by
  obtain ⟨-, -, m, -, -, hprops, -⟩ := hw
  refine (find_put_pair_ne ?_ _ _).trans h
  intro heq
  rw [Built, heq, hprops] at h
  cases h

theorem built_registered_ne (hi : i ≤ 0xFFFFF) (hj : j ≤ 0xFFFFF) (hji : j ≠ i) {st : List Addr}
    {y : Node} (h : Built (registered s i st y) j b) : Built s j b :=
  (find_put_pair_ne (fun heq => hji (int32_inj hj hi heq)) _ _).symm.trans h

theorem Stage.register (hp : Plan host heap order ordered) (h : Stage host heap order ordered O s)
    (hi : i < order.length) (hw : Waits host heap order s i) (st : List Addr) {y : Node}
    (hy : ∀ x, y ≠ .mmString (some x)) :
    Stage host heap order ordered (i :: O) (registered s i st y) := by
  have hle : ∀ j < order.length, j ≤ 0xFFFFF := fun j hj => by
    have := hp.length_le
    omega
  have hold : ∀ j < order.length, ∀ b, Built (registered s i st y) j b →
      j = i ∧ b = s.heap.length ∨ Built s j b := by
    intro j hj b hb
    by_cases hji : j = i
    · subst hji
      rw [Built, built_registered] at hb
      cases hb
      exact .inl ⟨rfl, rfl⟩
    · exact .inr (built_registered_ne (hle i hi) (hle j hj) hji hb)
  have hmono := built_mono hw st y
  exact
    { parsed := h.parsed
      idle := rfl
      entries := fun j hj => by
        by_cases hji : j = i
        · subst hji
          exact .inr ⟨_, built_registered j s st y⟩
        · obtain ⟨a, x, m, ha, hx, hm, hsec⟩ | ⟨b, hb⟩ := h.entries j hj
          · refine .inl ⟨a, x, m, ha, hx, ?_, hsec⟩
            exact (find_put_pair_ne (fun heq => hji (int32_inj (hle j hj) (hle i hi) heq)) _
              _).trans hm
          · exact .inr ⟨b, hmono j b hb⟩
      inside := fun j hj b hb => by
        show b < (s.heap ++ [y]).length
        rw [List.length_append, List.length_singleton]
        obtain ⟨-, rfl⟩ | hb := hold j hj b hb
        · exact Nat.lt_succ_self _
        · exact Nat.lt_succ_of_lt (h.inside j hj b hb)
      apart := fun j hj k hk b hb hb' => by
        obtain ⟨rfl, rfl⟩ | hb := hold j hj b hb
        · obtain ⟨rfl, -⟩ | hb' := hold k hk _ hb'
          · rfl
          · exact absurd (h.inside k hk _ hb') (lt_irrefl _)
        · obtain ⟨-, rfl⟩ | hb' := hold k hk b hb'
          · exact absurd (h.inside j hj _ hb) (lt_irrefl _)
          · exact h.apart j hj k hk b hb hb'
      done := fun j hj b hb hO => by
        obtain ⟨rfl, -⟩ | hb := hold j hj b hb
        · exact absurd List.mem_cons_self hO
        · obtain ⟨a, x, z, ha, hx, hz, halike⟩ :=
            h.done j hj b hb fun hmem => hO (List.mem_cons_of_mem _ hmem)
          exact ⟨a, x, z, ha, hx, (List.getElem?_append_left (h.inside j hj b hb)).trans hz,
            halike.mono fun _ _ hab => hab.later hmono⟩
      memory := fun ho => (h.memory ho).append hy }

end Stages

section Loops

variable {host : Host} {rounds : Nat} {heap : Heap} {order : List Addr} {ordered : Prop}
variable {O : List Nat} {s s' s'' : Unpacking Heap} {i num fuel : Nat} {a b l : Addr}
variable {unpackObject : Nat → UnpackM Heap (Option Addr)}

/-- What the construction of one object leaves as it was, its own memory apart. -/
structure Grew (b : Addr) (s s' : Unpacking Heap) : Prop where
  store : s'.store = s.store
  length : s.heap.length ≤ s'.heap.length
  same : ∀ a < s.heap.length, a ≠ b → s'.heap[a]? = s.heap[a]?
  built : ∀ i b, Built s i b → Built s' i b

theorem Grew.trans (h : Grew b s s') (h' : Grew b s' s'') : Grew b s s'' where
  store := h'.store.trans h.store
  length := h.length.trans h'.length
  same a ha hne := (h'.same a (ha.trans_le h.length) hne).trans (h.same a ha hne)
  built i b hb := h'.built i b (h.built i b hb)

theorem getElem?_beginning {α : Type} {xs ys : List α} (h : xs <+: ys) {k : Nat}
    (hk : k < xs.length) : ys[k]? = xs[k]? := by
  obtain ⟨t, rfl⟩ := h
  exact List.getElem?_append_left hk

theorem Later.grew (h : Later s s') (b : Addr) : Grew b s s' :=
  ⟨h.store, h.heap.length_le, fun _ ha _ => getElem?_beginning h.heap ha, h.built⟩

theorem Grew.write (s : Unpacking Heap) (b : Addr) (y : Node) :
    Grew b s { s with heap := s.heap.set b y } :=
  ⟨rfl, (List.length_set ..).ge, fun _ _ hne => List.getElem?_set_ne (Ne.symm hne), fun _ _ h => h⟩

theorem Grew.withStack (s : Unpacking Heap) (b : Addr) (st : List Addr) :
    Grew b s { s with stack := st } :=
  ⟨rfl, le_rfl, fun _ _ _ => rfl, fun _ _ h => h⟩

/-- The objects under construction hold others, so that none of them is a key. -/
def Holders (heap : Heap) (order : List Addr) (O : List Nat) : Prop :=
  ∀ j ∈ O, ∀ a x, order[j]? = some a → heap[a]? = some x → isPrimary x.cls = false

/-- An unpack function that builds whatever a key leads to, as long as not too much is left. -/
def Unpacks (host : Host) (heap : Heap) (order : List Addr) (ordered : Prop)
    (unpackObject : Nat → UnpackM Heap (Option Addr)) (fuel : Nat) : Prop :=
  ∀ O s key i, Stage host heap order ordered O s → Holders heap order O → i < order.length →
    left order s < fuel → Leads host s key i →
    ∃ b s', unpackObject key s = .ok (some b, s') ∧ Stage host heap order ordered O s' ∧
      Later s s' ∧ Built s' i b

theorem Unpacks.item (hu : Unpacks host heap order ordered unpackObject fuel)
    (h : Stage host heap order ordered O s) (hO : Holders heap order O)
    (hleft : left order s < fuel) {as st : List Addr} {refs : List (Nat × Addr)} {k : Nat}
    {r : Nat × Addr} (hs : s.stack = l :: st) (hl : s.store[l]? = some (.list as))
    (hrefs : RefsAt order.idxOf s.store as refs) (hr : refs[k]? = some r) (hmem : r.2 ∈ order) :
    ∃ b s', unpackObject k s = .ok (some b, s') ∧ Stage host heap order ordered O s' ∧
      Later s s' ∧ Pair order s' r.2 b := by
  have hlen := hrefs.length_eq
  have hk : k < refs.length := (List.getElem?_eq_some_iff.mp hr).1
  have hget := hrefs.get (hlen.symm ▸ hk) hk
  have hrk : refs.get ⟨k, hk⟩ = r := (List.getElem?_eq_some_iff.mp hr).2
  rw [hrk] at hget
  have hlt := List.idxOf_lt_length_iff.mpr hmem
  obtain ⟨b, s', hrun, hstage, hlater, hb⟩ := hu O s k (order.idxOf r.2) h hO hlt hleft
    ⟨_, ⟨l, st, hs, .inr ⟨as, hl, List.getElem?_eq_getElem (hlen.symm ▸ hk)⟩⟩, hget⟩
  refine ⟨b, s', hrun, hstage, hlater, order.idxOf r.2, ?_, hb⟩
  rw [List.getElem?_eq_getElem hlt, List.getElem_idxOf hlt]

theorem initMMListItems_ok (rounds : Nat)
    (hu : Unpacks host heap order ordered unpackObject fuel)
    (h : Stage host heap order ordered (num :: O) s) (hO : Holders heap order (num :: O))
    (hnum : num < order.length) (hb : Built s num b) (hleft : left order s < fuel)
    {as st : List Addr} {refs pre rest : List (Nat × Addr)} {ys : List (Option Addr)}
    (hsplit : refs = pre ++ rest) (hs : s.stack = l :: st) (hl : s.store[l]? = some (.list as))
    (hrefs : RefsAt order.idxOf s.store as refs) (hmem : ∀ r ∈ refs, r.2 ∈ order)
    (hy : s.heap[b]? = some (.mmList ys))
    (hys : List.Forall₂ (Option.Rel (Pair order s)) (pre.map fun r => some r.2) ys) :
    ∃ s' ys', runInit host rounds unpackObject (initMMListItems b rest.length pre.length) s =
        .ok (true, s') ∧ Stage host heap order ordered (num :: O) s' ∧ s'.stack = st ∧
      Grew b s s' ∧ s'.heap[b]? = some (.mmList ys') ∧
      List.Forall₂ (Option.Rel (Pair order s')) (refs.map fun r => some r.2) ys' := by
  induction rest generalizing s pre ys with
  | nil =>
    refine ⟨{ s with stack := st }, ys, ?_, h.withStack st, rfl, .withStack s b st, hy, ?_⟩
    · exact step_ok (unpackArrayEndImpl_ok h.parsed hs)
    · rw [hsplit, List.append_nil]
      exact hys
  | cons r rest ih =>
    have hr : refs[pre.length]? = some r := by
      rw [hsplit, List.getElem?_append_right le_rfl, Nat.sub_self]
      rfl
    obtain ⟨b1, s1, hrun, h1, hlater, hpair⟩ := hu.item h hO hleft hs hl hrefs hr
      (hmem r (List.mem_of_getElem? hr))
    have hblt : b < s.heap.length := (List.getElem?_eq_some_iff.mp hy).1
    have hy1 : s1.heap[b]? = some (.mmList ys) :=
      (getElem?_beginning hlater.heap hblt).trans hy
    have hpush : pushMMListItem b (some b1) s1.heap =
        s1.heap.set b (.mmList (ys ++ [some b1])) := by
      rw [pushMMListItem, hy1]
    have h2 := h1.write hnum (hlater.built _ _ hb) (y := .mmList (ys ++ [some b1]))
      fun ho => (h1.memory ho).set (fun x => by nofun) b
    have hys2 : List.Forall₂ (Option.Rel (Pair order s1)) ((pre ++ [r]).map fun r => some r.2)
        (ys ++ [some b1]) := by
      rw [List.map_append]
      refine List.rel_append (hys.imp fun o o' hoo => ?_) (.cons (.some hpair) .nil)
      cases hoo with
      | some hab => exact .some (hab.later hlater.built)
      | none => exact .none
    obtain ⟨s3, ys', hrun3, h3, hst3, hg3, hy3, hys3⟩ := ih
      (s := { s1 with heap := s1.heap.set b (.mmList (ys ++ [some b1])) }) h2 (hlater.built _ _ hb)
      ((left_le hlater.built).trans_lt hleft)
      (by rw [hsplit, List.append_assoc]; rfl) (hlater.stack.trans hs)
      (by rw [← hl, ← hlater.store]) (by rw [← hlater.store] at hrefs; exact hrefs)
      (List.getElem?_set_self (hblt.trans_le hlater.heap.length_le)) hys2
    refine ⟨s3, ys', ?_, h3, hst3, ((hlater.grew b).trans (.write s1 b _)).trans hg3, hy3, hys3⟩
    rw [List.length_append, List.length_singleton] at hrun3
    rw [← hrun3, ← hpush]
    exact step_ok hrun

def pairs (items : List MapItem) : List (Nat × Addr) :=
  items.flatMap fun i => [(0, i.key), (1, i.value)]

theorem pairs_length (items : List MapItem) : (pairs items).length = 2 * items.length := by
  induction items with
  | nil => rfl
  | cons i items ih =>
    rw [pairs, List.flatMap_cons, List.length_append]
    rw [pairs] at ih
    rw [ih, List.length_cons, List.length_cons, List.length_cons, List.length_nil]
    omega

theorem pairs_key (pre rest : List MapItem) (i : MapItem) :
    (pairs (pre ++ i :: rest))[2 * pre.length]? = some (0, i.key) := by
  rw [pairs, List.flatMap_append, ← pairs, List.getElem?_append_right (pairs_length pre).le,
    pairs_length, Nat.sub_self]
  rfl

theorem pairs_value (pre rest : List MapItem) (i : MapItem) :
    (pairs (pre ++ i :: rest))[2 * pre.length + 1]? = some (1, i.value) := by
  rw [pairs, List.flatMap_append, ← pairs,
    List.getElem?_append_right ((pairs_length pre).le.trans (Nat.le_add_right _ 1)), pairs_length,
    Nat.add_sub_cancel_left]
  rfl

def ItemPair (order : List Addr) (s : Unpacking Heap) (i j : MapItem) : Prop :=
  i.hashKey = j.hashKey ∧ Pair order s i.key j.key ∧ Pair order s i.value j.value

theorem Stage.key_alike (h : Stage host heap order ordered O s) (hO : Holders heap order O)
    (hab : Pair order s a b) {k : Node} (hk : heap[a]? = some k) (hp : isPrimary k.cls = true) :
    ∃ y, s.heap[b]? = some y ∧ Alike (Pair order s) k y := by
  obtain ⟨j, ha, hb⟩ := hab
  have hj : j < order.length := (List.getElem?_eq_some_iff.mp ha).1
  have hjO : j ∉ O := fun hmem => by
    have := hO j hmem a k ha hk
    rw [hp] at this
    cases this
  obtain ⟨a', x, y, ha', hx, hy, halike⟩ := h.done j hj b hb hjO
  rw [ha] at ha'
  cases ha'
  rw [hk] at hx
  cases hx
  exact ⟨y, hy, halike⟩

theorem addMMMapItem_next (h : Stage host heap order ordered O s) (hO : Holders heap order O)
    {sorted : Bool} {items pre rest ys : List MapItem} {i : MapItem} {key : Addr}
    (value : Addr) (hkept : MapKept host heap sorted items) (ho : sorted = true → ordered)
    (hsplit : items = pre ++ i :: rest) (hy : s.heap[b]? = some (.mmMap sorted ys))
    (hys : List.Forall₂ (ItemPair order s) pre ys) (hkey : Pair order s i.key key) :
    addMMMapItem host b key value s.heap =
      s.heap.set b (.mmMap sorted (ys ++ [⟨i.hashKey, key, value⟩])) := by
  have hmem : i ∈ items := hsplit ▸ List.mem_append_right _ List.mem_cons_self
  obtain ⟨k, hk, hprim, hhash⟩ := hkept.keys i hmem
  obtain ⟨z, hz, halike⟩ := h.key_alike hO hkey hk hprim
  have hadd : addItem (compareMapItems s.heap) sorted ⟨i.hashKey, key, value⟩ ys =
      ys ++ [⟨i.hashKey, key, value⟩] := by
    refine addItem_append ?_ fun hs j hj => ?_
    · have hmap : ys.map MapItem.hashKey = pre.map MapItem.hashKey := by
        clear hy hsplit
        induction hys with
        | nil => rfl
        | cons hij _ ih => rw [List.map_cons, List.map_cons, ih, hij.1]
      have hnd := hkept.distinct
      rw [hsplit, List.map_append, List.nodup_append] at hnd
      rw [hmap]
      exact fun hin => hnd.2.2 _ hin _ List.mem_cons_self rfl
    · obtain ⟨i', hi', hpair⟩ : ∃ i' ∈ pre, ItemPair order s i' j := by
        clear hy hsplit
        induction hys with
        | nil => cases hj
        | cons hij _ ih =>
          obtain rfl | hj := List.mem_cons.mp hj
          · exact ⟨_, List.mem_cons_self, hij⟩
          · obtain ⟨i', hi', hp⟩ := ih hj
            exact ⟨i', List.mem_cons_of_mem _ hi', hp⟩
      have hless : ItemsLess heap i' i := by
        have hpw := hkept.ordered hs
        rw [hsplit, List.pairwise_append] at hpw
        exact hpw.2.2 i' hi' i List.mem_cons_self
      obtain ⟨k', l', hk', hl', hlt⟩ := hless
      obtain ⟨k2, hk2, hprim2, -⟩ := hkept.keys i' (hsplit ▸ List.mem_append_left _ hi')
      rw [hk'] at hk2
      cases hk2
      rw [hk] at hl'
      cases hl'
      obtain ⟨z', hz', halike'⟩ := h.key_alike hO hpair.2.1 hk' hprim2
      exact (compareMapItems_neg (h.memory (ho hs)) hz' hz (hlt.alike halike' halike)).le
  rw [addMMMapItem, hy, hz]
  dsimp only
  rw [← halike.hash_eq, ← hhash, hadd]

theorem ItemPair.later {i j : MapItem} (h : ItemPair order s i j)
    (hl : ∀ i b, Built s i b → Built s' i b) : ItemPair order s' i j :=
  ⟨h.1, h.2.1.later hl, h.2.2.later hl⟩

theorem toMMPrimary_some {heap : Heap} {a : Addr} {x : Node} (hx : heap[a]? = some x)
    (hp : isPrimary x.cls = true) : toMMPrimary heap (some a) = some a := by
  simp [toMMPrimary, hx, hp]

/-- The loop over the items of a map. -/
theorem initMMMapItems_ok (rounds : Nat)
    (hu : Unpacks host heap order ordered unpackObject fuel)
    (h : Stage host heap order ordered (num :: O) s) (hO : Holders heap order (num :: O))
    (hnum : num < order.length) (hb : Built s num b) (hleft : left order s < fuel)
    {as st : List Addr} {sorted : Bool} {items pre rest ys : List MapItem}
    (hkept : MapKept host heap sorted items) (ho : sorted = true → ordered)
    (hsplit : items = pre ++ rest) (hs : s.stack = l :: st) (hl : s.store[l]? = some (.list as))
    (hrefs : RefsAt order.idxOf s.store as (pairs items))
    (hmem : ∀ r ∈ pairs items, r.2 ∈ order) (hy : s.heap[b]? = some (.mmMap sorted ys))
    (hys : List.Forall₂ (ItemPair order s) pre ys) :
    ∃ s' ys', runInit host rounds unpackObject
        (initMMMapItems host b rest.length (2 * pre.length)) s = .ok (true, s') ∧
      Stage host heap order ordered (num :: O) s' ∧ s'.stack = st ∧ Grew b s s' ∧
      s'.heap[b]? = some (.mmMap sorted ys') ∧ List.Forall₂ (ItemPair order s') items ys' := by
  induction rest generalizing s pre ys with
  | nil =>
    refine ⟨{ s with stack := st }, ys, ?_, h.withStack st, rfl, .withStack s b st, hy, ?_⟩
    · exact step_ok (unpackArrayEndImpl_ok h.parsed hs)
    · rw [hsplit, List.append_nil]
      exact hys
  | cons i rest ih =>
    have hkey : (pairs items)[2 * pre.length]? = some (0, i.key) := by
      rw [hsplit, pairs_key]
    have hvalue : (pairs items)[2 * pre.length + 1]? = some (1, i.value) := by
      rw [hsplit, pairs_value]
    have hblt : b < s.heap.length := (List.getElem?_eq_some_iff.mp hy).1
    -- the key, which is complete, and the value, which need not be
    obtain ⟨b1, s1, hrun1, h1, hlater1, hpair1⟩ := hu.item h hO hleft hs hl hrefs hkey
      (hmem _ (List.mem_of_getElem? hkey))
    obtain ⟨k, hk, hprim, -⟩ := hkept.keys i (hsplit ▸ List.mem_append_right _ List.mem_cons_self)
    obtain ⟨z, hz, halike⟩ := h1.key_alike hO hpair1 hk hprim
    have hprimary : toMMPrimary s1.heap (some b1) = some b1 :=
      toMMPrimary_some hz (by rw [← halike.cls_eq, hprim])
    obtain ⟨b2, s2, hrun2, h2, hlater2, hpair2⟩ := hu.item h1 hO
      ((left_le hlater1.built).trans_lt hleft) (hlater1.stack.trans hs)
      (by rw [← hl, ← hlater1.store]) (by rw [← hlater1.store] at hrefs; exact hrefs) hvalue
      (hmem _ (List.mem_of_getElem? hvalue))
    have hlater := hlater1.trans hlater2
    have hy2 : s2.heap[b]? = some (.mmMap sorted ys) :=
      (getElem?_beginning hlater.heap hblt).trans hy
    have hys2 : List.Forall₂ (ItemPair order s2) pre ys :=
      hys.imp fun i j hij => hij.later hlater.built
    have hadd := addMMMapItem_next h2 hO b2 hkept ho hsplit hy2 hys2
      (hpair1.later hlater2.built)
    have hys3 : List.Forall₂ (ItemPair order s2) (pre ++ [i]) (ys ++ [⟨i.hashKey, b1, b2⟩]) :=
      List.rel_append hys2 (.cons ⟨rfl, hpair1.later hlater2.built, hpair2⟩ .nil)
    have h3 := h2.write hnum (hlater.built _ _ hb)
      (y := .mmMap sorted (ys ++ [⟨i.hashKey, b1, b2⟩]))
      fun ho => (h2.memory ho).set (fun x => by nofun) b
    obtain ⟨s4, ys', hrun4, h4, hst4, hg4, hy4, hys4⟩ := ih
      (s := { s2 with heap := s2.heap.set b (.mmMap sorted (ys ++ [⟨i.hashKey, b1, b2⟩])) }) h3
      (hlater.built _ _ hb) ((left_le hlater.built).trans_lt hleft)
      (by rw [hsplit, List.append_assoc]; rfl) (hlater.stack.trans hs)
      (by rw [← hl, ← hlater.store]) (by rw [← hlater.store] at hrefs; exact hrefs)
      (List.getElem?_set_self (hblt.trans_le hlater.heap.length_le))
      hys3
    refine ⟨s4, ys', ?_, h4, hst4, ((hlater.grew b).trans (.write s2 b _)).trans hg4, hy4, hys4⟩
    rw [List.length_append, List.length_singleton, Nat.mul_succ] at hrun4
    rw [← hrun4, ← hadd]
    refine (step_ok hrun1).trans ?_
    refine (step_get _ _).trans ?_
    refine (step_ok hrun2).trans ?_
    rw [hprimary]
    rfl

end Loops

section InitFunctions

variable {host : Host} {rounds : Nat} {heap : Heap} {order : List Addr} {ordered : Prop}
variable {O : List Nat} {s : Unpacking Heap} {num fuel : Nat} {a b c d : Addr} {st : List Addr}
variable {unpackObject : Nat → UnpackM Heap (Option Addr)} {alloc : Heap → Nat} {x : Node}
variable {ctx : List (List UInt8 × Addr)}

/-- What an init function has to do: it goes on to the end, and makes the new object like the
packed one. -/
def Initializes (host : Host) (rounds : Nat) (heap : Heap) (order : List Addr) (ordered : Prop)
    (O : List Nat) (unpackObject : Nat → UnpackM Heap (Option Addr)) (num : Nat) (b : Addr)
    (init : Init Heap) (x : Node) (s : Unpacking Heap) : Prop :=
  ∃ s' y, runInit host rounds unpackObject init s = .ok (true, s') ∧
    Stage host heap order ordered (num :: O) s' ∧ s'.stack = s.stack ∧ Grew b s s' ∧
    s'.heap[b]? = some y ∧ Alike (Pair order s') x y

theorem initializes_write (h : Stage host heap order ordered (num :: O) s)
    (hnum : num < order.length) (hb : Built s num b) (hlt : b < s.heap.length) {init : Init Heap}
    {y : Node} (hy : ordered → StringsApart (s.heap.set b y))
    (hrun : runInit host rounds unpackObject init s =
      .ok (true, { s with heap := s.heap.set b y }))
    (hxy : Alike (Pair order s) x y) :
    Initializes host rounds heap order ordered O unpackObject num b init x s :=
  ⟨_, y, hrun, h.write hnum hb hy, rfl, .write s b y, List.getElem?_set_self hlt, hxy⟩

theorem holds_slot (hs : s.stack = c :: st) (hc : s.store[c]? = some (.map true ctx)) {key : Nat}
    {k : List UInt8} (hd : Table.find Prod.fst (intKey host (int32 key)) ctx = some (k, d)) :
    Holds host s key d :=
  ⟨c, st, hs, .inl ⟨true, ctx, k, hc, hd⟩⟩

theorem initMMInt_ok (h : Stage host heap order ordered (num :: O) s) (hnum : num < order.length)
    (hb : Built s num b) (hlt : b < s.heap.length) {value : Int}
    (hv : -2 ^ 31 ≤ value ∧ value < 2 ^ 31) (hd : Holds host s 0 d)
    (hat : s.store[d]? = some (.long value)) :
    Initializes host rounds heap order ordered O unpackObject num b (initMMInt b)
      (.mmInt value) s := by
  refine initializes_write h hnum hb hlt (y := .mmInt value)
    (fun ho => (h.memory ho).set (fun x => by nofun) b) ?_ (.mmInt value)
  rw [initMMInt, runInit]
  refine (step_ok (unpackVarInt64Impl_ok h.parsed hd hat)).trans ?_
  rw [int32_of_range hv.1 hv.2]
  rfl

theorem initMMLong_ok (h : Stage host heap order ordered (num :: O) s) (hnum : num < order.length)
    (hb : Built s num b) (hlt : b < s.heap.length) {value : Int} (hd : Holds host s 0 d)
    (hat : s.store[d]? = some (.long value)) :
    Initializes host rounds heap order ordered O unpackObject num b (initMMLong b)
      (.mmLong value) s := by
  refine initializes_write h hnum hb hlt (y := .mmLong value)
    (fun ho => (h.memory ho).set (fun x => by nofun) b) ?_ (.mmLong value)
  rw [initMMLong, runInit]
  exact step_ok (unpackVarInt64Impl_ok h.parsed hd hat)

/-- An allocator that gives no memory that a string lies in. -/
def Fresh (alloc : Heap → Nat) : Prop :=
  ∀ heap x, .mmString (some x) ∈ heap → x.ptr ≠ alloc heap

theorem takeWhile_cstring {bytes : List UInt8} (h0 : 0 ∉ bytes) :
    (bytes ++ [0]).takeWhile (· ≠ 0) = bytes := by
  rw [List.takeWhile_append_of_pos]
  · simp
  · intro v hv
    simpa using fun (h : v = 0) => h0 (h ▸ hv)

theorem initMMString_ok (h : Stage host heap order ordered (num :: O) s)
    (hnum : num < order.length) (hb : Built s num b) (hlt : b < s.heap.length)
    (hfresh : ordered → Fresh alloc) {x : Blob} (h0 : 0 ∉ x.bytes) (hd : Holds host s 0 d)
    (hat : s.store[d]? = some (.data (x.bytes ++ [0]))) :
    Initializes host rounds heap order ordered O unpackObject num b (initMMString alloc b)
      (.mmString (some x)) s := by
  refine initializes_write h hnum hb hlt (y := .mmString (some ⟨alloc s.heap, x.bytes⟩))
    (fun ho => (h.memory ho).set_new b fun u hu => hfresh ho s.heap u hu) ?_ (.mmString rfl)
  rw [initMMString, runInit]
  refine (step_ok (unpackDataImpl_ok rounds h.parsed hd hat)).trans ?_
  rw [if_neg (List.append_ne_nil_of_right_ne_nil _ (List.cons_ne_nil _ _))]
  show (runInit host rounds unpackObject (.write _ _)) s = _
  rw [takeWhile_cstring h0]
  rfl

theorem initMMData_ok (h : Stage host heap order ordered (num :: O) s)
    (hnum : num < order.length) (hb : Built s num b) {data : Option Blob}
    (hy : s.heap[b]? = some (.mmData none)) (hd : Holds host s 0 d)
    (hat : s.store[d]? = some (.data ((data.map Blob.bytes).getD []))) :
    Initializes host rounds heap order ordered O unpackObject num b (initMMData alloc b)
      (.mmData data) s := by
  have hlt : b < s.heap.length := (List.getElem?_eq_some_iff.mp hy).1
  have hdata := unpackDataImpl_ok rounds h.parsed hd hat
  by_cases he : (data.map Blob.bytes).getD [] = []
  · rw [if_pos he] at hdata
    refine ⟨s, _, ?_, h, rfl, (Later.refl s).grew b, hy, .mmData he nofun⟩
    rw [initMMData, runInit]
    exact step_ok hdata
  · rw [if_neg he] at hdata
    refine initializes_write h hnum hb hlt
      (y := .mmData (some ⟨alloc s.heap, (data.map Blob.bytes).getD []⟩))
      (fun ho => (h.memory ho).set (fun x => by nofun) b) ?_ (.mmData rfl fun u hu => ?_)
    · rw [initMMData, runInit]
      exact step_ok hdata
    · cases hu
      exact he

theorem refs_of_present {xs : List (Option Addr)} (h : ∀ o ∈ xs, o.isSome) :
    ((xs.filterMap fun o => o.map fun a => (0, a)) : List (Nat × Addr)).map (fun r => some r.2) =
      xs := by
  induction xs with
  | nil => rfl
  | cons o xs ih =>
    obtain ⟨a, rfl⟩ := Option.isSome_iff_exists.mp (h o List.mem_cons_self)
    have ht := ih fun o ho => h o (List.mem_cons_of_mem _ ho)
    exact congrArg (some a :: ·) ht

theorem opens_array {A : Type} {refs : List (Nat × A)} (rounds : Nat) (hp : Parsed s) {key : Nat}
    (hcount : refs.length + 1 < 2 ^ 32) {as : List Addr} (hd : Holds host s key d)
    (hl : s.store[d]? = some (.list as)) (hlen : as.length = refs.length) :
    unpackArrayImpl host rounds key s =
      .ok (refs.length, { s with stack := d :: s.stack }) := by
  rw [unpackArrayImpl_ok hp hd hl, hlen, uint_of_lt (Nat.lt_of_succ_lt hcount)]

theorem initMMList_ok (hu : Unpacks host heap order ordered unpackObject fuel)
    (h : Stage host heap order ordered (num :: O) s) (hO : Holders heap order (num :: O))
    (hnum : num < order.length) (hb : Built s num b) (hleft : left order s < fuel)
    {xs : List (Option Addr)} (hxs : ∀ o ∈ xs, o.isSome)
    (hcount : ∀ s ∈ slots (.mmList xs), s.Counted)
    (hmem : ∀ r ∈ xs.filterMap fun o => o.map fun a => (0, a), r.2 ∈ order)
    (hd : Holds host s 0 d) (hy : s.heap[b]? = some (.mmList []))
    (hat : SlotAt order.idxOf s.store d
      (.array 0 (xs.filterMap fun o => o.map fun a => (0, a)))) :
    Initializes host rounds heap order ordered O unpackObject num b (initMMList b)
      (.mmList xs) s := by
  obtain ⟨as, hl, hrefs⟩ := hat
  have harray := opens_array rounds h.parsed (hcount _ List.mem_cons_self) hd hl
    hrefs.length_eq
  obtain ⟨s', ys, hrun, h', hst, hg, hy', hys⟩ := initMMListItems_ok rounds (b := b)
    (s := { s with stack := d :: s.stack }) hu (h.withStack _) hO hnum hb hleft
    (List.nil_append _).symm rfl hl hrefs hmem hy .nil
  rw [refs_of_present hxs] at hys
  refine ⟨s', _, ?_, h', hst, (Grew.withStack s b _).trans hg, hy', .mmList hys⟩
  rw [initMMList, runInit]
  exact (step_ok harray).trans hrun

theorem initMMMap_ok (hu : Unpacks host heap order ordered unpackObject fuel)
    (h : Stage host heap order ordered (num :: O) s) (hO : Holders heap order (num :: O))
    (hnum : num < order.length) (hb : Built s num b) (hleft : left order s < fuel)
    {sorted : Bool} {items : List MapItem} (hkept : MapKept host heap sorted items)
    (ho : sorted = true → ordered) (hcount : ∀ s ∈ slots (.mmMap sorted items), s.Counted)
    (hmem : ∀ r ∈ pairs items, r.2 ∈ order) {d0 : Addr} (hd0 : Holds host s 0 d0)
    (hat0 : s.store[d0]? = some (.long (if sorted then 1 else 0)))
    (hd : Holds host s 1 d) (hy : s.heap[b]? = some (.mmMap false []))
    (hat : SlotAt order.idxOf s.store d (.array 1 (pairs items))) :
    Initializes host rounds heap order ordered O unpackObject num b (initMMMap host b)
      (.mmMap sorted items) s := by
  obtain ⟨as, hl, hrefs⟩ := hat
  have hlt : b < s.heap.length := (List.getElem?_eq_some_iff.mp hy).1
  have hset : setSorted b ((if sorted then 1 else 0 : Int) != 0) s.heap =
      s.heap.set b (.mmMap sorted []) := by
    rw [setSorted, hy]
    cases sorted <;> rfl
  have h1 := h.write hnum hb (y := .mmMap sorted [])
    fun ho => (h.memory ho).set (fun x => by nofun) b
  have harray : unpackArrayImpl host rounds 1 { s with heap := s.heap.set b (.mmMap sorted []) } =
      .ok ((pairs items).length,
        { s with heap := s.heap.set b (.mmMap sorted []), stack := d :: s.stack }) :=
    opens_array (s := { s with heap := s.heap.set b (.mmMap sorted []) }) rounds h.parsed
      (hcount _ (List.mem_cons_of_mem _ List.mem_cons_self)) hd hl hrefs.length_eq
  have hlen : (pairs items).length / 2 = items.length := by
    rw [pairs_length]
    omega
  have heven : ¬(pairs items).length % 2 = 1 := by
    rw [pairs_length]
    omega
  obtain ⟨s', ys, hrun, h', hst, hg, hy', hys⟩ := initMMMapItems_ok rounds (b := b)
    (s := { s with heap := s.heap.set b (.mmMap sorted []), stack := d :: s.stack }) hu
    (h1.withStack _) hO hnum hb hleft hkept ho (List.nil_append _).symm rfl hl hrefs hmem
    (List.getElem?_set_self hlt) .nil
  refine ⟨s', _, ?_, h', hst, ((Grew.write s b _).trans (.withStack _ b _)).trans hg, hy',
    .mmMap hys⟩
  rw [initMMMap, runInit]
  refine (step_ok (unpackVarInt64Impl_ok h.parsed hd0 hat0)).trans ?_
  rw [runInit]
  refine (step_modify _ _ _).trans ?_
  rw [hset, runInit]
  refine (step_ok harray).trans ?_
  rw [if_neg heven, hlen]
  exact hrun

theorem short_data {x : Blob} (h : x.bytes.length + 1 < 2 ^ 32) :
    (x.bytes ++ [0]).take (uint (x.bytes.length + 1)) = x.bytes ++ [0] := by
  rw [uint_of_lt h]
  exact List.take_of_length_le List.length_append.le

/-- The init function of each class builds what was packed. -/
theorem initNode_ok (rounds : Nat) (hp : Plan host heap order ordered)
    (hu : Unpacks host heap order ordered unpackObject fuel)
    (h : Stage host heap order ordered (num :: O) s) (hO : Holders heap order O)
    (ha : order[num]? = some a) (hx : heap[a]? = some x) (hb : Built s num b)
    (hleft : left order s < fuel) (hfresh : ordered → Fresh alloc) (hs : s.stack = c :: st)
    (hc : s.store[c]? = some (.map true ctx))
    (hat : ∀ f ∈ slots x, ∃ d, Table.find Prod.fst (intKey host (int32 f.key)) ctx =
      some (intKey host (int32 f.key), d) ∧ SlotAt order.idxOf s.store d f)
    (hy : s.heap[b]? = some (blankNode x.cls)) :
    Initializes host rounds heap order ordered O unpackObject num b
      (initNode host alloc x.cls b) x s := by
  have hnum : num < order.length := (List.getElem?_eq_some_iff.mp ha).1
  have hlt : b < s.heap.length := (List.getElem?_eq_some_iff.mp hy).1
  have hmem : a ∈ order := List.mem_of_getElem? ha
  obtain ⟨x', hx', hwell⟩ := hp.valid a hmem
  rw [hx] at hx'
  cases hx'
  have hclosed := hp.closed a hmem x hx
  have hholders : isPrimary x.cls = false → Holders heap order (num :: O) := by
    intro hprim j hj a' x' ha' hx'
    obtain rfl | hj := List.mem_cons.mp hj
    · rw [ha] at ha'
      cases ha'
      rw [hx] at hx'
      cases hx'
      exact hprim
    · exact hO j hj a' x' ha' hx'
  cases x with
  | mmInt value =>
    obtain ⟨d, hd, hdat⟩ := hat _ List.mem_cons_self
    exact initMMInt_ok h hnum hb hlt hwell (holds_slot hs hc hd) hdat
  | mmLong value =>
    obtain ⟨d, hd, hdat⟩ := hat _ List.mem_cons_self
    exact initMMLong_ok h hnum hb hlt (holds_slot hs hc hd) hdat
  | mmString value =>
    obtain ⟨x, rfl, h0, hshort⟩ := hwell
    obtain ⟨d, hd, hdat⟩ := hat _ List.mem_cons_self
    rw [short_data hshort] at hdat
    exact initMMString_ok h hnum hb hlt hfresh h0 (holds_slot hs hc hd) hdat
  | mmData data =>
    obtain ⟨d, hd, hdat⟩ := hat _ List.mem_cons_self
    exact initMMData_ok h hnum hb hy (holds_slot hs hc hd) hdat
  | mmMap sorted items =>
    obtain ⟨d0, hd0, hat0⟩ := hat _ List.mem_cons_self
    obtain ⟨d, hd, hdat⟩ := hat _ (List.mem_cons_of_mem _ List.mem_cons_self)
    exact initMMMap_ok hu h (hholders rfl) hnum hb hleft hwell
      (fun hs => hp.sorted a hmem items (by rw [hx, hs])) (fun s hs => (hclosed s hs).1)
      ((hclosed _ (List.mem_cons_of_mem _ List.mem_cons_self)).2 _ _ rfl)
      (holds_slot hs hc hd0) hat0 (holds_slot hs hc hd) hy hdat
  | mmList items =>
    obtain ⟨d, hd, hdat⟩ := hat _ List.mem_cons_self
    exact initMMList_ok hu h (hholders rfl) hnum hb hleft hwell (fun s hs => (hclosed s hs).1)
      ((hclosed _ List.mem_cons_self).2 _ _ rfl) (holds_slot hs hc hd) hy hdat

end InitFunctions

section Objects

variable {host : Host} {rounds : Nat} {heap : Heap} {order : List Addr} {ordered : Prop}
variable {O : List Nat} {s : Unpacking Heap} {fuel : Nat} {alloc : Heap → Nat}
variable {float double mapItem : Alloc Heap}

theorem find_allocator (host : Host) (alloc : Heap → Nat) (float double mapItem : Alloc Heap)
    (c : Mmo.Object.Class) :
    Table.find Prod.fst c.name (registerAllMmoExtToUnpacker host alloc float double mapItem) =
      some (c.name, allocNode host alloc c) := by
  cases c <;> rfl

def superNames (c : Mmo.Object.Class) : List (List UInt8) :=
  ((superLevels c).map fun l => l.name).reverse

theorem initLevels_silent (unpackObject : Nat → UnpackM Heap (Option Addr)) (b : Addr)
    (c : Mmo.Object.Class) (s : Unpacking Heap) :
    initLevels host rounds unpackObject b [] (allocNode host alloc c).levels s =
      initLevels host rounds unpackObject b (superNames c)
        [(c.name, some (initNode host alloc c))] s := by
  cases c <;> rfl

theorem toMMObject_super (c : Mmo.Object.Class) (last : Bool) (b : Addr) :
    toMMObject (c.name :: superNames c) last b = .ok (some b) := by
  have hany : (c.name :: superNames c).any namesMMObject = true := by
    cases c <;> decide
  rw [toMMObject, hany]
  rfl

/-- The object is registered before its own context is looked for. -/
theorem nextContext_registers {i : Nat} {m c an : Addr} {y : Node} {cls : Mmo.Object.Class}
    (hp : Parsed s)
    (hm : s.store[m]? = some (.map false [(className, an), (cls.name, c)]))
    {ctx : List (List UInt8 × Addr)} (hc : s.store[c]? = some (.map true ctx)) :
    unpackNextContextImpl host rounds cls.name (.ok (some s.heap.length))
        (Balance.entering (int32 i) m (s.heap ++ [y]) s) =
      .ok ((), registered s i (c :: m :: s.stack) y) := by
  have hfind : Table.find Prod.fst cls.name [(className, an), (cls.name, c)] =
      some (cls.name, c) := by
    rw [← List.singleton_append, Table.find_append, Table.find_singleton,
      if_neg (Ne.symm (name_ne_className cls)), Table.find_singleton, if_pos rfl]
    rfl
  have hp' : Parsed (Balance.entering (int32 i) m (s.heap ++ [y]) s) := hp
  rw [unpackNextContextImpl, parse_bind hp', step_get]
  show Balance.enterContext cls.name (registered s i (m :: s.stack) y) = _
  have hstring : getByStringFromStack cls.name (registered s i (m :: s.stack) y) =
      .ok (some c, registered s i (m :: s.stack) y) := by
    rw [getByStringFromStack, lastItem_bind (s := registered s i (m :: s.stack) y) _ rfl]
    refine (genAt_bind (s := registered s i (m :: s.stack) y) _ hm).trans ?_
    simp only [hfind]
    rfl
  rw [Balance.enterContext, step_ok hstring]
  exact genAt_bind (s := registered s i (m :: s.stack) y) _ hc

theorem leaveObject_ok {m c b : Addr} {st : List Addr} {items ctx : List (List UInt8 × Addr)}
    (cls : Alloc Heap)
    (hidle : s.lastObjectNum = none) (hs : s.stack = c :: m :: st)
    (hm : s.store[m]? = some (.map false items)) (hc : s.store[c]? = some (.map true ctx)) :
    leaveObject cls (some b) s = .ok (some b, { s with stack := st }) := by
  have hpop : popContexts s.store s.stack = .ok (m :: st) := by
    rw [hs, popContexts, hc]
    simp only [popContexts, hm]
  have hcontext : popContextInStack s = .ok ((), { s with stack := m :: st }) := by
    rw [popContextInStack, hpop]
  have hleave : leaveObject cls (some b) s =
      (popContextInStack >>= fun _ => Unpacker.popItem >>= fun _ => pure (some b)) s := by
    rw [leaveObject, step_get, hidle]
  rw [hleave, step_ok hcontext]
  rfl

theorem prefix_of_same {α : Type} {xs ys : List α} (h : ∀ k < xs.length, ys[k]? = xs[k]?) :
    xs <+: ys := by
  rw [List.prefix_iff_getElem?]
  intro k hk
  rw [h k hk, List.getElem?_eq_getElem hk]

/-- With one more level of nesting, an object that waits is built, and one that has been built
is found. -/
theorem unpacks_succ (hp : Plan host heap order ordered) (hfresh : ordered → Fresh alloc)
    (hu : Unpacks host heap order ordered (unpackObjectImpl host rounds
      (registerAllMmoExtToUnpacker host alloc float double mapItem) fuel) fuel) :
    Unpacks host heap order ordered (unpackObjectImpl host rounds
      (registerAllMmoExtToUnpacker host alloc float double mapItem) (fuel + 1)) (fuel + 1) := by
  intro O s key i h hO hi hleft hk
  obtain hw | ⟨b, hb⟩ := h.entries i hi
  · obtain ⟨a, x, m, ha, hx, hprops, an, c, ctx, hm, hname, hc, hslots⟩ := id hw
    have hplain : ∀ v, blankNode x.cls ≠ .mmString (some v) := by
      intro v
      cases x <;> nofun
    -- the new object is registered, and then initialized
    have h4 := h.register hp hi hw (c :: m :: s.stack) hplain
    have hmono := built_mono hw (c :: m :: s.stack) (blankNode x.cls)
    have hb4 := built_registered i s (c :: m :: s.stack) (blankNode x.cls)
    have hnone : ∀ b, ¬Built s i b := fun b hb => by
      rw [Built, hprops] at hb
      cases hb
    have hlt := (left_lt hmono hi hnone hb4).trans_le (Nat.le_of_lt_succ hleft)
    obtain ⟨s5, y, hrun, h5, hst5, hg5, hy5, hxy5⟩ := initNode_ok rounds hp hu h4 hO
      ha hx hb4 hlt hfresh rfl hc hslots List.getElem?_concat_length
    refine ⟨s.heap.length, { s5 with stack := s.stack }, ?_,
      (h5.close (hg5.built _ _ hb4) ha hx hy5 hxy5).withStack _, ⟨rfl, hg5.store, ?_, ?_⟩,
      hg5.built _ _ hb4⟩
    · have hfound := findObject_props hk hprops hm
        (by rw [← List.singleton_append, Table.find_append, Table.find_singleton, if_pos rfl]; rfl)
        hname
      have hlevels : initLevels host rounds (unpackObjectImpl host rounds
          (registerAllMmoExtToUnpacker host alloc float double mapItem) fuel) s.heap.length []
          (allocNode host alloc x.cls).levels
          (Balance.entering (int32 i) m (s.heap ++ [blankNode x.cls]) s) =
            .ok (some s.heap.length, s5) := by
        rw [initLevels_silent, initLevels, toMMObject_super,
          step_ok (nextContext_registers h.parsed hm hc), step_ok hrun]
        rfl
      rw [unpackObjectImpl, HalfBuilt.unpackObjectWith_registered h.parsed hfound
        (find_allocator host alloc float double mapItem x.cls)]
      refine (step_ok hlevels).trans ?_
      exact leaveObject_ok _ h5.idle hst5 (by rw [hg5.store]; exact hm)
        (by rw [hg5.store]; exact hc)
    · refine prefix_of_same fun k hk => ?_
      have hk4 : k < (s.heap ++ [blankNode x.cls]).length := by
        rw [List.length_append]
        exact Nat.lt_add_right _ hk
      exact (hg5.same k hk4 hk.ne).trans (List.getElem?_append_left hk)
    · exact fun j b hb => hg5.built j b (hmono j b hb)
  · refine ⟨b, s, ?_, h, .refl s, hb⟩
    rw [unpackObjectImpl, unpackObjectWith, parse_bind h.parsed,
      step_ok (findObject_reference hk hb)]
    rfl

/-- Whatever is nested builds up, if the fuel is more than the number of the objects left. -/
theorem unpackObjectImpl_unpacks (rounds : Nat) (float double mapItem : Alloc Heap)
    (hp : Plan host heap order ordered) (hfresh : ordered → Fresh alloc) (fuel : Nat) :
    Unpacks host heap order ordered (unpackObjectImpl host rounds
      (registerAllMmoExtToUnpacker host alloc float double mapItem) fuel) fuel := by
  induction fuel with
  | zero => exact fun O s key i _ _ _ hleft _ => absurd hleft (Nat.not_lt_zero _)
  | succ fuel ih => exact unpacks_succ hp hfresh ih

end Objects

end LcClibs.Pack.Rebuild
