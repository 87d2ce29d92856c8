import Mathlib
import LcClibs.Pack.Layout
import LcClibs.Pack.Tables

namespace LcClibs.Pack.Mirror

open Platform Lib Lib.BigEndian Buffer.Cursor Buffer.VarInt Mmo.Object
open Pack.Records Pack.Packer Pack.Classes Pack.Numbering Pack.Numbering.Ledger Pack.Tables
open Pack.Process (Parser MMUnpacker Gen Entry intKey className processStart process
  processLoop allocMMUnpacker allocMMUnpackerWithData)
open Pack.Nesting (At)
open Pack.Rounds Pack.Layout

section Packed

variable {A : Type}

def slotCalls : Slot A → List (PackCall A)
  | .integer key value => [.varInt64 key value]
  | .data key value => [.data key value]
  | .array key refs => .array key (uint refs.length) ::
      (refs.map (fun r => .object r.1 (some r.2)) ++ [.arrayEnd key])

def slots : Node → List (Slot Addr)
  | .mmInt value | .mmLong value => [.integer 0 value]
  | .mmString none => []
  | .mmString (some x) => [.data 0 ((x.bytes ++ [0]).take (uint (x.bytes.length + 1)))]
  | .mmData data => [.data 0 ((data.map Blob.bytes).getD [])]
  | .mmMap sorted items => [.integer 0 (if sorted then 1 else 0),
      .array 1 (items.flatMap fun i => [(0, i.key), (1, i.value)])]
  | .mmList items => [.array 0 (items.filterMap fun o => o.map fun a => (0, a))]

/-- No null string and no null entry. -/
def Present : Node → Prop
  | .mmString value => value.isSome
  | .mmList items => ∀ o ∈ items, o.isSome
  | _ => True

theorem packMMList_eq {items : List (Option Addr)} (h : ∀ o ∈ items, o.isSome) :
    packMMList items = (slots (.mmList items)).flatMap slotCalls := by
  obtain ⟨as, rfl⟩ : ∃ as : List Addr, items = as.map some := by
    refine ⟨items.filterMap id, ?_⟩
    induction items with
    | nil => rfl
    | cons o items ih =>
      obtain ⟨a, rfl⟩ := Option.isSome_iff_exists.mp (h o List.mem_cons_self)
      have ht := ih fun o ho => h o (List.mem_cons_of_mem _ ho)
      exact congrArg (some a :: ·) ht
  simp [packMMList, slots, slotCalls, List.filterMap_map, Function.comp_def]

theorem packMMMap_eq (sorted : Bool) (items : List MapItem) :
    packMMMap sorted items = (slots (.mmMap sorted items)).flatMap slotCalls := by
  have hlen : uint (uint items.length * 2) =
      uint (items.flatMap fun i => [(0, i.key), (1, i.value)]).length := by
    have hsum : (items.flatMap fun i => [(0, i.key), (1, i.value)]).length =
        items.length * 2 := by
      rw [List.length_flatMap]
      simp
    rw [hsum]
    unfold uint
    omega
  have hcalls : items.flatMap packMMMapItem = (items.flatMap fun i =>
      [(0, i.key), (1, i.value)]).map fun r => PackCall.object r.1 (some r.2) := by
    rw [List.map_flatMap]
    rfl
  rw [packMMMap, hlen, hcalls]
  simp [slots, slotCalls]

theorem packNode_eq {x : Node} (h : Present x) : packNode x = (slots x).flatMap slotCalls := by
  cases x with
  | mmInt value | mmLong value => rfl
  | mmString value =>
    obtain ⟨b, rfl⟩ := Option.isSome_iff_exists.mp h
    rfl
  | mmData data => rfl
  | mmMap sorted items => exact packMMMap_eq sorted items
  | mmList items => exact packMMList_eq h

end Packed

section Written

variable {A : Type} [DecidableEq A] {T : Ledger A} {order : List A}

theorem idxOf_prefix {l l' : List A} {a : A} (h : l <+: l') (ha : a ∈ l) :
    l'.idxOf a = l.idxOf a := by
  obtain ⟨t, rfl⟩ := h
  exact List.idxOf_append_of_mem ha

theorem calls_append (cs cs' : List (PackCall A)) (T : Ledger A) :
    T.calls (cs ++ cs') = (T.calls cs).calls cs' := by
  induction cs generalizing T with
  | nil => rfl
  | cons c cs ih => exact ih _

/-- A reference is written with the number that its object has in the end. -/
theorem call_object_out {key : Nat} {obj : A}
    (h : (T.call (.object key (some obj))).order <+: order) :
    (T.call (.object key (some obj))).out = T.out ++ [.objectRef key (order.idxOf obj)] := by
  have hidx : order.idxOf obj = (T.saveObject obj).order.idxOf obj :=
    idxOf_prefix h (mem_saveObject obj T)
  rw [hidx, Ledger.call, Ledger.emit, saveObject_out]

theorem calls_refs_out {refs : List (Nat × A)}
    (h : (T.calls (refs.map fun r => .object r.1 (some r.2))).order <+: order) :
    (T.calls (refs.map fun r => .object r.1 (some r.2))).out =
      T.out ++ refs.map fun r => .objectRef r.1 (order.idxOf r.2) := by
  induction refs generalizing T with
  | nil => exact (List.append_nil _).symm
  | cons r refs ih =>
    have hfirst : (T.call (.object r.1 (some r.2))).order <+: order :=
      (grows_calls (refs.map fun r => .object r.1 (some r.2)) _).order.trans h
    rw [List.map_cons, Ledger.calls, ih h, call_object_out hfirst, List.append_assoc]
    rfl

theorem calls_slot_out {f : Slot A} (h : (T.calls (slotCalls f)).order <+: order) :
    (T.calls (slotCalls f)).out = T.out ++ f.records order.idxOf := by
  cases f with
  | integer key value | data key value => rfl
  | array key refs =>
    rw [slotCalls, Ledger.calls, calls_append] at h ⊢
    show _ ++ [Record.array key 0] = _
    rw [calls_refs_out h]
    simp [Slot.records, Ledger.call, Ledger.emit]

theorem calls_slots_out {fs : List (Slot A)}
    (h : (T.calls (fs.flatMap slotCalls)).order <+: order) :
    (T.calls (fs.flatMap slotCalls)).out =
      T.out ++ fs.flatMap (Slot.records order.idxOf) := by
  induction fs generalizing T with
  | nil => exact (List.append_nil _).symm
  | cons f fs ih =>
    rw [List.flatMap_cons, calls_append] at h ⊢
    have hfirst : (T.calls (slotCalls f)).order <+: order := (grows_calls _ _).order.trans h
    rw [ih h, calls_slot_out hfirst, List.append_assoc, ← List.flatMap_cons]

theorem calls_names (cs : List (PackCall A)) (T : Ledger A) : (T.calls cs).names = T.names := by
  induction cs generalizing T with
  | nil => rfl
  | cons c cs ih =>
    have hc : (T.call c).names = T.names := by
      cases c with
      | object key obj =>
        cases obj with
        | none => rfl
        | some obj => exact saveObject_names obj T
      | _ => rfl
    rw [Ledger.calls, ih, hc]

end Written

section Keys

variable {host : Host}

theorem intKey_injective {v w : Int} (hv : -2 ^ 31 ≤ v ∧ v < 2 ^ 31)
    (hw : -2 ^ 31 ≤ w ∧ w < 2 ^ 31) (h : intKey host v = intKey host w) : v = w := by
  have hbytes : toBytes 4 (v % 2 ^ 32).toNat = toBytes 4 (w % 2 ^ 32).toNat := by
    cases host with
    | big => exact h
    | little => exact List.reverse_injective h
  have hnat := congrArg ofBytes hbytes
  rw [ofBytes_toBytes_of_lt (by omega), ofBytes_toBytes_of_lt (by omega)] at hnat
  omega

theorem int32_index {i : Nat} (hi : i ≤ 0xFFFFF) : int32 i = i :=
  int32_of_range (by omega) (by omega)

theorem int32_inj {i j : Nat} (hi : i ≤ 0xFFFFF) (hj : j ≤ 0xFFFFF) (h : int32 i = int32 j) :
    i = j := by
  rw [int32_index hi, int32_index hj] at h
  exact Int.ofNat.inj h

theorem intKey_inj {i j : Nat} (hi : i ≤ 0xFFFFF) (hj : j ≤ 0xFFFFF)
    (h : intKey host (int32 i) = intKey host (int32 j)) : i = j := by
  rw [int32_index hi, int32_index hj] at h
  have := intKey_injective (by omega) (by omega) h
  omega

theorem name_ne_className (c : Mmo.Object.Class) : c.name ≠ className := by
  cases c <;> decide

theorem slots_keys (x : Node) :
    ((slots x).map fun s => intKey host (int32 s.key)).Nodup := by
  have h01 : intKey host (int32 (0 : Nat)) ≠ intKey host (int32 (1 : Nat)) := by
    intro h
    cases intKey_inj (by decide) (by decide) h
  cases x with
  | mmString value =>
    cases value with
    | none => exact List.nodup_nil
    | some b => exact List.nodup_singleton _
  | mmMap sorted items =>
    exact List.nodup_cons.mpr ⟨fun h => h01 (List.mem_singleton.mp h), List.nodup_singleton _⟩
  | _ => exact List.nodup_singleton _

end Keys

section Sections

variable {T : Ledger Addr} {order : List Addr} {x : Node} {i : Nat}

theorem saveName_of_mem {name : List UInt8} (h : name ∈ T.names) : T.saveName name = T :=
  if_pos h

theorem levels_nodeStru (x : Node) (T : Ledger Addr) :
    T.levels (nodeStru x).levels = (T.context x.cls.name).calls (packNode x) := by
  cases x <;> rfl

def opened (c : Mmo.Object.Class) (i : Nat) (T : Ledger Addr) : Ledger Addr :=
  let k := (T.saveName c.name).names.idxOf c.name
  ((T.saveName c.name).emit (.object i k)).emit (.context k)

theorem packSection_eq (x : Node) (i : Nat) (T : Ledger Addr) :
    T.packSection (nodeStru x) i =
      (((opened x.cls i T).calls (packNode x)).emit (.objectEnd i)) := by
  have hname : ∀ r, ((T.saveName x.cls.name).emit r).saveName x.cls.name =
      (T.saveName x.cls.name).emit r := fun _ => saveName_of_mem (mem_saveName _ T)
  have hlast : (nodeStru x).last.name = x.cls.name := rfl
  rw [Ledger.packSection, levels_nodeStru, Ledger.context, hlast, hname]
  rfl

theorem packSection_out (hx : Present x)
    (h : (T.packSection (nodeStru x) i).order <+: order) :
    (T.packSection (nodeStru x) i).out = (T.saveName x.cls.name).out ++
      sectionRecords order.idxOf i ((T.saveName x.cls.name).names.idxOf x.cls.name) (slots x) := by
  rw [packSection_eq, packNode_eq hx] at h ⊢
  rw [Ledger.emit, calls_slots_out h]
  simp [opened, Ledger.emit, sectionRecords]

theorem packSection_names (x : Node) (i : Nat) (T : Ledger Addr) :
    (T.packSection (nodeStru x) i).names = (T.saveName x.cls.name).names := by
  rw [packSection_eq]
  exact calls_names _ _

end Sections

section Mirroring

variable {host : Host} {n : Nat} {data : List UInt8} {heap : Heap} {order : List Addr}
variable {names : List (List UInt8)} {k : Nat} {tops : List (PackCall Addr)} {p : Parser}
variable {store store' : List Gen} {items : List (List UInt8 × Addr)}

def callKey {A : Type} : PackCall A → Nat
  | .varInt64 key _ | .float key _ | .double key _ | .data key _ | .array key _ | .arrayEnd key
  | .object key _ => key
  | .crash _ => 0

/-- What a call from outside is parsed to, under its key among the roots. -/
def rootGen (order : List Addr) : PackCall Addr → Option Gen
  | .varInt64 _ value => some (.long value)
  | .object _ (some obj) => some (.int (int32 (order.idxOf obj)))
  | _ => none

/-- The items of the roots map: those of the calls that left something, and no others. -/
structure RootsAt (host : Host) (order : List Addr) (store : List Gen)
    (items : List (List UInt8 × Addr)) (tops : List (PackCall Addr)) : Prop where
  held : ∀ c ∈ tops, ∀ g ∈ rootGen order c, ∃ a,
    Table.find Prod.fst (intKey host (int32 (callKey c))) items =
      some (intKey host (int32 (callKey c)), a) ∧ store[a]? = some g
  absent : ∀ key ≤ 0xFFFFF, (∀ c ∈ tops, callKey c = key → rootGen order c = none) →
    Table.find Prod.fst (intKey host (int32 key)) items = none

/-- The parser between two records of the outermost level: the names so far are known, and the
first sections are there. -/
structure Mirrors (host : Host) (data : List UInt8) (heap : Heap) (order : List Addr)
    (names : List (List UInt8)) (k : Nat) (tops : List (PackCall Addr)) (p : Parser) : Prop where
  stack : p.stack = [0]
  roots : p.roots = some 0
  idle : p.currentObj = none
  named : ∀ i name, names[i]? = some name → NameAt data p i name
  unnamed : ∀ i, names.length ≤ i → i ≤ 0xFFFFF →
    Table.find Prod.fst (int32 i) p.idToClassName = none
  sections : ∀ i < k, ∃ a x m, order[i]? = some a ∧ heap[a]? = some x ∧
    Table.find Prod.fst (int32 i) p.objects = some (int32 i, .props m) ∧ m ≠ 0 ∧
    (∀ s ∈ slots x, s.Counted) ∧ SectionAt host order.idxOf p.store m x.cls.name (slots x)
  rooted : ∃ items, p.store[0]? = some (.map false items) ∧
    RootsAt host order p.store items tops

theorem rootGen_ne_map {c : PackCall Addr} {g : Gen} (h : g ∈ rootGen order c) (b : Bool)
    (items : List (List UInt8 × Addr)) : g ≠ .map b items := by
  cases c with
  | varInt64 key value =>
    obtain rfl := Option.mem_some.mp h
    nofun
  | object key obj =>
    cases obj with
    | none => cases h
    | some obj =>
      obtain rfl := Option.mem_some.mp h
      nofun
  | _ => cases h

theorem RootsAt.beside (h : RootsAt host order store items tops) {r : Addr}
    (hb : Beside r store store')
    (hr : r < store.length → ∃ b items, store[r]? = some (.map b items)) :
    RootsAt host order store' items tops where
  held c hc g hg := by
    obtain ⟨a, hfind, ha⟩ := h.held c hc g hg
    refine ⟨a, hfind, hb.get ha ?_⟩
    rintro rfl
    obtain ⟨b, items, hmap⟩ := hr (List.getElem?_eq_some_iff.mp ha).1
    exact rootGen_ne_map hg b items (Option.some.inj (ha.symm.trans hmap))
  absent := h.absent

theorem RootsAt.put (h : RootsAt host order store items tops) {c : PackCall Addr} {g : Gen}
    {a : Addr} (hg : rootGen order c = some g) (ha : store[a]? = some g)
    (hkeys : ∀ c ∈ tops, callKey c ≤ 0xFFFFF) (hkey : callKey c ≤ 0xFFFFF)
    (hnew : callKey c ∉ tops.map callKey) :
    RootsAt host order store
      (Table.put Prod.fst (intKey host (int32 (callKey c)), a) items) (tops ++ [c]) where
  held c' hc' g' hg' := by
    obtain hc' | hc' := List.mem_append.mp hc'
    · obtain ⟨a', hfind, ha'⟩ := h.held c' hc' g' hg'
      refine ⟨a', ?_, ha'⟩
      rw [find_put_pair_ne, hfind]
      intro heq
      rw [← intKey_inj (hkeys c' hc') hkey heq] at hnew
      exact hnew (List.mem_map_of_mem hc')
    · obtain rfl := List.mem_singleton.mp hc'
      obtain rfl : g = g' := Option.some.inj (hg.symm.trans hg')
      exact ⟨a, find_put_pair _ _ _, ha⟩
  absent key hkey' hnone := by
    have hne : intKey host (int32 key) ≠ intKey host (int32 (callKey c)) := by
      intro heq
      obtain rfl := intKey_inj hkey' hkey heq
      have := hnone c (List.mem_append_right _ List.mem_cons_self) rfl
      rw [hg] at this
      cases this
    rw [find_put_pair_ne hne]
    exact h.absent key hkey' fun c' hc' => hnone c' (List.mem_append_left _ hc')

/-- A call that writes no record. -/
theorem RootsAt.skip (h : RootsAt host order store items tops) {c : PackCall Addr}
    (hg : rootGen order c = none) : RootsAt host order store items (tops ++ [c]) where
  held c' hc' g' hg' := by
    obtain hc' | hc' := List.mem_append.mp hc'
    · exact h.held c' hc' g' hg'
    · obtain rfl := List.mem_singleton.mp hc'
      rw [hg] at hg'
      cases hg'
  absent key hkey hnone := h.absent key hkey fun c' hc' => hnone c' (List.mem_append_left _ hc')

theorem Mirrors.lt (h : Mirrors host data heap order names k tops p) : 0 < p.store.length := by
  obtain ⟨items, h0, -⟩ := h.rooted
  exact (List.getElem?_eq_some_iff.mp h0).1

theorem Mirrors.section (h : Mirrors host data heap order names k tops p) {a : Addr} {x : Node}
    {cn : Nat} (ha : order[k]? = some a) (hx : heap[a]? = some x)
    (hname : names[cn]? = some x.cls.name)
    (hr : ∀ r ∈ sectionRecords order.idxOf k cn (slots x), r.Fits)
    (hf : ∀ s ∈ slots x, s.Counted) :
    ∃ p', Reads host n data (sectionRecords order.idxOf k cn (slots x)) p p' ∧
      Mirrors host data heap order names (k + 1) tops p' := by
  obtain ⟨store, hreads, hb, hat⟩ := reads_section host n hr hf (slots_keys x)
    h.idle (h.named cn _ hname) x.cls.zero_not_mem_name (name_ne_className x.cls)
  obtain ⟨items, h0, hroots⟩ := h.rooted
  have hk : k ≤ 0xFFFFF := hr (.objectEnd k) (by simp [sectionRecords])
  refine ⟨_, hreads, ?_⟩
  exact
    { stack := h.stack
      roots := h.roots
      idle := rfl
      named := h.named
      unnamed := h.unnamed
      sections := fun i hi => by
        obtain rfl | hi := Nat.lt_succ_iff_lt_or_eq.mp hi |>.symm
        · exact ⟨a, x, _, ha, hx, find_put_pair _ _ _, h.lt.ne', hf, hat⟩
        · obtain ⟨a', x', m, ha', hx', hfind, hm, hcount, hsec⟩ := h.sections i hi
          refine ⟨a', x', m, ha', hx', ?_, hm, hcount, hsec.beside (hb.of_new le_rfl 0) h0 hm⟩
          rw [find_put_pair_ne, hfind]
          intro heq
          exact hi.ne (int32_inj (hi.le.trans hk) hk heq)
      rooted := ⟨items, hb.get h0 h.lt.ne, hroots.beside hb fun hlt =>
        absurd hlt (lt_irrefl _)⟩ }

theorem Mirrors.root (h : Mirrors host data heap order names k tops p) {c : PackCall Addr}
    {g : Gen} (hg : rootGen order c = some g) (hkeys : ∀ c ∈ tops, callKey c ≤ 0xFFFFF)
    (hkey : callKey c ≤ 0xFFFFF) (hnew : callKey c ∉ tops.map callKey)
    {items : List (List UInt8 × Addr)} (h0 : p.store[0]? = some (.map false items)) :
    Mirrors host data heap order names k (tops ++ [c]) { p with
      store := (p.store ++ [g]).set 0
        (.map false (Table.put Prod.fst (intKey host (int32 (callKey c)), p.store.length)
          items)) } := by
  obtain ⟨items', h0', hroots⟩ := h.rooted
  obtain rfl : items = items' := by
    rw [h0] at h0'
    cases h0'
    rfl
  have hb := Beside.alloc_set 0 p.store g
    (.map false (Table.put Prod.fst (intKey host (int32 (callKey c)), p.store.length) items))
  exact
    { stack := h.stack
      roots := h.roots
      idle := h.idle
      named := h.named
      unnamed := h.unnamed
      sections := fun i hi => by
        obtain ⟨a, x, m, ha, hx, hfind, hm, hcount, hsec⟩ := h.sections i hi
        exact ⟨a, x, m, ha, hx, hfind, hm, hcount, hsec.beside hb h0 hm⟩
      rooted := ⟨_, getElem?_alloc_set h.lt _ _, (hroots.beside hb fun _ => ⟨false, items, h0⟩).put
        hg (getElem?_alloc_set_new h.lt _ _) hkeys hkey hnew⟩ }

theorem Mirrors.skip (h : Mirrors host data heap order names k tops p) {c : PackCall Addr}
    (hg : rootGen order c = none) : Mirrors host data heap order names k (tops ++ [c]) p :=
  { h with
    rooted := by
      obtain ⟨items, h0, hroots⟩ := h.rooted
      exact ⟨items, h0, hroots.skip hg⟩ }

end Mirroring

section Following

variable {host : Host} {n : Nat} {data : List UInt8} {heap : Heap} {F T T' : Ledger Addr}
variable {start p p' : Parser} {k k' : Nat} {tops tops' : List (PackCall Addr)}

/-- The parser, from its start on, has read the records that the packer had written at some
time, out of all that it wrote in the end. -/
structure Follows (host : Host) (n : Nat) (data : List UInt8) (heap : Heap) (F : Ledger Addr)
    (start : Parser) (T : Ledger Addr) (k : Nat) (tops : List (PackCall Addr))
    (p : Parser) : Prop where
  mirrors : Mirrors host data heap F.order T.names k tops p
  data_eq : p.dyb.data = data
  left : ∃ later, F.out = T.out ++ later ∧ At n p.dyb (streamBytes host later)
  goes : Goes host T.out.length start p

theorem Mirrors.withDyb {order : List Addr} {names : List (List UInt8)}
    (h : Mirrors host data heap order names k tops p) (d : Dybuf) :
    Mirrors host data heap order names k tops { p with dyb := d } :=
  ⟨h.stack, h.roots, h.idle, h.named, h.unnamed, h.sections, h.rooted⟩

theorem Mirrors.addName {order : List Addr} {names : List (List UInt8)} {name : List UInt8}
    {off : Nat} (h : Mirrors host data heap order names k tops p) (hi : names.length ≤ 0xFFFFF)
    (hoff : ∃ r, data.drop off = name ++ 0 :: r) :
    Mirrors host data heap order (names ++ [name]) k tops { p with
      idToClassName := p.idToClassName ++ [(int32 names.length, some off)] } where
  stack := h.stack
  roots := h.roots
  idle := h.idle
  named i name' hname := by
    have hnew := h.unnamed names.length le_rfl hi
    rw [List.getElem?_append] at hname
    split_ifs at hname with hlt
    · obtain ⟨e, off', hfind, hat⟩ := h.named i name' hname
      refine ⟨e, off', ?_, hat⟩
      rw [Table.find_append, hfind]
      rfl
    · obtain ⟨hin, rfl⟩ : i = names.length ∧ name = name' := by
        rw [List.getElem?_singleton] at hname
        split_ifs at hname with h0
        exact ⟨by omega, Option.some.inj hname⟩
      refine ⟨int32 names.length, off, ?_, hoff⟩
      rw [hin, Table.find_append, hnew, Table.find_singleton, if_pos rfl]
      rfl
  unnamed i hlen hi' := by
    rw [List.length_append, List.length_singleton] at hlen
    have hne : int32 names.length ≠ int32 i := fun heq => by
      have := int32_inj hi hi' heq
      omega
    rw [Table.find_append, h.unnamed i (by omega) hi', Table.find_singleton, if_neg hne]
    rfl
  sections := h.sections
  rooted := h.rooted

theorem left_after (T' : Ledger Addr) {rs : List Record} (hout : T'.out = T.out ++ rs)
    (hF : T'.out <+: F.out)
    (h : ∃ later, F.out = T.out ++ later ∧ At n p.dyb (streamBytes host later)) :
    ∃ later, F.out = T'.out ++ later ∧ At n p.dyb (streamBytes host rs ++
      streamBytes host later) := by
  obtain ⟨later, hlater, hat⟩ := h
  obtain ⟨later', hlater'⟩ := hF
  refine ⟨later', hlater'.symm, ?_⟩
  rw [hout, List.append_assoc] at hlater'
  rw [← streamBytes_append, List.append_cancel_left (hlater'.trans hlater)]
  exact hat

theorem Follows.step (h : Follows host n data heap F start T k tops p) {rs : List Record}
    (hout : T'.out = T.out ++ rs) (hF : T'.out <+: F.out) (hr : Reads host n data rs p p')
    (hm : Mirrors host data heap F.order T'.names k' tops' p') :
    ∃ p', Follows host n data heap F start T' k' tops' p' := by
  obtain ⟨later, hlater, hat⟩ := left_after T' hout hF h.left
  obtain ⟨d, hd, hdata, hgoes⟩ := hr p.dyb _ hat h.data_eq
  refine ⟨{ p' with dyb := d }, hm.withDyb d, hdata, ⟨later, hlater, hd⟩, ?_⟩
  rw [hout, List.length_append]
  exact h.goes.trans hgoes

theorem Follows.saveName (h : Follows host n data heap F start T k tops p) {name : List UInt8}
    (hF : (T.saveName name).out <+: F.out) (hfits : ∀ r ∈ F.out, r.Fits) :
    ∃ p', Follows host n data heap F start (T.saveName name) k tops p' := by
  by_cases hmem : name ∈ T.names
  · rw [saveName_of_mem hmem]
    exact ⟨p, h⟩
  have hT : T.saveName name = { T with
      names := T.names ++ [name]
      out := T.out ++ [.className T.names.length name] } := if_neg hmem
  rw [hT] at hF ⊢
  have hfit : (Record.className T.names.length name).Fits :=
    hfits _ (hF.subset (List.mem_append_right _ List.mem_cons_self))
  obtain ⟨later, hlater, hat⟩ := left_after
    { T with
      names := T.names ++ [name]
      out := T.out ++ [.className T.names.length name] } rfl hF h.left
  rw [streamBytes_cons, streamBytes_nil, List.append_nil] at hat
  obtain ⟨off, d, hround, hd, hdata, hoff⟩ := round_className hfit hat
    (h.mirrors.unnamed _ le_rfl hfit.1)
  rw [h.data_eq] at hdata hoff
  refine ⟨_, ⟨(h.mirrors.addName hfit.1 hoff).withDyb d, hdata, ⟨later, hlater, hd⟩, ?_⟩⟩
  rw [List.length_append]
  exact h.goes.trans fun fuel => Parsing.processLoop_next fuel hround

theorem heapStru_eq {a : Addr} {x : Node} (hx : heap[a]? = some x) :
    heapStru heap a = nodeStru x := by
  rw [heapStru, hx]

theorem counted_of_length {A : Type} {num : A → Nat} {s : Slot A} {m : Nat}
    (h : (s.records num).length ≤ m) (hm : m < 2 ^ 32) : s.Counted := by
  cases s with
  | array key refs =>
    simp only [Slot.records, List.length_cons, List.length_append, List.length_map,
      List.length_nil] at h
    show refs.length + 1 < 2 ^ 32
    omega
  | _ => trivial

theorem slot_length_le {i cn : Nat} {num : Addr → Nat} {ss : List (Slot Addr)} {s : Slot Addr}
    (hs : s ∈ ss) : (s.records num).length ≤ (sectionRecords num i cn ss).length := by
  have hsub : (s.records num).Sublist (ss.flatMap (Slot.records num)) := by
    obtain ⟨l, r, rfl⟩ := List.append_of_mem hs
    rw [List.flatMap_append, List.flatMap_cons]
    exact (List.sublist_append_left _ _).trans (List.sublist_append_right _ _)
  have hle := hsub.length_le
  simp only [sectionRecords, List.length_append, List.length_singleton]
  omega

theorem Follows.packSection (h : Follows host n data heap F start T k tops p) {a : Addr}
    {x : Node} (ha : T.order[k]? = some a) (hx : heap[a]? = some x) (hp : Present x)
    (hF : Grows (T.packSection (heapStru heap a) k) F) (hfits : ∀ r ∈ F.out, r.Fits)
    (hlen : F.out.length < 2 ^ 32) :
    ∃ p', Follows host n data heap F start (T.packSection (heapStru heap a) k) (k + 1) tops p' := by
  rw [heapStru_eq hx] at hF ⊢
  have hout := packSection_out hp hF.order
  have hpre : (T.saveName x.cls.name).out <+: F.out :=
    (List.prefix_append _ _).trans (hout ▸ hF.out)
  obtain ⟨p1, h1⟩ := h.saveName hpre hfits
  have hsub : ∀ r ∈ sectionRecords F.order.idxOf k
      ((T.saveName x.cls.name).names.idxOf x.cls.name) (slots x), r ∈ F.out := fun r hr =>
    hF.out.subset (hout ▸ List.mem_append_right _ hr)
  have hsec : (sectionRecords F.order.idxOf k
      ((T.saveName x.cls.name).names.idxOf x.cls.name) (slots x)).length ≤ F.out.length := by
    have := hF.out.length_le
    rw [hout, List.length_append] at this
    omega
  have hlt := List.idxOf_lt_length_iff.mpr (mem_saveName x.cls.name T)
  have hname : (T.saveName x.cls.name).names[(T.saveName x.cls.name).names.idxOf x.cls.name]? =
      some x.cls.name := by
    rw [List.getElem?_eq_getElem hlt, List.getElem_idxOf hlt]
  have horder : F.order[k]? = some a := by
    obtain ⟨t, ht⟩ := ((grows_packSection (nodeStru x) k T).trans hF).order
    rw [← ht, List.getElem?_append_left (List.getElem?_eq_some_iff.mp ha).1, ha]
  obtain ⟨p2, hreads, hm⟩ := h1.mirrors.section (n := n) horder hx hname
    (fun r hr => hfits r (hsub r hr))
    fun s hs => counted_of_length ((slot_length_le hs).trans hsec) hlen
  exact h1.step hout hF.out hreads (packSection_names x k T ▸ hm)

/-- All the objects of a graph are there, with nothing absent in them. -/
def AllPresent (heap : Heap) (U : Finset Addr) : Prop := ∀ a ∈ U, ∃ x, heap[a]? = some x ∧ Present x

/-- The loop over the objects without a section is followed to its end. -/
theorem Follows.sections {U : Universe (heapStru heap)} (hU : AllPresent heap U.objects)
    {fuel : Nat} (h : Follows host n data heap F start T k tops p) (hT : Within U.objects T)
    (hk : k ≤ T.order.length) (hfuel : U.objects.card < fuel + k)
    (hF : Grows (T.sections (heapStru heap) fuel k) F) (hfits : ∀ r ∈ F.out, r.Fits)
    (hlen : F.out.length < 2 ^ 32) :
    ∃ p', Follows host n data heap F start (T.sections (heapStru heap) fuel k)
      (T.sections (heapStru heap) fuel k).order.length tops p' := by
  induction fuel generalizing k T p with
  | zero =>
    have := hT.length_le
    omega
  | succ fuel ih =>
    unfold Ledger.sections at hF ⊢
    cases ho : T.order[k]? with
    | none =>
      have := List.getElem?_eq_none_iff.mp ho
      obtain rfl : k = T.order.length := by omega
      exact ⟨p, h⟩
    | some a =>
      simp only [ho] at hF
      have hmem := hT.mem a (List.mem_of_getElem? ho)
      obtain ⟨x, hx, hp⟩ := hU a hmem
      obtain ⟨p1, h1⟩ := h.packSection ho hx hp
        ((grows_sections (heapStru heap) fuel (k + 1) _).trans hF) hfits hlen
      have hgrow := (grows_packSection (heapStru heap a) k T).order.length_le
      have hlt := (List.getElem?_eq_some_iff.mp ho).1
      exact ih h1 (hT.packSection U.closed hmem k) (by omega) (by omega) hF

def IsTop {A : Type} : PackCall A → Prop
  | .varInt64 _ _ | .object _ _ => True
  | _ => False

theorem Follows.top {U : Universe (heapStru heap)} (hU : AllPresent heap U.objects) {fuel : Nat}
    (h : Follows host n data heap F start T T.order.length tops p) (hT : Within U.objects T)
    (hfuel : U.objects.card < fuel) {c : PackCall Addr} (hc : IsTop c)
    (hobj : ∀ b ∈ objectsOf [c], b ∈ U.objects) (hkeys : ∀ c ∈ tops, callKey c ≤ 0xFFFFF)
    (hkey : callKey c ≤ 0xFFFFF) (hnew : callKey c ∉ tops.map callKey)
    (hF : Grows (T.top (heapStru heap) fuel c) F) (hfits : ∀ r ∈ F.out, r.Fits)
    (hlen : F.out.length < 2 ^ 32) :
    ∃ p', Follows host n data heap F start (T.top (heapStru heap) fuel c)
      (T.top (heapStru heap) fuel c).order.length (tops ++ [c]) p' := by
  obtain ⟨items, h0, -⟩ := h.mirrors.rooted
  cases c with
  | varInt64 key value =>
    have hfit : (Record.integer key value).Fits :=
      hfits _ (hF.out.subset (List.mem_append_right _ List.mem_cons_self))
    exact h.step rfl hF.out (reads_integer hfit h.mirrors.stack h0)
      (h.mirrors.root rfl hkeys hkey hnew h0)
  | object key obj =>
    cases obj with
    | none => exact ⟨p, h.mirrors.skip rfl, h.data_eq, h.left, h.goes⟩
    | some a =>
      have hcall : Grows (T.call (.object key (some a))) F :=
        (grows_sections (heapStru heap) fuel T.order.length _).trans hF
      have hout := call_object_out hcall.order
      have hfit : (Record.objectRef key (F.order.idxOf a)).Fits :=
        hfits _ (hcall.out.subset (hout ▸ List.mem_append_right _ List.mem_cons_self))
      have hgrow := (grows_call (.object key (some a)) T).order.length_le
      have hnames : (T.call (.object key (some a))).names = T.names := saveObject_names a T
      obtain ⟨p1, h1⟩ := h.step hout hcall.out
        (reads_objectRef_map hfit h.mirrors.stack h0)
        (hnames ▸ h.mirrors.root (c := .object key (some a)) rfl hkeys hkey hnew h0)
      exact h1.sections hU (hT.call hobj) hgrow (Nat.lt_add_right _ hfuel) hF hfits hlen
  | _ => exact hc.elim

theorem Follows.run {U : Universe (heapStru heap)} (hU : AllPresent heap U.objects) {fuel : Nat}
    (h : Follows host n data heap F start T T.order.length tops p) (hT : Within U.objects T)
    (hfuel : U.objects.card < fuel) {cs : List (PackCall Addr)} (hcs : ∀ c ∈ cs, IsTop c)
    (hobj : ∀ b ∈ objectsOf cs, b ∈ U.objects)
    (hkeys : ∀ c ∈ tops ++ cs, callKey c ≤ 0xFFFFF) (hnew : ((tops ++ cs).map callKey).Nodup)
    (hF : Grows (T.run (heapStru heap) fuel cs) F) (hfits : ∀ r ∈ F.out, r.Fits)
    (hlen : F.out.length < 2 ^ 32) :
    ∃ p', Follows host n data heap F start (T.run (heapStru heap) fuel cs)
      (T.run (heapStru heap) fuel cs).order.length (tops ++ cs) p' := by
  induction cs generalizing T tops p with
  | nil => exact ⟨p, by rwa [List.append_nil]⟩
  | cons c cs ih =>
    rw [objectsOf_cons] at hobj
    have hc : ∀ b ∈ objectsOf [c], b ∈ U.objects := fun b hb => hobj b (List.mem_append_left _ hb)
    have hnew' : callKey c ∉ tops.map callKey := by
      rw [List.map_append, List.nodup_append] at hnew
      intro hmem
      exact hnew.2.2 _ hmem _ List.mem_cons_self rfl
    obtain ⟨p1, h1⟩ := h.top hU hT hfuel (hcs c List.mem_cons_self) hc
      (fun c hc => hkeys c (List.mem_append_left _ hc))
      (hkeys c (List.mem_append_right _ List.mem_cons_self)) hnew'
      ((grows_run (heapStru heap) fuel cs _).trans hF) hfits hlen
    rw [← List.singleton_append, ← List.append_assoc] at hkeys hnew ⊢
    exact ih h1 (hT.top U.closed hc fuel) (fun c hc => hcs c (List.mem_cons_of_mem _ hc))
      (fun b hb => hobj b (List.mem_append_right _ hb)) hkeys hnew hF

theorem length_le_stream {rs : List Record} (h : ∀ r ∈ rs, r.Fits) :
    rs.length ≤ (streamBytes host rs).length := by
  induction rs with
  | nil => exact le_rfl
  | cons r rs ih =>
    have hpos := (h r List.mem_cons_self).bytes_pos host
    have htail := ih fun r hr => h r (List.mem_cons_of_mem _ hr)
    rw [streamBytes_cons, List.length_append, List.length_cons]
    omega

theorem follows_start (host : Host) (heap : Heap) {u : MMUnpacker} {bytes : List UInt8}
    (hu : allocMMUnpackerWithData (some bytes) bytes.length = some u) (hlt : bytes.length < 2 ^ 32)
    (hbytes : bytes = streamBytes host F.out) (hF : Grows Ledger.start F) :
    ∃ p, Follows host bytes.length bytes heap F (processStart u) Ledger.start 0 [] p := by
  obtain ⟨later, hlater⟩ := hF.out
  have hbs : bytes = (Record.version packerVersionV1).bytes host ++ streamBytes host later := by
    rw [hbytes, ← hlater]
    exact streamBytes_cons ..
  have hat := (Parsing.allocMMUnpackerWithData_grounded hlt hu).rel.cursor
  have hat' : At bytes.length (processStart u).dyb
      ((Record.version packerVersionV1).bytes host ++ streamBytes host later) := by
    rw [← hbs]
    exact hat
  obtain ⟨d, hround, hd, hdata⟩ := round_version (show packerVersionV1 < 2 ^ 64 by decide) hat'
  obtain rfl := Option.some.inj hu.symm
  refine ⟨{ processStart _ with dyb := d }, ?_, hdata, ⟨later, hlater.symm, hd⟩,
    fun fuel => Parsing.processLoop_next fuel hround⟩
  exact
    { stack := rfl
      roots := rfl
      idle := rfl
      named := fun i name hname => by cases hname
      unnamed := fun _ _ _ => rfl
      sections := fun i hi => absurd hi (Nat.not_lt_zero i)
      rooted := ⟨[], rfl, fun c hc => absurd hc List.not_mem_nil, fun _ _ _ => rfl⟩ }

theorem Follows.answers {u : MMUnpacker}
    (h : Follows host n data heap F (processStart u) F k tops p)
    {rounds : Nat} (hr : F.out.length < rounds) :
    process host rounds u = .ok (true, p.toMMUnpacker) := by
  obtain ⟨fuel, rfl⟩ : ∃ fuel, rounds = fuel + 1 + F.out.length :=
    ⟨rounds - F.out.length - 1, by omega⟩
  obtain ⟨later, hlater, hat⟩ := h.left
  obtain rfl : later = [] := List.self_eq_append_right.mp hlater
  have h0 : dybGetRemainder p.dyb = 0 := hat.remainder
  have hround : Process.processRound host p = .ok (some true, p) := by
    rw [Process.processRound, Parsing.get_bind, Parsing.ite_run, if_pos h0]
    rfl
  rw [process, h.goes, Parsing.processLoop_answer fuel hround]
  rfl

/-- What the packer wrote is parsed to its end: every class name, every section, and the roots. -/
theorem process_mirrors {U : Universe (heapStru heap)} (hU : AllPresent heap U.objects)
    {fuel : Nat} (hfuel : U.objects.card < fuel) {cs : List (PackCall Addr)}
    (hcs : ∀ c ∈ cs, IsTop c) (hobj : ∀ b ∈ objectsOf cs, b ∈ U.objects)
    (hkeys : ∀ c ∈ cs, callKey c ≤ 0xFFFFF) (hnew : (cs.map callKey).Nodup)
    (hF : F = (Ledger.start : Ledger Addr).run (heapStru heap) fuel cs)
    (hfits : ∀ r ∈ F.out, r.Fits) {bytes : List UInt8} (hbytes : bytes = streamBytes host F.out)
    (hlt : bytes.length < 2 ^ 32) {u : MMUnpacker}
    (hu : allocMMUnpackerWithData (some bytes) bytes.length = some u) :
    ∃ p, Mirrors host bytes heap F.order F.names F.order.length cs p ∧
      ∀ rounds, F.out.length < rounds → process host rounds u = .ok (true, p.toMMUnpacker) := by
  have hgrow : Grows Ledger.start F := hF ▸ grows_run _ _ _ _
  have hlen : F.out.length < 2 ^ 32 := by
    rw [hbytes] at hlt
    exact (length_le_stream hfits).trans_lt hlt
  obtain ⟨p, hp⟩ := follows_start host heap hu hlt hbytes hgrow
  obtain ⟨p', hp'⟩ := hp.run hU (Within.start _) hfuel hcs hobj hkeys hnew (hF ▸ Grows.refl _)
    hfits hlen
  rw [← hF] at hp'
  exact ⟨p', hp'.mirrors, fun rounds => hp'.answers⟩

end Following

end LcClibs.Pack.Mirror
