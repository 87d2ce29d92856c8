import Mathlib
import LcClibs.Pack.Rounds

namespace LcClibs.Pack.Layout

open Platform Lib Buffer.Cursor Buffer.VarInt
open Mmo.Object Pack.Records Pack.Process Pack.Nesting Pack.Rounds Pack.Acceptance

section Stores

/-- A store that has grown, in which only one of the old objects may have changed. -/
structure Beside (a : Addr) (s s' : List Gen) : Prop where
  le : s.length ≤ s'.length
  same : ∀ b < s.length, b ≠ a → s'[b]? = s[b]?

variable {a b : Addr} {s s' s'' : List Gen} {g : Gen}

theorem Beside.refl (a : Addr) (s : List Gen) : Beside a s s := ⟨le_rfl, fun _ _ _ => rfl⟩

theorem Beside.trans (h : Beside a s s') (h' : Beside a s' s'') : Beside a s s'' where
  le := h.le.trans h'.le
  same b hb hne := (h'.same b (hb.trans_le h.le) hne).trans (h.same b hb hne)

theorem Beside.append (a : Addr) (s gs : List Gen) : Beside a s (s ++ gs) where
  le := by
    rw [List.length_append]
    exact Nat.le_add_right _ _
  same _ hb _ := List.getElem?_append_left hb

theorem Beside.set (a : Addr) (s : List Gen) (g : Gen) : Beside a s (s.set a g) where
  le := (List.length_set ..).ge
  same _ _ hne := List.getElem?_set_ne (Ne.symm hne)

theorem Beside.get (h : Beside a s s') (hb : s[b]? = some g) (hne : b ≠ a) : s'[b]? = some g :=
  (h.same b (List.getElem?_eq_some_iff.mp hb).1 hne).trans hb

theorem Beside.of_new (h : Beside b s s') (hb : s.length ≤ b) (a : Addr) : Beside a s s' where
  le := h.le
  same _ hlt _ := h.same _ hlt (hlt.trans_le hb).ne

theorem Beside.then_new (h : Beside a s s') (h' : Beside b s' s'') (hb : s.length ≤ b) :
    Beside a s s'' where
  le := h.le.trans h'.le
  same c hc hne :=
    (h'.same c (hc.trans_le h.le) (hc.trans_le hb).ne).trans (h.same c hc hne)

theorem Beside.alloc_set (a : Addr) (s : List Gen) (g g' : Gen) :
    Beside a s ((s ++ [g]).set a g') :=
  (Beside.append a s [g]).trans (Beside.set a _ g')

theorem getElem?_alloc_set (ha : a < s.length) (g g' : Gen) :
    ((s ++ [g]).set a g')[a]? = some g' := by
  rw [List.getElem?_set_self]
  rw [List.length_append]
  exact Nat.lt_add_right _ ha

theorem getElem?_alloc_set_new (ha : a < s.length) (g g' : Gen) :
    ((s ++ [g]).set a g')[s.length]? = some g := by
  rw [List.getElem?_set_ne ha.ne, List.getElem?_concat_length]

end Stores

section Reading

variable {host : Host} {n k l : Nat} {data : List UInt8} {p p' p'' : Parser}

def Goes (host : Host) (k : Nat) (p p' : Parser) : Prop :=
  ∀ fuel, processLoop host (fuel + k) p = processLoop host fuel p'

theorem Goes.trans (h : Goes host k p p') (h' : Goes host l p' p'') : Goes host (k + l) p p'' := by
  intro fuel
  rw [Nat.add_comm k l, ← Nat.add_assoc, h, h']

/-- Records that are read on the way from one state to another, wherever they lie in the data
and whatever follows them. -/
def Reads (host : Host) (n : Nat) (data : List UInt8) (rs : List Record) (p p' : Parser) : Prop :=
  ∀ d later, At n d (streamBytes host rs ++ later) → d.data = data →
    ∃ d', At n d' later ∧ d'.data = data ∧
      Goes host rs.length { p with dyb := d } { p' with dyb := d' }

theorem Reads.refl (p : Parser) : Reads host n data [] p p :=
  fun d _ hd hdata => ⟨d, hd, hdata, fun _ => rfl⟩

theorem Reads.trans {rs rs' : List Record} (h : Reads host n data rs p p')
    (h' : Reads host n data rs' p' p'') : Reads host n data (rs ++ rs') p p'' := by
  intro d later hd hdata
  rw [streamBytes_append, List.append_assoc] at hd
  obtain ⟨d1, hd1, hdata1, hg1⟩ := h d _ hd hdata
  obtain ⟨d2, hd2, hdata2, hg2⟩ := h' d1 later hd1 hdata1
  refine ⟨d2, hd2, hdata2, ?_⟩
  rw [List.length_append]
  exact hg1.trans hg2

theorem Reads.round {r : Record}
    (h : ∀ d bs, At n d (r.bytes host ++ bs) → d.data = data →
      ∃ d', processRound host { p with dyb := d } = .ok (none, { p' with dyb := d' }) ∧
        At n d' bs ∧ d'.data = data) :
    Reads host n data [r] p p' := by
  intro d later hd hdata
  rw [streamBytes_cons, streamBytes_nil, List.append_nil] at hd
  obtain ⟨d', hround, hd', hdata'⟩ := h d later hd hdata
  exact ⟨d', hd', hdata', fun fuel => Parsing.processLoop_next fuel hround⟩

theorem Takes.reads {r : Record} {x : ProcM (Option Bool)}
    (h : ∀ d bs, At n d (r.bytes host ++ bs) → Takes host n { p with dyb := d } bs x)
    (hx : ∀ d, d.data = data → x { p with dyb := d } = .ok (none, { p' with dyb := d })) :
    Reads host n data [r] p p' := by
  refine Reads.round fun d bs hd hdata => ?_
  obtain ⟨d', hround, hd', hdata'⟩ := h d bs hd
  have hdata2 : d'.data = data := hdata'.trans hdata
  exact ⟨d', hround.trans (hx d' hdata2), hd', hdata2⟩

end Reading

section Slots

/-- What a pack function writes: a number or data under a key, or an array of objects, each
with the key it is packed under. -/
inductive Slot (A : Type)
  | integer (key : Nat) (value : Int)
  | data (key : Nat) (value : List UInt8)
  | array (key : Nat) (refs : List (Nat × A))

variable {A : Type}

def Slot.key : Slot A → Nat
  | integer key _ | data key _ | array key _ => key

def Slot.records (num : A → Nat) : Slot A → List Record
  | integer key value => [.integer key value]
  | data key value => [.raw key value]
  | array key refs => .array key (uint (uint refs.length + 1)) ::
      (refs.map (fun r => .objectRef r.1 (num r.2)) ++ [.array key 0])

/-- An array whose size record holds its length. -/
def Slot.Counted : Slot A → Prop
  | array _ refs => refs.length + 1 < 2 ^ 32
  | _ => True

def RefsAt (num : A → Nat) (store : List Gen) (as : List Addr) (refs : List (Nat × A)) : Prop :=
  List.Forall₂ (fun a r => store[a]? = some (.int (int32 (num r.2)))) as refs

/-- What a slot is parsed to. -/
def SlotAt (num : A → Nat) (store : List Gen) (a : Addr) : Slot A → Prop
  | .integer _ value => store[a]? = some (.long value)
  | .data _ value => store[a]? = some (.data value)
  | .array _ refs => ∃ as, store[a]? = some (.list as) ∧ RefsAt num store as refs

variable {num : A → Nat} {store store' : List Gen} {a c : Addr}

theorem RefsAt.beside {as : List Addr} {refs : List (Nat × A)} (h : RefsAt num store as refs)
    (hb : Beside c store store') (hc : ∀ i, store[c]? ≠ some (.int i)) :
    RefsAt num store' as refs := by
  refine List.Forall₂.imp (fun a r ha => ?_) h
  refine hb.get ha ?_
  rintro rfl
  exact hc _ ha

theorem SlotAt.beside {f : Slot A} (h : SlotAt num store a f) (hb : Beside c store store')
    {b : Bool} {items : List (List UInt8 × Addr)} (hc : store[c]? = some (.map b items)) :
    SlotAt num store' a f := by
  cases f with
  | integer key value =>
    refine hb.get h ?_
    rintro rfl
    cases hc.symm.trans h
  | data key value =>
    refine hb.get h ?_
    rintro rfl
    cases hc.symm.trans h
  | array key refs =>
    obtain ⟨as, ha, hrefs⟩ := h
    refine ⟨as, hb.get ha ?_, hrefs.beside hb fun i hi => ?_⟩
    · rintro rfl
      cases hc.symm.trans ha
    · cases hc.symm.trans hi

end Slots

section SlotReading

theorem find_put_pair {κ β : Type} [DecidableEq κ] (k : κ) (v : β) (t : List (κ × β)) :
    Table.find Prod.fst k (Table.put Prod.fst (k, v) t) = some (k, v) :=
  @Table.find_put_self (κ × β) κ _ Prod.fst (k, v) t

theorem find_put_pair_ne {κ β : Type} [DecidableEq κ] {k l : κ} (h : l ≠ k) (v : β)
    (t : List (κ × β)) :
    Table.find Prod.fst l (Table.put Prod.fst (k, v) t) = Table.find Prod.fst l t :=
  @Table.find_put_ne (κ × β) κ _ Prod.fst l (k, v) (Ne.symm h) t

variable {A : Type} {num : A → Nat} {host : Host} {n : Nat} {data : List UInt8} {p : Parser}
variable {a c : Addr} {s : List Addr} {b : Bool} {items : List (List UInt8 × Addr)}

theorem reads_integer {key : Nat} {value : Int} (hr : (Record.integer key value).Fits)
    (hs : p.stack = c :: s) (hc : p.store[c]? = some (.map b items)) :
    Reads host n data [.integer key value] p { p with
      store := (p.store ++ [Gen.long value]).set c
        (.map b (Table.put Prod.fst (intKey host (int32 key), p.store.length) items)) } :=
  Takes.reads (x := processValue host key (.long value)) (fun _ _ hd => round_integer hr hd)
    fun d _ => @processValue_map host { p with dyb := d } c s b items key (.long value) hs hc

theorem reads_raw {key : Nat} {value : List UInt8} (hr : (Record.raw key value).Fits)
    (hs : p.stack = c :: s) (hc : p.store[c]? = some (.map b items)) :
    Reads host n data [.raw key value] p { p with
      store := (p.store ++ [Gen.data value]).set c
        (.map b (Table.put Prod.fst (intKey host (int32 key), p.store.length) items)) } :=
  Takes.reads (x := processValue host key (.data value)) (fun _ _ hd => round_raw hr hd)
    fun d _ => @processValue_map host { p with dyb := d } c s b items key (.data value) hs hc

theorem reads_objectRef_map {key i : Nat} (hr : (Record.objectRef key i).Fits)
    (hs : p.stack = c :: s) (hc : p.store[c]? = some (.map b items)) :
    Reads host n data [.objectRef key i] p { p with
      store := (p.store ++ [Gen.int (int32 i)]).set c
        (.map b (Table.put Prod.fst (intKey host (int32 key), p.store.length) items)) } :=
  Takes.reads (x := processValue host key (.int (int32 i))) (fun _ _ hd => round_objectRef hr hd)
    fun d _ => @processValue_map host { p with dyb := d } c s b items key (.int (int32 i)) hs hc

theorem reads_objectRef_list {key i : Nat} {as : List Addr} (hr : (Record.objectRef key i).Fits)
    (hs : p.stack = c :: s) (hc : p.store[c]? = some (.list as)) :
    Reads host n data [.objectRef key i] p { p with
      store := (p.store ++ [Gen.int (int32 i)]).set c (.list (as ++ [p.store.length])) } :=
  Takes.reads (x := processValue host key (.int (int32 i))) (fun _ _ hd => round_objectRef hr hd)
    fun d _ => @processValue_list host { p with dyb := d } c s as key (.int (int32 i)) hs hc

/-- The references inside an array, which is on top of the stack. -/
theorem reads_refs {refs : List (Nat × A)} {as : List Addr}
    (hr : ∀ r ∈ refs, (Record.objectRef r.1 (num r.2)).Fits)
    (hs : p.stack = c :: s) (hc : p.store[c]? = some (.list as)) :
    ∃ store bs, Reads host n data (refs.map fun r => .objectRef r.1 (num r.2)) p
        { p with store := store } ∧
      Beside c p.store store ∧ store[c]? = some (.list (as ++ bs)) ∧ RefsAt num store bs refs := by
  induction refs generalizing p as with
  | nil => exact ⟨p.store, [], .refl p, .refl c _, by rw [hc, List.append_nil], .nil⟩
  | cons r refs ih =>
    have hlt : c < p.store.length := (List.getElem?_eq_some_iff.mp hc).1
    have h1 := @reads_objectRef_list host n data p c s r.1 (num r.2) as
      (hr r List.mem_cons_self) hs hc
    have hb1 := Beside.alloc_set c p.store (Gen.int (int32 (num r.2)))
      (.list (as ++ [p.store.length]))
    obtain ⟨store, bs, h2, hb2, hlist, hrefs⟩ := @ih
      { p with
        store := (p.store ++ [Gen.int (int32 (num r.2))]).set c
          (.list (as ++ [p.store.length])) } (as ++ [p.store.length])
      (fun r hr' => hr r (List.mem_cons_of_mem _ hr')) hs (getElem?_alloc_set hlt _ _)
    refine ⟨store, p.store.length :: bs, h1.trans h2, hb1.trans hb2, ?_, ?_⟩
    · rw [hlist, List.append_assoc, List.singleton_append]
    · exact .cons (hb2.get (getElem?_alloc_set_new hlt _ _) hlt.ne') hrefs

theorem reads_slot (host : Host) (n : Nat) (data : List UInt8) {f : Slot A}
    (hr : ∀ r ∈ f.records num, r.Fits) (hf : f.Counted) (hs : p.stack = c :: s)
    (hc : p.store[c]? = some (.map b items)) :
    ∃ store, Reads host n data (f.records num) p { p with store := store } ∧
      Beside c p.store store ∧
      store[c]? = some
        (.map b (Table.put Prod.fst (intKey host (int32 f.key), p.store.length) items)) ∧
      SlotAt num store p.store.length f := by
  have hlt : c < p.store.length := (List.getElem?_eq_some_iff.mp hc).1
  cases f with
  | integer key value =>
    exact ⟨_, reads_integer (hr _ List.mem_cons_self) hs hc, .alloc_set ..,
      getElem?_alloc_set hlt _ _, getElem?_alloc_set_new hlt _ _⟩
  | data key value =>
    exact ⟨_, reads_raw (hr _ List.mem_cons_self) hs hc, .alloc_set ..,
      getElem?_alloc_set hlt _ _, getElem?_alloc_set_new hlt _ _⟩
  | array key refs =>
    have hsize : uint (uint refs.length + 1) = refs.length + 1 := by
      rw [uint_of_lt (Nat.lt_of_succ_lt hf), uint_of_lt hf]
    -- the array is opened, and becomes the last item of the stack
    have hopen : Reads host n data [.array key (uint (uint refs.length + 1))] p { p with
        stack := p.store.length :: p.stack
        store := (p.store ++ [Gen.list []]).set c (.map b
          (Table.put Prod.fst (intKey host (int32 key), p.store.length) items)) } :=
      Takes.reads (fun _ _ hd => round_array (hr _ List.mem_cons_self) hd) fun d _ =>
        @arrayAfter_open host { p with dyb := d } c s b items _ key
          (hsize ▸ Nat.succ_pos _) hs hc
    have hmem : ∀ r ∈ refs, (Record.objectRef r.1 (num r.2)).Fits := fun r hr' =>
      hr _ (List.mem_cons_of_mem _ (List.mem_append_left _ (List.mem_map_of_mem
        (f := fun r => Record.objectRef r.1 (num r.2)) hr')))
    obtain ⟨store, bs, hrefs, hb, hlist, hat⟩ := @reads_refs A num host n data { p with
        stack := p.store.length :: p.stack
        store := (p.store ++ [Gen.list []]).set c (.map b
          (Table.put Prod.fst (intKey host (int32 key), p.store.length) items)) }
      p.store.length p.stack refs [] hmem rfl (getElem?_alloc_set_new hlt _ _)
    have hclose : Reads host n data [.array key 0]
        { p with stack := p.store.length :: p.stack, store := store }
        { p with store := store } :=
      Takes.reads (fun _ _ hd => round_array (hr _ (List.mem_cons_of_mem _
          (List.mem_append_right _ List.mem_cons_self))) hd) fun d _ =>
        @arrayAfter_close host { p with
          dyb := d
          stack := p.store.length :: p.stack
          store := store } p.store.length p.stack key rfl
    refine ⟨store, hopen.trans (hrefs.trans hclose), (Beside.alloc_set ..).then_new hb le_rfl,
      ?_, bs, hlist, hat⟩
    exact hb.get (getElem?_alloc_set hlt _ _) hlt.ne

/-- The slots of an object, read into the map on top of the stack. -/
theorem reads_slots {fs : List (Slot A)} (hr : ∀ f ∈ fs, ∀ r ∈ f.records num, r.Fits)
    (hf : ∀ f ∈ fs, f.Counted) (hk : (fs.map fun f => intKey host (int32 f.key)).Nodup)
    (hs : p.stack = c :: s) (hc : p.store[c]? = some (.map b items)) :
    ∃ store items', Reads host n data (fs.flatMap (Slot.records num)) p
        { p with store := store } ∧
      Beside c p.store store ∧ store[c]? = some (.map b items') ∧
      (∀ k ∉ fs.map fun f => intKey host (int32 f.key),
        Table.find Prod.fst k items' = Table.find Prod.fst k items) ∧
      ∀ f ∈ fs, ∃ a, Table.find Prod.fst (intKey host (int32 f.key)) items' =
        some (intKey host (int32 f.key), a) ∧ SlotAt num store a f := by
  induction fs generalizing p items with
  | nil =>
    exact ⟨p.store, items, .refl p, .refl c _, hc, fun _ _ => rfl, fun f hf =>
      absurd hf List.not_mem_nil⟩
  | cons f fs ih =>
    obtain ⟨hkf, hk'⟩ := List.nodup_cons.mp hk
    obtain ⟨store1, h1, hb1, hc1, hat⟩ := reads_slot host n data
      (hr f List.mem_cons_self) (hf f List.mem_cons_self) hs hc
    obtain ⟨store2, items2, h2, hb2, hc2, hkeep, hall⟩ := @ih { p with store := store1 } _
      (fun g hg => hr g (List.mem_cons_of_mem _ hg))
      (fun g hg => hf g (List.mem_cons_of_mem _ hg)) hk' hs hc1
    refine ⟨store2, items2, h1.trans h2, hb1.trans hb2, hc2, fun k hk => ?_, fun g hg => ?_⟩
    · rw [List.map_cons, List.mem_cons, not_or] at hk
      rw [hkeep k hk.2, find_put_pair_ne hk.1]
    · obtain rfl | hg := List.mem_cons.mp hg
      · refine ⟨p.store.length, ?_, hat.beside hb2 hc1⟩
        rw [hkeep _ hkf, find_put_pair]
      · exact hall g hg

end SlotReading

section Sections

variable {A : Type} {num : A → Nat} {host : Host} {n : Nat} {data : List UInt8} {p : Parser}
variable {name : List UInt8} {fs : List (Slot A)} {store store' : List Gen} {m : Addr}

/-- A class number whose name is known, and lies in the data with its closing NUL. -/
def NameAt (data : List UInt8) (p : Parser) (i : Nat) (name : List UInt8) : Prop :=
  ∃ e off, Table.find Prod.fst (int32 i) p.idToClassName = some (e, some off) ∧
    ∃ r, data.drop off = name ++ 0 :: r

/-- What the section of an object is parsed to: its properties, which hold the name of its
class and under that name the context with its slots. -/
def SectionAt (host : Host) (num : A → Nat) (store : List Gen) (m : Addr) (name : List UInt8)
    (fs : List (Slot A)) : Prop :=
  ∃ a c items, store[m]? = some (.map false [(className, a), (name, c)]) ∧
    store[a]? = some (.string name) ∧ store[c]? = some (.map true items) ∧
    ∀ f ∈ fs, ∃ b, Table.find Prod.fst (intKey host (int32 f.key)) items =
      some (intKey host (int32 f.key), b) ∧ SlotAt num store b f

theorem SectionAt.beside (h : SectionAt host num store m name fs) {r : Addr}
    (hb : Beside r store store') {roots : List (List UInt8 × Addr)}
    (hr : store[r]? = some (.map false roots)) (hm : m ≠ r) :
    SectionAt host num store' m name fs := by
  obtain ⟨a, c, items, hprops, hstring, hcontext, hslots⟩ := h
  refine ⟨a, c, items, hb.get hprops hm, hb.get hstring ?_, hb.get hcontext ?_, fun f hf => ?_⟩
  · rintro rfl
    cases hr.symm.trans hstring
  · rintro rfl
    cases hr.symm.trans hcontext
  · obtain ⟨b, hfind, hat⟩ := hslots f hf
    exact ⟨b, hfind, hat.beside hb hr⟩

def sectionRecords (num : A → Nat) (i cn : Nat) (fs : List (Slot A)) : List Record :=
  [.object i cn] ++ [.context cn] ++ fs.flatMap (Slot.records num) ++ [.objectEnd i]

theorem reads_object (host : Host) (n : Nat) {i cn : Nat} (hr : (Record.object i cn).Fits)
    (hcur : p.currentObj = none) (hname : NameAt data p cn name) (h0 : 0 ∉ name) :
    Reads host n data [.object i cn] p { p with
      stack := p.store.length :: p.stack
      objects := Table.put Prod.fst (int32 i, Entry.props p.store.length) p.objects
      store := p.store ++ [Gen.map false [(className, p.store.length + 1)], Gen.string name]
      currentObj := some p.store.length
      currentObjNum := i } := by
  obtain ⟨e, off, hfind, hoff⟩ := hname
  refine Reads.round fun d bs hd hdata => ?_
  obtain ⟨d', hround, hd', hdata'⟩ := @round_object host { p with dyb := d } n i cn off bs name e
    hr hd hcur hfind (hdata ▸ hoff) h0
  exact ⟨d', hround, hd', hdata'.trans hdata⟩

theorem reads_context {cn m : Nat} {s : List Addr} {items : List (List UInt8 × Addr)}
    (hr : (Record.context cn).Fits) (hcur : p.currentObj = some m) (hs : p.stack = m :: s)
    (hm : p.store[m]? = some (.map false items)) (hname : NameAt data p cn name) (h0 : 0 ∉ name) :
    Reads host n data [.context cn] p { p with
      stack := p.store.length :: m :: s
      store := (p.store ++ [Gen.map true []]).set m
        (.map false (Table.put Prod.fst (name, p.store.length) items)) } := by
  obtain ⟨e, off, hfind, hoff⟩ := hname
  exact Takes.reads (fun _ _ hd => round_context hr hd) fun d hdata =>
    @processContext_open { p with dyb := d } m s cn off name e items hcur hs hm hfind
      (hdata ▸ hoff) h0

theorem reads_objectEnd {i m : Nat} {inner s : List Addr} (hr : (Record.objectEnd i).Fits)
    (hcur : p.currentObj = some m) (hnum : p.currentObjNum = i) (hs : p.stack = inner ++ m :: s)
    (hm : m ∉ inner) :
    Reads host n data [.objectEnd i] p { p with
      stack := s
      currentObj := none
      currentObjNum := 0xFFFFFFFF } :=
  Takes.reads (fun _ _ hd => round_objectEnd hr hd) fun d _ =>
    @processObject_end { p with dyb := d } m s i inner hcur hnum hs hm

/-- A whole section leaves its object in the table, and the stack as it was. -/
theorem reads_section (host : Host) (n : Nat) {i cn : Nat}
    (hr : ∀ r ∈ sectionRecords num i cn fs, r.Fits)
    (hf : ∀ f ∈ fs, f.Counted) (hk : (fs.map fun f => intKey host (int32 f.key)).Nodup)
    (hcur : p.currentObj = none) (hname : NameAt data p cn name) (h0 : 0 ∉ name)
    (hne : name ≠ className) :
    ∃ store, Reads host n data (sectionRecords num i cn fs) p { p with
        objects := Table.put Prod.fst (int32 i, Entry.props p.store.length) p.objects
        store := store
        currentObj := none
        currentObjNum := 0xFFFFFFFF } ∧
      Beside p.store.length p.store store ∧
      SectionAt host num store p.store.length name fs := by
  have hfits : ∀ r, r = .object i cn ∨ r = .context cn ∨ r ∈ fs.flatMap (Slot.records num) ∨
      r = .objectEnd i → r.Fits := by
    intro r h
    apply hr
    simpa [sectionRecords] using h
  have h1 := reads_object host n (hfits _ (.inl rfl)) hcur hname h0
  -- the properties with the name of the class, then with its context
  have hm1 : (p.store ++ [Gen.map false [(className, p.store.length + 1)],
      Gen.string name])[p.store.length]? = some (.map false [(className, p.store.length + 1)]) := by
    rw [List.getElem?_append_right le_rfl, Nat.sub_self]
    rfl
  have h2 := @reads_context host n data { p with
      stack := p.store.length :: p.stack
      objects := Table.put Prod.fst (int32 i, Entry.props p.store.length) p.objects
      store := p.store ++ [Gen.map false [(className, p.store.length + 1)], Gen.string name]
      currentObj := some p.store.length
      currentObjNum := i } name cn p.store.length p.stack _ (hfits _ (.inr (.inl rfl))) rfl rfl hm1
    hname h0
  have hlt : p.store.length < (p.store ++ [Gen.map false [(className, p.store.length + 1)],
      Gen.string name]).length := (List.getElem?_eq_some_iff.mp hm1).1
  have hs1 : (p.store ++ [Gen.map false [(className, p.store.length + 1)],
      Gen.string name])[p.store.length + 1]? = some (.string name) := by
    rw [List.getElem?_append_right (Nat.le_add_right _ _), Nat.add_sub_cancel_left]
    rfl
  have hb1 := Beside.append p.store.length p.store
    [Gen.map false [(className, p.store.length + 1)], Gen.string name]
  have hlen : (p.store ++ [Gen.map false [(className, p.store.length + 1)],
      Gen.string name]).length = p.store.length + 2 := List.length_append
  have hput : Table.put Prod.fst (name, p.store.length + 2) [(className, p.store.length + 1)] =
      [(className, p.store.length + 1), (name, p.store.length + 2)] := by
    rw [Table.put_eq, Table.del_of_find_none]
    · rfl
    · rw [Table.find_singleton, if_neg (Ne.symm hne)]
  generalize p.store ++ [Gen.map false [(className, p.store.length + 1)],
    Gen.string name] = store1 at h1 h2 hm1 hlt hs1 hb1 hlen
  have hb2 := Beside.alloc_set p.store.length store1 (Gen.map true [])
    (.map false (Table.put Prod.fst (name, store1.length) [(className, p.store.length + 1)]))
  have hm2 := getElem?_alloc_set hlt (Gen.map true [])
    (.map false (Table.put Prod.fst (name, store1.length) [(className, p.store.length + 1)]))
  have hc2 := getElem?_alloc_set_new hlt (Gen.map true [])
    (.map false (Table.put Prod.fst (name, store1.length) [(className, p.store.length + 1)]))
  generalize (store1 ++ [Gen.map true []]).set p.store.length
    (.map false (Table.put Prod.fst (name, store1.length) [(className, p.store.length + 1)])) =
      store2 at h2 hb2 hm2 hc2
  rw [hlen] at h2 hm2 hc2
  rw [hput] at hm2
  obtain ⟨store, items, h3, hb3, hc3, -, hall⟩ := @reads_slots A num host n data { p with
      stack := (p.store.length + 2) :: p.store.length :: p.stack
      objects := Table.put Prod.fst (int32 i, Entry.props p.store.length) p.objects
      store := store2
      currentObj := some p.store.length
      currentObjNum := i } _ _ _ _ fs
    (fun f hf r hr => hfits r (.inr (.inr (.inl (List.mem_flatMap.mpr ⟨f, hf, hr⟩))))) hf hk rfl hc2
  have h4 := @reads_objectEnd host n data { p with
      stack := (p.store.length + 2) :: p.store.length :: p.stack
      objects := Table.put Prod.fst (int32 i, Entry.props p.store.length) p.objects
      store := store
      currentObj := some p.store.length
      currentObjNum := i } i p.store.length [p.store.length + 2] p.stack
    (hfits _ (.inr (.inr (.inr rfl)))) rfl rfl rfl (by simp)
  refine ⟨store, ((h1.trans h2).trans h3).trans h4, (hb1.trans hb2).then_new hb3
    (Nat.le_add_right _ _), p.store.length + 1, p.store.length + 2, items,
    hb3.get hm2 (by simp), hb3.get (hb2.get hs1 (by simp)) (by simp), hc3, hall⟩

end Sections

end LcClibs.Pack.Layout
