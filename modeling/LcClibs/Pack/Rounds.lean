import Mathlib
import LcClibs.Pack.Acceptance
import LcClibs.Pack.Tables

namespace LcClibs.Pack.Rounds

open Platform Lib Lib.BigEndian Buffer.Cursor Buffer.Next Buffer.Typdex Buffer.VarInt
open Mmo.Object Pack.Records Pack.Process Pack.Nesting Pack.Parsing
open Pack.Acceptance (arrayAfter dbAfter keepName nameAfter keepName_eq)

section Reading

variable {host : Host} {n : Nat} {p : Parser} {bs : List UInt8}

/-- The parser goes on as told, its buffer behind the record that came next. -/
def Takes (host : Host) (n : Nat) (p : Parser) (bs : List UInt8) (x : ProcM (Option Bool)) : Prop :=
  ∃ d, processRound host p = x { p with dyb := d } ∧ At n d bs ∧ d.data = p.dyb.data

theorem round_header {r : Record} (h : At n p.dyb (r.bytes host ++ bs)) (hr : r.Fits) :
    ∃ d, processRound host p = processRecord host r.type r.index { p with dyb := d } ∧
      At n d (r.value host ++ bs) ∧ d.data = p.dyb.data := by
  have hpos := hr.bytes_pos host
  have hrem : dybGetRemainder p.dyb ≠ 0 := by
    rw [h.remainder, List.length_append]
    omega
  rw [Record.bytes, List.append_assoc] at h
  have hd := dybNextTypdex_bytes h.data_lt hr.typdexFits h.rest_eq
  refine ⟨_, ?_, h.after, rfl⟩
  rw [processRound, Parsing.get_bind, Parsing.ite_run, if_neg hrem]
  exact Parsing.bind_ok (onDyb_ok hd)

theorem Takes.read {r : Record} {α : Type} {x : DybM α} {a : α} {f : α → ProcM (Option Bool)}
    (h : At n p.dyb (r.bytes host ++ bs)) (hr : r.Fits)
    (hrec : processRecord host r.type r.index = onDyb x >>= f)
    (hx : ∀ d, At n d (r.value host ++ bs) → x d = .ok (a, advance (r.value host).length d)) :
    Takes host n p bs (f a) := by
  obtain ⟨d, hround, hd, hdata⟩ := round_header h hr
  refine ⟨_, ?_, hd.after, hdata⟩
  rw [hround, hrec]
  exact Parsing.bind_ok (p := { p with dyb := d }) (onDyb_ok (hx d hd))

theorem round_integer {index : Nat} {value : Int} (hr : (Record.integer index value).Fits)
    (h : At n p.dyb ((Record.integer index value).bytes host ++ bs)) :
    Takes host n p bs (processValue host index (.long value)) :=
  @Takes.read _ _ _ _ _ _ _ value (fun value => processValue host index (.long value)) h hr rfl
    fun _ hd => dybNextVarS64_bytes hd.data_lt hr.2 hd.rest_eq

theorem round_objectRef {index num : Nat} (hr : (Record.objectRef index num).Fits)
    (h : At n p.dyb ((Record.objectRef index num).bytes host ++ bs)) :
    Takes host n p bs (processValue host index (.int (int32 num))) :=
  have hnum : num < 2 ^ 64 := by have := hr.2; omega
  @Takes.read _ _ _ _ _ _ _ num (fun num => processValue host index (.int (int32 num))) h hr rfl
    fun _ hd => dybNextVarU64_bytes hd.data_lt hnum hd.rest_eq

theorem round_array {index size : Nat} (hr : (Record.array index size).Fits)
    (h : At n p.dyb ((Record.array index size).bytes host ++ bs)) :
    Takes host n p bs (arrayAfter host index size) :=
  have hsize : size < 2 ^ 64 := by have := hr.2; omega
  @Takes.read _ _ _ _ _ _ _ size (arrayAfter host index) h hr rfl
    fun _ hd => dybNextVarU64_bytes hd.data_lt hsize hd.rest_eq

theorem round_version {v : Nat} (hr : (Record.version v).Fits)
    (h : At n p.dyb ((Record.version v).bytes host ++ bs)) :
    Takes host n p bs (pure none) :=
  @Takes.read _ _ _ _ _ _ _ v (fun _ => pure none) h hr rfl
    fun _ hd => dybNextVarU64_bytes hd.data_lt hr hd.rest_eq

theorem round_objectEnd {num : Nat} (hr : (Record.objectEnd num).Fits)
    (h : At n p.dyb ((Record.objectEnd num).bytes host ++ bs)) :
    Takes host n p bs (processObject num) :=
  round_header h hr

theorem round_context {num : Nat} (hr : (Record.context num).Fits)
    (h : At n p.dyb ((Record.context num).bytes host ++ bs)) :
    Takes host n p bs (processContext num) :=
  round_header h hr

theorem takeData_bytes {d : Dybuf} {data : List UInt8} (h : At n d (dataBytes data ++ bs)) :
    takeData (if data = [] then none else some (d.position + (varBytes data.length).length))
        data.length (advance (dataBytes data).length d) =
      .ok (data, advance (dataBytes data).length d) := by
  by_cases he : data = []
  · subst he
    rfl
  · have hpos : data.length ≠ 0 := fun h0 => he (List.length_eq_zero_iff.mp h0)
    have hfit := h.fits
    have hrest := h.rest_eq
    rw [dataBytes, List.length_append, h.limit_eq, ← h.length_eq] at hfit
    rw [rest, dataBytes, List.append_assoc] at hrest
    rw [if_neg he, takeData_some hpos (by rw [advance_data]; omega), advance_data, ← List.drop_drop,
      hrest, List.drop_left, List.take_left]

/-- Data of any length, the empty one included, is taken as it was written. -/
theorem round_raw {index : Nat} {data : List UInt8} (hr : (Record.raw index data).Fits)
    (h : At n p.dyb ((Record.raw index data).bytes host ++ bs)) :
    Takes host n p bs (processValue host index (.data data)) := by
  have htake : data.take (uint data.length) = data := by
    rw [uint_of_lt hr.2, List.take_length]
  refine @Takes.read _ _ _ _ _ _ (do
      let p ← dybNextDataWithVarLen
      takeData p.1 p.2) data (fun bytes => processValue host index (.data bytes)) h hr ?_ ?_
  · rw [onDyb_bind, bind_assoc]
    rfl
  · intro d hd
    have hv : (Record.raw index data).value host = dataBytes data := by
      rw [Record.value, htake]
    rw [hv] at hd ⊢
    rw [Buffer.Cursor.bind_ok
      (dybNextDataWithVarLen_bytes hd.data_lt hd.limit_lt hd.rest_eq hd.fits)]
    exact takeData_bytes hd

theorem round_className {num : Nat} {name : List UInt8} (hr : (Record.className num name).Fits)
    (h : At n p.dyb ((Record.className num name).bytes host ++ bs))
    (hnew : Table.find Prod.fst (int32 num) p.idToClassName = none) :
    ∃ off d, processRound host p = .ok (none, { p with
        dyb := d
        idToClassName := p.idToClassName ++ [(int32 num, some off)] }) ∧
      At n d bs ∧ d.data = p.dyb.data ∧ ∃ r, p.dyb.data.drop off = name ++ 0 :: r := by
  obtain ⟨d, hround, hd, hdata⟩ := round_header h hr
  have hnum : num < 2 ^ 64 := by have := hr.1; omega
  rw [Record.value, cstringData_of_lt hr.2.2, List.append_assoc] at hd
  have hd1 := hd.after
  have hv := onDyb_ok (p := { p with dyb := d }) (dybNextVarU64_bytes hd.data_lt hnum hd.rest_eq)
  have hc := onDyb_ok (p := { p with dyb := advance (varBytes num).length d })
    (dybNextCstringWithVarLen_bytes hd1.data_lt hd1.limit_lt hd1.rest_eq hd1.fits)
  refine ⟨d.position + (varBytes num).length + (varBytes (name.length + 1)).length, _, ?_,
    hd1.after, hdata, bs, ?_⟩
  · rw [hround]
    show processDb pkrdbClassNames { p with dyb := d } = _
    rw [Acceptance.processDb_eq, Parsing.bind_ok hv, dbAfter, Parsing.get_bind, hnew]
    exact Parsing.bind_ok hc
  · have hrest := hd1.rest_eq
    rw [rest, advance_data, advance_position, dataBytes, List.length_append, List.length_singleton,
      List.append_assoc, List.append_assoc, hdata] at hrest
    rw [← List.drop_drop, hrest, List.drop_left]
    rfl

end Reading

section Rounds

variable {host : Host} {p : Parser} {a : Addr} {s : List Addr}

theorem pushIntoStack_map {c : Bool} {items : List (List UInt8 × Addr)} (index : Nat) (value : Addr)
    (hs : p.stack = a :: s) (ha : p.store[a]? = some (.map c items)) :
    pushIntoStack host index value p = .ok ((), { p with
      store := p.store.set a
        (.map c (Table.put Prod.fst (intKey host (int32 index), value) items)) }) := by
  rw [pushIntoStack, getLastItem_bind _ hs, Parsing.get_bind, ha]
  rfl

theorem pushIntoStack_list {items : List Addr} (index : Nat) (value : Addr)
    (hs : p.stack = a :: s) (ha : p.store[a]? = some (.list items)) :
    pushIntoStack host index value p = .ok ((), { p with
      store := p.store.set a (.list (items ++ [value])) }) := by
  rw [pushIntoStack, getLastItem_bind _ hs, Parsing.get_bind, ha]
  rfl

theorem getElem?_alloc {store : List Gen} {g : Gen} (ha : store[a]? = some g) (v : Gen) :
    (store ++ [v])[a]? = some g := by
  rw [List.getElem?_append_left (List.getElem?_eq_some_iff.mp ha).1, ha]

theorem processValue_map {c : Bool} {items : List (List UInt8 × Addr)} (index : Nat) (g : Gen)
    (hs : p.stack = a :: s) (ha : p.store[a]? = some (.map c items)) :
    processValue host index g p = .ok (none, { p with
      store := (p.store ++ [g]).set a
        (.map c (Table.put Prod.fst (intKey host (int32 index), p.store.length) items)) }) := by
  have hp := @pushIntoStack_map host { p with store := p.store ++ [g] } a s c items index
    p.store.length hs (getElem?_alloc ha g)
  rw [processValue, alloc_bind]
  exact Parsing.bind_ok hp

theorem processValue_list {items : List Addr} (index : Nat) (g : Gen)
    (hs : p.stack = a :: s) (ha : p.store[a]? = some (.list items)) :
    processValue host index g p = .ok (none, { p with
      store := (p.store ++ [g]).set a (.list (items ++ [p.store.length])) }) := by
  have hp := @pushIntoStack_list host { p with store := p.store ++ [g] } a s items index
    p.store.length hs (getElem?_alloc ha g)
  rw [processValue, alloc_bind]
  exact Parsing.bind_ok hp

theorem arrayAfter_open {c : Bool} {items : List (List UInt8 × Addr)} {size : Nat} (index : Nat)
    (hsize : 0 < size) (hs : p.stack = a :: s) (ha : p.store[a]? = some (.map c items)) :
    arrayAfter host index size p = .ok (none, { p with
      stack := p.store.length :: p.stack
      store := (p.store ++ [Gen.list []]).set a
        (.map c (Table.put Prod.fst (intKey host (int32 index), p.store.length) items)) }) := by
  have hp := @pushIntoStack_map host { p with store := p.store ++ [Gen.list []] } a s c items index
    p.store.length hs (getElem?_alloc ha _)
  rw [arrayAfter, Parsing.ite_run, if_pos hsize, alloc_bind]
  exact Parsing.bind_ok hp

theorem arrayAfter_close (index : Nat) (hs : p.stack = a :: s) :
    arrayAfter host index 0 p = .ok (none, { p with stack := s }) := by
  rw [arrayAfter, Parsing.ite_run, if_neg (lt_irrefl 0)]
  exact Parsing.bind_ok (popItem_cons hs)

theorem pushKeyVal_map {c : Bool} {items : List (List UInt8 × Addr)} {key : ProcM (List UInt8)}
    {k : List UInt8} (value : Addr) (hs : p.stack = a :: s)
    (ha : p.store[a]? = some (.map c items)) (hk : key p = .ok (k, p)) :
    pushKeyVal key value p = .ok ((), { p with
      store := p.store.set a (.map c (Table.put Prod.fst (k, value) items)) }) := by
  rw [pushKeyVal, getLastItem_bind _ hs, Parsing.get_bind, ha]
  exact Parsing.bind_ok hk

/-- The first record of a section. -/
theorem round_object {n num cn off : Nat} {bs name : List UInt8} {e : Int}
    (hr : (Record.object num cn).Fits)
    (h : At n p.dyb ((Record.object num cn).bytes host ++ bs)) (hcur : p.currentObj = none)
    (hname : Table.find Prod.fst (int32 cn) p.idToClassName = some (e, some off))
    (hoff : ∃ r, p.dyb.data.drop off = name ++ 0 :: r) (h0 : 0 ∉ name) :
    ∃ d, processRound host p = .ok (none, { p with
        stack := p.store.length :: p.stack
        objects := Table.put Prod.fst (int32 num, Entry.props p.store.length) p.objects
        dyb := d
        store := p.store ++ [.map false [(className, p.store.length + 1)], .string name]
        currentObj := some p.store.length
        currentObjNum := num }) ∧ At n d bs ∧ d.data = p.dyb.data := by
  obtain ⟨d, hround, hd, hdata⟩ := round_header h hr
  obtain ⟨r, hoff⟩ := hoff
  have hcn : cn < 2 ^ 64 := by have := hr.2; omega
  have hv := @onDyb_ok { p with
      store := p.store ++ [.map false []]
      currentObj := some p.store.length
      currentObjNum := num
      dyb := d } Nat dybNextVarU64 cn (advance (varBytes cn).length d)
    (dybNextVarU64_bytes hd.data_lt hcn hd.rest_eq)
  have hc := @onDyb_ok { p with
      stack := p.store.length :: p.stack
      objects := Table.put Prod.fst (int32 num, Entry.props p.store.length) p.objects
      store := p.store ++ [.map false []]
      currentObj := some p.store.length
      currentObjNum := num
      dyb := advance (varBytes cn).length d } (List UInt8) (cstringAt (some off)) name _
    (cstringAt_some (by rw [advance_data, hdata, hoff]) h0)
  refine ⟨_, ?_, hd.after, hdata⟩
  rw [hround]
  show processObject num { p with dyb := d } = _
  rw [processObject, Parsing.get_bind]
  simp only [hcur, alloc_bind, modify_bind]
  rw [Parsing.bind_ok hv, Parsing.get_bind, hname]
  simp only [pushItem, modify_bind]
  rw [Parsing.bind_ok hc, alloc_bind]
  refine (Parsing.bind_ok (@pushKeyVal_map _ p.store.length p.stack false [] _ className _ rfl
    (by simp) rfl)).trans ?_
  have hstore : (p.store ++ [Gen.map false []] ++ [Gen.string name]).set p.store.length
      (.map false (Table.put Prod.fst (className, (p.store ++ [Gen.map false []]).length) [])) =
      p.store ++ [.map false [(className, p.store.length + 1)], .string name] := by
    rw [List.append_assoc, List.set_append_right _ _ le_rfl, Nat.sub_self, List.length_append]
    rfl
  rw [← hstore]
  rfl

/-- The record that closes a section, the object being on top of the stack again or not. -/
theorem processObject_end {num : Nat} {inner : List Addr} (hcur : p.currentObj = some a)
    (hnum : p.currentObjNum = num) (hs : p.stack = inner ++ a :: s) (ha : a ∉ inner) :
    processObject num p = .ok (none, { p with
      stack := s
      currentObj := none
      currentObjNum := 0xFFFFFFFF }) := by
  have hpop : Process.popUntil a p = .ok ((), { p with stack := a :: s }) := by
    rw [Process.popUntil, hs, popDownTo_mem ha]
  rw [processObject, Parsing.get_bind]
  simp only [hcur, Parsing.get_bind, Parsing.ite_run, hnum, ne_eq, not_true_eq_false, if_false]
  rw [Parsing.bind_ok hpop, modify_bind]
  rfl

theorem processContext_open {num off : Nat} {name : List UInt8} {e : Int}
    {items : List (List UInt8 × Addr)} (hcur : p.currentObj = some a) (hs : p.stack = a :: s)
    (ha : p.store[a]? = some (.map false items))
    (hname : Table.find Prod.fst (int32 num) p.idToClassName = some (e, some off))
    (hoff : ∃ r, p.dyb.data.drop off = name ++ 0 :: r) (h0 : 0 ∉ name) :
    processContext num p = .ok (none, { p with
      stack := p.store.length :: a :: s
      store := (p.store ++ [Gen.map true []]).set a
        (.map false (Table.put Prod.fst (name, p.store.length) items)) }) := by
  obtain ⟨r, hoff⟩ := hoff
  have hpop : Process.popUntil a p = .ok ((), p) := by
    rw [Process.popUntil, hs, popDownTo, if_pos rfl, ← hs]
  have hkey : onDyb (cstringAt (some off)) { p with store := p.store ++ [Gen.map true []] } =
      .ok (name, { p with store := p.store ++ [Gen.map true []] }) :=
    @onDyb_ok { p with store := p.store ++ [Gen.map true []] } _ _ _ _ (cstringAt_some hoff h0)
  have hpush := @pushKeyVal_map { p with store := p.store ++ [Gen.map true []] } a s false items
    _ _ p.store.length hs (getElem?_alloc ha _) hkey
  rw [processContext, Parsing.get_bind]
  simp only [hcur, Parsing.get_bind, hname]
  rw [Parsing.bind_ok hpop, alloc_bind, Parsing.bind_ok hpush, ← hs, ← hcur]
  rfl

end Rounds

end LcClibs.Pack.Rounds
