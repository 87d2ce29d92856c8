import Mathlib
import LcClibs.Pack.Nesting

namespace LcClibs.Pack.Parsing

open Platform Lib Lib.BigEndian Lib.PrefixCode
open Buffer.Cursor Buffer.Next Buffer.Typdex Buffer.VarInt
open Mmo.Object Pack.Records Pack.Process Pack.Nesting

section Steps

variable {p p' : Parser}

theorem bind_ok {α β : Type} {x : ProcM α} {f : α → ProcM β} {a : α} (h : x p = .ok (a, p')) :
    (x >>= f) p = f a p' := by
  simp only [bind, StateT.bind, h, Except.bind]

theorem bind_error {α β : Type} {x : ProcM α} {f : α → ProcM β} {e : Fault}
    (h : x p = .error e) : (x >>= f) p = .error e := by
  simp only [bind, StateT.bind, h, Except.bind]

theorem get_bind {α : Type} (f : Parser → ProcM α) (p : Parser) : (get >>= f) p = f p p := rfl

theorem ite_run {α : Type} {c : Prop} [Decidable c] (x y : ProcM α) (p : Parser) :
    (if c then x else y) p = if c then x p else y p := by
  split <;> rfl

theorem modify_bind {α : Type} (g : Parser → Parser) (f : PUnit → ProcM α) (p : Parser) :
    (modify g >>= f) p = f ⟨⟩ (g p) := rfl

theorem alloc_bind {α : Type} (v : Gen) (f : Addr → ProcM α) (p : Parser) :
    (alloc v >>= f) p = f p.store.length { p with store := p.store ++ [v] } := rfl

theorem onDyb_ok {α : Type} {x : DybM α} {a : α} {d : Dybuf} (h : x p.dyb = .ok (a, d)) :
    onDyb x p = .ok (a, { p with dyb := d }) := by
  rw [onDyb, h]

theorem onDyb_error {α : Type} {x : DybM α} {e : Fault} (h : x p.dyb = .error e) :
    onDyb x p = .error e := by
  rw [onDyb, h]

theorem onDyb_bind {α β : Type} (x : DybM α) (f : α → DybM β) :
    onDyb (x >>= f) = (do let a ← onDyb x; onDyb (f a)) := by
  funext p
  cases hx : x p.dyb with
  | error e => rw [onDyb_error (Buffer.Cursor.bind_error hx), bind_error (onDyb_error hx)]
  | ok q =>
    obtain ⟨a, d⟩ := q
    rw [bind_ok (onDyb_ok hx), onDyb, Buffer.Cursor.bind_ok hx]
    rfl

theorem onDyb_pure {α : Type} (a : α) : onDyb (pure a) = (pure a : ProcM α) := rfl

theorem getLastItem_bind {α : Type} {a : Addr} {s : List Addr} (f : Addr → ProcM α)
    (h : p.stack = a :: s) : (getLastItem >>= f) p = f a p := by
  apply bind_ok
  rw [getLastItem, get_bind, h]
  rfl

theorem popItem_cons {a : Addr} {s : List Addr} (h : p.stack = a :: s) :
    popItem p = .ok ((), { p with stack := s }) := by
  rw [popItem, get_bind, h]
  rfl

end Steps

section Containers

def IsContainer : Gen → Prop
  | .map _ _ | .list _ => True
  | _ => False

def Contains (store : List Gen) (a : Addr) : Prop := ∃ g, store[a]? = some g ∧ IsContainer g

theorem Contains.lt {store : List Gen} {a : Addr} (h : Contains store a) : a < store.length := by
  obtain ⟨g, hg, -⟩ := h
  exact (List.getElem?_eq_some_iff.mp hg).1

theorem Contains.append {store : List Gen} {a : Addr} (h : Contains store a) (gs : List Gen) :
    Contains (store ++ gs) a := by
  obtain ⟨g, hg, hc⟩ := h
  exact ⟨g, by rw [List.getElem?_append_left (List.getElem?_eq_some_iff.mp hg).1, hg], hc⟩

theorem Contains.new (store : List Gen) {g : Gen} (hg : IsContainer g) :
    Contains (store ++ [g]) store.length :=
  ⟨g, by simp, hg⟩

/-- A map at an address, of which only the items may have changed. -/
def MapAt (store : List Gen) (a : Addr) (c : Bool) : Prop :=
  ∃ items, store[a]? = some (.map c items)

theorem MapAt.contains {store : List Gen} {a : Addr} {c : Bool} (h : MapAt store a c) :
    Contains store a := by
  obtain ⟨items, hi⟩ := h
  exact ⟨_, hi, trivial⟩

theorem MapAt.new (store : List Gen) (c : Bool) (items : List (List UInt8 × Addr)) :
    MapAt (store ++ [.map c items]) store.length c :=
  ⟨items, by simp⟩

structure Stores (p p' : Parser) : Prop where
  stack : p'.stack = p.stack
  roots : p'.roots = p.roots
  idToClassName : p'.idToClassName = p.idToClassName
  dyb : p'.dyb = p.dyb
  currentObj : p'.currentObj = p.currentObj
  currentObjNum : p'.currentObjNum = p.currentObjNum
  length_le : p.store.length ≤ p'.store.length
  kept : ∀ a, Contains p.store a → Contains p'.store a
  kept_map : ∀ a c, MapAt p.store a c → MapAt p'.store a c

theorem Stores.refl (p : Parser) : Stores p p := ⟨rfl, rfl, rfl, rfl, rfl, rfl, le_rfl,
  fun _ h => h, fun _ _ h => h⟩

theorem Stores.trans {p p' p'' : Parser} (h : Stores p p') (h' : Stores p' p'') : Stores p p'' where
  stack := h'.stack.trans h.stack
  roots := h'.roots.trans h.roots
  idToClassName := h'.idToClassName.trans h.idToClassName
  dyb := h'.dyb.trans h.dyb
  currentObj := h'.currentObj.trans h.currentObj
  currentObjNum := h'.currentObjNum.trans h.currentObjNum
  length_le := h.length_le.trans h'.length_le
  kept a ha := h'.kept a (h.kept a ha)
  kept_map a c ha := h'.kept_map a c (h.kept_map a c ha)

theorem Stores.alloc (p : Parser) (g : Gen) : Stores p { p with store := p.store ++ [g] } where
  stack := rfl
  roots := rfl
  idToClassName := rfl
  dyb := rfl
  currentObj := rfl
  currentObjNum := rfl
  length_le := by rw [List.length_append]; exact Nat.le_add_right _ _
  kept _ h := h.append [g]
  kept_map := by
    rintro a c ⟨items, hi⟩
    exact ⟨items, by rw [List.getElem?_append_left (List.getElem?_eq_some_iff.mp hi).1, hi]⟩

theorem Stores.set {p : Parser} {a : Addr} {g g' : Gen} (ha : p.store[a]? = some g)
    (hg : IsContainer g') (hc : ∀ c items, g = .map c items → ∃ items', g' = .map c items') :
    Stores p { p with store := p.store.set a g' } where
  stack := rfl
  roots := rfl
  idToClassName := rfl
  dyb := rfl
  currentObj := rfl
  currentObjNum := rfl
  length_le := by rw [List.length_set]
  kept := by
    rintro b ⟨h, hb, hh⟩
    by_cases hab : a = b
    · subst hab
      exact ⟨g', by rw [List.getElem?_set_self (List.getElem?_eq_some_iff.mp hb).1], hg⟩
    · exact ⟨h, by rw [List.getElem?_set_ne hab, hb], hh⟩
  kept_map := by
    rintro b c ⟨items, hb⟩
    by_cases hab : a = b
    · subst hab
      obtain ⟨items', rfl⟩ := hc c items (Option.some.inj (ha.symm.trans hb))
      exact ⟨items', by rw [List.getElem?_set_self (List.getElem?_eq_some_iff.mp hb).1]⟩
    · exact ⟨items, by rw [List.getElem?_set_ne hab, hb]⟩

theorem pushIntoStack_ok (host : Host) {p : Parser} {a : Addr} {s : List Addr} (index : Nat)
    (value : Addr) (hs : p.stack = a :: s) (ha : Contains p.store a) :
    ∃ p', pushIntoStack host index value p = .ok ((), p') ∧ Stores p p' := by
  obtain ⟨g, hg, hc⟩ := ha
  rw [pushIntoStack, getLastItem_bind _ hs, get_bind, hg]
  cases g with
  | map c items =>
    exact ⟨_, rfl, Stores.set hg trivial fun c' items' h => by cases h; exact ⟨_, rfl⟩⟩
  | list items => exact ⟨_, rfl, Stores.set hg trivial fun c' items' h => by cases h⟩
  | _ => exact hc.elim

theorem pushKeyVal_ok {p : Parser} {a : Addr} {s : List Addr} {c : Bool}
    {key : ProcM (List UInt8)} {k : List UInt8} (value : Addr)
    (hs : p.stack = a :: s) (ha : MapAt p.store a c) (hk : key p = .ok (k, p)) :
    ∃ p', pushKeyVal key value p = .ok ((), p') ∧ Stores p p' := by
  obtain ⟨items, hi⟩ := ha
  have hset : Stores p
      { p with store := p.store.set a (.map c (Table.put Prod.fst (k, value) items)) } :=
    Stores.set hi trivial fun c' items' h => by cases h; exact ⟨_, rfl⟩
  rw [pushKeyVal, getLastItem_bind _ hs, get_bind, hi]
  exact ⟨_, by simp only [bind_ok hk]; rfl, hset⟩

theorem pushKeyVal_error {p : Parser} {a : Addr} {s : List Addr} {c : Bool}
    {key : ProcM (List UInt8)} {e : Fault} (value : Addr)
    (hs : p.stack = a :: s) (ha : MapAt p.store a c) (hk : key p = .error e) :
    pushKeyVal key value p = .error e := by
  obtain ⟨items, hi⟩ := ha
  rw [pushKeyVal, getLastItem_bind _ hs, get_bind, hi]
  exact bind_error hk

theorem popDownTo_mem {obj : Addr} {inner s : List Addr} (h : obj ∉ inner) :
    popDownTo obj (inner ++ obj :: s) = .ok (obj :: s) := by
  induction inner with
  | nil => rw [List.nil_append, popDownTo, if_pos rfl]
  | cons a inner ih =>
    rw [List.mem_cons, not_or] at h
    rw [List.cons_append, popDownTo, if_neg (Ne.symm h.1), ih h.2]

/-- Popping down to an object that is not there runs over the end of the stack. -/
theorem popDownTo_notMem {obj : Addr} {s : List Addr} (h : obj ∉ s) :
    popDownTo obj s = .error .nullDeref := by
  induction s with
  | nil => rfl
  | cons a s ih =>
    rw [List.mem_cons, not_or] at h
    rw [popDownTo, if_neg (Ne.symm h.1), ih h.2]

end Containers

section Simulation

variable {n : Nat} {base : List Addr} {p p' : Parser} {σ : Shape} {bs : List UInt8}

def NamesBehind (p : Parser) : Prop := ∀ e ∈ p.idToClassName, ∀ off ∈ e.2, off < p.dyb.position

/-- What a round that is not stopped leaves as it was. -/
structure Kept (p p' : Parser) : Prop where
  roots : p'.roots = p.roots
  data : p'.dyb.data = p.dyb.data
  position_le : p.dyb.position ≤ p'.dyb.position
  behind : NamesBehind p → NamesBehind p'

theorem Kept.of_names (hr : p'.roots = p.roots) (hn : p'.idToClassName = p.idToClassName)
    (hd : p'.dyb.data = p.dyb.data) (hp : p.dyb.position ≤ p'.dyb.position) : Kept p p' where
  roots := hr
  data := hd
  position_le := hp
  behind hb e he off ho := (hb e (hn ▸ he) off ho).trans_le hp

theorem Kept.addName {num : Int} {e : Option Nat} (k : Nat)
    (he : ∀ off ∈ e, off < p.dyb.position + k) :
    Kept p { p with dyb := advance k p.dyb, idToClassName := p.idToClassName ++ [(num, e)] } where
  roots := rfl
  data := rfl
  position_le := Nat.le_add_right _ _
  behind hb f hf off ho := by
    obtain hf | hf := List.mem_append.mp hf
    · exact (hb f hf off ho).trans_le (Nat.le_add_right _ _)
    · obtain rfl := List.mem_singleton.mp hf
      exact he off ho

theorem Kept.refl (p : Parser) : Kept p p := .of_names rfl rfl rfl le_rfl

theorem Kept.trans {p'' : Parser} (h : Kept p p') (h' : Kept p' p'') : Kept p p'' where
  roots := h'.roots.trans h.roots
  data := h'.data.trans h.data
  position_le := h.position_le.trans h'.position_le
  behind hb := h'.behind (h.behind hb)

theorem Kept.reading (p : Parser) (k : Nat) : Kept p { p with dyb := advance k p.dyb } :=
  .of_names rfl rfl rfl (Nat.le_add_right _ _)

theorem Stores.kept_names (h : Stores p p') : Kept p p' :=
  .of_names h.roots h.idToClassName (by rw [h.dyb]) (by rw [h.dyb])

/-- The containers above the lowest ones and, while it is open, the current object with the
containers in it. -/
structure Stacked (base : List Addr) (p : Parser) (σ : Shape) (outer : List Addr) : Prop where
  outer_length : outer.length = σ.outer
  idle : σ.object = none → p.currentObj = none ∧ p.stack = outer ++ base
  busy : ∀ num inside, σ.object = some (num, inside) →
    ∃ obj, p.currentObj = some obj ∧ p.currentObjNum = num ∧ obj < p.store.length ∧
      obj ∉ outer ++ base ∧
      (inside = none → p.stack = outer ++ base) ∧
      ∀ k, inside = some k → MapAt p.store obj false ∧
        ∃ inner, inner.length = k ∧ obj ∉ inner ∧ p.stack = inner ++ obj :: (outer ++ base)

/-- A name table and what the scan keeps of it. -/
def NameOf (b : Dybuf) (e : Int × Option Nat) (f : Int × Bool) : Prop :=
  e.1 = f.1 ∧ (f.2 = true ↔ ∃ off ∈ e.2, 0 ∈ b.data.drop off)

/-- The state of the parser where a shape has come about and some bytes are left. -/
structure Rel (n : Nat) (base : List Addr) (p : Parser) (σ : Shape) (bs : List UInt8) : Prop where
  cursor : At n p.dyb bs
  containers : ∀ a ∈ p.stack, Contains p.store a
  stacked : ∃ outer, Stacked base p σ outer
  names : List.Forall₂ (NameOf p.dyb) p.idToClassName σ.names

theorem Rel.reading (h : Rel n base p σ bs) {k : Nat} (hk : k ≤ bs.length) :
    Rel n base { p with dyb := advance k p.dyb } σ (bs.drop k) where
  cursor := h.cursor.advance hk
  containers := h.containers
  stacked := by
    obtain ⟨outer, hs⟩ := h.stacked
    exact ⟨outer, hs.outer_length, hs.idle, hs.busy⟩
  names := h.names

theorem Rel.stores (h : Rel n base p σ bs) (hp : Stores p p') : Rel n base p' σ bs where
  cursor := hp.dyb ▸ h.cursor
  containers a ha := hp.kept a (h.containers a (hp.stack ▸ ha))
  stacked := by
    obtain ⟨outer, hs⟩ := h.stacked
    refine ⟨outer, hs.outer_length, fun ho => ?_, fun num inside ho => ?_⟩
    · obtain ⟨hc, hst⟩ := hs.idle ho
      exact ⟨hp.currentObj.trans hc, hp.stack.trans hst⟩
    · obtain ⟨obj, hc, hnum, hlt, hne, hout, hin⟩ := hs.busy num inside ho
      refine ⟨obj, hp.currentObj.trans hc, hp.currentObjNum.trans hnum,
        hlt.trans_le hp.length_le, hne, fun hi => hp.stack.trans (hout hi), fun k hk => ?_⟩
      obtain ⟨hmap, inner, hl, hni, hst⟩ := hin k hk
      exact ⟨hp.kept_map _ _ hmap, inner, hl, hni, hp.stack.trans hst⟩
  names := by
    rw [hp.idToClassName, hp.dyb]
    exact h.names

theorem Rel.push (h : Rel n base p σ bs) {a : Addr} (ha : Contains p.store a)
    (hne : ∀ obj, p.currentObj = some obj → obj ≠ a) :
    Rel n base { p with stack := a :: p.stack } σ.opened bs where
  cursor := h.cursor
  containers b hb := by
    obtain rfl | hb := List.mem_cons.mp hb
    · exact ha
    · exact h.containers b hb
  stacked := by
    obtain ⟨outer, hs⟩ := h.stacked
    unfold Shape.opened
    split
    · rename_i num k ho
      obtain ⟨obj, hc, hnum, hlt, hout, -, hin⟩ := hs.busy num (some k) ho
      obtain ⟨hmap, inner, hl, hni, hst⟩ := hin k rfl
      refine ⟨outer, hs.outer_length, (fun hno => by cases hno), fun num' inside' ho' => ?_⟩
      obtain ⟨rfl, rfl⟩ : num = num' ∧ some (k + 1) = inside' := by simpa using ho'
      refine ⟨obj, hc, hnum, hlt, hout, (fun hi => by cases hi), fun k' hk' => ?_⟩
      obtain rfl : k + 1 = k' := Option.some.inj hk'
      refine ⟨hmap, a :: inner, by rw [List.length_cons, hl], ?_, by rw [hst]; rfl⟩
      rw [List.mem_cons, not_or]
      exact ⟨hne obj hc, hni⟩
    · rename_i hnot
      refine ⟨a :: outer, by rw [List.length_cons, hs.outer_length], fun ho => ?_,
        fun num inside ho => ?_⟩
      · obtain ⟨hc, hst⟩ := hs.idle ho
        exact ⟨hc, by rw [hst]; rfl⟩
      · obtain ⟨obj, hc, hnum, hlt, hout, hlost, -⟩ := hs.busy num inside ho
        cases inside with
        | some k => exact absurd ho (hnot num k)
        | none =>
          refine ⟨obj, hc, hnum, hlt, ?_, (fun _ => by rw [hlost rfl]; rfl),
            fun k hk => by cases hk⟩
          rw [List.cons_append, List.mem_cons, not_or]
          exact ⟨hne obj hc, hout⟩
  names := by
    rw [Shape.names_opened]
    exact h.names

theorem Rel.popTo (h : Rel n base p σ bs) {a : Addr} {s : List Addr} {σ' : Shape}
    (hst : p.stack = a :: s) (hn : σ'.names = σ.names)
    (hs : ∃ outer, Stacked base { p with stack := s } σ' outer) :
    ∃ p', popItem p = .ok ((), p') ∧ Rel n base p' σ' bs ∧ Kept p p' := by
  refine ⟨_, popItem_cons hst, ⟨h.cursor, fun b hb => ?_, hs, ?_⟩,
    .of_names rfl rfl rfl le_rfl⟩
  · exact h.containers b (by rw [hst]; exact List.mem_cons_of_mem _ hb)
  · rw [hn]
    exact h.names

/-- The last item taken off the stack outside an open object: a container above the
lowest ones, or one of these. -/
theorem Rel.popOuter (h : Rel n base p σ bs) (hno : ∀ num k, σ.object ≠ some (num, some k)) :
    (∀ m, σ.outer = m + 1 → ∃ p', popItem p = .ok ((), p') ∧
      Rel n base p' { σ with outer := m } bs ∧ Kept p p') ∧
    (σ.outer = 0 → p.stack = base) := by
  obtain ⟨outer, hs⟩ := h.stacked
  have hst : p.stack = outer ++ base := by
    cases ho : σ.object with
    | none => exact (hs.idle ho).2
    | some o =>
      obtain ⟨num, inside⟩ := o
      obtain ⟨obj, -, -, -, -, hlost, -⟩ := hs.busy num inside ho
      cases inside with
      | none => exact hlost rfl
      | some k => exact absurd ho (hno num k)
  constructor
  · intro m hm
    obtain ⟨a, outer, rfl⟩ := List.exists_cons_of_length_eq_add_one (hs.outer_length.trans hm)
    refine h.popTo hst rfl ⟨outer, ?_, fun ho => ⟨(hs.idle ho).1, rfl⟩, fun num inside ho => ?_⟩
    · have hl := hs.outer_length
      rw [hm, List.length_cons] at hl
      exact Nat.succ.inj hl
    · obtain ⟨obj, hc, hnum, hlt, hout, -, -⟩ := hs.busy num inside ho
      rw [List.cons_append, List.mem_cons, not_or] at hout
      cases inside with
      | none => exact ⟨obj, hc, hnum, hlt, hout.2, (fun _ => rfl), fun k hk => by cases hk⟩
      | some k => exact absurd ho (hno num k)
  · intro h0
    rw [hst, List.length_eq_zero_iff.mp (hs.outer_length.trans h0), List.nil_append]

theorem Rel.pop (h : Rel n base p σ bs) :
    (∀ σ', σ.closed = some σ' → ∃ p', popItem p = .ok ((), p') ∧ Rel n base p' σ' bs ∧
      Kept p p') ∧
    (σ.closed = none → p.stack = base) := by
  obtain ⟨outer, hs⟩ := h.stacked
  unfold Shape.closed
  split
  · rename_i num k ho
    obtain ⟨obj, hc, hnum, hlt, hout, -, hin⟩ := hs.busy num _ ho
    obtain ⟨hmap, inner, hl, hni, hst⟩ := hin (k + 1) rfl
    obtain ⟨a, inner, rfl⟩ := List.exists_cons_of_length_eq_add_one hl
    rw [List.mem_cons, not_or] at hni
    refine ⟨fun σ' hσ' => ?_, fun hno => by cases hno⟩
    obtain rfl := Option.some.inj hσ'
    refine h.popTo hst rfl ⟨outer, hs.outer_length, (fun hno => by cases hno),
      fun num' inside' ho' => ?_⟩
    obtain ⟨rfl, rfl⟩ : num = num' ∧ some k = inside' := by simpa using ho'
    refine ⟨obj, hc, hnum, hlt, hout, (fun hi => by cases hi), fun k' hk' => ?_⟩
    obtain rfl : k = k' := Option.some.inj hk'
    exact ⟨hmap, inner, by simpa using hl, hni.2, rfl⟩
  · rename_i num ho
    obtain ⟨obj, hc, hnum, hlt, hout, -, hin⟩ := hs.busy num _ ho
    obtain ⟨-, inner, hl, -, hst⟩ := hin 0 rfl
    obtain rfl := List.length_eq_zero_iff.mp hl
    refine ⟨fun σ' hσ' => ?_, fun hno => by cases hno⟩
    obtain rfl := Option.some.inj hσ'
    refine h.popTo hst rfl ⟨outer, hs.outer_length, (fun hno => by cases hno),
      fun num' inside' ho' => ?_⟩
    obtain ⟨rfl, rfl⟩ : num = num' ∧ none = inside' := by simpa using ho'
    exact ⟨obj, hc, hnum, hlt, hout, (fun _ => rfl), fun k hk => by cases hk⟩
  · rename_i hsome hzero
    obtain ⟨hpop, hroots⟩ := h.popOuter fun num k ho => by
      cases k with
      | zero => exact hzero num ho
      | succ k => exact hsome num k ho
    split
    · rename_i m hm
      refine ⟨fun σ' hσ' => ?_, fun hno => by cases hno⟩
      obtain rfl := Option.some.inj hσ'
      exact hpop m hm
    · rename_i hm
      exact ⟨fun σ' hσ' => (by cases hσ'), fun _ => hroots hm⟩

theorem find_names {b : Dybuf} {t : List (Int × Option Nat)} {names : List (Int × Bool)}
    (h : List.Forall₂ (NameOf b) t names) (k : Int) :
    match Table.find Prod.fst k names with
    | none => Table.find Prod.fst k t = none
    | some f => ∃ e, Table.find Prod.fst k t = some e ∧ NameOf b e f := by
  induction h with
  | nil => rfl
  | @cons e f t names hef _ ih =>
    have hkey := hef.1
    simp only [Table.find, List.find?_cons, hkey] at ih ⊢
    by_cases hf : f.1 = k
    · simp only [hf, decide_true]
      exact ⟨e, rfl, hef⟩
    · simp only [hf, decide_false]
      exact ih

/-- What a verdict says of a computation: refusing, going on in a state that the new
shape describes, or a violation. Some records go on from a violation all the same, with the
last item taken off the stack or a name at an offset that is not before the position. -/
def Matches (goesOn : Prop) (n : Nat) (base : List Addr) (p : Parser)
    (x : Except Fault (Option Bool × Parser)) : Verdict → Prop
  | .accept => ∃ p' σ bs, x = .ok (some false, p') ∧ Rel n base p' σ bs ∧ Kept p p'
  | .next σ bs => ∃ p', x = .ok (none, p') ∧ Rel n base p' σ bs ∧ Kept p p'
  | .reject => (∃ f, x = .error f) ∨ goesOn ∧ ∃ p', x = .ok (none, p') ∧
      (p'.roots = p.roots ∧ p'.stack = base.tail ∨ ¬NamesBehind p')

variable {goesOn : Prop}

theorem Matches.later {x : Except Fault (Option Bool × Parser)} {v : Verdict}
    (h : Matches goesOn n base p' x v) (hp : Kept p p') : Matches goesOn n base p x v := by
  cases v with
  | accept =>
    obtain ⟨q, σ, bs, hx, hrel, hk⟩ := h
    exact ⟨q, σ, bs, hx, hrel, hp.trans hk⟩
  | next σ bs =>
    obtain ⟨q, hx, hrel, hk⟩ := h
    exact ⟨q, hx, hrel, hp.trans hk⟩
  | reject =>
    exact h.imp id fun ⟨hg, q, hx, hq⟩ =>
      ⟨hg, q, hx, hq.imp (fun hq => ⟨hq.1.trans hp.roots, hq.2⟩) id⟩

theorem Matches.mono {goesOn' : Prop} {x : Except Fault (Option Bool × Parser)} {v : Verdict}
    (h : Matches goesOn n base p x v) (hg : goesOn → goesOn') : Matches goesOn' n base p x v := by
  cases v with
  | reject => exact h.imp id fun ⟨hgoes, hq⟩ => ⟨hg hgoes, hq⟩
  | _ => exact h

theorem Rel.position_le (h : Rel n base p σ bs) : p.dyb.position ≤ n :=
  h.cursor.position_eq ▸ Nat.le_add_right _ _

theorem Rel.accepts (h : Rel n base p σ bs) {x : Except Fault (Option Bool × Parser)}
    (hx : x = .ok (some false, p)) : Matches goesOn n base p x .accept :=
  ⟨p, σ, bs, hx, h, Kept.refl p⟩

theorem Rel.read {α : Type} {x : DybM α} {g : List UInt8 → Option (α × List UInt8)}
    (hx : Decodes x g) (h : Rel n base p σ bs) (cont : α → ProcM (Option Bool)) :
    match g bs with
    | none => ∃ e, (onDyb x >>= cont) p = .error e
    | some (a, bs') => ∃ k, Rel n base { p with dyb := advance k p.dyb } σ bs' ∧
        (onDyb x >>= cont) p = cont a { p with dyb := advance k p.dyb } := by
  have hd := hx n p.dyb bs h.cursor
  cases hg : g bs with
  | none =>
    rw [hg] at hd
    obtain ⟨e, he⟩ := hd
    exact ⟨e, bind_error (onDyb_error he)⟩
  | some q =>
    obtain ⟨a, bs'⟩ := q
    rw [hg] at hd
    obtain ⟨k, hk, rfl, hok⟩ := hd
    exact ⟨k, h.reading hk, bind_ok (onDyb_ok hok)⟩

theorem Matches.read {α : Type} {x : DybM α} {g : List UInt8 → Option (α × List UInt8)}
    {cont : α → ProcM (Option Bool)} {f : α → List UInt8 → Verdict} (hx : Decodes x g)
    (h : Rel n base p σ bs)
    (hc : ∀ a bs' k, g bs = some (a, bs') →
      Rel n base { p with dyb := advance k p.dyb } σ bs' →
      Matches goesOn n base { p with dyb := advance k p.dyb }
        (cont a { p with dyb := advance k p.dyb }) (f a bs')) :
    Matches goesOn n base p ((onDyb x >>= cont) p) (after (g bs) f) := by
  have hread := h.read hx cont
  cases hg : g bs with
  | none =>
    rw [hg] at hread
    exact .inl hread
  | some q =>
    obtain ⟨a, bs'⟩ := q
    rw [hg] at hread
    obtain ⟨k, h', heq⟩ := hread
    rw [heq]
    exact (hc a _ k hg h').later (Kept.reading p k)

theorem Rel.top (h : Rel n base p σ bs) (hne : p.stack ≠ []) :
    ∃ a s, p.stack = a :: s ∧ Contains p.store a := by
  obtain ⟨a, s, hst⟩ := List.exists_cons_of_ne_nil hne
  exact ⟨a, s, hst, h.containers a (by rw [hst]; exact List.mem_cons_self)⟩

theorem Rel.currentObj_lt (h : Rel n base p σ bs) {obj : Addr} (hc : p.currentObj = some obj) :
    obj < p.store.length := by
  obtain ⟨outer, hs⟩ := h.stacked
  cases ho : σ.object with
  | none =>
    rw [(hs.idle ho).1] at hc
    cases hc
  | some o =>
    obtain ⟨obj', hc', -, hlt, -⟩ := hs.busy o.1 o.2 ho
    obtain rfl : obj' = obj := Option.some.inj (hc'.symm.trans hc)
    exact hlt

variable {host : Host}

theorem processValue_matches (h : Rel n base p σ bs) (hne : p.stack ≠ []) (index : Nat) (g : Gen) :
    Matches goesOn n base p (processValue host index g p) (.next σ bs) := by
  have halloc := Stores.alloc p g
  have h1 := h.stores halloc
  obtain ⟨a, s, hst, ha⟩ := h1.top hne
  obtain ⟨p2, hp2, hstores⟩ := pushIntoStack_ok host index p.store.length hst ha
  refine ⟨p2, ?_, h1.stores hstores, halloc.kept_names.trans hstores.kept_names⟩
  rw [processValue, alloc_bind, bind_ok hp2]
  rfl

theorem takeData_zero (data : Option Nat) (b : Dybuf) : takeData data 0 b = .ok ([], b) := rfl

theorem takeData_none {size : Nat} (h0 : size ≠ 0) (b : Dybuf) :
    takeData none size b = .error .nullDeref := by
  simp only [takeData, Buffer.Cursor.get_bind, if_neg h0]
  rfl

theorem takeData_some {b : Dybuf} {off size : Nat} (h0 : size ≠ 0)
    (h : off + size ≤ b.data.length) :
    takeData (some off) size b = .ok ((b.data.drop off).take size, b) := by
  simp only [takeData, Buffer.Cursor.get_bind, if_neg h0, Buffer.Cursor.ite_run, if_pos h,
    pure_apply]

theorem takeData_outside {b : Dybuf} {off size : Nat} (h0 : size ≠ 0)
    (h : b.data.length < off + size) :
    takeData (some off) size b = .error (.readOutside (off + size - 1)) := by
  simp only [takeData, Buffer.Cursor.get_bind, if_neg h0, Buffer.Cursor.ite_run,
    if_neg (not_le.mpr h)]
  rfl

/-- A length whose end offset leaves the range of `uint` passes the test for room. -/
theorem dybNextDataWithoutLen_wraps {b : Dybuf} {len : Nat} (h0 : 0 < len)
    (hlim : b.limit < 2 ^ 32) (hp : b.position ≤ b.limit) (hlen : len < 2 ^ 32)
    (h : 2 ^ 32 ≤ b.position + len) :
    dybNextDataWithoutLen len b =
      .ok (some b.position, { b with position := b.position + len - 2 ^ 32 }) := by
  have hu : uint (b.position + len) = b.position + len - 2 ^ 32 := by
    unfold uint
    omega
  have hc : ¬(len = 0 ∨ uint (b.position + len) > b.limit) := by
    rw [hu]
    omega
  rw [dybNextDataWithoutLen, Buffer.Cursor.get_bind, Buffer.Cursor.ite_run, if_neg hc, set_bind,
    pure_apply, hu]

theorem processRaw_eq (index : Nat) : processRaw host index = (do
    let len ← onDyb dybNextVarU64
    let data ← onDyb (dybNextDataWithoutLen (uint len))
    let bytes ← onDyb (takeData data (uint len))
    processValue host index (.data bytes)) := by
  simp only [processRaw, dybNextDataWithVarLen, onDyb_bind, onDyb_pure, bind_assoc, pure_bind]

theorem processRaw_matches (h : Rel n base p σ bs) (hne : p.stack ≠ []) (index : Nat) :
    Matches goesOn n base p (processRaw host index p) (scanRaw σ bs) := by
  rw [processRaw_eq, scanRaw]
  refine Matches.read dybNextVarU64_decodes h fun len bs' k _ h1 => ?_
  replace hne : ({ p with dyb := advance k p.dyb } : Parser).stack ≠ [] := hne
  generalize ({ p with dyb := advance k p.dyb } : Parser) = q at h1 hne ⊢
  have hpos := h1.cursor.position_eq
  have hlim := h1.cursor.limit_eq
  have hn := h1.cursor.lt
  have hlen := h1.cursor.length_eq
  have hu := uint_lt len
  by_cases h0 : uint len = 0
  · rw [h0, if_pos (Nat.zero_le _), List.drop_zero,
      bind_ok (onDyb_ok (dybNextDataWithoutLen_none (.inl rfl))),
      bind_ok (onDyb_ok (takeData_zero none _))]
    exact processValue_matches h1 hne index _
  by_cases hfit : uint len ≤ bs'.length
  · have hd := dybNextDataWithoutLen_some (b := q.dyb) (Nat.pos_of_ne_zero h0) (by omega) (by omega)
    have ht : takeData (some q.dyb.position) (uint len) (advance (uint len) q.dyb) = _ :=
      takeData_some h0 (by rw [advance_data]; omega)
    rw [if_pos hfit, bind_ok (onDyb_ok hd), bind_ok (onDyb_ok ht)]
    exact (processValue_matches (h1.reading hfit) hne index _).later (Kept.reading q _)
  · rw [if_neg hfit]
    by_cases hwrap : 2 ^ 32 ≤ q.dyb.position + uint len
    · have hd := dybNextDataWithoutLen_wraps (b := q.dyb) (Nat.pos_of_ne_zero h0) (by omega)
        (by omega) hu hwrap
      rw [bind_ok (onDyb_ok hd)]
      exact .inl ⟨_, bind_error (onDyb_error (takeData_outside h0 (by simp only; omega)))⟩
    · have hu' : uint (q.dyb.position + uint len) = q.dyb.position + uint len :=
        uint_of_lt (by omega)
      have hd : dybNextDataWithoutLen (uint len) q.dyb = .ok (none, q.dyb) :=
        dybNextDataWithoutLen_none (.inr (by rw [hu']; omega))
      rw [bind_ok (onDyb_ok hd)]
      exact .inl ⟨_, bind_error (onDyb_error (takeData_none h0 _))⟩

theorem processArray_matches (h : Rel n base p σ bs) (hne : p.stack ≠ []) (index : Nat) :
    Matches True n base p (processArray host index p) (scanArray σ bs) := by
  rw [processArray, scanArray]
  refine Matches.read dybNextVarU64_decodes h fun size bs' k _ h1 => ?_
  replace hne : ({ p with dyb := advance k p.dyb } : Parser).stack ≠ [] := hne
  generalize ({ p with dyb := advance k p.dyb } : Parser) = q at h1 hne ⊢
  by_cases hsize : size > 0
  · rw [if_pos hsize, if_pos hsize, alloc_bind]
    have hst := Stores.alloc q (.list [])
    have h2 := h1.stores hst
    obtain ⟨a, s, hs, ha⟩ := h2.top hne
    obtain ⟨q3, hq3, hst3⟩ := pushIntoStack_ok host index q.store.length hs ha
    have h3 := h2.stores hst3
    have hnew : Contains q3.store q.store.length :=
      hst3.kept _ (Contains.new q.store (g := .list []) trivial)
    have hpush := h3.push hnew fun obj hc => by
      exact Nat.ne_of_lt (h1.currentObj_lt (by rw [← hc, hst3.currentObj]))
    refine ⟨_, by rw [bind_ok hq3]; rfl, hpush, ?_⟩
    exact (hst.kept_names.trans hst3.kept_names).trans (.of_names rfl rfl rfl le_rfl)
  · rw [if_neg hsize, if_neg hsize]
    obtain ⟨hpop, hlow⟩ := h1.pop
    cases hc : σ.closed with
    | some σ' =>
      obtain ⟨q2, hq2, h2, hk⟩ := hpop σ' hc
      exact ⟨q2, by rw [bind_ok hq2]; rfl, h2, hk⟩
    | none =>
      obtain ⟨a, s, hs⟩ := List.exists_cons_of_ne_nil hne
      have htail : s = base.tail := by rw [← hlow hc, hs, List.tail_cons]
      exact .inr ⟨trivial, { q with stack := s }, by rw [bind_ok (popItem_cons hs)]; rfl,
        .inl ⟨rfl, htail⟩⟩

/-- The current object while it is open: popping down to it succeeds. -/
theorem Rel.popUntil (h : Rel n base p σ bs) {num : Nat} {inside : Option Nat}
    (ho : σ.object = some (num, inside)) :
    ∃ obj, p.currentObj = some obj ∧ p.currentObjNum = num ∧
      (inside = none → popUntil obj p = .error .nullDeref) ∧
      (∀ k, inside = some k → ∃ outer, popUntil obj p =
          .ok ((), { p with stack := obj :: (outer ++ base) }) ∧
        MapAt p.store obj false ∧ obj ∉ outer ++ base ∧ obj < p.store.length ∧
        outer.length = σ.outer ∧ ∀ a ∈ outer ++ base, Contains p.store a) := by
  obtain ⟨outer, hs⟩ := h.stacked
  obtain ⟨obj, hc, hnum, hlt, hout, hlost, hin⟩ := hs.busy num inside ho
  refine ⟨obj, hc, hnum, fun hi => ?_, fun k hk => ?_⟩
  · rw [Process.popUntil, hlost hi, popDownTo_notMem hout]
  · obtain ⟨hmap, inner, -, hni, hst⟩ := hin k hk
    refine ⟨outer, by rw [Process.popUntil, hst, popDownTo_mem hni], hmap, hout, hlt,
      hs.outer_length, fun a ha => h.containers a ?_⟩
    rw [hst]
    exact List.mem_append_right _ (List.mem_cons_of_mem _ ha)

theorem cstringAt_some_iff {b : Dybuf} {off : Nat} :
    (0 ∈ b.data.drop off → ∃ s, cstringAt (some off) b = .ok (s, b)) ∧
    (0 ∉ b.data.drop off → ∃ f, cstringAt (some off) b = .error f) := by
  constructor
  · intro h
    exact ⟨_, by simp only [cstringAt, Buffer.Cursor.get_bind, if_pos h, pure_apply]; rfl⟩
  · intro h
    exact ⟨_, by simp only [cstringAt, Buffer.Cursor.get_bind, if_neg h]; rfl⟩

theorem NameOf.cstringAt {b : Dybuf} {e : Int × Option Nat} {f : Int × Bool} (h : NameOf b e f) :
    (f.2 = true → ∃ s, cstringAt e.2 b = .ok (s, b)) ∧
    (f.2 = false → ∃ g, cstringAt e.2 b = .error g) := by
  obtain ⟨-, hiff⟩ := h
  cases he : e.2 with
  | none =>
    rw [he] at hiff
    refine ⟨fun hf => ?_, fun _ => ⟨.nullDeref, rfl⟩⟩
    obtain ⟨off, ho, -⟩ := hiff.mp hf
    cases ho
  | some off =>
    rw [he] at hiff
    refine ⟨fun hf => ?_, fun hf => cstringAt_some_iff.2 fun hmem => ?_⟩
    · obtain ⟨off', ho, hmem⟩ := hiff.mp hf
      cases ho
      exact cstringAt_some_iff.1 hmem
    · rw [hiff.mpr ⟨off, rfl, hmem⟩] at hf
      cases hf

theorem Rel.openObject {num : Nat} (h : Rel n base p { σ with object := some (num, none) } bs)
    {obj : Addr} (hc : p.currentObj = some obj) (hmap : MapAt p.store obj false)
    (objects : List (Int × Entry)) :
    Rel n base { p with stack := obj :: p.stack, objects := objects }
      { σ with object := some (num, some 0) } bs where
  cursor := h.cursor
  containers a ha := by
    obtain rfl | ha := List.mem_cons.mp ha
    · exact hmap.contains
    · exact h.containers a ha
  stacked := by
    obtain ⟨outer, hs⟩ := h.stacked
    obtain ⟨obj', hc', hnum, hlt, hout, hlost, -⟩ := hs.busy num none rfl
    obtain rfl : obj' = obj := Option.some.inj (hc'.symm.trans hc)
    refine ⟨outer, hs.outer_length, (fun hno => by cases hno), fun num' inside ho => ?_⟩
    obtain ⟨rfl, rfl⟩ : num = num' ∧ some 0 = inside := by simpa using ho
    refine ⟨obj', hc, hnum, hlt, hout, (fun hi => by cases hi), fun k hk => ?_⟩
    obtain rfl : 0 = k := Option.some.inj hk
    exact ⟨hmap, [], rfl, List.not_mem_nil, by rw [hlost rfl]; rfl⟩
  names := h.names

theorem Rel.newObject (h : Rel n base p σ bs) (ho : σ.object = none) (num : Nat) :
    Rel n base { p with
        store := p.store ++ [.map false []]
        currentObj := some p.store.length
        currentObjNum := num }
      { σ with object := some (num, none) } bs where
  cursor := h.cursor
  containers a ha := (h.containers a ha).append _
  stacked := by
    obtain ⟨outer, hs⟩ := h.stacked
    obtain ⟨-, hst⟩ := hs.idle ho
    refine ⟨outer, hs.outer_length, (fun hno => by cases hno), fun num' inside ho' => ?_⟩
    obtain ⟨rfl, rfl⟩ : num = num' ∧ none = inside := by simpa using ho'
    refine ⟨p.store.length, rfl, rfl, by simp, fun hmem => ?_, fun _ => hst,
      fun k hk => by cases hk⟩
    exact absurd (h.containers _ (hst ▸ hmem)).lt (Nat.lt_irrefl _)
  names := h.names

theorem processObject_matches (h : Rel n base p σ bs) (index : Nat) :
    Matches goesOn n base p (processObject index p) (scanObject σ index bs) := by
  obtain ⟨outer, hs⟩ := h.stacked
  cases ho : σ.object with
  | none =>
    obtain ⟨hc, -⟩ := hs.idle ho
    simp only [processObject, get_bind, hc, alloc_bind, modify_bind, scanObject, ho]
    refine Matches.later (Matches.read dybNextVarU64_decodes (h.newObject ho index)
      fun num bs' k _ h1 => ?_) (.of_names rfl rfl rfl le_rfl)
    generalize hq : ({ p with
      store := p.store ++ [.map false []]
      currentObj := some p.store.length
      currentObjNum := index
      dyb := advance k p.dyb } : Parser) = q at h1 ⊢
    have hmap : MapAt q.store p.store.length false := by rw [← hq]; exact MapAt.new _ _ _
    have hcur : q.currentObj = some p.store.length := by rw [← hq]
    have hfind := find_names h1.names (int32 num)
    rw [get_bind]
    cases hf : Table.find Prod.fst (int32 num) σ.names with
    | none =>
      rw [hf] at hfind
      simp only [hfind]
      exact h1.accepts rfl
    | some f =>
      rw [hf] at hfind
      obtain ⟨e, he, hname⟩ := hfind
      simp only [he, pushItem, modify_bind]
      have h2 := h1.openObject hcur hmap
        (Table.put Prod.fst (int32 index, Entry.props p.store.length) q.objects)
      have hstr := hname.cstringAt
      generalize hq2 : ({ q with
        stack := p.store.length :: q.stack
        objects := Table.put Prod.fst (int32 index, Entry.props p.store.length) q.objects } :
          Parser) = q2 at h2 ⊢
      have hstack : q2.stack = p.store.length :: q.stack := by rw [← hq2]
      have hmap : MapAt q2.store p.store.length false := by rw [← hq2]; exact hmap
      have hdyb : q2.dyb = q.dyb := by rw [← hq2]
      have hkq : Kept q q2 := by
        rw [← hq2]
        exact .of_names rfl rfl rfl le_rfl
      rw [← hdyb] at hstr
      cases hu : f.2 with
      | false =>
        obtain ⟨g, hg⟩ := hstr.2 hu
        exact .inl ⟨g, bind_error (onDyb_error hg)⟩
      | true =>
        obtain ⟨name, hn⟩ := hstr.1 hu
        have hst3 := Stores.alloc q2 (.string name)
        have hkey := @pushKeyVal_ok { q2 with store := q2.store ++ [.string name] } _ _ _
          (pure className) className q2.store.length hstack (hst3.kept_map _ _ hmap) rfl
        obtain ⟨q4, hq4, hst4⟩ := hkey
        refine ⟨q4, ?_, (h2.stores hst3).stores hst4,
          hkq.trans (hst3.kept_names.trans hst4.kept_names)⟩
        rw [bind_ok (onDyb_ok hn), alloc_bind, bind_ok hq4]
        rfl
  | some o =>
    obtain ⟨num, inside⟩ := o
    obtain ⟨obj, hc, hnum, hlost, hopen⟩ := h.popUntil ho
    simp only [processObject, get_bind, hc, hnum, scanObject, ho]
    by_cases hne : num ≠ index
    · rw [ite_run, if_pos hne, if_pos hne]
      exact h.accepts rfl
    rw [ite_run, if_neg hne, if_neg hne]
    cases inside with
    | none => exact .inl ⟨_, bind_error (hlost rfl)⟩
    | some k =>
      obtain ⟨outer', hpop, -, -, -, hl, hcont⟩ := hopen k rfl
      have hrel : Rel n base { p with
            stack := outer' ++ base
            currentObj := none
            currentObjNum := 0xFFFFFFFF }
          { σ with object := none } bs :=
        { cursor := h.cursor
          containers := hcont
          stacked := ⟨outer', hl, fun _ => ⟨rfl, rfl⟩, fun num inside ho' => by cases ho'⟩
          names := h.names }
      exact ⟨_, by rw [bind_ok hpop]; rfl, hrel, .of_names rfl rfl rfl le_rfl⟩

theorem processContext_matches (h : Rel n base p σ bs) (index : Nat) :
    Matches goesOn n base p (processContext index p) (scanContext σ index bs) := by
  obtain ⟨outer, hs⟩ := h.stacked
  cases ho : σ.object with
  | none =>
    obtain ⟨hc, hstack⟩ := hs.idle ho
    simp only [processContext, get_bind, hc, scanContext, ho]
    exact h.accepts rfl
  | some o =>
    obtain ⟨num, inside⟩ := o
    obtain ⟨obj, hc, hnum, hlost, hopen⟩ := h.popUntil ho
    have hfind := find_names h.names (int32 index)
    simp only [processContext, get_bind, hc, scanContext, ho]
    cases hf : Table.find Prod.fst (int32 index) σ.names with
    | none =>
      rw [hf] at hfind
      simp only [hfind]
      exact h.accepts rfl
    | some f =>
      rw [hf] at hfind
      obtain ⟨e, he, hname⟩ := hfind
      simp only [he]
      cases inside with
      | none => exact .inl ⟨_, bind_error (hlost rfl)⟩
      | some k =>
        obtain ⟨outer', hpop, hmap, hout, hlt, hl, hcont⟩ := hopen k rfl
        have h1 : Rel n base { p with stack := obj :: (outer' ++ base) }
            { σ with object := some (num, some 0) } bs :=
          { cursor := h.cursor
            containers := fun a ha => by
              obtain rfl | ha := List.mem_cons.mp ha
              · exact hmap.contains
              · exact hcont a ha
            stacked := by
              refine ⟨outer', hl, (fun hno => by cases hno), fun num' inside' ho' => ?_⟩
              obtain ⟨rfl, rfl⟩ : num = num' ∧ some 0 = inside' := by simpa using ho'
              refine ⟨obj, hc, hnum, hlt, hout, (fun hi => by cases hi), fun k' hk' => ?_⟩
              obtain rfl : 0 = k' := Option.some.inj hk'
              exact ⟨hmap, [], rfl, List.not_mem_nil, rfl⟩
            names := h.names }
        have hst2 := Stores.alloc { p with stack := obj :: (outer' ++ base) } (.map true [])
        have h2 := h1.stores hst2
        rw [bind_ok hpop, alloc_bind]
        cases hu : f.2 with
        | false =>
          obtain ⟨g, hg⟩ := hname.cstringAt.2 hu
          exact .inl ⟨g, bind_error
            (pushKeyVal_error _ rfl (hst2.kept_map _ _ hmap) (onDyb_error hg))⟩
        | true =>
          obtain ⟨name, hn⟩ := hname.cstringAt.1 hu
          obtain ⟨q3, hq3, hst3⟩ := pushKeyVal_ok p.store.length rfl
            (hst2.kept_map _ _ hmap) (onDyb_ok hn)
          have h3 := h2.stores hst3
          have hnew : Contains q3.store p.store.length :=
            hst3.kept _ (Contains.new p.store (g := .map true []) trivial)
          have h4 := h3.push hnew fun obj' hobj' => by
            exact Nat.ne_of_lt (h.currentObj_lt (by rw [← hobj', hst3.currentObj]))
          have hk : Kept p { p with stack := obj :: (outer' ++ base) } :=
            .of_names rfl rfl rfl le_rfl
          refine ⟨_, by rw [bind_ok hq3]; rfl, h4, hk.trans (hst2.kept_names.trans ?_)⟩
          exact hst3.kept_names.trans (.of_names rfl rfl rfl le_rfl)

theorem Rel.addName (h : Rel n base p σ bs) {num : Int} {k : Nat} {e : Option Nat} {f : Bool}
    (hk : k ≤ bs.length) (hn : NameOf (advance k p.dyb) (num, e) (num, f)) :
    Rel n base { p with
        dyb := advance k p.dyb
        idToClassName := p.idToClassName ++ [(num, e)] }
      { σ with names := σ.names ++ [(num, f)] } (bs.drop k) where
  cursor := h.cursor.advance hk
  containers := h.containers
  stacked := by
    obtain ⟨outer, hs⟩ := h.stacked
    exact ⟨outer, hs.outer_length, hs.idle, hs.busy⟩
  names := List.rel_append h.names (.cons hn .nil)

theorem dybNextCstringWithVarLen_run :
    onDyb dybNextCstringWithVarLen = (do
      let len ← onDyb dybNextVarU64
      let data ← onDyb (dybNextDataWithoutLen (uint len))
      return (data, uintSub (uint len) 1)) := by
  simp only [dybNextCstringWithVarLen, onDyb_bind, onDyb_pure]

theorem nameRecord_matches (h : Rel n base p σ bs) (num : Int) :
    Matches True n base p ((do
        let (name, _) ← onDyb dybNextCstringWithVarLen
        modify fun p => { p with idToClassName := p.idToClassName ++ [(num, name)] }
        return none : ProcM (Option Bool)) p) (scanName n σ num bs) := by
  rw [dybNextCstringWithVarLen_run, scanName]
  simp only [bind_assoc, pure_bind]
  refine Matches.read dybNextVarU64_decodes h fun len bs k _ h => ?_
  generalize ({ p with dyb := advance k p.dyb } : Parser) = q at h ⊢
  have hpos := h.cursor.position_eq
  have hlim := h.cursor.limit_eq
  have hn := h.cursor.lt
  have hu := uint_lt len
  have hname : NameOf (advance 0 q.dyb) (num, none) (num, false) := ⟨rfl, by simp⟩
  by_cases h0 : uint len = 0
  · rw [if_pos h0, bind_ok (onDyb_ok (dybNextDataWithoutLen_none (.inl h0)))]
    exact ⟨_, rfl, h.addName (Nat.zero_le _) hname, .addName 0 fun off ho => by cases ho⟩
  rw [if_neg h0]
  by_cases hfit : uint len ≤ bs.length
  · have hd := dybNextDataWithoutLen_some (b := q.dyb) (Nat.pos_of_ne_zero h0) (by omega) (by omega)
    have hbs : q.dyb.data.drop q.dyb.position = bs := h.cursor.rest_eq
    rw [if_pos hfit, bind_ok (onDyb_ok hd)]
    refine ⟨_, rfl, h.addName hfit ⟨rfl, by simp [hbs]⟩, .addName _ fun off ho => ?_⟩
    cases ho
    exact Nat.lt_add_of_pos_right (Nat.pos_of_ne_zero h0)
  rw [if_neg hfit]
  by_cases hwrap : n - bs.length + uint len < 2 ^ 32
  · have hu' : uint (q.dyb.position + uint len) = q.dyb.position + uint len :=
      uint_of_lt (by omega)
    have hd : dybNextDataWithoutLen (uint len) q.dyb = .ok (none, q.dyb) :=
      dybNextDataWithoutLen_none (.inr (by rw [hu']; omega))
    rw [if_pos hwrap, bind_ok (onDyb_ok hd)]
    exact ⟨_, rfl, h.addName (Nat.zero_le _) hname, .addName 0 fun off ho => by cases ho⟩
  · -- The name is kept at an offset which the position falls back below.
    have hd := dybNextDataWithoutLen_wraps (b := q.dyb) (Nat.pos_of_ne_zero h0) (by omega)
      (by omega) hu (by omega)
    rw [if_neg hwrap, bind_ok (onDyb_ok hd)]
    refine .inr ⟨trivial, _, rfl, .inr fun hb => ?_⟩
    have hlt := hb (num, some q.dyb.position) (by simp) _ rfl
    simp only at hlt
    omega

theorem processDb_matches (h : Rel n base p σ bs) (index : Nat) :
    Matches True n base p (processDb index p) (scanDb n σ index bs) := by
  rw [processDb, scanDb]
  by_cases hi : index = pkrdbClassNames
  · rw [if_pos hi, if_pos hi]
    refine Matches.read dybNextVarU64_decodes h fun num bs1 k _ h => ?_
    generalize ({ p with dyb := advance k p.dyb } : Parser) = q at h ⊢
    have hfind := find_names h.names (int32 num)
    rw [get_bind]
    cases hf : Table.find Prod.fst (int32 num) σ.names with
    | some f =>
      rw [hf] at hfind
      obtain ⟨e, he, -⟩ := hfind
      simp only [he]
      exact h.accepts rfl
    | none =>
      rw [hf] at hfind
      simp only [hfind]
      exact nameRecord_matches h (int32 num)
  · rw [if_neg hi, if_neg hi]
    exact h.accepts rfl

theorem processFunction_matches (h : Rel n base p σ bs) (index : Nat) :
    Matches goesOn n base p (processFunction index p) (scanFunction σ index bs) := by
  rw [processFunction, scanFunction]
  by_cases hi : index = pkrfnVersion
  · rw [if_pos hi, if_pos hi]
    exact Matches.read dybNextVarU64_decodes h fun _ bs k _ h => ⟨_, rfl, h, Kept.refl _⟩
  · rw [if_neg hi, if_neg hi]
    exact h.accepts rfl

variable (host) in
theorem readValue_matches {α : Type} {x : DybM α} {g : List UInt8 → Option (α × List UInt8)}
    (hx : Decodes x g) (h : Rel n base p σ bs) (hne : p.stack ≠ []) (index : Nat)
    (value : α → Gen) :
    Matches False n base p ((do let a ← onDyb x; processValue host index (value a)) p)
      (after (g bs) fun _ bs => .next σ bs) :=
  Matches.read hx h fun a _ _ _ h => processValue_matches h hne index (value a)

theorem after_map {α β : Type} (x : Option (α × List UInt8)) (f : α → β)
    (v : List UInt8 → Verdict) :
    after (x.map fun p => (f p.1, p.2)) (fun _ bs => v bs) = after x fun _ bs => v bs := by
  cases x <;> rfl

variable (host) in
theorem processRecord_matches (h : Rel n base p σ bs) (type index : Nat)
    (hne : UsesLast type → p.stack ≠ []) :
    Matches (type = pkrdexArray ∨ type = pkrdexDb) n base p (processRecord host type index p)
      (scanRecord n σ type index bs) := by
  unfold processRecord scanRecord
  by_cases ht : type = pkrdexInteger
  · rw [if_pos ht, if_pos ht]
    have hm := readValue_matches host dybNextVarS64_decodes h (hne (.inl ht)) index .long
    rw [after_map] at hm
    exact hm.mono False.elim
  rw [if_neg ht, if_neg ht]
  by_cases ht : type = pkrdexFloat
  · rw [if_pos ht, if_pos ht]
    have hm := readValue_matches host (dybNextFloat_decodes host) h
      (hne (.inr (.inl ht))) index .float
    rw [after_map] at hm
    exact hm.mono False.elim
  rw [if_neg ht, if_neg ht]
  by_cases ht : type = pkrdexDouble
  · rw [if_pos ht, if_pos ht]
    have hm := readValue_matches host (dybNextDouble_decodes host) h
      (hne (.inr (.inr (.inl ht)))) index .double
    rw [after_map] at hm
    exact hm.mono False.elim
  rw [if_neg ht, if_neg ht]
  by_cases ht : type = pkrdexRaw
  · rw [if_pos ht, if_pos ht]
    exact processRaw_matches h (hne (.inr (.inr (.inr (.inl ht))))) index
  rw [if_neg ht, if_neg ht]
  by_cases ht : type = pkrdexArray
  · rw [if_pos ht, if_pos ht]
    exact (processArray_matches h (hne (.inr (.inr (.inr (.inr (.inl ht)))))) index).mono
      fun _ => .inl ht
  rw [if_neg ht, if_neg ht]
  by_cases ht : type = pkrdexObjectRef
  · rw [if_pos ht, if_pos ht]
    have hm := readValue_matches host dybNextVarU64_decodes h
      (hne (.inr (.inr (.inr (.inr (.inr ht)))))) index fun num => .int (int32 num)
    exact hm.mono False.elim
  rw [if_neg ht, if_neg ht]
  by_cases ht : type = pkrdexObject
  · rw [if_pos ht, if_pos ht]
    exact processObject_matches h index
  rw [if_neg ht, if_neg ht]
  by_cases ht : type = pkrdexContext
  · rw [if_pos ht, if_pos ht]
    exact processContext_matches h index
  rw [if_neg ht, if_neg ht]
  by_cases ht : type = pkrdexDb
  · rw [if_pos ht, if_pos ht]
    exact (processDb_matches h index).mono fun _ => .inr ht
  rw [if_neg ht, if_neg ht]
  by_cases ht : type = pkrdexFunction
  · rw [if_pos ht, if_pos ht]
    exact processFunction_matches h index
  rw [if_neg ht, if_neg ht]
  exact h.accepts rfl

theorem uintSub_remainder (h : Rel n base p σ bs) : dybGetRemainder p.dyb = bs.length :=
  h.cursor.remainder

theorem processRound_nil (h : Rel n base p σ []) : processRound host p = .ok (some true, p) := by
  have hr : dybGetRemainder p.dyb = 0 := uintSub_remainder h
  rw [processRound, get_bind, ite_run, if_pos hr]
  rfl

variable (host) in
theorem processRound_matches (h : Rel n base p σ bs) (hbs : bs ≠ [])
    (hne : ∀ header bs', readHeader bs = some (header, bs') → UsesLast header.1 → p.stack ≠ []) :
    Matches True n base p (processRound host p) (scan n σ bs) := by
  have hr : dybGetRemainder p.dyb ≠ 0 := by
    rw [uintSub_remainder h]
    exact fun h0 => hbs (List.length_eq_zero_iff.mp h0)
  rw [processRound, get_bind, ite_run, if_neg hr, scan]
  exact Matches.read dybNextTypdex_decodes h fun header bs k hg h =>
    (processRecord_matches host h header.1 header.2 (hne header bs hg)).mono fun _ => trivial

theorem scanRecord_unknown {type index : Nat} (h : 16 ≤ type) :
    scanRecord n σ type index bs = .accept := by
  have hne : ∀ t < 16, type ≠ t := fun t ht => by omega
  simp only [scanRecord, if_neg (hne pkrdexInteger (by decide)),
    if_neg (hne pkrdexFloat (by decide)), if_neg (hne pkrdexDouble (by decide)),
    if_neg (hne pkrdexRaw (by decide)), if_neg (hne pkrdexArray (by decide)),
    if_neg (hne pkrdexObjectRef (by decide)), if_neg (hne pkrdexObject (by decide)),
    if_neg (hne pkrdexContext (by decide)), if_neg (hne pkrdexDb (by decide)),
    if_neg (hne pkrdexFunction (by decide))]

/-- A first byte that no header begins with is no type either. -/
theorem scan_wide {first : UInt8} {body : List UInt8} (hw : ¬widthOf first ≤ 4) :
    scan n σ (first :: body) = .accept := by
  have hfirst : 240 ≤ first.toNat := by
    unfold widthOf at hw
    split_ifs at hw <;> omega
  have hh : headerWidth first = 0 := by rw [headerWidth, if_neg hw]
  have ho : headerOf first body = (first.toNat, 0) := by rw [headerOf, if_neg hw]
  have hread : readHeader (first :: body) = some ((first.toNat, 0), first :: body) := by
    rw [readHeader, hh, if_pos (Nat.zero_le _), ho, List.drop_zero]
  rw [scan, hread, after]
  exact scanRecord_unknown (by omega)

/-- The roots at the bottom of the stack, and the names kept behind the position. -/
structure Sane (p : Parser) : Prop where
  bottom : p.stack.getLast? = p.roots
  names : NamesBehind p

/-- The state of a parser of which nothing has been violated. -/
structure Grounded (n : Nat) (r : Addr) (p : Parser) (σ : Shape) (bs : List UInt8) : Prop where
  rel : Rel n [r] p σ bs
  roots : p.roots = some r
  behind : NamesBehind p

theorem Stacked.getLast? {r : Addr} {outer : List Addr} (h : Stacked [r] p σ outer) :
    p.stack.getLast? = some r := by
  cases ho : σ.object with
  | none =>
    rw [(h.idle ho).2]
    simp
  | some o =>
    obtain ⟨num, inside⟩ := o
    obtain ⟨obj, -, -, -, -, hout, hin⟩ := h.busy num inside ho
    cases inside with
    | none =>
      rw [hout rfl]
      simp
    | some k =>
      obtain ⟨-, inner, -, -, hs⟩ := hin k rfl
      rw [hs, ← List.cons_append, ← List.append_assoc, List.getLast?_append]
      rfl

variable {r : Addr}

theorem Rel.getLast? (h : Rel n [r] p σ bs) : p.stack.getLast? = some r := by
  obtain ⟨outer, hs⟩ := h.stacked
  exact hs.getLast?

theorem Rel.stack_ne_nil (h : Rel n [r] p σ bs) : p.stack ≠ [] := by
  intro hnil
  have hl := h.getLast?
  rw [hnil] at hl
  cases hl

theorem Grounded.sane (h : Grounded n r p σ bs) : Sane p :=
  ⟨h.rel.getLast?.trans h.roots.symm, h.behind⟩

theorem Grounded.kept {σ' : Shape} {bs' : List UInt8} (h : Grounded n r p σ bs)
    (hrel : Rel n [r] p' σ' bs') (hk : Kept p p') : Grounded n r p' σ' bs' :=
  ⟨hrel, hk.roots.trans h.roots, hk.behind h.behind⟩

variable (host) in
theorem Grounded.round_matches (h : Grounded n r p σ bs) (hbs : bs ≠ []) :
    Matches True n [r] p (processRound host p) (scan n σ bs) :=
  processRound_matches host h.rel hbs fun _ _ _ _ => h.rel.stack_ne_nil

variable (host) in
theorem Grounded.round_next (h : Grounded n r p σ bs) {σ' : Shape} {bs' : List UInt8}
    (hscan : scan n σ bs = .next σ' bs') :
    ∃ p', processRound host p = .ok (none, p') ∧ Grounded n r p' σ' bs' ∧
      p.dyb.position ≤ p'.dyb.position ∧ bs'.length < bs.length := by
  cases bs with
  | nil => cases hscan
  | cons first body =>
    have hm := h.round_matches host (List.cons_ne_nil first body)
    rw [hscan] at hm
    obtain ⟨p', hround, h', hk⟩ := hm
    refine ⟨p', hround, h.kept h' hk, hk.position_le, ?_⟩
    by_cases hw : widthOf first ≤ 4
    swap
    · rw [scan_wide hw] at hscan
      cases hscan
    -- The record after the header does not move the position back.
    have hpos := widthOf_pos first
    have hh : headerWidth first = widthOf first := by rw [headerWidth, if_pos hw]
    by_cases hfit : headerWidth first ≤ body.length + 1
    swap
    · rw [scan, readHeader, if_neg hfit] at hscan
      cases hscan
    rw [scan, readHeader, if_pos hfit, after] at hscan
    have h1 := h.rel.reading (k := headerWidth first) hfit
    have hm := processRecord_matches host h1 (headerOf first body).1 (headerOf first body).2
      fun _ => h1.stack_ne_nil
    rw [hscan] at hm
    obtain ⟨p'', -, h'', hk''⟩ := hm
    have hle := hk''.position_le
    have hp1 := h1.cursor.position_eq
    have hp2 := h''.cursor.position_eq
    rw [List.length_drop, List.length_cons] at hp1
    rw [List.length_cons]
    omega

end Simulation

section Runs

variable (host : Host)

inductive Reached (u : MMUnpacker) : Parser → Prop
  | start : Reached u (processStart u)
  | round {p p' : Parser} : Reached u p → processRound host p = .ok (none, p') → Reached u p'

/-- `process` answers, no round faults, and after every round the roots are at the
bottom of the stack, the names are kept behind the position and the position has gone
on, to the end of the input at most. -/
structure ParsesSafely (u : MMUnpacker) : Prop where
  answers : ∃ fuel answer u', process host fuel u = .ok (answer, u')
  no_fault : ∀ p f, Reached host u p → processRound host p ≠ .error f
  sane : ∀ p p' answer, Reached host u p → processRound host p = .ok (answer, p') →
    Sane p' ∧ p.dyb.position ≤ p'.dyb.position ∧ p'.dyb.position ≤ u.dyb.data.length

variable {host} {n : Nat} {r : Addr} {p : Parser} {σ : Shape} {bs : List UInt8} {u : MMUnpacker}

theorem processLoop_answer {p' : Parser} {answer : Bool} (fuel : Nat)
    (h : processRound host p = .ok (some answer, p')) :
    processLoop host (fuel + 1) p = .ok (answer, p') := by
  rw [processLoop, h, afterRound]

theorem processLoop_next {p' : Parser} (fuel : Nat) (h : processRound host p = .ok (none, p')) :
    processLoop host (fuel + 1) p = processLoop host fuel p' := by
  rw [processLoop, h, afterRound]

theorem Reached.grounded (h : Reached host u p) {bytes : List UInt8}
    (hstart : Grounded n r (processStart u) Shape.start bytes) (hp : Proper n Shape.start bytes) :
    ∃ σ bs, Grounded n r p σ bs ∧ Proper n σ bs := by
  induction h with
  | start => exact ⟨_, _, hstart, hp⟩
  | @round p p' _ hround ih =>
    obtain ⟨σ, bs, hrel, hproper⟩ := ih
    cases hproper with
    | done =>
      rw [processRound_nil hrel.rel] at hround
      cases hround
    | stop hscan =>
      have hm := hrel.round_matches host fun hbs => by
        subst hbs
        cases hscan
      rw [hscan] at hm
      obtain ⟨q, -, -, hq, -⟩ := hm
      rw [hq] at hround
      cases hround
    | next hscan hproper =>
      obtain ⟨q, hq, hrel', -⟩ := hrel.round_next host hscan
      rw [hq] at hround
      cases hround
      exact ⟨_, _, hrel', hproper⟩

variable (host) in
theorem Grounded.answers (hp : Proper n σ bs) (h : Grounded n r p σ bs) :
    ∃ fuel answer p', processLoop host fuel p = .ok (answer, p') := by
  induction hp generalizing p with
  | done σ =>
    exact ⟨0 + 1, true, p, processLoop_answer 0 (processRound_nil h.rel)⟩
  | stop hscan =>
    have hm := h.round_matches host fun hbs => by
      subst hbs
      cases hscan
    rw [hscan] at hm
    obtain ⟨p', -, -, hround, -⟩ := hm
    exact ⟨0 + 1, false, p', processLoop_answer 0 hround⟩
  | next hscan _ ih =>
    obtain ⟨p', hround, h', -⟩ := h.round_next host hscan
    obtain ⟨fuel, answer, p'', hloop⟩ := ih h'
    exact ⟨fuel + 1, answer, p'', (processLoop_next fuel hround).trans hloop⟩

variable (host) in
/-- One round from a state that a proper rest describes. -/
theorem Grounded.round_safe (h : Grounded n r p σ bs) (hp : Proper n σ bs) :
    ∃ answer p', processRound host p = .ok (answer, p') ∧ Sane p' ∧
      p.dyb.position ≤ p'.dyb.position ∧ p'.dyb.position ≤ n := by
  cases hp with
  | done => exact ⟨_, _, processRound_nil h.rel, h.sane, le_rfl, h.rel.position_le⟩
  | stop hscan =>
    have hm := h.round_matches host fun hbs => by
      subst hbs
      cases hscan
    rw [hscan] at hm
    obtain ⟨p', σ', bs', hround, h', hk⟩ := hm
    exact ⟨_, p', hround, (h.kept h' hk).sane, hk.position_le, h'.position_le⟩
  | next hscan _ =>
    obtain ⟨p', hround, h', hle, -⟩ := h.round_next host hscan
    exact ⟨_, p', hround, h'.sane, hle, h'.rel.position_le⟩

/-- What is safe to parse from here on is proper. -/
theorem ParsesSafely.proper (hu : ParsesSafely host u) {p : Parser} {σ : Shape}
    {bs : List UInt8} (hreached : Reached host u p) (h : Grounded n r p σ bs) : Proper n σ bs := by
  by_cases hbs : bs = []
  · rw [hbs]
    exact .done σ
  have hm := h.round_matches host hbs
  cases hscan : scan n σ bs with
  | accept => exact .stop hscan
  | reject =>
    rw [hscan] at hm
    obtain ⟨f, hf⟩ | ⟨-, p', hp', hsane⟩ := hm
    · exact absurd hf (hu.no_fault p f hreached)
    · have hs := (hu.sane p p' none hreached hp').1
      obtain ⟨hroots, hst⟩ | hb := hsane
      · have hbottom := hs.bottom
        rw [hst, hroots, h.roots] at hbottom
        cases hbottom
      · exact absurd hs.names hb
  | next σ' bs' =>
    obtain ⟨p', hround, h', -, hlt⟩ := h.round_next host hscan
    exact .next hscan (hu.proper (hreached.round hround) h')
termination_by bs.length

theorem allocMMUnpackerWithData_grounded {bytes : List UInt8} (hlt : bytes.length < 2 ^ 32)
    (hu : allocMMUnpackerWithData (some bytes) bytes.length = some u) :
    Grounded bytes.length u.store.length (processStart u) Shape.start bytes := by
  cases hu
  refine ⟨?_, rfl, fun e he => by cases he⟩
  exact
    { cursor := ⟨rfl, rfl, hlt, Nat.zero_add _, rfl⟩
      containers := fun a ha => by
        obtain rfl := List.mem_singleton.mp ha
        exact (MapAt.new _ _ _).contains
      stacked := ⟨[], rfl, fun _ => ⟨rfl, rfl⟩, fun _ _ ho => by cases ho⟩
      names := .nil }

/-- Exactly the proper streams are parsed safely. -/
theorem parsesSafely_iff (host : Host) {bytes : List UInt8} {u : MMUnpacker}
    (hlt : bytes.length < 2 ^ 32)
    (hu : allocMMUnpackerWithData (some bytes) bytes.length = some u) :
    ParsesSafely host u ↔ Proper bytes.length Shape.start bytes := by
  have hstart := allocMMUnpackerWithData_grounded hlt hu
  have hlen : u.dyb.data.length = bytes.length := hstart.rel.cursor.length_eq
  refine ⟨fun h => h.proper .start hstart, fun hp =>
    ⟨?_, fun p f hr hf => ?_, fun p p' answer hr hround => ?_⟩⟩
  · obtain ⟨fuel, answer, p', hloop⟩ := hstart.answers host hp
    exact ⟨fuel, answer, p'.toMMUnpacker, by rw [process, hloop]; rfl⟩
  · obtain ⟨σ, bs, hrel, hproper⟩ := hr.grounded hstart hp
    obtain ⟨answer, p', hround, -⟩ := hrel.round_safe host hproper
    rw [hf] at hround
    cases hround
  · obtain ⟨σ, bs, hrel, hproper⟩ := hr.grounded hstart hp
    obtain ⟨answer', q, hround', hsafe⟩ := hrel.round_safe host hproper
    rw [hround] at hround'
    cases hround'
    rw [hlen]
    exact hsafe

def objectStream : List UInt8 :=
  [0x71, 0, 2, 0x41, 0, 0x58, 0, 0x60, 0x08, 5, 0x40, 1, 0x08, 2, 0x40, 0, 0x58]

theorem proper_objectStream : Proper 17 Shape.start objectStream :=
  .next rfl <| .next rfl <| .next rfl <| .next rfl <| .next rfl <| .next rfl <| .next rfl <|
    .next rfl <| .done _

theorem parsesSafely_objectStream :
    ∃ u, allocMMUnpackerWithData (some objectStream) 17 = some u ∧ ParsesSafely .little u :=
  ⟨_, rfl, (parsesSafely_iff .little (by decide) rfl).mpr proper_objectStream⟩

/-- An array end at the outermost level pops the roots. -/
theorem not_parsesSafely :
    ¬∀ (host : Host) (bytes : List UInt8) (u : MMUnpacker), bytes.length < 2 ^ 32 →
      allocMMUnpackerWithData (some bytes) bytes.length = some u → ParsesSafely host u := by
  intro h
  have hlt : [0x40, 0x00].length < 2 ^ 32 := by decide
  have hsafe := h .little [0x40, 0x00] _ hlt rfl
  have hstart := @allocMMUnpackerWithData_grounded _ [0x40, 0x00] hlt rfl
  have hp : Proper 2 Shape.start [0x40, 0x00] := hsafe.proper .start hstart
  have hscan : scan 2 Shape.start [0x40, 0x00] = .reject := rfl
  cases hp with
  | stop hstop =>
    rw [hscan] at hstop
    cases hstop
  | next hnext _ =>
    rw [hscan] at hnext
    cases hnext

end Runs

end LcClibs.Pack.Parsing
