import Mathlib
import LcClibs.Pack.Contents
import LcClibs.Pack.Unpacker

namespace LcClibs.Pack.Balance

open Platform Lib Lib.Runs Buffer.VarInt Mmo.Object
open Pack.Records Pack.Process Pack.Parsing Pack.Contents Pack.Unpacker

section Reading

variable {H : Type} {host : Host} {rounds : Nat} {s s' : Unpacking H}

def Reads {α : Type} (x : UnpackM H α) : Prop := ∀ s a s', x s = .ok (a, s') → s' = s

theorem Reads.bind {α β : Type} {x : UnpackM H α} {f : α → UnpackM H β} (hx : Reads x)
    (hf : ∀ a, Reads (f a)) : Reads (x >>= f) := by
  intro s b s' h
  obtain ⟨a, s1, h1, h2⟩ := step_eq_ok.mp h
  rw [hf a s1 b s' h2, hx s a s1 h1]

theorem Reads.pure {α : Type} (a : α) : Reads (pure a : UnpackM H α) := by
  intro s b s' h
  cases h
  rfl

theorem Reads.throw {α : Type} (e : Stop) : Reads (throw e : UnpackM H α) := by
  intro s b s' h
  cases h

theorem Reads.get_bind {α : Type} {f : Unpacking H → UnpackM H α} (hf : ∀ s, Reads (f s)) :
    Reads (get >>= f) := by
  intro s b s' h
  exact hf s s b s' h

theorem lastItem_reads : Reads (lastItem : UnpackM H Addr) := by
  refine Reads.get_bind fun s => ?_
  cases s.stack with
  | nil => exact .throw _
  | cons a s => exact .pure _

theorem genAt_reads (a : Addr) : Reads (genAt a : UnpackM H Gen) := by
  refine Reads.get_bind fun s => ?_
  cases s.store[a]? with
  | none => exact .throw _
  | some g => exact .pure _

theorem getByIntFromStack_reads (key : Nat) : Reads (getByIntFromStack host key : UnpackM H _) := by
  refine lastItem_reads.bind fun obj => (genAt_reads obj).bind fun g => ?_
  cases g with
  | map c items => exact .pure _
  | list items =>
    dsimp only
    cases items[key]? with
    | none => exact .throw _
    | some a => exact .pure _
  | _ => exact .pure _

theorem getByStringFromStack_reads (key : List UInt8) :
    Reads (getByStringFromStack key : UnpackM H _) := by
  refine lastItem_reads.bind fun obj => (genAt_reads obj).bind fun g => ?_
  cases g <;> exact .pure _

theorem findObject_reads (key : Nat) : Reads (findObject host key : UnpackM H _) := by
  refine (getByIntFromStack_reads key).bind fun obj => ?_
  cases obj with
  | none => exact .pure _
  | some obj =>
    refine (genAt_reads obj).bind fun g => ?_
    cases g with
    | int num =>
      refine Reads.get_bind fun s => ?_
      cases Table.find Prod.fst num s.objects with
      | none => exact .throw _
      | some e =>
        obtain ⟨n, e⟩ := e
        cases e with
        | reference object => exact .pure _
        | props map =>
          refine (genAt_reads map).bind fun g => ?_
          cases g with
          | map c items =>
            dsimp only
            cases Table.find Prod.fst className items with
            | none => exact .pure _
            | some item =>
              refine (genAt_reads item.2).bind fun g => ?_
              cases g <;> exact .pure _
          | _ => exact .throw _
    | _ => exact .throw _

def Parsed (s : Unpacking H) : Prop := s.roots.isSome

theorem parse_parsed (h : Parsed s) : parse host rounds s = .ok ((), s) := by
  obtain ⟨r, hr⟩ := Option.isSome_iff_exists.mp h
  rw [parse, hr]

theorem parse_bind {α : Type} {f : PUnit → UnpackM H α} (h : Parsed s) :
    (parse host rounds >>= f) s = f ⟨⟩ s :=
  step_ok (parse_parsed h)

theorem value_reads {α : Type} {f : Option Addr → UnpackM H α} (hf : ∀ obj, Reads (f obj))
    (hs : Parsed s) {key : Nat} {a : α}
    (h : (do parse host rounds; f (← getByIntFromStack host key)) s = .ok (a, s')) : s' = s := by
  rw [parse_bind hs] at h
  exact (getByIntFromStack_reads key).bind hf s a s' h

theorem unpackVarInt64Impl_reads (hs : Parsed s) {key : Nat} {v : Int}
    (h : unpackVarInt64Impl host rounds key s = .ok (v, s')) : s' = s := by
  refine value_reads (fun obj => ?_) hs h
  cases obj with
  | none => exact .pure _
  | some obj => exact (genAt_reads obj).bind fun g => by cases g <;> exact .pure _

theorem unpackFloatImpl_reads (hs : Parsed s) {key v : Nat}
    (h : unpackFloatImpl host rounds key s = .ok (v, s')) : s' = s := by
  refine value_reads (fun obj => ?_) hs h
  cases obj with
  | none => exact .pure _
  | some obj => exact (genAt_reads obj).bind fun g => by cases g <;> exact .pure _

theorem unpackDoubleImpl_reads (hs : Parsed s) {key v : Nat}
    (h : unpackDoubleImpl host rounds key s = .ok (v, s')) : s' = s := by
  refine value_reads (fun obj => ?_) hs h
  cases obj with
  | none => exact .pure _
  | some obj => exact (genAt_reads obj).bind fun g => by cases g <;> exact .pure _

theorem unpackDataImpl_reads (hs : Parsed s) {key : Nat} {v : Option (List UInt8)}
    (h : unpackDataImpl host rounds key s = .ok (v, s')) : s' = s := by
  refine value_reads (fun obj => ?_) hs h
  cases obj with
  | none => exact .pure _
  | some obj => exact (genAt_reads obj).bind fun g => by cases g <;> exact .pure _

theorem unpackArrayImpl_ok (hs : Parsed s) {key n : Nat}
    (h : unpackArrayImpl host rounds key s = .ok (n, s')) :
    s' = s ∨ ∃ a items, s.store[a]? = some (.list items) ∧
      s' = { s with stack := a :: s.stack } := by
  rw [unpackArrayImpl, parse_bind hs] at h
  obtain ⟨obj, s1, h1, h2⟩ := step_eq_ok.mp h
  obtain rfl := getByIntFromStack_reads key s obj s1 h1
  cases obj with
  | none =>
    cases h2
    exact .inl rfl
  | some a =>
    dsimp only at h2
    rw [genAt, bind_assoc, step_get] at h2
    cases hg : s1.store[a]? with
    | none =>
      rw [hg] at h2
      cases h2
    | some g =>
      rw [hg] at h2
      cases g with
      | list items =>
        cases h2
        exact .inr ⟨a, items, hg, rfl⟩
      | _ =>
        cases h2
        exact .inl rfl

theorem popItem_ok (h : Unpacker.popItem s = .ok ((), s')) :
    ∃ a stack, s.stack = a :: stack ∧ s' = { s with stack := stack } := by
  rw [Unpacker.popItem, step_get] at h
  cases hst : s.stack with
  | nil =>
    rw [hst] at h
    cases h
  | cons a stack =>
    rw [hst] at h
    cases h
    exact ⟨a, stack, rfl, rfl⟩

theorem putReference_ok {num : Int} {obj : Except Stop (Option Addr)}
    (h : putReference num obj s = .ok ((), s')) :
    ∃ object, obj = .ok object ∧ s' = { s with
      objects := Table.put Prod.fst (num, Entry.reference object) s.objects
      lastObjectNum := none } := by
  cases obj with
  | error e => cases h
  | ok object =>
    cases h
    exact ⟨object, rfl, rfl⟩

theorem unpackArrayEndImpl_ok (hs : Parsed s)
    (h : unpackArrayEndImpl host rounds s = .ok ((), s')) :
    ∃ a stack, s.stack = a :: stack ∧ s' = { s with stack := stack } := by
  rw [unpackArrayEndImpl, parse_bind hs] at h
  exact popItem_ok h

end Reading

section Inside

variable {H : Type} {host : Host} {rounds : Nat} {s s' s'' : Unpacking H}

/-- What the functions of the unpacker leave as it is: the parsed stream, and the kinds of
its objects. -/
structure Steady (s s' : Unpacking H) : Prop where
  store : s'.store = s.store
  roots : s'.roots = s.roots
  kinds : Kinds s.toMMUnpacker → Kinds s'.toMMUnpacker

theorem Steady.refl (s : Unpacking H) : Steady s s := ⟨rfl, rfl, id⟩

theorem Steady.trans (h : Steady s s') (h' : Steady s' s'') : Steady s s'' :=
  ⟨h'.store.trans h.store, h'.roots.trans h.roots, h'.kinds ∘ h.kinds⟩

theorem Steady.parsed (h : Steady s s') (hs : Parsed s) : Parsed s' := by
  unfold Parsed
  rw [h.roots]
  exact hs

theorem Steady.aside (s : Unpacking H) (stack : List Addr) (num : Option Int) (heap : H) :
    Steady s { s with stack := stack, lastObjectNum := num, heap := heap } :=
  ⟨rfl, rfl, fun h => ⟨h.props, h.values, h.rooted⟩⟩

def ListAt (store : List Gen) (a : Addr) : Prop := ∃ items, store[a]? = some (Gen.list items)

/-- The properties of an object on the stack, and above them a context and open arrays. -/
def Inside (map : Addr) (rest : List Addr) (s : Unpacking H) : Prop :=
  ∃ lists contexts, s.stack = lists ++ (contexts ++ map :: rest) ∧
    (∀ a ∈ lists, ListAt s.store a) ∧ ∀ a ∈ contexts, MapAt s.store a true

theorem popContexts_contexts {store : List Gen} {contexts rest : List Addr} {map : Addr}
    (hc : ∀ a ∈ contexts, MapAt store a true) (hm : MapAt store map false) :
    popContexts store (contexts ++ map :: rest) = .ok (map :: rest) := by
  induction contexts with
  | nil =>
    obtain ⟨items, hi⟩ := hm
    simp only [List.nil_append, popContexts, hi]
  | cons a contexts ih =>
    obtain ⟨items, hi⟩ := hc a List.mem_cons_self
    simp only [List.cons_append, popContexts, hi]
    exact ih fun b hb => hc b (List.mem_cons_of_mem _ hb)

/-- Where an array is open the contexts below it stay. -/
theorem popContexts_list {store : List Gen} {stack : List Addr} {a : Addr} (ha : ListAt store a) :
    popContexts store (a :: stack) = .ok (a :: stack) := by
  obtain ⟨items, hi⟩ := ha
  simp only [popContexts, hi]

theorem popContextInStack_ok (h : popContextInStack s = .ok ((), s')) :
    ∃ stack, popContexts s.store s.stack = .ok stack ∧ s' = { s with stack := stack } := by
  unfold popContextInStack at h
  split at h
  · cases h
    exact ⟨_, by assumption, rfl⟩
  · cases h

theorem popContextInStack_inside {map : Addr} {rest : List Addr} (hm : MapAt s.store map false)
    (hi : Inside map rest s) (h : popContextInStack s = .ok ((), s')) :
    s' = { s with stack := map :: rest } ∨
      s' = s ∧ ∃ a stack, s.stack = a :: stack ∧ ListAt s.store a := by
  obtain ⟨stack, hp, rfl⟩ := popContextInStack_ok h
  obtain ⟨lists, contexts, hst, hl, hc⟩ := hi
  cases lists with
  | nil =>
    rw [hst, List.nil_append, popContexts_contexts hc hm] at hp
    cases hp
    exact .inl rfl
  | cons a lists =>
    have ha := hl a List.mem_cons_self
    rw [hst, List.cons_append, popContexts_list ha] at hp
    cases hp
    exact .inr ⟨by rw [← List.cons_append, ← hst], a, _, hst, ha⟩

theorem lastItem_cons {a : Addr} {stack : List Addr} (h : s.stack = a :: stack) :
    lastItem s = .ok (a, s) := by
  rw [lastItem, step_get, h]
  rfl

theorem genAt_some {a : Addr} {g : Gen} (h : s.store[a]? = some g) : genAt a s = .ok (g, s) := by
  rw [genAt, step_get, h]
  rfl

theorem genAt_ok {a : Addr} {g : Gen} (h : genAt a s = .ok (g, s')) : s.store[a]? = some g := by
  rw [genAt, step_get] at h
  cases hg : s.store[a]? with
  | none =>
    rw [hg] at h
    cases h
  | some g' =>
    rw [hg] at h
    cases h
    rfl

theorem getByStringFromStack_map {a : Addr} {stack : List Addr} {c : Bool}
    {items : List (List UInt8 × Addr)} (h : s.stack = a :: stack)
    (ha : s.store[a]? = some (.map c items)) (key : List UInt8) :
    getByStringFromStack key s = .ok ((Table.find Prod.fst key items).map Prod.snd, s) := by
  rw [getByStringFromStack, step_ok (lastItem_cons h), step_ok (genAt_some ha)]
  rfl

theorem getByStringFromStack_list {a : Addr} {stack : List Addr} (h : s.stack = a :: stack)
    (ha : ListAt s.store a) (key : List UInt8) :
    getByStringFromStack key s = .ok (none, s) := by
  obtain ⟨items, hi⟩ := ha
  rw [getByStringFromStack, step_ok (lastItem_cons h), step_ok (genAt_some hi)]
  rfl

def enterContext (name : List UInt8) : UnpackM H Unit := do
  match ← getByStringFromStack name with
  | none => return ()
  | some obj =>
    match ← genAt obj with
    | .map _ _ => Unpacker.pushItem obj
    | _ => return ()

theorem enterContext_props {map : Addr} {rest : List Addr} (hk : Kinds s.toMMUnpacker)
    (hm : MapAt s.store map false) (hst : s.stack = map :: rest) {name : List UInt8}
    (h : enterContext name s = .ok ((), s')) :
    Inside map rest s' ∧ ∃ stack, s' = { s with stack := stack } := by
  obtain ⟨items, hi⟩ := hm
  have hsame : Inside map rest s := ⟨[], [], by simpa using hst, by simp, by simp⟩
  rw [enterContext, step_ok (getByStringFromStack_map hst hi name)] at h
  cases hf : Table.find Prod.fst name items with
  | none =>
    rw [hf] at h
    cases h
    exact ⟨hsame, s.stack, rfl⟩
  | some item =>
    rw [hf, Option.map_some] at h
    obtain ⟨g, s1, h1, h2⟩ := step_eq_ok.mp h
    obtain rfl := genAt_reads item.2 s g s1 h1
    have hg := genAt_ok h1
    cases g with
    | map c items' =>
      cases h2
      obtain ⟨g, hg', hne⟩ := hk.values map false items hi item (Table.find_some hf).1
      obtain rfl : Gen.map c items' = g := Option.some.inj (hg.symm.trans hg')
      refine ⟨⟨[], [item.2], by simp [hst], by simp, ?_⟩, _, rfl⟩
      intro a ha
      obtain rfl := List.mem_singleton.mp ha
      cases c with
      | true => exact ⟨items', hg⟩
      | false => exact absurd rfl (hne items')
    | _ =>
      cases h2
      exact ⟨hsame, _, rfl⟩

theorem enterContext_list {a : Addr} {stack : List Addr} (hst : s.stack = a :: stack)
    (ha : ListAt s.store a) {name : List UInt8} (h : enterContext name s = .ok ((), s')) :
    s' = s := by
  rw [enterContext, step_ok (getByStringFromStack_list hst ha name)] at h
  cases h
  rfl

/-- An object whose class has no init function yet: only its properties are on the stack. -/
def Fresh (map : Addr) (rest : List Addr) (s : Unpacking H) : Prop :=
  s.lastObjectNum.isSome ∧ s.stack = map :: rest

def Entered (map : Addr) (rest : List Addr) (s : Unpacking H) : Prop :=
  s.lastObjectNum = none ∧ Inside map rest s

theorem unpackNextContextImpl_entered {map : Addr} {rest : List Addr} {name : List UInt8}
    {obj : Except Stop (Option Addr)} (hs : Parsed s) (hk : Kinds s.toMMUnpacker)
    (hm : MapAt s.store map false) (hi : Fresh map rest s ∨ Entered map rest s)
    (h : unpackNextContextImpl host rounds name obj s = .ok ((), s')) :
    Entered map rest s' ∧ Steady s s' := by
  rw [unpackNextContextImpl, parse_bind hs, step_get] at h
  obtain ⟨hnum, hst⟩ | ⟨hnum, hi⟩ := hi
  · obtain ⟨num, hnum⟩ := Option.isSome_iff_exists.mp hnum
    rw [hnum] at h
    obtain ⟨_, s1, h1, h2⟩ := step_eq_ok.mp h
    obtain ⟨object, -, rfl⟩ := putReference_ok h1
    have hk' := hk.putReference num object
    obtain ⟨hin, stack, rfl⟩ := @enterContext_props H { s with
      objects := Table.put Prod.fst (num, Entry.reference object) s.objects
      lastObjectNum := none } s' map rest hk' hm hst name h2
    exact ⟨⟨rfl, hin⟩, rfl, rfl, fun _ => ⟨hk'.props, hk'.values, hk'.rooted⟩⟩
  · rw [hnum] at h
    obtain ⟨_, s1, h1, h2⟩ := step_eq_ok.mp h
    obtain rfl | ⟨rfl, a, stack, hst, ha⟩ := popContextInStack_inside hm hi h1
    · obtain ⟨hin, stack, rfl⟩ := @enterContext_props H { s with stack := map :: rest } s' map rest
        ⟨hk.props, hk.values, hk.rooted⟩ hm rfl name h2
      exact ⟨⟨hnum, hin⟩, rfl, rfl, fun _ => ⟨hk.props, hk.values, hk.rooted⟩⟩
    · obtain rfl := enterContext_list hst ha h2
      exact ⟨⟨hnum, hi⟩, Steady.refl _⟩

end Inside

section Tidy

variable {H : Type} (host : Host) (rounds : Nat)

def InArray (s : Unpacking H) : Prop := ∃ a stack, s.stack = a :: stack ∧ ListAt s.store a

def InProps (s : Unpacking H) : Prop := ∃ a stack, s.stack = a :: stack ∧ MapAt s.store a false

variable (unpackObject : Nat → UnpackM H (Option Addr)) (T : Nat → Unpacking H → Prop)

/-- A run of an init function in which no array end comes right above the properties
of an object, and objects are unpacked as told. -/
def TidyInit : Init H → Unpacking H → Prop
  | .done _, _ => True
  | .varInt64 key next, s => ∀ v s', unpackVarInt64Impl host rounds key s = .ok (v, s') →
    TidyInit (next v) s'
  | .float key next, s => ∀ v s', unpackFloatImpl host rounds key s = .ok (v, s') →
    TidyInit (next v) s'
  | .double key next, s => ∀ v s', unpackDoubleImpl host rounds key s = .ok (v, s') →
    TidyInit (next v) s'
  | .data key next, s => ∀ v s', unpackDataImpl host rounds key s = .ok (v, s') →
    TidyInit (next v) s'
  | .object key next, s => T key s ∧ ∀ v s', unpackObject key s = .ok (v, s') →
    TidyInit (next v) s'
  | .array key next, s => ∀ v s', unpackArrayImpl host rounds key s = .ok (v, s') →
    TidyInit (next v) s'
  | .arrayEnd _ next, s => ¬InProps s ∧ ∀ s', unpackArrayEndImpl host rounds s = .ok ((), s') →
    TidyInit next s'
  | .read next, s => TidyInit (next s.heap) s
  | .write change next, s => TidyInit next { s with heap := change s.heap }

/-- The init functions of a chain so run, and no array left open after the last one. -/
def TidyLevels (stru : Addr) (made : List (List UInt8)) :
    List (List UInt8 × Option (Addr → Init H)) → Unpacking H → Prop
  | [], s => ¬InArray s
  | (name, none) :: levels, s => TidyLevels stru (name :: made) levels s
  | (name, some init) :: levels, s =>
    ∀ s', unpackNextContextImpl host rounds name (toMMObject (name :: made) levels.isEmpty stru) s =
        .ok ((), s') →
      TidyInit host rounds unpackObject T (init stru) s' ∧
      ∀ ok s'', runInit host rounds unpackObject (init stru) s' = .ok (ok, s'') →
        if ok then TidyLevels stru (name :: made) levels s'' else ¬InArray s''

def entering (num : Int) (map : Addr) (heap : H) (s : Unpacking H) : Unpacking H :=
  { s with stack := map :: s.stack, lastObjectNum := some num, heap := heap }

/-- An object that is to be built has an allocator, which keeps the stack tidy. -/
def TidyObject (allocators : Allocators H) (key : Nat) (s : Unpacking H) : Prop :=
  ∀ num map name s', findObject host key s = .ok (.props num map name, s') →
    ∃ entry, Table.find Prod.fst name allocators = some entry ∧
      TidyLevels host rounds unpackObject T (entry.2.blank s.heap).1 [] entry.2.levels
        (entering num map (entry.2.blank s.heap).2 s)

/-- A call of `unpack_mmobj` in which every array end comes where an array or a context is
the last item, every class is registered, and no object ends with an array open. -/
def Tidy (allocators : Allocators H) : Nat → Nat → Unpacking H → Prop
  | 0, _, _ => True
  | fuel + 1, key, s => TidyObject host rounds (unpackObjectImpl host rounds allocators fuel)
      (Tidy allocators fuel) allocators key s

end Tidy

section Balance

variable {H : Type} {host : Host} {rounds : Nat} {s s' : Unpacking H}
  {unpackObject : Nat → UnpackM H (Option Addr)} {T : Nat → Unpacking H → Prop}

structure Ready (s : Unpacking H) : Prop where
  parsed : Parsed s
  kinds : Kinds s.toMMUnpacker
  settled : s.lastObjectNum = none

theorem Ready.steady (h : Ready s) (hs : Steady s s') (hn : s'.lastObjectNum = none) : Ready s' :=
  ⟨hs.parsed h.parsed, hs.kinds h.kinds, hn⟩

/-- Calls that leave the stack as it was. -/
def Neutral (unpackObject : Nat → UnpackM H (Option Addr)) (T : Nat → Unpacking H → Prop) : Prop :=
  ∀ key s r s', Ready s → T key s → unpackObject key s = .ok (r, s') →
    s'.stack = s.stack ∧ s'.lastObjectNum = none ∧ Steady s s'

theorem MapAt.steady {a : Addr} {c : Bool} (h : MapAt s.store a c) (hs : Steady s s') :
    MapAt s'.store a c := by
  rw [hs.store]
  exact h

theorem Inside.stack {map : Addr} {rest : List Addr} (h : Inside map rest s)
    (hs : Steady s s') (hst : s'.stack = s.stack) : Inside map rest s' := by
  obtain ⟨lists, contexts, hin, hl, hc⟩ := h
  exact ⟨lists, contexts, by rw [hst, hin], by rw [hs.store]; exact hl, by rw [hs.store]; exact hc⟩

theorem Inside.push {map a : Addr} {rest : List Addr} (h : Inside map rest s)
    (ha : ListAt s.store a) : Inside map rest { s with stack := a :: s.stack } := by
  obtain ⟨lists, contexts, hin, hl, hc⟩ := h
  refine ⟨a :: lists, contexts, by rw [List.cons_append, ← hin], fun b hb => ?_, hc⟩
  obtain rfl | hb := List.mem_cons.mp hb
  · exact ha
  · exact hl b hb

theorem Inside.pop {map a : Addr} {rest stack : List Addr} (hm : MapAt s.store map false)
    (h : Inside map rest s) (hst : s.stack = a :: stack) (hp : ¬InProps s) :
    Inside map rest { s with stack := stack } := by
  obtain ⟨lists, contexts, hin, hl, hc⟩ := h
  rw [hst] at hin
  cases lists with
  | cons b lists =>
    obtain ⟨rfl, rfl⟩ := List.cons.inj hin
    exact ⟨lists, contexts, rfl, fun b hb => hl b (List.mem_cons_of_mem _ hb), hc⟩
  | nil =>
    cases contexts with
    | cons b contexts =>
      obtain ⟨rfl, rfl⟩ := List.cons.inj hin
      exact ⟨[], contexts, rfl, by simp, fun b hb => hc b (List.mem_cons_of_mem _ hb)⟩
    | nil =>
      obtain ⟨rfl, rfl⟩ := List.cons.inj hin
      exact absurd ⟨a, stack, hst, hm⟩ hp

/-- What an init function does to the stack, one case for each of its calls. -/
theorem runInit_inside (hN : Neutral unpackObject T) {map : Addr} {rest : List Addr} {ok : Bool}
    {init : Init H} (hr : Ready s) (hm : MapAt s.store map false) (hi : Inside map rest s)
    (ht : TidyInit host rounds unpackObject T init s)
    (h : runInit host rounds unpackObject init s = .ok (ok, s')) :
    Entered map rest s' ∧ Steady s s' := by
  induction init generalizing s with
  | done ok =>
    cases h
    exact ⟨⟨hr.settled, hi⟩, Steady.refl _⟩
  | varInt64 key next ih =>
    obtain ⟨v, s1, h1, h2⟩ := step_eq_ok.mp h
    have hs1 := unpackVarInt64Impl_reads hr.parsed h1
    subst hs1
    exact ih v hr hm hi (ht v _ h1) h2
  | float key next ih =>
    obtain ⟨v, s1, h1, h2⟩ := step_eq_ok.mp h
    have hs1 := unpackFloatImpl_reads hr.parsed h1
    subst hs1
    exact ih v hr hm hi (ht v _ h1) h2
  | double key next ih =>
    obtain ⟨v, s1, h1, h2⟩ := step_eq_ok.mp h
    have hs1 := unpackDoubleImpl_reads hr.parsed h1
    subst hs1
    exact ih v hr hm hi (ht v _ h1) h2
  | data key next ih =>
    obtain ⟨v, s1, h1, h2⟩ := step_eq_ok.mp h
    have hs1 := unpackDataImpl_reads hr.parsed h1
    subst hs1
    exact ih v hr hm hi (ht v _ h1) h2
  | object key next ih =>
    obtain ⟨v, s1, h1, h2⟩ := step_eq_ok.mp h
    obtain ⟨hst, hnum, hsteady⟩ := hN key s v s1 hr ht.1 h1
    obtain ⟨he, hs⟩ := ih v (hr.steady hsteady hnum) (MapAt.steady hm hsteady)
      (hi.stack hsteady hst) (ht.2 v s1 h1) h2
    exact ⟨he, hsteady.trans hs⟩
  | array key next ih =>
    obtain ⟨v, s1, h1, h2⟩ := step_eq_ok.mp h
    have ht1 := ht v s1 h1
    obtain rfl | ⟨a, items, ha, rfl⟩ := unpackArrayImpl_ok hr.parsed h1
    · exact ih v hr hm hi ht1 h2
    · have hsteady := Steady.aside s (a :: s.stack) s.lastObjectNum s.heap
      obtain ⟨he, hs⟩ := ih v (hr.steady hsteady hr.settled) hm (hi.push ⟨items, ha⟩) ht1 h2
      exact ⟨he, hsteady.trans hs⟩
  | arrayEnd key next ih =>
    obtain ⟨_, s1, h1, h2⟩ := step_eq_ok.mp h
    have ht1 := ht.2 s1 h1
    obtain ⟨a, stack, hst, rfl⟩ := unpackArrayEndImpl_ok hr.parsed h1
    have hsteady := Steady.aside s stack s.lastObjectNum s.heap
    obtain ⟨he, hs⟩ := ih (hr.steady hsteady hr.settled) hm (hi.pop hm hst ht.1) ht1 h2
    exact ⟨he, hsteady.trans hs⟩
  | read next ih =>
    exact ih s.heap hr hm hi ht h
  | write change next ih =>
    have hsteady := Steady.aside s s.stack s.lastObjectNum (change s.heap)
    obtain ⟨he, hs⟩ := ih (hr.steady hsteady hr.settled) hm hi ht h
    exact ⟨he, hsteady.trans hs⟩

theorem initLevels_inside (hN : Neutral unpackObject T) {map stru : Addr} {rest : List Addr}
    {made : List (List UInt8)} {levels : List (List UInt8 × Option (Addr → Init H))}
    {ooo : Option Addr} (hp : Parsed s) (hk : Kinds s.toMMUnpacker)
    (hm : MapAt s.store map false) (hi : Fresh map rest s ∨ Entered map rest s)
    (ht : TidyLevels host rounds unpackObject T stru made levels s)
    (h : initLevels host rounds unpackObject stru made levels s = .ok (ooo, s')) :
    (Fresh map rest s' ∨ Entered map rest s') ∧ ¬InArray s' ∧ Steady s s' := by
  induction levels generalizing s made with
  | nil =>
    cases h
    exact ⟨hi, ht, Steady.refl _⟩
  | cons level levels ih =>
    obtain ⟨name, init⟩ := level
    cases init with
    | none => exact ih hp hk hm hi ht h
    | some init =>
      obtain ⟨_, s1, h1, h2⟩ := step_eq_ok.mp h
      obtain ⟨⟨hnum, hin⟩, hs1⟩ := unpackNextContextImpl_entered hp hk hm hi h1
      obtain ⟨ht1, ht2⟩ := ht s1 h1
      obtain ⟨ok, s2, h3, h4⟩ := step_eq_ok.mp h2
      have hr1 : Ready s1 := ⟨hs1.parsed hp, hs1.kinds hk, hnum⟩
      obtain ⟨he, hs2⟩ := runInit_inside hN hr1 (MapAt.steady hm hs1) hin ht1 h3
      have ht3 := ht2 ok s2 h3
      cases ok with
      | false =>
        cases h4
        exact ⟨.inr he, ht3, hs1.trans hs2⟩
      | true =>
        obtain ⟨hi', hna, hs3⟩ := ih (hs2.parsed hr1.parsed) (hs2.kinds hr1.kinds)
          (MapAt.steady (MapAt.steady hm hs1) hs2) (.inr he) ht3 h4
        exact ⟨hi', hna, (hs1.trans hs2).trans hs3⟩

theorem leaveObject_inside {map : Addr} {rest : List Addr} {cls : Alloc H} {ooo r : Option Addr}
    (hm : MapAt s.store map false) (hi : Fresh map rest s ∨ Entered map rest s)
    (hna : ¬InArray s) (h : leaveObject cls ooo s = .ok (r, s')) :
    s'.stack = rest ∧ s'.lastObjectNum = none ∧ Steady s s' := by
  rw [leaveObject, step_get] at h
  obtain ⟨hnum, hst⟩ | ⟨hnum, hi⟩ := hi
  · obtain ⟨num, hnum⟩ := Option.isSome_iff_exists.mp hnum
    rw [hnum] at h
    cases ooo with
    | none =>
      dsimp only at h
      rw [step_modify] at h
      obtain ⟨_, s1, h1, h2⟩ := step_eq_ok.mp h
      cases h2
      obtain ⟨a, stack, hst1, rfl⟩ := popItem_ok h1
      have hst2 : map :: rest = a :: stack := hst.symm.trans hst1
      cases hst2
      exact ⟨rfl, rfl, rfl, rfl, fun hk => ⟨hk.props, hk.values, hk.rooted⟩⟩
    | some stru =>
      obtain ⟨_, s1, h1, h2⟩ := step_eq_ok.mp h
      obtain ⟨object, -, rfl⟩ := putReference_ok h1
      obtain ⟨_, s2, h3, h4⟩ := step_eq_ok.mp h2
      cases h4
      obtain ⟨a, stack, hst1, rfl⟩ := popItem_ok h3
      have hst2 : map :: rest = a :: stack := hst.symm.trans hst1
      cases hst2
      refine ⟨rfl, rfl, rfl, rfl, fun hk => ?_⟩
      have hk' := hk.putReference num object
      exact ⟨hk'.props, hk'.values, hk'.rooted⟩
  · rw [hnum] at h
    obtain ⟨_, s1, h1, h2⟩ := step_eq_ok.mp h
    obtain ⟨_, s2, h3, h4⟩ := step_eq_ok.mp h2
    cases h4
    obtain ⟨a, stack, hst1, rfl⟩ := popItem_ok h3
    obtain rfl | ⟨-, harray⟩ := popContextInStack_inside hm hi h1
    · cases hst1
      exact ⟨rfl, hnum, rfl, rfl, fun hk => ⟨hk.props, hk.values, hk.rooted⟩⟩
    · exact absurd harray hna

/-- What an object is found by: its key leads to its number, and that to its properties. -/
theorem findObject_found {key : Nat} {num : Int} {map : Addr} {name : List UInt8}
    (h : findObject host key s = .ok (.props num map name, s')) :
    (∃ a, getByIntFromStack host key s = .ok (some a, s) ∧ s.store[a]? = some (.int num)) ∧
      ∃ n, Table.find Prod.fst num s.objects = some (n, Entry.props map) := by
  obtain ⟨obj, s1, h1, h2⟩ := step_eq_ok.mp h
  obtain rfl := getByIntFromStack_reads key s obj s1 h1
  cases obj with
  | none => cases h2
  | some obj =>
    obtain ⟨g, s2, h3, h4⟩ := step_eq_ok.mp h2
    obtain rfl := genAt_reads obj s1 g s2 h3
    cases g with
    | int n =>
      dsimp only at h4
      rw [step_get] at h4
      cases hf : Table.find Prod.fst n s2.objects with
      | none =>
        rw [hf] at h4
        cases h4
      | some e =>
        obtain ⟨n', e⟩ := e
        rw [hf] at h4
        cases e with
        | reference object => cases h4
        | props map' =>
          suffices hmm : num = n ∧ map = map' by
            rw [hmm.1, hmm.2]
            exact ⟨⟨obj, h1, genAt_ok h3⟩, n', hf⟩
          obtain ⟨g, s3, h5, h6⟩ := step_eq_ok.mp h4
          cases g with
          | map c items =>
            dsimp only at h6
            cases hi : Table.find Prod.fst className items with
            | none =>
              rw [hi] at h6
              cases h6
            | some item =>
              rw [hi] at h6
              obtain ⟨g, s4, h7, h8⟩ := step_eq_ok.mp h6
              cases g with
              | string value =>
                cases h8
                exact ⟨rfl, rfl⟩
              | _ => cases h8
          | _ => cases h6
    | _ => cases h4

theorem findObject_entry {key : Nat} {num : Int} {map : Addr} {name : List UInt8}
    (h : findObject host key s = .ok (.props num map name, s')) :
    ∃ n, Table.find Prod.fst num s.objects = some (n, Entry.props map) := (findObject_found h).2

theorem findObject_props (hk : Kinds s.toMMUnpacker) {key : Nat} {num : Int} {map : Addr}
    {name : List UInt8} (h : findObject host key s = .ok (.props num map name, s')) :
    MapAt s.store map false := by
  obtain ⟨n, hn⟩ := findObject_entry h
  exact hk.props _ (Table.find_some hn).1 map rfl

theorem unpackObjectWith_neutral (hN : Neutral unpackObject T) {allocators : Allocators H}
    {key : Nat} {r : Option Addr} (hr : Ready s)
    (ht : TidyObject host rounds unpackObject T allocators key s)
    (h : unpackObjectWith host rounds allocators unpackObject key s = .ok (r, s')) :
    s'.stack = s.stack ∧ s'.lastObjectNum = none ∧ Steady s s' := by
  rw [unpackObjectWith, parse_bind hr.parsed] at h
  obtain ⟨found, s1, h1, h2⟩ := step_eq_ok.mp h
  obtain rfl := findObject_reads key s found s1 h1
  cases found with
  | null =>
    cases h2
    exact ⟨rfl, hr.settled, Steady.refl _⟩
  | reference object =>
    cases h2
    exact ⟨rfl, hr.settled, Steady.refl _⟩
  | props num map name =>
    obtain ⟨entry, hf, ht⟩ := ht num map name _ h1
    have hm := findObject_props hr.kinds h1
    dsimp only [Unpacker.pushItem] at h2
    rw [step_modify] at h2
    have hne : allocators.isEmpty = false := by
      cases allocators with
      | nil => cases hf
      | cons => rfl
    rw [hne, if_neg (by decide), hf] at h2
    dsimp only at h2
    rw [step_modify] at h2
    obtain ⟨ooo, s2, h3, h4⟩ := step_eq_ok.mp h2
    have hin := Steady.aside s1 (map :: s1.stack) (some num) (entry.2.blank s1.heap).2
    obtain ⟨hi, hna, hs2⟩ := initLevels_inside (s := entering num map (entry.2.blank s1.heap).2 s1)
      hN (hin.parsed hr.parsed) (hin.kinds hr.kinds) hm (.inl ⟨rfl, rfl⟩) ht h3
    have hm1 : MapAt (entering num map (entry.2.blank s1.heap).2 s1).store map false := hm
    obtain ⟨hst, hnum, hs3⟩ := leaveObject_inside (MapAt.steady hm1 hs2) hi hna h4
    exact ⟨hst, hnum, (hin.trans hs2).trans hs3⟩

/-- Tidy calls leave the stack as it was, by induction on the nesting. -/
theorem tidy_neutral (allocators : Allocators H) (fuel : Nat) :
    Neutral (unpackObjectImpl host rounds allocators fuel) (Tidy host rounds allocators fuel) := by
  induction fuel with
  | zero =>
    intro key s r s' _ _ h
    cases h
  | succ fuel ih =>
    intro key s r s' hr ht h
    exact unpackObjectWith_neutral ih hr ht h

end Balance

section Runs

variable {H : Type} (host : Host) (rounds : Nat) (allocators : Allocators H)

/-- The states in which a call of the unpacker can be made, by the code that owns it or by
an init function, when the unpack calls before it were of the allowed kind. -/
inductive Reached (allowed : Nat → Nat → Unpacking H → Prop) (u : MMUnpacker) :
    Unpacking H → Prop
  | parsed {u' : MMUnpacker} (heap : H) : process host rounds u = .ok (true, u') →
    Reached allowed u (unpackingOf u' heap)
  | object {s s' : Unpacking H} {fuel key : Nat} {r : Option Addr} : Reached allowed u s →
    allowed fuel key s → unpackObjectImpl host rounds allocators fuel key s = .ok (r, s') →
    Reached allowed u s'
  | array {s s' : Unpacking H} {key n : Nat} : Reached allowed u s →
    unpackArrayImpl host rounds key s = .ok (n, s') → Reached allowed u s'
  | arrayEnd {s s' : Unpacking H} : Reached allowed u s →
    unpackArrayEndImpl host rounds s = .ok ((), s') → Reached allowed u s'
  | enter {s s' : Unpacking H} {key : Nat} {num : Int} {map : Addr}
    {obj : Except Stop (Option Addr)} {name level : List UInt8} (heap : H) : Reached allowed u s →
    findObject host key s = .ok (.props num map name, s) →
    unpackNextContextImpl host rounds level obj (entering num map heap s) = .ok ((), s') →
    Reached allowed u s'
  | nextContext {s s' : Unpacking H} {obj : Except Stop (Option Addr)} {level : List UInt8} :
    Reached allowed u s → unpackNextContextImpl host rounds level obj s = .ok ((), s') →
    Reached allowed u s'
  | memory {s : Unpacking H} (heap : H) : Reached allowed u s →
    Reached allowed u { s with heap := heap }

variable {host rounds allocators} {s s' : Unpacking H} {u : MMUnpacker}

theorem enterContext_steady {name : List UInt8} (h : enterContext name s = .ok ((), s')) :
    ∃ stack, s' = { s with stack := stack } := by
  obtain ⟨obj, s1, h1, h2⟩ := step_eq_ok.mp h
  obtain rfl := getByStringFromStack_reads name s obj s1 h1
  cases obj with
  | none =>
    cases h2
    exact ⟨_, rfl⟩
  | some obj =>
    obtain ⟨g, s2, h3, h4⟩ := step_eq_ok.mp h2
    obtain rfl := genAt_reads obj s1 g s2 h3
    cases g <;> cases h4 <;> exact ⟨_, rfl⟩

theorem unpackNextContextImpl_ready {level : List UInt8} {obj : Except Stop (Option Addr)}
    (hp : Parsed s) (hk : Kinds s.toMMUnpacker)
    (h : unpackNextContextImpl host rounds level obj s = .ok ((), s')) : Ready s' := by
  rw [unpackNextContextImpl, parse_bind hp, step_get] at h
  cases hnum : s.lastObjectNum with
  | some num =>
    rw [hnum] at h
    obtain ⟨_, s1, h1, h2⟩ := step_eq_ok.mp h
    obtain ⟨object, -, rfl⟩ := putReference_ok h1
    obtain ⟨stack, rfl⟩ := enterContext_steady h2
    have hk' := hk.putReference num object
    exact ⟨hp, ⟨hk'.props, hk'.values, hk'.rooted⟩, rfl⟩
  | none =>
    rw [hnum] at h
    obtain ⟨_, s1, h1, h2⟩ := step_eq_ok.mp h
    obtain ⟨stack, -, rfl⟩ := popContextInStack_ok h1
    obtain ⟨stack', rfl⟩ := enterContext_steady h2
    exact ⟨hp, ⟨hk.props, hk.values, hk.rooted⟩, hnum⟩

theorem Reached.ready (hu : u.store = [])
    (h : Reached host rounds allocators (Tidy host rounds allocators) u s) : Ready s := by
  induction h with
  | parsed heap h =>
    have hk := process_kinds hu h
    exact ⟨hk.rooted, hk, rfl⟩
  | @object s s' fuel key r _ ht h ih =>
    obtain ⟨-, hnum, hs⟩ := tidy_neutral allocators fuel key s r s' ih ht h
    exact ih.steady hs hnum
  | array _ h ih =>
    obtain rfl | ⟨a, items, -, rfl⟩ := unpackArrayImpl_ok ih.parsed h
    · exact ih
    · exact ih.steady (Steady.aside _ _ _ _) ih.settled
  | arrayEnd _ h ih =>
    obtain ⟨a, stack, -, rfl⟩ := unpackArrayEndImpl_ok ih.parsed h
    exact ih.steady (Steady.aside _ _ _ _) ih.settled
  | @enter s s' key num map obj name level heap _ _ h ih =>
    have hs := Steady.aside s (map :: s.stack) (some num) heap
    exact unpackNextContextImpl_ready (s := entering num map heap s) (hs.parsed ih.parsed)
      (hs.kinds ih.kinds) h
  | nextContext _ h ih => exact unpackNextContextImpl_ready ih.parsed ih.kinds h
  | @memory s heap _ ih => exact ih.steady (Steady.aside s s.stack s.lastObjectNum heap) ih.settled

/-- In every run of tidy calls, each leaves the stack as it was and no number behind. -/
theorem unpackObject_neutral {bytes : List UInt8} {fuel key : Nat} {r : Option Addr}
    (hu : allocMMUnpackerWithData (some bytes) bytes.length = some u)
    (hs : Reached host rounds allocators (Tidy host rounds allocators) u s)
    (ht : Tidy host rounds allocators fuel key s)
    (h : unpackObjectImpl host rounds allocators fuel key s = .ok (r, s')) :
    s'.stack = s.stack ∧ s'.lastObjectNum = none := by
  have hstore : u.store = [] := by
    cases hu
    rfl
  obtain ⟨hst, hnum, -⟩ := tidy_neutral allocators fuel key s r s' (hs.ready hstore) ht h
  exact ⟨hst, hnum⟩

def refStream : List UInt8 := [0x50, 0, 0x71, 0, 2, 0x41, 0, 0x58, 0, 0x58]

def refUnpacker : MMUnpacker :=
  { stack := [0], roots := some 0, objects := [(0, .props 2)], idToClassName := [(0, some 5)],
    dyb := ⟨refStream, 10, 10, 10, 0, true⟩,
    store := [.map false [(intKey .little 0, 1)], .int 0, .map false [(className, 3)],
      .string [0x41]] }

theorem ok_of_toOption {ε α : Type} {x : Except ε α} {a : α} (h : x.toOption = some a) :
    x = .ok a := by
  cases x with
  | error e => cases h
  | ok b => rw [Option.some.inj h]

theorem process_refStream :
    process .little 6 (allocMMUnpacker ⟨refStream, 10, 10, 0, 0, true⟩) = .ok (true, refUnpacker) :=
  ok_of_toOption (by decide +kernel)

def plainAlloc : Alloc Nat := ⟨fun heap => (heap, heap + 1), [(cstr "A", some fun _ => .done true)]⟩

theorem findObject_refStream :
    findObject .little 0 (unpackingOf refUnpacker 0) =
      .ok (.props 0 2 [0x41], unpackingOf refUnpacker 0) := rfl

theorem tidy_refStream :
    Tidy .little 6 [([0x41], plainAlloc)] 1 0 (unpackingOf refUnpacker 0) := by
  intro num map name s' h
  rw [findObject_refStream] at h
  cases h
  refine ⟨_, rfl, ?_⟩
  intro s1 h1
  refine ⟨trivial, fun ok s2 h2 => ?_⟩
  cases h1
  cases h2
  rintro ⟨a, stack, hst, items, hi⟩
  cases hst
  cases hi

theorem unpackObject_neutral_refStream :
    ∃ s', unpackObjectImpl .little 6 [([0x41], plainAlloc)] 1 0 (unpackingOf refUnpacker 0) =
        .ok (some 0, s') ∧ s'.stack = [0] ∧ s'.lastObjectNum = none :=
  ⟨_, rfl, @unpackObject_neutral Nat .little 6 [([0x41], plainAlloc)] (unpackingOf refUnpacker 0) _
    (allocMMUnpacker ⟨refStream, 10, 10, 0, 0, true⟩) refStream 1 0 (some 0) rfl
    (.parsed 0 process_refStream) tidy_refStream rfl⟩

/-- Where the class of the object has no allocator, its properties stay on the stack. -/
theorem not_unpackObject_neutral :
    ¬∀ (host : Host) (rounds : Nat) (allocators : Allocators Nat) (bytes : List UInt8)
      (u : MMUnpacker) (s s' : Unpacking Nat) (fuel key : Nat) (r : Option Addr),
      allocMMUnpackerWithData (some bytes) bytes.length = some u →
      Reached host rounds allocators (fun _ _ _ => True) u s →
      unpackObjectImpl host rounds allocators fuel key s = .ok (r, s') →
      s'.stack = s.stack ∧ s'.lastObjectNum = none := by
  intro h
  have hs := h .little 6 [([0x42], plainAlloc)] refStream _ (unpackingOf refUnpacker 0) _ 1 0 none
    rfl (.parsed 0 process_refStream) rfl
  exact absurd hs.1 (by decide)

end Runs

end LcClibs.Pack.Balance
