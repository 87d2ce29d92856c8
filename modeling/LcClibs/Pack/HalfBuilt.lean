import Mathlib
import LcClibs.Mmo.Unfinished
import LcClibs.Pack.Invariants

namespace LcClibs.Pack.HalfBuilt

open Platform Lib Lib.Runs Buffer.VarInt Mmo.Object Mmo.Casting Mmo.Kinds
open Mmo.Lifecycle (World Impl Act)
open Mmo.Unfinished
open Pack.Records Pack.Process Pack.Contents Pack.Unpacker Pack.Balance Pack.Invariants

section Keeping

variable {H : Type} {host : Host} {rounds : Nat} {s s' s'' : Unpacking H}

/-- The table has a reference under the number, to an object that was built or to null. -/
def RefersTo (num : Int) (object : Option Addr) (s : Unpacking H) : Prop :=
  ∃ n, Table.find Prod.fst num s.objects = some (n, Entry.reference object)

/-- The stream is parsed, and the number kept for later still has its properties. -/
def Settled (s : Unpacking H) : Prop :=
  Parsed s ∧ ∀ num, s.lastObjectNum = some num →
    ∃ n map, Table.find Prod.fst num s.objects = some (n, Entry.props map)

def Keeps (s s' : Unpacking H) : Prop :=
  Settled s → Settled s' ∧ ∀ num object, RefersTo num object s → RefersTo num object s'

theorem Keeps.refl (s : Unpacking H) : Keeps s s := fun hs => ⟨hs, fun _ _ => id⟩

theorem Keeps.trans (h : Keeps s s') (h' : Keeps s' s'') : Keeps s s'' := by
  intro hs
  obtain ⟨hs1, h1⟩ := h hs
  obtain ⟨hs2, h2⟩ := h' hs1
  exact ⟨hs2, fun num object hr => h2 num object (h1 num object hr)⟩

theorem Keeps.aside (s : Unpacking H) (stack : List Addr) (heap : H) :
    Keeps s { s with stack := stack, heap := heap } :=
  fun hs => ⟨hs, fun _ _ => id⟩

/-- What is known of the states after a given one, as an invariant. -/
def Since (s0 s : Unpacking H) : Prop :=
  Settled s ∧ ∀ num object, RefersTo num object s0 → RefersTo num object s

theorem since_lasting (host : Host) (rounds : Nat) (s0 : Unpacking H) :
    Lasting host rounds (Since s0) fun _ => True where
  parsed s hs := hs.1.1
  stack s st hs := hs
  drop s hs := ⟨⟨hs.1.1, fun num h => by cases h⟩, hs.2⟩
  register s num object hs hnum := by
    -- the reference takes the place of properties, so that no other one goes
    refine ⟨⟨hs.1.1, fun num h => by cases h⟩, fun num' object' hr => ?_⟩
    obtain ⟨n, hn⟩ := hs.2 num' object' hr
    refine ⟨n, ?_⟩
    have hne : num ≠ num' := by
      intro he
      obtain ⟨n', map, hp⟩ := hs.1.2 num hnum
      rw [he, hn] at hp
      cases hp
    exact (Table.find_put_ne hne s.objects).trans hn
  entering s key num map name hs hf := by
    obtain ⟨n, hn⟩ := findObject_entry hf
    refine ⟨⟨hs.1.1, fun num' h => ?_⟩, hs.2⟩
    cases h
    exact ⟨n, map, hn⟩
  data s key d s' hs h := trivial

theorem since_tame (s0 : Unpacking H) (init : Init H) : Tame (Since s0) (fun _ => True) init :=
  tame_of_aside (fun _ _ hs => hs) init

theorem since_tameAlloc (s0 : Unpacking H) (cls : Alloc H) :
    TameAlloc (Since s0) (fun _ => True) cls :=
  ⟨fun _ hs => hs, fun _ _ init _ stru => since_tame s0 (init stru)⟩

theorem keeps_of_keeping {α : Type} {x : UnpackM H α} {a : α}
    (hx : ∀ s0 : Unpacking H, Keeping (Since s0) x) (h : x s = .ok (a, s')) : Keeps s s' :=
  fun hs => hx s s a s' ⟨hs, fun _ _ => id⟩ h

theorem Keeps.register {num : Int} (hnum : s.lastObjectNum = some num) (object : Option Addr) :
    Keeps s { s with
      objects := Table.put Prod.fst (num, Entry.reference object) s.objects
      lastObjectNum := none } :=
  fun hs => (since_lasting .little 0 s).register s num object ⟨hs, fun _ _ => id⟩ hnum

theorem Keeps.entering {key : Nat} {num : Int} {map : Addr} {name : List UInt8}
    (hf : findObject host key s = .ok (.props num map name, s)) (heap : H) :
    Keeps s (entering num map heap s) :=
  fun hs => (since_lasting host 0 s).entering s key num map name ⟨hs, fun _ _ => id⟩ hf

theorem unpackNextContextImpl_keeps {name : List UInt8} {obj : Except Stop (Option Addr)}
    (h : unpackNextContextImpl host rounds name obj s = .ok ((), s')) : Keeps s s' :=
  keeps_of_keeping (fun s0 => (since_lasting host rounds s0).unpackNextContextImpl name obj) h

theorem leaveObject_keeps {cls : Alloc H} {ooo r : Option Addr}
    (h : leaveObject cls ooo s = .ok (r, s')) : Keeps s s' :=
  keeps_of_keeping (fun s0 => (since_lasting .little 0 s0).leaveObject cls ooo) h

theorem unpackObjectImpl_keeping (allocators : Allocators H) (fuel : Nat) (s0 : Unpacking H)
    (key : Nat) : Keeping (Since s0) (unpackObjectImpl host rounds allocators fuel key) :=
  (since_lasting host rounds s0).unpackObjectImpl (fun e _ => since_tameAlloc s0 e.2) fuel key

end Keeping

section Failing

variable {H : Type} (host : Host) (rounds : Nat) (allocators : Allocators H)

/-- The init function of level `k` gives null, after those below it have passed. -/
inductive StopsAt (unpackObject : Nat → UnpackM H (Option Addr)) (stru : Addr) :
    List (List UInt8) → List (List UInt8 × Option (Addr → Init H)) → Unpacking H → Nat →
      Unpacking H → Prop
  | plain {name : List UInt8} {made : List (List UInt8)}
    {levels : List (List UInt8 × Option (Addr → Init H))} {s s' : Unpacking H} {k : Nat} :
    StopsAt unpackObject stru (name :: made) levels s k s' →
    StopsAt unpackObject stru made ((name, none) :: levels) s (k + 1) s'
  | here {name : List UInt8} {init : Addr → Init H} {made : List (List UInt8)}
    {levels : List (List UInt8 × Option (Addr → Init H))} {s s1 s' : Unpacking H} :
    unpackNextContextImpl host rounds name (toMMObject (name :: made) levels.isEmpty stru) s =
      .ok ((), s1) →
    runInit host rounds unpackObject (init stru) s1 = .ok (false, s') →
    StopsAt unpackObject stru made ((name, some init) :: levels) s 0 s'
  | passed {name : List UInt8} {init : Addr → Init H} {made : List (List UInt8)}
    {levels : List (List UInt8 × Option (Addr → Init H))} {s s1 s2 s' : Unpacking H} {k : Nat} :
    unpackNextContextImpl host rounds name (toMMObject (name :: made) levels.isEmpty stru) s =
      .ok ((), s1) →
    runInit host rounds unpackObject (init stru) s1 = .ok (true, s2) →
    StopsAt unpackObject stru (name :: made) levels s2 k s' →
    StopsAt unpackObject stru made ((name, some init) :: levels) s (k + 1) s'

def Refers (key : Nat) (num : Int) (s : Unpacking H) : Prop :=
  ∃ a, getByIntFromStack host key s = .ok (some a, s) ∧ s.store[a]? = some (.int num)

/-- A call of `unpack_mmobj` that ends with null because the init function of level `k` in the
chain of `cls` did, from the state `s` to the state `s'`. -/
structure Fails (num : Int) (cls : Alloc H) (k fuel key : Nat) (s s' : Unpacking H) : Prop where
  run : ∃ map name n s1,
    findObject host key s = .ok (.props num map name, s) ∧
    Table.find Prod.fst name allocators = some (n, cls) ∧
    StopsAt host rounds (unpackObjectImpl host rounds allocators fuel) (cls.blank s.heap).1 []
      cls.levels (entering num map (cls.blank s.heap).2 s) k s1 ∧
    unpackObjectImpl host rounds allocators (fuel + 1) key s = .ok (none, s')

/-- The states after the calls that can follow, of the code that owns the unpacker and of the
init functions. -/
inductive Later (s : Unpacking H) : Unpacking H → Prop
  | refl : Later s s
  | object {s1 s2 : Unpacking H} {fuel key : Nat} {r : Option Addr} : Later s s1 →
    unpackObjectImpl host rounds allocators fuel key s1 = .ok (r, s2) → Later s s2
  | array {s1 s2 : Unpacking H} {key n : Nat} : Later s s1 →
    unpackArrayImpl host rounds key s1 = .ok (n, s2) → Later s s2
  | arrayEnd {s1 s2 : Unpacking H} : Later s s1 →
    unpackArrayEndImpl host rounds s1 = .ok ((), s2) → Later s s2
  | enter {s1 : Unpacking H} {key : Nat} {num : Int} {map : Addr} {name : List UInt8} (heap : H) :
    Later s s1 → findObject host key s1 = .ok (.props num map name, s1) →
    Later s (entering num map heap s1)
  | nextContext {s1 s2 : Unpacking H} {obj : Except Stop (Option Addr)} {level : List UInt8} :
    Later s s1 → unpackNextContextImpl host rounds level obj s1 = .ok ((), s2) → Later s s2
  | leave {s1 s2 : Unpacking H} {cls : Alloc H} {ooo r : Option Addr} : Later s s1 →
    leaveObject cls ooo s1 = .ok (r, s2) → Later s s2
  | memory {s1 : Unpacking H} (heap : H) : Later s s1 → Later s { s1 with heap := heap }

/-- The states of a run on a stream, whatever `process` answers. -/
def Reached (bytes : List UInt8) (s : Unpacking H) : Prop :=
  ∃ u answer u' heap, allocMMUnpackerWithData (some bytes) bytes.length = some u ∧
    process host rounds u = .ok (answer, u') ∧
    Later host rounds allocators (unpackingOf u' heap) s

variable {host rounds allocators} {s s' : Unpacking H}
  {unpackObject : Nat → UnpackM H (Option Addr)}

theorem StopsAt.initLevels {stru : Addr} {made : List (List UInt8)}
    {levels : List (List UInt8 × Option (Addr → Init H))} {k : Nat}
    (h : StopsAt host rounds unpackObject stru made levels s k s') :
    initLevels host rounds unpackObject stru made levels s = .ok (none, s') := by
  induction h with
  | plain _ ih => exact ih
  | here h1 h2 => exact step_eq_ok.mpr ⟨_, _, h1, step_eq_ok.mpr ⟨_, _, h2, rfl⟩⟩
  | passed h1 h2 _ ih => exact step_eq_ok.mpr ⟨_, _, h1, step_eq_ok.mpr ⟨_, _, h2, ih⟩⟩

theorem Later.keeps (h : Later host rounds allocators s s') : Keeps s s' := by
  induction h with
  | refl => exact Keeps.refl s
  | @object s1 s2 fuel key r _ h ih =>
    exact ih.trans (keeps_of_keeping (fun s0 => unpackObjectImpl_keeping allocators fuel s0 key) h)
  | @array s1 s2 key n _ h ih =>
    exact ih.trans
      (keeps_of_keeping (fun s0 => (since_lasting host rounds s0).unpackArrayImpl key) h)
  | arrayEnd _ h ih =>
    exact ih.trans
      (keeps_of_keeping (fun s0 => (since_lasting host rounds s0).unpackArrayEndImpl) h)
  | enter heap _ h ih => exact ih.trans (Keeps.entering h heap)
  | nextContext _ h ih => exact ih.trans (unpackNextContextImpl_keeps h)
  | leave _ h ih => exact ih.trans (leaveObject_keeps h)
  | @memory s1 heap _ ih => exact ih.trans (Keeps.aside s1 s1.stack heap)

theorem Reached.settled {bytes : List UInt8} (h : Reached host rounds allocators bytes s) :
    Settled s := by
  obtain ⟨u, answer, u', heap, hu, hp, hl⟩ := h
  have hstore : u.store = [] := by
    cases hu
    rfl
  have hstart : Settled (unpackingOf u' heap) :=
    ⟨(process_kinds hstore hp).rooted, fun num h => by cases h⟩
  exact (hl.keeps hstart).1

/-- The object of a chain with these levels, as a reference to it has it. -/
def referred (made : List (List UInt8)) (levels : List (List UInt8 × Option (Addr → Init H)))
    (stru : Addr) : Option Addr :=
  if made.any namesMMObject || levels.any fun l => namesMMObject l.1 then some stru else none

theorem referred_cons (name : List UInt8) (init : Option (Addr → Init H))
    (made : List (List UInt8)) (levels : List (List UInt8 × Option (Addr → Init H)))
    (stru : Addr) :
    referred made ((name, init) :: levels) stru = referred (name :: made) levels stru := by
  rw [referred, referred, List.any_cons, List.any_cons, ← Bool.or_assoc,
    Bool.or_comm (made.any namesMMObject)]

/-- Where the cast of a level does not read a class that is not there yet, it is right. -/
theorem toMMObject_referred {made : List (List UInt8)}
    {levels : List (List UInt8 × Option (Addr → Init H))} {stru : Addr} {object : Option Addr}
    (h : toMMObject made levels.isEmpty stru = .ok object) :
    object = referred made levels stru := by
  rw [toMMObject] at h
  rw [referred]
  cases hm : made.any namesMMObject with
  | true =>
    rw [hm] at h
    cases h
    rfl
  | false =>
    rw [hm] at h
    cases levels with
    | nil =>
      cases h
      rfl
    | cons l levels => cases h

/-- The first context of an object makes the table refer to it. -/
theorem unpackNextContextImpl_refersTo {num : Int} {name : List UInt8}
    {obj : Except Stop (Option Addr)} (hs : Settled s) (hnum : s.lastObjectNum = some num)
    (h : unpackNextContextImpl host rounds name obj s = .ok ((), s')) :
    ∃ object, obj = .ok object ∧ RefersTo num object s' := by
  rw [unpackNextContextImpl, parse_bind hs.1, step_get, hnum] at h
  obtain ⟨_, s1, h1, h2⟩ := step_eq_ok.mp h
  obtain ⟨object, hobj, rfl⟩ := putReference_ok h1
  have hfind := @Table.find_put_self _ _ _ Prod.fst (num, Entry.reference object) s.objects
  have hkeep := keeps_of_keeping (fun s0 => (since_lasting host rounds s0).enterContext name) h2
  exact ⟨object, hobj, (hkeep (Keeps.register hnum object hs).1).2 num object ⟨num, hfind⟩⟩

theorem runInit_keeps (hu : ∀ s0 key, Keeping (Since s0) (unpackObject key)) {init : Init H}
    {ok : Bool} (h : runInit host rounds unpackObject init s = .ok (ok, s')) : Keeps s s' :=
  keeps_of_keeping (fun s0 => (since_lasting host rounds s0).runInit (hu s0) (since_tame s0 init)) h

theorem initLevels_keeps (hu : ∀ s0 key, Keeping (Since s0) (unpackObject key)) {stru : Addr}
    {made : List (List UInt8)} {levels : List (List UInt8 × Option (Addr → Init H))}
    {r : Option Addr} (h : initLevels host rounds unpackObject stru made levels s = .ok (r, s')) :
    Keeps s s' :=
  keeps_of_keeping (fun s0 => (since_lasting host rounds s0).initLevels (hu s0) stru made
    fun _ _ init _ => since_tame s0 (init _)) h

theorem StopsAt.refersTo (hu : ∀ s0 key, Keeping (Since s0) (unpackObject key)) {stru : Addr}
    {num : Int} {made : List (List UInt8)}
    {levels : List (List UInt8 × Option (Addr → Init H))} {k : Nat}
    (h : StopsAt host rounds unpackObject stru made levels s k s') (hs : Settled s)
    (hnum : s.lastObjectNum = some num) : RefersTo num (referred made levels stru) s' := by
  induction h with
  | plain _ ih =>
    rw [referred_cons]
    exact ih hs hnum
  | here h1 h2 =>
    obtain ⟨object, hobj, hr1⟩ := unpackNextContextImpl_refersTo hs hnum h1
    rw [referred_cons, ← toMMObject_referred hobj]
    exact (runInit_keeps hu h2 (unpackNextContextImpl_keeps h1 hs).1).2 num object hr1
  | passed h1 h2 h3 _ =>
    -- the number is left behind, so that the levels above only keep the reference
    obtain ⟨object, hobj, hr1⟩ := unpackNextContextImpl_refersTo hs hnum h1
    rw [referred_cons, ← toMMObject_referred hobj]
    obtain ⟨hs2, hr2⟩ := runInit_keeps hu h2 (unpackNextContextImpl_keeps h1 hs).1
    exact (initLevels_keeps hu h3.initLevels hs2).2 num object (hr2 num object hr1)

theorem unpackObjectWith_registered {key : Nat} {num : Int} {map : Addr} {name n : List UInt8}
    {cls : Alloc H} (hp : Parsed s) (hf : findObject host key s = .ok (.props num map name, s))
    (ha : Table.find Prod.fst name allocators = some (n, cls)) :
    unpackObjectWith host rounds allocators unpackObject key s =
      (initLevels host rounds unpackObject (cls.blank s.heap).1 [] cls.levels >>= leaveObject cls)
        (entering num map (cls.blank s.heap).2 s) := by
  have hne : allocators.isEmpty = false := by
    cases allocators with
    | nil => cases ha
    | cons => rfl
  rw [unpackObjectWith, parse_bind hp, step_ok hf]
  dsimp only [Unpacker.pushItem]
  rw [step_modify, hne, if_neg (by decide), ha]
  rfl

/-- After the failed call the table refers to the object all the same. -/
theorem Fails.refersTo {num : Int} {cls : Alloc H} {k fuel key : Nat} (hs : Settled s)
    (h : Fails host rounds allocators num cls k fuel key s s') :
    (∃ stru, RefersTo num (if cls.isMMObject then some stru else none) s') ∧ Settled s' := by
  obtain ⟨map, name, n, s1, hf, ha, hstop, hnull⟩ := h.run
  have hu : ∀ s0 key, Keeping (Since s0) (unpackObjectImpl host rounds allocators fuel key) :=
    unpackObjectImpl_keeping allocators fuel
  have hs0 := (Keeps.entering hf (cls.blank s.heap).2 hs).1
  have hr1 := hstop.refersTo hu hs0 rfl
  have hs1 := (initLevels_keeps hu hstop.initLevels hs0).1
  have hleave : leaveObject cls none s1 = .ok (none, s') := by
    rw [unpackObjectImpl, unpackObjectWith_registered hs.1 hf ha, step_ok hstop.initLevels]
      at hnull
    exact hnull
  obtain ⟨hs', hr'⟩ := leaveObject_keeps hleave hs1
  exact ⟨⟨_, hr' num _ hr1⟩, hs'⟩

theorem unpackObjectImpl_reference {fuel key : Nat} {num : Int} {object : Option Addr}
    (hp : Parsed s) (hk : Refers host key num s) (hr : RefersTo num object s) :
    unpackObjectImpl host rounds allocators (fuel + 1) key s = .ok (object, s) := by
  obtain ⟨a, ha, hg⟩ := hk
  obtain ⟨n, hn⟩ := hr
  have hfound : findObject host key s = .ok (.reference object, s) := by
    rw [findObject, step_ok ha]
    dsimp only
    rw [step_ok (genAt_some hg)]
    dsimp only
    rw [step_get, hn]
    rfl
  rw [unpackObjectImpl, unpackObjectWith, parse_bind hp, step_ok hfound]
  rfl

end Failing

section Runs

variable {H F : Type} (host : Host) (rounds : Nat) (allocators : Allocators H)

/-- The object that a failed call has begun, as level `k` of its chain finds it: its class is
that of the allocator, its levels down to `x` are there, and nothing was destroyed yet. -/
structure Begun (cls : Alloc H) (k : Nat) (ch x : ClassChain) (mem : Nat) (w : World F) : Prop where
  names : cls.levels.map Prod.fst = (supers ch).map ClassChain.name
  failed : (supers ch)[k]? = some x
  held : Held mem ch.posB x 1 w
  whole : ∀ level, Act.destroy level ∉ w.acts

/-- After a failed unpack of the number, every later one gives null as well, and the object is
destroyed level by level at most once and not at the level that failed. -/
def Withholds (num : Int) (impl : (x : ClassChain) → Impl F x) (mem : Nat) (x : ClassChain)
    (referred : Bool) (before after : List Hold) (w : World F) (s' : Unpacking H) : Prop :=
  (∀ s2, Later host rounds allocators s' s2 → ∀ fuel key r s3, Refers host key num s2 →
    unpackObjectImpl host rounds allocators fuel key s2 = .ok (r, s3) → r = none) ∧
  DestroysOnce impl mem x referred before after w

variable {host rounds allocators} {s s' : Unpacking H}

/-- Whether an object of the class is an `MMObject` is what the search along its levels says. -/
theorem Begun.isStru {cls : Alloc H} {k mem base : Nat} {ch x : ClassChain} {w : World F}
    {obj : Obj F} (h : Begun cls k ch x mem w) (hm : Made ch obj) (hd : DistinctOids ch)
    (hb : base < ch.depth) :
    isStru obj (ch.depth + 1) (cstr "MMObject") (some base) = some cls.isMMObject := by
  obtain ⟨answer, hanswer, -, hiff⟩ := tests_eq hm hd hb (cstr "MMObject")
  have hany : cls.isMMObject = (supers ch).any fun y => namesMMObject y.name := by
    have hmap : (cls.levels.map Prod.fst).any namesMMObject = cls.isMMObject := List.any_map
    have hmap' : ((supers ch).map ClassChain.name).any namesMMObject =
        (supers ch).any fun y => namesMMObject y.name := List.any_map
    rw [← hmap, h.names, hmap']
  have heq : answer = (supers ch).any fun y => namesMMObject y.name := by
    rw [Bool.eq_iff_iff, hiff, List.any_eq_true]
    simp only [namesMMObject, beq_iff_eq]
  rw [hanswer, hany, heq]

theorem getByIntFromStack_same {key : Nat} {r : Option Addr} (hstack : s'.stack = s.stack)
    (hstore : s'.store = s.store) (h : getByIntFromStack host key s = .ok (r, s)) :
    getByIntFromStack host key s' = .ok (r, s') := by
  obtain ⟨a, s1, h1, h2⟩ := step_eq_ok.mp h
  rw [lastItem, step_get] at h1
  cases hs : s.stack with
  | nil =>
    rw [hs] at h1
    cases h1
  | cons b stack =>
    rw [hs] at h1
    cases h1
    obtain ⟨g, s2, h3, h4⟩ := step_eq_ok.mp h2
    have hlast : lastItem s' = .ok (a, s') := by
      rw [lastItem, step_get, hstack, hs]
      rfl
    have hg : s'.store[a]? = some g := by
      rw [hstore]
      exact genAt_ok h3
    rw [getByIntFromStack, step_ok hlast, step_ok (genAt_some hg)]
    cases g with
    | map c items =>
      cases h4
      rfl
    | list items =>
      dsimp only at h4 ⊢
      cases hi : items[key]? with
      | none =>
        rw [hi] at h4
        cases h4
      | some b =>
        rw [hi] at h4
        cases h4
        rfl
    | _ =>
      cases h4
      rfl

/-- In tidy calls the key of the failed one leads to the number as before. -/
theorem Fails.refers {num : Int} {cls : Alloc H} {k fuel key : Nat}
    (h : Fails host rounds allocators num cls k fuel key s s') (hr : Ready s)
    (ht : Tidy host rounds allocators (fuel + 1) key s) : Refers host key num s' := by
  obtain ⟨map, name, n, s1, hf, -, -, hnull⟩ := h.run
  obtain ⟨hstack, -, hs⟩ := tidy_neutral allocators (fuel + 1) key s none s' hr ht hnull
  obtain ⟨⟨a, ha, hg⟩, -⟩ := findObject_found hf
  refine ⟨a, ?_, by rw [hs.store]; exact hg⟩
  exact getByIntFromStack_same hstack hs.store ha

/-- The table keeps a reference to the half-built object: the later unpacks give its `MMObject`,
and with the last owner it is destroyed again. -/
theorem withholds_iff {bytes : List UInt8} {num : Int} {cls : Alloc H}
    {k fuel key owners owners' mem : Nat} {impl : (x : ClassChain) → Impl F x}
    {ch x : ClassChain} {before after : List Hold} {w : World F}
    (hs : Reached host rounds allocators bytes s)
    (hf : Fails host rounds allocators num cls k fuel key s s') (hw : Begun cls k ch x mem w)
    (hb : Gives x.depth (cls.isMMObject.toNat + 1) before (cls.isMMObject.toNat + owners + 1))
    (ha : Gives x.depth (cls.isMMObject.toNat + owners) after owners') :
    (Withholds host rounds allocators num impl mem x cls.isMMObject before after w s' ↔
      (cls.isMMObject = false ∨
        ∀ s2, Later host rounds allocators s' s2 → ∀ key, ¬Refers host key num s2) ∧
      Harmless impl ch x cls.isMMObject owners owners') ∧
    (Ready s → Tidy host rounds allocators (fuel + 1) key s →
      (Withholds host rounds allocators num impl mem x cls.isMMObject before after w s' ↔
        cls.isMMObject = false ∧ Harmless impl ch x cls.isMMObject owners owners')) := by
  obtain ⟨⟨stru, hr⟩, hset⟩ := hf.refersTo hs.settled
  have hgives : ∀ s2, Later host rounds allocators s' s2 → ∀ key, Refers host key num s2 →
      ∀ fuel, unpackObjectImpl host rounds allocators (fuel + 1) key s2 =
        .ok (if cls.isMMObject then some stru else none, s2) := fun s2 hl key hkey fuel =>
    unpackObjectImpl_reference (hl.keeps hset).1.1 hkey ((hl.keeps hset).2 num _ hr)
  have hiff : Withholds host rounds allocators num impl mem x cls.isMMObject before after w s' ↔
      (cls.isMMObject = false ∨
        ∀ s2, Later host rounds allocators s' s2 → ∀ key, ¬Refers host key num s2) ∧
      Harmless impl ch x cls.isMMObject owners owners' := by
    rw [Withholds, destroysOnce_iff hw.held (List.mem_of_getElem? hw.failed) hw.whole hb ha]
    refine and_congr_left fun _ => ⟨fun h => ?_, fun h s2 hl fuel key r s3 hkey hrun => ?_⟩
    · cases hcls : cls.isMMObject with
      | false => exact .inl rfl
      | true =>
        refine .inr fun s2 hl key hkey => ?_
        have hget := hgives s2 hl key hkey 0
        rw [hcls] at hget
        cases h s2 hl 1 key _ s2 hkey hget
    · obtain h | h := h
      · cases fuel with
        | zero => cases hrun
        | succ fuel =>
          rw [hgives s2 hl key hkey fuel, h] at hrun
          cases hrun
          rfl
      · exact absurd hkey (h s2 hl key)
  refine ⟨hiff, fun hready ht => hiff.trans (and_congr_left fun _ => or_iff_left fun h => ?_)⟩
  exact h s' .refl key (hf.refers hready ht)

def failingAlloc : Alloc Nat :=
  ⟨fun heap => (heap, heap + 1),
    [(cstr "MMObject", none), (cstr "A", some fun _ => .done false)]⟩

def failingRoot : Alloc Nat :=
  ⟨fun heap => (heap, heap + 1), [(cstr "A", some fun _ => .done false)]⟩

def failingChain : ClassChain := .sub (.root (cstr "MMObject")) (cstr "A")

def destroying : (x : ClassChain) → Impl Nat x
  | .root _ => ⟨none, true⟩
  | .sub _ _ => ⟨some ⟨[], false⟩, true⟩

def failedUnpacking (object : Option Addr) : Unpacking Nat :=
  unpackingOf { refUnpacker with objects := [(0, .reference object)] } 1

theorem refers_failedUnpacking (object : Option Addr) :
    Refers .little 0 0 (failedUnpacking object) := ⟨1, rfl, rfl⟩

theorem reached_refUnpacker (allocators : Allocators Nat) :
    Reached .little 6 allocators refStream (unpackingOf refUnpacker 0) :=
  ⟨_, true, refUnpacker, 0, rfl, process_refStream, .refl⟩

theorem fails_failingAlloc :
    Fails .little 6 [([0x41], failingAlloc)] 0 failingAlloc 1 0 0 (unpackingOf refUnpacker 0)
      (failedUnpacking (some 0)) :=
  ⟨2, [0x41], [0x41], _, findObject_refStream, rfl, .plain (.here rfl rfl), rfl⟩

theorem fails_failingRoot :
    Fails .little 6 [([0x41], failingRoot)] 0 failingRoot 0 0 0 (unpackingOf refUnpacker 0)
      (failedUnpacking none) :=
  ⟨2, [0x41], [0x41], _, findObject_refStream, rfl, .here rfl rfl, rfl⟩

theorem begun_failingAlloc :
    ∃ w : World Nat, Begun failingAlloc 1 failingChain failingChain 1 w := by
  obtain ⟨hheld, hwhole⟩ := @held_of_inited Nat destroying 1 1 _ Memory.Safety.bumpMalloc ⟨0, 1⟩
    ⟨[], 0, []⟩ _ 184 (.root (cstr "MMObject")) (cstr "A") Memory.Safety.inv_empty rfl rfl
  exact ⟨_, rfl, rfl, hheld, hwhole⟩

theorem begun_failingRoot :
    ∃ w : World Nat, Begun failingRoot 0 (.root (cstr "A")) (.root (cstr "A")) 1 w := by
  have hheld := @held_of_alloc Nat 1 0 Memory.Safety.bumpMalloc ⟨[], 0, []⟩ _ 104 (cstr "A")
    Memory.Safety.inv_empty rfl
  exact ⟨_, rfl, rfl, hheld, fun _ => List.not_mem_nil⟩

/-- On `MMObject` the class gives its half-built object again, on its own it does not. -/
theorem withholds_iff_failing :
    (∃ w, Begun failingAlloc 1 failingChain failingChain 1 w ∧
      ¬Withholds .little 6 [([0x41], failingAlloc)] 0 destroying 1 failingChain
        failingAlloc.isMMObject [] [.release 0] w (failedUnpacking (some 0))) ∧
    ∃ w, Begun failingRoot 0 (.root (cstr "A")) (.root (cstr "A")) 1 w ∧
      Withholds .little 6 [([0x41], failingRoot)] 0 destroying 1 (.root (cstr "A"))
        failingRoot.isMMObject [] [] w (failedUnpacking none) := by
  have hcls : failingAlloc.isMMObject = true := by decide
  have hroot : failingRoot.isMMObject = false := by decide
  obtain ⟨w, hw⟩ := begun_failingAlloc
  obtain ⟨w', hw'⟩ := begun_failingRoot
  refine ⟨⟨w, hw, fun h => ?_⟩, w', hw', ?_⟩
  · have hbefore : Gives failingChain.depth (failingAlloc.isMMObject.toNat + 1) []
        (failingAlloc.isMMObject.toNat + 0 + 1) := .nil _
    have hafter : Gives failingChain.depth (failingAlloc.isMMObject.toNat + 0) [.release 0] 0 := by
      rw [hcls]
      exact .release (by decide) (.nil 0)
    obtain ⟨hno | hno, -⟩ := (withholds_iff (reached_refUnpacker _) fails_failingAlloc hw hbefore
      hafter).1.mp h
    · rw [hcls] at hno
      cases hno
    · exact hno _ .refl 0 (refers_failedUnpacking (some 0))
  · exact (withholds_iff (reached_refUnpacker _) fails_failingRoot hw' (.nil _) (.nil _)).1.mpr
      ⟨.inl hroot, .inl ⟨hroot, rfl⟩⟩

/-- The second unpack gives the object whose init function failed. -/
theorem not_withholds :
    ¬∀ (host : Host) (rounds : Nat) (allocators : Allocators Nat) (bytes : List UInt8)
      (num : Int) (cls : Alloc Nat) (k fuel key owners owners' mem : Nat)
      (impl : (x : ClassChain) → Impl Nat x) (ch x : ClassChain) (before after : List Hold)
      (w : World Nat) (s s' : Unpacking Nat),
      Reached host rounds allocators bytes s →
      Fails host rounds allocators num cls k fuel key s s' → Begun cls k ch x mem w →
      Gives x.depth (cls.isMMObject.toNat + 1) before (cls.isMMObject.toNat + owners + 1) →
      Gives x.depth (cls.isMMObject.toNat + owners) after owners' →
      Withholds host rounds allocators num impl mem x cls.isMMObject before after w s' := by
  intro h
  have hcls : failingAlloc.isMMObject = true := by decide
  obtain ⟨w, hw⟩ := begun_failingAlloc
  have hgone := h .little 6 _ refStream 0 failingAlloc 1 0 0 0 0 1 destroying failingChain
    failingChain [] [.release 0] w _ _ (reached_refUnpacker _) fails_failingAlloc hw
    (by rw [hcls]; exact .nil 2) (by rw [hcls]; exact .release (by decide) (.nil 0))
  cases hgone.1 _ .refl 1 0 (some 0) _ (refers_failedUnpacking (some 0)) rfl

end Runs

end LcClibs.Pack.HalfBuilt
