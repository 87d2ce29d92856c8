import Mathlib
import LcClibs.Memory.Safety
import LcClibs.Mmo.Identity

namespace LcClibs.Mmo.Lifecycle

open Platform Lib Lib.Runs Memory.Managed Memory.Safety Mmo.Casting Mmo.Dispatch Mmo.Kinds
open Mmo.Identity

section Model

/-- `struct mmObj_fn`, which is a block of the pool at `mem`. -/
structure FnEntry (F : Type) where
  mem : Nat
  name : List UInt8
  fn : Option F

/-- `struct mmStruBase`. The destroy function is given by its class. -/
structure StruBase (F : Type) where
  cls : MmClass
  preBase : Nat
  fns : List (FnEntry F)
  destroy : ClassChain

/-- What happens to an object: calls of the functions of its levels, and its end. -/
inductive Act
  | init (level : Nat)
  | destroy (level : Nat)
  | freed
  deriving DecidableEq, Repr

/-- The pool and one object in it, at the addresses `0`, `1` and so on for its levels. -/
structure World (F : Type) where
  pool : Pool
  levels : List (StruBase F)
  acts : List Act

variable {F : Type}

def World.note (w : World F) (act : Act) : World F := { w with acts := w.acts ++ [act] }

def World.setLevel (w : World F) (base : Nat) (b : StruBase F) : World F :=
  { w with levels := w.levels.set base b }

/-- An init function sets functions on its object and succeeds or returns null. -/
structure Init (F : Type) (x : ClassChain) where
  calls : List (SetCall x.depth F)
  succeeds : Bool

/-- The functions a class is defined with, which may be null. -/
structure Impl (F : Type) (x : ClassChain) where
  init : Option (Init F x)
  destroy : Bool

variable (malloc : Malloc) (sizeOf : List UInt8 → Nat) (fns : RootFns F)
  (impl : (x : ClassChain) → Impl F x)

def fnSize : Nat := 72

/-- `__set_function_for_mmobj`. A new entry is written without a test for null. -/
def setFunction (w : World F) (base : Nat) (fnTypeName : List UInt8) (fn : Option F) :
    Except Stop (Option F × World F) :=
  match w.levels[base]? with
  | none => .error (.fault .nullDeref)
  | some b =>
    match Table.find FnEntry.name fnTypeName b.fns with
    | some fncb =>
      let fncb' := { fncb with fn := fn }
      .ok (fncb.fn, w.setLevel base { b with fns := Table.put FnEntry.name fncb' b.fns })
    | none => do
      let (r, pool) ← mgnMemAlloc malloc w.pool fnSize
      match r with
      | none => .error (.fault .nullDeref)
      | some mem =>
        let fncb := ⟨mem, fnTypeName, fn⟩
        let w := { w with pool := pool }
        return (none, w.setLevel base { b with fns := Table.put FnEntry.name fncb b.fns })

/-- The call of `init_impl`; without an unpacker there is no context to go on to. -/
def runInit (x : ClassChain) (w : World F) : Except Stop (Bool × World F) :=
  match (impl x).init with
  | none => .ok (true, w)
  | some init => do
    let w ← init.calls.foldlM (fun w c => do
      let (_, w) ← setFunction malloc w c.level c.fnTypeName c.fn
      return w) (w.note (.init x.posB))
    return (init.succeeds, w)

def destroyStru : Nat → Nat → World F → Except Stop (World F)
  | 0, _, _ => .error .outOfFuel
  | fuel + 1, base, w =>
    match w.levels[base]? with
    | none => .error (.fault .nullDeref)
    | some b =>
      let w := if (impl b.destroy).destroy then w.note (.destroy b.destroy.posB) else w
      match b.destroy with
      | .root _ => .ok w
      | .sub _ _ => destroyStru fuel b.preBase w

def initStru : ClassChain → Nat → World F → Except Stop (Bool × World F)
  | .root struName, lastChildBase, w => do
    let w := { w with levels :=
      [⟨(ClassChain.root struName).cls, lastChildBase, [], .root struName⟩] }
    let (_, w) ← setFunction malloc w 0 mmobjHash (some fns.hash)
    let (_, w) ← setFunction malloc w 0 mmobjCompare (some fns.compare)
    runInit malloc impl (.root struName) w
  | .sub supName struName, lastChildBase, w => do
    let (ok, w) ← initStru supName lastChildBase w
    if ok then
      let w := { w with levels := w.levels ++
        [⟨(ClassChain.sub supName struName).cls, supName.posB, [], .sub supName struName⟩] }
      let (ok, w) ← runInit malloc impl (.sub supName struName) w
      if ok then return (true, w)
      else
        let w ← destroyStru impl w.levels.length supName.posB w
        return (false, w)
    else return (false, w)

/-- `_mgn_mem_release` of the object, with its release flag set and a callback or null. -/
def releaseObject (mem : Nat) (cb : Option (World F → Except Stop (World F))) (w : World F) :
    Except Stop (World F) :=
  match w.pool.find mem with
  | none => .ok w
  | some x =>
    if x.r = 0 then .ok w
    else do
      let w := { w with
        pool := w.pool.update x.serial fun x => { x with r := x.r - 1, cb := cb.isSome } }
      if x.r - 1 = 0 then
        let w ←
          match cb with
          | some f =>
            f { w with pool := w.pool.note [.callback x.serial (x.serial ∈ w.pool.serials)] }
          | none => pure w
        let pool ← w.pool.free x.serial false
        return { pool := pool, levels := [], acts := w.acts ++ [.freed] }
      else return w

/-- `alloc##stru_name`. The init function writes to the block without a test for null. -/
def allocStru (ch : ClassChain) (pool : Pool) : Except Stop (Option Nat × World F) := do
  let (r, pool) ← mgnMemAlloc malloc pool (structSize sizeOf ch)
  match r with
  | none => .error (.fault .nullDeref)
  | some mem =>
    let (ok, w) ← initStru malloc fns impl ch ch.posB ⟨pool, [], []⟩
    if ok then return (some mem, w)
    else
      let w ← releaseObject mem none w
      return (none, w)

def mgnMemRelease (pool : Pool) (mem : Nat) : Except Stop Pool :=
  mgnMemReleaseImpl (fun _ => []) (pool.retained + 1) mem true false pool

def releaseFns : Nat → Nat → World F → Except Stop (World F)
  | 0, _, _ => .error .outOfFuel
  | fuel + 1, base, w =>
    match w.levels[base]? with
    | none => .error (.fault .nullDeref)
    | some b => do
      let pool ← b.fns.foldlM (fun pool fncb => mgnMemRelease pool fncb.mem) w.pool
      let w := { w with pool := pool }.setLevel base { b with fns := [] }
      if base = 0 then return w else releaseFns fuel b.preBase w

def triggerReleaseMmobj (w : World F) : Except Stop (World F) :=
  match w.levels[0]? with
  | none => .error (.fault .nullDeref)
  | some first => do
    let w ← destroyStru impl w.levels.length first.preBase w
    releaseFns w.levels.length first.preBase w

/-- `__release_mmobj` of a view of the object whose memory is at `mem`. -/
def releaseMmobj (mem view : Nat) (w : World F) : Except Stop (World F) :=
  match w.levels[view]? with
  | none => .error (.fault .nullDeref)
  | some base => releaseObject (mem + base.cls.findObj view) (some (triggerReleaseMmobj impl)) w

def retainMmobj (mem view : Nat) (w : World F) : Except Stop (World F) :=
  match w.levels[view]? with
  | none => .error (.fault .nullDeref)
  | some base =>
    .ok { w with pool := (mgnMemRetain w.pool (mem + base.cls.findObj view)).2 }

end Model

section Spec

variable {F : Type} (malloc : Malloc) (impl : (x : ClassChain) → Impl F x)

/-- The init functions of a class and its super classes, from the root downwards. -/
def initActs (ch : ClassChain) : List Act :=
  ((supers ch).filter fun x => (impl x).init.isSome).map fun x => .init x.posB

def destroyActs (classes : List ClassChain) : List Act :=
  (classes.reverse.filter fun x => (impl x).destroy).map fun x => .destroy x.posB

def fails (x : ClassChain) : Bool := ((impl x).init.map fun init => !init.succeeds).getD false

/-- The first class, from the root on, whose init function returns null. -/
def failing (ch : ClassChain) : Option ClassChain := (supers ch).find? (fails impl)

def Serves (malloc : Malloc) : Prop :=
  (∀ t live size, (malloc.memory t live size).isSome) ∧ ∀ t, malloc.record t = true

/-- The program writes to the null that the allocator answered. -/
def Short (malloc : Malloc) (e : Stop) : Prop := e = .fault .nullDeref ∧ ¬Serves malloc

/-- A step of the program while it has the object: a call through one of its views, or
anything that leaves the object's block as it is. -/
inductive Step (mem : Nat) : World F → World F → Prop
  | retain {w w' : World F} (view : Nat) : retainMmobj mem view w = .ok w' → Step mem w w'
  | release {w w' : World F} (view : Nat) : releaseMmobj impl mem view w = .ok w' → Step mem w w'
  | setFunction {w w' : World F} (view : Nat) (fnTypeName : List UInt8) (fn r : Option F) :
    setFunction malloc w view fnTypeName fn = .ok (r, w') → Step mem w w'
  | elsewhere {w : World F} (pool : Pool) : Inv ∅ pool → pool.find mem = w.pool.find mem →
    Step mem w { w with pool := pool }

/-- The whole life of an object of the class. -/
def lifeActs (ch : ClassChain) : List Act :=
  initActs impl ch ++ destroyActs impl (supers ch) ++ [.freed]

structure Lives (ch : ClassChain) (mem : Nat) (w : World F) : Prop where
  inits : w.acts = initActs impl ch
  acts : ∀ w', Relation.ReflTransGen (Step malloc impl mem) w w' →
    w'.acts = initActs impl ch ∨ w'.acts = lifeActs impl ch
  final : ∀ w' x, Relation.ReflTransGen (Step malloc impl mem) w w' →
    w'.acts = initActs impl ch → w'.pool.find mem = some x → x.r = 1 →
    ∀ view < ch.depth, ∃ w'', releaseMmobj impl mem view w' = .ok w'' ∧
      w''.acts = lifeActs impl ch ∧ x.serial ∉ w''.pool.serials

/-- Allocation stops at the first init function that returns null and destroys the levels
above it; otherwise the object lives. -/
def Allocates (ch : ClassChain) (r : Option Nat × World F) : Prop :=
  match failing impl ch with
  | some x =>
    r.1 = none ∧ r.2.acts = initActs impl x ++ destroyActs impl (supers x).dropLast ++ [.freed]
  | none => ∃ mem, r.1 = some mem ∧ Lives malloc impl ch mem r.2

end Spec

section Levels

variable {F : Type} {impl : (x : ClassChain) → Impl F x} {last k : Nat}
  {levels : List (StruBase F)} {ch x : ClassChain}

/-- The levels of a class and its super classes, whatever functions are set. -/
def Built (last : Nat) (levels : List (StruBase F)) : ClassChain → Prop
  | .root struName => ∃ fns,
    levels[0]? = some ⟨(ClassChain.root struName).cls, last, fns, .root struName⟩
  | .sub supName struName => Built last levels supName ∧ ∃ fns,
    levels[supName.posB + 1]? =
      some ⟨(ClassChain.sub supName struName).cls, supName.posB, fns, .sub supName struName⟩

theorem getElem?_setFns {b b' : StruBase F} (h : levels[k]? = some b)
    (fns : List (FnEntry F)) {base : Nat} (h' : levels[base]? = some b') :
    ∃ fns', (levels.set k { b with fns := fns })[base]? = some { b' with fns := fns' } := by
  by_cases hk : k = base
  · subst hk
    obtain rfl := Option.some.inj (h.symm.trans h')
    exact ⟨fns, List.getElem?_set_self (List.getElem?_eq_some_iff.mp h).1⟩
  · exact ⟨b'.fns, by rw [List.getElem?_set_ne hk, h']⟩

theorem Built.set {b : StruBase F} (h : Built last levels ch) (hk : levels[k]? = some b)
    (fns : List (FnEntry F)) : Built last (levels.set k { b with fns := fns }) ch := by
  induction ch with
  | root struName =>
    obtain ⟨fns', h'⟩ := h
    obtain ⟨fns'', hset⟩ := getElem?_setFns hk fns h'
    exact ⟨fns'', hset⟩
  | sub supName struName ih =>
    obtain ⟨hsup, fns', h'⟩ := h
    obtain ⟨fns'', hset⟩ := getElem?_setFns hk fns h'
    exact ⟨ih hsup, fns'', hset⟩

theorem getElem?_append_some {l : List (StruBase F)} {b : StruBase F} (h : levels[k]? = some b) :
    (levels ++ l)[k]? = some b := by
  rw [List.getElem?_append_left (List.getElem?_eq_some_iff.mp h).1, h]

theorem Built.append (h : Built last levels ch) (l : List (StruBase F)) :
    Built last (levels ++ l) ch := by
  induction ch with
  | root struName =>
    obtain ⟨fns, h⟩ := h
    exact ⟨fns, getElem?_append_some h⟩
  | sub supName struName ih =>
    obtain ⟨hsup, fns, h⟩ := h
    exact ⟨ih hsup, fns, getElem?_append_some h⟩

theorem Built.level (h : Built last levels ch) (hk : k < ch.depth) :
    ∃ b, levels[k]? = some b ∧ b.cls.offset = k ∧ b.preBase = if k = 0 then last else k - 1 := by
  induction ch with
  | root struName =>
    obtain ⟨fns, h⟩ := h
    obtain rfl : k = 0 := Nat.lt_one_iff.mp hk
    exact ⟨_, h, rfl, rfl⟩
  | sub supName struName ih =>
    obtain ⟨hsup, fns, h⟩ := h
    obtain hlt | rfl := Nat.lt_succ_iff_lt_or_eq.mp hk
    · exact ih hsup hlt
    · refine ⟨_, h, rfl, ?_⟩
      rw [ClassChain.posB, if_neg (Nat.succ_ne_zero _), Nat.add_sub_cancel]

theorem supers_sub (supName : ClassChain) (struName : List UInt8) :
    supers (.sub supName struName) = supers supName ++ [ClassChain.sub supName struName] := rfl

theorem initActs_sub (supName : ClassChain) (struName : List UInt8) :
    initActs impl (.sub supName struName) = initActs impl supName ++
      if (impl (.sub supName struName)).init.isSome then [.init (supName.posB + 1)] else [] := by
  rw [initActs, supers_sub, List.filter_append, List.map_append]
  congr 1
  cases h : (impl (.sub supName struName)).init <;> simp [h, ClassChain.posB]

theorem destroyActs_concat (l : List ClassChain) (x : ClassChain) :
    destroyActs impl (l ++ [x]) =
      (if (impl x).destroy then [.destroy x.posB] else []) ++ destroyActs impl l := by
  rw [destroyActs, List.reverse_append, List.reverse_singleton, List.singleton_append,
    List.filter_cons]
  cases h : (impl x).destroy <;> simp [destroyActs]

theorem failing_root (struName : List UInt8) : failing impl (.root struName) =
    if fails impl (.root struName) then some (.root struName) else none := by
  rw [failing, supers, List.find?_singleton]

theorem failing_sub (supName : ClassChain) (struName : List UInt8) :
    failing impl (.sub supName struName) = (failing impl supName).or
      (if fails impl (.sub supName struName) then some (.sub supName struName) else none) := by
  rw [failing, supers_sub, List.find?_append, failing, List.find?_singleton]

/-- The destroy functions run from the class down to the root, each once. -/
theorem destroyStru_built {w : World F} (h : Built last w.levels x) (fuel : Nat)
    (hfuel : x.posB < fuel) : destroyStru impl fuel x.posB w =
      .ok { w with acts := w.acts ++ destroyActs impl (supers x) } := by
  induction x generalizing w fuel with
  | root struName =>
    obtain ⟨fns, h⟩ := h
    obtain ⟨fuel, rfl⟩ : ∃ m, fuel = m + 1 := ⟨fuel - 1, by omega⟩
    have hacts : destroyActs impl ([] ++ [.root struName]) = _ := destroyActs_concat _ _
    rw [List.nil_append] at hacts
    rw [ClassChain.posB, destroyStru, h, supers, hacts]
    cases hd : (impl (.root struName)).destroy <;> simp [hd, World.note, destroyActs]
  | sub supName struName ih =>
    obtain ⟨hsup, fns, h⟩ := h
    obtain ⟨fuel, rfl⟩ : ∃ m, fuel = m + 1 := ⟨fuel - 1, by omega⟩
    have hlt : supName.posB < fuel := by
      rw [ClassChain.posB] at hfuel
      omega
    rw [ClassChain.posB, destroyStru, h, supers_sub, destroyActs_concat]
    cases hd : (impl (.sub supName struName)).destroy with
    | false => simp [hd, ih hsup fuel hlt]
    | true =>
      have hnote : Built last (w.note (.destroy (supName.posB + 1))).levels supName := hsup
      have hrest := ih hnote fuel hlt
      simp only [World.note] at hrest
      simp [hd, World.note, ClassChain.posB, hrest]

end Levels

section Allocation

variable {F : Type} {malloc : Malloc} {sizeOf : List UInt8 → Nat} {fns : RootFns F}
  {impl : (x : ClassChain) → Impl F x} {pool : Pool} {w w' w'' : World F} {last base : Nat}

theorem alloc_cases (malloc : Malloc) (h : Inv ∅ pool) {size : Nat} (hs : size ≠ 0) :
    (∃ p, mgnMemAlloc malloc pool size = .ok (none, p) ∧ ¬Serves malloc) ∨
    ∃ a bytes p, mgnMemAlloc malloc pool size = .ok (some a, p) ∧ Inv ∅ p ∧ a ∉ pool.live ∧
      p.records = pool.records ++ [newRecord pool.clock a size bytes] := by
  obtain ⟨⟨r, p⟩, hrun, hinv⟩ : ∃ r, mgnMemAlloc malloc pool size = .ok r ∧ Inv ∅ r.2 :=
    mgnMemAlloc_inv size h
  obtain ⟨rfl, hno⟩ | ⟨a, bytes, rfl, -, hlive, hrec⟩ := mgnMemAlloc_cases h hrun
  · refine Or.inl ⟨p, hrun, fun hserves => ?_⟩
    obtain h0 | hr | hm := hno
    · exact hs h0
    · rw [hserves.2] at hr
      cases hr
    · have hsome := hserves.1 pool.clock pool.live (uint size)
      rw [hm] at hsome
      cases hsome
  · exact Or.inr ⟨a, bytes, p, hrun, hinv, hlive, hrec⟩

def IsEntry (e : Record) : Prop := e.r = 1 ∧ e.s = fnSize

structure Later (pool pool' : Pool) : Prop where
  inv : Inv ∅ pool'
  records : ∃ es, pool'.records = pool.records ++ es ∧ ∀ e ∈ es, IsEntry e

theorem Later.refl (h : Inv ∅ pool) : Later pool pool :=
  ⟨h, [], (List.append_nil _).symm, fun _ he => absurd he List.not_mem_nil⟩

theorem Later.trans {p p' : Pool} (h : Later pool p) (h' : Later p p') : Later pool p' := by
  obtain ⟨es, hes, he⟩ := h.records
  obtain ⟨es', hes', he'⟩ := h'.records
  exact ⟨h'.inv, es ++ es', by rw [hes', hes, List.append_assoc],
    fun e hmem => (List.mem_append.mp hmem).elim (he e) (he' e)⟩

theorem setFunction_meets {b : StruBase F} (h : Inv ∅ w.pool) (hb : w.levels[base]? = some b)
    (fnTypeName : List UInt8) (fn : Option F) :
    Meets (Short malloc) (fun r => Later w.pool r.2.pool ∧ r.2.acts = w.acts ∧
      ∃ fns, r.2.levels = w.levels.set base { b with fns := fns })
      (setFunction malloc w base fnTypeName fn) := by
  unfold setFunction
  simp only [hb]
  cases Table.find FnEntry.name fnTypeName b.fns with
  | some fncb => exact ⟨Later.refl h, rfl, _, rfl⟩
  | none =>
    obtain ⟨p, hrun, hno⟩ | ⟨a, bytes, p, hrun, hinv, -, hrec⟩ :=
      alloc_cases malloc h (by decide : fnSize ≠ 0)
    · simp only [bind_ok hrun]
      exact ⟨rfl, hno⟩
    · simp only [bind_ok hrun]
      refine ⟨⟨hinv, _, hrec, fun e he => ?_⟩, rfl, _, rfl⟩
      rw [List.mem_singleton.mp he]
      exact ⟨rfl, rfl⟩

theorem setFunction_first {b : StruBase F} (h : Inv ∅ w.pool) (hb : w.levels[base]? = some b)
    (hf : b.fns = []) (fnTypeName : List UInt8) (fn : Option F) :
    Meets (Short malloc) (fun r => Inv ∅ r.2.pool ∧ r.2.acts = w.acts ∧
      (∃ fns, r.2.levels = w.levels.set base { b with fns := fns }) ∧
      ∃ e, IsEntry e ∧ r.2.pool.records = w.pool.records ++ [e])
      (setFunction malloc w base fnTypeName fn) := by
  unfold setFunction
  simp only [hb, hf, Table.find_nil]
  obtain ⟨p, hrun, hno⟩ | ⟨a, bytes, p, hrun, hinv, -, hrec⟩ :=
    alloc_cases malloc h (by decide : fnSize ≠ 0)
  · simp only [bind_ok hrun]
    exact ⟨rfl, hno⟩
  · simp only [bind_ok hrun]
    exact ⟨hinv, rfl, ⟨_, rfl⟩, _, ⟨rfl, rfl⟩, hrec⟩

/-- The levels down to a class are initialised but for its init function. -/
structure Ready (last : Nat) (x : ClassChain) (w : World F) : Prop where
  inv : Inv ∅ w.pool
  built : Built last w.levels x
  length_eq : w.levels.length = x.depth

theorem Ready.setFunction {x : ClassChain} (h : Ready last x w) (base : Fin x.depth)
    (fnTypeName : List UInt8) (fn : Option F) :
    Meets (Short malloc) (fun r => Later w.pool r.2.pool ∧ r.2.acts = w.acts ∧ Ready last x r.2)
      (setFunction malloc w base fnTypeName fn) := by
  obtain ⟨b, hb, -, -⟩ := h.built.level base.isLt
  refine (setFunction_meets h.inv hb fnTypeName fn).imp fun r ⟨hl, ha, fns, hlevels⟩ =>
    ⟨hl, ha, hl.inv, ?_, ?_⟩
  · rw [hlevels]
    exact h.built.set hb fns
  · rw [hlevels, List.length_set]
    exact h.length_eq

theorem runInit_meets {x : ClassChain} (h : Ready last x w) :
    Meets (Short malloc) (fun r => r.1 = !fails impl x ∧ Later w.pool r.2.pool ∧ Ready last x r.2 ∧
      r.2.acts = w.acts ++ if (impl x).init.isSome then [.init x.posB] else [])
      (runInit malloc impl x w) := by
  unfold runInit fails
  cases (impl x).init with
  | none => exact ⟨rfl, Later.refl h.inv, h, (List.append_nil _).symm⟩
  | some init =>
    have hnote : Ready last x (w.note (.init x.posB)) := ⟨h.inv, h.built, h.length_eq⟩
    refine Meets.bind (P := fun w' => Later w.pool w'.pool ∧ Ready last x w' ∧
      w'.acts = w.acts ++ [.init x.posB]) ?_ fun w' ⟨hl, hr, ha⟩ => ⟨by simp, hl, hr, ha⟩
    refine Meets.foldlM (R := fun _ w' => Later w.pool w'.pool ∧ Ready last x w' ∧
      w'.acts = w.acts ++ [.init x.posB]) (fun c l w' ⟨hl, hr, ha⟩ => ?_)
      ⟨Later.refl h.inv, hnote, rfl⟩
    exact (hr.setFunction c.level c.fnTypeName c.fn).bind fun r ⟨hl', ha', hr'⟩ =>
      ⟨hl.trans hl', hr', ha'.trans ha⟩

/-- What an initialisation leaves: the levels, or the part that was initialised destroyed. -/
structure Inited (impl : (x : ClassChain) → Impl F x) (last : Nat) (ch : ClassChain)
    (w : World F) (r : Bool × World F) : Prop where
  inv : Inv ∅ r.2.pool
  entries : ∃ es, es ≠ [] ∧ (∀ e ∈ es, IsEntry e) ∧ r.2.pool.records = w.pool.records ++ es
  succeeded : failing impl ch = none → r.1 = true ∧ Ready last ch r.2 ∧
    r.2.acts = w.acts ++ initActs impl ch
  failed : ∀ x, failing impl ch = some x → r.1 = false ∧
    r.2.acts = w.acts ++ (initActs impl x ++ destroyActs impl (supers x).dropLast)

theorem setFunction_root (struName : List UInt8) (h : Inv ∅ w.pool) (fnTypeName : List UInt8)
    (fn : Option F) :
    Meets (Short malloc) (fun r => r.2.acts = w.acts ∧ Ready last (.root struName) r.2 ∧
      ∃ e, IsEntry e ∧ r.2.pool.records = w.pool.records ++ [e])
      (setFunction malloc { w with levels :=
        [⟨(ClassChain.root struName).cls, last, [], .root struName⟩] } 0 fnTypeName fn) := by
  have hset := @setFunction_first F malloc { w with levels :=
    [⟨(ClassChain.root struName).cls, last, [], .root struName⟩] } 0 _ h rfl rfl fnTypeName fn
  refine hset.imp fun r ⟨hinv, hacts, ⟨fs, hlevels⟩, hentry⟩ =>
    ⟨hacts, ⟨hinv, ⟨fs, ?_⟩, ?_⟩, hentry⟩
  · rw [hlevels]
    rfl
  · rw [hlevels]
    rfl

theorem initStru_root_meets (struName : List UInt8) (h : Inv ∅ w.pool) :
    Meets (Short malloc) (Inited impl last (.root struName) w)
      (initStru malloc fns impl (.root struName) last w) := by
  unfold initStru
  refine (setFunction_root struName h mmobjHash (some fns.hash)).bind fun r1 h1 => ?_
  obtain ⟨ha1, hready1, e, he, hrec⟩ := h1
  refine (hready1.setFunction ⟨0, Nat.one_pos⟩ mmobjCompare (some fns.compare)).bind
    fun r2 ⟨hl2, ha2, hready2⟩ => ?_
  refine (runInit_meets hready2).imp fun r3 ⟨hok, hl3, hready3, ha3⟩ => ?_
  obtain ⟨es, hes, hentry⟩ := (hl2.trans hl3).records
  have hacts : r3.2.acts = w.acts ++ initActs impl (.root struName) := by
    rw [ha3, ha2, ha1, initActs, supers]
    cases hi : (impl (.root struName)).init <;> simp [hi, ClassChain.posB]
  refine ⟨hl3.inv, ⟨e :: es, List.cons_ne_nil e es, ?_, ?_⟩, fun hf => ?_, fun x hf => ?_⟩
  · rintro e' (_ | ⟨_, hmem⟩)
    · exact he
    · exact hentry e' hmem
  · rw [hes, hrec, List.append_assoc]
    rfl
  · rw [failing_root] at hf
    cases hfail : fails impl (.root struName) with
    | true => simp [hfail] at hf
    | false => exact ⟨by rw [hok, hfail]; rfl, hready3, hacts⟩
  · rw [failing_root] at hf
    cases hfail : fails impl (.root struName) with
    | false => simp [hfail] at hf
    | true =>
      obtain rfl : .root struName = x := by simpa [hfail] using hf
      refine ⟨by rw [hok, hfail]; rfl, ?_⟩
      rw [hacts]
      exact congrArg _ (List.append_nil _).symm

theorem Ready.sub {supName : ClassChain} (h : Ready last supName w) (struName : List UInt8) :
    Ready last (.sub supName struName) { w with levels := w.levels ++
      [⟨(ClassChain.sub supName struName).cls, supName.posB, [], .sub supName struName⟩] } := by
  have hlen : w.levels.length = supName.posB + 1 := h.length_eq
  refine ⟨h.inv, ⟨h.built.append _, [], ?_⟩, ?_⟩
  · rw [← hlen]
    exact List.getElem?_concat_length
  · rw [List.length_append, hlen]
    rfl

theorem Inited.super_failed {supName y : ClassChain} {r : Bool × World F} (struName : List UInt8)
    (h : Inited impl last supName w r) (hf : failing impl supName = some y) :
    Inited impl last (.sub supName struName) w (false, r.2) := by
  have hwhole : failing impl (.sub supName struName) = some y := by
    rw [failing_sub, hf]
    rfl
  refine ⟨h.inv, h.entries, fun hnone => ?_, fun x hx => ?_⟩
  · rw [hwhole] at hnone
    cases hnone
  · rw [hwhole] at hx
    obtain rfl := Option.some.inj hx
    exact ⟨rfl, (h.failed y hf).2⟩

theorem initStru_sub_meets {supName : ClassChain} {r : Bool × World F} (struName : List UInt8)
    (h : Inited impl last supName w r) (hf : failing impl supName = none) :
    Meets (Short malloc) (Inited impl last (.sub supName struName) w) (do
      let (ok, w) ← runInit malloc impl (.sub supName struName) { r.2 with levels := r.2.levels ++
        [⟨(ClassChain.sub supName struName).cls, supName.posB, [], .sub supName struName⟩] }
      if ok then return (true, w)
      else
        let w ← destroyStru impl w.levels.length supName.posB w
        return (false, w)) := by
  obtain ⟨htrue, hready, hacts⟩ := h.succeeded hf
  obtain ⟨es, hne, he, hrec⟩ := h.entries
  have hwhole : failing impl (.sub supName struName) =
      if fails impl (.sub supName struName) then some (.sub supName struName) else none := by
    rw [failing_sub, hf, Option.none_or]
  refine (runInit_meets (hready.sub struName)).bind fun r' ⟨hok, hl, hr', ha⟩ => ?_
  obtain ⟨es', hes', he'⟩ := hl.records
  have hentry : ∃ es, es ≠ [] ∧ (∀ e ∈ es, IsEntry e) ∧
      r'.2.pool.records = w.pool.records ++ es := by
    refine ⟨es ++ es', by simp [hne],
      fun e hmem => (List.mem_append.mp hmem).elim (he e) (he' e), ?_⟩
    rw [hes', hrec, List.append_assoc]
  have hacts' : r'.2.acts = w.acts ++ initActs impl (.sub supName struName) := by
    rw [ha, hacts, initActs_sub, List.append_assoc]
    rfl
  cases hfail : fails impl (.sub supName struName) with
  | false =>
    rw [hfail, if_neg Bool.false_ne_true] at hwhole
    simp only [hok, hfail, Bool.not_false, if_true]
    refine ⟨hl.inv, hentry, fun _ => ⟨rfl, hr', hacts'⟩, fun x hx => ?_⟩
    rw [hwhole] at hx
    cases hx
  | true =>
    rw [hfail, if_pos rfl] at hwhole
    simp only [hok, hfail, Bool.not_true, Bool.false_eq_true, if_false]
    have hlt : supName.posB < r'.2.levels.length := by
      rw [hr'.length_eq, ClassChain.depth, ClassChain.posB]
      omega
    rw [destroyStru_built hr'.built.1 _ hlt]
    refine ⟨hl.inv, hentry, fun hnone => ?_, fun x hx => ?_⟩
    · rw [hwhole] at hnone
      cases hnone
    · rw [hwhole] at hx
      obtain rfl := Option.some.inj hx
      refine ⟨rfl, ?_⟩
      rw [supers_sub, List.dropLast_concat, ← List.append_assoc, ← hacts']

theorem initStru_meets (ch : ClassChain) (h : Inv ∅ w.pool) :
    Meets (Short malloc) (Inited impl last ch w) (initStru malloc fns impl ch last w) := by
  induction ch with
  | root struName => exact initStru_root_meets struName h
  | sub supName struName ih =>
    unfold initStru
    refine ih.bind fun r hr => ?_
    cases hf : failing impl supName with
    | some y =>
      simp only [(hr.failed y hf).1, Bool.false_eq_true, if_false]
      exact hr.super_failed struName hf
    | none =>
      simp only [(hr.succeeded hf).1, if_true]
      exact initStru_sub_meets struName hr hf

end Allocation

section End

variable {F : Type} {impl : (x : ClassChain) → Impl F x} {D : Set Nat} {pool p : Pool}
  {w : World F} {ch : ClassChain} {x : Record}

theorem free_last (h : Inv (insert x.serial ∅) p) :
    ∃ p', p.free x.serial false = .ok p' ∧ Inv ∅ p' ∧ p'.records = (p.delete x.serial).records := by
  obtain ⟨y, hy, hys, h0⟩ := h.dying x.serial (Or.inl rfl)
  obtain ⟨p', hfree, hinv, hrec⟩ := h.free hy fun _ => h0
  rw [hys] at hfree hinv hrec
  rw [Set.insert_sdiff_self_of_notMem (Set.notMem_empty _)] at hinv
  exact ⟨p', hfree, hinv, hrec⟩

theorem notMem_serials_delete {p' : Pool} (h : p'.records = (p.delete x.serial).records) :
    x.serial ∉ p'.serials := by
  rw [Pool.serials, h]
  exact fun hmem => (mem_serials_delete.mp hmem).2 rfl

theorem delete_update {f : Record → Record} {n : Nat} (hs : ∀ y, (f y).serial = y.serial) :
    ((p.update n f).delete n).records = (p.delete n).records := by
  simp only [Pool.delete, Pool.update]
  induction p.records with
  | nil => rfl
  | cons y l ih =>
    rw [List.map_cons, List.filter_cons, List.filter_cons, ih]
    by_cases hy : y.serial = n
    · simp [hy, hs]
    · simp [hy]

theorem releaseObject_none (h : Inv ∅ w.pool) (hx : x ∈ w.pool.records) (h1 : x.r = 1) :
    ∃ pool', releaseObject x.m none w = .ok ⟨pool', [], w.acts ++ [.freed]⟩ ∧
      pool'.records = (w.pool.delete x.serial).records := by
  have hinv : Inv ∅ (w.pool.update x.serial fun y => { y with r := y.r - 1, cb := false }) :=
    h.update (fun _ => rfl) (fun _ => rfl) (Set.notMem_empty _)
  have hx1 : ({ x with r := x.r - 1, cb := false } : Record) ∈ (w.pool.update x.serial
      fun y => { y with r := y.r - 1, cb := false }).records := mem_update hx rfl
  obtain ⟨p', hfree, -, hrec⟩ := free_last (hinv.enter hx1 (by rw [h1]))
  refine ⟨p', ?_, ?_⟩
  · unfold releaseObject
    simp only [h.find_of_mem hx, h1, Nat.one_ne_zero, if_false, Nat.sub_self, if_true]
    exact bind_ok hfree
  · exact hrec.trans (delete_update fun _ => rfl)

theorem releaseFns_ok {last : Nat} {y : ClassChain} (h : Inv D w.pool)
    (hb : Built last w.levels y) (fuel : Nat) (hfuel : y.posB < fuel) :
    ∃ w', releaseFns fuel y.posB w = .ok w' ∧ Inv D w'.pool ∧ w'.acts = w.acts := by
  have hfns : ∀ (p : Pool) (l : List (FnEntry F)), Inv D p → ∃ p',
      l.foldlM (fun pool fncb => mgnMemRelease pool fncb.mem) p = .ok p' ∧ Inv D p' :=
    fun p l hp => foldlM_invariant (Inv D) l (fun p hp fncb _ => by
      obtain ⟨p', hrun, hr⟩ : ∃ p', mgnMemRelease p fncb.mem = .ok p' ∧ _ :=
        mgnMemReleaseImpl_released _ fncb.mem true false hp (Nat.lt_succ_self _)
      exact ⟨p', hrun, hr.inv⟩) hp
  induction y generalizing w fuel with
  | root struName =>
    obtain ⟨fns, hb⟩ := hb
    obtain ⟨fuel, rfl⟩ : ∃ m, fuel = m + 1 := ⟨fuel - 1, by omega⟩
    obtain ⟨p', hrun, hinv⟩ := hfns w.pool fns h
    rw [ClassChain.posB, releaseFns, hb]
    simp only [bind_ok hrun, if_true]
    exact ⟨_, rfl, hinv, rfl⟩
  | sub supName struName ih =>
    obtain ⟨hsup, fns, hb⟩ := hb
    obtain ⟨fuel, rfl⟩ : ∃ m, fuel = m + 1 := ⟨fuel - 1, by omega⟩
    obtain ⟨p', hrun, hinv⟩ := hfns w.pool fns h
    rw [ClassChain.posB] at hfuel
    rw [ClassChain.posB, releaseFns, hb]
    simp only [bind_ok hrun, Nat.add_one_ne_zero, if_false]
    exact ih hinv (hsup.set hb []) fuel (by omega)

/-- The callback destroys all levels, which it finds from the first one's back pointer. -/
theorem triggerReleaseMmobj_ok (h : Inv D w.pool) (hb : Built ch.posB w.levels ch)
    (hlen : w.levels.length = ch.depth) :
    ∃ w', triggerReleaseMmobj impl w = .ok w' ∧ Inv D w'.pool ∧
      w'.acts = w.acts ++ destroyActs impl (supers ch) := by
  obtain ⟨first, hfirst, -, hpre⟩ := hb.level ch.depth_pos
  have hlt : ch.posB < w.levels.length := by
    rw [hlen]
    exact Nat.lt_succ_self _
  rw [if_pos rfl] at hpre
  unfold triggerReleaseMmobj
  rw [hfirst]
  simp only [hpre, bind_ok (destroyStru_built hb w.levels.length hlt)]
  have hrest : ∃ w', releaseFns w.levels.length ch.posB
      { w with acts := w.acts ++ destroyActs impl (supers ch) } = .ok w' ∧ _ :=
    releaseFns_ok (w := { w with acts := w.acts ++ destroyActs impl (supers ch) }) h hb _ hlt
  exact hrest

theorem releaseMmobj_final (h : Inv ∅ w.pool) (hb : Built ch.posB w.levels ch)
    (hlen : w.levels.length = ch.depth) (hx : x ∈ w.pool.records) (h1 : x.r = 1) {view : Nat}
    (hv : view < ch.depth) :
    ∃ pool', releaseMmobj impl x.m view w =
        .ok ⟨pool', [], w.acts ++ destroyActs impl (supers ch) ++ [.freed]⟩ ∧ Inv ∅ pool' ∧
      x.serial ∉ pool'.serials := by
  obtain ⟨b, hlevel, hoff, -⟩ := hb.level hv
  have hinv : Inv ∅ (w.pool.update x.serial fun y => { y with r := y.r - 1, cb := true }) :=
    h.update (fun _ => rfl) (fun _ => rfl) (Set.notMem_empty _)
  have hx1 : ({ x with r := x.r - 1, cb := true } : Record) ∈ (w.pool.update x.serial
      fun y => { y with r := y.r - 1, cb := true }).records := mem_update hx rfl
  have hcb := hinv.callback hx1 (by rw [h1]) (Set.notMem_empty _)
  obtain ⟨w', hrun, hinv', hacts⟩ : ∃ w', triggerReleaseMmobj impl _ = .ok w' ∧ _ :=
    triggerReleaseMmobj_ok (w := { w with pool := _ }) hcb hb hlen
  obtain ⟨p', hfree, hpinv, hrec⟩ := free_last hinv'
  refine ⟨p', ?_, hpinv, notMem_serials_delete hrec⟩
  unfold releaseMmobj releaseObject
  have hobj : x.m + b.cls.findObj view = x.m := by rw [MmClass.findObj, hoff, Nat.sub_self]; rfl
  simp only [hlevel, hobj, h.find_of_mem hx, h1, Nat.one_ne_zero, if_false, Nat.sub_self, if_true,
    Option.isSome_some]
  refine (bind_ok hrun).trans ((bind_ok hfree).trans ?_)
  rw [hacts]
  rfl

end End

section Life

variable {F : Type} {malloc : Malloc} {sizeOf : List UInt8 → Nat} {fns : RootFns F}
  {impl : (x : ClassChain) → Impl F x} {pool : Pool} {w w' : World F} {ch : ClassChain}
  {mem view : Nat}

structure Alive (impl : (x : ClassChain) → Impl F x) (ch : ClassChain) (mem : Nat)
    (w : World F) : Prop extends Ready ch.posB ch w where
  live : mem ∈ w.pool.live
  acts : w.acts = initActs impl ch

structure Dead (impl : (x : ClassChain) → Impl F x) (ch : ClassChain) (w : World F) : Prop where
  levels : w.levels = []
  acts : w.acts = lifeActs impl ch

theorem Alive.find (h : Alive impl ch mem w) : ∃ x, w.pool.find mem = some x := by
  obtain ⟨x, hx, rfl⟩ := List.mem_map.mp h.live
  exact ⟨x, h.inv.find_of_mem hx⟩

theorem live_of_find {x : Record} (h : pool.find mem = some x) : mem ∈ pool.live := by
  obtain ⟨hx, rfl⟩ := find_some h
  exact List.mem_map_of_mem hx

theorem mem_live_update {f : Record → Record} {n : Nat} (hm : ∀ x, (f x).m = x.m)
    (h : mem ∈ pool.live) : mem ∈ (pool.update n f).live := by
  rw [live_update hm]
  exact h

theorem Alive.level (h : Alive impl ch mem w) {b : StruBase F} (hb : w.levels[view]? = some b) :
    view < ch.depth ∧ mem + b.cls.findObj view = mem := by
  have hlt := (List.getElem?_eq_some_iff.mp hb).1
  rw [h.length_eq] at hlt
  obtain ⟨b', hb', hoff, -⟩ := h.built.level hlt
  obtain rfl := Option.some.inj (hb.symm.trans hb')
  exact ⟨hlt, by rw [MmClass.findObj, hoff, Nat.sub_self, Nat.add_zero]⟩

theorem Alive.retain (h : Alive impl ch mem w) (hrun : retainMmobj mem view w = .ok w') :
    Alive impl ch mem w' := by
  unfold retainMmobj at hrun
  cases hb : w.levels[view]? with
  | none =>
    rw [hb] at hrun
    cases hrun
  | some b =>
    simp only [hb, (h.level hb).2] at hrun
    cases hrun
    refine ⟨⟨mgnMemRetain_inv mem h.inv, h.built, h.length_eq⟩, ?_, h.acts⟩
    obtain ⟨x, hx⟩ := h.find
    change mem ∈ (mgnMemRetain w.pool mem).2.live
    simp only [mgnMemRetain, hx]
    exact mem_live_update (fun _ => rfl) h.live

theorem Alive.final {x : Record} (h : Alive impl ch x.m w) (hx : x ∈ w.pool.records)
    (h1 : x.r = 1) (hv : view < ch.depth) :
    ∃ pool', releaseMmobj impl x.m view w =
        .ok ⟨pool', [], w.acts ++ destroyActs impl (supers ch) ++ [.freed]⟩ ∧ Inv ∅ pool' ∧
      x.serial ∉ pool'.serials := releaseMmobj_final h.inv h.built h.length_eq hx h1 hv

/-- A release either leaves the object alive or is its last. -/
theorem Alive.release (h : Alive impl ch mem w) (hrun : releaseMmobj impl mem view w = .ok w') :
    Alive impl ch mem w' ∨ Dead impl ch w' := by
  cases hb : w.levels[view]? with
  | none =>
    unfold releaseMmobj at hrun
    rw [hb] at hrun
    cases hrun
  | some b =>
    obtain ⟨hv, hobj⟩ := h.level hb
    obtain ⟨x, hf⟩ := h.find
    by_cases h1 : x.r = 1
    · obtain ⟨hx, rfl⟩ := find_some hf
      obtain ⟨p, hlast, -⟩ := h.final hx h1 hv
      rw [hlast] at hrun
      cases hrun
      exact Or.inr ⟨rfl, by rw [h.acts, lifeActs]⟩
    · refine Or.inl ?_
      unfold releaseMmobj releaseObject at hrun
      simp only [hb, hobj, hf] at hrun
      by_cases h0 : x.r = 0
      · simp only [if_pos h0] at hrun
        cases hrun
        exact h
      · simp only [if_neg h0, if_neg (show ¬x.r - 1 = 0 by omega)] at hrun
        cases hrun
        refine ⟨⟨h.inv.update (fun _ => rfl) (fun _ => rfl) (Set.notMem_empty _), h.built,
          h.length_eq⟩, mem_live_update (fun _ => rfl) h.live, h.acts⟩

theorem Alive.setFunction {fnTypeName : List UInt8} {fn r : Option F} (h : Alive impl ch mem w)
    (hrun : setFunction malloc w view fnTypeName fn = .ok (r, w')) : Alive impl ch mem w' := by
  cases hb : w.levels[view]? with
  | none =>
    unfold Lifecycle.setFunction at hrun
    rw [hb] at hrun
    cases hrun
  | some b =>
    have hset : Meets (Short malloc) _ (Lifecycle.setFunction malloc w view fnTypeName fn) :=
      h.toReady.setFunction ⟨view, (h.level hb).1⟩ fnTypeName fn
    rw [hrun] at hset
    obtain ⟨hl, ha, hready⟩ := hset
    obtain ⟨es, hes, -⟩ := hl.records
    refine ⟨hready, ?_, ha.trans h.acts⟩
    rw [Pool.live, hes, List.map_append]
    exact List.mem_append_left _ h.live

theorem Step.life (h : Alive impl ch mem w ∨ Dead impl ch w) (hs : Step malloc impl mem w w') :
    Alive impl ch mem w' ∨ Dead impl ch w' := by
  obtain h | h := h
  · cases hs with
    | retain view hrun => exact Or.inl (h.retain hrun)
    | release view hrun => exact h.release hrun
    | setFunction view fnTypeName fn r hrun => exact Or.inl (h.setFunction hrun)
    | elsewhere p hinv hfind =>
      obtain ⟨x, hx⟩ := h.find
      exact Or.inl ⟨⟨hinv, h.built, h.length_eq⟩, live_of_find (hfind.trans hx), h.acts⟩
  · have hnone : ∀ view : Nat, w.levels[view]? = none := by
      intro view
      rw [h.levels]
      rfl
    cases hs with
    | retain view hrun =>
      unfold retainMmobj at hrun
      rw [hnone] at hrun
      cases hrun
    | release view hrun =>
      unfold releaseMmobj at hrun
      rw [hnone] at hrun
      cases hrun
    | setFunction view fnTypeName fn r hrun =>
      unfold Lifecycle.setFunction at hrun
      rw [hnone] at hrun
      cases hrun
    | elsewhere p hinv hfind => exact Or.inr ⟨h.levels, h.acts⟩

theorem lives_of_alive (h : Alive impl ch mem w) : Lives malloc impl ch mem w := by
  have hrun : ∀ w', Relation.ReflTransGen (Step malloc impl mem) w w' →
      Alive impl ch mem w' ∨ Dead impl ch w' := by
    intro w' hsteps
    induction hsteps with
    | refl => exact Or.inl h
    | tail _ hs ih => exact hs.life ih
  refine ⟨h.acts, fun w' hsteps => (hrun w' hsteps).imp Alive.acts Dead.acts,
    fun w' x hsteps hacts hf h1 view hv => ?_⟩
  obtain ha | hd := hrun w' hsteps
  · obtain ⟨hx, rfl⟩ := find_some hf
    obtain ⟨p, hlast, -, hgone⟩ := ha.final hx h1 hv
    exact ⟨_, hlast, by rw [hacts, lifeActs], hgone⟩
  · have hlen := congrArg List.length (hd.acts.symm.trans hacts)
    rw [lifeActs, List.length_append, List.length_append, List.length_singleton] at hlen
    omega

/-- The order of the init and destroy functions along a class chain of any depth: from the root
down to the first level that fails, then back up; or all of them, and all back up from the last
level with the last release, before the memory is freed. Only a failing allocator keeps an
allocation from coming to its end. -/
theorem allocStru_allocates (malloc : Malloc) (sizeOf : List UInt8 → Nat) (fns : RootFns F)
    (impl : (x : ClassChain) → Impl F x) (ch : ClassChain) (pool : Pool) (h : Inv ∅ pool) :
    Meets (Short malloc) (Allocates malloc impl ch) (allocStru malloc sizeOf fns impl ch pool) := by
  have hsize : structSize sizeOf ch ≠ 0 := by
    have hpos := posO_le sizeOf ch
    omega
  unfold allocStru
  obtain ⟨p, hrun, hno⟩ | ⟨a, bytes, p, hrun, hinv, hlive, hrec⟩ := alloc_cases malloc h hsize
  · simp only [bind_ok hrun]
    exact ⟨rfl, hno⟩
  · simp only [bind_ok hrun]
    have hinit : Meets (Short malloc) _ (initStru malloc fns impl ch ch.posB ⟨p, [], []⟩) :=
      initStru_meets (w := ⟨p, [], []⟩) ch hinv
    refine hinit.bind fun r hr => ?_
    obtain ⟨es, -, -, hes⟩ := hr.entries
    have hmem : newRecord pool.clock a (structSize sizeOf ch) bytes ∈ r.2.pool.records := by
      rw [hes, hrec]
      simp
    unfold Allocates
    cases hf : failing impl ch with
    | none =>
      obtain ⟨htrue, hready, hacts⟩ := hr.succeeded hf
      simp only [htrue, if_true]
      refine ⟨a, rfl, lives_of_alive ⟨hready, List.mem_map_of_mem hmem, ?_⟩⟩
      rw [hacts, List.nil_append]
    | some x =>
      obtain ⟨hfalse, hacts⟩ := hr.failed x hf
      obtain ⟨pool', hfree, -⟩ := releaseObject_none hr.inv hmem rfl
      simp only [hfalse, Bool.false_eq_true, if_false]
      have hfree' : releaseObject a none r.2 = .ok _ := hfree
      rw [bind_ok hfree', hacts, List.nil_append]
      exact ⟨rfl, rfl⟩

def failingImpl (x : ClassChain) : Impl Nat x :=
  ⟨some ⟨[], x.name ≠ cstr "MMMap"⟩, true⟩

theorem allocStru_allocates_tmpContext :
    Meets (Short bumpMalloc) (Allocates bumpMalloc failingImpl tmpContext)
      (allocStru bumpMalloc (fun _ => 8) ⟨0, 1⟩ failingImpl tmpContext ⟨[], 0, []⟩) :=
  allocStru_allocates bumpMalloc (fun _ => 8) ⟨0, 1⟩ failingImpl tmpContext ⟨[], 0, []⟩
    inv_empty

end Life

section Objects

variable {F : Type} {malloc : Malloc} {sizeOf : List UInt8 → Nat} {fns : RootFns F}
  {impl : (x : ClassChain) → Impl F x} {w w' : World F} {last : Nat} {ch : ClassChain}

/-- The levels of an object without the blocks of the function entries. -/
def toObj (levels : List (StruBase F)) : Obj F :=
  levels.map fun b => ⟨b.cls, b.preBase, b.fns.map fun fncb => (fncb.name, fncb.fn)⟩

theorem toObj_level {levels : List (StruBase F)} {base : Nat} {b : StruBase F}
    (h : levels[base]? = some b) : (toObj levels)[base]? =
      some ⟨b.cls, b.preBase, b.fns.map fun fncb => (fncb.name, fncb.fn)⟩ := by
  rw [toObj, List.getElem?_map, h]
  rfl

theorem toObj_setFunction {base : Nat} {fnTypeName : List UInt8} {fn r : Option F}
    (h : setFunction malloc w base fnTypeName fn = .ok (r, w')) :
    base < w.levels.length ∧
      toObj w'.levels = (Casting.setFunction (toObj w.levels) base fnTypeName fn).2 := by
  unfold setFunction at h
  cases hb : w.levels[base]? with
  | none =>
    rw [hb] at h
    cases h
  | some b =>
    -- the entries are the same table under the same names
    have hset : ∀ (w0 : World F) (fncb : FnEntry F), w0.levels = w.levels →
        fncb.name = fnTypeName → fncb.fn = fn →
        toObj (w0.setLevel base { b with fns := Table.put FnEntry.name fncb b.fns }).levels =
          (Casting.setFunction (toObj w.levels) base fnTypeName fn).2 := by
      rintro w0 fncb hw0 rfl rfl
      have hput : (Table.put FnEntry.name fncb b.fns).map (fun fncb => (fncb.name, fncb.fn)) =
          Table.put Prod.fst (fncb.name, fncb.fn) (b.fns.map fun fncb => (fncb.name, fncb.fn)) :=
        Table.put_map _ (by intro; rfl) fncb b.fns
      rw [Casting.setFunction, toObj_level hb]
      simp only [World.setLevel, toObj, hw0, List.map_set, hput]
    refine ⟨(List.getElem?_eq_some_iff.mp hb).1, ?_⟩
    simp only [hb] at h
    cases hf : Table.find FnEntry.name fnTypeName b.fns with
    | some fncb =>
      simp only [hf] at h
      cases h
      exact hset w _ rfl (Table.find_some hf).2 rfl
    | none =>
      simp only [hf] at h
      obtain ⟨⟨r', p⟩, -, h⟩ := ok_of_bind h
      cases r' with
      | none => cases h
      | some mem =>
        cases h
        exact hset _ _ rfl rfl rfl

inductive Sets : Obj F → Obj F → Prop
  | refl (obj : Obj F) : Sets obj obj
  | set {obj obj' : Obj F} (base : Nat) (fnTypeName : List UInt8) (fn : Option F) :
    Sets obj obj' → base < obj'.length → Sets obj (Casting.setFunction obj' base fnTypeName fn).2

theorem Sets.trans {obj obj' obj'' : Obj F} (h : Sets obj obj') (h' : Sets obj' obj'') :
    Sets obj obj'' := by
  induction h' with
  | refl => exact h
  | set base fnTypeName fn _ hlt ih => exact .set base fnTypeName fn ih hlt

theorem Sets.append {obj obj' : Obj F} (h : Sets obj obj') (l : Obj F) :
    Sets (obj ++ l) (obj' ++ l) := by
  induction h with
  | refl => exact .refl _
  | @set obj' base fnTypeName fn _ hlt ih =>
    have hset := Sets.set base fnTypeName fn ih (by rw [List.length_append]; omega)
    have heq : (Casting.setFunction (obj' ++ l) base fnTypeName fn).2 =
        (Casting.setFunction obj' base fnTypeName fn).2 ++ l := by
      rw [Casting.setFunction, Casting.setFunction, List.getElem?_append_left hlt,
        List.getElem?_eq_getElem hlt]
      exact List.set_append_left _ _ hlt
    rwa [heq] at hset

theorem Sets.made {obj obj' : Obj F} (h : Sets obj obj') (hm : Made ch obj) : Made ch obj' := by
  induction h with
  | refl => exact hm
  | set base fnTypeName fn _ _ ih => exact .setFunction base fnTypeName fn ih

theorem setFunction_sets {base : Nat} {fnTypeName : List UInt8} {fn r : Option F}
    (h : setFunction malloc w base fnTypeName fn = .ok (r, w')) :
    Sets (toObj w.levels) (toObj w'.levels) := by
  obtain ⟨hlt, heq⟩ := toObj_setFunction h
  rw [heq]
  exact .set base fnTypeName fn (.refl _) (by rw [toObj, List.length_map]; exact hlt)

theorem runInit_sets {x : ClassChain} {ok : Bool} (h : runInit malloc impl x w = .ok (ok, w')) :
    Sets (toObj w.levels) (toObj w'.levels) := by
  unfold runInit at h
  cases hi : (impl x).init with
  | none =>
    simp only [hi] at h
    cases h
    exact .refl _
  | some init =>
    simp only [hi] at h
    obtain ⟨w1, hloop, h⟩ := ok_of_bind h
    cases h
    have hsets : Meets (fun _ => True) (fun w' => Sets (toObj w.levels) (toObj w'.levels))
        (init.calls.foldlM (fun w c => do
          let (_, w) ← setFunction malloc w c.level c.fnTypeName c.fn
          return w) (w.note (.init x.posB))) := by
      refine Meets.foldlM (R := fun _ (w' : World F) => Sets (toObj w.levels) (toObj w'.levels))
        (fun c l w' hw' => ?_) (.refl _)
      cases hc : setFunction malloc w' c.level c.fnTypeName c.fn with
      | error e => exact trivial
      | ok r => exact hw'.trans (setFunction_sets hc)
    rw [hloop] at hsets
    exact hsets

theorem initStru_sets (h : initStru malloc fns impl ch last w = .ok (true, w')) :
    Sets (ch.init fns last) (toObj w'.levels) := by
  induction ch generalizing w' with
  | root struName =>
    unfold initStru at h
    obtain ⟨r1, h1, h⟩ := ok_of_bind h
    obtain ⟨r2, h2, h⟩ := ok_of_bind h
    have hsets := runInit_sets h
    rw [(toObj_setFunction h2).2, (toObj_setFunction h1).2] at hsets
    exact hsets
  | sub supName struName ih =>
    unfold initStru at h
    obtain ⟨⟨ok, w1⟩, hsup, h⟩ := ok_of_bind h
    cases ok with
    | false => cases h
    | true =>
      simp only [if_true] at h
      obtain ⟨⟨ok', w2⟩, hrun, h⟩ := ok_of_bind h
      cases ok' with
      | false =>
        simp only [Bool.false_eq_true, if_false] at h
        obtain ⟨w3, -, h⟩ := ok_of_bind h
        cases h
      | true =>
        cases h
        have hlast := runInit_sets hrun
        rw [toObj, List.map_append] at hlast
        exact ((ih hsup).append _).trans hlast

/-- What an allocation answers with is an object of the class, with the functions that its init
functions have set. -/
theorem allocStru_made {mem : Nat} {pool : Pool}
    (h : allocStru malloc sizeOf fns impl ch pool = .ok (some mem, w)) :
    Made ch (toObj w.levels) := by
  unfold allocStru at h
  obtain ⟨⟨r, p⟩, -, h⟩ := ok_of_bind h
  cases r with
  | none => cases h
  | some a =>
    obtain ⟨⟨ok, w1⟩, hi, h⟩ := ok_of_bind h
    cases ok with
    | true =>
      cases h
      exact (initStru_sets hi).made (.alloc fns)
    | false =>
      simp only [Bool.false_eq_true, if_false] at h
      obtain ⟨w2, -, h⟩ := ok_of_bind h
      cases h

end Objects

end LcClibs.Mmo.Lifecycle
