import Mathlib
import LcClibs.Pack.Balance

namespace LcClibs.Pack.Invariants

open Platform Lib Lib.Runs Buffer.VarInt Mmo.Object
open Pack.Process Pack.Unpacker Pack.Balance

section Reading

variable {H α : Type} {I : Unpacking H → Prop}

theorem keeping_of_reads {x : UnpackM H α} (hx : Reads x) : Keeping I x := by
  intro s a s' hs h
  rw [hx s a s' h]
  exact hs

end Reading

section Functions

variable {H : Type} {host : Host} {rounds : Nat} {I : Unpacking H → Prop}
variable {D : Option (List UInt8) → Prop}

/-- An invariant of the unpacker, with what is known of the data that it hands out: it stands
what the functions do to the stack and to the table of objects. -/
structure Lasting (host : Host) (rounds : Nat) (I : Unpacking H → Prop)
    (D : Option (List UInt8) → Prop) : Prop where
  parsed : ∀ s, I s → Parsed s
  stack : ∀ s st, I s → I { s with stack := st }
  drop : ∀ s, I s → I { s with lastObjectNum := none }
  register : ∀ s num object, I s → s.lastObjectNum = some num →
    I { s with
      objects := Table.put Prod.fst (num, Entry.reference object) s.objects
      lastObjectNum := none }
  entering : ∀ s key num map name, I s → findObject host key s = .ok (.props num map name, s) →
    I { s with stack := map :: s.stack, lastObjectNum := some num }
  data : ∀ s key d s', I s → unpackDataImpl host rounds key s = .ok (d, s') → D d

/-- An init function whose changes of the memory the invariant stands. -/
def Tame (I : Unpacking H → Prop) (D : Option (List UInt8) → Prop) : Init H → Prop
  | .done _ => True
  | .varInt64 _ next => ∀ value, Tame I D (next value)
  | .float _ next => ∀ value, Tame I D (next value)
  | .double _ next => ∀ value, Tame I D (next value)
  | .data _ next => ∀ data, D data → Tame I D (next data)
  | .object _ next => ∀ stru, Tame I D (next stru)
  | .array _ next => ∀ len, Tame I D (next len)
  | .arrayEnd _ next => Tame I D next
  | .read next => ∀ heap, Tame I D (next heap)
  | .write change next =>
    (∀ s, I s → I { s with heap := change s.heap }) ∧ Tame I D next

/-- Allocators with such init functions. -/
structure TameAlloc (I : Unpacking H → Prop) (D : Option (List UInt8) → Prop)
    (cls : Alloc H) : Prop where
  blank : ∀ s, I s → I { s with heap := (cls.blank s.heap).2 }
  inits : ∀ level ∈ cls.levels, ∀ init ∈ level.2, ∀ stru, Tame I D (init stru)

theorem Lasting.parse (hI : Lasting host rounds I D) : Keeping I (parse host rounds) := by
  intro s a s' hs h
  rw [parse_parsed (hI.parsed s hs)] at h
  cases h
  exact hs

theorem Lasting.value {α : Type} (hI : Lasting host rounds I D) {f : Option Addr → UnpackM H α}
    (hf : ∀ obj, Keeping I (f obj)) (key : Nat) :
    Keeping I (do Unpacker.parse host rounds; f (← getByIntFromStack host key)) :=
  hI.parse.bind fun _ => (keeping_of_reads (getByIntFromStack_reads key)).bind hf

theorem genAt_keeping {α : Type} {f : Gen → UnpackM H α} (a : Addr)
    (hf : ∀ g, Keeping I (f g)) : Keeping I (genAt a >>= f) :=
  (keeping_of_reads (genAt_reads a)).bind hf

theorem Lasting.unpackVarInt64Impl (hI : Lasting host rounds I D) (key : Nat) :
    Keeping I (unpackVarInt64Impl host rounds key) := by
  refine hI.value (fun obj => ?_) key
  cases obj with
  | none => exact .pure _
  | some obj => exact genAt_keeping obj fun g => by cases g <;> exact .pure _

theorem Lasting.unpackFloatImpl (hI : Lasting host rounds I D) (key : Nat) :
    Keeping I (unpackFloatImpl host rounds key) := by
  refine hI.value (fun obj => ?_) key
  cases obj with
  | none => exact .pure _
  | some obj => exact genAt_keeping obj fun g => by cases g <;> exact .pure _

theorem Lasting.unpackDoubleImpl (hI : Lasting host rounds I D) (key : Nat) :
    Keeping I (unpackDoubleImpl host rounds key) := by
  refine hI.value (fun obj => ?_) key
  cases obj with
  | none => exact .pure _
  | some obj => exact genAt_keeping obj fun g => by cases g <;> exact .pure _

theorem Lasting.unpackDataImpl (hI : Lasting host rounds I D) (key : Nat) :
    Keeping I (unpackDataImpl host rounds key) := by
  refine hI.value (fun obj => ?_) key
  cases obj with
  | none => exact .pure _
  | some obj => exact genAt_keeping obj fun g => by cases g <;> exact .pure _

theorem Lasting.pushItem (hI : Lasting host rounds I D) (a : Addr) :
    Keeping I (Unpacker.pushItem a) := by
  intro s b s' hs h
  cases h
  exact hI.stack s (a :: s.stack) hs

theorem Lasting.popItem (hI : Lasting host rounds I D) : Keeping I Unpacker.popItem := by
  intro s b s' hs h
  obtain ⟨a, stack, -, rfl⟩ := popItem_ok h
  exact hI.stack s stack hs

theorem Lasting.popContextInStack (hI : Lasting host rounds I D) :
    Keeping I popContextInStack := by
  intro s b s' hs h
  obtain ⟨stack, -, rfl⟩ := popContextInStack_ok h
  exact hI.stack s stack hs

theorem Lasting.unpackArrayImpl (hI : Lasting host rounds I D) (key : Nat) :
    Keeping I (unpackArrayImpl host rounds key) := by
  refine hI.value (fun obj => ?_) key
  cases obj with
  | none => exact .pure _
  | some obj =>
    refine genAt_keeping obj fun g => ?_
    cases g with
    | list items => exact (hI.pushItem obj).bind fun _ => .pure _
    | _ => exact .pure _

theorem Lasting.unpackArrayEndImpl (hI : Lasting host rounds I D) :
    Keeping I (unpackArrayEndImpl host rounds) :=
  hI.parse.bind fun _ => hI.popItem

theorem Lasting.enterContext (hI : Lasting host rounds I D) (name : List UInt8) :
    Keeping I (enterContext name) := by
  intro s b s' hs h
  obtain ⟨stack, rfl⟩ := enterContext_steady h
  exact hI.stack s stack hs

theorem Lasting.putReference (hI : Lasting host rounds I D) {s s' : Unpacking H} {num : Int}
    {obj : Except Records.Stop (Option Addr)} (hs : I s) (hnum : s.lastObjectNum = some num)
    (h : putReference num obj s = .ok ((), s')) : I s' := by
  obtain ⟨object, -, rfl⟩ := putReference_ok h
  exact hI.register s num object hs hnum

theorem Lasting.unpackNextContextImpl (hI : Lasting host rounds I D) (name : List UInt8)
    (obj : Except Records.Stop (Option Addr)) :
    Keeping I (unpackNextContextImpl host rounds name obj) := by
  refine hI.parse.bind fun _ => ?_
  intro s b s' hs h
  rw [step_get] at h
  cases hnum : s.lastObjectNum with
  | some num =>
    rw [hnum] at h
    obtain ⟨_, s1, h1, h2⟩ := step_eq_ok.mp h
    exact hI.enterContext name s1 b s' (hI.putReference hs hnum h1) h2
  | none =>
    rw [hnum] at h
    obtain ⟨_, s1, h1, h2⟩ := step_eq_ok.mp h
    exact hI.enterContext name s1 b s' (hI.popContextInStack s _ s1 hs h1) h2

theorem Lasting.leaveObject (hI : Lasting host rounds I D) (cls : Alloc H) (ooo : Option Addr) :
    Keeping I (leaveObject cls ooo) := by
  intro s b s' hs h
  rw [Unpacker.leaveObject, step_get] at h
  have hpop : Keeping I (do Unpacker.popItem; return ooo) := hI.popItem.bind fun _ => .pure _
  cases hnum : s.lastObjectNum with
  | some num =>
    rw [hnum] at h
    cases ooo with
    | some stru =>
      obtain ⟨_, s1, h1, h2⟩ := step_eq_ok.mp h
      exact hpop s1 b s' (hI.putReference hs hnum h1) h2
    | none => exact hpop _ b s' (hI.drop s hs) h
  | none =>
    rw [hnum] at h
    exact (hI.popContextInStack.bind fun _ => hpop) s b s' hs h

theorem Lasting.runInit (hI : Lasting host rounds I D)
    {unpackObject : Nat → UnpackM H (Option Addr)} (hu : ∀ key, Keeping I (unpackObject key))
    {init : Init H} (hinit : Tame I D init) :
    Keeping I (runInit host rounds unpackObject init) := by
  induction init with
  | done ok => exact .pure ok
  | varInt64 key next ih => exact (hI.unpackVarInt64Impl key).bind fun v => ih v (hinit v)
  | float key next ih => exact (hI.unpackFloatImpl key).bind fun v => ih v (hinit v)
  | double key next ih => exact (hI.unpackDoubleImpl key).bind fun v => ih v (hinit v)
  | data key next ih =>
    intro s b s' hs h
    obtain ⟨d, s1, h1, h2⟩ := step_eq_ok.mp h
    exact ih d (hinit d (hI.data s key d s1 hs h1)) s1 b s' (hI.unpackDataImpl key s d s1 hs h1) h2
  | object key next ih => exact (hu key).bind fun stru => ih stru (hinit stru)
  | array key next ih => exact (hI.unpackArrayImpl key).bind fun len => ih len (hinit len)
  | arrayEnd key next ih => exact hI.unpackArrayEndImpl.bind fun _ => ih hinit
  | read next ih =>
    intro s b s' hs h
    exact ih s.heap (hinit s.heap) s b s' hs h
  | write change next ih =>
    intro s b s' hs h
    exact ih hinit.2 _ b s' (hinit.1 s hs) h

theorem Lasting.initLevels (hI : Lasting host rounds I D)
    {unpackObject : Nat → UnpackM H (Option Addr)} (hu : ∀ key, Keeping I (unpackObject key))
    (stru : Addr) (made : List (List UInt8)) {levels : List (List UInt8 × Option (Addr → Init H))}
    (hl : ∀ level ∈ levels, ∀ init ∈ level.2, Tame I D (init stru)) :
    Keeping I (initLevels host rounds unpackObject stru made levels) := by
  induction levels generalizing made with
  | nil => exact .pure _
  | cons level levels ih =>
    obtain ⟨name, init⟩ := level
    have ih := ih (name :: made) fun l hmem => hl l (List.mem_cons_of_mem _ hmem)
    cases init with
    | none => exact ih
    | some init =>
      have hinit := hl _ List.mem_cons_self init rfl
      refine (hI.unpackNextContextImpl name _).bind fun _ =>
        (hI.runInit hu hinit).bind fun ok => ?_
      cases ok with
      | true => exact ih
      | false => exact .pure _

theorem Lasting.unpackObjectWith (hI : Lasting host rounds I D)
    {unpackObject : Nat → UnpackM H (Option Addr)} (hu : ∀ key, Keeping I (unpackObject key))
    {allocators : Allocators H} (ha : ∀ e ∈ allocators, TameAlloc I D e.2) (key : Nat) :
    Keeping I (unpackObjectWith host rounds allocators unpackObject key) := by
  refine hI.parse.bind fun _ => ?_
  intro s r s' hs h
  obtain ⟨found, s1, h1, h2⟩ := step_eq_ok.mp h
  obtain rfl := findObject_reads key s found s1 h1
  cases found with
  | null => exact Keeping.pure _ s1 r s' hs h2
  | reference object => exact Keeping.pure _ s1 r s' hs h2
  | props num map name =>
    dsimp only [Unpacker.pushItem] at h2
    rw [step_modify] at h2
    cases hempty : allocators.isEmpty with
    | true =>
      rw [hempty] at h2
      cases h2
    | false =>
      rw [hempty, if_neg (by decide)] at h2
      cases hf : Table.find Prod.fst name allocators with
      | none =>
        rw [hf] at h2
        cases h2
        exact hI.stack s1 (map :: s1.stack) hs
      | some entry =>
        rw [hf] at h2
        dsimp only at h2
        rw [step_modify] at h2
        obtain ⟨ooo, s2, h3, h4⟩ := step_eq_ok.mp h2
        have hcls := ha entry (Table.find_some hf).1
        have hin := hcls.blank _ (hI.entering s1 key num map name hs h1)
        have hinit := hI.initLevels hu (entry.2.blank s1.heap).1 []
          (fun l hl init hmem => hcls.inits l hl init hmem _)
          (Balance.entering num map (entry.2.blank s1.heap).2 s1) ooo s2 hin h3
        exact hI.leaveObject entry.2 ooo s2 r s' hinit h4

/-- By induction on the nesting of objects. -/
theorem Lasting.unpackObjectImpl (hI : Lasting host rounds I D) {allocators : Allocators H}
    (ha : ∀ e ∈ allocators, TameAlloc I D e.2) (fuel key : Nat) :
    Keeping I (unpackObjectImpl host rounds allocators fuel key) := by
  induction fuel generalizing key with
  | zero =>
    intro s r s' hs h
    cases h
  | succ fuel ih => exact hI.unpackObjectWith ih ha key

theorem tame_of_aside (h : ∀ s heap, I s → I { s with heap := heap }) (init : Init H) :
    Tame I D init := by
  induction init with
  | done ok => trivial
  | data key next ih => exact fun d _ => ih d
  | write change next ih => exact ⟨fun s hs => h s _ hs, ih⟩
  | varInt64 key next ih | float key next ih | double key next ih | object key next ih
  | array key next ih | arrayEnd key next ih => exact ih
  | read next ih => exact ih

end Functions

end LcClibs.Pack.Invariants
