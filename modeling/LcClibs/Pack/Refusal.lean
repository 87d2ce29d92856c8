import Mathlib
import LcClibs.Lib.Runs
import LcClibs.Packet.Stream
import LcClibs.Pack.Packer
import LcClibs.Pack.Process

namespace LcClibs.Pack.Refusal

open Platform Lib.BigEndian
open Lib.Runs (step_ok step_eq_ok)
open Buffer.Cursor Buffer.Next Buffer.Append Buffer.Typdex Buffer.VarInt
open Packet.Dypkt Packet.Stream Pack.Records Pack.Packer Pack.Process

section Model

/-- What a packer is asked to write in one record, and what is read from it. -/
inductive Packed
  | varInt (key : Nat) (value : Int)
  | float (key value : Nat)
  | double (key value : Nat)
  | data (key : Nat) (value : List UInt8)
  | array (key len : Nat)
  | arrayEnd (key : Nat)
  | objectRef (key num : Nat)
  | object (num classnameNum : Nat)
  | objectEnd (num : Nat)
  | context (classnameNum : Nat)
  | className (num : Nat) (name : List UInt8)
  | version (v : Nat)
  deriving DecidableEq, Repr

def Packed.record : Packed → Record
  | varInt key value => .integer key value
  | float key value => .float key value
  | double key value => .double key value
  | data key value => .raw key value
  | array key len => .array key (uint (len + 1))
  | arrayEnd key => .array key 0
  | objectRef key num => .objectRef key num
  | object num classnameNum => .object num classnameNum
  | objectEnd num => .objectEnd num
  | context classnameNum => .context classnameNum
  | className num name => .className num name
  | version v => .version v

def Packed.pack {A : Type} (host : Host) : Packed → PackM A Unit
  | varInt key value => packVarInt64Impl host key value
  | float key value => packFloatImpl host key value
  | double key value => packDoubleImpl host key value
  | data key value => packDataImpl host key value
  | array key len => packArrayImpl host key len
  | arrayEnd key => packArrayEndImpl host key
  | objectRef key num => emit host (.objectRef key num)
  | object num classnameNum => emit host (.object num classnameNum)
  | objectEnd num => emit host (.objectEnd num)
  | context classnameNum => emit host (.context classnameNum)
  | className num name => emit host (.className num name)
  | version v => emit host (.version v)

variable (host : Host)

/-- The reading that `process` does in a round, by the type in the header. -/
def takePacked (isOpen : Bool) (type index : Nat) : DybM (Option Packed) := do
  if type = pkrdexInteger then
    let value ← dybNextVarS64
    return some (.varInt index value)
  else if type = pkrdexFloat then
    let value ← dybNextFloat host
    return some (.float index value)
  else if type = pkrdexDouble then
    let value ← dybNextDouble host
    return some (.double index value)
  else if type = pkrdexRaw then
    let (data, size) ← dybNextDataWithVarLen
    let data ← takeData data size
    return some (.data index data)
  else if type = pkrdexArray then
    let size ← dybNextVarU64
    return some (if size > 0 then .array index (size - 1) else .arrayEnd index)
  else if type = pkrdexObjectRef then
    let num ← dybNextVarU64
    return some (.objectRef index num)
  else if type = pkrdexObject then
    if isOpen then return some (.objectEnd index)
    else
      let num ← dybNextVarU64
      return some (.object index num)
  else if type = pkrdexContext then return some (.context index)
  else if type = pkrdexDb then
    if index = pkrdbClassNames then
      let num ← dybNextVarU64
      let (name, _) ← dybNextCstringWithVarLen
      let name ← cstringAt name
      return some (.className num name)
    else return none
  else if type = pkrdexFunction then
    if index = pkrfnVersion then
      let v ← dybNextVarU64
      return some (.version v)
    else return none
  else return none

def nextPacked (isOpen : Bool) : DybM (Option Packed) := do
  let (type, index) ← dybNextTypdex
  takePacked host isOpen type index

/-- A record with the number of the open object ends it. -/
def Packed.isOpen : Packed → Bool
  | objectEnd _ => true
  | _ => false

/-- A call of a typed append, on a packet or on the buffer of a packer. -/
inductive TypedAppend
  | item (i : Item)
  | packed (c : Packed)

def TypedAppend.append : TypedAppend → DybM Unit
  | item i => i.append host
  | packed c => c.record.append host

def TypedAppend.next : TypedAppend → DybM (Option TypedAppend)
  | item _ => do return (← nextItem host).map item
  | packed c => do return (← nextPacked host c.isOpen).map packed

/-- The call either writes what its reader, put at the old position, takes for the same
call and leaves the position after it, or changes neither contents nor position. -/
def Whole (a : TypedAppend) (b : Dybuf) : Prop :=
  ∃ b', a.append host b = .ok ((), b') ∧
    (a.next host { b' with position := b.position } = .ok (some a, b') ∨
      b'.data = b.data ∧ b'.position = b.position)

/-- The arguments are of their C types; a C string ends at its first NUL. -/
def Packed.Typed : Packed → Prop
  | varInt _ value => IsInt64 value
  | float _ value | array _ value | objectRef _ value | object _ value => value < 2 ^ 32
  | double _ value | version value => value < 2 ^ 64
  | data _ value => value.length < 2 ^ 32
  | arrayEnd _ | objectEnd _ | context _ => True
  | className num name => num < 2 ^ 32 ∧ 0 ∉ name

def TypedAppend.Typed : TypedAppend → Prop
  | item i => i.Typed
  | packed c => c.Typed

/-- A string and its NUL have a length that is a `uint`. -/
def Sized : Item → Prop
  | .protocol string | .cstring _ string => string.length + 1 < 2 ^ 32
  | _ => True

/-- The header carries the index, and the value has no end of its own: an array of
2^32 - 1 items would be an array end. A record of nothing but its header is refused
as a whole. -/
def Packed.Encodable : Packed → Prop
  | array key len => key ≤ 0xFFFFF ∧ len + 1 < 2 ^ 32
  | objectEnd _ | context _ => True
  | className _ name => name.length + 1 < 2 ^ 32
  | c => c.record.index ≤ 0xFFFFF

def TypedAppend.Encodable : TypedAppend → Prop
  | item i => i.index ≤ 0xFFFFF ∧ Sized i
  | packed c => c.Encodable

/-- The bytes of a call; a string is cut where its length is no `uint`. -/
def itemWritten : Item → List UInt8
  | .protocol string => typdexBytes dypeF dypeFProtocol ++ dataBytes (cstringData string)
  | .cstring index string => typdexBytes dypeString index ++ dataBytes (cstringData string)
  | i => i.bytes host

def TypedAppend.written : TypedAppend → List UInt8
  | item i => itemWritten host i
  | packed c => c.record.bytes host

end Model

section Reading

def Yields {α : Type} (P : α → Dybuf → Prop) (x : DybM (Option α)) : Prop :=
  ∀ b a b', x b = .ok (some a, b') → P a b'

variable {α β : Type} {P : α → Dybuf → Prop}

theorem Yields.bind {x : DybM β} {f : β → DybM (Option α)} (h : ∀ v, Yields P (f v)) :
    Yields P (x >>= f) := by
  intro b a b' hx
  obtain ⟨v, b1, -, hf⟩ := bind_eq_ok.mp hx
  exact h v b1 a b' hf

theorem Yields.some {a : α} (h : ∀ b, P a b) : Yields P (pure (some a)) := by
  intro b a' b' hx
  cases hx
  exact h b

theorem Yields.none : Yields P (pure none) := by
  intro b a b' hx
  cases hx

theorem Yields.ite {c : Prop} [Decidable c] {x y : DybM (Option α)} (hx : c → Yields P x)
    (hy : Yields P y) : Yields P (if c then x else y) := by
  by_cases h : c
  · rw [if_pos h]
    exact hx h
  · rw [if_neg h]
    exact hy

theorem Yields.map {γ : Type} {Q : γ → Dybuf → Prop} {x : DybM (Option α)} {f : α → γ}
    (h : Yields P x) (hf : ∀ a b, P a b → Q (f a) b) :
    Yields Q (do return (← x).map f) := by
  intro b c b' hx
  obtain ⟨o, b1, ho, hr⟩ := bind_eq_ok.mp hx
  cases o with
  | none => cases hr
  | some a =>
    cases hr
    exact hf a _ (h b a _ ho)

theorem takeWhile_length_lt {l : List UInt8} (h : 0 ∈ l) :
    (l.takeWhile (· ≠ 0)).length < l.length := by
  have hpre : l.takeWhile (· ≠ 0) <+: l := List.takeWhile_prefix _
  refine lt_of_le_of_ne hpre.length_le fun heq => ?_
  rw [← hpre.eq_of_length heq] at h
  simpa using List.mem_takeWhile_imp h

theorem Yields.cstring {string : Option Nat} {f : List UInt8 → α}
    (h : ∀ s b, s.length < b.data.length → P (f s) b) :
    Yields P (do
      let s ← cstringAt string
      return Option.some (f s)) := by
  intro b a b' hx
  obtain ⟨s, b1, hs, hr⟩ := bind_eq_ok.mp hx
  cases hr
  rw [cstringAt, get_bind] at hs
  cases string with
  | none => cases hs
  | some off =>
    simp only [ite_run] at hs
    split at hs
    case isFalse => cases hs
    case isTrue h0 =>
      cases hs
      refine h _ _ ?_
      have hlt := takeWhile_length_lt h0
      rw [List.length_drop] at hlt
      omega

theorem headerFields_index_le (width v : Nat) : (headerFields width v).2 ≤ 0xFFFFF := by
  unfold headerFields
  split <;> exact Nat.and_le_right.trans (by decide)

theorem fields_index_le {width : Nat} {x : DybM Nat} {b b' : Dybuf} {f : Nat × Nat}
    (h : (do let v ← x; return headerFields width v) b = .ok (f, b')) : f.2 ≤ 0xFFFFF := by
  obtain ⟨v, b1, -, hr⟩ := bind_eq_ok.mp h
  cases hr
  exact headerFields_index_le width v

theorem dybNextTypdex_index_le {b b' : Dybuf} {f : Nat × Nat}
    (h : dybNextTypdex b = .ok (f, b')) : f.2 ≤ 0xFFFFF := by
  obtain ⟨typ, b1, -, h⟩ := bind_eq_ok.mp h
  simp only [ite_run] at h
  split_ifs at h
  · exact fields_index_le h
  · exact fields_index_le h
  · exact fields_index_le h
  · exact fields_index_le h
  · cases h
    exact Nat.zero_le _

theorem dybPeekTypdex_index_le {b b' : Dybuf} {f : Nat × Nat}
    (h : dybPeekTypdex b = .ok (f, b')) : f.2 ≤ 0xFFFFF := by
  obtain ⟨typ, b1, -, h⟩ := bind_eq_ok.mp h
  simp only [ite_run] at h
  split_ifs at h
  · exact fields_index_le h
  · exact fields_index_le h
  · exact fields_index_le h
  · exact fields_index_le h
  · cases h
    exact Nat.zero_le _

variable (host : Host)

def Found (index : Nat) (i : Item) (b : Dybuf) : Prop :=
  i.index = index ∧ (b.data.length < 2 ^ 32 → Sized i)

theorem nextValue_found (type index : Nat) : Yields (Found index) (nextValue host type index) := by
  have hread : ∀ {β : Type} {x : DybM β} {f : β → Item},
      (∀ v, (f v).index = index ∧ Sized (f v)) →
      Yields (Found index) (do let v ← x; return some (f v)) := fun hf =>
    Yields.bind fun v => Yields.some fun _ => ⟨(hf v).1, fun _ => (hf v).2⟩
  refine Yields.ite (fun _ => ?_) (Yields.ite (fun _ => hread fun _ => ⟨rfl, trivial⟩) ?_)
  · refine Yields.ite (fun h => hread fun _ => ⟨h.symm, trivial⟩) ?_
    refine Yields.ite (fun h => hread fun _ => ⟨h.symm, trivial⟩) ?_
    refine Yields.ite (fun h => ?_) ?_
    · exact Yields.bind fun _ => Yields.cstring fun _ _ hlt =>
        ⟨h.symm, fun hd => by simp only [Sized]; omega⟩
    · exact Yields.ite (fun h => hread fun _ => ⟨h.symm, trivial⟩) Yields.none
  refine Yields.ite (fun _ => hread fun _ => ⟨rfl, trivial⟩) ?_
  refine Yields.ite (fun _ => hread fun _ => ⟨rfl, trivial⟩) ?_
  refine Yields.ite (fun _ => hread fun _ => ⟨rfl, trivial⟩) ?_
  refine Yields.ite (fun _ => hread fun _ => ⟨rfl, trivial⟩) ?_
  refine Yields.ite (fun _ => ?_) (Yields.ite (fun _ => ?_) Yields.none)
  · exact Yields.bind fun _ => Yields.cstring fun _ _ hlt =>
      ⟨rfl, fun hd => by simp only [Sized]; omega⟩
  · exact Yields.bind fun _ => hread fun _ => ⟨rfl, trivial⟩

theorem nextItem_found {b b' : Dybuf} {i : Item} (h : nextItem host b = .ok (some i, b')) :
    i.index ≤ 0xFFFFF ∧ (b'.data.length < 2 ^ 32 → Sized i) := by
  obtain ⟨f, b1, hf, hv⟩ := bind_eq_ok.mp h
  obtain ⟨hi, hs⟩ := nextValue_found host f.1 f.2 b1 i b' hv
  exact ⟨hi.trans_le (dybPeekTypdex_index_le hf), hs⟩

def FoundPacked (index : Nat) (c : Packed) (b : Dybuf) : Prop :=
  c.record.index = index ∧ ∀ num name, c = .className num name → b.data.length < 2 ^ 32 →
    name.length + 1 < 2 ^ 32

theorem takePacked_found (isOpen : Bool) (type index : Nat) :
    Yields (FoundPacked index) (takePacked host isOpen type index) := by
  have hread : ∀ {β : Type} {x : DybM β} {f : β → Packed},
      (∀ v, (f v).record.index = index ∧ ∀ num name, f v ≠ .className num name) →
      Yields (FoundPacked index) (do let v ← x; return some (f v)) := fun hf =>
    Yields.bind fun v => Yields.some fun _ =>
      ⟨(hf v).1, fun num name h => absurd h ((hf v).2 num name)⟩
  have hheader : ∀ {c : Packed}, c.record.index = index → (∀ num name, c ≠ .className num name) →
      Yields (FoundPacked index) (pure (some c)) := fun hi hc =>
    Yields.some fun _ => ⟨hi, fun num name h => absurd h (hc num name)⟩
  refine Yields.ite (fun _ => hread fun _ => ⟨rfl, nofun⟩) ?_
  refine Yields.ite (fun _ => hread fun _ => ⟨rfl, nofun⟩) ?_
  refine Yields.ite (fun _ => hread fun _ => ⟨rfl, nofun⟩) ?_
  refine Yields.ite (fun _ => Yields.bind fun _ => hread fun _ => ⟨rfl, nofun⟩) ?_
  refine Yields.ite (fun _ => hread fun size => ?_) ?_
  · split
    · exact ⟨rfl, nofun⟩
    · exact ⟨rfl, nofun⟩
  refine Yields.ite (fun _ => hread fun _ => ⟨rfl, nofun⟩) ?_
  refine Yields.ite (fun _ => Yields.ite (fun _ => hheader rfl nofun)
    (hread fun _ => ⟨rfl, nofun⟩)) ?_
  refine Yields.ite (fun _ => hheader rfl nofun) ?_
  refine Yields.ite (fun _ => Yields.ite (fun h => ?_) Yields.none) ?_
  · exact Yields.bind fun _ => Yields.bind fun _ => Yields.cstring fun _ _ hlt =>
      ⟨h.symm, fun num name hc hd => by cases hc; omega⟩
  · exact Yields.ite (fun _ => Yields.ite (fun h => hread fun _ => ⟨h.symm, nofun⟩) Yields.none)
      Yields.none

theorem nextPacked_found {isOpen : Bool} {b b' : Dybuf} {c : Packed}
    (h : nextPacked host isOpen b = .ok (some c, b')) :
    c.record.index ≤ 0xFFFFF ∧ ∀ num name, c = .className num name →
      b'.data.length < 2 ^ 32 → name.length + 1 < 2 ^ 32 := by
  obtain ⟨f, b1, hf, hv⟩ := bind_eq_ok.mp h
  obtain ⟨hi, hs⟩ := takePacked_found host isOpen f.1 f.2 b1 c b' hv
  exact ⟨hi.trans_le (dybNextTypdex_index_le hf), hs⟩

end Reading

section Process

def Keeps {α : Type} (x : ProcM α) : Prop := ∀ p a p', x p = .ok (a, p') → p'.dyb = p.dyb

/-- Where `process` goes on, it has taken from its input what a reader takes. -/
def Takes {β : Type} (p : Parser) (x : ProcM (Option Bool)) (y : DybM β) : Prop :=
  ∀ p' v d, x p = .ok (none, p') → y p.dyb = .ok (v, d) → p'.dyb = d

variable {host : Host} {α β γ : Type} {p : Parser}

theorem Keeps.pure (a : α) : Keeps (pure a) := fun _ _ _ h => by
  cases h
  rfl

theorem Keeps.throw (f : Fault) : Keeps (throw f : ProcM α) := nofun

theorem Keeps.modify {g : Parser → Parser} (h : ∀ q, (g q).dyb = q.dyb) : Keeps (modify g) :=
  fun q _ _ hx => by
    cases hx
    exact h q

theorem Keeps.bind {x : ProcM γ} {f : γ → ProcM α} (hx : Keeps x) (hf : ∀ c, Keeps (f c)) :
    Keeps (x >>= f) := by
  intro p a p' h
  obtain ⟨c, p1, h1, h2⟩ := step_eq_ok.mp h
  exact (hf c p1 a p' h2).trans (hx p c p1 h1)

theorem Keeps.get : Keeps get := fun _ _ _ h => by
  cases h
  rfl

theorem alloc_keeps (value : Gen) : Keeps (alloc value) := fun _ _ _ h => by
  cases h
  rfl

theorem getLastItem_keeps : Keeps getLastItem := Keeps.bind Keeps.get fun p => by
  split
  · exact Keeps.throw _
  · exact Keeps.pure _

theorem popItem_keeps : Keeps popItem := Keeps.bind Keeps.get fun p => by
  split
  · exact Keeps.throw _
  · exact Keeps.modify fun _ => rfl

theorem pushItem_keeps (a : Mmo.Object.Addr) : Keeps (pushItem a) := Keeps.modify fun _ => rfl

theorem popUntil_keeps (obj : Mmo.Object.Addr) : Keeps (popUntil obj) := by
  intro p a p' h
  unfold popUntil at h
  split at h
  · cases h
    rfl
  · cases h

theorem pushIntoStack_keeps (index : Nat) (value : Mmo.Object.Addr) :
    Keeps (pushIntoStack host index value) :=
  Keeps.bind getLastItem_keeps fun _ => Keeps.bind Keeps.get fun p => by
    split
    · exact Keeps.modify fun _ => rfl
    · exact Keeps.modify fun _ => rfl
    · exact Keeps.pure _
    · exact Keeps.throw _

theorem processValue_keeps (index : Nat) (value : Gen) : Keeps (processValue host index value) :=
  Keeps.bind (alloc_keeps value) fun _ => Keeps.bind (pushIntoStack_keeps index _) fun _ =>
    Keeps.pure _

theorem cstringAt_same {string : Option Nat} {b b' : Dybuf} {v : List UInt8}
    (h : cstringAt string b = .ok (v, b')) : b' = b := by
  rw [cstringAt, get_bind] at h
  cases string with
  | none => cases h
  | some off =>
    simp only [ite_run] at h
    split at h
    · cases h
      rfl
    · cases h

theorem cstringAt_keeps (string : Option Nat) : Keeps (Process.onDyb (cstringAt string)) := by
  intro p a p' h
  unfold Process.onDyb at h
  split at h
  case h_1 d hd =>
    cases h
    exact cstringAt_same hd
  case h_2 => cases h

theorem pushKeyVal_keeps {key : ProcM (List UInt8)} (hk : Keeps key) (value : Mmo.Object.Addr) :
    Keeps (pushKeyVal key value) :=
  Keeps.bind getLastItem_keeps fun _ => Keeps.bind Keeps.get fun p => by
    split
    · exact Keeps.bind hk fun _ => Keeps.modify fun _ => rfl
    · exact Keeps.pure _
    · exact Keeps.throw _

theorem Takes.read {z : DybM γ} {f : γ → ProcM (Option Bool)} {g : γ → DybM β}
    (h : ∀ v d, Takes { p with dyb := d } (f v) (g v)) :
    Takes p (Process.onDyb z >>= f) (z >>= g) := by
  intro p' v d hx hy
  obtain ⟨w, d1, hz, hg⟩ := bind_eq_ok.mp hy
  have hread : Process.onDyb z p = .ok (w, { p with dyb := d1 }) := by rw [Process.onDyb, hz]
  rw [step_ok hread] at hx
  exact h w d1 p' v d hx hg

theorem Takes.first {x : ProcM γ} {f : γ → ProcM (Option Bool)} {y : DybM β} (hx : Keeps x)
    (h : ∀ c p1, Takes p1 (f c) y) : Takes p (x >>= f) y := by
  intro p' v d hrun hy
  obtain ⟨c, p1, h1, hf⟩ := step_eq_ok.mp hrun
  have hd : p1.dyb = p.dyb := hx p c p1 h1
  exact h c p1 p' v d hf (by rw [hd]; exact hy)

theorem Takes.rest {x : ProcM (Option Bool)} (hx : Keeps x) (v : β) : Takes p x (pure v) := by
  intro p' w d h hy
  cases hy
  exact hx p none p' h

theorem Takes.get {f : Parser → ProcM (Option Bool)} {y : DybM β} (h : Takes p (f p) y) :
    Takes p (get >>= f) y := h

theorem Takes.answer (answer : Bool) (y : DybM β) : Takes p (pure (some answer)) y := nofun

theorem Takes.ite {c : Prop} [Decidable c] {x x' : ProcM (Option Bool)} {y y' : DybM β}
    (h : c → Takes p x y) (h' : ¬c → Takes p x' y') :
    Takes p (if c then x else x') (if c then y else y') := by
  by_cases hc : c
  · rw [if_pos hc, if_pos hc]
    exact h hc
  · rw [if_neg hc, if_neg hc]
    exact h' hc

theorem processArray_takes (index : Nat) (f : Nat → Option Packed) :
    Takes p (processArray host index) (do return f (← dybNextVarU64)) := by
  refine Takes.read fun size d => Takes.rest ?_ _
  split
  · exact Keeps.bind (alloc_keeps _) fun _ => Keeps.bind (pushIntoStack_keeps _ _) fun _ =>
      Keeps.bind (Keeps.modify fun _ => rfl) fun _ => Keeps.pure _
  · exact Keeps.bind popItem_keeps fun _ => Keeps.pure _

theorem processObject_takes (index : Nat) :
    Takes p (processObject index) (if p.currentObj.isSome then pure (some (.objectEnd index))
      else do return some (Packed.object index (← dybNextVarU64))) := by
  refine Takes.get ?_
  cases hobj : p.currentObj with
  | none =>
    refine Takes.first (alloc_keeps _) fun obj p1 => ?_
    refine Takes.first (Keeps.modify fun _ => rfl) fun _ p2 => Takes.read fun num d => ?_
    refine Takes.get ?_
    split
    · exact Takes.answer _ _
    · refine Takes.rest (Keeps.bind (pushItem_keeps obj) fun _ => ?_) _
      exact Keeps.bind (Keeps.modify fun _ => rfl) fun _ =>
        Keeps.bind (cstringAt_keeps _) fun _ => Keeps.bind (alloc_keeps _) fun _ =>
        Keeps.bind (pushKeyVal_keeps (Keeps.pure _) _) fun _ => Keeps.pure _
  | some obj =>
    refine Takes.get ?_
    split
    · exact Takes.answer _ _
    · rw [if_pos (Option.isSome_some (a := obj))]
      refine Takes.rest (Keeps.bind (popUntil_keeps obj) fun _ => ?_) _
      exact Keeps.bind (Keeps.modify fun _ => rfl) fun _ => Keeps.bind popItem_keeps fun _ =>
        Keeps.pure _

theorem processContext_takes (index : Nat) (c : Packed) :
    Takes p (processContext index) (pure (some c)) := by
  refine Takes.rest (Keeps.bind Keeps.get fun q => ?_) _
  split
  · exact Keeps.pure _
  · refine Keeps.bind Keeps.get fun q => ?_
    split
    · exact Keeps.pure _
    · exact Keeps.bind (popUntil_keeps _) fun _ => Keeps.bind (alloc_keeps _) fun _ =>
        Keeps.bind (pushKeyVal_keeps (cstringAt_keeps _) _) fun _ =>
        Keeps.bind (Keeps.modify fun _ => rfl) fun _ => Keeps.pure _

theorem processDb_takes (index : Nat) :
    Takes p (processDb index) (if index = pkrdbClassNames then do
      let num ← dybNextVarU64
      let (name, _) ← dybNextCstringWithVarLen
      let name ← cstringAt name
      return some (Packed.className num name) else pure none) := by
  refine Takes.ite (fun _ => Takes.read fun num d => Takes.get ?_) fun _ => Takes.answer _ _
  split
  · exact Takes.answer _ _
  · refine Takes.read fun name d => ?_
    intro p' v d' hx hy
    have hkeep : Keeps (do
        modify fun p => { p with idToClassName := p.idToClassName ++ [(int32 num, name.1)] }
        return (none : Option Bool)) := Keeps.bind (Keeps.modify fun _ => rfl) fun _ => Keeps.pure _
    obtain ⟨string, d1, hs, hr⟩ := bind_eq_ok.mp hy
    cases hr
    rw [hkeep _ _ _ hx, cstringAt_same hs]

theorem processRecord_takes (type index : Nat) :
    Takes p (processRecord host type index) (takePacked host p.currentObj.isSome type index) := by
  have hvalue : ∀ {α : Type} {x : DybM α} {g : α → Gen} {f : α → Packed},
      Takes p (do let v ← Process.onDyb x; processValue host index (g v))
        (do let v ← x; return some (f v)) :=
    Takes.read fun v d => Takes.rest (processValue_keeps index _) _
  refine Takes.ite (fun _ => hvalue) fun _ => ?_
  refine Takes.ite (fun _ => hvalue) fun _ => ?_
  refine Takes.ite (fun _ => hvalue) fun _ => ?_
  refine Takes.ite (fun _ => ?_) fun _ => ?_
  · exact Takes.read fun v d => Takes.read fun data d => Takes.rest (processValue_keeps index _) _
  refine Takes.ite (fun _ => processArray_takes index _) fun _ => ?_
  refine Takes.ite (fun _ => hvalue) fun _ => ?_
  refine Takes.ite (fun _ => processObject_takes index) fun _ => ?_
  refine Takes.ite (fun _ => processContext_takes index _) fun _ => ?_
  refine Takes.ite (fun _ => processDb_takes index) fun _ => ?_
  refine Takes.ite (fun _ => ?_) fun _ => Takes.answer _ _
  exact Takes.ite (fun _ => Takes.read fun v d => Takes.rest (Keeps.pure _) _) fun _ =>
    Takes.answer _ _

/-- A round of `process` that goes on has taken exactly the record that is read here. -/
theorem processRound_takes :
    Takes p (processRound host) (nextPacked host p.currentObj.isSome) := by
  refine Takes.get ?_
  split
  · exact Takes.answer _ _
  · exact Takes.read fun header d => processRecord_takes header.1 header.2

end Process

section Bytes

variable {host : Host} {b b' : Dybuf} {r : List UInt8}

theorem takeData_bytes {data : List UInt8} {off : Nat}
    (h : data ≠ [] → b.data.drop off = data ++ r) :
    takeData (if data = [] then none else some off) data.length b = .ok (data, b) := by
  rw [takeData, get_bind]
  by_cases he : data = []
  · rw [he]
    rfl
  · have hpos : data.length ≠ 0 := fun h0 => he (List.length_eq_zero_iff.mp h0)
    have hd := h he
    have hle : off + data.length ≤ b.data.length := by
      have hlen := congrArg List.length hd
      rw [List.length_drop, List.length_append] at hlen
      omega
    rw [if_neg hpos, if_neg he]
    simp only [ite_run, if_pos hle, hd, List.take_left']
    rfl

theorem nextPacked_bytes {c : Packed} (ht : c.Typed)
    (hsize : ∀ key len, c = .array key len → len + 1 < 2 ^ 32)
    (hname : ∀ num name, c = .className num name → name.length + 1 < 2 ^ 32)
    (hfits : typdexFits c.record.type c.record.index)
    (hlt : b.data.length < 2 ^ 32) (hlim : b.limit < 2 ^ 32)
    (h : rest b = c.record.bytes host ++ r)
    (hfit : b.position + (c.record.bytes host).length ≤ b.limit) :
    nextPacked host c.isOpen b = .ok (some c, advance (c.record.bytes host).length b) := by
  rw [Record.bytes, List.append_assoc] at h
  rw [Record.bytes, List.length_append] at hfit
  have hr := rest_advance h
  rw [nextPacked, bind_ok (dybNextTypdex_bytes hlt hfits h), Record.bytes, List.length_append,
    ← advance_advance]
  generalize hb1 : advance (typdexBytes c.record.type c.record.index).length b = b1 at hr ⊢
  have hlt1 : b1.data.length < 2 ^ 32 := by rw [← hb1]; exact hlt
  have hlim1 : b1.limit < 2 ^ 32 := by rw [← hb1]; exact hlim
  have hfit1 : b1.position + (c.record.value host).length ≤ b1.limit := by
    rw [← hb1, advance_position, advance_limit]
    omega
  cases c with
  | varInt key value =>
    exact bind_ok (f := fun v => pure (some (Packed.varInt key v))) (dybNextVarS64_bytes hlt1 ht hr)
  | float key value =>
    have hf : dybNextFloat host b1 = _ := dybNextFloat_bytes hlt1 ht hr
    have hl : ((Packed.float key value).record.value host).length = 4 := toBytes_length _ _
    rw [hl]
    exact bind_ok (f := fun v => pure (some (Packed.float key v))) hf
  | double key value =>
    have hf : dybNextDouble host b1 = _ := dybNextDouble_bytes hlt1 ht hr
    have hl : ((Packed.double key value).record.value host).length = 8 := toBytes_length _ _
    rw [hl]
    exact bind_ok (f := fun v => pure (some (Packed.double key v))) hf
  | data key value =>
    have hv : (Packed.data key value).record.value host = dataBytes value := by
      rw [Packed.record, Record.value, uint_of_lt ht, List.take_length]
    rw [hv] at hr hfit1 ⊢
    have hcount := rest_advance (b := b1) (e := varBytes value.length) (r := value ++ r)
      (by rw [hr, dataBytes, List.append_assoc])
    refine (bind_ok (f := fun p => do
      let data ← takeData p.1 p.2
      return some (Packed.data key data)) (dybNextDataWithVarLen_bytes hlt1 hlim1 hr hfit1)).trans
      (bind_ok (takeData_bytes (b := advance (dataBytes value).length b1) fun _ => hcount))
  | array key len =>
    have hlen := hsize key len rfl
    have hv : (Packed.array key len).record.value host = varBytes (len + 1) := by
      rw [Packed.record, Record.value, uint_of_lt hlen]
    rw [hv] at hr ⊢
    exact bind_ok (f := fun size => pure (some
        (if size > 0 then Packed.array key (size - 1) else Packed.arrayEnd key)))
      (dybNextVarU64_bytes hlt1 (by omega) hr)
  | arrayEnd key =>
    exact bind_ok (f := fun size => pure (some
        (if size > 0 then Packed.array key (size - 1) else Packed.arrayEnd key)))
      (dybNextVarU64_bytes hlt1 (by decide) hr)
  | objectRef key num =>
    have hnum : num < 2 ^ 32 := ht
    exact bind_ok (f := fun v => pure (some (Packed.objectRef key v)))
      (dybNextVarU64_bytes hlt1 (by omega) hr)
  | object num classnameNum =>
    have hnum : classnameNum < 2 ^ 32 := ht
    exact bind_ok (f := fun v => pure (some (Packed.object num v)))
      (dybNextVarU64_bytes hlt1 (by omega) hr)
  | objectEnd num | context classnameNum => rfl
  | className num name =>
    obtain ⟨hnum, h0⟩ := ht
    have hv : (Packed.className num name).record.value host =
        varBytes num ++ dataBytes (name ++ [0]) := by
      rw [Packed.record, Record.value, cstringData_of_lt (hname num name rfl)]
    rw [hv, List.append_assoc] at hr
    rw [hv, List.length_append] at hfit1
    rw [hv, List.length_append, ← advance_advance]
    obtain ⟨off, size, hc, hs⟩ := cstring_bytes (b := advance (varBytes num).length b1) hlt1
      hlim1 h0 (rest_advance hr) (by rw [advance_position, advance_limit]; omega)
    refine (bind_ok (f := fun num => do
      let p ← dybNextCstringWithVarLen
      let name ← cstringAt p.1
      return some (Packed.className num name)) (dybNextVarU64_bytes hlt1 (by omega) hr)).trans ?_
    refine (bind_ok (f := fun p => do
      let name ← cstringAt p.1
      return some (Packed.className num name)) hc).trans (bind_ok
      (hs (advance (dataBytes (name ++ [0])).length (advance (varBytes num).length b1)) rfl))
  | version v =>
    exact bind_ok (f := fun v => pure (some (Packed.version v))) (dybNextVarU64_bytes hlt1 ht hr)

theorem varBytes_ne_nil (value : Nat) : varBytes value ≠ [] := by
  unfold varBytes
  split_ifs <;> exact List.cons_ne_nil _ _

theorem toBytes_ne_nil {n v : Nat} (h : 0 < n) : toBytes n v ≠ [] := fun he => by
  have hl := toBytes_length n v
  rw [he, List.length_nil] at hl
  omega

end Bytes

section Refusal

variable {host : Host} {b b' : Dybuf} {a : TypedAppend}

theorem itemWritten_writes {i : Item} (ht : i.Typed) :
    Writes (i.append host) () (itemWritten host i) := by
  cases i with
  | protocol string | cstring _ string =>
    exact appendTagged_writes (dybAppendCstringWithVarLen_take_writes string)
  | eof => exact appendTagged_writes (Writes.nothing ())
  | version v | protocolVersion v | uint _ v => exact appendTagged_writes (dybAppendVarU64_writes v)
  | bool _ value => exact appendTagged_writes (dybAppendBool_writes value)
  | int _ value => exact appendTagged_writes (dybAppendVarS64_writes value)
  | float _ value => exact appendTagged_writes (appendUint_writes 4 _)
  | double _ value => exact appendTagged_writes (appendUint_writes 8 _)
  | data _ bs => exact appendTagged_writes (dybAppendDataWithVarLen_writes ht)

theorem TypedAppend.append_writes (ht : a.Typed) : Writes (a.append host) () (a.written host) := by
  cases a with
  | item i => exact itemWritten_writes ht
  | packed c => exact c.record.append_writes host

theorem itemWritten_of_sized {i : Item} (h : Sized i) : itemWritten host i = i.bytes host := by
  cases i with
  | protocol string | cstring _ string =>
    rw [itemWritten, cstringData_of_lt h]
    rfl
  | _ => rfl

theorem itemWritten_ne_nil (i : Item) : itemWritten host i ≠ [] := by
  intro h
  cases i with
  | eof =>
    have hne : typdexBytes dypeF dypeFEof ≠ [] := typdexBytes_ne_nil (by decide)
    exact hne (List.append_eq_nil_iff.mp h).1
  | protocol string | cstring _ string | data _ string =>
    exact varBytes_ne_nil _ (List.append_eq_nil_iff.mp (List.append_eq_nil_iff.mp h).2).1
  | version v | protocolVersion v | uint _ v | int _ v =>
    exact varBytes_ne_nil _ (List.append_eq_nil_iff.mp h).2
  | bool _ value => exact List.cons_ne_nil _ _ (List.append_eq_nil_iff.mp h).2
  | float _ v | double _ v => exact toBytes_ne_nil (by decide) (List.append_eq_nil_iff.mp h).2

theorem recordBytes_nil {c : Packed} (h : c.record.bytes host = []) :
    c.Encodable ∧ c.record.append host = pure () := by
  obtain ⟨ht, hv⟩ := List.append_eq_nil_iff.mp h
  have hunfit : ¬typdexFits c.record.type c.record.index := fun hf => typdexBytes_ne_nil hf ht
  cases c with
  | objectEnd num | context classnameNum =>
    refine ⟨trivial, ?_⟩
    rw [Record.append, dybAppendTypdex_unfit hunfit, pure_bind]
    rfl
  | varInt key v | array key v | arrayEnd key | objectRef key v | object key v | version v =>
    exact absurd hv (varBytes_ne_nil _)
  | float key v | double key v => exact absurd hv (toBytes_ne_nil (by decide))
  | data key v | className key v =>
    exact absurd (List.append_eq_nil_iff.mp hv).1 (varBytes_ne_nil _)

theorem TypedAppend.written_nil (h : a.written host = []) :
    a.Encodable ∧ a.append host = pure () := by
  cases a with
  | item i => exact absurd h (itemWritten_ne_nil i)
  | packed c => exact recordBytes_nil h

theorem Appended.rest_old {e : List UInt8} (h : Appended b e b') (hok : b.Ok) :
    rest { b' with position := b.position } = e ++ b'.data.drop b'.position := by
  have hp : b.position ≤ b.data.length := by
    have := hok.position_le
    have := hok.limit_le
    have := hok.length_eq
    omega
  have hl : (b.data.take b.position).length = b.position := by
    rw [List.length_take, Nat.min_eq_left hp]
  calc rest { b' with position := b.position }
      = (b'.data.take b'.position ++ b'.data.drop b'.position).drop b.position := by
        rw [List.take_append_drop]
        rfl
    _ = e ++ b'.data.drop b'.position := by
        rw [h.written, List.append_assoc, List.drop_left' hl]

/-- What is written in full is read back. -/
theorem TypedAppend.next_written (ht : a.Typed) (he : a.Encodable)
    (h : Appended b (a.written host) b') (hok : b.Ok) (hne : a.written host ≠ []) :
    a.next host { b' with position := b.position } = .ok (some a, b') := by
  have hlen := h.ok.length_eq
  have hcap := h.ok.capacity_lt
  have hlim := h.ok.limit_le
  have hle := h.ok.position_le
  have hpos := h.position_eq
  have hrest := Appended.rest_old h hok
  have hend : advance (a.written host).length { b' with position := b.position } = b' := by
    rw [advance, ← hpos]
  cases a with
  | item i =>
    obtain ⟨hi, hs⟩ := he
    have hw : itemWritten host i = i.bytes host := itemWritten_of_sized hs
    rw [TypedAppend.written, hw] at hrest hpos hend
    have hnext : nextItem host { b' with position := b.position } = _ :=
      nextItem_bytes ht hi (by dsimp only; omega) (by dsimp only; omega) hrest
        (by dsimp only; omega)
    rw [hend] at hnext
    exact bind_ok (f := fun o => pure (o.map TypedAppend.item)) hnext
  | packed c =>
    have hfits : typdexFits c.record.type c.record.index := by
      refine ⟨c.record.type_le, ?_⟩
      cases c with
      | array key len => exact he.1
      | objectEnd num | context classnameNum =>
        by_contra hbig
        refine hne ?_
        rw [TypedAppend.written, Record.bytes, typdexBytes, if_neg fun hf => hbig hf.2]
        rfl
      | className num name => exact Nat.le_of_ble_eq_true rfl
      | _ => exact he
    have hnext : nextPacked host c.isOpen { b' with position := b.position } = _ :=
      nextPacked_bytes ht (fun key len hc => by subst hc; exact he.2)
        (fun num name hc => by subst hc; exact he) hfits (by dsimp only; omega)
        (by dsimp only; omega) hrest (by dsimp only [TypedAppend.written] at hpos ⊢; omega)
    rw [show advance (c.record.bytes host).length { b' with position := b.position } = b' from hend]
      at hnext
    exact bind_ok (f := fun o => pure (o.map TypedAppend.packed)) hnext

/-- What is read back has an index that the header carries. -/
theorem TypedAppend.encodable_of_next (ht : a.Typed) (h : Appended b (a.written host) b')
    (hok : b.Ok) (hnext : a.next host { b' with position := b.position } = .ok (some a, b')) :
    a.Encodable := by
  have hlen := h.ok.length_eq
  have hcap := h.ok.capacity_lt
  have hlim := h.ok.limit_le
  have hle := h.ok.position_le
  have hpos := h.position_eq
  have hrest := Appended.rest_old h hok
  cases a with
  | item i =>
    obtain ⟨o, b1, ho, hr⟩ := bind_eq_ok.mp hnext
    cases o with
    | none => cases hr
    | some j =>
      cases hr
      obtain ⟨hi, hs⟩ := nextItem_found host ho
      exact ⟨hi, hs (by omega)⟩
  | packed c =>
    obtain ⟨o, b1, ho, hr⟩ := bind_eq_ok.mp hnext
    cases o with
    | none => cases hr
    | some d =>
      cases hr
      obtain ⟨hi, hname⟩ := nextPacked_found host ho
      cases c with
      | array key len =>
        refine ⟨hi, ?_⟩
        by_contra hwrap
        have hl : len < 2 ^ 32 := ht
        -- the size wraps around to the one of an array end
        have hrec : (Packed.array key len).record = (Packed.arrayEnd key).record := by
          rw [Packed.record, Packed.record, show len + 1 = 2 ^ 32 by omega]
          rfl
        rw [TypedAppend.written, hrec] at hrest hpos
        have hend : nextPacked host false { b' with position := b.position } = _ :=
          nextPacked_bytes (c := .arrayEnd key) trivial nofun nofun
            ⟨(Packed.arrayEnd key).record.type_le, hi⟩ (by dsimp only; omega) (by dsimp only; omega)
            hrest
            (by dsimp only; omega)
        rw [show nextPacked host false { b' with position := b.position } = _ from ho] at hend
        cases hend
      | objectEnd num | context classnameNum => trivial
      | className num name => exact hname num name rfl (by omega)
      | _ => exact hi

theorem Whole.encodable (ht : a.Typed) (hok : b.Ok) (h : Whole host a b) :
    Room b (a.written host).length ∧ a.Encodable := by
  obtain ⟨b', hrun, hcase⟩ := h
  have hroom : Room b (a.written host).length := by
    by_contra hno
    obtain ⟨off, hbad⟩ := (TypedAppend.append_writes ht).fault b hok hno
    rw [hrun] at hbad
    cases hbad
  obtain ⟨b1, hrun1, happ⟩ := (TypedAppend.append_writes ht).ok b hok hroom
  obtain rfl : b' = b1 := by
    rw [hrun] at hrun1
    cases hrun1
    rfl
  refine ⟨hroom, ?_⟩
  obtain hnext | ⟨-, hpos⟩ := hcase
  · exact TypedAppend.encodable_of_next ht happ hok hnext
  · have hlen := happ.position_eq
    have hnil : a.written host = [] := List.length_eq_zero_iff.mp (by omega)
    exact (TypedAppend.written_nil hnil).1

/-- A typed append is never half-written exactly where there is room for its bytes, its
header carries the index and its size is no `uint` that wraps around. -/
theorem whole_iff (host : Host) {a : TypedAppend} {b : Dybuf} (ht : a.Typed) (hok : b.Ok) :
    Whole host a b ↔ Room b (a.written host).length ∧ a.Encodable := by
  refine ⟨Whole.encodable ht hok, fun ⟨hroom, he⟩ => ?_⟩
  obtain ⟨b', hrun, happ⟩ := (TypedAppend.append_writes ht).ok b hok hroom
  by_cases hne : a.written host = []
  · refine ⟨b, ?_, .inr ⟨rfl, rfl⟩⟩
    rw [(TypedAppend.written_nil hne).2]
    rfl
  · exact ⟨b', hrun, .inl (TypedAppend.next_written ht he happ hok hne)⟩

theorem whole_iff_object :
    Whole .little (.packed (.object 0xFFFFF 3)) (dybCreate 64) ↔
      Room (dybCreate 64) ((TypedAppend.packed (.object 0xFFFFF 3)).written .little).length ∧
        (TypedAppend.packed (.object 0xFFFFF 3)).Encodable :=
  whole_iff .little (by decide : 3 < 2 ^ 32) ⟨by decide, by decide, by decide, by decide, by decide⟩

/-- The first index that no header carries leaves a bare value behind. -/
theorem not_whole :
    ¬∀ (host : Host) (a : TypedAppend) (b : Dybuf), a.Typed → b.Ok →
      Room b (a.written host).length → Whole host a b := by
  intro h
  have hok : (dypPack none 0).Ok := ⟨by decide, by decide, by decide, by decide, by decide⟩
  have hw := h .little (.item (.bool 1048576 true)) (dypPack none 0) trivial hok
    ⟨by decide, fun hf => by cases hf⟩
  have hfit : 1048576 ≤ 0xFFFFF :=
    (Whole.encodable (a := .item (.bool 1048576 true)) trivial hok hw).2.1
  exact absurd hfit (by decide)

end Refusal

end LcClibs.Pack.Refusal
