import Mathlib
import LcClibs.Pack.Process

namespace LcClibs.Pack.Nesting

open Platform Lib Lib.BigEndian Lib.PrefixCode
open Buffer.Cursor Buffer.Next Buffer.Typdex Buffer.VarInt Mmo.Object Pack.Records Pack.Process

section Decoding

/-- The header at the start of some bytes and what follows it. -/
def readHeader (bs : List UInt8) : Option ((Nat × Nat) × List UInt8) :=
  match bs with
  | [] => none
  | first :: body =>
    if headerWidth first ≤ body.length + 1 then
      some (headerOf first body, (first :: body).drop (headerWidth first))
    else none

def readVar (bs : List UInt8) : Option (Nat × List UInt8) :=
  match bs with
  | [] => none
  | first :: body =>
    if widthOf first ≤ body.length + 1 then
      some (varValue first body, (first :: body).drop (widthOf first))
    else none

def readUint (k : Nat) (bs : List UInt8) : Option (Nat × List UInt8) :=
  if k ≤ bs.length then some (ofBytes (bs.take k), bs.drop k) else none

/-- A buffer made over `n` bytes of which the given ones are still to be read. -/
structure At (n : Nat) (b : Dybuf) (bs : List UInt8) : Prop where
  length_eq : b.data.length = n
  limit_eq : b.limit = n
  lt : n < 2 ^ 32
  position_eq : b.position + bs.length = n
  rest_eq : rest b = bs

theorem At.advance {n k : Nat} {b : Dybuf} {bs : List UInt8} (h : At n b bs) (hk : k ≤ bs.length) :
    At n (advance k b) (bs.drop k) where
  length_eq := h.length_eq
  limit_eq := h.limit_eq
  lt := h.lt
  position_eq := by
    have := h.position_eq
    rw [advance_position, List.length_drop]
    omega
  rest_eq := by
    have hb : rest b = bs.take k ++ bs.drop k := by rw [List.take_append_drop, h.rest_eq]
    have hr := rest_advance hb
    rwa [List.length_take, Nat.min_eq_left hk] at hr

theorem At.data_lt {n : Nat} {b : Dybuf} {bs : List UInt8} (h : At n b bs) :
    b.data.length < 2 ^ 32 :=
  h.length_eq ▸ h.lt

theorem At.limit_lt {n : Nat} {b : Dybuf} {bs : List UInt8} (h : At n b bs) : b.limit < 2 ^ 32 :=
  h.limit_eq ▸ h.lt

theorem At.after {n : Nat} {b : Dybuf} {e bs : List UInt8} (h : At n b (e ++ bs)) :
    At n (Buffer.Next.advance e.length b) bs := by
  have ha := h.advance (k := e.length) (by rw [List.length_append]; omega)
  rwa [List.drop_left] at ha

theorem At.fits {n : Nat} {b : Dybuf} {e bs : List UInt8} (h : At n b (e ++ bs)) :
    b.position + e.length ≤ b.limit := by
  have hpos := h.position_eq
  rw [List.length_append] at hpos
  rw [h.limit_eq]
  omega

theorem At.remainder {n : Nat} {b : Dybuf} {bs : List UInt8} (h : At n b bs) :
    dybGetRemainder b = bs.length := by
  have hpos := h.position_eq
  have hn := h.lt
  rw [dybGetRemainder, h.limit_eq, uintSub_of_le (by omega) hn]
  omega

/-- A reader and what it reads off the bytes before it; where these do not suffice,
it runs over their end. -/
def Decodes {α : Type} (x : DybM α) (g : List UInt8 → Option (α × List UInt8)) : Prop :=
  ∀ n b bs, At n b bs →
    match g bs with
    | none => ∃ f, x b = .error f
    | some (a, bs') => ∃ k, k ≤ bs.length ∧ bs' = bs.drop k ∧ x b = .ok (a, advance k b)

theorem dybNextTypdex_decodes : Decodes dybNextTypdex readHeader := by
  intro n b bs h
  have hlt : b.data.length < 2 ^ 32 := h.length_eq ▸ h.lt
  have hp : b.position ≤ b.data.length := by
    have := h.position_eq
    rw [h.length_eq]
    omega
  cases bs with
  | nil =>
    obtain ⟨off, he⟩ := dybNextTypdex_fault hlt hp fun first r hr => by
      rw [h.rest_eq] at hr
      cases hr
    exact ⟨_, he⟩
  | cons first body =>
    unfold readHeader
    by_cases hw : headerWidth first ≤ body.length + 1
    · simp only [if_pos hw]
      exact ⟨headerWidth first, hw, rfl, dybNextTypdex_of_rest hlt h.rest_eq hw⟩
    · simp only [if_neg hw]
      obtain ⟨off, he⟩ := dybNextTypdex_fault hlt hp fun first' r hr => by
        rw [h.rest_eq, List.cons.injEq] at hr
        obtain ⟨rfl, rfl⟩ := hr
        omega
      exact ⟨_, he⟩

theorem dybNextVarU64_decodes : Decodes dybNextVarU64 readVar := by
  intro n b bs h
  have hlt : b.data.length < 2 ^ 32 := h.length_eq ▸ h.lt
  have hp : b.position ≤ b.data.length := by
    have := h.position_eq
    rw [h.length_eq]
    omega
  cases bs with
  | nil =>
    obtain ⟨off, he⟩ := dybNextVarU64_fault hlt hp fun first r hr => by
      rw [h.rest_eq] at hr
      cases hr
    exact ⟨_, he⟩
  | cons first body =>
    unfold readVar
    by_cases hw : widthOf first ≤ body.length + 1
    · simp only [if_pos hw]
      exact ⟨widthOf first, hw, rfl, dybNextVarU64_of_rest hlt h.rest_eq hw⟩
    · simp only [if_neg hw]
      obtain ⟨off, he⟩ := dybNextVarU64_fault hlt hp fun first' r hr => by
        rw [h.rest_eq, List.cons.injEq] at hr
        obtain ⟨rfl, rfl⟩ := hr
        omega
      exact ⟨_, he⟩

theorem takeUint_decodes (k : Nat) : Decodes (takeUint k 0) (readUint k) := by
  intro n b bs h
  have hlt : b.data.length < 2 ^ 32 := h.length_eq ▸ h.lt
  have hpos := h.position_eq
  unfold readUint
  by_cases hk : k ≤ bs.length
  · simp only [if_pos hk]
    have hr : rest b = bs.take k ++ bs.drop k := by rw [List.take_append_drop, h.rest_eq]
    exact ⟨k, hk, rfl, takeUint_of_rest hlt hr (by rw [List.length_take]; omega)⟩
  · simp only [if_neg hk]
    exact ⟨_, takeUint_fault hlt (by rw [h.length_eq]; omega) (by rw [h.length_eq]; omega)⟩

theorem Decodes.map {α β : Type} {x : DybM α} {g : List UInt8 → Option (α × List UInt8)}
    (h : Decodes x g) (f : α → β) :
    Decodes (do let a ← x; return f a) fun bs => (g bs).map fun p => (f p.1, p.2) := by
  intro n b bs hat
  have hx := h n b bs hat
  cases hg : g bs with
  | none =>
    rw [hg] at hx
    obtain ⟨e, he⟩ := hx
    simp only [hg, Option.map_none]
    exact ⟨e, bind_error he⟩
  | some p =>
    rw [hg] at hx
    obtain ⟨k, hk, hd, hok⟩ := hx
    simp only [hg, Option.map_some]
    exact ⟨k, hk, hd, bind_ok hok⟩

theorem dybNextVarS64_decodes :
    Decodes dybNextVarS64 fun bs => (readVar bs).map fun p => (unzigzag p.1, p.2) := by
  rw [dybNextVarS64_eq]
  exact dybNextVarU64_decodes.map unzigzag

theorem dybNextFloat_decodes (host : Host) :
    Decodes (dybNextFloat host)
      fun bs => (readUint 4 bs).map fun p => (dybSwapU32 host p.1, p.2) :=
  (takeUint_decodes 4).map (dybSwapU32 host)

theorem dybNextDouble_decodes (host : Host) :
    Decodes (dybNextDouble host)
      fun bs => (readUint 8 bs).map fun p => (dybSwapU64 host p.1, p.2) :=
  (takeUint_decodes 8).map (dybSwapU64 host)

end Decoding

section Shapes

/-- What the records so far leave open: the containers above the roots, the current
object with the containers above it (none when it was itself closed as one), and the
class numbers with whether a string begins there. -/
structure Shape where
  outer : Nat
  object : Option (Nat × Option Nat)
  names : List (Int × Bool)
  deriving DecidableEq, Repr

inductive Verdict
  | accept
  | next (σ : Shape) (bs : List UInt8)
  | reject
  deriving DecidableEq, Repr

def Shape.opened (σ : Shape) : Shape :=
  match σ.object with
  | some (num, some inner) => { σ with object := some (num, some (inner + 1)) }
  | _ => { σ with outer := σ.outer + 1 }

theorem Shape.names_opened (σ : Shape) : σ.opened.names = σ.names := by
  unfold Shape.opened
  split <;> rfl

def Shape.closed (σ : Shape) : Option Shape :=
  match σ.object with
  | some (num, some (inner + 1)) => some { σ with object := some (num, some inner) }
  | some (num, some 0) => some { σ with object := some (num, none) }
  | _ =>
    match σ.outer with
    | outer + 1 => some { σ with outer := outer }
    | 0 => none

def after {α : Type} (x : Option (α × List UInt8)) (f : α → List UInt8 → Verdict) : Verdict :=
  match x with
  | none => .reject
  | some (a, bs) => f a bs

def scanRaw (σ : Shape) (bs : List UInt8) : Verdict :=
  after (readVar bs) fun len bs =>
    if uint len ≤ bs.length then .next σ (bs.drop (uint len)) else .reject

def scanArray (σ : Shape) (bs : List UInt8) : Verdict :=
  after (readVar bs) fun size bs =>
    if size > 0 then .next σ.opened bs
    else
      match σ.closed with
      | some σ' => .next σ' bs
      | none => .reject

def scanObject (σ : Shape) (index : Nat) (bs : List UInt8) : Verdict :=
  match σ.object with
  | none =>
    after (readVar bs) fun num bs =>
      match Table.find Prod.fst (int32 num) σ.names with
      | none => .accept
      | some entry =>
        if entry.2 then .next { σ with object := some (index, some 0) } bs else .reject
  | some (num, inside) =>
    if num ≠ index then .accept
    else if inside.isSome then .next { σ with object := none } bs
    else .reject

def scanContext (σ : Shape) (index : Nat) (bs : List UInt8) : Verdict :=
  match σ.object with
  | none => .accept
  | some (num, inside) =>
    match Table.find Prod.fst (int32 index) σ.names with
    | none => .accept
    | some entry =>
      if inside.isSome && entry.2 then .next { σ with object := some (num, some 1) } bs
      else .reject

/-- A name that is longer than what is left is no name; it must not be so long that
its end offset leaves the range of `uint`. -/
def scanName (n : Nat) (σ : Shape) (num : Int) (bs : List UInt8) : Verdict :=
  after (readVar bs) fun len bs =>
    if uint len = 0 then .next { σ with names := σ.names ++ [(num, false)] } bs
    else if uint len ≤ bs.length then
      .next { σ with names := σ.names ++ [(num, decide (0 ∈ bs))] } (bs.drop (uint len))
    else if n - bs.length + uint len < 2 ^ 32 then
      .next { σ with names := σ.names ++ [(num, false)] } bs
    else .reject

def scanDb (n : Nat) (σ : Shape) (index : Nat) (bs : List UInt8) : Verdict :=
  if index = pkrdbClassNames then
    after (readVar bs) fun num bs =>
      match Table.find Prod.fst (int32 num) σ.names with
      | some _ => .accept
      | none => scanName n σ (int32 num) bs
  else .accept

def scanFunction (σ : Shape) (index : Nat) (bs : List UInt8) : Verdict :=
  if index = pkrfnVersion then after (readVar bs) fun _ bs => .next σ bs else .accept

def scanRecord (n : Nat) (σ : Shape) (type index : Nat) (bs : List UInt8) : Verdict :=
  if type = pkrdexInteger then after (readVar bs) fun _ bs => .next σ bs
  else if type = pkrdexFloat then after (readUint 4 bs) fun _ bs => .next σ bs
  else if type = pkrdexDouble then after (readUint 8 bs) fun _ bs => .next σ bs
  else if type = pkrdexRaw then scanRaw σ bs
  else if type = pkrdexArray then scanArray σ bs
  else if type = pkrdexObjectRef then after (readVar bs) fun _ bs => .next σ bs
  else if type = pkrdexObject then scanObject σ index bs
  else if type = pkrdexContext then scanContext σ index bs
  else if type = pkrdexDb then scanDb n σ index bs
  else if type = pkrdexFunction then scanFunction σ index bs
  else .accept

/-- The records that put a value into the last item of the stack or take it off. -/
def UsesLast (type : Nat) : Prop :=
  type = pkrdexInteger ∨ type = pkrdexFloat ∨ type = pkrdexDouble ∨ type = pkrdexRaw ∨
    type = pkrdexArray ∨ type = pkrdexObjectRef

instance (type : Nat) : Decidable (UsesLast type) :=
  inferInstanceAs (Decidable (_ ∨ _ ∨ _ ∨ _ ∨ _ ∨ _))

/-- One record of an input of `n` bytes. -/
def scan (n : Nat) (σ : Shape) (bs : List UInt8) : Verdict :=
  after (readHeader bs) fun header bs => scanRecord n σ header.1 header.2 bs

/-- A stream in which, up to its end or to the first record that is refused, every
value is there as a whole, every array end closes a container, contexts and object
ends come while their object is open, and the class names used are strings. -/
inductive Proper (n : Nat) : Shape → List UInt8 → Prop
  | done (σ : Shape) : Proper n σ []
  | stop {σ : Shape} {bs : List UInt8} : scan n σ bs = .accept → Proper n σ bs
  | next {σ σ' : Shape} {bs bs' : List UInt8} : scan n σ bs = .next σ' bs' →
      Proper n σ' bs' → Proper n σ bs

def Shape.start : Shape := ⟨0, none, []⟩

end Shapes

end LcClibs.Pack.Nesting
