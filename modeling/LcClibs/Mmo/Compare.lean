import Mathlib
import LcClibs.Lib.ThreeWay
import LcClibs.Mmo.Object

namespace LcClibs.Mmo.Compare

open Platform Lib.ThreeWay Mmo.Object

section Model

/-- `strcmp` of two strings given without their NUL: the difference of the first
bytes that differ. -/
def platCstrCompare : List UInt8 → List UInt8 → Int
  | [], [] => 0
  | [], b :: _ => -(b.toNat : Int)
  | a :: _, [] => a.toNat
  | a :: s, b :: t => if a = b then platCstrCompare s t else (a.toNat : Int) - b.toNat

def platMemCompare : Nat → List UInt8 → List UInt8 → Int
  | n + 1, a :: s, b :: t => if a = b then platMemCompare n s t else (a.toNat : Int) - b.toNat
  | _, _, _ => 0

def sizeDiff (m n : Nat) : Int := int32 ((m : Int) - n)

def compareForMMInt (this that : Int) : Int := int32 (this - that)

def compareForMMLong (this that : Int) : Int :=
  let diff := int64 (this - that)
  if diff > 0 then 1 else if diff < 0 then -1 else 0

def compareForMMString (this that : Option Blob) : Int :=
  if this.map Blob.ptr = that.map Blob.ptr then 0
  else
    match this, that with
    | none, _ => -1
    | _, none => 1
    | some x, some y => platCstrCompare x.bytes y.bytes

def compareForMMData (this that : Option Blob) : Int :=
  if this.map Blob.ptr = that.map Blob.ptr then 0
  else
    match this, that with
    | none, _ => -1
    | _, none => 1
    | some x, some y =>
      let diff := platMemCompare (min x.bytes.length y.bytes.length) x.bytes y.bytes
      if diff ≠ 0 then diff else sizeDiff x.bytes.length y.bytes.length

variable (cmp : Option Addr → Option Addr → Option Int)

def compareForMMMapItem (this that : MapItem) : Option Int := do
  let diff ← cmp (some this.key) (some that.key)
  if diff ≠ 0 then return diff
  else cmp (some this.value) (some that.value)

def compareItems : List MapItem → List MapItem → Option Int
  | [], [] => some 0
  | _ :: _, [] => some 1
  | [], _ :: _ => some (-1)
  | x :: xs, y :: ys => do
    let diffKey ← cmp (some x.key) (some y.key)
    if diffKey ≠ 0 then return diffKey
    else
      let diffValue ← cmp (some x.value) (some y.value)
      if diffValue ≠ 0 then return diffValue
      else compareItems xs ys

def compareForMMMap (this that : List MapItem) : Option Int :=
  if uint this.length ≠ uint that.length then some (sizeDiff this.length that.length)
  else compareItems cmp this that

def compareElements : List (Option Addr) → List (Option Addr) → Option Int
  | x :: xs, y :: ys => do
    let diff ← cmp x y
    if diff ≠ 0 then return diff
    else compareElements xs ys
  | _, _ => some 0

def compareForMMList (this that : List (Option Addr)) : Option Int :=
  if uint this.length ≠ uint that.length then some (sizeDiff this.length that.length)
  else compareElements cmp this that

def compareNodes : Node → Node → Option Int
  | .mmInt x, .mmInt y => some (compareForMMInt x y)
  | .mmLong x, .mmLong y => some (compareForMMLong x y)
  | .mmString x, .mmString y => some (compareForMMString x y)
  | .mmData x, .mmData y => some (compareForMMData x y)
  | .mmMap _ x, .mmMap _ y => compareForMMMap cmp x y
  | .mmList x, .mmList y => compareForMMList cmp x y
  | _, _ => none

/-- The fuel bounds the nesting; none also for a pointer to no object. -/
def compareMmobjs (heap : Heap) : Nat → Option Addr → Option Addr → Option Int
  | 0, _, _ => none
  | fuel + 1, this, that =>
    if this = that then some 0
    else
      match this, that with
      | none, _ => some (-1)
      | _, none => some 1
      | some a, some b =>
        match heap[a]?, heap[b]? with
        | some x, some y =>
          if x.cls.oid ≠ y.cls.oid then some (platCstrCompare x.cls.name y.cls.name)
          else compareNodes (compareMmobjs heap fuel) x y
        | _, _ => none

end Model

section Equations

variable (heap : Heap) (fuel : Nat)

@[simp] theorem compareMmobjs_self (p : Option Addr) :
    compareMmobjs heap (fuel + 1) p p = some 0 := by
  cases p <;> simp [compareMmobjs]

@[simp] theorem compareMmobjs_none_some (b : Addr) :
    compareMmobjs heap (fuel + 1) none (some b) = some (-1) := by
  simp [compareMmobjs]

@[simp] theorem compareMmobjs_some_none (a : Addr) :
    compareMmobjs heap (fuel + 1) (some a) none = some 1 := by
  simp [compareMmobjs]

theorem compareMmobjs_some {heap : Heap} {a b : Addr} {x y : Node} (hab : a ≠ b)
    (hx : heap[a]? = some x) (hy : heap[b]? = some y) :
    compareMmobjs heap (fuel + 1) (some a) (some b) =
      if x.cls.oid ≠ y.cls.oid then some (platCstrCompare x.cls.name y.cls.name)
      else compareNodes (compareMmobjs heap fuel) x y := by
  simp only [compareMmobjs, Option.some.injEq, if_neg hab, hx, hy]

variable {cmp cmp' : Option Addr → Option Addr → Option Int}

theorem compareElements_mono (h : ∀ p q d, cmp p q = some d → cmp' p q = some d)
    {xs ys : List (Option Addr)} {d : Int} (hd : compareElements cmp xs ys = some d) :
    compareElements cmp' xs ys = some d := by
  induction xs generalizing ys with
  | nil => exact hd
  | cons x xs ih =>
    cases ys with
    | nil => exact hd
    | cons y ys =>
      simp only [compareElements, Option.bind_eq_bind, Option.bind_eq_some_iff] at hd ⊢
      obtain ⟨e, he, hd⟩ := hd
      refine ⟨e, h _ _ _ he, ?_⟩
      split_ifs with he0
      · rwa [if_pos he0] at hd
      · rw [if_neg he0] at hd
        exact ih hd

theorem compareItems_mono (h : ∀ p q d, cmp p q = some d → cmp' p q = some d)
    {xs ys : List MapItem} {d : Int} (hd : compareItems cmp xs ys = some d) :
    compareItems cmp' xs ys = some d := by
  induction xs generalizing ys with
  | nil => cases ys <;> exact hd
  | cons x xs ih =>
    cases ys with
    | nil => exact hd
    | cons y ys =>
      simp only [compareItems, Option.bind_eq_bind, Option.bind_eq_some_iff] at hd ⊢
      obtain ⟨e, he, hd⟩ := hd
      refine ⟨e, h _ _ _ he, ?_⟩
      split_ifs with he0
      · rwa [if_pos he0] at hd
      · rw [if_neg he0] at hd
        obtain ⟨f, hf, hd⟩ := Option.bind_eq_some_iff.mp hd
        refine Option.bind_eq_some_iff.mpr ⟨f, h _ _ _ hf, ?_⟩
        split_ifs with hf0
        · rwa [if_pos hf0] at hd
        · rw [if_neg hf0] at hd
          exact ih hd

theorem compareNodes_mono (h : ∀ p q d, cmp p q = some d → cmp' p q = some d) {x y : Node}
    {d : Int} (hd : compareNodes cmp x y = some d) : compareNodes cmp' x y = some d := by
  cases x <;> cases y <;> try exact hd
  case mmMap.mmMap s xs t ys =>
    simp only [compareNodes, compareForMMMap] at hd ⊢
    split_ifs with hs
    · rwa [if_pos hs] at hd
    · rw [if_neg hs] at hd
      exact compareItems_mono h hd
  case mmList.mmList xs ys =>
    simp only [compareNodes, compareForMMList] at hd ⊢
    split_ifs with hs
    · rwa [if_pos hs] at hd
    · rw [if_neg hs] at hd
      exact compareElements_mono h hd

theorem compareMmobjs_mono {heap : Heap} {m n : Nat} (hmn : m ≤ n) {a b : Option Addr} {d : Int}
    (h : compareMmobjs heap m a b = some d) : compareMmobjs heap n a b = some d := by
  induction m generalizing n a b d with
  | zero => cases a <;> cases b <;> cases h
  | succ m ih =>
    obtain ⟨n, rfl⟩ : ∃ k, n = k + 1 := ⟨n - 1, by omega⟩
    by_cases hab : a = b
    · subst hab
      rwa [compareMmobjs_self] at h ⊢
    cases a with
    | none =>
      cases b with
      | none => exact absurd rfl hab
      | some b => rwa [compareMmobjs_none_some] at h ⊢
    | some a =>
      cases b with
      | none => rwa [compareMmobjs_some_none] at h ⊢
      | some b =>
        simp only [compareMmobjs, if_neg hab] at h ⊢
        cases hx : heap[a]? with
        | none => simp [hx] at h
        | some x =>
          cases hy : heap[b]? with
          | none => simp [hx, hy] at h
          | some y =>
            simp only [hx, hy] at h ⊢
            split_ifs with ho
            · rwa [if_pos ho] at h
            · rw [if_neg ho] at h
              exact compareNodes_mono (fun p q e he => ih (by omega) he) h

end Equations

section Domains

/-- What objects are built from: their integers, a bound on the sizes of containers
and data, and whether data objects of different sizes may share one memory. -/
structure Domain where
  ints : Set Int
  longs : Set Int
  bound : Nat
  sharing : Prop
  ints_range : ∀ v ∈ ints, -2 ^ 31 ≤ v ∧ v < 2 ^ 31
  longs_range : ∀ v ∈ longs, -2 ^ 63 ≤ v ∧ v < 2 ^ 63
  bound_le : bound ≤ 2 ^ 32

def Domain.Admits (D : Domain) : Node → Prop
  | .mmInt v => v ∈ D.ints
  | .mmLong v => v ∈ D.longs
  | .mmString v => ∀ x ∈ v, 0 ∉ x.bytes
  | .mmData v => ∀ x ∈ v, x.bytes.length < D.bound ∧ 0 < x.bytes.length
  | .mmMap _ items => items.length < D.bound
  | .mmList items => items.length < D.bound

/-- No difference of two values or sizes leaves its type, and data objects that share
one memory have one size. -/
structure Domain.Narrow (D : Domain) : Prop where
  ints : ∀ x ∈ D.ints, ∀ y ∈ D.ints, x - y < 2 ^ 31
  longs : ∀ x ∈ D.longs, ∀ y ∈ D.longs, x - y < 2 ^ 63
  sizes : D.bound ≤ 2 ^ 31
  unshared : D.sharing → D.bound ≤ 2

/-- The memory that the objects of a heap own: at one place there is one content. -/
structure Domain.Memory (D : Domain) (heap : Heap) : Prop where
  strings : ∀ x y, .mmString (some x) ∈ heap → .mmString (some y) ∈ heap → x.ptr = y.ptr →
    x.bytes = y.bytes
  data : ∀ x y, .mmData (some x) ∈ heap → .mmData (some y) ∈ heap → x.ptr = y.ptr →
    x.bytes <+: y.bytes ∨ y.bytes <+: x.bytes
  unshared : ¬D.sharing → ∀ x y, .mmData (some x) ∈ heap → .mmData (some y) ∈ heap →
    x.ptr = y.ptr → x.bytes.length = y.bytes.length

/-- A pointer that unfolds to a tree of at most `n` levels of objects of the domain. -/
def Within (D : Domain) (heap : Heap) : Nat → Option Addr → Prop
  | _, none => True
  | 0, some _ => False
  | n + 1, some a => ∃ x, heap[a]? = some x ∧ D.Admits x ∧ ∀ p ∈ x.children, Within D heap n p

structure Domain.Built (D : Domain) (heap : Heap) (p : Option Addr) : Prop where
  memory : D.Memory heap
  acyclic : ∃ n, Within D heap n p

theorem Within.mono {D : Domain} {heap : Heap} {m n : Nat} {p : Option Addr}
    (h : Within D heap m p) (hmn : m ≤ n) : Within D heap n p := by
  induction m generalizing n p with
  | zero =>
    cases p with
    | none => cases n <;> trivial
    | some a => exact h.elim
  | succ m ih =>
    cases p with
    | none => cases n <;> trivial
    | some a =>
      obtain ⟨n, rfl⟩ : ∃ k, n = k + 1 := ⟨n - 1, by omega⟩
      obtain ⟨x, hx, hadm, hchild⟩ := h
      exact ⟨x, hx, hadm, fun q hq => ih (hchild q hq) (by omega)⟩

end Domains

section Codes

def cstringCode (s : List UInt8) : List Int := s.map (fun b => (b.toNat : Int)) ++ [0]

/-- The end of a data block is smaller than any byte. -/
def dataCode (s : List UInt8) : List Int := s.map (fun b => (b.toNat : Int)) ++ [-1]

def blobCode (code : List UInt8 → List Int) : Option Blob → List Int
  | none => [0]
  | some x => 1 :: code x.bytes

def nodeCode (code : Option Addr → List Int) : Node → List Int
  | .mmInt v | .mmLong v => [v]
  | .mmString v => blobCode cstringCode v
  | .mmData v => blobCode dataCode v
  | .mmMap _ items =>
    (items.length : Int) :: items.flatMap fun i => code (some i.key) ++ code (some i.value)
  | .mmList items => (items.length : Int) :: items.flatMap code

/-- What the comparison of two objects is the order of: the class name, then the
fields, the size of a container before its contents. -/
def objCode (heap : Heap) : Nat → Option Addr → List Int
  | _, none => [0]
  | 0, some _ => []
  | n + 1, some a =>
    match heap[a]? with
    | none => []
    | some x => 1 :: (cstringCode x.cls.name ++ nodeCode (objCode heap n) x)

theorem cstringCode_injective : Function.Injective cstringCode := by
  intro s t h
  have hmap := List.append_cancel_right h
  apply List.map_injective_iff.mpr _ hmap
  intro a b hab
  exact UInt8.toNat_inj.mp (Int.ofNat.inj hab)

theorem toNat_pos {b : UInt8} (h : b ≠ 0) : (0 : Int) < b.toNat := by
  have hne : b.toNat ≠ 0 := fun h0 => h (UInt8.toNat_inj.mp h0)
  omega

theorem byte_agrees {a b : UInt8} (h : a ≠ b) :
    (a.toNat : Int) - b.toNat ≠ 0 ∧
      Agrees ((a.toNat : Int) - b.toNat) [(a.toNat : Int)] [(b.toNat : Int)] := by
  have hne : a.toNat ≠ b.toNat := fun he => h (UInt8.toNat_inj.mp he)
  exact ⟨by omega, Agrees.symbol (by omega) (by omega) (by omega)⟩

theorem platCstrCompare_agrees {s t : List UInt8} (hs : 0 ∉ s) (ht : 0 ∉ t) :
    Agrees (platCstrCompare s t) (cstringCode s) (cstringCode t) := by
  induction s generalizing t with
  | nil =>
    cases t with
    | nil => exact Agrees.refl _
    | cons b t =>
      have hb := toNat_pos fun hb => ht (hb ▸ List.mem_cons_self)
      have h : Agrees (-(b.toNat : Int)) [0] [(b.toNat : Int)] :=
        Agrees.symbol (by omega) (by omega) (by omega)
      exact h.extend (by omega) [] _
  | cons a s ih =>
    cases t with
    | nil =>
      have ha := toNat_pos fun ha => hs (ha ▸ List.mem_cons_self)
      have h : Agrees (a.toNat : Int) [(a.toNat : Int)] [0] :=
        Agrees.symbol (by omega) (by omega) (by omega)
      exact h.extend (by omega) _ []
    | cons b t =>
      rw [platCstrCompare]
      by_cases hab : a = b
      · subst hab
        rw [if_pos rfl]
        exact (ih (fun h => hs (List.mem_cons_of_mem _ h))
          (fun h => ht (List.mem_cons_of_mem _ h))).append_left [(a.toNat : Int)]
      · rw [if_neg hab]
        obtain ⟨hne, h⟩ := byte_agrees hab
        exact h.extend hne _ _

theorem platMemCompare_agrees {s t : List UInt8} {e : Int}
    (hlt : e < 0 → s.length < t.length) (heq : e = 0 → s.length = t.length)
    (hgt : 0 < e → t.length < s.length) :
    Agrees (if platMemCompare (min s.length t.length) s t ≠ 0 then
        platMemCompare (min s.length t.length) s t else e) (dataCode s) (dataCode t) := by
  induction s generalizing t with
  | nil =>
    have hz : platMemCompare (min ([] : List UInt8).length t.length) [] t = 0 := by
      rw [List.length_nil, Nat.zero_min]
      rfl
    rw [hz, if_neg (not_not.mpr rfl)]
    cases t with
    | nil =>
      have he : e = 0 := by
        rw [List.length_nil] at hlt hgt
        omega
      rw [he]
      exact Agrees.refl _
    | cons b t =>
      have he : e < 0 := by
        rw [List.length_nil, List.length_cons] at heq hgt
        omega
      have h : Agrees e [-1] [(b.toNat : Int)] := Agrees.symbol (by omega) (by omega) (by omega)
      exact h.extend (by omega) [] _
  | cons a s ih =>
    cases t with
    | nil =>
      have he : 0 < e := by
        rw [List.length_nil, List.length_cons] at heq hlt
        omega
      have h : Agrees e [(a.toNat : Int)] [-1] := Agrees.symbol (by omega) (by omega) (by omega)
      exact h.extend (by omega) _ []
    | cons b t =>
      rw [List.length_cons, List.length_cons] at hlt heq hgt ⊢
      rw [Nat.succ_min_succ, platMemCompare]
      by_cases hab : a = b
      · subst hab
        simp only [if_true]
        exact (ih (by omega) (by omega) (by omega)).append_left [(a.toNat : Int)]
      · obtain ⟨hne, h⟩ := byte_agrees hab
        rw [if_neg hab, if_pos hne]
        exact h.extend hne _ _

theorem Domain.Narrow.sizeDiff_eq {D : Domain} (hD : D.Narrow) {m n : Nat} (hm : m < D.bound)
    (hn : n < D.bound) : sizeDiff m n = (m : Int) - n := by
  have hb := hD.sizes
  exact int32_of_range (by omega) (by omega)

end Codes

section Agreement

variable {D : Domain} {heap : Heap}

theorem compareForMMInt_agrees (hD : D.Narrow) {x y : Int} (hx : x ∈ D.ints) (hy : y ∈ D.ints) :
    Agrees (compareForMMInt x y) [x] [y] := by
  have h1 := hD.ints x hx y hy
  have h2 := hD.ints y hy x hx
  have hd : compareForMMInt x y = x - y := int32_of_range (by omega) h1
  rw [hd]
  exact Agrees.symbol (by omega) (by omega) (by omega)

theorem compareForMMLong_agrees (hD : D.Narrow) {x y : Int} (hx : x ∈ D.longs)
    (hy : y ∈ D.longs) : Agrees (compareForMMLong x y) [x] [y] := by
  have h1 := hD.longs x hx y hy
  have h2 := hD.longs y hy x hx
  have hd : int64 (x - y) = x - y := int64_of_range (by omega) h1
  simp only [compareForMMLong, hd]
  split_ifs <;> exact Agrees.symbol (by omega) (by omega) (by omega)

theorem compareForMMString_agrees (hm : D.Memory heap) {v w : Option Blob}
    (hv : .mmString v ∈ heap) (hw : .mmString w ∈ heap) (hav : D.Admits (.mmString v))
    (haw : D.Admits (.mmString w)) :
    Agrees (compareForMMString v w) (blobCode cstringCode v) (blobCode cstringCode w) := by
  unfold compareForMMString
  cases v with
  | none =>
    cases w with
    | none => exact Agrees.refl _
    | some y =>
      have h : Agrees (-1) [(0 : Int)] [1] := Agrees.symbol (by decide) (by decide) (by decide)
      exact h.extend (by decide) [] _
  | some x =>
    cases w with
    | none =>
      have h : Agrees 1 [(1 : Int)] [0] := Agrees.symbol (by decide) (by decide) (by decide)
      exact h.extend (by decide) _ []
    | some y =>
      by_cases hp : x.ptr = y.ptr
      · rw [if_pos (by simp [hp]), blobCode, blobCode, hm.strings x y hv hw hp]
        exact Agrees.refl _
      · rw [if_neg (by simpa using hp)]
        exact (platCstrCompare_agrees (hav x rfl) (haw y rfl)).append_left [(1 : Int)]

theorem compareForMMData_agrees (hD : D.Narrow) (hm : D.Memory heap) {v w : Option Blob}
    (hv : .mmData v ∈ heap) (hw : .mmData w ∈ heap) (hav : D.Admits (.mmData v))
    (haw : D.Admits (.mmData w)) :
    Agrees (compareForMMData v w) (blobCode dataCode v) (blobCode dataCode w) := by
  unfold compareForMMData
  cases v with
  | none =>
    cases w with
    | none => exact Agrees.refl _
    | some y =>
      have h : Agrees (-1) [(0 : Int)] [1] := Agrees.symbol (by decide) (by decide) (by decide)
      exact h.extend (by decide) [] _
  | some x =>
    cases w with
    | none =>
      have h : Agrees 1 [(1 : Int)] [0] := Agrees.symbol (by decide) (by decide) (by decide)
      exact h.extend (by decide) _ []
    | some y =>
      obtain ⟨hx, hx0⟩ := hav x rfl
      obtain ⟨hy, hy0⟩ := haw y rfl
      by_cases hp : x.ptr = y.ptr
      · have hlen : x.bytes.length = y.bytes.length := by
          by_cases hs : D.sharing
          · have hb := hD.unshared hs
            omega
          · exact hm.unshared hs x y hv hw hp
        have he : x.bytes = y.bytes := by
          obtain h | h := hm.data x y hv hw hp
          · exact h.eq_of_length hlen
          · exact (h.eq_of_length hlen.symm).symm
        rw [if_pos (by simp [hp]), blobCode, blobCode, he]
        exact Agrees.refl _
      · have hd := hD.sizeDiff_eq hx hy
        rw [if_neg (by simpa using hp)]
        exact (platMemCompare_agrees (by omega) (by omega) (by omega)).append_left [(1 : Int)]

variable {cmp : Option Addr → Option Addr → Option Int} {code : Option Addr → List Int}

theorem compareElements_agrees {xs ys : List (Option Addr)} (hlen : xs.length = ys.length)
    (h : ∀ p ∈ xs, ∀ q ∈ ys, ∃ d, cmp p q = some d ∧ Agrees d (code p) (code q)) :
    ∃ d, compareElements cmp xs ys = some d ∧ Agrees d (xs.flatMap code) (ys.flatMap code) := by
  induction xs generalizing ys with
  | nil =>
    cases ys with
    | nil => exact ⟨0, rfl, Agrees.refl _⟩
    | cons q ys => cases hlen
  | cons p xs ih =>
    cases ys with
    | nil => cases hlen
    | cons q ys =>
      obtain ⟨d, hd, had⟩ := h p List.mem_cons_self q List.mem_cons_self
      obtain ⟨e, he, hae⟩ := ih (Nat.succ.inj hlen) fun p hp q hq =>
        h p (List.mem_cons_of_mem _ hp) q (List.mem_cons_of_mem _ hq)
      refine ⟨if d ≠ 0 then d else e, ?_, had.first fun _ => hae⟩
      simp only [compareElements, hd, Option.bind_eq_bind, Option.bind_some]
      split_ifs
      · rfl
      · exact he

theorem compareItems_agrees {xs ys : List MapItem} (hlen : xs.length = ys.length)
    (h : ∀ i ∈ xs, ∀ j ∈ ys,
      (∃ d, cmp (some i.key) (some j.key) = some d ∧
        Agrees d (code (some i.key)) (code (some j.key))) ∧
      ∃ d, cmp (some i.value) (some j.value) = some d ∧
        Agrees d (code (some i.value)) (code (some j.value))) :
    ∃ d, compareItems cmp xs ys = some d ∧
      Agrees d (xs.flatMap fun i => code (some i.key) ++ code (some i.value))
        (ys.flatMap fun i => code (some i.key) ++ code (some i.value)) := by
  induction xs generalizing ys with
  | nil =>
    cases ys with
    | nil => exact ⟨0, rfl, Agrees.refl _⟩
    | cons j ys => cases hlen
  | cons i xs ih =>
    cases ys with
    | nil => cases hlen
    | cons j ys =>
      obtain ⟨⟨d, hd, had⟩, e, he, hae⟩ := h i List.mem_cons_self j List.mem_cons_self
      obtain ⟨f, hf, haf⟩ := ih (Nat.succ.inj hlen) fun i hi j hj =>
        h i (List.mem_cons_of_mem _ hi) j (List.mem_cons_of_mem _ hj)
      refine ⟨_, ?_, (had.first fun _ => hae).first fun _ => haf⟩
      simp only [compareItems, hd, he, Option.bind_eq_bind, Option.bind_some]
      by_cases hd0 : d = 0
      · rw [if_neg (not_not.mpr hd0), if_neg (not_not.mpr hd0)]
        split_ifs
        · rfl
        · exact hf
      · rw [if_pos hd0, if_pos hd0, if_pos hd0]
        rfl

theorem size_agrees (hD : D.Narrow) {m n : Nat} (hm : m < D.bound) (hn : n < D.bound)
    (hne : uint m ≠ uint n) (u v : List Int) :
    Agrees (sizeDiff m n) ((m : Int) :: u) ((n : Int) :: v) := by
  have hmn : m ≠ n := fun h => hne (h ▸ rfl)
  have hd := hD.sizeDiff_eq hm hn
  have h : Agrees (sizeDiff m n) [(m : Int)] [(n : Int)] :=
    Agrees.symbol (by omega) (by omega) (by omega)
  exact h.extend (by omega) u v

theorem eq_of_uint_eq {m n : Nat} (hm : m < D.bound) (hn : n < D.bound) (h : uint m = uint n) :
    m = n := by
  rwa [uint_of_lt (hm.trans_le D.bound_le), uint_of_lt (hn.trans_le D.bound_le)] at h

theorem compareNodes_agrees (hD : D.Narrow) (hm : D.Memory heap) {x y : Node} (hx : x ∈ heap)
    (hy : y ∈ heap) (hax : D.Admits x) (hay : D.Admits y) (hcls : x.cls = y.cls)
    (h : ∀ p ∈ x.children, ∀ q ∈ y.children, ∃ d, cmp p q = some d ∧ Agrees d (code p) (code q)) :
    ∃ d, compareNodes cmp x y = some d ∧ Agrees d (nodeCode code x) (nodeCode code y) := by
  cases x <;> cases y <;> cases hcls
  case mmInt.mmInt v w => exact ⟨_, rfl, compareForMMInt_agrees hD hax hay⟩
  case mmLong.mmLong v w => exact ⟨_, rfl, compareForMMLong_agrees hD hax hay⟩
  case mmString.mmString v w => exact ⟨_, rfl, compareForMMString_agrees hm hx hy hax hay⟩
  case mmData.mmData v w => exact ⟨_, rfl, compareForMMData_agrees hD hm hx hy hax hay⟩
  case mmMap.mmMap s xs t ys =>
    rw [compareNodes, compareForMMMap]
    by_cases hs : uint xs.length = uint ys.length
    · have hlen := eq_of_uint_eq hax hay hs
      have hitems : ∀ i ∈ xs, ∀ j ∈ ys, _ ∧ _ := fun i hi j hj =>
        ⟨h _ (key_mem_children hi) _ (key_mem_children hj),
          h _ (value_mem_children hi) _ (value_mem_children hj)⟩
      obtain ⟨d, hd, had⟩ := compareItems_agrees hlen hitems
      refine ⟨d, by rw [if_neg (not_not.mpr hs), hd], ?_⟩
      rw [nodeCode, nodeCode, hlen]
      exact had.append_left [(ys.length : Int)]
    · exact ⟨_, by rw [if_pos hs], size_agrees hD hax hay hs _ _⟩
  case mmList.mmList xs ys =>
    rw [compareNodes, compareForMMList]
    by_cases hs : uint xs.length = uint ys.length
    · have hlen := eq_of_uint_eq hax hay hs
      obtain ⟨d, hd, had⟩ := compareElements_agrees hlen h
      refine ⟨d, by rw [if_neg (not_not.mpr hs), hd], ?_⟩
      rw [nodeCode, nodeCode, hlen]
      exact had.append_left [(ys.length : Int)]
    · exact ⟨_, by rw [if_pos hs], size_agrees hD hax hay hs _ _⟩

/-- On objects of a narrow domain the comparison ends and is the order of the codes. -/
theorem compareMmobjs_agrees (hD : D.Narrow) (hm : D.Memory heap) {n fuel : Nat}
    {a b : Option Addr} (ha : Within D heap n a) (hb : Within D heap n b) (hf : n < fuel) :
    ∃ d, compareMmobjs heap fuel a b = some d ∧ Agrees d (objCode heap n a) (objCode heap n b) := by
  obtain ⟨fuel, rfl⟩ : ∃ k, fuel = k + 1 := ⟨fuel - 1, by omega⟩
  induction n generalizing fuel a b with
  | zero =>
    cases a with
    | some a => exact ha.elim
    | none =>
      cases b with
      | some b => exact hb.elim
      | none => exact ⟨0, rfl, Agrees.refl _⟩
  | succ n ih =>
    by_cases hab : a = b
    · subst hab
      exact ⟨0, compareMmobjs_self heap fuel a, Agrees.refl _⟩
    cases a with
    | none =>
      cases b with
      | none => exact absurd rfl hab
      | some b =>
        obtain ⟨y, hy, -, -⟩ := hb
        have h : Agrees (-1) [(0 : Int)] [1] := Agrees.symbol (by decide) (by decide) (by decide)
        refine ⟨-1, compareMmobjs_none_some heap fuel b, ?_⟩
        simp only [objCode, hy]
        exact h.extend (by decide) [] _
    | some a =>
      obtain ⟨x, hx, hax, hcx⟩ := ha
      cases b with
      | none =>
        have h : Agrees 1 [(1 : Int)] [0] := Agrees.symbol (by decide) (by decide) (by decide)
        refine ⟨1, compareMmobjs_some_none heap fuel a, ?_⟩
        simp only [objCode, hx]
        exact h.extend (by decide) _ []
      | some b =>
        obtain ⟨y, hy, hay, hcy⟩ := hb
        rw [compareMmobjs_some fuel (fun h => hab (congrArg some h)) hx hy]
        simp only [objCode, hx, hy]
        have hname := platCstrCompare_agrees x.cls.zero_not_mem_name y.cls.zero_not_mem_name
        by_cases hcls : x.cls = y.cls
        · obtain ⟨fuel, rfl⟩ : ∃ k, fuel = k + 1 := ⟨fuel - 1, by omega⟩
          obtain ⟨d, hd, had⟩ := compareNodes_agrees hD hm (List.mem_of_getElem? hx)
            (List.mem_of_getElem? hy) hax hay hcls fun p hp q hq =>
              ih (hcx p hp) (hcy q hq) fuel (by omega)
          refine ⟨d, by rw [if_neg (not_not.mpr (congrArg Class.oid hcls)), hd], ?_⟩
          rw [hcls]
          exact (had.append_left _).append_left [(1 : Int)]
        · refine ⟨_, by rw [if_pos fun h => hcls (Class.oid_injective h)], ?_⟩
          have hne : platCstrCompare x.cls.name y.cls.name ≠ 0 := by
            intro h0
            exact hcls (Class.name_injective (cstringCode_injective (hname.eq h0)))
          exact (hname.extend hne _ _).append_left [(1 : Int)]

end Agreement

section Laws

def Compared (heap : Heap) (a b : Option Addr) (d : Int) : Prop :=
  ∃ n, ∀ fuel, n ≤ fuel → compareMmobjs heap fuel a b = some d

/-- What is asked of the comparison of three objects. -/
structure Laws (heap : Heap) (a b c : Option Addr) : Prop where
  ends : ∃ d, Compared heap a b d
  antisymm : ∀ d e, Compared heap a b d → Compared heap b a e → e.sign = -d.sign
  trans : ∀ d e f, Compared heap a b d → Compared heap b c e → Compared heap a c f →
    d ≤ 0 → e ≤ 0 → f ≤ 0
  ints : ∀ i j x y d, a = some i → b = some j → heap[i]? = some (.mmInt x) →
    heap[j]? = some (.mmInt y) → Compared heap a b d → d.sign = (x - y).sign
  longs : ∀ i j x y d, a = some i → b = some j → heap[i]? = some (.mmLong x) →
    heap[j]? = some (.mmLong y) → Compared heap a b d → d.sign = (x - y).sign

theorem Compared.unique {heap : Heap} {a b : Option Addr} {d e : Int} (h : Compared heap a b d)
    (h' : Compared heap a b e) : d = e := by
  obtain ⟨m, hm⟩ := h
  obtain ⟨n, hn⟩ := h'
  have hd := hm (max m n) (le_max_left m n)
  rw [hn (max m n) (le_max_right m n)] at hd
  exact (Option.some.inj hd).symm

theorem Compared.of_nodes {heap : Heap} {a b : Addr} {x y : Node} {d : Int} (hab : a ≠ b)
    (hx : heap[a]? = some x) (hy : heap[b]? = some y) (hcls : x.cls = y.cls)
    (h : ∀ cmp, compareNodes cmp x y = some d) : Compared heap (some a) (some b) d := by
  refine ⟨1, fun fuel hf => ?_⟩
  obtain ⟨k, rfl⟩ : ∃ k, fuel = k + 1 := ⟨fuel - 1, by omega⟩
  rw [compareMmobjs_some k hab hx hy, if_neg (not_not.mpr (congrArg Class.oid hcls)), h]

theorem Compared.self (heap : Heap) (p : Option Addr) : Compared heap p p 0 := by
  refine ⟨1, fun fuel hf => ?_⟩
  obtain ⟨k, rfl⟩ : ∃ k, fuel = k + 1 := ⟨fuel - 1, by omega⟩
  exact compareMmobjs_self heap k p

variable {D : Domain} {heap : Heap}

theorem Within.admits {n : Nat} {a : Addr} {x : Node} (h : Within D heap n (some a))
    (hx : heap[a]? = some x) : D.Admits x := by
  cases n with
  | zero => exact h.elim
  | succ n =>
    obtain ⟨y, hy, hadm, -⟩ := h
    obtain rfl := Option.some.inj (hx.symm.trans hy)
    exact hadm

theorem Within.compared (hD : D.Narrow) (hm : D.Memory heap) {n : Nat} {a b : Option Addr}
    (ha : Within D heap n a) (hb : Within D heap n b) :
    ∃ d, Compared heap a b d ∧ Agrees d (objCode heap n a) (objCode heap n b) := by
  obtain ⟨d, hd, had⟩ := compareMmobjs_agrees hD hm ha hb (Nat.lt_succ_self n)
  exact ⟨d, ⟨n + 1, fun fuel hf => compareMmobjs_mono hf hd⟩, had⟩

theorem symbol_sign {d x y : Int} (h : Agrees d [x] [y]) : d.sign = (x - y).sign := by
  have hlt : d < 0 ↔ x < y := by
    rw [h.lt_iff, List.cons_lt_cons_iff]
    simp
  have hgt : 0 < d ↔ y < x := by
    rw [h.gt_iff, List.cons_lt_cons_iff]
    simp
  obtain hd | hd | hd := lt_trichotomy d 0
  · have hxy := hlt.mp hd
    rw [Int.sign_eq_neg_one_of_neg hd, Int.sign_eq_neg_one_of_neg (by omega)]
  · have hxy : x - y = 0 := by omega
    rw [hd, hxy]
  · have hxy := hgt.mp hd
    rw [Int.sign_eq_one_of_pos hd, Int.sign_eq_one_of_pos (by omega)]

theorem Domain.Built.laws (hD : D.Narrow) {a b c : Option Addr} (ha : D.Built heap a)
    (hb : D.Built heap b) (hc : D.Built heap c) : Laws heap a b c := by
  have hm := ha.memory
  obtain ⟨i, hi⟩ := ha.acyclic
  obtain ⟨j, hj⟩ := hb.acyclic
  obtain ⟨k, hk⟩ := hc.acyclic
  have ha' := hi.mono (show i ≤ max i (max j k) by omega)
  have hb' := hj.mono (show j ≤ max i (max j k) by omega)
  have hc' := hk.mono (show k ≤ max i (max j k) by omega)
  generalize max i (max j k) = n at ha' hb' hc'
  obtain ⟨dab, hab, aab⟩ := ha'.compared hD hm hb'
  obtain ⟨dba, hba, aba⟩ := hb'.compared hD hm ha'
  obtain ⟨dbc, hbc, abc⟩ := hb'.compared hD hm hc'
  obtain ⟨dac, hac, aac⟩ := ha'.compared hD hm hc'
  exact
    { ends := ⟨dab, hab⟩
      antisymm := fun d e hd he => by
        rw [hd.unique hab, he.unique hba]
        exact aab.sign_neg aba
      trans := fun d e f hd he hf h1 h2 => by
        rw [hd.unique hab] at h1
        rw [he.unique hbc] at h2
        rw [hf.unique hac]
        exact aab.trans_le abc aac h1 h2
      ints := fun i j x y d hai hbj hx hy hd => by
        subst hai hbj
        have had := compareForMMInt_agrees hD (ha'.admits hx) (hb'.admits hy)
        by_cases hij : i = j
        · subst hij
          cases hx.symm.trans hy
          rw [hd.unique (Compared.self heap _), sub_self]
        · have hnode := Compared.of_nodes hij hx hy rfl fun _ => rfl
          rw [hd.unique hnode]
          exact symbol_sign had
      longs := fun i j x y d hai hbj hx hy hd => by
        subst hai hbj
        have had := compareForMMLong_agrees hD (ha'.admits hx) (hb'.admits hy)
        by_cases hij : i = j
        · subst hij
          cases hx.symm.trans hy
          rw [hd.unique (Compared.self heap _), sub_self]
        · have hnode := Compared.of_nodes hij hx hy rfl fun _ => rfl
          rw [hd.unique hnode]
          exact symbol_sign had }

theorem Domain.Memory.of_none (D : Domain) (hs : ∀ x, .mmString (some x) ∉ heap)
    (hd : ∀ x, .mmData (some x) ∉ heap) : D.Memory heap where
  strings x _ hx := absurd hx (hs x)
  data x _ hx := absurd hx (hd x)
  unshared _ x _ hx := absurd hx (hd x)

theorem narrow_ints (h : ∀ heap a b c, D.Built heap a → D.Built heap b → D.Built heap c →
    Laws heap a b c) {x y : Int} (hx : x ∈ D.ints) (hy : y ∈ D.ints) : x - y < 2 ^ 31 := by
  by_contra hwide
  obtain ⟨-, hx1⟩ := D.ints_range x hx
  obtain ⟨hy0, -⟩ := D.ints_range y hy
  have hm : D.Memory [.mmInt x, .mmInt y] := Domain.Memory.of_none D (by simp) (by simp)
  have ha : D.Built [.mmInt x, .mmInt y] (some 0) :=
    ⟨hm, 1, .mmInt x, rfl, hx, by simp [Node.children]⟩
  have hb : D.Built [.mmInt x, .mmInt y] (some 1) :=
    ⟨hm, 1, .mmInt y, rfl, hy, by simp [Node.children]⟩
  have hcmp : Compared [.mmInt x, .mmInt y] (some 0) (some 1) (compareForMMInt x y) :=
    Compared.of_nodes (by decide) rfl rfl rfl fun _ => rfl
  have hsign := (h _ _ _ _ ha hb hb).ints 0 1 x y _ rfl rfl rfl rfl hcmp
  -- the difference has come round to the negative numbers
  have hd : compareForMMInt x y = x - y - 2 ^ 32 := by
    rw [compareForMMInt, int32, Int.bmod_def]
    omega
  rw [hd, Int.sign_eq_neg_one_of_neg (by omega), Int.sign_eq_one_of_pos (by omega)] at hsign
  exact absurd hsign (by decide)

theorem narrow_longs (h : ∀ heap a b c, D.Built heap a → D.Built heap b → D.Built heap c →
    Laws heap a b c) {x y : Int} (hx : x ∈ D.longs) (hy : y ∈ D.longs) : x - y < 2 ^ 63 := by
  by_contra hwide
  obtain ⟨-, hx1⟩ := D.longs_range x hx
  obtain ⟨hy0, -⟩ := D.longs_range y hy
  have hm : D.Memory [.mmLong x, .mmLong y] := Domain.Memory.of_none D (by simp) (by simp)
  have ha : D.Built [.mmLong x, .mmLong y] (some 0) :=
    ⟨hm, 1, .mmLong x, rfl, hx, by simp [Node.children]⟩
  have hb : D.Built [.mmLong x, .mmLong y] (some 1) :=
    ⟨hm, 1, .mmLong y, rfl, hy, by simp [Node.children]⟩
  have hcmp : Compared [.mmLong x, .mmLong y] (some 0) (some 1) (compareForMMLong x y) :=
    Compared.of_nodes (by decide) rfl rfl rfl fun _ => rfl
  have hsign := (h _ _ _ _ ha hb hb).longs 0 1 x y _ rfl rfl rfl rfl hcmp
  have hd : int64 (x - y) = x - y - 2 ^ 64 := by
    rw [int64, Int.bmod_def]
    omega
  have hneg : compareForMMLong x y = -1 := by
    simp only [compareForMMLong, hd]
    rw [if_neg (by omega), if_pos (by omega)]
  rw [hneg, Int.sign_eq_one_of_pos (a := x - y) (by omega)] at hsign
  exact absurd hsign (by decide)

/-- A list as long as half the range of sizes and an empty one are each below the other. -/
theorem narrow_sizes (h : ∀ heap a b c, D.Built heap a → D.Built heap b → D.Built heap c →
    Laws heap a b c) : D.bound ≤ 2 ^ 31 := by
  by_contra hwide
  obtain ⟨l, hl, hl0⟩ : ∃ l : List (Option Addr), l.length = 2 ^ 31 ∧ ∀ p ∈ l, p = some 0 :=
    ⟨List.replicate (2 ^ 31) (some 0), List.length_replicate,
      fun p hp => List.eq_of_mem_replicate hp⟩
  have hm : D.Memory [.mmString none, .mmList l, .mmList []] :=
    Domain.Memory.of_none D (by simp) (by simp)
  have hleaf : Within D [.mmString none, .mmList l, .mmList []] 1 (some 0) :=
    ⟨.mmString none, rfl, by simp [Domain.Admits], by simp [Node.children]⟩
  have ha : D.Built [.mmString none, .mmList l, .mmList []] (some 1) :=
    ⟨hm, 2, .mmList l, rfl, by simp only [Domain.Admits, hl]; omega,
      fun p hp => hl0 p hp ▸ hleaf⟩
  have hb : D.Built [.mmString none, .mmList l, .mmList []] (some 2) :=
    ⟨hm, 1, .mmList [], rfl, by simp only [Domain.Admits, List.length_nil]; omega,
      by simp [Node.children]⟩
  have hne : uint l.length ≠ uint ([] : List (Option Addr)).length := by
    rw [hl]
    decide
  have hab : Compared [.mmString none, .mmList l, .mmList []] (some 1) (some 2) (-2 ^ 31) :=
    Compared.of_nodes (by decide) rfl rfl rfl fun cmp => by
      rw [compareNodes, compareForMMList, if_pos hne, hl]
      rfl
  have hba : Compared [.mmString none, .mmList l, .mmList []] (some 2) (some 1) (-2 ^ 31) :=
    Compared.of_nodes (by decide) rfl rfl rfl fun cmp => by
      rw [compareNodes, compareForMMList, if_pos hne.symm, hl]
      rfl
  have hsign := (h _ _ _ _ ha hb hb).antisymm _ _ hab hba
  exact absurd hsign (by decide)

/-- Two parts of one memory are equal to each other, but not both to a copy of one. -/
theorem narrow_sharing (h : ∀ heap a b c, D.Built heap a → D.Built heap b → D.Built heap c →
    Laws heap a b c) (hs : D.sharing) : D.bound ≤ 2 := by
  by_contra hwide
  have hm : D.Memory [.mmData (some ⟨1, [0, 0]⟩), .mmData (some ⟨1, [0]⟩),
      .mmData (some ⟨2, [0]⟩)] :=
    { strings := by simp
      data := by
        intro x y hx hy hxy
        simp only [List.mem_cons, Node.mmData.injEq, Option.some.injEq, List.not_mem_nil,
          or_false] at hx hy
        rcases hx with rfl | rfl | rfl <;> rcases hy with rfl | rfl | rfl <;> revert hxy <;> decide
      unshared := fun hn => absurd hs hn }
  have hbuilt : ∀ (i : Nat) (b : Blob), [Node.mmData (some ⟨1, [0, 0]⟩), .mmData (some ⟨1, [0]⟩),
      .mmData (some ⟨2, [0]⟩)][i]? = some (.mmData (some b)) → b.bytes.length < 3 →
      0 < b.bytes.length → D.Built [.mmData (some ⟨1, [0, 0]⟩), .mmData (some ⟨1, [0]⟩),
        .mmData (some ⟨2, [0]⟩)] (some i) := fun i b hi h3 h0 =>
    ⟨hm, 1, _, hi, fun x hx => by obtain rfl := Option.some.inj hx; exact ⟨by omega, h0⟩,
      by simp [Node.children]⟩
  have ha := hbuilt 0 ⟨1, [0, 0]⟩ rfl (by decide) (by decide)
  have hb := hbuilt 1 ⟨1, [0]⟩ rfl (by decide) (by decide)
  have hc := hbuilt 2 ⟨2, [0]⟩ rfl (by decide) (by decide)
  have hle := (h _ _ _ _ ha hb hc).trans 0 0 1
    (Compared.of_nodes (by decide) rfl rfl rfl fun _ => rfl)
    (Compared.of_nodes (by decide) rfl rfl rfl fun _ => rfl)
    (Compared.of_nodes (by decide) rfl rfl rfl fun _ => rfl) le_rfl le_rfl
  exact absurd hle (by decide)

/-- The laws hold for all objects of a domain exactly when the domain is narrow. -/
theorem laws_iff_narrow (D : Domain) :
    (∀ heap a b c, D.Built heap a → D.Built heap b → D.Built heap c → Laws heap a b c) ↔
      D.Narrow := by
  constructor
  · intro h
    exact
      { ints := fun x hx y hy => narrow_ints h hx hy
        longs := fun x hx y hy => narrow_longs h hx hy
        sizes := narrow_sizes h
        unshared := narrow_sharing h }
  · intro hD heap a b c ha hb hc
    exact ha.laws hD hb hc

def Domain.full : Domain where
  ints := {v | -2 ^ 31 ≤ v ∧ v < 2 ^ 31}
  longs := {v | -2 ^ 63 ≤ v ∧ v < 2 ^ 63}
  bound := 2 ^ 32
  sharing := True
  ints_range _ hv := hv
  longs_range _ hv := hv
  bound_le := le_rfl

/-- Zero and the smallest `int32` are each below the other. -/
theorem not_laws_full :
    ¬∀ heap a b c, Domain.full.Built heap a → Domain.full.Built heap b →
      Domain.full.Built heap c → Laws heap a b c := by
  intro h
  have hm : Domain.full.Memory [.mmInt 0, .mmInt (-2 ^ 31)] :=
    Domain.Memory.of_none _ (by simp) (by simp)
  have ha : Domain.full.Built [.mmInt 0, .mmInt (-2 ^ 31)] (some 0) :=
    ⟨hm, 1, .mmInt 0, rfl, ⟨by decide, by decide⟩, by simp [Node.children]⟩
  have hb : Domain.full.Built [.mmInt 0, .mmInt (-2 ^ 31)] (some 1) :=
    ⟨hm, 1, .mmInt (-2 ^ 31), rfl, ⟨by decide, by decide⟩, by simp [Node.children]⟩
  have hsign := (h _ _ _ _ ha hb hb).antisymm (-2 ^ 31) (-2 ^ 31)
    (Compared.of_nodes (by decide) rfl rfl rfl fun _ => rfl)
    (Compared.of_nodes (by decide) rfl rfl rfl fun _ => rfl)
  exact absurd hsign (by decide)

end Laws

end LcClibs.Mmo.Compare
