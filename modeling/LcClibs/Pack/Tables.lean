import Mathlib
import LcClibs.Pack.Classes
import LcClibs.Pack.Numbering

namespace LcClibs.Pack.Tables

open Platform Lib Lib.BigEndian Lib.PrefixCode
open Buffer.Cursor Buffer.Append Buffer.Typdex Buffer.VarInt
open Mmo.Object Pack.Records Pack.Packer Pack.Classes Pack.Numbering Pack.Numbering.Ledger

section Records

def sectionMark : Record → Option (Bool × Nat)
  | .object num _ => some (true, num)
  | .objectEnd num => some (false, num)
  | _ => none

def definition : Record → Option (Nat × List UInt8)
  | .className num name => some (num, name)
  | _ => none

def classUse : Record → Option Nat
  | .object _ classnameNum => some classnameNum
  | .context classnameNum => some classnameNum
  | _ => none

def marks (rs : List Record) : List (Bool × Nat) := rs.filterMap sectionMark

def definitions (rs : List Record) : List (Nat × List UInt8) := rs.filterMap definition

def closedSections (n : Nat) : List (Bool × Nat) :=
  (List.range n).flatMap fun i => [(true, i), (false, i)]

@[simp] theorem marks_append (rs rs' : List Record) :
    marks (rs ++ rs') = marks rs ++ marks rs' := by
  simp [marks]

@[simp] theorem definitions_append (rs rs' : List Record) :
    definitions (rs ++ rs') = definitions rs ++ definitions rs' := by
  simp [definitions]

theorem closedSections_succ (n : Nat) :
    closedSections (n + 1) = closedSections n ++ [(true, n), (false, n)] := by
  simp [closedSections, List.range_succ]

end Records

section Specification

variable {A : Type} (stru : A → Stru A)

/-- What can be reached from some objects through the pointers that objects hold. -/
inductive Reach (roots : List A) : A → Prop
  | root {a : A} : a ∈ roots → Reach roots a
  | child {a b : A} : Reach roots a → b ∈ children (stru a) → Reach roots b

/-- The tables of a packer and the records in its buffer after calls for some roots. -/
structure Complete (host : Host) (roots : List A) (s : MMPacker A) : Prop where
  /-- The two object tables are inverse to each other, between the objects reached and
  the first numbers. -/
  objects : ∃ order : List A, order.Nodup ∧ (∀ a, a ∈ order ↔ Reach stru roots a) ∧
    s.objToId = order.zipIdx ∧ s.idToObj = order.zipIdx.map Prod.swap
  names : ∃ names : List (List UInt8), names.Nodup ∧ s.classNameToId = names.zipIdx
  records : ∃ rs, (∀ r ∈ rs, r.Fits) ∧ s.dyb.data.take s.dyb.position = streamBytes host rs ∧
    marks rs = closedSections s.idToObj.length ∧
    (∀ key num, .objectRef key num ∈ rs → num < s.idToObj.length) ∧
    (definitions rs).map Prod.swap = s.classNameToId ∧
    ∀ before r after, rs = before ++ r :: after → ∀ num ∈ classUse r,
      ((definitions before).map Prod.fst).count num = 1

/-- A call whose key and values fit a record; null is not written, and its key is free. -/
def CallFits : PackCall A → Prop
  | .varInt64 key value => key ≤ 0xFFFFF ∧ IsInt64 value
  | .float key value => key ≤ 0xFFFFF ∧ value < 2 ^ 32
  | .double key value => key ≤ 0xFFFFF ∧ value < 2 ^ 64
  | .data key value => key ≤ 0xFFFFF ∧ value.length < 2 ^ 32
  | .array key _ => key ≤ 0xFFFFF
  | .arrayEnd key => key ≤ 0xFFFFF
  | .object _ none => True
  | .object key (some _) => key ≤ 0xFFFFF
  | .crash _ => False

instance : (c : PackCall A) → Decidable (CallFits c)
  | .varInt64 key value => inferInstanceAs (Decidable (key ≤ 0xFFFFF ∧
      -2 ^ 63 ≤ value ∧ value < 2 ^ 63))
  | .float key value => inferInstanceAs (Decidable (key ≤ 0xFFFFF ∧ value < 2 ^ 32))
  | .double key value => inferInstanceAs (Decidable (key ≤ 0xFFFFF ∧ value < 2 ^ 64))
  | .data key value => inferInstanceAs (Decidable (key ≤ 0xFFFFF ∧ value.length < 2 ^ 32))
  | .object _ none => inferInstanceAs (Decidable True)
  | .array key _ | .arrayEnd key | .object key (some _) =>
    inferInstanceAs (Decidable (key ≤ 0xFFFFF))
  | .crash _ => inferInstanceAs (Decidable False)

theorem StruEnds.of_fits {s : Stru A}
    (h : ∀ l ∈ s.levels, ∀ cs ∈ l.pack, ∀ c ∈ cs, CallFits c) : StruEnds s :=
  fun l hl cs hcs _ hf => h l hl cs hcs _ hf

def nameValid (name : List UInt8) : Prop := 0 ∉ name ∧ name.length + 1 < 2 ^ 32

/-- The names an object brings into the table: its class and each class with a pack
function. -/
def savedNames (s : Stru A) : List (List UInt8) :=
  s.last.name :: (s.levels.filter fun l => l.pack.isSome).map Level.name

/-- An object whose pack functions make fitting calls, under valid class names out of
a given set. -/
structure StruFits (N : Finset (List UInt8)) (s : Stru A) : Prop where
  calls : ∀ l ∈ s.levels, ∀ cs ∈ l.pack, ∀ c ∈ cs, CallFits c
  names : ∀ name ∈ savedNames s, name ∈ N ∧ nameValid name

end Specification

section Invariant

variable {A : Type} {stru : A → Stru A}

/-- What holds of the ledger between any two steps. -/
structure Sound (U : Finset A) (N : Finset (List UInt8)) (T : Ledger A) : Prop where
  within : Within U T
  names_nodup : T.names.Nodup
  names_mem : ∀ n ∈ T.names, n ∈ N
  defined : definitions T.out = T.names.zipIdx.map Prod.swap
  used : ∀ before r after, T.out = before ++ r :: after → ∀ num ∈ classUse r,
    num < (definitions before).length
  refs : ∀ key num, .objectRef key num ∈ T.out → num < T.order.length
  fits : ∀ r ∈ T.out, r.Fits

variable {U : Finset A} {N : Finset (List UInt8)} {T : Ledger A}

theorem Sound.names_le (h : Sound U N T) : T.names.length ≤ N.card := by
  rw [← List.toFinset_card_of_nodup h.names_nodup]
  exact Finset.card_le_card fun n hn => h.names_mem n (List.mem_toFinset.mp hn)

theorem Sound.definitions_length (h : Sound U N T) :
    (definitions T.out).length = T.names.length := by
  rw [h.defined, List.length_map, List.length_zipIdx]

theorem append_singleton_split {α : Type} {l before after : List α} {x r : α}
    (h : l ++ [x] = before ++ r :: after) :
    (before = l ∧ r = x ∧ after = []) ∨ ∃ after', after = after' ++ [x] ∧
      l = before ++ r :: after' := by
  obtain rfl | ⟨after', y, rfl⟩ := List.eq_nil_or_concat after
  · obtain ⟨hl, hr⟩ := List.append_inj' h rfl
    exact .inl ⟨hl.symm, (List.cons.inj hr).1.symm, rfl⟩
  · rw [List.concat_eq_append, ← List.cons_append, ← List.append_assoc] at h
    obtain ⟨hl, hr⟩ := List.append_inj' h rfl
    exact .inr ⟨after', by rw [List.concat_eq_append, (List.cons.inj hr).1], hl⟩

theorem Sound.emit (h : Sound U N T) {r : Record} (hr : r.Fits) (hd : definition r = none)
    (hu : ∀ num ∈ classUse r, num < T.names.length)
    (href : ∀ key num, r = .objectRef key num → num < T.order.length) :
    Sound U N (T.emit r) where
  within := h.within.of_order rfl
  names_nodup := h.names_nodup
  names_mem := h.names_mem
  defined := by
    rw [Ledger.emit, definitions_append, h.defined]
    simp [definitions, hd]
  used before r' after hsplit num hnum := by
    obtain ⟨rfl, rfl, -⟩ | ⟨after', -, hs⟩ := append_singleton_split hsplit
    · rw [h.definitions_length]
      exact hu num hnum
    · exact h.used before r' after' hs num hnum
  refs key num hmem := by
    obtain hm | hm := List.mem_append.mp hmem
    · exact h.refs key num hm
    · exact href key num (List.mem_singleton.mp hm).symm
  fits r' hmem := by
    obtain hm | hm := List.mem_append.mp hmem
    · exact h.fits r' hm
    · exact List.mem_singleton.mp hm ▸ hr

theorem Sound.saveName (h : Sound U N T) (hN : N.card ≤ 2 ^ 20) {name : List UInt8}
    (hn : name ∈ N) (hv : nameValid name) : Sound U N (T.saveName name) := by
  unfold Ledger.saveName
  split_ifs with hmem
  · exact h
  have hnd : (T.names ++ [name]).Nodup :=
    List.nodup_append.mpr ⟨h.names_nodup, List.nodup_singleton name, fun a ha b hb => by
      rw [List.mem_singleton.mp hb]
      rintro rfl
      exact hmem ha⟩
  have hsub : ∀ n ∈ T.names ++ [name], n ∈ N := by
    intro n hn'
    obtain hm | hm := List.mem_append.mp hn'
    · exact h.names_mem n hm
    · exact List.mem_singleton.mp hm ▸ hn
  have hlen : (T.names ++ [name]).length ≤ N.card := by
    rw [← List.toFinset_card_of_nodup hnd]
    exact Finset.card_le_card fun n hn => hsub n (List.mem_toFinset.mp hn)
  rw [List.length_append, List.length_singleton] at hlen
  exact
    { within := h.within.of_order rfl
      names_nodup := hnd
      names_mem := hsub
      defined := by
        rw [definitions_append, h.defined, List.zipIdx_append, List.map_append, Nat.zero_add]
        rfl
      used := fun before r after hsplit num hnum => by
        obtain ⟨rfl, rfl, -⟩ | ⟨after', -, hs⟩ := append_singleton_split hsplit
        · cases hnum
        · exact h.used before r after' hs num hnum
      refs := fun key num hmem => by
        obtain hm | hm := List.mem_append.mp hmem
        · exact h.refs key num hm
        · cases List.mem_singleton.mp hm
      fits := fun r hmem => by
        obtain hm | hm := List.mem_append.mp hmem
        · exact h.fits r hm
        · rw [List.mem_singleton.mp hm]
          exact ⟨by omega, hv.1, hv.2⟩ }

theorem Sound.context (h : Sound U N T) (hN : N.card ≤ 2 ^ 20) {name : List UInt8}
    (hn : name ∈ N) (hv : nameValid name) : Sound U N (T.context name) := by
  have hs := h.saveName hN hn hv
  have hidx : (T.saveName name).names.idxOf name < (T.saveName name).names.length :=
    List.idxOf_lt_length_iff.mpr (mem_saveName name T)
  have hle := hs.names_le
  refine hs.emit (r := .context _) ?_ rfl ?_ ?_
  · exact Nat.le_of_lt_succ (by omega)
  · rintro num ⟨⟩
    exact hidx
  · rintro key num ⟨⟩

variable [DecidableEq A]

theorem Sound.saveObject (h : Sound U N T) {obj : A} (hobj : obj ∈ U) :
    Sound U N (T.saveObject obj) where
  within := h.within.saveObject hobj
  names_nodup := by rw [saveObject_names]; exact h.names_nodup
  names_mem := by rw [saveObject_names]; exact h.names_mem
  defined := by rw [saveObject_names, saveObject_out]; exact h.defined
  used := by rw [saveObject_out]; exact h.used
  refs key num hmem := by
    rw [saveObject_out] at hmem
    exact (h.refs key num hmem).trans_le (grows_saveObject obj T).order.length_le
  fits := by rw [saveObject_out]; exact h.fits

theorem Sound.call (h : Sound U N T) (hU : U.card ≤ 2 ^ 20) {c : PackCall A} (hc : CallFits c)
    (hobj : ∀ b ∈ objectsOf [c], b ∈ U) : Sound U N (T.call c) := by
  cases c with
  | object key obj =>
    cases obj with
    | none => exact h
    | some obj =>
      have hs := h.saveObject (hobj obj (by simp [objectsOf]))
      have hidx : (T.saveObject obj).order.idxOf obj < (T.saveObject obj).order.length :=
        List.idxOf_lt_length_iff.mpr (mem_saveObject obj T)
      have hle := hs.within.length_le
      refine hs.emit (r := .objectRef key _) ⟨hc, by omega⟩ rfl (by rintro num ⟨⟩) ?_
      rintro key' num ⟨⟩
      exact hidx
  | crash f => exact hc.elim
  | array key len =>
    exact h.emit (r := .array key _) ⟨hc, uint_lt _⟩ rfl (by rintro num ⟨⟩) (by rintro _ _ ⟨⟩)
  | arrayEnd key =>
    exact h.emit (r := .array key 0) ⟨hc, by decide⟩ rfl (by rintro num ⟨⟩) (by rintro _ _ ⟨⟩)
  | varInt64 key v =>
    exact h.emit (r := .integer key v) hc rfl (by rintro num ⟨⟩) (by rintro _ _ ⟨⟩)
  | float key v => exact h.emit (r := .float key v) hc rfl (by rintro num ⟨⟩) (by rintro _ _ ⟨⟩)
  | double key v => exact h.emit (r := .double key v) hc rfl (by rintro num ⟨⟩) (by rintro _ _ ⟨⟩)
  | data key v => exact h.emit (r := .raw key v) hc rfl (by rintro num ⟨⟩) (by rintro _ _ ⟨⟩)

theorem Sound.calls (h : Sound U N T) (hU : U.card ≤ 2 ^ 20) {cs : List (PackCall A)}
    (hcs : ∀ c ∈ cs, CallFits c) (hobj : ∀ b ∈ objectsOf cs, b ∈ U) : Sound U N (T.calls cs) := by
  induction cs generalizing T with
  | nil => exact h
  | cons c cs ih =>
    rw [objectsOf_cons] at hobj
    have hc := h.call hU (hcs c List.mem_cons_self) fun b hb => hobj b (List.mem_append_left _ hb)
    exact ih hc (fun c hc => hcs c (List.mem_cons_of_mem _ hc))
      fun b hb => hobj b (List.mem_append_right _ hb)

/-- Everything the packer may meet has a number that a header can carry. -/
structure Room (U : Universe stru) (N : Finset (List UInt8)) : Prop where
  objects : U.objects.card ≤ 2 ^ 20
  names : N.card ≤ 2 ^ 20
  fits : ∀ a ∈ U.objects, StruFits N (stru a)

theorem Sound.levels (h : Sound U N T) (hU : U.card ≤ 2 ^ 20) (hN : N.card ≤ 2 ^ 20)
    {ls : List (Level A)} (hcs : ∀ l ∈ ls, ∀ cs ∈ l.pack, ∀ c ∈ cs, CallFits c)
    (hn : ∀ l ∈ ls, l.pack.isSome → l.name ∈ N ∧ nameValid l.name)
    (hobj : ∀ b ∈ ls.flatMap (fun l => (l.pack.map objectsOf).getD []), b ∈ U) :
    Sound U N (T.levels ls) := by
  induction ls generalizing T with
  | nil => exact h
  | cons l ls ih =>
    rw [List.flatMap_cons] at hobj
    have hcs' := fun m hm => hcs m (List.mem_cons_of_mem _ hm)
    have hn' := fun m hm => hn m (List.mem_cons_of_mem _ hm)
    have hobj' := fun b hb => hobj b (List.mem_append_right _ hb)
    unfold Ledger.levels
    cases hpack : l.pack with
    | none => exact ih h hcs' hn' hobj'
    | some cs =>
      obtain ⟨hl, hv⟩ := hn l List.mem_cons_self (by rw [hpack]; rfl)
      have hc := (h.context hN hl hv).calls hU (hcs l List.mem_cons_self cs (by rw [hpack]; rfl))
        fun b hb => hobj b (List.mem_append_left _ (by rw [hpack]; exact hb))
      exact ih hc hcs' hn' hobj'

theorem Sound.packSection {U : Universe stru} (h : Sound U.objects N T) (hroom : Room U N) {a : A}
    (ha : a ∈ U.objects) {i : Nat} (hi : i < T.order.length) :
    Sound U.objects N (T.packSection (stru a) i) := by
  have hf := hroom.fits a ha
  have hi20 : i ≤ 0xFFFFF := by
    have := h.within.length_le
    have := hroom.objects
    omega
  obtain ⟨hl, hv⟩ := hf.names _ List.mem_cons_self
  have hn : ∀ l ∈ (stru a).levels, l.pack.isSome → l.name ∈ N ∧ nameValid l.name := fun l hl hp =>
    hf.names _ (List.mem_cons_of_mem _ (List.mem_map_of_mem (List.mem_filter.mpr ⟨hl, hp⟩)))
  have h1 := h.saveName hroom.names hl hv
  have hidx := List.idxOf_lt_length_iff.mpr (mem_saveName (stru a).last.name T)
  have hle := h1.names_le
  have hN := hroom.names
  have h2 := h1.emit (r := .object i ((T.saveName (stru a).last.name).names.idxOf
    (stru a).last.name)) ⟨hi20, by omega⟩ rfl (by rintro num ⟨⟩; exact hidx) (by rintro _ _ ⟨⟩)
  have h3 := h2.levels hroom.objects hroom.names hf.calls hn (U.closed a ha)
  exact h3.emit (r := .objectEnd i) hi20 rfl (by rintro num ⟨⟩) (by rintro _ _ ⟨⟩)

theorem Sound.sections {U : Universe stru} (h : Sound U.objects N T) (hroom : Room U N)
    (fuel i : Nat) : Sound U.objects N (T.sections stru fuel i) := by
  induction fuel generalizing i T with
  | zero => exact h
  | succ fuel ih =>
    unfold Ledger.sections
    cases ho : T.order[i]? with
    | none => exact h
    | some obj =>
      have hmem := h.within.mem obj (List.mem_of_getElem? ho)
      exact ih (h.packSection hroom hmem (List.getElem?_eq_some_iff.mp ho).1) (i + 1)

end Invariant

section Marks

variable {A : Type} {T : Ledger A}

theorem marks_emit {r : Record} (hr : sectionMark r = none) :
    marks (T.emit r).out = marks T.out := by
  simp [Ledger.emit, marks, hr]

theorem marks_saveName (name : List UInt8) : marks (T.saveName name).out = marks T.out := by
  unfold Ledger.saveName
  split_ifs
  · rfl
  · simp [marks, sectionMark]

variable [DecidableEq A]

theorem marks_call (c : PackCall A) : marks (T.call c).out = marks T.out := by
  cases c with
  | object key obj =>
    cases obj with
    | none => rfl
    | some obj => rw [Ledger.call, marks_emit rfl, saveObject_out]
  | crash f => rfl
  | _ => exact marks_emit rfl

theorem marks_calls (cs : List (PackCall A)) : marks (T.calls cs).out = marks T.out := by
  induction cs generalizing T with
  | nil => rfl
  | cons c cs ih => rw [Ledger.calls, ih, marks_call]

theorem marks_levels (ls : List (Level A)) : marks (T.levels ls).out = marks T.out := by
  induction ls generalizing T with
  | nil => rfl
  | cons l ls ih =>
    unfold Ledger.levels
    cases l.pack with
    | none => exact ih
    | some cs =>
      rw [ih, marks_calls, Ledger.context, marks_emit rfl, marks_saveName]

theorem marks_packSection (s : Stru A) (i : Nat) :
    marks (T.packSection s i).out = marks T.out ++ [(true, i), (false, i)] := by
  rw [Ledger.packSection, Ledger.emit, marks_append, marks_levels, Ledger.emit, marks_append,
    marks_saveName]
  simp [marks, sectionMark]

end Marks

section Closure

variable {A : Type} {stru : A → Stru A} {T : Ledger A}

def Drained (stru : A → Stru A) (i : Nat) (T : Ledger A) : Prop :=
  ∀ j a, j < i → T.order[j]? = some a → ∀ b ∈ children (stru a), b ∈ T.order

theorem Drained.grows {i : Nat} {T' : Ledger A} (h : Drained stru i T) (hi : i ≤ T.order.length)
    (hg : Grows T T') : Drained stru i T' := by
  intro j a hj ha b hb
  have hold : T.order[j]? = some a := by
    rw [← ha, List.getElem?_eq_getElem (by omega), hg.order.getElem (by omega),
      List.getElem?_eq_getElem]
  exact hg.order.subset (h j a hj hold b hb)

variable [DecidableEq A]

theorem mem_call {c : PackCall A} {b : A} (hb : b ∈ objectsOf [c]) : b ∈ (T.call c).order := by
  cases c with
  | object key obj =>
    cases obj with
    | none => simp [objectsOf] at hb
    | some obj =>
      obtain rfl : b = obj := by simpa [objectsOf] using hb
      exact mem_saveObject b T
  | _ => simp [objectsOf] at hb

theorem mem_calls {cs : List (PackCall A)} {b : A} (hb : b ∈ objectsOf cs) :
    b ∈ (T.calls cs).order := by
  induction cs generalizing T with
  | nil => simp [objectsOf] at hb
  | cons c cs ih =>
    rw [objectsOf_cons, List.mem_append] at hb
    obtain hb | hb := hb
    · exact (grows_calls cs _).order.subset (mem_call hb)
    · exact ih hb

theorem mem_levels {ls : List (Level A)} {b : A}
    (hb : b ∈ ls.flatMap (fun l => (l.pack.map objectsOf).getD [])) :
    b ∈ (T.levels ls).order := by
  induction ls generalizing T with
  | nil => simp at hb
  | cons l ls ih =>
    rw [List.flatMap_cons, List.mem_append] at hb
    unfold Ledger.levels
    cases hpack : l.pack with
    | none =>
      rw [hpack] at hb
      obtain hb | hb := hb
      · simp at hb
      · exact ih hb
    | some cs =>
      rw [hpack] at hb
      obtain hb | hb := hb
      · exact (grows_levels ls _).order.subset (mem_calls hb)
      · exact ih hb

theorem Drained.packSection {i : Nat} {obj : A} (h : Drained stru i T)
    (ho : T.order[i]? = some obj) : Drained stru (i + 1) (T.packSection (stru obj) i) := by
  have hlt := (List.getElem?_eq_some_iff.mp ho).1
  have hg := grows_packSection (stru obj) i T
  intro j a hj ha b hb
  by_cases hji : j = i
  · subst hji
    have hget : (T.packSection (stru obj) j).order[j]? = some obj := by
      rw [← ho, List.getElem?_eq_getElem hlt, hg.order.getElem hlt, List.getElem?_eq_getElem]
    obtain rfl : a = obj := Option.some.inj (ha.symm.trans hget)
    exact mem_levels hb
  · exact h.grows (by omega) hg j a (by omega) ha b hb

/-- The loop leaves a closed section for every number and no object to follow. -/
theorem sections_drain {U : Finset A} (hU : Closed stru U) {fuel i : Nat} (hT : Within U T)
    (hi : i ≤ T.order.length) (hfuel : U.card < fuel + i) (hd : Drained stru i T)
    (hm : marks T.out = closedSections i) :
    Drained stru (T.sections stru fuel i).order.length (T.sections stru fuel i) ∧
      marks (T.sections stru fuel i).out =
        closedSections (T.sections stru fuel i).order.length := by
  induction fuel generalizing i T with
  | zero =>
    have := hT.length_le
    omega
  | succ fuel ih =>
    unfold Ledger.sections
    cases ho : T.order[i]? with
    | none =>
      obtain rfl : i = T.order.length := by
        have := List.getElem?_eq_none_iff.mp ho
        omega
      exact ⟨hd, hm⟩
    | some obj =>
      have hlt := (List.getElem?_eq_some_iff.mp ho).1
      have hgrow := (grows_packSection (stru obj) i T).order.length_le
      refine ih (hT.packSection hU (hT.mem obj (List.mem_of_getElem? ho)) i) (by omega) (by omega)
        (hd.packSection ho) ?_
      rw [marks_packSection, hm, closedSections_succ]

theorem top_drain {U : Finset A} (hU : Closed stru U) {fuel : Nat} {c : PackCall A}
    (hT : Within U T) (hfuel : U.card < fuel) (hc : ∀ b ∈ objectsOf [c], b ∈ U)
    (hd : Drained stru T.order.length T) (hm : marks T.out = closedSections T.order.length) :
    Drained stru (T.top stru fuel c).order.length (T.top stru fuel c) ∧
      marks (T.top stru fuel c).out = closedSections (T.top stru fuel c).order.length := by
  have hgrow := grows_call c T
  unfold Ledger.top
  split
  · refine sections_drain hU (hT.call hc) hgrow.order.length_le (Nat.lt_add_right _ hfuel)
      (hd.grows le_rfl hgrow) ?_
    rw [marks_call, hm]
  · rename_i hne
    have ho : (T.call c).order = T.order := by
      cases c with
      | object key obj =>
        cases obj with
        | none => rfl
        | some obj => exact absurd rfl (hne key obj)
      | _ => rfl
    rw [ho, marks_call]
    exact ⟨hd.grows le_rfl hgrow, hm⟩

theorem mem_top {fuel : Nat} {c : PackCall A} {b : A} (hb : b ∈ objectsOf [c]) :
    b ∈ (T.top stru fuel c).order := by
  unfold Ledger.top
  split
  · exact (grows_sections stru fuel _ _).order.subset (mem_call hb)
  · exact mem_call hb

end Closure

section Runs

variable {A : Type} {stru : A → Stru A} {T : Ledger A}

/-- Between two calls from outside: the invariant, and nothing left to do. -/
structure Settled (U : Universe stru) (N : Finset (List UInt8)) (roots : List A)
    (T : Ledger A) : Prop where
  sound : Sound U.objects N T
  drained : Drained stru T.order.length T
  closed : marks T.out = closedSections T.order.length
  roots_mem : ∀ a ∈ roots, a ∈ T.order

variable {U : Universe stru} {N : Finset (List UInt8)} {roots : List A}

theorem Settled.start : Settled U N [] (Ledger.start : Ledger A) where
  sound :=
    { within := Within.start U.objects
      names_nodup := List.nodup_nil
      names_mem := fun _ h => absurd h List.not_mem_nil
      defined := rfl
      used := fun before r after hsplit num hnum => by
        obtain ⟨-, rfl, -⟩ | ⟨after', -, hs⟩ := append_singleton_split (l := []) hsplit
        · cases hnum
        · simp at hs
      refs := fun key num hmem => by cases List.mem_singleton.mp hmem
      fits := fun r hmem => by
        rw [List.mem_singleton.mp hmem]
        exact show packerVersionV1 < 2 ^ 64 by decide }
  drained j a hj := absurd hj (Nat.not_lt_zero j)
  closed := rfl
  roots_mem _ h := absurd h List.not_mem_nil

theorem Drained.reach (h : Drained stru T.order.length T) (hroots : ∀ a ∈ roots, a ∈ T.order)
    {a : A} (ha : Reach stru roots a) : a ∈ T.order := by
  induction ha with
  | root hr => exact hroots _ hr
  | child _ hb ih =>
    obtain ⟨j, hj, hget⟩ := List.getElem_of_mem ih
    exact h j _ hj (by rw [List.getElem?_eq_getElem hj, hget]) _ hb

/-- A name number below the count of the definitions is defined exactly once. -/
theorem Sound.defined_once {U : Finset A} (h : Sound U N T) {before after : List Record}
    {r : Record} (hsplit : T.out = before ++ r :: after) {num : Nat} (hnum : num ∈ classUse r) :
    ((definitions before).map Prod.fst).count num = 1 := by
  have hlt := h.used before r after hsplit num hnum
  have hall : (definitions T.out).map Prod.fst = List.range T.names.length := by
    rw [h.defined, List.map_map]
    exact List.zipIdx_map_snd 0 T.names ▸ by simp [List.range_eq_range']
  rw [hsplit, definitions_append, List.map_append] at hall
  have htake := congrArg (List.take (definitions before).length) hall
  rw [List.take_left' (by rw [List.length_map]), List.take_range] at htake
  rw [htake]
  refine List.count_eq_one_of_mem List.nodup_range (List.mem_range.mpr ?_)
  have hlen := congrArg List.length htake
  rw [List.length_map, List.length_range] at hlen
  omega

theorem Settled.complete {host : Host} (h : Settled U N roots T)
    (hU : ∀ a ∈ U.objects, Reach stru roots a) {s : MMPacker A} (hs : Keeps host 0 s T) :
    Complete stru host roots s where
  objects := ⟨T.order, h.sound.within.nodup,
    fun a => ⟨fun ha => hU a (h.sound.within.mem a ha), h.drained.reach h.roots_mem⟩,
    hs.objToId_eq, hs.idToObj_eq⟩
  names := ⟨T.names, h.sound.names_nodup, hs.names_eq⟩
  records := by
    have hlen : s.idToObj.length = T.order.length := by
      rw [hs.idToObj_eq, List.length_map, List.length_zipIdx]
    refine ⟨T.out, h.sound.fits, ?_, ?_, ?_, ?_, ?_⟩
    · rw [hs.written.written]
      rfl
    · rw [hlen, h.closed]
    · rw [hlen]
      exact h.sound.refs
    · rw [h.sound.defined, hs.names_eq, List.map_map]
      simp
    · intro before r after hsplit num hnum
      exact h.sound.defined_once hsplit hnum

variable [DecidableEq A]

theorem Settled.top (h : Settled U N roots T) (hroom : Room U N) {fuel : Nat}
    (hfuel : U.objects.card < fuel) {c : PackCall A} (hc : CallFits c)
    (hobj : ∀ b ∈ objectsOf [c], b ∈ U.objects) :
    Settled U N (roots ++ objectsOf [c]) (T.top stru fuel c) := by
  have hcall := h.sound.call hroom.objects hc hobj
  obtain ⟨hdrained, hclosed⟩ := top_drain U.closed h.sound.within hfuel hobj h.drained h.closed
  refine ⟨?_, hdrained, hclosed, fun a ha => ?_⟩
  · unfold Ledger.top
    split
    · exact hcall.sections hroom fuel _
    · exact hcall
  · obtain ha | ha := List.mem_append.mp ha
    · exact (grows_top stru fuel c T).order.subset (h.roots_mem a ha)
    · exact mem_top ha

theorem Settled.run (h : Settled U N roots T) (hroom : Room U N) {fuel : Nat}
    (hfuel : U.objects.card < fuel) {cs : List (PackCall A)} (hcs : ∀ c ∈ cs, CallFits c)
    (hobj : ∀ b ∈ objectsOf cs, b ∈ U.objects) :
    Settled U N (roots ++ objectsOf cs) (T.run stru fuel cs) := by
  induction cs generalizing T roots with
  | nil =>
    rw [show objectsOf ([] : List (PackCall A)) = [] from rfl, List.append_nil]
    exact h
  | cons c cs ih =>
    rw [objectsOf_cons] at hobj ⊢
    have hc := h.top hroom hfuel (hcs c List.mem_cons_self)
      fun b hb => hobj b (List.mem_append_left _ hb)
    rw [← List.append_assoc]
    exact ih hc (fun c hc => hcs c (List.mem_cons_of_mem _ hc))
      fun b hb => hobj b (List.mem_append_right _ hb)

end Runs

section Packing

variable {A : Type} (host : Host) (stru : A → Stru A)

def packMmobj (p : Nat × Option A) : PackCall A := .object p.1 p.2

def rootsOf (calls : List (Nat × Option A)) : List A := calls.filterMap Prod.snd

/-- The calls as the packer takes them. -/
def acceptedCalls (calls : List (Nat × Option A)) : List (Nat × Option A) :=
  calls.map fun p => (p.1, toMMObject stru p.2)

def reachNames (roots : List A) : Set (List UInt8) :=
  {name | ∃ a, Reach stru roots a ∧ name ∈ savedNames (stru a)}

variable {stru}

theorem objectsOf_map (calls : List (Nat × Option A)) :
    objectsOf (calls.map packMmobj) = rootsOf calls := by
  rw [objectsOf, List.filterMap_map]
  rfl

theorem map_packMmobj_accepted (calls : List (Nat × Option A)) :
    (calls.map packMmobj).map (acceptedCall stru) = (acceptedCalls stru calls).map packMmobj := by
  rw [acceptedCalls, List.map_map, List.map_map]
  rfl

theorem acceptedCalls_eq_self (h : ∀ a, (stru a).isMMObject = true)
    (calls : List (Nat × Option A)) : acceptedCalls stru calls = calls := by
  have hid : (fun p : Nat × Option A => (p.1, toMMObject stru p.2)) = id :=
    funext fun p => by rw [toMMObject_eq_self h, id]
  rw [acceptedCalls, hid, List.map_id]

theorem Reach.mono {roots roots' : List A} (h : roots ⊆ roots') {a : A}
    (ha : Reach stru roots a) : Reach stru roots' a := by
  induction ha with
  | root hr => exact .root (h hr)
  | child _ hb ih => exact .child ih hb

theorem reachNames_finite {roots : List A} (h : {a | Reach stru roots a}.Finite) :
    (reachNames stru roots).Finite := by
  have heq : reachNames stru roots =
      ⋃ a ∈ {a | Reach stru roots a}, {name | name ∈ savedNames (stru a)} := by
    ext name
    simp [reachNames]
  rw [heq]
  exact h.biUnion fun a _ => (savedNames (stru a)).finite_toSet

theorem universe_of_reach {roots : List A} (hfin : {a | Reach stru roots a}.Finite)
    (hfits : ∀ a, Reach stru roots a → ∀ l ∈ (stru a).levels, ∀ cs ∈ l.pack, ∀ c ∈ cs, CallFits c)
    (hvalid : ∀ name ∈ reachNames stru roots, nameValid name)
    (hobjects : {a | Reach stru roots a}.ncard ≤ 2 ^ 20)
    (hnames : (reachNames stru roots).ncard ≤ 2 ^ 20) :
    ∃ (U : Universe stru) (N : Finset (List UInt8)), Room U N ∧
      (∀ a, a ∈ U.objects ↔ Reach stru roots a) ∧
      U.objects.card = {a | Reach stru roots a}.ncard := by
  have hnfin := reachNames_finite hfin
  have hcard := Set.ncard_eq_toFinset_card _ hfin
  have hncard := Set.ncard_eq_toFinset_card _ hnfin
  have hends : ∀ a ∈ hfin.toFinset, StruEnds (stru a) := fun a ha =>
    StruEnds.of_fits (hfits a (hfin.mem_toFinset.mp ha))
  have hclosed : ∀ a ∈ hfin.toFinset, ∀ b ∈ children (stru a), b ∈ hfin.toFinset :=
    fun a ha b hb => hfin.mem_toFinset.mpr (.child (hfin.mem_toFinset.mp ha) hb)
  let U : Universe stru := ⟨hfin.toFinset, hclosed, hends⟩
  have hroom : Room U hnfin.toFinset :=
    { objects := by rw [← hcard]; exact hobjects
      names := by rw [← hncard]; exact hnames
      fits := fun a ha =>
        have hr := hfin.mem_toFinset.mp ha
        { calls := hfits a hr
          names := fun name hn =>
            ⟨hnfin.mem_toFinset.mpr ⟨a, hr, hn⟩, hvalid name ⟨a, hr, hn⟩⟩ } }
  exact ⟨U, hnfin.toFinset, hroom, fun a => hfin.mem_toFinset, hcard.symm⟩

variable [DecidableEq A] (stru)

/-- Every call on a new packer terminates, and leaves it complete for the roots so far. -/
def PacksComplete (calls : List (Nat × Option A)) : Prop :=
  ∃ s0, initMMPacker host = .ok s0 ∧ ∀ before, before <+: calls →
    ∃ enough, ∀ fuel, enough ≤ fuel →
      ∃ s, packTop host stru fuel (before.map packMmobj) s0 = .ok ((), s) ∧
        Complete (accepted stru) host (rootsOf (acceptedCalls stru before)) s

/-- A finite object graph for which all keys, object numbers and class numbers are at
most 0xFFFFF, no pack function measures a null string, and the packed bytes can be
counted. -/
structure Packable (calls : List (Nat × Option A)) : Prop where
  finite : {a | Reach stru (rootsOf calls) a}.Finite
  keys : ∀ p ∈ calls, CallFits (packMmobj p)
  fits : ∀ a, Reach stru (rootsOf calls) a → ∀ l ∈ (stru a).levels, ∀ cs ∈ l.pack, ∀ c ∈ cs,
    CallFits c
  valid : ∀ name ∈ reachNames stru (rootsOf calls), nameValid name
  objects : {a | Reach stru (rootsOf calls) a}.ncard ≤ 2 ^ 20
  names : (reachNames stru (rootsOf calls)).ncard ≤ 2 ^ 20
  bytes : ∃ fuel, {a | Reach stru (rootsOf calls) a}.ncard < fuel ∧
    ((Ledger.start : Ledger A).run stru fuel (calls.map packMmobj)).size host < 2 ^ 32

variable {host stru}

theorem Packable.before {calls before : List (Nat × Option A)} (h : Packable host stru calls)
    (hb : before <+: calls) : Packable host stru before := by
  have hroots : rootsOf before ⊆ rootsOf calls := (hb.filterMap Prod.snd).subset
  have hsub : {a | Reach stru (rootsOf before) a} ⊆ {a | Reach stru (rootsOf calls) a} :=
    fun a ha => Reach.mono hroots ha
  have hnsub : reachNames stru (rootsOf before) ⊆ reachNames stru (rootsOf calls) :=
    fun n ⟨a, ha, hn⟩ => ⟨a, ha.mono hroots, hn⟩
  obtain ⟨fuel, hfuel, hlt⟩ := h.bytes
  have hle := Set.ncard_le_ncard hsub h.finite
  obtain ⟨after, rfl⟩ := hb
  rw [List.map_append, run_append] at hlt
  exact
    { finite := h.finite.subset hsub
      keys := fun p hp => h.keys p (List.mem_append_left _ hp)
      fits := fun a ha => h.fits a (ha.mono hroots)
      valid := fun name hn => h.valid name (hnsub hn)
      objects := hle.trans h.objects
      names := (Set.ncard_le_ncard hnsub (reachNames_finite h.finite)).trans h.names
      bytes := ⟨fuel, hle.trans_lt hfuel, ((grows_run stru _ _ _).size_le host).trans_lt hlt⟩ }

theorem Packable.complete {calls : List (Nat × Option A)}
    (h : Packable host (accepted stru) (acceptedCalls stru calls)) {s0 : MMPacker A}
    (h0 : Keeps host 0 s0 (Ledger.start : Ledger A)) :
    ∃ enough, ∀ fuel, enough ≤ fuel →
      ∃ s, packTop host stru fuel (calls.map packMmobj) s0 = .ok ((), s) ∧
        Complete (accepted stru) host (rootsOf (acceptedCalls stru calls)) s := by
  obtain ⟨U, N, hroom, hU, hcard⟩ :=
    universe_of_reach h.finite h.fits h.valid h.objects h.names
  obtain ⟨enough, hen, hbytes⟩ := h.bytes
  rw [← hcard] at hen
  refine ⟨enough + 1, fun fuel hle => ?_⟩
  obtain ⟨fuel, rfl⟩ : ∃ n, fuel = n + 1 := ⟨fuel - 1, by omega⟩
  have hfuel : U.objects.card < fuel := by omega
  have hmap : (calls.map packMmobj).map (acceptedCall stru) =
      (acceptedCalls stru calls).map packMmobj := map_packMmobj_accepted calls
  have hmem : ∀ b ∈ objectsOf ((acceptedCalls stru calls).map packMmobj), b ∈ U.objects :=
    fun b hb => (hU b).mpr (.root (objectsOf_map (acceptedCalls stru calls) ▸ hb))
  have hends : Ends ((acceptedCalls stru calls).map packMmobj) := fun f hf => by
    obtain ⟨p, -, hp⟩ := List.mem_map.mp hf
    cases hp
  have hfits : ∀ c ∈ (acceptedCalls stru calls).map packMmobj, CallFits c := fun c hc => by
    obtain ⟨p, hp, rfl⟩ := List.mem_map.mp hc
    exact h.keys p hp
  have hstart := Within.start U.objects
  have hlt : ((Ledger.start : Ledger A).run (accepted stru) fuel
      ((acceptedCalls stru calls).map packMmobj)).size host < 2 ^ 32 := by
    rw [run_fuel U.closed hstart hmem hen (Nat.le_of_succ_le_succ hle)]
    exact hbytes
  rw [← hmap] at hlt hmem hends hfits
  obtain ⟨s, hrun, hs⟩ := packTop_does U h0 hstart hends hmem hfuel hlt
  have hset := (Settled.start (U := U) (N := N)).run hroom hfuel hfits hmem
  rw [List.nil_append, hmap, objectsOf_map] at hset
  rw [hmap] at hs
  exact ⟨s, hrun, hset.complete (fun a ha => (hU a).mp ha) hs⟩

/-- Calls that are packable as the packer takes them keep its tables and records complete
throughout. -/
theorem packsComplete_of_packable {calls : List (Nat × Option A)}
    (h : Packable host (accepted stru) (acceptedCalls stru calls)) :
    PacksComplete host stru calls := by
  obtain ⟨s0, hinit, h0⟩ := initMMPacker_keeps (A := A) host
  exact ⟨s0, hinit, fun before hb => (h.before (hb.map _)).complete h0⟩

def loopHeap : Heap := [.mmList [some 0, some 1], .mmInt 7]

theorem loopHeap_reach {a : Addr} (h : Reach (heapStru loopHeap) [0] a) : a = 0 ∨ a = 1 := by
  induction h with
  | root hr => exact .inl (List.mem_singleton.mp hr)
  | child _ hb ih =>
    have h0 : children (heapStru loopHeap 0) = [0, 1] := rfl
    have h1 : children (heapStru loopHeap 1) = [] := rfl
    obtain rfl | rfl := ih
    · simpa [h0] using hb
    · simp [h1] at hb

theorem packsComplete_loopHeap :
    PacksComplete .little (heapStru loopHeap) [(3, some 0)] := by
  have hsub : {a | Reach (heapStru loopHeap) [0] a} ⊆ {0, 1} := fun a ha => loopHeap_reach ha
  have hfin : {a | Reach (heapStru loopHeap) [0] a}.Finite := (Set.toFinite _).subset hsub
  have hle : {a | Reach (heapStru loopHeap) [0] a}.ncard ≤ 2 :=
    (Set.ncard_le_ncard hsub (Set.toFinite _)).trans (Set.ncard_insert_le _ _ |>.trans (by simp))
  have hnames : reachNames (heapStru loopHeap) [0] ⊆ {cstr "MMList", cstr "MMInt"} := by
    rintro name ⟨a, ha, hn⟩
    have h0 : savedNames (heapStru loopHeap 0) = [cstr "MMList", cstr "MMList"] := rfl
    have h1 : savedNames (heapStru loopHeap 1) = [cstr "MMInt", cstr "MMInt"] := rfl
    obtain rfl | rfl := loopHeap_reach ha
    · exact .inl (by simpa [h0] using hn)
    · exact .inr (by simpa [h1] using hn)
  have hn2 : (reachNames (heapStru loopHeap) [0]).ncard ≤ 2 :=
    (Set.ncard_le_ncard hnames (Set.toFinite _)).trans (Set.ncard_insert_le _ _ |>.trans (by simp))
  have hfit : ∀ a ∈ [0, 1], ∀ l ∈ (heapStru loopHeap a).levels, ∀ cs ∈ l.pack, ∀ c ∈ cs,
      CallFits c := by decide
  have hp : Packable .little (heapStru loopHeap) [(3, some 0)] :=
    { finite := hfin
      keys := by decide
      fits := fun a ha => by
        obtain rfl | rfl := loopHeap_reach ha
        · exact hfit 0 (by decide)
        · exact hfit 1 (by decide)
      valid := fun name hn => by
        rcases hnames hn with rfl | rfl <;> exact ⟨by decide, by decide⟩
      objects := hle.trans (by decide)
      names := hn2.trans (by decide)
      bytes := ⟨3, Nat.lt_succ_of_le hle, by decide⟩ }
  have hall := heapStru_isMMObject loopHeap
  rw [← accepted_eq_self hall, ← acceptedCalls_eq_self hall [(3, some 0)]] at hp
  exact packsComplete_of_packable hp

end Packing

section Refused

theorem header_of_stream {host : Host} {r : Record} {rs : List Record} (h : r.Fits)
    {first : UInt8} {tail : List UInt8} (hs : streamBytes host (r :: rs) = first :: tail) :
    headerOf first tail = (r.type, r.index) := by
  rw [streamBytes_cons, Record.bytes, List.append_assoc] at hs
  obtain ⟨f, body, hb, -, hread⟩ :=
    typdexBytes_read h.typdexFits (r.value host ++ streamBytes host rs)
  rw [hb, List.cons_append, List.cons.injEq] at hs
  obtain ⟨rfl, rfl⟩ := hs
  exact hread

theorem type_pos (r : Record) : 0 < r.type := by
  cases r <;> simp only [Record.type] <;> decide

theorem headerOf_small {first : UInt8} (h : widthOf first = 1) (tail : List UInt8) :
    headerOf first tail = headerFields 1 first.toNat := by
  rw [headerOf, h, if_pos (by decide), Nat.sub_self, List.take_zero]
  simp [ofBytes]

/-- No stream of fitting records goes on with a zero byte after the version record. -/
theorem no_zero_header {host : Host} {rs : List Record} (h : ∀ r ∈ rs, r.Fits)
    (tail : List UInt8) : streamBytes host rs ≠ 0x79 :: 0x01 :: 0x00 :: tail := by
  intro hs
  cases rs with
  | nil => cases hs
  | cons r rs =>
    have hr := h r List.mem_cons_self
    have hhead := header_of_stream hr hs
    rw [headerOf_small (by decide)] at hhead
    have htype : 15 = r.type := congrArg Prod.fst hhead
    obtain ⟨v, rfl⟩ : ∃ v, r = .version v := by
      cases r with
      | version v => exact ⟨v, rfl⟩
      | _ => cases htype
    have hbytes : typdexBytes pkrdexFunction pkrfnVersion = [0x79] := by decide
    obtain ⟨f, body, hb, hw, -⟩ := varBytes_read hr (streamBytes host rs)
    rw [streamBytes_cons, Record.bytes, Record.value, hb, Record.type, Record.index, hbytes,
      List.cons_append, List.cons_append, List.nil_append, List.cons_append, List.cons.injEq,
      List.cons.injEq] at hs
    obtain ⟨-, rfl, hs⟩ := hs
    have hbody : body = [] := List.length_eq_zero_iff.mp (Nat.succ.inj hw).symm
    rw [hbody, List.nil_append] at hs
    cases rs with
    | nil => cases hs
    | cons r' rs =>
      have hhead' := header_of_stream (h r' (by simp)) hs
      rw [headerOf_small (by decide)] at hhead'
      have hzero : 0 = r'.type := congrArg Prod.fst hhead'
      exact absurd (type_pos r') (by omega)

/-- A key above 0xFFFFF leaves its reference without a header. -/
theorem not_packsComplete :
    ¬PacksComplete .little (heapStru [.mmInt 5]) [(2 ^ 20, some 0)] := by
  rintro ⟨s0, hinit, h⟩
  obtain ⟨enough, h⟩ := h _ (List.prefix_refl _)
  obtain ⟨s, hrun, hs⟩ := h (enough + 3) (Nat.le_add_right _ _)
  obtain ⟨rs, hfits, hbytes, -⟩ := hs.records
  obtain ⟨s0', hinit', h0⟩ := initMMPacker_keeps (A := Addr) .little
  obtain rfl := Except.ok.inj (hinit.symm.trans hinit')
  have hclosed : ∀ a ∈ ({0} : Finset Addr), ∀ b ∈ children (heapStru [.mmInt 5] a),
      b ∈ ({0} : Finset Addr) := by
    intro a ha b hb
    obtain rfl := Finset.mem_singleton.mp ha
    cases hb
  have hends : ∀ a ∈ ({0} : Finset Addr), StruEnds (heapStru [.mmInt 5] a) := by
    intro a ha
    obtain rfl := Finset.mem_singleton.mp ha
    exact StruEnds.of_fits (by decide)
  -- the records, of which the reference has no header
  have hout : ((Ledger.start : Ledger Addr).run (heapStru [.mmInt 5]) (enough + 2)
      [.object (2 ^ 20) (some 0)]).out =
      [.version 1, .objectRef (2 ^ 20) 0, .className 0 (cstr "MMInt"), .object 0 0, .context 0,
        .integer 0 5, .objectEnd 0] := rfl
  have hlt : ((Ledger.start : Ledger Addr).run (heapStru [.mmInt 5]) (enough + 2)
      [.object (2 ^ 20) (some 0)]).size .little < 2 ^ 32 := by
    rw [Ledger.size, hout]
    decide
  have hobj : ∀ b ∈ objectsOf [PackCall.object (2 ^ 20) (some 0)], b ∈ ({0} : Finset Addr) := by
    decide
  have hcard : ({0} : Finset Addr).card < enough + 2 := by
    rw [Finset.card_singleton]
    omega
  have hcalls : Ends [PackCall.object (2 ^ 20) (some 0)] := by
    intro f hf
    cases List.mem_singleton.mp hf
  obtain ⟨s', hrun', hs'⟩ :=
    packTop_does_all (heapStru_isMMObject _) ⟨{0}, hclosed, hends⟩ h0 (Within.start _) hcalls hobj
      hcard hlt
  obtain rfl : s = s' := by
    have := hrun.symm.trans hrun'
    simpa using this
  have htake : (streamBytes .little [.version 1, .objectRef (2 ^ 20) 0,
      .className 0 (cstr "MMInt"), .object 0 0, .context 0, .integer 0 5, .objectEnd 0]).take 3 =
      [0x79, 0x01, 0x00] := by decide
  rw [hs'.written.written, hout, ← List.take_append_drop 3 (streamBytes _ _), htake] at hbytes
  exact no_zero_header hfits _ hbytes.symm

end Refused

end LcClibs.Pack.Tables
