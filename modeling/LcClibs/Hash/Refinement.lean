import Mathlib
import LcClibs.Hash.Lookup
import LcClibs.Lib.Table

namespace LcClibs.Hash.Refinement

open Platform Lib.Runs Hash.UtHash Hash.Layout Hash.Buckets Hash.Expand Hash.Table Hash.Lookup

section Spec

structure Entry where
  el : Nat
  keyptr : Nat
  key : List UInt8
  deriving DecidableEq, Repr

structure Abstract where
  entries : List Entry
  bytes : Nat → UInt8
  allocated : Nat → Bool

inductive Call
  | add (keyptr keylen el : Nat)
  | addInorder (cmpfcn : Nat → Nat → Int) (keyptr keylen el : Nat)
  | replace (keyptr keylen el : Nat)
  | replaceInorder (cmpfcn : Nat → Nat → Int) (keyptr keylen el : Nat)
  | delete (el : Nat)
  | find (keyptr keylen : Nat)
  | count
  | clear
  | drain
  | alloc (el : Nat) (garbage : UTHashHandle)
  | free (el : Nat)
  | write (p : Nat) (byte : UInt8)

variable (malloc : Nat → Nat → Bool) (hashFcn : HashFcn)

/-- A look-up answers with the element, a count with the count, and replacing with the
element that was there. -/
def Call.run : Call → HashM Nat
  | add keyptr keylen el => do
    hashAddKeyptr malloc hashFcn keyptr keylen el
    return 0
  | addInorder cmpfcn keyptr keylen el => do
    hashAddKeyptrInorder malloc hashFcn keyptr keylen el cmpfcn
    return 0
  | replace keyptr keylen el => hashReplace malloc hashFcn keyptr keylen el
  | replaceInorder cmpfcn keyptr keylen el =>
    hashReplaceInorder malloc hashFcn keyptr keylen el cmpfcn
  | delete el => do
    hashDelete el
    return 0
  | find keyptr keylen => hashFind hashFcn keyptr keylen
  | count => hashCount
  | clear => do
    hashClear
    return 0
  | drain => do
    hashIter fun el => do hashDelete el; freeElement el
    return 0
  | alloc el garbage => do
    modify fun s => s.put el garbage
    return 0
  | free el => do
    freeElement el
    return 0
  | write p byte => do
    modify fun s => { s with bytes := Function.update s.bytes p byte }
    return 0

def runCalls : List Call → HashM (List Nat)
  | [] => return []
  | c :: calls => do
    let answer ← c.run malloc hashFcn
    let answers ← runCalls calls
    return answer :: answers

def Abstract.newEntry (a : Abstract) (keyptr keylen el : Nat) : Entry :=
  ⟨el, keyptr, bytesAt a.bytes keyptr keylen⟩

def Abstract.lookup (a : Abstract) (key : List UInt8) : Option Entry :=
  Lib.Table.find Entry.key key a.entries

def Abstract.find (a : Abstract) (keyptr keylen : Nat) : Nat :=
  ((a.lookup (bytesAt a.bytes keyptr keylen)).map Entry.el).getD 0

def insertInorder (cmpfcn : Nat → Nat → Int) (e : Entry) (entries : List Entry) : List Entry :=
  entries.takeWhile (fun x => cmpfcn x.el e.el ≤ 0) ++
    e :: entries.dropWhile fun x => cmpfcn x.el e.el ≤ 0

def Call.spec : Call → Abstract → Nat × Abstract
  | add keyptr keylen el, a =>
    (0, { a with entries := a.entries ++ [a.newEntry keyptr keylen el] })
  | addInorder cmpfcn keyptr keylen el, a =>
    (0, { a with entries := insertInorder cmpfcn (a.newEntry keyptr keylen el) a.entries })
  | replace keyptr keylen el, a =>
    (a.find keyptr keylen,
      { a with entries := Lib.Table.put Entry.key (a.newEntry keyptr keylen el) a.entries })
  | replaceInorder cmpfcn keyptr keylen el, a =>
    (a.find keyptr keylen,
      { a with
        entries := insertInorder cmpfcn (a.newEntry keyptr keylen el)
          (Lib.Table.del Entry.key (bytesAt a.bytes keyptr keylen) a.entries) })
  | delete el, a => (0, { a with entries := a.entries.filter fun e => e.el ≠ el })
  | find keyptr keylen, a => (a.find keyptr keylen, a)
  | count, a => (a.entries.length, a)
  | clear, a => (0, { a with entries := [] })
  | drain, a =>
    (0, { a with
      entries := []
      allocated := fun p => a.allocated p && !(a.entries.map Entry.el).contains p })
  | alloc el _, a => (0, { a with allocated := Function.update a.allocated el true })
  | free el, a => (0, { a with allocated := Function.update a.allocated el false })
  | write p byte, a => (0, { a with bytes := Function.update a.bytes p byte })

def specRun : List Call → Abstract → List Nat × Abstract
  | [], a => ([], a)
  | c :: calls, a =>
    ((c.spec a).1 :: (specRun calls (c.spec a).2).1, (specRun calls (c.spec a).2).2)

/-- An element with memory that is not in the hash. -/
structure Abstract.Offers (a : Abstract) (keyptr keylen el : Nat) : Prop where
  ne_zero : el ≠ 0
  allocated : a.allocated el = true
  fresh : el ∉ a.entries.map Entry.el
  short : keylen < 2 ^ 32
  room : a.entries.length + 1 < 2 ^ 32

structure Abstract.Admits (a : Abstract) (keyptr keylen el : Nat) : Prop
    extends a.Offers keyptr keylen el where
  newKey : bytesAt a.bytes keyptr keylen ∉ a.entries.map Entry.key

/-- What the library asks of its callers: only elements of the hash are deleted, keys are
not written over while they are in use, nothing is freed that is in use. -/
def Call.Proper : Call → Abstract → Prop
  | add keyptr keylen el, a => a.Admits keyptr keylen el
  | addInorder _ keyptr keylen el, a => a.Admits keyptr keylen el
  | replace keyptr keylen el, a => a.Offers keyptr keylen el
  | replaceInorder _ keyptr keylen el, a => a.Offers keyptr keylen el
  | delete el, a => el ∈ a.entries.map Entry.el
  | alloc el _, a => el ≠ 0 ∧ a.allocated el = false
  | free el, a => el ≠ 0 ∧ a.allocated el = true ∧ el ∉ a.entries.map Entry.el
  | write p _, a => ∀ e ∈ a.entries, p < e.keyptr ∨ e.keyptr + e.key.length ≤ p
  | _, _ => True

def ProperRun : List Call → Abstract → Prop
  | [], _ => True
  | c :: calls, a => c.Proper a ∧ ProperRun calls (c.spec a).2

def startState (bytes : Nat → UInt8) : HashState := ⟨0, none, fun _ => none, bytes, 0⟩

def startAbstract (bytes : Nat → UInt8) : Abstract := ⟨[], bytes, fun _ => false⟩

/-- The pointers hold the abstract hash. -/
structure Holds (s : HashState) (a : Abstract) : Prop where
  represents : Represents s (a.entries.map Entry.el)
  data : ∀ e ∈ a.entries, Layout.data s e.el =
    some (e.keyptr, e.key.length, hashFcn.value s.bytes e.keyptr e.key.length)
  key : ∀ e ∈ a.entries, bytesAt s.bytes e.keyptr e.key.length = e.key
  unique : (a.entries.map Entry.key).Nodup
  bytes : s.bytes = a.bytes
  allocated : ∀ p, (s.hh p).isSome = a.allocated p

end Spec

section Steps

variable {malloc : Nat → Nat → Bool} {hashFcn : HashFcn} {s s' : HashState} {a : Abstract}
  {keyptr keylen el : Nat}

theorem start_holds (bytes : Nat → UInt8) :
    Holds hashFcn (startState bytes) (startAbstract bytes) :=
  ⟨represents_nil rfl rfl, fun _ he => absurd he List.not_mem_nil,
    fun _ he => absurd he List.not_mem_nil, List.nodup_nil, rfl, fun _ => rfl⟩

theorem Holds.of_added {entries : List Entry} (h : Holds hashFcn s a)
    (ha : a.Admits keyptr keylen el)
    (hmem : (a.newEntry keyptr keylen el :: a.entries).Perm entries)
    (hrep : Represents s' (entries.map Entry.el))
    (hadded : Added keyptr (uint keylen) (hashFcn.value s.bytes keyptr keylen) el
      (a.entries.map Entry.el) s s') : Holds hashFcn s' { a with entries := entries } := by
  have hlen : (bytesAt a.bytes keyptr keylen).length = keylen := length_bytesAt _ _ _
  have hne : ∀ e ∈ a.entries, e.el ≠ el := fun e he heq =>
    ha.fresh (heq ▸ List.mem_map_of_mem he)
  have hcases : ∀ e ∈ entries, e = a.newEntry keyptr keylen el ∨ e ∈ a.entries := fun e he =>
    List.mem_cons.mp (hmem.mem_iff.mpr he)
  refine ⟨hrep, fun e he => ?_, fun e he => ?_, ?_, hadded.bytes.trans h.bytes,
    fun p => (hadded.live p).trans (h.allocated p)⟩
  · rw [hadded.data, hadded.bytes]
    obtain rfl | he := hcases e he
    · rw [if_pos (show (a.newEntry keyptr keylen el).el = el from rfl), uint_of_lt ha.short]
      show _ = some (keyptr, (bytesAt a.bytes keyptr keylen).length,
        hashFcn.value s.bytes keyptr (bytesAt a.bytes keyptr keylen).length)
      rw [hlen]
    · rw [if_neg (hne e he), h.data e he]
  · rw [hadded.bytes]
    obtain rfl | he := hcases e he
    · show bytesAt s.bytes keyptr (bytesAt a.bytes keyptr keylen).length = _
      rw [hlen, h.bytes]
      rfl
    · exact h.key e he
  · exact (hmem.map Entry.key).nodup_iff.mp (List.nodup_cons.mpr ⟨ha.newKey, h.unique⟩)

theorem run_return {m : HashM Unit} {allowed : Stop → Prop} {P : Nat × HashState → Prop}
    (h : Meets allowed (fun r => P (0, r.2)) (m s)) :
    Meets allowed P ((do m; return 0 : HashM Nat) s) := h.step fun _ hr => hr

theorem Holds.hashed (h : Holds hashFcn s a) : Hashed hashFcn s (a.entries.map Entry.el) := by
  intro x hx d hd
  obtain ⟨e, he, rfl⟩ := List.mem_map.mp hx
  rw [h.data e he, Option.some.injEq] at hd
  rw [← hd]

theorem Holds.keyOf (h : Holds hashFcn s a) {e : Entry} (he : e ∈ a.entries) :
    keyOf s e.el = some e.key := by
  rw [Lookup.keyOf, h.data e he, Option.map_some, h.key e he]

theorem Holds.isSome (h : Holds hashFcn s a) (hel : a.allocated el = true) : (s.hh el).isSome :=
  (h.allocated el).trans hel

theorem add_step (hmalloc : Bounded malloc) (h : Holds hashFcn s a)
    (ha : a.Admits keyptr keylen el) :
    Meets Fatal (fun r => Holds hashFcn r.2 { a with
        entries := a.entries ++ [a.newEntry keyptr keylen el] })
      (hashAddKeyptr malloc hashFcn keyptr keylen el s) := by
  refine (hashAddKeyptr_ok hashFcn keyptr keylen hmalloc h.represents (h.isSome ha.allocated)
    ha.ne_zero ha.fresh (by rw [List.length_map]; exact ha.room)).mono (fun _ he => he.1)
    fun r hr => ?_
  obtain ⟨-, hrep, hadded⟩ := hr
  refine h.of_added ha (List.perm_append_singleton _ _).symm ?_ hadded
  rw [List.map_append]
  exact hrep

theorem addInorder_step (cmpfcn : Nat → Nat → Int) (hmalloc : Bounded malloc)
    (h : Holds hashFcn s a) (ha : a.Admits keyptr keylen el) :
    Meets Fatal (fun r => Holds hashFcn r.2 { a with
        entries := insertInorder cmpfcn (a.newEntry keyptr keylen el) a.entries })
      (hashAddKeyptrInorder malloc hashFcn keyptr keylen el cmpfcn s) := by
  rw [hashAddKeyptrInorder, step_get]
  refine (hashAddKeyptrByhashvalueInorder_ok hmalloc h.represents (h.isSome ha.allocated)
    ha.ne_zero ha.fresh (by rw [List.length_map]; exact ha.room)).mono (fun _ he => he.1)
    fun r hr => ?_
  obtain ⟨-, hrep, hadded⟩ := hr
  refine h.of_added ha ?_ ?_ hadded
  · refine List.Perm.trans ?_ List.perm_middle.symm
    rw [List.takeWhile_append_dropWhile]
  · rw [inorder, List.takeWhile_map, List.dropWhile_map] at hrep
    rw [insertInorder, List.map_append, List.map_cons]
    exact hrep

theorem map_filter_el (a : Abstract) (hnd : (a.entries.map Entry.el).Nodup) :
    (a.entries.filter fun e => e.el ≠ el).map Entry.el = (a.entries.map Entry.el).erase el := by
  rw [hnd.erase_eq_filter, List.filter_map]
  congr 1
  refine List.filter_congr fun e _ => ?_
  by_cases he : e.el = el <;> simp [he]

theorem delete_step (h : Holds hashFcn s a) (hel : el ∈ a.entries.map Entry.el) :
    ∃ s', hashDelete el s = .ok ((), s') ∧
      Holds hashFcn s' { a with entries := a.entries.filter fun e => e.el ≠ el } := by
  obtain ⟨s', hrun, hrep, hdata, hf⟩ := hashDelete_ok h.represents hel
  have hsub : (a.entries.filter fun e => e.el ≠ el).Sublist a.entries := List.filter_sublist
  refine ⟨s', hrun, ?_, fun e he => ?_, fun e he => ?_, h.unique.sublist (hsub.map _),
    hf.bytes.trans h.bytes, fun p => (hf.live p).trans (h.allocated p)⟩
  · show Represents s' ((a.entries.filter fun e => e.el ≠ el).map Entry.el)
    rw [map_filter_el a h.represents.ordered.nodup]
    exact hrep
  · rw [hdata, hf.bytes, h.data e (hsub.subset he)]
  · rw [hf.bytes, h.key e (hsub.subset he)]

theorem find_step (h : Holds hashFcn s a) (keyptr keylen : Nat) :
    hashFind hashFcn keyptr keylen s = .ok (a.find keyptr keylen, s) := by
  obtain ⟨out, hrun, hout⟩ := hashFind_ok h.represents h.hashed keyptr keylen
  rw [hrun, Abstract.find, Abstract.lookup, ← h.bytes]
  congr 2
  cases hf : Lib.Table.find Entry.key (bytesAt s.bytes keyptr keylen) a.entries with
  | none =>
    obtain ⟨rfl, -⟩ | ⟨hmem, hkey⟩ := hout
    · rfl
    · obtain ⟨e, he, rfl⟩ := List.mem_map.mp hmem
      rw [h.keyOf he, Option.some.injEq] at hkey
      exact absurd hkey (Lib.Table.find_eq_none.mp hf e he)
  | some e =>
    obtain ⟨he, hk⟩ := Lib.Table.find_some hf
    obtain ⟨-, hnone⟩ | ⟨hmem, hkey⟩ := hout
    · exact absurd (by rw [h.keyOf he, hk]) (hnone e.el (List.mem_map_of_mem he))
    · obtain ⟨e', he', rfl⟩ := List.mem_map.mp hmem
      rw [h.keyOf he', Option.some.injEq, ← hk] at hkey
      exact congrArg Entry.el (List.inj_on_of_nodup_map h.unique he' he hkey)

theorem evict_step (h : Holds hashFcn s a) (keyptr keylen : Nat) :
    ∃ s', (if a.find keyptr keylen ≠ 0 then hashDelete (a.find keyptr keylen) else pure ()) s =
        .ok ((), s') ∧ s'.bytes = s.bytes ∧
      Holds hashFcn s' { a with
        entries := Lib.Table.del Entry.key (bytesAt a.bytes keyptr keylen) a.entries } := by
  cases hf : a.lookup (bytesAt a.bytes keyptr keylen) with
  | none =>
    have h0 : a.find keyptr keylen = 0 := by rw [Abstract.find, hf]; rfl
    rw [h0, if_neg (not_not.mpr rfl), Lib.Table.del_of_find_none hf]
    exact ⟨s, rfl, rfl, h⟩
  | some e =>
    obtain ⟨he, hk⟩ := Lib.Table.find_some hf
    have hel : a.find keyptr keylen = e.el := by rw [Abstract.find, hf]; rfl
    have hmem : e.el ∈ a.entries.map Entry.el := List.mem_map_of_mem he
    have h0 : e.el ≠ 0 := h.represents.ordered.ne_zero hmem
    obtain ⟨s', hrun, hs'⟩ := delete_step h hmem
    have hsame : (a.entries.filter fun x => x.el ≠ e.el) =
        Lib.Table.del Entry.key (bytesAt a.bytes keyptr keylen) a.entries := by
      refine List.filter_congr fun x hx => ?_
      rw [decide_eq_decide, ← hk]
      refine not_congr ⟨fun hxe => ?_, fun hxe => ?_⟩
      · rw [List.inj_on_of_nodup_map h.represents.ordered.nodup hx he hxe]
      · rw [List.inj_on_of_nodup_map h.unique hx he hxe]
    rw [hsame] at hs'
    rw [hel, if_pos h0]
    exact ⟨s', hrun, hs'.bytes.trans h.bytes.symm, hs'⟩

theorem Abstract.Offers.admits (h : a.Offers keyptr keylen el) :
    Abstract.Admits { a with
      entries := Lib.Table.del Entry.key (bytesAt a.bytes keyptr keylen) a.entries }
      keyptr keylen el := by
  have hsub : (Lib.Table.del Entry.key (bytesAt a.bytes keyptr keylen) a.entries).Sublist
      a.entries := List.filter_sublist
  refine ⟨⟨h.ne_zero, h.allocated, fun hmem => h.fresh ((hsub.map _).subset hmem), h.short,
    (Nat.succ_le_succ hsub.length_le).trans_lt h.room⟩, fun hmem => ?_⟩
  obtain ⟨e, he, hk⟩ := List.mem_map.mp hmem
  exact Lib.Table.find_eq_none.mp (Lib.Table.find_del_self _ _) e he hk

theorem replace_step (hmalloc : Bounded malloc) (h : Holds hashFcn s a)
    (ha : a.Offers keyptr keylen el) :
    Meets Fatal (fun r => r.1 = a.find keyptr keylen ∧ Holds hashFcn r.2 { a with
        entries := Lib.Table.put Entry.key (a.newEntry keyptr keylen el) a.entries })
      (hashReplace malloc hashFcn keyptr keylen el s) := by
  obtain ⟨s', hrun, hbytes, hs'⟩ := evict_step h keyptr keylen
  have hadd := add_step hmalloc hs' ha.admits
  rw [hashAddKeyptr, step_get, hbytes] at hadd
  have hfind := find_step h keyptr keylen
  rw [hashFind, step_get] at hfind
  rw [hashReplace, step_get, hashReplaceByhashvalue, step_ok hfind, step_ok hrun]
  refine hadd.step fun r hr => ⟨rfl, ?_⟩
  rw [Lib.Table.put_eq]
  exact hr

theorem replaceInorder_step {cmpfcn : Nat → Nat → Int} (hmalloc : Bounded malloc)
    (h : Holds hashFcn s a) (ha : a.Offers keyptr keylen el) :
    Meets Fatal (fun r => r.1 = a.find keyptr keylen ∧ Holds hashFcn r.2 { a with
        entries := insertInorder cmpfcn (a.newEntry keyptr keylen el)
          (Lib.Table.del Entry.key (bytesAt a.bytes keyptr keylen) a.entries) })
      (hashReplaceInorder malloc hashFcn keyptr keylen el cmpfcn s) := by
  obtain ⟨s', hrun, hbytes, hs'⟩ := evict_step h keyptr keylen
  have hadd := addInorder_step cmpfcn hmalloc hs' ha.admits
  rw [hashAddKeyptrInorder, step_get, hbytes] at hadd
  have hfind := find_step h keyptr keylen
  rw [hashFind, step_get] at hfind
  rw [hashReplaceInorder, step_get, hashReplaceByhashvalueInorder, step_ok hfind, step_ok hrun]
  exact hadd.step fun r hr => ⟨rfl, hr⟩

theorem clear_step (h : Holds hashFcn s a) :
    ∃ s', hashClear s = .ok ((), s') ∧ Holds hashFcn s' { a with entries := [] } := by
  rw [hashClear, step_ok (show getHead s = .ok (s.head, s) from rfl)]
  have hempty : ∀ s', s'.head = 0 → s'.tbl = none → s'.bytes = s.bytes → s'.hh = s.hh →
      Holds hashFcn s' { a with entries := [] } := fun s' hhead htbl hbytes hhh =>
    ⟨represents_nil hhead htbl, fun _ he => absurd he List.not_mem_nil,
      fun _ he => absurd he List.not_mem_nil, List.nodup_nil, hbytes.trans h.bytes,
      fun p => by rw [hhh]; exact h.allocated p⟩
  by_cases hne : a.entries.map Entry.el = []
  · rw [if_neg (not_not.mpr (h.represents.head_eq_zero.mpr hne))]
    exact ⟨s, rfl, hempty s (h.represents.head_eq_zero.mpr hne) (h.represents.empty hne) rfl rfl⟩
  · obtain ⟨t, chain, ht⟩ := h.represents.table hne
    rw [if_pos (mt h.represents.head_eq_zero.mp hne),
      step_ok (getTbl_ok (h.represents.ordered.ready hne ht.tbl))]
    exact ⟨_, rfl, hempty _ rfl rfl rfl rfl⟩

theorem drain_step (h : Holds hashFcn s a) :
    ∃ s', hashIter (fun el => do hashDelete el; freeElement el) s = .ok ((), s') ∧
      Holds hashFcn s' { a with
        entries := []
        allocated := fun p => a.allocated p && !(a.entries.map Entry.el).contains p } := by
  obtain ⟨s', hrun, hrep, hnone, hother, hbytes⟩ := hashIter_drain_ok h.represents
  refine ⟨s', hrun, hrep, fun _ he => absurd he List.not_mem_nil,
    fun _ he => absurd he List.not_mem_nil, List.nodup_nil, hbytes.trans h.bytes, fun p => ?_⟩
  show (s'.hh p).isSome = (a.allocated p && !(a.entries.map Entry.el).contains p)
  by_cases hp : p ∈ a.entries.map Entry.el
  · rw [hnone p hp, List.contains_iff_mem.mpr hp, Bool.not_true, Bool.and_false]
    rfl
  · rw [hother p hp, h.allocated, List.contains_eq_mem, decide_eq_false hp, Bool.not_false,
      Bool.and_true]

/-- Memory changes that keep away from the elements and from their keys. -/
theorem Holds.of_same {allocated : Nat → Bool} {bytes : Nat → UInt8} (h : Holds hashFcn s a)
    (hhh : ∀ e ∈ a.entries, s'.hh e.el = s.hh e.el) (hhead : s'.head = s.head)
    (htbl : s'.tbl = s.tbl) (hbytes : s'.bytes = bytes)
    (hkeys : ∀ e ∈ a.entries, bytesAt bytes e.keyptr e.key.length = e.key)
    (hall : ∀ p, (s'.hh p).isSome = allocated p) :
    Holds hashFcn s' { a with bytes := bytes, allocated := allocated } := by
  refine ⟨h.represents.of_same (fun x hx => ?_) hhead htbl, fun e he => ?_, fun e he => ?_,
    h.unique, hbytes, hall⟩
  · obtain ⟨e, he, rfl⟩ := List.mem_map.mp hx
    exact hhh e he
  · rw [Layout.data, hhh e he]
    refine (h.data e he).trans ?_
    rw [hashFcn.reads_key _ s'.bytes _ e.keyptr _ ?_]
    rw [h.key e he, hbytes, hkeys e he]
  · rw [hbytes]
    exact hkeys e he

/-- One call, if it does not end the program, answers and acts as on the abstract hash. -/
theorem call_step (hmalloc : Bounded malloc) (h : Holds hashFcn s a) (c : Call)
    (hp : c.Proper a) :
    Meets Fatal (fun r => r.1 = (c.spec a).1 ∧ Holds hashFcn r.2 (c.spec a).2)
      (c.run malloc hashFcn s) := by
  cases c with
  | add keyptr keylen el =>
    exact run_return ((add_step hmalloc h hp).imp fun r hr => ⟨rfl, hr⟩)
  | addInorder cmpfcn keyptr keylen el =>
    exact run_return ((addInorder_step cmpfcn hmalloc h hp).imp fun r hr => ⟨rfl, hr⟩)
  | delete el =>
    obtain ⟨s', hrun, hs'⟩ := delete_step h hp
    exact run_return (.ok hrun ⟨rfl, hs'⟩)
  | replace keyptr keylen el => exact replace_step hmalloc h hp
  | replaceInorder cmpfcn keyptr keylen el => exact replaceInorder_step hmalloc h hp
  | find keyptr keylen => exact .ok (find_step h keyptr keylen) ⟨rfl, h⟩
  | count =>
    refine .ok (hashCount_ok h.represents) ⟨?_, h⟩
    exact List.length_map _
  | clear =>
    obtain ⟨s', hrun, hs'⟩ := clear_step h
    exact run_return (.ok hrun ⟨rfl, hs'⟩)
  | drain =>
    obtain ⟨s', hrun, hs'⟩ := drain_step h
    exact run_return (.ok hrun ⟨rfl, hs'⟩)
  | alloc el garbage =>
    obtain ⟨h0, hfree⟩ := hp
    have hnot : ∀ e ∈ a.entries, e.el ≠ el := by
      rintro e he rfl
      have hs := h.represents.isSome (List.mem_map_of_mem he)
      rw [h.allocated, hfree] at hs
      cases hs
    refine ⟨rfl, h.of_same (fun e he => by rw [put_hh, if_neg (hnot e he)]) rfl rfl h.bytes
      (fun e he => h.bytes ▸ h.key e he) fun p => ?_⟩
    rw [put_hh, Function.update_apply]
    split_ifs
    · rfl
    · exact h.allocated p
  | free el =>
    obtain ⟨h0, hall, hnot⟩ := hp
    refine run_return (.ok (freeElement_run h0 (h.isSome hall)) ⟨rfl, h.of_same (fun e he => ?_)
      rfl rfl h.bytes (fun e he => h.bytes ▸ h.key e he) fun p => ?_⟩)
    · exact Function.update_of_ne
        (fun heq : e.el = el => hnot (heq ▸ List.mem_map_of_mem he)) _ _
    · show (Function.update s.hh el none p).isSome = Function.update a.allocated el false p
      rw [Function.update_apply, Function.update_apply]
      split_ifs
      · rfl
      · exact h.allocated p
  | write p byte =>
    refine ⟨rfl, h.of_same (fun e he => rfl) rfl rfl (congrArg (Function.update · p byte) h.bytes)
      (fun e he => ?_) h.allocated⟩
    rw [← h.key e he, length_bytesAt, h.bytes]
    refine List.map_congr_left fun i hi => Function.update_of_ne ?_ _ _
    have hi := List.mem_range.mp hi
    have hout := hp e he
    omega

theorem run_refines (hmalloc : Bounded malloc) (calls : List Call) (h : Holds hashFcn s a)
    (hp : ProperRun calls a) :
    Meets Fatal (fun r => r.1 = (specRun calls a).1 ∧ Holds hashFcn r.2 (specRun calls a).2)
      (runCalls malloc hashFcn calls s) := by
  induction calls generalizing s a with
  | nil => exact ⟨rfl, h⟩
  | cons c calls ih =>
    refine (call_step hmalloc h c hp.1).step fun r hr => (ih hr.2 hp.2).step fun r' hr' => ?_
    exact ⟨congrArg₂ List.cons hr.1 hr'.1, hr'.2⟩

end Steps

end LcClibs.Hash.Refinement
