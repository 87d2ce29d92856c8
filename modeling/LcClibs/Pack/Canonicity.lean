import Mathlib
import LcClibs.Mmo.Sorted
import LcClibs.Pack.Absent

namespace LcClibs.Pack.Canonicity

open Platform Lib Lib.Runs Buffer.VarInt Mmo.Object Mmo.Compare Mmo.Map Mmo.Sorted
open Pack.Records Pack.Packer Pack.Classes Pack.Numbering Pack.Tables
open Pack.Process (allocMMUnpackerWithData)
open Pack.Unpacker Pack.Inits Pack.Mirror Pack.Rebuild Pack.RoundTrip Pack.Absent

section Comparison

variable {heap : Heap} {R : Addr → Addr → Prop}

theorem platMemCompare_self (n : Nat) (s : List UInt8) : platMemCompare n s s = 0 := by
  induction n generalizing s with
  | zero => cases s <;> rfl
  | succ n ih =>
    cases s with
    | nil => rfl
    | cons b s => rw [platMemCompare, if_pos rfl, ih]

theorem compareForMMString_bytes {x y : Blob} (h : x.bytes = y.bytes) :
    compareForMMString (some x) (some y) = 0 := by
  unfold compareForMMString
  split_ifs
  · rfl
  · show platCstrCompare x.bytes y.bytes = 0
    rw [h, platCstrCompare_self]

theorem compareForMMData_bytes {x y : Blob} (h : x.bytes = y.bytes) :
    compareForMMData (some x) (some y) = 0 := by
  unfold compareForMMData
  split_ifs
  · rfl
  · simp only [h, platMemCompare_self, sizeDiff, sub_self]
    decide

theorem compareElements_alike {fuel : Nat} {xs ys : List (Option Addr)}
    (hcmp : ∀ a b, some a ∈ xs → R a b → compareMmobjs heap (fuel + 1) (some a) (some b) = some 0)
    (h : List.Forall₂ (Option.Rel R) xs ys) :
    compareElements (compareMmobjs heap (fuel + 1)) xs ys = some 0 := by
  induction h with
  | nil => rfl
  | @cons x y xs ys hxy _ ih =>
    have hone : compareMmobjs heap (fuel + 1) x y = some 0 := by
      cases hxy with
      | some hab => exact hcmp _ _ List.mem_cons_self hab
      | none => exact compareMmobjs_self heap fuel none
    rw [compareElements, hone, Option.bind_eq_bind, Option.bind_some, if_neg (not_not.mpr rfl)]
    exact ih fun a b ha => hcmp a b (List.mem_cons_of_mem _ ha)

theorem compareItems_alike {cmp : Option Addr → Option Addr → Option Int} {is js : List MapItem}
    (hcmp : ∀ i ∈ is, ∀ b, (R i.key b → cmp (some i.key) (some b) = some 0) ∧
      (R i.value b → cmp (some i.value) (some b) = some 0))
    (h : List.Forall₂
      (fun i j => i.hashKey = j.hashKey ∧ R i.key j.key ∧ R i.value j.value) is js) :
    compareItems cmp is js = some 0 := by
  induction h with
  | nil => rfl
  | cons hij _ ih =>
    obtain ⟨-, hkey, hvalue⟩ := hij
    rw [compareItems, (hcmp _ List.mem_cons_self _).1 hkey, Option.bind_eq_bind, Option.bind_some,
      if_neg (not_not.mpr rfl), (hcmp _ List.mem_cons_self _).2 hvalue, Option.bind_some,
      if_neg (not_not.mpr rfl)]
    exact ih fun i hi => hcmp i (List.mem_cons_of_mem _ hi)

/-- Objects that are like each other all the way down compare as equal. -/
theorem compareMmobjs_alike
    (hR : ∀ a b, R a b → ∃ x y, heap[a]? = some x ∧ heap[b]? = some y ∧ Alike R x y) {n : Nat}
    {a b : Addr} (ha : Within Domain.full heap n (some a)) (h : R a b) :
    compareMmobjs heap (n + 1) (some a) (some b) = some 0 := by
  induction n generalizing a b with
  | zero => exact ha.elim
  | succ n ih =>
    by_cases hab : a = b
    · rw [hab]
      exact compareMmobjs_self heap _ _
    obtain ⟨x, y, hx, hy, hxy⟩ := hR a b h
    obtain ⟨x', hx', hadmits, hchildren⟩ := ha
    obtain rfl := Option.some.inj (hx.symm.trans hx')
    rw [compareMmobjs_some _ hab hx hy, if_neg (fun hne => hne (congrArg Class.oid hxy.cls_eq))]
    cases hxy with
    | mmInt v => simp only [compareNodes, compareForMMInt, sub_self]; decide
    | mmLong v => simp only [compareNodes, compareForMMLong, sub_self]; decide
    | mmString hbytes => exact congrArg some (compareForMMString_bytes hbytes)
    | @mmData x y hbytes hne =>
      cases x with
      | none =>
        cases y with
        | none => rfl
        | some v => exact absurd hbytes.symm (hne v rfl)
      | some u =>
        cases y with
        | none => exact absurd hbytes (List.ne_nil_of_length_pos (hadmits u rfl).2)
        | some v => exact congrArg some (compareForMMData_bytes hbytes)
    | mmMap hitems =>
      rw [compareNodes, compareForMMMap, if_neg (not_not.mpr (congrArg uint hitems.length_eq))]
      refine compareItems_alike (R := R) (fun i hi b => ⟨fun hb => ?_, fun hb => ?_⟩) hitems
      · exact ih (hchildren _ (key_mem_children hi)) hb
      · exact ih (hchildren _ (value_mem_children hi)) hb
    | mmList helements =>
      rw [compareNodes, compareForMMList, if_neg (not_not.mpr (congrArg uint helements.length_eq))]
      exact compareElements_alike (fun a b ha hb => ih (hchildren _ ha) hb) helements

end Comparison

section Specification

/-- The map is packed, and what is unpacked of it compares as equal to it. -/
def ComesBackEqual (host : Host) (heap : Heap) (map : Addr) (key : Nat) : Prop :=
  ∃ s0, initMMPacker host = .ok s0 ∧ ∃ enough, ∀ fuel, enough ≤ fuel →
    ∃ s, packTop host (heapStru heap) fuel [.object key (some map)] s0 = .ok ((), s) ∧
      ∃ u, allocMMUnpackerWithData (some (s.dyb.data.take s.dyb.position))
          (s.dyb.data.take s.dyb.position).length = some u ∧
        ∃ many, ∀ rounds nesting, many ≤ rounds → many ≤ nesting →
          ∀ alloc float double mapItem, Fresh alloc →
            ∃ obj s', unpackObjectImpl host rounds
                (registerAllMmoExtToUnpacker host alloc float double mapItem) nesting key
                (unpackingOf u heap) = .ok (some obj, s') ∧
              heap <+: s'.heap ∧ Compared s'.heap (some map) (some obj) 0

/-- A map that leads to fewer than 2^20 objects, none of them to itself and each such as its class
can have, and whose packed bytes can be counted. -/
structure Sendable (host : Host) (heap : Heap) (map : Addr) (key : Nat) : Prop where
  fits : key ≤ 0xFFFFF
  graph : ∀ a, Packs heap [.object key (some map)] a → a ≠ map →
    ∃ x, heap[a]? = some x ∧ Wellformed host heap x
  acyclic : ∃ n, Within Domain.full heap n (some map)
  objects : {a | Packs heap [.object key (some map)] a}.ncard < 2 ^ 20
  bytes : (written heap [.object key (some map)]).size host < 2 ^ 32

/-- Two sorted maps that cannot be told apart, nor from what is unpacked of them. -/
structure Canonical (host : Host) (heap : Heap) (a b : Addr) (these those : List MapItem) :
    Prop where
  order : these.map (codeAt heap) = those.map (codeAt heap)
  ascending : (these.map (codeAt heap)).Pairwise (· < ·)
  equal : Compared heap (some a) (some b) 0
  comesBack : ∀ key map, map = a ∨ map = b → Sendable host heap map key →
    ComesBackEqual host heap map key

def keysOf (calls : List (Addr × MapCall)) (a b : Addr) : Set Addr :=
  {k | ∃ c ∈ calls, (c.1 = a ∨ c.1 = b) ∧ c.2.key = k}

end Specification

section Canonicity

variable {host : Host} {heap : Heap} {map a b : Addr} {key : Nat} {items these those : List MapItem}

theorem Sendable.sent (h : Sendable host heap map key)
    (hmap : heap[map]? = some (.mmMap true items)) (hkept : MapKept host heap true items) :
    Sent host heap [.object key (some map)] where
  keys c hc := by
    obtain rfl := List.mem_singleton.mp hc
    exact h.fits
  distinct := List.nodup_singleton _
  values k value hmem := by cases List.mem_singleton.mp hmem
  graph a ha := by
    by_cases heq : a = map
    · exact ⟨.mmMap true items, heq ▸ hmap, hkept⟩
    · exact h.graph a ha heq
  objects := h.objects
  bytes := h.bytes

theorem prefix_mono {heap' : Heap} (hle : heap <+: heap') {n : Nat} {p : Option Addr}
    (h : Within Domain.full heap n p) : Within Domain.full heap' n p := by
  induction n generalizing p with
  | zero => cases p <;> exact h
  | succ n ih =>
    cases p with
    | none => trivial
    | some a =>
      obtain ⟨x, hx, hadmits, hchildren⟩ := h
      obtain ⟨rest, rfl⟩ := hle
      have hlt := (List.getElem?_eq_some_iff.mp hx).1
      exact ⟨x, (List.getElem?_append_left hlt).trans hx, hadmits, fun q hq => ih (hchildren q hq)⟩

/-- A sorted map in a memory where strings are kept apart comes back equal. -/
theorem comesBackEqual_of_kept (h : Sendable host heap map key) (hs : StringsApart heap)
    (hmap : heap[map]? = some (.mmMap true items)) (hkept : MapKept host heap true items) :
    ComesBackEqual host heap map key := by
  have hrt : RoundTrips host heap [.object key (some map)] StringsKept :=
    roundTrips_of_sent True (h.sent hmap hkept) (fun _ _ _ _ => trivial) fun _ _ hmem _ => hmem
  obtain ⟨s0, hinit, enough, hpack⟩ := hrt
  refine ⟨s0, hinit, enough, fun fuel hle => ?_⟩
  obtain ⟨s, hrun, u, hu, many, hunpack⟩ := hpack fuel hle
  refine ⟨s, hrun, u, hu, many, fun rounds nesting hr hn alloc float double mapItem hfresh => ?_⟩
  obtain ⟨-, hall⟩ := hunpack rounds nesting hr hn
  obtain ⟨answers, s', R, hruns, hle, hiso, hanswers⟩ := hall alloc float double mapItem heap
    [.object key (some map)] ⟨hfresh, hs⟩ fun _ hc => hc
  obtain ⟨answer, s1, h1, h2⟩ := step_eq_ok.mp hruns
  obtain ⟨obj, s2, h3, h4⟩ := step_eq_ok.mp h1
  cases h4
  cases h2
  obtain ⟨n, hwithin⟩ := h.acyclic
  cases hanswers with
  | cons hanswer _ =>
    cases hanswer with
    | some hR =>
      refine ⟨_, _, h3, hle, n + 1, fun fuel hf => compareMmobjs_mono hf ?_⟩
      refine compareMmobjs_alike (fun a b hab => ?_) (prefix_mono hle hwithin) hR
      obtain ⟨x, y, hx, hy, hxy⟩ := hiso.alike a b hab
      obtain ⟨rest, hrest⟩ := hle
      rw [← hrest] at hy ⊢
      have hlt := (List.getElem?_eq_some_iff.mp hx).1
      exact ⟨x, y, (List.getElem?_append_left hlt).trans hx, hy, hxy⟩

/-- Two sorted maps that come to the same contents are in the same, ascending order of their keys,
compare as equal and come back as equal, if every key that was added to one of them was close to
those that it held. -/
theorem sortedMaps_canonical {cls : Mmo.Object.Class} {calls : List (Addr × MapCall)}
    (hc : OneClass host heap cls (keysOf calls a b)) (hs : StringsApart heap)
    (ha : heap[a]? = some (.mmMap true [])) (hb : heap[b]? = some (.mmMap true []))
    (hfit : Along host (fun c heap => Fitting a c heap ∧ Fitting b c heap) calls heap)
    (hthese : (runCalls host calls heap)[a]? = some (.mmMap true these))
    (hthose : (runCalls host calls heap)[b]? = some (.mmMap true those))
    (hsame : SameContents (runCalls host calls heap) these those) :
    Canonical host (runCalls host calls heap) a b these those := by
  have hrun := (Running.new hs ha).runCalls hc
    (fun c hc hca => ⟨c, hc, .inl hca, rfl⟩) (hfit.imp fun c heap h => h.1)
  have hrun' := (Running.new hs hb).runCalls hc
    (fun c hc hcb => ⟨c, hc, .inr hcb, rfl⟩) (hfit.imp fun c heap h => h.2)
  generalize runCalls host calls heap = final at *
  have hnow := hc.frame hrun.same
  obtain ⟨items, hitems, hthis⟩ := hrun.kept
  cases hthese.symm.trans hitems
  obtain ⟨items, hitems', hthat⟩ := hrun'.kept
  cases hthose.symm.trans hitems'
  refine ⟨codes_eq hnow hthis hthat hsame, hthis.ascending,
    compared_maps hthese hthose (items_equal hnow hrun.apart hthis hthat hsame), ?_⟩
  rintro key map (rfl | rfl) hsend
  · exact comesBackEqual_of_kept hsend hrun.apart hthese (hthis.mapKept hnow)
  · exact comesBackEqual_of_kept hsend hrun.apart hthose (hthat.mapKept hnow)

def nearHeap : Heap :=
  [.mmMap true [], .mmInt 5, .mmInt (-3), .mmInt 5, .mmLong 7, .mmMap true []]

def nearCalls : List (Addr × MapCall) :=
  [(0, .add 1 (some 4)), (5, .add 2 (some 4)), (0, .add 2 (some 4)), (5, .add 1 (some 2)),
    (5, .remove 3), (5, .add 3 (some 4))]

def nearItems (five : Addr) : List MapItem :=
  [⟨[0xFD, 0xFF, 0xFF, 0xFF], 2, 4⟩, ⟨[5, 0, 0, 0], five, 4⟩]

def nearEnd : Heap :=
  [.mmMap true (nearItems 1), .mmInt 5, .mmInt (-3), .mmInt 5, .mmLong 7, .mmMap true (nearItems 3)]

theorem runCalls_near : runCalls .little nearCalls nearHeap = nearEnd := by
  decide

theorem key_near {k : Addr} (hk : k ∈ keysOf nearCalls 0 5) :
    ∃ v, nearHeap[k]? = some (.mmInt v) ∧ -3 ≤ v ∧ v ≤ 5 := by
  obtain ⟨c, hc, -, rfl⟩ := hk
  simp only [nearCalls, List.mem_cons, List.not_mem_nil, or_false] at hc
  obtain rfl | rfl | rfl | rfl | rfl | rfl := hc
  all_goals exact ⟨_, rfl, by decide, by decide⟩

theorem oneClass_near : OneClass .little nearHeap .mmInt (keysOf nearCalls 0 5) where
  primary := rfl
  valid k hk := by
    obtain ⟨v, hv, hlo, hhi⟩ := key_near hk
    exact ⟨_, hv, rfl, by omega, by omega⟩

theorem close_near : ∀ k ∈ keysOf nearCalls 0 5, ∀ l ∈ keysOf nearCalls 0 5, ∀ x y,
    nearHeap[k]? = some x → nearHeap[l]? = some y → Close x y := by
  intro k hk l hl x y hx hy
  obtain ⟨v, hv, hv0, hv1⟩ := key_near hk
  obtain ⟨w, hw, hw0, hw1⟩ := key_near hl
  cases hx.symm.trans hv
  cases hy.symm.trans hw
  exact ⟨by omega, by omega⟩

theorem near_apart : StringsApart nearHeap := by
  intro x y hx
  simp [nearHeap] at hx

theorem fitting_near :
    Along .little (fun c heap => Fitting 0 c heap ∧ Fitting 5 c heap) nearCalls nearHeap :=
  ((Running.new near_apart rfl).along oneClass_near close_near
      fun c hc h0 => ⟨c, hc, .inl h0, rfl⟩).and
    ((Running.new near_apart rfl).along oneClass_near close_near
      fun c hc h5 => ⟨c, hc, .inr h5, rfl⟩)

theorem contents_near (key : List UInt8) :
    contents (nearItems 1) key = contents (nearItems 3) key := by
  simp only [contents, nearItems, Table.find, List.find?]
  by_cases h5 : [5, 0, 0, 0] = key
  · subst h5
    rfl
  · simp only [h5, decide_false]

theorem packs_near {a : Addr} (h : Packs nearEnd [.object 7 (some 0)] a) : a < 5 :=
  packs_lt (by decide) (by decide) h

theorem sendable_near : Sendable .little nearEnd 0 7 where
  fits := by decide
  graph a ha hne := by
    have hlt := packs_near ha
    interval_cases a
    · exact absurd rfl hne
    all_goals exact ⟨_, rfl, by decide, by decide⟩
  acyclic := by
    refine ⟨2, _, rfl, show 2 < 2 ^ 32 by decide, fun p hp => ?_⟩
    simp only [Node.children, nearItems, List.flatMap_cons, List.flatMap_nil, List.cons_append,
      List.nil_append, List.mem_cons, List.not_mem_nil, or_false] at hp
    obtain rfl | rfl | rfl | rfl := hp
    all_goals exact ⟨_, rfl, ⟨by decide, by decide⟩, fun q hq => absurd hq List.not_mem_nil⟩
  objects := ncard_packs_lt (fun _ => packs_near) (by decide)
  bytes := by decide

theorem sortedMaps_canonical_near :
    Canonical .little (runCalls .little nearCalls nearHeap) 0 5 (nearItems 1) (nearItems 3) ∧
      ComesBackEqual .little nearEnd 0 7 := by
  have hcanonical : Canonical .little (runCalls .little nearCalls nearHeap) 0 5 (nearItems 1)
      (nearItems 3) :=
    sortedMaps_canonical oneClass_near near_apart rfl rfl fitting_near
      (by rw [runCalls_near]; rfl) (by rw [runCalls_near]; rfl) (sameContents_of_eq contents_near)
  refine ⟨hcanonical, ?_⟩
  rw [runCalls_near] at hcanonical
  exact hcanonical.comesBack 7 0 (.inl rfl) sendable_near

def wideHeap : Heap :=
  [.mmMap true [], .mmMap true [], .mmInt 0, .mmInt (-2147483648), .mmLong 7]

def wideCalls : List (Addr × MapCall) :=
  [(0, .add 2 (some 4)), (0, .add 3 (some 4)), (1, .add 3 (some 4)), (1, .add 2 (some 4))]

theorem runCalls_wide : runCalls .little wideCalls wideHeap =
    [.mmMap true [⟨[0, 0, 0, 0], 2, 4⟩, ⟨[0, 0, 0, 0x80], 3, 4⟩],
      .mmMap true [⟨[0, 0, 0, 0x80], 3, 4⟩, ⟨[0, 0, 0, 0], 2, 4⟩], .mmInt 0,
      .mmInt (-2147483648), .mmLong 7] := by
  decide

theorem sortedMaps_not_canonical :
    OneClass .little wideHeap .mmInt (keysOf wideCalls 0 1) ∧ StringsApart wideHeap ∧
      ∃ these those, (runCalls .little wideCalls wideHeap)[0]? = some (.mmMap true these) ∧
        (runCalls .little wideCalls wideHeap)[1]? = some (.mmMap true those) ∧
        SameContents (runCalls .little wideCalls wideHeap) these those ∧
        ¬Canonical .little (runCalls .little wideCalls wideHeap) 0 1 these those := by
  rw [runCalls_wide]
  refine ⟨⟨rfl, ?_⟩, ?_, _, _, rfl, rfl, ?_, fun h => ?_⟩
  · rintro k ⟨c, hc, -, rfl⟩
    simp only [wideCalls, List.mem_cons, List.not_mem_nil, or_false] at hc
    obtain rfl | rfl | rfl | rfl := hc
    all_goals exact ⟨_, rfl, rfl, by decide, by decide⟩
  · intro x y hx
    simp [wideHeap] at hx
  · refine sameContents_of_eq fun key => ?_
    simp only [contents, Table.find, List.find?]
    by_cases h0 : [0, 0, 0, 0] = key
    · subst h0
      rfl
    · simp only [h0, decide_false]
  · exact absurd h.order (by decide)

end Canonicity

end LcClibs.Pack.Canonicity
