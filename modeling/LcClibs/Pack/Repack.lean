import Mathlib
import LcClibs.Pack.Renaming
import LcClibs.Pack.RoundTrip

namespace LcClibs.Pack.Repack

open Platform Lib Lib.Simulation Buffer.VarInt Mmo.Object Mmo.Map
open Pack.Records Pack.Packer Pack.Classes Pack.Renaming
open Pack.Process (allocMMUnpackerWithData)
open Pack.Unpacker Pack.Inits Pack.Rebuild Pack.RoundTrip

section Specification

/-- The call that packs the answer to a call under its key. -/
def again : TopCall → Answer → TopCall
  | .varInt64 key _, .integer value => .varInt64 key value
  | .object key _, .object stru => .object key stru
  | c, _ => c

/-- Somewhere the calls lead to a map that is kept in order. -/
def PacksSorted (heap : Heap) (calls : List TopCall) : Prop :=
  ∃ a items, Packs heap calls a ∧ heap[a]? = some (.mmMap true items)

variable (host : Host)

/-- A new packer takes the calls, all keys are unpacked, and the answers are packed under the
same keys by another new packer: it writes the same bytes. -/
def Repacks (heap : Heap) (calls : List TopCall) (memory : (Heap → Nat) → Heap → Prop) : Prop :=
  ∃ s0, initMMPacker host = .ok s0 ∧ ∃ enough, ∀ fuel, enough ≤ fuel →
    ∃ s, packTop host (heapStru heap) fuel (calls.map TopCall.pack) s0 = .ok ((), s) ∧
      ∃ u, allocMMUnpackerWithData (some (s.dyb.data.take s.dyb.position))
          (s.dyb.data.take s.dyb.position).length = some u ∧
        ∃ many, ∀ rounds nesting, many ≤ rounds → many ≤ nesting →
          ∀ alloc float double mapItem start, memory alloc start →
            ∃ answers t, unpackKeys host rounds nesting
                (registerAllMmoExtToUnpacker host alloc float double mapItem) calls
                (unpackingOf u start) = .ok (answers, t) ∧
              ∃ s', packTop host (heapStru t.heap) fuel
                  ((List.zipWith again calls answers).map TopCall.pack) s0 = .ok ((), s') ∧
                s'.dyb = s.dyb

end Specification

section Objects

variable {host : Host} {R : Addr → Addr → Prop} {heap heap' : Heap} {x y : Node}

theorem sameCalls_of_alike (h : Alike R x y) :
    List.Forall₂ (SameCall R) (packNode x) (packNode y) := by
  have hself : ∀ calls : List (PackCall Addr), (∀ c ∈ calls, ∀ key o, c ≠ .object key o) →
      List.Forall₂ (SameCall R) calls calls := by
    intro calls hcalls
    refine List.forall₂_same.mpr fun c hc => ?_
    cases c with
    | object key o => exact (hcalls _ hc key o rfl).elim
    | _ => constructor
  cases h with
  | mmInt value | mmLong value => exact .cons (.varInt64 0 value) .nil
  | @mmString x y hxy =>
    simp only [packNode, packMMString, hxy]
    exact .cons (.data 0 _) .nil
  | mmData hxy =>
    simp only [packNode, packMMData, hxy]
    exact .cons (.data 0 _) .nil
  | @mmMap sorted is js hij =>
    simp only [packNode, packMMMap, hij.length_eq]
    refine .cons (.varInt64 0 _) (.cons (.array 1 _) (List.rel_append ?_ ?_))
    swap
    · exact .cons (.arrayEnd 1) .nil
    refine List.rel_flatMap hij fun i j h => ?_
    exact .cons (.object 0 (.some h.2.1)) (.cons (.object 1 (.some h.2.2)) .nil)
  | mmList hxy =>
    simp only [packNode, packMMList, hxy.length_eq]
    refine .cons (.array 0 _) (List.rel_append ?_ (.cons (.arrayEnd 0) .nil))
    refine List.forall₂_map_left_iff.mpr (List.forall₂_map_right_iff.mpr ?_)
    exact hxy.imp fun _ _ h => .object 0 h

theorem sameStru_of_alike (h : Alike R x y) : SameStru R (nodeStru x) (nodeStru y) where
  supers := by
    rw [nodeStru, nodeStru, h.cls_eq]
    refine List.forall₂_same.mpr fun l hl => ⟨rfl, ?_⟩
    rw [pack_superLevels _ l hl]
    exact .none
  last := ⟨congrArg Mmo.Object.Class.name h.cls_eq, .some (sameCalls_of_alike h)⟩

theorem sameStru_of_isomorphic (h : Isomorphic heap heap' R) (a b : Addr) (hab : R a b) :
    SameStru R (heapStru heap a) (heapStru heap' b) := by
  obtain ⟨x, y, hx, hy, hxy⟩ := h.alike a b hab
  rw [heapStru, heapStru, hx, hy]
  exact sameStru_of_alike hxy

theorem sameCall_again {c : TopCall} {answer : Answer} (h : Answers R c answer) :
    SameCall R c.pack (again c answer).pack := by
  cases c with
  | varInt64 key value =>
    cases answer with
    | integer v =>
      obtain rfl : v = value := h
      exact .varInt64 key v
    | object obj => exact h.elim
  | object key stru =>
    cases answer with
    | integer v => exact h.elim
    | object obj => exact .object key h

theorem sameCalls_again {calls : List TopCall} {answers : List Answer}
    (h : List.Forall₂ (Answers R) calls answers) :
    List.Forall₂ (SameCall R) (calls.map TopCall.pack)
      ((List.zipWith again calls answers).map TopCall.pack) := by
  induction h with
  | nil => exact .nil
  | cons hc _ ih => exact .cons (sameCall_again hc) ih

end Objects

section Streams

variable {host : Host} {heap : Heap} {calls : List TopCall}

/-- What comes back from a stream packs to the stream. -/
theorem repacks_of_roundTrips {memory : (Heap → Nat) → Heap → Prop}
    (h : RoundTrips host heap calls memory) : Repacks host heap calls memory := by
  obtain ⟨s0, hinit, enough, hpacks⟩ := h
  refine ⟨s0, hinit, enough, fun fuel hle => ?_⟩
  obtain ⟨s, hrun, u, hu, many, hunpacks⟩ := hpacks fuel hle
  refine ⟨s, hrun, u, hu, many, fun rounds nesting hr hn => ?_⟩
  obtain ⟨-, hasks⟩ := hunpacks rounds nesting hr hn
  intro alloc float double mapItem start hstart
  obtain ⟨answers, t, R, hruns, -, hiso, hanswers⟩ :=
    hasks alloc float double mapItem start calls hstart fun _ hc => hc
  refine ⟨answers, t, hruns, ?_⟩
  have hsame := packTop_simulates host hiso.one_to_one (sameStru_of_isomorphic hiso) fuel
    (sameCalls_again hanswers) s0 s0 (initMMPacker_same hinit hinit)
  obtain ⟨e, hfail, -⟩ | ⟨_, s₁, _, s', h₁, h₂, -, hpackers⟩ := hsame
  · rw [hrun] at hfail
    cases hfail
  · obtain rfl : s = s₁ := by
      have := hrun.symm.trans h₁
      simpa using this
    exact ⟨s', h₂, hpackers.dyb.symm⟩

/-- Graphs are packed, unpacked and packed again to the same bytes. With sorted maps in them, the
memory must keep strings apart. -/
theorem graph_repacks (h : Sent host heap calls) :
    Repacks host heap calls fun alloc start =>
      PacksSorted heap calls → Fresh alloc ∧ StringsApart start :=
  repacks_of_roundTrips (roundTrips_of_sent (PacksSorted heap calls) h
    (fun a items ha hx => ⟨a, items, ha, hx⟩) fun _ _ hmemory => hmemory)

def loopedHeap : Heap :=
  [.mmList [some 0, some 2], .mmInt 5, .mmMap true [⟨[5, 0, 0, 0], 1, 0⟩]]

def loopedCalls : List TopCall := [.object 2 (some 2), .varInt64 0 9, .object 7 (some 0)]

theorem packs_loopedHeap {a : Addr} (h : Packs loopedHeap loopedCalls a) : a < 3 :=
  packs_lt (by decide) (by decide) h

theorem sent_loopedHeap : Sent .little loopedHeap loopedCalls where
  keys := by decide
  distinct := by decide
  values key value hmem := by
    simp only [loopedCalls, List.mem_cons, TopCall.varInt64.injEq, reduceCtorEq, false_or, or_false,
      List.not_mem_nil] at hmem
    obtain ⟨-, rfl⟩ := hmem
    exact ⟨by decide, by decide⟩
  graph a ha := by
    have hlt := packs_loopedHeap ha
    interval_cases a
    · exact ⟨_, rfl, by intro o ho; fin_cases ho <;> rfl⟩
    · exact ⟨_, rfl, by decide, by decide⟩
    · refine ⟨_, rfl, ?_, by decide, fun _ => List.pairwise_singleton _ _⟩
      intro i hi
      obtain rfl := List.mem_singleton.mp hi
      exact ⟨_, rfl, rfl, rfl⟩
  objects := ncard_packs_lt (fun _ => packs_loopedHeap) (by decide)
  bytes := by decide

theorem graph_repacks_loopedHeap :
    Repacks .little loopedHeap loopedCalls fun alloc start =>
      PacksSorted loopedHeap loopedCalls → Fresh alloc ∧ StringsApart start :=
  graph_repacks sent_loopedHeap

end Streams

end LcClibs.Pack.Repack
