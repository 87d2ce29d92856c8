import Mathlib
import LcClibs.Hash.Functions
import LcClibs.Hash.Refinement

namespace LcClibs.Hash.Guarantees

open Platform Lib.Runs Hash.UtHash Hash.Layout Hash.Expand Hash.Load Hash.Table Hash.Lookup
  Hash.Refinement Hash.Functions

section Deciding

variable {a : Abstract} {keyptr keylen el : Nat}

instance : Decidable (a.Offers keyptr keylen el) :=
  decidable_of_iff (el ≠ 0 ∧ a.allocated el = true ∧ el ∉ a.entries.map Entry.el ∧
      keylen < 2 ^ 32 ∧ a.entries.length + 1 < 2 ^ 32)
    ⟨fun ⟨h1, h2, h3, h4, h5⟩ => ⟨h1, h2, h3, h4, h5⟩,
      fun ⟨h1, h2, h3, h4, h5⟩ => ⟨h1, h2, h3, h4, h5⟩⟩

theorem admits_iff : a.Admits keyptr keylen el ↔
    a.Offers keyptr keylen el ∧ ∀ e ∈ a.entries, e.key ≠ bytesAt a.bytes keyptr keylen := by
  constructor
  · rintro ⟨h1, h2⟩
    exact ⟨h1, fun e he hk => h2 (hk ▸ List.mem_map_of_mem he)⟩
  · rintro ⟨h1, h2⟩
    refine ⟨h1, fun hmem => ?_⟩
    obtain ⟨e, he, hk⟩ := List.mem_map.mp hmem
    exact h2 e he hk

instance : Decidable (a.Admits keyptr keylen el) := decidable_of_iff' _ admits_iff

instance decidableProper : (c : Call) → (a : Abstract) → Decidable (c.Proper a)
  | .add keyptr keylen el, a => inferInstanceAs (Decidable (a.Admits keyptr keylen el))
  | .addInorder _ keyptr keylen el, a => inferInstanceAs (Decidable (a.Admits keyptr keylen el))
  | .replace keyptr keylen el, a => inferInstanceAs (Decidable (a.Offers keyptr keylen el))
  | .replaceInorder _ keyptr keylen el, a =>
    inferInstanceAs (Decidable (a.Offers keyptr keylen el))
  | .delete el, a => inferInstanceAs (Decidable (el ∈ a.entries.map Entry.el))
  | .find _ _, _ => isTrue trivial
  | .count, _ => isTrue trivial
  | .clear, _ => isTrue trivial
  | .drain, _ => isTrue trivial
  | .alloc el _, a => inferInstanceAs (Decidable (el ≠ 0 ∧ a.allocated el = false))
  | .free el, a => inferInstanceAs (Decidable
      (el ≠ 0 ∧ a.allocated el = true ∧ el ∉ a.entries.map Entry.el))
  | .write p _, a => inferInstanceAs (Decidable
      (∀ e ∈ a.entries, p < e.keyptr ∨ e.keyptr + e.key.length ≤ p))

instance decidableProperRun : (calls : List Call) → (a : Abstract) → Decidable (ProperRun calls a)
  | [], _ => isTrue trivial
  | c :: calls, a =>
    have := decidableProperRun calls (c.spec a).2
    inferInstanceAs (Decidable (c.Proper a ∧ ProperRun calls (c.spec a).2))

end Deciding

section Guarantees

variable {malloc : Nat → Nat → Bool} {hashFcn : HashFcn} {bytes : Nat → UInt8} {calls : List Call}

/-- Whatever a program does with a hash, the macros answer as the abstract hash does and
leave it in the pointers. They may end the program for want of memory, and nothing else. -/
theorem hash_refines (hmalloc : Bounded malloc) (hp : ProperRun calls (startAbstract bytes)) :
    Meets Fatal (fun r => r.1 = (specRun calls (startAbstract bytes)).1 ∧
        Holds hashFcn r.2 (specRun calls (startAbstract bytes)).2)
      (runCalls malloc hashFcn calls (startState bytes)) :=
  run_refines hmalloc calls (start_holds bytes) hp

def demoCalls : List Call :=
  [.write 8 97, .write 9 98, .alloc 100 ⟨7, 7, 7, 7, 7, 7, 7⟩, .add 8 1 100,
    .alloc 101 ⟨0, 0, 0, 0, 0, 0, 0⟩, .addInorder (fun x y => (x : Int) - y) 8 2 101, .find 8 1,
    .alloc 102 ⟨1, 2, 3, 4, 5, 6, 7⟩, .replace 8 2 102, .free 101, .count, .delete 100, .clear]

def demoMalloc (_ size : Nat) : Bool := decide (size < 2 ^ 36)

theorem demoMalloc_bounded : Bounded demoMalloc := fun _ _ h => decide_eq_false (not_lt.mpr h)

theorem hash_refines_demo :
    Meets Fatal (fun r => r.1 = (specRun demoCalls (startAbstract fun _ => 0)).1 ∧
        Holds jen r.2 (specRun demoCalls (startAbstract fun _ => 0)).2)
      (runCalls demoMalloc jen demoCalls (startState fun _ => 0)) :=
  hash_refines demoMalloc_bounded (by decide)

/-- In every state that a run leads to, the library's own integrity check finds nothing. -/
theorem hashFsck_passes (hmalloc : Bounded malloc) (hp : ProperRun calls (startAbstract bytes)) :
    Meets Fatal (fun r => hashFsck r.2 = .ok ((), r.2))
      (runCalls malloc hashFcn calls (startState bytes)) :=
  (run_refines hmalloc calls (start_holds bytes) hp).imp fun _ h => hashFsck_ok h.2.represents

theorem hashFsck_passes_demo :
    Meets Fatal (fun r => hashFsck r.2 = .ok ((), r.2))
      (runCalls demoMalloc jen demoCalls (startState fun _ => 0)) :=
  hashFsck_passes demoMalloc_bounded (by decide)

theorem loaded_of_represents {s : HashState} {items : List Nat} {t : UTHashTable}
    (h : Represents s items) (ht : s.tbl = some t) (hno : t.noexpand = false) :
    (∀ b ∈ t.buckets, b.count ≤ (b.expandMult + 1) * hashBktCapacityThresh) ∧
      t.numItems ≤ 19 * t.numBuckets := by
  have hne : items ≠ [] := fun hne => by simp [h.empty hne] at ht
  obtain ⟨t', chain, ht'⟩ := h.table hne
  obtain rfl : t' = t := Option.some.inj (ht'.tbl.symm.trans ht)
  have hthrifty := ht'.thrifty hno
  refine ⟨hthrifty.chain, ?_⟩
  rw [ht'.numItems, ← sum_count ht'.buckets h.ordered.nodup (ht'.ok.home_lt s), ← ht'.ok.buckets]
  exact hthrifty.sum_count_le

/-- As long as a table has not given up doubling its buckets, however badly the hash function
spreads the keys, no chain is longer than its bucket allows and there are nineteen elements
for each bucket at the most. -/
theorem chains_bounded (hmalloc : Bounded malloc) (hp : ProperRun calls (startAbstract bytes)) :
    Meets Fatal (fun r => ∀ t, r.2.tbl = some t → t.noexpand = false →
        (∀ b ∈ t.buckets, b.count ≤ (b.expandMult + 1) * hashBktCapacityThresh) ∧
          t.numItems ≤ 19 * t.numBuckets)
      (runCalls malloc hashFcn calls (startState bytes)) :=
  (run_refines hmalloc calls (start_holds bytes) hp).imp fun _ h _ ht hno =>
    loaded_of_represents h.2.represents ht hno

theorem chains_bounded_demo :
    Meets Fatal (fun r => ∀ t, r.2.tbl = some t → t.noexpand = false →
        (∀ b ∈ t.buckets, b.count ≤ (b.expandMult + 1) * hashBktCapacityThresh) ∧
          t.numItems ≤ 19 * t.numBuckets)
      (runCalls demoMalloc jen demoCalls (startState fun _ => 0)) :=
  chains_bounded demoMalloc_bounded (by decide)

theorem expand_of_holds {s : HashState} {a : Abstract} {t : UTHashTable} (hmalloc : Bounded malloc)
    (h : Holds hashFcn s a) (ht : s.tbl = some t) (hno : t.noexpand = false) :
    Meets Fatal (fun r => Holds hashFcn r.2 a ∧
        ∃ t', r.2.tbl = some t' ∧ Expanded r.2 (a.entries.map Entry.el) t t')
      (hashExpandBuckets malloc s) := by
  have hrep := h.represents
  have hne : a.entries.map Entry.el ≠ [] := fun hne => by simp [hrep.empty hne] at ht
  obtain ⟨t', chain, ht'⟩ := hrep.table hne
  obtain rfl : t' = t := Option.some.inj (ht'.tbl.symm.trans ht)
  refine (hashExpandBuckets_ok hmalloc (hrep.ordered.ready hne ht) ht'.ok ht'.buckets hrep.live
    hrep.ordered.nodup ht'.numItems hne hno).mono (fun _ he => he.1) fun r hr => ?_
  obtain ⟨-, t2, chain2, ht2, hx, hb2, hs⟩ := hr
  have hload : (a.entries.map Entry.el).length ≤ 20 * t'.numBuckets := by
    have hle := (loaded_of_represents hrep ht hno).2
    rw [ht'.numItems] at hle
    omega
  refine ⟨⟨⟨hrep.ordered.congr hs.head hs.app, hrep.live.of_frame hs.toFrame,
    fun he => absurd he hne, fun _ => ⟨t2, chain2, ht2, hx.tail.trans ht'.tail,
      hx.numItems.trans ht'.numItems, hx.ok, hb2,
      fun _ => thrifty_of_expanded hx hb2 hrep.ordered.nodup hne hload⟩⟩, fun e he => ?_,
    fun e he => ?_, h.unique, hs.bytes.trans h.bytes, fun p => (hs.live p).trans (h.allocated p)⟩,
    t2, ht2, hx⟩
  · rw [hs.data, hs.bytes, h.data e he]
  · rw [hs.bytes, h.key e he]

/-- Doubling the buckets, in whatever state, loses and moves no entry, and leaves the exact
statistics: the rounded up quotient as the ideal length of a chain, the length of every chain
and its multiple of the ideal, and how many elements sit behind the ideal. -/
theorem expansion_exact (hmalloc : Bounded malloc) (hp : ProperRun calls (startAbstract bytes)) :
    Meets Fatal (fun r => ∀ t, r.2.tbl = some t → t.noexpand = false →
        Meets Fatal (fun r' => Holds hashFcn r'.2 (specRun calls (startAbstract bytes)).2 ∧
            ∃ t', r'.2.tbl = some t' ∧
              Expanded r'.2 ((specRun calls (startAbstract bytes)).2.entries.map Entry.el) t t')
          (hashExpandBuckets malloc r.2))
      (runCalls malloc hashFcn calls (startState bytes)) :=
  (run_refines hmalloc calls (start_holds bytes) hp).imp fun _ h _ ht hno =>
    expand_of_holds hmalloc h.2 ht hno

theorem expansion_exact_demo :
    Meets Fatal (fun r => ∀ t, r.2.tbl = some t → t.noexpand = false →
        Meets Fatal (fun r' =>
            Holds jen r'.2 (specRun demoCalls (startAbstract fun _ => 0)).2 ∧
            ∃ t', r'.2.tbl = some t' ∧ Expanded r'.2
              ((specRun demoCalls (startAbstract fun _ => 0)).2.entries.map Entry.el) t t')
          (hashExpandBuckets demoMalloc r.2))
      (runCalls demoMalloc jen demoCalls (startState fun _ => 0)) :=
  expansion_exact demoMalloc_bounded (by decide)

end Guarantees

end LcClibs.Hash.Guarantees
