import Mathlib
import LcClibs.Packet.Bounds

namespace LcClibs.Packet.Cursors

open Platform Buffer.Cursor Buffer.Append Packet.Bounds

section Model

inductive Mutation
  | setCapacity (newCapacity : Nat)
  | setLimit (newLimit : Nat)
  | setPosition (newPosition : Nat)
  | compact
  | mark
  | reset
  | clear
  | flip
  | rewind
  | append (call : AppendCall)

/-- The flag tells whether the buffer or null is returned. -/
def Mutation.run : Mutation → Dybuf → Except Fault (Bool × Dybuf)
  | setCapacity n, b => .ok (dybSetCapacity n b)
  | setLimit n, b => .ok (dybSetLimit n b)
  | setPosition n, b => .ok (dybSetPosition n b)
  | compact, b => .ok (true, dybCompact b)
  | mark, b => .ok (true, dybMark b)
  | reset, b => .ok (true, dybReset b)
  | clear, b => .ok (true, dybClear b)
  | flip, b => .ok (true, dybFlip b)
  | rewind, b => .ok (true, dybRewind b)
  | append call, b => (call.run b).map fun r => (true, r.2)

/-- Arguments that are `uint` values, and an append whose end offset is one. -/
def Mutation.Fits (b : Dybuf) : Mutation → Prop
  | setCapacity n | setLimit n | setPosition n => n < 2 ^ 32
  | append call => b.position + call.bytes.length < 2 ^ 32
  | _ => True

/-- The growable buffers just made. The memory that is not copied is the buffer's own,
and as large as it says. -/
inductive Made : Dybuf → Prop
  | create {capacity : Nat} : capacity < 2 ^ 32 → Made (dybCreate capacity)
  | copy {data : Option (List UInt8)} {capacity : Nat} {noCopy : Bool} : capacity < 2 ^ 32 →
    (∀ d ∈ data, capacity ≤ d.length ∧ (noCopy = true → d.length = capacity)) →
    Made (dybCopy data capacity noCopy)

/-- A growable buffer in the course of such calls. -/
inductive Reached : Dybuf → Prop
  | made {b : Dybuf} : Made b → Reached b
  | step {b b' : Dybuf} {m : Mutation} {answer : Bool} : Reached b → m.Fits b →
    m.run b = .ok (answer, b') → Reached b'

end Model

section Invariant

variable {b b' : Dybuf}

theorem Made.ok (h : Made b) : b.Ok ∧ b.fixedCapacity = false := by
  cases h with
  | create hc => exact ⟨dybCreate_ok hc, rfl⟩
  | @copy data capacity noCopy hc hd =>
    cases data with
    | none => exact ⟨dybCreate_ok hc, rfl⟩
    | some d =>
      obtain ⟨hle, heq⟩ := hd d rfl
      have hge := dybMemAlloc_ge capacity
      cases noCopy with
      | true => exact ⟨⟨le_rfl, Nat.zero_le _, le_rfl, heq rfl, hc⟩, rfl⟩
      | false =>
        refine ⟨⟨le_rfl, Nat.zero_le _, hge, ?_, dybMemAlloc_lt hc⟩, rfl⟩
        simp only [dybCopy, Bool.false_eq_true, if_false, List.length_append, List.length_take,
          List.length_replicate]
        omega

theorem dybSetCapacity_ok {n : Nat} (hok : b.Ok) (hn : n < 2 ^ 32) : (dybSetCapacity n b).2.Ok := by
  have hm := hok.mark_le
  have hp := hok.position_le
  have hl := hok.limit_le
  have hd := hok.length_eq
  have hlt := dybMemAlloc_lt hn
  unfold dybSetCapacity
  split_ifs
  · exact hok
  · exact hok
  · exact
      { mark_le := by dsimp only; split_ifs <;> omega
        position_le := by dsimp only; split_ifs <;> omega
        limit_le := by dsimp only; split_ifs <;> omega
        length_eq := by
          simp only [List.length_append, List.length_take, List.length_replicate]
          omega
        capacity_lt := hlt }

theorem dybSetCapacity_ge {n : Nat} (h : (dybSetCapacity n b).1 = true) :
    n ≤ (dybSetCapacity n b).2.capacity := by
  unfold dybSetCapacity at h ⊢
  split_ifs at h ⊢ with h1 h2
  · exact h2.le
  · exact dybMemAlloc_ge n

theorem dybSetLimit_ok {n : Nat} (hok : b.Ok) (hn : n < 2 ^ 32) : (dybSetLimit n b).2.Ok := by
  -- the memory, grown where it was too small
  have hgrown : ∀ c : Bool × Dybuf, c.2.Ok → (c.1 = true → n ≤ c.2.capacity) →
      (if c.1 then (true, { c.2 with
        limit := n
        mark := if c.2.mark > n then n else c.2.mark
        position := if c.2.position > n then n else c.2.position }) else (false, c.2)).2.Ok := by
    intro c hc hcap
    have hm := hc.mark_le
    by_cases h : c.1 = true
    · rw [if_pos h]
      exact
        { mark_le := by dsimp only; split_ifs <;> omega
          position_le := by dsimp only; split_ifs <;> omega
          limit_le := hcap h
          length_eq := hc.length_eq
          capacity_lt := hc.capacity_lt }
    · rw [if_neg h]
      exact hc
  unfold dybSetLimit
  by_cases hbig : n > b.capacity
  · rw [if_pos hbig]
    exact hgrown _ (dybSetCapacity_ok hok hn) dybSetCapacity_ge
  · rw [if_neg hbig]
    exact hgrown (true, b) hok fun _ => not_lt.mp hbig

theorem dybSetPosition_ok {n : Nat} (hok : b.Ok) : (dybSetPosition n b).2.Ok := by
  have hm := hok.mark_le
  have hp := hok.position_le
  unfold dybSetPosition
  split_ifs with h1 h2
  · exact hok
  · exact ⟨le_rfl, hm.trans hp, hok.limit_le, hok.length_eq, hok.capacity_lt⟩
  · exact ⟨not_lt.mp h2, not_lt.mp h1, hok.limit_le, hok.length_eq, hok.capacity_lt⟩

theorem dybCompact_ok (hok : b.Ok) : (dybCompact b).Ok := by
  have hp := hok.position_le
  have hl := hok.limit_le
  have hc := hok.capacity_lt
  have hd := hok.length_eq
  have hsub : uintSub b.limit b.position = b.limit - b.position := uintSub_of_le hp (by omega)
  unfold dybCompact
  split_ifs
  · exact hok
  · rw [hsub]
    exact
      { mark_le := le_rfl
        position_le := Nat.zero_le _
        limit_le := by dsimp only; omega
        length_eq := by
          simp only [List.length_append, List.length_take, List.length_drop]
          omega
        capacity_lt := hc }

theorem dybSetCapacity_fixed (n : Nat) (b : Dybuf) :
    (dybSetCapacity n b).2.fixedCapacity = b.fixedCapacity := by
  unfold dybSetCapacity
  split_ifs <;> rfl

theorem dybSetLimit_fixed (n : Nat) (b : Dybuf) :
    (dybSetLimit n b).2.fixedCapacity = b.fixedCapacity := by
  have hgrown : (if n > b.capacity then dybSetCapacity n b else (true, b)).2.fixedCapacity =
      b.fixedCapacity := by
    split_ifs
    · exact dybSetCapacity_fixed n b
    · rfl
  unfold dybSetLimit
  dsimp only
  rw [apply_ite Prod.snd, apply_ite Dybuf.fixedCapacity]
  dsimp only
  rw [hgrown, ite_self]

theorem dybSetPosition_fixed (n : Nat) (b : Dybuf) :
    (dybSetPosition n b).2.fixedCapacity = b.fixedCapacity := by
  unfold dybSetPosition
  split_ifs <;> rfl

theorem dybCompact_fixed (b : Dybuf) : (dybCompact b).fixedCapacity = b.fixedCapacity := by
  unfold dybCompact
  split_ifs <;> rfl

theorem Mutation.run_ok {m : Mutation} (hok : b.Ok) (hf : b.fixedCapacity = false)
    (hm : m.Fits b) :
    ∃ answer b', m.run b = .ok (answer, b') ∧ b'.Ok ∧ b'.fixedCapacity = false := by
  cases m with
  | setCapacity n =>
    exact ⟨(dybSetCapacity n b).1, (dybSetCapacity n b).2, rfl, dybSetCapacity_ok hok hm,
      (dybSetCapacity_fixed n b).trans hf⟩
  | setLimit n =>
    exact ⟨(dybSetLimit n b).1, (dybSetLimit n b).2, rfl, dybSetLimit_ok hok hm,
      (dybSetLimit_fixed n b).trans hf⟩
  | setPosition n =>
    exact ⟨(dybSetPosition n b).1, (dybSetPosition n b).2, rfl, dybSetPosition_ok hok,
      (dybSetPosition_fixed n b).trans hf⟩
  | compact =>
    exact ⟨true, dybCompact b, rfl, dybCompact_ok hok, (dybCompact_fixed b).trans hf⟩
  | mark =>
    exact ⟨_, _, rfl, ⟨le_rfl, hok.position_le, hok.limit_le, hok.length_eq, hok.capacity_lt⟩, hf⟩
  | reset =>
    exact ⟨_, _, rfl, ⟨le_rfl, hok.mark_le.trans hok.position_le, hok.limit_le, hok.length_eq,
      hok.capacity_lt⟩, hf⟩
  | clear =>
    exact ⟨_, _, rfl, ⟨le_rfl, Nat.zero_le _, le_rfl, hok.length_eq, hok.capacity_lt⟩, hf⟩
  | flip =>
    exact ⟨_, _, rfl, ⟨le_rfl, Nat.zero_le _, hok.position_le.trans hok.limit_le, hok.length_eq,
      hok.capacity_lt⟩, hf⟩
  | rewind =>
    exact ⟨_, _, rfl, ⟨le_rfl, Nat.zero_le _, hok.limit_le, hok.length_eq, hok.capacity_lt⟩, hf⟩
  | append call =>
    obtain ⟨b', hb, happ⟩ := call.run_writes.ok b hok ⟨hm, fun h => by rw [hf] at h; cases h⟩
    refine ⟨true, b', ?_, happ.ok, by rw [happ.fixed_eq, hf]⟩
    rw [Mutation.run, hb]
    rfl

theorem Reached.ok (h : Reached b) : b.Ok ∧ b.fixedCapacity = false := by
  induction h with
  | made h => exact h.ok
  | step _ hm h ih =>
    obtain ⟨answer, b1, hrun, hok, hf⟩ := Mutation.run_ok ih.1 ih.2 hm
    rw [hrun] at h
    cases h
    exact ⟨hok, hf⟩

theorem dybSetCapacity_null {n : Nat} (h : (dybSetCapacity n b).1 = false) :
    (dybSetCapacity n b).2 = b := by
  unfold dybSetCapacity at h ⊢
  split_ifs at h ⊢
  rfl

theorem dybSetLimit_null {n : Nat} (h : (dybSetLimit n b).1 = false) :
    (dybSetLimit n b).2 = b := by
  unfold dybSetLimit at h ⊢
  by_cases hbig : n > b.capacity
  · simp only [if_pos hbig] at h ⊢
    cases hc : (dybSetCapacity n b).1 with
    | true =>
      rw [hc] at h
      cases h
    | false =>
      simp only [Bool.false_eq_true, if_false]
      exact dybSetCapacity_null hc
  · simp only [if_neg hbig, if_true] at h
    cases h

theorem dybSetPosition_null {n : Nat} (h : (dybSetPosition n b).1 = false) :
    (dybSetPosition n b).2 = b := by
  unfold dybSetPosition at h ⊢
  split_ifs at h ⊢
  rfl

/-- Along every sequence of calls the cursors of a growable buffer are in order and its
capacity is the size of its memory, every call returns, and a setter that answers null
has changed nothing. -/
theorem cursors_ordered :
    (∀ b, Reached b → b.mark ≤ b.position ∧ b.position ≤ b.limit ∧ b.limit ≤ b.capacity ∧
      b.capacity = b.data.length) ∧
    (∀ b (m : Mutation), Reached b → m.Fits b → ∃ answer b', m.run b = .ok (answer, b')) ∧
    ∀ b n, ((dybSetPosition n b).1 = false → (dybSetPosition n b).2 = b) ∧
      ((dybSetLimit n b).1 = false → (dybSetLimit n b).2 = b) ∧
      ((dybSetCapacity n b).1 = false → (dybSetCapacity n b).2 = b) := by
  refine ⟨fun b h => ?_, fun b m h hm => ?_, fun b n => ?_⟩
  · have hok := h.ok.1
    exact ⟨hok.mark_le, hok.position_le, hok.limit_le, hok.length_eq.symm⟩
  · obtain ⟨answer, b', hrun, -⟩ := Mutation.run_ok h.ok.1 h.ok.2 hm
    exact ⟨answer, b', hrun⟩
  · exact ⟨dybSetPosition_null, dybSetLimit_null, dybSetCapacity_null⟩

/-- A buffer of sixteen bytes that gets a limit of twenty and is compacted at its mark. -/
theorem cursors_ordered_grown :
    ∃ b, Reached b ∧ (b.mark, b.position, b.limit, b.capacity) = (0, 0, 15, 20) ∧
      (b.mark ≤ b.position ∧ b.position ≤ b.limit ∧ b.limit ≤ b.capacity ∧
        b.capacity = b.data.length) := by
  have hmade : Reached (dybCreate 4) := .made (.create (by decide))
  have hlimit := Reached.step (m := .setLimit 20) hmade (by decide : 20 < 2 ^ 32) rfl
  have hposition := Reached.step (m := .setPosition 5) hlimit (by decide : 5 < 2 ^ 32) rfl
  have hmark := Reached.step (m := .mark) hposition trivial rfl
  have hcompact := Reached.step (m := .compact) hmark trivial rfl
  exact ⟨_, hcompact, rfl, cursors_ordered.1 _ hcompact⟩

end Invariant

end LcClibs.Packet.Cursors
