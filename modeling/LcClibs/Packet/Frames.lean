import Mathlib
import LcClibs.Packet.Bounds

namespace LcClibs.Packet.Frames

open Platform Buffer.Cursor Buffer.Append Packet.Bounds

section Model

def unread (b : Dybuf) : List UInt8 := (b.data.drop b.position).take (b.limit - b.position)

/-- An append of a byte string that changes those bytes, the position and the limit. -/
structure FrameLaw (b : Dybuf) (e : List UInt8) (b' : Dybuf) : Prop where
  written : (b'.data.drop b.position).take e.length = e
  unchanged : ∀ i, i < b.limit → i < b.position ∨ b.position + e.length ≤ i →
    b'.data[i]? = b.data[i]?
  position_eq : b'.position = b.position + e.length
  limit_eq : b'.limit = max b.limit (b.position + e.length)
  mark_eq : b'.mark = b.mark

/-- A buffer that is to be read from its beginning and has just these bytes to read. -/
structure Delivers (c : Dybuf) (bytes : List UInt8) : Prop where
  position_eq : c.position = 0
  mark_eq : c.mark = 0
  limit_eq : c.limit = bytes.length
  unread_eq : unread c = bytes
  remainder_eq : dybGetRemainder c = bytes.length

end Model

section Frames

variable {b b' : Dybuf} {e : List UInt8}

theorem position_le_length (hok : b.Ok) : b.position ≤ b.data.length :=
  hok.position_le.trans (hok.limit_le.trans hok.length_eq.ge)

/-- The old bytes, those before the position too, show through. -/
theorem frameLaw_of_appended (h : Appended b e b') (hok : b.Ok) : FrameLaw b e b' where
  written := by
    have hp : (b.data.take b.position).length = b.position :=
      List.length_take_of_le (position_le_length hok)
    have hlen : (b.data.take b.position ++ e).length = b'.position := by
      rw [List.length_append, hp, h.position_eq]
    calc (b'.data.drop b.position).take e.length
        = (b'.data.take (b.position + e.length)).drop b.position := by
          rw [List.drop_take, Nat.add_sub_cancel_left]
      _ = (b.data.take b.position ++ e).drop b.position := by rw [← h.position_eq, h.written]
      _ = e := List.drop_left' hp
  unchanged i hi hout := by
    obtain hlt | hge := hout
    · have hpos : i < b'.position := by
        rw [h.position_eq]
        omega
      have hlen : i < (b.data.take b.position).length := by
        rw [List.length_take_of_le (position_le_length hok)]
        exact hlt
      calc b'.data[i]? = (b'.data.take b'.position)[i]? := (List.getElem?_take_of_lt hpos).symm
        _ = (b.data.take b.position)[i]? := by rw [h.written, List.getElem?_append_left hlen]
        _ = b.data[i]? := List.getElem?_take_of_lt hlt
    · exact h.kept i hge hi
  position_eq := h.position_eq
  limit_eq := h.limit_eq
  mark_eq := h.mark_eq

theorem unread_length (hok : b.Ok) : (unread b).length = b.limit - b.position := by
  have hlim := hok.limit_le
  have hlen := hok.length_eq
  rw [unread, List.length_take, List.length_drop]
  omega

theorem unread_appended (h : Appended b e b') : unread b' = (unread b).drop e.length := by
  apply List.ext_getElem?
  intro i
  have hlim := h.limit_eq
  have hpos := h.position_eq
  rw [unread, unread, List.getElem?_drop, List.getElem?_take, List.getElem?_take,
    List.getElem?_drop, List.getElem?_drop, hpos]
  by_cases hi : b.position + e.length + i < b.limit
  · rw [if_pos (by omega), if_pos (by omega), h.kept _ (by omega) hi, Nat.add_assoc]
  · rw [if_neg (by omega), if_neg (by omega)]

theorem dybFlip_delivers (hok : b.Ok) : Delivers (dybFlip b) (b.data.take b.position) where
  position_eq := rfl
  mark_eq := rfl
  limit_eq := (List.length_take_of_le (position_le_length hok)).symm
  unread_eq := rfl
  remainder_eq := by
    have hlt : b.position < 2 ^ 32 :=
      (position_le_length hok).trans_lt (hok.length_eq.trans_lt hok.capacity_lt)
    rw [List.length_take_of_le (position_le_length hok)]
    exact uintSub_of_le (Nat.zero_le _) hlt

theorem dybCompact_delivers (hok : b.Ok) : Delivers (dybCompact b) (unread b) := by
  have hp := hok.position_le
  have hlt : b.limit < 2 ^ 32 := hok.limit_le.trans_lt hok.capacity_lt
  have hlen := unread_length hok
  by_cases h0 : b.position = 0
  · have hm := hok.mark_le
    rw [dybCompact, if_pos h0]
    exact
      { position_eq := h0
        mark_eq := by omega
        limit_eq := by omega
        unread_eq := rfl
        remainder_eq := by rw [dybGetRemainder, uintSub_of_le hp hlt, hlen] }
  · have hsub : uintSub b.limit b.position = b.limit - b.position := uintSub_of_le hp hlt
    rw [dybCompact, if_neg h0, hsub]
    exact
      { position_eq := rfl
        mark_eq := rfl
        limit_eq := hlen.symm
        unread_eq := List.take_left' hlen
        remainder_eq := by
          rw [hlen]
          exact uintSub_of_le (Nat.zero_le _) ((Nat.sub_le _ _).trans_lt hlt) }

/-- An append writes its bytes at the position and leaves the other ones below the limit;
a new buffer holds all that was appended to it; and what was written, or not yet read, is
there after a flip, or a compact. -/
theorem append_frames :
    (∀ (b : Dybuf) (call : AppendCall), b.Ok → b.fixedCapacity = false →
      b.position + call.bytes.length < 2 ^ 32 → ∃ b', call.run b = .ok ((), b') ∧
        FrameLaw b call.bytes b' ∧ Delivers (dybFlip b') (b'.data.take b'.position) ∧
        Delivers (dybCompact b') ((unread b).drop call.bytes.length)) ∧
    ∀ (capacity : Nat) (calls : List AppendCall), capacity < 2 ^ 32 →
      (calls.flatMap AppendCall.bytes).length < 2 ^ 32 →
      ∃ b', appendAll calls (dybCreate capacity) = .ok ((), b') ∧
        b'.data.take b'.position = calls.flatMap AppendCall.bytes ∧
        Delivers (dybFlip b') (calls.flatMap AppendCall.bytes) ∧ Delivers (dybCompact b') [] := by
  constructor
  · intro b call hok hf hlt
    obtain ⟨b', hrun, ha⟩ := call.run_writes.ok b hok ⟨hlt, fun ht => by rw [hf] at ht; cases ht⟩
    have hcompact := dybCompact_delivers ha.ok
    rw [unread_appended ha] at hcompact
    exact ⟨b', hrun, frameLaw_of_appended ha hok, dybFlip_delivers ha.ok, hcompact⟩
  · intro capacity calls hc hlt
    have hroom : Room (dybCreate capacity) (calls.flatMap AppendCall.bytes).length :=
      ⟨(Nat.zero_add _).trans_lt hlt, fun ht => by cases ht⟩
    obtain ⟨b', hrun, ha⟩ := (appendAll_writes calls).ok _ (dybCreate_ok hc) hroom
    have hwritten : b'.data.take b'.position = calls.flatMap AppendCall.bytes := ha.written
    have hcompact := dybCompact_delivers ha.ok
    rw [unread_appended ha, show unread (dybCreate capacity) = [] from rfl, List.drop_nil]
      at hcompact
    have hflip := dybFlip_delivers ha.ok
    rw [hwritten] at hflip
    exact ⟨b', hrun, hwritten, hflip, hcompact⟩

/-- A number and a string one after the other. -/
theorem append_frames_sample :
    ∃ b', appendAll [.u16 0x0102, .cstringWithVarLen [0x61]] (dybCreate 0) = .ok ((), b') ∧
      b'.data.take b'.position =
        [AppendCall.u16 0x0102, .cstringWithVarLen [0x61]].flatMap AppendCall.bytes ∧
      Delivers (dybFlip b')
        ([AppendCall.u16 0x0102, .cstringWithVarLen [0x61]].flatMap AppendCall.bytes) ∧
      Delivers (dybCompact b') [] :=
  append_frames.2 0 [.u16 0x0102, .cstringWithVarLen [0x61]] (by decide) (by decide +kernel)

end Frames

end LcClibs.Packet.Frames
