import Mathlib
import LcClibs.Packet.Bounds

namespace LcClibs.Packet.Lengths

open Platform Lib.BigEndian Lib.PrefixCode
open Buffer.Cursor Buffer.Next Buffer.Typdex Buffer.VarInt Packet.Dypkt Packet.Bounds

section Model

/-- The readers of data behind a count. -/
inductive CountedCall
  | dataWith1byteLen
  | dataWith2bytesLen
  | dataWithVarLen
  | cstringWithVarLen
  deriving DecidableEq, Repr

def CountedCall.run : CountedCall → DybM (Option Nat × Nat)
  | dataWith1byteLen => dybNextDataWith1byteLen
  | dataWith2bytesLen => dybNextDataWith2bytesLen
  | dataWithVarLen => dybNextDataWithVarLen
  | cstringWithVarLen => dybNextCstringWithVarLen

def CountedCall.count : CountedCall → DybM Nat
  | dataWith1byteLen => dybNextU8
  | dataWith2bytesLen => dybNextU16
  | dataWithVarLen | cstringWithVarLen => dybNextVarU64

/-- The bytes counted that the size reported leaves out: the NUL of a string. -/
def CountedCall.unreported : CountedCall → Nat
  | dataWith1byteLen | dataWith2bytesLen | dataWithVarLen => 0
  | cstringWithVarLen => 1

/-- The memory of a buffer is as large as its limit at least, and the position in it. -/
structure Sized (b : Dybuf) : Prop where
  position_le : b.position ≤ b.data.length
  limit_le : b.limit ≤ b.data.length
  length_lt : b.data.length < 2 ^ 32

end Model

section Counts

variable {b c : Dybuf} {l : Nat}

theorem sized_of_placed (h : Placed b) : Sized b :=
  ⟨h.position_le.trans h.limit_le, h.limit_le, h.length_lt⟩

theorem takeUint_inv {n : Nat} (hb : Sized b) (h : takeUint n 0 b = .ok (l, c)) :
    l < 256 ^ n ∧ c = advance n b ∧ b.position + n ≤ b.data.length := by
  by_cases hle : b.position + n ≤ b.data.length
  · have hlen : ((rest b).take n).length = n := by
      rw [List.length_take, rest_length]
      omega
    have hread : takeUint n 0 b = .ok (ofBytes ((rest b).take n), advance n b) :=
      takeUint_of_rest hb.length_lt (List.take_append_drop n (rest b)).symm hlen
    rw [h] at hread
    cases hread
    have hlt := ofBytes_lt ((rest b).take n)
    rw [hlen] at hlt
    exact ⟨hlt, rfl, hle⟩
  · rw [takeUint_fault hb.length_lt hb.position_le (not_le.mp hle)] at h
    cases h

theorem dybNextVarU64_inv (hb : Sized b) (h : dybNextVarU64 b = .ok (l, c)) :
    ∃ k, 1 ≤ k ∧ c = advance k b ∧ b.position + k ≤ b.data.length := by
  by_cases hin : ∃ first r, rest b = first :: r ∧ widthOf first ≤ r.length + 1
  · obtain ⟨first, r, hr, hw⟩ := hin
    rw [dybNextVarU64_of_rest hb.length_lt hr hw] at h
    cases h
    have hlen := rest_length b
    rw [hr, List.length_cons] at hlen
    exact ⟨widthOf first, widthOf_pos first, rfl, by omega⟩
  · obtain ⟨off, herr⟩ := dybNextVarU64_fault hb.length_lt hb.position_le fun first r hr => by
      by_contra hle
      exact hin ⟨first, r, hr, not_lt.mp hle⟩
    rw [h] at herr
    cases herr

theorem CountedCall.count_inv (call : CountedCall) (hb : Sized b)
    (h : call.count b = .ok (l, c)) :
    ∃ k, 1 ≤ k ∧ c = advance k b ∧ b.position + k ≤ b.data.length := by
  cases call with
  | dataWith1byteLen =>
    obtain ⟨-, hc, hle⟩ := takeUint_inv hb h
    exact ⟨1, le_rfl, hc, hle⟩
  | dataWith2bytesLen =>
    obtain ⟨-, hc, hle⟩ := takeUint_inv hb h
    exact ⟨2, by decide, hc, hle⟩
  | dataWithVarLen | cstringWithVarLen => exact dybNextVarU64_inv hb h

/-- What is read behind a count, which is cut to a `uint`. -/
def readBehind (call : CountedCall) (l : Nat) : DybM (Option Nat × Nat) := do
  let data ← dybNextDataWithoutLen (uint l)
  return (data, uintSub (uint l) call.unreported)

theorem uintSub_zero (l : Nat) : uintSub (uint l) 0 = uint l := by
  unfold uintSub uint
  omega

theorem CountedCall.run_eq (call : CountedCall) (hb : Sized b) (h : call.count b = .ok (l, c)) :
    call.run b = readBehind call l c := by
  cases call with
  | dataWith1byteLen =>
    obtain ⟨hl, -⟩ := takeUint_inv hb h
    have hu : uint l = l := uint_of_lt (by omega)
    have hzero := uintSub_zero l
    rw [hu] at hzero
    rw [readBehind, hu, unreported, hzero]
    exact bind_ok h
  | dataWith2bytesLen =>
    obtain ⟨hl, -⟩ := takeUint_inv hb h
    have hu : uint l = l := uint_of_lt (by omega)
    have hzero := uintSub_zero l
    rw [hu] at hzero
    rw [readBehind, hu, unreported, hzero]
    exact bind_ok h
  | dataWithVarLen =>
    rw [readBehind, unreported, uintSub_zero]
    exact bind_ok h
  | cstringWithVarLen => exact bind_ok h

theorem dybNextDataWithoutLen_eq (len : Nat) (c : Dybuf) :
    dybNextDataWithoutLen len c =
      if len = 0 ∨ c.limit < uint (c.position + len) then .ok (none, c)
      else .ok (some c.position, { c with position := uint (c.position + len) }) := by
  rw [dybNextDataWithoutLen, get_bind, ite_run, set_bind, pure_apply, pure_apply]

/-- Nothing is read: the count is zero, or reaches over the limit. Both as far as 32 bits
can tell. -/
def Null (c : Dybuf) (l : Nat) : Prop := uint l = 0 ∨ c.limit < uint (c.position + l)

theorem uint_add_uint (p l : Nat) : uint (p + uint l) = uint (p + l) := by
  unfold uint
  omega

theorem readBehind_null (call : CountedCall) (h : Null c l) :
    readBehind call l c = .ok ((none, uintSub (uint l) call.unreported), c) := by
  rw [Null, ← uint_add_uint] at h
  have hread : dybNextDataWithoutLen (uint l) c = .ok (none, c) := by
    rw [dybNextDataWithoutLen_eq, if_pos h]
  rw [readBehind, bind_ok hread, pure_apply]

theorem readBehind_some (call : CountedCall) (h : ¬Null c l) :
    readBehind call l c = .ok ((some c.position, uintSub (uint l) call.unreported),
      { c with position := uint (c.position + l) }) := by
  rw [Null, ← uint_add_uint] at h
  have hread : dybNextDataWithoutLen (uint l) c =
      .ok (some c.position, { c with position := uint (c.position + uint l) }) := by
    rw [dybNextDataWithoutLen_eq, if_neg h]
  rw [readBehind, bind_ok hread, pure_apply, uint_add_uint]

end Counts

section Limits

variable {b c : Dybuf} {l : Nat}

/-- A reader that began at `b` and was to read `l` bytes from `c` on: it returned `size`
bytes from there, all below the limit, or nothing, and did not go back. -/
def HonoursLimit (b c : Dybuf) (l : Nat) (data : Option Nat) (size : Nat) (b' : Dybuf) : Prop :=
  b.position ≤ b'.position ∧ ∀ off ∈ data, 0 < l ∧ l ≤ c.limit - c.position ∧
    off = c.position ∧ size = l ∧ b'.position = c.position + l

def CountedHonours (call : CountedCall) (l : Nat) (b c : Dybuf) : Prop :=
  ∃ data size b', call.run b = .ok ((data, size), b') ∧
    HonoursLimit b c l data (size + call.unreported) b'

def PlainHonours (len : Nat) (b : Dybuf) : Prop :=
  ∃ data b', dybNextDataWithoutLen len b = .ok (data, b') ∧ HonoursLimit b b len data len b'

/-- The bytes of a structure are copied out. -/
def StructureHonours (size : Nat) (b : Dybuf) : Prop :=
  ∃ bytes b', dybNextStructure size b = .ok (bytes, b') ∧
    HonoursLimit b b size (bytes.map fun _ => b.position) size b' ∧
    ∀ s ∈ bytes, s = (rest b).take size ∧ s.length = size

theorem not_null_fits (hle : c.position ≤ c.limit) (hlim : c.limit < 2 ^ 32) (h : ¬Null c l) :
    c.position + l < 2 ^ 32 ↔ 0 < l ∧ l ≤ c.limit - c.position := by
  obtain ⟨h0, hin⟩ := not_or.mp h
  constructor
  · intro hlt
    rw [uint_of_lt hlt] at hin
    rw [uint_of_lt (by omega)] at h0
    omega
  · omega

theorem honoursLimit_some (hback : b.position ≤ c.position) (hlt : c.position + l < 2 ^ 32)
    (h0 : 0 < l) (hin : l ≤ c.limit - c.position) :
    HonoursLimit b c l (some c.position) l { c with position := uint (c.position + l) } := by
  rw [uint_of_lt hlt]
  refine ⟨hback.trans (Nat.le_add_right _ _), fun off hoff => ?_⟩
  obtain rfl := Option.mem_some.mp hoff
  exact ⟨h0, hin, rfl, rfl, rfl⟩

theorem honoursLimit_none {size : Nat} {b' : Dybuf} (hback : b.position ≤ b'.position) :
    HonoursLimit b c l none size b' :=
  ⟨hback, fun off hoff => absurd hoff (Option.not_mem_none off)⟩

theorem countedHonours_iff (call : CountedCall) (hb : Placed b) (h : call.count b = .ok (l, c))
    (hle : c.position ≤ b.limit) :
    CountedHonours call l b c ↔ c.position + l < 2 ^ 32 ∨ Null c l := by
  have hs := sized_of_placed hb
  obtain ⟨k, hk, rfl, -⟩ := call.count_inv hs h
  have hlim : (advance k b).limit < 2 ^ 32 := hb.limit_le.trans_lt hb.length_lt
  have hback : b.position ≤ (advance k b).position := Nat.le_add_right _ _
  rw [CountedHonours, call.run_eq hs h]
  by_cases hnull : Null (advance k b) l
  · rw [readBehind_null call hnull]
    exact ⟨fun _ => .inr hnull, fun _ => ⟨_, _, _, rfl, honoursLimit_none hback⟩⟩
  · rw [readBehind_some call hnull, or_iff_left hnull]
    have hfits := not_null_fits hle hlim hnull
    constructor
    · rintro ⟨data, size, b', hrun, -, hdata⟩
      cases hrun
      obtain ⟨h0, hin, -⟩ := hdata _ rfl
      exact hfits.mpr ⟨h0, hin⟩
    · intro hlt
      obtain ⟨h0, hin⟩ := hfits.mp hlt
      have hu : uint l = l := uint_of_lt (by omega)
      have hsize : uintSub (uint l) call.unreported + call.unreported = l := by
        have hone : call.unreported ≤ 1 := by cases call <;> decide
        rw [hu, uintSub_of_le (by omega) (by omega)]
        omega
      have hon := honoursLimit_some hback hlt h0 hin
      exact ⟨_, _, _, rfl, by rwa [hsize]⟩

/-- With a length that is a `uint`, nothing is read wherever the sum wraps around not. -/
theorem null_fits {len : Nat} (hb : Placed b) (hl : len < 2 ^ 32) (hnull : Null b len) :
    b.position + len < 2 ^ 32 := by
  have hlim : b.limit < 2 ^ 32 := hb.limit_le.trans_lt hb.length_lt
  have hpos := hb.position_le
  rw [Null, uint_of_lt hl] at hnull
  by_contra hwrap
  unfold uint at hnull
  omega

theorem plainHonours_iff {len : Nat} (hb : Placed b) (hl : len < 2 ^ 32) :
    PlainHonours len b ↔ b.position + len < 2 ^ 32 := by
  have hlim : b.limit < 2 ^ 32 := hb.limit_le.trans_lt hb.length_lt
  have hnull : (len = 0 ∨ b.limit < uint (b.position + len)) ↔ Null b len := by
    rw [Null, uint_of_lt hl]
  rw [PlainHonours, dybNextDataWithoutLen_eq]
  by_cases h : Null b len
  · rw [if_pos (hnull.mpr h)]
    exact ⟨fun _ => null_fits hb hl h, fun _ => ⟨_, _, rfl, honoursLimit_none le_rfl⟩⟩
  · rw [if_neg (mt hnull.mp h), not_null_fits hb.position_le hlim h]
    constructor
    · rintro ⟨data, b', hrun, -, hdata⟩
      cases hrun
      obtain ⟨h0, hin, -⟩ := hdata _ rfl
      exact ⟨h0, hin⟩
    · rintro ⟨h0, hin⟩
      have hlt := (not_null_fits hb.position_le hlim h).mpr ⟨h0, hin⟩
      exact ⟨_, _, rfl, honoursLimit_some le_rfl hlt h0 hin⟩

theorem dybNextStructure_eq (size : Nat) (b : Dybuf) :
    dybNextStructure size b =
      if size = 0 ∨ b.limit < uint (b.position + size) then .ok (none, b)
      else if b.position + size ≤ b.data.length then
        .ok (some ((rest b).take size), { b with position := uint (b.position + size) })
      else .error (.readOutside b.data.length) := by
  rw [dybNextStructure, get_bind, ite_run, ite_run, set_bind, pure_apply, pure_apply]
  rfl

/-- A structure is copied, so that a wrapped range is not returned but read outside the
memory. -/
theorem structureHonours_iff {size : Nat} (hb : Placed b) (hl : size < 2 ^ 32) :
    StructureHonours size b ↔ b.position + size < 2 ^ 32 := by
  have hlim : b.limit < 2 ^ 32 := hb.limit_le.trans_lt hb.length_lt
  have hlen := hb.limit_le
  have hpos := hb.position_le
  have hlt := hb.length_lt
  have hnull : (size = 0 ∨ b.limit < uint (b.position + size)) ↔ Null b size := by
    rw [Null, uint_of_lt hl]
  rw [StructureHonours, dybNextStructure_eq]
  by_cases h : Null b size
  · rw [if_pos (hnull.mpr h)]
    exact ⟨fun _ => null_fits hb hl h, fun _ => ⟨_, _, rfl, honoursLimit_none le_rfl,
      fun s hs => absurd hs (Option.not_mem_none s)⟩⟩
  · rw [if_neg (mt hnull.mp h)]
    have hfits := not_null_fits hb.position_le hlim h
    by_cases hmem : b.position + size ≤ b.data.length
    · rw [if_pos hmem]
      refine ⟨fun _ => hmem.trans_lt hlt, fun hsum => ⟨_, _, rfl, ?_, fun s hs => ?_⟩⟩
      · obtain ⟨h0, hin⟩ := hfits.mp hsum
        exact honoursLimit_some le_rfl hsum h0 hin
      · obtain rfl := Option.mem_some.mp hs
        refine ⟨rfl, ?_⟩
        rw [List.length_take, rest_length]
        omega
    · rw [if_neg hmem]
      constructor
      · rintro ⟨bytes, b', hrun, -⟩
        cases hrun
      · intro hsum
        obtain ⟨h0, hin⟩ := hfits.mp hsum
        omega

/-- Readers of a given length honour the limit where the end of the range is a `uint`; those
behind a count also where its 32 bits say that there is nothing to read. -/
theorem honoursLimit_iff (hb : Placed b) :
    (∀ (call : CountedCall) (c : Dybuf) (l : Nat), call.count b = .ok (l, c) →
      c.position ≤ b.limit →
      (CountedHonours call l b c ↔
        c.position + l < 2 ^ 32 ∨ uint l = 0 ∨ c.limit < uint (c.position + l))) ∧
    ∀ len < 2 ^ 32, (PlainHonours len b ↔ b.position + len < 2 ^ 32) ∧
      (StructureHonours len b ↔ b.position + len < 2 ^ 32) :=
  ⟨fun call _ _ h hle => countedHonours_iff call hb h hle,
    fun _ hl => ⟨plainHonours_iff hb hl, structureHonours_iff hb hl⟩⟩

theorem honoursLimit_window :
    CountedHonours .dataWith1byteLen 2 (window [2, 7, 8] 3) (advance 1 (window [2, 7, 8] 3)) ↔
      1 + 2 < 2 ^ 32 ∨ uint 2 = 0 ∨ 3 < uint (1 + 2) :=
  (honoursLimit_iff (b := window [2, 7, 8] 3) ⟨by decide, by decide, by decide⟩).1
    .dataWith1byteLen (advance 1 (window [2, 7, 8] 3)) 2 (by decide +kernel) (by decide)

/-- Of the 4294967297 bytes announced there is one, and one is returned. -/
theorem not_honoursLimit :
    ¬∀ (call : CountedCall) (b c : Dybuf) (l : Nat), Placed b → call.count b = .ok (l, c) →
      c.position ≤ b.limit → CountedHonours call l b c := by
  intro h
  obtain ⟨data, size, b', hrun, -, hdata⟩ := h .dataWithVarLen
    (window [0xF0, 0xEF, 0xDF, 0xBF, 0x81, 7] 6)
    (advance 5 (window [0xF0, 0xEF, 0xDF, 0xBF, 0x81, 7] 6)) 4294967297
    ⟨by decide, by decide, by decide⟩ (by decide +kernel) (by decide)
  have hone : CountedCall.dataWithVarLen.run (window [0xF0, 0xEF, 0xDF, 0xBF, 0x81, 7] 6) =
      .ok ((some 5, 1), advance 6 (window [0xF0, 0xEF, 0xDF, 0xBF, 0x81, 7] 6)) := by
    decide +kernel
  rw [hrun] at hone
  cases hone
  exact absurd (hdata 5 rfl).2.1 (by decide)

end Limits

section Truncation

variable {b c : Dybuf} {l : Nat}

/-- A reader that returns null for want of bytes below the limit has moved no cursor. -/
def LeavesReader (call : CountedCall) (l : Nat) (b c : Dybuf) : Prop :=
  ∀ size b', call.run b = .ok ((none, size), b') → 0 < l → b.limit < c.position + l →
    b'.position = b.position ∧ b'.limit = b.limit ∧ b'.mark = b.mark

/-- The count has been read by then, so no such failure leaves the reader where it was. -/
theorem leavesReader_iff (call : CountedCall) (hb : Placed b) (h : call.count b = .ok (l, c)) :
    LeavesReader call l b c ↔ l = 0 ∨ c.position + l ≤ b.limit ∨
      uint l ≠ 0 ∧ uint (c.position + l) ≤ b.limit := by
  have hs := sized_of_placed hb
  obtain ⟨k, hk, rfl, -⟩ := call.count_inv hs h
  have hnull : ¬Null (advance k b) l ↔
      uint l ≠ 0 ∧ uint ((advance k b).position + l) ≤ b.limit := by
    rw [Null, not_or, not_lt, advance_limit]
  rw [LeavesReader, call.run_eq hs h, ← hnull]
  constructor
  · intro hleaves
    by_contra hfails
    obtain ⟨h0, hlong, hn⟩ : l ≠ 0 ∧ ¬(advance k b).position + l ≤ b.limit ∧
        Null (advance k b) l := by
      simpa only [not_or, not_not] using hfails
    obtain ⟨hpos, -⟩ := hleaves _ _ (readBehind_null call hn) (Nat.pos_of_ne_zero h0)
      (not_le.mp hlong)
    rw [advance_position] at hpos
    omega
  · rintro (rfl | hle | hn) size b' hrun h0 hlong
    · exact absurd h0 (lt_irrefl 0)
    · exact absurd hlong (not_lt.mpr hle)
    · rw [readBehind_some call hn] at hrun
      cases hrun

theorem leavesReader_window :
    LeavesReader .dataWith2bytesLen 2 (window [0, 2, 7, 8] 4)
        (advance 2 (window [0, 2, 7, 8] 4)) ↔
      2 = 0 ∨ 2 + 2 ≤ 4 ∨ uint 2 ≠ 0 ∧ uint (2 + 2) ≤ 4 :=
  leavesReader_iff (b := window [0, 2, 7, 8] 4) (c := advance 2 (window [0, 2, 7, 8] 4)) (l := 2)
    .dataWith2bytesLen ⟨by decide, by decide, by decide⟩ (by decide +kernel)

/-- Two bytes announced and one there: the count is gone. -/
theorem not_leavesReader :
    ¬∀ (call : CountedCall) (b c : Dybuf) (l : Nat), Placed b → call.count b = .ok (l, c) →
      LeavesReader call l b c := by
  intro h
  have hleaves := h .dataWith1byteLen (window [2, 7] 2) (advance 1 (window [2, 7] 2)) 2
    ⟨by decide, by decide, by decide⟩ (by decide +kernel)
  obtain ⟨hpos, -⟩ := hleaves 2 (advance 1 (window [2, 7] 2)) (by decide +kernel) (by decide)
    (by decide)
  exact absurd hpos (by decide)

end Truncation

section Strings

variable {b c : Dybuf} {l : Nat}

/-- What is returned as a string is one, with its NUL below the limit, and what is not is of
no size. -/
def StringRead (data : Option Nat) (size : Nat) (b' : Dybuf) : Prop :=
  match data with
  | none => size = 0
  | some off => off + (size + 1) ≤ b'.limit ∧ b'.data[off + size]? = some 0 ∧
      size = ((b'.data.drop off).takeWhile (· ≠ 0)).length

def ReadsString (next : DybM (Option Nat × Nat)) (b : Dybuf) : Prop :=
  ∃ data size b', next b = .ok ((data, size), b') ∧ StringRead data size b'

/-- Behind a count of `l` there is a string of that many bytes, its NUL the last of them, or
a NUL alone is missing. -/
def StringBehind (c : Dybuf) (l : Nat) : Prop :=
  uint l = 1 ∧ c.limit < uint (c.position + l) ∨
  c.position + uint l ≤ c.limit ∧ ∃ string, 0 ∉ string ∧ (rest c).take (uint l) = string ++ [0]

theorem take_string_iff (bs : List UInt8) (n : Nat) :
    (bs[n]? = some 0 ∧ n = (bs.takeWhile (· ≠ 0)).length) ↔
      n < bs.length ∧ ∃ string, 0 ∉ string ∧ bs.take (n + 1) = string ++ [0] := by
  constructor
  · rintro ⟨hnul, hn⟩
    refine ⟨(List.getElem?_eq_some_iff.mp hnul).1, bs.takeWhile (· ≠ 0), fun hmem => ?_, ?_⟩
    · simpa using List.mem_takeWhile_imp hmem
    · have htake : bs.take n = bs.takeWhile (· ≠ 0) := by
        have hpre := List.prefix_iff_eq_take.mp (List.takeWhile_prefix (l := bs) (· ≠ 0))
        rw [hn, ← hpre]
      rw [List.take_add_one, hnul, htake]
      rfl
  · rintro ⟨hlt, string, hno, htake⟩
    have hlen := congrArg List.length htake
    rw [List.length_take_of_le hlt, List.length_append, List.length_singleton] at hlen
    obtain rfl : n = string.length := Nat.succ.inj hlen
    have hbs : bs = string ++ 0 :: bs.drop (string.length + 1) := by
      calc bs = bs.take (string.length + 1) ++ bs.drop (string.length + 1) :=
            (List.take_append_drop _ bs).symm
        _ = string ++ 0 :: bs.drop (string.length + 1) := by rw [htake, List.append_assoc]; rfl
    have hall : ∀ v ∈ string, decide (v ≠ 0) = true := fun v hv => by
      rw [decide_eq_true_eq]
      rintro rfl
      exact hno hv
    constructor
    · rw [hbs, List.getElem?_append_right le_rfl, Nat.sub_self]
      rfl
    · rw [hbs, List.takeWhile_append_of_pos hall]
      simp

theorem readsString_iff (hb : Sized b) (h : dybNextVarU64 b = .ok (l, c)) :
    ReadsString dybNextCstringWithVarLen b ↔ StringBehind c l := by
  have hrun : dybNextCstringWithVarLen b = readBehind .cstringWithVarLen l c :=
    CountedCall.run_eq .cstringWithVarLen hb h
  obtain ⟨k, -, rfl, hle⟩ := dybNextVarU64_inv hb h
  have hlt := hb.length_lt
  have hlim := hb.limit_le
  have hul := uint_lt l
  have hsum := uint_add_uint (advance k b).position l
  rw [ReadsString, hrun]
  by_cases hnull : Null (advance k b) l
  · rw [readBehind_null _ hnull]
    constructor
    · rintro ⟨data, size, b', hret, hstr⟩
      cases hret
      have hone : uint l = 1 := by
        have h0 : uintSub (uint l) 1 = 0 := hstr
        unfold uintSub uint at h0
        unfold uint
        omega
      exact .inl ⟨hone, hnull.resolve_left (by omega)⟩
    · intro hbehind
      obtain ⟨hone, -⟩ | ⟨hin, string, -, htake⟩ := hbehind
      · refine ⟨_, _, _, rfl, ?_⟩
        show uintSub (uint l) 1 = 0
        rw [hone]
        rfl
      · exfalso
        obtain h0 | hover := hnull
        · rw [h0] at htake
          simp at htake
        · rw [← hsum, uint_of_lt (by rw [advance_limit] at hin; omega)] at hover
          omega
  · rw [readBehind_some _ hnull]
    obtain ⟨h0, hin⟩ := not_or.mp hnull
    obtain ⟨n, hn⟩ : ∃ n, uint l = n + 1 := ⟨uint l - 1, by omega⟩
    have hsize : uintSub (uint l) 1 = n := by
      rw [uintSub_of_le (by omega) hul, hn, Nat.add_sub_cancel]
    have hget : b.data[(advance k b).position + n]? = (rest (advance k b))[n]? :=
      getElem?_position (advance k b) n
    constructor
    · rintro ⟨data, size, b', hret, hstr⟩
      cases hret
      obtain ⟨hend, hnul, hcount⟩ : (advance k b).position + (uintSub (uint l) 1 + 1) ≤ b.limit ∧
          b.data[(advance k b).position + uintSub (uint l) 1]? = some 0 ∧
          uintSub (uint l) 1 = ((rest (advance k b)).takeWhile (· ≠ 0)).length := hstr
      rw [hsize] at hend hnul hcount
      rw [hget] at hnul
      obtain ⟨-, hstring⟩ := (take_string_iff _ n).mp ⟨hnul, hcount⟩
      exact .inr ⟨by rw [hn]; exact hend, by rwa [hn]⟩
    · intro hbehind
      obtain ⟨-, hover⟩ | ⟨hend, hstring⟩ := hbehind
      · exact absurd hover hin
      · rw [hn] at hend hstring
        have hlong : n < (rest (advance k b)).length := by
          rw [rest_length, advance_data]
          rw [advance_limit] at hend
          omega
        obtain ⟨hnul, hcount⟩ := (take_string_iff _ n).mpr ⟨hlong, hstring⟩
        refine ⟨_, _, _, rfl, ?_⟩
        show (advance k b).position + (uintSub (uint l) 1 + 1) ≤ b.limit ∧
          b.data[(advance k b).position + uintSub (uint l) 1]? = some 0 ∧
          uintSub (uint l) 1 = ((rest (advance k b)).takeWhile (· ≠ 0)).length
        rw [hsize, hget]
        exact ⟨hend, hnul, hcount⟩

theorem dybNextTypdex_sized {d : Dybuf} {h : Nat × Nat} (hb : Sized b)
    (hd : dybNextTypdex b = .ok (h, d)) : Sized d := by
  by_cases hin : ∃ first r, rest b = first :: r ∧ headerWidth first ≤ r.length + 1
  · obtain ⟨first, r, hr, hw⟩ := hin
    rw [dybNextTypdex_of_rest hb.length_lt hr hw] at hd
    cases hd
    have hlen := rest_length b
    rw [hr, List.length_cons] at hlen
    exact ⟨by rw [advance_position, advance_data]; omega, hb.limit_le, hb.length_lt⟩
  · obtain ⟨off, herr⟩ := dybNextTypdex_fault hb.length_lt hb.position_le fun first r hr => by
      by_contra hle
      exact hin ⟨first, r, hr, not_lt.mp hle⟩
    rw [hd] at herr
    cases herr

/-- What is read as a string is one exactly where the bytes behind the count make one; so it
is with the strings of a packet, behind their headers. -/
theorem strings_iff (hb : Placed b) :
    (∀ (c : Dybuf) (l : Nat), dybNextVarU64 b = .ok (l, c) →
      (ReadsString dybNextCstringWithVarLen b ↔ StringBehind c l)) ∧
    ∀ (d c : Dybuf) (header : Nat × Nat) (l : Nat), dybNextTypdex b = .ok (header, d) →
      dybNextVarU64 d = .ok (l, c) →
      (ReadsString dypNextCstring b ↔ StringBehind c l) ∧
      (ReadsString dypNextProtocol b ↔ StringBehind c l) := by
  constructor
  · exact fun c l h => readsString_iff (sized_of_placed hb) h
  · intro d c header l hd h
    have hs := dybNextTypdex_sized (sized_of_placed hb) hd
    have htagged : nextTagged dybNextCstringWithVarLen b = dybNextCstringWithVarLen d := bind_ok hd
    have hiff := readsString_iff hs h
    rw [ReadsString, ← htagged] at hiff
    exact ⟨hiff, hiff⟩

theorem strings_window :
    ReadsString dybNextCstringWithVarLen (window [2, 0x61, 0, 9] 3) ↔
      StringBehind (advance 1 (window [2, 0x61, 0, 9] 3)) 2 :=
  (strings_iff (b := window [2, 0x61, 0, 9] 3) ⟨by decide, by decide, by decide⟩).1
    (advance 1 (window [2, 0x61, 0, 9] 3)) 2 (by decide +kernel)

/-- A count of zero is reported as a null string of 4294967295 bytes. -/
theorem not_strings :
    ¬∀ (b c : Dybuf) (l : Nat), Placed b → dybNextVarU64 b = .ok (l, c) →
      ReadsString dybNextCstringWithVarLen b := by
  intro h
  obtain ⟨data, size, b', hrun, hstr⟩ := h (window [0] 1) (advance 1 (window [0] 1)) 0
    ⟨by decide, by decide, by decide⟩ (by decide +kernel)
  have hnull : dybNextCstringWithVarLen (window [0] 1) =
      .ok ((none, 4294967295), advance 1 (window [0] 1)) := by decide +kernel
  rw [hrun] at hnull
  cases hnull
  exact absurd (show 4294967295 = 0 from hstr) (by decide)

end Strings

end LcClibs.Packet.Lengths
