import Mathlib
import LcClibs.Lib.Simulation
import LcClibs.Lib.Tapes
import LcClibs.Packet.Cursors

namespace LcClibs.Packet.Windows

open Platform Lib.BigEndian Lib.PrefixCode Lib.Simulation Lib.Tapes
open Buffer Buffer.Cursor Buffer.Append Buffer.Next Buffer.Typdex Buffer.VarInt
open Packet.Dypkt Packet.Bounds Packet.Cursors

section Calls

/-- A call that reads: `dyb_next_u8` to `dyb_next_u64` by the number of their bytes, and a reader
of `dypkt.h` by what follows its header. -/
inductive Reader
  | bool
  | uint (n : Nat)
  | typdex
  | varU64
  | varS64
  | float (host : Host)
  | double (host : Host)
  | dataWithoutLen (len : Nat)
  | dataWith1byteLen
  | dataWith2bytesLen
  | dataWithVarLen
  | cstringWithVarLen
  | peekBool
  | peekUint (n : Nat)
  | peekTypdex
  | tagged (value : Reader)

/-- What a call gives back. A pointer into the buffer stands for the bytes behind it. -/
inductive Answer
  | done (ok : Bool)
  | number (value : Int)
  | header (type index : Nat)
  | data (bytes : Option (List UInt8)) (size : Nat)
  deriving DecidableEq, Repr

/-- The bytes behind a pointer. -/
def answerData (data : Option Nat) (size : Nat) : DybM Answer := do
  let bytes ← dataAt data size
  return .data (data.map fun _ => bytes) size

def Reader.run : Reader → DybM Answer
  | bool => do
    return .number (if ← dybNextBool then 1 else 0)
  | uint n => do
    return .number (← takeUint n 0)
  | typdex => do
    let p ← dybNextTypdex
    return .header p.1 p.2
  | varU64 => do
    return .number (← dybNextVarU64)
  | varS64 => do
    return .number (← dybNextVarS64)
  | float host => do
    return .number (← dybNextFloat host)
  | double host => do
    return .number (← dybNextDouble host)
  | dataWithoutLen len => do
    answerData (← dybNextDataWithoutLen len) len
  | dataWith1byteLen => do
    let p ← dybNextDataWith1byteLen
    answerData p.1 p.2
  | dataWith2bytesLen => do
    let p ← dybNextDataWith2bytesLen
    answerData p.1 p.2
  | dataWithVarLen => do
    let p ← dybNextDataWithVarLen
    answerData p.1 p.2
  | cstringWithVarLen => do
    let p ← dybNextCstringWithVarLen
    answerData p.1 p.2
  | peekBool => do
    return .number (if ← dybPeekBool then 1 else 0)
  | peekUint n => do
    return .number (← lookUint n 0 0)
  | peekTypdex => do
    let p ← dybPeekTypdex
    return .header p.1 p.2
  | tagged value => nextTagged value.run

inductive Call
  | change (m : Mutation)
  | read (reader : Reader)
  | remainder

def Call.run : Call → DybM Answer
  | change m => fun b => (m.run b).map fun r => (.done r.1, r.2)
  | read reader => reader.run
  | remainder => do
    return .number (dybGetRemainder (← get))

/-- A user of a buffer, who chooses each call by the answers so far. -/
inductive Client
  | stop
  | call (c : Call) (next : Answer → Client)

def Client.run : Client → DybM (List Answer)
  | stop => pure []
  | call c next => do
    let answer ← c.run
    let answers ← (next answer).run
    return answer :: answers

end Calls

section Specification

/-- The next bytes, or none where there are not as many. The end offset has to be a `uint`. -/
def nextData (len : Nat) : TapeM UInt8 (Option (List UInt8)) := fun t =>
  if t.position + len < 2 ^ 32 then
    if len = 0 ∨ t.cells.length < t.position + len then some (none, t)
    else ((Tape.take len).map some) t
  else none

def nextNumber (n : Nat) : TapeM UInt8 Nat := do
  return ofBytes (← Tape.take n)

def lookNumber (n : Nat) : TapeM UInt8 Nat := do
  return ofBytes (← Tape.look n)

def nextVar : TapeM UInt8 Nat := do
  let p ← Tape.takeWord widthOf
  return varValue p.1 p.2

def nextHeader : TapeM UInt8 (Nat × Nat) := do
  let p ← Tape.takeWord headerWidth
  return headerOf p.1 p.2

def lookHeader : TapeM UInt8 (Nat × Nat) := do
  let p ← Tape.lookWord headerWidth
  return headerOf p.1 p.2

def specData (len size : Nat) : TapeM UInt8 Answer := do
  return .data ((← nextData len).map (List.take size)) size

/-- What a reader does with the bytes up to the limit. -/
def Reader.spec : Reader → TapeM UInt8 Answer
  | bool => do
    return .number (if (← nextNumber 1) != 0 then 1 else 0)
  | uint n => do
    return .number (← nextNumber n)
  | typdex => do
    let p ← nextHeader
    return .header p.1 p.2
  | varU64 => do
    return .number (← nextVar)
  | varS64 => do
    return .number (unzigzag (← nextVar))
  | float host => do
    return .number (dybSwapU32 host (← nextNumber 4))
  | double host => do
    return .number (dybSwapU64 host (← nextNumber 8))
  | dataWithoutLen len => specData len len
  | dataWith1byteLen => do
    let len ← nextNumber 1
    specData len len
  | dataWith2bytesLen => do
    let len ← nextNumber 2
    specData len len
  | dataWithVarLen => do
    let len ← nextVar
    specData (Platform.uint len) (Platform.uint len)
  | cstringWithVarLen => do
    let len ← nextVar
    specData (Platform.uint len) (uintSub (Platform.uint len) 1)
  | peekBool => do
    return .number (if (← lookNumber 1) != 0 then 1 else 0)
  | peekUint n => do
    return .number (← lookNumber n)
  | peekTypdex => do
    let p ← lookHeader
    return .header p.1 p.2
  | tagged value => do
    let _ ← nextHeader
    value.spec

/-- What a call does with the bytes up to the limit; with a memory of its own, and with a memory
of a fixed size. What lies past the limit is not told, nor offsets from 2^32 on. -/
def specChange (fixed : Option Nat) : Mutation → TapeM UInt8 Answer
  | .setCapacity n => fun t =>
    match fixed with
    | some c => some (.done (n == c), t)
    | none => if t.cells.length ≤ n ∧ n < 2 ^ 32 then some (.done true, t) else none
  | .setLimit n => fun t =>
    if h : n ≤ t.cells.length then some (.done true, t.truncate n h)
    else if ∃ c ∈ fixed, c < n then some (.done false, t)
    else none
  | .setPosition n => fun t =>
    if h : n ≤ t.cells.length then some (.done true, t.seek n h) else some (.done false, t)
  | .compact => fun t => some (.done true, t.compact)
  | .mark => fun t => some (.done true, t.setMark)
  | .reset => fun t => some (.done true, t.reset)
  | .clear => fun _ => none
  | .flip => fun t => some (.done true, t.flip)
  | .rewind => fun t => some (.done true, t.rewind)
  | .append call => fun t =>
    if t.position + call.bytes.length ≤ fixed.getD (2 ^ 32 - 1) then
      some (.done true, t.write call.bytes)
    else none

def Call.spec (fixed : Option Nat) : Call → TapeM UInt8 Answer
  | change m => specChange fixed m
  | read reader => reader.spec
  | remainder => fun t => some (.number t.ahead.length, t)

def Client.spec (fixed : Option Nat) : Client → TapeM UInt8 (List Answer)
  | stop => pure []
  | call c next => do
    let answer ← c.spec fixed
    let answers ← (next answer).spec fixed
    return answer :: answers

/-- A buffer shows the bytes of a tape up to its limit, in a memory of its own or of a fixed
size. -/
structure Shows (fixed : Option Nat) (b : Dybuf) (t : Tape UInt8) : Prop where
  ok : b.Ok
  cells : t.cells = b.data.take b.limit
  position : t.position = b.position
  mark : t.mark = b.mark
  fixed_eq : b.fixedCapacity = fixed.isSome
  capacity : ∀ c ∈ fixed, b.capacity = c

/-- The buffers just made, and what they show. -/
inductive Begins : Option Nat → Dybuf → Tape UInt8 → Prop
  | create {capacity : Nat} (h : capacity < 2 ^ 32) :
    Begins none (dybCreate capacity) Tape.blank
  | copy {data : List UInt8} (h : data.length < 2 ^ 32) (noCopy : Bool) :
    Begins none (dybCopy (some data) data.length noCopy) (Tape.full data)
  | refer {data : List UInt8} (h : data.length < 2 ^ 32) {forWrite : Bool} {b : Dybuf}
    (hb : dybRefer (some data) data.length forWrite = some b) :
    Begins (some data.length) b (if forWrite then Tape.blank else Tape.full data)

end Specification

section Reading

variable {fixed : Option Nat} {b : Dybuf} {t : Tape UInt8}

theorem Shows.length_cells (h : Shows fixed b t) : t.cells.length = b.limit := by
  rw [h.cells, List.length_take_of_le (h.ok.limit_le.trans h.ok.length_eq.ge)]

theorem Shows.length_lt (h : Shows fixed b t) : b.data.length < 2 ^ 32 :=
  h.ok.length_eq.trans_lt h.ok.capacity_lt

theorem Shows.rest_eq (h : Shows fixed b t) : rest b = t.ahead ++ b.data.drop b.limit := by
  rw [rest, Tape.ahead, h.position, h.cells, List.drop_take]
  have hle := h.ok.position_le
  calc b.data.drop b.position
      = (b.data.drop b.position).take (b.limit - b.position) ++
          (b.data.drop b.position).drop (b.limit - b.position) :=
        (List.take_append_drop _ _).symm
    _ = _ := by rw [List.drop_drop, Nat.add_sub_cancel' hle]

theorem Shows.advance (h : Shows fixed b t) {n : Nat} (hn : t.position + n ≤ t.cells.length) :
    Shows fixed (advance n b) (t.advance n hn) where
  ok :=
    { mark_le := h.ok.mark_le.trans (Nat.le_add_right _ _)
      position_le := by
        rw [advance_position, advance_limit, ← h.position, ← h.length_cells]
        exact hn
      limit_le := h.ok.limit_le
      length_eq := h.ok.length_eq
      capacity_lt := h.ok.capacity_lt }
  cells := h.cells
  position := congrArg (· + n) h.position
  mark := h.mark
  fixed_eq := h.fixed_eq
  capacity := h.capacity

theorem Shows.rest_take (h : Shows fixed b t) {n : Nat}
    (hn : t.position + n ≤ t.cells.length) :
    ∃ r, rest b = t.ahead.take n ++ r ∧ (t.ahead.take n).length = n := by
  refine ⟨t.ahead.drop n ++ b.data.drop b.limit, ?_, ?_⟩
  · rw [h.rest_eq, ← List.append_assoc, List.take_append_drop]
  · rw [List.length_take, Tape.length_ahead]
    omega

theorem nextNumber_implements (n : Nat) :
    Implements (Shows fixed) (takeUint n 0) (nextNumber n) := by
  intro b t v t' h hspec
  obtain ⟨⟨e, t₁⟩, htake, hpure⟩ := Option.bind_eq_some_iff.mp hspec
  obtain ⟨rfl, hn, rfl⟩ := Tape.take_some htake
  cases hpure
  obtain ⟨r, hrest, hlen⟩ := h.rest_take hn
  exact ⟨_, takeUint_of_rest h.length_lt hrest hlen, h.advance hn⟩

theorem lookNumber_implements (n : Nat) :
    Implements (Shows fixed) (lookUint n 0 0) (lookNumber n) := by
  intro b t v t' h hspec
  obtain ⟨⟨e, t₁⟩, hlook, hpure⟩ := Option.bind_eq_some_iff.mp hspec
  obtain ⟨rfl, hn, rfl⟩ := Tape.look_some hlook
  cases hpure
  obtain ⟨r, hrest, hlen⟩ := h.rest_take hn
  exact ⟨_, lookUint_of_rest (i := 0) h.length_lt hrest hlen, h⟩

theorem headerOf_append {first : UInt8} {r s : List UInt8}
    (h : headerWidth first ≤ r.length + 1) : headerOf first (r ++ s) = headerOf first r := by
  rw [headerOf, headerOf]
  split_ifs with h4
  · rw [headerWidth, if_pos h4] at h
    rw [List.take_append_of_le_length (by omega)]
  · rfl

theorem varValue_append {first : UInt8} {r s : List UInt8} (h : widthOf first ≤ r.length + 1) :
    varValue first (r ++ s) = varValue first r := by
  rw [varValue, varValue, List.take_append_of_le_length (by omega)]

theorem toNat_bne_zero (v : UInt8) : (v.toNat != 0) = (v != 0) := by
  rw [Bool.eq_iff_iff, bne_iff_ne, bne_iff_ne, ne_eq, ne_eq, ← UInt8.toNat_inj]
  rfl

theorem dybNextBool_eq : dybNextBool = (do return (← takeUint 1 0) != 0) := by
  simp only [dybNextBool, takeUint, bind_assoc, pure_bind, Nat.zero_shiftLeft, Nat.zero_or,
    toNat_bne_zero]

theorem dybPeekBool_eq : dybPeekBool = (do return (← lookUint 1 0 0) != 0) := by
  simp only [dybPeekBool, lookUint, bind_assoc, pure_bind, Nat.zero_shiftLeft, Nat.zero_or,
    toNat_bne_zero]

theorem nextHeader_implements : Implements (Shows fixed) dybNextTypdex nextHeader := by
  intro b t v t' h hspec
  obtain ⟨⟨⟨first, r⟩, t₁⟩, hword, hpure⟩ := Option.bind_eq_some_iff.mp hspec
  obtain ⟨hahead, hw, hn, rfl⟩ := Tape.takeWord_some hword
  cases hpure
  have hrest : rest b = first :: (r ++ b.data.drop b.limit) := by
    rw [h.rest_eq, hahead, List.cons_append]
  have hrun := dybNextTypdex_of_rest h.length_lt hrest
    (by rw [List.length_append]; omega)
  rw [headerOf_append hw] at hrun
  exact ⟨_, hrun, h.advance hn⟩

theorem lookHeader_implements : Implements (Shows fixed) dybPeekTypdex lookHeader := by
  intro b t v t' h hspec
  obtain ⟨⟨⟨first, r⟩, t₁⟩, hword, hpure⟩ := Option.bind_eq_some_iff.mp hspec
  obtain ⟨hahead, hw, rfl⟩ := Tape.lookWord_some hword
  cases hpure
  have hrest : rest b = first :: (r ++ b.data.drop b.limit) := by
    rw [h.rest_eq, hahead, List.cons_append]
  have hrun := dybPeekTypdex_of_rest h.length_lt hrest (by rw [List.length_append]; omega)
  rw [headerOf_append hw] at hrun
  exact ⟨b, hrun, h⟩

theorem nextVar_implements : Implements (Shows fixed) dybNextVarU64 nextVar := by
  intro b t v t' h hspec
  obtain ⟨⟨⟨first, r⟩, t₁⟩, hword, hpure⟩ := Option.bind_eq_some_iff.mp hspec
  obtain ⟨hahead, hw, hn, rfl⟩ := Tape.takeWord_some hword
  cases hpure
  have hrest : rest b = first :: (r ++ b.data.drop b.limit) := by
    rw [h.rest_eq, hahead, List.cons_append]
  have hrun := dybNextVarU64_of_rest h.length_lt hrest (by rw [List.length_append]; omega)
  rw [varValue_append hw] at hrun
  exact ⟨_, hrun, h.advance hn⟩

/-- The bytes behind a pointer that a reader gives. -/
theorem nextData_implements {len size : Nat} (hsize : len ≠ 0 → size ≤ len) :
    Implements (Shows fixed) (do answerData (← dybNextDataWithoutLen len) size)
      (specData len size) := by
  intro b t v t' h hspec
  have hlim : b.limit < 2 ^ 32 := h.ok.limit_le.trans_lt h.ok.capacity_lt
  obtain ⟨⟨bytes, t₁⟩, hnext, hpure⟩ := Option.bind_eq_some_iff.mp hspec
  cases hpure
  rw [nextData] at hnext
  split_ifs at hnext with hlt hnone
  · cases hnext
    refine ⟨b, ?_, h⟩
    rw [h.length_cells, h.position] at hnone
    rw [h.position] at hlt
    rw [bind_ok (dybNextDataWithoutLen_none (by rwa [uint_of_lt hlt]))]
    rfl
  · obtain ⟨⟨e, t₂⟩, htake, hmap⟩ := Option.bind_eq_some_iff.mp hnext
    cases hmap
    obtain ⟨rfl, hn, rfl⟩ := Tape.take_some htake
    obtain ⟨h0, hle⟩ := not_or.mp hnone
    rw [h.length_cells, h.position] at hn
    refine ⟨advance len b, ?_, h.advance _⟩
    rw [bind_ok (dybNextDataWithoutLen_some (Nat.pos_of_ne_zero h0) hn hlim)]
    obtain ⟨r, hrest, hlen⟩ := h.rest_take (by rw [h.length_cells, h.position]; exact hn)
    have hbytes : (b.data.drop b.position).take size = (t.ahead.take len).take size := by
      rw [← rest, hrest, List.take_append_of_le_length (by rw [hlen]; exact hsize h0)]
    have hdata : dataAt (some b.position) size (Next.advance len b) =
        .ok ((t.ahead.take len).take size, Next.advance len b) := by
      rw [← hbytes]
      rfl
    rw [answerData, bind_ok hdata]
    rfl

theorem Reader.run_implements (r : Reader) : Implements (Shows fixed) r.run r.spec := by
  induction r with
  | bool =>
    simp only [Reader.run, dybNextBool_eq, bind_assoc, pure_bind]
    exact (nextNumber_implements 1).map fun v => Answer.number (if v != 0 then 1 else 0)
  | uint n => exact (nextNumber_implements n).map _
  | typdex => exact nextHeader_implements.map _
  | varU64 => exact nextVar_implements.map _
  | varS64 =>
    rw [Reader.run, dybNextVarS64_eq, bind_assoc]
    exact nextVar_implements.map fun u => Answer.number (unzigzag u)
  | float host =>
    rw [Reader.run, dybNextFloat, bind_assoc]
    exact (nextNumber_implements 4).map fun v => Answer.number (dybSwapU32 host v)
  | double host =>
    rw [Reader.run, dybNextDouble, bind_assoc]
    exact (nextNumber_implements 8).map fun v => Answer.number (dybSwapU64 host v)
  | dataWithoutLen len => exact nextData_implements fun _ => le_rfl
  | dataWith1byteLen =>
    simp only [Reader.run, dybNextDataWith1byteLen, bind_assoc, pure_bind]
    exact (nextNumber_implements 1).bind fun len => nextData_implements fun _ => le_rfl
  | dataWith2bytesLen =>
    simp only [Reader.run, dybNextDataWith2bytesLen, bind_assoc, pure_bind]
    exact (nextNumber_implements 2).bind fun len => nextData_implements fun _ => le_rfl
  | dataWithVarLen =>
    simp only [Reader.run, dybNextDataWithVarLen, bind_assoc, pure_bind]
    exact nextVar_implements.bind fun len => nextData_implements fun _ => le_rfl
  | cstringWithVarLen =>
    simp only [Reader.run, dybNextCstringWithVarLen, bind_assoc, pure_bind]
    refine nextVar_implements.bind fun len => nextData_implements fun h0 => ?_
    rw [uintSub_of_le (Nat.one_le_iff_ne_zero.mpr h0) (uint_lt len)]
    exact Nat.sub_le _ _
  | peekBool =>
    simp only [Reader.run, dybPeekBool_eq, bind_assoc, pure_bind]
    exact (lookNumber_implements 1).map fun v => Answer.number (if v != 0 then 1 else 0)
  | peekUint n => exact (lookNumber_implements n).map _
  | peekTypdex => exact lookHeader_implements.map _
  | tagged value ih => exact nextHeader_implements.bind fun _ => ih

end Reading

section Changing

variable {fixed : Option Nat} {b b' : Dybuf} {t : Tape UInt8} {n : Nat}

theorem Shows.moved (h : Shows fixed b t) {p m : Nat} (hm : m ≤ p) (hp : p ≤ b.limit)
    {t' : Tape UInt8} (hcells : t'.cells = t.cells) (hposition : t'.position = p)
    (hmark : t'.mark = m) : Shows fixed { b with position := p, mark := m } t' where
  ok := ⟨hm, hp, h.ok.limit_le, h.ok.length_eq, h.ok.capacity_lt⟩
  cells := hcells.trans h.cells
  position := hposition
  mark := hmark
  fixed_eq := h.fixed_eq
  capacity := h.capacity

theorem Shows.flip (h : Shows fixed b t) : Shows fixed (dybFlip b) t.flip where
  ok := ⟨le_rfl, Nat.zero_le _, h.ok.position_le.trans h.ok.limit_le, h.ok.length_eq,
    h.ok.capacity_lt⟩
  cells := by
    have hcells : t.flip.cells = t.cells.take t.position := rfl
    rw [hcells, h.cells, h.position, List.take_take, Nat.min_eq_left h.ok.position_le]
    rfl
  position := rfl
  mark := rfl
  fixed_eq := h.fixed_eq
  capacity := h.capacity

theorem Shows.compact (h : Shows fixed b t) : Shows fixed (dybCompact b) t.compact := by
  have hahead : t.ahead = (b.data.drop b.position).take (b.limit - b.position) := by
    rw [Tape.ahead, h.cells, h.position, List.drop_take]
  have hlen : t.ahead.length = b.limit - b.position := by
    rw [Tape.length_ahead, h.length_cells, h.position]
  have hsub : uintSub b.limit b.position = b.limit - b.position :=
    uintSub_of_le h.ok.position_le (h.ok.limit_le.trans_lt h.ok.capacity_lt)
  by_cases h0 : b.position = 0
  · have hmark : b.mark = 0 := Nat.le_zero.mp (h0 ▸ h.ok.mark_le)
    have hcells : t.ahead = t.cells := by rw [Tape.ahead, h.position, h0, List.drop_zero]
    rw [dybCompact, if_pos h0]
    exact
      { ok := h.ok
        cells := hcells.trans h.cells
        position := h0.symm
        mark := hmark.symm
        fixed_eq := h.fixed_eq
        capacity := h.capacity }
  · have hok := dybCompact_ok h.ok
    rw [dybCompact, if_neg h0, hsub] at hok ⊢
    exact
      { ok := hok
        cells := by
          dsimp only
          rw [← hahead, List.take_left' hlen]
          rfl
        position := rfl
        mark := rfl
        fixed_eq := h.fixed_eq
        capacity := h.capacity }

theorem Shows.setCapacity (h : Shows none b t) (hn : t.cells.length ≤ n) (hlt : n < 2 ^ 32) :
    ∃ b', dybSetCapacity n b = (true, b') ∧ Shows none b' t := by
  have hok := dybSetCapacity_ok h.ok hlt
  have hlim := h.ok.limit_le
  have hp := h.ok.position_le
  have hm := h.ok.mark_le
  have hge := dybMemAlloc_ge n
  rw [h.length_cells] at hn
  have hf : b.fixedCapacity = false := h.fixed_eq
  rw [dybSetCapacity, hf, Bool.false_and, if_neg Bool.false_ne_true] at hok ⊢
  split_ifs at hok ⊢ with heq
  · exact ⟨b, rfl, h⟩
  · refine ⟨_, rfl, ?_⟩
    have hlimit : (if b.limit ≥ dybMemAlloc n true then dybMemAlloc n true else b.limit) =
        b.limit := by split_ifs <;> omega
    exact
      { ok := hok
        cells := by
          have hkept : b.limit ≤ min b.capacity (dybMemAlloc n true) :=
            Nat.le_min.mpr ⟨hlim, hn.trans hge⟩
          have htake : b.limit ≤ (b.data.take (min b.capacity (dybMemAlloc n true))).length := by
            rw [List.length_take, h.ok.length_eq]
            exact Nat.le_min.mpr ⟨hkept, hlim⟩
          dsimp only
          rw [hlimit, List.take_append_of_le_length htake, List.take_take,
            Nat.min_eq_left hkept]
          exact h.cells
        position := by
          dsimp only
          rw [h.position]
          split_ifs <;> omega
        mark := by
          dsimp only
          rw [h.mark]
          split_ifs <;> omega
        fixed_eq := rfl
        capacity := fun _ hc => by cases hc }

theorem Shows.setCapacity_fixed {c : Nat} (h : Shows (some c) b t) :
    dybSetCapacity n b = (n == c, b) := by
  have hf : b.fixedCapacity = true := h.fixed_eq
  rw [dybSetCapacity, hf, h.capacity c rfl, Bool.true_and]
  by_cases hn : n = c
  · rw [if_neg (by simpa using hn), if_pos hn, beq_iff_eq.mpr hn]
  · rw [if_pos (by simpa using hn), beq_eq_false_iff_ne.mpr hn]

theorem Shows.truncate (h : Shows fixed b t) (hn : n ≤ t.cells.length) :
    ∃ b', dybSetLimit n b = (true, b') ∧ Shows fixed b' (t.truncate n hn) := by
  have hle := hn
  rw [h.length_cells] at hle
  have hcap := hle.trans h.ok.limit_le
  have hok := dybSetLimit_ok h.ok (hcap.trans_lt h.ok.capacity_lt)
  rw [dybSetLimit, if_neg (Nat.not_lt.mpr hcap)] at hok ⊢
  refine ⟨_, rfl, ?_⟩
  exact
    { ok := hok
      cells := by
        have hcells : (t.truncate n hn).cells = t.cells.take n := rfl
        rw [hcells, h.cells, List.take_take, Nat.min_eq_left hle]
      position := by
        have hmin : (t.truncate n hn).position = min t.position n := rfl
        rw [hmin, h.position]
        dsimp only
        split_ifs <;> omega
      mark := by
        have hmin : (t.truncate n hn).mark = min t.mark n := rfl
        rw [hmin, h.mark]
        dsimp only
        split_ifs <;> omega
      fixed_eq := h.fixed_eq
      capacity := h.capacity }

theorem Shows.setLimit_fixed {c : Nat} (h : Shows (some c) b t) (hn : c < n) :
    dybSetLimit n b = (false, b) := by
  have hset : dybSetCapacity n b = (false, b) := by
    rw [h.setCapacity_fixed, beq_eq_false_iff_ne.mpr (Nat.ne_of_gt hn)]
  rw [dybSetLimit, h.capacity c rfl, if_pos hn, hset]
  rfl

theorem Shows.seek (h : Shows fixed b t) (hn : n ≤ t.cells.length) :
    ∃ b', dybSetPosition n b = (true, b') ∧ Shows fixed b' (t.seek n hn) := by
  have hle := hn
  rw [h.length_cells] at hle
  have hposition : (t.seek n hn).position = max t.mark n := rfl
  have hmark := h.mark
  rw [dybSetPosition, if_neg (Nat.not_lt.mpr hle)]
  split_ifs with hlt
  · exact ⟨_, rfl, h.moved le_rfl (h.ok.mark_le.trans h.ok.position_le) rfl (by omega) h.mark⟩
  · exact ⟨_, rfl, h.moved (Nat.not_lt.mp hlt) hle rfl (by omega) h.mark⟩

theorem Shows.write (h : Shows fixed b t) {e : List UInt8} (ha : Appended b e b') :
    Shows fixed b' (t.write e) where
  ok := ha.ok
  cells := by
    have hp := h.ok.position_le
    have hpos := ha.position_eq
    have hlim := ha.limit_eq
    have hwritten : (t.write e).cells =
        t.cells.take b.position ++ e ++ t.cells.drop b'.position := by
      rw [hpos, ← h.position]
      rfl
    have hbefore : t.cells.take b.position ++ e = (b'.data.take b'.limit).take b'.position := by
      rw [h.cells, List.take_take, Nat.min_eq_left hp, List.take_take,
        Nat.min_eq_left (by omega), ha.written]
    have hafter : t.cells.drop b'.position = (b'.data.take b'.limit).drop b'.position := by
      apply List.ext_getElem?
      intro i
      rw [h.cells, List.getElem?_drop, List.getElem?_drop, List.getElem?_take,
        List.getElem?_take]
      by_cases hi : b'.position + i < b.limit
      · rw [if_pos hi, if_pos (by omega), ha.kept _ (by omega) hi]
      · rw [if_neg hi, if_neg (by omega)]
    rw [hwritten, hbefore, hafter, List.take_append_drop]
  position := by
    rw [ha.position_eq, ← h.position]
    rfl
  mark := h.mark.trans ha.mark_eq.symm
  fixed_eq := ha.fixed_eq.trans h.fixed_eq
  capacity c hc := by
    rw [ha.fixed_capacity (h.fixed_eq.trans (by rw [hc]; rfl))]
    exact h.capacity c hc

theorem change_run {m : Mutation} {ok : Bool} (h : m.run b = .ok (ok, b')) :
    (Call.change m).run b = .ok (.done ok, b') := by
  have hrun : (Call.change m).run b = (m.run b).map fun r => (.done r.1, r.2) := rfl
  rw [hrun, h]
  rfl

theorem change_implements (m : Mutation) :
    Implements (Shows fixed) (Call.change m).run (specChange fixed m) := by
  intro b t answer t' h hspec
  cases m with
  | setCapacity n =>
    cases fixed with
    | some c =>
      cases hspec
      exact ⟨b, change_run (congrArg Except.ok h.setCapacity_fixed), h⟩
    | none =>
      simp only [specChange] at hspec
      split_ifs at hspec with hn
      cases hspec
      obtain ⟨b', hrun, hshows⟩ := h.setCapacity hn.1 hn.2
      exact ⟨b', change_run (congrArg Except.ok hrun), hshows⟩
  | setLimit n =>
    simp only [specChange] at hspec
    split_ifs at hspec with hn hc
    · cases hspec
      obtain ⟨b', hrun, hshows⟩ := h.truncate hn
      exact ⟨b', change_run (congrArg Except.ok hrun), hshows⟩
    · cases hspec
      obtain ⟨c, rfl, hlt⟩ := hc
      exact ⟨b, change_run (congrArg Except.ok (h.setLimit_fixed hlt)), h⟩
  | setPosition n =>
    simp only [specChange] at hspec
    split_ifs at hspec with hn
    · cases hspec
      obtain ⟨b', hrun, hshows⟩ := h.seek hn
      exact ⟨b', change_run (congrArg Except.ok hrun), hshows⟩
    · cases hspec
      rw [h.length_cells] at hn
      have hrun : dybSetPosition n b = (false, b) := by
        rw [dybSetPosition, if_pos (Nat.not_le.mp hn)]
      exact ⟨b, change_run (congrArg Except.ok hrun), h⟩
  | compact =>
    cases hspec
    exact ⟨_, rfl, h.compact⟩
  | mark =>
    cases hspec
    exact ⟨_, rfl, h.moved le_rfl h.ok.position_le rfl h.position h.position⟩
  | reset =>
    cases hspec
    exact ⟨_, rfl, h.moved le_rfl (h.ok.mark_le.trans h.ok.position_le) rfl h.mark h.mark⟩
  | clear => cases hspec
  | flip =>
    cases hspec
    exact ⟨_, rfl, h.flip⟩
  | rewind =>
    cases hspec
    exact ⟨_, rfl, h.moved le_rfl (Nat.zero_le _) rfl rfl rfl⟩
  | append call =>
    simp only [specChange] at hspec
    split_ifs at hspec with hfit
    cases hspec
    have hroom : Room b call.bytes.length := by
      rw [h.position] at hfit
      cases fixed with
      | none =>
        have hf : b.fixedCapacity = false := h.fixed_eq
        rw [Option.getD_none] at hfit
        exact ⟨by omega, fun hc => by rw [hf] at hc; cases hc⟩
      | some c =>
        rw [Option.getD_some, ← h.capacity c rfl] at hfit
        exact ⟨hfit.trans_lt h.ok.capacity_lt, fun _ => hfit⟩
    obtain ⟨b', hrun, happended⟩ := call.run_writes.ok b h.ok hroom
    refine ⟨b', change_run ?_, h.write happended⟩
    rw [Mutation.run, hrun]
    rfl

theorem Call.run_implements (c : Call) : Implements (Shows fixed) c.run (c.spec fixed) := by
  cases c with
  | change m => exact change_implements m
  | read reader => exact reader.run_implements
  | remainder =>
    intro b t answer t' h hspec
    cases hspec
    have hsub : dybGetRemainder b = b.limit - b.position :=
      uintSub_of_le h.ok.position_le (h.ok.limit_le.trans_lt h.ok.capacity_lt)
    refine ⟨b, ?_, h⟩
    rw [Tape.length_ahead, h.length_cells, h.position, ← hsub]
    rfl

theorem Client.run_implements (c : Client) :
    Implements (Shows fixed) c.run (c.spec fixed) := by
  induction c with
  | stop => exact .pure []
  | call c next ih => exact c.run_implements.bind fun answer => (ih answer).map (answer :: ·)

end Changing

section Windows

theorem Begins.shows {fixed : Option Nat} {b : Dybuf} {t : Tape UInt8} (h : Begins fixed b t) :
    Shows fixed b t := by
  cases h with
  | create h =>
    exact
      { ok := dybCreate_ok h
        cells := (List.take_zero).symm
        position := rfl
        mark := rfl
        fixed_eq := rfl
        capacity := fun _ hc => by cases hc }
  | @copy data hlt noCopy =>
    have hmade : Made (dybCopy (some data) data.length noCopy) :=
      .copy hlt fun d hd => by
        obtain rfl := Option.some.inj hd
        exact ⟨le_rfl, fun _ => rfl⟩
    have hok := hmade.ok
    cases noCopy with
    | true => exact ⟨hok.1, List.take_length.symm, rfl, rfl, hok.2, fun _ hc => by cases hc⟩
    | false =>
      refine ⟨hok.1, ?_, rfl, rfl, hok.2, fun _ hc => by cases hc⟩
      have hdata : (dybCopy (some data) data.length false).data =
          data ++ List.replicate (dybMemAlloc data.length true - data.length) 0 :=
        congrArg (· ++ _) List.take_length
      exact (hdata ▸ List.take_left' rfl).symm
  | @refer data hlt forWrite b hb =>
    obtain ⟨b', hb', hok, -⟩ := dybRefer_ok hlt forWrite
    obtain rfl := Option.some.inj (hb.symm.trans hb')
    cases hb
    have hcap : ∀ c ∈ some data.length, data.length = c := fun c hc => Option.some.inj hc
    cases forWrite with
    | true => exact ⟨hok, List.take_zero.symm, rfl, rfl, rfl, hcap⟩
    | false => exact ⟨hok, List.take_length.symm, rfl, rfl, rfl, hcap⟩

/-- Whatever calls a client makes, and however it chooses them, as long as it reads no byte past
the limit and brings none there, a buffer answers like the bytes up to its limit: neither the
size of its memory nor what lies in it beyond ever shows. -/
theorem client_sees_window {fixed : Option Nat} {b : Dybuf} {t t' : Tape UInt8}
    (h : Begins fixed b t) (c : Client) {answers : List Answer}
    (hspec : c.spec fixed t = some (answers, t')) :
    ∃ b', c.run b = .ok (answers, b') ∧ Shows fixed b' t' :=
  c.run_implements b t answers t' h.shows hspec

def readAnnounced : Answer → Client
  | .header type _ =>
    if type = dypeInt then .call (.read (.tagged .varS64)) fun _ => .stop else .stop
  | _ => .stop

def sampleClient : Client :=
  .call (.change (.append (.dypInt 300 (-2)))) fun _ => .call (.change .flip) fun _ =>
    .call (.read .peekTypdex) readAnnounced

theorem client_sees_window_sample :
    ∃ b' t', sampleClient.run (dybCreate 40) =
        .ok ([.done true, .done true, .header dypeInt 300, .number (-2)], b') ∧
      Shows none b' t' := by
  have hspec : sampleClient.spec none Tape.blank =
      some ([.done true, .done true, .header dypeInt 300, .number (-2)],
        ⟨[0xC0, 0x41, 0x2C, 3], 4, 0, by decide, by decide⟩) := by
    decide
  have hbegins : Begins none (dybCreate 40) Tape.blank := .create (by decide)
  obtain ⟨b', hrun, hshows⟩ := client_sees_window hbegins sampleClient hspec
  exact ⟨b', _, hrun, hshows⟩

end Windows

end LcClibs.Packet.Windows
