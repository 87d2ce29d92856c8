import Mathlib
import LcClibs.Lib.BigEndian
import LcClibs.Buffer.Cursor

namespace LcClibs.Buffer.Append

open Platform Lib.BigEndian Buffer.Cursor

section Integers

def putUint : Nat → Nat → DybM Unit
  | 0, _ => pure ()
  | n + 1, v => do
    putByte (UInt8.ofNat (v >>> (8 * n)))
    putUint n v

def appendUint (n v : Nat) : DybM Unit := do
  reserve n
  putUint n v

def dybAppendU8 (value : Nat) : DybM Unit := appendUint 1 value
def dybAppendU16 (value : Nat) : DybM Unit := appendUint 2 value
def dybAppendU24 (value : Nat) : DybM Unit := appendUint 3 value
def dybAppendU32 (value : Nat) : DybM Unit := appendUint 4 value
def dybAppendU40 (value : Nat) : DybM Unit := appendUint 5 value
def dybAppendU48 (value : Nat) : DybM Unit := appendUint 6 value
def dybAppendU56 (value : Nat) : DybM Unit := appendUint 7 value
def dybAppendU64 (value : Nat) : DybM Unit := appendUint 8 value

def dybAppendBool (value : Bool) : DybM Unit := appendUint 1 (if value then 1 else 0)

end Integers

section Data

/-- A pointer and its length are one list; the length is a `uint`. -/
def dybAppendDataWith1byteLen (data : List UInt8) : DybM Unit := do
  let length := uint data.length &&& 0x00ff
  reserve (length + 1)
  putByte (UInt8.ofNat length)
  if length > 0 then
    copyIn (data.take length)

def dybAppendDataWith2bytesLen (data : List UInt8) : DybM Unit := do
  let length := uint data.length &&& 0x00ffff
  reserve (length + 2)
  putByte (UInt8.ofNat (length >>> 8))
  putByte (UInt8.ofNat length)
  if length > 0 then
    copyIn (data.take length)

def dybAppendDataWithoutLen (data : List UInt8) : DybM Unit := do
  let length := uint data.length
  reserve length
  if length > 0 then
    copyIn (data.take length)

def dybAppendStructure (structure_ : List UInt8) : DybM Unit :=
  dybAppendDataWithoutLen structure_

end Data

def putBytes : List UInt8 → DybM Unit
  | [] => pure ()
  | v :: e => do
    putByte v
    putBytes e

/-- What an append that succeeds leaves behind: the new bytes follow the old
ones, the rest of the old contents stays, and the cursors move by the length. -/
structure Appended (b : Dybuf) (e : List UInt8) (b' : Dybuf) : Prop where
  position_eq : b'.position = b.position + e.length
  limit_eq : b'.limit = max b.limit (b.position + e.length)
  mark_eq : b'.mark = b.mark
  fixed_eq : b'.fixedCapacity = b.fixedCapacity
  fixed_capacity : b.fixedCapacity = true → b'.capacity = b.capacity
  written : b'.data.take b'.position = b.data.take b.position ++ e
  kept : ∀ i, b.position + e.length ≤ i → i < b.limit → b'.data[i]? = b.data[i]?
  ok : b'.Ok

/-- There is room for `n` more bytes: a fixed memory has them, and the end
offset stays a `uint`. -/
def Room (b : Dybuf) (n : Nat) : Prop :=
  b.position + n < 2 ^ 32 ∧ (b.fixedCapacity = true → b.position + n ≤ b.capacity)

/-- A test for room followed by the writing of a byte string. -/
def appendChunk (e : List UInt8) : DybM Unit := do
  reserve e.length
  putBytes e

theorem Room.mono {b : Dybuf} {m n : Nat} (h : Room b n) (hm : m ≤ n) : Room b m :=
  ⟨by have := h.1; omega, fun hf => by have := h.2 hf; omega⟩

theorem Appended.room {b b' : Dybuf} {e : List UInt8} {n : Nat} (h : Appended b e b')
    (hr : Room b (e.length + n)) : Room b' n := by
  refine ⟨by rw [h.position_eq]; have := hr.1; omega, fun hf => ?_⟩
  rw [h.fixed_eq] at hf
  rw [h.position_eq, h.fixed_capacity hf]
  have := hr.2 hf
  omega

theorem Appended.nil {b : Dybuf} (hok : b.Ok) : Appended b [] b where
  position_eq := by simp
  limit_eq := by have := hok.position_le; simp; omega
  mark_eq := rfl
  fixed_eq := rfl
  fixed_capacity _ := rfl
  written := by simp
  kept _ _ _ := rfl
  ok := hok

theorem Appended.trans {b b' b'' : Dybuf} {e f : List UInt8} (h : Appended b e b')
    (h' : Appended b' f b'') : Appended b (e ++ f) b'' where
  position_eq := by rw [h'.position_eq, h.position_eq, List.length_append]; omega
  limit_eq := by
    rw [h'.limit_eq, h.limit_eq, h.position_eq, List.length_append]
    omega
  mark_eq := h'.mark_eq.trans h.mark_eq
  fixed_eq := h'.fixed_eq.trans h.fixed_eq
  fixed_capacity hf := (h'.fixed_capacity (h.fixed_eq.trans hf)).trans (h.fixed_capacity hf)
  written := by rw [h'.written, h.written, List.append_assoc]
  kept i hi hl := by
    rw [List.length_append] at hi
    rw [h'.kept i (by rw [h.position_eq]; omega) (by rw [h.limit_eq]; omega)]
    exact h.kept i (by omega) hl
  ok := h'.ok

theorem putUint_eq_putBytes (n v : Nat) : putUint n v = putBytes (toBytes n v) := by
  induction n with
  | zero => rfl
  | succ n ih => rw [putUint, toBytes, putBytes, ih]

theorem appendUint_eq_chunk (n v : Nat) : appendUint n v = appendChunk (toBytes n v) := by
  rw [appendUint, appendChunk, toBytes_length, putUint_eq_putBytes]

def splice (data : List UInt8) (p : Nat) (e : List UInt8) : List UInt8 :=
  data.take p ++ e ++ data.drop (p + e.length)

theorem splice_length {data e : List UInt8} {p : Nat} (h : p + e.length ≤ data.length) :
    (splice data p e).length = data.length := by
  simp only [splice, List.length_append, List.length_take, List.length_drop]
  omega

theorem splice_take {data e : List UInt8} {p : Nat} (h : p + e.length ≤ data.length) :
    (splice data p e).take (p + e.length) = data.take p ++ e := by
  have hl : (data.take p ++ e).length = p + e.length := by
    simp only [List.length_append, List.length_take]
    omega
  rw [splice, ← hl, List.take_left]

theorem splice_getElem? {data e : List UInt8} {p i : Nat} (h : p + e.length ≤ data.length)
    (hi : p + e.length ≤ i) : (splice data p e)[i]? = data[i]? := by
  have hl : (data.take p ++ e).length = p + e.length := by
    simp only [List.length_append, List.length_take]
    omega
  rw [splice, List.getElem?_append_right (by omega), hl, List.getElem?_drop]
  congr 1
  omega

theorem splice_cons {data e : List UInt8} {v : UInt8} {p : Nat} (h : p < data.length) :
    splice (data.set p v) (p + 1) e = splice data p (v :: e) := by
  have ht : (data.set p v).take (p + 1) = data.take p ++ [v] := by
    rw [List.take_succ_eq_append_getElem (by simpa using h), List.getElem_set_self, List.take_set,
      List.set_eq_of_length_le (by simp)]
  have hd : (data.set p v).drop (p + 1 + e.length) = data.drop (p + 1 + e.length) := by
    rw [List.drop_set_of_lt (by omega)]
  rw [splice, splice, ht, hd, List.length_cons, Nat.add_assoc, Nat.add_comm 1 e.length]
  simp

theorem putBytes_ok {b : Dybuf} {e : List UInt8} (hlt : b.data.length < 2 ^ 32)
    (h : b.position + e.length ≤ b.data.length) :
    putBytes e b = .ok ((), { b with
      data := splice b.data b.position e
      position := b.position + e.length }) := by
  induction e generalizing b with
  | nil => simp [putBytes, splice]
  | cons v e ih =>
    rw [List.length_cons] at h
    have hp : b.position < b.data.length := by omega
    have hu : uint (b.position + 1) = b.position + 1 := uint_of_lt (by omega)
    have hput : putByte v b = .ok ((), { b with
        data := b.data.set b.position v
        position := b.position + 1 }) := by
      rw [putByte, if_pos hp, hu]
    rw [putBytes, bind_ok hput, ih (by simpa using hlt) (by simp only [List.length_set]; omega)]
    simp only [splice_cons hp, List.length_cons, Except.ok.injEq, Prod.mk.injEq, true_and]
    congr 1
    omega

theorem putBytes_fault {b : Dybuf} {e : List UInt8} (hlt : b.data.length < 2 ^ 32)
    (hp : b.position ≤ b.data.length) (h : b.data.length < b.position + e.length) :
    putBytes e b = .error (.writeOutside b.data.length) := by
  induction e generalizing b with
  | nil =>
    rw [List.length_nil] at h
    omega
  | cons v e ih =>
    rw [List.length_cons] at h
    by_cases hlast : b.position = b.data.length
    · have hput : putByte v b = .error (.writeOutside b.position) := by
        rw [putByte, if_neg (by omega)]
      rw [putBytes, bind_error hput, hlast]
    · have hu : uint (b.position + 1) = b.position + 1 := uint_of_lt (by omega)
      have hput : putByte v b = .ok ((), { b with
          data := b.data.set b.position v
          position := b.position + 1 }) := by
        rw [putByte, if_pos (by omega), hu]
      rw [putBytes, bind_ok hput, ih (by simpa using hlt) (by simp only [List.length_set]; omega)
        (by simp only [List.length_set]; omega)]
      simp

theorem copyIn_ok {b : Dybuf} {e : List UInt8} (hlt : b.data.length < 2 ^ 32)
    (h : b.position + e.length ≤ b.data.length) : copyIn e b = putBytes e b := by
  rw [putBytes_ok hlt h, copyIn, if_pos h, uint_of_lt (by omega), splice]

theorem copyIn_fault {b : Dybuf} {e : List UInt8} (hp : b.position ≤ b.data.length)
    (h : b.data.length < b.position + e.length) :
    copyIn e b = .error (.writeOutside b.data.length) := by
  rw [copyIn, if_neg (by omega), Nat.max_eq_right hp]

/-- The effect of the test for room when there is room: only the limit moves,
and the memory may have been replaced by a larger one with the same contents. -/
structure Reserved (b : Dybuf) (n : Nat) (b' : Dybuf) : Prop where
  position_eq : b'.position = b.position
  limit_eq : b'.limit = max b.limit (b.position + n)
  mark_eq : b'.mark = b.mark
  fixed_eq : b'.fixedCapacity = b.fixedCapacity
  fixed_capacity : b.fixedCapacity = true → b'.capacity = b.capacity
  data_eq : ∃ zs, b'.data = b.data ++ zs
  ok : b'.Ok

theorem dybSetLimit_grow {b : Dybuf} {n : Nat} (hok : b.Ok) (hn : b.limit < n)
    (hlt : n < 2 ^ 32) (hroom : b.fixedCapacity = true → n ≤ b.capacity) :
    Reserved b (n - b.position) (dybSetLimit n b).2 := by
  have hm := hok.mark_le
  have hp := hok.position_le
  have hl := hok.limit_le
  have hd := hok.length_eq
  have hc := hok.capacity_lt
  by_cases hcap : n > b.capacity
  · have hfix : b.fixedCapacity = false := by
      by_contra hf
      have := hroom (by simpa using hf)
      omega
    have hne : n ≠ b.capacity := by omega
    have hmax : dybMemAlloc n true = max cacheSizeUnit n := rfl
    have hge : n ≤ max cacheSizeUnit n := Nat.le_max_right _ _
    have h16 : max cacheSizeUnit n < 2 ^ 32 := by unfold cacheSizeUnit; omega
    have hmin : min b.capacity (max cacheSizeUnit n) = b.capacity := Nat.min_eq_left (by omega)
    have htake : b.data.take b.capacity = b.data := by rw [← hd, List.take_length]
    simp only [dybSetLimit, hcap, if_true, dybSetCapacity, hfix, Bool.false_and,
      Bool.false_eq_true, if_false, hne, hmax, hmin, htake,
      if_neg (show ¬b.limit ≥ max cacheSizeUnit n by omega),
      if_neg (show ¬b.position ≥ max cacheSizeUnit n by omega),
      if_neg (show ¬b.mark ≥ max cacheSizeUnit n by omega),
      if_neg (show ¬b.mark > n by omega), if_neg (show ¬b.position > n by omega)]
    exact
      { position_eq := rfl
        limit_eq := by simp only; omega
        mark_eq := rfl
        fixed_eq := hfix.symm
        fixed_capacity := fun hf => by rw [hfix] at hf; cases hf
        data_eq := ⟨_, rfl⟩
        ok :=
          { mark_le := hm
            position_le := by simp only; omega
            limit_le := hge
            length_eq := by simp only [List.length_append, List.length_replicate]; omega
            capacity_lt := h16 } }
  · simp only [dybSetLimit, hcap, if_false, if_true,
      if_neg (show ¬b.mark > n by omega), if_neg (show ¬b.position > n by omega)]
    exact
      { position_eq := rfl
        limit_eq := by simp only; omega
        mark_eq := rfl
        fixed_eq := rfl
        fixed_capacity := fun _ => rfl
        data_eq := ⟨[], by simp⟩
        ok :=
          { mark_le := hm
            position_le := by simp only; omega
            limit_le := by simp only; omega
            length_eq := hd
            capacity_lt := hc } }

theorem reserve_ok {b : Dybuf} {n : Nat} (hok : b.Ok) (hr : Room b n) :
    ∃ b', reserve n b = .ok ((), b') ∧ Reserved b n b' := by
  have hu : uint (b.position + n) = b.position + n := uint_of_lt hr.1
  have hp := hok.position_le
  by_cases hlim : b.position + n > b.limit
  · have hg := dybSetLimit_grow (n := b.position + n) hok (by omega) hr.1 hr.2
    rw [Nat.add_sub_cancel_left] at hg
    exact ⟨_, by rw [reserve, hu, if_pos hlim], hg⟩
  · refine ⟨b, by rw [reserve, hu, if_neg hlim], ?_⟩
    exact
      { position_eq := rfl
        limit_eq := by omega
        mark_eq := rfl
        fixed_eq := rfl
        fixed_capacity := fun _ => rfl
        data_eq := ⟨[], by simp⟩
        ok := hok }

/-- On a fixed memory the test for room never touches the bytes nor the position. -/
theorem reserve_fixed {b : Dybuf} {n : Nat} (hok : b.Ok) (hf : b.fixedCapacity = true) :
    ∃ b', reserve n b = .ok ((), b') ∧ b'.data = b.data ∧ b'.position = b.position := by
  have hp := hok.position_le
  by_cases hlim : uint (b.position + n) > b.limit
  · refine ⟨_, by rw [reserve, if_pos hlim], ?_⟩
    by_cases hcap : uint (b.position + n) > b.capacity
    · have hne : (uint (b.position + n) != b.capacity) = true := by
        simp only [bne_iff_ne]
        omega
      simp [dybSetLimit, dybSetCapacity, hcap, hf, hne]
    · simp only [dybSetLimit, hcap, if_false, if_true,
        if_neg (show ¬b.position > uint (b.position + n) by omega), and_self]
  · exact ⟨b, by rw [reserve, if_neg hlim], rfl, rfl⟩

/-- An end offset that wraps around leaves the memory shorter than it. -/
theorem reserve_wraps {b : Dybuf} {n : Nat} (hok : b.Ok) (hf : b.fixedCapacity = false)
    (h : 2 ^ 32 ≤ b.position + n) :
    ∃ b', reserve n b = .ok ((), b') ∧ b'.data.length < b.position + n ∧
      b'.data.length < 2 ^ 32 ∧ b'.position = b.position ∧ b'.position ≤ b'.data.length := by
  have hp := hok.position_le
  have hl := hok.limit_le
  have hc := hok.capacity_lt
  have hd := hok.length_eq
  by_cases hlim : uint (b.position + n) > b.limit
  · have hg := dybSetLimit_grow hok hlim (uint_lt _) fun hfix => by rw [hf] at hfix; cases hfix
    have hd' := hg.ok.length_eq
    have hc' := hg.ok.capacity_lt
    have hp' := hg.ok.position_le
    have hl' := hg.ok.limit_le
    exact ⟨_, by rw [reserve, if_pos hlim], by omega, by omega, hg.position_eq, by omega⟩
  · exact ⟨b, by rw [reserve, if_neg hlim], by omega, by omega, rfl, by omega⟩

theorem Reserved.appended {b b' : Dybuf} {e : List UInt8} (h : Reserved b e.length b')
    (hok : b.Ok) :
    Appended b e { b' with
      data := splice b'.data b'.position e
      position := b'.position + e.length } := by
  obtain ⟨zs, hz⟩ := h.data_eq
  have hfit : b'.position + e.length ≤ b'.data.length := by
    rw [h.ok.length_eq, h.position_eq]
    have := h.ok.limit_le
    rw [h.limit_eq] at this
    omega
  have hplen : b.position ≤ b.data.length := by
    have := hok.position_le
    have := hok.limit_le
    rw [hok.length_eq]
    omega
  exact
    { position_eq := by rw [h.position_eq]
      limit_eq := h.limit_eq
      mark_eq := h.mark_eq
      fixed_eq := h.fixed_eq
      fixed_capacity := h.fixed_capacity
      written := by
        rw [splice_take hfit, hz, h.position_eq, List.take_append_of_le_length hplen]
      kept := fun i hi hl => by
        have hlen : i < b.data.length := by
          have := hok.limit_le
          rw [hok.length_eq]
          omega
        rw [splice_getElem? hfit (by rw [h.position_eq]; exact hi), hz,
          List.getElem?_append_left hlen]
      ok :=
        { mark_le := by
            have := h.ok.mark_le
            simp only
            omega
          position_le := by
            simp only
            rw [h.limit_eq, h.position_eq]
            omega
          limit_le := h.ok.limit_le
          length_eq := by rw [splice_length hfit, h.ok.length_eq]
          capacity_lt := h.ok.capacity_lt } }

/-- A computation that appends a fixed byte string: it does so whenever there
is room, and otherwise it writes outside the memory. -/
structure Writes {α : Type} (m : DybM α) (a : α) (e : List UInt8) : Prop where
  ok : ∀ b, b.Ok → Room b e.length → ∃ b', m b = .ok (a, b') ∧ Appended b e b'
  fault : ∀ b, b.Ok → ¬Room b e.length → ∃ off, m b = .error (.writeOutside off)

theorem Room.zero {b : Dybuf} (hok : b.Ok) : Room b 0 := by
  have := hok.position_le
  have := hok.limit_le
  have := hok.capacity_lt
  exact ⟨by omega, fun _ => by omega⟩

theorem Appended.not_room {b b' : Dybuf} {e : List UInt8} {n : Nat} (h : Appended b e b')
    (hn : ¬Room b (e.length + n)) : ¬Room b' n := by
  intro hroom
  have h1 := hroom.1
  rw [h.position_eq] at h1
  refine hn ⟨by omega, fun hf => ?_⟩
  have h2 := hroom.2 (h.fixed_eq.trans hf)
  rw [h.position_eq, h.fixed_capacity hf] at h2
  omega

theorem Writes.nothing {α : Type} (a : α) : Writes (pure a : DybM α) a [] where
  ok b hok _ := ⟨b, rfl, Appended.nil hok⟩
  fault _ hok h := absurd (Room.zero hok) h

theorem Writes.bind {α β : Type} {m : DybM α} {f : α → DybM β} {a : α} {c : β}
    {e e' : List UInt8} (hm : Writes m a e) (hf : Writes (f a) c e') :
    Writes (m >>= f) c (e ++ e') where
  ok b hok hr := by
    rw [List.length_append] at hr
    obtain ⟨b1, h1, ha1⟩ := hm.ok b hok (hr.mono (by omega))
    obtain ⟨b2, h2, ha2⟩ := hf.ok b1 ha1.ok (ha1.room hr)
    exact ⟨b2, by rw [bind_ok h1, h2], ha1.trans ha2⟩
  fault b hok h := by
    rw [List.length_append] at h
    by_cases hfit : Room b e.length
    · obtain ⟨b1, h1, ha1⟩ := hm.ok b hok hfit
      obtain ⟨off, h2⟩ := hf.fault b1 ha1.ok (ha1.not_room h)
      exact ⟨off, by rw [bind_ok h1, h2]⟩
    · obtain ⟨off, h1⟩ := hm.fault b hok hfit
      exact ⟨off, bind_error h1⟩

theorem Writes.thenPure {α : Type} {m : DybM Unit} {e : List UInt8} (hm : Writes m () e) (a : α) :
    Writes (do m; return a) a e := by
  have h := hm.bind (f := fun _ => (pure a : DybM α)) (Writes.nothing a)
  rwa [List.append_nil] at h

/-- A test for room followed by any computation that puts down exactly the
bytes tested for. -/
theorem Writes.reserve {e : List UInt8} {m : DybM Unit}
    (hm : ∀ b, b.data.length < 2 ^ 32 → b.position ≤ b.data.length →
      (b.position + e.length ≤ b.data.length → m b = putBytes e b) ∧
      (b.data.length < b.position + e.length → ∃ off, m b = .error (.writeOutside off))) :
    Writes (do reserve e.length; m) () e where
  ok b hok hr := by
    obtain ⟨b1, h1, hres⟩ := reserve_ok hok hr
    have hlen := hres.ok.length_eq
    have hcap := hres.ok.capacity_lt
    have hlim := hres.ok.limit_le
    have hle := hres.limit_eq
    have hpos := hres.position_eq
    obtain ⟨hput, -⟩ := hm b1 (by omega) (by omega)
    refine ⟨_, ?_, hres.appended hok⟩
    rw [bind_ok h1, hput (by omega), putBytes_ok (by omega) (by omega)]
  fault b hok h := by
    have hlen := hok.length_eq
    have hcap := hok.capacity_lt
    have hlim := hok.limit_le
    have hpos := hok.position_le
    cases hfix : b.fixedCapacity with
    | true =>
      obtain ⟨b1, h1, hd, hp⟩ := reserve_fixed (n := e.length) hok hfix
      obtain ⟨-, hbad⟩ := hm b1 (by rw [hd]; omega) (by rw [hd, hp]; omega)
      have hout : b.capacity < b.position + e.length := by
        by_contra hin
        exact h ⟨by omega, fun _ => by omega⟩
      obtain ⟨off, ho⟩ := hbad (by rw [hd, hp]; omega)
      exact ⟨off, by rw [bind_ok h1, ho]⟩
    | false =>
      have hout : 2 ^ 32 ≤ b.position + e.length := by
        by_contra hin
        exact h ⟨by omega, fun hf => by rw [hfix] at hf; cases hf⟩
      obtain ⟨b1, h1, hd, hlt, hp, hle⟩ := reserve_wraps hok hfix hout
      obtain ⟨off, ho⟩ := (hm b1 hlt hle).2 (by omega)
      exact ⟨off, by rw [bind_ok h1, ho]⟩

theorem appendChunk_writes (e : List UInt8) : Writes (appendChunk e) () e :=
  Writes.reserve fun _ hlt hp => ⟨fun _ => rfl, fun h => ⟨_, putBytes_fault hlt hp h⟩⟩

theorem appendUint_writes (n v : Nat) : Writes (appendUint n v) () (toBytes n v) := by
  rw [appendUint_eq_chunk]
  exact appendChunk_writes _

theorem putBytes_append (e f : List UInt8) :
    putBytes (e ++ f) = (do putBytes e; putBytes f) := by
  induction e with
  | nil => rfl
  | cons v e ih => simp only [List.cons_append, putBytes, ih, bind_assoc]

theorem putBytes_copyIn {e f : List UInt8} (b : Dybuf) (hlt : b.data.length < 2 ^ 32)
    (hp : b.position ≤ b.data.length) :
    (b.position + (e ++ f).length ≤ b.data.length →
      (do putBytes e; if f.length > 0 then copyIn f) b = putBytes (e ++ f) b) ∧
    (b.data.length < b.position + (e ++ f).length →
      ∃ off, (do putBytes e; if f.length > 0 then copyIn f : DybM Unit) b =
        .error (.writeOutside off)) := by
  rw [List.length_append, putBytes_append]
  by_cases hfit : b.position + e.length ≤ b.data.length
  · have he := putBytes_ok hlt hfit
    have hlen := splice_length hfit
    constructor
    · intro h
      rw [bind_ok he, bind_ok he]
      by_cases hf : f.length > 0
      · rw [if_pos hf, copyIn_ok (by simpa only [hlen] using hlt) (by simp only [hlen]; omega)]
      · rw [if_neg hf, List.length_eq_zero_iff.mp (by omega : f.length = 0), putBytes]
    · intro h
      refine ⟨(splice b.data b.position e).length, ?_⟩
      rw [bind_ok he, if_pos (by omega),
        copyIn_fault (by simp only [hlen]; omega) (by simp only [hlen]; omega)]
  · constructor
    · intro h
      omega
    · intro _
      exact ⟨_, bind_error (putBytes_fault hlt hp (by omega))⟩

section Encodings

theorem dybAppendBool_writes (value : Bool) :
    Writes (dybAppendBool value) () [if value then 1 else 0] := by
  have h := appendUint_writes 1 (if value then 1 else 0)
  cases value <;> exact h

theorem dybAppendDataWith1byteLen_writes (data : List UInt8) :
    Writes (dybAppendDataWith1byteLen data) ()
      (toBytes 1 (data.length % 256) ++ data.take (data.length % 256)) := by
  have hl : uint data.length &&& 0x00ff = data.length % 256 := by
    rw [uint, show (0xff : Nat) = 2 ^ 8 - 1 from rfl, Nat.and_two_pow_sub_one_eq_mod]
    omega
  have hlen : (data.take (data.length % 256)).length = data.length % 256 := by
    rw [List.length_take, Nat.min_eq_left (Nat.mod_le _ _)]
  have h := Writes.reserve (e := toBytes 1 (data.length % 256) ++ data.take (data.length % 256))
    (m := do putBytes (toBytes 1 (data.length % 256))
             if (data.take (data.length % 256)).length > 0 then
               copyIn (data.take (data.length % 256)))
    (fun b hlt hp => putBytes_copyIn b hlt hp)
  rw [List.length_append, toBytes_length, hlen, Nat.add_comm] at h
  simpa only [dybAppendDataWith1byteLen, hl, toBytes, putBytes, Nat.mul_zero, Nat.shiftRight_zero,
    bind_assoc, pure_bind] using h

theorem dybAppendDataWith2bytesLen_writes (data : List UInt8) :
    Writes (dybAppendDataWith2bytesLen data) ()
      (toBytes 2 (data.length % 65536) ++ data.take (data.length % 65536)) := by
  have hl : uint data.length &&& 0x00ffff = data.length % 65536 := by
    rw [uint, show (0xffff : Nat) = 2 ^ 16 - 1 from rfl, Nat.and_two_pow_sub_one_eq_mod]
    omega
  have hlen : (data.take (data.length % 65536)).length = data.length % 65536 := by
    rw [List.length_take, Nat.min_eq_left (Nat.mod_le _ _)]
  have h := Writes.reserve
    (e := toBytes 2 (data.length % 65536) ++ data.take (data.length % 65536))
    (m := do putBytes (toBytes 2 (data.length % 65536))
             if (data.take (data.length % 65536)).length > 0 then
               copyIn (data.take (data.length % 65536)))
    (fun b hlt hp => putBytes_copyIn b hlt hp)
  rw [List.length_append, toBytes_length, hlen, Nat.add_comm] at h
  simpa only [dybAppendDataWith2bytesLen, hl, toBytes, putBytes, Nat.mul_zero, Nat.mul_one,
    Nat.shiftRight_zero, bind_assoc, pure_bind] using h

theorem dybAppendDataWithoutLen_take_writes (data : List UInt8) :
    Writes (dybAppendDataWithoutLen data) () (data.take (uint data.length)) := by
  have hlen : (data.take (uint data.length)).length = uint data.length := by
    rw [List.length_take, Nat.min_eq_left (uint_le _)]
  have h := Writes.reserve (e := data.take (uint data.length))
    (m := do if (data.take (uint data.length)).length > 0 then
               copyIn (data.take (uint data.length)))
    (fun b hlt hp => putBytes_copyIn (e := []) b hlt hp)
  simpa only [dybAppendDataWithoutLen, hlen] using h

theorem dybAppendDataWithoutLen_writes {data : List UInt8} (hlt : data.length < 2 ^ 32) :
    Writes (dybAppendDataWithoutLen data) () data := by
  have h := dybAppendDataWithoutLen_take_writes data
  rwa [uint_of_lt hlt, List.take_length] at h

/-- An end offset that wraps around passes the test for room, and the copy
runs over the end of the memory, even of one that could grow. -/
theorem dybAppendDataWithoutLen_wraps {b : Dybuf} {data : List UInt8} (hok : b.Ok)
    (hlt : data.length < 2 ^ 32) (h : 2 ^ 32 ≤ b.position + data.length) :
    ∃ off, dybAppendDataWithoutLen data b = .error (.writeOutside off) :=
  (dybAppendDataWithoutLen_writes hlt).fault b hok fun hroom => by
    have := hroom.1
    omega

end Encodings

end LcClibs.Buffer.Append
