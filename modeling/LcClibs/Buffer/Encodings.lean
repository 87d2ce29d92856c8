import Mathlib
import LcClibs.Buffer.ReadBack

namespace LcClibs.Buffer.Encodings

open Platform Lib.BigEndian Lib.PrefixCode
open Buffer.Cursor Buffer.Next Buffer.Append Buffer.VarInt Buffer.ReadBack

section Canonical

variable {b : Dybuf} {first : UInt8} {r : List UInt8}

/-- The memory goes on with a complete variable integer. -/
def StartsVar (b : Dybuf) : Prop :=
  ∃ first r, rest b = first :: r ∧ widthOf first ≤ r.length + 1

/-- What is read is written, to an empty buffer, as the bytes it was read from. -/
def Canonical (b : Dybuf) : Prop :=
  ∃ value n, dybNextVarU64 b = .ok (value, advance n b) ∧
    ∀ capacity < 2 ^ 32, ∃ w, dybAppendVarU64 value (dybCreate capacity) = .ok ((), w) ∧
      w.data.take w.position = (rest b).take n

/-- The number behind a first byte 0xFF is not carried out of 64 bits by its offset. -/
def NoCarry (b : Dybuf) : Prop :=
  ∀ r, rest b = 0xFF :: r → ofBytes (r.take 8) < 2 ^ 64 - 0x0102040810204080

theorem base_succ {n : Nat} (h : 1 ≤ n) : base (n + 1) = base n + 2 ^ (7 * n) := by
  obtain ⟨m, rfl⟩ : ∃ m, n = m + 1 := ⟨n - 1, by omega⟩
  rfl

theorem base_mono : Monotone base := by
  apply monotone_nat_of_le_succ
  intro n
  cases n with
  | zero => exact le_rfl
  | succ n =>
    rw [base_succ (Nat.succ_pos n)]
    exact Nat.le_add_right _ _

theorem base_nine : base 9 = 0x0102040810204080 := by decide

theorem width_unique {n m p q : Nat} (hn : 1 ≤ n) (hm : 1 ≤ m) (hp : p < 2 ^ (7 * n))
    (hq : q < 2 ^ (7 * m)) (h : p + base n = q + base m) : n = m := by
  have hpn := base_succ hn
  have hqm := base_succ hm
  obtain hlt | heq | hgt := Nat.lt_trichotomy n m
  · have hle : base (n + 1) ≤ base m := base_mono hlt
    omega
  · exact heq
  · have hle : base (m + 1) ≤ base n := base_mono hgt
    omega

theorem varBytes_code {n p : Nat} (h1 : 1 ≤ n) (h8 : n ≤ 8) (hp : p < 2 ^ (7 * n)) :
    varBytes (p + base n) = code n p := by
  have hpn := base_succ h1
  have hle : base (n + 1) ≤ base 9 := base_mono (by omega)
  have hnine := base_nine
  obtain ⟨m, q, hm1, -, hq, hval, he⟩ | ⟨q, -, hval, -⟩ :=
    varBytes_cases (show p + base n < 2 ^ 64 by omega)
  · obtain rfl := width_unique h1 hm1 hp hq hval
    rw [he, Nat.add_right_cancel hval]
  · omega

theorem varBytes_nine {p : Nat} (hp : p + base 9 < 2 ^ 64) :
    varBytes (p + base 9) = 0xFF :: toBytes 8 p := by
  obtain ⟨n, q, h1, h8, hq, hval, -⟩ | ⟨q, -, hval, he⟩ := varBytes_cases hp
  · have hqn := base_succ h1
    have hle : base (n + 1) ≤ base 9 := base_mono (by omega)
    omega
  · rw [he, Nat.add_right_cancel hval]

theorem eq_of_widthOf_nine (h : 8 < widthOf first) : first = 0xFF := by
  apply UInt8.toNat_inj.mp
  have hlt := first.toNat_lt
  unfold widthOf at h
  split_ifs at h <;> first | omega | (show first.toNat = 255; omega)

/-- Reading then writing gives the same bytes, unless the offset is carried over. -/
theorem varBytes_varValue (hr : widthOf first ≤ r.length + 1) :
    varBytes (varValue first r) = first :: r.take (widthOf first - 1) ↔
      (first = 0xFF → ofBytes (r.take 8) < 2 ^ 64 - 0x0102040810204080) := by
  have hlen : (r.take (widthOf first - 1)).length = widthOf first - 1 :=
    List.length_take_of_le (by omega)
  by_cases h8 : widthOf first ≤ 8
  · have hne : first ≠ 0xFF := fun h => absurd h8 (by rw [h]; decide)
    rw [varValue, if_pos h8]
    have hp := payload_lt h8 hlen
    have hc := cons_eq_code h8 hlen
    rw [hlen] at hp hc
    exact ⟨fun _ h => absurd h hne,
      fun _ => (varBytes_code (widthOf_pos first) h8 hp).trans hc.symm⟩
  · obtain rfl := eq_of_widthOf_nine (not_le.mp h8)
    have hw : widthOf 0xFF = 9 := by decide
    have hbound := ofBytes_lt (r.take 8)
    rw [hw] at hlen
    rw [hlen, show (256 : Nat) ^ (9 - 1) = 2 ^ 64 by norm_num] at hbound
    have hnine := base_nine
    rw [varValue, if_neg h8, hw, Nat.add_sub_cancel 8 1]
    constructor
    · intro he _
      by_contra hcarry
      -- the value is then one of those with a shorter code
      have hval : uint64 (ofBytes (r.take 8) + base 9) = ofBytes (r.take 8) + base 9 - 2 ^ 64 := by
        unfold uint64
        omega
      rw [hval] at he
      obtain ⟨n, q, h1, hn8, -, -, hc⟩ | ⟨q, -, hq, -⟩ :=
        varBytes_cases (show ofBytes (r.take 8) + base 9 - 2 ^ 64 < 2 ^ 64 by omega)
      · have hl := congrArg List.length (hc.symm.trans he)
        rw [code_length, List.length_cons, hlen] at hl
        omega
      · omega
    · intro hfit
      have hlt := hfit rfl
      have hback := toBytes_ofBytes (r.take 8)
      rw [hlen] at hback
      rw [uint64_of_lt (by omega), varBytes_nine (by omega), hback]

theorem created_takes {capacity : Nat} {w : Dybuf} {e : List UInt8}
    (h : Appended (dybCreate capacity) e w) : w.data.take w.position = e := by
  rw [h.written]
  rfl

theorem created_room (capacity : Nat) {n : Nat} (h : n < 2 ^ 32) : Room (dybCreate capacity) n :=
  (room_iff rfl).mpr <| by
    rw [show (dybCreate capacity).position = 0 from rfl, Nat.zero_add]
    exact h

theorem canonical_iff_value (hlt : b.data.length < 2 ^ 32) (h : rest b = first :: r)
    (hr : widthOf first ≤ r.length + 1) :
    Canonical b ↔ varBytes (varValue first r) = first :: r.take (widthOf first - 1) := by
  have hread := dybNextVarU64_of_rest hlt h hr
  have htake : (rest b).take (widthOf first) = first :: r.take (widthOf first - 1) := by
    rw [h, List.take_cons (widthOf_pos first)]
  have hwrite : ∀ capacity < 2 ^ 32, ∃ w,
      dybAppendVarU64 (varValue first r) (dybCreate capacity) = .ok ((), w) ∧
        w.data.take w.position = varBytes (varValue first r) := by
    intro capacity hc
    have hroom : Room (dybCreate capacity) (varBytes (varValue first r)).length := by
      apply created_room
      rw [varBytes_length_eq]
      unfold varWidth
      split_ifs <;> decide
    obtain ⟨w, hrun, ha⟩ := (dybAppendVarU64_writes _).ok _ (dybCreate_ok hc) hroom
    exact ⟨w, hrun, created_takes ha⟩
  constructor
  · rintro ⟨value, n, hread', hcan⟩
    rw [hread] at hread'
    obtain ⟨rfl, hadv⟩ := Prod.mk.inj (Except.ok.inj hread')
    obtain rfl : widthOf first = n := Nat.add_left_cancel (congrArg Dybuf.position hadv)
    obtain ⟨w, hrun, hw⟩ := hcan 0 (by decide)
    obtain ⟨w', hrun', hw'⟩ := hwrite 0 (by decide)
    rw [hrun] at hrun'
    cases hrun'
    rw [← hw', hw, htake]
  · intro he
    refine ⟨_, _, hread, fun capacity hc => ?_⟩
    obtain ⟨w, hrun, hw⟩ := hwrite capacity hc
    exact ⟨w, hrun, by rw [hw, he, htake]⟩

theorem noCarry_iff (h : rest b = first :: r) :
    NoCarry b ↔ (first = 0xFF → ofBytes (r.take 8) < 2 ^ 64 - 0x0102040810204080) := by
  constructor
  · rintro hn rfl
    exact hn r h
  · intro hn r' hr'
    rw [h] at hr'
    obtain ⟨hfirst, rfl⟩ := List.cons.inj hr'
    exact hn hfirst

theorem canonical_iff_noCarry (hlt : b.data.length < 2 ^ 32) (hs : StartsVar b) :
    Canonical b ↔ NoCarry b := by
  obtain ⟨first, r, h, hr⟩ := hs
  rw [canonical_iff_value hlt h hr, noCarry_iff h, varBytes_varValue hr]

theorem Canonical.written {value n : Nat} (h : Canonical b)
    (hread : dybNextVarU64 b = .ok (value, advance n b)) :
    ∃ w, dybAppendVarU64 value (dybCreate 0) = .ok ((), w) ∧
      w.data.take w.position = (rest b).take n := by
  obtain ⟨v, k, hr, hw⟩ := h
  rw [hr] at hread
  obtain ⟨rfl, hadv⟩ := Prod.mk.inj (Except.ok.inj hread)
  obtain rfl : k = n := Nat.add_left_cancel (congrArg Dybuf.position hadv)
  exact hw 0 (by decide)

/-- An encoding is canonical exactly when its offset is not carried over, and among those no
two stand for one value. -/
theorem canonical_iff (hlt : b.data.length < 2 ^ 32) (hs : StartsVar b) :
    (Canonical b ↔ NoCarry b) ∧
    ∀ (b' : Dybuf) (value n n' : Nat), b'.data.length < 2 ^ 32 → StartsVar b' → NoCarry b →
      NoCarry b' → dybNextVarU64 b = .ok (value, advance n b) →
      dybNextVarU64 b' = .ok (value, advance n' b') → (rest b).take n = (rest b').take n' := by
  have hcan := canonical_iff_noCarry hlt hs
  refine ⟨hcan, fun b' value n n' hlt' hs' hn hn' hread hread' => ?_⟩
  obtain ⟨w, hrun, hw⟩ := (hcan.mpr hn).written hread
  obtain ⟨w', hrun', hw'⟩ := ((canonical_iff_noCarry hlt' hs').mpr hn').written hread'
  rw [hrun] at hrun'
  cases hrun'
  rw [← hw, ← hw']

def received (bytes : List UInt8) : Dybuf :=
  { data := bytes, capacity := bytes.length, limit := bytes.length, position := 0, mark := 0,
    fixedCapacity := true }

theorem canonical_received :
    Canonical (received [0xC0, 0x01, 0x02, 0x07]) ↔ NoCarry (received [0xC0, 0x01, 0x02, 0x07]) :=
  (canonical_iff (b := received [0xC0, 0x01, 0x02, 0x07]) (by decide)
    ⟨0xC0, [0x01, 0x02, 0x07], rfl, by decide⟩).1

/-- Nine bytes 0xFF are read as a value that is written in eight. -/
theorem not_canonical :
    ¬∀ b : Dybuf, b.data.length < 2 ^ 32 → StartsVar b → Canonical b := by
  intro h
  have hrest : rest (received (List.replicate 9 0xFF)) = 0xFF :: List.replicate 8 0xFF := rfl
  have hr : widthOf 0xFF ≤ (List.replicate 8 (0xFF : UInt8)).length + 1 := by decide
  have hcan := h (received (List.replicate 9 0xFF)) (by decide) ⟨_, _, hrest, hr⟩
  have hval := (canonical_iff_value (by decide) hrest hr).mp hcan
  exact absurd ((varBytes_varValue hr).mp hval rfl) (by decide +kernel)

end Canonical

section Hosts

variable {n value : Nat} {writer reader : Host}

/-- The bytes of a value are turned round on a little-endian host. -/
def swapBytes (n : Nat) : Host → Nat → Nat
  | .little, value => ofBytes (toBytes n value).reverse
  | .big, value => value

def Symmetric (n value : Nat) : Prop := (toBytes n value).reverse = toBytes n value

/-- What one host has written another one reads. -/
def ComesBack (append : Host → Nat → DybM Unit) (next : Host → DybM Nat) (value : Nat)
    (writer reader : Host) : Prop :=
  ∀ b b', b.Ok → append writer value b = .ok ((), b') →
    next reader (back b.position b') = .ok (value, b')

/-- What one host has written any other one would have. -/
def SameBytes (append : Host → Nat → DybM Unit) (value : Nat) (writer : Host) : Prop :=
  ∀ other b b1 b2, b.Ok → append writer value b = .ok ((), b1) →
    append other value b = .ok ((), b2) → b1 = b2

/-- An encoding that knows nothing of the byte order of the hosts. -/
structure HostFree (append : Host → Nat → DybM Unit) (next : Host → DybM Nat) (value : Nat)
    (writer reader : Host) : Prop where
  same_bytes : SameBytes append value writer
  comes_back : ComesBack append next value writer reader

def appendSwapped (n : Nat) (host : Host) (value : Nat) : DybM Unit :=
  appendUint n (swapBytes n host value)

def nextSwapped (n : Nat) (host : Host) : DybM Nat := do
  let v ← takeUint n 0
  return swapBytes n host v

theorem dybAppendFloat_eq : dybAppendFloat = appendSwapped 4 := by
  funext host value
  cases host <;> rfl

theorem dybAppendDouble_eq : dybAppendDouble = appendSwapped 8 := by
  funext host value
  cases host <;> rfl

theorem dybNextFloat_eq : dybNextFloat = nextSwapped 4 := by
  funext host
  cases host <;> rfl

theorem dybNextDouble_eq : dybNextDouble = nextSwapped 8 := by
  funext host
  cases host <;> rfl

theorem toBytes_swapBytes_little (n value : Nat) :
    toBytes n (swapBytes n .little value) = (toBytes n value).reverse := by
  have h := toBytes_ofBytes (toBytes n value).reverse
  rwa [List.length_reverse, toBytes_length] at h

theorem swapBytes_little_iff (hv : value < 256 ^ n) :
    swapBytes n .little value = value ↔ Symmetric n value := by
  constructor
  · intro h
    rw [Symmetric, ← toBytes_swapBytes_little, h]
  · intro h
    rw [swapBytes, h, ofBytes_toBytes_of_lt hv]

theorem swapBytes_lt (host : Host) (hv : value < 256 ^ n) : swapBytes n host value < 256 ^ n := by
  cases host with
  | big => exact hv
  | little =>
    have h := ofBytes_lt (toBytes n value).reverse
    rwa [List.length_reverse, toBytes_length] at h

theorem swapBytes_swapBytes (host : Host) (hv : value < 256 ^ n) :
    swapBytes n host (swapBytes n host value) = value := by
  cases host with
  | big => rfl
  | little =>
    rw [swapBytes, toBytes_swapBytes_little, List.reverse_reverse, ofBytes_toBytes_of_lt hv]

/-- What the bytes of one host are to another one. -/
theorem nextSwapped_back (hv : value < 256 ^ n) {b b' : Dybuf} (hok : b.Ok)
    (h : appendSwapped n writer value b = .ok ((), b')) :
    nextSwapped n reader (back b.position b') =
      .ok (swapBytes n reader (swapBytes n writer value), b') := by
  have hw := appendUint_writes n (swapBytes n writer value)
  have hroom : Room b (toBytes n (swapBytes n writer value)).length := by
    by_contra hroom
    obtain ⟨off, herr⟩ := hw.fault b hok hroom
    rw [appendSwapped, herr] at h
    cases h
  obtain ⟨b1, h1, ha⟩ := hw.ok b hok hroom
  rw [appendSwapped, h1] at h
  cases h
  have hlt := appended_length_lt ha
  have hread := nextCount_of_rest (c := back b.position b') hlt (swapBytes_lt writer hv)
    (rest_back ha hok)
  have hadv := advance_back ha
  rw [toBytes_length] at hadv
  rw [nextSwapped, bind_ok hread, pure_apply, hadv]

theorem appendSwapped_created (hn : n < 2 ^ 32) (host : Host) (value : Nat) :
    ∃ w, appendSwapped n host value (dybCreate 0) = .ok ((), w) ∧
      w.data.take w.position = toBytes n (swapBytes n host value) := by
  have hroom : Room (dybCreate 0) (toBytes n (swapBytes n host value)).length := by
    apply created_room
    rwa [toBytes_length]
  obtain ⟨w, hrun, ha⟩ :=
    (appendUint_writes n (swapBytes n host value)).ok _ (dybCreate_ok (by decide)) hroom
  exact ⟨w, hrun, created_takes ha⟩

theorem Symmetric.swap_eq (h : Symmetric n value) (hv : value < 256 ^ n) (host : Host) :
    swapBytes n host value = value := by
  cases host with
  | big => rfl
  | little => exact (swapBytes_little_iff hv).mpr h

theorem comesBack_iff (hn : n < 2 ^ 32) (hv : value < 256 ^ n) :
    ComesBack (appendSwapped n) (nextSwapped n) value writer reader ↔
      writer = reader ∨ Symmetric n value := by
  have hback : ComesBack (appendSwapped n) (nextSwapped n) value writer reader ↔
      swapBytes n reader (swapBytes n writer value) = value := by
    constructor
    · intro h
      obtain ⟨w, hrun, -⟩ := appendSwapped_created hn writer value
      have hread := h _ w (dybCreate_ok (by decide)) hrun
      rw [nextSwapped_back hv (dybCreate_ok (by decide)) hrun] at hread
      exact (Prod.mk.inj (Except.ok.inj hread)).1
    · intro h b b' hok hrun
      rw [nextSwapped_back hv hok hrun, h]
  rw [hback]
  constructor
  · intro h
    cases writer <;> cases reader
    · exact .inl rfl
    · exact .inr ((swapBytes_little_iff hv).mp h)
    · exact .inr ((swapBytes_little_iff hv).mp h)
    · exact .inl rfl
  · rintro (rfl | h)
    · exact swapBytes_swapBytes writer hv
    · rw [h.swap_eq hv, h.swap_eq hv]

theorem sameBytes_iff (hn : n < 2 ^ 32) (hv : value < 256 ^ n) :
    SameBytes (appendSwapped n) value writer ↔ Symmetric n value := by
  constructor
  · intro h
    have hall : ∀ other, toBytes n (swapBytes n writer value) =
        toBytes n (swapBytes n other value) := by
      intro other
      obtain ⟨w, hrun, hw⟩ := appendSwapped_created hn writer value
      obtain ⟨w', hrun', hw'⟩ := appendSwapped_created hn other value
      obtain rfl := h other _ w w' (dybCreate_ok (by decide)) hrun hrun'
      rw [← hw, ← hw']
    have hlittle := (hall .little).symm.trans (hall .big)
    rwa [toBytes_swapBytes_little] at hlittle
  · intro h other b b1 b2 _ hrun hrun'
    rw [appendSwapped, h.swap_eq hv] at hrun hrun'
    rw [hrun] at hrun'
    cases hrun'
    rfl

theorem hostFree_iff (hn : n < 2 ^ 32) (hv : value < 256 ^ n) :
    HostFree (appendSwapped n) (nextSwapped n) value writer reader ↔ Symmetric n value :=
  ⟨fun h => (sameBytes_iff hn hv).mp h.same_bytes,
    fun h => ⟨(sameBytes_iff hn hv).mpr h, (comesBack_iff hn hv).mpr (.inr h)⟩⟩

/-- The floats that the hosts agree on are those whose bytes are the same from both ends;
two hosts of one byte order understand each other on all of them. -/
theorem floats_iff (writer reader : Host) :
    (∀ value < 2 ^ 32,
      (HostFree dybAppendFloat dybNextFloat value writer reader ↔ Symmetric 4 value) ∧
      (ComesBack dybAppendFloat dybNextFloat value writer reader ↔
        writer = reader ∨ Symmetric 4 value)) ∧
    ∀ value < 2 ^ 64,
      (HostFree dybAppendDouble dybNextDouble value writer reader ↔ Symmetric 8 value) ∧
      (ComesBack dybAppendDouble dybNextDouble value writer reader ↔
        writer = reader ∨ Symmetric 8 value) := by
  rw [dybAppendFloat_eq, dybNextFloat_eq, dybAppendDouble_eq, dybNextDouble_eq]
  constructor
  · intro value hv
    have hv' : value < 256 ^ 4 := by rwa [show (256 : Nat) ^ 4 = 2 ^ 32 by norm_num]
    exact ⟨hostFree_iff (by decide) hv', comesBack_iff (by decide) hv'⟩
  · intro value hv
    have hv' : value < 256 ^ 8 := by rwa [show (256 : Nat) ^ 8 = 2 ^ 64 by norm_num]
    exact ⟨hostFree_iff (by decide) hv', comesBack_iff (by decide) hv'⟩

theorem floats_one :
    HostFree dybAppendFloat dybNextFloat 0x3F80803F .little .big ↔ Symmetric 4 0x3F80803F :=
  ((floats_iff .little .big).1 0x3F80803F (by decide)).1

/-- The number one. -/
theorem not_floats :
    ¬∀ value < 2 ^ 32, ∀ writer reader,
      HostFree dybAppendFloat dybNextFloat value writer reader := by
  intro h
  have hback := (h 0x3F800000 (by decide) .little .big).comes_back
  rw [dybAppendFloat_eq, dybNextFloat_eq] at hback
  obtain heq | hsym := (comesBack_iff (by decide) (by decide)).mp hback
  · cases heq
  · exact absurd hsym (by unfold Symmetric; decide)

end Hosts

end LcClibs.Buffer.Encodings
