import Mathlib
import LcClibs.Hash.Functions
import LcClibs.Hash.Table
import LcClibs.Memory.Growth

namespace LcClibs.Memory.Exhaustion

open Platform Lib.Runs Memory.Managed Memory.Safety Memory.Growth
open Hash.UtHash (HashState HashFcn UTHashHandle hashAddKeyptr hashDelete)
open Hash.Expand (Bounded Grants)
open Hash.Table (Represents addSizes hashAddKeyptr_ok hashDelete_ok)

section Model

/-- What the platform hands out for a block: its record and its memory. -/
inductive Piece
  | record (serial : Nat)
  | memory (m : Nat)
  deriving DecidableEq, Repr

inductive PlatCall
  | allocated (p : Piece)
  | refused
  | released (p : Piece)
  deriving DecidableEq, Repr

/-- A pool with the hash table that its records are in. -/
structure PoolTable where
  pool : Pool
  table : HashState

/-- How a call ends: it returns after some calls of the platform, or `uthash_fatal` ends the
program because the table was refused memory. -/
inductive Ending
  | returned (answer : Option Nat) (state : PoolTable) (calls : List PlatCall)
  | exited

variable (malloc : Malloc) (tableMalloc : Nat → Nat → Bool) (hashFcn : HashFcn)
  (pointerBytes : Nat → List UInt8) (recordAt : Nat → Nat)

/-- `mgn_m->m = new_m`, the first field of the record and its key. -/
def setM (mgnM newM : Nat) (table : HashState) : HashState :=
  { table with bytes := fun p =>
      if p < mgnM then table.bytes p else (pointerBytes newM)[p - mgnM]?.getD (table.bytes p) }

def hashDel (mgnM : Nat) (table : HashState) : Except Stop HashState :=
  match hashDelete mgnM table with
  | .ok (_, table) => .ok table
  | .error _ => .error (.fault .nullDeref)

/-- `HASH_ADD_PTR` once the record has its memory, and what the call does then. -/
def hashAddPtr (mgnM newM : Nat) (table : HashState) (ending : HashState → Ending) :
    Except Stop Ending :=
  match hashAddKeyptr tableMalloc hashFcn mgnM 8 mgnM (setM pointerBytes mgnM newM table) with
  | .ok (_, table) => .ok (ending table)
  | .error .fatal => .ok .exited
  | .error _ => .error (.fault .nullDeref)

/-- A record as it comes zeroed from the platform. -/
def putRecord (mgnM : Nat) (table : HashState) : HashState := table.put mgnM ⟨0, 0, 0, 0, 0, 0, 0⟩

/-- `mgn_mem_ralloc` with the table of the pool and its calls of the platform, in order. The
record with a given serial lies at `recordAt`. -/
def mgnMemRallocCalls (p : PoolTable) (originMem newSize : Nat) : Except Stop Ending :=
  let pool' := { p.pool with clock := p.pool.clock + 1 }
  let record := Piece.record p.pool.clock
  let mgnM := recordAt p.pool.clock
  if newSize = 0 then .ok (.returned none p [])
  else
    match p.pool.find originMem with
    | some x =>
      if newSize > x.s then
        if x.r = 1 then do
          let table ← hashDel (recordAt x.serial) p.table
          match platMemAllocate malloc p.pool newSize with
          | none => .ok (.returned none ⟨pool'.delete x.serial, table⟩ [.refused])
          | some (a, zeros) => do
            let bytes ← platMemCopy zeros x.bytes x.s
            hashAddPtr tableMalloc hashFcn pointerBytes (recordAt x.serial) a table fun table =>
              .returned (some a)
                ⟨((pool'.delete x.serial).note [.freedMemory x.serial]).add
                  { x with m := a, s := newSize, bytes := bytes }, table⟩
                [.allocated (.memory a), .released (.memory x.m)]
        else
          if malloc.record p.pool.clock then
            match platMemAllocate malloc p.pool newSize with
            | none =>
              .ok (.returned none ⟨givenUp p.pool x, p.table⟩
                [.allocated record, .refused, .released record])
            | some (a, zeros) => do
              let bytes ← platMemCopy zeros x.bytes x.s
              hashAddPtr tableMalloc hashFcn pointerBytes mgnM a (putRecord mgnM p.table)
                fun table => .returned (some a)
                  ⟨(givenUp p.pool x).add (newRecord p.pool.clock a newSize bytes), table⟩
                  [.allocated record, .allocated (.memory a)]
          else .ok (.returned none ⟨givenUp p.pool x, p.table⟩ [.refused])
      else .ok (.returned (some x.m) p [])
    | none =>
      if originMem ≠ 0 then .ok (.returned none p [])
      else if malloc.record p.pool.clock then
        match platMemAllocate malloc p.pool newSize with
        | none =>
          .ok (.returned none ⟨pool', p.table⟩ [.allocated record, .refused, .released record])
        | some (a, zeros) =>
          hashAddPtr tableMalloc hashFcn pointerBytes mgnM a (putRecord mgnM p.table)
            fun table => .returned (some a)
              ⟨pool'.add (newRecord p.pool.clock a newSize zeros), table⟩
              [.allocated record, .allocated (.memory a)]
      else .ok (.returned none ⟨pool', p.table⟩ [.refused])

def Ending.Refused : Ending → Prop
  | returned _ _ calls => .refused ∈ calls
  | exited => True

/-- The answer is null, the pool is what it was, and what was allocated has been released. -/
def Ending.Undone (p : PoolTable) : Ending → Prop
  | returned answer state calls =>
    answer = none ∧ state.pool.records = p.pool.records ∧ state.table = p.table ∧
      ∀ piece, .allocated piece ∈ calls → .released piece ∈ calls
  | exited => False

def AllOrNothing (p : PoolTable) (originMem newSize : Nat) : Prop :=
  ∀ e, mgnMemRallocCalls malloc tableMalloc hashFcn pointerBytes recordAt p originMem newSize =
    .ok e → e.Refused → e.Undone p

def TableGrows (mgnM newM : Nat) (table : HashState) : Prop :=
  let table := setM pointerBytes mgnM newM table
  Grants tableMalloc table.clock (addSizes table (hashFcn.value table.bytes mgnM 8))

def NewFits (p : PoolTable) (newSize : Nat) (clone : List UInt8 → Except Stop (List UInt8)) :
    Prop :=
  malloc.record p.pool.clock = true → ∀ a zeros bytes,
    platMemAllocate malloc p.pool newSize = some (a, zeros) → clone zeros = .ok bytes →
    TableGrows tableMalloc hashFcn pointerBytes (recordAt p.pool.clock) a
      (putRecord (recordAt p.pool.clock) p.table)

/-- Growing a block that has an owner does not fail, and nothing fails in `HASH_ADD_PTR`. -/
def Spared (p : PoolTable) (originMem newSize : Nat) : Prop :=
  match p.pool.find originMem with
  | some x => x.s < newSize →
    if x.r = 1 then
      ∃ a zeros, platMemAllocate malloc p.pool newSize = some (a, zeros) ∧
        ∀ table bytes, hashDel (recordAt x.serial) p.table = .ok table →
          platMemCopy zeros x.bytes x.s = .ok bytes →
          TableGrows tableMalloc hashFcn pointerBytes (recordAt x.serial) a table
    else
      (x.r = 0 ∨ malloc.record p.pool.clock = true ∧
        (platMemAllocate malloc p.pool newSize).isSome) ∧
      NewFits malloc tableMalloc hashFcn pointerBytes recordAt p newSize
        fun zeros => platMemCopy zeros x.bytes x.s
  | none => originMem = 0 → newSize ≠ 0 →
    NewFits malloc tableMalloc hashFcn pointerBytes recordAt p newSize .ok

/-- The table has the records of the pool, in their order. -/
def Mirrored (p : PoolTable) : Prop :=
  Represents p.table (p.pool.records.map fun x => recordAt x.serial)

/-- A record that the platform gives is not in the table, which has room for one more. -/
structure Room (p : PoolTable) : Prop where
  length_lt : p.pool.records.length + 1 < 2 ^ 32
  ne_zero : malloc.record p.pool.clock = true → recordAt p.pool.clock ≠ 0
  fresh : malloc.record p.pool.clock = true →
    recordAt p.pool.clock ∉ p.pool.records.map fun x => recordAt x.serial

end Model

section Macros

variable {tableMalloc : Nat → Nat → Bool} {hashFcn : HashFcn}
  {pointerBytes : Nat → List UInt8} {table : HashState} {items : List Nat} {mgnM newM : Nat}

/-- `HASH_ADD_PTR` ends the program when the table does not get its memory, and only then. -/
theorem hashAddPtr_cases (hmalloc : Bounded tableMalloc) (h : Represents table items)
    (hlive : (table.hh mgnM).isSome) (h0 : mgnM ≠ 0) (hnot : mgnM ∉ items)
    (hsmall : items.length + 1 < 2 ^ 32) (newM : Nat) (ending : HashState → Ending) :
    (TableGrows tableMalloc hashFcn pointerBytes mgnM newM table ∧ ∃ table',
        hashAddPtr tableMalloc hashFcn pointerBytes mgnM newM table ending = .ok (ending table') ∧
          Represents table' (items ++ [mgnM])) ∨
      (¬TableGrows tableMalloc hashFcn pointerBytes mgnM newM table ∧
        hashAddPtr tableMalloc hashFcn pointerBytes mgnM newM table ending = .ok .exited) := by
  have hset : Represents (setM pointerBytes mgnM newM table) items :=
    h.of_same (fun _ _ => rfl) rfl rfl
  have hadd := hashAddKeyptr_ok (s := setM pointerBytes mgnM newM table) hashFcn mgnM 8 hmalloc
    hset hlive h0 hnot hsmall
  rw [hashAddPtr]
  cases hrun : hashAddKeyptr tableMalloc hashFcn mgnM 8 mgnM
      (setM pointerBytes mgnM newM table) with
  | ok r =>
    rw [hrun] at hadd
    exact .inl ⟨hadd.1, r.2, rfl, hadd.2.1⟩
  | error e =>
    rw [hrun] at hadd
    obtain ⟨rfl, hno⟩ := hadd
    exact .inr ⟨hno, rfl⟩

theorem hashDel_ok (h : Represents table items) (hmem : mgnM ∈ items) :
    ∃ table', hashDel mgnM table = .ok table' ∧ Represents table' (items.erase mgnM) ∧
      (table'.hh mgnM).isSome := by
  obtain ⟨table', hrun, hrep, -, hframe⟩ := hashDelete_ok h hmem
  refine ⟨table', ?_, hrep, ?_⟩
  · rw [hashDel, hrun]
  · rw [hframe.live]
    exact h.isSome hmem

theorem putRecord_represents (h : Represents table items) (hnot : mgnM ∉ items) :
    Represents (putRecord mgnM table) items ∧ ((putRecord mgnM table).hh mgnM).isSome := by
  refine ⟨h.of_same (fun x hx => ?_) rfl rfl, ?_⟩
  · rw [putRecord, Hash.Layout.put_hh, if_neg fun he => hnot (by rwa [he] at hx)]
  · rw [putRecord, Hash.Layout.put_hh, if_pos rfl]
    rfl

end Macros

section Failure

variable {malloc : Malloc} {tableMalloc : Nat → Nat → Bool} {hashFcn : HashFcn}
  {pointerBytes : Nat → List UInt8} {recordAt : Nat → Nat} {p : PoolTable}
  {originMem newSize : Nat} {x : Record}

theorem allOrNothing_of_ok {e : Ending}
    (h : mgnMemRallocCalls malloc tableMalloc hashFcn pointerBytes recordAt p originMem newSize =
      .ok e) : AllOrNothing malloc tableMalloc hashFcn pointerBytes recordAt p originMem newSize ↔
      (e.Refused → e.Undone p) := by
  rw [AllOrNothing, h]
  exact ⟨fun hall => hall e rfl, fun he e' h' => by cases h'; exact he⟩

theorem allOrNothing_of_error {e : Stop}
    (h : mgnMemRallocCalls malloc tableMalloc hashFcn pointerBytes recordAt p originMem newSize =
      .error e) :
    AllOrNothing malloc tableMalloc hashFcn pointerBytes recordAt p originMem newSize := by
  rw [AllOrNothing, h]
  exact fun e' h' => by cases h'

theorem newFits_iff {a : Nat} {zeros bytes : List UInt8}
    {clone : List UInt8 → Except Stop (List UInt8)} (hr : malloc.record p.pool.clock = true)
    (ha : platMemAllocate malloc p.pool newSize = some (a, zeros)) (hc : clone zeros = .ok bytes) :
    NewFits malloc tableMalloc hashFcn pointerBytes recordAt p newSize clone ↔
      TableGrows tableMalloc hashFcn pointerBytes (recordAt p.pool.clock) a
        (putRecord (recordAt p.pool.clock) p.table) := by
  refine ⟨fun h => h hr a zeros bytes ha hc, fun h _ a' zeros' _ ha' _ => ?_⟩
  rw [ha] at ha'
  cases ha'
  exact h

theorem added_iff {table : HashState} {items : List Nat} {mgnM : Nat} (newM : Nat)
    (ending : HashState → Ending) (hmalloc : Bounded tableMalloc) (h : Represents table items)
    (hlive : (table.hh mgnM).isSome) (h0 : mgnM ≠ 0) (hnot : mgnM ∉ items)
    (hsmall : items.length + 1 < 2 ^ 32) (hending : ∀ table, ¬(ending table).Refused)
    (hcalls : mgnMemRallocCalls malloc tableMalloc hashFcn pointerBytes recordAt p originMem
      newSize = hashAddPtr tableMalloc hashFcn pointerBytes mgnM newM table ending) :
    AllOrNothing malloc tableMalloc hashFcn pointerBytes recordAt p originMem newSize ↔
      TableGrows tableMalloc hashFcn pointerBytes mgnM newM table := by
  obtain ⟨hgrows, table', hrun, -⟩ | ⟨hno, hrun⟩ :=
    hashAddPtr_cases hmalloc h hlive h0 hnot hsmall newM ending
  · rw [allOrNothing_of_ok (hcalls.trans hrun)]
    exact iff_of_true (fun h => absurd h (hending table')) hgrows
  · rw [allOrNothing_of_ok (hcalls.trans hrun)]
    exact iff_of_false (fun h => h trivial) hno

theorem newRecord_iff {a : Nat} {zeros bytes : List UInt8}
    {clone : List UInt8 → Except Stop (List UInt8)} (ending : HashState → Ending)
    (hmalloc : Bounded tableMalloc) (hp : Mirrored recordAt p) (hroom : Room malloc recordAt p)
    (hr : malloc.record p.pool.clock = true)
    (ha : platMemAllocate malloc p.pool newSize = some (a, zeros)) (hc : clone zeros = .ok bytes)
    (hending : ∀ table, ¬(ending table).Refused)
    (hcalls : mgnMemRallocCalls malloc tableMalloc hashFcn pointerBytes recordAt p originMem
      newSize = hashAddPtr tableMalloc hashFcn pointerBytes (recordAt p.pool.clock) a
        (putRecord (recordAt p.pool.clock) p.table) ending) :
    AllOrNothing malloc tableMalloc hashFcn pointerBytes recordAt p originMem newSize ↔
      NewFits malloc tableMalloc hashFcn pointerBytes recordAt p newSize clone := by
  obtain ⟨hrep, hlive⟩ := putRecord_represents hp (hroom.fresh hr)
  rw [newFits_iff hr ha hc]
  refine added_iff a ending hmalloc hrep hlive (hroom.ne_zero hr) (hroom.fresh hr) ?_ hending hcalls
  rw [List.length_map]
  exact hroom.length_lt

theorem newBlock_iff (hmalloc : Bounded tableMalloc) (hp : Mirrored recordAt p)
    (hroom : Room malloc recordAt p) (h0 : newSize ≠ 0) (hf : p.pool.find originMem = none) :
    AllOrNothing malloc tableMalloc hashFcn pointerBytes recordAt p originMem newSize ↔
      (originMem = 0 → NewFits malloc tableMalloc hashFcn pointerBytes recordAt p newSize .ok) := by
  by_cases hm : originMem ≠ 0
  · refine (allOrNothing_of_ok (e := .returned none p []) ?_).trans ?_
    · simp only [mgnMemRallocCalls, if_neg h0, hf, if_pos hm]
    · exact iff_of_true (fun h => absurd h List.not_mem_nil) fun h => absurd h hm
  rw [imp_iff_right (not_ne_iff.mp hm)]
  cases hr : malloc.record p.pool.clock with
  | false =>
    refine (allOrNothing_of_ok (e := .returned none
      ⟨{ p.pool with clock := p.pool.clock + 1 }, p.table⟩ [.refused]) ?_).trans ?_
    · simp only [mgnMemRallocCalls, if_neg h0, hf, if_neg hm, hr, Bool.false_eq_true, if_false]
    · refine iff_of_true (fun _ => ⟨rfl, rfl, rfl, by simp⟩) fun h => ?_
      rw [hr] at h
      cases h
  | true =>
    cases ha : platMemAllocate malloc p.pool newSize with
    | none =>
      refine (allOrNothing_of_ok (e := .returned none
        ⟨{ p.pool with clock := p.pool.clock + 1 }, p.table⟩
        [.allocated (.record p.pool.clock), .refused, .released (.record p.pool.clock)])
        ?_).trans ?_
      · simp only [mgnMemRallocCalls, if_neg h0, hf, if_neg hm, hr, if_true, ha]
      · refine iff_of_true (fun _ => ⟨rfl, rfl, rfl, by simp⟩) fun _ a zeros bytes h => ?_
        rw [ha] at h
        cases h
    | some r =>
      refine newRecord_iff (fun table => .returned (some r.1)
        ⟨{ p.pool with clock := p.pool.clock + 1 }.add
          (newRecord p.pool.clock r.1 newSize r.2), table⟩
        [.allocated (.record p.pool.clock), .allocated (.memory r.1)]) hmalloc hp hroom hr ha rfl
        (fun table h => ?_) ?_
      · simp [Ending.Refused] at h
      · simp only [mgnMemRallocCalls, if_neg h0, hf, if_neg hm, hr, if_true, ha]

theorem delete_shorter {pool : Pool} (hx : x ∈ pool.records) :
    ({ pool with clock := pool.clock + 1 }.delete x.serial).records ≠ pool.records := by
  intro he
  have hlt : (({ pool with clock := pool.clock + 1 } : Pool).delete x.serial).records.length <
      pool.records.length := length_delete_lt hx
  rw [he] at hlt
  exact lt_irrefl _ hlt

theorem givenUp_of_zero {pool : Pool} (h : x.r = 0) :
    (givenUp pool x).records = pool.records := by
  rw [givenUp, if_neg (by omega)]

theorem givenUp_ne {pool : Pool} (hx : x ∈ pool.records) (h : x.r ≠ 0) :
    (givenUp pool x).records ≠ pool.records := by
  intro he
  rw [givenUp, if_pos (by omega)] at he
  have hsame : (pool.records.map fun y => if y.serial = x.serial then { y with r := y.r - 1 }
      else y) = pool.records.map id := by rw [List.map_id]; exact he
  have hr := congrArg Record.r (List.map_inj_left.mp hsame x hx)
  simp only [if_true, id_eq] at hr
  omega

theorem soleOwner_iff (hmalloc : Bounded tableMalloc) (hp : Mirrored recordAt p)
    (hroom : Room malloc recordAt p) (hf : p.pool.find originMem = some x) (hs : x.s < newSize)
    (h1 : x.r = 1) :
    AllOrNothing malloc tableMalloc hashFcn pointerBytes recordAt p originMem newSize ↔
      ∃ a zeros, platMemAllocate malloc p.pool newSize = some (a, zeros) ∧
        ∀ table bytes, hashDel (recordAt x.serial) p.table = .ok table →
          platMemCopy zeros x.bytes x.s = .ok bytes →
          TableGrows tableMalloc hashFcn pointerBytes (recordAt x.serial) a table := by
  have h0 : newSize ≠ 0 := by omega
  have hx := (find_some hf).1
  have hmem : recordAt x.serial ∈ p.pool.records.map fun x => recordAt x.serial :=
    List.mem_map_of_mem hx
  have hnodup : (p.pool.records.map fun x => recordAt x.serial).Nodup := hp.ordered.nodup
  obtain ⟨table, hdel, hrep, hlive⟩ := hashDel_ok hp hmem
  cases ha : platMemAllocate malloc p.pool newSize with
  | none =>
    refine (allOrNothing_of_ok (e := .returned none
      ⟨{ p.pool with clock := p.pool.clock + 1 }.delete x.serial, table⟩ [.refused]) ?_).trans ?_
    · simp only [mgnMemRallocCalls, if_neg h0, hf, if_pos hs, if_pos h1, bind_ok hdel, ha]
    · refine iff_of_false (fun h => delete_shorter hx (h List.mem_cons_self).2.1) ?_
      rintro ⟨a, zeros, h, -⟩
      cases h
  | some r =>
    obtain ⟨a, zeros⟩ := r
    cases hc : platMemCopy zeros x.bytes x.s with
    | error e =>
      refine iff_of_true (allOrNothing_of_error (e := e) ?_) ⟨a, zeros, rfl, fun _ _ _ h => ?_⟩
      · simp only [mgnMemRallocCalls, if_neg h0, hf, if_pos hs, if_pos h1, bind_ok hdel, ha, hc]
        rfl
      · rw [hc] at h
        cases h
    | ok bytes =>
      have hlen : ((p.pool.records.map fun x => recordAt x.serial).erase
          (recordAt x.serial)).length + 1 < 2 ^ 32 := by
        have hlt := hroom.length_lt
        rw [List.length_erase_of_mem hmem, List.length_map]
        omega
      refine (added_iff a (fun table => .returned (some a)
        ⟨(({ p.pool with clock := p.pool.clock + 1 }.delete x.serial).note
          [.freedMemory x.serial]).add { x with m := a, s := newSize, bytes := bytes }, table⟩
        [.allocated (.memory a), .released (.memory x.m)]) hmalloc hrep hlive
        (hp.ordered.ne_zero hmem) (hnodup.not_mem_erase) hlen (fun table h => ?_) ?_).trans ?_
      · simp [Ending.Refused] at h
      · simp only [mgnMemRallocCalls, if_neg h0, hf, if_pos hs, if_pos h1, bind_ok hdel, ha,
          bind_ok hc]
      · refine ⟨fun h => ⟨a, zeros, rfl, fun table' bytes' htable' _ => ?_⟩, ?_⟩
        · rw [hdel] at htable'
          cases htable'
          exact h
        · rintro ⟨a', zeros', h', h⟩
          cases h'
          exact h table bytes hdel hc

theorem otherOwners_iff (hmalloc : Bounded tableMalloc) (hp : Mirrored recordAt p)
    (hroom : Room malloc recordAt p) (hf : p.pool.find originMem = some x) (hs : x.s < newSize)
    (h1 : x.r ≠ 1) :
    AllOrNothing malloc tableMalloc hashFcn pointerBytes recordAt p originMem newSize ↔
      (x.r = 0 ∨ malloc.record p.pool.clock = true ∧
        (platMemAllocate malloc p.pool newSize).isSome) ∧
      NewFits malloc tableMalloc hashFcn pointerBytes recordAt p newSize
        fun zeros => platMemCopy zeros x.bytes x.s := by
  have h0 : newSize ≠ 0 := by omega
  have hx := (find_some hf).1
  -- a refusal leaves the pool as it was only where nobody has given anything up
  have hrefused : ∀ calls : List PlatCall, .refused ∈ calls →
      (∀ piece, .allocated piece ∈ calls → .released piece ∈ calls) →
      ((Ending.returned none ⟨givenUp p.pool x, p.table⟩ calls).Refused →
        (Ending.returned none ⟨givenUp p.pool x, p.table⟩ calls).Undone p ↔ x.r = 0) := by
    intro calls hmem hfreed
    refine ⟨fun h => ?_, fun hzero _ => ⟨rfl, givenUp_of_zero hzero, rfl, hfreed⟩⟩
    by_contra hne
    exact givenUp_ne hx hne (h hmem).2.1
  cases hr : malloc.record p.pool.clock with
  | false =>
    refine (allOrNothing_of_ok (e := .returned none ⟨givenUp p.pool x, p.table⟩ [.refused])
      ?_).trans ((hrefused _ List.mem_cons_self (by simp)).trans ?_)
    · simp only [mgnMemRallocCalls, if_neg h0, hf, if_pos hs, if_neg h1, hr, Bool.false_eq_true,
        if_false]
    · refine ⟨fun hzero => ⟨.inl hzero, fun h => ?_⟩, fun h => h.1.resolve_right fun h' => ?_⟩
      · rw [hr] at h
        cases h
      · cases h'.1
  | true =>
    cases ha : platMemAllocate malloc p.pool newSize with
    | none =>
      refine (allOrNothing_of_ok (e := .returned none ⟨givenUp p.pool x, p.table⟩
        [.allocated (.record p.pool.clock), .refused, .released (.record p.pool.clock)])
        ?_).trans ((hrefused _ (by simp) (by simp)).trans ?_)
      · simp only [mgnMemRallocCalls, if_neg h0, hf, if_pos hs, if_neg h1, hr, if_true, ha]
      · refine ⟨fun hzero => ⟨.inl hzero, fun _ a zeros bytes h => ?_⟩,
          fun h => h.1.resolve_right fun h' => ?_⟩
        · rw [ha] at h
          cases h
        · cases h'.2
    | some r =>
      rw [and_iff_right (.inr ⟨rfl, rfl⟩)]
      cases hc : platMemCopy r.2 x.bytes x.s with
      | error e =>
        refine iff_of_true (allOrNothing_of_error (e := e) ?_) fun _ a zeros bytes h h' => ?_
        · simp only [mgnMemRallocCalls, if_neg h0, hf, if_pos hs, if_neg h1, hr, if_true, ha, hc]
          rfl
        · rw [ha] at h
          cases h
          cases hc.symm.trans h'
      | ok bytes =>
        refine newRecord_iff (fun table => .returned (some r.1)
          ⟨(givenUp p.pool x).add (newRecord p.pool.clock r.1 newSize bytes), table⟩
          [.allocated (.record p.pool.clock), .allocated (.memory r.1)]) hmalloc hp hroom hr ha hc
          (fun table h => ?_) ?_
        · simp [Ending.Refused] at h
        · simp only [mgnMemRallocCalls, if_neg h0, hf, if_pos hs, if_neg h1, hr, if_true, ha,
            bind_ok hc]

/-- The memory of a block is lost with its last owner's failed call, a shared one loses an
owner, and a table that cannot grow ends the program; all other calls that fail change
nothing. -/
theorem allOrNothing_iff (hmalloc : Bounded tableMalloc) (hp : Mirrored recordAt p)
    (hroom : Room malloc recordAt p) :
    AllOrNothing malloc tableMalloc hashFcn pointerBytes recordAt p originMem newSize ↔
      Spared malloc tableMalloc hashFcn pointerBytes recordAt p originMem newSize := by
  rw [Spared]
  by_cases h0 : newSize = 0
  · refine (allOrNothing_of_ok (e := .returned none p []) ?_).trans
      (iff_of_true (fun h => absurd h List.not_mem_nil) ?_)
    · simp only [mgnMemRallocCalls, if_pos h0]
    · split
      · intro hs
        omega
      · exact fun _ h => absurd h0 h
  cases hf : p.pool.find originMem with
  | none =>
    rw [newBlock_iff hmalloc hp hroom h0 hf]
    exact imp_congr_right fun _ => (imp_iff_right h0).symm
  | some x =>
    dsimp only
    by_cases hs : x.s < newSize
    · rw [imp_iff_right hs]
      by_cases h1 : x.r = 1
      · rw [if_pos h1]
        exact soleOwner_iff hmalloc hp hroom hf hs h1
      · rw [if_neg h1]
        exact otherOwners_iff hmalloc hp hroom hf hs h1
    · refine (allOrNothing_of_ok (e := .returned (some x.m) p []) ?_).trans
        (iff_of_true (fun h => absurd h List.not_mem_nil) fun h => absurd h hs)
      simp only [mgnMemRallocCalls, if_neg h0, hf, gt_iff_lt, if_neg hs]

end Failure

section Returning

variable {malloc : Malloc} {tableMalloc : Nat → Nat → Bool} {hashFcn : HashFcn}
  {pointerBytes : Nat → List UInt8} {recordAt : Nat → Nat} {p p' : PoolTable}
  {originMem newSize : Nat} {answer : Option Nat} {calls : List PlatCall} {x : Record}

theorem hashAddPtr_returned {table : HashState} {items : List Nat} {mgnM newM : Nat}
    {ending : HashState → Ending} (hmalloc : Bounded tableMalloc) (h : Represents table items)
    (hlive : (table.hh mgnM).isSome) (h0 : mgnM ≠ 0) (hnot : mgnM ∉ items)
    (hsmall : items.length + 1 < 2 ^ 32)
    (hrun : hashAddPtr tableMalloc hashFcn pointerBytes mgnM newM table ending =
      .ok (.returned answer p' calls)) :
    ∃ table', ending table' = .returned answer p' calls ∧ Represents table' (items ++ [mgnM]) := by
  obtain ⟨-, table', hrun', hrep⟩ | ⟨-, hrun'⟩ :=
    hashAddPtr_cases hmalloc h hlive h0 hnot hsmall newM ending
  · exact ⟨table', Except.ok.inj (hrun'.symm.trans hrun), hrep⟩
  · cases hrun'.symm.trans hrun

theorem map_delete (pool : Pool) (hx : x ∈ pool.records)
    (hnodup : (pool.records.map fun x => recordAt x.serial).Nodup) :
    (pool.delete x.serial).records.map (fun x => recordAt x.serial) =
      (pool.records.map fun x => recordAt x.serial).erase (recordAt x.serial) := by
  rw [hnodup.erase_eq_filter, List.filter_map]
  refine congrArg _ (List.filter_congr fun y hy => ?_)
  have hinj := List.inj_on_of_nodup_map hnodup hy hx
  by_cases he : y.serial = x.serial
  · simp [he]
  · have hne : recordAt y.serial ≠ recordAt x.serial := fun h => he (by rw [hinj h])
    simp [he, hne]

theorem map_givenUp (recordAt : Nat → Nat) (pool : Pool) (x : Record) :
    (givenUp pool x).records.map (fun x => recordAt x.serial) =
      pool.records.map fun x => recordAt x.serial := by
  have hserials : (givenUp pool x).serials = pool.serials := by
    unfold givenUp
    split_ifs
    · exact serials_update fun _ => rfl
    · rfl
  have h := congrArg (List.map recordAt) hserials
  rwa [Pool.serials, Pool.serials, List.map_map, List.map_map] at h

/-- What a returning call leaves is what the pool's own model has, and the table has its
records again. -/
def Kept (malloc : Malloc) (recordAt : Nat → Nat) (p : PoolTable) (originMem newSize : Nat)
    (answer : Option Nat) (p' : PoolTable) : Prop :=
  mgnMemRalloc malloc p.pool originMem newSize = .ok (answer, p'.pool) ∧ Mirrored recordAt p'

theorem newBlock_returned (hmalloc : Bounded tableMalloc) (hp : Mirrored recordAt p)
    (hroom : Room malloc recordAt p) (h0 : newSize ≠ 0) (hf : p.pool.find originMem = none)
    (h : mgnMemRallocCalls malloc tableMalloc hashFcn pointerBytes recordAt p originMem newSize =
      .ok (.returned answer p' calls)) : Kept malloc recordAt p originMem newSize answer p' := by
  rw [Kept, mgnMemRalloc, if_neg h0, hf]
  dsimp only
  by_cases hm : originMem ≠ 0
  · simp only [mgnMemRallocCalls, if_neg h0, hf, if_pos hm] at h
    cases h
    exact ⟨if_pos hm, hp⟩
  rw [if_neg hm]
  cases hr : malloc.record p.pool.clock with
  | false =>
    simp only [mgnMemRallocCalls, if_neg h0, hf, if_neg hm, hr, Bool.false_eq_true, if_false] at h
    cases h
    exact ⟨rfl, hp⟩
  | true =>
    cases ha : platMemAllocate malloc p.pool newSize with
    | none =>
      simp only [mgnMemRallocCalls, if_neg h0, hf, if_neg hm, hr, if_true, ha] at h
      cases h
      exact ⟨rfl, hp⟩
    | some r =>
      simp only [mgnMemRallocCalls, if_neg h0, hf, if_neg hm, hr, if_true, ha] at h
      obtain ⟨hrep, hlive⟩ := putRecord_represents hp (hroom.fresh hr)
      obtain ⟨table', he, hrep'⟩ := hashAddPtr_returned hmalloc hrep hlive (hroom.ne_zero hr)
        (hroom.fresh hr) (by rw [List.length_map]; exact hroom.length_lt) h
      cases he
      refine ⟨rfl, ?_⟩
      rw [Mirrored, Pool.add, List.map_append]
      exact hrep'

theorem soleOwner_returned (hmalloc : Bounded tableMalloc) (hp : Mirrored recordAt p)
    (hroom : Room malloc recordAt p) (hf : p.pool.find originMem = some x) (hs : x.s < newSize)
    (h1 : x.r = 1)
    (h : mgnMemRallocCalls malloc tableMalloc hashFcn pointerBytes recordAt p originMem newSize =
      .ok (.returned answer p' calls)) : Kept malloc recordAt p originMem newSize answer p' := by
  have h0 : newSize ≠ 0 := by omega
  have hx := (find_some hf).1
  have hmem : recordAt x.serial ∈ p.pool.records.map fun x => recordAt x.serial :=
    List.mem_map_of_mem hx
  have hnodup : (p.pool.records.map fun x => recordAt x.serial).Nodup := hp.ordered.nodup
  have hdelete := map_delete { p.pool with clock := p.pool.clock + 1 } hx hnodup
  obtain ⟨table, hdel, hrep, hlive⟩ := hashDel_ok hp hmem
  rw [← hdelete] at hrep
  rw [Kept, mgnMemRalloc, if_neg h0, hf]
  dsimp only
  rw [if_pos hs, if_pos h1]
  cases ha : platMemAllocate malloc p.pool newSize with
  | none =>
    simp only [mgnMemRallocCalls, if_neg h0, hf, if_pos hs, if_pos h1, bind_ok hdel, ha] at h
    cases h
    exact ⟨rfl, hrep⟩
  | some r =>
    simp only [mgnMemRallocCalls, if_neg h0, hf, if_pos hs, if_pos h1, bind_ok hdel, ha] at h
    obtain ⟨bytes, hc, h⟩ := ok_of_bind h
    obtain ⟨table', he, hrep'⟩ := hashAddPtr_returned hmalloc hrep hlive
      (hp.ordered.ne_zero hmem) (by rw [hdelete]; exact hnodup.not_mem_erase) (by
        have hlt := hroom.length_lt
        rw [hdelete, List.length_erase_of_mem hmem, List.length_map]
        omega) h
    cases he
    refine ⟨bind_ok hc, ?_⟩
    rw [Mirrored, Pool.add, List.map_append]
    exact hrep'

theorem otherOwners_returned (hmalloc : Bounded tableMalloc) (hp : Mirrored recordAt p)
    (hroom : Room malloc recordAt p) (hf : p.pool.find originMem = some x) (hs : x.s < newSize)
    (h1 : x.r ≠ 1)
    (h : mgnMemRallocCalls malloc tableMalloc hashFcn pointerBytes recordAt p originMem newSize =
      .ok (.returned answer p' calls)) : Kept malloc recordAt p originMem newSize answer p' := by
  have h0 : newSize ≠ 0 := by omega
  have hgiven : Mirrored recordAt ⟨givenUp p.pool x, p.table⟩ := by
    rw [Mirrored, map_givenUp]
    exact hp
  rw [Kept, mgnMemRalloc, if_neg h0, hf]
  dsimp only
  rw [if_pos hs, if_neg h1]
  cases hr : malloc.record p.pool.clock with
  | false =>
    simp only [mgnMemRallocCalls, if_neg h0, hf, if_pos hs, if_neg h1, hr, Bool.false_eq_true,
      if_false] at h
    cases h
    exact ⟨rfl, hgiven⟩
  | true =>
    cases ha : platMemAllocate malloc p.pool newSize with
    | none =>
      simp only [mgnMemRallocCalls, if_neg h0, hf, if_pos hs, if_neg h1, hr, if_true, ha] at h
      cases h
      exact ⟨rfl, hgiven⟩
    | some r =>
      simp only [mgnMemRallocCalls, if_neg h0, hf, if_pos hs, if_neg h1, hr, if_true, ha] at h
      obtain ⟨bytes, hc, h⟩ := ok_of_bind h
      obtain ⟨hrep, hlive⟩ := putRecord_represents hp (hroom.fresh hr)
      obtain ⟨table', he, hrep'⟩ := hashAddPtr_returned hmalloc hrep hlive (hroom.ne_zero hr)
        (hroom.fresh hr) (by rw [List.length_map]; exact hroom.length_lt) h
      cases he
      refine ⟨bind_ok hc, ?_⟩
      rw [Mirrored, Pool.add, List.map_append, map_givenUp]
      exact hrep'

theorem mgnMemRallocCalls_returned (hmalloc : Bounded tableMalloc) (hp : Mirrored recordAt p)
    (hroom : Room malloc recordAt p)
    (h : mgnMemRallocCalls malloc tableMalloc hashFcn pointerBytes recordAt p originMem newSize =
      .ok (.returned answer p' calls)) : Kept malloc recordAt p originMem newSize answer p' := by
  by_cases h0 : newSize = 0
  · simp only [mgnMemRallocCalls, if_pos h0] at h
    cases h
    exact ⟨if_pos h0, hp⟩
  cases hf : p.pool.find originMem with
  | none => exact newBlock_returned hmalloc hp hroom h0 hf h
  | some x =>
    by_cases hs : x.s < newSize
    · by_cases h1 : x.r = 1
      · exact soleOwner_returned hmalloc hp hroom hf hs h1 h
      · exact otherOwners_returned hmalloc hp hroom hf hs h1 h
    · simp only [mgnMemRallocCalls, if_neg h0, hf, gt_iff_lt, if_neg hs] at h
      cases h
      exact ⟨by simp only [mgnMemRalloc, if_neg h0, hf, gt_iff_lt, if_neg hs], hp⟩

end Returning

section Blocks

def lowFirst (m : Nat) : List UInt8 := (List.range 8).map fun i => UInt8.ofNat (m / 256 ^ i)

def recordBase (serial : Nat) : Nat := 4096 + 96 * serial

def emptyMalloc : Malloc where
  memory _ _ _ := none
  record _ := true
  fresh _ _ _ _ ha := by cases ha

def emptyTable : PoolTable := ⟨⟨[], 0, []⟩, 0, none, fun _ => none, fun _ => 0, 0⟩

theorem emptyTable_mirrored : Mirrored recordBase emptyTable :=
  Hash.Table.represents_nil rfl rfl

def grown (p : PoolTable) (originMem newSize : Nat) : PoolTable :=
  match mgnMemRallocCalls bumpMalloc (fun _ size => decide (size < 2 ^ 36)) Hash.Functions.jen
    lowFirst recordBase p originMem newSize with
  | .ok (.returned _ p' _) => p'
  | _ => p

theorem grown_mirrored {p : PoolTable} (hp : Mirrored recordBase p)
    (hroom : Room bumpMalloc recordBase p) (originMem newSize : Nat) :
    Mirrored recordBase (grown p originMem newSize) := by
  rw [grown]
  split
  · exact (mgnMemRallocCalls_returned (fun _ _ h => decide_eq_false (not_lt.mpr h)) hp hroom
      ‹_›).2
  · exact hp

def oneBlock : PoolTable := grown emptyTable 0 8

theorem oneBlock_pool : oneBlock.pool = ⟨[newRecord 0 1 8 (List.replicate 8 0)], 1, []⟩ := by
  decide +kernel

theorem oneBlock_mirrored : Mirrored recordBase oneBlock :=
  grown_mirrored emptyTable_mirrored ⟨by decide, by decide, by decide⟩ 0 8

theorem oneBlock_room (malloc : Malloc) : Room malloc recordBase oneBlock := by
  refine ⟨?_, fun _ => ?_, fun _ => ?_⟩ <;> rw [oneBlock_pool] <;> decide

/-- The block gone, the block grown, and a program that ends at its first block. -/
theorem allOrNothing_iff_oneBlock :
    ¬AllOrNothing emptyMalloc (fun _ _ => false) Hash.Functions.jen lowFirst recordBase
      oneBlock 1 16 ∧
    AllOrNothing emptyMalloc (fun _ _ => false) Hash.Functions.jen lowFirst recordBase
      oneBlock 1 8 ∧
    ¬AllOrNothing bumpMalloc (fun _ _ => false) Hash.Functions.jen lowFirst recordBase
      emptyTable 0 8 := by
  refine ⟨fun h => ?_, ?_, fun h => ?_⟩
  · have hspared := (allOrNothing_iff (fun _ _ _ => rfl) oneBlock_mirrored
      (oneBlock_room emptyMalloc)).mp h
    rw [Spared, oneBlock_pool] at hspared
    obtain ⟨a, zeros, hgiven, -⟩ := hspared (by decide)
    cases hgiven
  · refine (allOrNothing_iff (fun _ _ _ => rfl) oneBlock_mirrored
      (oneBlock_room emptyMalloc)).mpr ?_
    rw [Spared, oneBlock_pool]
    exact fun h => absurd h (by decide)
  · have hspared := (allOrNothing_iff (fun _ _ _ => rfl) emptyTable_mirrored
      ⟨by decide, by decide, by decide⟩).mp h
    obtain ⟨hgranted, -⟩ := hspared rfl (by decide) rfl _ _ _ rfl rfl
    cases hgranted

/-- A block of eight bytes is gone when it could not grow to sixteen. -/
theorem not_allOrNothing :
    ¬∀ (malloc : Malloc) (tableMalloc : Nat → Nat → Bool) (hashFcn : HashFcn)
      (pointerBytes : Nat → List UInt8) (recordAt : Nat → Nat) (p : PoolTable)
      (originMem newSize : Nat), Bounded tableMalloc → Mirrored recordAt p →
      Room malloc recordAt p →
      AllOrNothing malloc tableMalloc hashFcn pointerBytes recordAt p originMem newSize := by
  intro h
  have hlost := h emptyMalloc (fun _ _ => false) Hash.Functions.jen lowFirst recordBase oneBlock 1
    16 (fun _ _ _ => rfl) oneBlock_mirrored (oneBlock_room emptyMalloc)
  obtain ⟨a, zeros, hgiven, -⟩ := (soleOwner_iff (fun _ _ _ => rfl) oneBlock_mirrored
    (oneBlock_room emptyMalloc) (by rw [oneBlock_pool]; rfl) (by decide) rfl).mp hlost
  cases hgiven

end Blocks

end LcClibs.Memory.Exhaustion
