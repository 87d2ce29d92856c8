import Mathlib
import LcClibs.Platform

namespace LcClibs.Memory.Managed

open Platform

section Model

/-- A block of the pool with the memory that `m` points to. The callback is the one
that releases the blocks its own block owns, or null. The serial number is no field
of the program: it tells apart two blocks that get the same address one after the other. -/
structure Record where
  serial : Nat
  m : Nat
  s : Nat
  r : Nat
  cb : Bool
  bytes : List UInt8
  deriving DecidableEq, Repr

/-- What happens to a block. A callback is noted with whether its block is in the
pool, a removal with the retained count and whether it is part of emptying the pool. -/
inductive Event
  | callback (serial : Nat) (inPool : Bool)
  | removed (serial r : Nat) (emptying : Bool)
  | freedMemory (serial : Nat)
  | freedRecord (serial : Nat)
  deriving DecidableEq, Repr

/-- The hash table in the order of insertion. The clock counts the calls of the
allocator and is the source of serial numbers. -/
structure Pool where
  records : List Record
  clock : Nat
  log : List Event
  deriving DecidableEq, Repr

/-- Why a computation on the pool does not come to its end. A loop of the program may have no
end of its own. -/
inductive Stop
  | outOfFuel
  | endless
  | useAfterFree (serial : Nat)
  | fault (f : Fault)
  deriving DecidableEq, Repr

/-- The allocator of the platform: at any time, given the addresses in use and a
size, it fails or answers with a new address. -/
structure Malloc where
  memory : Nat → List Nat → Nat → Option Nat
  record : Nat → Bool
  fresh : ∀ t live size a, memory t live size = some a → a ≠ 0 ∧ a ∉ live

def sizeT (n : Nat) : Nat := n % 2 ^ 64

def Pool.find (pool : Pool) (mem : Nat) : Option Record :=
  pool.records.find? fun x => x.m = mem

def Pool.live (pool : Pool) : List Nat := pool.records.map Record.m

def Pool.serials (pool : Pool) : List Nat := pool.records.map Record.serial

def Pool.update (pool : Pool) (serial : Nat) (f : Record → Record) : Pool :=
  { pool with records := pool.records.map fun x => if x.serial = serial then f x else x }

def Pool.delete (pool : Pool) (serial : Nat) : Pool :=
  { pool with records := pool.records.filter fun x => x.serial ≠ serial }

def Pool.add (pool : Pool) (x : Record) : Pool := { pool with records := pool.records ++ [x] }

def Pool.note (pool : Pool) (events : List Event) : Pool := { pool with log := pool.log ++ events }

/-- `HASH_DEL` and the two `plat_mem_release`. A record that has gone is not
to be touched again. -/
def Pool.free (pool : Pool) (serial : Nat) (emptying : Bool) : Except Stop Pool :=
  match pool.records.find? fun x => x.serial = serial with
  | some x => .ok ((pool.delete serial).note
      [.removed serial x.r emptying, .freedMemory serial, .freedRecord serial])
  | none => .error (.useAfterFree serial)

/-- `plat_mem_copy`, whose size is a `uint`, into a memory at another address. -/
def platMemCopy (dest src : List UInt8) (size : Nat) : Except Stop (List UInt8) :=
  if src.length < uint size then .error (.fault (.readOutside src.length))
  else if dest.length < uint size then .error (.fault (.writeOutside dest.length))
  else .ok (src.take (uint size) ++ dest.drop (uint size))

variable (malloc : Malloc) (owned : Nat → List Nat)

/-- `plat_mem_allocate`, whose size is a `uint`: an address and the zeroed memory. -/
def platMemAllocate (pool : Pool) (size : Nat) : Option (Nat × List UInt8) :=
  (malloc.memory pool.clock pool.live (uint size)).map fun a => (a, List.replicate (uint size) 0)

def newRecord (serial m s : Nat) (bytes : List UInt8) : Record :=
  { serial := serial, m := m, s := s, r := 1, cb := false, bytes := bytes }

def mgnMemRalloc (pool : Pool) (originMem newSize : Nat) : Except Stop (Option Nat × Pool) :=
  let pool' := { pool with clock := pool.clock + 1 }
  if newSize = 0 then .ok (none, pool)
  else
    match pool.find originMem with
    | some x =>
      if newSize > x.s then
        if x.r = 1 then
          match platMemAllocate malloc pool newSize with
          | none => .ok (none, pool'.delete x.serial)
          | some (a, zeros) => do
            let bytes ← platMemCopy zeros x.bytes x.s
            return (some a, ((pool'.delete x.serial).note [.freedMemory x.serial]).add
              { x with m := a, s := newSize, bytes := bytes })
        else
          let pool' := if x.r > 0 then pool'.update x.serial fun x => { x with r := x.r - 1 }
            else pool'
          if malloc.record pool.clock then
            match platMemAllocate malloc pool newSize with
            | none => .ok (none, pool')
            | some (a, zeros) => do
              let bytes ← platMemCopy zeros x.bytes x.s
              return (some a, pool'.add (newRecord pool.clock a newSize bytes))
          else .ok (none, pool')
      else .ok (some x.m, pool)
    | none =>
      if originMem ≠ 0 then .ok (none, pool)
      else if malloc.record pool.clock then
        match platMemAllocate malloc pool newSize with
        | none => .ok (none, pool')
        | some (a, zeros) => .ok (some a, pool'.add (newRecord pool.clock a newSize zeros))
      else .ok (none, pool')

def mgnMemAlloc (pool : Pool) (newSize : Nat) : Except Stop (Option Nat × Pool) :=
  mgnMemRalloc malloc pool 0 newSize

def mgnMemRetain (pool : Pool) (originMem : Nat) : Option Nat × Pool :=
  match pool.find originMem with
  | some x => (some x.m, pool.update x.serial fun x => { x with r := sizeT (x.r + 1) })
  | none => (none, pool)

/-- The release function. The callback of a block releases, one after the other,
the blocks that the block owns; the fuel bounds the nesting of callbacks. -/
def mgnMemReleaseImpl : Nat → Nat → Bool → Bool → Pool → Except Stop Pool
  | 0, _, _, _, _ => .error .outOfFuel
  | fuel + 1, originMem, release, cb, pool =>
    match pool.find originMem with
    | none => .ok pool
    | some x =>
      if x.r = 0 then .ok pool
      else do
        let pool := pool.update x.serial fun x => { x with r := x.r - 1, cb := cb }
        if x.r - 1 = 0 ∧ release then
          let pool ←
            if cb then
              (owned x.serial).foldlM (fun pool mem => mgnMemReleaseImpl fuel mem true true pool)
                (pool.note [.callback x.serial (x.serial ∈ pool.serials)])
            else pure pool
          pool.free x.serial false
        else return pool

/-- The sum of the retained counts, which bounds how deep callbacks nest. -/
def Pool.retained (pool : Pool) : Nat := (pool.records.map Record.r).sum

def mgnMemReleaseWCb (pool : Pool) (originMem : Nat) : Except Stop Pool :=
  mgnMemReleaseImpl owned (pool.retained + 1) originMem true true pool

def mgnMemAutoreleaseWCb (pool : Pool) (originMem : Nat) : Except Stop Pool :=
  mgnMemReleaseImpl owned (pool.retained + 1) originMem false true pool

def callback (pool : Pool) (serial : Nat) : Except Stop Pool :=
  (owned serial).foldlM (fun pool mem => mgnMemReleaseWCb owned pool mem)
    (pool.note [.callback serial (serial ∈ pool.serials)])

def batchSize : Nat := 16

def unusedBatch (pool : Pool) : List Nat :=
  ((pool.records.filter fun x => x.r = 0).map Record.m).take batchSize

def sweep (pool : Pool) (mem : Nat) : Except Stop Pool :=
  match pool.find mem with
  | none => .ok pool
  | some x =>
    if x.r = 0 then do
      let pool ← if x.cb then callback owned pool x.serial else pure pool
      pool.free x.serial false
    else .ok pool

def releaseUnusedLoop : Nat → Pool → Except Stop Pool
  | 0, _ => .error .outOfFuel
  | fuel + 1, pool => do
    let batch := unusedBatch pool
    let pool ← batch.foldlM (sweep owned) pool
    if batch.length ≥ batchSize then releaseUnusedLoop fuel pool else return pool

def mgnMemReleaseUnused (pool : Pool) : Except Stop Pool :=
  releaseUnusedLoop owned (pool.records.length + 1) pool

def mgnMemReleaseAll (pool : Pool) : Except Stop Pool :=
  pool.serials.foldlM (fun pool serial => pool.free serial true) pool

def mgnMemRetainedCount (pool : Pool) (originMem : Nat) : Nat :=
  match pool.find originMem with
  | some x => x.r
  | none => 0

def mgnMemCountOfMem (pool : Pool) : Nat := pool.records.length

end Model

end LcClibs.Memory.Managed
