import Mathlib
import LcClibs.Platform

namespace LcClibs.Hash.UtHash

open Platform

section Model

/-- An element and the hash handle in it go by one address, and 0 is NULL. The pointer to
the table, which is the same in every handle, is in the state. -/
structure UTHashHandle where
  prev : Nat
  next : Nat
  hhPrev : Nat
  hhNext : Nat
  key : Nat
  keylen : Nat
  hashv : UInt32
  deriving DecidableEq, Repr

structure UTHashBucket where
  hhHead : Nat
  count : Nat
  expandMult : Nat
  deriving DecidableEq, Repr

structure UTHashTable where
  buckets : List UTHashBucket
  numBuckets : Nat
  log2NumBuckets : Nat
  numItems : Nat
  tail : Nat
  idealChainMaxlen : Nat
  nonidealItems : Nat
  ineffExpands : Nat
  noexpand : Bool
  deriving DecidableEq, Repr

/-- The head variable with its table, the hash handles of the elements that are allocated,
and the bytes that keys are made of. The clock counts the calls of `uthash_malloc`. -/
structure HashState where
  head : Nat
  tbl : Option UTHashTable
  hh : Nat → Option UTHashHandle
  bytes : Nat → UInt8
  clock : Nat

/-- Why a macro does not come to its end: `uthash_fatal`, or something that must not be. -/
inductive Stop
  | fatal
  | outOfFuel
  | wild (p : Nat)
  | outside (bkt : Nat)
  | divByZero
  | oops
  deriving DecidableEq, Repr

abbrev HashM (α : Type) := StateT HashState (Except Stop) α

def getHh (p : Nat) : HashM UTHashHandle := fun s =>
  if p = 0 then .error (.wild 0)
  else
    match s.hh p with
    | some h => .ok (h, s)
    | none => .error (.wild p)

def HashState.put (s : HashState) (p : Nat) (h : UTHashHandle) : HashState :=
  { s with hh := Function.update s.hh p (some h) }

def setHh (p : Nat) (f : UTHashHandle → UTHashHandle) : HashM Unit := do
  let h ← getHh p
  modify fun s => s.put p (f h)

def getHead : HashM Nat := do return (← get).head

def setHead (p : Nat) : HashM Unit := modify fun s => { s with head := p }

/-- `(head)->hh.tbl`. -/
def getTbl : HashM UTHashTable := do
  let _ ← getHh (← getHead)
  match (← get).tbl with
  | some t => return t
  | none => throw (.wild 0)

def HashState.putTbl (s : HashState) (t : UTHashTable) : HashState := { s with tbl := some t }

def setTbl (f : UTHashTable → UTHashTable) : HashM Unit := do
  let t ← getTbl
  modify fun s => s.putTbl (f t)

def bucketAt (buckets : List UTHashBucket) (bkt : Nat) : HashM UTHashBucket :=
  match buckets[bkt]? with
  | some b => return b
  | none => throw (.outside bkt)

def setBucket (bkt : Nat) (f : UTHashBucket → UTHashBucket) : HashM Unit := do
  let t ← getTbl
  let b ← bucketAt t.buckets bkt
  setTbl fun t => { t with buckets := t.buckets.set bkt (f b) }

def bytesAt (bytes : Nat → UInt8) (p n : Nat) : List UInt8 :=
  (List.range n).map fun i => bytes (p + i)

def hashInitialNumBuckets : Nat := 32
def hashInitialNumBucketsLog2 : Nat := 5
def hashBktCapacityThresh : Nat := 10

/-- The sizes of `UT_hash_table` and `UT_hash_bucket` with pointers of eight bytes. -/
def sizeofTable : Nat := 64
def sizeofBucket : Nat := 16

def hashToBkt (hashv : UInt32) (numBkts : Nat) : Nat := hashv.toNat &&& uintSub numBkts 1

/-- A `HASH_FCN`, which sees the bytes of the key and nothing else. -/
structure HashFcn where
  value : (Nat → UInt8) → Nat → Nat → UInt32
  reads_key : ∀ bytes bytes' p p' n, bytesAt bytes p n = bytesAt bytes' p' n →
    value bytes p n = value bytes' p' n

variable (malloc : Nat → Nat → Bool) (hashFcn : HashFcn)

/-- The allocator answers or refuses at a time and for a size. -/
def uthashMalloc (size : Nat) : HashM Unit := fun s =>
  if malloc s.clock size then .ok ((), { s with clock := s.clock + 1 }) else .error .fatal

def hashMakeTable : HashM Unit := do
  uthashMalloc malloc sizeofTable
  let head ← getHead
  modify fun s => s.putTbl
    { buckets := [], numBuckets := 0, log2NumBuckets := 0, numItems := 0, tail := 0,
      idealChainMaxlen := 0, nonidealItems := 0, ineffExpands := 0, noexpand := false }
  setTbl fun t => { t with
    tail := head, numBuckets := hashInitialNumBuckets,
    log2NumBuckets := hashInitialNumBucketsLog2 }
  uthashMalloc malloc (hashInitialNumBuckets * sizeofBucket)
  setTbl fun t => { t with buckets := List.replicate hashInitialNumBuckets ⟨0, 0, 0⟩ }

def hashAppendList (add : Nat) : HashM Unit := do
  setHh add fun h => { h with next := 0 }
  let t ← getTbl
  setHh add fun h => { h with prev := t.tail }
  setHh t.tail fun h => { h with next := add }
  setTbl fun t => { t with tail := add }

def expandBucket (numBuckets ideal : Nat) :
    Nat → Nat → List UTHashBucket → Nat → HashM (List UTHashBucket × Nat)
  | 0, _, _, _ => throw .outOfFuel
  | fuel + 1, thh, newBuckets, nonideal =>
    if thh = 0 then return (newBuckets, nonideal)
    else do
      let h ← getHh thh
      let bkt := hashToBkt h.hashv numBuckets
      let newbkt ← bucketAt newBuckets bkt
      let count := uint (newbkt.count + 1)
      let (nonideal, mult) ←
        (if count > ideal then
          if ideal = 0 then throw .divByZero
          else return (uint (nonideal + 1), count / ideal)
        else return (nonideal, newbkt.expandMult))
      setHh thh fun h => { h with hhPrev := 0 }
      setHh thh fun h => { h with hhNext := newbkt.hhHead }
      (if newbkt.hhHead ≠ 0 then setHh newbkt.hhHead fun h => { h with hhPrev := thh } else pure ())
      expandBucket numBuckets ideal fuel h.hhNext (newBuckets.set bkt ⟨thh, count, mult⟩) nonideal

def expandFrom (t : UTHashTable) (numBuckets ideal : Nat) :
    Nat → Nat → List UTHashBucket → Nat → HashM (List UTHashBucket × Nat)
  | _, 0, newBuckets, nonideal => return (newBuckets, nonideal)
  | i, left + 1, newBuckets, nonideal => do
    let b ← bucketAt t.buckets i
    let (newBuckets, nonideal) ←
      expandBucket numBuckets ideal (t.numItems + 1) b.hhHead newBuckets nonideal
    expandFrom t numBuckets ideal (i + 1) left newBuckets nonideal

def idealChainMaxlenOf (numItems log2NumBuckets numBuckets : Nat) : Nat :=
  uint (numItems >>> (log2NumBuckets + 1) +
    if numItems &&& uintSub (uint (numBuckets * 2)) 1 ≠ 0 then 1 else 0)

def hashExpandBuckets : HashM Unit := do
  let t ← getTbl
  uthashMalloc malloc (2 * t.numBuckets * sizeofBucket)
  let ideal := idealChainMaxlenOf t.numItems t.log2NumBuckets t.numBuckets
  let (newBuckets, nonideal) ←
    expandFrom t (uint (t.numBuckets * 2)) ideal 0 t.numBuckets
      (List.replicate (2 * t.numBuckets) ⟨0, 0, 0⟩) 0
  let ineffExpands := if nonideal > t.numItems >>> 1 then uint (t.ineffExpands + 1) else 0
  setTbl fun t => { t with
    idealChainMaxlen := ideal
    nonidealItems := nonideal
    numBuckets := uint (t.numBuckets * 2)
    log2NumBuckets := uint (t.log2NumBuckets + 1)
    buckets := newBuckets
    ineffExpands := ineffExpands
    noexpand := t.noexpand || decide (ineffExpands > 1) }

def pushBkt (bkt add : Nat) : HashM Unit := do
  setBucket bkt fun b => { b with count := uint (b.count + 1) }
  let b ← bucketAt (← getTbl).buckets bkt
  setHh add fun h => { h with hhNext := b.hhHead }
  setHh add fun h => { h with hhPrev := 0 }
  (if b.hhHead ≠ 0 then setHh b.hhHead fun h => { h with hhPrev := add } else pure ())
  setBucket bkt fun b => { b with hhHead := add }

def hashAddToBkt (bkt add : Nat) : HashM Unit := do
  pushBkt bkt add
  let t ← getTbl
  let b ← bucketAt t.buckets bkt
  if b.count ≥ uint (uint (b.expandMult + 1) * hashBktCapacityThresh) ∧ t.noexpand = false then
    hashExpandBuckets malloc
  else return ()

def setKey (keyptr keylenIn : Nat) (hashval : UInt32) (add : Nat) : HashM Unit :=
  setHh add fun h => { h with hashv := hashval, key := keyptr, keylen := uint keylenIn }

def addFirst (add : Nat) : HashM Unit := do
  setHh add fun h => { h with next := 0, prev := 0 }
  setHead add
  hashMakeTable malloc

def addLast (hashval : UInt32) (add : Nat) : HashM Unit := do
  setTbl fun t => { t with numItems := uint (t.numItems + 1) }
  let t ← getTbl
  hashAddToBkt malloc (hashToBkt hashval t.numBuckets) add

def hashAddKeyptrByhashvalue (keyptr keylenIn : Nat) (hashval : UInt32) (add : Nat) :
    HashM Unit := do
  setKey keyptr keylenIn hashval add
  (if (← getHead) = 0 then addFirst malloc add else hashAppendList add)
  addLast malloc hashval add

def hashAddKeyptr (keyptr keylenIn add : Nat) : HashM Unit := do
  hashAddKeyptrByhashvalue malloc keyptr keylenIn
    (hashFcn.value (← get).bytes keyptr keylenIn) add

/-- The walk to the first element that is larger, or to NULL. -/
def hashAkbiInnerLoop (cmpfcn : Nat → Nat → Int) (add : Nat) : Nat → Nat → HashM Nat
  | 0, _ => throw .outOfFuel
  | fuel + 1, iter =>
    if cmpfcn iter add > 0 then return iter
    else do
      let h ← getHh iter
      if h.next ≠ 0 then hashAkbiInnerLoop cmpfcn add fuel h.next else return 0

def insertBefore (iter add : Nat) : HashM Unit := do
  setHh add fun h => { h with next := iter }
  let i ← getHh iter
  setHh add fun h => { h with prev := i.prev }
  (if i.prev ≠ 0 then setHh i.prev fun h => { h with next := add } else setHead add)
  setHh iter fun h => { h with prev := add }

/-- Nothing to go past means the end. -/
def addInside (cmpfcn : Nat → Nat → Int) (add : Nat) : HashM Unit := do
  let iter ← hashAkbiInnerLoop cmpfcn add ((← getTbl).numItems + 1) (← getHead)
  if iter ≠ 0 then insertBefore iter add else hashAppendList add

def hashAddKeyptrByhashvalueInorder (keyptr keylenIn : Nat) (hashval : UInt32) (add : Nat)
    (cmpfcn : Nat → Nat → Int) : HashM Unit := do
  setKey keyptr keylenIn hashval add
  (if (← getHead) = 0 then addFirst malloc add else addInside cmpfcn add)
  addLast malloc hashval add

def hashAddKeyptrInorder (keyptr keylenIn add : Nat) (cmpfcn : Nat → Nat → Int) : HashM Unit := do
  hashAddKeyptrByhashvalueInorder malloc keyptr keylenIn
    (hashFcn.value (← get).bytes keyptr keylenIn) add cmpfcn

def hashFindInBkt (keyptr keylenIn : Nat) (hashval : UInt32) : Nat → Nat → HashM Nat
  | 0, _ => throw .outOfFuel
  | fuel + 1, out =>
    if out = 0 then return 0
    else do
      let h ← getHh out
      let bytes := (← get).bytes
      if h.hashv = hashval ∧ h.keylen = keylenIn ∧
          bytesAt bytes h.key keylenIn = bytesAt bytes keyptr keylenIn then return out
      else hashFindInBkt keyptr keylenIn hashval fuel h.hhNext

def hashFindByhashvalue (keyptr keylenIn : Nat) (hashval : UInt32) : HashM Nat := do
  if (← getHead) = 0 then return 0
  else
    let t ← getTbl
    let b ← bucketAt t.buckets (hashToBkt hashval t.numBuckets)
    hashFindInBkt keyptr keylenIn hashval (t.numItems + 1) b.hhHead

def hashFind (keyptr keylenIn : Nat) : HashM Nat := do
  hashFindByhashvalue keyptr keylenIn (hashFcn.value (← get).bytes keyptr keylenIn)

def hashDelInBkt (bkt delhh : Nat) : HashM Unit := do
  setBucket bkt fun b => { b with count := uintSub b.count 1 }
  let b ← bucketAt (← getTbl).buckets bkt
  let d ← getHh delhh
  (if b.hhHead = delhh then setBucket bkt fun b => { b with hhHead := d.hhNext } else pure ())
  (if d.hhPrev ≠ 0 then setHh d.hhPrev fun h => { h with hhNext := d.hhNext } else pure ())
  let d ← getHh delhh
  (if d.hhNext ≠ 0 then setHh d.hhNext fun h => { h with hhPrev := d.hhPrev } else pure ())

/-- The patch-up of the list in application order. -/
def unlinkOrder (delptr : Nat) : HashM Unit := do
  let t ← getTbl
  let d ← getHh delptr
  (if delptr = t.tail then setTbl fun t => { t with tail := d.prev } else pure ())
  (if d.prev ≠ 0 then setHh d.prev fun h => { h with next := d.next } else setHead d.next)
  let d ← getHh delptr
  (if d.next ≠ 0 then setHh d.next fun h => { h with prev := d.prev } else pure ())

/-- The table is freed with its last element. -/
def hashDelete (delptr : Nat) : HashM Unit := do
  let d ← getHh delptr
  if d.prev = 0 ∧ d.next = 0 then do
    let _ ← getTbl
    modify fun s => { s with tbl := none, head := 0 }
  else do
    unlinkOrder delptr
    let d ← getHh delptr
    hashDelInBkt (hashToBkt d.hashv (← getTbl).numBuckets) delptr
    setTbl fun t => { t with numItems := uintSub t.numItems 1 }

def hashReplaceByhashvalue (keyptr keylenIn : Nat) (hashval : UInt32) (add : Nat) :
    HashM Nat := do
  let replaced ← hashFindByhashvalue keyptr keylenIn hashval
  (if replaced ≠ 0 then hashDelete replaced else pure ())
  hashAddKeyptrByhashvalue malloc keyptr keylenIn hashval add
  return replaced

def hashReplace (keyptr keylenIn add : Nat) : HashM Nat := do
  hashReplaceByhashvalue malloc keyptr keylenIn
    (hashFcn.value (← get).bytes keyptr keylenIn) add

def hashReplaceByhashvalueInorder (keyptr keylenIn : Nat) (hashval : UInt32) (add : Nat)
    (cmpfcn : Nat → Nat → Int) : HashM Nat := do
  let replaced ← hashFindByhashvalue keyptr keylenIn hashval
  (if replaced ≠ 0 then hashDelete replaced else pure ())
  hashAddKeyptrByhashvalueInorder malloc keyptr keylenIn hashval add cmpfcn
  return replaced

def hashReplaceInorder (keyptr keylenIn add : Nat) (cmpfcn : Nat → Nat → Int) : HashM Nat := do
  hashReplaceByhashvalueInorder malloc keyptr keylenIn
    (hashFcn.value (← get).bytes keyptr keylenIn) add cmpfcn

def hashCount : HashM Nat := do
  if (← getHead) ≠ 0 then return (← getTbl).numItems else return 0

def hashClear : HashM Unit := do
  if (← getHead) ≠ 0 then do
    let _ ← getTbl
    modify fun s => { s with tbl := none, head := 0 }
  else return ()

def nextOf (p : Nat) : HashM Nat := do
  if p ≠ 0 then return (← getHh p).next else return 0

/-- The loop of `HASH_ITER`: the element behind is read before the body runs. -/
def hashIterFrom (body : Nat → HashM Unit) : Nat → Nat → Nat → HashM Unit
  | 0, _, _ => throw .outOfFuel
  | fuel + 1, el, tmp =>
    if el ≠ 0 then do
      body el
      hashIterFrom body fuel tmp (← nextOf tmp)
    else return ()

def hashIter (body : Nat → HashM Unit) : HashM Unit := do
  let head ← getHead
  hashIterFrom body ((← hashCount) + 1) head (← nextOf head)

def freeElement (el : Nat) : HashM Unit := do
  let _ ← getHh el
  modify fun s => { s with hh := Function.update s.hh el none }

end Model

section Fsck

/-- A walk over one of the two lists that checks the links backwards and counts. -/
def fsckWalk (link : UTHashHandle → Nat × Nat) : Nat → Nat → Nat → Nat → HashM Nat
  | 0, _, _, _ => throw .outOfFuel
  | fuel + 1, prev, thh, count =>
    if thh = 0 then return count
    else do
      let h ← getHh thh
      if prev ≠ (link h).1 then throw .oops
      else fsckWalk link fuel thh (link h).2 (uint (count + 1))

def fsckBuckets (t : UTHashTable) : Nat → Nat → Nat → HashM Nat
  | _, 0, count => return count
  | i, left + 1, count => do
    let b ← bucketAt t.buckets i
    let bktCount ← fsckWalk (fun h => (h.hhPrev, h.hhNext)) (t.numItems + 1) 0 b.hhHead 0
    if b.count ≠ bktCount then throw .oops
    else fsckBuckets t (i + 1) left (uint (count + bktCount))

/-- `HASH_FSCK`, as it is with `HASH_DEBUG`. -/
def hashFsck : HashM Unit := do
  let head ← getHead
  if head = 0 then return ()
  else do
    let t ← getTbl
    let count ← fsckBuckets t 0 t.numBuckets 0
    (if count ≠ t.numItems then throw .oops else pure ())
    let count ← fsckWalk (fun h => (h.prev, h.next)) (t.numItems + 1) 0 head 0
    if count ≠ t.numItems then throw .oops else return ()

end Fsck

end LcClibs.Hash.UtHash
