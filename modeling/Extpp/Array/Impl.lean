import Extpp.Array.Growth

/-!
`raw_array_impl` (src/src/container/array.cpp): a dynamic array of fixed-size values stored
back to back in the blocks of an extent, `block_capacity` values to a block.

The extent is modelled from its contract in the spec (its sources are not in the repository).
Every allocator or engine call may fail: an `Env` says, for one call of the array, whether the
extent's resize fails, which block pins fail, and the bytes of blocks a resize hands out.
Operations run in `EStateM`, so a failing call keeps the effects made before the failure, as
the C++ exception does. `PREQUEL_ASSERT` is a debug check and no part of the modelled build.
-/

set_option autoImplicit false

namespace Extpp

/-- The library's error kinds an array call raises or lets through. -/
inductive Error where
  | badArgument (what : String)
  | badOperation (what : String)
  | overflow
  | ioError
  | cacheExhausted
  deriving DecidableEq, Repr

/-- The allocator's and the engine's answers during one call of the array. -/
structure Env where
  resizeFault : Option Error
  pinFault : Nat → Option Error
  fresh : Nat → Bytes

def Env.quiet : Env := ⟨none, fun _ => none, fun _ _ => 0⟩

def Env.Raises (env : Env) (e : Error) : Prop :=
  env.resizeFault = some e ∨ ∃ b, env.pinFault b = some e

/-- Modelled from the spec: `extent`, as its length and the bytes of its blocks. -/
structure Extent where
  length : Nat
  data : Nat → Bytes

namespace Extent

variable (env : Env) (e : Extent)

/-- Modelled from the spec: `resize(n)` keeps the first `min(length, n)` blocks, and a failure
leaves the extent unchanged. -/
def resize (n : Nat) : Except Error Extent :=
  match env.resizeFault with
  | some err => .error err
  | none => .ok ⟨n, fun i => if i < e.length then e.data i else env.fresh i⟩

/-- Modelled from the spec: `reset()` is `resize(0)`. -/
def reset : Except Error Extent := e.resize env 0

/-- Modelled from the spec: `read(i)` pins block `i`, `bad_argument` outside the extent. -/
def read (i : Nat) : Except Error Bytes :=
  if i < e.length then
    match env.pinFault i with
    | some err => .error err
    | none => .ok (e.data i)
  else .error (.badArgument "Block index out of range.")

/-- Modelled from the spec: `overwrite_zero(i)` pins block `i` zero-filled, without reading. -/
def overwriteZero (i : Nat) : Except Error Bytes :=
  if i < e.length then
    match env.pinFault i with
    | some err => .error err
    | none => .ok fun _ => 0
  else .error (.badArgument "Block index out of range.")

def store (i : Nat) (b : Bytes) : Extent := ⟨e.length, fun j => if j = i then b else e.data j⟩

end Extent

def calcBlockCapacity (blockSize valueSize : Nat) : Option Nat := cppDiv blockSize valueSize

def calcOffsetInBlock (valueSize index : Nat) : Nat := wrap32 (valueSize * index)

/-- Modelled from the spec: `checked_add`, which fails with `overflow` past `u64`. -/
def checkedAdd (a b : Nat) : Option Nat := if a + b < 2 ^ 64 then some (a + b) else none

/-- The constants a `raw_array_impl`'s constructor fixes. -/
structure RawArrayImpl where
  valueSize : Nat
  blockSize : Nat
  blockCapacity : Nat
  blockSize_lt : blockSize < 2 ^ 32
  blockCapacity_eq : blockCapacity = blockSize / valueSize
  blockCapacity_pos : 0 < blockCapacity

/-- What the operations change: the anchor's `size` and `storage`, and `m_growth`. -/
structure ArrayState where
  size : Nat
  extent : Extent
  growth : GrowthStrategy

def ArrayState.empty : ArrayState := ⟨0, ⟨0, fun _ _ => 0⟩, .exponential⟩

theorem calcBlockCapacity_eq {bs vs bc : Nat} (h : calcBlockCapacity bs vs = some bc) :
    bc = bs / vs := by
  unfold calcBlockCapacity cppDiv at h
  split_ifs at h
  exact (Option.some.inj h).symm

/-- `raw_array_impl(anchor, value_size, alloc)`; `none` is the division by a zero value size. -/
def RawArrayImpl.construct (valueSize blockSize : UInt32) : Option (Except Error RawArrayImpl) :=
  match h : calcBlockCapacity blockSize.toNat valueSize.toNat with
  | none => none
  | some bc =>
    if hbc : bc = 0 then some (.error (.badArgument "Block size too small to fit a single value."))
    else some (.ok ⟨valueSize.toNat, blockSize.toNat, bc, blockSize.toNat_lt_size,
      calcBlockCapacity_eq h, Nat.pos_of_ne_zero hbc⟩)

abbrev ArrayM := EStateM Error ArrayState

namespace ArrayState

def blocks (s : ArrayState) : Nat := s.extent.length

def newSize (s : ArrayState) (minimum : Nat) : Nat := s.growth.newSize minimum

end ArrayState

namespace RawArrayImpl

variable (a : RawArrayImpl) (env : Env)

def capacity (s : ArrayState) : Nat := wrap64 (s.blocks * a.blockCapacity)

def byteSize (s : ArrayState) : Nat := wrap64 (s.blocks * a.blockSize)

def blockIndex (index : Nat) : Nat := index / a.blockCapacity

def blockOffset (index : Nat) : Nat := index % a.blockCapacity

def resizeExtent (minimum : Nat) (exact : Bool) : ArrayM Unit := fun s =>
  match s.extent.resize env (if exact then minimum else s.newSize minimum) with
  | .ok e => .ok () { s with extent := e }
  | .error err => .error err s

def checkIndex (index : Nat) : ArrayM Unit := fun s =>
  if index ≥ s.size then .error (.badArgument "Index out of bounds.") s else .ok () s

def create (blkIndex : Nat) : ArrayM Bytes := fun s =>
  match s.extent.overwriteZero env blkIndex with
  | .ok b => .ok b s
  | .error err => .error err s

def read (blkIndex : Nat) : ArrayM Bytes := fun s =>
  match s.extent.read env blkIndex with
  | .ok b => .ok b s
  | .error err => .error err s

/-- `blk_offset == 0 ? create(blk_index) : read(blk_index)`. -/
def pin (blkIndex blkOffset : Nat) : ArrayM Bytes :=
  if blkOffset = 0 then create env blkIndex else read env blkIndex

def writeBlock (blkIndex : Nat) (b : Bytes) : ArrayM Unit := fun s =>
  .ok () { s with extent := s.extent.store blkIndex b }

def setSize (n : Nat) : ArrayM Unit := fun s => .ok () { s with size := n }

def get (index : Nat) : ArrayM (List UInt8) := do
  checkIndex index
  let handle ← read env (a.blockIndex index)
  pure (load handle (calcOffsetInBlock a.valueSize (a.blockOffset index)) a.valueSize)

def set (index : Nat) (value : Bytes) : ArrayM Unit := do
  checkIndex index
  let handle ← read env (a.blockIndex index)
  writeBlock (a.blockIndex index)
    (memmove handle (calcOffsetInBlock a.valueSize (a.blockOffset index)) value 0 a.valueSize)

def reserve (n : Nat) : ArrayM Unit := do
  let s ← EStateM.get
  let neededBlocks := ceilDiv n a.blockCapacity
  if neededBlocks > s.blocks then resizeExtent env neededBlocks false

def shrink (exact : Bool) : ArrayM Unit := do
  let s ← EStateM.get
  resizeExtent env (ceilDiv s.size a.blockCapacity) exact

def pushBack (value : Bytes) : ArrayM Unit := do
  let s ← EStateM.get
  let sz := s.size
  let blkIndex := a.blockIndex sz
  let blkOffset := a.blockOffset sz
  (if blkIndex = s.blocks then resizeExtent env (wrap64 (s.blocks + 1)) false else pure ())
  let handle ← pin env blkIndex blkOffset
  writeBlock blkIndex
    (memmove handle (calcOffsetInBlock a.valueSize blkOffset) value 0 a.valueSize)
  setSize (wrap64 (sz + 1))

def popBack : ArrayM Unit := do
  let s ← EStateM.get
  if s.size = 0 then throw (.badOperation "Array is empty.")
  setSize (s.size - 1)

def reset : ArrayM Unit := do
  let s ← EStateM.get
  match s.extent.reset env with
  | .ok e => EStateM.set { s with extent := e }
  | .error err => throw err
  setSize 0

def copyValues (data : Bytes) (off : Nat) (value : Bytes) : Nat → Bytes
  | 0 => data
  | k + 1 => copyValues (memmove data off value 0 a.valueSize) (off + a.valueSize) value k

def initValues (value : Option Bytes) (data : Bytes) (off writable : Nat) : Bytes :=
  match value with
  | some v => a.copyValues data off v writable
  | none => memset data off 0 (wrap32 (writable * a.valueSize))

/-- The loop of `resize` over the new cells; `remaining` rounds of `fuel` are enough. -/
def fill (value : Option Bytes) : Nat → Nat → Nat → Nat → ArrayM Unit
  | 0, _, _, _ => pure ()
  | fuel + 1, blkIndex, blkOffset, remaining =>
    if remaining = 0 then pure ()
    else do
      let handle ← pin env blkIndex blkOffset
      let writable := min remaining (a.blockCapacity - blkOffset)
      writeBlock blkIndex
        (a.initValues value handle (calcOffsetInBlock a.valueSize blkOffset) writable)
      fill value fuel (blkIndex + 1) 0 (remaining - writable)

def resize (n : Nat) (value : Option Bytes) : ArrayM Unit := do
  let s ← EStateM.get
  let sz := s.size
  if n = sz then pure ()
  else if n < sz then setSize n
  else do
    a.reserve env n
    a.fill env value (n - sz) (a.blockIndex sz) (a.blockOffset sz) (n - sz)
    setSize n

def clear : ArrayM Unit := a.resize env 0 none

def reserveAdditional (n : Nat) : ArrayM Unit := do
  let s ← EStateM.get
  match checkedAdd n s.size with
  | some m => a.reserve env m
  | none => throw .overflow

def setGrowth (g : GrowthStrategy) : ArrayM Unit := fun s => .ok () { s with growth := g }

end RawArrayImpl

/-- The mutating calls of `raw_array`. -/
inductive Op where
  | pushBack (value : Bytes)
  | popBack
  | set (index : Nat) (value : Bytes)
  | resize (n : Nat) (value : Option Bytes)
  | clear
  | reset
  | reserve (n : Nat)
  | reserveAdditional (n : Nat)
  | shrink
  | shrinkToFit
  | growth (g : GrowthStrategy)

namespace RawArrayImpl

variable (a : RawArrayImpl)

def exec (env : Env) : Op → ArrayM Unit
  | .pushBack v => a.pushBack env v
  | .popBack => popBack
  | .set i v => a.set env i v
  | .resize n v => a.resize env n v
  | .clear => a.clear env
  | .reset => reset env
  | .reserve n => a.reserve env n
  | .reserveAdditional n => a.reserveAdditional env n
  | .shrink => a.shrink env false
  | .shrinkToFit => a.shrink env true
  | .growth g => setGrowth g

def after {α : Type} : EStateM.Result Error ArrayState α → ArrayState
  | .ok _ s => s
  | .error _ s => s

def run (s : ArrayState) : List (Op × Env) → ArrayState
  | [] => s
  | (op, env) :: rest => run (after (a.exec env op s)) rest

end RawArrayImpl

end Extpp
