import Extpp.Machine

/-!
`raw_btree_leaf_node` (src/src/extpp/raw_btree_leaf_node.hpp). A leaf is a block holding a
`u32` size header followed by `m_capacity` value slots of `m_value_size` bytes. Every
operation is the sequence of `memmove` calls the source makes on the block's bytes; the
`EXTPP_ASSERT` preconditions are the hypotheses of the theorems, not checks.
-/

set_option autoImplicit false

namespace Extpp

/-- A leaf: its pinned block's bytes, `m_value_size`, and `m_capacity`. -/
structure RawBtreeLeafNode where
  block : Bytes
  valueSize : Nat
  maxSize : Nat

namespace RawBtreeLeafNode

def headerSize : Nat := 4

/-- `raw_btree_leaf_node::capacity(block_size, value_size)`. -/
def capacity (blockSize valueSize : Nat) : Option Nat :=
  if blockSize < headerSize then some 0 else cppDiv (blockSize - headerSize) valueSize

theorem capacity_le {bs vs c : Nat} (h : capacity bs vs = some c) : c ≤ bs := by
  unfold capacity cppDiv at h
  split_ifs at h <;> cases h
  · exact Nat.zero_le _
  · exact le_trans (Nat.div_le_self _ _) (Nat.sub_le _ _)

variable (n : RawBtreeLeafNode)

def offsetOfValue (index : Nat) : Nat := headerSize + n.valueSize * index

def getSize : Nat := loadU32 n.block 0

def setSize (newSize : Nat) : RawBtreeLeafNode := { n with block := storeU32 n.block 0 newSize }

def minSize : Nat := n.maxSize / 2

def get (index : Nat) : List UInt8 := load n.block (n.offsetOfValue index) n.valueSize

def set (index : Nat) (value : Bytes) : RawBtreeLeafNode :=
  { n with block := memmove n.block (n.offsetOfValue index) value 0 n.valueSize }

def insertNonfull (index : Nat) (value : Bytes) : RawBtreeLeafNode :=
  let size := n.getSize
  let data := memmove n.block (n.offsetOfValue (index + 1)) n.block (n.offsetOfValue index)
    ((size - index) * n.valueSize)
  let data := memmove data (n.offsetOfValue index) value 0 n.valueSize
  { n with block := data }.setSize (size + 1)

def remove (index : Nat) : RawBtreeLeafNode :=
  let size := n.getSize
  let data := memmove n.block (n.offsetOfValue index) n.block (n.offsetOfValue (index + 1))
    ((size - index - 1) * n.valueSize)
  { n with block := data }.setSize (size - 1)

def appendFromRight (neighbor : RawBtreeLeafNode) : RawBtreeLeafNode :=
  let size := n.getSize
  let neighborSize := neighbor.getSize
  let data := memmove n.block (n.offsetOfValue size) neighbor.block (n.offsetOfValue 0)
    (neighborSize * n.valueSize)
  { n with block := data }.setSize (size + neighborSize)

def prependFromLeft (neighbor : RawBtreeLeafNode) : RawBtreeLeafNode :=
  let size := n.getSize
  let neighborSize := neighbor.getSize
  let data := memmove n.block (n.offsetOfValue neighborSize) n.block (n.offsetOfValue 0)
    (size * n.valueSize)
  let data := memmove data (n.offsetOfValue 0) neighbor.block (n.offsetOfValue 0)
    (neighborSize * n.valueSize)
  { n with block := data }.setSize (size + neighborSize)

/-- The list a leaf holds: its first `get_size()` slots. -/
def values : List (List UInt8) := (List.range n.getSize).map n.get

/-! Each operation slot by slot. -/

@[simp] theorem setSize_valueSize (m : Nat) : (n.setSize m).valueSize = n.valueSize := rfl

@[simp] theorem setSize_maxSize (m : Nat) : (n.setSize m).maxSize = n.maxSize := rfl

theorem get_eq_slot (k : Nat) : n.get k = slot n.block headerSize n.valueSize k := rfl

@[simp] theorem get_setSize (m k : Nat) : (n.setSize m).get k = n.get k :=
  load_ext fun _ _ => storeU32_of_not_mem (Or.inr (by unfold offsetOfValue headerSize; omega))

@[simp] theorem getSize_setSize (m : Nat) : (n.setSize m).getSize = m % 2 ^ 32 :=
  loadU32_storeU32 ..

theorem get_insertNonfull (i : Nat) (value : Bytes) (k : Nat) :
    (n.insertNonfull i value).get k =
      if k = i then load value 0 n.valueSize
      else if i + 1 ≤ k ∧ k < n.getSize + 1 then n.get (k - 1) else n.get k := by
  simp only [insertNonfull, get_setSize]
  simp only [get_eq_slot, offsetOfValue, slot_memmove_value,
    slot_memmove]
  split_ifs <;> first | rfl | omega | (congr 1; omega)

theorem get_remove (i k : Nat) :
    (n.remove i).get k = if i ≤ k ∧ k + 1 < n.getSize then n.get (k + 1) else n.get k := by
  simp only [remove, get_setSize]
  simp only [get_eq_slot, offsetOfValue, slot_memmove]
  split_ifs <;> first | rfl | omega | (congr 1; omega)

theorem get_appendFromRight (nb : RawBtreeLeafNode) (hvs : nb.valueSize = n.valueSize)
    (k : Nat) : (n.appendFromRight nb).get k =
      if n.getSize ≤ k ∧ k < n.getSize + nb.getSize then nb.get (k - n.getSize)
      else n.get k := by
  simp only [appendFromRight, get_setSize]
  simp only [get_eq_slot, offsetOfValue, slot_memmove, hvs]
  split_ifs <;> first | rfl | omega | (congr 1; omega)

theorem get_prependFromLeft (nb : RawBtreeLeafNode) (hvs : nb.valueSize = n.valueSize)
    (k : Nat) : (n.prependFromLeft nb).get k =
      if k < nb.getSize then nb.get k
      else if k < nb.getSize + n.getSize then n.get (k - nb.getSize) else n.get k := by
  simp only [prependFromLeft, get_setSize]
  simp only [get_eq_slot, offsetOfValue, slot_memmove, hvs]
  split_ifs <;> first | rfl | omega | (congr 1; omega)

theorem slots_end_le (vs : Nat) {d m c : Nat} (h : d + m ≤ c) : vs * d + m * vs ≤ vs * c := by
  rw [Nat.mul_comm m vs, ← Nat.mul_add]
  exact Nat.mul_le_mul_left vs h

theorem memmove_of_le {dst src : Bytes} {d s len a : Nat} (h : d + len ≤ a) :
    memmove dst d src s len a = dst a := memmove_of_not_mem (by omega)

/-! No operation writes past the last slot: bytes from `headerSize + valueSize * maxSize` on
are the block's own. -/

theorem insertNonfull_block_of_le {i : Nat} (value : Bytes) (hi : i ≤ n.getSize)
    (hs : n.getSize < n.maxSize) {a : Nat} (ha : headerSize + n.valueSize * n.maxSize ≤ a) :
    (n.insertNonfull i value).block a = n.block a := by
  have h1 := slots_end_le n.valueSize (show i + 1 + (n.getSize - i) ≤ n.maxSize by omega)
  have h2 := slots_end_le n.valueSize (show i + 1 ≤ n.maxSize by omega)
  simp only [headerSize] at ha
  simp only [insertNonfull, setSize, offsetOfValue, headerSize]
  rw [storeU32_of_not_mem (by omega), memmove_of_le (by omega), memmove_of_le (by omega)]

theorem remove_block_of_le {i : Nat} (hi : i < n.getSize) (hs : n.getSize ≤ n.maxSize) {a : Nat}
    (ha : headerSize + n.valueSize * n.maxSize ≤ a) : (n.remove i).block a = n.block a := by
  have h1 := slots_end_le n.valueSize (show i + (n.getSize - i - 1) ≤ n.maxSize by omega)
  simp only [headerSize] at ha
  simp only [remove, setSize, offsetOfValue, headerSize]
  rw [storeU32_of_not_mem (by omega), memmove_of_le (by omega)]

theorem appendFromRight_block_of_le (nb : RawBtreeLeafNode)
    (hs : n.getSize + nb.getSize ≤ n.maxSize) {a : Nat}
    (ha : headerSize + n.valueSize * n.maxSize ≤ a) :
    (n.appendFromRight nb).block a = n.block a := by
  have h1 := slots_end_le n.valueSize hs
  simp only [headerSize] at ha
  simp only [appendFromRight, setSize, offsetOfValue, headerSize]
  rw [storeU32_of_not_mem (by omega), memmove_of_le (by omega)]

theorem prependFromLeft_block_of_le (nb : RawBtreeLeafNode)
    (hs : n.getSize + nb.getSize ≤ n.maxSize) {a : Nat}
    (ha : headerSize + n.valueSize * n.maxSize ≤ a) :
    (n.prependFromLeft nb).block a = n.block a := by
  have h1 := slots_end_le n.valueSize (show nb.getSize + n.getSize ≤ n.maxSize by omega)
  have h2 := slots_end_le n.valueSize (show 0 + nb.getSize ≤ n.maxSize by omega)
  simp only [headerSize] at ha
  simp only [prependFromLeft, setSize, offsetOfValue, headerSize]
  rw [storeU32_of_not_mem (by omega), memmove_of_le (by omega), memmove_of_le (by omega)]

/-! `sequence_insert`: the three buffers it moves between and the `move` calls it makes. -/

inductive Area where
  | left | right | value
  deriving DecidableEq, Repr

/-- One call of the `move` lambda of `sequence_insert`. -/
structure Move where
  src : Area
  srcIndex : Nat
  dst : Area
  dstIndex : Nat
  n : Nat
  deriving DecidableEq, Repr

/-- The `move` calls of `sequence_insert(.., count, mid, insert_index, ..)`, in order. -/
def sequenceInsertMoves (count mid insertIndex : Nat) : List Move :=
  if insertIndex < mid then
    [⟨.left, mid - 1, .right, 0, count - mid + 1⟩,
     ⟨.left, insertIndex, .left, insertIndex + 1, mid - 1 - insertIndex⟩,
     ⟨.value, 0, .left, insertIndex, 1⟩]
  else
    let rightInsertIndex := insertIndex - mid
    [⟨.left, mid, .right, 0, rightInsertIndex⟩,
     ⟨.value, 0, .right, rightInsertIndex, 1⟩,
     ⟨.left, mid + rightInsertIndex, .right, rightInsertIndex + 1,
       count - mid - rightInsertIndex⟩]

/-- The two leaf blocks `sequence_insert` writes; both value areas start at `base`. -/
structure Halves where
  left : Bytes
  right : Bytes

/-- `memmove(dst + dst_index * value_size, src + src_index * value_size, n * value_size)`. -/
def Halves.move (vs base : Nat) (value : Bytes) (h : Halves) (m : Move) : Halves :=
  let src : Bytes × Nat := match m.src with
    | .left => (h.left, base)
    | .right => (h.right, base)
    | .value => (value, 0)
  let write (dst : Bytes) : Bytes :=
    memmove dst (base + m.dstIndex * vs) src.1 (src.2 + m.srcIndex * vs) (m.n * vs)
  match m.dst with
  | .left => { h with left := write h.left }
  | .right => { h with right := write h.right }
  | .value => h

def sequenceInsert (vs : Nat) (left right : Bytes) (base count mid insertIndex : Nat)
    (value : Bytes) : Halves :=
  (sequenceInsertMoves count mid insertIndex).foldl (Halves.move vs base value) ⟨left, right⟩

def Halves.slotAt (vs base : Nat) (value : Bytes) (h : Halves) : Area → Nat → List UInt8
  | .left, k => slot h.left base vs k
  | .right, k => slot h.right base vs k
  | .value, k => slot value 0 vs k

/-- One `move` call, slot by slot. -/
theorem Halves.slotAt_move (vs base : Nat) (value : Bytes) (h : Halves) (m : Move) {a : Area}
    (ha : a ≠ .value) (k : Nat) :
    (h.move vs base value m).slotAt vs base value a k =
      if a = m.dst ∧ m.dstIndex ≤ k ∧ k < m.dstIndex + m.n then
        h.slotAt vs base value m.src (m.srcIndex + (k - m.dstIndex))
      else h.slotAt vs base value a k := by
  obtain ⟨src, si, dst, di, c⟩ := m
  simp only [Halves.move, Nat.mul_comm di vs, Nat.mul_comm si vs]
  cases a <;> cases dst <;> cases src <;>
    simp [Halves.slotAt, slot_memmove, -Nat.add_sub_cancel_left] at ha ⊢
  all_goals simpa using slot_memmove _ value base 0 vs di si c k

@[simp] theorem Halves.slotAt_value (vs base : Nat) (value : Bytes) (h : Halves) (k : Nat) :
    h.slotAt vs base value .value k = slot value 0 vs k := rfl

section SequenceInsert

variable {vs base count mid i : Nat} (left right value : Bytes)

theorem sequenceInsert_left_of_lt (h : i < mid) (k : Nat) :
    slot (sequenceInsert vs left right base count mid i value).left base vs k =
      if k = i then slot value 0 vs 0
      else if i + 1 ≤ k ∧ k < mid then slot left base vs (k - 1) else slot left base vs k := by
  show Halves.slotAt vs base value _ .left k = _
  simp only [sequenceInsert, sequenceInsertMoves, if_pos h, List.foldl]
  simp (disch := decide) only [Halves.slotAt_move]
  simp only [Halves.slotAt, Halves.slotAt_value, reduceCtorEq, true_and, false_and,
    if_false, ite_false, if_true]
  rcases lt_trichotomy k i with hk | rfl | hk
  · rw [if_neg (by omega), if_neg (by omega), if_neg (by omega), if_neg (by omega)]
  · rw [if_pos (by omega), if_pos rfl, Nat.sub_self, Nat.add_zero]
  · by_cases hm : k < mid
    · rw [if_neg (by omega), if_pos (by omega), if_neg (by omega), if_pos (by omega)]
      congr 1; omega
    · rw [if_neg (by omega), if_neg (by omega), if_neg (by omega), if_neg (by omega)]

theorem sequenceInsert_right_of_lt (h : i < mid) (k : Nat) :
    slot (sequenceInsert vs left right base count mid i value).right base vs k =
      if k < count - mid + 1 then slot left base vs (mid - 1 + k) else slot right base vs k := by
  show Halves.slotAt vs base value _ .right k = _
  simp only [sequenceInsert, sequenceInsertMoves, if_pos h, List.foldl]
  simp (disch := decide) only [Halves.slotAt_move]
  simp only [Halves.slotAt, Halves.slotAt_value, reduceCtorEq, true_and, false_and,
    if_false, ite_false, if_true]
  split_ifs <;> first | rfl | omega

theorem sequenceInsert_left_of_ge (h : mid ≤ i) (k : Nat) :
    slot (sequenceInsert vs left right base count mid i value).left base vs k =
      slot left base vs k := by
  show Halves.slotAt vs base value _ .left k = _
  simp only [sequenceInsert, sequenceInsertMoves, if_neg (Nat.not_lt.mpr h), List.foldl]
  simp (disch := decide) only [Halves.slotAt_move]
  simp only [Halves.slotAt, Halves.slotAt_value, reduceCtorEq, true_and, false_and,
    if_false, ite_false, if_true]

theorem sequenceInsert_right_of_ge (h : mid ≤ i) (hi : i ≤ count) (k : Nat) :
    slot (sequenceInsert vs left right base count mid i value).right base vs k =
      if k < i - mid then slot left base vs (mid + k)
      else if k = i - mid then slot value 0 vs 0
      else if k < count - mid + 1 then slot left base vs (mid + k - 1)
      else slot right base vs k := by
  show Halves.slotAt vs base value _ .right k = _
  simp only [sequenceInsert, sequenceInsertMoves, if_neg (Nat.not_lt.mpr h), List.foldl]
  simp (disch := decide) only [Halves.slotAt_move]
  simp only [Halves.slotAt, Halves.slotAt_value, reduceCtorEq, true_and, false_and,
    if_false, ite_false, if_true]
  rcases lt_trichotomy k (i - mid) with hk | rfl | hk
  · rw [if_neg (by omega), if_neg (by omega), if_pos (by omega), if_pos hk, Nat.sub_zero]
  · rw [if_neg (by omega), if_pos (by omega), if_neg (by omega), if_pos rfl, Nat.sub_self,
      Nat.add_zero]
  · by_cases hc : k < count - mid + 1
    · rw [if_pos (by omega), if_neg (by omega), if_neg (by omega), if_pos hc]
      congr 1; omega
    · rw [if_neg (by omega), if_neg (by omega), if_neg (by omega), if_neg (by omega),
        if_neg (by omega), if_neg hc]

end SequenceInsert

/-- `insert_full(index, value, mid, new_leaf)`: the two leaves after the split. -/
def insertFull (index : Nat) (value : Bytes) (mid : Nat) (newLeaf : RawBtreeLeafNode) :
    RawBtreeLeafNode × RawBtreeLeafNode :=
  let h := sequenceInsert n.valueSize n.block newLeaf.block (n.offsetOfValue 0) n.maxSize mid
    index value
  ({ n with block := h.left }.setSize mid,
   { newLeaf with block := h.right }.setSize (n.maxSize + 1 - mid))

end RawBtreeLeafNode

end Extpp
