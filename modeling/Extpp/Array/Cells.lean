import Extpp.Array.Impl

/-!
The layout of a `raw_array`: value `i` lives in block `i / block_capacity`, at byte
`value_size * (i % block_capacity)`, and what the primitives of `raw_array_impl` (resizing the
extent, pinning and writing a block, setting the size) do to those cells.
-/

set_option autoImplicit false

namespace Extpp

namespace RawArrayImpl

variable (a : RawArrayImpl)

/-! The constructor's constants. -/

theorem blockCapacity_mul_le : a.blockCapacity * a.valueSize ≤ a.blockSize := by
  rw [a.blockCapacity_eq]; exact Nat.div_mul_le_self _ _

theorem blockOffset_lt (i : Nat) : a.blockOffset i < a.blockCapacity :=
  Nat.mod_lt _ a.blockCapacity_pos

theorem blockIndex_mul_add (i : Nat) : a.blockIndex i * a.blockCapacity + a.blockOffset i = i := by
  rw [blockIndex, blockOffset, Nat.mul_comm]; exact Nat.div_add_mod i a.blockCapacity

theorem cell_end_le (i : Nat) : a.valueSize * a.blockOffset i + a.valueSize ≤ a.blockSize := by
  have h := Nat.mul_le_mul_left a.valueSize (a.blockOffset_lt i)
  have := a.blockCapacity_mul_le
  rw [Nat.mul_succ, Nat.mul_comm a.valueSize a.blockCapacity] at h
  omega

theorem calcOffsetInBlock_of_lt {o : Nat} (h : o < a.blockCapacity) :
    calcOffsetInBlock a.valueSize o = a.valueSize * o := by
  have h1 := Nat.mul_le_mul_left a.valueSize (Nat.le_of_lt h)
  have h2 := a.blockCapacity_mul_le
  have h3 := a.blockSize_lt
  rw [Nat.mul_comm a.valueSize a.blockCapacity] at h1
  exact wrap32_of_lt (by omega)

theorem cells_disjoint {i j : Nat} (hij : i ≠ j) (hb : a.blockIndex i = a.blockIndex j) :
    a.valueSize * a.blockOffset i + a.valueSize ≤ a.valueSize * a.blockOffset j ∨
      a.valueSize * a.blockOffset j + a.valueSize ≤ a.valueSize * a.blockOffset i := by
  have ho : a.blockOffset i ≠ a.blockOffset j := fun ho => hij (by
    rw [← a.blockIndex_mul_add i, ← a.blockIndex_mul_add j, hb, ho])
  rcases Nat.lt_or_gt_of_ne ho with h | h
  · left; have := Nat.mul_le_mul_left a.valueSize h; rwa [Nat.mul_succ] at this
  · right; have := Nat.mul_le_mul_left a.valueSize h; rwa [Nat.mul_succ] at this

theorem blockIndex_lt_iff {i b : Nat} : a.blockIndex i < b ↔ i < b * a.blockCapacity :=
  Nat.div_lt_iff_lt_mul a.blockCapacity_pos

/-! Cells. -/

/-- The value of index `i`, as `get` reads it from its block. -/
def cell (s : ArrayState) (i : Nat) : List UInt8 :=
  slot (s.extent.data (a.blockIndex i)) 0 a.valueSize (a.blockOffset i)

@[simp] theorem cell_length (s : ArrayState) (i : Nat) : (a.cell s i).length = a.valueSize :=
  slot_length ..

theorem cell_congr {s s' : ArrayState} {i : Nat}
    (h : s'.extent.data (a.blockIndex i) = s.extent.data (a.blockIndex i)) :
    a.cell s' i = a.cell s i := by
  rw [cell, cell, h]

theorem slot_write_value (handle value : Bytes) (o k : Nat) :
    slot (memmove handle (a.valueSize * o) value 0 a.valueSize) 0 a.valueSize k =
      if k = o then load value 0 a.valueSize else slot handle 0 a.valueSize k := by
  simpa using slot_memmove_value handle value 0 a.valueSize o k

section Keeps

variable {a : RawArrayImpl}

variable (a) in
/-- `s'` has the size and strategy of `s`, and the same first `n` cells. -/
structure Keeps (n : Nat) (s s' : ArrayState) : Prop where
  size_eq : s'.size = s.size
  growth_eq : s'.growth = s.growth
  cell_eq : ∀ j < n, a.cell s' j = a.cell s j

variable (a) in
theorem Keeps.refl (n : Nat) (s : ArrayState) : a.Keeps n s s :=
  ⟨rfl, rfl, fun _ _ => rfl⟩

theorem Keeps.trans {n : Nat} {s₁ s₂ s₃ : ArrayState} (h₁ : a.Keeps n s₁ s₂)
    (h₂ : a.Keeps n s₂ s₃) : a.Keeps n s₁ s₃ :=
  ⟨h₂.size_eq.trans h₁.size_eq, h₂.growth_eq.trans h₁.growth_eq,
    fun j hj => (h₂.cell_eq j hj).trans (h₁.cell_eq j hj)⟩

theorem Keeps.mono {n m : Nat} {s s' : ArrayState} (h : a.Keeps n s s') (hm : m ≤ n) :
    a.Keeps m s s' :=
  ⟨h.size_eq, h.growth_eq, fun j hj => h.cell_eq j (by omega)⟩

end Keeps

theorem cell_store_value {s s' : ArrayState} (i : Nat) (handle v : Bytes)
    (hs : s'.extent = s.extent.store (a.blockIndex i)
      (memmove handle (a.valueSize * a.blockOffset i) v 0 a.valueSize)) (j : Nat) :
    a.cell s' j =
      if j = i then load v 0 a.valueSize
      else if a.blockIndex j = a.blockIndex i then slot handle 0 a.valueSize (a.blockOffset j)
      else a.cell s j := by
  simp only [cell, hs, Extent.store]
  by_cases hb : a.blockIndex j = a.blockIndex i
  · have hji : a.blockOffset j = a.blockOffset i ↔ j = i := ⟨fun ho => by
      rw [← a.blockIndex_mul_add j, ← a.blockIndex_mul_add i, hb, ho], fun h => h ▸ rfl⟩
    simp only [if_pos hb, slot_write_value, hji]
  · simp only [if_neg hb]
    split_ifs with hji
    · exact absurd (hji ▸ rfl) hb
    · rfl

theorem cell_store {s s' : ArrayState} {b : Nat} {data : Bytes}
    (hs : s'.extent = s.extent.store b data) (j : Nat) :
    a.cell s' j =
      if a.blockIndex j = b then slot data 0 a.valueSize (a.blockOffset j) else a.cell s j := by
  simp only [cell, hs, Extent.store]
  split_ifs <;> rfl

end RawArrayImpl

/-! The constructor -/

/-- A zero value size reaches the division of `calc_block_capacity` for every block size. -/
theorem construct_divides_by_zero (blockSize : UInt32) :
    RawArrayImpl.construct 0 blockSize = none := rfl

/-- For a non-zero value size the constructor raises `bad_argument` exactly when a block is
too small for one value. -/
theorem construct_of_pos {vs : UInt32} (bs : UInt32) (h : 0 < vs.toNat) :
    (bs.toNat < vs.toNat → RawArrayImpl.construct vs bs =
      some (.error (.badArgument "Block size too small to fit a single value."))) ∧
    (vs.toNat ≤ bs.toNat → ∃ a, RawArrayImpl.construct vs bs = some (.ok a)) := by
  unfold RawArrayImpl.construct
  split
  · next hc => rw [calcBlockCapacity, cppDiv_of_pos h] at hc; cases hc
  · next bc hc =>
    rw [calcBlockCapacity, cppDiv_of_pos h] at hc
    cases hc
    constructor
    · intro hlt; rw [dif_pos (Nat.div_eq_of_lt hlt)]
    · intro hle; rw [dif_neg (Nat.pos_iff_ne_zero.mp (Nat.div_pos hle h))]; exact ⟨_, rfl⟩

theorem construct_of_pos_small :
    0 < (4 : UInt32).toNat ∧ RawArrayImpl.construct 4 2 =
      some (.error (.badArgument "Block size too small to fit a single value.")) :=
  ⟨by decide, (construct_of_pos 2 (show 0 < (4 : UInt32).toNat by decide)).1 (by decide)⟩

/-- A built array has a non-zero block capacity, and each cell lies inside its block, apart
from the block's other cells. -/
theorem construct_layout {vs bs : UInt32} {a : RawArrayImpl}
    (h : RawArrayImpl.construct vs bs = some (.ok a)) :
    a.valueSize = vs.toNat ∧ a.blockSize = bs.toNat ∧ a.blockCapacity = bs.toNat / vs.toNat ∧
      0 < a.blockCapacity ∧ ∀ i j,
        a.valueSize * a.blockOffset i + a.valueSize ≤ a.blockSize ∧
        (i ≠ j → a.blockIndex i = a.blockIndex j →
          a.valueSize * a.blockOffset i + a.valueSize ≤ a.valueSize * a.blockOffset j ∨
          a.valueSize * a.blockOffset j + a.valueSize ≤ a.valueSize * a.blockOffset i) := by
  unfold RawArrayImpl.construct at h
  split at h
  · cases h
  · split_ifs at h
    · cases h
    · cases h
      exact ⟨rfl, rfl, calcBlockCapacity_eq ‹_›, Nat.pos_of_ne_zero ‹_›, fun i j =>
        ⟨RawArrayImpl.cell_end_le _ i, fun hij hb => RawArrayImpl.cells_disjoint _ hij hb⟩⟩

theorem construct_layout_four :
    let a : RawArrayImpl := ⟨4, 512, 128, by decide, rfl, by decide⟩
    RawArrayImpl.construct 4 512 = some (.ok a) ∧
      a.blockCapacity = (512 : UInt32).toNat / (4 : UInt32).toNat := by
  intro a
  have h : RawArrayImpl.construct 4 512 = some (.ok a) := rfl
  exact ⟨h, (construct_layout h).2.2.1⟩

/-- The bytes of each cell `resize` adds: the caller's value, or zeros for a null pointer. -/
def initialValue (vs : Nat) : Option Bytes → List UInt8
  | some v => load v 0 vs
  | none => List.replicate vs 0

/-! The primitives: what each returns, and what it leaves. -/

/-- The state after a resize of the extent to `m` blocks that the allocator grants. -/
def ArrayState.resized (env : Env) (s : ArrayState) (m : Nat) : ArrayState :=
  { s with extent := ⟨m, fun i => if i < s.blocks then s.extent.data i else env.fresh i⟩ }

namespace RawArrayImpl

variable (a : RawArrayImpl) (env : Env)

theorem resizeExtent_apply (m : Nat) (exact : Bool) (s : ArrayState) :
    resizeExtent env m exact s = match env.resizeFault with
      | some e => .error e s
      | none => .ok () (s.resized env (if exact then m else s.newSize m)) := by
  unfold resizeExtent Extent.resize
  cases env.resizeFault <;> rfl

theorem cell_resized {s : ArrayState} {m j : Nat} (h : a.blockIndex j < s.blocks) :
    a.cell (s.resized env m) j = a.cell s j :=
  a.cell_congr (if_pos h)

@[simp] theorem resized_blocks (s : ArrayState) (m : Nat) : (s.resized env m).blocks = m := rfl

@[simp] theorem resized_size (s : ArrayState) (m : Nat) : (s.resized env m).size = s.size := rfl

@[simp] theorem resized_growth (s : ArrayState) (m : Nat) :
    (s.resized env m).growth = s.growth := rfl

theorem keeps_resized {s : ArrayState} {n : Nat} (m : Nat) (hn : n ≤ s.blocks * a.blockCapacity) :
    a.Keeps n s (s.resized env m) :=
  ⟨rfl, rfl, fun _ hj => a.cell_resized env ((a.blockIndex_lt_iff).mpr (by omega))⟩

theorem pin_apply {s : ArrayState} {b : Nat} (o : Nat) (hb : b < s.blocks) :
    pin env b o s = match env.pinFault b with
      | some e => .error e s
      | none => .ok (if o = 0 then fun _ => 0 else s.extent.data b) s := by
  have hb' : b < s.extent.length := hb
  unfold pin
  split_ifs <;>
    simp only [create, read, Extent.overwriteZero, Extent.read, if_pos hb'] <;>
    cases env.pinFault b <;> rfl

theorem read_apply {s : ArrayState} {b : Nat} (hb : b < s.blocks) :
    read env b s = match env.pinFault b with
      | some e => .error e s
      | none => .ok (s.extent.data b) s := by
  have hb' : b < s.extent.length := hb
  simp only [read, Extent.read, if_pos hb']
  cases env.pinFault b <;> rfl

theorem bind_apply {α β : Type} (x : ArrayM α) (f : α → ArrayM β) (s : ArrayState) :
    (x >>= f) s = match x s with
      | .ok v s' => f v s'
      | .error e s' => .error e s' := by
  show EStateM.bind x f s = _
  unfold EStateM.bind
  cases x s <;> rfl

@[simp] theorem after_ok {α : Type} (v : α) (s : ArrayState) : after (.ok v s) = s := rfl

@[simp] theorem after_error {α : Type} (e : Error) (s : ArrayState) :
    after (.error e s : EStateM.Result Error ArrayState α) = s := rfl

/-! The initialization loop of `resize`. -/

theorem slot_copyValues (handle v : Bytes) (o w k : Nat) :
    slot (a.copyValues handle (a.valueSize * o) v w) 0 a.valueSize k =
      if o ≤ k ∧ k < o + w then load v 0 a.valueSize else slot handle 0 a.valueSize k := by
  induction w generalizing handle o with
  | zero => simp only [copyValues]; rw [if_neg (by omega)]
  | succ w ih =>
    rw [copyValues, show a.valueSize * o + a.valueSize = a.valueSize * (o + 1) by ring, ih,
      slot_write_value]
    split_ifs <;> first | rfl | omega

theorem slot_initValues (value : Option Bytes) (handle : Bytes) {o w : Nat}
    (hw : o + w ≤ a.blockCapacity) (k : Nat) :
    slot (a.initValues value handle (calcOffsetInBlock a.valueSize o) w) 0 a.valueSize k =
      if o ≤ k ∧ k < o + w then initialValue a.valueSize value
      else slot handle 0 a.valueSize k := by
  have hwv : w * a.valueSize < 2 ^ 32 := by
    have := Nat.mul_le_mul_right a.valueSize (show w ≤ a.blockCapacity by omega)
    have := a.blockCapacity_mul_le
    have := a.blockSize_lt
    omega
  rcases Nat.eq_zero_or_pos w with rfl | hw0
  · rw [if_neg (by omega)]
    cases value
    · simp only [initValues, Nat.zero_mul, wrap32, Nat.zero_mod, memset_zero]
    · rfl
  rw [a.calcOffsetInBlock_of_lt (by omega)]
  cases value with
  | some v => exact a.slot_copyValues handle v o w k
  | none =>
    simpa [initValues, initialValue, wrap32_of_lt hwv] using
      slot_memset handle 0 a.valueSize o w k 0

theorem blockIndex_eq_of {b j : Nat} (h1 : b * a.blockCapacity ≤ j)
    (h2 : j < b * a.blockCapacity + a.blockCapacity) : a.blockIndex j = b :=
  Nat.div_eq_of_lt_le h1 (by rw [Nat.add_mul, Nat.one_mul]; exact h2)

theorem cell_initBlock {s : ArrayState} {b o w : Nat} (value : Option Bytes) (handle : Bytes)
    (hwb : o + w ≤ a.blockCapacity) (j : Nat) :
    a.cell { s with extent := (s.extent.store b
        (a.initValues value handle (calcOffsetInBlock a.valueSize o) w)) } j =
      if a.blockIndex j = b then
        (if o ≤ a.blockOffset j ∧ a.blockOffset j < o + w then initialValue a.valueSize value
          else slot handle 0 a.valueSize (a.blockOffset j))
      else a.cell s j := by
  rw [a.cell_store rfl, slot_initValues a value handle hwb]

theorem keeps_initBlock {s : ArrayState} {b o w : Nat} (value : Option Bytes)
    (hwb : o + w ≤ a.blockCapacity) :
    a.Keeps (b * a.blockCapacity + o) s { s with extent := (s.extent.store b
      (a.initValues value (if o = 0 then fun _ => 0 else s.extent.data b)
        (calcOffsetInBlock a.valueSize o) w)) } :=
  ⟨rfl, rfl, fun j hj => by
    have hj' := a.blockIndex_mul_add j
    rw [a.cell_initBlock value _ hwb]
    by_cases hbj : a.blockIndex j = b
    · rw [hbj] at hj'
      rw [if_pos hbj, if_neg (by omega), if_neg (by omega), ← hbj]
      rfl
    · rw [if_neg hbj]⟩

/-- The loop of `resize` from index `p = b * bc + o`: it keeps every cell below `p`, raises only
a pin failure, and on return the `r` cells from `p` hold the initial value. -/
theorem fill_spec (value : Option Bytes) : ∀ (fuel b o r : Nat) (s : ArrayState),
    o < a.blockCapacity → r ≤ fuel → b * a.blockCapacity + o + r ≤ s.blocks * a.blockCapacity →
    a.Keeps (b * a.blockCapacity + o) s (after (a.fill env value fuel b o r s)) ∧
      (after (a.fill env value fuel b o r s)).blocks = s.blocks ∧
      match a.fill env value fuel b o r s with
      | .ok _ s' => ∀ j, b * a.blockCapacity + o ≤ j → j < b * a.blockCapacity + o + r →
          a.cell s' j = initialValue a.valueSize value
      | .error e _ => ∃ blk, env.pinFault blk = some e := by
  intro fuel
  induction fuel with
  | zero =>
    intro b o r s _ hr _
    obtain rfl : r = 0 := by omega
    exact ⟨Keeps.refl a _ s, rfl, fun j h1 h2 => absurd h2 (by omega)⟩
  | succ fuel ih =>
    intro b o r s ho hr hp
    by_cases hr0 : r = 0
    · subst hr0
      simp only [fill, if_pos rfl]
      exact ⟨Keeps.refl a _ s, rfl, fun j h1 h2 => absurd h2 (by omega)⟩
    have hb : b < s.blocks := by
      have : b * a.blockCapacity < s.blocks * a.blockCapacity := by omega
      exact Nat.lt_of_mul_lt_mul_right this
    simp only [fill, if_neg hr0]
    rw [bind_apply, pin_apply env o hb]
    cases hpin : env.pinFault b with
    | some e => exact ⟨Keeps.refl a _ s, rfl, b, hpin⟩
    | none =>
      simp only [bind_apply, writeBlock]
      set w := min r (a.blockCapacity - o) with hw
      have hwb : o + w ≤ a.blockCapacity := by omega
      set s1 : ArrayState := { s with extent := (s.extent.store b
        (a.initValues value (if o = 0 then fun _ => 0 else s.extent.data b)
          (calcOffsetInBlock a.valueSize o) w)) } with hs1
      have hb1 : (b + 1) * a.blockCapacity ≤ s.blocks * a.blockCapacity :=
        Nat.mul_le_mul_right _ hb
      rw [Nat.add_mul, Nat.one_mul] at hb1
      obtain ⟨hk, hbl, hres⟩ := ih (b + 1) 0 (r - w) s1 a.blockCapacity_pos (by omega)
        (show _ ≤ s.blocks * a.blockCapacity by rw [Nat.add_mul, Nat.one_mul]; omega)
      refine ⟨(a.keeps_initBlock value hwb).trans
        (hk.mono (by rw [Nat.add_mul, Nat.one_mul]; omega)), hbl, ?_⟩
      revert hres hk
      cases a.fill env value fuel (b + 1) 0 (r - w) s1 with
      | error e s' => exact fun _ hres => hres
      | ok u s' =>
        intro hk hres j h1 h2
        rw [after_ok] at hk
        by_cases hj : j < b * a.blockCapacity + o + w
        · have hbj : a.blockIndex j = b := a.blockIndex_eq_of (by omega) (by omega)
          have hoff := a.blockIndex_mul_add j
          rw [hbj] at hoff
          rw [hk.cell_eq j (by rw [Nat.add_mul, Nat.one_mul]; omega), a.cell_initBlock value _ hwb,
            if_pos hbj, if_pos (by omega)]
        · exact hres j (by rw [Nat.add_mul, Nat.one_mul]; omega)
            (by rw [Nat.add_mul, Nat.one_mul]; omega)

end RawArrayImpl

end Extpp
