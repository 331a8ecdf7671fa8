import Mathlib.Tactic

/-!
The machine vocabulary shared by the containers: unsigned arithmetic as the C++ code does
it, byte buffers, `std::memmove`/`std::memset`, and big-endian `u32` fields. A buffer is a
snapshot function from offsets to bytes, so `memmove` reads its whole source before it
writes and overlapping ranges need no special case.
-/

set_option autoImplicit false

namespace Extpp

/-- Reduction to `u64`, for the products and sums the code computes in 64 bits. -/
def wrap64 (x : Nat) : Nat := x % 2 ^ 64

def wrap32 (x : Nat) : Nat := x % 2 ^ 32

theorem wrap64_of_lt {x : Nat} (h : x < 2 ^ 64) : wrap64 x = x := Nat.mod_eq_of_lt h

theorem wrap32_of_lt {x : Nat} (h : x < 2 ^ 32) : wrap32 x = x := Nat.mod_eq_of_lt h

/-- Unsigned `a / b`; `none` is the undefined behaviour of a zero divisor. -/
def cppDiv (a b : Nat) : Option Nat := if b = 0 then none else some (a / b)

@[simp] theorem cppDiv_zero (a : Nat) : cppDiv a 0 = none := rfl

theorem cppDiv_of_pos {a b : Nat} (h : 0 < b) : cppDiv a b = some (a / b) := by
  simp [cppDiv, Nat.pos_iff_ne_zero.mp h]

/-- The bytes of a buffer by offset: a pinned block, or the value a caller points at. -/
abbrev Bytes := Nat → UInt8

/-- `std::memmove(dst + d, src + s, n)`. -/
def memmove (dst : Bytes) (d : Nat) (src : Bytes) (s n : Nat) : Bytes :=
  fun a => if d ≤ a ∧ a < d + n then src (s + (a - d)) else dst a

/-- `std::memset(dst + d, c, n)`. -/
def memset (dst : Bytes) (d : Nat) (c : UInt8) (n : Nat) : Bytes :=
  fun a => if d ≤ a ∧ a < d + n then c else dst a

/-- The `n` bytes at offset `off`, as a caller's buffer receives them. -/
def load (b : Bytes) (off n : Nat) : List UInt8 := (List.range n).map fun j => b (off + j)

@[simp] theorem load_length (b : Bytes) (off n : Nat) : (load b off n).length = n := by
  simp [load]

theorem memset_eq_memmove (dst : Bytes) (d : Nat) (c : UInt8) (n : Nat) :
    memset dst d c n = memmove dst d (fun _ => c) 0 n := rfl

@[simp] theorem memset_zero (dst : Bytes) (d : Nat) (c : UInt8) : memset dst d c 0 = dst :=
  funext fun _ => if_neg (by omega)

theorem memmove_of_not_mem {dst src : Bytes} {d s n a : Nat} (h : ¬(d ≤ a ∧ a < d + n)) :
    memmove dst d src s n a = dst a := if_neg h

theorem load_ext {b b' : Bytes} {off off' n : Nat} (h : ∀ j < n, b (off + j) = b' (off' + j)) :
    load b off n = load b' off' n :=
  List.map_congr_left fun j hj => h j (List.mem_range.mp hj)

/-! Values of `vs` bytes laid out back to back from `base`: the cells of an array block and
the value slots of a leaf. -/

def slot (b : Bytes) (base vs k : Nat) : List UInt8 := load b (base + vs * k) vs

@[simp] theorem slot_length (b : Bytes) (base vs k : Nat) : (slot b base vs k).length = vs :=
  load_length ..

theorem mul_add_lt_mul_iff {vs j a c : Nat} (hj : j < vs) : vs * a + j < vs * c ↔ a < c := by
  constructor
  · intro h
    by_contra hc
    have := Nat.mul_le_mul_left vs (Nat.le_of_not_lt hc)
    omega
  · intro h
    have := Nat.mul_le_mul_left vs (Nat.succ_le_of_lt h)
    rw [Nat.mul_succ] at this
    omega

/-- Moving `n` whole slots moves the slots themselves. -/
theorem slot_memmove (dst src : Bytes) (base sbase vs d s n k : Nat) :
    slot (memmove dst (base + vs * d) src (sbase + vs * s) (n * vs)) base vs k =
      if d ≤ k ∧ k < d + n then slot src sbase vs (s + (k - d)) else slot dst base vs k := by
  unfold slot
  rw [Nat.mul_comm n vs]
  split_ifs with hk
  · apply load_ext
    intro j hj
    have hlo : ¬vs * k + j < vs * d := by rw [mul_add_lt_mul_iff hj]; omega
    have hhi : vs * k + j < vs * (d + n) := (mul_add_lt_mul_iff hj).mpr hk.2
    have hsplit : vs * k = vs * d + vs * (k - d) := by
      rw [← Nat.mul_add, Nat.add_sub_cancel' hk.1]
    rw [Nat.mul_add] at hhi ⊢
    simp only [memmove]
    rw [if_pos (by omega)]
    congr 1
    omega
  · apply load_ext
    intro j hj
    apply memmove_of_not_mem
    intro hin
    have h1 : ¬vs * k + j < vs * d := by omega
    have h2 : vs * k + j < vs * (d + n) := by rw [Nat.mul_add]; omega
    rw [mul_add_lt_mul_iff hj] at h1 h2
    exact hk ⟨by omega, h2⟩

theorem slot_memmove_value (dst src : Bytes) (base vs d k : Nat) :
    slot (memmove dst (base + vs * d) src 0 vs) base vs k =
      if k = d then load src 0 vs else slot dst base vs k := by
  have h := slot_memmove dst src base 0 vs d 0 1 k
  simp only [Nat.mul_zero, Nat.add_zero, Nat.one_mul, Nat.zero_add] at h
  rw [h]
  by_cases hk : k = d
  · subst hk; simp [slot]
  · rw [if_neg (by omega), if_neg hk]

theorem slot_memset (dst : Bytes) (base vs d n k : Nat) (c : UInt8) :
    slot (memset dst (base + vs * d) c (n * vs)) base vs k =
      if d ≤ k ∧ k < d + n then List.replicate vs c else slot dst base vs k := by
  have h := slot_memmove dst (fun _ => c) base 0 vs d 0 n k
  simp only [Nat.mul_zero, Nat.add_zero] at h
  rw [memset_eq_memmove, h]
  split_ifs
  · simp [slot, load, List.map_const']
  · rfl

/-! Big-endian `u32` fields, the serialized form of the node headers. -/

/-- The four bytes of `v` as a `u32`, most significant first. -/
def encodeU32 (v : Nat) : Bytes := fun j => UInt8.ofNat (v / 256 ^ (3 - j))

def storeU32 (b : Bytes) (off v : Nat) : Bytes := memmove b off (encodeU32 v) 0 4

def loadU32 (b : Bytes) (off : Nat) : Nat :=
  (((b off).toNat * 256 + (b (off + 1)).toNat) * 256 + (b (off + 2)).toNat) * 256 +
    (b (off + 3)).toNat

theorem toNat_ofNat_u8 (x : Nat) : (UInt8.ofNat x).toNat = x % 256 := rfl

theorem loadU32_storeU32 (b : Bytes) (off v : Nat) : loadU32 (storeU32 b off v) off = v % 2 ^ 32 := by
  simp (disch := omega) only [loadU32, storeU32, memmove, encodeU32, if_pos,
    Nat.add_sub_cancel_left, Nat.sub_self, toNat_ofNat_u8, Nat.zero_add]
  -- the four base-256 digits of `v % 256^4`, most significant first
  rw [show 2 ^ 32 = 256 ^ (3 + 1) by rfl, Nat.mod_pow_succ, Nat.mod_pow_succ, Nat.mod_pow_succ,
    Nat.mod_pow_succ]
  simp only [pow_zero, Nat.mod_one]
  ring

theorem loadU32_lt (b : Bytes) (off : Nat) : loadU32 b off < 2 ^ 32 := by
  have h0 := (b off).toNat_lt_size
  have h1 := (b (off + 1)).toNat_lt_size
  have h2 := (b (off + 2)).toNat_lt_size
  have h3 := (b (off + 3)).toNat_lt_size
  simp only [UInt8.size] at h0 h1 h2 h3
  simp only [loadU32]
  omega

theorem storeU32_of_not_mem {b : Bytes} {off v a : Nat} (h : a < off ∨ off + 4 ≤ a) :
    storeU32 b off v a = b a := memmove_of_not_mem (by omega)

theorem loadU32_congr {b b' : Bytes} {off : Nat} (h : ∀ j < 4, b (off + j) = b' (off + j)) :
    loadU32 b off = loadU32 b' off := by
  simp only [loadU32]
  rw [← Nat.add_zero off, h 0 (by omega), h 1 (by omega), h 2 (by omega), h 3 (by omega)]

end Extpp
