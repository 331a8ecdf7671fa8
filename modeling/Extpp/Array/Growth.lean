import Extpp.Machine

/-!
Growth strategies of `raw_array` (src/include/prequel/container/array.hpp) and
`raw_array_impl::new_size` (src/src/container/array.cpp). `new_size` computes in `u64`;
`GrowthStrategy.policy` is the same rounding on unbounded numbers, and the two agree whenever
the result fits.
-/

set_option autoImplicit false

namespace Extpp

/-- `linear_growth`: the constructor asserts `chunk_size >= 1`, and the chunk is a `u64`. -/
structure LinearGrowth where
  chunkSize : Nat
  chunkSize_pos : 0 < chunkSize
  chunkSize_lt : chunkSize < 2 ^ 64

/-- `growth_strategy`, the variant of `linear_growth` and `exponential_growth`. -/
inductive GrowthStrategy where
  | linear (g : LinearGrowth)
  | exponential

/-- Modelled from the spec (`ceil_div` is not in src/): the ceiling of `a / b`. -/
def ceilDiv (a b : Nat) : Nat := (a + b - 1) / b

def log2Ceil (v : Nat) : Nat → Nat → Nat
  | 0, k => k
  | fuel + 1, k => if v ≤ 2 ^ k then k else log2Ceil v fuel (k + 1)

/-- Modelled from the spec (`round_towards_pow2` is not in src/): the next power of two not
below `minimum`, `0` for `0`, as a `u64`. -/
def roundTowardsPow2 (v : Nat) : Nat := if v = 0 then 0 else wrap64 (2 ^ log2Ceil v v 0)

/-- `raw_array_impl::new_size`: the minimum block count rounded by the strategy, in `u64`. -/
def GrowthStrategy.newSize : GrowthStrategy → Nat → Nat
  | .linear g, minimum => wrap64 (ceilDiv minimum g.chunkSize * g.chunkSize)
  | .exponential, minimum => roundTowardsPow2 minimum

/-- The rounding `new_size` performs, on unbounded numbers. -/
def GrowthStrategy.policy : GrowthStrategy → Nat → Nat
  | .linear g, m => ceilDiv m g.chunkSize * g.chunkSize
  | .exponential, m => if m = 0 then 0 else 2 ^ log2Ceil m m 0

theorem GrowthStrategy.newSize_eq (g : GrowthStrategy) (m : Nat) :
    g.newSize m = wrap64 (g.policy m) := by
  cases g <;> simp [newSize, policy, roundTowardsPow2]
  split_ifs <;> simp [wrap64]

theorem GrowthStrategy.newSize_of_lt {g : GrowthStrategy} {m : Nat} (h : g.policy m < 2 ^ 64) :
    g.newSize m = g.policy m := by
  rw [newSize_eq, wrap64_of_lt h]

/-! `ceil_div` -/

theorem le_ceilDiv_mul {a b : Nat} (hb : 0 < b) : a ≤ ceilDiv a b * b := by
  have h1 := Nat.div_add_mod (a + b - 1) b
  have h2 := Nat.mod_lt (a + b - 1) hb
  rw [ceilDiv, Nat.mul_comm]
  omega

theorem ceilDiv_mul_lt {a b : Nat} (hb : 0 < b) : ceilDiv a b * b < a + b := by
  have h1 := Nat.div_add_mod (a + b - 1) b
  rw [ceilDiv, Nat.mul_comm]
  omega

theorem ceilDiv_le_iff {a b k : Nat} (hb : 0 < b) : ceilDiv a b ≤ k ↔ a ≤ k * b := by
  rw [ceilDiv, Nat.div_le_iff_le_mul_add_pred hb, Nat.mul_comm k b]
  omega

theorem ceilDiv_mul_add_one {k b : Nat} (hb : 0 < b) : ceilDiv (k * b + 1) b = k + 1 := by
  rw [ceilDiv, show k * b + 1 + b - 1 = (k + 1) * b by rw [Nat.add_mul]; omega,
    Nat.mul_div_cancel _ hb]

theorem ceilDiv_succ {x b : Nat} (hb : 0 < b) : ceilDiv (x + 1) b = x / b + 1 := by
  rw [ceilDiv, show x + 1 + b - 1 = x + b by omega, Nat.add_div_right _ hb]

theorem ceilDiv_zero (b : Nat) : ceilDiv 0 b = 0 := by
  rw [ceilDiv, Nat.zero_add]
  rcases Nat.eq_zero_or_pos b with rfl | hb
  · rfl
  · exact Nat.div_eq_of_lt (by omega)

/-! The least power of two above a number. -/

theorem le_pow_log2Ceil {v : Nat} : ∀ (fuel k : Nat), v ≤ 2 ^ (k + fuel) →
    v ≤ 2 ^ log2Ceil v fuel k
  | 0, k, h => h
  | fuel + 1, k, h => by
    unfold log2Ceil
    split_ifs with hk
    · exact hk
    · exact le_pow_log2Ceil fuel (k + 1) (by rwa [show k + 1 + fuel = k + (fuel + 1) by omega])

theorem log2Ceil_le {v j : Nat} (hj : v ≤ 2 ^ j) : ∀ (fuel k : Nat), k ≤ j →
    log2Ceil v fuel k ≤ j
  | 0, _, hk => hk
  | fuel + 1, k, hk => by
    unfold log2Ceil
    split_ifs with hv
    · exact hk
    · apply log2Ceil_le hj fuel (k + 1)
      by_contra hkj
      exact hv (le_trans hj (Nat.pow_le_pow_right (by decide) (by omega)))

theorem le_two_pow_log2Ceil (v : Nat) : v ≤ 2 ^ log2Ceil v v 0 :=
  le_pow_log2Ceil v 0 (by simpa using (Nat.lt_two_pow v).le)

theorem two_pow_log2Ceil_le {v j : Nat} (hj : v ≤ 2 ^ j) : 2 ^ log2Ceil v v 0 ≤ 2 ^ j :=
  Nat.pow_le_pow_right (by decide) (log2Ceil_le hj v 0 (Nat.zero_le j))

/-! The policy: it rounds up, is monotone, and leaves its own values fixed. -/

namespace GrowthStrategy

theorem le_policy (g : GrowthStrategy) (m : Nat) : m ≤ g.policy m := by
  cases g with
  | linear l => exact le_ceilDiv_mul l.chunkSize_pos
  | exponential =>
    simp only [policy]
    split_ifs
    · omega
    · exact le_two_pow_log2Ceil m

theorem policy_zero (g : GrowthStrategy) : g.policy 0 = 0 := by
  cases g <;> simp [policy, ceilDiv_zero]

theorem policy_exponential_lt {m : Nat} (hm : 0 < m) : exponential.policy m < 2 * m := by
  simp only [policy, if_neg (Nat.pos_iff_ne_zero.mp hm)]
  have hmin : ∀ j, m ≤ 2 ^ j → log2Ceil m m 0 ≤ j :=
    fun j hj => log2Ceil_le hj m 0 (Nat.zero_le j)
  cases h : log2Ceil m m 0 with
  | zero => rw [Nat.pow_zero]; omega
  | succ k =>
    have hk : 2 ^ k < m := Nat.lt_of_not_le fun hle => by have := hmin k hle; omega
    rw [Nat.pow_succ]
    omega

/-- The block counts a strategy rounds to. -/
def Admissible : GrowthStrategy → Nat → Prop
  | .linear l, k => l.chunkSize ∣ k
  | .exponential, k => k = 0 ∨ ∃ e, k = 2 ^ e

theorem admissible_policy (g : GrowthStrategy) (m : Nat) : g.Admissible (g.policy m) := by
  cases g with
  | linear l => exact Dvd.intro_left _ rfl
  | exponential =>
    simp only [Admissible, policy]
    split_ifs
    · exact .inl rfl
    · exact .inr ⟨_, rfl⟩

theorem policy_le_of_admissible (g : GrowthStrategy) {m k : Nat} (hk : g.Admissible k)
    (hmk : m ≤ k) : g.policy m ≤ k := by
  cases g with
  | linear l =>
    obtain ⟨j, rfl⟩ := hk
    rw [Nat.mul_comm l.chunkSize j] at hmk ⊢
    exact Nat.mul_le_mul_right _ ((ceilDiv_le_iff l.chunkSize_pos).mpr hmk)
  | exponential =>
    rcases hk with rfl | ⟨e, rfl⟩
    · rw [Nat.le_zero.mp hmk, policy_zero]
    · simp only [policy]
      split_ifs
      · exact Nat.zero_le _
      · exact two_pow_log2Ceil_le hmk

theorem policy_lt_add (g : GrowthStrategy) {m : Nat} (hm : m < 2 ^ 64) :
    g.policy m < m + 2 ^ 64 := by
  cases g with
  | linear l =>
    exact lt_of_lt_of_le (ceilDiv_mul_lt l.chunkSize_pos) (by have := l.chunkSize_lt; omega)
  | exponential =>
    rcases Nat.eq_zero_or_pos m with rfl | hpos
    · rw [policy_zero]; exact Nat.two_pow_pos 64
    · have := policy_exponential_lt hpos; omega

end GrowthStrategy

open GrowthStrategy in
/-- `new_size(minimum)` is the least block count of the strategy's form not below `minimum`
when that fits in `u64`, and wraps below `minimum` otherwise. -/
theorem new_size_least_admissible (g : GrowthStrategy) {m : Nat} (hm : m < 2 ^ 64) :
    m ≤ g.policy m ∧ g.Admissible (g.policy m) ∧
      (∀ k, g.Admissible k → m ≤ k → g.policy m ≤ k) ∧
      (m ≤ g.newSize m ↔ g.policy m < 2 ^ 64) ∧
      (g.policy m < 2 ^ 64 → g.newSize m = g.policy m) ∧
      (g = .exponential → 2 ^ 63 < m → g.newSize m = 0) := by
  refine ⟨g.le_policy m, g.admissible_policy m, fun k => g.policy_le_of_admissible,
    ⟨fun hle => Nat.lt_of_not_le fun hge => ?_, fun h => newSize_of_lt h ▸ g.le_policy m⟩,
    newSize_of_lt, fun hg hbig => ?_⟩
  · have := g.policy_lt_add hm
    rw [newSize_eq, wrap64] at hle
    omega
  · subst hg
    have hp : exponential.policy m = 2 ^ 64 := by
      have hlog := le_two_pow_log2Ceil m
      have h64 : 63 < log2Ceil m m 0 := (Nat.pow_lt_pow_iff_right (show 1 < 2 by decide)).mp
        (lt_of_lt_of_le hbig hlog)
      simp only [policy, if_neg (show m ≠ 0 by omega)]
      exact le_antisymm (two_pow_log2Ceil_le hm.le) (Nat.pow_le_pow_right (by decide) h64)
    rw [newSize_eq, hp]
    rfl

theorem new_size_least_admissible_wraps :
    2 ^ 63 + 1 < 2 ^ 64 ∧ GrowthStrategy.exponential.newSize (2 ^ 63 + 1) = 0 :=
  ⟨by decide,
    (new_size_least_admissible .exponential (show 2 ^ 63 + 1 < 2 ^ 64 by decide)).2.2.2.2.2
      rfl (by decide)⟩

end Extpp
