import Extpp.Leaf.Algebra

/-!
The B-tree's `tree` (src/src/extpp/btree/tree.hpp), in the parts that have bodies in src/:
the key comparisons built from the user's `key_less`, and the accessors of the persistent
anchor. Search, insertion and rebalancing are declared there without bodies.

`key_equal` is derived from `key_less` as "neither key is below the other"; under a strict
weak order it is an equivalence, the three comparisons split every pair of keys, and a leaf
whose derived keys increase holds at most one value equal to any key.
-/

set_option autoImplicit false

namespace Extpp

namespace Tree

section Keys

variable {K : Type} (keyLess : K → K → Bool)

/-- `key_equal(left, right)`: neither key below the other. -/
def keyEqual (left right : K) : Bool := !keyLess left right && !keyLess right left

def keyGreater (left right : K) : Bool := keyLess right left

/-- `value_equal_key(value, key)`: the key derived from the value is `key_equal` to `key`. -/
def valueEqualKey (deriveKey : List UInt8 → K) (value : List UInt8) (key : K) : Bool :=
  keyEqual keyLess key (deriveKey value)

variable {keyLess}

theorem keyEqual_comm (a b : K) : keyEqual keyLess a b = keyEqual keyLess b a :=
  Bool.and_comm ..

theorem keyEqual_iff {a b : K} :
    keyEqual keyLess a b = true ↔ ¬keyLess a b = true ∧ ¬keyLess b a = true := by
  simp [keyEqual]

variable (hk : StrictWeakOrder keyLess)
include hk

theorem keyEqual_trans {a b c : K} (hab : keyEqual keyLess a b = true)
    (hbc : keyEqual keyLess b c = true) : keyEqual keyLess a c = true :=
  keyEqual_iff.mpr (hk.incomp_trans a b c (keyEqual_iff.mp hab) (keyEqual_iff.mp hbc))

theorem not_both_equal_key {deriveKey : List UInt8 → K} {x y : List UInt8} {key : K}
    (hxy : keyLess (deriveKey x) (deriveKey y) = true)
    (hx : valueEqualKey keyLess deriveKey x key = true)
    (hy : valueEqualKey keyLess deriveKey y key = true) : False := by
  have hxk : keyEqual keyLess (deriveKey x) key = true := by
    rw [keyEqual_comm]; exact hx
  exact (keyEqual_iff.mp (keyEqual_trans hk hxk hy)).1 hxy

end Keys

end Tree

open Tree in
/-- Under a strict weak order, `key_equal` is an equivalence, exactly one of the three
comparisons holds, and an increasing leaf has at most one value equal to a key. -/
theorem key_comparisons_partition {K : Type} {keyLess : K → K → Bool}
    (hk : StrictWeakOrder keyLess) :
    Equivalence (fun a b => keyEqual keyLess a b = true) ∧
      (∀ a b, [keyLess a b, keyEqual keyLess a b, keyGreater keyLess a b].count true = 1) ∧
      ∀ (deriveKey : List UInt8 → K) (L : List (List UInt8)),
        KeyIncreasing deriveKey keyLess L →
        ∀ key, (L.filter fun v => valueEqualKey keyLess deriveKey v key).length ≤ 1 := by
  haveI := hk
  refine ⟨⟨fun a => keyEqual_iff.mpr ⟨hk.irrefl a, hk.irrefl a⟩,
    fun h => by rwa [keyEqual_comm], keyEqual_trans hk⟩, fun a b => ?_, fun deriveKey L hL key => ?_⟩
  · cases hab : keyLess a b
    · cases keyLess b a <;> simp [keyEqual, keyGreater, hab]
    · have hba : ¬keyLess b a = true := asymm (r := fun a b => keyLess a b = true) hab
      simp [keyEqual, keyGreater, hab, hba]
  · have hp := (hL.pairwise hk).filter fun v => valueEqualKey keyLess deriveKey v key
    have hm : ∀ v ∈ L.filter (fun v => valueEqualKey keyLess deriveKey v key),
        valueEqualKey keyLess deriveKey v key = true := fun v hv => (List.mem_filter.mp hv).2
    generalize L.filter (fun v => valueEqualKey keyLess deriveKey v key) = F at hp hm
    match F, hp, hm with
    | [], _, _ => simp
    | [_], _, _ => simp
    | x :: y :: _, hp, hm =>
      exact (not_both_equal_key hk (List.rel_of_pairwise_cons hp (List.mem_cons_self y _))
        (hm x (List.mem_cons_self _ _)) (hm y (by simp))).elim

theorem key_comparisons_partition_nat :
    let keyLess : Nat → Nat → Bool := fun a b => decide (a < b)
    StrictWeakOrder keyLess ∧
      [keyLess 1 2, Tree.keyEqual keyLess 1 2, Tree.keyGreater keyLess 1 2].count true = 1 := by
  intro keyLess
  have hk : StrictWeakOrder keyLess :=
    { irrefl := fun a => by simp [keyLess]
      trans := fun a b c => by simp only [keyLess, decide_eq_true_eq]; omega
      incomp_trans := fun a b c => by simp only [keyLess, decide_eq_true_eq]; omega }
  exact ⟨hk, (key_comparisons_partition hk).2.1 1 2⟩

/-- The anchor fields the tree's accessors use (the anchor's declaration is not in src/). -/
structure RawBtreeAnchor where
  height : UInt32
  size : UInt64
  root : UInt64
  leftmost : UInt64
  rightmost : UInt64
  leafNodes : UInt64
  internalNodes : UInt64

namespace Tree

variable (a : RawBtreeAnchor)

def setHeight (height : UInt32) : RawBtreeAnchor := { a with height := height }

def setSize (size : UInt64) : RawBtreeAnchor := { a with size := size }

def setRoot (root : UInt64) : RawBtreeAnchor := { a with root := root }

def setLeftmost (leftmost : UInt64) : RawBtreeAnchor := { a with leftmost := leftmost }

def setRightmost (rightmost : UInt64) : RawBtreeAnchor := { a with rightmost := rightmost }

/-- `set_internal_nodes(u32 internal_nodes)`: its parameter is a `u32`, unlike the others'. -/
def setInternalNodes (internalNodes : UInt32) : RawBtreeAnchor :=
  { a with internalNodes := internalNodes.toUInt64 }

def setLeafNodes (leafNodes : UInt64) : RawBtreeAnchor := { a with leafNodes := leafNodes }

end Tree

end Extpp
