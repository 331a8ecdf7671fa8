import Extpp.Leaf.Algebra

/-!
A leaf over a sequence of its operations. The tree applies `set`, `insert_nonfull`, `remove`,
`append_from_right` and `prepend_from_left` to one leaf one after another, each under the
`EXTPP_ASSERT`s of its body. Along every such run the leaf holds the list the list operations
give, never more values than `capacity(block_size, value_size)` (the most that fit after the
header), and never writes past its last slot; when each written value lies between its
neighbours, the derived keys stay increasing.
-/

set_option autoImplicit false

namespace Extpp

namespace RawBtreeLeafNode

/-- `capacity(block_size, value_size)` is the most values that fit in a block after the header. -/
theorem capacity_most_values (bs vs : Nat) :
    (0 < vs → ∃ c, capacity bs vs = some c ∧
      ∀ m, 0 < m → (headerSize + vs * m ≤ bs ↔ m ≤ c)) ∧
    (headerSize ≤ bs → capacity bs 0 = none) := by
  refine ⟨fun hvs => ?_, fun hbs => by simp [capacity, if_neg (Nat.not_lt.mpr hbs)]⟩
  by_cases hbs : bs < headerSize
  · refine ⟨0, if_pos hbs, fun m hm => ?_⟩
    have := Nat.mul_le_mul_left vs hm
    omega
  · refine ⟨(bs - headerSize) / vs, by rw [capacity, if_neg hbs, cppDiv_of_pos hvs],
      fun m _ => ?_⟩
    rw [Nat.le_div_iff_mul_le hvs, Nat.mul_comm m vs]
    omega

theorem capacity_most_values_sixteen :
    (∃ c, capacity 16 4 = some c ∧ ∀ m, 0 < m → (headerSize + 4 * m ≤ 16 ↔ m ≤ c)) ∧
      capacity 16 0 = none :=
  ⟨(capacity_most_values 16 4).1 (by decide), (capacity_most_values 16 4).2 (by decide)⟩

variable (n : RawBtreeLeafNode)

/-- `init()`: a fresh header, size zero. -/
def init : RawBtreeLeafNode := n.setSize 0

/-! `set(index, value)` slot by slot. -/

@[simp] theorem set_valueSize (i : Nat) (v : Bytes) : (n.set i v).valueSize = n.valueSize := rfl

@[simp] theorem set_maxSize (i : Nat) (v : Bytes) : (n.set i v).maxSize = n.maxSize := rfl

theorem get_set (i : Nat) (v : Bytes) (k : Nat) :
    (n.set i v).get k = if k = i then load v 0 n.valueSize else n.get k := by
  simp only [set, get_with_block, get_eq_slot, offsetOfValue, slot_memmove_value]

theorem getSize_set (i : Nat) (v : Bytes) : (n.set i v).getSize = n.getSize :=
  loadU32_congr fun j hj => memmove_of_not_mem (by unfold offsetOfValue headerSize; omega)

theorem values_set (i : Nat) (v : Bytes) :
    (n.set i v).values = n.values.set i (load v 0 n.valueSize) := by
  apply values_eq_of_get
  · rw [List.length_set, values_length, getSize_set]
  · intro k hk
    rw [List.length_set, values_length] at hk
    rw [List.getElem?_set, getElem?_values, get_set, values_length]
    by_cases hki : k = i
    · subst hki; simp [hk]
    · simp [hk, hki, Ne.symm hki]

theorem set_block_of_le {i : Nat} (v : Bytes) (hi : i < n.maxSize) {a : Nat}
    (ha : headerSize + n.valueSize * n.maxSize ≤ a) : (n.set i v).block a = n.block a := by
  have h1 := slots_end_le n.valueSize (show i + 1 ≤ n.maxSize by omega)
  simp only [set, offsetOfValue]
  rw [memmove_of_le (by omega)]

end RawBtreeLeafNode

/-- The operations that keep a leaf unsplit, as the tree applies them to one leaf. -/
inductive LeafOp where
  | set (index : Nat) (value : Bytes)
  | insertNonfull (index : Nat) (value : Bytes)
  | remove (index : Nat)
  | appendFromRight (neighbor : RawBtreeLeafNode)
  | prependFromLeft (neighbor : RawBtreeLeafNode)

namespace LeafOp

def apply (n : RawBtreeLeafNode) : LeafOp → RawBtreeLeafNode
  | .set i v => n.set i v
  | .insertNonfull i v => n.insertNonfull i v
  | .remove i => n.remove i
  | .appendFromRight nb => n.appendFromRight nb
  | .prependFromLeft nb => n.prependFromLeft nb

variable (vs c : Nat) (L : List (List UInt8))

def listApply : LeafOp → List (List UInt8)
  | .set i v => L.set i (load v 0 vs)
  | .insertNonfull i v => L.insertIdx i (load v 0 vs)
  | .remove i => L.eraseIdx i
  | .appendFromRight nb => L ++ nb.values
  | .prependFromLeft nb => nb.values ++ L

/-- The `EXTPP_ASSERT`s of the operation on a leaf of capacity `c` holding `L`. -/
def Allowed : LeafOp → Prop
  | .set i _ => i < c
  | .insertNonfull i _ => i ≤ L.length ∧ L.length < c
  | .remove i => i < L.length
  | .appendFromRight nb => nb.valueSize = vs ∧ L.length + nb.values.length ≤ c
  | .prependFromLeft nb => nb.valueSize = vs ∧ L.length + nb.values.length ≤ c

instance decidableAllowed : (op : LeafOp) → Decidable (op.Allowed vs c L)
  | .set i _ => inferInstanceAs (Decidable (i < c))
  | .insertNonfull i _ => inferInstanceAs (Decidable (i ≤ L.length ∧ L.length < c))
  | .remove i => inferInstanceAs (Decidable (i < L.length))
  | .appendFromRight nb =>
    inferInstanceAs (Decidable (nb.valueSize = vs ∧ L.length + nb.values.length ≤ c))
  | .prependFromLeft nb =>
    inferInstanceAs (Decidable (nb.valueSize = vs ∧ L.length + nb.values.length ≤ c))

section Order

variable {K : Type} (deriveKey : List UInt8 → K) (keyLess : K → K → Bool)

/-- The operation keeps the keys increasing. -/
def KeepsOrder : LeafOp → Prop
  | .set i v => i < L.length →
      (∀ a ∈ L[i - 1]?, 0 < i → keyLess (deriveKey a) (deriveKey (load v 0 vs)) = true) ∧
      ∀ b ∈ L[i + 1]?, keyLess (deriveKey (load v 0 vs)) (deriveKey b) = true
  | .insertNonfull i v =>
      (∀ a ∈ L[i - 1]?, 0 < i → keyLess (deriveKey a) (deriveKey (load v 0 vs)) = true) ∧
      ∀ b ∈ L[i]?, keyLess (deriveKey (load v 0 vs)) (deriveKey b) = true
  | .remove _ => True
  | .appendFromRight nb => KeyIncreasing deriveKey keyLess nb.values ∧
      ∀ a ∈ L, ∀ b ∈ nb.values, keyLess (deriveKey a) (deriveKey b) = true
  | .prependFromLeft nb => KeyIncreasing deriveKey keyLess nb.values ∧
      ∀ a ∈ nb.values, ∀ b ∈ L, keyLess (deriveKey a) (deriveKey b) = true

variable {deriveKey keyLess vs L}

theorem keyIncreasing_listApply (hk : StrictWeakOrder keyLess)
    (h : KeyIncreasing deriveKey keyLess L) {op : LeafOp}
    (ho : op.KeepsOrder vs L deriveKey keyLess) :
    KeyIncreasing deriveKey keyLess (op.listApply vs L) := by
  cases op with
  | set i v =>
    by_cases hi : i < L.length
    · obtain ⟨hlo, hhi⟩ := ho hi
      rw [listApply, List.set_eq_take_append_cons_drop, if_pos hi]
      exact h.splice hi.le hlo hhi
    · rwa [listApply, List.set_eq_take_append_cons_drop, if_neg hi]
  | insertNonfull i v =>
    by_cases hi : i ≤ L.length
    · exact h.insertIdx hi ho.1 ho.2
    · rwa [listApply, List.insertIdx_of_length_lt _ _ _ (by omega)]
  | remove i => exact h.eraseIdx hk i
  | appendFromRight nb => exact h.append ho.1 ho.2
  | prependFromLeft nb => exact ho.1.append h ho.2

end Order

end LeafOp

namespace RawBtreeLeafNode

/-- A leaf of value size `vs` and capacity `c` that holds `L`. -/
structure Holds (vs c : Nat) (n : RawBtreeLeafNode) (L : List (List UInt8)) : Prop where
  valueSize : n.valueSize = vs
  maxSize : n.maxSize = c
  values : n.values = L
  length_le : L.length ≤ c

theorem holds_init (n : RawBtreeLeafNode) : Holds n.valueSize n.maxSize n.init [] :=
  ⟨rfl, rfl, by simp [init, values], Nat.zero_le _⟩

variable {vs c : Nat} {n : RawBtreeLeafNode} {L : List (List UInt8)}

/-- One allowed operation: the leaf holds the list operation's result, and no byte past its
slots changed. -/
theorem Holds.step (hc : c < 2 ^ 32) (h : Holds vs c n L) {op : LeafOp}
    (hop : op.Allowed vs c L) :
    Holds vs c (op.apply n) (op.listApply vs L) ∧
      ∀ a, headerSize + vs * c ≤ a → (op.apply n).block a = n.block a := by
  obtain ⟨rfl, rfl, rfl, hle⟩ := h
  rw [values_length] at hle
  cases op with
  | set i v =>
    exact ⟨⟨rfl, rfl, values_set n i v, by simpa [LeafOp.listApply] using hle⟩,
      fun a => set_block_of_le n v hop⟩
  | insertNonfull i v =>
    obtain ⟨hi, hlt⟩ := hop
    rw [values_length] at hi hlt
    refine ⟨⟨rfl, rfl, values_insertNonfull v hi (by omega), ?_⟩,
      fun a => insertNonfull_block_of_le n v hi hlt⟩
    rw [LeafOp.listApply, List.length_insertIdx _ _ (by simpa using hi), values_length]
    omega
  | remove i =>
    rw [LeafOp.Allowed, values_length] at hop
    refine ⟨⟨rfl, rfl, values_remove hop, ?_⟩, fun a => remove_block_of_le n hop hle⟩
    exact le_trans (List.eraseIdx_sublist _ i).length_le (by simpa using hle)
  | appendFromRight nb =>
    obtain ⟨hvs, hsum⟩ := hop
    rw [values_length, values_length] at hsum
    exact ⟨⟨rfl, rfl, values_appendFromRight nb hvs (by omega),
      by simpa [LeafOp.listApply] using hsum⟩, fun a => appendFromRight_block_of_le n nb hsum⟩
  | prependFromLeft nb =>
    obtain ⟨hvs, hsum⟩ := hop
    rw [values_length, values_length] at hsum
    refine ⟨⟨rfl, rfl, values_prependFromLeft nb hvs (by omega), ?_⟩,
      fun a => prependFromLeft_block_of_le n nb hsum⟩
    simp only [LeafOp.listApply, List.length_append, values_length]
    omega

end RawBtreeLeafNode

namespace LeafOp

def run (n : RawBtreeLeafNode) (ops : List LeafOp) : RawBtreeLeafNode := ops.foldl apply n

variable (vs c : Nat)

def listRun (L : List (List UInt8)) (ops : List LeafOp) : List (List UInt8) :=
  ops.foldl (listApply vs) L

def AllowedAlong : List (List UInt8) → List LeafOp → Prop
  | _, [] => True
  | L, op :: ops => op.Allowed vs c L ∧ AllowedAlong (op.listApply vs L) ops

instance decidableAllowedAlong : (L : List (List UInt8)) → (ops : List LeafOp) →
    Decidable (AllowedAlong vs c L ops)
  | _, [] => isTrue trivial
  | L, op :: ops =>
    haveI := decidableAllowedAlong (op.listApply vs L) ops
    inferInstanceAs (Decidable (op.Allowed vs c L ∧ AllowedAlong vs c (op.listApply vs L) ops))

variable {K : Type} (deriveKey : List UInt8 → K) (keyLess : K → K → Bool)

def KeepsOrderAlong : List (List UInt8) → List LeafOp → Prop
  | _, [] => True
  | L, op :: ops => op.KeepsOrder vs L deriveKey keyLess ∧
      KeepsOrderAlong (op.listApply vs L) ops

end LeafOp

open LeafOp in
/-- Along every run of leaf operations that meets their assertions, the leaf holds the list
the list operations give, and its keys stay increasing. -/
theorem leaf_runs_are_list_runs {vs c : Nat} (hc : c < 2 ^ 32) :
    ∀ (ops : List LeafOp) {n : RawBtreeLeafNode} {L : List (List UInt8)},
      RawBtreeLeafNode.Holds vs c n L → AllowedAlong vs c L ops →
      RawBtreeLeafNode.Holds vs c (run n ops) (listRun vs L ops) ∧
        (∀ a, RawBtreeLeafNode.headerSize + vs * c ≤ a → (run n ops).block a = n.block a) ∧
        ∀ {K : Type} (deriveKey : List UInt8 → K) (keyLess : K → K → Bool),
          StrictWeakOrder keyLess → KeyIncreasing deriveKey keyLess L →
          KeepsOrderAlong vs deriveKey keyLess L ops →
          KeyIncreasing deriveKey keyLess (run n ops).values
  | [], _, _, h, _ => ⟨h, fun _ _ => rfl, fun _ _ _ hL _ => h.values ▸ hL⟩
  | op :: ops, n, L, h, ⟨hop, hrest⟩ => by
    obtain ⟨h', hframe⟩ := h.step hc hop
    obtain ⟨ht, htframe, htord⟩ := leaf_runs_are_list_runs hc ops h' hrest
    refine ⟨ht, fun a ha => (htframe a ha).trans (hframe a ha),
      fun deriveKey keyLess hk hL ⟨ho, hos⟩ => htord deriveKey keyLess hk ?_ hos⟩
    exact keyIncreasing_listApply hk hL ho

theorem leaf_runs_are_list_runs_two :
    let n : RawBtreeLeafNode := RawBtreeLeafNode.init ⟨fun _ => 0, 4, 2⟩
    let ops := [LeafOp.insertNonfull 0 fun _ => 9, LeafOp.insertNonfull 0 fun _ => 1]
    (2 < 2 ^ 32 ∧ RawBtreeLeafNode.Holds 4 2 n [] ∧ LeafOp.AllowedAlong 4 2 [] ops) ∧
      (LeafOp.run n ops).values = [[1, 1, 1, 1], [9, 9, 9, 9]] := by
  intro n ops
  have hc : 2 < 2 ^ 32 := by decide
  have h : RawBtreeLeafNode.Holds 4 2 n [] := RawBtreeLeafNode.holds_init ⟨fun _ => 0, 4, 2⟩
  have hops : LeafOp.AllowedAlong 4 2 [] ops := by decide
  refine ⟨⟨hc, h, hops⟩, ?_⟩
  rw [(leaf_runs_are_list_runs hc ops h hops).1.values]
  decide

end Extpp
