import Extpp.Leaf.Node

/-!
The leaf operations are the list operations they are named after: the slot-level effects of
`Extpp.Leaf.Node` read back as `insertIdx`, `eraseIdx`, `++`, and `take`/`drop` at `mid` for
the split. Sortedness by derived key then follows from list facts alone.
-/

set_option autoImplicit false

namespace Extpp

section Lists

variable {α : Type}

theorem insertIdx_eq_take_drop (v : α) : ∀ (i : Nat) (L : List α), i ≤ L.length →
    L.insertIdx i v = L.take i ++ v :: L.drop i
  | 0, L, _ => by simp [List.insertIdx_zero]
  | i + 1, [], h => by simp at h
  | i + 1, a :: t, h => by
    simp [List.insertIdx_succ_cons, insertIdx_eq_take_drop v i t (by simpa using h)]

theorem getElem?_insertIdx (v : α) {i : Nat} (k : Nat) {L : List α} (h : i ≤ L.length) :
    (L.insertIdx i v)[k]? = if k < i then L[k]? else if k = i then some v else L[k - 1]? := by
  rw [insertIdx_eq_take_drop v i L h, List.getElem?_append]
  have hl : (L.take i).length = i := by simp; omega
  rw [hl]
  split_ifs with h1 h2
  · simp [List.getElem?_take, h1]
  · subst h2; simp
  · rw [List.getElem?_cons]
    split_ifs with h3
    · omega
    · rw [List.getElem?_drop]; congr 1; omega

theorem getElem?_map_range (f : Nat → α) (m k : Nat) :
    ((List.range m).map f)[k]? = if k < m then some (f k) else none := by
  split_ifs with h
  · simp [List.getElem?_range h]
  · rw [List.getElem?_eq_none]; simp; omega

end Lists

namespace RawBtreeLeafNode

variable (n : RawBtreeLeafNode)

@[simp] theorem values_length : n.values.length = n.getSize := by simp [values]

theorem getElem?_values (k : Nat) :
    n.values[k]? = if k < n.getSize then some (n.get k) else none := getElem?_map_range ..

theorem values_eq_of_get {L : List (List UInt8)} (hs : n.getSize = L.length)
    (hg : ∀ k < L.length, L[k]? = some (n.get k)) : n.values = L := by
  apply List.ext_getElem?
  intro k
  rw [getElem?_values, hs]
  split_ifs with hk
  · exact (hg k hk).symm
  · exact (List.getElem?_eq_none (by omega)).symm

theorem get_with_block (b : Bytes) (k : Nat) :
    ({ n with block := b } : RawBtreeLeafNode).get k = slot b headerSize n.valueSize k := rfl

theorem offsetOfValue_zero : n.offsetOfValue 0 = headerSize := by simp [offsetOfValue]

/-! The four operations that keep a leaf unsplit. -/

variable {n}

theorem values_insertNonfull {i : Nat} (value : Bytes) (hi : i ≤ n.getSize)
    (hs : n.getSize + 1 < 2 ^ 32) :
    (n.insertNonfull i value).values = n.values.insertIdx i (load value 0 n.valueSize) := by
  have hi' : i ≤ n.values.length := by simpa using hi
  have hlen : (n.values.insertIdx i (load value 0 n.valueSize)).length = n.values.length + 1 :=
    List.length_insertIdx _ _ hi'
  apply values_eq_of_get
  · simp [insertNonfull, hlen]; omega
  · intro k hk
    rw [hlen, values_length] at hk
    rw [getElem?_insertIdx _ _ hi', getElem?_values, getElem?_values, get_insertNonfull]
    split_ifs <;> first | rfl | omega

theorem values_remove {i : Nat} (hi : i < n.getSize) :
    (n.remove i).values = n.values.eraseIdx i := by
  have hs := loadU32_lt n.block 0
  have hlen : (n.values.eraseIdx i).length = n.getSize - 1 := by
    simp [List.length_eraseIdx, hi]
  apply values_eq_of_get
  · simp only [remove, getSize_setSize, hlen]; simp only [getSize] at hi ⊢; omega
  · intro k hk
    rw [hlen] at hk
    rw [List.getElem?_eraseIdx, getElem?_values, getElem?_values, get_remove]
    split_ifs <;> first | rfl | omega

theorem values_appendFromRight (nb : RawBtreeLeafNode) (hvs : nb.valueSize = n.valueSize)
    (hs : n.getSize + nb.getSize < 2 ^ 32) :
    (n.appendFromRight nb).values = n.values ++ nb.values := by
  apply values_eq_of_get
  · simp [appendFromRight]; omega
  · intro k hk
    simp only [List.length_append, values_length] at hk
    rw [List.getElem?_append, getElem?_values, getElem?_values, get_appendFromRight _ _ hvs]
    simp only [values_length]
    split_ifs <;> first | rfl | omega

theorem values_prependFromLeft (nb : RawBtreeLeafNode) (hvs : nb.valueSize = n.valueSize)
    (hs : n.getSize + nb.getSize < 2 ^ 32) :
    (n.prependFromLeft nb).values = nb.values ++ n.values := by
  apply values_eq_of_get
  · simp [prependFromLeft]; omega
  · intro k hk
    simp only [List.length_append, values_length] at hk
    rw [List.getElem?_append, getElem?_values, getElem?_values, get_prependFromLeft _ _ hvs]
    simp only [values_length]
    split_ifs <;> first | rfl | omega

/-! `insert_full`: insertion followed by a cut at `mid`. -/

theorem slot_value_zero (value : Bytes) (vs : Nat) : slot value 0 vs 0 = load value 0 vs := by
  simp [slot]

section InsertFull

variable {i mid : Nat} (value : Bytes) (newLeaf : RawBtreeLeafNode)
  (hfull : n.getSize = n.maxSize) (hnl : newLeaf.valueSize = n.valueSize)
  (hi : i ≤ n.maxSize) (hmid : 0 < mid) (hmidC : mid ≤ n.maxSize) (hC : n.maxSize < 2 ^ 32)
include hfull hi hmidC hC

theorem values_insertFull_left :
    (n.insertFull i value mid newLeaf).1.values =
      (n.values.insertIdx i (load value 0 n.valueSize)).take mid := by
  have hi' : i ≤ n.values.length := by simp; omega
  have hlen : (n.values.insertIdx i (load value 0 n.valueSize)).length = n.values.length + 1 :=
    List.length_insertIdx _ _ hi'
  apply values_eq_of_get
  · simp [insertFull, hlen]; omega
  · intro k hk
    simp only [List.length_take, hlen, values_length] at hk
    rw [List.getElem?_take, if_pos (by omega), getElem?_insertIdx _ _ hi', getElem?_values,
      getElem?_values]
    simp only [insertFull, get_setSize, get_with_block, offsetOfValue_zero]
    simp only [get_eq_slot]
    by_cases hlt : i < mid
    · rw [sequenceInsert_left_of_lt _ _ _ hlt, slot_value_zero]
      rcases lt_trichotomy k i with h | h | h
      · rw [if_pos h, if_pos (by omega), if_neg (by omega), if_neg (by omega)]
      · rw [if_neg (by omega), if_pos h, if_pos h]
      · rw [if_neg (by omega), if_neg (by omega), if_pos (by omega), if_neg (by omega),
          if_pos (by omega)]
    · rw [sequenceInsert_left_of_ge _ _ _ (by omega), if_pos (by omega), if_pos (by omega)]

include hmid hnl in
theorem values_insertFull_right :
    (n.insertFull i value mid newLeaf).2.values =
      (n.values.insertIdx i (load value 0 n.valueSize)).drop mid := by
  have hi' : i ≤ n.values.length := by simp; omega
  have hlen : (n.values.insertIdx i (load value 0 n.valueSize)).length = n.values.length + 1 :=
    List.length_insertIdx _ _ hi'
  apply values_eq_of_get
  · simp [insertFull, hlen]; omega
  · intro k hk
    simp only [List.length_drop, hlen, values_length] at hk
    rw [List.getElem?_drop, getElem?_insertIdx _ _ hi', getElem?_values, getElem?_values]
    simp only [insertFull, get_setSize, get_with_block, offsetOfValue_zero]
    rw [hnl]
    simp only [get_eq_slot]
    by_cases hlt : i < mid
    · rw [sequenceInsert_right_of_lt _ _ _ hlt, if_neg (by omega), if_neg (by omega),
        if_pos (by omega), if_pos (by omega), Nat.sub_add_comm hmid]
    · rw [sequenceInsert_right_of_ge _ _ _ (Nat.le_of_not_lt hlt) hi, slot_value_zero]
      rcases lt_trichotomy (mid + k) i with h | h | h
      · rw [if_pos h, if_pos (by omega), if_pos (by omega)]
      · rw [if_neg (by omega), if_pos h, if_neg (by omega), if_pos (by omega)]
      · rw [if_neg (by omega), if_neg (by omega), if_pos (by omega), if_neg (by omega),
          if_neg (by omega), if_pos (by omega)]

end InsertFull

/-- Every `move` of `sequence_insert` writes a leaf area and stays inside slots `[0, count)`. -/
theorem sequenceInsertMoves_in_bounds {count mid i : Nat} (hmid : 0 < mid) (hmidC : mid ≤ count)
    (hi : i ≤ count) : ∀ m ∈ sequenceInsertMoves count mid i, m.dst ≠ .value ∧
      m.dstIndex + m.n ≤ count ∧ m.srcIndex + m.n ≤ (if m.src = .value then 1 else count) := by
  intro m hm
  unfold sequenceInsertMoves at hm
  split_ifs at hm <;> simp only [List.mem_cons, List.mem_singleton, List.not_mem_nil,
    or_false] at hm <;> rcases hm with rfl | rfl | rfl <;>
    refine ⟨nofun, ?_, ?_⟩ <;> simp only [reduceCtorEq, ↓reduceIte] <;> omega

end RawBtreeLeafNode

/-! Order by derived key. -/

section KeyOrder

variable {K : Type} (deriveKey : List UInt8 → K) (keyLess : K → K → Bool)

/-- `key_less` is a strict weak order, as the tree requires of its comparator. -/
abbrev StrictWeakOrder : Prop := IsStrictWeakOrder K fun a b => keyLess a b = true

/-- Values strictly increasing by derived key: each key is below the next. -/
def KeyIncreasing (l : List (List UInt8)) : Prop :=
  l.Chain' fun a b => keyLess (deriveKey a) (deriveKey b) = true

variable {deriveKey keyLess}

theorem KeyIncreasing.pairwise (hk : StrictWeakOrder keyLess) {l : List (List UInt8)}
    (h : KeyIncreasing deriveKey keyLess l) :
    l.Pairwise fun a b => keyLess (deriveKey a) (deriveKey b) = true := by
  haveI : IsTrans (List UInt8) fun a b => keyLess (deriveKey a) (deriveKey b) = true :=
    ⟨fun _ _ _ => hk.trans _ _ _⟩
  exact List.chain'_iff_pairwise.mp h

theorem KeyIncreasing.splice {L : List (List UInt8)} {i j : Nat} {v : List UInt8}
    (h : KeyIncreasing deriveKey keyLess L) (hi : i ≤ L.length)
    (hlo : ∀ a ∈ L[i - 1]?, 0 < i → keyLess (deriveKey a) (deriveKey v) = true)
    (hhi : ∀ b ∈ L[j]?, keyLess (deriveKey v) (deriveKey b) = true) :
    KeyIncreasing deriveKey keyLess (L.take i ++ v :: L.drop j) := by
  rw [KeyIncreasing, List.chain'_append, List.chain'_cons', List.head?_drop, List.getLast?_take]
  refine ⟨h.take i, ⟨hhi, h.drop j⟩, ?_⟩
  intro a ha b hb
  simp only [List.head?_cons, Option.mem_def, Option.some.injEq] at hb
  subst hb
  split_ifs at ha with h0
  · simp at ha
  · have hlt : i - 1 < L.length := by omega
    rw [List.getElem?_eq_getElem hlt, Option.or_some] at ha
    exact hlo a (by rw [List.getElem?_eq_getElem hlt]; exact ha) (by omega)

theorem KeyIncreasing.insertIdx {L : List (List UInt8)} {i : Nat} {v : List UInt8}
    (h : KeyIncreasing deriveKey keyLess L) (hi : i ≤ L.length)
    (hlo : ∀ a ∈ L[i - 1]?, 0 < i → keyLess (deriveKey a) (deriveKey v) = true)
    (hhi : ∀ b ∈ L[i]?, keyLess (deriveKey v) (deriveKey b) = true) :
    KeyIncreasing deriveKey keyLess (L.insertIdx i v) := by
  rw [insertIdx_eq_take_drop v i L hi]
  exact h.splice hi hlo hhi

theorem KeyIncreasing.eraseIdx (hk : StrictWeakOrder keyLess) {L : List (List UInt8)}
    (h : KeyIncreasing deriveKey keyLess L) (i : Nat) :
    KeyIncreasing deriveKey keyLess (L.eraseIdx i) :=
  ((h.pairwise hk).sublist (List.eraseIdx_sublist L i)).chain'

theorem KeyIncreasing.append {L R : List (List UInt8)} (hL : KeyIncreasing deriveKey keyLess L)
    (hR : KeyIncreasing deriveKey keyLess R)
    (hLR : ∀ a ∈ L, ∀ b ∈ R, keyLess (deriveKey a) (deriveKey b) = true) :
    KeyIncreasing deriveKey keyLess (L ++ R) :=
  List.chain'_append.mpr ⟨hL, hR, fun a ha b hb =>
    hLR a (List.mem_of_mem_getLast? ha) b (List.mem_of_mem_head? hb)⟩

theorem KeyIncreasing.cut (hk : StrictWeakOrder keyLess) {L : List (List UInt8)}
    (h : KeyIncreasing deriveKey keyLess L) (m : Nat) :
    KeyIncreasing deriveKey keyLess (L.take m) ∧ KeyIncreasing deriveKey keyLess (L.drop m) ∧
      ∀ a ∈ L.take m, ∀ b ∈ L.drop m, keyLess (deriveKey a) (deriveKey b) = true := by
  have hp := h.pairwise hk
  rw [← List.take_append_drop m L, List.pairwise_append] at hp
  exact ⟨h.take m, h.drop m, hp.2.2⟩

end KeyOrder

namespace RawBtreeLeafNode

/-- An operation took leaf `n` to `n'`, which holds `L'`, and changed no byte past `n`'s slots. -/
structure Rewrites (n n' : RawBtreeLeafNode) (L' : List (List UInt8)) : Prop where
  values : n'.values = L'
  size : n'.getSize = L'.length
  frame : ∀ a, headerSize + n.valueSize * n.maxSize ≤ a → n'.block a = n.block a

theorem Rewrites.of_values {n n' : RawBtreeLeafNode} {L' : List (List UInt8)}
    (hv : n'.values = L')
    (hf : ∀ a, headerSize + n.valueSize * n.maxSize ≤ a → n'.block a = n.block a) :
    Rewrites n n' L' := ⟨hv, by rw [← hv, values_length], hf⟩

/-- The non-splitting leaf operations are `insertIdx`, `eraseIdx` and the two appends, and each
keeps a key-increasing list key-increasing. -/
theorem leaf_operations_are_list_operations {bs vs c : Nat} (hbs : bs < 2 ^ 32)
    (hcap : capacity bs vs = some c) (n : RawBtreeLeafNode) (hvs : n.valueSize = vs)
    (hc : n.maxSize = c) (hs : n.getSize ≤ c)
    {K : Type} (deriveKey : List UInt8 → K) (keyLess : K → K → Bool) :
    (∀ (i : Nat) (value : Bytes), i ≤ n.values.length → n.values.length < c →
      Rewrites n (n.insertNonfull i value) (n.values.insertIdx i (load value 0 vs)) ∧
      (KeyIncreasing deriveKey keyLess n.values →
        (∀ a ∈ n.values[i - 1]?, 0 < i →
          keyLess (deriveKey a) (deriveKey (load value 0 vs)) = true) →
        (∀ b ∈ n.values[i]?, keyLess (deriveKey (load value 0 vs)) (deriveKey b) = true) →
        KeyIncreasing deriveKey keyLess (n.insertNonfull i value).values)) ∧
    (∀ i : Nat, i < n.values.length →
      Rewrites n (n.remove i) (n.values.eraseIdx i) ∧
      (StrictWeakOrder keyLess → KeyIncreasing deriveKey keyLess n.values →
        KeyIncreasing deriveKey keyLess (n.remove i).values)) ∧
    (∀ nb : RawBtreeLeafNode, nb.valueSize = vs → n.values.length + nb.values.length ≤ c →
      Rewrites n (n.appendFromRight nb) (n.values ++ nb.values) ∧
      (KeyIncreasing deriveKey keyLess n.values → KeyIncreasing deriveKey keyLess nb.values →
        (∀ a ∈ n.values, ∀ b ∈ nb.values, keyLess (deriveKey a) (deriveKey b) = true) →
        KeyIncreasing deriveKey keyLess (n.appendFromRight nb).values)) ∧
    (∀ nb : RawBtreeLeafNode, nb.valueSize = vs → nb.values.length + n.values.length ≤ c →
      Rewrites n (n.prependFromLeft nb) (nb.values ++ n.values) ∧
      (KeyIncreasing deriveKey keyLess nb.values → KeyIncreasing deriveKey keyLess n.values →
        (∀ a ∈ nb.values, ∀ b ∈ n.values, keyLess (deriveKey a) (deriveKey b) = true) →
        KeyIncreasing deriveKey keyLess (n.prependFromLeft nb).values)) := by
  have hc32 : c < 2 ^ 32 := Nat.lt_of_le_of_lt (capacity_le hcap) hbs
  subst hvs hc
  simp only [values_length]
  refine ⟨fun i value hi hlt => ?_, fun i hi => ?_, fun nb hnb hle => ?_, fun nb hnb hle => ?_⟩
  · have hv := values_insertNonfull value hi (by omega)
    refine ⟨.of_values hv fun a => insertNonfull_block_of_le n value hi hlt, ?_⟩
    intro hL hlo hhi
    rw [hv]
    exact hL.insertIdx (by simpa using hi) hlo hhi
  · have hv := values_remove hi
    refine ⟨.of_values hv fun a => remove_block_of_le n hi hs, fun hk hL => ?_⟩
    rw [hv]
    exact hL.eraseIdx hk i
  · have hv := values_appendFromRight nb hnb (by omega)
    refine ⟨.of_values hv fun a => appendFromRight_block_of_le n nb hle, ?_⟩
    intro hL hR hLR
    rw [hv]
    exact hL.append hR hLR
  · have hv := values_prependFromLeft nb hnb (by omega)
    refine ⟨.of_values hv fun a => prependFromLeft_block_of_le n nb (by omega), ?_⟩
    intro hL hR hLR
    rw [hv]
    exact hL.append hR hLR

theorem leaf_operations_are_list_operations_two :
    let n : RawBtreeLeafNode :=
      ⟨fun a => if a = 3 then 2 else if a < 4 then 0 else if a < 8 then 2 else
        if a < 12 then 4 else 0, 4, 4⟩
    let left : RawBtreeLeafNode :=
      ⟨fun a => if a = 3 then 1 else if a < 4 then 0 else if a < 8 then 1 else 0, 4, 4⟩
    let right : RawBtreeLeafNode :=
      ⟨fun a => if a = 3 then 1 else if a < 4 then 0 else if a < 8 then 6 else 0, 4, 4⟩
    (20 < 2 ^ 32 ∧ capacity 20 4 = some 4 ∧ n.getSize ≤ 4) ∧
      (n.insertNonfull 1 fun _ => 3).values = [[2, 2, 2, 2], [3, 3, 3, 3], [4, 4, 4, 4]] ∧
      (n.remove 0).values = [[4, 4, 4, 4]] ∧
      (n.appendFromRight right).values = [[2, 2, 2, 2], [4, 4, 4, 4], [6, 6, 6, 6]] ∧
      (n.prependFromLeft left).values = [[1, 1, 1, 1], [2, 2, 2, 2], [4, 4, 4, 4]] := by
  intro n left right
  have hbs : 20 < 2 ^ 32 := by decide
  have hcap : capacity 20 4 = some 4 := rfl
  have hs : n.getSize ≤ 4 := by decide
  have h := leaf_operations_are_list_operations hbs hcap n rfl rfl hs id fun _ _ => true
  refine ⟨⟨hbs, hcap, hs⟩, ?_, ?_, ?_, ?_⟩
  · rw [(h.1 1 (fun _ => 3) (by decide) (by decide)).1.values]; decide
  · rw [(h.2.1 0 (by decide)).1.values]; decide
  · rw [(h.2.2.1 right rfl (by decide)).1.values]; decide
  · rw [(h.2.2.2 left rfl (by decide)).1.values]; decide

/-- `insert_full` is list insertion followed by a cut at `mid`, and the split at `ceil(C/2)`
leaves both leaves balanced. -/
theorem insertFull_is_insert_then_cut {bs vs c : Nat} (hbs : bs < 2 ^ 32)
    (hcap : capacity bs vs = some c) (n newLeaf : RawBtreeLeafNode) (hvs : n.valueSize = vs)
    (hc : n.maxSize = c) (hfull : n.getSize = c) (hnvs : newLeaf.valueSize = vs)
    (hnc : newLeaf.maxSize = c) (value : Bytes) {i mid : Nat} (hi : i ≤ c) (hmid : 1 ≤ mid)
    (hmidc : mid ≤ c) {K : Type} (deriveKey : List UInt8 → K) (keyLess : K → K → Bool) :
    let L' := n.values.insertIdx i (load value 0 vs)
    let r := n.insertFull i value mid newLeaf
    r.1.getSize = mid ∧ r.1.values = L'.take mid ∧
    r.2.getSize = c + 1 - mid ∧ r.2.values = L'.drop mid ∧
    (i < mid → r.1.get i = load value 0 vs) ∧
    (mid ≤ i → r.2.get (i - mid) = load value 0 vs) ∧
    (∀ m ∈ sequenceInsertMoves c mid i, m.dst ≠ .value ∧ m.dstIndex + m.n ≤ c ∧
      m.srcIndex + m.n ≤ (if m.src = .value then 1 else c)) ∧
    (StrictWeakOrder keyLess → KeyIncreasing deriveKey keyLess L' →
      KeyIncreasing deriveKey keyLess r.1.values ∧ KeyIncreasing deriveKey keyLess r.2.values ∧
      ∀ a ∈ r.1.values, ∀ b ∈ r.2.values, keyLess (deriveKey a) (deriveKey b) = true) ∧
    (mid = (c + 1) / 2 → r.1.minSize ≤ r.1.getSize ∧ r.1.getSize ≤ r.1.maxSize ∧
      r.2.minSize ≤ r.2.getSize ∧ r.2.getSize ≤ r.2.maxSize ∧
      r.1.getSize ≤ r.2.getSize ∧ r.2.getSize ≤ r.1.getSize + 1) := by
  intro L' r
  have hc32 : c < 2 ^ 32 := Nat.lt_of_le_of_lt (capacity_le hcap) hbs
  subst hvs hc
  have hlen : L'.length = n.maxSize + 1 := by
    simp only [L']; rw [List.length_insertIdx _ _ (by simp; omega), values_length, hfull]
  have hv1 : r.1.values = L'.take mid := values_insertFull_left value newLeaf hfull hi hmidc hc32
  have hv2 : r.2.values = L'.drop mid :=
    values_insertFull_right value newLeaf hfull hnvs hi hmid hmidc hc32
  have hs1 : r.1.getSize = mid := by rw [← values_length, hv1]; simp; omega
  have hs2 : r.2.getSize = n.maxSize + 1 - mid := by rw [← values_length, hv2]; simp [hlen]
  have hL'i : L'[i]? = some (load value 0 n.valueSize) := by
    simp only [L']; rw [getElem?_insertIdx _ _ (by simp; omega)]; simp
  refine ⟨hs1, hv1, hs2, hv2, fun hlt => ?_, fun hge => ?_,
    sequenceInsertMoves_in_bounds hmid hmidc hi, fun hk hL => ?_, fun hm => ?_⟩
  · have h := getElem?_values r.1 i
    rw [hv1, if_pos (by omega), List.getElem?_take, if_pos hlt, hL'i] at h
    exact (Option.some.inj h).symm
  · have h := getElem?_values r.2 (i - mid)
    rw [hv2, if_pos (by omega), List.getElem?_drop, Nat.add_sub_cancel' hge, hL'i] at h
    exact (Option.some.inj h).symm
  · rw [hv1, hv2]
    exact hL.cut hk mid
  · have hm1 : r.1.maxSize = n.maxSize := rfl
    have hm2 : r.2.maxSize = n.maxSize := hnc
    simp only [minSize, hs1, hs2, hm1, hm2]
    omega

theorem insertFull_is_insert_then_cut_three :
    let n : RawBtreeLeafNode :=
      ⟨fun a => if a = 3 then 3 else if a < 4 then 0 else if a < 8 then 2 else
        if a < 12 then 4 else if a < 16 then 6 else 0, 4, 3⟩
    let newLeaf : RawBtreeLeafNode := ⟨fun _ => 0, 4, 3⟩
    let r := n.insertFull 1 (fun _ => 3) 2 newLeaf
    let r' := n.insertFull 3 (fun _ => 7) 2 newLeaf
    (16 < 2 ^ 32 ∧ capacity 16 4 = some 3 ∧ n.getSize = 3) ∧
      r.1.values = [[2, 2, 2, 2], [3, 3, 3, 3]] ∧ r.2.values = [[4, 4, 4, 4], [6, 6, 6, 6]] ∧
      r'.1.values = [[2, 2, 2, 2], [4, 4, 4, 4]] ∧
      r'.2.values = [[6, 6, 6, 6], [7, 7, 7, 7]] := by
  intro n newLeaf r r'
  have hbs : 16 < 2 ^ 32 := by decide
  have hcap : capacity 16 4 = some 3 := rfl
  have hfull : n.getSize = 3 := by decide
  have h := insertFull_is_insert_then_cut hbs hcap n newLeaf rfl rfl hfull rfl rfl (fun _ => 3)
    (show 1 ≤ 3 by decide) (show 1 ≤ 2 by decide) (show 2 ≤ 3 by decide) id fun _ _ => true
  have h' := insertFull_is_insert_then_cut hbs hcap n newLeaf rfl rfl hfull rfl rfl (fun _ => 7)
    (show 3 ≤ 3 by decide) (show 1 ≤ 2 by decide) (show 2 ≤ 3 by decide) id fun _ _ => true
  refine ⟨⟨hbs, hcap, hfull⟩, ?_, ?_, ?_, ?_⟩
  · rw [h.2.1]; decide
  · rw [h.2.2.2.1]; decide
  · rw [h'.2.1]; decide
  · rw [h'.2.2.2.1]; decide

end RawBtreeLeafNode

end Extpp
