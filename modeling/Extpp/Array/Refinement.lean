import Extpp.Array.Abstract

/-!
`raw_array_impl` refines the list of its values: from a state that stands for a list, every
call whose growth computations fit in `u64` returns with the state of the list the list
semantics gives, or raises and leaves a state of the old list; the error is the list
semantics' own or a failure of the allocator or the engine.
-/

set_option autoImplicit false

namespace Extpp

namespace RawArrayImpl

section Refines

variable {a : RawArrayImpl} {s s' : ArrayState} {L : List (List UInt8)}

theorem Refines.capacity_eq (h : a.Refines s L) : a.capacity s = s.blocks * a.blockCapacity :=
  wrap64_of_lt h.capacity_lt

theorem Refines.of_keeps (h : a.Refines s L) (hk : a.Keeps s.size s s')
    (hle : s.size ≤ s'.blocks * a.blockCapacity) (hlt : s'.blocks * a.blockCapacity < 2 ^ 64) :
    a.Refines s' L :=
  ⟨hk.size_eq.trans h.size_eq, hk.size_eq ▸ hle, hlt,
    fun i hi => (hk.cell_eq i (h.size_eq ▸ hi)).trans (h.cell_eq i hi)⟩

theorem Refines.resized (env : Env) {m : Nat} (h : a.Refines s L)
    (hle : s.size ≤ m * a.blockCapacity) (hlt : m * a.blockCapacity < 2 ^ 64) :
    a.Refines (s.resized env m) L :=
  h.of_keeps (a.keeps_resized env m h.size_le) hle hlt

theorem Refines.append (h : a.Refines s L) (hroom : s.size < s.blocks * a.blockCapacity)
    (v : Bytes) :
    a.Refines { s with
      extent := (s.extent.store (a.blockIndex s.size)
        (memmove (if a.blockOffset s.size = 0 then fun _ => 0 else s.extent.data (a.blockIndex s.size))
          (a.valueSize * a.blockOffset s.size) v 0 a.valueSize)),
      size := s.size + 1 } (L ++ [load v 0 a.valueSize]) := by
  refine ⟨by simp [h.size_eq], hroom, h.capacity_lt, fun i hi => ?_⟩
  have hsz := h.size_eq
  simp only [List.length_append, List.length_singleton] at hi
  rw [a.cell_store_value s.size _ v rfl]
  split_ifs with hi1 hb hz
  · subst hi1; simp [hsz]
  · have h1 := a.blockIndex_mul_add i
    have h2 := a.blockIndex_mul_add s.size
    have h3 := a.blockOffset_lt i
    rw [hb] at h1; rw [hz] at h2; omega
  · rw [List.getElem_append_left (by omega), ← h.cell_eq i (by omega), cell, hb]
  · rw [List.getElem_append_left (by omega)]
    exact h.cell_eq i (by omega)

theorem Refines.truncate (h : a.Refines s L) {n : Nat} (hn : n ≤ L.length) :
    a.Refines { s with size := n } (L.take n) :=
  ⟨by simp [hn], by have := h.size_le; have := h.size_eq; simp only [ArrayState.blocks] at *; omega,
    h.capacity_lt, fun i hi => by
      rw [List.getElem_take]
      exact h.cell_eq i (by simp at hi; omega)⟩

theorem Refines.setValue (h : a.Refines s L) {i : Nat} (hi : i < L.length) (v : Bytes)
    (hs : s'.extent = s.extent.store (a.blockIndex i)
      (memmove (s.extent.data (a.blockIndex i)) (a.valueSize * a.blockOffset i) v 0 a.valueSize))
    (hsize : s'.size = s.size) :
    a.Refines s' (L.set i (load v 0 a.valueSize)) := by
  have hb : s'.blocks = s.blocks := by simp only [ArrayState.blocks, hs]; rfl
  refine ⟨by rw [hsize, h.size_eq, List.length_set], by rw [hsize, hb]; exact h.size_le,
    by rw [hb]; exact h.capacity_lt, fun j hj => ?_⟩
  rw [List.length_set] at hj
  rw [a.cell_store_value i _ v hs]
  by_cases hji : j = i
  · subst hji; rw [if_pos rfl, List.getElem_set_self]
  · rw [if_neg hji, List.getElem_set_ne (Ne.symm hji)]
    split_ifs with hb'
    · rw [← h.cell_eq j hj, cell, hb']
    · exact h.cell_eq j hj

theorem Refines.extend (h : a.Refines s L) (hk : a.Keeps s.size s s') {n : Nat} (x : List UInt8)
    (hn : L.length ≤ n) (hle : n ≤ s'.blocks * a.blockCapacity)
    (hlt : s'.blocks * a.blockCapacity < 2 ^ 64)
    (hcells : ∀ j, s.size ≤ j → j < n → a.cell s' j = x) :
    a.Refines { s' with size := n } (L ++ List.replicate (n - L.length) x) := by
  have hsz := h.size_eq
  refine ⟨by simp; omega, hle, hlt, fun i hi => ?_⟩
  simp only [List.length_append, List.length_replicate] at hi
  show a.cell s' i = _
  by_cases hiL : i < L.length
  · rw [List.getElem_append_left hiL, hk.cell_eq i (by omega), h.cell_eq i hiL]
  · rw [List.getElem_append_right (by omega), List.getElem_replicate, hcells i (by omega) (by omega)]

theorem Refines.blockIndex_size_eq_iff (h : a.Refines s L) :
    a.blockIndex s.size = s.blocks ↔ s.size = s.blocks * a.blockCapacity := by
  have hsize := h.size_le
  constructor
  · intro hfull
    have : ¬s.size < s.blocks * a.blockCapacity := fun hlt =>
      absurd ((a.blockIndex_lt_iff).mpr hlt) (by omega)
    omega
  · intro hsz
    rw [hsz, blockIndex, Nat.mul_div_cancel _ a.blockCapacity_pos]

theorem Sim.fault {env : Env} {r : Except Error (List (List UInt8))} {e : Error}
    (h : a.Refines s L) (he : env.Raises e) : a.Sim env L r (.error e s) :=
  ⟨h, .inr he⟩

end Refines

variable (a : RawArrayImpl) (env : Env)

theorem newSize_of_fits {s : ArrayState} {m : Nat}
    (h : s.growth.policy m * a.blockCapacity < 2 ^ 64) : s.newSize m = s.growth.policy m :=
  GrowthStrategy.newSize_of_lt (lt_of_le_of_lt (Nat.le_mul_of_pos_right _ a.blockCapacity_pos) h)

/-! `reserve` -/

theorem reserve_apply (n : Nat) (s : ArrayState) :
    a.reserve env n s = if s.blocks < ceilDiv n a.blockCapacity then
      (match env.resizeFault with
        | some e => .error e s
        | none => .ok () (s.resized env (s.newSize (ceilDiv n a.blockCapacity))))
      else .ok () s := by
  show (if ceilDiv n a.blockCapacity > s.blocks then
    resizeExtent env (ceilDiv n a.blockCapacity) false else pure ()) s = _
  split_ifs
  · rw [resizeExtent_apply]; rfl
  · rfl

/-- `reserve(n)` whose growth fits raises only an allocator failure, changing nothing. -/
theorem reserve_spec {s : ArrayState} {L : List (List UInt8)} (h : a.Refines s L) (n : Nat)
    (hfit : s.blocks < ceilDiv n a.blockCapacity →
      s.growth.policy (ceilDiv n a.blockCapacity) * a.blockCapacity < 2 ^ 64) :
    match a.reserve env n s with
    | .ok _ s' => a.Refines s' L ∧ s'.growth = s.growth ∧ s'.size = s.size ∧
        s'.blocks = if s.blocks < ceilDiv n a.blockCapacity
          then s.growth.policy (ceilDiv n a.blockCapacity) else s.blocks
    | .error e s' => s' = s ∧ env.resizeFault = some e := by
  rw [reserve_apply]
  split_ifs with hc
  · cases hf : env.resizeFault with
    | some e => exact ⟨rfl, rfl⟩
    | none =>
      have hp := hfit hc
      have hle := s.growth.le_policy (ceilDiv n a.blockCapacity)
      refine ⟨h.resized env ?_ ?_, rfl, rfl, a.newSize_of_fits hp⟩ <;>
        rw [a.newSize_of_fits hp]
      · have := h.size_le
        have := Nat.mul_le_mul_right a.blockCapacity (show s.blocks ≤ s.growth.policy
          (ceilDiv n a.blockCapacity) by omega)
        omega
      · exact hp
  · exact ⟨h, rfl, rfl, rfl⟩

theorem le_blocks_of_reserve {s : ArrayState} {n : Nat} :
    n ≤ (if s.blocks < ceilDiv n a.blockCapacity
      then s.growth.policy (ceilDiv n a.blockCapacity) else s.blocks) * a.blockCapacity := by
  split_ifs with hc
  · exact le_trans (le_ceilDiv_mul a.blockCapacity_pos)
      (Nat.mul_le_mul_right _ (s.growth.le_policy _))
  · exact (ceilDiv_le_iff a.blockCapacity_pos).mp (by omega)

/-! `push_back` and `set` -/

theorem append_sim {s : ArrayState} {L : List (List UInt8)} (h : a.Refines s L)
    (hroom : s.size < s.blocks * a.blockCapacity) (hsz : s.size + 1 < 2 ^ 64) (v : Bytes) :
    a.Sim env L (.ok (L ++ [load v 0 a.valueSize]))
      ((pin env (a.blockIndex s.size) (a.blockOffset s.size) >>= fun handle =>
        writeBlock (a.blockIndex s.size) (memmove handle
          (calcOffsetInBlock a.valueSize (a.blockOffset s.size)) v 0 a.valueSize) >>= fun _ =>
        setSize (wrap64 (s.size + 1))) s) := by
  rw [bind_apply, pin_apply env _ ((a.blockIndex_lt_iff).mpr hroom)]
  cases hp : env.pinFault (a.blockIndex s.size) with
  | some e => exact Sim.fault h (.inr ⟨_, hp⟩)
  | none =>
    refine ⟨_, rfl, ?_⟩
    rw [wrap64_of_lt hsz, a.calcOffsetInBlock_of_lt (a.blockOffset_lt _)]
    exact h.append hroom v

theorem pushBack_sim {s : ArrayState} {L : List (List UInt8)} (h : a.Refines s L) (v : Bytes)
    (hfit : a.Fits s (.pushBack v)) :
    a.Sim env L (ListArray.apply a.valueSize L (.pushBack v)) (a.pushBack env v s) := by
  show a.Sim env L _ (((if a.blockIndex s.size = s.blocks then
    resizeExtent env (wrap64 (s.blocks + 1)) false else pure ()) >>= fun _ => _) s)
  have hsize := h.size_le
  have hcap := h.capacity_lt
  have hpos := a.blockCapacity_pos
  rw [bind_apply]
  split_ifs with hfull
  · -- the array is full: `size = blocks * bc`, and the extent grows by the policy
    have hsz := h.blockIndex_size_eq_iff.mp hfull
    have hp : s.growth.policy (s.blocks + 1) * a.blockCapacity < 2 ^ 64 := by
      have := hfit (s.size + 1) (by simp [demand, hfull])
      rwa [hsz, ceilDiv_mul_add_one a.blockCapacity_pos] at this
    have hgrow := s.growth.le_policy (s.blocks + 1)
    have hmul := Nat.mul_le_mul_right a.blockCapacity hgrow
    rw [Nat.add_mul, Nat.one_mul] at hmul
    have hbc := Nat.le_mul_of_pos_right (s.growth.policy (s.blocks + 1)) a.blockCapacity_pos
    rw [resizeExtent_apply]
    cases hf : env.resizeFault with
    | some e => exact Sim.fault h (.inl hf)
    | none =>
      rw [if_neg Bool.false_ne_true, wrap64_of_lt (by omega), a.newSize_of_fits hp]
      exact a.append_sim env (h.resized env (by omega) hp)
        (show s.size < s.growth.policy (s.blocks + 1) * a.blockCapacity by omega)
        (show s.size + 1 < 2 ^ 64 by omega) v
  · have hroom : s.size < s.blocks * a.blockCapacity :=
      lt_of_le_of_ne hsize fun hsz => hfull (h.blockIndex_size_eq_iff.mpr hsz)
    exact a.append_sim env h hroom (by omega) v

theorem set_sim {s : ArrayState} {L : List (List UInt8)} (h : a.Refines s L) (i : Nat)
    (v : Bytes) : a.Sim env L (ListArray.apply a.valueSize L (.set i v)) (a.set env i v s) := by
  have hsz := h.size_eq
  show a.Sim env L _ ((checkIndex i >>= fun _ => _) s)
  rw [bind_apply]
  by_cases hi : i < L.length
  · have hb : a.blockIndex i < s.blocks :=
      (a.blockIndex_lt_iff).mpr (by have := h.size_le; omega)
    simp only [checkIndex, if_neg (show ¬i ≥ s.size by omega)]
    rw [bind_apply, read_apply env hb]
    cases hp : env.pinFault (a.blockIndex i) with
    | some e => exact Sim.fault h (.inr ⟨_, hp⟩)
    | none =>
      refine ⟨_, if_pos hi, h.setValue hi v ?_ rfl⟩
      rw [a.calcOffsetInBlock_of_lt (a.blockOffset_lt i)]
  · simp only [checkIndex, if_pos (show i ≥ s.size by omega)]
    exact ⟨h, .inl (if_neg hi)⟩

theorem popBack_sim {s : ArrayState} {L : List (List UInt8)} (h : a.Refines s L) :
    a.Sim env L (ListArray.apply a.valueSize L .popBack) (popBack s) := by
  have hsz := h.size_eq
  simp only [popBack, bind_apply, EStateM.get]
  split_ifs with h0
  · have hL : L = [] := List.eq_nil_of_length_eq_zero (by omega)
    exact ⟨h, .inl (by simp [ListArray.apply, hL])⟩
  · have hL : L ≠ [] := fun hL => h0 (by simp [hsz, hL])
    refine ⟨L.dropLast, by simp [ListArray.apply, hL], ?_⟩
    rw [List.dropLast_eq_take, hsz]
    exact h.truncate (Nat.sub_le _ _)

theorem resize_sim {s : ArrayState} {L : List (List UInt8)} (h : a.Refines s L) (n : Nat)
    (v : Option Bytes) (hfit : a.Fits s (.resize n v)) :
    a.Sim env L (ListArray.apply a.valueSize L (.resize n v)) (a.resize env n v s) := by
  have hsz := h.size_eq
  show a.Sim env L _ ((if n = s.size then pure () else if n < s.size then setSize n
    else (a.reserve env n >>= fun _ => _)) s)
  split_ifs with h1 h2
  · refine ⟨L, ?_, h⟩
    simp only [ListArray.apply, if_pos (show n ≤ L.length by omega)]
    rw [h1, hsz, List.take_length]
  · exact ⟨_, by simp only [ListArray.apply, if_pos (show n ≤ L.length by omega)],
      h.truncate (by omega)⟩
  · have hres := a.reserve_spec env h n fun hc =>
      hfit n (by simp only [demand]; rw [if_pos ⟨by omega, hc⟩]; rfl)
    rw [bind_apply]
    revert hres
    cases a.reserve env n s with
    | error e s1 => rintro ⟨rfl, hf⟩; exact Sim.fault h (.inl hf)
    | ok u s1 =>
      rintro ⟨h1, -, hsize, hblocks⟩
      have hcap : n ≤ s1.blocks * a.blockCapacity := hblocks ▸ a.le_blocks_of_reserve
      have hfill := a.fill_spec env v (n - s.size) (a.blockIndex s.size) (a.blockOffset s.size)
        (n - s.size) s1 (a.blockOffset_lt _) le_rfl (by rw [a.blockIndex_mul_add]; omega)
      rw [a.blockIndex_mul_add] at hfill
      simp only [bind_apply]
      revert hfill
      cases a.fill env v (n - s.size) (a.blockIndex s.size) (a.blockOffset s.size) (n - s.size)
        s1 with
      | error e s2 =>
        rintro ⟨hk, hbl, b, hb⟩
        rw [after_error] at hk hbl
        exact Sim.fault (h1.of_keeps (hsize ▸ hk) (by rw [hbl]; exact hsize ▸ h1.size_le)
          (by rw [hbl]; exact h1.capacity_lt)) (.inr ⟨b, hb⟩)
      | ok u s2 =>
        rintro ⟨hk, hbl, hcells⟩
        refine ⟨_, by simp only [ListArray.apply, if_neg (show ¬n ≤ L.length by omega)]; rfl, ?_⟩
        rw [after_ok] at hk hbl
        exact h1.extend (hsize ▸ hk) _ (by omega) (by rw [hbl]; exact hcap)
          (by rw [hbl]; exact h1.capacity_lt) fun j hj1 hj2 => hcells j (by omega) (by omega)

/-! The calls that change only the extent or the strategy -/

theorem reserve_sim {s : ArrayState} {L : List (List UInt8)} (h : a.Refines s L) (n : Nat)
    (hfit : a.Fits s (.reserve n)) :
    a.Sim env L (ListArray.apply a.valueSize L (.reserve n)) (a.reserve env n s) := by
  have hres := a.reserve_spec env h n fun hc =>
    hfit n (by simp only [demand]; rw [if_pos hc]; rfl)
  revert hres
  cases a.reserve env n s with
  | ok u s' => exact fun hres => ⟨L, rfl, hres.1⟩
  | error e s' => rintro ⟨rfl, hf⟩; exact Sim.fault h (.inl hf)

theorem reserveAdditional_sim {s : ArrayState} {L : List (List UInt8)} (h : a.Refines s L)
    (k : Nat) (hfit : a.Fits s (.reserveAdditional k)) :
    a.Sim env L (ListArray.apply a.valueSize L (.reserveAdditional k))
      (a.reserveAdditional env k s) := by
  have hsz := h.size_eq
  simp only [reserveAdditional, bind_apply, EStateM.get, checkedAdd]
  by_cases hk : k + s.size < 2 ^ 64
  · rw [if_pos hk]
    have := a.reserve_sim env h (k + s.size) fun m hm => hfit m (by
      simp only [demand] at hm ⊢
      split_ifs at hm with hc
      · rw [if_pos ⟨hk, hc⟩]; exact hm
      · cases hm)
    simpa only [ListArray.apply, if_pos (show k + L.length < 2 ^ 64 by omega)] using this
  · rw [if_neg hk]
    exact ⟨h, .inl (by simp only [ListArray.apply, if_neg (show ¬k + L.length < 2 ^ 64 by omega)])⟩

theorem shrink_sim {s : ArrayState} {L : List (List UInt8)} (h : a.Refines s L) (exact : Bool)
    (hfit : exact = false → a.Fits s .shrink) :
    a.Sim env L (.ok L) (a.shrink env exact s) := by
  show a.Sim env L _ (resizeExtent env (ceilDiv s.size a.blockCapacity) exact s)
  rw [resizeExtent_apply]
  cases hf : env.resizeFault with
  | some e => exact Sim.fault h (.inl hf)
  | none =>
    have hsize := h.size_le
    have hcap := h.capacity_lt
    have hneed := le_ceilDiv_mul (a := s.size) a.blockCapacity_pos
    have hle : ceilDiv s.size a.blockCapacity ≤ s.blocks := (ceilDiv_le_iff a.blockCapacity_pos).mpr hsize
    refine ⟨L, rfl, ?_⟩
    cases exact with
    | true =>
      have := Nat.mul_le_mul_right a.blockCapacity hle
      rw [if_pos rfl]
      exact h.resized env hneed (by omega)
    | false =>
      have hp := hfit rfl s.size rfl
      rw [if_neg Bool.false_ne_true, a.newSize_of_fits hp]
      have := Nat.mul_le_mul_right a.blockCapacity (s.growth.le_policy (ceilDiv s.size a.blockCapacity))
      exact h.resized env (by omega) hp

theorem reset_sim {s : ArrayState} {L : List (List UInt8)} (h : a.Refines s L) :
    a.Sim env L (ListArray.apply a.valueSize L .reset) (reset env s) := by
  simp only [reset, bind_apply, EStateM.get, Extent.reset, Extent.resize]
  cases hf : env.resizeFault with
  | some e => exact Sim.fault h (.inl hf)
  | none => exact ⟨[], rfl, ⟨rfl, Nat.zero_le _, by simp [ArrayState.blocks], fun i hi => absurd hi (by simp)⟩⟩

theorem setGrowth_sim {s : ArrayState} {L : List (List UInt8)} (h : a.Refines s L)
    (g : GrowthStrategy) :
    a.Sim env L (ListArray.apply a.valueSize L (.growth g)) (setGrowth g s) :=
  ⟨L, rfl, h.size_eq, h.size_le, h.capacity_lt, h.cell_eq⟩

/-! `get`, one call, and a run -/

/-- `get(i)` from a state of `L`: element `i`, the bounds error, or the engine's failure. -/
theorem get_apply {s : ArrayState} {L : List (List UInt8)} (h : a.Refines s L) (i : Nat) :
    a.get env i s = if hi : i < L.length then
      (match env.pinFault (a.blockIndex i) with
        | some e => .error e s
        | none => .ok L[i] s)
      else .error (.badArgument "Index out of bounds.") s := by
  have hsz := h.size_eq
  show (checkIndex i >>= fun _ => _) s = _
  rw [bind_apply]
  split_ifs with hi
  · have hb : a.blockIndex i < s.blocks :=
      (a.blockIndex_lt_iff).mpr (by have := h.size_le; omega)
    simp only [checkIndex, if_neg (show ¬i ≥ s.size by omega)]
    rw [bind_apply, read_apply env hb]
    cases env.pinFault (a.blockIndex i) with
    | some e => rfl
    | none =>
      show EStateM.Result.ok _ s = _
      rw [← h.cell_eq i hi, cell, slot, Nat.zero_add, a.calcOffsetInBlock_of_lt (a.blockOffset_lt i)]
  · simp only [checkIndex, if_pos (show i ≥ s.size by omega)]

theorem exec_sim {s : ArrayState} {L : List (List UInt8)} (h : a.Refines s L) (op : Op)
    (hfit : a.Fits s op) :
    a.Sim env L (ListArray.apply a.valueSize L op) (a.exec env op s) := by
  cases op with
  | pushBack v => exact a.pushBack_sim env h v hfit
  | popBack => exact a.popBack_sim env h
  | set i v => exact a.set_sim env h i v
  | resize n v => exact a.resize_sim env h n v hfit
  | clear =>
    have hclear : ListArray.apply a.valueSize L .clear =
        ListArray.apply a.valueSize L (.resize 0 none) := by simp [ListArray.apply]
    rw [hclear]
    exact a.resize_sim env h 0 none fun m hm => by simp [demand] at hm
  | reset => exact a.reset_sim env h
  | reserve n => exact a.reserve_sim env h n hfit
  | reserveAdditional k => exact a.reserveAdditional_sim env h k hfit
  | shrink => exact a.shrink_sim env h false fun _ => hfit
  | shrinkToFit => exact a.shrink_sim env h true fun h => absurd h (by decide)
  | growth g => exact a.setGrowth_sim env h g

theorem refines_empty (g : GrowthStrategy) : a.Refines { ArrayState.empty with growth := g } [] :=
  ⟨rfl, Nat.zero_le _, by simp [ArrayState.empty, ArrayState.blocks],
    fun i hi => absurd hi (Nat.not_lt_zero i)⟩

/-- Along a run whose growth computations fit, the state stands for the list beside it. -/
theorem runWith_refines : ∀ (cs : List (Op × Env)) (s : ArrayState) (L : List (List UInt8)),
    a.Refines s L → a.FitsAlong s cs → a.Refines (a.runWith (s, L) cs).1 (a.runWith (s, L) cs).2
  | [], _, _, h, _ => h
  | (op, env) :: cs, s, L, h, ⟨hfit, hrest⟩ => by
    have hsim := a.exec_sim env h op hfit
    show a.Refines (a.runWith (a.stepWith (s, L) (op, env)) cs).1
      (a.runWith (a.stepWith (s, L) (op, env)) cs).2
    unfold stepWith
    revert hsim hrest
    cases a.exec env op s with
    | ok u s' =>
      rintro hrest ⟨L', hL', h'⟩
      simp only [ListArray.next, hL']
      exact runWith_refines cs s' L' h' hrest
    | error e s' =>
      rintro hrest ⟨h', -⟩
      exact runWith_refines cs s' L h' hrest

end RawArrayImpl

/-- From the empty anchor, along every run whose growth computations fit in `u64`, the array
stands for the list the list semantics gives, and each next call is simulated by it. -/
theorem array_refines_list (a : RawArrayImpl) (cs : List (Op × Env))
    (hfit : a.FitsAlong ArrayState.empty cs) :
    let p := a.runWith (ArrayState.empty, []) cs
    p.1.size ≤ a.capacity p.1 ∧ a.capacity p.1 = p.1.blocks * a.blockCapacity ∧
      p.1.size = p.2.length ∧
      (∀ (env : Env) (i : Nat), a.get env i p.1 = if hi : i < p.2.length then
        (match env.pinFault (a.blockIndex i) with
          | some e => .error e p.1
          | none => .ok p.2[i] p.1)
        else .error (.badArgument "Index out of bounds.") p.1) ∧
      ∀ (env : Env) (op : Op), a.Fits p.1 op →
        a.Sim env p.2 (ListArray.apply a.valueSize p.2 op) (a.exec env op p.1) := by
  intro p
  have h := a.runWith_refines cs ArrayState.empty _ (a.refines_empty .exponential) hfit
  exact ⟨h.capacity_eq ▸ h.size_le, h.capacity_eq, h.size_eq, fun env i => a.get_apply env h i,
    fun env op hop => a.exec_sim env h op hop⟩

theorem array_refines_list_push :
    let a : RawArrayImpl := ⟨4, 512, 128, by decide, rfl, by decide⟩
    let cs : List (Op × Env) := [(.pushBack fun _ => 7, Env.quiet)]
    a.FitsAlong ArrayState.empty cs ∧
      a.get Env.quiet 0 (a.runWith (ArrayState.empty, []) cs).1 =
        .ok [7, 7, 7, 7] (a.runWith (ArrayState.empty, []) cs).1 := by
  intro a cs
  have hd : a.demand ArrayState.empty (.pushBack fun _ => 7) = some 1 := by decide
  have hfit : a.FitsAlong ArrayState.empty cs :=
    ⟨fun m hm => by cases Option.some.inj (hd.symm.trans hm); decide, trivial⟩
  have hL : (a.runWith (ArrayState.empty, []) cs).2 = [[7, 7, 7, 7]] := by decide
  refine ⟨hfit, ?_⟩
  rw [(array_refines_list a cs hfit).2.2.2.1 Env.quiet 0]
  simp only [hL]
  rfl

/-! The errors a caller sees -/

namespace RawArrayImpl

variable (a : RawArrayImpl) (env : Env)

end RawArrayImpl

end Extpp
