import Extpp.Array.Refinement

/-!
The storage of a `raw_array`: how `reserve`, `push_back`, `resize` and `shrink` set the number
of blocks through `new_size`, and how the capacity relates to the bytes on disk.

`Preserves f m` says a computation leaves `f` of the state as it was, whether it returns or
raises; the blocks and the strategy change only where the extent is resized or the strategy set.
-/

set_option autoImplicit false

namespace Extpp

/-- The calls that may release storage: `shrink`, `shrink_to_fit` and `reset`. -/
def Op.releasesStorage : Op → Bool
  | .shrink | .shrinkToFit | .reset => true
  | _ => false

namespace RawArrayImpl

/-- `f` of the state is the same after `m`, whether it returns or raises. -/
def Preserves {β α : Type} (f : ArrayState → β) (m : ArrayM α) : Prop :=
  ∀ s, f (after (m s)) = f s

section Preserves

variable {β : Type} {f : ArrayState → β}

theorem after_bind {α γ : Type} (x : ArrayM α) {g : α → ArrayM γ}
    (hg : ∀ v, Preserves f (g v)) (s : ArrayState) :
    f (after ((x >>= g) s)) = f (after (x s)) := by
  rw [bind_apply]
  cases x s with
  | ok v s' => exact hg v s'
  | error e s' => rfl

theorem Preserves.bind {α γ : Type} {x : ArrayM α} {g : α → ArrayM γ} (hx : Preserves f x)
    (hg : ∀ v, Preserves f (g v)) : Preserves f (x >>= g) := fun s =>
  (after_bind x hg s).trans (hx s)

theorem Preserves.ite {α : Type} {c : Prop} [Decidable c] {x y : ArrayM α}
    (hx : Preserves f x) (hy : Preserves f y) : Preserves f (if c then x else y) := by
  split_ifs <;> assumption

theorem preserves_pure {α : Type} (v : α) : Preserves f (pure v : ArrayM α) := fun _ => rfl

theorem preserves_throw {α : Type} (e : Error) : Preserves f (throw e : ArrayM α) := fun _ => rfl

theorem preserves_get : Preserves f (EStateM.get : ArrayM ArrayState) := fun _ => rfl

theorem preserves_checkIndex (i : Nat) : Preserves f (checkIndex i) := fun s => by
  unfold checkIndex; split_ifs <;> rfl

theorem preserves_read (env : Env) (b : Nat) : Preserves f (read env b) := fun s => by
  simp only [read]; split <;> rfl

theorem preserves_pin (env : Env) (b o : Nat) : Preserves f (pin env b o) := fun s => by
  unfold pin create
  split_ifs
  · simp only []; split <;> rfl
  · exact preserves_read env b s

end Preserves

variable (a : RawArrayImpl) (env : Env)

/-! Only a resize moves the block count, and only `growth(g)` the strategy. -/

theorem preserves_blocks_writeBlock (b : Nat) (d : Bytes) :
    Preserves ArrayState.blocks (writeBlock b d) := fun _ => rfl

theorem preserves_blocks_setSize (n : Nat) : Preserves ArrayState.blocks (setSize n) :=
  fun _ => rfl

theorem preserves_fill {β : Type} {f : ArrayState → β}
    (hw : ∀ b d, Preserves f (writeBlock b d)) (value : Option Bytes) :
    ∀ fuel b o r, Preserves f (a.fill env value fuel b o r)
  | 0, _, _, _ => preserves_pure _
  | fuel + 1, b, o, r => by
    unfold fill
    exact Preserves.ite (preserves_pure _) ((preserves_pin env b o).bind fun _ =>
      (hw _ _).bind fun _ => preserves_fill hw value fuel _ _ _)

theorem preserves_blocks_popBack : Preserves ArrayState.blocks (popBack : ArrayM Unit) :=
  preserves_get.bind fun _ => Preserves.ite
    ((preserves_throw _).bind fun _ => preserves_blocks_setSize _)
    ((preserves_pure _).bind fun _ => preserves_blocks_setSize _)

theorem preserves_blocks_set (i : Nat) (v : Bytes) :
    Preserves ArrayState.blocks (a.set env i v) :=
  (preserves_checkIndex i).bind fun _ => (preserves_read env _).bind fun _ =>
    preserves_blocks_writeBlock _ _

theorem blocks_pushBack (v : Bytes) (s : ArrayState) :
    (after (a.pushBack env v s)).blocks = if a.blockIndex s.size = s.blocks
      then (after (resizeExtent env (wrap64 (s.blocks + 1)) false s)).blocks else s.blocks := by
  show (after (((if a.blockIndex s.size = s.blocks then
    resizeExtent env (wrap64 (s.blocks + 1)) false else pure ()) >>= fun _ => _) s)).blocks = _
  rw [after_bind _ fun _ => (preserves_pin env _ _).bind fun _ =>
    (preserves_blocks_writeBlock _ _).bind fun _ => preserves_blocks_setSize _]
  split_ifs <;> rfl

theorem blocks_resize_eq (n : Nat) (v : Option Bytes) (s : ArrayState) :
    (after (a.resize env n v s)).blocks =
      if s.size < n then (after (a.reserve env n s)).blocks else s.blocks := by
  show (after ((if n = s.size then pure () else if n < s.size then setSize n
    else (a.reserve env n >>= fun _ => _)) s)).blocks = _
  by_cases h1 : n = s.size
  · rw [if_pos h1, if_neg (by omega)]; rfl
  by_cases h2 : n < s.size
  · rw [if_neg h1, if_pos h2, if_neg (by omega)]; rfl
  rw [if_neg h1, if_neg h2, if_pos (by omega), after_bind _ fun _ =>
    (a.preserves_fill env preserves_blocks_writeBlock _ _ _ _ _).bind fun _ =>
      preserves_blocks_setSize _]

theorem blocks_reserveAdditional (k : Nat) (s : ArrayState) :
    (after (a.reserveAdditional env k s)).blocks =
      if k + s.size < 2 ^ 64 then (after (a.reserve env (k + s.size) s)).blocks else s.blocks := by
  show (after ((match checkedAdd k s.size with
    | some m => a.reserve env m
    | none => throw Error.overflow) s)).blocks = _
  unfold checkedAdd
  split_ifs <;> rfl

/-! The block count under the growth policy -/

end RawArrayImpl

/-- `capacity() * value_size()` falls short of `byte_size()` by the slack at the end of each
block, in `u64`. -/
theorem capacity_bytes_add_slack (a : RawArrayImpl) (s : ArrayState) :
    wrap64 (a.capacity s * a.valueSize + s.blocks * (a.blockSize % a.valueSize)) = a.byteSize s ∧
      (a.blockSize % a.valueSize = 0 → wrap64 (a.capacity s * a.valueSize) = a.byteSize s) := by
  have hbs : a.blockCapacity * a.valueSize + a.blockSize % a.valueSize = a.blockSize := by
    rw [a.blockCapacity_eq]; exact Nat.div_add_mod' _ _
  have key : wrap64 (a.capacity s * a.valueSize + s.blocks * (a.blockSize % a.valueSize)) =
      a.byteSize s :=
    calc (s.blocks * a.blockCapacity % 2 ^ 64 * a.valueSize +
          s.blocks * (a.blockSize % a.valueSize)) % 2 ^ 64
        = (s.blocks * a.blockCapacity * a.valueSize +
          s.blocks * (a.blockSize % a.valueSize)) % 2 ^ 64 :=
          ((Nat.mod_modEq _ _).mul_right _).add_right _
      _ = s.blocks * a.blockSize % 2 ^ 64 := by rw [Nat.mul_assoc, ← Nat.mul_add, hbs]
  refine ⟨key, fun h0 => ?_⟩
  rw [← key, h0, Nat.mul_zero, Nat.add_zero]

theorem capacity_bytes_differ :
    let a : RawArrayImpl := ⟨3, 512, 170, by decide, rfl, by decide⟩
    let s := a.run ArrayState.empty [(.pushBack fun _ => 7, Env.quiet)]
    wrap64 (a.capacity s * a.valueSize) = 510 ∧ a.byteSize s = 512 :=
  ⟨by decide, by decide⟩

/-- `reserve(n)` whose growth fits keeps its postcondition `capacity() >= n`, or raises the
allocator's failure and changes nothing. -/
theorem reserve_meets_capacity (a : RawArrayImpl) (env : Env) {s : ArrayState}
    {L : List (List UInt8)} (h : a.Refines s L) (n : Nat)
    (hfit : s.blocks < ceilDiv n a.blockCapacity →
      s.growth.policy (ceilDiv n a.blockCapacity) * a.blockCapacity < 2 ^ 64) :
    match a.reserve env n s with
    | .ok _ s' => a.Refines s' L ∧ n ≤ a.capacity s' ∧ a.capacity s ≤ a.capacity s'
    | .error e s' => s' = s ∧ env.resizeFault = some e := by
  have hspec := a.reserve_spec env h n hfit
  revert hspec
  cases a.reserve env n s with
  | ok _ s' =>
    rintro ⟨h', -, -, hb⟩
    show a.Refines s' L ∧ n ≤ a.capacity s' ∧ a.capacity s ≤ a.capacity s'
    rw [h'.capacity_eq, h.capacity_eq, hb]
    refine ⟨h', a.le_blocks_of_reserve, Nat.mul_le_mul_right _ ?_⟩
    split_ifs with hlt
    · exact le_trans hlt.le (s.growth.le_policy _)
    · exact le_refl _
  | error e s' => exact id

theorem reserve_meets_capacity_thousand :
    let a : RawArrayImpl := ⟨4, 512, 128, by decide, rfl, by decide⟩
    (a.Refines ArrayState.empty [] ∧ (ArrayState.empty.blocks < ceilDiv 1000 a.blockCapacity →
      ArrayState.empty.growth.policy (ceilDiv 1000 a.blockCapacity) * a.blockCapacity < 2 ^ 64)) ∧
    match a.reserve Env.quiet 1000 ArrayState.empty with
    | .ok _ s' => a.Refines s' [] ∧ 1000 ≤ a.capacity s' ∧
        a.capacity ArrayState.empty ≤ a.capacity s'
    | .error e s' => s' = ArrayState.empty ∧ Env.quiet.resizeFault = some e := by
  intro a
  have h : a.Refines ArrayState.empty [] := a.refines_empty .exponential
  have hfit : ArrayState.empty.blocks < ceilDiv 1000 a.blockCapacity →
      ArrayState.empty.growth.policy (ceilDiv 1000 a.blockCapacity) * a.blockCapacity < 2 ^ 64 :=
    by decide
  exact ⟨⟨h, hfit⟩, reserve_meets_capacity a Env.quiet h 1000 hfit⟩

/-- `reserve(2^64 - 1)` under `linear_growth(2)`: `new_size` wraps to `0` blocks. -/
theorem reserve_wraps_to_empty :
    let a : RawArrayImpl := ⟨512, 512, 1, by decide, rfl, by decide⟩
    let s := a.run ArrayState.empty
      [(.growth (.linear ⟨2, by decide, by decide⟩), Env.quiet), (.pushBack fun _ => 7, Env.quiet)]
    s.size = 1 ∧ s.blocks = 2 ∧
      a.reserve Env.quiet (2 ^ 64 - 1) s = .ok () (s.resized Env.quiet 0) := by
  intro a s
  refine ⟨by decide, by decide, ?_⟩
  rw [RawArrayImpl.reserve_apply, if_pos (by decide),
    show s.newSize (ceilDiv (2 ^ 64 - 1) a.blockCapacity) = 0 by decide]
  rfl

/-- `shrink_to_fit()` leaves exactly the blocks the size needs, or raises the allocator's
failure and changes nothing. -/
theorem shrinkToFit_leaves_needed_blocks (a : RawArrayImpl) (env : Env) {s : ArrayState}
    {L : List (List UInt8)} (h : a.Refines s L) :
    match a.exec env .shrinkToFit s with
    | .ok _ s' => a.Refines s' L ∧ s'.blocks = ceilDiv s.size a.blockCapacity ∧
        ∀ k, s.size ≤ k * a.blockCapacity → s'.blocks ≤ k
    | .error e s' => s' = s ∧ env.resizeFault = some e := by
  have hsim : a.Sim env L (.ok L) (a.exec env .shrinkToFit s) :=
    a.shrink_sim env h true (nomatch ·)
  have happ : a.exec env .shrinkToFit s =
      RawArrayImpl.resizeExtent env (ceilDiv s.size a.blockCapacity) true s := rfl
  rw [happ, RawArrayImpl.resizeExtent_apply] at hsim ⊢
  revert hsim
  cases env.resizeFault with
  | some e => exact fun _ => ⟨rfl, rfl⟩
  | none =>
    rintro ⟨L', hL, h'⟩
    cases hL
    exact ⟨h', rfl, fun k hk => (ceilDiv_le_iff a.blockCapacity_pos).mpr hk⟩

theorem shrinkToFit_leaves_needed_blocks_three :
    let a : RawArrayImpl := ⟨512, 512, 1, by decide, rfl, by decide⟩
    let p := a.runWith (ArrayState.empty, []) (List.replicate 3 (.pushBack fun _ => 7, Env.quiet))
    (a.Refines p.1 p.2 ∧ p.1.blocks = 4) ∧
    match a.exec Env.quiet .shrinkToFit p.1 with
    | .ok _ s' => a.Refines s' p.2 ∧ s'.blocks = ceilDiv p.1.size a.blockCapacity ∧
        ∀ k, p.1.size ≤ k * a.blockCapacity → s'.blocks ≤ k
    | .error e s' => s' = p.1 ∧ Env.quiet.resizeFault = some e := by
  intro a p
  have h : a.Refines p.1 p.2 :=
    a.runWith_refines _ ArrayState.empty _ (a.refines_empty .exponential) (by decide)
  exact ⟨⟨h, by decide⟩, shrinkToFit_leaves_needed_blocks a Env.quiet h⟩

/-- `shrink()` after `shrink_to_fit()` left three blocks rounds them up to four. -/
theorem shrink_grows_after_shrinkToFit :
    let a : RawArrayImpl := ⟨512, 512, 1, by decide, rfl, by decide⟩
    let s := a.run ArrayState.empty
      [(.pushBack fun _ => 7, Env.quiet), (.pushBack fun _ => 7, Env.quiet),
        (.pushBack fun _ => 7, Env.quiet), (.shrinkToFit, Env.quiet)]
    s.size = 3 ∧ s.blocks = 3 ∧ (a.run s [(.shrink, Env.quiet)]).blocks = 4 :=
  ⟨by decide, by decide, by decide⟩

end Extpp
