import Extpp.Array.Impl

/-!
The `raw_array` handle (src/src/container/array.cpp): a `std::unique_ptr` to its
`raw_array_impl`. The move constructor and the move assignment pass the pointer on and leave
the source handle empty (the assignment only when the two handles differ); `impl()` on an empty
handle raises `bad_operation("Bad array instance.")`.

A program's handles are slots, each holding a live `raw_array` (with the impl its `m_impl`
points to, by the identifier `std::make_unique` gave it, or none once moved from) or no object.
Using a slot that holds no object, after `~raw_array()`, is undefined behaviour: the run is
stuck there. No run makes two handles own one impl, so a call through one handle never changes
the array another sees.
-/

set_option autoImplicit false

namespace Extpp

/-- A handle slot: a live `raw_array` and its `m_impl`, or no object. -/
inductive Slot where
  | live (impl : Option Nat)
  | dead

structure Handles where
  slot : Nat → Slot
  impls : Nat → RawArrayImpl × ArrayState
  next : Nat

namespace Handles

/-- `raw_array::impl()` on a live handle's `m_impl`. -/
def impl : Option Nat → Except Error Nat
  | some x => .ok x
  | none => .error (.badOperation "Bad array instance.")

variable (w : Handles)

def construct (dst : Nat) (impl : RawArrayImpl × ArrayState) : Handles :=
  { slot := Function.update w.slot dst (.live (some w.next))
    impls := Function.update w.impls w.next impl
    next := w.next + 1 }

/-- `m_impl(std::move(other.m_impl))`: `dst` takes `src`'s pointer `p`, leaving `src` empty. -/
def transfer (dst src : Nat) (p : Option Nat) : Handles :=
  { w with slot := Function.update (Function.update w.slot dst (.live p)) src (.live none) }

def moveConstruct (dst src : Nat) : Option Handles :=
  match w.slot src with
  | .live p => some (w.transfer dst src p)
  | .dead => none

def moveAssign (dst src : Nat) : Option Handles :=
  match w.slot dst, w.slot src with
  | .live _, .live p => some (if dst ≠ src then w.transfer dst src p else w)
  | _, _ => none

def destroy (dst : Nat) : Option Handles :=
  match w.slot dst with
  | .live _ => some { w with slot := Function.update w.slot dst .dead }
  | .dead => none

def call (env : Env) (op : Op) (i : Nat) : Option (Except Error Unit × Handles) :=
  match w.slot i with
  | .dead => none
  | .live p =>
    match Handles.impl p with
    | .error e => some (.error e, w)
    | .ok x =>
      match (w.impls x).1.exec env op (w.impls x).2 with
      | .ok _ s' => some (.ok (), { w with impls := Function.update w.impls x ((w.impls x).1, s') })
      | .error e s' =>
        some (.error e, { w with impls := Function.update w.impls x ((w.impls x).1, s') })

end Handles

inductive HandleOp where
  | construct (dst : Nat) (impl : RawArrayImpl × ArrayState)
  | moveConstruct (dst src : Nat)
  | moveAssign (dst src : Nat)
  | destroy (dst : Nat)
  | call (i : Nat) (env : Env) (op : Op)

namespace Handles

/-- One operation; `none` when it uses a slot with no object. -/
def step (w : Handles) : HandleOp → Option Handles
  | .construct dst impl => some (w.construct dst impl)
  | .moveConstruct dst src => w.moveConstruct dst src
  | .moveAssign dst src => w.moveAssign dst src
  | .destroy dst => w.destroy dst
  | .call i env op => (w.call env op i).map Prod.snd

def run (w : Handles) : List HandleOp → Option Handles
  | [] => some w
  | o :: ops => (w.step o).bind fun w' => run w' ops

/-- No two handles own one impl, and every owned impl has been handed out. -/
structure Unique (w : Handles) : Prop where
  injective : ∀ i j x, w.slot i = .live (some x) → w.slot j = .live (some x) → i = j
  lt_next : ∀ i x, w.slot i = .live (some x) → x < w.next

variable {w : Handles}

theorem call_cases {env : Env} {op : Op} {i : Nat} {r : Except Error Unit} {w' : Handles}
    (h : w.call env op i = some (r, w')) :
    w'.slot = w.slot ∧ w'.next = w.next ∧
      ∀ y, (∀ x, w.slot i = .live (some x) → x ≠ y) → w'.impls y = w.impls y := by
  unfold call at h
  cases hi : w.slot i with
  | dead => rw [hi] at h; cases h
  | live p =>
    rw [hi] at h
    cases p with
    | none => cases h; exact ⟨rfl, rfl, fun _ _ => rfl⟩
    | some x =>
      have hxy : ∀ v y, (∀ x', Slot.live (some x) = .live (some x') → x' ≠ y) →
          Function.update w.impls x v y = w.impls y :=
        fun _ y hy => Function.update_noteq (hy x rfl).symm _ _
      simp only [Handles.impl] at h
      revert h
      cases (w.impls x).1.exec env op (w.impls x).2 <;>
        exact fun h => by cases h; exact ⟨rfl, rfl, hxy _⟩

theorem transfer_slot {dst src i x : Nat} {p : Option Nat}
    (h : (w.transfer dst src p).slot i = .live (some x)) :
    i ≠ src ∧ (i = dst ∧ p = some x ∨ i ≠ dst ∧ w.slot i = .live (some x)) := by
  simp only [transfer, Function.update_apply] at h
  split_ifs at h with h1 h2
  · cases h
  · exact ⟨h1, .inl ⟨h2, Slot.live.inj h⟩⟩
  · exact ⟨h1, .inr ⟨h2, h⟩⟩

theorem Unique.transfer (hu : w.Unique) {dst src : Nat} {p : Option Nat}
    (hp : w.slot src = .live p) : (w.transfer dst src p).Unique := by
  have hown : ∀ i x, (w.transfer dst src p).slot i = .live (some x) →
      i ≠ src ∧ w.slot (if i = dst then src else i) = .live (some x) := fun i x h => by
    obtain ⟨h1, ⟨rfl, rfl⟩ | ⟨h2, h3⟩⟩ := transfer_slot h
    · exact ⟨h1, by rw [if_pos rfl]; exact hp⟩
    · exact ⟨h1, by rw [if_neg h2]; exact h3⟩
  constructor
  · intro i j x hi hj
    obtain ⟨hi1, hi2⟩ := hown i x hi
    obtain ⟨hj1, hj2⟩ := hown j x hj
    have := hu.injective _ _ x hi2 hj2
    split_ifs at this <;> omega
  · intro i x hi
    exact hu.lt_next _ x (hown i x hi).2

theorem Unique.step (hu : w.Unique) {o : HandleOp} {w' : Handles} (h : w.step o = some w') :
    w'.Unique := by
  cases o with
  | construct dst impl =>
    cases h
    have hown : ∀ i x, (w.construct dst impl).slot i = .live (some x) →
        (i = dst ∧ x = w.next) ∨ (i ≠ dst ∧ w.slot i = .live (some x)) := fun i x h => by
      simp only [construct, Function.update_apply] at h
      split_ifs at h with h1
      · exact .inl ⟨h1, (Option.some.inj (Slot.live.inj h)).symm⟩
      · exact .inr ⟨h1, h⟩
    constructor
    · intro i j x hi hj
      rcases hown i x hi with ⟨hi1, hix⟩ | ⟨hi1, hi2⟩ <;>
        rcases hown j x hj with ⟨hj1, hjx⟩ | ⟨hj1, hj2⟩
      · exact hi1.trans hj1.symm
      · exact absurd (hu.lt_next j x hj2) (by omega)
      · exact absurd (hu.lt_next i x hi2) (by omega)
      · exact hu.injective i j x hi2 hj2
    · intro i x hi
      rcases hown i x hi with ⟨-, rfl⟩ | ⟨-, hi2⟩
      · exact Nat.lt_succ_self _
      · exact Nat.lt_succ_of_lt (hu.lt_next i x hi2)
  | moveConstruct dst src =>
    simp only [Handles.step, moveConstruct] at h
    split at h
    · cases h; exact hu.transfer ‹_›
    · cases h
  | moveAssign dst src =>
    simp only [Handles.step, moveAssign] at h
    split at h
    · cases h
      split_ifs
      · exact hu.transfer ‹_›
      · exact hu
    · cases h
  | destroy dst =>
    simp only [Handles.step, destroy] at h
    split at h
    · cases h
      have hown : ∀ i x, (Function.update w.slot dst .dead) i = .live (some x) →
          w.slot i = .live (some x) := fun i x h => by
        rw [Function.update_apply] at h
        split_ifs at h
        exact h
      exact ⟨fun i j x hi hj => hu.injective i j x (hown i x hi) (hown j x hj),
        fun i x hi => hu.lt_next i x (hown i x hi)⟩
    · cases h
  | call i env op =>
    obtain ⟨⟨r, w''⟩, hc, rfl⟩ := Option.map_eq_some'.mp h
    obtain ⟨ho, hn, -⟩ := call_cases hc
    exact ⟨fun i j x => by rw [ho]; exact hu.injective i j x,
      fun i x => by rw [ho, hn]; exact hu.lt_next i x⟩

theorem Unique.run : ∀ {w : Handles}, w.Unique → ∀ {ops : List HandleOp} {w' : Handles},
    w.run ops = some w' → w'.Unique
  | _, hu, [], _, h => by cases h; exact hu
  | w, hu, o :: ops, _, h => by
    obtain ⟨w'', hs, hr⟩ := Option.bind_eq_some.mp h
    exact Unique.run (hu.step hs) hr

end Handles

end Extpp
