import Extpp.Array.Cells

/-!
What a `raw_array` is for: a list of `value_size`-byte values, and what each call does to that
list. `Refines` ties a state of the implementation to the list it stands for; `Fits` is the
condition that no growth computation of a call wraps in `u64`.
-/

set_option autoImplicit false

namespace Extpp

namespace ListArray

/-- The list semantics of the calls of `raw_array` on values of `vs` bytes. -/
def apply (vs : Nat) (L : List (List UInt8)) : Op → Except Error (List (List UInt8))
  | .pushBack v => .ok (L ++ [load v 0 vs])
  | .popBack => if L = [] then .error (.badOperation "Array is empty.") else .ok L.dropLast
  | .set i v =>
    if i < L.length then .ok (L.set i (load v 0 vs)) else .error (.badArgument "Index out of bounds.")
  | .resize n v =>
    .ok (if n ≤ L.length then L.take n else L ++ List.replicate (n - L.length) (initialValue vs v))
  | .clear => .ok []
  | .reset => .ok []
  | .reserve _ => .ok L
  | .reserveAdditional k => if k + L.length < 2 ^ 64 then .ok L else .error .overflow
  | .shrink => .ok L
  | .shrinkToFit => .ok L
  | .growth _ => .ok L

def next (vs : Nat) (L : List (List UInt8)) (op : Op) : List (List UInt8) :=
  match apply vs L op with
  | .ok L' => L'
  | .error _ => L

end ListArray

namespace RawArrayImpl

variable (a : RawArrayImpl)

/-- State `s` stands for the list `L`. -/
structure Refines (s : ArrayState) (L : List (List UInt8)) : Prop where
  size_eq : s.size = L.length
  size_le : s.size ≤ s.blocks * a.blockCapacity
  capacity_lt : s.blocks * a.blockCapacity < 2 ^ 64
  cell_eq : ∀ i (h : i < L.length), a.cell s i = L[i]

/-- The element count a call asks the growth policy to round, when it asks. -/
def demand (s : ArrayState) : Op → Option Nat
  | .pushBack _ => if a.blockIndex s.size = s.blocks then some (s.size + 1) else none
  | .resize n _ =>
    if s.size < n ∧ s.blocks < ceilDiv n a.blockCapacity then some n else none
  | .reserve n => if s.blocks < ceilDiv n a.blockCapacity then some n else none
  | .reserveAdditional k =>
    if k + s.size < 2 ^ 64 ∧ s.blocks < ceilDiv (k + s.size) a.blockCapacity then
      some (k + s.size) else none
  | .shrink => some s.size
  | _ => none

/-- No growth computation of the call wraps in `u64`. -/
def Fits (s : ArrayState) (op : Op) : Prop :=
  ∀ m ∈ a.demand s op, s.growth.policy (ceilDiv m a.blockCapacity) * a.blockCapacity < 2 ^ 64

/-- A call's result seen through the list `L` and the list semantics' answer `r`. -/
def Sim (env : Env) (L : List (List UInt8)) (r : Except Error (List (List UInt8))) :
    EStateM.Result Error ArrayState Unit → Prop
  | .ok _ s' => ∃ L', r = .ok L' ∧ a.Refines s' L'
  | .error e s' => a.Refines s' L ∧ (r = .error e ∨ env.Raises e)

def FitsAlong : ArrayState → List (Op × Env) → Prop
  | _, [] => True
  | s, (op, env) :: cs => a.Fits s op ∧ FitsAlong (after (a.exec env op s)) cs

instance (s : ArrayState) (op : Op) : Decidable (a.Fits s op) :=
  inferInstanceAs (Decidable (∀ m ∈ a.demand s op, _))

instance decidableFitsAlong : (s : ArrayState) → (cs : List (Op × Env)) →
    Decidable (a.FitsAlong s cs)
  | _, [] => isTrue trivial
  | s, (op, env) :: cs =>
    haveI := decidableFitsAlong (after (a.exec env op s)) cs
    inferInstanceAs (Decidable (a.Fits s op ∧ a.FitsAlong (after (a.exec env op s)) cs))

def stepWith (p : ArrayState × List (List UInt8)) (c : Op × Env) :
    ArrayState × List (List UInt8) :=
  match a.exec c.2 c.1 p.1 with
  | .ok _ s' => (s', ListArray.next a.valueSize p.2 c.1)
  | .error _ s' => (s', p.2)

def runWith (p : ArrayState × List (List UInt8)) (cs : List (Op × Env)) :
    ArrayState × List (List UInt8) :=
  cs.foldl a.stepWith p

end RawArrayImpl

end Extpp
