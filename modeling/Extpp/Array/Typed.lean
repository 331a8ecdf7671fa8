import Extpp.Array.Refinement

/-!
`array<T>` (src/include/prequel/container/array.hpp): a `raw_array` whose `value_size()` is
`serialized_size<T>()`. `get` deserializes the bytes the raw array copies out; `set`,
`push_back` and `resize` serialize their value into a buffer and forward the buffer. Every
other call forwards unchanged.

The serialization library is not in src/. It enters as the contract `array<T>` relies on:
every value serializes to `serialized_size<T>()` bytes, and deserializing those bytes gives
the value back. Over it the typed array stands for a `List T`, along every run whose growth
computations fit, by composing that round trip with the refinement of the raw array.
-/

set_option autoImplicit false

namespace Extpp

/-- The binary format of `T`, with the two laws `array<T>` relies on as fields. -/
structure Serializer (T : Type) where
  size : Nat
  serialize : T → List UInt8
  deserialize : List UInt8 → T
  serialize_length : ∀ x, (serialize x).length = size
  deserialize_serialize : ∀ x, deserialize (serialize x) = x

namespace Serializer

variable {T : Type} (ser : Serializer T)

def toBuffer (x : T) : Bytes := fun i => (ser.serialize x).getD i 0

theorem load_toBuffer (x : T) : load (ser.toBuffer x) 0 ser.size = ser.serialize x := by
  apply List.ext_getElem (by rw [load_length, ser.serialize_length])
  intro j hj _
  rw [load_length] at hj
  simp only [load, List.getElem_map, List.getElem_range, Nat.zero_add, toBuffer]
  exact List.getD_eq_getElem _ _ _

end Serializer

/-- The mutating calls of `array<T>`; `resize` takes its value explicitly. -/
inductive TypedOp (T : Type) where
  | pushBack (value : T)
  | popBack
  | set (index : Nat) (value : T)
  | resize (n : Nat) (value : T)
  | clear
  | reset
  | reserve (n : Nat)
  | reserveAdditional (n : Nat)
  | shrink
  | shrinkToFit
  | growth (g : GrowthStrategy)

namespace TypedOp

variable {T : Type} (ser : Serializer T)

/-- The `raw_array` call each call of `array<T>` makes, with its value serialized to a
buffer. -/
def raw : TypedOp T → Op
  | .pushBack v => .pushBack (ser.toBuffer v)
  | .popBack => .popBack
  | .set i v => .set i (ser.toBuffer v)
  | .resize n v => .resize n (some (ser.toBuffer v))
  | .clear => .clear
  | .reset => .reset
  | .reserve n => .reserve n
  | .reserveAdditional n => .reserveAdditional n
  | .shrink => .shrink
  | .shrinkToFit => .shrinkToFit
  | .growth g => .growth g

def forward (cs : List (TypedOp T × Env)) : List (Op × Env) :=
  cs.map fun c => (c.1.raw ser, c.2)

end TypedOp

namespace TypedList

variable {T : Type}

/-- What `array<T>` is for: the list semantics of its calls on a `List T`. -/
def apply (L : List T) : TypedOp T → Except Error (List T)
  | .pushBack v => .ok (L ++ [v])
  | .popBack => if L.length = 0 then .error (.badOperation "Array is empty.") else .ok L.dropLast
  | .set i v =>
    if i < L.length then .ok (L.set i v) else .error (.badArgument "Index out of bounds.")
  | .resize n v => .ok (if n ≤ L.length then L.take n else L ++ List.replicate (n - L.length) v)
  | .clear => .ok []
  | .reset => .ok []
  | .reserve _ => .ok L
  | .reserveAdditional k => if k + L.length < 2 ^ 64 then .ok L else .error .overflow
  | .shrink => .ok L
  | .shrinkToFit => .ok L
  | .growth _ => .ok L

def next (L : List T) (op : TypedOp T) : List T :=
  match apply L op with
  | .ok L' => L'
  | .error _ => L

variable (ser : Serializer T)

/-- Serializing commutes with the list semantics of the forwarded call. -/
theorem apply_raw (L : List T) (op : TypedOp T) :
    ListArray.apply ser.size (L.map ser.serialize) (op.raw ser) =
      (apply L op).map (List.map ser.serialize) := by
  cases op with
  | pushBack v => simp [ListArray.apply, apply, TypedOp.raw, ser.load_toBuffer, Except.map]
  | popBack =>
    by_cases hL : L = [] <;> simp [ListArray.apply, apply, TypedOp.raw, hL, List.map_dropLast,
      Except.map]
  | set i v =>
    by_cases hi : i < L.length <;>
      simp [ListArray.apply, apply, TypedOp.raw, hi, List.map_set, ser.load_toBuffer, Except.map]
  | resize n v =>
    by_cases hn : n ≤ L.length <;> simp [ListArray.apply, apply, TypedOp.raw, hn, List.map_take,
      initialValue, ser.load_toBuffer, List.map_replicate, Except.map]
  | reserveAdditional k =>
    simp only [ListArray.apply, apply, TypedOp.raw, List.length_map]
    split_ifs <;> rfl
  | _ => rfl

theorem next_raw (L : List T) (op : TypedOp T) :
    ListArray.next ser.size (L.map ser.serialize) (op.raw ser) = (next L op).map ser.serialize := by
  simp only [ListArray.next, next, apply_raw]
  cases apply L op <;> rfl

end TypedList

namespace RawArrayImpl

variable (a : RawArrayImpl) {T : Type} (ser : Serializer T)

def stepTyped (p : ArrayState × List T) (c : TypedOp T × Env) : ArrayState × List T :=
  match a.exec c.2 (c.1.raw ser) p.1 with
  | .ok _ s' => (s', TypedList.next p.2 c.1)
  | .error _ s' => (s', p.2)

def runTyped (p : ArrayState × List T) (cs : List (TypedOp T × Env)) : ArrayState × List T :=
  cs.foldl (a.stepTyped ser) p

variable {a ser}

theorem runWith_forward (hvs : a.valueSize = ser.size) :
    ∀ (cs : List (TypedOp T × Env)) (s : ArrayState) (L : List T),
      a.runWith (s, L.map ser.serialize) (TypedOp.forward ser cs) =
        ((a.runTyped ser (s, L) cs).1, (a.runTyped ser (s, L) cs).2.map ser.serialize)
  | [], _, _ => rfl
  | (op, env) :: cs, s, L => by
    show a.runWith (a.stepWith (s, L.map ser.serialize) (op.raw ser, env))
      (TypedOp.forward ser cs) = _
    simp only [runTyped, List.foldl_cons] at *
    unfold stepWith stepTyped
    cases a.exec env (op.raw ser) s with
    | ok u s' =>
      simp only [hvs, TypedList.next_raw]
      exact runWith_forward hvs cs s' _
    | error e s' => exact runWith_forward hvs cs s' L

end RawArrayImpl

namespace TypedArray

variable {T : Type} (ser : Serializer T) (a : RawArrayImpl) (env : Env)

/-- `array<T>::get(index)`: the bytes the raw array copies out, deserialized. -/
def get (index : Nat) : ArrayM T := do
  let buffer ← a.get env index
  pure (ser.deserialize buffer)

variable {ser a}

theorem get_apply {s : ArrayState} {L : List T} (h : a.Refines s (L.map ser.serialize))
    (i : Nat) :
    get ser a env i s = if hi : i < L.length then
      (match env.pinFault (a.blockIndex i) with
        | some e => .error e s
        | none => .ok L[i] s)
      else .error (.badArgument "Index out of bounds.") s := by
  show (a.get env i >>= fun b => pure (ser.deserialize b)) s = _
  rw [RawArrayImpl.bind_apply, a.get_apply env h i]
  simp only [List.length_map]
  split_ifs with hi
  · cases env.pinFault (a.blockIndex i) with
    | some e => rfl
    | none =>
      show EStateM.Result.ok _ s = _
      rw [List.getElem_map, ser.deserialize_serialize]
  · rfl

end TypedArray

/-- `array<T>` stands for a `List T` along every run whose forwarded growth computations fit. -/
theorem typed_array_refines_list {T : Type} (ser : Serializer T) (a : RawArrayImpl)
    (hvs : a.valueSize = ser.size) (cs : List (TypedOp T × Env))
    (hfit : a.FitsAlong ArrayState.empty (TypedOp.forward ser cs)) :
    let p := a.runTyped ser (ArrayState.empty, []) cs
    p.1.size = p.2.length ∧
      (∀ (env : Env) (i : Nat), TypedArray.get ser a env i p.1 = if hi : i < p.2.length then
        (match env.pinFault (a.blockIndex i) with
          | some e => .error e p.1
          | none => .ok p.2[i] p.1)
        else .error (.badArgument "Index out of bounds.") p.1) ∧
      ∀ (env : Env) (op : TypedOp T), a.Fits p.1 (op.raw ser) →
        a.Sim env (p.2.map ser.serialize) ((TypedList.apply p.2 op).map (List.map ser.serialize))
          (a.exec env (op.raw ser) p.1) := by
  intro p
  have h := a.runWith_refines _ ArrayState.empty _ (a.refines_empty .exponential) hfit
  rw [show ([] : List (List UInt8)) = ([] : List T).map ser.serialize from rfl,
    RawArrayImpl.runWith_forward hvs] at h
  refine ⟨by rw [h.size_eq, List.length_map], fun env i => TypedArray.get_apply env h i,
    fun env op hop => ?_⟩
  have hsim := a.exec_sim env h (op.raw ser) hop
  rwa [hvs, TypedList.apply_raw] at hsim

theorem typed_array_refines_list_byte :
    let ser : Serializer UInt8 :=
      ⟨1, fun x => [x], fun l => l.headD 0, fun _ => rfl, fun _ => rfl⟩
    let a : RawArrayImpl := ⟨1, 512, 512, by decide, rfl, by decide⟩
    let cs : List (TypedOp UInt8 × Env) := [(.pushBack 7, Env.quiet)]
    (a.valueSize = ser.size ∧ a.FitsAlong ArrayState.empty (TypedOp.forward ser cs)) ∧
      TypedArray.get ser a Env.quiet 0 (a.runTyped ser (ArrayState.empty, []) cs).1 =
        .ok 7 (a.runTyped ser (ArrayState.empty, []) cs).1 := by
  intro ser a cs
  have hd : a.demand ArrayState.empty (.pushBack (ser.toBuffer 7)) = some 1 := by decide
  have hfit : a.FitsAlong ArrayState.empty (TypedOp.forward ser cs) :=
    ⟨fun m hm => by cases Option.some.inj (hd.symm.trans hm); decide, trivial⟩
  have hL : (a.runTyped ser (ArrayState.empty, []) cs).2 = [7] := by decide
  refine ⟨⟨rfl, hfit⟩, ?_⟩
  rw [(typed_array_refines_list ser a rfl cs hfit).2.1 Env.quiet 0]
  simp only [hL]
  rfl

end Extpp
