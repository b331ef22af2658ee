import Ipfi.Interface

/-!
# Typed arguments

`procedure_args.rs`, and the closures that `add_procedure` and `add_sequence_procedure` build.  A caller sends the
encodings of its arguments one after the other, and the closure puts the header of a MessagePack array in front of what
it gets, which makes it the encoding of the tuple.  The functions of `rmp` and `rmp_serde` are parameters.
-/

namespace Ipfi

variable {w : IntFeature}

/-- A type that can be serialised, with what `rmp_serde::to_vec` makes of its values. -/
structure Serial where
  type : Type
  toVec : type → Option Payload

/-- A value of a type that can be serialised. -/
structure Value where
  serial : Serial
  val : serial.type

def Value.encode (v : Value) : Option (List UInt8) := (v.serial.toVec v.val).map Subtype.val

/-- The encodings of the values, one after the other. -/
def encodings : List Value → Option (List UInt8)
  | [] => some []
  | v :: vs => do
    let bytes ← v.encode
    let rest ← encodings vs
    pure (bytes ++ rest)

/-- The tuples with components of the given types. -/
def Tuple : List Serial → Type
  | [] => Unit
  | A :: As => A.type × Tuple As

namespace Tuple

/-- Counts the components, as `impl_tuple` does. -/
def len (As : List Serial) : Nat := As.foldl (fun counter _ => counter + 1) 0

theorem len_eq (As : List Serial) : len As = As.length := by simp [len]

def elems : {As : List Serial} → Tuple As → List Value
  | [], _ => []
  | A :: _, (a, as) => ⟨A, a⟩ :: elems as

/-- What `impl_args` does for each component in turn. -/
def extend (data : List UInt8) : {As : List Serial} → Tuple As → Option (List UInt8)
  | [], _ => some data
  | A :: _, (a, as) => do
    let bytes ← A.toVec a
    extend (data ++ bytes.val) as

end Tuple

/-- What implements `ProcedureArgs`. -/
inductive ProcedureArgs
  | vec (A : Serial) (elems : List A.type)
  | array (A : Serial) (n : Nat) (elems : Vector A.type n)
  | tuple (As : List Serial) (elems : Tuple As)

namespace ProcedureArgs

/-- The loop of `into_bytes` over the elements of a vector or an array. -/
def extend (A : Serial) (data : List UInt8) : List A.type → Option (List UInt8)
  | [] => some data
  | elem :: elems => do
    let bytes ← A.toVec elem
    extend A (data ++ bytes.val) elems

/-- The bytes of the arguments, unless one of them cannot be serialised. -/
def intoBytes : ProcedureArgs → Option (List UInt8)
  | vec A elems => extend A [] elems
  | array A _ elems => extend A [] elems.toList
  | tuple _ elems => elems.extend []

def elems : ProcedureArgs → List Value
  | vec A elems => elems.map (⟨A, ·⟩)
  | array A _ elems => elems.toList.map (⟨A, ·⟩)
  | tuple _ elems => elems.elems

end ProcedureArgs

/-! ### Closures -/

/-- What a closure for tuples with components of these types uses of `rmp` and `rmp_serde`. -/
structure Rmp (As : List Serial) where
  writeArrayLen : Nat → Option (List UInt8)
  /-- `rmp_serde::encode::to_vec(&())`. -/
  unit : Option (List UInt8)
  toVec : Tuple As → Option (List UInt8)
  fromSlice : List UInt8 → Option (Tuple As)

namespace Rmp

variable {As : List Serial} {r : Rmp As}

/-- `ok_or`, for the errors of the crate. -/
def okOr {α : Type} (e : Error w) : Option α → Except (Error w) α
  | some a => .ok a
  | none => .error e

/-- How a closure gets its arguments from the bytes that were sent for them. -/
def decodeArgs (r : Rmp As) (data : List UInt8) : Except (Error w) (Tuple As) :=
  if Tuple.len As = 0 then do
    -- the length marker does not work for a procedure without arguments, and what was sent does not matter
    let unit ← okOr .encode r.unit
    okOr .decode (r.fromSlice unit)
  else do
    let header ← okOr .writeLenMarkerFailed (r.writeArrayLen (Tuple.len As))
    okOr .decode (r.fromSlice (header ++ data))

/-- The procedure that `add_procedure` registers. -/
def procedure (r : Rmp As) (R : Serial) (f : Tuple As → R.type) : Procedure w :=
  .standard fun data => do
    let argTuple ← r.decodeArgs data
    okOr .encode (R.toVec (f argTuple))

/-- The procedure that `add_sequence_procedure` registers, by what it yields before it returns; what cannot be
serialised is not yielded. -/
def sequenceProcedure (r : Rmp As) (R : Serial) (f : Tuple As → List (R.type × Bool)) : Procedure w :=
  .streaming fun data =>
    match r.decodeArgs data with
    | .error e => (.error e, [])
    | .ok argTuple => (.ok (), (f argTuple).filterMap fun y =>
        (R.toVec y.1).map fun bytes => (bytes, if y.2 then .complete else .chunk))

/-- How `rmp_serde` encodes tuples with components of these types, and that decoding undoes it. -/
structure Lawful (r : Rmp As) : Prop where
  writes : ∃ header, r.writeArrayLen As.length = some header
  unit : As = [] → ∃ bytes, r.unit = some bytes ∧ ∀ a, r.toVec a = some bytes
  tuple : As ≠ [] → ∀ {a header bytes}, r.writeArrayLen As.length = some header → encodings a.elems = some bytes →
    r.toVec a = some (header ++ bytes)
  decodes : ∀ {a bytes}, r.toVec a = some bytes → r.fromSlice bytes = some a

/-- A closure decodes the arguments from their encodings. -/
theorem decodeArgs_encodings (hr : r.Lawful) {a : Tuple As} {bytes : List UInt8} (h : encodings a.elems = some bytes) :
    r.decodeArgs (w := w) bytes = .ok a := by
  unfold decodeArgs
  rw [Tuple.len_eq]
  cases As with
  | nil =>
    obtain ⟨unit, hunit, ha⟩ := hr.unit rfl
    simp only [List.length_nil, if_true, hunit]
    show okOr .decode (r.fromSlice unit) = _
    rw [hr.decodes (ha a)]
    rfl
  | cons A As =>
    obtain ⟨header, hheader⟩ := hr.writes
    rw [if_neg (by simp), hheader]
    show okOr .decode (r.fromSlice (header ++ bytes)) = _
    rw [hr.decodes (hr.tuple (List.cons_ne_nil A As) hheader h)]
    rfl

end Rmp

end Ipfi
