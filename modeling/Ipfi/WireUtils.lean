import Ipfi.Integer

/-!
# Messages and their encoding

`wire_utils.rs`: the multiflag byte and the IPFI binary format.
-/

namespace Ipfi

variable {w : IntFeature}

namespace Terminator

def toFlag : Terminator → Bool × Bool
  | complete => (true, true)
  | chunk => (true, false)
  | none => (false, false)

def fromFlag : Bool × Bool → Except (Error w) Terminator
  | (true, true) => .ok complete
  | (true, false) => .ok chunk
  | (false, false) => .ok none
  | (false, true) => .error .invalidTerminator

@[simp] theorem fromFlag_toFlag (t : Terminator) : (fromFlag t.toFlag : Except (Error w) _) = .ok t := by
  cases t <;> rfl

theorem toFlag_of_fromFlag {flag : Bool × Bool} {t : Terminator}
    (h : (fromFlag flag : Except (Error w) _) = .ok t) : t.toFlag = flag := by
  obtain ⟨_ | _, _ | _⟩ := flag <;> cases h <;> rfl

end Terminator

def boolArrayToU8 (arr : Vector Bool 8) : UInt8 :=
  arr.toList.zipIdx.foldl (fun result (bit, i) => if bit then result ||| (1 <<< UInt8.ofNat i) else result) 0

def u8ToBoolArray (value : UInt8) : Vector Bool 8 :=
  Vector.ofFn fun i => (value >>> UInt8.ofNat i) &&& 1 != 0

theorem u8ToBoolArray_boolArrayToU8 (b₀ b₁ b₂ b₃ b₄ b₅ b₆ b₇ : Bool) :
    u8ToBoolArray (boolArrayToU8 #v[b₀, b₁, b₂, b₃, b₄, b₅, b₆, b₇]) = #v[b₀, b₁, b₂, b₃, b₄, b₅, b₆, b₇] := by
  revert b₀ b₁ b₂ b₃ b₄ b₅ b₆ b₇
  decide +kernel

private theorem boolArrayToU8_ofNat : ∀ n : Fin 256,
    boolArrayToU8 (u8ToBoolArray (UInt8.ofNat n)) = UInt8.ofNat n := by
  decide +kernel

theorem boolArrayToU8_u8ToBoolArray (value : UInt8) : boolArrayToU8 (u8ToBoolArray value) = value := by
  simpa using boolArrayToU8_ofNat ⟨value.toNat, value.toNat_lt⟩

/-- The one-byte multiflag with the sizes of the three header fields and the terminator. -/
def makeMultiflag (procedureIdx callIdx numBytes : Integer) (terminator : Terminator) : UInt8 :=
  boolArrayToU8 #v[procedureIdx.toFlag.1, procedureIdx.toFlag.2, callIdx.toFlag.1, callIdx.toFlag.2,
    numBytes.toFlag.1, numBytes.toFlag.2, terminator.toFlag.1, terminator.toFlag.2]

/-- A message to be sent down the wire. -/
inductive Message (w : IntFeature)
  | termination
  | call (procedureIdx : ProcedureIndex w) (callIdx : CallIndex w) (terminator : Terminator) (args : Payload)
  | response (procedureIdx : ProcedureIndex w) (callIdx : CallIndex w) (terminator : Terminator)
      (message : Payload)
  | endOfInput

namespace Message

/-- What follows the type byte of a call or a response. -/
def body (procedureIdx : ProcedureIndex w) (callIdx : CallIndex w) (terminator : Terminator)
    (message : Payload) : List UInt8 :=
  let procedureIdx := getAsSmallestInt procedureIdx.idx
  let callIdx := getAsSmallestInt callIdx.idx
  let numBytes := getAsSmallestIntFromUsize message.val.length
  makeMultiflag procedureIdx callIdx numBytes terminator ::
    procedureIdx.toLeBytes ++ callIdx.toLeBytes ++ numBytes.toLeBytes ++ message.val

def toBytes : Message w → List UInt8
  | termination => [0]
  | call procedureIdx callIdx terminator args => 1 :: body procedureIdx callIdx terminator args
  | response procedureIdx callIdx terminator message => 2 :: body procedureIdx callIdx terminator message
  | endOfInput => [3]

theorem toBytes_ne_nil (m : Message w) : m.toBytes ≠ [] := by
  cases m <;> simp [toBytes]

end Message

end Ipfi
