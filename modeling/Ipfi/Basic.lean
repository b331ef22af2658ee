import Mathlib.Algebra.Group.Nat.Defs

/-!
# Integers, indices, terminators and errors

The types of `lib.rs` and `error.rs`.  The width of `IpfiInteger` is fixed by the `int-*` feature the crate is compiled
with, so everything below is over an arbitrary feature; newtype indices stay separate types, as in the source.
-/

namespace Ipfi

/-- The `int-*` feature the crate is compiled with. -/
inductive IntFeature
  | u8 | u16 | u32 | u64
  deriving DecidableEq

/-- The width of `IpfiInteger`. -/
def IntFeature.bits : IntFeature → Nat
  | u8 => 8
  | u16 => 16
  | u32 => 32
  | u64 => 64

abbrev IpfiInteger (w : IntFeature) : Type := BitVec w.bits

namespace IpfiInteger

variable {w : IntFeature} {v : IpfiInteger w}

private theorem toNat_one (w : IntFeature) : (1 : IpfiInteger w).toNat = 1 := by cases w <;> rfl

theorem toNat_succ (h : v.toNat + 1 < 2 ^ w.bits) : (v + 1).toNat = v.toNat + 1 := by
  rw [BitVec.toNat_add, toNat_one, Nat.mod_eq_of_lt h]

theorem succ_eq_zero : v + 1 = 0 ↔ v.toNat + 1 = 2 ^ w.bits := by
  have hlt := v.isLt
  rw [← BitVec.toNat_inj, BitVec.toNat_add, toNat_one]
  constructor
  · intro h
    rcases Nat.lt_or_eq_of_le (Nat.succ_le_of_lt hlt) with hlt | heq
    · rw [Nat.mod_eq_of_lt hlt] at h
      simp at h
    · exact heq
  · intro h
    simp [h]

end IpfiInteger

structure CallIndex (w : IntFeature) where
  idx : IpfiInteger w
  deriving DecidableEq

structure ProcedureIndex (w : IntFeature) where
  idx : IpfiInteger w
  deriving DecidableEq

structure WireId (w : IntFeature) where
  idx : IpfiInteger w
  deriving DecidableEq

/-- The status each call or response message holds about how it ends its series of messages. -/
inductive Terminator
  | complete | chunk | none
  deriving DecidableEq

/-- The state of a completion lock. -/
inductive CompleteLockState
  | incomplete | complete | poisoned
  deriving DecidableEq

/-- The kinds of I/O errors the crate tells apart, and one for the rest. -/
inductive IoErrorKind
  | unexpectedEof | other
  deriving DecidableEq

/-- The errors of the crate; those of the serialisation library carry no data here. -/
inductive Error (w : IntFeature)
  | encode
  | decode
  | alreadyCompleted (index : IpfiInteger w)
  | outOfBounds (index : IpfiInteger w)
  | noResponseBuffer (index callIdx : IpfiInteger w)
  | zeroLengthInNonTerminating
  | ioError (kind : IoErrorKind)
  | noSuchProcedure (index : IpfiInteger w)
  | noCallBuffer (index : IpfiInteger w)
  | callBufferIncomplete (index : IpfiInteger w)
  | callBufferPoisoned (index : IpfiInteger w)
  | writeLenMarkerFailed
  | wireTerminated
  | callFromModule
  | idxTooBig
  | invalidTerminator
  | lockPoisoned (index : IpfiInteger w)
  deriving DecidableEq

/-- The largest number of bytes a Rust slice or `Vec<u8>` holds on a 64-bit target. -/
def isizeMax : Nat := 2 ^ 63 - 1

/-- The bytes of a slice or a `Vec<u8>`. -/
abbrev Payload : Type := { bytes : List UInt8 // bytes.length ≤ isizeMax }

/-- The empty slice. -/
def Payload.empty : Payload := ⟨[], Nat.zero_le _⟩

end Ipfi
