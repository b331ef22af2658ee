import Ipfi.Basic
import Ipfi.Lib.LittleEndian
import Ipfi.Lib.Outcome

/-!
# Integers on the wire

`integer.rs` on a 64-bit target: integers are sent in the smallest of four sizes, tagged by a two-bit flag, in
little-endian order, and are narrowed to the receiver's `IpfiInteger` where they fit.
-/

namespace Ipfi

variable {w : IntFeature}

/-- An integer of one of the sizes the format knows. -/
inductive Integer
  | U8 (val : UInt8)
  | U16 (val : UInt16)
  | U32 (val : UInt32)
  | U64 (val : UInt64)
  deriving DecidableEq

/-- The smallest integer type that holds the value, among those the feature compiles in. -/
def getAsSmallestInt (value : IpfiInteger w) : Integer :=
  match w with
  | .u8 => .U8 (.ofNat value.toNat)
  | .u16 => if value.toNat ≤ 255 then .U8 (.ofNat value.toNat) else .U16 (.ofNat value.toNat)
  | .u32 =>
    if value.toNat ≤ 255 then .U8 (.ofNat value.toNat)
    else if value.toNat ≤ 65535 then .U16 (.ofNat value.toNat)
    else .U32 (.ofNat value.toNat)
  | .u64 =>
    if value.toNat ≤ 255 then .U8 (.ofNat value.toNat)
    else if value.toNat ≤ 65535 then .U16 (.ofNat value.toNat)
    else if value.toNat ≤ 4294967295 then .U32 (.ofNat value.toNat)
    else .U64 (.ofNat value.toNat)

/-- The same for a `usize`, whatever the feature. -/
def getAsSmallestIntFromUsize (value : Nat) : Integer :=
  if value ≤ 255 then .U8 (.ofNat value)
  else if value ≤ 65535 then .U16 (.ofNat value)
  else if value ≤ 4294967295 then .U32 (.ofNat value)
  else .U64 (.ofNat value)

namespace Integer

def toNat : Integer → Nat
  | U8 val => val.toNat
  | U16 val => val.toNat
  | U32 val => val.toNat
  | U64 val => val.toNat

/-- The number of bytes of the type. -/
def size : Integer → Nat
  | U8 _ => 1
  | U16 _ => 2
  | U32 _ => 4
  | U64 _ => 8

def toFlag : Integer → Bool × Bool
  | U8 _ => (false, false)
  | U16 _ => (false, true)
  | U32 _ => (true, false)
  | U64 _ => (true, true)

def fromFlag : Bool × Bool → Integer
  | (false, false) => U8 0
  | (false, true) => U16 0
  | (true, false) => U32 0
  | (true, true) => U64 0

def toLeBytes (i : Integer) : List UInt8 := leBytes i.size i.toNat

end Integer

/-- `read_exact`: takes the given number of bytes off the reader, or fails with an unexpected end of file. -/
def readExact (n : Nat) : Op (Error w) (List UInt8) (List UInt8) := fun reader =>
  if n ≤ reader.length then .ok (reader.take n) (reader.drop n)
  else .error (.error (.ioError .unexpectedEof)) []

namespace Integer

def populateFromReader : Integer → Op (Error w) (List UInt8) Integer
  | U8 _ => do
    let buf ← readExact 1
    pure (U8 (.ofNat (ofLeBytes buf)))
  | U16 _ => do
    let buf ← readExact 2
    pure (U16 (.ofNat (ofLeBytes buf)))
  | U32 _ => do
    let buf ← readExact 4
    pure (U32 (.ofNat (ofLeBytes buf)))
  | U64 _ => do
    let buf ← readExact 8
    pure (U64 (.ofNat (ofLeBytes buf)))

/-- The value in the internal type, if it fits. -/
def intoInt (w : IntFeature) : Integer → Option (IpfiInteger w)
  | U8 val => some (.ofNat _ val.toNat)
  | U16 val =>
    match w with
    | .u8 => if val.toNat ≤ 255 then some (.ofNat _ val.toNat) else none
    | _ => some (.ofNat _ val.toNat)
  | U32 val =>
    match w with
    | .u8 => if val.toNat ≤ 255 then some (.ofNat _ val.toNat) else none
    | .u16 => if val.toNat ≤ 65535 then some (.ofNat _ val.toNat) else none
    | _ => some (.ofNat _ val.toNat)
  | U64 val =>
    match w with
    | .u8 => if val.toNat ≤ 255 then some (.ofNat _ val.toNat) else none
    | .u16 => if val.toNat ≤ 65535 then some (.ofNat _ val.toNat) else none
    | .u32 => if val.toNat ≤ 4294967295 then some (.ofNat _ val.toNat) else none
    | .u64 => some (.ofNat _ val.toNat)

/-- The value as a `usize`; every `u64` is one on a 64-bit target. -/
def intoUsize (i : Integer) : Option Nat := some i.toNat

end Integer

/-! ### Reading back what was written -/

theorem toNat_getAsSmallestInt (value : IpfiInteger w) : (getAsSmallestInt value).toNat = value.toNat := by
  have hlt := value.isLt
  revert hlt
  cases w <;> simp only [getAsSmallestInt] <;> generalize value.toNat = n <;> intro hlt <;>
    simp only [IntFeature.bits] at hlt
  all_goals
    repeat' split
    all_goals simp only [Integer.toNat, UInt8.toNat_ofNat', UInt16.toNat_ofNat', UInt32.toNat_ofNat',
      UInt64.toNat_ofNat']
    all_goals omega

theorem toNat_getAsSmallestIntFromUsize {value : Nat} (h : value < 2 ^ 64) :
    (getAsSmallestIntFromUsize value).toNat = value := by
  unfold getAsSmallestIntFromUsize
  repeat' split
  all_goals simp only [Integer.toNat, UInt8.toNat_ofNat', UInt16.toNat_ofNat', UInt32.toNat_ofNat',
    UInt64.toNat_ofNat']
  all_goals omega

theorem Integer.toNat_lt (i : Integer) : i.toNat < 256 ^ i.size := by
  cases i with
  | U8 val => exact UInt8.toNat_lt val
  | U16 val => exact UInt16.toNat_lt val
  | U32 val => exact UInt32.toNat_lt val
  | U64 val => exact UInt64.toNat_lt val

/-- An integer fits the internal type exactly when its value does. -/
theorem Integer.intoInt_eq (w : IntFeature) (i : Integer) :
    i.intoInt w = if i.toNat < 2 ^ w.bits then some (BitVec.ofNat _ i.toNat) else none := by
  have hlt := i.toNat_lt
  have h8 : 2 ^ IntFeature.u8.bits = 256 := rfl
  have h16 : 2 ^ IntFeature.u16.bits = 65536 := rfl
  have h32 : 2 ^ IntFeature.u32.bits = 4294967296 := rfl
  have h64 : 2 ^ IntFeature.u64.bits = 18446744073709551616 := rfl
  cases i <;> simp only [Integer.size, Integer.toNat] at hlt <;> cases w <;>
    simp only [Integer.intoInt, Integer.toNat, h8, h16, h32, h64]
  all_goals repeat' split
  all_goals first | rfl | omega

theorem readExact_append (bytes rest : List UInt8) :
    (readExact bytes.length : Op (Error w) _ _).run (bytes ++ rest) = .ok bytes rest := by
  simp [readExact, EStateM.run]

theorem Integer.toLeBytes_ne_nil (i : Integer) : i.toLeBytes ≠ [] := by
  have hlen : i.toLeBytes.length = i.size := length_leBytes _ _
  have hpos : 0 < i.size := by cases i <;> simp [Integer.size]
  exact List.ne_nil_of_length_pos (hlen ▸ hpos)

/-- An integer is read back through a zero integer of its flag. -/
theorem Integer.populateFromReader_toLeBytes (i : Integer) (rest : List UInt8) :
    ((fromFlag i.toFlag).populateFromReader : Op (Error w) _ _).run (i.toLeBytes ++ rest) = .ok i rest := by
  have hv : ofLeBytes i.toLeBytes = i.toNat := ofLeBytes_leBytes_of_lt i.toNat_lt
  have hr := readExact_append (w := w) i.toLeBytes rest
  rw [show i.toLeBytes.length = i.size from length_leBytes _ _] at hr
  cases i with
  | U8 val => exact (EStateM.run_bind_ok hr).trans (by rw [hv]; simp [toNat])
  | U16 val => exact (EStateM.run_bind_ok hr).trans (by rw [hv]; simp [toNat])
  | U32 val => exact (EStateM.run_bind_ok hr).trans (by rw [hv]; simp [toNat])
  | U64 val => exact (EStateM.run_bind_ok hr).trans (by rw [hv]; simp [toNat])

end Ipfi
