import Mathlib.Algebra.Order.Monoid.Defs
import Mathlib.Order.Lattice
import Mathlib.Algebra.Order.Ring.Int

/-! The core error type and the fixed-width arithmetic of the source. Times
and durations are `Int` with the 64-bit bounds made explicit where the
source saturates or wraps; sequence numbers and ids are `Nat`. -/

namespace OpenPubusb

inductive Error where
  | notFound (resource : String)
  | alreadyExists (resource : String)
  | invalidArgument (field message : String)
  | failedPrecondition (message : String)
  | resourceExhausted (message : String)
  | unavailable (message : String)
  | unimplemented (method : String)
  | internal (message : String)
  deriving DecidableEq, Repr

abbrev Result := Except Error

def i64Max : Int := 2 ^ 63 - 1

def i64Min : Int := -2 ^ 63

def u32Max : Nat := 2 ^ 32 - 1

def u64Max : Nat := 2 ^ 64 - 1

/-- The value of a saturating `i64` operation with exact result `x`. -/
def satI64 (x : Int) : Int := max i64Min (min i64Max x)

/-- The value of a plain `i64` operation with exact result `x`, as the
release profile computes it. -/
def wrapI64 (x : Int) : Int := Int.bmod x (2 ^ 64)

def satAddI64 (x y : Int) : Int := satI64 (x + y)

def satSubI64 (x y : Int) : Int := satI64 (x - y)

def satMulI64 (x y : Int) : Int := satI64 (x * y)

def satSuccU32 (n : Nat) : Nat := min u32Max (n + 1)

def satSuccU64 (n : Nat) : Nat := min u64Max (n + 1)

/-- The addition `n + 1` of the source, which must not overflow. -/
def succU64 (n : Nat) : Option Nat := if n < u64Max then some (n + 1) else none

theorem satI64_mono {x y : Int} (h : x ≤ y) : satI64 x ≤ satI64 y := by
  unfold satI64
  exact max_le_max le_rfl (min_le_min le_rfl h)

theorem satI64_of_range {x : Int} (hlo : i64Min ≤ x) (hhi : x ≤ i64Max) : satI64 x = x := by
  rw [satI64, min_eq_right hhi, max_eq_right hlo]

theorem satAddI64_mono {x x' y y' : Int} (h : x ≤ x') (h' : y ≤ y') :
    satAddI64 x y ≤ satAddI64 x' y' :=
  satI64_mono (add_le_add h h')

theorem satSubI64_le {x y : Int} (hx : i64Min ≤ x) (hy : 0 ≤ y) : satSubI64 x y ≤ x := by
  have hle : min i64Max (x - y) ≤ x := (min_le_right _ _).trans (by omega)
  exact max_le hx hle

theorem satSuccU32_of_lt {n : Nat} (h : n < u32Max) : satSuccU32 n = n + 1 := by
  unfold satSuccU32
  omega

theorem satSuccU64_of_lt {n : Nat} (h : n < u64Max) : satSuccU64 n = n + 1 := by
  unfold satSuccU64
  omega

theorem succU64_eq {n : Nat} (h : n < u64Max) : succU64 n = some (n + 1) := if_pos h

end OpenPubusb
