/-
# TensorGraph.Graph.Literal -- constant tensors kept as bytes

A literal is a spec with a payload of bytes, little-endian and row-major. Nothing forces
the payload to have the length that the spec promises: a literal of another length is
well-typed, is written and read back as it is, and has no numeric value.
-/
import TensorGraph.Shape.Basic

namespace TensorGraph

open scoped CoreInstances

/-! ## Little-endian words -/

/-- The number whose bytes, least significant first, are `bytes`. -/
def leValue : List UInt8 → Nat
  | [] => 0
  | b :: bs => b.toNat + 256 * leValue bs

/-- The `width` low bytes of `n`, least significant first. -/
def leBytes : Nat → Nat → List UInt8
  | 0, _ => []
  | width + 1, n => UInt8.ofNat n :: leBytes width (n / 256)

@[simp] theorem length_leBytes (width n : Nat) : (leBytes width n).length = width := by
  induction width generalizing n with
  | zero => rfl
  | succ width ih => rw [leBytes, List.length_cons, ih]

/-- So many bytes hold a number below `256 ^ width`. -/
theorem leValue_lt (bytes : List UInt8) : leValue bytes < 256 ^ bytes.length := by
  induction bytes with
  | nil => exact Nat.one_pos
  | cons b bs ih =>
    rw [leValue, List.length_cons, Nat.pow_succ]
    have hb := b.toNat_lt
    omega

/-- **A word that fits is read back.** -/
theorem leValue_leBytes {width n : Nat} (h : n < 256 ^ width) :
    leValue (leBytes width n) = n := by
  induction width generalizing n with
  | zero =>
    have hn : n = 0 := by omega
    rw [hn, leBytes, leValue]
  | succ width ih =>
    have hq : n / 256 < 256 ^ width := by
      rw [Nat.pow_succ] at h
      exact Nat.div_lt_of_lt_mul (by rwa [Nat.mul_comm])
    rw [leBytes, leValue, ih hq, UInt8.toNat_ofNat']
    omega

/-- Bytes are the word of the number they spell. -/
theorem leBytes_leValue (bytes : List UInt8) : leBytes bytes.length (leValue bytes) = bytes := by
  induction bytes with
  | nil => rfl
  | cons b bs ih =>
    have hb := b.toNat_lt
    have hq : (b.toNat + 256 * leValue bs) / 256 = leValue bs := by omega
    have hr : UInt8.ofNat (b.toNat + 256 * leValue bs) = b := by
      apply UInt8.toNat_inj.mp
      rw [UInt8.toNat_ofNat']
      omega
    rw [List.length_cons, leValue, leBytes, hq, hr, ih]

/-- Cuts a list into pieces of `width` elements; a shorter rest is dropped. -/
def chunks {α : Type} (width : Nat) : Nat → List α → List (List α)
  | 0, _ => []
  | count + 1, xs => xs.take width :: chunks width count (xs.drop width)

/-! ## Literals -/

/-- **`Literal`** -- a constant tensor. -/
structure Literal where
  /-- Element type and extents. -/
  spec : TensorSpec
  /-- The payload. -/
  bytes : List UInt8
  deriving DecidableEq, Inhabited

/-- One stored element of a floating type, by its bits. -/
inductive FloatWord where
  | single (bits : UInt32)
  | double (bits : UInt64)
  deriving DecidableEq

namespace Literal

/-- The scalar of type `f32` with the given bits. -/
def ofSingle (bits : UInt32) : Literal := ⟨.scalar .f32, leBytes 4 bits.toNat⟩

/-- The scalar of type `f64` with the given bits. -/
def ofDouble (bits : UInt64) : Literal := ⟨.scalar .f64, leBytes 8 bits.toNat⟩

/-- The payload of a literal of type `f32` or `f64`, cut into words. -/
def decode? (l : Literal) : Option (List FloatWord) :=
  match l.spec.dtype with
  | .f32 => some ((chunks 4 (l.bytes.length / 4) l.bytes).map fun c =>
      .single (UInt32.ofNat (leValue c)))
  | .f64 => some ((chunks 8 (l.bytes.length / 8) l.bytes).map fun c =>
      .double (UInt64.ofNat (leValue c)))
  | _ => none

/-- **`words?`** -- the elements of a literal of type `f32` or `f64` whose payload has
exactly the promised length; every other literal has none. -/
def words? (l : Literal) : Option (List FloatWord) :=
  if l.bytes.length = l.spec.byteLength then l.decode? else none

/-- The bits of a rank-0 literal of type `f32` with four bytes. -/
def single? (l : Literal) : Option UInt32 :=
  if l.spec.dtype = .f32 ∧ l.spec.isScalar ∧ l.bytes.length = 4 then
    some (UInt32.ofNat (leValue l.bytes))
  else none

end Literal

end TensorGraph
