import Lz4rip.Framework.Target

/-!
# `lz4rip-core`: constants, errors, `SliceSink` and `slice_copy`
-/

namespace Lz4rip.Impl

/-- Window size for LZ4 compression (64 KB). -/
abbrev WINDOW_SIZE : Nat := 64 * 1024

/-- The last match must start at least this many bytes before the end of the block. -/
abbrev MFLIMIT : Nat := 12

/-- The last bytes of a block are always literals. -/
abbrev LAST_LITERALS : Nat := 5

abbrev END_OFFSET : Nat := LAST_LITERALS + 1

/-- Minimum compressible block length. -/
abbrev LZ4_MIN_LENGTH : Nat := MFLIMIT + 1

/-- Maximum match distance. -/
abbrev MAX_DISTANCE : Nat := 2 ^ 16 - 1

/-- Minimum match length. -/
abbrev MINMATCH : Nat := 4

/-- `u16::MAX` and `u32::MAX`. -/
abbrev U16_MAX : Nat := 2 ^ 16 - 1
abbrev U32_MAX : Nat := 2 ^ 32 - 1

inductive DecompressError where
  | outputTooSmall (expected actual : Nat)
  | literalOutOfBounds
  | expectedAnotherByte
  | offsetZero
  | offsetOutOfBounds
  | decodedSizeMismatch (expected actual : Nat)
  deriving DecidableEq, Repr

inductive CompressError where
  | outputTooSmall
  | inputTooLarge
  deriving DecidableEq, Repr

/-- `Display for DecompressError`. -/
def DecompressError.display : DecompressError → String
  | .outputTooSmall expected actual =>
    "provided output is too small for the decompressed data, actual " ++ toString actual ++
      ", expected " ++ toString expected
  | .literalOutOfBounds => "literal is out of bounds of the input"
  | .expectedAnotherByte => "expected another byte, found none"
  | .offsetZero => "0 is not a valid match offset"
  | .offsetOutOfBounds => "the offset to copy is not contained in the decompressed buffer"
  | .decodedSizeMismatch expected actual =>
    "decoded size mismatch, expected " ++ toString expected ++ ", got " ++ toString actual

/-- `Display for CompressError`. -/
def CompressError.display : CompressError → String
  | .outputTooSmall =>
    "output is too small for the compressed data, " ++
      "use get_maximum_output_size to reserve enough space"
  | .inputTooLarge => "input or compression stream is too large for this target"

/-- A preallocated output buffer and the position to write at. -/
structure SliceSink where
  output : List UInt8
  pos : Nat
  deriving DecidableEq, Repr

/-- `SliceSink::new`, which bounds-checks `pos`. -/
def SliceSink.new (output : List UInt8) (pos : Nat) : Run SliceSink := do
  Run.assert (pos ≤ output.length)
  return ⟨output, pos⟩

/-- `SliceSink::push`. -/
def SliceSink.push (sink : SliceSink) (byte : UInt8) : Run SliceSink := do
  let output ← Run.storeAt sink.output sink.pos [byte]
  return ⟨output, sink.pos + 1⟩

/-- Copies the first and the last `size` elements, which may overlap. -/
def doubleCopyTrick (size : Nat) (src dst : List UInt8) : Run (List UInt8) := do
  let dst ← Run.storeAt dst 0 (← Run.chunk src 0 size)
  let at' ← Run.sub src.length size
  Run.storeAt dst at' (← Run.chunk src at' size)

def shortCopy (src dst : List UInt8) : Run (List UInt8) := do
  let dst ← Run.storeAt dst 0 (← Run.chunk src 0 1)
  if src.length ≥ 2 then doubleCopyTrick 2 src dst else return dst

/-- `slice_copy`: what `dst` holds after `src` is copied into it. Targets with
AVX use the double copy up to 64 elements instead of 32. -/
def sliceCopy (avx : Bool) (src dst : List UInt8) : Run (List UInt8) :=
  if src.length ≠ dst.length then .panic
  else if src.length = 0 then .ret dst
  else if src.length < 4 then shortCopy src dst
  else if src.length < 8 then doubleCopyTrick 4 src dst
  else if src.length ≤ 16 then doubleCopyTrick 8 src dst
  else if src.length ≤ 32 then doubleCopyTrick 16 src dst
  else if avx ∧ src.length ≤ 64 then doubleCopyTrick 32 src dst
  else Run.storeAt dst 0 src

theorem store_zero {src dst : List UInt8} (h : src.length = dst.length) :
    store dst 0 src = src := by
  rw [store, List.take_zero, List.nil_append, Nat.zero_add, h, List.drop_length, List.append_nil]

/-- A double copy of halves that meet copies everything. -/
theorem doubleCopyTrick_ok {size : Nat} {src dst : List UInt8} (h : src.length = dst.length)
    (h₁ : size ≤ src.length) (h₂ : src.length ≤ 2 * size) :
    (doubleCopyTrick size src dst).WP (· = src) := by
  have l₁ : (seg src 0 size).length = size := length_seg (by omega)
  have l₂ : (seg src (src.length - size) size).length = size := length_seg (by omega)
  have l₃ : (store dst 0 (seg src 0 size)).length = dst.length := length_store (by omega)
  simp only [doubleCopyTrick, Run.WP_bind, Run.WP_chunk, Run.WP_storeAt, Run.WP_sub, l₁, l₂, l₃]
  refine ⟨by omega, by omega, h₁, by omega, by omega, ?_⟩
  refine List.ext_getElem? fun i => ?_
  by_cases hi : i < src.length - size
  · rw [getElem?_store_lt _ (by omega) hi, ← Nat.zero_add i,
      getElem?_store_mid (Nat.zero_le _) (by omega), getElem?_seg_of_lt _ (by omega)]
  · obtain ⟨j, rfl⟩ := Nat.exists_eq_add_of_le (Nat.le_of_not_lt hi)
    by_cases hj : j < size
    · rw [getElem?_store_mid (by omega) (by omega), getElem?_seg_of_lt _ hj]
    · rw [getElem?_store_ge (by omega) (by omega), getElem?_store_ge (Nat.zero_le _) (by omega),
        List.getElem?_eq_none (by omega), List.getElem?_eq_none (by omega)]

/-- `slice_copy` copies. -/
theorem sliceCopy_ok (avx : Bool) {src dst : List UInt8} (h : src.length = dst.length) :
    (sliceCopy avx src dst).WP (· = src) := by
  unfold sliceCopy
  rw [if_neg (by omega)]
  refine .ite (fun h₀ => ?_) fun h₀ => .ite (fun h₁ => ?_) fun h₁ => .ite (fun h₂ => ?_) fun h₂ =>
    .ite (fun h₃ => ?_) fun h₃ => .ite (fun h₄ => ?_) fun h₄ => .ite (fun h₅ => ?_) fun h₅ => ?_
  · exact (List.eq_nil_of_length_eq_zero (h ▸ h₀)).trans (List.eq_nil_of_length_eq_zero h₀).symm
  · simp only [shortCopy, Run.WP_bind, Run.WP_chunk, Run.WP_storeAt, length_seg
      (show 0 + 1 ≤ src.length by omega)]
    refine ⟨by omega, by omega, .ite (fun h₆ => ?_) fun h₆ => ?_⟩
    · exact doubleCopyTrick_ok (by rw [length_store (by rw [length_seg (by omega)]; omega)]; omega)
        h₆ (by omega)
    · have hs : seg src 0 1 = src := by rw [seg_eq_drop (by omega), List.drop_zero]
      exact (congrArg _ hs).trans (store_zero h)
  · exact doubleCopyTrick_ok h (by omega) (by omega)
  · exact doubleCopyTrick_ok h (by omega) (by omega)
  · exact doubleCopyTrick_ok h (by omega) (by omega)
  · exact doubleCopyTrick_ok h (by omega) (by omega)
  · exact Run.WP_storeAt.mpr ⟨by omega, store_zero h⟩

end Lz4rip.Impl
