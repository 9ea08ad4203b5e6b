import Lz4rip.Impl.Encode.Compressor
import Lz4rip.Impl.Decode.Decompress

/-!
# `jsr/wasm/src/lib.rs`: the WebAssembly bindings, for blocks

A `JsError` is its message. Names that the crates below have too are in the namespace
`Wasm`.
-/

namespace Lz4rip.Impl

namespace Wasm

def compress (t : Target) (input : List UInt8) : Run (List UInt8) := Impl.compress t input

def validateExactSize (output : List UInt8) (uncompressedSize : Nat) : Except String (List UInt8) :=
  if output.length = uncompressedSize then .ok output
  else .error ("decompressed size mismatch: expected " ++ toString uncompressedSize ++ ", got " ++
    toString output.length)

/-- A block that must have the size that is asked for. -/
def exactly (uncompressedSize : Nat) (r : Except DecompressError (List UInt8)) :
    Except String (List UInt8) := do
  let output ← r.mapError DecompressError.display
  validateExactSize output uncompressedSize

def decompress (t : Target) (input : List UInt8) (uncompressedSize : Nat) :
    Run (Except String (List UInt8)) := do
  return exactly uncompressedSize (← Impl.decompress t input uncompressedSize)

/-- `CompressorInner`. -/
inductive CompressorInner where
  | plain (c : CompressorN DEFAULT_NODICT_ENTRIES)
  | dict (c : DictCompressorN DEFAULT_DICT_ENTRIES)

structure Compressor where
  inner : CompressorInner

namespace Compressor

def new : Run Compressor := do return ⟨.plain (← CompressorN.new DEFAULT_NODICT_ENTRIES)⟩

def withDict (t : Target) (dict : List UInt8) : Run Compressor := do
  return ⟨.dict (← DictCompressorN.new t DEFAULT_DICT_ENTRIES dict)⟩

/-- The block, and the compressor after the call. -/
def compress (t : Target) (c : Compressor) (input : List UInt8) : Run (List UInt8 × Compressor) :=
  match c.inner with
  | .plain c => do
    let (compressed, c) ← c.compress t input
    return (compressed, ⟨.plain c⟩)
  | .dict c => do
    let (compressed, c) ← c.compress t input
    return (compressed, ⟨.dict c⟩)

end Compressor

structure Decompressor where
  inner : Impl.Decompressor

namespace Decompressor

def new : Decompressor := ⟨.new⟩

def withDict (dict : List UInt8) : Decompressor := ⟨.withDict dict⟩

def decompress (d : Decompressor) (t : Target) (input : List UInt8) (uncompressedSize : Nat) :
    Run (Except String (List UInt8)) := do
  return exactly uncompressedSize (← d.inner.decompress t input uncompressedSize)

end Decompressor

end Wasm

end Lz4rip.Impl
