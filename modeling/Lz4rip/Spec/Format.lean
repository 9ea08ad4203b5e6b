import Lz4rip.Impl.Frame.Header

/-!
# Where frames end

The flags in the header of a frame, and the sizes in front of its blocks, say
where the frame ends. `Frames` is what is a whole number of frames by these
alone, whatever is in them.
-/

namespace Lz4rip.Spec

open Lz4rip.Impl

/-- The length of a header with the flags `flg`. -/
def headerLength (flg : UInt8) : Nat :=
  MIN_FRAME_INFO_SIZE + (if flg &&& FLG_CONTENT_SIZE ≠ 0 then 8 else 0) +
    (if flg &&& FLG_DICTIONARY_ID ≠ 0 then 4 else 0)

/-- The length of a checksum that is there when its flag is set. -/
def checksumLength (flg mask : UInt8) : Nat := if flg &&& mask ≠ 0 then 4 else 0

/-- The blocks, the end mark and the checksum of a frame with the flags `flg`. -/
inductive Body (flg : UInt8) : List UInt8 → Prop where
  | endMark {mark checksum : List UInt8} (hm : mark.length = BLOCK_INFO_SIZE) (hz : u32OfLe mark = 0)
    (hc : checksum.length = checksumLength flg FLG_CONTENT_CHECKSUM) : Body flg (mark ++ checksum)
  | block {size data checksum rest : List UInt8} (hs : size.length = BLOCK_INFO_SIZE)
    (hz : u32OfLe size ≠ 0)
    (hd : data.length = (u32OfLe size &&& ~~~BLOCK_UNCOMPRESSED_SIZE_BIT).toNat)
    (hc : checksum.length = checksumLength flg FLG_BLOCK_CHECKSUMS) (hb : Body flg rest) :
    Body flg (size ++ data ++ checksum ++ rest)

/-- A whole number of frames. -/
inductive Frames : List UInt8 → Prop where
  | nil : Frames []
  | frame {header body rest : List UInt8} (hm : u32OfLe (header.take 4) = LZ4F_MAGIC_NUMBER)
    (hl : header.length = headerLength (header.getD 4 0)) (hb : Body (header.getD 4 0) body)
    (hr : Frames rest) : Frames (header ++ body ++ rest)

theorem Body.length {flg : UInt8} {body : List UInt8} (h : Body flg body) : 4 ≤ body.length := by
  cases h with
  | endMark hm =>
    rw [List.length_append, hm]
    exact Nat.le_add_right ..
  | block hs =>
    simp only [List.length_append, hs, BLOCK_INFO_SIZE]
    omega

/-- A frame is eleven bytes at least. -/
theorem Frames.length {bytes : List UInt8} (h : Frames bytes) : bytes = [] ∨ 11 ≤ bytes.length := by
  cases h with
  | nil => exact .inl rfl
  | frame _ hl hb _ =>
    have hbody := hb.length
    unfold headerLength at hl
    simp only [List.length_append, MIN_FRAME_INFO_SIZE] at hl ⊢
    omega

end Lz4rip.Spec
