import Lz4rip.Proof.Frame.Truncate
import Lz4rip.Spec.Hash
import Lz4rip.Spec.Stream

/-!
# The frame header codec

`FrameInfo::read` accepts the headers that `FrameInfo::write` writes and nothing
else (`read_iff`), whatever the hash is. Both are about `Spec.headerBytes`: `write`
puts it in front of its output (`write_ok`), `readSize` finds its length
(`readSize_header`), and each field of it is read back (`Codec`). So the two are
inverse to each other (`header_codec`).
-/

namespace Lz4rip.Proof.Frame

open Lz4rip.Impl
open Lz4rip.Impl.FrameInfo
open Spec (headerBytes headerLength)

variable {X : XxHash32} {info : FrameInfo}

/-! ## Fields -/

/-- `ofLe` and `toLe` are inverse to each other on `n` bytes. -/
structure Codec {α : Type} (n : Nat) (ofLe : List UInt8 → α) (toLe : α → List UInt8) : Prop where
  length (a : α) : (toLe a).length = n
  of_to (a : α) : ofLe (toLe a) = a
  to_of {bytes : List UInt8} (h : bytes.length = n) : toLe (ofLe bytes) = bytes

theorem codec32 : Codec 4 u32OfLe leOfU32 where
  length n := length_leBytes 4 n.toNat
  of_to n := by
    rw [u32OfLe, leOfU32, leNat_leBytes, ← UInt32.toNat_inj, UInt32.toNat_ofNat']
    have := n.toNat_lt
    omega
  to_of {bytes} h := by
    have hlt := leNat_lt bytes
    rw [h] at hlt
    rw [leOfU32, u32OfLe, UInt32.toNat_ofNat_of_lt' hlt, ← h, leBytes_leNat]

theorem codec64 : Codec 8 u64OfLe leOfU64 where
  length n := length_leBytes 8 n.toNat
  of_to n := by
    rw [u64OfLe, leOfU64, leNat_leBytes, ← UInt64.toNat_inj, UInt64.toNat_ofNat']
    have := n.toNat_lt
    omega
  to_of {bytes} h := by
    have hlt := leNat_lt bytes
    rw [h] at hlt
    rw [leOfU64, u64OfLe, UInt64.toNat_ofNat_of_lt' hlt, ← h, leBytes_leNat]

theorem readSlice_iff {n : Nat} {input bytes rest : List UInt8} :
    readSlice n input = .ok (bytes, rest) ↔ input = bytes ++ rest ∧ bytes.length = n := by
  constructor
  · intro h
    unfold readSlice at h
    split at h
    · cases h
    · obtain ⟨rfl, rfl⟩ := Prod.mk.inj (Except.ok.inj h)
      exact ⟨(List.take_append_drop n input).symm, by rw [List.length_take]; omega⟩
  · rintro ⟨rfl, rfl⟩
    rw [readSlice, if_neg (by rw [List.length_append]; omega), List.take_left, List.drop_left]

/-! ## The size of a block -/

theorem and_bit_eq_zero {n : Nat} (h : n < 2 ^ 31) :
    UInt32.ofNat n &&& BLOCK_UNCOMPRESSED_SIZE_BIT = 0 := by
  rw [← UInt32.toNat_inj, UInt32.toNat_and, UInt32.toNat_ofNat', Nat.mod_eq_of_lt (by omega)]
  show n &&& 2 ^ 31 = 0
  rw [Nat.and_two_pow, Nat.testBit_lt_two_pow h]
  rfl

/-- Bits that are apart are told from each other. -/
theorem or_and_of_apart {w b : UInt32} (h : w &&& b = 0) :
    (w ||| b) &&& b = b ∧ (w ||| b) &&& ~~~b = w := by
  have hbits := congrArg UInt32.toBitVec h
  rw [UInt32.toBitVec_and] at hbits
  have hbit (i : Nat) := congrArg (fun v => v.getLsbD i) hbits
  constructor
  · apply UInt32.eq_of_toBitVec_eq
    ext i hi
    simp
    grind
  · apply UInt32.eq_of_toBitVec_eq
    ext i hi
    have := hbit i
    simp at this ⊢
    grind

theorem blockInfo_read (size : UInt32) : BlockInfo.read (leOfU32 size) =
    if size = 0 then .ok .endMark
    else if size &&& BLOCK_UNCOMPRESSED_SIZE_BIT ≠ 0 then
      .ok (.uncompressed (size &&& ~~~BLOCK_UNCOMPRESSED_SIZE_BIT))
    else .ok (.compressed size) := by
  have hslice : FrameInfo.readSlice 4 (leOfU32 size) = .ok (leOfU32 size, []) :=
    readSlice_iff.mpr ⟨(List.append_nil _).symm, codec32.length size⟩
  rw [BlockInfo.read, hslice]
  show (if u32OfLe (leOfU32 size) = 0 then _ else _) = _
  rw [codec32.of_to]

/-- The size of a block, with the bit of a stored one or without. -/
theorem blockInfo_read_size {n : Nat} (hn : n < 2 ^ 31) :
    (UInt32.ofNat n).toNat = n ∧
    BlockInfo.read (leOfU32 (.ofNat n ||| BLOCK_UNCOMPRESSED_SIZE_BIT)) = .ok (.uncompressed (.ofNat n)) ∧
    (n ≠ 0 → BlockInfo.read (leOfU32 (.ofNat n)) = .ok (.compressed (.ofNat n))) := by
  have hand := and_bit_eq_zero hn
  obtain ⟨hbit, hrest⟩ := or_and_of_apart hand
  have htoNat : (UInt32.ofNat n).toNat = n := UInt32.toNat_ofNat_of_lt' (by show n < 2 ^ 32; omega)
  refine ⟨htoNat, ?_, fun hpos => ?_⟩
  · have hne : UInt32.ofNat n ||| BLOCK_UNCOMPRESSED_SIZE_BIT ≠ 0 := fun hz => by
      rw [hz] at hbit
      exact absurd hbit (by decide)
    rw [blockInfo_read, if_neg hne, if_pos (by rw [hbit]; decide), hrest]
  · have hne : UInt32.ofNat n ≠ 0 := fun hz => hpos (by rw [← htoNat, hz]; rfl)
    rw [blockInfo_read, if_neg hne, if_neg (not_not.mpr hand)]

/-- The bytes of an optional field. -/
def fieldBytes {α : Type} (toLe : α → List UInt8) (v : Option α) : List UInt8 := (v.map toLe).getD []

theorem Codec.readOptional_iff {α : Type} {n : Nat} {ofLe : List UInt8 → α} {toLe : α → List UInt8}
    (hc : Codec n ofLe toLe) {present : Bool} {input rest : List UInt8} {v : Option α} :
    readOptional present n ofLe input = .ok (v, rest) ↔
      v.isSome = present ∧ input = fieldBytes toLe v ++ rest := by
  constructor
  · intro h
    unfold readOptional at h
    split at h
    · rename_i hp
      split at h
      · cases h
      · rename_i bytes rest' hr
        obtain ⟨rfl, hlen⟩ := readSlice_iff.mp hr
        obtain ⟨rfl, rfl⟩ := Prod.mk.inj (Except.ok.inj h)
        exact ⟨hp.symm, by rw [fieldBytes, Option.map_some, Option.getD_some, hc.to_of hlen]⟩
    · rename_i hp
      obtain ⟨rfl, rfl⟩ := Prod.mk.inj (Except.ok.inj h)
      exact ⟨(Bool.not_eq_true _ ▸ hp).symm, rfl⟩
  · rintro ⟨rfl, rfl⟩
    cases v with
    | none => rfl
    | some a =>
      have hr : readSlice n (fieldBytes toLe (some a) ++ rest) = .ok (toLe a, rest) :=
        readSlice_iff.mpr ⟨rfl, hc.length a⟩
      rw [readOptional, Option.isSome_some, if_pos rfl, hr]
      simp only [hc.of_to]

/-! ## The flags and the block size -/

/-- The flag byte that these flags give. -/
def flagByte (blockChecksums contentChecksum independent contentSize dictId : Bool) : UInt8 :=
  FLG_SUPPORTED_VERSION_BITS |||
  (if blockChecksums then FLG_BLOCK_CHECKSUMS else 0) |||
  (if contentChecksum then FLG_CONTENT_CHECKSUM else 0) |||
  (if independent then FLG_INDEPENDENT_BLOCKS else 0) |||
  (if contentSize then FLG_CONTENT_SIZE else 0) |||
  (if dictId then FLG_DICTIONARY_ID else 0)

theorem flg_eq (info : FrameInfo) : info.flg = flagByte info.blockChecksums info.contentChecksum
    (decide (info.blockMode = .independent)) info.contentSize.isSome info.dictId.isSome := by
  simp only [flg, flagByte, decide_eq_true_eq]

/-- What `read` makes of a flag byte. -/
structure Parses (flg : UInt8) (blockChecksums contentChecksum independent contentSize dictId : Bool) :
    Prop where
  version : flg &&& FLG_VERSION_MASK = FLG_SUPPORTED_VERSION_BITS
  reserved : flg &&& FLG_RESERVED_MASK = 0
  blockChecksums : decide (flg &&& FLG_BLOCK_CHECKSUMS ≠ 0) = blockChecksums
  contentChecksum : decide (flg &&& FLG_CONTENT_CHECKSUM ≠ 0) = contentChecksum
  independent : decide (flg &&& FLG_INDEPENDENT_BLOCKS ≠ 0) = independent
  contentSize : decide (flg &&& FLG_CONTENT_SIZE ≠ 0) = contentSize
  dictId : decide (flg &&& FLG_DICTIONARY_ID ≠ 0) = dictId

theorem flagByte_parses (bc cc ind cs di : Bool) :
    Parses (flagByte bc cc ind cs di) bc cc ind cs di := by
  constructor <;> revert bc cc ind cs di <;> decide

theorem flg_parses (info : FrameInfo) : Parses info.flg info.blockChecksums info.contentChecksum
    (decide (info.blockMode = .independent)) info.contentSize.isSome info.dictId.isSome :=
  flg_eq info ▸ flagByte_parses _ _ _ _ _

/-- The flags that are read from a byte give the byte. -/
theorem Parses.eq_flagByte {flg : UInt8} {bc cc ind cs di : Bool} (h : Parses flg bc cc ind cs di) :
    flg = flagByte bc cc ind cs di := by
  obtain ⟨hv, hr, rfl, rfl, rfl, rfl, rfl⟩ := h
  obtain ⟨⟨i⟩⟩ := flg
  revert i
  decide +kernel

/-- The block size byte. -/
def blockSizeByte (b : BlockSize) : UInt8 := b.toByte <<< BD_BLOCK_SIZE_MASK_RSHIFT

theorem readBlockSize_iff {bd : UInt8} {b : BlockSize} :
    bd &&& BD_RESERVED_MASK = 0 ∧ readBlockSize bd = .ok b ↔ b ≠ .auto ∧ bd = blockSizeByte b := by
  constructor
  · rintro ⟨hr, h⟩
    have hbd : bd = ((bd &&& BD_BLOCK_SIZE_MASK) >>> BD_BLOCK_SIZE_MASK_RSHIFT) <<<
        BD_BLOCK_SIZE_MASK_RSHIFT := by
      clear h
      obtain ⟨⟨i⟩⟩ := bd
      revert i
      decide +kernel
    unfold readBlockSize at h
    split at h
    case h_5 => cases h
    all_goals
      rename_i hcode
      obtain rfl := Except.ok.inj h
      rw [hcode] at hbd
      exact ⟨by decide, hbd⟩
  · rintro ⟨hb, rfl⟩
    cases b with
    | auto => exact absurd rfl hb
    | _ => exact ⟨by decide, by decide⟩

/-! ## The header -/

theorem descriptor_eq (info : FrameInfo) : info.descriptor = [info.flg, blockSizeByte info.blockSize] ++
    fieldBytes leOfU64 info.contentSize ++ fieldBytes leOfU32 info.dictId := rfl

theorem length_fieldBytes {α : Type} {n : Nat} {ofLe : List UInt8 → α} {toLe : α → List UInt8}
    (hc : Codec n ofLe toLe) (v : Option α) :
    (fieldBytes toLe v).length = if v.isSome then n else 0 := by
  cases v with
  | none => rfl
  | some a => exact hc.length a

theorem writeSize_eq (info : FrameInfo) : info.writeSize =
    7 + (if info.contentSize.isSome then 8 else 0) + if info.dictId.isSome then 4 else 0 := by
  simp only [writeSize, MIN_FRAME_INFO_SIZE]
  split <;> split <;> rfl

theorem writeSize_range (info : FrameInfo) : 7 ≤ info.writeSize ∧ info.writeSize ≤ 19 := by
  rw [writeSize_eq]
  split <;> split <;> omega

theorem length_headerBytes (X : XxHash32) (info : FrameInfo) :
    (headerBytes X info).length = info.writeSize := by
  have h64 := length_fieldBytes codec64 info.contentSize
  have h32 := length_fieldBytes codec32 info.dictId
  simp only [headerBytes, descriptor_eq, List.length_append, h64, h32, codec32.length,
    List.length_cons, List.length_nil, writeSize_eq]
  omega

/-- The descriptor is what `read` hashes, whatever comes behind it. -/
theorem seg_descriptor (info : FrameInfo) (c : UInt8) (rest : List UInt8) :
    seg (leOfU32 LZ4F_MAGIC_NUMBER ++ info.descriptor ++ [c] ++ rest) 4
      ((leOfU32 LZ4F_MAGIC_NUMBER ++ info.descriptor ++ [c] ++ rest).length - rest.length - 1 - 4) =
      info.descriptor := by
  have hm := codec32.length LZ4F_MAGIC_NUMBER
  have hlen : (leOfU32 LZ4F_MAGIC_NUMBER ++ info.descriptor ++ [c] ++ rest).length - rest.length -
      1 - 4 = info.descriptor.length := by
    simp only [List.length_append, hm, List.length_singleton]
    omega
  have hseg := seg_append_right (leOfU32 LZ4F_MAGIC_NUMBER) (info.descriptor ++ ([c] ++ rest)) 0
    info.descriptor.length
  rw [hm] at hseg
  rw [hlen, List.append_assoc, List.append_assoc, hseg, seg, List.drop_zero, List.take_left]

theorem bind_of_ok {α β : Type} {x : Except Error α} {f : α → Except Error β} {a : α} {b : β}
    (hx : x = .ok a) (hf : f a = .ok b) : (x >>= f) = .ok b := by
  rw [hx]
  exact hf

theorem readDescriptor_headerBytes (h : info.blockSize ≠ .auto) (rest : List UInt8) :
    readDescriptor X (headerBytes X info ++ rest)
      (info.descriptor ++ [headerChecksum X info.descriptor] ++ rest) = .ok info := by
  obtain ⟨hv, hr, hbc, hcc, hind, hcs, hdi⟩ := flg_parses info
  obtain ⟨hb, hbs⟩ := readBlockSize_iff.mpr ⟨h, rfl⟩
  have hmode : (if info.flg &&& FLG_INDEPENDENT_BLOCKS ≠ 0 then BlockMode.independent else .linked) =
      info.blockMode := by
    rw [decide_eq_decide] at hind
    split
    · exact (hind.mp ‹_›).symm
    · cases hm : info.blockMode with
      | independent => exact absurd (hind.mpr hm) ‹_›
      | linked => rfl
  have hsum : headerChecksum X (seg (headerBytes X info ++ rest) 4
      ((headerBytes X info ++ rest).length - rest.length - 1 - 4)) =
      headerChecksum X info.descriptor := by rw [headerBytes, seg_descriptor]
  rw [descriptor_eq, List.append_assoc, List.append_assoc, List.append_assoc]
  refine bind_of_ok (readSlice_iff.mpr ⟨rfl, rfl⟩) ?_
  simp only [List.getD_cons_zero, List.getD_cons_succ]
  rw [if_neg (not_not.mpr hv), if_neg (not_or.mpr ⟨not_not.mpr hr, not_not.mpr hb⟩)]
  refine bind_of_ok hbs ?_
  refine bind_of_ok (codec64.readOptional_iff.mpr ⟨hcs.symm, rfl⟩) ?_
  refine bind_of_ok (codec32.readOptional_iff.mpr ⟨hdi.symm, rfl⟩) ?_
  refine bind_of_ok (readSlice_iff.mpr ⟨rfl, rfl⟩) ?_
  simp only [List.getD_cons_zero]
  rw [← descriptor_eq, hsum, if_neg (not_not.mpr rfl), hmode, hcc, hbc]

theorem readDescriptor_ok {originalInput input : List UInt8}
    (h : readDescriptor X originalInput input = .ok info) :
    info.blockSize ≠ .auto ∧ ∃ c rest, input = info.descriptor ++ [c] ++ rest ∧
      c = headerChecksum X (seg originalInput 4 (originalInput.length - rest.length - 1 - 4)) := by
  obtain ⟨⟨bytes, input₁⟩, hbytes, h⟩ := bind_ok h
  dsimp only at h
  split at h
  · cases h
  rename_i hv
  split at h
  · cases h
  rename_i hr
  obtain ⟨blockSize, hbs, h⟩ := bind_ok h
  obtain ⟨⟨contentSize, input₂⟩, hcs, h⟩ := bind_ok h
  obtain ⟨⟨dictId, input₃⟩, hdi, h⟩ := bind_ok h
  obtain ⟨⟨sum, rest⟩, hsum, h⟩ := bind_ok h
  dsimp only at h
  split at h
  · cases h
  rename_i hc
  obtain rfl := Except.ok.inj h
  obtain ⟨hin, hlen⟩ := readSlice_iff.mp hbytes
  obtain ⟨hcs, hin₁⟩ := codec64.readOptional_iff.mp hcs
  obtain ⟨hdi, hin₂⟩ := codec32.readOptional_iff.mp hdi
  obtain ⟨hin₃, hlen'⟩ := readSlice_iff.mp hsum
  obtain ⟨hr, hb⟩ := not_or.mp hr
  obtain ⟨hne, hbd⟩ := readBlockSize_iff.mp ⟨not_not.mp hb, hbs⟩
  have hflg : bytes.getD 0 0 = _ := Parses.eq_flagByte
    ⟨not_not.mp hv, not_not.mp hr, rfl, rfl, rfl, hcs.symm, hdi.symm⟩
  have hpair : bytes = [bytes.getD 0 0, bytes.getD 1 0] := by
    match bytes, hlen with
    | [_, _], _ => rfl
  have hone : sum = [sum.getD 0 0] := by
    match sum, hlen' with
    | [_], _ => rfl
  refine ⟨hne, sum.getD 0 0, rest, ?_, (not_not.mp hc).symm⟩
  have hmode (p : Prop) [Decidable p] :
      decide ((if p then BlockMode.independent else .linked) = .independent) = decide p := by
    split <;> simp [*]
  rw [descriptor_eq, flg_eq, hmode, ← hflg, ← hbd, ← hpair, ← hone, List.append_assoc,
    List.append_assoc, List.append_assoc, ← hin₃, ← hin₂, ← hin₁, hin]

theorem magic_ne_skippable : isSkippableMagic LZ4F_MAGIC_NUMBER = false := by decide

/-- The headers that are accepted are the ones that are written. -/
theorem read_iff {bytes : List UInt8} : FrameInfo.read X bytes = .ok info ↔
    info.blockSize ≠ .auto ∧ ∃ rest, bytes = headerBytes X info ++ rest := by
  constructor
  · intro h
    obtain ⟨⟨magic, input⟩, hmagic, h⟩ := bind_ok h
    dsimp only at h
    split at h
    · obtain ⟨_, _, h⟩ := bind_ok h
      cases h
    split at h
    · cases h
    rename_i hm
    obtain ⟨rfl, hlen⟩ := readSlice_iff.mp hmagic
    obtain ⟨hne, c, rest, rfl, hc⟩ := readDescriptor_ok h
    have hmagic : magic = leOfU32 LZ4F_MAGIC_NUMBER := by
      rw [← not_not.mp hm, codec32.to_of hlen]
    have hseg : seg (magic ++ (info.descriptor ++ [c] ++ rest)) 4
        ((magic ++ (info.descriptor ++ [c] ++ rest)).length - rest.length - 1 - 4) =
        info.descriptor := by
      rw [← List.append_assoc, ← List.append_assoc, hmagic, seg_descriptor]
    rw [hseg] at hc
    exact ⟨hne, rest, by simp only [headerBytes, hmagic, hc, List.append_assoc]⟩
  · rintro ⟨hne, rest, rfl⟩
    have hslice : readSlice 4 (headerBytes X info ++ rest) = .ok (leOfU32 LZ4F_MAGIC_NUMBER,
        info.descriptor ++ [headerChecksum X info.descriptor] ++ rest) :=
      readSlice_iff.mpr ⟨by simp only [headerBytes, List.append_assoc], codec32.length _⟩
    refine bind_of_ok hslice ?_
    dsimp only
    rw [codec32.of_to, magic_ne_skippable, if_neg Bool.false_ne_true, if_neg (not_not.mpr rfl)]
    exact readDescriptor_headerBytes hne rest

theorem headerLength_flg (info : FrameInfo) : headerLength info.flg = info.writeSize := by
  obtain ⟨-, -, -, -, -, hcs, hdi⟩ := flg_parses info
  have hcs : (info.flg &&& FLG_CONTENT_SIZE ≠ 0) = (info.contentSize.isSome = true) := by
    rw [← hcs, decide_eq_true_eq]
  have hdi : (info.flg &&& FLG_DICTIONARY_ID ≠ 0) = (info.dictId.isSome = true) := by
    rw [← hdi, decide_eq_true_eq]
  simp only [headerLength, writeSize, hcs, hdi, MIN_FRAME_INFO_SIZE]
  split <;> split <;> rfl

/-- `readSize` needs the magic number and the flags. -/
theorem readSize_eq {bytes : List UInt8} (h : MIN_FRAME_INFO_SIZE ≤ bytes.length)
    (hm : bytes.take 4 = leOfU32 LZ4F_MAGIC_NUMBER) :
    readSize bytes = .ret (.ok (headerLength (bytes.getD 4 0))) := by
  have h' : 7 ≤ bytes.length := h
  have hchunk : Run.chunk bytes 0 4 = .ret (leOfU32 LZ4F_MAGIC_NUMBER) := by
    rw [Run.chunk_eq (by omega), seg, List.drop_zero, hm]
  rw [readSize, hchunk, Run.ret_bind, codec32.of_to]
  dsimp only
  rw [magic_ne_skippable, if_neg (Nat.not_lt.mpr h), if_neg Bool.false_ne_true,
    if_neg (not_not.mpr rfl), Run.index_eq (by omega), Run.ret_bind, List.getElem_eq_getD 0]
  simp only [headerLength, MIN_FRAME_INFO_SIZE, Run.pure_eq]
  split <;> split <;> rfl

/-- The first bytes of a header tell its length. -/
theorem readSize_header {bytes rest : List UInt8} (h : MIN_FRAME_INFO_SIZE ≤ bytes.length)
    (hb : bytes <+: headerBytes X info ++ rest) :
    readSize bytes = .ret (.ok (headerBytes X info).length) := by
  have h' : 7 ≤ bytes.length := h
  have hm := codec32.length LZ4F_MAGIC_NUMBER
  obtain ⟨more, hmore⟩ := hb
  have htake : bytes.take 5 = leOfU32 LZ4F_MAGIC_NUMBER ++ [info.flg] := by
    have hpre : bytes.take 5 = (bytes ++ more).take 5 :=
      (List.take_append_of_le_length (by omega)).symm
    rw [hpre, hmore]
    rfl
  have hflg : bytes.getD 4 0 = info.flg := by
    rw [List.getD_eq_getElem?_getD, ← List.getElem?_take_of_lt (show 4 < 5 by omega), htake]
    rfl
  rw [readSize_eq h, hflg, headerLength_flg, length_headerBytes]
  rw [← Nat.min_eq_left (show 4 ≤ 5 by omega), ← List.take_take, htake, ← hm, List.take_left]

theorem toByte_range {b : BlockSize} (h : b ≠ .auto) : 4 ≤ b.toByte ∧ b.toByte ≤ 7 := by
  cases b with
  | auto => exact absurd rfl h
  | _ => exact ⟨by decide, by decide⟩

/-- `write` puts the header in front of what the output held. -/
theorem write_ok (h : info.blockSize ≠ .auto) {output : List UInt8}
    (ho : info.writeSize ≤ output.length) :
    FrameInfo.write X info output = .ret (.ok info.writeSize,
      headerBytes X info ++ output.drop info.writeSize) := by
  have hlen := length_headerBytes X info
  have hmax : info.writeSize ≤ MAX_FRAME_INFO_SIZE := (writeSize_range info).2
  have hstore : Run.storeAt output 0 (headerBytes X info) =
      .ret (headerBytes X info ++ output.drop info.writeSize) := by
    rw [Run.storeAt, if_pos (by omega), store, List.take_zero, List.nil_append, Nat.zero_add, hlen]
  have hassert : Run.assert ((headerBytes X info).length = info.writeSize) = .ret () := if_pos hlen
  rw [FrameInfo.write, if_neg (by omega), Run.assert, if_pos hmax, Run.ret_bind,
    if_neg (not_not.mpr (toByte_range h)), ← headerBytes]
  dsimp only
  rw [hassert, Run.ret_bind, hstore, Run.ret_bind, Run.pure_eq]

/-! ## The codec -/

/-- The fields that are checked of a header of `n` bytes. -/
structure WellFormed (X : XxHash32) (n : Nat) (bytes : List UInt8) : Prop where
  length : n ≤ bytes.length
  magic : u32OfLe (bytes.take 4) = LZ4F_MAGIC_NUMBER
  version : bytes.getD 4 0 &&& FLG_VERSION_MASK = FLG_SUPPORTED_VERSION_BITS
  reserved_flg : bytes.getD 4 0 &&& FLG_RESERVED_MASK = 0
  reserved_bd : bytes.getD 5 0 &&& BD_RESERVED_MASK = 0
  blockSize : 4 ≤ (bytes.getD 5 0 &&& BD_BLOCK_SIZE_MASK) >>> BD_BLOCK_SIZE_MASK_RSHIFT
  checksum : bytes.getD (n - 1) 0 = headerChecksum X (seg bytes 4 (n - 1 - 4))

theorem blockSizeByte_code {b : BlockSize} (h : b ≠ .auto) :
    4 ≤ (blockSizeByte b &&& BD_BLOCK_SIZE_MASK) >>> BD_BLOCK_SIZE_MASK_RSHIFT := by
  cases b with
  | auto => exact absurd rfl h
  | _ => decide

theorem wellFormed_headerBytes (h : info.blockSize ≠ .auto) (rest : List UInt8) :
    WellFormed X info.writeSize (headerBytes X info ++ rest) := by
  have hlen := length_headerBytes X info
  have hseg := seg_descriptor info (headerChecksum X info.descriptor) rest
  obtain ⟨hv, hr, -⟩ := flg_parses info
  obtain ⟨hb, hbs⟩ := readBlockSize_iff.mpr ⟨h, rfl⟩
  rw [← headerBytes, List.length_append, hlen, Nat.add_sub_cancel] at hseg
  refine ⟨by rw [List.length_append]; omega, codec32.of_to _, hv, hr, hb, blockSizeByte_code h, ?_⟩
  have hlast : (headerBytes X info)[info.writeSize - 1]? =
      some (headerChecksum X info.descriptor) := by
    rw [← hlen, ← List.getLast?_eq_getElem?, headerBytes, List.getLast?_concat]
  have hrange := writeSize_range info
  rw [hseg, List.getD_eq_getElem?_getD, List.getElem?_append_left (by omega), hlast,
    Option.getD_some]

/-- `write` and `read` are inverse to each other. -/
theorem header_codec (X : XxHash32) :
    (∀ info : FrameInfo, info.blockSize ≠ .auto → ∃ b : List UInt8, b.length = info.writeSize ∧
      (∀ output, info.writeSize ≤ output.length → FrameInfo.write X info output =
        .ret (.ok info.writeSize, b ++ output.drop info.writeSize)) ∧
      readSize (b.take MIN_FRAME_INFO_SIZE) = .ret (.ok b.length) ∧
      FrameInfo.read X b = .ok info) ∧
    (∀ (bytes : List UInt8) (size : Nat) (info : FrameInfo), readSize bytes = .ret (.ok size) →
      FrameInfo.read X (bytes.take size) = .ok info →
      (bytes.take size).length = info.writeSize ∧
      ∀ output, info.writeSize ≤ output.length → FrameInfo.write X info output =
        .ret (.ok info.writeSize, bytes.take size ++ output.drop info.writeSize)) ∧
    ∀ (bytes : List UInt8) (info : FrameInfo), FrameInfo.read X bytes = .ok info →
      WellFormed X info.writeSize bytes := by
  refine ⟨fun info h => ⟨headerBytes X info, length_headerBytes X info, fun _ => write_ok h, ?_, ?_⟩,
    fun bytes size info hs hr => ?_, fun bytes info hr => ?_⟩
  · have hlen := length_headerBytes X info
    have hrange := writeSize_range info
    have hpre : (headerBytes X info).take MIN_FRAME_INFO_SIZE <+: headerBytes X info ++ [] := by
      rw [List.append_nil]
      exact List.take_prefix _ _
    refine readSize_header ?_ hpre
    rw [List.length_take, MIN_FRAME_INFO_SIZE]
    omega
  · exact read_iff.mpr ⟨h, [], (List.append_nil _).symm⟩
  · obtain ⟨hne, rest, hrest⟩ := read_iff.mp hr
    have hlen := length_headerBytes X info
    have hrange := writeSize_range info
    have hbytes : bytes = headerBytes X info ++ (rest ++ bytes.drop size) := by
      rw [← List.append_assoc, ← hrest, List.take_append_drop]
    have hsize : size = (headerBytes X info).length := by
      have hle : MIN_FRAME_INFO_SIZE ≤ bytes.length := by
        rw [hbytes, List.length_append, MIN_FRAME_INFO_SIZE]
        omega
      have hpre : bytes <+: headerBytes X info ++ (rest ++ bytes.drop size) :=
        ⟨[], by rw [List.append_nil, ← hbytes]⟩
      rw [readSize_header hle hpre] at hs
      exact (Except.ok.inj (Run.ret.inj hs)).symm
    have htake : bytes.take size = headerBytes X info := by
      rw [hbytes, hsize, List.take_left]
    rw [htake]
    exact ⟨hlen, fun _ => write_ok hne⟩
  · obtain ⟨hne, rest, rfl⟩ := read_iff.mp hr
    exact wellFormed_headerBytes hne rest

/-- A header with a content size and a dictionary id. -/
theorem header_codec_full :
    let info : FrameInfo := ⟨some 1000, some 7, .max256KB, .linked, true, true⟩
    let bytes : List UInt8 := [0x04, 0x22, 0x4D, 0x18, 0x5D, 0x50, 0xE8, 3, 0, 0, 0, 0, 0, 0, 7, 0, 0, 0, 0x2B]
    (∃ b : List UInt8, b.length = 19 ∧ FrameInfo.read Spec.xxHash32 b = .ok info) ∧
    (∀ output, 19 ≤ output.length → FrameInfo.write Spec.xxHash32 info output =
      .ret (.ok 19, bytes ++ output.drop 19)) ∧
    WellFormed Spec.xxHash32 19 bytes := by
  intro info bytes
  obtain ⟨hwrite, hread, hformed⟩ := header_codec Spec.xxHash32
  have hb : FrameInfo.read Spec.xxHash32 bytes = .ok info := by decide
  refine ⟨?_, (hread bytes 19 info (by decide) hb).2, hformed bytes info hb⟩
  obtain ⟨b, hlen, -, -, hr⟩ := hwrite info (by decide)
  exact ⟨b, hlen, hr⟩

end Lz4rip.Proof.Frame
