import Lz4rip.Framework.Parse
import Lz4rip.Proof.Frame.Dictionary
import Lz4rip.Proof.Frame.Drain
import Lz4rip.Proof.Frame.Header
import Lz4rip.Proof.Frame.Limit
import Lz4rip.Proof.Frame.Refine
import Lz4rip.Proof.Frame.Truncate
import Lz4rip.Spec.Hash
import Lz4rip.Spec.Text

/-!
# Decoding a stream of frames

What the naive decoder makes of a stream (`Spec.Text`): it reads the header
(`readHeader_gives`), each block (`nextBlock_gives`) and the end of a frame, and so
gives the content of all frames, up to the first block that makes the output longer
than the limit (`Text.reads`, `Text.left`).
-/

namespace Lz4rip.Proof.Frame

open Lz4rip.Impl
open Proc (Consumes Rejects)
open Spec (BlockText Frame FrameText Naive Settings Text blockBytes blockLimit endBytes headerBytes)

variable {X : XxHash32} {S : Settings}

/-! ## Headers -/

/-- What is behind the data of a block. -/
def sumBytes (X : XxHash32) (info : FrameInfo) (data : List UInt8) : List UInt8 :=
  if info.blockChecksums then leOfU32 (X.oneshot 0 data) else []

theorem blockBytes_eq (X : XxHash32) (info : FrameInfo) (size : UInt32) (data : List UInt8) :
    blockBytes X info size data = leOfU32 size ++ (data ++ sumBytes X info data) := List.append_assoc ..

/-- The reader is a slice: what is left of it. -/
abbrev Gives {α : Type} (x : Reads (List UInt8) α) (bs : List UInt8) (a : α) : Prop := Consumes Eq x bs a

/-- And what makes it fail. -/
abbrev Refused {α : Type} (x : Reads (List UInt8) α) (bs : List UInt8) (e : Error) : Prop :=
  Rejects Eq x bs e

theorem readFull_gives {n : Nat} {bs : List UInt8} (h : bs.length = n) : Gives (readFull n) bs bs := by
  rintro _ rest rfl
  subst h
  refine ⟨rest, ?_, rfl⟩
  rw [readFull_slice, if_pos (by rw [List.length_append]; exact Nat.le_add_right _ _), List.take_left,
    List.drop_left]

theorem readRest_gives {n required : Nat} {bs : List UInt8} (h : bs.length = required - n) :
    Gives (readRest n required) bs bs := by
  rintro _ rest rfl
  refine ⟨rest, ?_, rfl⟩
  rw [readRest_slice, ← h, if_pos (by rw [List.length_append]; exact Nat.le_add_right _ _),
    List.take_left, List.drop_left]

theorem readMagic_gives {bs : List UInt8} (h : bs.length = MAGIC_NUMBER_SIZE) : Gives readMagic bs bs := by
  have hne (rest : List UInt8) : bs ++ rest ≠ [] := fun hnil => by
    rw [(List.append_eq_nil_iff.mp hnil).1] at h
    cases h
  rintro _ rest rfl
  refine ⟨rest, ?_, rfl⟩
  rw [readMagic_slice, if_neg (hne rest), ← h,
    if_pos (by rw [List.length_append]; exact Nat.le_add_right _ _), List.take_left, List.drop_left]

/-- The magic number, what is in every header, and the rest. -/
theorem readHeader_gives {info : FrameInfo} (hne : info.blockSize ≠ .auto) :
    Gives (readHeader X) (headerBytes X info) (some (info, (headerBytes X info).length)) := by
  have hlen : MIN_FRAME_INFO_SIZE ≤ (headerBytes X info).length := by
    rw [length_headerBytes]
    exact (writeSize_range info).1
  have hread : FrameInfo.read X (headerBytes X info) = .ok info :=
    read_iff.mpr ⟨hne, [], (List.append_nil _).symm⟩
  have hprefix : (headerBytes X info).take 7 <+: headerBytes X info ++ [] :=
    (List.take_prefix _ _).trans (List.prefix_append _ _)
  have hsize := readSize_header (by rw [List.length_take]; exact Nat.le_min.mpr ⟨Nat.le_refl 7, hlen⟩) hprefix
  generalize headerBytes X info = bytes at hlen hread hsize ⊢
  have hlen : 7 ≤ bytes.length := hlen
  have hfirst : bytes.take 4 ++ (bytes.drop 4).take 3 = bytes.take 7 := by rw [← List.take_add]
  have hsplit : bytes.take 4 ++ ((bytes.drop 4).take 3 ++ bytes.drop 7) = bytes := by
    rw [← List.append_assoc, hfirst, List.take_append_drop]
  have hmagic : bytes.take 4 ≠ [] := fun hnil => by
    have := congrArg List.length hnil
    rw [List.length_take, List.length_nil] at this
    omega
  have hall : Gives (readHeader X) (bytes.take 4 ++ ((bytes.drop 4).take 3 ++ bytes.drop 7))
      (some (info, bytes.length)) := by
    unfold readHeader
    refine .bind (readMagic_gives (by rw [List.length_take]; exact Nat.min_eq_left (by omega))) ?_
    rw [if_neg hmagic]
    refine .bind (readFull_gives (by rw [List.length_take, List.length_drop]; exact Nat.min_eq_left (by omega))) ?_
    rw [hfirst]
    refine .andThen (.lift hsize) (.andThen (.ofExcept rfl) ?_)
    refine .last (readRest_gives List.length_drop) ?_
    rw [List.take_append_drop]
    exact .andThen (.ofExcept hread) (.pure _)
  rwa [hsplit] at hall

/-! ## Blocks -/

theorem readBlockInfo_gives {size : UInt32} {info : BlockInfo}
    (h : BlockInfo.read (leOfU32 size) = .ok info) :
    Gives readBlockInfo (leOfU32 size) info := by
  unfold readBlockInfo
  exact .last (readFull_gives (codec32.length size)) (.ofExcept h)

theorem readChecksum_gives (sum : UInt32) : Gives readChecksum (leOfU32 sum) sum := by
  refine .last (readFull_gives (codec32.length sum)) ?_
  rw [codec32.of_to]
  exact .pure sum

theorem verifyData_gives (hX : Spec.Lawful X) (info : FrameInfo) (data : List UInt8) :
    Gives (Spec.verifyData X info data) (sumBytes X info data) () := by
  unfold Spec.verifyData sumBytes
  by_cases hc : info.blockChecksums = true
  · rw [if_pos hc, if_pos hc]
    refine .last (readChecksum_gives _) (.ofExcept ?_)
    rw [checkBlockChecksum, hX.oneshot, if_neg (fun h => h rfl)]
  · rw [if_neg hc, if_neg hc]
    exact .pure ()

theorem readData_gives (hX : Spec.Lawful X) (info : FrameInfo) {n : Nat} {data : List UInt8}
    (hn : data.length = n) :
    Gives (Spec.readData X info n) (data ++ sumBytes X info data) data :=
  .bind (readFull_gives hn) (.last (verifyData_gives hX info data) (.pure data))

section

variable {f : Frame} {b data : List UInt8} {out n : Nat} {e : Error}

/-- A stored block is counted before it is read. -/
theorem storedBlock_gives (hX : Spec.Lawful X) (hle : b.length ≤ blockLimit f.info.blockSize)
    (hout : checkOutputLen S.target S.maxOutput out b.length = .ok n) :
    Gives (Spec.storedBlock X S f out b.length) (b ++ sumBytes X f.info b) (b, n) :=
  .andThen (.refuse (Nat.not_lt_of_le hle)) (.andThen (.ofExcept hout)
    (.last (readData_gives hX f.info rfl) (.pure (b, n))))

theorem storedBlock_rejects (hle : b.length ≤ blockLimit f.info.blockSize)
    (hout : checkOutputLen S.target S.maxOutput out b.length = .error e) :
    Refused (Spec.storedBlock X S f out b.length) [] e :=
  .andThen (.refuse (Nat.not_lt_of_le hle)) (Rejects.ofExcept hout).then

theorem compressedBlock_gives (hX : Spec.Lawful X) (hle : data.length ≤ blockLimit f.info.blockSize)
    (hdecode : Spec.decodeBlock S f data = .ok b)
    (hout : checkOutputLen S.target S.maxOutput out b.length = .ok n) :
    Gives (Spec.compressedBlock X S f out data.length) (data ++ sumBytes X f.info data) (b, n) :=
  .andThen (.refuse (Nat.not_lt_of_le hle)) (.last (readData_gives hX f.info rfl)
    (.andThen (.ofExcept hdecode) (.andThen (.ofExcept hout) (.pure (b, n)))))

theorem compressedBlock_rejects (hX : Spec.Lawful X) (hle : data.length ≤ blockLimit f.info.blockSize)
    (hdecode : Spec.decodeBlock S f data = .ok b)
    (hout : checkOutputLen S.target S.maxOutput out b.length = .error e) :
    Refused (Spec.compressedBlock X S f out data.length) (data ++ sumBytes X f.info data) e := by
  refine Rejects.andThen (.refuse (Nat.not_lt_of_le hle)) ?_
  rw [← List.append_nil (data ++ _)]
  exact Rejects.bind (readData_gives hX f.info rfl)
    (.andThen (.ofExcept hdecode) (Rejects.ofExcept hout).then)

/-- A block decodes to what it holds; or it makes the output too long. -/
theorem nextBlock_gives (out : Nat) (hX : Spec.Lawful X) (hle : b.length ≤ blockLimit f.info.blockSize)
    {more : List UInt8} (h : BlockText X S.dict f b more) :
    (∀ n, checkOutputLen S.target S.maxOutput out b.length = .ok n →
      Gives (Spec.nextBlock X S f out) more (some (b, n))) ∧
    ∀ e, checkOutputLen S.target S.maxOutput out b.length = .error e →
      Refused (Spec.nextBlock X S f out) more e := by
  have hlimit := blockLimit_le f.info.blockSize
  unfold Spec.nextBlock
  cases h with
  | stored =>
    obtain ⟨htoNat, hread, -⟩ := blockInfo_read_size (n := b.length) (by omega)
    rw [blockBytes_eq]
    refine ⟨fun n hout => .bind (readBlockInfo_gives hread) ?_,
      fun e hout => .bind (readBlockInfo_gives hread) ?_⟩
    · show Gives (do
        let b ← Spec.storedBlock X S f out (UInt32.ofNat b.length).toNat
        return some b) _ _
      rw [htoNat]
      exact .last (storedBlock_gives hX hle hout) (.pure _)
    · show Refused (do
        let b ← Spec.storedBlock X S f out (UInt32.ofNat b.length).toNat
        return some b) _ _
      rw [htoNat]
      have hreject : Refused (Spec.storedBlock X S f out b.length) [] e := storedBlock_rejects hle hout
      exact hreject.then.append _
  | @compressed data hne hdata hdecode =>
    have hpos : data.length ≠ 0 := fun hz => hne (List.eq_nil_of_length_eq_zero hz)
    obtain ⟨htoNat, -, hread⟩ := blockInfo_read_size (n := data.length) (by omega)
    have hread := hread hpos
    have hdecode : Spec.decodeBlock S f data = .ok b := by
      rw [Spec.decodeBlock, hdecode]
      exact if_pos hle
    rw [blockBytes_eq]
    refine ⟨fun n hout => .bind (readBlockInfo_gives hread) ?_,
      fun e hout => .bind (readBlockInfo_gives hread) ?_⟩
    · show Gives (do
        let b ← Spec.compressedBlock X S f out (UInt32.ofNat data.length).toNat
        return some b) _ _
      rw [htoNat]
      exact .last (compressedBlock_gives hX hdata hdecode hout) (.pure _)
    · show Refused (do
        let b ← Spec.compressedBlock X S f out (UInt32.ofNat data.length).toNat
        return some b) _ _
      rw [htoNat]
      exact (compressedBlock_rejects hX hdata hdecode hout).then

/-- The end of a frame. -/
theorem endOfFrame_gives (S : Settings) (out : Nat)
    (hlen : checkContentLen f.info f.content.length = .ok ()) :
    Gives (Spec.nextBlock X S f out) (endBytes X f) none := by
  have hread : BlockInfo.read (leOfU32 0) = .ok .endMark := by
    rw [blockInfo_read, if_pos rfl]
  unfold Spec.nextBlock endBytes
  refine .bind (readBlockInfo_gives hread) ?_
  suffices hend : Gives (Spec.endOfFrame X f) _ () from hend.last (.pure none)
  unfold Spec.endOfFrame
  refine .andThen (.ofExcept hlen) ?_
  by_cases hc : f.info.contentChecksum = true
  · rw [if_pos hc, if_pos hc]
    exact .last (readChecksum_gives _) (.refuse fun h => h rfl)
  · rw [if_neg hc, if_neg hc]
    exact .pure ()

end

/-! ## Steps of the naive decoder -/

section

variable {r r' : List UInt8} {f : Frame} {b : List UInt8} {out n : Nat}

theorem readMoreStep_frame :
    Naive.readMoreStep X S () ⟨r, some f, [], out⟩ = Naive.blockStep X S f ⟨r, some f, [], out⟩ := rfl

/-- The header of a frame makes no difference but to the reader. -/
theorem readMoreStep_header (out : Nat) {info : FrameInfo} {k : Nat} (hid : info.dictId = S.dictId)
    (h : readHeader X r = .ret (.ok (some (info, k)), r')) :
    Naive.readMoreStep X S () ⟨r, none, [], out⟩ =
      Naive.readMoreStep X S () ⟨r', some ⟨info, []⟩, [], out⟩ := by
  have hcheck := checkDictId_ok_iff.mpr hid
  rw [readMoreStep_frame]
  simp only [Naive.readMoreStep, Naive.openFrame, Naive.onReader, Proc.bind_run, Proc.get_run,
    Run.ret_bind, Proc.andThen_ok, h, hcheck, Proc.ofExcept_run, Proc.modify_run, Proc.pure_run]

theorem blockStep_block (h : Spec.nextBlock X S f out r = .ret (.ok (some (b, n)), r')) :
    Naive.blockStep X S f ⟨r, some f, [], out⟩ =
      .ret (.ok (if b.length ≠ 0 then .done b.length else .next ()), ⟨r', some (f.push b), b, n⟩) := by
  simp only [Naive.blockStep, Naive.onReader, Proc.bind_run, Proc.get_run, Run.ret_bind,
    Proc.andThen_ok, Proc.attempt_run, h, Proc.modify_run, Proc.ite_run, Proc.pure_run]
  split <;> rfl

theorem blockStep_end (h : Spec.nextBlock X S f out r = .ret (.ok none, r')) :
    Naive.blockStep X S f ⟨r, some f, [], out⟩ = .ret (.ok (.next ()), ⟨r', none, [], out⟩) := by
  simp only [Naive.blockStep, Naive.onReader, Proc.bind_run, Proc.get_run, Run.ret_bind,
    Proc.andThen_ok, Proc.attempt_run, h, Proc.modify_run, Proc.pure_run]

theorem blockStep_error {e : Error} (h : Spec.nextBlock X S f out r = .ret (.error e, r')) :
    Naive.blockStep X S f ⟨r, some f, [], out⟩ = .ret (.error e, ⟨r', none, [], out⟩) := by
  simp only [Naive.blockStep, Naive.onReader, Proc.bind_run, Proc.get_run, Run.ret_bind,
    Proc.andThen_ok, Proc.attempt_run, h, Proc.modify_run, Proc.throw_run]

end

/-! ## Streams -/

/-- Between two blocks: the decoder is in the frame `F`, or in none, and has `rest` to read. -/
abbrev reading (F : Option Frame) (rest : List UInt8) (out : Nat) : Naive (List UInt8) :=
  ⟨rest, F, [], out⟩

/-- From `s` on, blocks are decoded that make up `content`, and then what is decoded
from `s'` on. -/
def Reaches (X : XxHash32) (S : Settings) (s : Naive (List UInt8)) (content : List UInt8)
    (s' : Naive (List UInt8)) : Prop :=
  s'.output = s.output + content.length ∧ ∃ blocks, blocks.flatten = content ∧
    ∀ bs o f, Drains X S s' bs o f → Drains X S s (blocks ++ bs) o f

/-- The error of the block with which the output would be `len` bytes long. -/
abbrev Exceeded (S : Settings) (len : Nat) : Error := Exceeds S.maxOutput (min len S.target.usizeMax)

/-- From `s` on, the first blocks of `content` are decoded, and then one that makes the
output too long. -/
def Overruns (X : XxHash32) (S : Settings) (s : Naive (List UInt8)) (content : List UInt8) : Prop :=
  ∃ blocks f n, blocks.flatten <+: content ∧ s.output + blocks.flatten.length ≤ S.maxOutput ∧
    S.maxOutput < n ∧ n ≤ s.output + content.length ∧ Drains X S s blocks (some (Exceeded S n)) f

section

variable {s s₁ s₂ : Naive (List UInt8)} {c d : List UInt8}

theorem Reaches.refl (s : Naive (List UInt8)) : Reaches X S s [] s :=
  ⟨rfl, [], rfl, fun _ _ _ h => h⟩

/-- A step that decodes nothing. -/
theorem Reaches.skip (h : Naive.readMoreStep X S () s = .ret (.ok (.next ()), s₁))
    (hout : s₁.output = s.output) : Reaches X S s [] s₁ :=
  ⟨hout, [], rfl, fun _ _ _ hbs => .skip h hbs⟩

theorem Reaches.trans (h : Reaches X S s c s₁) (h' : Reaches X S s₁ d s₂) : Reaches X S s (c ++ d) s₂ := by
  obtain ⟨hc, blocks, rfl, hd⟩ := h
  obtain ⟨hc', blocks', rfl, hd'⟩ := h'
  refine ⟨by rw [hc', hc, List.length_append, Nat.add_assoc], blocks ++ blocks', List.flatten_append,
    fun bs o f hbs => ?_⟩
  rw [List.append_assoc]
  exact hd _ _ _ (hd' _ _ _ hbs)

theorem Reaches.overruns (h : Reaches X S s c s₁) (h' : Overruns X S s₁ d) : Overruns X S s (c ++ d) := by
  obtain ⟨hc, blocks, rfl, hd⟩ := h
  obtain ⟨blocks', f, n, hpre, hle, hlt, hn, hd'⟩ := h'
  rw [hc] at hle hn
  refine ⟨blocks ++ blocks', f, n, ?_, ?_, hlt, ?_, hd _ _ _ hd'⟩
  · rw [List.flatten_append]
    exact (List.prefix_append_right_inj _).mpr hpre
  · rwa [List.flatten_append, List.length_append, ← Nat.add_assoc]
  · rwa [List.length_append, ← Nat.add_assoc]

theorem Overruns.append (h : Overruns X S s c) (d : List UInt8) : Overruns X S s (c ++ d) := by
  obtain ⟨blocks, f, n, hpre, hle, hlt, hn, hd⟩ := h
  refine ⟨blocks, f, n, hpre.trans (List.prefix_append _ _), hle, hlt, hn.trans ?_, hd⟩
  rw [List.length_append, ← Nat.add_assoc]
  exact Nat.le_add_right _ _

end

theorem checkOutputLen_fits (hmax : S.maxOutput < S.target.modulus) {out len : Nat}
    (h : out + len ≤ S.maxOutput) :
    checkOutputLen S.target S.maxOutput out len = .ok (out + len) := by
  rw [checkOutputLen, if_neg (by omega), if_neg (by omega)]

theorem checkOutputLen_exceeds {out len : Nat} (h : S.maxOutput < out + len) :
    checkOutputLen S.target S.maxOutput out len = .error (Exceeded S (out + len)) := by
  have hmod : S.target.usizeMax + 1 = S.target.modulus := Nat.sub_add_cancel S.target.modulus_pos
  rw [checkOutputLen, if_pos h]
  by_cases hfits : S.target.modulus ≤ out + len
  · rw [if_pos hfits, Exceeded, Nat.min_eq_right (by omega)]
  · rw [if_neg hfits, Exceeded, Nat.min_eq_left (by omega)]

section

variable {f F : Frame} {out : Nat} {b content bytes more : List UInt8}

theorem BlockText.reads (out : Nat) (hX : Spec.Lawful X) (hmax : S.maxOutput < S.target.modulus)
    (hle : b.length ≤ blockLimit f.info.blockSize) (h : BlockText X S.dict f b more)
    (rest : List UInt8) :
    (out + b.length ≤ S.maxOutput →
      Reaches X S (reading (some f) (more ++ rest) out) b
        (reading (some (f.push b)) rest (out + b.length))) ∧
    (out ≤ S.maxOutput → S.maxOutput < out + b.length →
      Overruns X S (reading (some f) (more ++ rest) out) b) := by
  obtain ⟨hok, herror⟩ := nextBlock_gives out hX hle h
  refine ⟨fun hfits => ?_, fun hout hlt => ?_⟩
  · obtain ⟨_, hnext, rfl⟩ := hok _ (checkOutputLen_fits hmax hfits) _ rest rfl
    have hstep := blockStep_block hnext
    rw [← readMoreStep_frame] at hstep
    by_cases hb : b = []
    · subst hb
      exact .skip hstep rfl
    · have hlen : b.length ≠ 0 := fun hz => hb (List.eq_nil_of_length_eq_zero hz)
      rw [if_pos hlen] at hstep
      exact ⟨rfl, [b], List.append_nil b, fun bs o f' hbs => .block hstep hlen hbs⟩
  · obtain ⟨r', hnext⟩ := herror _ (checkOutputLen_exceeds hlt) _ rest rfl
    have hstep := blockStep_error hnext
    rw [← readMoreStep_frame] at hstep
    exact ⟨[], _, _, List.nil_prefix, hout, hlt, Nat.le_refl _, .fail hstep⟩

/-- What is decoded depends on the next step only. -/
theorem Drains.congr {s s' f : Naive (List UInt8)} {bs : List (List UInt8)} {o : Option Error}
    (he : Naive.readMoreStep X S () s = Naive.readMoreStep X S () s') (h : Drains X S s' bs o f) :
    Drains X S s bs o f := by
  cases h with
  | stop h => exact .stop (he.trans h)
  | fail h => exact .fail (he.trans h)
  | skip h hd => exact .skip (he.trans h) hd
  | block h hn hd => exact .block (he.trans h) hn hd

/-- The header, and then block after block. -/
theorem FrameText.reads (out : Nat) (hX : Spec.Lawful X) (hmax : S.maxOutput < S.target.modulus)
    (h : FrameText X S.dict F more) (hid : F.info.dictId = S.dictId) (rest : List UInt8) :
    (out + F.content.length ≤ S.maxOutput →
      Reaches X S (reading none (more ++ rest) out) F.content
        (reading (some F) rest (out + F.content.length))) ∧
    (out ≤ S.maxOutput → S.maxOutput < out + F.content.length →
      Overruns X S (reading none (more ++ rest) out) F.content) := by
  induction h generalizing rest with
  | @header info hne =>
    obtain ⟨_, hread, rfl⟩ := readHeader_gives (X := X) hne _ rest rfl
    have hstep := readMoreStep_header (X := X) (S := S) out hid hread
    refine ⟨fun _ => ⟨rfl, [], rfl, fun bs o f hbs => hbs.congr hstep⟩,
      fun hout hlt => absurd hout (Nat.not_le_of_lt hlt)⟩
  | @block f bytes b more hf hle hb ih =>
    obtain ⟨hreach, hover⟩ := ih hid (more ++ rest)
    rw [List.append_assoc, Frame.push_content, List.length_append, ← Nat.add_assoc]
    obtain ⟨hblock, hlong⟩ := BlockText.reads (out + f.content.length) hX hmax hle hb rest
    refine ⟨fun hfits => (hreach (by omega)).trans (hblock hfits), fun hout hlt => ?_⟩
    by_cases hfits : out + f.content.length ≤ S.maxOutput
    · exact (hreach hfits).overruns (hlong hfits hlt)
    · exact (hover hout (by omega)).append b

/-- The end mark, and on to what is behind the frame. -/
theorem reads_endBytes (hlen : checkContentLen F.info F.content.length = .ok ()) (rest : List UInt8) :
    Reaches X S (reading (some F) (endBytes X F ++ rest) out) [] (reading none rest out) := by
  obtain ⟨_, hnext, rfl⟩ := endOfFrame_gives S out hlen _ rest rfl
  have hstep := blockStep_end hnext
  rw [← readMoreStep_frame] at hstep
  exact .skip hstep rfl

/-- A stream is read, up to a block that makes the output too long. -/
theorem Text.reads (out : Nat) (hX : Spec.Lawful X) (hmax : S.maxOutput < S.target.modulus)
    (h : Text X S.dict S.dictId content bytes) (rest : List UInt8) :
    (out + content.length ≤ S.maxOutput →
      Reaches X S (reading none (bytes ++ rest) out) content
        (reading none rest (out + content.length))) ∧
    (out ≤ S.maxOutput → S.maxOutput < out + content.length →
      Overruns X S (reading none (bytes ++ rest) out) content) := by
  induction h generalizing rest with
  | nil => exact ⟨fun _ => .refl _, fun hout hlt => absurd hout (Nat.not_le_of_lt hlt)⟩
  | @frame content bytes more F htext hf hid hlen ih =>
    obtain ⟨hreach, hover⟩ := ih (more ++ (endBytes X F ++ rest))
    obtain ⟨hframe, hlong⟩ :=
      FrameText.reads (out + content.length) hX hmax hf hid (endBytes X F ++ rest)
    rw [List.append_assoc, List.append_assoc, List.length_append, ← Nat.add_assoc]
    refine ⟨fun hfits => (hreach (by omega)).trans ?_, fun hout hlt => ?_⟩
    · have htail := (hframe hfits).trans (reads_endBytes hlen rest)
      rwa [List.append_nil] at htail
    · by_cases hfits : out + content.length ≤ S.maxOutput
      · exact (hreach hfits).overruns (hlong hfits hlt)
      · exact (hover hout (by omega)).append _

/-- All of a stream is decoded, and then it ends, unless there is more in it than the
limit. -/
theorem Text.left (hX : Spec.Lawful X) (hmax : S.maxOutput < S.target.modulus)
    (h : Text X S.dict S.dictId content bytes) (out : Nat) :
    (out + content.length ≤ S.maxOutput → ∃ f, Left X S (reading none bytes out) content none f) ∧
    (out ≤ S.maxOutput → S.maxOutput < out + content.length →
      ∃ D f n, D <+: content ∧ out + D.length ≤ S.maxOutput ∧ S.maxOutput < n ∧
        n ≤ out + content.length ∧ Left X S (reading none bytes out) D (some (Exceeded S n)) f) := by
  obtain ⟨hreach, hover⟩ := Text.reads out hX hmax h []
  rw [List.append_nil] at hreach hover
  refine ⟨fun hfits => ?_, fun hout hlt => ?_⟩
  · obtain ⟨-, blocks, rfl, hd⟩ := hreach hfits
    have hstop := hd _ _ _ (.stop (readMoreStep_nothing rfl rfl))
    rw [List.append_nil] at hstop
    exact ⟨_, blocks, hstop, rfl⟩
  · obtain ⟨blocks, f, n, hpre, hle, hn, hn', hd⟩ := hover hout hlt
    exact ⟨_, f, n, hpre, hle, hn, hn', blocks, hd, rfl⟩

end

end Lz4rip.Proof.Frame
