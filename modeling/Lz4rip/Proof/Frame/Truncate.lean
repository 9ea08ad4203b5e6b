import Lz4rip.Proof.Frame.Granularity
import Lz4rip.Spec.Format

/-!
# Truncation

A stream that is read to its end is a whole number of frames
(`Drains.frames`). Cut off anywhere, it gives a part of the blocks, and then the
end of the file as an error, or where nothing of a frame is left, as the end of the
stream (`Drains.cutShort`). So any other cut is an error (`truncation`).
-/

namespace Lz4rip.Proof.Frame

open Lz4rip.Impl
open Lz4rip.Proc (Upto)
open Spec (Frame Settings Naive Frames Body headerLength checksumLength)

variable {X : XxHash32} {S : Settings}

/-! ## What a read takes -/

theorem readFull_took (n : Nat) (bs : List UInt8) :
    Proc.WP (fun b bs' => bs = b ++ bs' ∧ b.length = n) (fun _ _ => True) (readFull n bs) := by
  rw [readFull_slice]
  split
  · exact ⟨(List.take_append_drop n bs).symm, by rw [List.length_take]; omega⟩
  · trivial

theorem readRest_took (n required : Nat) (bs : List UInt8) :
    Proc.WP (fun b bs' => bs = b ++ bs' ∧ b.length = required - n) (fun _ _ => True)
      (readRest n required bs) := by
  rw [readRest_slice]
  split
  · exact ⟨(List.take_append_drop _ bs).symm, by rw [List.length_take]; omega⟩
  · trivial

theorem readMagic_took (bs : List UInt8) :
    Proc.WP (fun b bs' => bs = b ++ bs' ∧ if b = [] then bs = [] else b.length = MAGIC_NUMBER_SIZE)
      (fun _ _ => True) (readMagic bs) := by
  rw [readMagic_slice]
  by_cases he : bs = []
  · rw [if_pos he, he]
    exact ⟨rfl, rfl⟩
  rw [if_neg he]
  split
  · have hlen : (bs.take MAGIC_NUMBER_SIZE).length = MAGIC_NUMBER_SIZE := by
      rw [List.length_take]
      omega
    refine ⟨(List.take_append_drop _ bs).symm, ?_⟩
    rw [if_neg fun h => by rw [h] at hlen; cases hlen]
    exact hlen
  · trivial

/-- The header of `info` says what its flags are. -/
def Flagged (info : FrameInfo) (flg : UInt8) : Prop :=
  info.blockChecksums = decide (flg &&& FLG_BLOCK_CHECKSUMS ≠ 0) ∧
    info.contentChecksum = decide (flg &&& FLG_CONTENT_CHECKSUM ≠ 0)

theorem readSlice_eq_ok {n : Nat} {input bytes rest : List UInt8}
    (h : FrameInfo.readSlice n input = .ok (bytes, rest)) :
    bytes = input.take n ∧ rest = input.drop n := by
  unfold FrameInfo.readSlice at h
  split at h
  · cases h
  · exact ⟨(Prod.mk.inj (Except.ok.inj h)).1.symm, (Prod.mk.inj (Except.ok.inj h)).2.symm⟩

theorem readDescriptor_flags {originalInput input : List UInt8} {info : FrameInfo}
    (h : FrameInfo.readDescriptor X originalInput input = .ok info) :
    Flagged info (input.getD 0 0) := by
  obtain ⟨⟨bytes, rest⟩, hb, h⟩ := bind_ok h
  obtain ⟨rfl, -⟩ := readSlice_eq_ok hb
  have hget : (input.take 2).getD 0 0 = input.getD 0 0 := by
    cases input <;> rfl
  dsimp only at h
  rw [hget] at h
  split at h
  · cases h
  split at h
  · cases h
  obtain ⟨_, _, h⟩ := bind_ok h
  obtain ⟨_, _, h⟩ := bind_ok h
  obtain ⟨_, _, h⟩ := bind_ok h
  obtain ⟨_, _, h⟩ := bind_ok h
  split at h
  · cases h
  obtain rfl := Except.ok.inj h
  exact ⟨rfl, rfl⟩

/-- A header that is read has the magic number of a frame. -/
theorem frameInfoRead_flags {input : List UInt8} {info : FrameInfo}
    (h : FrameInfo.read X input = .ok info) :
    isSkippableMagic (u32OfLe (input.take 4)) = false ∧ u32OfLe (input.take 4) = LZ4F_MAGIC_NUMBER ∧
      Flagged info (input.getD 4 0) := by
  obtain ⟨⟨magic, rest⟩, hm, h⟩ := bind_ok h
  obtain ⟨rfl, rfl⟩ := readSlice_eq_ok hm
  dsimp only at h
  split at h
  · obtain ⟨_, _, h⟩ := bind_ok h
    cases h
  rename_i hskip
  split at h
  · cases h
  rename_i hmagic
  refine ⟨Bool.eq_false_iff.mpr hskip, not_not.mp hmagic, ?_⟩
  have := readDescriptor_flags h
  rwa [List.getD_eq_getElem?_getD, List.getElem?_drop, ← List.getD_eq_getElem?_getD] at this

theorem readSize_length {buffer : List UInt8} (h : buffer.length = MIN_FRAME_INFO_SIZE) :
    (FrameInfo.readSize buffer).WP fun res => ∀ n, res = .ok n →
      isSkippableMagic (u32OfLe (buffer.take 4)) = false → n = headerLength (buffer.getD 4 0) := by
  have h' : buffer.length = 7 := h
  unfold FrameInfo.readSize
  simp only [Run.WP_bind, Run.WP_chunk, Run.pure_eq]
  refine ⟨by omega, .ite (fun hl => absurd hl (by omega)) fun _ => ?_⟩
  have hmagic : seg buffer 0 4 = buffer.take 4 := rfl
  rw [hmagic]
  refine .ite (fun hs n _ hn => absurd hn (by rw [hs]; decide)) fun _ => ?_
  refine .ite (fun _ => nofun) fun _ => ?_
  have hflg : buffer.getD 4 0 = buffer[4] := (List.getElem_eq_getD 0).symm
  rw [Run.index_eq (show 4 < buffer.length by omega), Run.ret_bind, hflg]
  rintro n hn -
  obtain rfl := Except.ok.inj hn
  unfold headerLength
  split <;> split <;> rfl

/-- A header, of the length that its flags declare. -/
theorem readHeader_took (X : XxHash32) (bs : List UInt8) :
    Proc.WP (fun q bs' => match q with
        | none => bs = []
        | some (info, _) => ∃ header, bs = header ++ bs' ∧
          u32OfLe (header.take 4) = LZ4F_MAGIC_NUMBER ∧
          header.length = headerLength (header.getD 4 0) ∧ Flagged info (header.getD 4 0))
      (fun _ _ => True) (readHeader X bs) := by
  unfold readHeader
  refine (readMagic_took bs).bind fun magic bs₁ ⟨hbs, hm⟩ => ?_
  rw [Proc.ite_run]
  refine .ite (fun he => by rwa [if_pos he] at hm) fun hne => ?_
  rw [if_neg hne] at hm
  refine (readFull_took _ bs₁).bind fun fixed bs₂ ⟨hbs₁, hf⟩ => ?_
  have hlen : (magic ++ fixed).length = MIN_FRAME_INFO_SIZE := by
    rw [List.length_append, hm, hf]
    rfl
  refine Proc.WP.bind (Proc.WP_lift.mpr ((readSize_length hlen).mono fun res hres => ?_))
    fun _ _ h => h
  refine (Proc.WP_ofExcept (Q := fun n bs' => res = .ok n ∧ bs' = bs₂) (fun _ h => ⟨h, rfl⟩)
    fun _ _ => trivial).bind fun required bs₃ ⟨hreq, hbs₃⟩ => ?_
  subst hbs₃
  refine (readRest_took MIN_FRAME_INFO_SIZE required _).bind fun rest bs₄ ⟨hbs₂, hrest⟩ => ?_
  refine (Proc.WP_ofExcept (Q := fun info bs' => FrameInfo.read X (magic ++ fixed ++ rest) = .ok info ∧
    bs' = bs₄) (fun _ h => ⟨h, rfl⟩) fun _ _ => trivial).bind fun info bs₅ ⟨hinfo, hbs₅⟩ => ?_
  subst hbs₅
  obtain ⟨hskip, hmagic, hflags⟩ := frameInfoRead_flags hinfo
  have htake : (magic ++ fixed ++ rest).take 4 = (magic ++ fixed).take 4 :=
    List.take_append_of_le_length (by rw [hlen]; decide)
  have hget : (magic ++ fixed ++ rest).getD 4 0 = (magic ++ fixed).getD 4 0 :=
    by rw [List.getD_eq_getElem?_getD, List.getElem?_append_left (by rw [hlen]; decide),
      ← List.getD_eq_getElem?_getD]
  have hn := hres required hreq (by rwa [← htake])
  refine ⟨magic ++ fixed ++ rest, ?_, hmagic, ?_, hflags⟩
  · rw [hbs, hbs₁, hbs₂, List.append_assoc, List.append_assoc]
  · rw [hget, ← hn, List.length_append, hlen, hrest]
    have : MIN_FRAME_INFO_SIZE ≤ required := by
      rw [hn]
      unfold headerLength
      omega
    omega

/-! ## What a block takes -/

theorem readChecksum_took (bs : List UInt8) :
    Proc.WP (fun _ bs' => ∃ c, bs = c ++ bs' ∧ c.length = 4) (fun _ _ => True) (readChecksum bs) :=
  (readFull_took 4 bs).bind fun c _ h => ⟨c, h⟩

theorem verifyData_took (X : XxHash32) {info : FrameInfo} {flg : UInt8} (hi : Flagged info flg)
    (data bs : List UInt8) :
    Proc.WP (fun _ bs' => ∃ c, bs = c ++ bs' ∧ c.length = checksumLength flg FLG_BLOCK_CHECKSUMS)
      (fun _ _ => True) (Spec.verifyData X info data bs) := by
  unfold Spec.verifyData checksumLength
  rw [Proc.ite_run, hi.1]
  simp only [decide_eq_true_eq]
  refine .ite (fun h => ?_) fun h => ⟨[], rfl, by rw [if_neg h]; rfl⟩
  refine (readChecksum_took bs).bind fun expected bs' ⟨c, hbs, hc⟩ => ?_
  refine Proc.WP_ofExcept (fun _ _ => ⟨c, hbs, ?_⟩) fun _ _ => trivial
  rw [if_pos h, hc]

theorem readData_took (X : XxHash32) {info : FrameInfo} {flg : UInt8} (hi : Flagged info flg)
    (len : Nat) (bs : List UInt8) :
    Proc.WP (fun _ bs' => ∃ data c, bs = data ++ c ++ bs' ∧ data.length = len ∧
        c.length = checksumLength flg FLG_BLOCK_CHECKSUMS)
      (fun _ _ => True) (Spec.readData X info len bs) := by
  unfold Spec.readData
  refine (readFull_took len bs).bind fun data bs₁ ⟨hbs, hd⟩ => ?_
  refine (verifyData_took X hi data bs₁).bind fun _ bs₂ ⟨c, hbs₁, hc⟩ => ?_
  exact ⟨data, c, by rw [hbs, hbs₁, List.append_assoc], hd, hc⟩

/-- Some of the bytes are a block with the flags `flg`, past its size. -/
def TookBlock (flg : UInt8) (len : Nat) (bs bs' : List UInt8) : Prop :=
  ∃ data c, bs = data ++ c ++ bs' ∧ data.length = len ∧
    c.length = checksumLength flg FLG_BLOCK_CHECKSUMS

theorem storedBlock_took (X : XxHash32) (S : Settings) {f : Frame} {flg : UInt8}
    (hi : Flagged f.info flg) (out len : Nat) (bs : List UInt8) :
    Proc.WP (fun _ bs' => TookBlock flg len bs bs') (fun _ _ => True)
      (Spec.storedBlock X S f out len bs) := by
  unfold Spec.storedBlock
  refine (Proc.WP_refuse (Q := fun _ bs' => bs' = bs) (fun _ => rfl) fun _ => trivial).bind ?_
  rintro _ _ rfl
  refine (Proc.WP_ofExcept (Q := fun _ bs' => bs' = _) (fun _ _ => rfl) fun _ _ => trivial).bind ?_
  rintro _ _ rfl
  exact (readData_took X hi len _).bind fun _ _ h => h

theorem compressedBlock_took (X : XxHash32) (S : Settings) {f : Frame} {flg : UInt8}
    (hi : Flagged f.info flg) (out len : Nat) (bs : List UInt8) :
    Proc.WP (fun _ bs' => TookBlock flg len bs bs') (fun _ _ => True)
      (Spec.compressedBlock X S f out len bs) := by
  unfold Spec.compressedBlock
  refine (Proc.WP_refuse (Q := fun _ bs' => bs' = bs) (fun _ => rfl) fun _ => trivial).bind ?_
  rintro _ _ rfl
  refine (readData_took X hi len _).bind fun data bs₁ hd => ?_
  refine (Proc.WP_ofExcept (Q := fun _ bs' => bs' = bs₁) (fun _ _ => rfl) fun _ _ => trivial).bind ?_
  rintro _ _ rfl
  refine (Proc.WP_ofExcept (Q := fun _ bs' => bs' = _) (fun _ _ => rfl) fun _ _ => trivial).bind ?_
  rintro _ _ rfl
  exact hd

theorem endOfFrame_took (X : XxHash32) {f : Frame} {flg : UInt8} (hi : Flagged f.info flg)
    (bs : List UInt8) :
    Proc.WP (fun _ bs' => ∃ c, bs = c ++ bs' ∧ c.length = checksumLength flg FLG_CONTENT_CHECKSUM)
      (fun _ _ => True) (Spec.endOfFrame X f bs) := by
  unfold Spec.endOfFrame checksumLength
  refine (Proc.WP_ofExcept (Q := fun _ bs' => bs' = bs) (fun _ _ => rfl) fun _ _ => trivial).bind ?_
  rintro _ _ rfl
  rw [Proc.ite_run, hi.2]
  simp only [decide_eq_true_eq]
  refine .ite (fun h => ?_) fun h => ⟨[], rfl, by rw [if_neg h]; rfl⟩
  refine (readChecksum_took _).bind fun expected bs' hx => ?_
  obtain ⟨c, hbs, hc⟩ := hx
  refine Proc.WP_refuse (fun _ => ⟨c, hbs, ?_⟩) fun _ => trivial
  rw [if_pos h, hc]

theorem eq_and_not {a b : UInt32} (h : a &&& b = 0) : a = a &&& ~~~b := by
  apply UInt32.toBitVec_inj.mp
  have hbits := congrArg UInt32.toBitVec h
  simp only [UInt32.toBitVec_and, UInt32.toBitVec_not, UInt32.toBitVec_zero] at hbits ⊢
  ext i hi
  have hbit := congrArg (fun x => x.getLsbD i) hbits
  simp at hbit ⊢
  grind

theorem readBlockInfo_took (bs : List UInt8) :
    Proc.WP (fun info bs' => ∃ size, bs = size ++ bs' ∧ size.length = BLOCK_INFO_SIZE ∧
        match info with
        | .endMark => u32OfLe size = 0
        | .compressed len | .uncompressed len => u32OfLe size ≠ 0 ∧
          len = u32OfLe size &&& ~~~BLOCK_UNCOMPRESSED_SIZE_BIT)
      (fun _ _ => True) (readBlockInfo bs) := by
  unfold readBlockInfo
  refine (readFull_took 4 bs).bind fun size bs' ⟨hbs, hs⟩ => ?_
  refine Proc.WP_ofExcept (fun info hinfo => ⟨size, hbs, hs, ?_⟩) fun _ _ => trivial
  obtain ⟨⟨buffer, rest⟩, hb, h⟩ := bind_ok hinfo
  obtain ⟨rfl, -⟩ := readSlice_eq_ok hb
  dsimp only at h
  rw [List.take_of_length_le (Nat.le_of_eq hs)] at h
  split at h
  · obtain rfl := Except.ok.inj h
    assumption
  split at h
  · obtain rfl := Except.ok.inj h
    exact ⟨by assumption, rfl⟩
  · obtain rfl := Except.ok.inj h
    exact ⟨by assumption, eq_and_not (not_not.mp ‹_›)⟩

/-- A block, or the end of the frame, takes a part of a frame's body. -/
theorem nextBlock_took (X : XxHash32) (S : Settings) {f : Frame} {flg : UInt8}
    (hi : Flagged f.info flg) (out : Nat) (bs : List UInt8) :
    Proc.WP (fun q bs' => match q with
        | none => ∃ body, bs = body ++ bs' ∧ Body flg body
        | some _ => ∀ body rest, bs' = body ++ rest → Body flg body →
          ∃ body', bs = body' ++ rest ∧ Body flg body')
      (fun _ _ => True) (Spec.nextBlock X S f out bs) := by
  unfold Spec.nextBlock
  have block : ∀ {size bs₁ bs₂ : List UInt8}, bs = size ++ bs₁ → size.length = BLOCK_INFO_SIZE →
      u32OfLe size ≠ 0 →
      TookBlock flg (u32OfLe size &&& ~~~BLOCK_UNCOMPRESSED_SIZE_BIT).toNat bs₁ bs₂ →
      ∀ body rest, bs₂ = body ++ rest → Body flg body → ∃ body', bs = body' ++ rest ∧ Body flg body' := by
    rintro size bs₁ bs₂ hbs hs hz ⟨data, c, hbs₁, hd, hc⟩ body rest hbs₂ hb
    refine ⟨size ++ data ++ c ++ body, ?_, .block hs hz hd hc hb⟩
    rw [hbs, hbs₁, hbs₂]
    simp only [List.append_assoc]
  refine (readBlockInfo_took bs).bind fun info bs₁ ⟨size, hbs, hs, hi'⟩ => ?_
  cases info with
  | endMark =>
    refine (endOfFrame_took X hi bs₁).bind fun _ bs₂ ⟨c, hbs₁, hc⟩ => ?_
    exact ⟨size ++ c, by rw [hbs, hbs₁, List.append_assoc], .endMark hs hi' hc⟩
  | uncompressed len =>
    obtain ⟨hz, rfl⟩ := hi'
    exact (storedBlock_took X S hi out _ bs₁).bind fun _ bs₂ h => block hbs hs hz h
  | compressed len =>
    obtain ⟨hz, rfl⟩ := hi'
    exact (compressedBlock_took X S hi out _ bs₁).bind fun _ bs₂ h => block hbs hs hz h

/-! ## A stream -/

/-- What is left is a whole number of frames, behind the rest of the open one. -/
def Remains (s : Naive (List UInt8)) : Prop :=
  match s.frame with
  | none => Frames s.r
  | some f => ∀ flg, Flagged f.info flg → ∃ body rest, s.r = body ++ rest ∧ Body flg body ∧ Frames rest

theorem openFrame_took (s : Naive (List UInt8)) :
    Proc.WP (fun q s' => s'.frame = q ∧ (q = none → s.frame = none ∧ s.r = []) ∧
        (q ≠ none → Remains s' → Remains s))
      (fun _ _ => True) (Naive.openFrame X S s) := by
  unfold Naive.openFrame
  rw [Proc.bind_run, Proc.get_run, Run.ret_bind, Proc.andThen_ok]
  cases hf : s.frame with
  | some f => exact ⟨hf, nofun, fun _ h => h⟩
  | none =>
    refine ((onReader_ok (readHeader_took X s.r)).mono (fun _ _ h => h) fun _ _ _ => trivial).bind ?_
    rintro q _ ⟨bs', rfl, hq⟩
    match q, hq with
    | none, hq => exact ⟨hf, fun _ => ⟨rfl, hq⟩, fun h => absurd rfl h⟩
    | some (info, n), ⟨header, hbs, hm, hl, hflags⟩ =>
      refine (Proc.WP_ofExcept (Q := fun _ s' => s' = { s with r := bs' }) (fun _ _ => rfl)
        fun _ _ => trivial).bind ?_
      rintro _ _ rfl
      refine ⟨rfl, nofun, fun _ h => ?_⟩
      obtain ⟨body, rest, hbs', hb, hr⟩ := h _ hflags
      unfold Remains
      rw [hf, hbs]
      dsimp only at hbs' ⊢
      rw [hbs', ← List.append_assoc]
      exact .frame hm hl hb hr

theorem blockStep_took {f : Frame} {s : Naive (List UInt8)} (hf : s.frame = some f) :
    Proc.WP (fun flow s' => flow ≠ .done 0 ∧ (Remains s' → Remains s)) (fun _ _ => True)
      (Naive.blockStep X S f s) := by
  have took : ∀ {q : Option (List UInt8 × Nat)} {r : List UInt8},
      Spec.nextBlock X S f s.output s.r = .ret (.ok q, r) → ∀ flg, Flagged f.info flg → match q with
        | none => ∃ body, s.r = body ++ r ∧ Body flg body
        | some _ => ∀ body rest, r = body ++ rest → Body flg body →
          ∃ body', s.r = body' ++ rest ∧ Body flg body' := fun {q r} hq flg hflags => by
    have hw := nextBlock_took X S hflags s.output s.r
    rw [hq] at hw
    exact hw
  have blocks : ∀ {b : List UInt8} {out : Nat} {r : List UInt8} {s' : Naive (List UInt8)},
      Spec.nextBlock X S f s.output s.r = .ret (.ok (some (b, out)), r) → s'.r = r →
      s'.frame = some (f.push b) → Remains s' → Remains s := by
    rintro b out _ s' hx rfl hf' h
    unfold Remains at h ⊢
    rw [hf'] at h
    rw [hf]
    intro flg hflags
    obtain ⟨body, rest, hbs, hb, hr⟩ := h flg hflags
    obtain ⟨body', hbs', hb'⟩ := took hx flg hflags body rest hbs hb
    exact ⟨body', rest, hbs', hb', hr⟩
  unfold Naive.blockStep
  rw [Proc.bind_run, Proc.get_run, Run.ret_bind, Proc.andThen_ok, Proc.WP_bind, Proc.WP_attempt]
  obtain ⟨q, r, hx, -⟩ | ⟨e, r, hx, -⟩ := Proc.WP_iff.mp (nextBlock_ok X S f s.output s.r)
  · simp only [Naive.onReader, hx, Run.ret_bind, Proc.WP_ok]
    rcases q with _ | ⟨b, out⟩
    · refine ⟨(fun h => by cases h), fun h => ?_⟩
      have hr : Frames r := h
      unfold Remains
      rw [hf]
      intro flg hflags
      obtain ⟨body, hbs, hb⟩ := took hx flg hflags
      exact ⟨body, r, hbs, hb, hr⟩
    · dsimp only
      rw [Proc.bind_run, Proc.modify_run, Run.ret_bind, Proc.andThen_ok, Proc.ite_run]
      refine .ite (fun hb => ⟨?_, blocks hx rfl rfl⟩) fun _ => ⟨(fun h => by cases h), blocks hx rfl rfl⟩
      exact fun he => hb (Run.Flow.done.inj he)
  · simp only [Naive.onReader, hx, Run.ret_bind, Proc.WP_error]
    trivial

theorem readMoreStep_took (s : Naive (List UInt8)) :
    Proc.WP (fun flow s' => flow = .done 0 ∨ Remains s' → Remains s) (fun _ _ => True)
      (Naive.readMoreStep X S () s) := by
  unfold Naive.readMoreStep
  refine (openFrame_took s).bind fun q s₁ ⟨hq, hnone, hsome⟩ => ?_
  match q, hq with
  | none, _ =>
    obtain ⟨hf, hr⟩ := hnone rfl
    intro _
    unfold Remains
    rw [hf, hr]
    exact .nil
  | some f, hf =>
    refine (blockStep_took hf).mono (fun flow s₂ ⟨hne, h⟩ => ?_) fun _ _ _ => trivial
    exact fun h₂ => hsome nofun (h (h₂.resolve_left hne))

/-- A stream that comes to its end is a whole number of frames. -/
theorem Drains.frames {s f : Naive (List UInt8)} {bs : List (List UInt8)} {o : Option Error}
    (hd : Drains X S s bs o f) : o = none → Remains s := by
  have step : ∀ {s s' : Naive (List UInt8)} {flow : Run.Flow Unit Nat},
      Naive.readMoreStep X S () s = .ret (.ok flow, s') →
        flow = .done 0 ∨ Remains s' → Remains s := fun {s s' flow} h => by
    have hw := readMoreStep_took (X := X) (S := S) s
    rw [h] at hw
    exact hw
  induction hd with
  | stop h => exact fun _ => step h (.inl rfl)
  | fail => nofun
  | skip h _ ih => exact fun ho => step h (.inr (ih ho))
  | block h _ _ ih => exact fun ho => step h (.inr (ih ho))

/-! ## A part of a stream -/

/-- A slice that is cut off is like the whole, up to the end of the file. -/
theorem cut_alike (S : Settings) :
    Alike (fun _ e => e = EOF) (fun p s : List UInt8 => p <+: s) Eq S S where
  dict := rfl
  dictId := rfl
  why := rfl
  full {p s} _ n hp := by
    rw [readFull_slice, readFull_slice]
    by_cases hn : n ≤ p.length
    · rw [if_pos hn, if_pos (Nat.le_trans hn hp.length_le)]
      obtain ⟨rest, rfl⟩ := hp
      rw [List.take_append_of_le_length hn, List.drop_append_of_le_length hn]
      exact .ok ⟨rfl, List.prefix_append ..⟩
    · rw [if_neg hn]
      exact .stop rfl
  count {out out'} len _ ho := by
    subst ho
    cases hc : checkOutputLen S.target S.maxOutput out len with
    | ok o => exact .inr ⟨o, o, hc, hc, rfl⟩
    | error e => exact .inl ⟨e, rfl, .inr rfl⟩

/-- So is a magic number, where something of it is left. -/
theorem readMagic_cut {p s : List UInt8} (hp : p <+: s) (hne : p ≠ []) :
    Upto (fun e => e = EOF) (SameIn fun p s : List UInt8 => p <+: s) (fun p s => p <+: s)
      (readMagic p) (readMagic s) := by
  obtain ⟨rest, rfl⟩ := hp
  rw [readMagic_slice, readMagic_slice, if_neg hne,
    if_neg fun h => hne (List.append_eq_nil_iff.mp h).1]
  by_cases hn : MAGIC_NUMBER_SIZE ≤ p.length
  · rw [if_pos hn, if_pos (Nat.le_trans hn (by rw [List.length_append]; omega)),
      List.take_append_of_le_length hn, List.drop_append_of_le_length hn]
    exact .ok ⟨rfl, List.prefix_append ..⟩
  · rw [if_neg hn]
    exact .stop rfl

/-- Where nothing of a frame is left, that is the end of the stream. -/
theorem readMoreStep_nothing {s : Naive (List UInt8)} (hf : s.frame = none) (hr : s.r = []) :
    Naive.readMoreStep X S () s = .ret (.ok (.done 0), s) := by
  obtain ⟨r, frame, pending, output⟩ := s
  obtain rfl : frame = none := hf
  obtain rfl : r = [] := hr
  rfl

/-- A part of a stream drains to a part of the blocks: then the file ends, or the
stream does, or all of it was there. -/
theorem Drains.cutShort {s' f' : Naive (List UInt8)} {bs : List (List UInt8)} {o : Option Error}
    (hd : Drains X S s' bs o f') :
    ∀ {s : Naive (List UInt8)}, Near (fun p s : List UInt8 => p <+: s) Eq s s' → s.pending = [] →
      ∃ bs₁ o₁ f, Drains X S s bs₁ o₁ f ∧ bs₁ <+: bs ∧ (o₁ = some EOF ∨ o₁ = none ∨ o₁ = o) := by
  have step : ∀ {s s' : Naive (List UInt8)}, Near (fun p s : List UInt8 => p <+: s) Eq s s' →
      s.pending = [] → ¬ (s.frame = none ∧ s.r = []) →
      Upto (fun e => e = EOF) (SameNear (fun p s : List UInt8 => p <+: s) Eq)
        (Near (fun p s : List UInt8 => p <+: s) Eq) (Naive.readMoreStep X S () s)
        (Naive.readMoreStep X S () s') := fun {s s'} hn hp hne =>
    readMoreStep_upto (cut_alike S) hn (fun hf => readHeader_upto (cut_alike S) s.output
      (readMagic_cut hn.r fun hr => hne ⟨hf, hr⟩)) hp
  have stops : ∀ {s s₁ : Naive (List UInt8)} {e : Error} {bs : List (List UInt8)} {o : Option Error},
      Naive.readMoreStep X S () s = .ret (.error e, s₁) → e = EOF →
        ∃ bs₁ o₁ f, Drains X S s bs₁ o₁ f ∧ bs₁ <+: bs ∧ (o₁ = some EOF ∨ o₁ = none ∨ o₁ = o) :=
    fun {s s₁ e bs o} hx he => ⟨[], some e, s₁, .fail hx, List.nil_prefix, .inl (congrArg some he)⟩
  have ends : ∀ {s : Naive (List UInt8)} {bs : List (List UInt8)} {o : Option Error},
      s.frame = none ∧ s.r = [] →
        ∃ bs₁ o₁ f, Drains X S s bs₁ o₁ f ∧ bs₁ <+: bs ∧ (o₁ = some EOF ∨ o₁ = none ∨ o₁ = o) :=
    fun {s bs o} h =>
      ⟨[], none, s, .stop (readMoreStep_nothing h.1 h.2), List.nil_prefix, .inr (.inl rfl)⟩
  induction hd with
  | stop h =>
    intro s hn hp
    by_cases hz : s.frame = none ∧ s.r = []
    · exact ends hz
    obtain ⟨e, _, hx, he⟩ | ⟨_, f, hx, rfl, -⟩ := (step hn hp hz).of_ok h
    · exact stops hx he
    · exact ⟨[], none, f, .stop hx, List.nil_prefix, .inr (.inl rfl)⟩
  | fail h =>
    intro s hn hp
    by_cases hz : s.frame = none ∧ s.r = []
    · exact ends hz
    obtain ⟨e, _, hx, he⟩ | ⟨f, hx, -⟩ := (step hn hp hz).of_error h
    · exact stops hx he
    · exact ⟨[], some _, f, .fail hx, List.nil_prefix, .inr (.inr rfl)⟩
  | skip h _ ih =>
    intro s hn hp
    by_cases hz : s.frame = none ∧ s.r = []
    · exact ends hz
    obtain ⟨e, _, hx, he⟩ | ⟨_, s₁, hx, rfl, hn'⟩ := (step hn hp hz).of_ok h
    · exact stops hx he
    · have hw := readMoreStep_ok (X := X) (S := S) hp
      rw [hx] at hw
      obtain ⟨bs₁, o₁, f, hd, hb, ho⟩ := ih hn' hw.1
      exact ⟨bs₁, o₁, f, .skip hx hd, hb, ho⟩
  | @block _ s₂ _ _ _ _ h hne _ ih =>
    intro s hn hp
    by_cases hz : s.frame = none ∧ s.r = []
    · exact ends hz
    obtain ⟨e, _, hx, he⟩ | ⟨_, s₁, hx, rfl, hn'⟩ := (step hn hp hz).of_ok h
    · exact stops hx he
    · have hnext : Near (fun p s : List UInt8 => p <+: s) Eq { s₁ with pending := [] }
          { s₂ with pending := [] } := ⟨hn'.r, hn'.frame, rfl, hn'.output⟩
      obtain ⟨bs₁, o₁, f, hd, hb, ho⟩ := ih hnext rfl
      refine ⟨s₁.pending :: bs₁, o₁, f, .block hx hne hd, ?_, ho⟩
      rw [hn'.pending]
      exact List.cons_prefix_cons.mpr ⟨rfl, hb⟩

theorem flatten_prefix {bs₁ bs : List (List UInt8)} (h : bs₁ <+: bs) : bs₁.flatten <+: bs.flatten := by
  obtain ⟨rest, rfl⟩ := h
  rw [List.flatten_append]
  exact List.prefix_append ..

/-- However a stream is read, its end is reported only behind a whole number of
frames. Of a stream that is read to its end, any part that is not a whole number
of frames gives the end of the file as an error, after a part of the content. -/
theorem truncation (X : XxHash32) (t : Target) (options : FrameDecoderOptions) :
    (∀ (stream : List UInt8) (r : Reader) (cs : List (Spec.Call Reader)) (bytes : List UInt8),
      Delivers r stream → (∀ c ∈ cs, c.reads = true) →
      (Spec.frameDecoder X t true).session (FrameDecoder.withOptions X t r options) cs =
        .ret (bytes, some none) → Frames stream) ∧
    ∀ (stream part D : List UInt8) (d : FrameDecoder X (List UInt8)),
      (Spec.frameDecoder X t true).call (FrameDecoder.withOptions X t stream options) .readToEnd =
        .ret (⟨D, none⟩, d) → part <+: stream → ¬ Frames part →
      ∃ D' d', (Spec.frameDecoder X t true).call (FrameDecoder.withOptions X t part options)
          .readToEnd = .ret (⟨D', some EOF⟩, d') ∧ D' <+: D ∧
        ∀ (r : Reader) (cs : List (Spec.Call Reader)) bytes ended, Delivers r part →
          (∀ c ∈ cs, c.reads = true) →
          (Spec.frameDecoder X t true).session (FrameDecoder.withOptions X t r options) cs =
            .ret (bytes, ended) →
          match ended with
          | none => bytes <+: D'
          | some o => bytes = D' ∧ o = some EOF := by
  refine ⟨fun stream r cs bytes hr hcs h => ?_, fun stream part D d hD hpart hne => ?_⟩
  · obtain ⟨D, o, f, hl⟩ := Left.total (X := X) (S := settings t options) (Naive.start stream)
    obtain ⟨-, ho⟩ := hl.session hr hcs h
    obtain ⟨bs, hd, -⟩ := hl
    exact hd.frames ho.symm
  · obtain ⟨D₁, o₁, f₁, hl⟩ := Left.total (X := X) (S := settings t options) (Naive.start stream)
    obtain ⟨d₁, hd₁⟩ := hl.readToEnd
    obtain ⟨hreply, -⟩ := Prod.mk.inj (Run.ret.inj (hd₁.symm.trans hD))
    obtain ⟨rfl, rfl⟩ := Spec.Reply.mk.inj hreply
    obtain ⟨bs, hd, rfl⟩ := hl
    obtain ⟨bs', o', f', hd', hbs, ho⟩ := hd.cutShort (s := Naive.start part)
      ⟨hpart, rfl, rfl, rfl⟩ rfl
    have ho' : o' = some EOF := ho.resolve_right fun h => hne (hd'.frames (h.elim id id))
    subst ho'
    have hl' : Left X (settings t options) (Naive.start part) bs'.flatten (some EOF) f' :=
      ⟨bs', hd', rfl⟩
    obtain ⟨d', hcall⟩ := hl'.readToEnd
    exact ⟨bs'.flatten, d', hcall, flatten_prefix hbs, fun r cs bytes ended hr hcs h =>
      hl'.session hr hcs h⟩

/-- An empty frame, cut off behind its header. -/
theorem truncation_header :
    let t : Target := ⟨.w64, false, false⟩
    let header : List UInt8 := [0x04, 0x22, 0x4D, 0x18, 0x60, 0x40, 0x82]
    ∃ D' d', (Spec.frameDecoder Spec.xxHash32 t true).call
        (FrameDecoder.withOptions Spec.xxHash32 t header ⟨none, none⟩) .readToEnd =
          .ret (⟨D', some EOF⟩, d') ∧ D' <+: [] ∧
      ∀ (r : Reader) (cs : List (Spec.Call Reader)) bytes ended, Delivers r header →
        (∀ c ∈ cs, c.reads = true) →
        (Spec.frameDecoder Spec.xxHash32 t true).session
          (FrameDecoder.withOptions Spec.xxHash32 t r ⟨none, none⟩) cs = .ret (bytes, ended) →
        match ended with
        | none => bytes <+: D'
        | some o => bytes = D' ∧ o = some EOF :=
  (truncation Spec.xxHash32 ⟨.w64, false, false⟩ ⟨none, none⟩).2
    [0x04, 0x22, 0x4D, 0x18, 0x60, 0x40, 0x82, 0, 0, 0, 0]
    [0x04, 0x22, 0x4D, 0x18, 0x60, 0x40, 0x82] [] _ rfl (by decide)
    fun h => by have := h.length; simp at this

end Lz4rip.Proof.Frame
