import Lz4rip.Proof.Frame.Block

/-!
# The frame decoder refines the naive one
-/

namespace Lz4rip.Proof.Frame

open Lz4rip.Impl
open Lz4rip.Impl.FrameDecoder
open Lz4rip.Proc (Refines)
open Spec (Frame Settings Naive blockLimit)

variable {X : XxHash32} {ρ : Type} [Read ρ] [LawfulRead ρ]

/-! ## Reading into the buffers -/

theorem readDst_refines {d : FrameDecoder X ρ} (len : Nat) :
    Refines (fun _ d' b r' => ∃ dst, d' = { d with dst, r := r' } ∧
        Within d.dst dst d.dstStart len ∧ b.length = len ∧ d.dstStart + len ≤ dst.length ∧
          seg dst d.dstStart len = b)
      (fun d' r' => ∃ dst, d' = { d with dst, r := r' } ∧ Within d.dst dst d.dstStart len)
      (readDst len d) (readFull len d.r) := by
  have hg : d.dstStart + len ≤ (growTo d.dst (d.dstStart + len)).length := by
    rw [length_growTo]
    omega
  simp only [readDst, readFull]
  rcases hread : Read.readExact len d.r with ⟨got, res, r'⟩
  cases res with
  | ok u =>
    have hl := (LawfulRead.readExact_ok hread).1
    have hw : Within (growTo d.dst (d.dstStart + len)) _ d.dstStart got.length :=
      .store (d := got) (by omega)
    refine .ok ⟨_, rfl, (Within.growTo ..).trans (hw.mono (by omega)), hl, ?_, ?_⟩
    · exact Nat.le_trans hg hw.length
    · have := seg_store (l := growTo d.dst (d.dstStart + len)) (d := got) (i := d.dstStart)
        (by omega)
      rwa [hl] at this
  | error e =>
    have hl := (LawfulRead.readExact_error hread).1
    have hw : Within (growTo d.dst (d.dstStart + len)) _ d.dstStart got.length :=
      .store (d := got) (by omega)
    exact .error ⟨_, rfl, (Within.growTo ..).trans (hw.mono hl)⟩

theorem readSrc_refines {d : FrameDecoder X ρ} (len : Nat) :
    Refines (fun _ d' b r' => ∃ src, d' = { d with src, r := r' } ∧ b.length = len ∧
        len ≤ src.length ∧ src.take len = b)
      (fun d' r' => ∃ src, d' = { d with src, r := r' }) (readSrc len d) (readFull len d.r) := by
  simp only [readSrc, readFull]
  rcases hread : Read.readExact len d.r with ⟨got, res, r'⟩
  cases res with
  | ok u =>
    have hl := (LawfulRead.readExact_ok hread).1
    have hg : len ≤ (growTo d.src len).length := by
      rw [length_growTo]
      omega
    refine .ok ⟨_, rfl, hl, ?_, ?_⟩
    · rw [length_store (by dsimp only; omega)]
      exact hg
    · have := seg_store (l := growTo d.src len) (d := got) (i := 0) (Nat.zero_le _)
      rwa [hl, seg_zero_left] at this
  | error e => exact .error ⟨_, rfl⟩

omit [Read ρ] [LawfulRead ρ] in
theorem onReader_refines {α : Type} {x : Reads ρ α} {d : FrameDecoder X ρ}
    {p : Except Error α × ρ} (hx : x d.r = .ret p) :
    Refines (fun a d' b r' => a = b ∧ d' = { d with r := r' }) (fun d' r' => d' = { d with r := r' })
      (onReader x d) (x d.r) := by
  rw [onReader, hx]
  match p with
  | (.ok a, r') => exact .ok ⟨rfl, rfl⟩
  | (.error e, r') => exact .error rfl

omit [LawfulRead ρ] in
theorem readFull_returns (n : Nat) (r : ρ) : ∃ p, (readFull n : Reads ρ _) r = .ret p := ⟨_, rfl⟩

omit [LawfulRead ρ] in
theorem readChecksum_returns (r : ρ) : ∃ p, (readChecksum : Reads ρ _) r = .ret p := by
  obtain ⟨⟨res, r'⟩, hp⟩ := readFull_returns 4 r
  rw [readChecksum, Proc.bind_run, hp]
  cases res <;> exact ⟨_, rfl⟩

omit [LawfulRead ρ] in
theorem readBlockInfo_returns (r : ρ) : ∃ p, (readBlockInfo : Reads ρ _) r = .ret p := by
  obtain ⟨⟨res, r'⟩, hp⟩ := readFull_returns 4 r
  rw [readBlockInfo, Proc.bind_run, hp]
  cases res <;> exact ⟨_, rfl⟩

omit [LawfulRead ρ] in
theorem verifyBlock_refines {d : FrameDecoder X ρ} {info : FrameInfo}
    {data : FrameDecoder X ρ → Run (List UInt8)} {b : List UInt8}
    (hdata : ∀ r, data { d with r } = .ret b) :
    Refines (fun _ d' _ r' => d' = { d with r := r' }) (fun d' r' => d' = { d with r := r' })
      (verifyBlock info data d) (Spec.verifyData X info b d.r) := by
  unfold verifyBlock Spec.verifyData
  split
  · obtain ⟨p, hp⟩ := readChecksum_returns d.r
    refine (onReader_refines hp).bind (fun a d' a' r' h => ?_) fun _ _ h => h
    obtain ⟨rfl, rfl⟩ := h
    simp only [Proc.bind_run, Proc.get_run, Run.ret_bind, Proc.andThen_ok, Proc.lift_run, hdata,
      Proc.ofExcept_run]
    cases checkBlockChecksum X b a with
    | ok u => exact .ok rfl
    | error e => exact .error rfl
  · exact .ok rfl

/-! ## Blocks -/

/-- The decoder's setup, reader and output. -/
structure Matches (S : Settings) (d : FrameDecoder X ρ) (r : ρ) (output : Nat) : Prop where
  r : d.r = r
  dict : d.dict = S.dict
  dictId : d.expectedDictId = S.dictId
  maxOutput : d.maxOutput = S.maxOutput
  output : d.bytesOutput = output

/-- Nothing that is decoded is left. -/
structure Drained (S : Settings) (d : FrameDecoder X ρ) (r : ρ) (output : Nat) : Prop
    extends Matches S d r output where
  start : d.dstStart = d.dstEnd
  le : d.dstEnd ≤ d.dst.length

/-- The block `b` of the frame `f` is decoded. -/
structure Holds (S : Settings) (f : Frame) (b : List UInt8) (d : FrameDecoder X ρ) (r : ρ)
    (output : Nat) : Prop extends Matches S d r output, Open (f.push b) d,
    Windowed (f.push b) (between (f.push b)) d where
  start : d.dstStart + b.length = d.dstEnd
  le : d.dstEnd ≤ d.dst.length
  block : seg d.dst d.dstStart b.length = b

omit [Read ρ] [LawfulRead ρ] in
theorem Ready.drained {S : Settings} {f : Frame} {d : FrameDecoder X ρ} {r : ρ} {output : Nat}
    (h : Ready f d) (hm : Matches S d r output) : Drained S d r output :=
  ⟨hm, h.start, by have := h.pos; have := h.stop; omega⟩

theorem checkOutputLen_ok {t : Target} {maxOutput bytesOutput len out : Nat}
    (h : checkOutputLen t maxOutput bytesOutput len = .ok out) :
    out = bytesOutput + len ∧ out < t.modulus ∧ out ≤ maxOutput := by
  unfold checkOutputLen at h
  split at h
  · cases h
  · split at h
    · cases h
    · obtain rfl := Except.ok.inj h
      omega

/-- The block `b` of the frame `f` is in the buffer, and counted. -/
def Counted (S : Settings) (f : Frame) (b : List UInt8) (d : FrameDecoder X ρ) (r : ρ)
    (output : Nat) : Prop :=
  ∃ d₀, Ready f d₀ ∧ Matches S d₀ r d₀.bytesOutput ∧ b.length ≤ blockLimit f.info.blockSize ∧
    d₀.dstStart + b.length ≤ d₀.dst.length ∧ seg d₀.dst d₀.dstStart b.length = b ∧
    d = { d₀ with bytesOutput := output, dstEnd := d₀.dstEnd + b.length,
                  contentLen := d₀.contentLen + b.length }

/-- The frame's content is part of the output. -/
def InOutput (S : Settings) (f : Frame) (b : List UInt8) (output : Nat) : Prop :=
  f.content.length + b.length ≤ output ∧ output < S.target.modulus

omit [Read ρ] [LawfulRead ρ] in
theorem advance_refines {S : Settings} {f : Frame} {b : List UInt8} {d : FrameDecoder X ρ} {r : ρ}
    {output out : Nat} {E : FrameDecoder X ρ → ρ → Prop} (h : Ready f d) (hm : Matches S d r output)
    (hn : b.length ≤ blockLimit f.info.blockSize) (hlen : d.dstStart + b.length ≤ d.dst.length)
    (hb : seg d.dst d.dstStart b.length = b) (hle : InOutput S f b out) :
    Refines (fun _ d' q r' => Counted S f q.1 d' r' q.2 ∧ InOutput S f q.1 q.2) E
      (advance out b.length d) (.ret (.ok (b, out), r)) := by
  have hmod : S.target.modulus ≤ 2 ^ 64 := by
    unfold Target.modulus
    cases S.target.width <;> decide
  have hl := h.len
  have hle' := hle.1
  have hlt := hle.2
  simp only [advance, Proc.bind_run, Proc.get_run, Run.ret_bind, Proc.andThen_ok, Proc.lift_run,
    Run.assert, if_pos (show d.contentLen + b.length < 2 ^ 64 by omega), Proc.modify_run]
  exact .ok ⟨⟨d, h, ⟨hm.r, hm.dict, hm.dictId, hm.maxOutput, rfl⟩, hn, hlen, hb, rfl⟩, hle⟩

omit [Read ρ] [LawfulRead ρ] in
theorem afterBlock_ok {S : Settings} {f : Frame} {b : List UInt8} {d : FrameDecoder X ρ} {r : ρ}
    {output : Nat} (h : Counted S f b d r output) :
    (readBlock.afterBlock f.info d).WP fun p => p.1 = .ok b.length ∧ Holds S f b p.2 r output := by
  obtain ⟨d₀, hd, hm, hn, hlen, hb, rfl⟩ := h
  have hstart := hd.start
  have hsub : d₀.dstEnd + b.length - d₀.dstStart = b.length := by omega
  simp only [readBlock.afterBlock, Proc.bind_run, Proc.get_run, Run.ret_bind, Proc.andThen_ok,
    Proc.ite_run]
  have done : ∀ hasher : X.State, (f.info.contentChecksum = true →
      hasher = X.write d₀.contentHasher b) → Holds S f b { d₀ with
        bytesOutput := output, dstEnd := d₀.dstEnd + b.length,
        contentLen := d₀.contentLen + b.length, contentHasher := hasher } r output :=
    fun hasher hh => by
      obtain ⟨ho, hw⟩ := hd.push hb hn hlen output hasher hh
      exact ⟨⟨hm.r, hm.dict, hm.dictId, hm.maxOutput, rfl⟩, ho, hw, by dsimp only; omega,
        by dsimp only; omega, hb⟩
  by_cases hc : f.info.contentChecksum = true
  · rw [if_pos hc]
    simp only [Proc.bind_run, Proc.lift_run, FrameDecoder.block, Run.WP_bind, Run.WP_sub,
      Run.WP_chunk, Run.WP_ret, Proc.andThen_ok, Proc.modify_run, hsub, hb]
    exact ⟨by omega, by omega, by omega, trivial, done _ fun _ => rfl⟩
  · rw [if_neg hc]
    simp only [Proc.lift_run, Run.WP_bind, Run.WP_sub, Run.WP_ret, hsub]
    exact ⟨by omega, trivial, done _ fun h => absurd h hc⟩

/-- A stored block. -/
theorem readUncompressed_refines {S : Settings} {f : Frame} {d : FrameDecoder X ρ} {r : ρ}
    {output : Nat} (len : Nat) (h : Ready f d) (hm : Matches S d r output)
    (hle : f.content.length ≤ output) :
    Refines (fun _ d' q r' => Counted S f q.1 d' r' q.2 ∧ InOutput S f q.1 q.2)
      (fun d' r' => Drained S d' r' output)
      (readUncompressed S.target f.info (blockLimit f.info.blockSize) len d)
      (Spec.storedBlock X S f output len r) := by
  simp only [readUncompressed, Spec.storedBlock, Spec.readData, bind_assoc, pure_bind]
  by_cases hlen : len > blockLimit f.info.blockSize
  · simp only [Proc.bind_run, Proc.refuse_run, if_pos hlen, Run.ret_bind, Proc.andThen_error]
    exact .error (h.drained hm)
  · simp only [Proc.bind_run, Proc.refuse_run, if_neg hlen, Run.ret_bind, Proc.andThen_ok,
      Proc.get_run, Proc.ofExcept_run, hm.maxOutput, hm.output]
    cases hout : checkOutputLen S.target S.maxOutput output len with
    | error e => exact .error (h.drained hm)
    | ok out =>
      obtain ⟨rfl, hmod, -⟩ := checkOutputLen_ok hout
      obtain rfl := hm.r
      have drained : ∀ {dst : List UInt8}, Within d.dst dst d.dstStart len → ∀ r' : ρ,
          Drained S { d with dst, r := r' } r' output := fun hw r' =>
        (h.write hw (by omega) d.src r').drained
          ⟨rfl, hm.dict, hm.dictId, hm.maxOutput, hm.output⟩
      rw [Proc.andThen_ok, Proc.andThen_ok]
      refine (readDst_refines len).bind (fun _ d' b r' ⟨dst, hd, hw, hbl, hdl, hseg⟩ => ?_)
        fun d' r' ⟨dst, hd, hw⟩ => hd ▸ drained hw r'
      subst hd
      refine (verifyBlock_refines (b := b) fun r'' => hseg ▸ Run.chunk_eq hdl).bind
        (fun _ d'' _ r'' hd => ?_) fun d'' r'' hd => hd ▸ drained hw r''
      subst hd hbl
      exact advance_refines (h.write hw (by omega) d.src r'')
        ⟨rfl, hm.dict, hm.dictId, hm.maxOutput, hm.output⟩ (by omega) hdl hseg
        ⟨by omega, hmod⟩

omit [Read ρ] [LawfulRead ρ] in
/-- The decoded block is the one of the reference, or both are refused. -/
theorem Decoded.decodeBlock {S : Settings} {f : Frame} {d d' : FrameDecoder X ρ} {data : List UInt8}
    {r : Except DecompressError Nat} (hwhy : S.why = blockError S.target S.dict)
    (hdict : d.dict = S.dict) (h : Decoded S.target f d data (blockLimit f.info.blockSize) r d') :
    (∃ b, r = .ok b.length ∧ Spec.decodeBlock S f data = .ok b ∧
      b.length ≤ blockLimit f.info.blockSize ∧ seg d'.dst d.dstStart b.length = b ∧
        d.dstStart + b.length ≤ d'.dst.length) ∨
      ∃ e, r = .error e ∧ Spec.decodeBlock S f data = .error (.decompressionError e) := by
  cases r with
  | ok n =>
    obtain ⟨b, hb, rfl, hle, hseg, hlen⟩ := h.ok n rfl
    rw [hdict] at hb
    refine .inl ⟨b, rfl, ?_, hle, hseg, hlen⟩
    simp only [Spec.decodeBlock, hb, if_pos hle]
  | error e =>
    obtain ⟨hbig, he⟩ := h.error e rfl
    rw [hdict] at hbig he
    refine .inr ⟨e, rfl, ?_⟩
    rw [he rfl, ← hwhy]
    unfold Spec.decodeBlock
    split
    · rename_i b hb
      rw [if_neg (Nat.not_le_of_lt (hbig b hb))]
    · rfl

/-- A compressed block, decoded within either limit. -/
theorem readCompressed_refines {S : Settings} {f : Frame} {d : FrameDecoder X ρ} {r : ρ}
    {output : Nat} (limited : Bool) (len : Nat) (hwhy : S.why = blockError S.target S.dict)
    (h : Ready f d) (hm : Matches S d r output) (hle : f.content.length ≤ output) :
    Refines (fun _ d' q r' => Counted S f q.1 d' r' q.2 ∧ InOutput S f q.1 q.2)
      (fun d' r' => Drained S d' r' output)
      (readCompressed S.target limited f.info (blockLimit f.info.blockSize) len d)
      (Spec.compressedBlock X S f output len r) := by
  simp only [readCompressed, Spec.compressedBlock, Spec.readData, bind_assoc, pure_bind]
  by_cases hlen : len > blockLimit f.info.blockSize
  · simp only [Proc.bind_run, Proc.refuse_run, if_pos hlen, Run.ret_bind, Proc.andThen_error]
    exact .error (h.drained hm)
  · rw [Proc.bind_run, Proc.bind_run, Proc.refuse_run, Proc.refuse_run, if_neg hlen, Run.ret_bind,
      Run.ret_bind, Proc.andThen_ok, Proc.andThen_ok]
    obtain rfl := hm.r
    have ready : ∀ {dst : List UInt8} {n : Nat}, n ≤ blockLimit f.info.blockSize →
        Within d.dst dst d.dstStart n → ∀ (src : List UInt8) (r' : ρ),
          Ready f { d with dst, src, r := r' } ∧
            Matches S { d with dst, src, r := r' } r' output := fun hn hw src r' =>
      ⟨h.write hw hn src r', rfl, hm.dict, hm.dictId, hm.maxOutput, hm.output⟩
    have same : Within d.dst d.dst d.dstStart 0 := ⟨Nat.le_refl _, fun _ _ _ => rfl⟩
    have drained : ∀ (src : List UInt8) (r' : ρ), Drained S { d with src, r := r' } r' output :=
      fun src r' => (ready (Nat.zero_le _) same src r').1.drained
        (ready (Nat.zero_le _) same src r').2
    refine (readSrc_refines len).bind (fun _ d' data r' ⟨src, hd, hbl, hsl, htake⟩ => ?_)
      fun d' r' ⟨src, hd⟩ => hd ▸ drained src r'
    subst hd hbl
    refine (verifyBlock_refines (b := data) fun r'' => ?_).bind
      (fun _ d'' _ r'' hd => ?_) fun d'' r'' hd => hd ▸ drained src r''
    · rw [Run.chunk_eq (by rw [Nat.zero_add]; exact hsl), seg_zero_left, htake]
    subst hd
    have hlimit : (if limited = true then
        min (blockLimit f.info.blockSize) (remaining S.target f.info d.contentLen)
        else blockLimit f.info.blockSize) ≤ blockLimit f.info.blockSize := by
      split
      · exact Nat.min_le_left _ _
      · exact Nat.le_refl _
    obtain ⟨⟨res, d₁⟩, hp, r, rfl, hdec⟩ := Run.WP_iff.mp (decompressWithin_ok S.target
      (ready (Nat.zero_le _) same src r'').1 htake (Nat.le_of_not_lt hlen) hlimit)
    have hsame := hdec.same
    have hw := hdec.within
    dsimp only at hsame hw
    simp only [Proc.bind_run, Proc.get_run, Run.ret_bind, Proc.andThen_ok, Proc.ofExcept_run, hp]
    obtain ⟨hready, hmatch⟩ := ready (Nat.le_refl _) hw src r''
    rw [← hsame] at hready hmatch
    rcases hdec.decodeBlock hwhy (by exact hm.dict) with ⟨b, rfl, hb, hbn, hseg, hblen⟩ | ⟨e, rfl, he⟩
    · rw [hb]
      simp only [Except.mapError, Proc.bind_run, Proc.get_run, Proc.ofExcept_run, Run.ret_bind,
        Proc.andThen_ok, hmatch.maxOutput, hmatch.output]
      cases hout : checkOutputLen S.target S.maxOutput output b.length with
      | error e => exact .error (hready.drained hmatch)
      | ok out =>
        obtain ⟨rfl, hmod, -⟩ := checkOutputLen_ok hout
        have hstart : d₁.dstStart = d.dstStart := by rw [hsame]
        exact advance_refines hready hmatch hbn (by rw [hstart]; exact hblen)
          (by rw [hstart]; exact hseg) ⟨by omega, hmod⟩
    · rw [he]
      exact .error (hready.drained hmatch)

omit [LawfulRead ρ] in
/-- The end of a frame. -/
theorem readEndMark_refines {S : Settings} {f : Frame} {d : FrameDecoder X ρ} {r : ρ}
    {output : Nat} (h : Ready f d) (hm : Matches S d r output) :
    Refines (fun _ d' _ r' => Drained S d' r' output ∧ d'.currentFrameInfo = none)
      (fun d' r' => Drained S d' r' output) (readEndMark f.info d) (Spec.endOfFrame X f r) := by
  obtain rfl := hm.r
  have hd := h.drained hm
  have drained : ∀ r' : ρ, Drained S { d with r := r' } r' output := fun r' =>
    ⟨⟨rfl, hm.dict, hm.dictId, hm.maxOutput, hm.output⟩, hd.start, hd.le⟩
  have closed : ∀ r' : ρ, Drained S { d with r := r', currentFrameInfo := none } r' output :=
    fun r' => ⟨⟨rfl, hm.dict, hm.dictId, hm.maxOutput, hm.output⟩, hd.start, hd.le⟩
  simp only [readEndMark, Spec.endOfFrame, Proc.bind_run, Proc.get_run, Run.ret_bind,
    Proc.andThen_ok, Proc.ofExcept_run, h.len]
  cases checkContentLen f.info f.content.length with
  | error e => exact .error hd
  | ok u =>
    rw [Proc.andThen_ok, Proc.andThen_ok]
    by_cases hc : f.info.contentChecksum = true
    · rw [if_pos hc, if_pos hc]
      obtain ⟨p, hp⟩ := readChecksum_returns d.r
      refine (onReader_refines hp).bind (fun a d' b r' hd' => ?_) fun d' r' hd' => hd' ▸ drained r'
      obtain ⟨rfl, rfl⟩ := hd'
      rw [← h.hash hc]
      simp only [Proc.bind_run, Proc.refuse_run]
      split
      · exact .error (drained r')
      · exact .ok ⟨closed r', rfl⟩
    · rw [if_neg hc, if_neg hc]
      exact .ok ⟨closed d.r, rfl⟩

/-- What reading a block, or the end of the frame, comes to. -/
def AfterBlock (S : Settings) (f : Frame) (output n : Nat) (d : FrameDecoder X ρ)
    (q : Option (List UInt8 × Nat)) (r : ρ) : Prop :=
  match q with
  | none => n = 0 ∧ Drained S d r output ∧ d.currentFrameInfo = none
  | some (b, out) => n = b.length ∧ Holds S f b d r out ∧ InOutput S f b out

theorem readBlock_refines {S : Settings} {f : Frame} {d : FrameDecoder X ρ} {r : ρ} {output : Nat}
    (limited : Bool) (hwhy : S.why = blockError S.target S.dict) (ho : Open f d)
    (hw : Windowed f (between f) d) (hd : Drained S d r output) (hle : f.content.length ≤ output) :
    Refines (AfterBlock S f output) (fun d' r' => Drained S d' r' output)
      (readBlock S.target limited d) (Spec.nextBlock X S f output r) := by
  obtain ⟨p, hp, hp₁, hready, hkept, hr⟩ := Run.WP_iff.mp (slideWindow_ok ho hw hd.start)
  obtain ⟨p₁, d₁⟩ := p
  obtain rfl : p₁ = .ok () := hp₁
  dsimp only at hready hkept hr
  have hm : Matches S d₁ r output := ⟨hr.trans hd.r, hkept.dict.trans hd.dict,
    hkept.dictId.trans hd.dictId, hkept.maxOutput.trans hd.maxOutput, hkept.output.trans hd.output⟩
  simp only [readBlock, Proc.bind_run, Proc.get_run, Run.ret_bind, Proc.andThen_ok, Proc.lift_run,
    Run.assert, if_pos hd.start, ho.info, getSize_eq ho.size, hp]
  obtain rfl := hm.r
  have after : ∀ (_ : Unit) (d' : FrameDecoder X ρ) (q : List UInt8 × Nat) (r' : ρ),
      Counted S f q.1 d' r' q.2 ∧ InOutput S f q.1 q.2 → (readBlock.afterBlock f.info d').WP fun p =>
        ∃ n, p.1 = .ok n ∧ AfterBlock S f output n p.2 (some q) r' :=
    fun _ d' q r' h => (afterBlock_ok h.1).mono fun p hp => ⟨_, hp.1, rfl, hp.2, h.2⟩
  obtain ⟨q, hq⟩ := readBlockInfo_returns d₁.r
  refine (onReader_refines hq).bind (fun a d' b r' h => ?_) fun d' r' h => ?_
  · obtain ⟨rfl, rfl⟩ := h
    have hready' : Ready f { d₁ with r := r' } :=
      hready.write ⟨Nat.le_refl _, fun _ _ _ => rfl⟩ (Nat.zero_le _) d₁.src r'
    have hm' : Matches S { d₁ with r := r' } r' output :=
      ⟨rfl, hm.dict, hm.dictId, hm.maxOutput, hm.output⟩
    cases a with
    | endMark =>
      exact (readEndMark_refines hready' hm').bind (fun _ d'' _ r'' h => .ok ⟨rfl, h.1, h.2⟩)
        fun _ _ h => h
    | uncompressed len =>
      exact ((readUncompressed_refines len.toNat hready' hm' hle).thenLeft after
        fun _ _ h => h).thenRight fun _ _ _ _ h => h
    | compressed len =>
      exact ((readCompressed_refines limited len.toNat hwhy hready' hm' hle).thenLeft after
        fun _ _ h => h).thenRight fun _ _ _ _ h => h
  · subst h
    exact ⟨⟨rfl, hm.dict, hm.dictId, hm.maxOutput, hm.output⟩, (hready.drained hm).start,
      (hready.drained hm).le⟩

end Lz4rip.Proof.Frame
