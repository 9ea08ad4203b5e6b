import Lz4rip.Proof.Frame.Deliver

/-!
# What the frame decoder accepts

The converse of `Text.reads`: what the naive decoder has read is a stream, up to the
frame that is open and the blocks of it (`Arrived`), step by step (`Arrived.step`) and
so over a whole run (`Drains.arrives`).
-/

namespace Lz4rip.Proof.Frame

open Lz4rip.Impl
open Spec (BlockText Frame FrameText Naive Settings Text blockBytes blockLimit endBytes headerBytes)

variable {X : XxHash32} {S : Settings}

/-! ## Headers and blocks -/

/-- A header that is accepted is one that is written. -/
theorem readHeader_text (X : XxHash32) (bs : List UInt8) :
    Proc.WP (fun q bs' => match q with
        | none => bs = [] ∧ bs' = []
        | some (info, _) => info.blockSize ≠ .auto ∧ bs = headerBytes X info ++ bs')
      (fun _ _ => True) (readHeader X bs) := by
  unfold readHeader
  refine (readMagic_took bs).bind fun magic bs₁ ⟨hbs, hm⟩ => ?_
  rw [Proc.ite_run]
  refine .ite (fun he => ?_) fun hne => ?_
  · rw [if_pos he] at hm
    rw [he, List.nil_append, hm] at hbs
    exact ⟨hm, hbs.symm⟩
  rw [if_neg hne] at hm
  refine (readFull_took _ bs₁).bind fun fixed bs₂ ⟨hbs₁, hf⟩ => ?_
  have hlen : (magic ++ fixed).length = MIN_FRAME_INFO_SIZE := by
    rw [List.length_append, hm, hf]
    rfl
  obtain ⟨res, hsize, -⟩ := Run.WP_iff.mp (readSize_length hlen)
  rw [Proc.bind_run, Proc.lift_run, hsize, Run.ret_bind, Run.ret_bind, Proc.andThen_ok]
  refine (Proc.WP_ofExcept (Q := fun n bs' => res = .ok n ∧ bs' = bs₂) (fun _ h => ⟨h, rfl⟩)
    fun _ _ => trivial).bind fun required bs₄ ⟨hreq, hbs₄⟩ => ?_
  subst hbs₄ hreq
  refine (readRest_took MIN_FRAME_INFO_SIZE required _).bind fun rest bs₅ ⟨hbs₂, hrest⟩ => ?_
  refine (Proc.WP_ofExcept (Q := fun info bs' => FrameInfo.read X (magic ++ fixed ++ rest) = .ok info ∧
    bs' = bs₅) (fun _ h => ⟨h, rfl⟩) fun _ _ => trivial).bind fun info bs₆ ⟨hinfo, hbs₆⟩ => ?_
  subst hbs₆
  obtain ⟨hauto, more, hmore⟩ := read_iff.mp hinfo
  have hheader := readSize_header (Nat.le_of_eq hlen.symm) (hmore ▸ List.prefix_append _ rest)
  rw [hheader] at hsize
  obtain rfl := Except.ok.inj (Run.ret.inj hsize)
  have hmin := (writeSize_range info).1
  rw [← length_headerBytes X] at hmin
  have hnil : more = [] := by
    have hlens := congrArg List.length hmore
    rw [List.length_append, hlen, hrest, List.length_append, Nat.add_sub_cancel' hmin] at hlens
    exact List.eq_nil_of_length_eq_zero (Nat.add_left_cancel hlens).symm
  refine ⟨hauto, ?_⟩
  rw [hbs, hbs₁, hbs₂, ← List.append_assoc, ← List.append_assoc, hmore, hnil, List.append_nil]

/-- Bits that are set are put back. -/
theorem and_not_or_of_and_eq {w b : UInt32} (h : w &&& b = b) : w &&& ~~~b ||| b = w := by
  have hbits := congrArg UInt32.toBitVec h
  rw [UInt32.toBitVec_and] at hbits
  apply UInt32.eq_of_toBitVec_eq
  ext i hi
  have hbit := congrArg (fun v => v.getLsbD i) hbits
  simp at hbit ⊢
  grind

/-- One bit is all there or not at all. -/
theorem and_bit_eq_bit {w : UInt32} (h : w &&& BLOCK_UNCOMPRESSED_SIZE_BIT ≠ 0) :
    w &&& BLOCK_UNCOMPRESSED_SIZE_BIT = BLOCK_UNCOMPRESSED_SIZE_BIT := by
  have hbit : (w &&& BLOCK_UNCOMPRESSED_SIZE_BIT).toNat = (w.toNat.testBit 31).toNat * 2 ^ 31 := by
    rw [UInt32.toNat_and, ← Nat.and_two_pow]
    rfl
  rw [← UInt32.toNat_inj, hbit]
  cases hw : w.toNat.testBit 31
  · rw [hw, Bool.toNat_false, Nat.zero_mul] at hbit
    exact absurd (UInt32.toNat_inj.mp (hbit.trans UInt32.toNat_zero.symm)) h
  · rfl

theorem readChecksum_text (bs : List UInt8) :
    Proc.WP (fun c bs' => bs = leOfU32 c ++ bs') (fun _ _ => True) (readChecksum bs) :=
  (readFull_took 4 bs).bind fun c _ ⟨hbs, hc⟩ => by
    show bs = leOfU32 (u32OfLe c) ++ _
    rw [codec32.to_of hc, hbs]

/-- The data of a block, and the checksum that it has. -/
theorem readData_text (hX : Spec.Lawful X) (info : FrameInfo) (len : Nat) (bs : List UInt8) :
    Proc.WP (fun data bs' => data.length = len ∧ bs = data ++ sumBytes X info data ++ bs')
      (fun _ _ => True) (Spec.readData X info len bs) := by
  unfold Spec.readData
  refine (readFull_took len bs).bind fun data bs₁ ⟨hbs, hd⟩ => ?_
  suffices hsum : Proc.WP (fun _ bs' => bs₁ = sumBytes X info data ++ bs') (fun _ _ => True)
      (Spec.verifyData X info data bs₁) from
    hsum.bind fun _ bs₂ hbs₁ => ⟨hd, by rw [hbs, hbs₁, List.append_assoc]⟩
  unfold Spec.verifyData sumBytes
  rw [Proc.ite_run]
  refine .ite (fun h => ?_) fun h => by rw [if_neg h]; rfl
  rw [if_pos h]
  refine (readChecksum_text bs₁).bind fun expected bs₂ hbs₁ => ?_
  refine Proc.WP_ofExcept (fun _ hcheck => ?_) fun _ _ => trivial
  unfold checkBlockChecksum at hcheck
  split at hcheck
  · cases hcheck
  · rename_i heq
    rw [hX.oneshot, hbs₁, ← not_not.mp heq]
    rfl

/-- A size that is not zero is told from its bits. -/
theorem readBlockInfo_text (bs : List UInt8) :
    Proc.WP (fun info bs' => match info with
        | .endMark => bs = leOfU32 0 ++ bs'
        | .compressed len => len ≠ 0 ∧ bs = leOfU32 len ++ bs'
        | .uncompressed len => bs = leOfU32 (len ||| BLOCK_UNCOMPRESSED_SIZE_BIT) ++ bs')
      (fun _ _ => True) (readBlockInfo bs) := by
  unfold readBlockInfo
  refine (readFull_took 4 bs).bind fun size bs' ⟨hbs, hs⟩ => ?_
  rw [← codec32.to_of hs] at hbs ⊢
  generalize u32OfLe size = w at hbs ⊢
  rw [blockInfo_read]
  refine Proc.WP_ofExcept (fun info hinfo => ?_) fun _ _ => trivial
  split at hinfo
  · rename_i hz
    obtain rfl := Except.ok.inj hinfo
    rwa [hz] at hbs
  split at hinfo
  · rename_i hbit
    obtain rfl := Except.ok.inj hinfo
    show bs = leOfU32 (w &&& ~~~BLOCK_UNCOMPRESSED_SIZE_BIT ||| BLOCK_UNCOMPRESSED_SIZE_BIT) ++ bs'
    rw [and_not_or_of_and_eq (and_bit_eq_bit hbit), hbs]
  · obtain rfl := Except.ok.inj hinfo
    exact ⟨‹_›, hbs⟩

section

variable {f : Frame} {out : Nat}

/-- What a block is that is read with the size `size`. -/
def ReadsBlock (X : XxHash32) (S : Settings) (f : Frame) (out : Nat) (size : List UInt8)
    (q : List UInt8 × Nat) (bs bs' : List UInt8) : Prop :=
  ∃ more, bs = more ++ bs' ∧ q.1.length ≤ blockLimit f.info.blockSize ∧
    BlockText X S.dict f q.1 (size ++ more) ∧ checkOutputLen S.target S.maxOutput out q.1.length = .ok q.2

theorem storedBlock_text (hX : Spec.Lawful X) (len : UInt32) (bs : List UInt8) :
    Proc.WP (fun q bs' => ReadsBlock X S f out (leOfU32 (len ||| BLOCK_UNCOMPRESSED_SIZE_BIT)) q bs bs')
      (fun _ _ => True) (Spec.storedBlock X S f out len.toNat bs) := by
  unfold Spec.storedBlock
  refine (Proc.WP_refuse (Q := fun _ bs' => len.toNat ≤ blockLimit f.info.blockSize ∧ bs' = bs)
    (fun h => ⟨Nat.le_of_not_lt h, rfl⟩) fun _ => trivial).bind ?_
  rintro _ _ ⟨hle, rfl⟩
  refine (Proc.WP_ofExcept (Q := fun n bs' => checkOutputLen S.target S.maxOutput out len.toNat = .ok n ∧
    bs' = _) (fun _ h => ⟨h, rfl⟩) fun _ _ => trivial).bind ?_
  rintro n _ ⟨hout, rfl⟩
  refine (readData_text hX f.info _ _).bind fun b bs₁ ⟨hb, hbs⟩ => ?_
  rw [← hb] at hle hout
  refine ⟨b ++ sumBytes X f.info b, hbs, hle, ?_, hout⟩
  have hlen : UInt32.ofNat b.length = len := by rw [hb, UInt32.ofNat_toNat]
  rw [← hlen, ← blockBytes_eq]
  exact .stored

theorem compressedBlock_text (hX : Spec.Lawful X) {len : UInt32} (hne : len ≠ 0) (bs : List UInt8) :
    Proc.WP (fun q bs' => ReadsBlock X S f out (leOfU32 len) q bs bs')
      (fun _ _ => True) (Spec.compressedBlock X S f out len.toNat bs) := by
  unfold Spec.compressedBlock
  refine (Proc.WP_refuse (Q := fun _ bs' => len.toNat ≤ blockLimit f.info.blockSize ∧ bs' = bs)
    (fun h => ⟨Nat.le_of_not_lt h, rfl⟩) fun _ => trivial).bind ?_
  rintro _ _ ⟨hle, rfl⟩
  refine (readData_text hX f.info _ _).bind fun data bs₁ ⟨hdata, hbs⟩ => ?_
  refine (Proc.WP_ofExcept (Q := fun b bs' => Spec.decodeBlock S f data = .ok b ∧ bs' = bs₁)
    (fun _ h => ⟨h, rfl⟩) fun _ _ => trivial).bind ?_
  rintro b _ ⟨hdecode, rfl⟩
  refine (Proc.WP_ofExcept (Q := fun n bs' => checkOutputLen S.target S.maxOutput out b.length = .ok n ∧
    bs' = _) (fun _ h => ⟨h, rfl⟩) fun _ _ => trivial).bind ?_
  rintro n _ ⟨hout, rfl⟩
  unfold Spec.decodeBlock at hdecode
  split at hdecode
  · rename_i b' hb'
    split at hdecode
    · rename_i hb
      obtain rfl := Except.ok.inj hdecode
      have hlen : UInt32.ofNat data.length = len := by rw [hdata, UInt32.ofNat_toNat]
      refine ⟨data ++ sumBytes X f.info data, hbs, hb, ?_, hout⟩
      rw [← hlen, ← blockBytes_eq]
      refine .compressed (fun hnil => hne ?_) (by rwa [hdata]) hb'
      rw [← hlen, hnil]
      rfl
    · cases hdecode
  · cases hdecode

theorem endOfFrame_text (f : Frame) (bs : List UInt8) :
    Proc.WP (fun _ bs' => checkContentLen f.info f.content.length = .ok () ∧
        leOfU32 0 ++ bs = endBytes X f ++ bs')
      (fun _ _ => True) (Spec.endOfFrame X f bs) := by
  unfold Spec.endOfFrame endBytes
  refine (Proc.WP_ofExcept (Q := fun _ bs' => checkContentLen f.info f.content.length = .ok () ∧
    bs' = bs) (fun _ h => ⟨h, rfl⟩) fun _ _ => trivial).bind ?_
  rintro _ _ ⟨hlen, rfl⟩
  rw [Proc.ite_run]
  refine .ite (fun h => ?_) fun h => ⟨hlen, by rw [if_neg h]; rfl⟩
  rw [if_pos h]
  refine (readChecksum_text _).bind fun expected bs₂ hbs => ?_
  refine Proc.WP_refuse (fun heq => ⟨hlen, ?_⟩) fun _ => trivial
  rw [hbs, ← not_not.mp heq, List.append_assoc]

/-- The next block of a frame, or its end, is as the format has it. -/
theorem nextBlock_text (out : Nat) (hX : Spec.Lawful X) (bs : List UInt8) :
    Proc.WP (fun q bs' => match q with
        | none => checkContentLen f.info f.content.length = .ok () ∧ bs = endBytes X f ++ bs'
        | some q => ReadsBlock X S f out [] q bs bs')
      (fun _ _ => True) (Spec.nextBlock X S f out bs) := by
  unfold Spec.nextBlock
  have block {size bs₁ bs₂ : List UInt8} {q : List UInt8 × Nat} (hbs : bs = size ++ bs₁)
      (h : ReadsBlock X S f out size q bs₁ bs₂) : ReadsBlock X S f out [] q bs bs₂ := by
    obtain ⟨more, hmore, hle, htext, hout⟩ := h
    exact ⟨size ++ more, by rw [hbs, hmore, List.append_assoc], hle, htext, hout⟩
  refine (readBlockInfo_text bs).bind fun info bs₁ hinfo => ?_
  cases info with
  | endMark =>
    exact (endOfFrame_text f bs₁).bind fun _ bs₂ ⟨hlen, hbs₁⟩ => ⟨hlen, by rw [hinfo, hbs₁]⟩
  | uncompressed len =>
    exact (storedBlock_text hX len bs₁).bind fun _ bs₂ h => block hinfo h
  | compressed len =>
    exact (compressedBlock_text hX hinfo.1 bs₁).bind fun _ bs₂ h => block hinfo.2 h

end

/-! ## A run -/

/-- Where a run has come to that began in front of `bytes`: it has read whole frames, and
of the open frame the header and some blocks, and `D` is what is in them. -/
structure Arrived (X : XxHash32) (S : Settings) (bytes : List UInt8) (out : Nat)
    (s : Naive (List UInt8)) (D : List UInt8) : Prop where
  pending : s.pending = []
  output : s.output = out + D.length
  fits : s.output ≤ S.maxOutput
  parts : ∃ content whole, Text X S.dict S.dictId content whole ∧ match s.frame with
    | none => bytes = whole ++ s.r ∧ D = content
    | some F => ∃ more, FrameText X S.dict F more ∧ F.info.dictId = S.dictId ∧
      bytes = whole ++ (more ++ s.r) ∧ D = content ++ F.content

section

variable {bytes D : List UInt8} {out : Nat} {s : Naive (List UInt8)}

theorem Arrived.start (hout : out ≤ S.maxOutput) (bytes : List UInt8) :
    Arrived X S bytes out (reading none bytes out) [] :=
  ⟨rfl, rfl, hout, [], [], .nil, rfl, rfl⟩

theorem openFrame_arrived (h : Arrived X S bytes out s D) :
    Proc.WP (fun q s' => Arrived X S bytes out s' D ∧ s'.frame = q ∧ (q = none → s'.r = []))
      (fun _ _ => True) (Naive.openFrame X S s) := by
  unfold Naive.openFrame
  rw [Proc.bind_run, Proc.get_run, Run.ret_bind, Proc.andThen_ok]
  cases hf : s.frame with
  | some f => exact ⟨h, hf, nofun⟩
  | none =>
    obtain ⟨hp, hout, hfits, content, whole, htext, hparts⟩ := h
    rw [hf] at hparts
    obtain ⟨hbytes, hD⟩ := hparts
    refine ((onReader_ok (readHeader_text X s.r)).mono (fun _ _ h => h) fun _ _ _ => trivial).bind ?_
    rintro q _ ⟨r', rfl, hq⟩
    cases q with
    | none =>
      obtain ⟨hr, rfl⟩ := hq
      rw [hr] at hbytes
      refine ⟨⟨hp, hout, hfits, content, whole, htext, ?_⟩, hf, fun _ => rfl⟩
      dsimp only
      rw [hf]
      exact ⟨hbytes, hD⟩
    | some q =>
      obtain ⟨hne, hr⟩ := hq
      refine (Proc.WP_ofExcept (Q := fun _ s' => q.1.dictId = S.dictId ∧ s' = { s with r := r' })
        (fun _ hid => ⟨checkDictId_ok_iff.mp hid, rfl⟩) fun _ _ => trivial).bind ?_
      rintro _ _ ⟨hid, rfl⟩
      refine ⟨⟨hp, hout, hfits, content, whole, htext, ?_⟩, rfl, nofun⟩
      exact ⟨_, .header hne, hid, by rw [hbytes, hr], by rw [hD]; exact (List.append_nil _).symm⟩

/-- What a step comes to. -/
def Steps (X : XxHash32) (S : Settings) (bytes : List UInt8) (out : Nat) (D : List UInt8)
    (s : Naive (List UInt8)) : Run.Flow Unit Nat → Prop
  | .next () => Arrived X S bytes out s D
  | .done 0 => Arrived X S bytes out s D ∧ s.frame = none ∧ s.r = []
  | .done _ => Arrived X S bytes out { s with pending := [] } (D ++ s.pending)

theorem blockStep_arrived (hX : Spec.Lawful X) (h : Arrived X S bytes out s D) {f : Frame}
    (hf : s.frame = some f) :
    Proc.WP (fun flow s' => Steps X S bytes out D s' flow) (fun _ _ => True)
      (Naive.blockStep X S f s) := by
  obtain ⟨hp, hout, hfits, content, whole, htext, hparts⟩ := h
  rw [hf] at hparts
  obtain ⟨more, hmore, hid, hbytes, hD⟩ := hparts
  unfold Naive.blockStep
  rw [Proc.bind_run, Proc.get_run, Run.ret_bind, Proc.andThen_ok, Proc.WP_bind, Proc.WP_attempt]
  have hnext := nextBlock_text (S := S) (f := f) s.output hX s.r
  obtain ⟨q, r, hx, -⟩ | ⟨e, r, hx, -⟩ := Proc.WP_iff.mp (nextBlock_ok X S f s.output s.r)
  · rw [hx] at hnext
    simp only [Naive.onReader, hx, Run.ret_bind, Proc.WP_ok]
    cases q with
    | none =>
      obtain ⟨hlen, hr⟩ := hnext
      refine ⟨hp, hout, hfits, content ++ f.content, whole ++ (more ++ endBytes X f), ?_, ?_, hD⟩
      · exact .frame htext hmore hid hlen
      · rw [hbytes, hr]
        simp only [List.append_assoc]
    | some q =>
      obtain ⟨b, n⟩ := q
      obtain ⟨bbytes, hr, hle, hblock, hcheck⟩ := hnext
      obtain ⟨hn, -, hmax⟩ := checkOutputLen_ok hcheck
      have harrived : Arrived X S bytes out ⟨r, some (f.push b), [], n⟩ (D ++ b) := by
        refine ⟨rfl, ?_, hmax, content, whole, htext, more ++ bbytes, .block hmore hle hblock, hid, ?_, ?_⟩
        · rw [List.length_append, ← Nat.add_assoc, ← hout]
          exact hn
        · rw [hbytes, hr, List.append_assoc]
        · rw [hD, Frame.push_content, List.append_assoc]
      dsimp only
      rw [Proc.bind_run, Proc.modify_run, Run.ret_bind, Proc.andThen_ok, Proc.ite_run]
      refine .ite (fun hlen => ?_) fun hlen => ?_
      · obtain ⟨c, bs, rfl⟩ := List.exists_cons_of_length_pos (Nat.pos_of_ne_zero hlen)
        exact harrived
      · obtain rfl := List.eq_nil_of_length_eq_zero (not_not.mp hlen)
        rw [List.append_nil] at harrived
        exact harrived
  · simp only [Naive.onReader, hx, Run.ret_bind, Proc.WP_error]
    trivial

theorem readMoreStep_arrived (hX : Spec.Lawful X) (h : Arrived X S bytes out s D) :
    Proc.WP (fun flow s' => Steps X S bytes out D s' flow) (fun _ _ => True)
      (Naive.readMoreStep X S () s) := by
  unfold Naive.readMoreStep
  refine (openFrame_arrived h).bind fun q s₁ ⟨h₁, hframe, hend⟩ => ?_
  cases q with
  | none => exact ⟨h₁, hframe, hend rfl⟩
  | some f => exact blockStep_arrived hX h₁ hframe

/-- Wherever a run stops, what it has given is what is in the frames and blocks that it
has read; and at the end of the stream no frame is open and nothing is left. -/
theorem Drains.arrives (hX : Spec.Lawful X) {s f : Naive (List UInt8)} {bs : List (List UInt8)}
    {o : Option Error} (hd : Drains X S s bs o f) (h : Arrived X S bytes out s D) :
    ∃ s', Arrived X S bytes out s' (D ++ bs.flatten) ∧ (o = none → s'.frame = none ∧ s'.r = []) := by
  have step {D : List UInt8} {s s' : Naive (List UInt8)} {flow : Run.Flow Unit Nat}
      (h : Arrived X S bytes out s D) (hx : Naive.readMoreStep X S () s = .ret (.ok flow, s')) :
      Steps X S bytes out D s' flow := by
    have hw := readMoreStep_arrived hX h
    rwa [hx] at hw
  induction hd generalizing D with
  | stop hx =>
    obtain ⟨h', hend⟩ := step h hx
    rw [List.flatten_nil, List.append_nil]
    exact ⟨_, h', fun _ => hend⟩
  | fail => exact ⟨_, by rwa [List.flatten_nil, List.append_nil], nofun⟩
  | skip hx _ ih => exact ih (step h hx)
  | block hx hn _ ih =>
    obtain ⟨n, rfl⟩ := Nat.exists_eq_succ_of_ne_zero hn
    obtain ⟨s', h', hend⟩ := ih (step h hx)
    rw [List.append_assoc] at h'
    exact ⟨s', h', hend⟩

/-- What is read to its end is a stream. -/
theorem Left.text (hX : Spec.Lawful X) {f : Naive (List UInt8)} (hout : out ≤ S.maxOutput)
    (h : Left X S (reading none bytes out) D none f) :
    Text X S.dict S.dictId D bytes ∧ out + D.length ≤ S.maxOutput := by
  obtain ⟨blocks, hd, rfl⟩ := h
  obtain ⟨s', h', hend⟩ := hd.arrives hX (.start hout bytes)
  obtain ⟨hf, hr⟩ := hend rfl
  obtain ⟨-, houtput, hfits, content, whole, htext, hparts⟩ := h'
  rw [hf] at hparts
  obtain ⟨hbytes, hD⟩ := hparts
  rw [hr, List.append_nil] at hbytes
  rw [List.nil_append] at hD houtput
  refine ⟨?_, ?_⟩
  · rw [hbytes]
    show Text X S.dict S.dictId blocks.flatten whole
    rwa [hD]
  · show out + blocks.flatten.length ≤ S.maxOutput
    rwa [← houtput]

end

end Lz4rip.Proof.Frame
