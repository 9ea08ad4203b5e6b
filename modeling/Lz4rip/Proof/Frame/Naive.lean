import Lz4rip.Proof.Frame.Io
import Lz4rip.Spec.Frame

/-!
# The reads of a frame

Each of them returns, with any reader, and uses up what it has read:
`readHeader_ok`, `nextBlock_ok`. An error that says that a call was interrupted
has used up something as well (`Fails`), so reading again after it comes to an
end.
-/

namespace Lz4rip.Proof.Frame

open Lz4rip.Impl
open Spec (Frame Settings)

variable {ρ : Type} [Read ρ]

/-- Readers of the type `ρ` are never interrupted. -/
def Calm (ρ : Type) [Read ρ] : Prop :=
  ∀ (n : Nat) (r r' : ρ) (e : IoError), Read.read n r = (.error e, r') → e.kind ≠ .interrupted

/-- How reading from `r` on fails. -/
def Fails (r : ρ) (e : Error) (r' : ρ) : Prop :=
  Read.left r' ≤ Read.left r ∧ (e.kind = .interrupted → Read.left r' < Read.left r ∧ ¬ Calm ρ)

/-- Some of what is left at `r` is used up: `n` at least. -/
def Used (r : ρ) (n : Nat) (r' : ρ) : Prop := Read.left r' + n ≤ Read.left r

theorem Fails.of_used {r r' r'' : ρ} {e : Error} {n : Nat} (h : Used r n r') (he : Fails r' e r'') :
    Fails r e r'' := by
  obtain ⟨h₁, h₂⟩ := he
  unfold Used at h
  exact ⟨by omega, fun hk => ⟨by have := (h₂ hk).1; omega, (h₂ hk).2⟩⟩

theorem Fails.of_kind {r r' : ρ} {e : Error} {n : Nat} (h : Used r n r')
    (hk : e.kind ≠ .interrupted) : Fails r e r' :=
  ⟨by unfold Used at h; omega, fun he => absurd he hk⟩

theorem Used.trans {r r' r'' : ρ} {n m : Nat} (h : Used r n r') (h' : Used r' m r'') :
    Used r (n + m) r'' := by
  unfold Used at *
  omega

theorem Used.refl (r : ρ) : Used r 0 r := Nat.le_refl _

theorem Used.mono {r r' : ρ} {n m : Nat} (h : Used r n r') (hm : m ≤ n) : Used r m r' := by
  unfold Used at *
  omega

/-- Reads that go on where others have left the reader. -/
theorem Used.then {α : Type} {Q : α → ρ → Prop} {r r' : ρ} {n : Nat} {x : Run (Except Error α × ρ)}
    (h : Used r n r') (hx : Proc.WP Q (Fails r') x) : Proc.WP Q (Fails r) x :=
  hx.mono (fun _ _ hq => hq) fun _ _ he => he.of_used h

theorem Used.check {α : Type} {r r' : ρ} {n : Nat} {x : Except Error α} (h : Used r n r')
    (hx : ∀ e, x = .error e → e.kind ≠ .interrupted) :
    Proc.WP (fun a r'' => x = .ok a ∧ r'' = r') (Fails r) (Proc.ofExcept x r') :=
  Proc.WP_ofExcept (fun _ ha => ⟨ha, rfl⟩) fun e he => .of_kind h (hx e he)

theorem Used.refuse {c : Prop} {_ : Decidable c} {r r' : ρ} {n : Nat} {e : Error} (h : Used r n r')
    (he : e.kind ≠ .interrupted) :
    Proc.WP (fun _ r'' => r'' = r') (Fails r) (Proc.refuse c e r') :=
  Proc.WP_refuse (fun _ => rfl) fun _ => .of_kind h he

/-! ## The errors of what is read -/

/-- An error of what is read: neither an interrupted call, nor one of the output limit. -/
def Formal (e : Error) : Prop := e.kind ≠ .interrupted ∧ ∀ limit actual, e ≠ .decompressedSizeLimit limit actual

theorem readSlice_formal {n : Nat} {input : List UInt8} {e : Error}
    (h : FrameInfo.readSlice n input = .error e) : Formal e := by
  unfold FrameInfo.readSlice at h
  split at h
  · obtain rfl := Except.error.inj h
    exact ⟨by decide, nofun⟩
  · cases h

theorem readOptional_formal {α : Type} {present : Bool} {n : Nat} {ofLe : List UInt8 → α}
    {input : List UInt8} {e : Error} (h : FrameInfo.readOptional present n ofLe input = .error e) :
    Formal e := by
  unfold FrameInfo.readOptional at h
  split at h
  · split at h
    · rename_i he
      obtain rfl := Except.error.inj h
      exact readSlice_formal he
    · cases h
  · cases h

theorem readBlockSize_formal {bd : UInt8} {e : Error} (h : FrameInfo.readBlockSize bd = .error e) :
    Formal e := by
  unfold FrameInfo.readBlockSize at h
  split at h
  case h_5 =>
    obtain rfl := Except.error.inj h
    exact ⟨nofun, nofun⟩
  all_goals cases h

/-- An error of a sequence of steps is one of theirs. -/
theorem bind_error {α β : Type} {x : Except Error α} {f : α → Except Error β} {P : Error → Prop}
    {e : Error} (h : (x >>= f) = .error e) (hx : ∀ e, x = .error e → P e)
    (hf : ∀ a, x = .ok a → f a = .error e → P e) : P e := by
  cases x with
  | ok a => exact hf a rfl h
  | error e' => exact hx e (congrArg _ (Except.error.inj h))

theorem bind_ok {α β : Type} {x : Except Error α} {f : α → Except Error β} {b : β}
    (h : (x >>= f) = .ok b) : ∃ a, x = .ok a ∧ f a = .ok b := by
  cases x with
  | ok a => exact ⟨a, rfl, h⟩
  | error e => cases h

theorem readDescriptor_formal {X : XxHash32} {originalInput input : List UInt8} {e : Error}
    (h : FrameInfo.readDescriptor X originalInput input = .error e) : Formal e := by
  refine bind_error h (fun _ => readSlice_formal) fun p _ h => ?_
  dsimp only at h
  split at h
  · obtain rfl := Except.error.inj h
    exact ⟨nofun, nofun⟩
  split at h
  · obtain rfl := Except.error.inj h
    exact ⟨nofun, nofun⟩
  refine bind_error h (fun _ => readBlockSize_formal) fun _ _ h => ?_
  refine bind_error h (fun _ => readOptional_formal) fun _ _ h => ?_
  refine bind_error h (fun _ => readOptional_formal) fun _ _ h => ?_
  refine bind_error h (fun _ => readSlice_formal) fun _ _ h => ?_
  split at h
  · obtain rfl := Except.error.inj h
    exact ⟨nofun, nofun⟩
  · cases h

theorem frameInfoRead_formal {X : XxHash32} {input : List UInt8} {e : Error}
    (h : FrameInfo.read X input = .error e) : Formal e := by
  refine bind_error h (fun _ => readSlice_formal) fun _ _ h => ?_
  dsimp only at h
  split at h
  · refine bind_error h (fun _ => readSlice_formal) fun _ _ h => ?_
    obtain rfl := Except.error.inj h
    exact ⟨nofun, nofun⟩
  split at h
  · obtain rfl := Except.error.inj h
    exact ⟨by decide, nofun⟩
  · exact readDescriptor_formal h

/-- A header that is read has a block size. -/
theorem frameInfoRead_size {X : XxHash32} {input : List UInt8} {info : FrameInfo}
    (h : FrameInfo.read X input = .ok info) : info.blockSize ≠ .auto := by
  obtain ⟨_, _, h⟩ := bind_ok h
  dsimp only at h
  split at h
  · obtain ⟨_, _, h⟩ := bind_ok h
    cases h
  split at h
  · cases h
  obtain ⟨_, _, h⟩ := bind_ok h
  dsimp only at h
  split at h
  · cases h
  split at h
  · cases h
  obtain ⟨size, hs, h⟩ := bind_ok h
  obtain ⟨_, _, h⟩ := bind_ok h
  obtain ⟨_, _, h⟩ := bind_ok h
  obtain ⟨_, _, h⟩ := bind_ok h
  split at h
  · cases h
  obtain rfl := Except.ok.inj h
  dsimp only
  rintro rfl
  unfold FrameInfo.readBlockSize at hs
  split at hs <;> cases hs

theorem blockInfoRead_formal {input : List UInt8} {e : Error} (h : BlockInfo.read input = .error e) :
    Formal e := by
  refine bind_error h (fun _ => readSlice_formal) fun _ _ h => ?_
  dsimp only at h
  split at h
  · cases h
  split at h <;> cases h

theorem checkOutputLen_kind {t : Target} {maxOutput bytesOutput len : Nat} {e : Error}
    (h : checkOutputLen t maxOutput bytesOutput len = .error e) : e.kind ≠ .interrupted := by
  unfold checkOutputLen at h
  split at h
  · obtain rfl := Except.error.inj h
    nofun
  split at h
  · obtain rfl := Except.error.inj h
    nofun
  · cases h

theorem checkContentLen_formal {info : FrameInfo} {n : Nat} {e : Error}
    (h : checkContentLen info n = .error e) : Formal e := by
  unfold checkContentLen at h
  split at h
  · split at h
    · obtain rfl := Except.error.inj h
      exact ⟨nofun, nofun⟩
    · cases h
  · cases h

theorem checkBlockChecksum_formal {X : XxHash32} {data : List UInt8} {expected : UInt32} {e : Error}
    (h : checkBlockChecksum X data expected = .error e) : Formal e := by
  unfold checkBlockChecksum at h
  split at h
  · obtain rfl := Except.error.inj h
    exact ⟨by decide, nofun⟩
  · cases h

theorem checkDictId_formal {a b : Option UInt32} {e : Error} (h : checkDictId a b = .error e) :
    Formal e := by
  unfold checkDictId at h
  split at h
  · cases h
  · obtain rfl := Except.error.inj h
    exact ⟨by decide, nofun⟩
  · obtain rfl := Except.error.inj h
    exact ⟨by decide, nofun⟩
  · split at h
    · obtain rfl := Except.error.inj h
      exact ⟨nofun, nofun⟩
    · cases h

theorem decodeBlock_formal {S : Settings} {f : Frame} {data : List UInt8} {e : Error}
    (h : Spec.decodeBlock S f data = .error e) : Formal e := by
  unfold Spec.decodeBlock at h
  split at h
  · split at h
    · cases h
    · obtain rfl := Except.error.inj h
      exact ⟨nofun, nofun⟩
  · obtain rfl := Except.error.inj h
    exact ⟨nofun, nofun⟩

theorem blockLimit_le (b : BlockSize) : Spec.blockLimit b ≤ 4194304 := by
  cases b <;> decide

theorem decodeBlock_length {S : Settings} {f : Frame} {data b : List UInt8}
    (h : Spec.decodeBlock S f data = .ok b) : b.length ≤ 4194304 := by
  have hmax := blockLimit_le f.info.blockSize
  unfold Spec.decodeBlock at h
  split at h
  · split at h
    · obtain rfl := Except.ok.inj h
      omega
    · cases h
  · cases h

/-! ## The reads -/

variable [LawfulRead ρ]

theorem readFull_ok (n : Nat) (r : ρ) :
    Proc.WP (fun b r' => b.length = n ∧ Used r n r') (Fails r) (readFull n r) := by
  unfold readFull
  rcases hread : Read.readExact n r with ⟨got, res, r'⟩
  cases res with
  | ok u => exact LawfulRead.readExact_ok hread
  | error e =>
    obtain ⟨-, hl, hk⟩ := LawfulRead.readExact_error hread
    exact ⟨hl, fun h => absurd h hk⟩

theorem readSome_ok (n : Nat) (r : ρ) :
    Proc.WP (fun b r' => b.length ≤ n ∧ Used r b.length r') (Fails r) (readSome n r) := by
  unfold readSome
  rcases hread : Read.read n r with ⟨res, r'⟩
  cases res with
  | ok b => exact LawfulRead.read_ok hread
  | error e =>
    have hl := LawfulRead.read_error hread
    exact ⟨Nat.le_of_lt hl, fun hk => ⟨hl, fun hc => hc n r r' e hread hk⟩⟩

theorem readChecksum_ok (r : ρ) :
    Proc.WP (fun _ r' => Used r 4 r') (Fails r) (readChecksum r) :=
  (readFull_ok 4 r).bind fun _ _ h => h.2

theorem readBlockInfo_ok (r : ρ) :
    Proc.WP (fun _ r' => Used r 4 r') (Fails r) (readBlockInfo r) :=
  (readFull_ok 4 r).bind fun _ _ h => (h.2.check fun _ h => (blockInfoRead_formal h).1).mono
    (fun _ _ h' => h'.2 ▸ h.2) fun _ _ h' => h'

omit [Read ρ] [LawfulRead ρ] in
theorem readSize_ok {buffer : List UInt8} (h : buffer.length = MIN_FRAME_INFO_SIZE) :
    (FrameInfo.readSize buffer).WP fun res => (∀ n, res = .ok n → MIN_FRAME_INFO_SIZE ≤ n) ∧
      ∀ e, res = .error e → Formal e := by
  have h' : buffer.length = 7 := h
  unfold FrameInfo.readSize
  simp only [Run.WP_bind, Run.WP_chunk, Run.pure_eq]
  refine ⟨by omega, .ite (fun hl => absurd hl (by omega)) fun _ => ?_⟩
  refine .ite (fun _ => ⟨fun n hn => ?_, nofun⟩) fun _ => ?_
  · obtain rfl := Except.ok.inj hn
    decide
  refine .ite (fun _ => ⟨nofun, fun e he => ?_⟩) fun _ => ?_
  · obtain rfl := Except.error.inj he
    exact ⟨by decide, nofun⟩
  rw [Run.index_eq (show 4 < buffer.length by omega), Run.ret_bind]
  refine ⟨fun n hn => ?_, nofun⟩
  obtain rfl := Except.ok.inj hn
  split <;> split <;> decide

theorem readRest_ok (n required : Nat) (r : ρ) :
    Proc.WP (fun b r' => b.length = required - n ∧ Used r 0 r') (Fails r) (readRest n required r) := by
  unfold readRest
  rw [Proc.ite_run]
  refine .ite (fun h => ⟨by rw [h, Nat.sub_self]; rfl, .refl _⟩) fun _ => ?_
  exact (readFull_ok _ _).mono (fun _ _ h => ⟨h.1, h.2.mono (Nat.zero_le _)⟩) fun _ _ h => h

theorem readMagic_ok (r : ρ) :
    Proc.WP (fun b r' => Used r 0 r' ∧ (b ≠ [] → b.length = MAGIC_NUMBER_SIZE)) (Fails r)
      (readMagic r) := by
  unfold readMagic
  refine (readSome_ok MAGIC_NUMBER_SIZE r).bind fun first r₁ ⟨hm, h₁⟩ => ?_
  have u₁ : Used r 0 r₁ := h₁.mono (Nat.zero_le _)
  rw [Proc.ite_run]
  refine .ite (fun _ => ⟨u₁, fun h => absurd rfl h⟩) fun _ => ?_
  refine (u₁.then (readRest_ok _ _ _)).bind fun rest r₂ ⟨hl₂, h₂⟩ => ?_
  exact ⟨u₁.trans h₂, fun _ => by rw [List.length_append, hl₂]; omega⟩

/-- A header, or the end of the stream. -/
theorem readHeader_ok (X : XxHash32) (r : ρ) :
    Proc.WP (fun q r' => Used r 0 r' ∧ ∀ info n, q = some (info, n) → info.blockSize ≠ .auto ∧ n ≠ 0)
      (Fails r) (readHeader X r) := by
  unfold readHeader
  refine (readMagic_ok r).bind fun magic r₂ ⟨u₂, hm⟩ => ?_
  rw [Proc.ite_run]
  refine .ite (fun _ => ⟨u₂, nofun⟩) fun hne => ?_
  refine (u₂.then (readFull_ok _ _)).bind fun fixed r₃ ⟨hl₃, h₃⟩ => ?_
  have u₃ := (u₂.trans h₃).mono (Nat.zero_le _)
  have hlen : (magic ++ fixed).length = MIN_FRAME_INFO_SIZE := by
    rw [List.length_append, hm hne, hl₃]
    rfl
  refine Proc.WP.bind (Proc.WP_lift.mpr ((readSize_ok hlen).mono fun res hres => ?_))
    fun res r₄ h => h
  refine (u₃.check fun e he => (hres.2 e he).1).bind fun required r₄ ⟨hreq, h₄⟩ => ?_
  subst h₄
  refine (u₃.then (readRest_ok _ _ _)).bind fun rest r₅ ⟨_, h₅⟩ => ?_
  have u₅ := u₃.trans h₅
  refine (u₅.check fun _ h => (frameInfoRead_formal h).1).bind fun info r₆ ⟨hinfo, h₆⟩ => ?_
  subst h₆
  refine ⟨u₅, fun info' n h => ?_⟩
  obtain ⟨rfl, rfl⟩ := Prod.mk.inj (Option.some.inj h)
  have hmin : 7 ≤ required := hres.1 required hreq
  exact ⟨frameInfoRead_size hinfo, by omega⟩

theorem verifyData_ok (X : XxHash32) (info : FrameInfo) (data : List UInt8) (r : ρ) :
    Proc.WP (fun _ r' => Used r 0 r') (Fails r) (Spec.verifyData X info data r) := by
  unfold Spec.verifyData
  rw [Proc.ite_run]
  refine .ite (fun _ => ?_) fun _ => Used.refl _
  refine (readChecksum_ok r).bind fun _ r₁ h => ?_
  refine (h.check fun _ h => (checkBlockChecksum_formal h).1).mono (fun _ r₂ h₂ => ?_) fun _ _ h => h
  exact h₂.2 ▸ h.mono (Nat.zero_le _)

theorem readData_ok (X : XxHash32) (info : FrameInfo) (len : Nat) (r : ρ) :
    Proc.WP (fun b r' => b.length = len ∧ Used r 0 r') (Fails r) (Spec.readData X info len r) := by
  unfold Spec.readData
  refine (readFull_ok len r).bind fun data r₁ ⟨hl, h⟩ => ?_
  refine (h.then (verifyData_ok X info data r₁)).bind fun _ _ h₁ => ?_
  exact ⟨hl, (h.trans h₁).mono (Nat.zero_le _)⟩

/-- The output counts a block of `n` bytes. -/
def Counts (S : Settings) (output n out : Nat) : Prop :=
  checkOutputLen S.target S.maxOutput output n = .ok out

omit [Read ρ] [LawfulRead ρ] in
theorem Counts.eq {S : Settings} {output n out : Nat} (h : Counts S output n out) :
    out = output + n ∧ out < S.target.modulus ∧ out ≤ S.maxOutput := by
  unfold Counts checkOutputLen at h
  split at h
  · cases h
  · split at h
    · cases h
    · obtain rfl := Except.ok.inj h
      omega

/-- The error that a decoder without a limit gives when its count overflows. -/
abbrev Overflow (t : Target) : Error := .decompressedSizeLimit t.usizeMax t.usizeMax

omit [Read ρ] [LawfulRead ρ] in
theorem checkOutputLen_unlimited (t : Target) (out len : Nat) :
    checkOutputLen t t.usizeMax out len =
      if t.modulus ≤ out + len then .error (Overflow t) else .ok (out + len) := by
  unfold checkOutputLen Target.usizeMax
  split
  · rfl
  · rw [if_neg (by omega)]

theorem storedBlock_ok (X : XxHash32) (S : Settings) (f : Frame) (output len : Nat) (r : ρ) :
    Proc.WP (fun q r' => Used r 0 r' ∧ Counts S output q.1.length q.2) (Fails r)
      (Spec.storedBlock X S f output len r) := by
  unfold Spec.storedBlock
  refine ((Used.refl r).refuse (by decide)).bind fun _ r₁ h₁ => ?_
  subst h₁
  refine ((Used.refl _).check fun _ => checkOutputLen_kind).bind fun _ r₂ ⟨hout, h₂⟩ => ?_
  subst h₂
  exact (readData_ok X f.info len _).bind fun _ _ h => ⟨h.2, h.1 ▸ hout⟩

theorem compressedBlock_ok (X : XxHash32) (S : Settings) (f : Frame) (output len : Nat) (r : ρ) :
    Proc.WP (fun q r' => Used r 0 r' ∧ Counts S output q.1.length q.2) (Fails r)
      (Spec.compressedBlock X S f output len r) := by
  unfold Spec.compressedBlock
  refine ((Used.refl r).refuse (by decide)).bind fun _ r₁ h₁ => ?_
  subst h₁
  refine (readData_ok X f.info len _).bind fun _ r₂ ⟨_, u₂⟩ => ?_
  refine (u₂.check fun _ h => (decodeBlock_formal h).1).bind fun _ r₃ ⟨_, h₃⟩ => ?_
  subst h₃
  refine (u₂.check fun _ => checkOutputLen_kind).bind fun _ r₄ ⟨hout, h₄⟩ => ?_
  subst h₄
  exact ⟨u₂, hout⟩

theorem endOfFrame_ok (X : XxHash32) (f : Frame) (r : ρ) :
    Proc.WP (fun _ r' => Used r 0 r') (Fails r) (Spec.endOfFrame X f r) := by
  unfold Spec.endOfFrame
  refine ((Used.refl r).check fun _ h => (checkContentLen_formal h).1).bind fun _ r₁ ⟨_, h₁⟩ => ?_
  subst h₁
  rw [Proc.ite_run]
  refine .ite (fun _ => ?_) fun _ => Used.refl _
  refine (readChecksum_ok _).bind fun _ r₂ h₂ => ?_
  have u₂ : Used r₁ 0 r₂ := h₂.mono (Nat.zero_le _)
  exact (u₂.refuse (by decide)).mono (fun _ _ h => h ▸ u₂) fun _ _ h => h

/-- A block, or the end of the frame, is four bytes at least. -/
theorem nextBlock_ok (X : XxHash32) (S : Settings) (f : Frame) (output : Nat) (r : ρ) :
    Proc.WP (fun q r' => Used r 4 r' ∧ ∀ b out, q = some (b, out) → Counts S output b.length out)
      (Fails r) (Spec.nextBlock X S f output r) := by
  unfold Spec.nextBlock
  refine (readBlockInfo_ok r).bind fun info r₁ h₁ => ?_
  cases info with
  | endMark => exact (h₁.then (endOfFrame_ok X f r₁)).bind fun _ _ h => ⟨h₁.trans h, nofun⟩
  | uncompressed len =>
    refine (h₁.then (storedBlock_ok X S f _ _ r₁)).bind fun _ _ h => ⟨h₁.trans h.1, ?_⟩
    rintro _ _ ⟨⟩
    exact h.2
  | compressed len =>
    refine (h₁.then (compressedBlock_ok X S f _ _ r₁)).bind fun _ _ h => ⟨h₁.trans h.1, ?_⟩
    rintro _ _ ⟨⟩
    exact h.2

/-! ## Reading a slice -/

/-- The error at the end of a slice. -/
abbrev EOF : Error := .ioError READ_EXACT_EOF

theorem readFull_slice (n : Nat) (bs : List UInt8) :
    readFull n bs = if n ≤ bs.length then .ret (.ok (bs.take n), bs.drop n)
      else .ret (.error EOF, []) := by
  unfold readFull
  simp only [Read.readExact]
  by_cases h : n ≤ bs.length
  · rw [if_pos h, if_neg (Nat.not_lt_of_le h)]
    rfl
  · rw [if_neg h, if_pos (Nat.lt_of_not_le h)]
    rfl

theorem readRest_slice (n required : Nat) (bs : List UInt8) :
    readRest n required bs = if required - n ≤ bs.length then
        .ret (.ok (bs.take (required - n)), bs.drop (required - n))
      else .ret (.error EOF, []) := by
  unfold readRest
  rw [Proc.ite_run, readFull_slice]
  by_cases he : n = required
  · rw [if_pos he, he, Nat.sub_self, if_pos (Nat.zero_le _)]
    rfl
  · rw [if_neg he]

theorem readMagic_slice (bs : List UInt8) :
    readMagic bs = if bs = [] then .ret (.ok [], [])
      else if MAGIC_NUMBER_SIZE ≤ bs.length then
        .ret (.ok (bs.take MAGIC_NUMBER_SIZE), bs.drop MAGIC_NUMBER_SIZE)
      else .ret (.error EOF, []) := by
  have hsome : readSome MAGIC_NUMBER_SIZE bs =
      .ret (.ok (bs.take MAGIC_NUMBER_SIZE), bs.drop MAGIC_NUMBER_SIZE) := rfl
  have hnil : bs.take MAGIC_NUMBER_SIZE = [] ↔ bs = [] := by
    rw [List.take_eq_nil_iff, or_iff_right (by decide)]
  unfold readMagic
  rw [Proc.bind_run, hsome, Run.ret_bind, Proc.andThen_ok, Proc.ite_run]
  by_cases he : bs = []
  · rw [if_pos (hnil.mpr he), if_pos he, he]
    rfl
  · rw [if_neg (mt hnil.mp he), if_neg he, Proc.bind_run, readRest_slice, List.length_take,
      List.length_drop]
    by_cases h : MAGIC_NUMBER_SIZE ≤ bs.length
    · rw [Nat.min_eq_left h, Nat.sub_self, if_pos (Nat.zero_le _), if_pos h]
      simp only [Run.ret_bind, Proc.andThen_ok, Proc.pure_run, List.take_zero, List.append_nil,
        List.drop_zero]
    · rw [if_neg (by omega), if_neg h]
      rfl

/-! ## The naive decoder's calls -/

section

variable {X : XxHash32} {S : Settings}

omit [Read ρ] [LawfulRead ρ] in
theorem onReader_ok {α : Type} {x : Reads ρ α} {s : Spec.Naive ρ} {Q : α → ρ → Prop}
    {E : Error → ρ → Prop} (h : Proc.WP Q E (x s.r)) :
    Proc.WP (fun a s' => ∃ r', s' = { s with r := r' } ∧ Q a r')
      (fun e s' => ∃ r', s' = { s with r := r' } ∧ E e r') (Spec.Naive.onReader x s) := by
  obtain ⟨a, r', hx, hq⟩ | ⟨e, r', hx, he⟩ := Proc.WP_iff.mp h
  · rw [Spec.Naive.onReader, hx]
    exact ⟨r', rfl, hq⟩
  · rw [Spec.Naive.onReader, hx]
    exact ⟨r', rfl, he⟩

/-- What a failed call leaves. -/
def Broken (s : Spec.Naive ρ) (e : Error) (s' : Spec.Naive ρ) : Prop :=
  s'.pending = [] ∧ s'.frame = none ∧ s'.output = s.output ∧ Fails s.r e s'.r

theorem openFrame_ok {s : Spec.Naive ρ} (hp : s.pending = []) :
    Proc.WP (fun q s' => s'.pending = [] ∧ s'.frame = q ∧ s'.output = s.output ∧ Used s.r 0 s'.r)
      (Broken s) (Spec.Naive.openFrame X S s) := by
  unfold Spec.Naive.openFrame
  rw [Proc.bind_run, Proc.get_run, Run.ret_bind, Proc.andThen_ok]
  cases hf : s.frame with
  | some f => exact ⟨hp, hf, rfl, .refl _⟩
  | none =>
    refine ((onReader_ok (readHeader_ok X s.r)).mono (fun _ _ h => h) ?_).bind ?_
    · rintro e _ ⟨r', rfl, he⟩
      exact ⟨hp, hf, rfl, he⟩
    · rintro q _ ⟨r', rfl, hu, -⟩
      cases q with
      | none => exact ⟨hp, hf, rfl, hu⟩
      | some p =>
        refine Proc.WP.bind (Proc.WP_ofExcept (Q := fun _ s' => s' = { s with r := r' })
          (fun _ _ => rfl) fun e he => ?_) ?_
        · exact ⟨hp, hf, rfl, .of_kind hu (checkDictId_formal he).1⟩
        · rintro _ _ rfl
          exact ⟨hp, rfl, rfl, hu⟩

/-- What reading up to the next block gives: `n` bytes, or the end of the
stream. -/
structure More (S : Settings) (s : Spec.Naive ρ) (n : Nat) (s' : Spec.Naive ρ) : Prop where
  len : s'.pending.length = n
  used : Used s.r (min n 1) s'.r
  counts : n ≠ 0 → Counts S s.output n s'.output
  stop : n = 0 → s'.frame = none ∧ s'.output = s.output

/-- What an iteration that goes on has used up. -/
def Skips (s s' : Spec.Naive ρ) : Prop :=
  s'.pending = [] ∧ s'.output = s.output ∧ Used s.r 4 s'.r

theorem readMoreStep_ok {s : Spec.Naive ρ} (hp : s.pending = []) :
    Proc.WP (Proc.FlowAll (fun _ s' => Skips s s') (More S s)) (Broken s)
      (Spec.Naive.readMoreStep X S () s) := by
  unfold Spec.Naive.readMoreStep Spec.Naive.blockStep
  refine (openFrame_ok hp).bind fun q s₂ ⟨hp₂, hf₂, ho₂, hu₂⟩ => ?_
  cases q with
  | none => exact ⟨by rw [hp₂]; rfl, hu₂, fun h => absurd rfl h, fun _ => ⟨hf₂, ho₂⟩⟩
  | some f =>
    dsimp only
    rw [Proc.bind_run, Proc.get_run, Run.ret_bind, Proc.andThen_ok, Proc.WP_bind, Proc.WP_attempt]
    refine (onReader_ok (nextBlock_ok X S f s₂.output s₂.r)).mono ?_ ?_
    · rintro q _ ⟨r', rfl, hu, hc⟩
      have u : Used s.r 4 r' := by rw [← Nat.zero_add 4]; exact hu₂.trans hu
      match q with
      | none => exact ⟨hp₂, ho₂, u⟩
      | some (b, out) =>
        have hc := hc b out rfl
        rw [ho₂] at hc
        dsimp only
        rw [Proc.bind_run, Proc.modify_run, Run.ret_bind, Proc.andThen_ok, Proc.ite_run]
        refine .ite (fun hb => ?_) fun hb => ?_
        · exact ⟨rfl, u.mono (by omega), fun _ => hc, fun h => absurd h hb⟩
        · have hb := not_not.mp hb
          exact ⟨List.length_eq_zero_iff.mp hb, by rw [hc.eq.1, hb, Nat.add_zero], u⟩
    · rintro e _ ⟨r', rfl, he⟩
      exact ⟨hp₂, rfl, ho₂, he.of_used hu₂⟩

theorem readMore_ok {s : Spec.Naive ρ} (hp : s.pending = []) :
    Proc.WP (More S s) (Broken s) (Spec.Naive.readMore X S s) := by
  unfold Spec.Naive.readMore
  rw [Proc.bind_run, Proc.get_run, Run.ret_bind, Proc.andThen_ok]
  refine Proc.WP.loop (fun _ s' => s'.pending = [] ∧ s'.output = s.output ∧ Used s.r 0 s'.r)
    (fun _ s' => Read.left s'.r) (fun _ s₁ ⟨hp₁, ho₁, hu₁⟩ => ?_) _ () s ⟨hp, rfl, .refl _⟩
    (Nat.lt_succ_self _)
  refine (readMoreStep_ok hp₁).mono (fun flow s₂ h => ?_) fun e s₂ ⟨hp₂, hf₂, ho₂, he⟩ => ?_
  · match flow, h with
    | .next _, ⟨hp₂, ho₂, hu₂⟩ =>
      have hlt : Read.left s₂.r < Read.left s₁.r := by unfold Used at hu₂; omega
      exact ⟨⟨hp₂, ho₂.trans ho₁, (hu₁.trans hu₂).mono (Nat.zero_le _)⟩, hlt⟩
    | .done n, ⟨hl, hu, hc, hs⟩ =>
      refine ⟨hl, (hu₁.trans hu).mono (by omega), ?_, ?_⟩
      · rwa [ho₁] at hc
      · rwa [ho₁] at hs
  · exact ⟨hp₂, hf₂, ho₂.trans ho₁, he.of_used hu₁⟩

/-- What `fill_buf` gives is what is pending after it. -/
def Filled (S : Settings) (s : Spec.Naive ρ) (bs : List UInt8) (s' : Spec.Naive ρ) : Prop :=
  bs = s'.pending ∧ if s.pending = [] then More S s bs.length s' else s' = s

theorem fillBuf_ok (s : Spec.Naive ρ) :
    Proc.WP (Filled S s) (fun e s' => s.pending = [] ∧ Broken s e s')
      (Spec.Naive.fillBuf X S s) := by
  unfold Spec.Naive.fillBuf
  rw [Proc.bind_run, Proc.get_run, Run.ret_bind, Proc.andThen_ok, Proc.ite_run]
  refine .ite (fun hp => ?_) fun hp => ⟨rfl, by rw [if_neg hp]⟩
  refine ((readMore_ok hp).mono (fun _ _ h => h) fun _ _ h => ⟨hp, h⟩).bind fun n s' h => ?_
  refine ⟨rfl, ?_⟩
  rw [if_pos hp, h.len]
  exact h

/-- How far `read_to_end` is. -/
def toEndLeft (s : Spec.Naive ρ) : Nat := Read.left s.r + if s.pending = [] then 0 else 1

end

end Lz4rip.Proof.Frame
