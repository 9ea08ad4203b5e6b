import Lz4rip.Proof.Frame.Drain
import Lz4rip.Proof.Frame.Refine
import Lz4rip.Spec.Hash

/-!
# The dictionary of a frame

A decoder has a frame open only if the frame's `Dict_ID` is the decoder's
(`Admitted`, kept by every step). At any other header a call ends, with no frame
open and nothing of it delivered (`Refuses`). The error is the one that
`Display` has a text for (`dictError`) unless both have a `Dict_ID`: then the code
exchanges the two (`checkDictId_mismatched`), and prints them exchanged.
-/

namespace Lz4rip.Proof.Frame

open Lz4rip.Impl
open Lz4rip.Impl.FrameDecoder
open Spec (Settings Naive)

variable {X : XxHash32} {S : Settings} {ρ : Type} [Read ρ]

/-! ## The check -/

/-- The error whose text, as `Display` prints it, is what a frame and a decoder with these
ids are. -/
def dictError : (frame decoder : Option UInt32) → Option Error
  | none, none => none
  | some _, none => some .dictionaryNotSupported
  | none, some _ => some .dictionaryRequired
  | some f, some d => if f = d then none else some (.dictIdMismatch f d)

/-- The message that prints the ids of a frame and a decoder. -/
def mismatchMessage (frame decoder : UInt32) : String :=
  "dictionary ID mismatch: frame declares " ++ hex8 frame ++ ", decoder has " ++ hex8 decoder

/-- Both have an id, and they differ. -/
def Mismatched (frame decoder : Option UInt32) : Prop :=
  frame.isSome ∧ decoder.isSome ∧ frame ≠ decoder

instance (frame decoder : Option UInt32) : Decidable (Mismatched frame decoder) :=
  inferInstanceAs (Decidable (_ ∧ _))

variable {f d : Option UInt32}

theorem dictError_some_iff : (∃ e, dictError f d = some e) ↔ f ≠ d := by
  cases f <;> cases d <;> simp [dictError]

theorem checkDictId_ok_iff : checkDictId f d = .ok () ↔ f = d := by
  cases f <;> cases d <;> simp [checkDictId]

theorem checkDictId_error (h : ¬ Mismatched f d) {e : Error} (he : dictError f d = some e) :
    checkDictId f d = .error e := by
  match f, d with
  | none, none => cases he
  | some _, none => exact congrArg _ (Option.some.inj he)
  | none, some _ => exact congrArg _ (Option.some.inj he)
  | some a, some b =>
    have hne := dictError_some_iff.mp ⟨e, he⟩
    exact absurd ⟨rfl, rfl, hne⟩ h

theorem dictError_display {a b : UInt32} {e : Error} (h : dictError (some a) (some b) = some e) :
    e.display = mismatchMessage a b := by
  simp only [dictError] at h
  split at h
  · cases h
  · obtain rfl := Option.some.inj h
    rfl

/-- The error of the code has the ids exchanged, and so has its message. -/
theorem checkDictId_mismatched {a b : UInt32} (h : a ≠ b) :
    ∃ e, checkDictId (some a) (some b) = .error e ∧ e = .dictIdMismatch b a ∧
      e.display = mismatchMessage b a ∧ dictError (some a) (some b) = some (.dictIdMismatch a b) :=
  ⟨_, if_pos h, rfl, rfl, if_neg h⟩

/-! ## Open frames -/

/-- The open frame has the decoder's id. -/
def Admitted (S : Settings) (s : Naive ρ) : Prop := ∀ f, s.frame = some f → f.info.dictId = S.dictId

omit [Read ρ] in
theorem Admitted.closed {s : Naive ρ} (h : s.frame = none) : Admitted S s := fun f hf => by
  rw [h] at hf
  cases hf

variable [LawfulRead ρ]

theorem openFrame_admitted {s : Naive ρ} (h : Admitted S s) :
    Proc.WP (fun q s' => Admitted S s' ∧ s'.frame = q) (fun _ => Admitted S)
      (Naive.openFrame X S s) := by
  unfold Naive.openFrame
  rw [Proc.bind_run, Proc.get_run, Run.ret_bind, Proc.andThen_ok]
  cases hf : s.frame with
  | some f => exact ⟨h, hf⟩
  | none =>
    refine ((onReader_ok (readHeader_ok X s.r)).mono (fun _ _ h => h) ?_).bind ?_
    · rintro e _ ⟨r', rfl, -⟩
      exact .closed hf
    · rintro q _ ⟨r', rfl, -⟩
      cases q with
      | none => exact ⟨.closed hf, hf⟩
      | some p =>
        refine Proc.WP.bind (Proc.WP_ofExcept
          (Q := fun _ s' => p.1.dictId = S.dictId ∧ s' = { s with r := r' })
          (fun _ ha => ⟨checkDictId_ok_iff.mp ha, rfl⟩) fun _ _ => .closed hf) ?_
        rintro _ _ ⟨hid, rfl⟩
        refine ⟨fun f hf => ?_, rfl⟩
        obtain rfl := Option.some.inj hf
        exact hid

theorem readMoreStep_admitted {s : Naive ρ} (h : Admitted S s) :
    Proc.WP (fun _ => Admitted S) (fun _ => Admitted S) (Naive.readMoreStep X S () s) := by
  unfold Naive.readMoreStep Naive.blockStep
  refine (openFrame_admitted h).bind fun q s₁ ⟨h₁, hq⟩ => ?_
  cases q with
  | none => exact h₁
  | some f =>
    dsimp only
    rw [Proc.bind_run, Proc.get_run, Run.ret_bind, Proc.andThen_ok, Proc.WP_bind, Proc.WP_attempt]
    refine (onReader_ok (nextBlock_ok X S f s₁.output s₁.r)).mono ?_ fun _ _ _ => .closed rfl
    rintro q _ ⟨r', rfl, -⟩
    match q with
    | none => exact .closed rfl
    | some (b, out) =>
      have hpush : Admitted S ⟨r', some (f.push b), b, out⟩ := fun g hg => by
        obtain rfl := Option.some.inj hg
        exact h₁ f hq
      dsimp only
      rw [Proc.bind_run, Proc.modify_run, Run.ret_bind, Proc.andThen_ok, Proc.ite_run]
      exact .ite (fun _ => hpush) fun _ => hpush

theorem readMoreStep_keeps {s s' : Naive ρ} {x : Except Error (Run.Flow Unit Nat)}
    (h : Admitted S s) (hs : Naive.readMoreStep X S () s = .ret (x, s')) : Admitted S s' := by
  have hw := readMoreStep_admitted (X := X) h
  rw [hs] at hw
  cases x with
  | ok _ => exact hw
  | error _ => exact hw

/-- No step opens another frame. -/
theorem Accepts.admitted {s s' : Naive ρ} {bytes : List UInt8} {bs : List (List UInt8)}
    (h : Accepts X S s bytes bs s') (hs : Admitted S s) : Admitted S s' := by
  induction h with
  | refl => exact hs
  | stop _ h => exact readMoreStep_keeps hs h
  | fail _ h => exact readMoreStep_keeps hs h
  | skip _ h => exact readMoreStep_keeps hs h
  | block _ h _ => exact readMoreStep_keeps hs h
  | take => exact hs
  | replace => exact hs
  | trans _ _ ih ih' => exact ih' (ih hs)

theorem run_accepts : ∀ {cs : List (Spec.Call ρ)} {s s' : Naive ρ} {rs : List Spec.Reply},
    (Spec.naive X S).run s cs = .ret (rs, s') → ∃ bytes bs, Accepts X S s bytes bs s'
  | [], s, _, _, h => by
    obtain ⟨-, rfl⟩ := Prod.mk.inj (Run.ret.inj h)
    exact ⟨[], [], .refl s⟩
  | c :: cs, s, s', rs, h => by
    obtain ⟨⟨r, s₁⟩, hc, h⟩ := Run.bind_eq_ret.mp h
    obtain ⟨⟨rs', s₂⟩, hr, h⟩ := Run.bind_eq_ret.mp h
    obtain ⟨-, rfl⟩ := Prod.mk.inj (Run.ret.inj h)
    obtain ⟨bs, hbs⟩ := call_accepts hc
    obtain ⟨bytes', bs', hbs'⟩ := run_accepts hr
    exact ⟨_, _, hbs.trans hbs'⟩

/-! ## Inside of the calls -/

theorem visits_readToEnd {limited : Bool} (hwhy : S.why = blockError S.target S.dict)
    {d₀ d : FrameDecoder X ρ} {s₀ : Naive ρ} {buf : List UInt8} (h : Rep S d₀ s₀)
    (hv : Proc.Visits (readToEndStep S.target limited) [] d₀ buf d) :
    ∃ s bs, Rep S d s ∧ Accepts X S s₀ buf bs s := by
  induction hv with
  | start => exact ⟨s₀, [], h, .refl s₀⟩
  | @step buf buf' d d' _ he ih =>
    obtain ⟨s, bs, hr, hbs⟩ := ih
    obtain ⟨p, q, hp, hq, hb⟩ := readToEndStep_refines limited hwhy buf hr
    obtain ⟨flow, s', bytes, bs', hs, hbs', hflow⟩ := readToEndStep_accepts (X := X) (S := S) buf s
    obtain rfl := Run.ret.inj (he.symm.trans hp)
    obtain rfl := Run.ret.inj (hs.symm.trans hq)
    match flow, hb, hflow with
    | .next _, ⟨⟨rfl, hr'⟩, _⟩, .inl hn =>
      obtain rfl := Run.Flow.next.inj hn
      exact ⟨s', _, hr', hbs.trans hbs'⟩

theorem visits_readMore {limited : Bool} (hwhy : S.why = blockError S.target S.dict) {u u₁ : Unit}
    {d d₁ : FrameDecoder X ρ} {s : Naive ρ} (h : Idle S d s)
    (hv : Proc.Visits (readMoreStep S.target limited) u d u₁ d₁) :
    ∃ s₁, Idle S d₁ s₁ ∧ Accepts X S s [] [] s₁ := by
  induction hv with
  | start => exact ⟨s, h, .refl s⟩
  | step _ he ih =>
    obtain ⟨s₁, hi, hbs⟩ := ih
    obtain ⟨p, ⟨y, s₂⟩, hp, hq, hb⟩ := readMoreStep_refines limited hwhy hi
    obtain rfl := Run.ret.inj (he.symm.trans hp)
    match y, hb with
    | .ok (.next ()), hi' => exact ⟨s₂, hi', hbs.trans (.skip hi.empty hq)⟩

omit [LawfulRead ρ] in
/-- A header that the check refuses. -/
theorem readMoreStep_refused {t : Target} {limited : Bool} {d : FrameDecoder X ρ} {info : FrameInfo}
    {required : Nat} {r' : ρ} {e : Error} (hclosed : d.currentFrameInfo = none)
    (hheader : readHeader X d.r = .ret (.ok (some (info, required)), r'))
    (he : checkDictId info.dictId d.expectedDictId = .error e) :
    readMoreStep t limited () d = .ret (.error e, { d with r := r' }) := by
  have hread : readFrameInfo t d = .ret (.error e, { d with r := r' }) := by
    simp only [readFrameInfo, onReader, Proc.bind_run, hheader, Run.ret_bind, Proc.andThen_ok,
      Proc.get_run, Proc.ofExcept_run, he, Proc.andThen_error]
  have hnone : d.currentFrameInfo.isNone = true := by rw [hclosed, Option.isNone_none]
  unfold readMoreStep openFrame
  rw [Proc.bind_run, Proc.bind_run, Proc.get_run, Run.ret_bind, Proc.andThen_ok, Proc.ite_run,
    if_pos hnone, hread, Run.ret_bind, Proc.andThen_error]

/-- The calls that come from `d` to a header end with `e` in `d'`: the one that
has read `buf` up to `d` gives these bytes, and the ones that start at `d` give
nothing. -/
structure Refuses (t : Target) (d₀ : FrameDecoder X ρ) (buf : List UInt8) (d d' : FrameDecoder X ρ)
    (e : Error) : Prop where
  closed : d'.currentFrameInfo = none
  pending : d'.dstStart = d'.dstEnd
  read (len : Nat) : (Spec.frameDecoder X t true).call d (.read len) = .ret (⟨[], some e⟩, d')
  fillBuf : (Spec.frameDecoder X t true).call d .fillBuf = .ret (⟨[], some e⟩, d')
  readToEnd : (Spec.frameDecoder X t true).call d₀ .readToEnd = .ret (⟨buf, some e⟩, d')

omit [LawfulRead ρ] in
theorem refuses_of_readMore {t : Target} {d₀ d d' : FrameDecoder X ρ} {buf : List UInt8} {e : Error}
    (hk : e.kind ≠ .interrupted) (hclosed : d'.currentFrameInfo = none)
    (hpending : d'.dstStart = d'.dstEnd) (hd : d.dstStart = d.dstEnd)
    (hmore : readMore t true d = .ret (.error e, d'))
    (hv : Proc.Visits (readToEndStep t true) [] d₀ buf d)
    (hret : ∃ p, FrameDecoder.readToEnd t true d₀ = .ret p) : Refuses t d₀ buf d d' e := by
  have hread (len : Nat) : FrameDecoder.read t true len d = .ret (.error e, d') := by
    unfold FrameDecoder.read
    refine Proc.loop_error ?_
    rw [Proc.bind_run, Proc.get_run, Run.ret_bind, Proc.andThen_ok, Proc.ite_run,
      if_neg (by omega), Proc.bind_run, hmore, Run.ret_bind, Proc.andThen_error]
  have hfill : FrameDecoder.fillBuf t true d = .ret (.error e, d') := by
    unfold FrameDecoder.fillBuf
    rw [Proc.bind_run, Proc.get_run, Run.ret_bind, Proc.andThen_ok, Proc.ite_run, if_pos hd,
      Proc.bind_run, hmore, Run.ret_bind, Proc.andThen_error]
  have hend : FrameDecoder.readToEnd t true d₀ = .ret (.ok (buf, .error e), d') := by
    obtain ⟨p, hp⟩ := hret
    unfold FrameDecoder.readToEnd at hp ⊢
    rw [Proc.bind_run, Proc.get_run, Run.ret_bind, Proc.andThen_ok] at hp ⊢
    refine hv.done hp ?_
    simp only [readToEndStep, Proc.bind_run, Proc.attempt_run, hfill, Run.ret_bind, Proc.andThen_ok,
      Proc.ite_run, if_neg hk, Proc.pure_run]
  refine ⟨hclosed, hpending, fun len => ?_, ?_, ?_⟩
  · simp only [Spec.Calls.call, Spec.frameDecoder, hread, Run.ret_bind, Run.pure_eq, Spec.Calls.reply]
  · simp only [Spec.Calls.call, Spec.frameDecoder, hfill, Run.ret_bind, Run.pure_eq,
      Spec.Calls.reply]
  · simp only [Spec.Calls.call, Spec.frameDecoder, hend, Run.ret_bind, Run.pure_eq]

/-! ## The gate -/

/-- What is asked at a header: if the ids differ, the calls that come to it from
`d` end with the documented error, and its message prints the two ids. -/
def Gated (t : Target) (id : Option UInt32) (d₀ : FrameDecoder X ρ) (buf : List UInt8)
    (d d₁ : FrameDecoder X ρ) (info : FrameInfo) (r' : ρ) : Prop :=
  info.dictId ≠ id → ∃ e, dictError info.dictId id = some e ∧
    (∀ a b, info.dictId = some a → id = some b → e.display = mismatchMessage a b) ∧
    Refuses t d₀ buf d { d₁ with r := r' } e

/-- Where the check fails, the calls that come to it fail. -/
theorem Rep.refuses {d₀ d d₁ : FrameDecoder X ρ} {s₀ s s₁ : Naive ρ} {buf : List UInt8}
    {info : FrameInfo} {required : Nat} {r' : ρ} {e : Error} (h : Rep S d₀ s₀)
    (hwhy : S.why = blockError S.target S.dict) (hidle : Idle S d s) (hidle₁ : Idle S d₁ s₁)
    (hend : Proc.Visits (readToEndStep S.target true) [] d₀ buf d)
    (hmore : Proc.Visits (readMoreStep S.target true) () d () d₁)
    (hclosed : d₁.currentFrameInfo = none)
    (hheader : readHeader X d₁.r = .ret (.ok (some (info, required)), r'))
    (he : checkDictId info.dictId S.dictId = .error e) :
    Refuses S.target d₀ buf d { d₁ with r := r' } e := by
  have hpending : d.dstStart = d.dstEnd := hidle.drained.start
  have hpending₁ : d₁.dstStart = d₁.dstEnd := hidle₁.drained.start
  have hstep : readMoreStep S.target true () d₁ = .ret (.error e, { d₁ with r := r' }) :=
    readMoreStep_refused hclosed hheader (hidle₁.dictId ▸ he)
  obtain ⟨p, -, hp, -⟩ := readMore_refines true hwhy hidle
  obtain ⟨q, -, hq, -⟩ := readToEnd_refines true hwhy h
  have hfails : readMore S.target true d = .ret (.error e, { d₁ with r := r' }) := by
    unfold readMore at hp ⊢
    rw [Proc.bind_run, Proc.get_run, Run.ret_bind, Proc.andThen_ok] at hp ⊢
    exact hmore.error hp hstep
  exact refuses_of_readMore (checkDictId_formal he).1 hclosed hpending₁ hpending hfails hend ⟨q, hq⟩

omit [LawfulRead ρ] in
/-- A header is refused as documented unless both have an id. -/
theorem gated_iff {t : Target} {id : Option UInt32} {d₀ d d₁ : FrameDecoder X ρ} {buf : List UInt8}
    {info : FrameInfo} {r' : ρ}
    (h : ∀ e, checkDictId info.dictId id = .error e → Refuses t d₀ buf d { d₁ with r := r' } e) :
    Gated t id d₀ buf d d₁ info r' ↔ ¬ Mismatched info.dictId id := by
  constructor
  · rintro hg ⟨hf, hd, hne⟩
    obtain ⟨e, he, -, hr⟩ := hg hne
    obtain ⟨a, ha⟩ := Option.isSome_iff_exists.mp hf
    obtain ⟨b, rfl⟩ := Option.isSome_iff_exists.mp hd
    rw [ha] at h he hne
    have hab : a ≠ b := fun hab => hne (congrArg some hab)
    obtain ⟨_, hcheck, rfl, -, hdoc⟩ := checkDictId_mismatched hab
    -- both errors are the reply of the same call
    have hboth := (h _ hcheck).fillBuf.symm.trans hr.fillBuf
    obtain rfl := Option.some.inj (hdoc.symm.trans he)
    have herror := congrArg Spec.Reply.error (Prod.mk.inj (Run.ret.inj hboth)).1
    exact hab (Error.dictIdMismatch.inj (Option.some.inj herror)).2
  · intro hm hne
    obtain ⟨e, he⟩ := dictError_some_iff.mpr hne
    refine ⟨e, he, fun a b ha hb => ?_, h e (checkDictId_error hm he)⟩
    rw [ha, hb] at he
    exact dictError_display he

/-- After any calls, and inside of them: an open frame has the decoder's id, and a
header is refused as documented unless both have an id. -/
theorem dictionary_gate (X : XxHash32) (t : Target) (options : FrameDecoderOptions) (r : Reader)
    (cs : List (Spec.Call Reader)) (rs : List Spec.Reply) (d₀ d d₁ : FrameDecoder X Reader)
    (buf : List UInt8)
    (hrun : (Spec.frameDecoder X t true).run (withOptions X t r options) cs = .ret (rs, d₀))
    (hend : Proc.Visits (readToEndStep t true) [] d₀ buf d) (hempty : d.dstStart = d.dstEnd)
    (hmore : Proc.Visits (readMoreStep t true) () d () d₁) :
    (∀ info, d₁.currentFrameInfo = some info →
      info.dictId = options.dictionary.map fun p => p.2) ∧
    ∀ info required r', d₁.currentFrameInfo = none →
      readHeader X d₁.r = .ret (.ok (some (info, required)), r') →
      (Gated t (options.dictionary.map fun p => p.2) d₀ buf d d₁ info r' ↔
        ¬ Mismatched info.dictId (options.dictionary.map fun p => p.2)) := by
  have hwhy := settings_why t options
  have hsame := run_refines true hwhy cs _ _ (withOptions_rep X t r options)
  rw [settings_target, hrun] at hsame
  obtain ⟨hpanic, -⟩ | ⟨_, ⟨_, s₀⟩, hp, hrun₀, -, hrep₀⟩ := hsame.cases
  · cases hpanic
  obtain rfl := Run.ret.inj hp
  obtain ⟨_, _, hacc₀⟩ := run_accepts hrun₀
  obtain ⟨s, _, hrep, hacc⟩ := visits_readToEnd hwhy hrep₀ hend
  have hidle : Idle (settings t options) d s :=
    ⟨hrep, List.length_eq_zero_iff.mp (by have := hrep.start; omega)⟩
  obtain ⟨s₁, hidle₁, hacc₁⟩ := visits_readMore hwhy hidle hmore
  have hadm : Admitted (settings t options) s₁ :=
    hacc₁.admitted (hacc.admitted (hacc₀.admitted (.closed rfl)))
  refine ⟨fun info hinfo => ?_, fun info required r' hclosed hheader => ?_⟩
  · cases hf : s₁.frame with
    | none =>
      rw [hidle₁.closed hf] at hinfo
      cases hinfo
    | some f =>
      rw [(hidle₁.opened f hf).1.info] at hinfo
      obtain rfl := Option.some.inj hinfo
      exact hadm f hf
  · exact gated_iff fun e he => hrep₀.refuses hwhy hidle hidle₁ hend hmore hclosed hheader he

/-- A frame with a dictionary, and a decoder without one. -/
theorem dictionary_gate_notSupported :
    let header : List UInt8 := [0x04, 0x22, 0x4D, 0x18, 0x61, 0x40, 0xAA, 0xAA, 0xAA, 0xAA, 17]
    let info : FrameInfo := ⟨none, some 0xAAAAAAAA, .max64KB, .independent, false, false⟩
    let d := withOptions Spec.xxHash32 ⟨.w64, false, false⟩ (⟨[.data header]⟩ : Reader) ⟨none, none⟩
    Gated ⟨.w64, false, false⟩ none d [] d d info ⟨[]⟩ := by
  intro header info d
  exact ((dictionary_gate Spec.xxHash32 ⟨.w64, false, false⟩ ⟨none, none⟩ ⟨[.data header]⟩ [] [] d d d
    [] rfl .start rfl .start).2 info 11 ⟨[]⟩ rfl (by decide)).mpr (by decide)

/-- A frame with another dictionary than the decoder: the ids are exchanged. -/
theorem dictIdMismatch_exchanged :
    let header : List UInt8 := [0x04, 0x22, 0x4D, 0x18, 0x61, 0x40, 0xAA, 0xAA, 0xAA, 0xAA, 17]
    let d := withDictionary Spec.xxHash32 ⟨.w64, false, false⟩ (⟨[.data header]⟩ : Reader) [1]
      0xBBBBBBBB
    ∃ info e, FrameInfo.read Spec.xxHash32 header = .ok info ∧ info.dictId = some 0xAAAAAAAA ∧
      (Spec.frameDecoder Spec.xxHash32 ⟨.w64, false, false⟩ true).replies d [.fillBuf] =
        .ret [⟨[], some e⟩] ∧
      dictError info.dictId (some 0xBBBBBBBB) ≠ some e ∧
      e.display = "dictionary ID mismatch: frame declares 0xbbbbbbbb, decoder has 0xaaaaaaaa" := by
  refine ⟨⟨none, some 0xAAAAAAAA, .max64KB, .independent, false, false⟩,
    .dictIdMismatch 0xBBBBBBBB 0xAAAAAAAA, ?_⟩
  decide

end Lz4rip.Proof.Frame
