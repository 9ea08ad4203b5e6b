import Lz4rip.Proof.Frame.Accept
import Lz4rip.Proof.Frame.Granularity

/-!
# The language of the frame decoder

`Outcome` is what the bytes of a stream come to, however they are read. They are read to
their end if and only if they are a stream (`outcome_iff`); up to an error what is given
is what is in the frames and blocks in front of it (`outcome_parts`); one stream behind
the other gives one content behind the other (`outcome_append`).
-/

namespace Lz4rip.Proof.Frame

open Lz4rip.Impl
open Spec (Frame FrameText Naive Settings Text)

variable {X : XxHash32} {t : Target} {options : FrameDecoderOptions}

/-- A decoder of `bytes` gives `D` and then the error, if there is one: in one
`read_to_end` of the slice, and in any reads of a reader that gives the bytes in
pieces. -/
structure Outcome (X : XxHash32) (t : Target) (options : FrameDecoderOptions) (bytes D : List UInt8)
    (o : Option Error) : Prop where
  readToEnd : ∃ d, (Spec.frameDecoder X t true).call (FrameDecoder.withOptions X t bytes options)
    .readToEnd = .ret (⟨D, o⟩, d)
  session : ∀ (r : Reader) (cs : List (Spec.Call Reader)) (taken : List UInt8)
    (ended : Option (Option Error)), Delivers r bytes → (∀ c ∈ cs, c.reads = true) →
    (Spec.frameDecoder X t true).session (FrameDecoder.withOptions X t r options) cs =
      .ret (taken, ended) →
    match ended with
    | none => taken <+: D
    | some o' => taken = D ∧ o' = o

theorem Left.outcome {bytes D : List UInt8} {o : Option Error} {f : Naive (List UInt8)}
    (h : Left X (settings t options) (Naive.start bytes) D o f) : Outcome X t options bytes D o :=
  ⟨h.readToEnd, fun _ _ _ _ hr hcs hsession => h.session hr hcs hsession⟩

theorem Outcome.unique {bytes D D' : List UInt8} {o o' : Option Error}
    (h : Outcome X t options bytes D o) (h' : Outcome X t options bytes D' o') : D = D' ∧ o = o' := by
  obtain ⟨d, hd⟩ := h.readToEnd
  obtain ⟨d', hd'⟩ := h'.readToEnd
  obtain ⟨hreply, -⟩ := Prod.mk.inj (Run.ret.inj (hd.symm.trans hd'))
  exact Spec.Reply.mk.inj hreply

/-- There is always an outcome, which is that of the naive decoder. -/
theorem Outcome.left {bytes D : List UInt8} {o : Option Error} (h : Outcome X t options bytes D o) :
    ∃ f, Left X (settings t options) (Naive.start bytes) D o f := by
  obtain ⟨D', o', f, hleft⟩ := Left.total (X := X) (S := settings t options) (Naive.start bytes)
  obtain ⟨rfl, rfl⟩ := h.unique hleft.outcome
  exact ⟨f, hleft⟩

/-- The limit is a `usize`. -/
def Limited (t : Target) (options : FrameDecoderOptions) : Prop :=
  (settings t options).maxOutput < t.modulus

instance : Decidable (Limited t options) := inferInstanceAs (Decidable (_ < _))

theorem Outcome.text (hX : Spec.Lawful X) {bytes D : List UInt8} (h : Outcome X t options bytes D none) :
    Text X (settings t options).dict (settings t options).dictId D bytes ∧
      D.length ≤ (settings t options).maxOutput := by
  obtain ⟨f, hleft⟩ := h.left
  obtain ⟨htext, hle⟩ := Left.text hX (Nat.zero_le _) hleft
  exact ⟨htext, by rwa [Nat.zero_add] at hle⟩

theorem outcome_text (hX : Spec.Lawful X) (hmax : Limited t options) {bytes D : List UInt8}
    (h : Text X (settings t options).dict (settings t options).dictId D bytes)
    (hle : D.length ≤ (settings t options).maxOutput) : Outcome X t options bytes D none := by
  obtain ⟨f, hleft⟩ := (Text.left hX hmax h 0).1 (by rwa [Nat.zero_add])
  exact hleft.outcome

/-- A decoder reads bytes to their end if and only if they are frames with its `Dict_ID`
one after the other, with no more in them than its limit. -/
theorem outcome_iff (hX : Spec.Lawful X) (hmax : Limited t options) (bytes D : List UInt8) :
    Outcome X t options bytes D none ↔
      Text X (settings t options).dict (settings t options).dictId D bytes ∧
        D.length ≤ (settings t options).maxOutput :=
  ⟨fun h => h.text hX, fun h => outcome_text hX hmax h.1 h.2⟩

/-- A frame with a stored block of one byte. -/
def byteFrame : List UInt8 :=
  [0x04, 0x22, 0x4D, 0x18, 0x60, 0x40, 0x82, 1, 0, 0, 0x80, 7, 0, 0, 0, 0]

theorem byteFrame_text : Text Spec.xxHash32 [] none [7] byteFrame := by
  have hheader : FrameText Spec.xxHash32 [] ⟨⟨none, none, .max64KB, .independent, false, false⟩, []⟩ _ :=
    .header (by decide)
  have hblock := hheader.block (b := [7]) (by decide) .stored
  exact Text.nil.frame hblock rfl rfl

theorem outcome_iff_byteFrame :
    Outcome Spec.xxHash32 ⟨.w64, false, false⟩ ⟨none, none⟩ byteFrame [7] none :=
  (outcome_iff Spec.xxHash32_lawful (by decide) byteFrame [7]).mpr ⟨byteFrame_text, by decide⟩

theorem Outcome.arrives (hX : Spec.Lawful X) {bytes D : List UInt8} {o : Option Error}
    (h : Outcome X t options bytes D o) :
    ∃ s, Arrived X (settings t options) bytes 0 s D ∧ (o = none → s.frame = none ∧ s.r = []) := by
  obtain ⟨_, blocks, hd, rfl⟩ := h.left
  exact hd.arrives hX (.start (Nat.zero_le _) bytes)

/-- Whatever the outcome, what is given is what is in whole frames at the start of the
bytes, and then in whole blocks behind a header: no byte of a block is given before all
of the block is read and its checksum is right. -/
theorem outcome_parts (hX : Spec.Lawful X) {bytes D : List UInt8} {o : Option Error}
    (h : Outcome X t options bytes D o) :
    let S := settings t options
    D.length ≤ S.maxOutput ∧ ∃ content whole rest, Text X S.dict S.dictId content whole ∧
      ((bytes = whole ++ rest ∧ D = content ∧ (o = none → rest = [])) ∨
        ∃ f more, FrameText X S.dict f more ∧ f.info.dictId = S.dictId ∧
          bytes = whole ++ (more ++ rest) ∧ D = content ++ f.content ∧ o ≠ none) := by
  intro S
  obtain ⟨s, ⟨-, houtput, hfits, content, whole, htext, hparts⟩, hend⟩ := h.arrives hX
  rw [Nat.zero_add] at houtput
  refine ⟨by rw [houtput] at hfits; exact hfits, content, whole, s.r, htext, ?_⟩
  cases hf : s.frame with
  | none =>
    rw [hf] at hparts
    exact .inl ⟨hparts.1, hparts.2, fun ho => (hend ho).2⟩
  | some f =>
    rw [hf] at hparts
    obtain ⟨more, hmore, hid, hbytes, hD⟩ := hparts
    refine .inr ⟨f, more, hmore, hid, hbytes, hD, fun ho => ?_⟩
    rw [(hend ho).1] at hf
    cases hf

/-- Behind a frame, one that is cut off in its block. -/
theorem outcome_parts_byteFrame :
    let S := settings ⟨.w64, false, false⟩ ⟨none, none⟩
    [7].length ≤ S.maxOutput ∧ ∃ content whole rest, Text Spec.xxHash32 S.dict S.dictId content whole ∧
      ((byteFrame ++ byteFrame.take 11 = whole ++ rest ∧ [7] = content ∧ (some EOF = none → rest = [])) ∨
        ∃ f more, FrameText Spec.xxHash32 S.dict f more ∧ f.info.dictId = S.dictId ∧
          byteFrame ++ byteFrame.take 11 = whole ++ (more ++ rest) ∧ [7] = content ++ f.content ∧
          some EOF ≠ none) := by
  intro S
  obtain ⟨D, o, f, hleft⟩ :=
    Left.total (X := Spec.xxHash32) (S := S) (Naive.start (byteFrame ++ byteFrame.take 11))
  obtain ⟨d, hd⟩ := hleft.outcome.readToEnd
  have hrun : ((Spec.frameDecoder Spec.xxHash32 ⟨.w64, false, false⟩ true).call
      (FrameDecoder.withOptions Spec.xxHash32 ⟨.w64, false, false⟩ (byteFrame ++ byteFrame.take 11)
        ⟨none, none⟩) .readToEnd >>= fun p => .ret p.1) = .ret ⟨[7], some EOF⟩ := by
    decide +kernel
  rw [hd] at hrun
  obtain ⟨rfl, rfl⟩ := Spec.Reply.mk.inj (Run.ret.inj hrun)
  exact outcome_parts Spec.xxHash32_lawful hleft.outcome

/-- Whatever the outcome, a byte of the stream gives at most 255 bytes. -/
theorem outcome_length_le (hX : Spec.Lawful X) {bytes D : List UInt8} {o : Option Error}
    (h : Outcome X t options bytes D o) : D.length ≤ 255 * bytes.length := by
  obtain ⟨s, ⟨-, -, -, content, whole, htext, hparts⟩, -⟩ := h.arrives hX
  have hcontent := htext.length_le
  cases hf : s.frame with
  | none =>
    rw [hf] at hparts
    obtain ⟨rfl, rfl⟩ := hparts
    rw [List.length_append]
    omega
  | some f =>
    rw [hf] at hparts
    obtain ⟨more, hmore, -, rfl, rfl⟩ := hparts
    have := hmore.length_le
    simp only [List.length_append]
    omega

theorem outcome_length_le_byteFrame : [7].length ≤ 255 * byteFrame.length :=
  have h : Outcome Spec.xxHash32 ⟨.w64, false, false⟩ ⟨none, none⟩ byteFrame [7] none :=
    outcome_text Spec.xxHash32_lawful (by decide) byteFrame_text (by decide)
  outcome_length_le Spec.xxHash32_lawful h

/-! ## Streams behind each other -/

/-- The error of a block that is too long for the limit behind `out` bytes. -/
def TooLong (S : Settings) (out : Nat) (e : Error) : Prop :=
  ∃ n, e = Exceeded S n ∧ S.maxOutput < n ∧ n ≤ out + 4194304

/-- A decoder that has given `k` bytes before is like one that has not, up to the limit. -/
theorem shift_alike {S : Settings} (hmax : S.maxOutput < S.target.modulus) (k : Nat) :
    Alike (TooLong S) (fun r r' : List UInt8 => r = r') (fun out out' => out = k + out') S S where
  dict := rfl
  dictId := rfl
  why := rfl
  full _ n hr := readFull_same n hr
  count {out out'} len hlen ho := by
    subst ho
    by_cases hfits : k + out' + len ≤ S.maxOutput
    · exact .inr ⟨_, _, checkOutputLen_fits hmax hfits, checkOutputLen_fits hmax (by omega),
        Nat.add_assoc ..⟩
    · have hlt := Nat.lt_of_not_le hfits
      exact .inl ⟨_, checkOutputLen_exceeds hlt, .inl ⟨_, rfl, hlt, Nat.add_le_add_left hlen _⟩⟩

/-- A decoder whose count does not take a block says how long it would be. -/
theorem checkOutputLen_error {S : Settings} (hmax : S.maxOutput < S.target.modulus) {out len : Nat} {e : Error}
    (h : checkOutputLen S.target S.maxOutput out len = .error e) :
    S.maxOutput < out + len ∧ e = Exceeded S (out + len) := by
  by_cases hfits : out + len ≤ S.maxOutput
  · rw [show checkOutputLen S.target S.maxOutput out len = _ from checkOutputLen_fits hmax hfits] at h
    cases h
  · have hlt := Nat.lt_of_not_le hfits
    rw [checkOutputLen_exceeds hlt] at h
    exact ⟨hlt, (Except.error.inj h).symm⟩

/-- Behind the blocks with the content `D` comes a block of `len` bytes. -/
def BlockBehind (X : XxHash32) (S : Settings) (bytes D : List UInt8) (len : Nat) : Prop :=
  ∃ blocks f r, blocks.flatten = D ∧ Comes X S (Naive.start bytes) blocks f D.length r ∧
    LengthAt X S f r len ∧ len ≤ 4194304

/-- The block that a stream is refused for. -/
theorem Left.refused {S : Settings} (hmax : S.maxOutput < S.target.modulus) {bytes D : List UInt8}
    {limit actual : Nat} {f : Naive (List UInt8)}
    (h : Left X S (Naive.start bytes) D (some (.decompressedSizeLimit limit actual)) f) :
    ∃ len, BlockBehind X S bytes D len ∧ S.maxOutput < D.length + len ∧
      Error.decompressedSizeLimit limit actual = Exceeded S (D.length + len) := by
  obtain ⟨blocks, hd, rfl⟩ := h
  obtain ⟨g, r, len, hcomes, hlen, hle, hcheck⟩ := hd.exceeds rfl
  have hcount : (Naive.start bytes).output + blocks.flatten.length =
      ((Naive.start bytes).pending ++ blocks.flatten).length := Nat.zero_add _
  rw [show ({ Naive.start bytes with pending := [] } : Naive (List UInt8)) = Naive.start bytes from rfl]
    at hcomes hcheck
  rw [hcount] at hcomes hcheck
  obtain ⟨hlt, he⟩ := checkOutputLen_error hmax hcheck
  exact ⟨len, ⟨blocks, g, r, rfl, hcomes, hlen, hle⟩, hlt, he⟩

/-- One stream behind the other gives one content behind the other, and then what the
second one comes to, unless a block of the second one is longer than the limit leaves room
for. Where both are read to their end, the limit decides. -/
theorem outcome_append (hX : Spec.Lawful X) (hmax : Limited t options) {s₁ s₂ D₁ D₂ : List UInt8}
    {o : Option Error} (h₁ : Outcome X t options s₁ D₁ none) (h₂ : Outcome X t options s₂ D₂ o) :
    let S := settings t options
    (Outcome X t options (s₁ ++ s₂) (D₁ ++ D₂) o ∨
      ∃ D len, D <+: D₂ ∧ BlockBehind X S (s₁ ++ s₂) (D₁ ++ D) len ∧
        S.maxOutput < (D₁ ++ D).length + len ∧
        Outcome X t options (s₁ ++ s₂) (D₁ ++ D) (some (Exceeded S ((D₁ ++ D).length + len)))) ∧
    (o = none → (Outcome X t options (s₁ ++ s₂) (D₁ ++ D₂) none ↔ (D₁ ++ D₂).length ≤ S.maxOutput)) := by
  intro S
  obtain ⟨htext, hle⟩ := h₁.text hX
  refine ⟨?_, fun ho => ⟨fun h => (h.text hX).2, fun hfits => ?_⟩⟩
  · obtain ⟨_, blocks, hd, rfl⟩ := h₂.left
    -- the first stream is read to its end
    obtain ⟨hreach, -⟩ := Text.reads 0 hX hmax htext s₂
    rw [Nat.zero_add] at hreach
    obtain ⟨-, blocks₁, rfl, hfirst⟩ := hreach hle
    -- and then the decoder is like a new one, but for its count
    have halike := shift_alike hmax blocks₁.flatten.length
    obtain ⟨bs, o', f, hsecond, hstops⟩ := hd.upto halike (headersAlike_same halike)
      (s := reading none s₂ blocks₁.flatten.length) ⟨rfl, rfl, rfl, rfl⟩ rfl
    have hall := hfirst _ _ _ hsecond
    rcases hstops with ⟨rfl, rfl, -⟩ | ⟨e, rfl, ⟨n, rfl, -⟩, hpre⟩
    · exact .inl (Left.outcome ⟨_, hall, List.flatten_append.symm⟩)
    · have hleft : Left X S (Naive.start (s₁ ++ s₂)) (blocks₁.flatten ++ bs.flatten) (some (Exceeded S n)) f :=
        ⟨_, hall, List.flatten_append.symm⟩
      obtain ⟨len, hblock, hlt, he⟩ := hleft.refused hmax
      rw [show Exceeded S n = _ from he] at hleft
      obtain ⟨more, rfl⟩ := hpre
      refine .inr ⟨bs.flatten, len, ?_, hblock, hlt, hleft.outcome⟩
      rw [List.flatten_append]
      exact List.prefix_append ..
  · subst ho
    exact outcome_text hX hmax (htext.append (h₂.text hX).1) hfits

/-- Two frames of one byte. -/
theorem outcome_append_byteFrame :
    let S := settings ⟨.w64, false, false⟩ ⟨none, none⟩
    (Outcome Spec.xxHash32 ⟨.w64, false, false⟩ ⟨none, none⟩ (byteFrame ++ byteFrame) ([7] ++ [7]) none ∨
      ∃ (D : List UInt8) (len : Nat), D <+: [7] ∧
        BlockBehind Spec.xxHash32 S (byteFrame ++ byteFrame) ([7] ++ D) len ∧
        S.maxOutput < ([7] ++ D).length + len ∧
        Outcome Spec.xxHash32 ⟨.w64, false, false⟩ ⟨none, none⟩ (byteFrame ++ byteFrame) ([7] ++ D)
          (some (Exceeded S (([7] ++ D).length + len)))) ∧
    ((none : Option Error) = none →
      (Outcome Spec.xxHash32 ⟨.w64, false, false⟩ ⟨none, none⟩ (byteFrame ++ byteFrame) ([7] ++ [7]) none ↔
        ([7] ++ [7] : List UInt8).length ≤ S.maxOutput)) := by
  have hbyte : Outcome Spec.xxHash32 ⟨.w64, false, false⟩ ⟨none, none⟩ byteFrame [7] none :=
    outcome_text Spec.xxHash32_lawful (by decide) byteFrame_text (by decide)
  exact outcome_append Spec.xxHash32_lawful (by decide) hbyte hbyte

end Lz4rip.Proof.Frame
