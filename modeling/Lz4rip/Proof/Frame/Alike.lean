import Lz4rip.Proof.Frame.Drain

/-!
# Two naive decoders side by side

`Alike B R O S S'` is what two readers, related by `R`, and two counts of the
output, related by `O`, have to keep to, so that the decoders do the same up to
an error in `B out` of the left one, which has counted `out`: `nextBlock_upto`,
`blockStep_upto`. With the headers alike as well, the left one drains to the same
end, or to the error (`Drains.upto`).
-/

namespace Lz4rip.Proof.Frame

open Lz4rip.Impl
open Lz4rip.Proc (Upto)
open Spec (Frame Settings Naive)

variable {X : XxHash32} {ρ τ : Type} [Read ρ] [Read τ]

/-- The same value, in related readers. -/
def SameIn {α : Type} (R : ρ → τ → Prop) (a : α) (r : ρ) (b : α) (r' : τ) : Prop := a = b ∧ R r r'

/-- Two decoders that are alike, up to an error in `B` of the left one. -/
structure Alike (B : Nat → Error → Prop) (R : ρ → τ → Prop) (O : Nat → Nat → Prop) (S S' : Settings) :
    Prop where
  dict : S.dict = S'.dict
  dictId : S.dictId = S'.dictId
  why : S.why = S'.why
  full : ∀ {r r'} out n, R r r' → Upto (B out) (SameIn R) R (readFull n r) (readFull n r')
  count : ∀ {out out'} len, len ≤ 4194304 → O out out' →
    (∃ e, checkOutputLen S.target S.maxOutput out len = .error e ∧
      (B out e ∨ checkOutputLen S'.target S'.maxOutput out' len = .error e)) ∨
    ∃ o o', Counts S out len o ∧ Counts S' out' len o' ∧ O o o'

variable {B : Nat → Error → Prop} {R : ρ → τ → Prop} {O : Nat → Nat → Prop} {S S' : Settings}

theorem readChecksum_upto (h : Alike B R O S S') (out : Nat) {r : ρ} {r' : τ} (hr : R r r') :
    Upto (B out) (SameIn R) R (readChecksum r) (readChecksum r') := by
  refine (h.full out 4 hr).bind ?_ fun _ _ h => h
  rintro b r _ r' ⟨rfl, hr⟩
  exact .ok ⟨rfl, hr⟩

theorem readBlockInfo_upto (h : Alike B R O S S') (out : Nat) {r : ρ} {r' : τ} (hr : R r r') :
    Upto (B out) (SameIn R) R (readBlockInfo r) (readBlockInfo r') := by
  refine (h.full out 4 hr).bind ?_ fun _ _ h => h
  rintro b r _ r' ⟨rfl, hr⟩
  exact .same _ (fun _ _ => ⟨rfl, hr⟩) hr

theorem readRest_upto (h : Alike B R O S S') (out : Nat) {r : ρ} {r' : τ} (hr : R r r')
    (n required : Nat) :
    Upto (B out) (SameIn R) R (readRest n required r) (readRest n required r') :=
  .ite (fun _ => .ok ⟨rfl, hr⟩) fun _ => h.full out _ hr

theorem verifyData_upto (h : Alike B R O S S') (out : Nat) {r : ρ} {r' : τ} (hr : R r r')
    (info : FrameInfo) (data : List UInt8) : Upto (B out) (SameIn R) R (Spec.verifyData X info data r)
      (Spec.verifyData X info data r') := by
  refine .ite (fun _ => (readChecksum_upto h out hr).bind ?_ fun _ _ h => h) fun _ => .ok ⟨rfl, hr⟩
  rintro b r _ r' ⟨rfl, hr⟩
  exact .same _ (fun _ _ => ⟨rfl, hr⟩) hr

theorem readData_upto (h : Alike B R O S S') (out : Nat) {r : ρ} {r' : τ} (hr : R r r')
    (info : FrameInfo) (len : Nat) : Upto (B out) (SameIn R) R (Spec.readData X info len r)
      (Spec.readData X info len r') := by
  refine (h.full out len hr).bind ?_ fun _ _ h => h
  rintro b r _ r' ⟨rfl, hr⟩
  refine (verifyData_upto h out hr info b).bind ?_ fun _ _ h => h
  rintro _ r _ r' ⟨-, hr⟩
  exact .ok ⟨rfl, hr⟩

/-- The same block, and related counts. -/
def SameBlock (R : ρ → τ → Prop) (O : Nat → Nat → Prop) (q : List UInt8 × Nat) (r : ρ)
    (q' : List UInt8 × Nat) (r' : τ) : Prop :=
  q.1 = q'.1 ∧ O q.2 q'.2 ∧ R r r'

theorem count_upto (h : Alike B R O S S') {r : ρ} {r' : τ} (hr : R r r') {out out' : Nat}
    (ho : O out out') {len : Nat} (hl : len ≤ 4194304) :
    Upto (B out) (fun o r o' r' => O o o' ∧ R r r') R
      (Proc.ofExcept (checkOutputLen S.target S.maxOutput out len) r)
      (Proc.ofExcept (checkOutputLen S'.target S'.maxOutput out' len) r') := by
  rcases h.count len hl ho with ⟨e, he, hB | he'⟩ | ⟨o, o', hc, hc', ho⟩
  · rw [he]
    exact .stop hB
  · rw [he, he']
    exact .error hr
  · rw [hc, hc']
    exact .ok ⟨ho, hr⟩

theorem storedBlock_upto (h : Alike B R O S S') {r : ρ} {r' : τ} (hr : R r r') {out out' : Nat}
    (ho : O out out') (f : Frame) (len : Nat) :
    Upto (B out) (SameBlock R O) R (Spec.storedBlock X S f out len r)
      (Spec.storedBlock X S' f out' len r') := by
  refine Upto.bind (.refuse (S := fun _ r _ r' => ¬ len > Spec.blockLimit f.info.blockSize ∧ R r r')
    (fun hl => ⟨hl, hr⟩) hr) (fun _ r _ r' ⟨hl, hr⟩ => ?_) fun _ _ h => h
  have hmax := blockLimit_le f.info.blockSize
  refine (count_upto h hr ho (by omega)).bind ?_ fun _ _ h => h
  rintro o r o' r' ⟨ho, hr⟩
  refine (readData_upto h out hr f.info len).bind ?_ fun _ _ h => h
  rintro b r _ r' ⟨rfl, hr⟩
  exact .ok ⟨rfl, ho, hr⟩

theorem compressedBlock_upto (h : Alike B R O S S') {r : ρ} {r' : τ} (hr : R r r') {out out' : Nat}
    (ho : O out out') (f : Frame) (len : Nat) :
    Upto (B out) (SameBlock R O) R (Spec.compressedBlock X S f out len r)
      (Spec.compressedBlock X S' f out' len r') := by
  refine Upto.bind (.refuse (S := fun _ r _ r' => R r r') (fun _ => hr) hr) (fun _ r _ r' hr => ?_)
    fun _ _ h => h
  refine (readData_upto h out hr f.info len).bind ?_ fun _ _ h => h
  rintro data r _ r' ⟨rfl, hr⟩
  have hd : Spec.decodeBlock S f data = Spec.decodeBlock S' f data := by
    unfold Spec.decodeBlock
    rw [h.dict, h.why]
  rw [hd]
  refine Upto.bind (.same (S := fun b r b' r' => SameIn R b r b' r' ∧ b.length ≤ 4194304) _
    (fun b hb => ⟨⟨rfl, hr⟩, decodeBlock_length hb⟩) hr) ?_ fun _ _ h => h
  rintro b r _ r' ⟨⟨rfl, hr⟩, hl⟩
  refine (count_upto h hr ho hl).bind ?_ fun _ _ h => h
  rintro o r o' r' ⟨ho, hr⟩
  exact .ok ⟨rfl, ho, hr⟩

theorem endOfFrame_upto (h : Alike B R O S S') (out : Nat) {r : ρ} {r' : τ} (hr : R r r')
    (f : Frame) : Upto (B out) (SameIn R) R (Spec.endOfFrame X f r) (Spec.endOfFrame X f r') := by
  refine Upto.bind (.same (S := SameIn R) _ (fun _ _ => ⟨rfl, hr⟩) hr) ?_ fun _ _ h => h
  rintro _ r _ r' ⟨-, hr⟩
  refine .ite (fun _ => (readChecksum_upto h out hr).bind ?_ fun _ _ h => h) fun _ => .ok ⟨rfl, hr⟩
  rintro expected r _ r' ⟨rfl, hr⟩
  exact .refuse (fun _ => ⟨rfl, hr⟩) hr

/-- The same block, or the end of the frame. -/
def SameNext (R : ρ → τ → Prop) (O : Nat → Nat → Prop) :
    Option (List UInt8 × Nat) → ρ → Option (List UInt8 × Nat) → τ → Prop
  | none, r, none, r' => R r r'
  | some q, r, some q', r' => SameBlock R O q r q' r'
  | _, _, _, _ => False

theorem nextBlock_upto (h : Alike B R O S S') {r : ρ} {r' : τ} (hr : R r r') {out out' : Nat}
    (ho : O out out') (f : Frame) :
    Upto (B out) (SameNext R O) R (Spec.nextBlock X S f out r) (Spec.nextBlock X S' f out' r') := by
  refine (readBlockInfo_upto h out hr).bind ?_ fun _ _ h => h
  rintro info r _ r' ⟨rfl, hr⟩
  cases info with
  | endMark =>
    exact (endOfFrame_upto h out hr f).bind (fun _ _ _ _ h => .ok h.2) fun _ _ h => h
  | uncompressed len =>
    exact (storedBlock_upto h hr ho f _).bind (fun _ _ _ _ h => .ok h) fun _ _ h => h
  | compressed len =>
    exact (compressedBlock_upto h hr ho f _).bind (fun _ _ _ _ h => .ok h) fun _ _ h => h

/-- A header, or the end of both streams. -/
def HeadersAlike (X : XxHash32) (B : Nat → Error → Prop) (R : ρ → τ → Prop) : Prop :=
  ∀ {r r'} out, R r r' → Upto (B out) (SameIn R) R (readHeader X r) (readHeader X r')

/-- A header is alike when the magic number in front of it is. -/
theorem readHeader_upto [LawfulRead ρ] (h : Alike B R O S S') (out : Nat) {r : ρ} {r' : τ}
    (hmagic : Upto (B out) (SameIn R) R (readMagic r) (readMagic r')) :
    Upto (B out) (SameIn R) R (readHeader X r) (readHeader X r') := by
  unfold readHeader
  refine (hmagic.and_left (readMagic_ok r)).bind ?_ fun _ _ h => h
  rintro magic r _ r' ⟨⟨rfl, hr⟩, -, hm⟩
  refine .ite (fun _ => .ok ⟨rfl, hr⟩) fun hne => ?_
  refine ((h.full out _ hr).and_left (readFull_ok _ r)).bind ?_ fun _ _ h => h
  rintro fixed r _ r' ⟨⟨rfl, hr⟩, hl, -⟩
  have hlen : (magic ++ fixed).length = MIN_FRAME_INFO_SIZE := by
    rw [List.length_append, hm hne, hl]
    rfl
  obtain ⟨res, hres, -⟩ := Run.WP_iff.mp (readSize_ok hlen)
  rw [Proc.bind_run, Proc.bind_run, Proc.lift_run, Proc.lift_run, hres]
  refine Upto.bind (.same (S := SameIn R) res (fun _ _ => ⟨rfl, hr⟩) hr) ?_ fun _ _ h => h
  rintro required r _ r' ⟨rfl, hr⟩
  refine (readRest_upto h out hr _ _).bind ?_ fun _ _ h => h
  rintro rest r _ r' ⟨rfl, hr⟩
  refine Upto.bind (.same (S := SameIn R) _ (fun _ _ => ⟨rfl, hr⟩) hr) ?_ fun _ _ h => h
  rintro info r _ r' ⟨rfl, hr⟩
  exact .ok ⟨rfl, hr⟩

theorem headersAlike_of_magic [LawfulRead ρ] (h : Alike B R O S S')
    (hmagic : ∀ {r r'} out, R r r' → Upto (B out) (SameIn R) R (readMagic r) (readMagic r')) :
    HeadersAlike X B R :=
  fun out hr => readHeader_upto h out (hmagic out hr)

/-! ## The same slice twice -/

theorem readFull_same {B : Error → Prop} (n : Nat) {r r' : List UInt8} (hr : r = r') :
    Upto B (SameIn fun r r' : List UInt8 => r = r') (fun r r' => r = r') (readFull n r) (readFull n r') := by
  subst hr
  rw [readFull_slice]
  split
  · exact .ok ⟨rfl, rfl⟩
  · exact .error rfl

theorem headersAlike_same {B : Nat → Error → Prop} {O : Nat → Nat → Prop} {S S' : Settings}
    (h : Alike B (fun r r' : List UInt8 => r = r') O S S') :
    HeadersAlike X B (fun r r' : List UInt8 => r = r') :=
  headersAlike_of_magic h fun {r r'} _ hr => by
    subst hr
    rw [readMagic_slice]
    split
    · exact .ok ⟨rfl, rfl⟩
    · split
      · exact .ok ⟨rfl, rfl⟩
      · exact .error rfl

/-! ## The decoders -/

/-- Two decoders in the same state, but for the reader and the count. -/
structure Near (R : ρ → τ → Prop) (O : Nat → Nat → Prop) (s : Naive ρ) (s' : Naive τ) : Prop where
  r : R s.r s'.r
  frame : s.frame = s'.frame
  pending : s.pending = s'.pending
  output : O s.output s'.output

/-- The same value, in decoders that are near. -/
def SameNear {α : Type} (R : ρ → τ → Prop) (O : Nat → Nat → Prop) (a : α) (s : Naive ρ) (b : α)
    (s' : Naive τ) : Prop :=
  a = b ∧ Near R O s s'

omit [Read ρ] [Read τ] in
theorem Near.withReader {s : Naive ρ} {s' : Naive τ} (h : Near R O s s') {r : ρ} {r' : τ}
    (hr : R r r') : Near R O { s with r := r } { s' with r := r' } :=
  ⟨hr, h.frame, h.pending, h.output⟩

omit [Read ρ] [Read τ] in
theorem Near.withFrame {s : Naive ρ} {s' : Naive τ} (h : Near R O s s') (f : Option Frame) :
    Near R O { s with frame := f } { s' with frame := f } :=
  ⟨h.r, rfl, h.pending, h.output⟩

omit [Read ρ] [Read τ] in
theorem Near.drop {s : Naive ρ} {s' : Naive τ} (h : Near R O s s') (n : Nat) :
    Near R O { s with pending := s.pending.drop n } { s' with pending := s'.pending.drop n } :=
  ⟨h.r, h.frame, by dsimp only; rw [h.pending], h.output⟩

theorem openFrame_upto (h : Alike B R O S S') {s : Naive ρ} {s' : Naive τ} (hn : Near R O s s')
    (hh : s.frame = none →
      Upto (B s.output) (SameIn R) R (readHeader X s.r) (readHeader X s'.r)) :
    Upto (B s.output) (SameNear R O) (Near R O) (Naive.openFrame X S s) (Naive.openFrame X S' s') := by
  unfold Naive.openFrame
  rw [Proc.bind_run, Proc.bind_run, Proc.get_run, Proc.get_run, Run.ret_bind, Run.ret_bind,
    Proc.andThen_ok, Proc.andThen_ok, ← hn.frame]
  cases hf : s.frame with
  | some f => exact .ok ⟨rfl, hn⟩
  | none =>
    have header : Upto (B s.output) (fun q s q' s' => q = q' ∧ Near R O s s') (Near R O)
        (Naive.onReader (readHeader X) s) (Naive.onReader (readHeader X) s') := by
      unfold Naive.onReader
      rcases hh hf with ⟨e, r, hx, hB⟩ | ⟨p, q, hx, hy, hb⟩
      · rw [hx]
        exact .stop hB
      · rw [hx, hy]
        match p, q, hb with
        | (.ok _, _), (.ok _, _), ⟨rfl, hr⟩ => exact .ok ⟨rfl, hn.withReader hr⟩
        | (.error _, _), (.error _, _), ⟨rfl, hr⟩ => exact .error (hn.withReader hr)
    refine header.bind ?_ fun _ _ h => h
    rintro q s _ s' ⟨rfl, hn⟩
    match q with
    | none => exact .ok ⟨rfl, hn⟩
    | some (info, n) =>
      dsimp only
      rw [h.dictId]
      refine Upto.bind (.same (S := SameNear R O) _ (fun _ _ => ⟨rfl, hn⟩) hn) ?_ fun _ _ h => h
      rintro _ s _ s' ⟨-, hn⟩
      exact .ok ⟨rfl, hn.withFrame _⟩

theorem blockStep_upto (h : Alike B R O S S') {s : Naive ρ} {s' : Naive τ} (hn : Near R O s s')
    (f : Frame) :
    Upto (B s.output) (SameNear R O) (Near R O) (Naive.blockStep X S f s) (Naive.blockStep X S' f s') := by
  unfold Naive.blockStep
  simp only [Proc.bind_run, Proc.get_run, Proc.attempt_run, Naive.onReader, Run.ret_bind,
    Proc.andThen_ok]
  rcases nextBlock_upto (X := X) h hn.r hn.output f with ⟨e, r, hx, hB⟩ | ⟨p, q, hx, hy, hb⟩
  · rw [hx]
    exact .stop hB
  · rw [hx, hy]
    rcases hb.cases with ⟨a, r, a', r', rfl, rfl, hr⟩ | ⟨e, r, r', rfl, rfl, hr⟩
    · rcases a with _ | ⟨b, out⟩
      · rcases a' with _ | ⟨b', out'⟩
        · exact .ok ⟨rfl, (hn.withReader hr).withFrame none⟩
        · cases hr
      · rcases a' with _ | ⟨b', out'⟩
        · cases hr
        · obtain ⟨he, ho, hr⟩ := hr
          obtain rfl : b = b' := he
          exact .ite (fun _ => .ok ⟨rfl, hr, rfl, rfl, ho⟩) fun _ => .ok ⟨rfl, hr, rfl, rfl, ho⟩
    · exact .error ((hn.withReader hr).withFrame none)

variable [LawfulRead ρ]

theorem readMoreStep_upto (h : Alike B R O S S') {s : Naive ρ} {s' : Naive τ} (hn : Near R O s s')
    (hh : s.frame = none → Upto (B s.output) (SameIn R) R (readHeader X s.r) (readHeader X s'.r))
    (hp : s.pending = []) :
    Upto (B s.output) (SameNear R O) (Near R O) (Naive.readMoreStep X S () s)
      (Naive.readMoreStep X S' () s') := by
  refine ((openFrame_upto h hn hh).and_left (openFrame_ok hp)).bind ?_ fun _ _ h => h
  rintro q s₁ _ s₁' ⟨⟨rfl, hn⟩, -, -, ho, -⟩
  match q with
  | none => exact .ok ⟨rfl, hn⟩
  | some f => exact ho ▸ blockStep_upto h hn f

omit [LawfulRead ρ] in
/-- The left decoder stops before or with the right one, after `bs₁` of its blocks. -/
def StopsUpto (B : Nat → Error → Prop) (R : ρ → τ → Prop) (O : Nat → Nat → Prop) (output : Nat)
    (bs₁ bs : List (List UInt8)) (o₁ o : Option Error) (f : Naive ρ) (f' : Naive τ) : Prop :=
  (bs₁ = bs ∧ o₁ = o ∧ Near R O f f') ∨
    ∃ e, o₁ = some e ∧ B (output + bs₁.flatten.length) e ∧ bs₁ <+: bs

/-- The left decoder drains to the same end, or to an error in `B` after some of
the blocks. -/
theorem Drains.upto (h : Alike B R O S S') (hh : HeadersAlike X B R) {s' f' : Naive τ}
    {bs : List (List UInt8)} {o : Option Error} (hd : Drains X S' s' bs o f') :
    ∀ {s : Naive ρ}, Near R O s s' → s.pending = [] → ∃ bs₁ o₁ f, Drains X S s bs₁ o₁ f ∧
      StopsUpto B R O s.output bs₁ bs o₁ o f f' := by
  have stops : ∀ {s s₁ : Naive ρ} {e : Error} {bs : List (List UInt8)} {o : Option Error},
      Naive.readMoreStep X S () s = .ret (.error e, s₁) → B s.output e →
        ∃ bs₁ o₁ f, Drains X S s bs₁ o₁ f ∧ StopsUpto B R O s.output bs₁ bs o₁ o f f' :=
    fun {s s₁ e bs o} hx hB => ⟨[], some e, s₁, .fail hx, .inr ⟨e, rfl, hB, List.nil_prefix⟩⟩
  induction hd with
  | stop hstep =>
    intro s hn hp
    obtain ⟨e, _, hx, hB⟩ | ⟨_, f, hx, rfl, hn⟩ := (readMoreStep_upto h hn (fun _ => hh _ hn.r) hp).of_ok hstep
    · exact stops hx hB
    · exact ⟨[], none, f, .stop hx, .inl ⟨rfl, rfl, hn⟩⟩
  | fail hstep =>
    intro s hn hp
    obtain ⟨e, _, hx, hB⟩ | ⟨f, hx, hn⟩ := (readMoreStep_upto h hn (fun _ => hh _ hn.r) hp).of_error hstep
    · exact stops hx hB
    · exact ⟨[], some _, f, .fail hx, .inl ⟨rfl, rfl, hn⟩⟩
  | skip hstep _ ih =>
    intro s hn hp
    obtain ⟨e, _, hx, hB⟩ | ⟨_, s₁, hx, rfl, hn⟩ := (readMoreStep_upto h hn (fun _ => hh _ hn.r) hp).of_ok hstep
    · exact stops hx hB
    · have hw := readMoreStep_ok (X := X) (S := S) hp
      rw [hx] at hw
      obtain ⟨bs₁, o₁, f, hd, hor⟩ := ih stops hn hw.1
      exact ⟨bs₁, o₁, f, .skip hx hd, hw.2.1 ▸ hor⟩
  | @block _ _ _ n _ _ hstep hne _ ih =>
    intro s hn hp
    obtain ⟨e, _, hx, hB⟩ | ⟨_, s₁, hx, rfl, hn⟩ := (readMoreStep_upto h hn (fun _ => hh _ hn.r) hp).of_ok hstep
    · exact stops hx hB
    · have hw := readMoreStep_ok (X := X) (S := S) hp
      rw [hx] at hw
      have hmore : More S s n s₁ := hw
      have hout := (hmore.counts hne).eq.1
      obtain ⟨bs₁, o₁, f, hd, hor⟩ := ih (s := { s₁ with pending := [] }) stops
        ⟨hn.r, hn.frame, rfl, hn.output⟩ rfl
      refine ⟨s₁.pending :: bs₁, o₁, f, .block hx hne hd, ?_⟩
      rw [← hn.pending]
      rcases hor with ⟨rfl, rfl, hn'⟩ | ⟨e, rfl, hB, hp⟩
      · exact .inl ⟨rfl, rfl, hn'⟩
      · refine .inr ⟨e, rfl, ?_, List.cons_prefix_cons.mpr ⟨rfl, hp⟩⟩
        rw [List.flatten_cons, List.length_append, hmore.len, ← Nat.add_assoc, ← hout]
        exact hB

end Lz4rip.Proof.Frame
