import Lz4rip.Proof.Frame.Bounded
import Lz4rip.Proof.Frame.Place
import Lz4rip.Spec.Hash

/-!
# The output limit

All that a decoder ever gives is within its limit, and its count is that of the
blocks it has accepted. On one stream it gives the blocks that
a decoder without a limit gives, up to the first that would pass the limit
(`outputLimit`). A stored block is refused before it is read, so an error in
such a block is not found any more (`FailsAfter`).
-/

namespace Lz4rip.Proof.Frame

open Lz4rip.Impl
open Spec (Frame Settings Naive)

variable {X : XxHash32} {S : Settings} {ρ : Type} [Read ρ] [LawfulRead ρ]

/-- The error of a decoder with the limit `L`. -/
abbrev Exceeds (L actual : Nat) : Error := .decompressedSizeLimit L actual

/-- What a block can still fail with when its length is within the limit. -/
def Later (t : Target) (e : Error) : Prop :=
  (∃ io, e = .ioError io) ∨ e = .blockChecksumError ∨ e = Overflow t

/-- What the limited decoder comes to where the other one comes to `p`, and has
counted `n`: the same, within the limit; or an error, where the other one gives a
block or, as `F` says, finds another error later. -/
inductive Cut {α σ : Type} (L : Nat) (F : Error → Nat → Prop) (n : α → σ → Nat) :
    Except Error α × σ → Except Error α × σ → Prop where
  | same {p : Except Error α × σ} (h : ∀ a s, p = (.ok a, s) → n a s ≤ L) : Cut L F n p p
  | past {a : α} {s s' : σ} (h : L < n a s) : Cut L F n (.ok a, s) (.error (Exceeds L (n a s)), s')
  | first {e : Error} {actual : Nat} {s s' : σ} (h : F e actual) :
    Cut L F n (.error e, s) (.error (Exceeds L actual), s')

/-- Two runs, both return. -/
def Cuts {α σ : Type} (L : Nat) (F : Error → Nat → Prop) (n : α → σ → Nat)
    (x y : Run (Except Error α × σ)) : Prop :=
  ∃ p p', x = .ret p ∧ y = .ret p' ∧ Cut L F n p p'

section

variable {α β σ : Type} {t : Target} {L : Nat} {F : Error → Nat → Prop} {n : α → σ → Nat}

theorem Cuts.error {e : Error} {s : σ} : Cuts L F n (.ret (.error e, s)) (.ret (.error e, s)) :=
  ⟨_, _, rfl, rfl, .same nofun⟩

theorem Cuts.ok {a : α} {s : σ} (h : n a s ≤ L) : Cuts L F n (.ret (.ok a, s)) (.ret (.ok a, s)) :=
  ⟨_, _, rfl, rfl, .same fun _ _ he => by
    obtain ⟨ha, rfl⟩ := Prod.mk.inj he
    exact Except.ok.inj ha ▸ h⟩

/-- Both start with the same. -/
theorem Cuts.then {x : Proc σ Error α} {f g : α → Proc σ Error β} {n : β → σ → Nat} {s : σ}
    {Q : α → σ → Prop} {E : Error → σ → Prop} (h : Proc.WP Q E (x s))
    (hf : ∀ a s', x s = .ret (.ok a, s') → Q a s' → Cuts L F n (f a s') (g a s')) :
    Cuts L F n ((x >>= f) s) ((x >>= g) s) := by
  obtain ⟨a, s', hx, hq⟩ | ⟨e, s', hx, -⟩ := Proc.WP_iff.mp h
  · rw [Proc.bind_run, Proc.bind_run, hx]
    exact hf a s' hx hq
  · rw [Proc.bind_run, Proc.bind_run, hx]
    exact .error

theorem Cuts.map {x y : Proc σ Error α} {n' : β → σ → Nat} {s : σ} (g : α → β)
    (h : Cuts L F n (x s) (y s)) (hg : ∀ a s, n' (g a) s = n a s) :
    Cuts L F n' ((x >>= fun a => pure (g a)) s) ((y >>= fun a => pure (g a)) s) := by
  obtain ⟨p, p', hx, hy, h⟩ := h
  rw [Proc.bind_run, Proc.bind_run, hx, hy]
  cases h with
  | same h =>
    match p, h with
    | (.ok a, s'), h => exact .ok (by rw [hg]; exact h a s' rfl)
    | (.error _, _), _ => exact .error
  | past h =>
    refine ⟨_, _, rfl, rfl, ?_⟩
    rw [← hg] at h ⊢
    exact .past h
  | first h => exact ⟨_, _, rfl, rfl, .first h⟩

/-- The limit is checked: within it both go on, and past it the other one goes on
to `p`, or overflows. -/
theorem Cuts.count {f : Nat → Proc σ Error α} {out len : Nat} {s : σ} (hL : L < t.modulus)
    (hover : L < out + len → t.modulus ≤ out + len → F (Overflow t) (min (out + len) t.usizeMax))
    (hf : out + len ≤ L → Cuts L F n (f (out + len) s) (f (out + len) s))
    (hpast : L < out + len → out + len = min (out + len) t.usizeMax → ∃ p, f (out + len) s = .ret p ∧
      ∀ s', Cut L F n p (.error (Exceeds L (out + len)), s')) :
    Cuts L F n ((Proc.ofExcept (checkOutputLen t t.usizeMax out len) >>= f) s)
      ((Proc.ofExcept (checkOutputLen t L out len) >>= f) s) := by
  rw [checkOutputLen_unlimited, checkOutputLen, Proc.bind_run, Proc.bind_run]
  by_cases ho : t.modulus ≤ out + len
  · rw [if_pos ho, if_pos ho]
    by_cases hmax : L = t.usizeMax
    · rw [hmax]
      exact .error
    · have hfirst := hover (by omega) ho
      rw [Nat.min_eq_right (show t.usizeMax ≤ out + len by unfold Target.usizeMax; omega)] at hfirst
      exact ⟨_, _, rfl, rfl, .first hfirst⟩
  · rw [if_neg ho, if_neg ho]
    by_cases hl : out + len > L
    · rw [if_pos hl]
      have hmin : out + len ≤ t.usizeMax := by unfold Target.usizeMax; omega
      obtain ⟨p, hp, hc⟩ := hpast hl (Nat.min_eq_left hmin).symm
      exact ⟨p, _, hp, rfl, hc s⟩
    · rw [if_neg hl]
      exact hf (Nat.le_of_not_lt hl)

end

/-! ## A block -/

/-- The settings with the limit `L`. -/
def limitTo (S : Settings) (L : Nat) : Settings := { S with maxOutput := L }

theorem readData_later (X : XxHash32) (t : Target) (info : FrameInfo) (len : Nat) (r : ρ) :
    Proc.WP (fun b _ => b.length = len) (fun e _ => Later t e) (Spec.readData X info len r) := by
  have full : ∀ (n : Nat) (r : ρ),
      Proc.WP (fun b _ => b.length = n) (fun e _ => Later t e) (readFull n r) := fun n r => by
    unfold readFull
    rcases hread : Read.readExact n r with ⟨got, res, r'⟩
    cases res with
    | ok _ => exact (LawfulRead.readExact_ok hread).1
    | error io => exact .inl ⟨io, rfl⟩
  unfold Spec.readData
  refine (full len r).bind fun data r₁ hl => ?_
  refine Proc.WP.bind (Q := fun _ _ => True) ?_ fun _ _ _ => hl
  unfold Spec.verifyData
  rw [Proc.ite_run]
  refine .ite (fun _ => ?_) fun _ => trivial
  have checksum : Proc.WP (fun _ _ => True) (fun e _ => Later t e) (readChecksum r₁) :=
    (full 4 r₁).bind fun _ _ _ => Proc.WP_ok.mpr trivial
  refine checksum.bind fun expected r₂ _ => ?_
  refine Proc.WP_ofExcept (fun _ _ => trivial) fun e he => .inr (.inl ?_)
  unfold checkBlockChecksum at he
  split at he
  · exact (Except.error.inj he).symm
  · cases he

variable {L : Nat}

/-- What the block of `f` at `r` fails with behind its length: its data or its checksum does, or
the count with it overflows. -/
inductive FailsAfter (X : XxHash32) (S : Settings) (f : Frame) (out : Nat) (r : ρ) :
    Nat → Error → Prop where
  | data {size : UInt32} {r₁ r₂ : ρ} {e : Error}
    (h : readBlockInfo r = .ret (.ok (.uncompressed size), r₁))
    (hdata : Spec.readData X f.info size.toNat r₁ = .ret (.error e, r₂)) :
    FailsAfter X S f out r size.toNat e
  | count {len : Nat} (h : LengthAt X S f r len) (ho : S.target.modulus ≤ out + len) :
    FailsAfter X S f out r len (Overflow S.target)

omit [LawfulRead ρ] in
/-- The block at `r` passes the limit, and fails behind its length. -/
def Sooner (X : XxHash32) (S : Settings) (L : Nat) (f : Frame) (out : Nat) (r : ρ) (e : Error)
    (actual : Nat) : Prop :=
  ∃ len, FailsAfter X S f out r len e ∧ Later S.target e ∧ L < out + len ∧
    actual = min (out + len) S.target.usizeMax

theorem storedBlock_cut (hmax : S.maxOutput = S.target.usizeMax) (hL : L < S.target.modulus)
    (f : Frame) (out : Nat) {size : UInt32} {r r₁ : ρ}
    (hinfo : readBlockInfo r = .ret (.ok (.uncompressed size), r₁)) :
    Cuts L (Sooner X S L f out r) (fun q _ => q.2) (Spec.storedBlock X S f out size.toNat r₁)
      (Spec.storedBlock X (limitTo S L) f out size.toNat r₁) := by
  unfold Spec.storedBlock
  refine Cuts.then ((Used.refl r₁).refuse (by decide)) fun _ r₂ _ hr => ?_
  subst hr
  rw [hmax]
  refine Cuts.count hL (fun hl ho => ⟨_, .count (.stored hinfo) ho, .inr (.inr rfl), hl, rfl⟩)
    (fun hl => ?_) fun hl hmin => ?_
  · exact Cuts.then (readData_ok X f.info _ r₂) fun _ _ _ _ => .ok hl
  · obtain ⟨b, r₃, hx, -⟩ | ⟨e, r₃, hx, he⟩ :=
      Proc.WP_iff.mp (readData_later X S.target f.info size.toNat r₂)
    · refine ⟨(.ok (b, out + size.toNat), r₃), ?_, fun _ => .past hl⟩
      rw [Proc.bind_run, hx]
      rfl
    · refine ⟨(.error e, r₃), ?_, fun _ => .first ⟨_, .data hinfo hx, he, hl, hmin⟩⟩
      rw [Proc.bind_run, hx]
      rfl

theorem compressedBlock_cut (hmax : S.maxOutput = S.target.usizeMax) (hL : L < S.target.modulus)
    (f : Frame) (out : Nat) {size : UInt32} {r r₁ : ρ}
    (hinfo : readBlockInfo r = .ret (.ok (.compressed size), r₁)) :
    Cuts L (Sooner X S L f out r) (fun q _ => q.2) (Spec.compressedBlock X S f out size.toNat r₁)
      (Spec.compressedBlock X (limitTo S L) f out size.toNat r₁) := by
  unfold Spec.compressedBlock
  refine Cuts.then ((Used.refl r₁).refuse (by decide)) fun _ r₂ _ hr => ?_
  subst hr
  refine Cuts.then (readData_ok X f.info _ r₂) fun data r₃ hdata ⟨_, u⟩ => ?_
  refine Cuts.then (u.check fun _ h => (decodeBlock_formal h).1) fun b r₄ _ ⟨hb, _⟩ => ?_
  rw [hmax]
  exact Cuts.count hL
    (fun hl ho => ⟨_, .count (.compressed hinfo hdata hb) ho, .inr (.inr rfl), hl, rfl⟩)
    (fun hl => .ok hl) fun hl _ => ⟨_, rfl, fun _ => .past hl⟩

/-- The count after a block. -/
def countOf (output : Nat) : Option (List UInt8 × Nat) → Nat
  | none => output
  | some (_, out) => out

theorem nextBlock_cut (hmax : S.maxOutput = S.target.usizeMax) (hL : L < S.target.modulus)
    (f : Frame) {out : Nat} (ho : out ≤ L) (r : ρ) :
    Cuts L (Sooner X S L f out r) (fun q _ => countOf out q) (Spec.nextBlock X S f out r)
      (Spec.nextBlock X (limitTo S L) f out r) := by
  unfold Spec.nextBlock
  refine Cuts.then (readBlockInfo_ok r) fun info r₁ hinfo _ => ?_
  cases info with
  | endMark => exact Cuts.then (endOfFrame_ok X f r₁) fun _ _ _ _ => .ok ho
  | uncompressed len => exact (storedBlock_cut hmax hL f out hinfo).map some fun _ _ => rfl
  | compressed len => exact (compressedBlock_cut hmax hL f out hinfo).map some fun _ _ => rfl

/-- After the blocks `bs`, the next one passes the limit, and fails behind its length. -/
def SoonerAt (X : XxHash32) (S : Settings) (L : Nat) (s : Naive ρ) (bs : List (List UInt8))
    (e : Error) (actual : Nat) : Prop :=
  ∃ f r, Comes X S s bs f (s.output + bs.flatten.length) r ∧
    Sooner X S L f (s.output + bs.flatten.length) r e actual

theorem readMoreStep_cut (hmax : S.maxOutput = S.target.usizeMax) (hL : L < S.target.modulus)
    {s : Naive ρ} (hp : s.pending = []) (ho : s.output ≤ L) :
    Cuts L (SoonerAt X S L s []) (fun _ s => s.output) (Naive.readMoreStep X S () s)
      (Naive.readMoreStep X (limitTo S L) () s) := by
  unfold Naive.readMoreStep
  refine Cuts.then (openFrame_ok hp) fun q s₁ hopen h => ?_
  have ho₁ := h.2.2.1
  cases q with
  | none => exact .ok (ho₁ ▸ ho)
  | some f =>
    simp only [Naive.blockStep, Proc.bind_run, Proc.get_run, Proc.attempt_run, Naive.onReader,
      Run.ret_bind, Proc.andThen_ok]
    obtain ⟨p, p', hx, hy, h⟩ := nextBlock_cut (X := X) hmax hL f (ho₁ ▸ ho : s₁.output ≤ L) s₁.r
    rw [hx, hy]
    cases h with
    | same h =>
      obtain ⟨e | _ | ⟨b, out⟩, r⟩ := p
      · exact .error
      · exact .ok (ho₁ ▸ ho)
      · have hl : out ≤ L := h _ _ rfl
        dsimp only [Run.ret_bind]
        simp only [Proc.bind_run, Proc.modify_run, Run.ret_bind, Proc.andThen_ok, Proc.ite_run]
        split
        · exact .ok hl
        · exact .ok hl
    | @past a r r' h =>
      rcases a with _ | ⟨b, out⟩
      · exact absurd h (by show ¬ L < s₁.output; omega)
      · refine ⟨_, _, ?_, rfl, .past (a := if b.length ≠ 0 then .done b.length else .next ())
          (s := { s₁ with r, frame := some (f.push b), pending := b, output := out }) h⟩
        dsimp only [Run.ret_bind]
        simp only [Proc.bind_run, Proc.modify_run, Run.ret_bind, Proc.andThen_ok, Proc.ite_run]
        split <;> rfl
    | first h =>
      have hc := Comes.here (X := X) (S := S) hopen
      rw [ho₁] at hc h
      exact ⟨_, _, rfl, rfl, .first ⟨f, _, hc, h⟩⟩

/-! ## A stream -/

/-- From `s` on, the blocks `bs₁` and the end `o₁` under the limit, where there are the
blocks `bs` and the end `o` without: the same within the limit; or the blocks before the
first that passes it; or all of the blocks, and the error of the limit for the length of the
next one, where that is found to be wrong later. -/
def CutOff (X : XxHash32) (S : Settings) (L : Nat) (s : Naive ρ) (bs : List (List UInt8))
    (o : Option Error) (bs₁ : List (List UInt8)) (o₁ : Option Error) : Prop :=
  (bs₁ = bs ∧ o₁ = o ∧ s.output + bs.flatten.length ≤ L) ∨
  (∃ b rest, bs = bs₁ ++ b :: rest ∧ s.output + bs₁.flatten.length ≤ L ∧
    L < s.output + (bs₁.flatten.length + b.length) ∧
    o₁ = some (Exceeds L (s.output + (bs₁.flatten.length + b.length)))) ∨
  ∃ e actual, bs₁ = bs ∧ o = some e ∧ s.output + bs.flatten.length ≤ L ∧ SoonerAt X S L s bs e actual ∧
    o₁ = some (Exceeds L actual)

section

variable {s s' : Naive ρ} {bs bs₁ : List (List UInt8)} {o o₁ : Option Error}

omit [LawfulRead ρ] in
theorem CutOff.skip (hstep : Naive.readMoreStep X S () s = .ret (.ok (.next ()), s'))
    (hout : s'.output = s.output) (h : CutOff X S L s' bs o bs₁ o₁) : CutOff X S L s bs o bs₁ o₁ := by
  unfold CutOff SoonerAt at h ⊢
  rw [hout] at h
  rcases h with h | h | ⟨e, actual, hbs, ho, hle, ⟨f, r, hc, hs⟩, ho₁⟩
  · exact .inl h
  · exact .inr (.inl h)
  · exact .inr (.inr ⟨e, actual, hbs, ho, hle, ⟨f, r, .skip hstep hc, hs⟩, ho₁⟩)

omit [LawfulRead ρ] in
theorem CutOff.block {n : Nat} (hstep : Naive.readMoreStep X S () s = .ret (.ok (.done n), s'))
    (hn : n ≠ 0) (hout : s'.output = s.output + s'.pending.length)
    (h : CutOff X S L { s' with pending := [] } bs o bs₁ o₁) :
    CutOff X S L s (s'.pending :: bs) o (s'.pending :: bs₁) o₁ := by
  unfold CutOff SoonerAt at h ⊢
  simp only [List.flatten_cons, List.length_append]
  dsimp only at h
  rw [hout] at h
  rcases h with ⟨rfl, rfl, h⟩ | ⟨c, rest, rfl, h, h', ho⟩ | ⟨e, actual, rfl, ho, hle, ⟨f, r, hc, hs⟩, ho₁⟩
  · exact .inl ⟨rfl, rfl, by omega⟩
  · refine .inr (.inl ⟨c, rest, rfl, by omega, by omega, ?_⟩)
    rw [ho]
    congr 2
    omega
  · rw [Nat.add_assoc] at hc hs
    rw [← hout] at hc
    exact .inr (.inr ⟨e, actual, rfl, ho, by omega, ⟨f, r, .block hstep hn hc, hs⟩, ho₁⟩)

end

/-- The limited decoder drains to the end of the other one, or stops where the
limit is passed. -/
theorem Drains.cut (hmax : S.maxOutput = S.target.usizeMax) (hL : L < S.target.modulus)
    {s f : Naive ρ} {bs : List (List UInt8)} {o : Option Error} (hd : Drains X S s bs o f) :
    s.pending = [] → s.output ≤ L → ∃ bs₁ o₁ f₁, Drains X (limitTo S L) s bs₁ o₁ f₁ ∧
      CutOff X S L s bs o bs₁ o₁ := by
  induction hd with
  | stop h =>
    intro hp ho
    obtain ⟨_, p', hx, hy, hc⟩ := readMoreStep_cut (X := X) hmax hL hp ho
    obtain rfl := Run.ret.inj (h.symm.trans hx)
    have hw := readMoreStep_ok (X := X) (S := S) hp
    rw [h] at hw
    have hout := (More.stop hw rfl).2
    cases hc with
    | same => exact ⟨[], none, _, .stop hy, .inl ⟨rfl, rfl, ho⟩⟩
    | past hlt => exact absurd hlt (by omega)
  | fail h =>
    intro hp ho
    obtain ⟨_, p', hx, hy, hc⟩ := readMoreStep_cut (X := X) hmax hL hp ho
    obtain rfl := Run.ret.inj (h.symm.trans hx)
    cases hc with
    | same => exact ⟨[], _, _, .fail hy, .inl ⟨rfl, rfl, ho⟩⟩
    | first hsooner => exact ⟨[], _, _, .fail hy, .inr (.inr ⟨_, _, rfl, rfl, ho, hsooner, rfl⟩)⟩
  | skip h _ ih =>
    intro hp ho
    obtain ⟨_, p', hx, hy, hc⟩ := readMoreStep_cut (X := X) hmax hL hp ho
    obtain rfl := Run.ret.inj (h.symm.trans hx)
    have hw := readMoreStep_ok (X := X) (S := S) hp
    rw [h] at hw
    obtain ⟨hp', hout, -⟩ := hw
    cases hc with
    | same =>
      obtain ⟨bs₁, o₁, f₁, hd₁, hcut⟩ := ih hp' (by omega)
      exact ⟨bs₁, o₁, f₁, .skip hy hd₁, hcut.skip h hout⟩
    | past hlt => exact absurd hlt (by omega)
  | @block s s' _ n bs o h hn _ ih =>
    intro hp ho
    obtain ⟨_, p', hx, hy, hc⟩ := readMoreStep_cut (X := X) hmax hL hp ho
    obtain rfl := Run.ret.inj (h.symm.trans hx)
    have hw := readMoreStep_ok (X := X) (S := S) hp
    rw [h] at hw
    have hmore : More S s n s' := hw
    have hout : s'.output = s.output + s'.pending.length := by
      rw [hmore.len, (hmore.counts hn).eq.1]
    cases hc with
    | same hle =>
      obtain ⟨bs₁, o₁, f₁, hd₁, hcut⟩ := ih rfl (hle _ s' rfl)
      exact ⟨_, o₁, f₁, .block hy hn hd₁, hcut.block h hn hout⟩
    | past hlt =>
      refine ⟨[], _, _, .fail hy, .inr (.inl ⟨s'.pending, bs, rfl, ho, ?_, ?_⟩)⟩
      · rw [List.flatten_nil, List.length_nil, Nat.zero_add, ← hout]
        exact hlt
      · rw [List.flatten_nil, List.length_nil, Nat.zero_add, ← hout]

omit [Read ρ] [LawfulRead ρ] in
/-- What is read block by block depends on the first call. -/
theorem blocks_of_fillBuf {σ : Type} {C : Spec.Calls σ ρ} {s s' : σ} {bs : List (List UInt8)}
    {o : Option Error} (h : C.Blocks s' bs o) (he : C.call s .fillBuf = C.call s' .fillBuf) :
    C.Blocks s bs o := by
  cases h with
  | stop h => exact .stop (he.trans h)
  | fail h => exact .fail (he.trans h)
  | block h hb hc hbs => exact .block (he.trans h) hb hc hbs

/-- The blocks that are drained are read one by one. -/
theorem Drains.blocks {s f : Naive ρ} {bs : List (List UInt8)} {o : Option Error}
    (hd : Drains X S s bs o f) (hp : s.pending = []) : (Spec.naive X S).Blocks s bs o := by
  induction hd with
  | @stop s s' h =>
    have hw := readMoreStep_ok (X := X) (S := S) hp
    rw [h] at hw
    have he : s'.pending = [] := List.length_eq_zero_iff.mp (More.len hw)
    exact .stop (he ▸ call_fillBuf (fillBuf_more hp (readMore_done h)))
  | fail h => exact .fail (call_fillBuf (fillBuf_fail hp (readMore_error h)))
  | skip h _ ih =>
    have hw := readMoreStep_ok (X := X) (S := S) hp
    rw [h] at hw
    refine blocks_of_fillBuf (ih hw.1) ?_
    simp only [Spec.Calls.call, Spec.naive, Naive.fillBuf, Proc.bind_run, Proc.get_run, Run.ret_bind,
      Proc.andThen_ok, Proc.ite_run, if_pos hp, if_pos hw.1, readMore_next hp h]
  | @block s s' _ n bs o h hn _ ih =>
    have hw := readMoreStep_ok (X := X) (S := S) hp
    rw [h] at hw
    have hmore : More S s n s' := hw
    have hc := call_consume (X := X) (S := S) (Nat.le_refl s'.pending.length)
    rw [List.drop_length] at hc
    exact .block (call_fillBuf (fillBuf_more hp (readMore_done h))) (hmore.pending_ne hn) hc (ih rfl)

/-- The frame decoder reads the same blocks. -/
theorem blocks_refines (hwhy : S.why = blockError S.target S.dict) {s : Naive ρ}
    {bs : List (List UInt8)} {o : Option Error} (h : (Spec.naive X S).Blocks s bs o) :
    ∀ {d : FrameDecoder X ρ}, Rep S d s →
      (Spec.frameDecoder X S.target true).Blocks d bs o := by
  have same : ∀ {d : FrameDecoder X ρ} {s s' : Naive ρ} {c : Spec.Call ρ} {r : Spec.Reply},
      Rep S d s → (Spec.naive X S).call s c = .ret (r, s') →
        ∃ d', (Spec.frameDecoder X S.target true).call d c = .ret (r, d') ∧ Rep S d' s' :=
    fun {d s s' c r} hrep h => by
      have hsame := call_refines true hwhy c hrep
      rw [h] at hsame
      obtain ⟨⟨_, d'⟩, hd, rfl, hrep'⟩ := hsame.of_ret
      exact ⟨d', hd, hrep'⟩
  induction h with
  | stop h =>
    intro d hrep
    obtain ⟨_, hd, -⟩ := same hrep h
    exact .stop hd
  | fail h =>
    intro d hrep
    obtain ⟨_, hd, -⟩ := same hrep h
    exact .fail hd
  | block h hb hc _ ih =>
    intro d hrep
    obtain ⟨_, hd, hrep⟩ := same hrep h
    obtain ⟨_, hd', hrep⟩ := same hrep hc
    exact .block hd hb hd' (ih hrep)

/-- Calls one after the other take the same bytes. -/
theorem deliver_refines (hwhy : S.why = blockError S.target S.dict) :
    ∀ (cs : List (Spec.Call ρ)) (d : FrameDecoder X ρ) (s : Naive ρ), Rep S d s →
      Run.Same (fun p q => p.1 = q.1 ∧ Rep S p.2 q.2)
        ((Spec.frameDecoder X S.target true).deliver d cs) ((Spec.naive X S).deliver s cs)
  | [], _, _, h => ⟨rfl, h⟩
  | c :: cs, _, _, h =>
    (call_refines true hwhy c h).bind fun _ _ ⟨he, h'⟩ =>
      (deliver_refines hwhy cs _ _ h').bind fun _ _ ⟨he', h''⟩ =>
        ⟨by rw [he, he', taken_refines true h], h''⟩

/-- Whatever is read through a decoder with the limit `L`, it gives no more than
`L` bytes, and its count is that of the blocks it has accepted, which are the bytes
given and those that are pending. Of one stream it gives what a decoder without a
limit gives, up to the first block that would pass the limit. -/
theorem outputLimit (X : XxHash32) (t : Target) (dictionary : Option (List UInt8 × UInt32)) (L : Nat)
    (hL : L < t.modulus) (r : Reader) :
    let limited := FrameDecoder.withOptions X t r ⟨dictionary, some L⟩
    let unlimited := FrameDecoder.withOptions X t r ⟨dictionary, none⟩
    let S := settings t ⟨dictionary, some L⟩
    (∀ cs bytes d, (Spec.frameDecoder X t true).deliver limited cs = .ret (bytes, d) →
      bytes.length ≤ L ∧ d.bytesOutput ≤ L ∧
      ∃ s bs, (Spec.naive X S).deliver (Naive.start r) cs = .ret (bytes, s) ∧
        Accepts X S (Naive.start r) bytes bs s ∧ d.bytesOutput = bs.flatten.length ∧
        bs.flatten = bytes ++ (Spec.frameDecoder X t true).pending d) ∧
    ∃ bs o bs₁ o₁, (Spec.frameDecoder X t true).Blocks unlimited bs o ∧
      (Spec.frameDecoder X t true).Blocks limited bs₁ o₁ ∧
      CutOff X (settings t ⟨dictionary, none⟩) L (Naive.start r) bs o bs₁ o₁ := by
  intro limited unlimited S
  have hrep := withOptions_rep X t r ⟨dictionary, some L⟩
  refine ⟨fun cs bytes d h => ?_, ?_⟩
  · have hsame := deliver_refines (settings_why t ⟨dictionary, some L⟩) cs _ _ hrep
    rw [settings_target, h] at hsame
    obtain ⟨h₁, -⟩ | ⟨_, ⟨_, s⟩, h₁, hs, rfl, hrep'⟩ := hsame.cases
    · cases h₁
    obtain rfl := Run.ret.inj h₁
    obtain ⟨bs, hbs⟩ := deliver_accepts hs
    obtain ⟨hcount, hlimit, hbytes⟩ := hbs.counts
    have hout : d.bytesOutput = s.output := hrep'.output
    have hpending : (Spec.frameDecoder X t true).pending d = s.pending := by
      have hstart : d.dstStart + s.pending.length = d.dstEnd := hrep'.start
      show seg d.dst d.dstStart (d.dstEnd - d.dstStart) = _
      rw [show d.dstEnd - d.dstStart = s.pending.length by omega, hrep'.block]
    have hle : s.output ≤ L := hlimit (Nat.zero_le _)
    have hflat : bs.flatten = bytes ++ s.pending := hbytes
    have hlen := congrArg List.length hflat
    have hstart : s.output = 0 + bs.flatten.length := hcount
    rw [List.length_append] at hlen
    refine ⟨by omega, by omega, s, bs, hs, hbs, by omega, ?_⟩
    rw [hpending, hflat]
  · obtain ⟨bs, o, f, hd⟩ := Drains.total (X := X) (S := settings t ⟨dictionary, none⟩)
      (Naive.start r) rfl
    obtain ⟨bs₁, o₁, f₁, hd₁, hcut⟩ := hd.cut (L := L) rfl hL rfl (Nat.zero_le _)
    exact ⟨bs, o, bs₁, o₁, blocks_refines (settings_why t _) (hd.blocks rfl) (withOptions_rep ..),
      blocks_refines (settings_why t ⟨dictionary, some L⟩) (hd₁.blocks rfl) hrep, hcut⟩

/-- The start of a frame, up to the size of a stored block of one byte. -/
def unfinishedBlock : Reader :=
  ⟨[.data [0x04, 0x22, 0x4D, 0x18, 0x60, 0x40, 0x82, 1, 0, 0, 0x80]]⟩

theorem outputLimit_unfinishedBlock :
    let t : Target := ⟨.w64, false, false⟩
    let limited := FrameDecoder.withOptions Spec.xxHash32 t unfinishedBlock ⟨none, some 0⟩
    let unlimited := FrameDecoder.withOptions Spec.xxHash32 t unfinishedBlock ⟨none, none⟩
    let S := settings t ⟨none, some 0⟩
    (∀ cs bytes d, (Spec.frameDecoder Spec.xxHash32 t true).deliver limited cs = .ret (bytes, d) →
      bytes.length ≤ 0 ∧ d.bytesOutput ≤ 0 ∧
      ∃ s bs, (Spec.naive Spec.xxHash32 S).deliver (Naive.start unfinishedBlock) cs = .ret (bytes, s) ∧
        Accepts Spec.xxHash32 S (Naive.start unfinishedBlock) bytes bs s ∧
        d.bytesOutput = bs.flatten.length ∧
        bs.flatten = bytes ++ (Spec.frameDecoder Spec.xxHash32 t true).pending d) ∧
    ∃ bs o bs₁ o₁, (Spec.frameDecoder Spec.xxHash32 t true).Blocks unlimited bs o ∧
      (Spec.frameDecoder Spec.xxHash32 t true).Blocks limited bs₁ o₁ ∧
      CutOff Spec.xxHash32 (settings t ⟨none, none⟩) 0 (Naive.start unfinishedBlock) bs o bs₁ o₁ :=
  outputLimit Spec.xxHash32 ⟨.w64, false, false⟩ none 0 (by decide) unfinishedBlock

/-- Nothing passes the limit, and the outcomes differ: the block that is not all
there is refused for its length. -/
theorem limit_before_read :
    (Spec.frameDecoder Spec.xxHash32 ⟨.w64, false, false⟩ true).replies
      (FrameDecoder.withOptions Spec.xxHash32 ⟨.w64, false, false⟩ unfinishedBlock ⟨none, none⟩)
      [.readToEnd] = .ret [⟨[], some EOF⟩] ∧
    (Spec.frameDecoder Spec.xxHash32 ⟨.w64, false, false⟩ true).replies
      (FrameDecoder.withOptions Spec.xxHash32 ⟨.w64, false, false⟩ unfinishedBlock ⟨none, some 0⟩)
      [.readToEnd] = .ret [⟨[], some (Exceeds 0 1)⟩] :=
  ⟨rfl, rfl⟩

end Lz4rip.Proof.Frame
