import Lz4rip.Framework.Ensures
import Lz4rip.Proof.Frame.Drain

/-!
# The block that passes the limit

`Comes s bs f out r`: from `s` on the blocks `bs` are decoded, and the next block of the
frame `f` is at `r`, where `out` bytes are counted. Of all that is read, only the length of a
block (`LengthAt`) can pass the limit (`nextBlock_exceeds`), so a stream that ends with
the limit's error has come to a block that does (`Drains.exceeds`).
-/

namespace Lz4rip.Proof.Frame

open Lz4rip.Impl
open Proc (Ensures)
open Spec (Frame Settings Naive)

variable {X : XxHash32} {S : Settings} {ρ : Type} [Read ρ]

/-- The blocks `bs` are decoded from `s` on, and the next one of the frame `f` is at `r`. -/
inductive Comes (X : XxHash32) (S : Settings) :
    Naive ρ → List (List UInt8) → Frame → Nat → ρ → Prop where
  | here {s s' : Naive ρ} {f : Frame} (h : Naive.openFrame X S s = .ret (.ok (some f), s')) :
    Comes X S s [] f s'.output s'.r
  | skip {s s' : Naive ρ} {bs : List (List UInt8)} {f : Frame} {out : Nat} {r : ρ}
    (h : Naive.readMoreStep X S () s = .ret (.ok (.next ()), s')) (hc : Comes X S s' bs f out r) :
    Comes X S s bs f out r
  | block {s s' : Naive ρ} {n : Nat} {bs : List (List UInt8)} {f : Frame} {out : Nat} {r : ρ}
    (h : Naive.readMoreStep X S () s = .ret (.ok (.done n), s')) (hn : n ≠ 0)
    (hc : Comes X S { s' with pending := [] } bs f out r) : Comes X S s (s'.pending :: bs) f out r

/-- The length of the block of `f` at `r`: the one that a stored block declares, or that a
compressed one decodes to. -/
inductive LengthAt (X : XxHash32) (S : Settings) (f : Frame) (r : ρ) : Nat → Prop where
  | stored {size : UInt32} {r₁ : ρ} (h : readBlockInfo r = .ret (.ok (.uncompressed size), r₁)) :
    LengthAt X S f r size.toNat
  | compressed {size : UInt32} {r₁ r₂ : ρ} {data b : List UInt8}
    (h : readBlockInfo r = .ret (.ok (.compressed size), r₁))
    (hdata : Spec.readData X f.info size.toNat r₁ = .ret (.ok data, r₂))
    (hb : Spec.decodeBlock S f data = .ok b) : LengthAt X S f r b.length

/-! ## Errors of the format -/

theorem readSize_formal (input : List UInt8) :
    (FrameInfo.readSize input).Post fun res => ∀ e, res = .error e → Formal e := by
  refine .bind (.any _) fun magic _ => ?_
  dsimp only
  split
  · exact .ret nofun
  split
  · exact .ret nofun
  split
  · refine .ret fun e he => ?_
    obtain rfl := Except.error.inj he
    exact ⟨by decide, nofun⟩
  · exact .bind (.any _) fun _ _ => .ret nofun

/-- Where the reads fail, it is with an error that the limit does not make. -/
abbrev Formally {α : Type} (x : Run (Except Error α × ρ)) : Prop :=
  Ensures (fun _ _ => True) (fun e _ => ∀ limit actual, e ≠ .decompressedSizeLimit limit actual) x

omit [Read ρ] in
theorem check_formally {α : Type} {x : Except Error α} {r : ρ} (h : ∀ e, x = .error e → Formal e) :
    Formally (Proc.ofExcept x r) :=
  .check (fun _ _ => trivial) fun e he => (h e he).2

theorem readFull_formally (n : Nat) (r : ρ) : Formally (readFull n r) := by
  unfold readFull
  rcases Read.readExact n r with ⟨got, _ | _, r'⟩
  · exact .error nofun
  · exact .ret trivial

theorem readRest_formally (n required : Nat) (r : ρ) : Formally (readRest n required r) :=
  .ite (fun _ => .ret trivial) fun _ => readFull_formally _ _

theorem readHeader_formally (X : XxHash32) (r : ρ) : Formally (readHeader X r) := by
  have hsome : Formally (readSome MAGIC_NUMBER_SIZE r) := by
    unfold readSome
    rcases Read.read MAGIC_NUMBER_SIZE r with ⟨_ | _, r'⟩
    · exact .error nofun
    · exact .ret trivial
  have hmagic : Formally (readMagic r) := hsome.bind fun first r₁ _ =>
    .ite (fun _ => .ret trivial) fun _ => (readRest_formally _ _ r₁).bind fun _ _ _ => .ret trivial
  refine hmagic.bind fun magic r₁ _ => .ite (fun _ => .ret trivial) fun _ => ?_
  refine (readFull_formally _ r₁).bind fun fixed r₂ _ => .lift (readSize_formal _) fun res hres => ?_
  refine (check_formally hres).bind fun required r₃ _ => (readRest_formally _ _ r₃).bind fun rest r₄ _ => ?_
  exact (check_formally fun _ => frameInfoRead_formal).bind fun _ _ _ => .ret trivial

theorem readChecksum_formally (r : ρ) : Formally (readChecksum r) :=
  (readFull_formally 4 r).bind fun _ _ _ => .ret trivial

theorem readData_formally (X : XxHash32) (info : FrameInfo) (len : Nat) (r : ρ) :
    Formally (Spec.readData X info len r) := by
  refine (readFull_formally len r).bind fun data r₁ _ => ?_
  refine Ensures.bind (Q := fun _ _ => True) (.ite (fun _ => ?_) fun _ => .ret trivial) fun _ _ _ => .ret trivial
  exact (readChecksum_formally r₁).bind fun _ _ _ => check_formally fun _ => checkBlockChecksum_formal

theorem endOfFrame_formally (X : XxHash32) (f : Frame) (r : ρ) : Formally (Spec.endOfFrame X f r) := by
  refine (check_formally fun _ => checkContentLen_formal).bind fun _ r₁ _ => ?_
  refine .ite (fun _ => (readChecksum_formally r₁).bind fun expected r₂ _ => ?_) fun _ => .ret trivial
  exact (Proc.WP_refuse (fun _ => trivial) fun _ => nofun).ensures

theorem openFrame_formally (s : Naive ρ) : Formally (Naive.openFrame X S s) := by
  unfold Naive.openFrame
  refine .get ?_
  cases s.frame with
  | some f => exact .ret trivial
  | none =>
    refine Ensures.bind (Q := fun _ _ => True) ?_ fun q s₁ _ => ?_
    · intro p hp
      obtain ⟨⟨res, r⟩, hx, hret⟩ := Run.bind_eq_ret.mp hp
      cases hret
      cases res with
      | ok q => trivial
      | error e => exact (readHeader_formally X s.r).of_error hx
    · cases q with
      | none => exact .ret trivial
      | some q =>
        exact (check_formally fun _ => checkDictId_formal).bind fun _ _ _ => .modify (.ret trivial)

/-! ## The error of the limit -/

/-- Another error than that of the limit, or that of a block of `f` at `r`. -/
def Exceeding (X : XxHash32) (S : Settings) (f : Frame) (out : Nat) (r : ρ) (e : Error) : Prop :=
  ∀ limit actual, e = .decompressedSizeLimit limit actual →
    ∃ len ≤ 4194304, LengthAt X S f r len ∧ checkOutputLen S.target S.maxOutput out len = .error e

theorem nextBlock_exceeds (f : Frame) (out : Nat) (r : ρ) :
    Ensures (fun _ _ => True) (fun e _ => Exceeding X S f out r e) (Spec.nextBlock X S f out r) := by
  have plain {α : Type} {x : Run (Except Error α × ρ)} (h : Formally x) :
      Ensures (fun a r' => x = .ret (.ok a, r')) (fun e _ => Exceeding X S f out r e) x := by
    rintro ⟨res, r'⟩ hp
    cases res with
    | ok a => exact hp
    | error e => exact fun limit actual he => absurd he (h.of_error hp limit actual)
  have count {len : Nat} (r' : ρ) (hle : len ≤ 4194304) (h : LengthAt X S f r len) :
      Ensures (fun _ _ => True) (fun e _ => Exceeding X S f out r e)
        (Proc.ofExcept (checkOutputLen S.target S.maxOutput out len) r') :=
    .check (fun _ _ => trivial) fun e he limit actual _ => ⟨len, hle, h, he⟩
  have hmax := blockLimit_le f.info.blockSize
  have hinfo : Formally (readBlockInfo r) :=
    (readFull_formally 4 r).bind fun _ _ _ => check_formally fun _ => blockInfoRead_formal
  refine (plain hinfo).bind fun info r₁ hread => ?_
  cases info with
  | endMark => exact (plain (endOfFrame_formally X f r₁)).bind fun _ _ _ => .ret trivial
  | uncompressed size =>
    refine Ensures.bind (Q := fun _ _ => True) (.refuse (fun hle => ?_) nofun) fun _ _ _ => .ret trivial
    refine (count r₁ (by omega) (.stored hread)).bind fun n r₂ _ => ?_
    exact (plain (readData_formally X f.info _ r₂)).bind fun _ _ _ => .ret trivial
  | compressed size =>
    refine Ensures.bind (Q := fun _ _ => True) (.refuse (fun _ => ?_) nofun) fun _ _ _ => .ret trivial
    refine (plain (readData_formally X f.info _ r₁)).bind fun data r₂ hdata => ?_
    refine (plain (check_formally fun _ => decodeBlock_formal)).bind fun b r₃ hb => ?_
    have hdecode : Spec.decodeBlock S f data = .ok b := by
      cases hd : Spec.decodeBlock S f data with
      | ok b' =>
        rw [hd] at hb
        exact (Prod.mk.inj (Run.ret.inj hb)).1
      | error e =>
        rw [hd] at hb
        exact nomatch (Prod.mk.inj (Run.ret.inj hb)).1
    exact (count r₃ (decodeBlock_length hdecode) (.compressed hread hdata hdecode)).bind fun _ _ _ => .ret trivial

theorem readMoreStep_exceeds {s s' : Naive ρ} {limit actual : Nat}
    (h : Naive.readMoreStep X S () s = .ret (.error (.decompressedSizeLimit limit actual), s')) :
    ∃ f out r len, Comes X S s [] f out r ∧ LengthAt X S f r len ∧ len ≤ 4194304 ∧
      checkOutputLen S.target S.maxOutput out len = .error (.decompressedSizeLimit limit actual) := by
  unfold Naive.readMoreStep at h
  rw [Proc.bind_run] at h
  obtain ⟨⟨res, s₁⟩, hopen, h⟩ := Run.bind_eq_ret.mp h
  rcases res with e | _ | f
  · obtain ⟨he, -⟩ := Prod.mk.inj (Run.ret.inj h)
    obtain rfl := Except.error.inj he
    exact absurd rfl ((openFrame_formally s).of_error hopen limit actual)
  · exact nomatch (Prod.mk.inj (Run.ret.inj h)).1
  · have hblock : Ensures (fun _ _ => True) (fun e _ => Exceeding X S f s₁.output s₁.r e)
        (Naive.blockStep X S f s₁) := by
      refine .get (Ensures.bind (Q := fun res _ => ∀ e, res = .error e → Exceeding X S f s₁.output s₁.r e)
        (.attempt ?_) fun res s₂ hres => ?_)
      · intro p hp
        obtain ⟨⟨res, r⟩, hx, hret⟩ := Run.bind_eq_ret.mp hp
        cases hret
        cases res with
        | ok q => exact nofun
        | error e =>
          rintro _ ⟨⟩
          exact (nextBlock_exceeds f s₁.output s₁.r).of_error hx
      · rcases res with e | _ | ⟨b, output⟩
        · exact .modify (.error (hres e rfl))
        · exact .modify (.ret trivial)
        · exact .modify (.ite (fun _ => .ret trivial) fun _ => .ret trivial)
    obtain ⟨len, hle, hlen, hcheck⟩ := hblock.of_error h limit actual rfl
    exact ⟨f, _, _, len, .here hopen, hlen, hle, hcheck⟩

variable [LawfulRead ρ]

/-- The count at the block is that of the blocks before it. -/
theorem Comes.count {s : Naive ρ} {bs : List (List UInt8)} {f : Frame} {out : Nat} {r : ρ}
    (h : Comes X S s bs f out r) (hp : s.pending = []) : out = s.output + bs.flatten.length := by
  induction h with
  | here h =>
    have hw := openFrame_ok (X := X) (S := S) hp
    rw [h] at hw
    exact hw.2.2.1
  | skip h _ ih =>
    have hw := readMoreStep_ok (X := X) (S := S) hp
    rw [h] at hw
    rw [ih hw.1, hw.2.1]
  | @block s s' n bs f out r h hn _ ih =>
    have hw := readMoreStep_ok (X := X) (S := S) hp
    rw [h] at hw
    have hmore : More S s n s' := hw
    have hout : s'.output = s.output + n := (hmore.counts hn).eq.1
    rw [ih rfl, List.flatten_cons, List.length_append, hmore.len]
    show s'.output + _ = _
    omega

/-- A stream that ends with the limit's error has come to a block that passes the limit. -/
theorem Drains.exceeds {s f' : Naive ρ} {bs : List (List UInt8)} {limit actual : Nat}
    (hd : Drains X S s bs (some (.decompressedSizeLimit limit actual)) f') (hp : s.pending = []) :
    ∃ f r len, Comes X S s bs f (s.output + bs.flatten.length) r ∧ LengthAt X S f r len ∧ len ≤ 4194304 ∧
      checkOutputLen S.target S.maxOutput (s.output + bs.flatten.length) len =
        .error (.decompressedSizeLimit limit actual) := by
  have place : ∃ f out r len, Comes X S s bs f out r ∧ LengthAt X S f r len ∧ len ≤ 4194304 ∧
      checkOutputLen S.target S.maxOutput out len = .error (.decompressedSizeLimit limit actual) := by
    generalize ho : some (Error.decompressedSizeLimit limit actual) = o at hd
    induction hd with
    | stop => cases ho
    | fail h =>
      cases ho
      exact readMoreStep_exceeds h
    | skip h _ ih =>
      have hw := readMoreStep_ok (X := X) (S := S) hp
      rw [h] at hw
      obtain ⟨f, out, r, len, hc, hrest⟩ := ih hw.1 ho
      exact ⟨f, out, r, len, .skip h hc, hrest⟩
    | block h hn _ ih =>
      obtain ⟨f, out, r, len, hc, hrest⟩ := ih rfl ho
      exact ⟨f, out, r, len, .block h hn hc, hrest⟩
  obtain ⟨f, out, r, len, hc, hlen, hcheck⟩ := place
  obtain rfl := hc.count hp
  exact ⟨f, r, len, hc, hlen, hcheck⟩

/-! ## Calls that fail -/

theorem readMore_loop_fails : ∀ (n : Nat) {s s' : Naive ρ} {e : Error}, s.pending = [] →
    Proc.loop (Naive.readMoreStep X S) n () s = .ret (.error e, s') →
      ∃ s₁, Accepts X S s [] [] s₁ ∧ s₁.pending = [] ∧
        Naive.readMoreStep X S () s₁ = .ret (.error e, s')
  | 0, _, _, _, _, h => nomatch h
  | n + 1, s, s', e, hp, h => by
    obtain ⟨flow, s₁, hs, hq⟩ | ⟨e', s₁, hs, -⟩ :=
      Proc.WP_iff.mp (readMoreStep_ok (X := X) (S := S) hp)
    · match flow, hq with
      | .next _, hq =>
        rw [Proc.loop_next hs] at h
        obtain ⟨s₂, hacc, hp₂, hfail⟩ := readMore_loop_fails n hq.1 h
        exact ⟨s₂, Accepts.trans (.skip hp hs) hacc, hp₂, hfail⟩
      | .done k, _ =>
        rw [Proc.loop_done hs] at h
        exact nomatch (Prod.mk.inj (Run.ret.inj h)).1
    · rw [Proc.loop_error hs] at h
      obtain ⟨he, rfl⟩ := Prod.mk.inj (Run.ret.inj h)
      obtain rfl := Except.error.inj he
      exact ⟨s, .refl s, hp, hs⟩

theorem fillBuf_fails {s s' : Naive ρ} {e : Error} (h : Naive.fillBuf X S s = .ret (.error e, s')) :
    ∃ s₁, Accepts X S s [] [] s₁ ∧ s₁.pending = [] ∧
      Naive.readMoreStep X S () s₁ = .ret (.error e, s') := by
  by_cases hp : s.pending = []
  · obtain ⟨⟨y, s₁⟩, hm, -⟩ := Run.WP_iff.mp (readMore_ok (X := X) (S := S) hp)
    match y with
    | .ok n =>
      rw [fillBuf_more hp hm] at h
      exact nomatch (Prod.mk.inj (Run.ret.inj h)).1
    | .error e' =>
      rw [fillBuf_fail hp hm] at h
      obtain ⟨he, rfl⟩ := Prod.mk.inj (Run.ret.inj h)
      obtain rfl := Except.error.inj he
      rw [Naive.readMore, Proc.bind_run, Proc.get_run, Run.ret_bind, Proc.andThen_ok] at hm
      exact readMore_loop_fails _ hp hm
  · rw [fillBuf_pending hp] at h
    exact nomatch (Prod.mk.inj (Run.ret.inj h)).1

theorem read_fails {s s' : Naive ρ} {e : Error} {len : Nat}
    (h : Naive.read X S len s = .ret (.error e, s')) :
    ∃ s₁, Accepts X S s [] [] s₁ ∧ s₁.pending = [] ∧
      Naive.readMoreStep X S () s₁ = .ret (.error e, s') := by
  by_cases hp : s.pending = []
  · obtain ⟨⟨y, s₁⟩, hm, hq⟩ := Run.WP_iff.mp (readMore_ok (X := X) (S := S) hp)
    match y, hq with
    | .ok n, hmore =>
      have hmore : More S s n s₁ := hmore
      by_cases hn : n = 0
      · subst hn
        rw [read_stop hp hm] at h
        exact nomatch (Prod.mk.inj (Run.ret.inj h)).1
      · rw [read_block hp hm hn (hmore.pending_ne hn)] at h
        exact nomatch (Prod.mk.inj (Run.ret.inj h)).1
    | .error e', _ =>
      rw [read_fail hp hm] at h
      obtain ⟨he, rfl⟩ := Prod.mk.inj (Run.ret.inj h)
      obtain rfl := Except.error.inj he
      rw [Naive.readMore, Proc.bind_run, Proc.get_run, Run.ret_bind, Proc.andThen_ok] at hm
      exact readMore_loop_fails _ hp hm
  · rw [read_pending hp] at h
    exact nomatch (Prod.mk.inj (Run.ret.inj h)).1

theorem readToEnd_fails : ∀ (n : Nat) (buf : List UInt8) {s s' : Naive ρ} {buf' : List UInt8} {e : Error},
    Proc.loop (Naive.readToEndStep X S) n buf s = .ret (.ok (buf', .error e), s') →
      ∃ bytes bs s₁, buf' = buf ++ bytes ∧ Accepts X S s bytes bs s₁ ∧ s₁.pending = [] ∧
        Naive.readMoreStep X S () s₁ = .ret (.error e, s')
  | 0, _, _, _, _, _, h => nomatch h
  | n + 1, buf, s, s', buf', e, h => by
    obtain ⟨⟨y, s₁⟩, hf, hq⟩ := Run.WP_iff.mp (fillBuf_ok (X := X) (S := S) s)
    obtain ⟨bs, hbs⟩ := fillBuf_accepts hf
    match y, hq with
    | .error e', _ =>
      have hstep := readToEndStep_fail hf buf
      by_cases hk : e'.kind = .interrupted
      · rw [if_pos hk] at hstep
        rw [Proc.loop_next hstep] at h
        obtain ⟨bytes, bs', s₂, hbuf, hacc, hrest⟩ := readToEnd_fails n buf h
        exact ⟨bytes, bs ++ bs', s₂, hbuf, hbs.trans hacc, hrest⟩
      · rw [if_neg hk] at hstep
        rw [Proc.loop_done hstep] at h
        obtain ⟨hres, rfl⟩ := Prod.mk.inj (Run.ret.inj h)
        obtain ⟨rfl, he⟩ := Prod.mk.inj (Except.ok.inj hres)
        obtain rfl := Except.error.inj he
        obtain ⟨s₂, hacc, hp, hfail⟩ := fillBuf_fails hf
        exact ⟨[], [], s₂, (List.append_nil _).symm, hacc, hp, hfail⟩
    | .ok b, ⟨hb, _⟩ =>
      by_cases he : b = []
      · rw [he] at hf
        rw [Proc.loop_done (readToEndStep_stop hf buf)] at h
        exact nomatch (Prod.mk.inj (Except.ok.inj (Prod.mk.inj (Run.ret.inj h)).1)).2
      · rw [hb] at hf he
        have ht := Accepts.take (X := X) (S := S) s₁ s₁.pending.length
        rw [List.take_length, List.drop_length] at ht
        rw [Proc.loop_next (readToEndStep_bytes hf he buf)] at h
        obtain ⟨bytes, bs', s₂, hbuf, hacc, hrest⟩ := readToEnd_fails n _ h
        exact ⟨s₁.pending ++ bytes, _, s₂, by rw [hbuf, List.append_assoc], (hbs.trans ht).trans hacc, hrest⟩

/-- A call fails in a step, behind what it takes. -/
theorem call_fails {s s' : Naive ρ} {c : Spec.Call ρ} {r : Spec.Reply} {e : Error}
    (h : (Spec.naive X S).call s c = .ret (r, s')) (he : r.error = some e) :
    ∃ bs s₁, Accepts X S s ((Spec.naive X S).taken s c r) bs s₁ ∧ s₁.pending = [] ∧
      Naive.readMoreStep X S () s₁ = .ret (.error e, s') := by
  cases c with
  | read len =>
    obtain ⟨⟨x, s₁⟩, hx, h⟩ := Run.bind_eq_ret.mp h
    obtain ⟨rfl, rfl⟩ := Prod.mk.inj (Run.ret.inj h)
    cases x with
    | ok bytes => cases he
    | error e' =>
      obtain rfl := Option.some.inj he
      exact ⟨[], read_fails hx⟩
  | fillBuf =>
    obtain ⟨⟨x, s₁⟩, hx, h⟩ := Run.bind_eq_ret.mp h
    obtain ⟨rfl, rfl⟩ := Prod.mk.inj (Run.ret.inj h)
    cases x with
    | ok bytes => cases he
    | error e' =>
      obtain rfl := Option.some.inj he
      exact ⟨[], fillBuf_fails hx⟩
  | consume amt =>
    simp only [Spec.Calls.call, Spec.naive, Naive.consume, Proc.bind_run, Proc.get_run, Run.ret_bind,
      Proc.andThen_ok, Proc.lift_run] at h
    obtain ⟨⟨x, s₁⟩, hx, h⟩ := Run.bind_eq_ret.mp h
    obtain ⟨y, hy, hx⟩ := Run.bind_eq_ret.mp hx
    obtain ⟨u, -, hy⟩ := Run.bind_eq_ret.mp hy
    obtain rfl := Run.ret.inj hy
    obtain ⟨rfl, rfl⟩ := Prod.mk.inj (Run.ret.inj hx)
    obtain ⟨rfl, -⟩ := Prod.mk.inj (Run.ret.inj h)
    cases he
  | readToEnd =>
    obtain ⟨⟨x, s₁⟩, hx, h⟩ := Run.bind_eq_ret.mp h
    simp only [Spec.naive, Naive.readToEnd, Proc.bind_run, Proc.get_run, Run.ret_bind,
      Proc.andThen_ok] at hx
    obtain ⟨bytes, res, bs, rfl, hbs⟩ := readToEnd_accepts _ _ hx
    rcases res with e' | n
    · obtain ⟨rfl, rfl⟩ := Prod.mk.inj (Run.ret.inj h)
      obtain rfl := Option.some.inj he
      obtain ⟨bytes', bs', s₂, hbytes, hacc, hrest⟩ := readToEnd_fails _ _ hx
      obtain rfl : bytes = bytes' := List.append_cancel_left hbytes
      exact ⟨bs', s₂, hacc, hrest⟩
    · obtain ⟨rfl, rfl⟩ := Prod.mk.inj (Run.ret.inj h)
      cases he
  | replace r =>
    obtain ⟨rfl, rfl⟩ := Prod.mk.inj (Run.ret.inj h)
    cases he

/-- So do calls up to the first that fails. -/
theorem session_fails : ∀ {cs : List (Spec.Call ρ)} {s : Naive ρ} {bytes : List UInt8} {e : Error},
    (Spec.naive X S).session s cs = .ret (bytes, some (some e)) →
      ∃ bs s₁ s₂, Accepts X S s bytes bs s₁ ∧ s₁.pending = [] ∧
        Naive.readMoreStep X S () s₁ = .ret (.error e, s₂)
  | [], _, _, _, h => nomatch (Prod.mk.inj (Run.ret.inj h)).2
  | c :: cs, s, bytes, e, h => by
    obtain ⟨⟨r, s'⟩, hcall, h⟩ := Run.bind_eq_ret.mp h
    dsimp only at h
    by_cases hends : Spec.Calls.ends c r = true
    · rw [if_pos hends] at h
      obtain ⟨rfl, hr⟩ := Prod.mk.inj (Run.ret.inj h)
      obtain ⟨bs, s₁, hacc, hrest⟩ := call_fails hcall (Option.some.inj hr)
      exact ⟨bs, s₁, s', hacc, hrest⟩
    · rw [if_neg hends] at h
      obtain ⟨⟨bytes', o⟩, hs, h⟩ := Run.bind_eq_ret.mp h
      obtain ⟨rfl, rfl⟩ := Prod.mk.inj (Run.ret.inj h)
      obtain ⟨bs, hbs⟩ := call_accepts hcall
      obtain ⟨bs', s₁, s₂, hacc, hrest⟩ := session_fails hs
      exact ⟨bs ++ bs', s₁, s₂, hbs.trans hacc, hrest⟩

end Lz4rip.Proof.Frame
