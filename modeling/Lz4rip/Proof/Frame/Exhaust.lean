import Lz4rip.Framework.Ensures
import Lz4rip.Proof.Frame.Drain
import Lz4rip.Proof.Frame.Refine

/-!
# The true end of a stream

With a reader that gives nothing only at its end (`Ending`), a call that says that the
stream has ended says so there: the reader has nothing left, no frame is open, and all
that was decoded is consumed (`run_ended`). The reads of a frame keep such a reader
(`nextBlock_steady`), and only a header can find the end of it (`readHeader_steady`).
-/

namespace Lz4rip.Proof.Frame

open Lz4rip.Impl
open Proc (Ensures Preserves)
open Spec (Frame Settings Naive)

variable {X : XxHash32} {S : Settings} {ρ : Type} [Read ρ] {I : ρ → Prop} {nil : ρ}

/-- Reads keep `I`, and one that could give something and does not leaves `nil`. -/
structure Ending (I : ρ → Prop) (nil : ρ) : Prop where
  some : ∀ n r, I r → Ensures (fun bytes r' => I r' ∧ (n ≠ 0 → bytes = [] → r' = nil)) (fun _ => I)
    (readSome n r)
  full : ∀ n r, I r → Preserves I (readFull n r)

/-! ## Reads -/

section

variable {r : ρ}

theorem readRest_steady (h : Ending I nil) (hr : I r) (n required : Nat) :
    Preserves I (readRest n required r) :=
  .ite (fun _ => .ret hr) fun _ => h.full _ _ hr

theorem readMagic_steady (h : Ending I nil) (hr : I r) :
    Ensures (fun magic r' => I r' ∧ (magic = [] → r' = nil)) (fun _ => I) (readMagic r) := by
  refine (h.some MAGIC_NUMBER_SIZE r hr).bind fun first r₁ ⟨hr₁, hnil⟩ => ?_
  refine .ite (fun he => .ret ⟨hr₁, fun _ => hnil (by decide) he⟩) fun hne => ?_
  refine (readRest_steady h hr₁ _ _).bind fun rest r₂ hr₂ => .ret ⟨hr₂, fun he => ?_⟩
  exact absurd (List.append_eq_nil_iff.mp he).1 hne

theorem readHeader_steady (X : XxHash32) (h : Ending I nil) (hr : I r) :
    Ensures (fun q r' => I r' ∧ (q = none → r' = nil)) (fun _ => I) (readHeader X r) := by
  refine (readMagic_steady h hr).bind fun magic r₁ ⟨hr₁, hnil⟩ => ?_
  refine .ite (fun he => .ret ⟨hr₁, fun _ => hnil he⟩) fun _ => ?_
  refine (h.full _ _ hr₁).bind fun fixed r₂ hr₂ => .lift (.any _) fun required _ => ?_
  refine Ensures.bind (Q := fun _ => I) (.check (fun _ _ => hr₂) fun _ _ => hr₂) fun _ r₃ hr₃ => ?_
  refine (readRest_steady h hr₃ _ _).bind fun rest r₄ hr₄ => ?_
  refine Ensures.bind (Q := fun _ => I) (.check (fun _ _ => hr₄) fun _ _ => hr₄) fun info r₅ hr₅ => ?_
  exact .ret ⟨hr₅, nofun⟩

theorem readBlockInfo_steady (h : Ending I nil) (hr : I r) : Preserves I (readBlockInfo r) :=
  (h.full _ _ hr).bind fun _ _ hr₁ => .check (fun _ _ => hr₁) fun _ _ => hr₁

theorem readChecksum_steady (h : Ending I nil) (hr : I r) : Preserves I (readChecksum r) :=
  (h.full _ _ hr).bind fun _ _ hr₁ => .ret hr₁

theorem readData_steady (h : Ending I nil) (hr : I r) (info : FrameInfo) (len : Nat) :
    Preserves I (Spec.readData X info len r) := by
  refine (h.full _ _ hr).bind fun data r₁ hr₁ => ?_
  refine Ensures.bind (Q := fun _ => I) (.ite (fun _ => ?_) fun _ => .ret hr₁) fun _ _ hr₂ => .ret hr₂
  exact (readChecksum_steady h hr₁).bind fun _ _ hr₂ => .check (fun _ _ => hr₂) fun _ _ => hr₂

theorem storedBlock_steady (h : Ending I nil) (hr : I r) (f : Frame) (output len : Nat) :
    Preserves I (Spec.storedBlock X S f output len r) := by
  refine .refuse (fun _ => ?_) hr
  refine Ensures.bind (Q := fun _ => I) (.check (fun _ _ => hr) fun _ _ => hr) fun n r₁ hr₁ => ?_
  exact (readData_steady h hr₁ _ _).bind fun _ _ hr₂ => .ret hr₂

theorem compressedBlock_steady (h : Ending I nil) (hr : I r) (f : Frame) (output len : Nat) :
    Preserves I (Spec.compressedBlock X S f output len r) := by
  refine .refuse (fun _ => (readData_steady h hr _ _).bind fun data r₁ hr₁ => ?_) hr
  refine Ensures.bind (Q := fun _ => I) (.check (fun _ _ => hr₁) fun _ _ => hr₁) fun b r₂ hr₂ => ?_
  refine Ensures.bind (Q := fun _ => I) (.check (fun _ _ => hr₂) fun _ _ => hr₂) fun n r₃ hr₃ => ?_
  exact .ret hr₃

theorem endOfFrame_steady (h : Ending I nil) (hr : I r) (f : Frame) :
    Preserves I (Spec.endOfFrame X f r) := by
  refine Ensures.bind (Q := fun _ => I) (.check (fun _ _ => hr) fun _ _ => hr) fun _ r₁ hr₁ => ?_
  refine .ite (fun _ => (readChecksum_steady h hr₁).bind fun expected r₂ hr₂ => ?_) fun _ => .ret hr₁
  exact (Proc.WP_refuse (fun _ => hr₂) fun _ => hr₂).ensures

theorem nextBlock_steady (h : Ending I nil) (hr : I r) (f : Frame) (output : Nat) :
    Preserves I (Spec.nextBlock X S f output r) := by
  refine (readBlockInfo_steady h hr).bind fun info r₁ hr₁ => ?_
  cases info with
  | endMark => exact (endOfFrame_steady h hr₁ f).bind fun _ _ hr₂ => .ret hr₂
  | uncompressed len => exact (storedBlock_steady h hr₁ f _ _).bind fun _ _ hr₂ => .ret hr₂
  | compressed len => exact (compressedBlock_steady h hr₁ f _ _).bind fun _ _ hr₂ => .ret hr₂

end

/-! ## Blocks -/

/-- The end of the stream: nothing is left of the reader and of what was decoded, and no frame
is open. -/
structure Over (nil : ρ) (s : Naive ρ) : Prop where
  reader : s.r = nil
  frame : s.frame = none
  pending : s.pending = []

omit [Read ρ] in
theorem onReader_steady {α : Type} {x : Reads ρ α} {s : Naive ρ} {Q : α → ρ → Prop}
    {E : Error → ρ → Prop} (h : Ensures Q E (x s.r)) :
    Ensures (fun a s' => ∃ r', s' = { s with r := r' } ∧ Q a r')
      (fun e s' => ∃ r', s' = { s with r := r' } ∧ E e r') (Naive.onReader x s) := by
  intro p hp
  obtain ⟨⟨res, r'⟩, hx, hret⟩ := Run.bind_eq_ret.mp hp
  cases hret
  cases res with
  | ok a => exact ⟨r', rfl, h.of_ok hx⟩
  | error e => exact ⟨r', rfl, h.of_error hx⟩

theorem openFrame_steady {s : Naive ρ} (h : Ending I nil) (hr : I s.r) :
    Ensures (fun q s' => I s'.r ∧ (q = none → s'.r = nil)) (fun _ s' => I s'.r)
      (Naive.openFrame X S s) := by
  unfold Naive.openFrame
  refine .get ?_
  cases s.frame with
  | some f => exact .ret ⟨hr, nofun⟩
  | none =>
    refine ((onReader_steady (readHeader_steady X h hr)).mono (fun _ _ h => h) ?_).bind ?_
    · rintro e _ ⟨r', rfl, hr'⟩
      exact hr'
    · rintro q _ ⟨r', rfl, hr', hnil⟩
      cases q with
      | none => exact .ret ⟨hr', fun _ => hnil rfl⟩
      | some q =>
        refine Ensures.bind (Q := fun _ s' => I s'.r) (.check (fun _ _ => hr') fun _ _ => hr') ?_
        exact fun _ _ h => .modify (.ret ⟨h, nofun⟩)

theorem readMoreStep_steady {s : Naive ρ} (h : Ending I nil) (hr : I s.r) :
    Ensures (Proc.FlowAll (fun _ s' => I s'.r) fun n s' => I s'.r ∧ (n = 0 → s'.r = nil))
      (fun _ s' => I s'.r) (Naive.readMoreStep X S () s) := by
  unfold Naive.readMoreStep Naive.blockStep
  refine (openFrame_steady h hr).bind fun q s₁ ⟨hr₁, hnil⟩ => ?_
  cases q with
  | none => exact .ret ⟨hr₁, fun _ => hnil rfl⟩
  | some f =>
    refine .get (Ensures.bind (Q := fun _ s' => I s'.r) (.attempt ?_) fun res s₂ hr₂ => ?_)
    · refine (onReader_steady (nextBlock_steady h hr₁ f s₁.output)).mono ?_ ?_
      · rintro _ _ ⟨r', rfl, hr'⟩
        exact hr'
      · rintro _ _ ⟨r', rfl, hr'⟩
        exact hr'
    · rcases res with e | _ | ⟨b, output⟩
      · exact .modify (.error hr₂)
      · exact .modify (.ret hr₂)
      · exact .modify (.ite (fun hb => .ret ⟨hr₂, fun he => absurd he hb⟩) fun _ => .ret hr₂)

variable [LawfulRead ρ]

/-- Where there is no further block, the stream is over. -/
theorem readMore_steady {s : Naive ρ} (h : Ending I nil) (hr : I s.r) (hp : s.pending = []) :
    Ensures (fun _ s' => I s'.r ∧ (s'.pending = [] → Over nil s')) (fun _ s' => I s'.r)
      (Naive.readMore X S s) := by
  intro p hp'
  have hloop : Ensures (fun n s' => I s'.r ∧ (n = 0 → s'.r = nil)) (fun _ s' => I s'.r)
      (Naive.readMore X S s) :=
    .get (.loop (fun _ s' => I s'.r) (fun _ _ hr => readMoreStep_steady h hr) _ () s hr)
  obtain ⟨res, s'⟩ := p
  cases res with
  | error e => exact hloop.of_error hp'
  | ok n =>
    obtain ⟨hr', hnil⟩ := hloop.of_ok hp'
    have hmore : More S s n s' := (readMore_ok (X := X) (S := S) hp).ensures.of_ok hp'
    refine ⟨hr', fun he => ?_⟩
    have hn : n = 0 := by rw [← hmore.len, he, List.length_nil]
    exact ⟨hnil hn, (hmore.stop hn).1, he⟩

/-! ## Calls -/

theorem fillBuf_steady {s : Naive ρ} (h : Ending I nil) (hr : I s.r) :
    Ensures (fun bytes s' => I s'.r ∧ (bytes = [] → Over nil s')) (fun _ s' => I s'.r)
      (Naive.fillBuf X S s) := by
  unfold Naive.fillBuf
  refine .get (.ite (fun hp => ?_) fun hp => .ret ⟨hr, fun he => absurd he hp⟩)
  exact (readMore_steady h hr hp).bind fun _ s₁ h₁ => .get (.ret h₁)

theorem read_steady {s s' : Naive ρ} {len : Nat} {x : Except Error (List UInt8)} (h : Ending I nil)
    (hr : I s.r) (hlen : len ≠ 0) (hread : Naive.read X S len s = .ret (x, s')) :
    I s'.r ∧ (x = .ok [] → Over nil s') := by
  have taken {s s' : Naive ρ} (hp : s.pending ≠ []) (hr : I s.r)
      (hx : Run.ret (Except.ok (ε := Error) (s.pending.take len), { s with pending := s.pending.drop len }) =
        .ret (x, s')) : I s'.r ∧ (x = .ok [] → Over nil s') := by
    obtain ⟨rfl, rfl⟩ := Prod.mk.inj (Run.ret.inj hx)
    refine ⟨hr, fun he => ?_⟩
    rcases List.take_eq_nil_iff.mp (Except.ok.inj he) with h₀ | h₀
    · exact absurd h₀ hlen
    · exact absurd h₀ hp
  by_cases hp : s.pending = []
  · obtain ⟨⟨y, s₁⟩, hm, hq⟩ := Run.WP_iff.mp (readMore_ok (X := X) (S := S) hp)
    have hsteady := readMore_steady (X := X) (S := S) h hr hp
    cases y with
    | error e =>
      rw [read_fail hp hm] at hread
      obtain ⟨rfl, rfl⟩ := Prod.mk.inj (Run.ret.inj hread)
      exact ⟨hsteady.of_error hm, nofun⟩
    | ok n =>
      have hmore : More S s n s₁ := hq
      obtain ⟨hr₁, hover⟩ := hsteady.of_ok hm
      by_cases hn : n = 0
      · subst hn
        rw [read_stop hp hm] at hread
        obtain ⟨rfl, rfl⟩ := Prod.mk.inj (Run.ret.inj hread)
        exact ⟨hr₁, fun _ => hover (List.length_eq_zero_iff.mp hmore.len)⟩
      · rw [read_block hp hm hn (hmore.pending_ne hn)] at hread
        exact taken (hmore.pending_ne hn) hr₁ hread
  · rw [read_pending hp] at hread
    exact taken hp hr hread

theorem readToEnd_steady {s : Naive ρ} (h : Ending I nil) (hr : I s.r) :
    Ensures (fun q s' => I s'.r ∧ ∀ n, q.2 = .ok n → Over nil s') (fun _ s' => I s'.r)
      (Naive.readToEnd X S s) := by
  unfold Naive.readToEnd
  refine .get (.loop (fun _ s' => I s'.r) (fun buf s₁ hr₁ => ?_) _ [] s hr)
  unfold Naive.readToEndStep
  refine Ensures.bind (Q := fun res s' => I s'.r ∧ (res = .ok [] → Over nil s')) (.attempt ?_) ?_
  · exact (fillBuf_steady h hr₁).mono (fun _ _ ⟨hr, ho⟩ => ⟨hr, fun he => ho (Except.ok.inj he)⟩)
      fun _ _ hr => ⟨hr, nofun⟩
  · rintro res s₂ ⟨hr₂, hover⟩
    rcases res with e | _ | ⟨b, bs⟩
    · exact .ite (fun _ => .ret hr₂) fun _ => .ret ⟨hr₂, nofun⟩
    · exact .ret ⟨hr₂, fun _ _ => hover rfl⟩
    · unfold Naive.consume
      exact Ensures.bind (Q := fun _ s' => I s'.r) (.get (.lift (.any _) fun _ _ => .ret hr₂))
        fun _ s₃ (hr₃ : I s₃.r) => .ret hr₃

/-- A call keeps the reader, and one that says that the stream has ended leaves it over. -/
theorem call_steady {s s' : Naive ρ} {c : Spec.Call ρ} {r : Spec.Reply} (h : Ending I nil) (hr : I s.r)
    (hc : c.reads = true) (hcall : (Spec.naive X S).call s c = .ret (r, s')) :
    I s'.r ∧ (Spec.Calls.ends c r = true → r.error = none → Over nil s') := by
  cases c with
  | read len =>
    obtain ⟨⟨x, s₁⟩, hx, hret⟩ := Run.bind_eq_ret.mp hcall
    obtain ⟨hr₁, hover⟩ := read_steady h hr (bne_iff_ne.mp hc) hx
    obtain ⟨rfl, rfl⟩ := Prod.mk.inj (Run.ret.inj hret)
    refine ⟨hr₁, fun he hok => hover ?_⟩
    cases x with
    | error e => cases hok
    | ok bytes =>
      simp only [Spec.Calls.ends, Spec.Calls.reply, Option.isSome_none, Bool.false_or,
        Bool.and_eq_true, List.isEmpty_iff] at he
      rw [he.2]
  | fillBuf =>
    obtain ⟨⟨x, s₁⟩, hx, hret⟩ := Run.bind_eq_ret.mp hcall
    have hsteady := fillBuf_steady (X := X) (S := S) h hr
    obtain ⟨rfl, rfl⟩ := Prod.mk.inj (Run.ret.inj hret)
    cases x with
    | error e => exact ⟨hsteady.of_error hx, fun _ hok => absurd hok (Option.some_ne_none _)⟩
    | ok bytes =>
      obtain ⟨hr₁, hover⟩ := hsteady.of_ok hx
      refine ⟨hr₁, fun he _ => hover ?_⟩
      simpa only [Spec.Calls.ends, Spec.Calls.reply, Option.isSome_none, Bool.false_or,
        List.isEmpty_iff] using he
  | consume amt =>
    obtain ⟨⟨x, s₁⟩, hx, hret⟩ := Run.bind_eq_ret.mp hcall
    have hsteady : Preserves (fun s' : Naive ρ => I s'.r) (Naive.consume amt s) :=
      .get (.lift (.any _) fun _ _ => .ret hr)
    obtain ⟨rfl, rfl⟩ := Prod.mk.inj (Run.ret.inj hret)
    exact ⟨hsteady.of_ret hx, fun he => absurd he Bool.false_ne_true⟩
  | readToEnd =>
    obtain ⟨⟨x, s₁⟩, hx, hret⟩ := Run.bind_eq_ret.mp hcall
    have hsteady := readToEnd_steady (X := X) (S := S) h hr
    rcases x with e | ⟨bytes, e | n⟩
    · obtain ⟨rfl, rfl⟩ := Prod.mk.inj (Run.ret.inj hret)
      exact ⟨hsteady.of_error hx, fun _ hok => absurd hok (Option.some_ne_none _)⟩
    · obtain ⟨rfl, rfl⟩ := Prod.mk.inj (Run.ret.inj hret)
      exact ⟨(hsteady.of_ok hx).1, fun _ hok => absurd hok (Option.some_ne_none _)⟩
    · obtain ⟨rfl, rfl⟩ := Prod.mk.inj (Run.ret.inj hret)
      exact ⟨(hsteady.of_ok hx).1, fun _ _ => (hsteady.of_ok hx).2 n rfl⟩
  | replace r => cases hc

theorem run_steady (h : Ending I nil) : ∀ {cs : List (Spec.Call ρ)} {s s' : Naive ρ} {rs : List Spec.Reply},
    I s.r → (∀ c ∈ cs, c.reads = true) → (Spec.naive X S).run s cs = .ret (rs, s') → I s'.r
  | [], _, _, _, hr, _, hrun => by
    cases hrun
    exact hr
  | c :: cs, _, _, _, hr, hcs, hrun => by
    obtain ⟨⟨r, s₁⟩, hc, hrun⟩ := Run.bind_eq_ret.mp hrun
    obtain ⟨⟨rs, s₂⟩, hrest, hret⟩ := Run.bind_eq_ret.mp hrun
    cases hret
    have hr₁ := (call_steady h hr (hcs c (List.mem_cons_self ..)) hc).1
    exact run_steady h hr₁ (fun c hc => hcs c (List.mem_cons_of_mem _ hc)) hrest

/-! ## The decoder -/

/-- The decoder has come to the end of the stream: nothing is left of the reader and of what
was decoded, and no frame is open. -/
structure AtEnd (nil : ρ) (d : FrameDecoder X ρ) : Prop where
  reader : d.r = nil
  frame : d.currentFrameInfo = none
  consumed : d.dstStart = d.dstEnd

omit [Read ρ] [LawfulRead ρ] in
theorem Over.atEnd {d : FrameDecoder X ρ} {s : Naive ρ} (h : Over nil s) (hrep : Rep S d s) :
    AtEnd nil d := by
  have hs := hrep.start
  rw [h.pending] at hs
  exact ⟨hrep.r.trans h.reader, hrep.closed h.frame, hs⟩

/-- After any calls, a call says that the stream has ended only at its end. -/
theorem run_ended (h : Ending I nil) (t : Target) (options : FrameDecoderOptions) {r : ρ} (hr : I r)
    {cs : List (Spec.Call ρ)} (hcs : ∀ c ∈ cs, c.reads = true) {rs : List Spec.Reply}
    {d : FrameDecoder X ρ}
    (hrun : (Spec.frameDecoder X t true).run (FrameDecoder.withOptions X t r options) cs = .ret (rs, d))
    {c : Spec.Call ρ} (hc : c.reads = true) {reply : Spec.Reply} {d' : FrameDecoder X ρ}
    (hcall : (Spec.frameDecoder X t true).call d c = .ret (reply, d'))
    (hends : Spec.Calls.ends c reply = true) (hok : reply.error = none) : AtEnd nil d' := by
  have hwhy := settings_why t options
  have hboth := run_refines true hwhy cs _ _ (withOptions_rep X t r options)
  rw [settings_target, hrun] at hboth
  obtain ⟨⟨rs', s⟩, hs, -, hrep⟩ := hboth.of_ret_left
  have hnext := call_refines true hwhy c hrep
  rw [settings_target, hcall] at hnext
  obtain ⟨⟨reply', s'⟩, hs', rfl, hrep'⟩ := hnext.of_ret_left
  exact ((call_steady h (run_steady h hr hcs hs) hc hs').2 hends hok).atEnd hrep'

end Lz4rip.Proof.Frame
