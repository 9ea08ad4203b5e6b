import Lz4rip.Proof.Frame.Refine

/-!
# The bounded window

Any calls give the replies of the naive decoder, which keeps all of the content,
and at every block the decoder's window is the end of the content
(`boundedWindow`). The limit that a declared content size puts on a block changes
no reply (`contentSizeLimit_invisible`).
-/

namespace Lz4rip.Proof.Frame

open Lz4rip.Impl
open Lz4rip.Impl.FrameDecoder
open Spec (Frame Naive blockLimit)

variable {X : XxHash32}

/-- A decoder and the naive one on the same stream, after the same calls or
inside of one: past the header of a frame, or past one of its blocks. -/
inductive Together (X : XxHash32) (t : Target) (options : FrameDecoderOptions) (r : Reader) :
    FrameDecoder X Reader → Naive Reader → Prop where
  | start : Together X t options r (withOptions X t r options) (Naive.start r)
  | call {d d' s s' p q} (c : Spec.Call Reader) (h : Together X t options r d s)
    (hd : (Spec.frameDecoder X t true).call d c = .ret (p, d'))
    (hs : (Spec.naive X (settings t options)).call s c = .ret (q, s')) : Together X t options r d' s'
  | header {d d' s s' p q} (h : Together X t options r d s) (he : s.pending = [])
    (hd : openFrame t d = .ret (p, d')) (hs : Naive.openFrame X (settings t options) s = .ret (q, s')) :
    Together X t options r d' s'
  | block {d d' s s' p q} (h : Together X t options r d s) (he : s.pending = [])
    (hd : readMoreStep t true () d = .ret (p, d'))
    (hs : Naive.readMoreStep X (settings t options) () s = .ret (q, s')) : Together X t options r d' s'

/-- What both states are related by after two runs in step. -/
theorem refines_states {σ τ ε α β : Type} {R : α → σ → β → τ → Prop} {E : σ → τ → Prop}
    {P : σ → τ → Prop} {x : Run (Except ε α × σ)} {y : Run (Except ε β × τ)} {p : Except ε α × σ}
    {q : Except ε β × τ} (h : Proc.Refines R E x y) (hx : x = .ret p) (hy : y = .ret q)
    (hR : ∀ a s b t, R a s b t → P s t) (hE : ∀ s t, E s t → P s t) : P p.2 q.2 := by
  obtain ⟨p', q', hp, hq, h⟩ := h
  obtain rfl := Run.ret.inj (hx.symm.trans hp)
  obtain rfl := Run.ret.inj (hy.symm.trans hq)
  match p, q, h with
  | (.ok _, _), (.ok _, _), h => exact hR _ _ _ _ h
  | (.error _, _), (.error _, _), h => exact hE _ _ h.2

theorem Together.rep {t : Target} {options : FrameDecoderOptions} {r : Reader}
    {d : FrameDecoder X Reader} {s : Naive Reader} (h : Together X t options r d s) :
    Rep (settings t options) d s := by
  induction h with
  | start => exact withOptions_rep X t r options
  | call c _ hd hs ih =>
    have := call_refines true rfl c ih
    rw [show (settings t options).target = t from rfl, hd, hs] at this
    exact this.2
  | header _ he hd hs ih =>
    exact refines_states (openFrame_refines ⟨ih, he⟩) hd hs (fun _ _ _ _ h => h.1.toRep)
      fun _ _ h => h.toRep
  | block _ he hd hs ih =>
    refine refines_states (readMoreStep_refines true rfl ⟨ih, he⟩) hd hs (fun a d' b s' h => ?_)
      fun _ _ h => h.toRep
    match a, b, h with
    | .next _, .next _, h => exact h.toRep
    | .done _, .done _, h => exact h.2

/-- What the window of a decoder is, where it decodes a block of `f`. -/
structure WindowOf (f : Frame) (d : FrameDecoder X Reader) : Prop where
  /-- The external dictionary is in the buffer, behind what the block may write. -/
  apart : d.extDictLen ≠ 0 → d.dstStart + blockLimit f.info.blockSize ≤ d.extDictOffset ∧
    d.extDictOffset + d.extDictLen ≤ d.dst.length
  /-- The window is the end of the content, and has all that a block can use. -/
  history : ∃ n, seg d.dst d.extDictOffset d.extDictLen ++ d.dst.take d.dstStart = last f.content n ∧
    n ≤ f.content.length ∧ (f.info.blockMode = .linked → min WINDOW_SIZE f.content.length ≤ n)

theorem Ready.windowOf {f : Frame} {d : FrameDecoder X Reader} (h : Ready f d) : WindowOf f d where
  apart he := by
    rw [h.ext] at he ⊢
    rw [h.dstStart_eq]
    exact ⟨h.room he, (h.region he).2.1⟩
  history := by
    have hle := window_le f
    refine ⟨(window f).start + (window f).ext, ?_, hle, fun hl => ?_⟩
    · rw [h.ext, h.dstStart_eq, h.older, h.recent]
      exact seg_append_last hle
    · have := (window_reaches hl).enough
      omega

theorem replies_refines {S : Spec.Settings} {d : FrameDecoder X Reader} {s : Naive Reader}
    (limited : Bool) (hwhy : S.why = blockError S.target S.dict) (h : Rep S d s)
    (cs : List (Spec.Call Reader)) :
    (Spec.frameDecoder X S.target limited).replies d cs = (Spec.naive X S).replies s cs :=
  Run.Same.eq <| (run_refines limited hwhy cs d s h).bind fun _ _ h =>
    show Run.Same Eq (.ret _) (.ret _) from h.1

/-- A new decoder gives the replies of the naive one. -/
theorem withOptions_replies (X : XxHash32) (t : Target) (options : FrameDecoderOptions) (r : Reader)
    (limited : Bool) (cs : List (Spec.Call Reader)) :
    (Spec.frameDecoder X t limited).replies (withOptions X t r options) cs =
      (Spec.naive X (settings t options)).replies (Naive.start r) cs := by
  have := replies_refines limited (settings_why t options) (withOptions_rep X t r options) cs
  rwa [settings_target] at this

/-- And the sessions. -/
theorem withOptions_session {ρ : Type} [Read ρ] [LawfulRead ρ] (X : XxHash32) (t : Target)
    (options : FrameDecoderOptions) (r : ρ) (limited : Bool) (cs : List (Spec.Call ρ)) :
    (Spec.frameDecoder X t limited).session (withOptions X t r options) cs =
      (Spec.naive X (settings t options)).session (Naive.start r) cs := by
  have := (session_refines limited (settings_why t options) cs _ _ (withOptions_rep X t r options)).eq
  rwa [settings_target] at this

/-- A call that consumes no more than there is returns. -/
theorem call_returns {S : Spec.Settings} {d : FrameDecoder X Reader} {s : Naive Reader}
    (hwhy : S.why = blockError S.target S.dict) (h : Rep S d s) (c : Spec.Call Reader)
    (hc : ∀ amt, c = .consume amt → amt ≤ s.pending.length) :
    ∃ p, (Spec.frameDecoder X S.target true).call d c = .ret p := by
  cases c with
  | read len =>
    obtain ⟨p, _, hx, -⟩ := read_refines true hwhy len h
    simp only [Spec.Calls.call, Spec.frameDecoder, hx, Run.ret_bind]
    exact ⟨_, rfl⟩
  | fillBuf =>
    obtain ⟨p, _, hx, -⟩ := fillBuf_refines true hwhy h
    simp only [Spec.Calls.call, Spec.frameDecoder, hx, Run.ret_bind]
    exact ⟨_, rfl⟩
  | consume amt =>
    obtain ⟨p, _, hx, -⟩ := consume_refines h (hc amt rfl)
    simp only [Spec.Calls.call, Spec.frameDecoder, hx, Run.ret_bind]
    exact ⟨_, rfl⟩
  | readToEnd =>
    obtain ⟨⟨x, d'⟩, _, hx, -⟩ := readToEnd_refines true hwhy h
    simp only [Spec.Calls.call, Spec.frameDecoder, hx, Run.ret_bind]
    rcases x with e | ⟨bytes, e | n⟩
    · exact ⟨_, rfl⟩
    · exact ⟨_, rfl⟩
    · exact ⟨_, rfl⟩
  | replace r => exact ⟨_, rfl⟩

/-- The first of such calls returns, and the others go on from where it leaves the decoder. -/
theorem Rep.first {S : Spec.Settings} (hwhy : S.why = blockError S.target S.dict) {d : FrameDecoder X Reader}
    {s : Naive Reader} (h : Rep S d s) {c : Spec.Call Reader} {cs : List (Spec.Call Reader)}
    (hp : (Spec.frameDecoder X S.target true).Proper d (c :: cs)) :
    ∃ r d' s', (Spec.frameDecoder X S.target true).call d c = .ret (r, d') ∧ Rep S d' s' ∧
      (Spec.frameDecoder X S.target true).Proper d' cs := by
  have hlen : ((Spec.frameDecoder X S.target true).pending d).length = s.pending.length := by
    have hs := h.start
    show (seg d.dst d.dstStart (d.dstEnd - d.dstStart)).length = _
    rw [show d.dstEnd - d.dstStart = s.pending.length by omega, h.block]
  obtain ⟨⟨r, d'⟩, hcall⟩ := call_returns hwhy h c fun amt hc => hlen ▸ hp.1 amt hc
  have hsame := call_refines true hwhy c h
  rw [hcall] at hsame
  obtain ⟨⟨_, s'⟩, -, -, h'⟩ := hsame.of_ret_left
  exact ⟨r, d', s', hcall, h', hp.2 r d' hcall⟩

/-- So do calls one after the other. -/
theorem session_returns {S : Spec.Settings} (hwhy : S.why = blockError S.target S.dict) :
    ∀ (cs : List (Spec.Call Reader)) (d : FrameDecoder X Reader) (s : Naive Reader), Rep S d s →
      (Spec.frameDecoder X S.target true).Proper d cs →
        ∃ p, (Spec.frameDecoder X S.target true).session d cs = .ret p
  | [], _, _, _, _ => ⟨_, rfl⟩
  | c :: cs, d, s, h, hp => by
    obtain ⟨r, d', s', hcall, h', hp'⟩ := h.first hwhy hp
    rw [Spec.Calls.session, hcall, Run.ret_bind]
    dsimp only
    split
    · exact ⟨_, rfl⟩
    · obtain ⟨p, hret⟩ := session_returns hwhy cs d' s' h' hp'
      rw [hret]
      exact ⟨_, rfl⟩

/-- The frame decoder gives the replies of the naive one, which keeps all of the
content of a frame. At each block its window is the end of that content, apart
from what the block may write, and neither the block nor a call panics. -/
theorem boundedWindow (X : XxHash32) (t : Target) (options : FrameDecoderOptions) (r : Reader) :
    (∀ cs, (Spec.frameDecoder X t true).replies (withOptions X t r options) cs =
      (Spec.naive X (settings t options)).replies (Naive.start r) cs) ∧
    ∀ d s, Together X t options r d s →
      (∀ c, (∀ amt, c = .consume amt → amt ≤ s.pending.length) →
        ∃ p, (Spec.frameDecoder X t true).call d c = .ret p) ∧
      ∀ f, s.frame = some f → s.pending = [] →
        (∃ p, readBlock t true d = .ret p) ∧
        (slideWindow f.info (blockLimit f.info.blockSize) d).WP fun p =>
          p.1 = .ok () ∧ WindowOf f p.2 := by
  have hwhy := settings_why t options
  refine ⟨withOptions_replies X t options r true, fun d s h => ?_⟩
  have hrep := h.rep
  refine ⟨fun c hc => ?_, fun f hf he => ?_⟩
  · have := call_returns hwhy hrep c hc
    rwa [settings_target] at this
  have hidle : Idle (settings t options) d s := ⟨hrep, he⟩
  obtain ⟨ho, hw, hle⟩ := hrep.opened f hf
  refine ⟨?_, (slideWindow_ok ho hw hidle.drained.start).mono fun p hp => ⟨hp.1, hp.2.1.windowOf⟩⟩
  obtain ⟨p, _, hp, -⟩ := readBlock_refines true hwhy ho hw hidle.drained hle
  exact ⟨p, hp⟩

/-- Decoding a block within what the frame still declares first gives the same
replies as decoding it with the limit of a block at once. -/
theorem contentSizeLimit_invisible (X : XxHash32) (t : Target) (options : FrameDecoderOptions)
    (r : Reader) (cs : List (Spec.Call Reader)) :
    (Spec.frameDecoder X t true).replies (withOptions X t r options) cs =
      (Spec.frameDecoder X t false).replies (withOptions X t r options) cs :=
  (withOptions_replies X t options r true cs).trans (withOptions_replies X t options r false cs).symm

end Lz4rip.Proof.Frame
