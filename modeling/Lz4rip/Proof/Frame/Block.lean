import Lz4rip.Proof.Frame.Naive
import Lz4rip.Proof.Frame.Window

/-!
# One block of the frame decoder
-/

namespace Lz4rip.Proof.Frame

open Lz4rip.Impl
open Lz4rip.Impl.FrameDecoder
open Spec (Frame blockLimit)
open Proof.Decode (DecodesInto Fits)

variable {X : XxHash32} {ρ : Type} [Read ρ]

/-- The frame `f` is open. -/
structure Open (f : Frame) (d : FrameDecoder X ρ) : Prop where
  info : d.currentFrameInfo = some f.info
  size : f.info.blockSize ≠ .auto
  hash : f.info.contentChecksum = true → d.contentHasher = f.hash X
  len : d.contentLen = f.content.length

/-- The buffer holds the history that `w` says, up to `dst_end`. -/
structure Windowed (f : Frame) (w : Window) (d : FrameDecoder X ρ) : Prop where
  ext : d.extDictLen = w.ext
  stop : d.dstEnd = w.start
  pos : w.start ≤ d.dst.length
  recent : d.dst.take w.start = last f.content w.start
  older : seg d.dst d.extDictOffset w.ext =
    seg f.content (f.content.length - (w.start + w.ext)) w.ext
  region : w.ext ≠ 0 → blockLimit f.info.blockSize + WINDOW_SIZE ≤ d.extDictOffset + w.ext ∧
    d.extDictOffset + w.ext ≤ d.dst.length ∧ w.start ≤ d.extDictOffset

theorem getSize_eq {b : BlockSize} (h : b ≠ .auto) : b.getSize = .ret (blockLimit b) := by
  cases b with
  | auto => exact absurd rfl h
  | _ => rfl

theorem blockLimit_pos {b : BlockSize} (h : b ≠ .auto) : 0 < blockLimit b := by
  cases b with
  | auto => exact absurd rfl h
  | _ => decide

theorem between_independent {f : Frame} (hi : f.info.blockMode = .independent) :
    (between f).ext = 0 := by
  have hs : ∀ w : Window, w.slide f.info = ⟨0, 0⟩ := fun w => by
    unfold Window.slide
    simp only [hi]
  have : ∀ (bs : List (List UInt8)) (w : Window), w.ext = 0 →
      (bs.foldl (fun w b => (w.slide f.info).push b.length) w).ext = 0 := fun bs => by
    induction bs with
    | nil => exact fun _ h => h
    | cons b bs ih =>
      intro w _
      rw [List.foldl_cons, hs]
      exact ih _ rfl
  exact this _ _ rfl

/-- What decoding a block leaves as it is. -/
structure Kept (d d' : FrameDecoder X ρ) : Prop where
  dict : d'.dict = d.dict
  dictId : d'.expectedDictId = d.expectedDictId
  maxOutput : d'.maxOutput = d.maxOutput
  output : d'.bytesOutput = d.bytesOutput

/-! ## The window before a block -/

/-- The decoder is at the start of a block. -/
structure Ready (f : Frame) (d : FrameDecoder X ρ) : Prop extends Open f d, Windowed f (window f) d where
  start : d.dstStart = d.dstEnd
  room : (window f).ext ≠ 0 →
    (window f).start + blockLimit f.info.blockSize ≤ d.extDictOffset

theorem window_linked {f : Frame} (hl : f.info.blockMode = .linked) :
    window f =
      if (between f).start + blockLimit f.info.blockSize >
          blockLimit f.info.blockSize * 2 + WINDOW_SIZE then ⟨0, WINDOW_SIZE⟩
      else if (between f).start + (between f).ext > WINDOW_SIZE then
        ⟨(between f).start,
          (between f).ext - min (between f).ext ((between f).start + (between f).ext - WINDOW_SIZE)⟩
      else between f := by
  unfold window Window.slide
  simp only [hl]

/-- What is behind the external dictionary's first `k` bytes. -/
theorem seg_older {f : Frame} {l : List UInt8} {w : Window} {o k : Nat}
    (h : seg l o w.ext = seg f.content (f.content.length - (w.start + w.ext)) w.ext)
    (hk : k ≤ w.ext) (hle : w.start + w.ext ≤ f.content.length) :
    seg l (o + k) (w.ext - k) =
      seg f.content (f.content.length - (w.start + (w.ext - k))) (w.ext - k) := by
  rw [← drop_seg, h, drop_seg]
  congr 1
  omega

/-- The last bytes of what is in `dst`. -/
theorem seg_recent {l c : List UInt8} {n k : Nat} (h : l.take n = last c n) (hk : k ≤ n)
    (hn : n ≤ c.length) : seg l (n - k) k = seg c (c.length - (0 + k)) k := by
  rw [← seg_take l (show n - k + k ≤ n by omega), h, last, seg_drop]
  congr 1
  omega

omit [Read ρ] in
theorem slideWindow_ok {f : Frame} {d : FrameDecoder X ρ} (ho : Open f d)
    (hw : Windowed f (between f) d) (hs : d.dstStart = d.dstEnd) :
    (slideWindow f.info (blockLimit f.info.blockSize) d).WP fun p => p.1 = .ok () ∧ Ready f p.2 ∧
      Kept d p.2 ∧ p.2.r = d.r := by
  have hext := hw.ext
  have hstop := hw.stop
  have hpos := hw.pos
  simp only [slideWindow, Proc.bind_run, Proc.get_run, Run.ret_bind, Proc.andThen_ok, Proc.ite_run]
  cases hm : f.info.blockMode with
  | independent =>
    have h0 := between_independent hm
    have hwin := window_independent hm
    rw [if_neg (by decide)]
    simp only [Proc.lift_run, Run.WP_bind, Run.WP_assert, hext.trans h0, Run.WP_ret,
      Proc.andThen_ok, Proc.modify_run, true_and]
    refine ⟨⟨⟨ho.info, ho.size, ho.hash, ho.len⟩, ?_, rfl, fun h => absurd (by rw [hwin]) h⟩,
      ⟨rfl, rfl, rfl, rfl⟩, trivial⟩
    rw [hwin]
    exact ⟨rfl, rfl, Nat.zero_le _, by simp [last], by simp, fun h => absurd rfl h⟩
  | linked =>
    have hwin := window_linked hm
    have hr := between_reaches hm
    have hle := hr.le
    have hlimit := blockLimit_pos ho.size
    rw [if_pos rfl]
    rw [hs, hstop, hext]
    by_cases h₁ : (between f).start + blockLimit f.info.blockSize >
        blockLimit f.info.blockSize * 2 + WINDOW_SIZE
    · -- The window wraps: its last bytes are the external dictionary.
      rw [if_pos h₁] at hwin
      rw [if_pos h₁]
      simp only [Proc.bind_run, Proc.lift_run, Run.WP_bind, Run.WP_assert, Run.WP_sub, Run.WP_ret,
        Proc.andThen_ok, Proc.modify_run, true_and]
      refine ⟨by omega, by omega, ⟨⟨ho.info, ho.size, ho.hash, ho.len⟩, ?_, rfl, fun _ => ?_⟩,
        ⟨rfl, rfl, rfl, rfl⟩, trivial⟩
      · rw [hwin]
        refine ⟨rfl, rfl, Nat.zero_le _, by simp [last], ?_, fun _ => ⟨?_, ?_, Nat.zero_le _⟩⟩
        · exact seg_recent hw.recent (by omega) (by omega)
        · dsimp only
          omega
        · dsimp only
          omega
      · rw [hwin]
        dsimp only
        omega
    · rw [if_neg h₁] at hwin
      rw [if_neg h₁]
      by_cases h₂ : (between f).start + (between f).ext > WINDOW_SIZE
      · -- The external dictionary gives way at its front.
        rw [if_pos h₂] at hwin
        have hkeep : (between f).ext -
            min (between f).ext ((between f).start + (between f).ext - WINDOW_SIZE) ≠ 0 →
            (between f).start + ((between f).ext -
              min (between f).ext ((between f).start + (between f).ext - WINDOW_SIZE)) =
                WINDOW_SIZE := by omega
        rw [if_pos h₂]
        simp only [Proc.bind_run, Proc.lift_run, Run.WP_bind, Run.WP_assert, Run.WP_ret,
          Proc.andThen_ok, Proc.modify_run, Proc.get_run, hs, hstop, hext, true_and]
        refine ⟨by omega, ⟨⟨ho.info, ho.size, ho.hash, ho.len⟩, ?_, rfl, fun h => ?_⟩,
          ⟨rfl, rfl, rfl, rfl⟩, trivial⟩
        · rw [hwin]
          refine ⟨rfl, rfl, hpos, hw.recent, ?_, fun h => ?_⟩
          · exact seg_older hw.older (Nat.min_le_left _ _) hle
          · have := hw.region
            dsimp only at h ⊢
            omega
        · rw [hwin] at h ⊢
          have := hw.region
          dsimp only at h ⊢
          omega
      · rw [if_neg h₂] at hwin
        simp only [if_neg h₂, Proc.pure_run, Run.WP_ret, true_and]
        refine ⟨⟨ho, by rw [hwin]; exact hw, hs, fun h => ?_⟩, ⟨rfl, rfl, rfl, rfl⟩, trivial⟩
        rw [hwin] at h ⊢
        have := hw.region h
        have := hr.enough
        omega

/-! ## Writing a block -/

omit [Read ρ] in
theorem Ready.dstStart_eq {f : Frame} {d : FrameDecoder X ρ} (h : Ready f d) :
    d.dstStart = (window f).start := h.start.trans h.stop

omit [Read ρ] in
/-- What is written where a block goes leaves the history. -/
theorem Ready.write {f : Frame} {d : FrameDecoder X ρ} (h : Ready f d) {dst : List UInt8} {n : Nat}
    (hw : Within d.dst dst d.dstStart n) (hn : n ≤ blockLimit f.info.blockSize)
    (src : List UInt8) (r : ρ) : Ready f { d with dst, src, r } := by
  have hs := h.dstStart_eq
  have hpos := h.pos
  refine ⟨⟨h.info, h.size, h.hash, h.len⟩, ⟨h.ext, h.stop, Nat.le_trans hpos hw.length, ?_, ?_, ?_⟩,
    h.start, h.room⟩
  · rw [← h.recent, ← hs]
    exact hw.take_eq (by omega)
  · rw [← h.older]
    by_cases he : (window f).ext = 0
    · rw [he, seg_zero, seg_zero]
    · have := h.room he
      have := h.region he
      exact hw.seg_eq (by dsimp only; omega) (by dsimp only; omega)
  · intro he
    have := h.region he
    have := hw.length
    dsimp only
    omega

theorem last_append {c b : List UInt8} {n : Nat} (h : n ≤ c.length) :
    last (c ++ b) (n + b.length) = last c n ++ b := by
  rw [last, last, List.length_append, show c.length + b.length - (n + b.length) = c.length - n by
    omega, List.drop_append_of_le_length (by omega)]

omit [Read ρ] in
/-- After a block that is in the buffer. -/
theorem Ready.push {f : Frame} {d : FrameDecoder X ρ} (h : Ready f d) {b : List UInt8}
    (hb : seg d.dst d.dstStart b.length = b) (hn : b.length ≤ blockLimit f.info.blockSize)
    (hlen : d.dstStart + b.length ≤ d.dst.length) (bytesOutput : Nat) (hasher : X.State)
    (hh : f.info.contentChecksum = true → hasher = X.write d.contentHasher b) :
    Open (f.push b) { d with
      bytesOutput, dstEnd := d.dstEnd + b.length, contentLen := d.contentLen + b.length,
      contentHasher := hasher } ∧
    Windowed (f.push b) (between (f.push b)) { d with
      bytesOutput, dstEnd := d.dstEnd + b.length, contentLen := d.contentLen + b.length,
      contentHasher := hasher } := by
  have hs := h.dstStart_eq
  have hle := window_le f
  refine ⟨⟨h.info, h.size, fun hc => ?_, ?_⟩, ?_⟩
  · rw [Frame.push_hash, ← h.hash hc]
    exact hh hc
  · rw [Frame.push_content, List.length_append, ← h.len]
  · rw [between_push]
    refine ⟨h.ext, ?_, ?_, ?_, ?_, fun he => ?_⟩
    · dsimp only [Window.push]
      rw [h.stop]
    · dsimp only [Window.push]
      omega
    · dsimp only [Window.push]
      rw [Frame.push_content, last_append (by omega), ← h.recent, ← take_append_seg, ← hs, hb]
    · dsimp only [Window.push]
      rw [h.older, Frame.push_content, seg_append_left _ (by rw [List.length_append]; omega)]
      congr 1
      rw [List.length_append]
      omega
    · have := h.region he
      have := h.room he
      dsimp only [Window.push, Frame.push_info]
      omega

/-! ## Decoding -/

/-- What decoding `input` to `pos` in the first `stop` bytes of `dst` comes to. -/
structure Sunk (t : Target) (hist input dst : List UInt8) (pos stop : Nat)
    (r : Except DecompressError Nat) (dst' : List UInt8) : Prop where
  within : Within dst dst' pos (stop - pos)
  ok : ∀ n, r = .ok n → ∃ b, Spec.decode (hist ++ dst.take pos) input = some b ∧ b.length = n ∧
    pos + n ≤ stop ∧ seg dst' pos n = b
  error : ∀ e, r = .error e →
    (∀ b, Spec.decode (hist ++ dst.take pos) input = some b → stop < pos + b.length) ∧
      e = Decode.refusal t hist input stop (dst.take pos)

theorem decompressIntoSink_ok {t : Target} (useDict : Bool) {input : List UInt8}
    (dict : List UInt8) {dst : List UInt8} {pos stop : Nat} (hf : Fits t input stop) (hpos : pos ≤ stop) (hstop : stop ≤ dst.length) :
    (decompressIntoSinkWithDict t useDict input ⟨dst.take stop, pos⟩ dict).WP fun (r, s) =>
      Sunk t (Decode.history useDict dict) input dst pos stop r (store dst 0 s.output) := by
  have hl : (dst.take stop).length = stop := by rw [List.length_take]; omega
  have htake : (dst.take stop).take pos = dst.take pos := by
    rw [List.take_take, Nat.min_eq_left hpos]
  have h : (decompressIntoSinkWithDict t useDict input ⟨dst.take stop, pos⟩ dict).WP fun p =>
      _ ∧ _ :=
    (Decode.decompressIntoSinkWithDict_spec (by rwa [hl]) (by rw [hl]; exact hpos)).and
      (Decode.decompressIntoSinkWithDict_refusal (by rwa [hl]) (by rw [hl]; exact hpos))
  refine h.mono fun (r, s) ⟨hd, hr⟩ => ?_
  obtain ⟨hcap, hle, hposle, hkept, hok, hsmall, herr⟩ := hd
  simp only [hl, htake] at hcap hle hposle hkept hok hsmall herr hr
  have hget : ∀ j, j < stop → (store dst 0 s.output)[j]? = s.output[j]? := fun j hj => by
    have := getElem?_store_mid (l := dst) (Nat.zero_le _) (show j < s.output.length by omega)
    rwa [Nat.zero_add] at this
  refine ⟨⟨?_, fun j hj ho => ?_⟩, fun n hn => ?_, fun e he => ⟨fun b hb => ?_, hr e he⟩⟩
  · exact Nat.le_of_eq (length_store (by omega)).symm
  · rcases ho with ho | ho
    · rw [hget j (by omega)]
      exact getElem?_eq_of_take hkept ho
    · exact getElem?_store_ge (Nat.zero_le _) (by omega)
  · cases hv : Spec.decode (Decode.history useDict dict ++ dst.take pos) input with
    | none =>
      obtain ⟨e, he⟩ := herr hv
      exact nomatch hn.symm.trans he
    | some b =>
      by_cases hfit : pos + b.length ≤ stop
      · obtain ⟨hrb, hp, hw⟩ := hok b hv hfit
        obtain rfl := Except.ok.inj (hn.symm.trans hrb)
        refine ⟨b, rfl, rfl, hfit, ?_⟩
        have hseg : seg (store dst 0 s.output) pos b.length = seg s.output pos b.length := by
          refine List.ext_getElem? fun k => ?_
          rw [getElem?_seg, getElem?_seg]
          split
          · exact hget _ (by omega)
          · rfl
        have hlen : (dst.take pos).length = pos := by rw [List.length_take]; omega
        rw [hseg, ← seg_take s.output (show pos + b.length ≤ s.pos by omega), hw]
        have := seg_append_right (dst.take pos) b 0 b.length
        rw [hlen, Nat.add_zero] at this
        rw [this, seg_eq_drop (by omega), List.drop_zero]
      · obtain ⟨e, he, -⟩ := hsmall b hv (by omega)
        exact nomatch hn.symm.trans he
  · by_cases hfit : pos + b.length ≤ stop
    · exact nomatch he.symm.trans (hok b hb hfit).1
    · omega

/-- What decoding the compressed block `data` with `limit` comes to. -/
structure Decoded (t : Target) (f : Frame) (d : FrameDecoder X ρ) (data : List UInt8) (limit : Nat)
    (r : Except DecompressError Nat) (d' : FrameDecoder X ρ) : Prop where
  same : d' = { d with dst := d'.dst }
  within : Within d.dst d'.dst d.dstStart limit
  ok : ∀ n, r = .ok n → ∃ b, Spec.decode (f.history d.dict) data = some b ∧ b.length = n ∧
    n ≤ limit ∧ seg d'.dst d.dstStart n = b ∧ d.dstStart + n ≤ d'.dst.length
  error : ∀ e, r = .error e →
    (∀ b, Spec.decode (f.history d.dict) data = some b → limit < b.length) ∧
      (limit = blockLimit f.info.blockSize → e = blockError t d.dict f data)

omit [Read ρ] in
theorem Sunk.decoded {t : Target} {f : Frame} {d : FrameDecoder X ρ} {data dst dst' : List UInt8}
    {limit : Nat} {r : Except DecompressError Nat} (h : Ready f d)
    (hg : Within d.dst dst d.dstStart limit) (hstop : d.dstStart + limit ≤ dst.length)
    (hs : Sunk t (extHistory d.dict f) data dst d.dstStart (d.dstStart + limit) r dst') :
    Decoded t f d data limit r { d with dst := dst' } := by
  have hstart := h.dstStart_eq
  have hpos := h.pos
  obtain ⟨hw, hok, herr⟩ := hs
  rw [Nat.add_sub_cancel_left] at hw
  have hhist : extHistory d.dict f ++ dst.take d.dstStart =
      extHistory d.dict f ++ last f.content (window f).start := by
    rw [hg.take_eq (by omega), hstart, h.recent]
  rw [hhist] at hok herr
  simp only [decode_window] at hok herr
  refine ⟨rfl, hg.trans hw, fun n hn => ?_, fun e he => ?_⟩
  · obtain ⟨b, hb, hl, hle, hseg⟩ := hok n hn
    have := hw.length
    exact ⟨b, hb, hl, by omega, hseg, by dsimp only; omega⟩
  · obtain ⟨hbig, rfl⟩ := herr e he
    refine ⟨fun b hb => by have := hbig b hb; omega, fun hl => ?_⟩
    rw [hg.take_eq (by omega), hl, hstart, h.recent]
    rfl

theorem fits_block {t : Target} {data : List UInt8} {stop : Nat} (hd : data.length ≤ 4194304)
    (hs : stop ≤ 8454144) : Fits t data stop := by
  have : 2 ^ 32 ≤ t.addressSpace := by
    unfold Target.addressSpace
    cases t.width <;> decide
  unfold Fits
  omega

omit [Read ρ] in
theorem decompressBlock_ok (t : Target) {f : Frame} {d : FrameDecoder X ρ} {data : List UInt8}
    {limit : Nat} (h : Ready f d) (hsrc : d.src.take data.length = data)
    (hdata : data.length ≤ blockLimit f.info.blockSize) (hlimit : limit ≤ blockLimit f.info.blockSize) :
    (decompressBlock t data.length limit d).WP fun p =>
      ∃ r, p.1 = .ok r ∧ Decoded t f d data limit r p.2 := by
  have hstart := h.dstStart_eq
  have hle := window_start_le f
  have hmax := blockLimit_le f.info.blockSize
  have hlen : data.length ≤ d.src.length := by
    have := congrArg List.length hsrc
    rw [List.length_take] at this
    omega
  have hpos := h.pos
  have hW : WINDOW_SIZE = 65536 := rfl
  have hf : Fits t data (d.dstStart + limit) := fits_block (by omega) (by omega)
  simp only [decompressBlock, Proc.bind_run, Proc.get_run, Run.ret_bind, Proc.andThen_ok,
    Proc.lift_run, Run.WP_bind, Run.WP_chunk, Run.WP_ret, h.info, Option.any_some, seg_zero_left, hsrc,
    Proc.ite_run]
  refine ⟨by omega, ?_⟩
  by_cases he : (window f).ext ≠ 0
  · have hroom := h.room he
    have hregion := h.region he
    have hext := h.ext
    have hm : f.info.blockMode = .linked := by
      cases hm : f.info.blockMode with
      | linked => rfl
      | independent => exact absurd (by rw [window_independent hm]) he
    have hl : (d.dst.take d.extDictOffset).length = d.extDictOffset := by
      rw [List.length_take]
      omega
    rw [if_pos ⟨by rw [hm]; rfl, by rwa [hext]⟩]
    simp only [Proc.bind_run, Proc.lift_run, Run.WP_bind, Run.WP_assert, Run.WP_chunk, Run.WP_ret,
      Proc.andThen_ok, SliceSink.new, Run.pure_eq, seg_drop, List.length_drop]
    rw [seg_zero_left, List.take_take, Nat.min_eq_left (by omega)]
    refine ⟨by omega, by omega, by omega, by omega, by rw [List.length_take]; omega, ?_⟩
    have hhist : Decode.history true (seg d.dst (d.extDictOffset + 0) d.extDictLen) =
        extHistory d.dict f := by
      rw [Decode.history, if_pos rfl, extHistory, if_pos he, Nat.add_zero, hext, h.older]
    refine (decompressIntoSink_ok true _ hf (Nat.le_add_right _ _) (by omega)).mono fun x hs => ?_
    obtain ⟨r, s⟩ := x
    rw [hhist] at hs
    simp only [Proc.andThen_ok, Proc.modify_run, Proc.pure_run, Run.WP_ret]
    exact ⟨r, rfl, hs.decoded h ⟨Nat.le_refl _, fun _ _ _ => rfl⟩ (by omega)⟩
  · have hext := h.ext
    rw [if_neg (fun hc => he (by rw [← hext]; exact hc.2))]
    have hg : d.dstStart + limit ≤ (growTo d.dst (d.dstStart + limit)).length := by
      rw [length_growTo]
      omega
    simp only [Proc.bind_run, Proc.lift_run, Run.WP_bind, Run.WP_assert, Run.WP_ret,
      Proc.andThen_ok, SliceSink.new, Run.pure_eq, List.length_take]
    refine ⟨by omega, ?_⟩
    have hdict : ∀ p : Except DecompressError Nat × SliceSink,
        Sunk t d.dict data (growTo d.dst (d.dstStart + limit)) d.dstStart (d.dstStart + limit) p.1
          (store (growTo d.dst (d.dstStart + limit)) 0 p.2.output) →
        Decoded t f d data limit p.1
          { d with dst := store (growTo d.dst (d.dstStart + limit)) 0 p.2.output } := fun p hs => by
      have hh : extHistory d.dict f = d.dict := if_neg he
      rw [← hh] at hs
      exact hs.decoded h (.growTo _ _ _ _) hg
    refine .ite (fun hd => ?_) fun hd => ?_
    · refine (decompressIntoSink_ok true d.dict hf (Nat.le_add_right _ _) hg).mono fun x hs => ?_
      obtain ⟨r, s⟩ := x
      simp only [Proc.andThen_ok, Proc.modify_run, Proc.pure_run, Run.WP_ret]
      exact ⟨r, rfl, hdict (r, s) hs⟩
    · refine (decompressIntoSink_ok false [] hf (Nat.le_add_right _ _) hg).mono fun x hs => ?_
      obtain ⟨r, s⟩ := x
      have hnil : Decode.history false [] = d.dict := (not_not.mp hd).symm
      rw [hnil] at hs
      simp only [Proc.andThen_ok, Proc.modify_run, Proc.pure_run, Run.WP_ret]
      exact ⟨r, rfl, hdict (r, s) hs⟩

omit [Read ρ] in
/-- The attempts come to decoding with the limit of a block. -/
theorem decompressWithin_ok (t : Target) {f : Frame} {d : FrameDecoder X ρ} {data : List UInt8}
    {limit : Nat} (h : Ready f d) (hsrc : d.src.take data.length = data)
    (hdata : data.length ≤ blockLimit f.info.blockSize) (hlimit : limit ≤ blockLimit f.info.blockSize) :
    (decompressWithin t (blockLimit f.info.blockSize) data.length limit d).WP fun p =>
      ∃ r, p.1 = .ok r ∧ Decoded t f d data (blockLimit f.info.blockSize) r p.2 := by
  refine Proc.WP_loop (fun l s => l ≤ blockLimit f.info.blockSize ∧ ∃ dst, s = { d with dst } ∧
      Within d.dst dst d.dstStart (blockLimit f.info.blockSize))
    (fun l _ => if l < blockLimit f.info.blockSize then 1 else 0) (fun l s hI => ?_) 2 limit d
    ⟨hlimit, d.dst, rfl, Nat.le_refl _, fun _ _ _ => rfl⟩ (by split <;> decide)
  obtain ⟨hl, dst, rfl, hw⟩ := hI
  have hready : Ready f { d with dst } := h.write hw (Nat.le_refl _) d.src d.r
  rw [Proc.bind_run, Run.WP_bind]
  refine (decompressBlock_ok t hready hsrc hdata hl).mono fun p ⟨r, hp, hd⟩ => ?_
  obtain ⟨hsame, hin, hok, herr⟩ := hd
  obtain ⟨p₁, s'⟩ := p
  obtain rfl : p₁ = .ok r := hp
  have hw' : Within d.dst s'.dst d.dstStart (blockLimit f.info.blockSize) := hw.trans (hin.mono hl)
  rw [Proc.andThen_ok]
  cases r with
  | error e =>
    simp only [Proc.ite_run, Proc.pure_run]
    refine .ite (fun hlt => ?_) fun hge => ?_
    · exact ⟨⟨Nat.le_refl _, _, hsame, hw'⟩, by rw [if_neg (Nat.lt_irrefl _), if_pos hlt]; decide⟩
    · obtain rfl : l = blockLimit f.info.blockSize := by omega
      exact ⟨_, rfl, hsame, hw', nofun, herr⟩
  | ok n =>
    refine ⟨_, rfl, hsame, hw', fun n' hn => ?_, nofun⟩
    obtain ⟨b, hb, hbl, hle, hrest⟩ := hok n' hn
    exact ⟨b, hb, hbl, by omega, hrest⟩

end Lz4rip.Proof.Frame
