import Lz4rip.Framework.Lz77
import Lz4rip.Impl.Decode.Decompress

/-!
# The decoder's copies

Every match copy strategy leaves a buffer that continues with period `offset`
from the write position for the match length (`Lz77.Copied`), whatever it
writes past that: chunk by chunk (`copyChunk_ok`), from a pattern spread over
eight bytes (`wildCopyMatchShortOffset_ok`), by doubling
(`copyWithinOverlapping_ok`), by filling, or at once. `copyMatch_ok` is the
dispatch over them. Literal copies append (`Appended`).
-/

namespace Lz4rip.Proof.Decode

open Lz4rip.Impl
open Lz4rip.Lz77 (Copied copyBack)

theorem hasHeadroom_ok {t : Target} {pos len slack cap : Nat} (h : pos + len + slack < t.modulus) :
    (hasHeadroom t pos len slack cap).WP (· = decide (pos + len + slack ≤ cap)) := by
  unfold hasHeadroom
  cases t.width with
  | w32 =>
    simp only [Run.pure_eq, Run.WP_ret, decide_eq_decide]
    omega
  | w64 =>
    simp only [Run.WP_bind, Target.WP_add, Run.pure_eq, Run.WP_ret, and_true]
    omega

theorem lenExceedsCapacity_ok {t : Target} {pos len cap : Nat}
    (h : t.width = .w64 → pos + len < t.modulus) (hp : pos ≤ cap) :
    (lenExceedsCapacity t pos len cap).WP (· = decide (cap < pos + len)) := by
  unfold lenExceedsCapacity
  cases hw : t.width with
  | w32 =>
    simp only [Run.pure_eq, Run.WP_ret, decide_eq_decide]
    omega
  | w64 =>
    simp only [Run.WP_bind, Target.WP_add, Run.pure_eq, Run.WP_ret, gt_iff_lt, and_true]
    exact h hw

theorem expectedOutputSize_ok {t : Target} {pos len : Nat}
    (h : t.width = .w64 → pos + len < t.modulus) :
    (expectedOutputSize t pos len).WP (· = min (pos + len) t.usizeMax) := by
  unfold expectedOutputSize
  cases hw : t.width with
  | w32 => exact rfl
  | w64 =>
    have := h hw
    exact (Target.WP_add t).mpr ⟨this, by rw [Target.usizeMax]; omega⟩

/-! ## Chunks -/

/-- The window of a match copy: it starts `off` bytes before `dst` and lies in
the buffer. -/
structure MatchWindow (b : List UInt8) (w : Window) (dst off : Nat) : Prop where
  off_pos : 0 < off
  off_le : off ≤ dst
  start : w.start = dst - off
  fits : w.start + w.len ≤ b.length

theorem tailWindow_ok {b : List UInt8} {dst off n : Nat} (h₀ : 0 < off) (ho : off ≤ dst)
    (hb : dst + n ≤ b.length) :
    (tailWindow b (dst + n) (off + n)).WP fun w => MatchWindow b w dst off ∧ w.len = off + n := by
  simp only [tailWindow, Run.WP_bind, Run.WP_assert, Run.WP_sub, Run.pure_eq, Run.WP_ret]
  exact ⟨hb, by omega, ⟨h₀, ho, by dsimp only; omega, by dsimp only; omega⟩, trivial⟩

/-- A chunk no longer than the offset, copied where the copy has got to. -/
theorem copyChunk_ok {b b' : List UInt8} {w : Window} {dst off n c : Nat}
    (h : Copied b b' dst off n) (hw : MatchWindow b w dst off) (hc : c ≤ off)
    (hfit : off + n + c ≤ w.len) :
    (copyChunk c b' w n (off + n)).WP fun b'' => Copied b b'' dst off (n + c) := by
  obtain ⟨h₀, ho, hs, hf⟩ := hw
  have hl := h.length
  have hseg : (seg b' (w.start + n) c).length = c := length_seg (by omega)
  simp only [copyChunk, Run.WP_bind, Run.WP_assert, Run.WP_chunk, Run.WP_storeAt, hseg]
  refine ⟨by omega, hfit, by omega, by omega, ?_⟩
  rw [hs, show dst - off + (off + n) = dst + n by omega]
  exact h.step ho hc (by omega)

theorem wildMatchCopy18_ok {b : List UInt8} {dst off len : Nat} (h8 : 8 ≤ off) (ho : off ≤ dst)
    (hlen : len ≤ 18) (hb : dst + 18 ≤ b.length) :
    (wildMatchCopy18 b dst off len).WP fun (b', pos) =>
      Copied b b' dst off len ∧ pos = dst + len := by
  simp only [wildMatchCopy18, MATCH_CHUNK, SHORT_MATCH_MAX, MINMATCH, ML_MASK, Run.WP_bind,
    Run.WP_assert, Run.pure_eq, Run.WP_ret]
  refine ⟨h8, by omega, (tailWindow_ok (by omega) ho hb).mono fun w ⟨hw, hwl⟩ => ?_⟩
  refine (copyChunk_ok (.refl b dst off) hw h8 (by omega)).mono fun b₁ h₁ => ?_
  refine (copyChunk_ok h₁ hw h8 (by omega)).mono fun b₂ h₂ => ?_
  refine (copyChunk_ok h₂ hw (by omega) (by omega)).mono fun b₃ h₃ => ?_
  exact ⟨h₃.mono (by omega), trivial⟩

/-- The loop of the long copy, from any position reached. -/
theorem wildCopyMatchLongLoop_ok {b : List UInt8} {w : Window} {dst off len : Nat}
    (hw : MatchWindow b w dst off) (h16 : 16 ≤ off) (hwl : w.len = off + (len + 32))
    {b₁ : List UInt8} {n : Nat} (h : Copied b b₁ dst off n) :
    (Run.loop (wildCopyMatchLongLoop w off len) (len + 1) (b₁, n)).WP
      fun b' => Copied b b' dst off len := by
  refine Run.WP.loop (fun s => Copied b s.1 dst off s.2) (fun s => len - s.2)
    (fun s hs => ?_) _ _ h (by dsimp only; omega)
  obtain ⟨b₂, k⟩ := s
  simp only [wildCopyMatchLongLoop, WIDE_CHUNK, LONG_CHUNK, MATCH_CHUNK]
  refine .ite (fun hk => ?_) fun hk => hs.mono (by omega)
  simp only [Run.WP_bind, Nat.reduceMul, Run.pure_eq, Run.WP_ret]
  refine (copyChunk_ok hs hw h16 (by omega)).mono fun b₃ h₃ => ?_
  rw [Nat.add_assoc off]
  refine (copyChunk_ok h₃ hw h16 (by omega)).mono fun b₄ h₄ => ?_
  exact ⟨h₄, by omega⟩

theorem wildCopyMatchLong_ok {b : List UInt8} {dst off len : Nat} (h16 : 16 ≤ off) (ho : off ≤ dst)
    (hb : dst + len + 32 ≤ b.length) :
    (wildCopyMatchLong b dst off len).WP fun b' => Copied b b' dst off len := by
  simp only [wildCopyMatchLong, LONG_UNROLLED, LONG_CHUNK, WIDE_CHUNK, MATCH_CHUNK, Run.WP_bind,
    Run.WP_assert, Nat.reduceMul]
  refine ⟨h16, .ite (fun ⟨_, hd⟩ => ?_) fun _ => ?_⟩
  · have hseg : (seg b (dst - off) len).length = len := length_seg (by omega)
    simp only [Run.WP_bind, Run.WP_assert, Run.WP_sub, Run.WP_storeAt, hseg]
    refine ⟨by omega, ho, by omega, by omega, ?_⟩
    have := (Copied.refl b dst off).step ho (c := len) hd (by omega)
    rwa [Nat.add_zero, Nat.add_zero, Nat.zero_add] at this
  · rw [Nat.add_assoc dst, Nat.add_assoc off]
    refine Run.WP_bind.mpr ((tailWindow_ok (by omega) ho (by omega)).mono fun w ⟨hw, hwl⟩ => ?_)
    simp only [Run.WP_bind]
    refine (copyChunk_ok (.refl b dst off) hw h16 (by omega)).mono fun b₁ h₁ => ?_
    refine (copyChunk_ok h₁ hw h16 (by omega)).mono fun b₂ h₂ => .ite (fun hl => ?_) fun hl => ?_
    · simp only [Run.WP_bind]
      refine (copyChunk_ok h₂ hw h16 (by omega)).mono fun b₃ h₃ => ?_
      refine (copyChunk_ok h₃ hw h16 (by omega)).mono fun b₄ h₄ => ?_
      exact wildCopyMatchLongLoop_ok hw h16 hwl h₄
    · exact h₂.mono (by omega)

theorem wildCopyMatch_ok {b : List UInt8} {step dst off len : Nat} (h₀ : 0 < step)
    (hs : step ≤ off) (ho : off ≤ dst) (hb : dst + len + step ≤ b.length) :
    (wildCopyMatch step b (dst - off) dst len).WP fun (b', pos) =>
      Copied b b' dst off len ∧ pos = dst + len := by
  simp only [wildCopyMatch, Run.WP_bind, Run.WP_assert, Run.WP_sub, Run.pure_eq, Run.WP_ret,
    show dst - (dst - off) = off by omega]
  refine ⟨by omega, hs, ?_⟩
  rw [Nat.add_assoc dst, Nat.add_assoc off]
  refine (tailWindow_ok (by omega) ho (by omega)).mono fun w ⟨hw, hwl⟩ => ?_
  -- The first chunk is copied even for an empty match, so the loop tests `len` after it.
  refine Run.WP.mono (Run.WP.loop (fun s => Copied b s.1 dst off s.2 ∧ (s.2 = 0 ∨ s.2 < len))
    (fun s => len - s.2) (Q := fun b' => Copied b b' dst off len) (fun s hs' => ?_) _ _
    ⟨.refl b dst off, .inl rfl⟩ (by dsimp only; omega)) fun b' h => ⟨h, trivial⟩
  obtain ⟨b₁, k⟩ := s
  obtain ⟨hc, hk⟩ := hs'
  simp only [wildCopyMatchLoop, Run.WP_bind]
  refine (copyChunk_ok hc hw hs (by dsimp only at hk; omega)).mono fun b₂ h₂ => ?_
  simp only [Run.pure_eq, Run.WP_ret]
  split
  · rename_i hge
    split at hge
    · cases hge
    · cases hge
      exact ⟨⟨h₂, .inr (by omega)⟩, by omega⟩
  · rename_i hge
    split at hge
    · cases hge
      exact h₂.mono (by omega)
    · cases hge

theorem wildCopyMatch32_ok {b : List UInt8} {dst off len : Nat} (h16 : 16 ≤ off) (ho : off ≤ dst)
    (hb : dst + len + 32 ≤ b.length) :
    (wildCopyMatch32 b (dst - off) dst len).WP fun (b', pos) =>
      Copied b b' dst off len ∧ pos = dst + len := by
  simp only [wildCopyMatch32, Run.WP_bind, Run.WP_sub, Run.pure_eq, Run.WP_ret,
    show dst - (dst - off) = off by omega]
  exact ⟨by omega, (wildCopyMatchLong_ok h16 ho hb).mono fun b' h => ⟨h, trivial⟩⟩

/-! ## Patterns -/

/-- The pattern repeats the first `off` bytes of the window. -/
theorem spreadPattern_ok {window : List UInt8} {off : Nat} (h₀ : 0 < off)
    (hw : off ≤ window.length) :
    ∀ (k i : Nat) (p : List UInt8), i + k = p.length → 0 < i →
      (∀ j < i, p[j]? = window[j % off]?) →
      (spreadPattern window off p (List.range' i k)).WP fun p' =>
        p'.length = p.length ∧ ∀ j < p.length, p'[j]? = window[j % off]?
  | 0, i, p, hk, _, hp => ⟨rfl, fun j hj => hp j (by omega)⟩
  | k + 1, i, p, hk, hi, hp => by
    rw [List.range'_succ, spreadPattern]
    have hb : ∀ b : UInt8, some b = window[i % off]? →
        (spreadPattern window off (p.set i b) (List.range' (i + 1) k)).WP fun p' =>
          p'.length = p.length ∧ ∀ j < p.length, p'[j]? = window[j % off]? := fun b hb => by
      have ih := spreadPattern_ok h₀ hw k (i + 1) (p.set i b) (by rw [List.length_set]; omega)
        (by omega) fun j hj => ?_
      · rwa [List.length_set] at ih
      · by_cases hji : j = i
        · rw [hji, List.getElem?_set_self (by omega), hb]
        · rw [List.getElem?_set_ne (Ne.symm hji), hp j (by omega)]
    refine .ite (fun hio => ?_) fun hio => ?_
    · rw [Run.index_eq (by omega), Run.ret_bind]
      exact hb _ (by rw [Nat.mod_eq_of_lt hio, List.getElem?_eq_getElem])
    · rw [Run.WP_bind, Run.WP_sub]
      refine ⟨by omega, ?_⟩
      rw [Run.index_eq (show i - off < p.length by omega), Run.ret_bind]
      refine hb _ ?_
      rw [← List.getElem?_eq_getElem, hp _ (by omega), Nat.mod_eq_sub_mod (a := i) (by omega)]

/-- Storing the pattern every `step` bytes, a multiple of the period. -/
theorem storePatternLoop_ok {b p : List UInt8} {w : Window} {dst off len step : Nat}
    (hw : MatchWindow b w dst off) (hwl : w.len = off + (len + 8)) (hpl : p.length = 8)
    (hp : ∀ j < 8, p[j]? = b[dst - off + j % off]?) (h₀ : 0 < step) (h8 : step ≤ 8)
    (hd : off ∣ step) :
    (Run.loop (storePatternLoop w p off len step) (len + 1) (b, 0)).WP fun b' =>
      Copied b b' dst off len := by
  obtain ⟨-, ho, hs, hf⟩ := hw
  refine Run.WP.loop (fun s => Copied b s.1 dst off s.2 ∧ off ∣ s.2) (fun s => len - s.2)
    (fun s hI => ?_) _ _ ⟨.refl b dst off, ⟨0, rfl⟩⟩ (by dsimp only; omega)
  obtain ⟨b₁, k⟩ := s
  obtain ⟨hc, q, rfl⟩ := hI
  have hl : b₁.length = b.length := hc.length
  simp only [storePatternLoop, MATCH_CHUNK]
  refine .ite (fun hk => ?_) fun hk => hc.mono (by omega)
  simp only [Run.WP_bind, Run.WP_assert, Run.WP_storeAt, Run.pure_eq, Run.WP_ret, hpl]
  refine ⟨by omega, by omega, ⟨?_, Nat.dvd_add (Nat.dvd_mul_right off q) hd⟩, by omega⟩
  rw [hs, show dst - off + (off + off * q) = dst + off * q by omega]
  refine (hc.store (Nat.le_refl _) (by omega) fun j hj => ?_).mono (by omega)
  rw [hp j (by omega), Nat.mul_add_mod]

theorem wildCopyMatchShortOffset_ok {b : List UInt8} {dst off len : Nat} (h2 : 2 ≤ off)
    (h8 : off < 8) (ho : off ≤ dst) (hb : dst + len + 8 ≤ b.length) :
    (wildCopyMatchShortOffset b dst off len).WP fun (b', pos) =>
      Copied b b' dst off len ∧ pos = dst + len := by
  simp only [wildCopyMatchShortOffset, MIN_COPY_OFFSET, MATCH_CHUNK, Run.WP_bind, Run.WP_assert,
    Run.pure_eq, Run.WP_ret]
  rw [Nat.add_assoc dst, Nat.add_assoc off]
  refine ⟨⟨h2, h8⟩, (tailWindow_ok (by omega) ho (by omega)).mono fun w ⟨hw, hwl⟩ => ?_⟩
  have hwin : (seg b w.start w.len).length = w.len := length_seg hw.fits
  have hwb : ∀ j < off, (seg b w.start w.len)[j]? = b[dst - off + j]? := fun j hj => by
    rw [getElem?_seg_of_lt _ (by omega), hw.start]
  rw [Run.index_eq (by omega), Run.WP_ret, Run.WP_chunk]
  have h2l : (seg (seg b w.start w.len) 0 2).length = 2 := length_seg (by omega)
  rw [Run.WP_storeAt, h2l, List.length_replicate]
  refine ⟨by omega, by omega, ?_⟩
  have hrep : (List.replicate 8 (seg b w.start w.len)[0]).length = 8 := List.length_replicate
  have hpat := length_store (l := List.replicate 8 (seg b w.start w.len)[0])
    (d := seg (seg b w.start w.len) 0 2) (i := 0) (by omega)
  refine (spreadPattern_ok (by omega) (by omega) 6 2 _ (by omega) (by omega) fun j hj => ?_).mono
    fun p ⟨hpl, hp⟩ => ?_
  · rw [← Nat.zero_add j, getElem?_store_mid (Nat.zero_le _) (by omega), getElem?_seg_of_lt _ hj,
      Nat.zero_add, Nat.mod_eq_of_lt (by omega)]
  · have hstep : 8 - 8 % off = off * (8 / off) := by
      have := Nat.div_add_mod 8 off
      omega
    refine (storePatternLoop_ok hw hwl (by omega) (fun j hj => ?_) (by
      have := Nat.mod_lt 8 (show off > 0 by omega)
      omega) (by omega) ⟨_, hstep⟩).mono fun b' h => ⟨h, trivial⟩
    rw [hp j (by omega), hwb _ (Nat.mod_lt _ (by omega))]

/-! ## Doubling, filling, disjoint copies -/

/-- Doubling what is written keeps to the period, whose multiple that is until
the last copy. -/
theorem doublingLoop_ok {out : List UInt8} {h : List UInt8} {off len : Nat} (h₀ : 0 < off)
    (hout : out.length = len) (hinit : ∀ i < min off len, out[i]? = h[i % off]?) :
    (Run.loop (doublingLoop len) (len + 1) (out, min off len)).WP fun out' =>
      out'.length = len ∧ ∀ i < len, out'[i]? = h[i % off]? := by
  refine Run.WP.loop (fun s => s.1.length = len ∧ (∀ i < s.2, s.1[i]? = h[i % off]?) ∧
      (off ∣ s.2 ∧ 0 < s.2 ∨ len ≤ s.2) ∧ s.2 ≤ len) (fun s => len - s.2)
    (fun s hI => ?_) _ _ ⟨hout, hinit, ?_, Nat.min_le_right _ _⟩ (by dsimp only; omega)
  · obtain ⟨o, k⟩ := s
    obtain ⟨hl, hrep, hmul, hk⟩ := hI
    dsimp only at hl hrep hmul hk
    simp only [doublingLoop]
    refine .ite (fun hlt => ?_) fun hge => ?_
    · have hd : off ∣ k ∧ 0 < k := hmul.resolve_right (by omega)
      have hcl : (seg (o.take k) 0 (min k (len - k))).length = min k (len - k) :=
        length_seg (by rw [List.length_take]; omega)
      simp only [Run.WP_bind, Run.WP_chunk, Run.WP_storeAt, Run.pure_eq, Run.WP_ret, hcl,
        List.length_take]
      refine ⟨by omega, by omega, ⟨?_, fun i hi => ?_, ?_, by omega⟩, by omega⟩
      · rw [length_store (by omega), hl]
      · by_cases hik : i < k
        · rw [getElem?_store_lt _ (by omega) hik, hrep i hik]
        · obtain ⟨j, rfl⟩ := Nat.exists_eq_add_of_le (Nat.le_of_not_lt hik)
          obtain ⟨q, rfl⟩ := hd.1
          rw [getElem?_store_mid (by omega) (by omega), getElem?_seg_of_lt _ (by omega),
            Nat.zero_add, List.getElem?_take_of_lt (by omega), hrep j (by omega),
            Nat.mul_add_mod]
      · by_cases hle : k ≤ len - k
        · rw [Nat.min_eq_left hle]
          exact .inl ⟨Nat.dvd_add hd.1 hd.1, by omega⟩
        · exact .inr (by omega)
    · obtain rfl : k = len := by omega
      exact ⟨hl, hrep⟩
  · dsimp only
    by_cases hle : off ≤ len
    · rw [Nat.min_eq_left hle]
      exact .inl ⟨Nat.dvd_refl off, h₀⟩
    · exact .inr (by omega)

theorem copyWithinOverlapping_ok {b : List UInt8} {dst off len : Nat} (h2 : 2 ≤ off)
    (ho : off ≤ dst) (hb : dst + len ≤ b.length) :
    (copyWithinOverlapping b (dst - off) dst len off).WP fun (b', pos) =>
      Copied b b' dst off len ∧ pos = dst + len := by
  have hout : (seg b dst len).length = len := length_seg hb
  have hini : (seg (b.take dst) (dst - off) (min off len)).length = min off len :=
    length_seg (by rw [List.length_take]; omega)
  simp only [copyWithinOverlapping, MIN_COPY_OFFSET, Run.WP_bind, Run.WP_assert, Run.WP_chunk,
    Run.WP_storeAt, Run.pure_eq, Run.WP_ret, hini, hout, List.length_take]
  refine ⟨h2, by omega, by omega, hb, by omega, by omega, ?_⟩
  refine (doublingLoop_ok (h := b.drop (dst - off)) (show 0 < off by omega)
    (by rw [length_store (by omega), hout]) fun i hi => ?_).mono fun out ⟨hl, hrep⟩ => ?_
  · rw [← Nat.zero_add i, getElem?_store_mid (Nat.zero_le _) (by omega),
      getElem?_seg_of_lt _ (by omega), List.getElem?_take_of_lt (by omega), Nat.zero_add,
      Nat.mod_eq_of_lt (by omega), List.getElem?_drop]
  · refine ⟨?_, trivial⟩
    have := (Copied.refl b dst off).store (d := out) (Nat.le_refl 0) (by omega) fun j hj => by
      rw [hrep j (by omega), List.getElem?_drop, Nat.zero_add]
    rwa [Nat.add_zero, Nat.zero_add, hl] at this

theorem copyWithinNonoverlap_ok {b : List UInt8} {dst off len : Nat} (hl : len ≤ off)
    (ho : off ≤ dst) (hb : dst + len ≤ b.length) :
    (copyWithinNonoverlap b (dst - off) dst len).WP fun (b', pos) =>
      Copied b b' dst off len ∧ pos = dst + len := by
  have hseg : seg (b.take dst) (dst - off) len = seg b (dst - off) len := seg_take _ (by omega)
  have hsl : (seg b (dst - off) len).length = len := length_seg (by omega)
  simp only [copyWithinNonoverlap, Run.WP_bind, Run.WP_assert, Run.WP_chunk, Run.WP_storeAt,
    Run.pure_eq, Run.WP_ret, hseg, hsl, List.length_take]
  refine ⟨by omega, by omega, by omega, hb, ?_, trivial⟩
  have := (Copied.refl b dst off).step ho (c := len) hl (by omega)
  rwa [Nat.add_zero, Nat.add_zero, Nat.zero_add] at this

/-- Offset one: a fill. -/
theorem fill_ok {b : List UInt8} {dst len : Nat} {v : UInt8}
    (hb : dst + len ≤ b.length) (hv : b[dst - 1]? = some v) :
    (Run.storeAt b dst (List.replicate len v)).WP fun b' => Copied b b' dst 1 len := by
  rw [Run.WP_storeAt, List.length_replicate]
  refine ⟨hb, ?_⟩
  have := (Copied.refl b dst 1).store (d := List.replicate len v) (Nat.le_refl 0)
    (by rw [List.length_replicate]; omega) fun j hj => by
      rw [List.length_replicate] at hj
      rw [List.getElem?_replicate_of_lt hj, Nat.mod_one, Nat.add_zero, hv]
  rwa [Nat.add_zero, Nat.zero_add, List.length_replicate] at this

/-- Whichever strategy is dispatched, the match is copied. -/
theorem copyMatch_ok {t : Target} {b : List UInt8} {dst off len : Nat} (h₀ : 0 < off)
    (ho : off ≤ dst) (hb : dst + len ≤ b.length) (ht : b.length + 32 < t.modulus) :
    (copyMatch t b (dst - off) dst off len).WP fun (b', pos) =>
      Copied b b' dst off len ∧ pos = dst + len := by
  simp only [copyMatch, WIDE_CHUNK, LONG_CHUNK, MATCH_CHUNK, MIN_COPY_OFFSET, Run.WP_bind,
    Nat.reduceMul]
  refine (hasHeadroom_ok (by omega)).mono fun _ e₁ => .ite (fun c => ?_) fun c => ?_
  · simp only [e₁, Bool.and_eq_true, decide_eq_true_eq] at c
    exact wildCopyMatch32_ok c.1 ho c.2
  rw [Run.WP_bind]
  refine (hasHeadroom_ok (by omega)).mono fun _ e₂ => .ite (fun c => ?_) fun c => ?_
  · simp only [e₂, Bool.and_eq_true, decide_eq_true_eq] at c
    exact wildCopyMatch_ok (by decide) c.1 ho c.2
  rw [Run.WP_bind]
  refine (hasHeadroom_ok (by omega)).mono fun _ e₃ => .ite (fun c => ?_) fun c => ?_
  · simp only [e₃, Bool.and_eq_true, decide_eq_true_eq] at c
    exact wildCopyMatch_ok (by decide) c.1 ho c.2
  rw [Run.WP_bind]
  refine (hasHeadroom_ok (by omega)).mono fun _ e₄ => .ite (fun c => ?_) fun c => ?_
  · simp only [e₄, Bool.and_eq_true, decide_eq_true_eq] at c
    exact wildCopyMatchShortOffset_ok c.1.1 c.1.2 ho c.2
  refine .ite (fun hlo => .ite (fun h1 => ?_) fun h1 => ?_) fun hlo => ?_
  · obtain rfl : off = 1 := by omega
    have hx : dst - 1 < b.length := by omega
    rw [Run.index_eq hx, Run.ret_bind, Run.WP_bind]
    exact (fill_ok hb (List.getElem?_eq_getElem hx)).mono fun b' h => ⟨h, rfl⟩
  · exact copyWithinOverlapping_ok (by omega) ho hb
  · exact copyWithinNonoverlap_ok (by omega) ho hb

/-- A match that fits the buffer is copied byte by byte from `offset` before, and
nothing in front of it changes, for any length and offset. -/
theorem copyMatch_copies (t : Target) (out : List UInt8) (pos offset matchLength : Nat)
    (h₁ : 1 ≤ offset) (ho : offset ≤ pos) (hfit : pos + matchLength ≤ out.length)
    (hlen : out.length ≤ t.isizeMax) :
    ∃ out', copyMatch t out (pos - offset) pos offset matchLength =
        .ret (out', pos + matchLength) ∧
      out'.length = out.length ∧ out'.take pos = out.take pos ∧
      ∀ i < matchLength, out'[pos + i]? = out'[pos + i - offset]? := by
  have hmod := t.modulus_cases
  unfold Target.isizeMax at hlen
  obtain ⟨⟨out', pos'⟩, hrun, hc, rfl⟩ := Run.WP_iff.mp
    (copyMatch_ok (t := t) h₁ ho hfit (by omega))
  exact ⟨out', hrun, hc.length, take_congr hc.below, fun i hi => hc.back ho hi⟩

/-- Three bytes of a match with offset `2`, at the end of the buffer. -/
theorem copyMatch_copies_short :
    ∃ out', copyMatch ⟨.w64, false, false⟩ [1, 2, 0, 0, 0] 0 2 2 3 = .ret (out', 5) ∧
      out'.length = 5 ∧ out'.take 2 = [1, 2] ∧ ∀ i < 3, out'[2 + i]? = out'[2 + i - 2]? :=
  copyMatch_copies _ [1, 2, 0, 0, 0] 2 2 3 (by decide) (by decide) (by decide) (by decide)

/-! ## Literals -/

/-- `b'` is `b` with `d` written at `pos`; what lies past it is not said. -/
structure Appended (b b' : List UInt8) (pos : Nat) (d : List UInt8) : Prop where
  length : b'.length = b.length
  take : b'.take (pos + d.length) = b.take pos ++ d

theorem Appended.of_store {b d : List UInt8} {pos : Nat} (h : pos + d.length ≤ b.length) :
    Appended b (store b pos d) pos d :=
  ⟨length_store h, take_store d (by omega)⟩

/-- Storing more than is appended. -/
theorem Appended.of_store_take (b d : List UInt8) (pos n : Nat) (h : pos + d.length ≤ b.length)
    (hn : n ≤ d.length) : Appended b (store b pos d) pos (d.take n) := by
  have hp : (b.take pos).length = pos := by rw [List.length_take]; omega
  refine ⟨length_store h, ?_⟩
  rw [List.length_take, Nat.min_eq_left hn,
    ← Nat.min_eq_left (show pos + n ≤ pos + d.length by omega), ← List.take_take,
    take_store d (by omega), List.take_append, hp, List.take_of_length_le (by omega),
    Nat.add_sub_cancel_left]

theorem copyFromSrc_ok {src b : List UInt8} {i pos len : Nat} (hs : i + len ≤ src.length)
    (hb : pos + len ≤ b.length) :
    (copyFromSrc src i b pos len).WP fun (b', p) =>
      Appended b b' pos (seg src i len) ∧ p = pos + len := by
  have hl : (seg src i len).length = len := length_seg hs
  simp only [copyFromSrc, Run.WP_bind, Run.WP_chunk, Run.WP_storeAt, Run.pure_eq, Run.WP_ret, hl]
  exact ⟨hs, hb, .of_store (by omega), trivial⟩

/-- Copying chunk by chunk is copying at once. -/
theorem copyChunks_eq {s b : List UInt8} {pos : Nat} :
    ∀ k, k * 32 ≤ s.length → pos + k * 32 ≤ b.length →
      copyChunks s b pos k = store b pos (s.take (k * 32))
  | 0, _, _ => by rw [copyChunks, Nat.zero_mul, List.take_zero, store_nil]
  | k + 1, hs, hb => by
    have hl : (s.take (k * 32)).length = k * 32 := by rw [List.length_take]; omega
    have hc : (seg s (k * 32) 32).length = 32 := length_seg (by omega)
    have hp : (b.take pos).length = pos := by rw [List.length_take]; omega
    rw [copyChunks, show LONG_CHUNK = 32 from rfl, copyChunks_eq k (by omega) (by omega), Nat.succ_mul,
      ← take_append_seg]
    simp only [store, hl, hc, List.length_append]
    rw [List.take_left' (by rw [List.length_append, hl, hp]), ← List.drop_drop,
      List.drop_left' (by rw [List.length_append, hl, hp]), List.drop_drop, Nat.add_assoc pos,
      List.append_assoc (b.take pos)]

theorem copyLiterals32_ok {src b : List UInt8} {i pos len : Nat} (hs : i + len + 32 ≤ src.length)
    (hb : pos + len + 32 ≤ b.length) :
    (copyLiterals32 src i b pos len).WP fun b' => Appended b b' pos (seg src i len) := by
  have hn : (len + 32 - 1) / 32 * 32 ≤ len + 31 := Nat.div_mul_le_self _ _
  have hge : len ≤ (len + 32 - 1) / 32 * 32 := by omega
  simp only [copyLiterals32, show LONG_CHUNK = 32 from rfl, Run.WP_bind, Run.WP_chunk,
    Run.WP_assert, Run.pure_eq, Run.WP_ret]
  generalize (len + 32 - 1) / 32 = k at hn hge ⊢
  have hl : (seg src i (k * 32)).length = k * 32 := length_seg (by omega)
  refine ⟨by omega, by omega, ?_⟩
  rw [copyChunks_eq k (by omega) (by omega), List.take_of_length_le (by omega)]
  have := Appended.of_store_take b (seg src i (k * 32)) pos len (by omega) (by omega)
  rwa [take_seg _ hge] at this

end Lz4rip.Proof.Decode
