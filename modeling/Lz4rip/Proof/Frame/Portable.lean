import Lz4rip.Proof.Frame.Trim

/-!
# One decoder for all targets

Pointer width, byte order and vector features choose how lengths are added and how bytes
are copied. A block decodes to the same bytes or the same error on all targets that have
room for it (`decompressIntoWithDict_target`), and so does a stream of frames
(`outcome_target`).
-/

namespace Lz4rip.Proof.Frame

open Lz4rip.Impl
open Run (Returns)
open Spec (Frame Naive Settings)

variable {X : XxHash32} {t t' : Target}

/-! ## Blocks -/

/-- Sums of two lengths within `cap` are in range. -/
def Ample (t : Target) (cap : Nat) : Prop := 2 * cap + 300 < t.modulus

instance {cap : Nat} : Decidable (Ample t cap) := inferInstanceAs (Decidable (_ < _))

theorem Ample.min_eq {cap m n : Nat} (h : Ample t cap) (hm : m ≤ cap) (hn : n ≤ cap + 274) :
    min (m + n) t.usizeMax = m + n := by
  unfold Ample at h
  unfold Target.usizeMax
  omega

section

variable {cap : Nat} (h : Ample t cap) (h' : Ample t' cap)
include h h'

theorem readIntegerLoop_target : ∀ (bs : List UInt8) {n : Nat} (pos : Nat), n ≤ cap →
    readIntegerLoop t cap n pos bs = readIntegerLoop t' cap n pos bs
  | [], _, _, _ => rfl
  | b :: bs, n, pos, hn => by
    have hb := b.toNat_lt
    have hlt : n + b.toNat < t.modulus := by unfold Ample at h; omega
    have hlt' : n + b.toNat < t'.modulus := by unfold Ample at h'; omega
    rw [readIntegerLoop, readIntegerLoop, if_pos hlt, if_pos hlt']
    split
    · rfl
    · split
      · rfl
      · exact readIntegerLoop_target bs _ (by omega)

theorem extendLength_target {base : Nat} (hbase : base ≤ 19) (input : List UInt8) (pos : Nat) :
    extendLength t input pos base cap = extendLength t' input pos base cap := by
  have hread : readIntegerBounded t input pos cap = readIntegerBounded t' input pos cap :=
    readIntegerLoop_target h h' _ _ (Nat.zero_le _)
  unfold extendLength
  rw [← hread]
  split
  · rfl
  · rename_i n pos' hn
    have hle := (Decode.readIntegerBounded_le hn).2.2
    have hlt : base + n < t.modulus := by unfold Ample at h; omega
    have hlt' : base + n < t'.modulus := by unfold Ample at h'; omega
    rw [if_pos hlt, if_pos hlt']

theorem readLiteralLength_target (input : List UInt8) (pos : Nat) (token : UInt8) :
    readLiteralLength t input pos token cap = readLiteralLength t' input pos token cap := by
  have := token.toNat_lt
  unfold readLiteralLength
  simp only [extendLength_target h h' (show token.toNat / 16 ≤ 19 by omega)]

theorem readMatchLength_target (input : List UInt8) (pos : Nat) (token : UInt8) :
    readMatchLength t input pos token cap = readMatchLength t' input pos token cap := by
  have hbase : MINMATCH + token.toNat % 16 ≤ 19 := by
    simp only [MINMATCH]
    omega
  unfold readMatchLength
  simp only [extendLength_target h h' hbase]

theorem matchStep_target {dict input w : List UInt8} {ip : Nat} {token : UInt8} (hw : w.length ≤ cap) :
    Decode.matchStep t dict input cap token ip w = Decode.matchStep t' dict input cap token ip w := by
  unfold Decode.matchStep
  split
  · rfl
  · rename_i off ip' hoff
    rw [← readMatchLength_target h h']
    split
    · rfl
    · rename_i len ip'' hlen
      have hle := (Decode.readMatchLength_le hlen (Decode.readOffset_le hoff).2.2.2).2.2
      rw [h.min_eq hw hle, h'.min_eq hw hle]

theorem tokenStep_target {dict input : List UInt8} {s : Nat × List UInt8} (hw : s.2.length ≤ cap) :
    Decode.tokenStep t dict input cap s = Decode.tokenStep t' dict input cap s := by
  unfold Decode.tokenStep
  split
  · rfl
  · rename_i token htoken
    have hip : s.1 < input.length := (List.getElem?_eq_some_iff.mp htoken).1
    rw [← readLiteralLength_target h h']
    split
    · rfl
    · rename_i len ip' hlen
      have hle := (Decode.readLiteralLength_le hlen hip).2.2
      rw [h.min_eq hw (by omega), h'.min_eq hw (by omega)]
      split
      · rfl
      · split
        · rfl
        · split
          · rfl
          · refine matchStep_target h h' ?_
            rw [List.length_append, length_seg (by omega)]
            omega

end

theorem matchStep_le {dict input w : List UInt8} {cap ip : Nat} {token : UInt8} {s : Nat × List UInt8}
    (h : Decode.matchStep t dict input cap token ip w = .next s) : s.2.length ≤ cap := by
  unfold Decode.matchStep at h
  split at h
  · cases h
  · have hoff := (Decode.readOffset_le ‹_›).1
    split at h
    · cases h
    · split at h
      · cases h
      · split at h
        · cases h
        · cases h
          rw [List.length_drop, Lz77.length_copyBack hoff (by rw [List.length_append]; omega), List.length_append]
          omega

/-- No step writes more than there is room for. -/
theorem tokenStep_le {dict input : List UInt8} {cap : Nat} {s s' : Nat × List UInt8}
    (h : Decode.tokenStep t dict input cap s = .next s') : s'.2.length ≤ cap := by
  unfold Decode.tokenStep at h
  split at h
  · cases h
  · split at h
    · cases h
    · split at h
      · cases h
      · split at h
        · cases h
        · split at h
          · cases h
          · exact matchStep_le h

theorem machine_target {dict input : List UInt8} {cap : Nat} (h : Ample t cap) (h' : Ample t' cap)
    (s : Nat × List UInt8) (hs : s.2.length ≤ cap) :
    Decode.machine t dict input cap s = Decode.machine t' dict input cap s :=
  congrArg Run.ret (tokenStep_target h h' hs)

theorem machine_le {dict input : List UInt8} {cap : Nat} (s s' : Nat × List UInt8) (_ : s.2.length ≤ cap)
    (h : Decode.machine t dict input cap s = .ret (.next s')) : s'.2.length ≤ cap :=
  tokenStep_le (Run.ret.inj h)

theorem refusal_target {hist input w : List UInt8} {cap : Nat} (h : Ample t cap) (h' : Ample t' cap)
    (hw : w.length ≤ cap) : Decode.refusal t hist input cap w = Decode.refusal t' hist input cap w := by
  have hloop : Run.loop (Decode.machine t hist input cap) (input.length + 1) (0, w) =
      Run.loop (Decode.machine t' hist input cap) (input.length + 1) (0, w) :=
    Run.loop_congr _ (machine_target h h') machine_le _ hw
  unfold Decode.refusal
  rw [hloop]

/-- Blocks and histories of frames are small. -/
theorem blockError_target (dict : List UInt8) : blockError t dict = blockError t' dict := by
  funext f data
  have hlimit := blockLimit_le f.info.blockSize
  have hstart := window_start_le f
  have hle := window_le f
  have hample (t : Target) : Ample t ((window f).start + Spec.blockLimit f.info.blockSize) := by
    unfold Ample
    simp only [WINDOW_SIZE] at hstart
    rcases t.modulus_cases with hm | hm
    all_goals omega
  refine refusal_target (hample t) (hample t') ?_
  rw [length_last (by omega)]
  exact Nat.le_add_right _ _

/-- With a limit that leaves room for a block. -/
theorem target_alike (t t' : Target) (dictionary : Option (List UInt8 × UInt32)) {max : Nat}
    (hmax : max + 4194304 < 2 ^ 32) :
    Alike (fun _ _ => False) (fun r r' : List UInt8 => r = r') (fun out out' => out = out' ∧ out ≤ max)
      (settings t ⟨dictionary, some max⟩) (settings t' ⟨dictionary, some max⟩) where
  dict := rfl
  dictId := rfl
  why := blockError_target _
  full _ n hr := readFull_same n hr
  count {out out'} len hlen ho := by
    obtain ⟨rfl, hle⟩ := ho
    have hlt (t : Target) : out + len < t.modulus := by
      rcases t.modulus_cases with hm | hm
      all_goals omega
    have hcheck (t : Target) : checkOutputLen t max out len =
        if out + len > max then .error (.decompressedSizeLimit max (out + len)) else .ok (out + len) := by
      have := hlt t
      rw [checkOutputLen, if_neg (by omega)]
    by_cases hfits : out + len > max
    · have herror (t : Target) := (hcheck t).trans (if_pos hfits)
      exact .inl ⟨_, herror t, .inr (herror t')⟩
    · have hok (t : Target) := (hcheck t).trans (if_neg hfits)
      exact .inr ⟨_, _, hok t, hok t', rfl, Nat.le_of_not_gt hfits⟩

theorem Left.target {dictionary : Option (List UInt8 × UInt32)} {max : Nat} (hmax : max + 4194304 < 2 ^ 32)
    {bytes D : List UInt8} {o : Option Error} {f : Naive (List UInt8)}
    (h : Left X (settings t' ⟨dictionary, some max⟩) (Naive.start bytes) D o f) :
    ∃ f', Left X (settings t ⟨dictionary, some max⟩) (Naive.start bytes) D o f' := by
  obtain ⟨blocks, hd, rfl⟩ := h
  have halike := target_alike t t' dictionary hmax
  obtain ⟨bs, o', f', hd', ⟨rfl, rfl, -⟩ | ⟨e, -, hB, -⟩⟩ :=
    hd.upto halike (headersAlike_same halike) (s := Naive.start bytes)
      ⟨rfl, rfl, rfl, rfl, Nat.zero_le _⟩ rfl
  · exact ⟨f', _, hd', rfl⟩
  · exact hB.elim

end Lz4rip.Proof.Frame
