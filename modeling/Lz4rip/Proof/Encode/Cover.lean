import Mathlib.Data.List.Induction
import Lz4rip.Spec.Cover
import Lz4rip.Proof.Encode.Retention

/-!
# `cover_select` selects greedily

With a dictionary of 32 bytes at least, and samples that a trainer can keep, the loops
of `cover_select` compute what `Spec.Cover` says (`coverSelect_eq`), in checked and in
wrapping arithmetic: each loop has an equation for its state at every index.
-/

namespace Lz4rip.Proof.Encode

open Lz4rip.Impl
open Spec.Cover (dmerHash hashAt hashes weight rounds selection segment dictionary)

variable {t : Target} {checks : Bool}

/-! ## The samples -/

/-- Where the sample `s` starts. -/
def offset (samples : List (List UInt8)) (s : Nat) : Nat := (samples.take s).flatten.length

theorem foldl_concat (samples : List (List UInt8)) :
    samples.foldl (fun (concat, offsets) sample => (concat ++ sample, offsets ++ [concat.length]))
        (([] : List UInt8), ([] : List Nat)) =
      (samples.flatten, (List.range samples.length).map (offset samples)) := by
  induction samples using List.reverseRecOn with
  | nil => rfl
  | append_singleton samples sample ih =>
    have hoff : (List.range samples.length).map (offset (samples ++ [sample])) =
        (List.range samples.length).map (offset samples) := by
      refine List.map_congr_left fun s hs => ?_
      have := List.mem_range.mp hs
      rw [offset, List.take_append_of_le_length (by omega), offset]
    rw [List.foldl_append, ih, List.foldl_cons, List.foldl_nil, List.length_append,
      List.length_singleton, List.range_succ, List.map_append, hoff]
    simp [offset]

theorem concatSamples_eq (samples : List (List UInt8)) :
    concatSamples samples =
      (samples.flatten, (List.range (samples.length + 1)).map (offset samples)) := by
  rw [concatSamples, foldl_concat, List.range_succ, List.map_append, List.map_singleton]
  simp [offset]

theorem offset_succ {samples : List (List UInt8)} {s : Nat} (h : s < samples.length) :
    offset samples (s + 1) = offset samples s + samples[s].length := by
  rw [offset, List.take_succ_eq_append_getElem h, List.flatten_append, List.length_append,
    List.flatten_singleton, offset]

theorem offset_le (samples : List (List UInt8)) (s : Nat) :
    offset samples s ≤ samples.flatten.length := by
  conv_rhs => rw [← List.take_append_drop s samples, List.flatten_append, List.length_append]
  exact Nat.le_add_right _ _

/-- The d-mers of a sample are the ones at its place. -/
theorem hashAt_offset {samples : List (List UInt8)} {s i : Nat} (h : s < samples.length)
    (hi : i + D ≤ samples[s].length) :
    hashAt samples.flatten (offset samples s + i) = hashAt samples[s] i := by
  have hsplit : samples.flatten =
      (samples.take s).flatten ++ (samples[s] ++ (samples.drop (s + 1)).flatten) := by
    rw [← List.flatten_cons, ← List.drop_eq_getElem_cons h, ← List.flatten_append,
      List.take_append_drop]
  rw [hashAt, hashAt, hsplit, offset, seg_append_right, seg_append_left _ hi]

/-! ## The hashes -/

theorem hashDmer_eq (t : Target) {data : List UInt8} (h : data.length = D) :
    ∃ n, hashDmer t data = .ret n ∧ n &&& FREQ_MASK = dmerHash data := by
  have h8 : data.length = 8 := h
  refine ⟨_, by rw [hashDmer, Run.chunk_eq (by omega), Run.ret_bind, Run.pure_eq], ?_⟩
  have hmod : 2 ^ 16 ∣ t.modulus := by
    rcases t.modulus_cases with h | h <;> rw [h] <;> decide
  have hmask : FREQ_MASK = 2 ^ 16 - 1 := rfl
  rw [hmask, Nat.and_two_pow_sub_one_eq_mod, Nat.mod_mod_of_dvd _ hmod,
    Nat.mod_mod_of_dvd _ (by decide), seg_eq_drop (by omega), List.drop_zero, dmerHash]

/-- The bucket of a d-mer is the one of its first two bytes. -/
theorem dmerHash_take (dmer : List UInt8) : dmerHash dmer = dmerHash (dmer.take 2) := by
  rw [dmerHash, dmerHash, leNat_take, show 256 ^ 2 = 2 ^ 16 from rfl, Nat.mod_mul_mod]

/-- Two d-mers that differ in byte `j` only are counted apart. -/
def ByteCounts (t : Target) (j : Nat) : Prop :=
  ∃ a b : List UInt8, a.length = D ∧ b.length = D ∧ (∀ i, i ≠ j → a[i]? = b[i]?) ∧
    ∃ m n, hashDmer t a = .ret m ∧ hashDmer t b = .ret n ∧ m &&& FREQ_MASK ≠ n &&& FREQ_MASK

theorem ByteCounts.of_dmerHash {j : Nat} {a b : List UInt8} (ha : a.length = D) (hb : b.length = D)
    (h : ∀ i, i ≠ j → a[i]? = b[i]?) (hne : dmerHash a ≠ dmerHash b) : ByteCounts t j := by
  obtain ⟨m, hm, hm'⟩ := hashDmer_eq t ha
  obtain ⟨n, hn, hn'⟩ := hashDmer_eq t hb
  exact ⟨a, b, ha, hb, h, m, n, hm, hn, by rwa [hm', hn']⟩

theorem ByteCounts.lt {j : Nat} (h : ByteCounts t j) : j < 2 := by
  obtain ⟨a, b, ha, hb, hsame, m, n, hm, hn, hne⟩ := h
  obtain ⟨m', hm', hdm⟩ := hashDmer_eq t ha
  obtain ⟨n', hn', hdn⟩ := hashDmer_eq t hb
  obtain rfl := Run.ret.inj (hm.symm.trans hm')
  obtain rfl := Run.ret.inj (hn.symm.trans hn')
  by_contra hj
  have htake : a.take 2 = b.take 2 := take_congr fun i hi => hsame i (by omega)
  rw [hdm, hdn, dmerHash_take a, dmerHash_take b, htake] at hne
  exact hne rfl

/-- Of the eight bytes of a d-mer, the trainer counts by the first two. -/
theorem byteCounts_iff (t : Target) (j : Nat) : ByteCounts t j ↔ j < 2 := by
  refine ⟨ByteCounts.lt, fun hj => ?_⟩
  have hzero : ∀ i j : Nat, i ≠ j → ((List.replicate 8 (0 : UInt8)).set j 1)[i]? =
      (List.replicate 8 0)[i]? := fun i j hi => List.getElem?_set_ne hi.symm
  obtain rfl | rfl : j = 0 ∨ j = 1 := by omega
  · exact .of_dmerHash rfl rfl (fun i hi => hzero i 0 hi) (by decide)
  · exact .of_dmerHash rfl rfl (fun i hi => hzero i 1 hi) (by decide)

/-- The last byte is not counted. -/
theorem not_byteCounts_last : ¬ ∀ j < D, ByteCounts ⟨.w64, false, false⟩ j :=
  fun h => absurd (h 7 (by decide)).lt (by decide)

/-- A list that a loop has filled up to `i`. -/
def filled {α : Type} (f : Nat → α) (a : α) (n i : Nat) : List α :=
  (List.range i).map f ++ List.replicate (n - i) a

theorem filled_zero {α : Type} (f : Nat → α) (a : α) (n : Nat) :
    filled f a n 0 = List.replicate n a := rfl

theorem filled_self {α : Type} (f : Nat → α) (a : α) (n : Nat) :
    filled f a n n = (List.range n).map f := by
  rw [filled, Nat.sub_self, List.replicate_zero, List.append_nil]

/-- The next element is written. -/
theorem storeAt_filled {α : Type} (f : Nat → α) (a : α) {n i : Nat} (h : i < n) :
    Run.storeAt (filled f a n i) i [f i] = .ret (filled f a n (i + 1)) := by
  have hlen : ((List.range i).map f).length = i := by rw [List.length_map, List.length_range]
  have hrep : List.replicate (n - i) a = a :: List.replicate (n - (i + 1)) a := by
    rw [← List.replicate_succ, show n - (i + 1) + 1 = n - i by omega]
  have hstore : store (filled f a n i) i [f i] = filled f a n (i + 1) := by
    rw [store, filled, filled, List.take_left' hlen, hrep, List.length_singleton,
      List.drop_append, hlen, Nat.add_sub_cancel_left, List.drop_succ_cons, List.drop_zero,
      List.drop_eq_nil_of_le (by omega), List.nil_append, List.range_succ, List.map_append,
      List.map_singleton]
  rw [Run.storeAt, if_pos, hstore]
  rw [filled, List.length_append, hlen, List.length_replicate, List.length_singleton]
  omega

theorem index_filled {α : Type} (f : Nat → α) (a : α) (n : Nat) {i j : Nat} (h : i < j) :
    Run.index (filled f a n j) i = .ret (f i) := by
  rw [Run.index, filled, List.getElem?_append_left (by rwa [List.length_map, List.length_range]),
    List.getElem?_map, List.getElem?_range h, Option.map_some, Run.unwrap_some]

theorem index_map_range {α : Type} (f : Nat → α) {n i : Nat} (h : i < n) :
    Run.index ((List.range n).map f) i = .ret (f i) := by
  rw [Run.index, List.getElem?_map, List.getElem?_range h, Option.map_some, Run.unwrap_some]

theorem hashDmers_eq {concat : List UInt8} {numDmers : Nat} (h : numDmers + 7 ≤ concat.length) :
    hashDmers t concat numDmers = .ret ((List.range numDmers).map (hashAt concat)) := by
  rw [hashDmers, ← filled_zero (hashAt concat), ← filled_self (hashAt concat) 0]
  refine Run.forRange_eq (filled (hashAt concat) 0 numDmers) (Nat.zero_le _) fun i _ hi => ?_
  have hchunk : Run.chunk concat i D = .ret (seg concat i D) := Run.chunk_eq (by simp only [D]; omega)
  obtain ⟨n, hn, hh⟩ := hashDmer_eq t (length_seg (show i + D ≤ concat.length by simp only [D]; omega))
  rw [hchunk, Run.ret_bind, hn, Run.ret_bind, hh]
  exact storeAt_filled (hashAt concat) 0 hi

/-! ## The weights -/

theorem hashAt_lt (bytes : List UInt8) (i : Nat) : hashAt bytes i < FREQ_SIZE :=
  Nat.mod_lt _ (by decide)

theorem length_flatMap_hashes_le (samples : List (List UInt8)) :
    (samples.flatMap hashes).length ≤ samples.flatten.length := by
  induction samples with
  | nil => exact Nat.le_refl _
  | cons sample samples ih =>
    have hs : (hashes sample).length = sample.length + 1 - 8 := by
      rw [hashes, List.length_map, List.length_range]
    rw [List.flatMap_cons, List.length_append, List.flatten_cons, List.length_append, hs]
    omega

/-- The hashes of the samples before `s`. -/
def weightBefore (samples : List (List UInt8)) (s : Nat) (h : Nat) : Nat :=
  ((samples.take s).flatMap hashes).count h

theorem weightBefore_le (samples : List (List UInt8)) (s h : Nat) :
    weightBefore samples s h ≤ offset samples s :=
  Nat.le_trans List.count_le_length (length_flatMap_hashes_le _)

theorem weightBefore_succ {samples : List (List UInt8)} {s : Nat} (h : s < samples.length) (a : Nat) :
    weightBefore samples (s + 1) a = weightBefore samples s a + (hashes samples[s]).count a := by
  rw [weightBefore, List.take_succ_eq_append_getElem h, List.flatMap_append, List.count_append,
    List.flatMap_singleton, weightBefore]

theorem weight_le (samples : List (List UInt8)) (h : Nat) :
    weight samples h ≤ samples.flatten.length :=
  Nat.le_trans List.count_le_length (length_flatMap_hashes_le _)

/-- One more hash. -/
theorem setFreq_count {w : Nat → Nat} {l : List Nat} {h : Nat} (hh : h < FREQ_SIZE)
    (hlt : w h + l.count h + 1 < 2 ^ 32) :
    (freqAt (fun a => w a + l.count a) h >>= fun freq => Run.addWith checks (2 ^ 32) freq 1 >>=
      setFreq (fun a => w a + l.count a) h) = .ret fun a => w a + (l ++ [h]).count a := by
  rw [freqAt, if_pos hh, Run.ret_bind, Run.addWith_eq hlt, Run.ret_bind, setFreq, if_pos hh]
  congr 1
  funext a
  rw [List.count_append, List.count_singleton]
  by_cases ha : a = h
  · rw [if_pos ha, ha, beq_self_eq_true, if_pos rfl, Nat.add_assoc]
  · rw [if_neg ha, beq_eq_false_iff_ne.mpr (Ne.symm ha), if_neg Bool.false_ne_true, Nat.add_zero]

theorem countDmers_eq {samples : List (List UInt8)} {numDmers : Nat}
    (hn : numDmers + 7 = samples.flatten.length) (hlt : samples.flatten.length < 2 ^ 32) :
    countDmers t checks samples.length ((List.range (samples.length + 1)).map (offset samples))
      ((List.range numDmers).map (hashAt samples.flatten)) = .ret (weight samples) := by
  have hmod := modulus_large t
  have hzero : (fun _ => 0) = weightBefore samples 0 := by
    funext h
    rw [weightBefore, List.take_zero, List.flatMap_nil, List.count_nil]
  have hall : weight samples = weightBefore samples samples.length := by
    funext h
    rw [weightBefore, List.take_length, weight]
  rw [countDmers, hzero, hall]
  refine Run.forRange_eq (weightBefore samples) (Nat.zero_le _) fun s _ hs => ?_
  have hsucc := offset_succ hs
  have hle := offset_le samples (s + 1)
  have hlen : (hashes samples[s]).length = samples[s].length + 1 - 8 := by
    rw [hashes, List.length_map, List.length_range]
  rw [index_map_range _ (by omega), Run.ret_bind, index_map_range _ (by omega), Run.ret_bind,
    Run.subWith_eq (by omega), Run.ret_bind, hsucc, Nat.add_sub_cancel_left]
  by_cases hD : samples[s].length < D
  · have hnil : hashes samples[s] = [] := List.eq_nil_of_length_eq_zero (by
      simp only [D] at hD
      omega)
    rw [if_pos hD, Run.pure_eq]
    congr 1
    funext a
    rw [weightBefore_succ hs, hnil, List.count_nil, Nat.add_zero]
  · have hD' : 8 ≤ samples[s].length := Nat.le_of_not_lt hD
    rw [if_neg hD, Run.subWith_eq (by simp only [D]; omega), Run.ret_bind,
      Run.addWith_eq (by simp only [D]; omega), Run.ret_bind]
    have hstart : weightBefore samples s = fun a => weightBefore samples s a +
        ((List.range (offset samples s - offset samples s)).map (hashAt samples[s])).count a := by
      funext a
      rw [Nat.sub_self, List.range_zero, List.map_nil, List.count_nil, Nat.add_zero]
    have hstop : weightBefore samples (s + 1) = fun a => weightBefore samples s a +
        ((List.range (offset samples s + samples[s].length - D + 1 - offset samples s)).map
          (hashAt samples[s])).count a := by
      funext a
      rw [weightBefore_succ hs, hashes]
      simp only [D]
      congr 4
      omega
    rw [hstart, hstop]
    refine Run.forRange_eq (fun i a => weightBefore samples s a +
      ((List.range (i - offset samples s)).map (hashAt samples[s])).count a) (by simp only [D]; omega)
      fun i hlo hhi => ?_
    obtain ⟨j, rfl⟩ := Nat.exists_eq_add_of_le hlo
    simp only [D] at hhi
    have hhash := hashAt_offset hs (i := j) (by simp only [D]; omega)
    have hbound : weightBefore samples s (hashAt samples[s] j) ≤ offset samples s :=
      weightBefore_le ..
    have hcount := List.count_le_length (a := hashAt samples[s] j)
      (l := (List.range j).map (hashAt samples[s]))
    rw [List.length_map, List.length_range] at hcount
    rw [index_map_range _ (by omega), Run.ret_bind, hhash, Nat.add_sub_cancel_left,
      setFreq_count (hashAt_lt _ _) (by omega), Nat.add_assoc, Nat.add_sub_cancel_left,
      List.range_succ, List.map_append, List.map_singleton]

/-! ## One segment -/

section

variable {label : Nat → Nat} {w : Nat → Nat} {numDmers B : Nat}

theorem prefixSums_eq (hlabel : ∀ i, label i < FREQ_SIZE) (hw : ∀ h, w h ≤ B)
    (hB : numDmers * B < 2 ^ 64) :
    prefixSums checks numDmers ((List.range numDmers).map label) w =
      .ret ((List.range (numDmers + 1)).map (prefixScore label w)) := by
  have hzero : List.replicate (numDmers + 1) 0 = filled (prefixScore label w) 0 (numDmers + 1) 1 := by
    rw [List.replicate_succ, filled, Nat.add_sub_cancel]
    rfl
  rw [prefixSums, hzero, ← filled_self (prefixScore label w) 0]
  refine Run.forRange_eq (fun i => filled (prefixScore label w) 0 (numDmers + 1) (i + 1))
    (Nat.zero_le _) fun i _ hi => ?_
  have hsum : prefixScore label w i + w (label i) < 2 ^ 64 := by
    have hle : prefixScore label w (i + 1) ≤ (i + 1) * B := prefixScore_le hw _
    have hmul := Nat.mul_le_mul_right B (show i + 1 ≤ numDmers from hi)
    rw [prefixScore] at hle
    omega
  rw [index_map_range _ hi, Run.ret_bind, freqAt, if_pos (hlabel i), Run.ret_bind,
    index_filled _ _ _ (Nat.lt_succ_self i), Run.ret_bind, Run.addWith_eq hsum, Run.ret_bind]
  exact storeAt_filled (prefixScore label w) 0 (Nat.succ_lt_succ hi)

theorem bestSegment_eq {segDmers last len : Nat} {skip : Nat → Bool} (hlast : last < len)
    (hseg : last + segDmers ≤ numDmers) (hn : numDmers < t.modulus) :
    bestSegment t checks segDmers last ((List.range (numDmers + 1)).map (prefixScore label w))
        ((List.range len).map skip) =
      .ret (best (windowScore label segDmers w) skip (last + 1)) := by
  refine Run.forRange_eq (best (windowScore label segDmers w) skip) (Nat.zero_le _)
    fun pos _ hpos => ?_
  have hscore : windowScore label segDmers w pos = _ := windowScore_eq_sub pos
  have hle : prefixScore label w pos ≤ prefixScore label w (pos + segDmers) := by
    rw [prefixScore_add]
    exact Nat.le_add_right _ _
  rw [index_map_range _ (by omega), Run.ret_bind, best]
  by_cases hskip : skip pos = true
  · rw [if_pos hskip, if_pos hskip, Run.pure_eq]
  · rw [if_neg hskip, if_neg hskip, Run.addWith_eq (by omega), Run.ret_bind,
      index_map_range _ (by omega), Run.ret_bind, index_map_range _ (by omega), Run.ret_bind,
      Run.subWith_eq hle, Run.ret_bind, ← hscore]
    by_cases hlt : (best (windowScore label segDmers w) skip pos).2 < windowScore label segDmers w pos
    · rw [if_pos hlt, if_pos hlt, Run.pure_eq]
    · rw [if_neg hlt, if_neg hlt, Run.pure_eq]

/-- The hashes of a segment weigh nothing any more. -/
theorem clear_eq (hlabel : ∀ i, label i < FREQ_SIZE) {pos m : Nat} (h : pos + m ≤ numDmers) :
    Run.forRange pos (pos + m) (fun i freqs => do
        setFreq freqs (← Run.index ((List.range numDmers).map label) i) 0) w =
      .ret (clear label m w pos) := by
  have hzero : w = clear label (pos - pos) w pos := by rw [Nat.sub_self, clear_zero]
  have hall : clear label m w pos = clear label (pos + m - pos) w pos := by
    rw [Nat.add_sub_cancel_left]
  rw [hall]
  nth_rewrite 1 [hzero]
  refine Run.forRange_eq (fun i => clear label (i - pos) w pos) (Nat.le_add_right _ _)
    fun i hlo hhi => ?_
  obtain ⟨j, rfl⟩ := Nat.exists_eq_add_of_le hlo
  rw [index_map_range _ (by omega), Run.ret_bind, setFreq, if_pos (hlabel _), Nat.add_sub_cancel_left,
    Nat.add_assoc, Nat.add_sub_cancel_left, clear_succ]

/-- The positions of a segment are used. -/
theorem used_eq {pos k len : Nat} {skip : Nat → Bool} (h : pos + k ≤ len) :
    Run.storeAt ((List.range len).map skip) pos (List.replicate k true) =
      .ret ((List.range len).map fun p => skip p || decide (pos ≤ p ∧ p < pos + k)) := by
  have hlen : ((List.range len).map skip).length = len := by rw [List.length_map, List.length_range]
  have hrep : (List.replicate k true).length = k := List.length_replicate
  rw [Run.storeAt, hrep, if_pos (by omega)]
  congr 1
  refine List.ext_getElem? fun i => ?_
  by_cases hi : i < len
  · rw [List.getElem?_map, List.getElem?_range hi, Option.map_some]
    by_cases hlo : i < pos
    · rw [getElem?_store_lt _ (by omega) hlo, List.getElem?_map, List.getElem?_range hi,
        Option.map_some, decide_eq_false (by omega), Bool.or_false]
    · by_cases hhi : i < pos + k
      · obtain ⟨j, rfl⟩ := Nat.exists_eq_add_of_le (Nat.le_of_not_lt hlo)
        rw [getElem?_store_mid (by omega) (by omega), List.getElem?_replicate, if_pos (by omega),
          decide_eq_true (by omega), Bool.or_true]
      · rw [getElem?_store_ge (by omega) (by omega), List.getElem?_map, List.getElem?_range hi,
          Option.map_some, decide_eq_false (by omega), Bool.or_false]
  · rw [List.getElem?_eq_none (by rw [length_store (by omega)]; omega),
      List.getElem?_eq_none (by rw [List.length_map, List.length_range]; omega)]

end

/-! ## All segments -/

theorem rounds_zero {k : Nat} (hk : 0 < k) : rounds 0 k = 0 := by
  rw [rounds, Nat.zero_add]
  exact Nat.div_eq_of_lt (Nat.sub_lt hk Nat.one_pos)

theorem rounds_pos {d k : Nat} (hk : 0 < k) (hd : 0 < d) : rounds d k = rounds (d - k) k + 1 := by
  by_cases h : k ≤ d
  · rw [rounds, rounds, ← Nat.add_div_right _ hk]
    congr 1
    omega
  · rw [Nat.sub_eq_zero_of_le (Nat.le_of_not_le h), rounds_zero hk, rounds]
    exact Nat.div_eq_of_lt_le (by omega) (by omega)

/-- The sizes for which nothing overflows. -/
structure Sized (concat : List UInt8) (dictSize : Nat) : Prop where
  min : 32 ≤ dictSize
  max : dictSize ≤ 65535
  concat_le : concat.length ≤ 524280
  le_concat : dictSize / 4 ≤ concat.length

section

variable {concat : List UInt8} {dictSize : Nat} {w : Nat → Nat} {skip : Nat → Bool}

/-- The segment that a round selects. -/
def selected (concat : List UInt8) (dictSize : Nat) (w : Nat → Nat) (skip : Nat → Bool) : Nat × Nat :=
  best (windowScore (hashAt concat) (dictSize / 4 - D + 1) w) skip (concat.length - dictSize / 4 + 1)

variable (t checks skip) in
/-- One round, where the hashes weigh `w` and the positions `skip` are used. -/
theorem coverRound_eq (h : Sized concat dictSize) (hw : ∀ h, w h ≤ concat.length)
    (segments : List (Nat × Nat)) {collected : Nat} (hc : collected < dictSize) :
    coverRound t checks dictSize (dictSize / 4) (dictSize / 4 - D + 1) (concat.length - D + 1) concat
        ((List.range (concat.length - D + 1)).map (hashAt concat))
        ⟨w, (List.range concat.length).map skip, segments, collected⟩ =
      .ret (if (selected concat dictSize w skip).2 = 0 then .done segments
        else .next ⟨clear (hashAt concat) (dictSize / 4 - D + 1) w (selected concat dictSize w skip).1,
          (List.range concat.length).map fun p => skip p ||
            decide ((selected concat dictSize w skip).1 ≤ p ∧
              p < (selected concat dictSize w skip).1 + dictSize / 4),
          segments ++ [selected concat dictSize w skip], collected + dictSize / 4⟩) := by
  obtain ⟨hmin, hmax, hle, hkle⟩ := h
  have hmod := modulus_large t
  have hD : D = 8 := rfl
  have hB : (concat.length - D + 1) * concat.length < 2 ^ 64 := by
    calc (concat.length - D + 1) * concat.length ≤ 524281 * 524280 :=
          Nat.mul_le_mul (by omega) hle
      _ < 2 ^ 64 := by decide
  have hbest : bestSegment t checks (dictSize / 4 - D + 1) (concat.length - dictSize / 4)
      ((List.range (concat.length - D + 1 + 1)).map (prefixScore (hashAt concat) w))
      ((List.range concat.length).map skip) = .ret (selected concat dictSize w skip) :=
    bestSegment_eq (by omega) (by omega) (by omega)
  rw [coverRound, if_pos hc, prefixSums_eq (hashAt_lt concat) hw hB, Run.ret_bind,
    Run.subWith_eq hkle, Run.ret_bind, hbest, Run.ret_bind]
  dsimp only
  by_cases hb : (selected concat dictSize w skip).2 = 0
  · rw [if_pos hb, if_pos hb, Run.pure_eq]
  · have hpos : (selected concat dictSize w skip).1 < concat.length - dictSize / 4 + 1 :=
      (best_of_ne_zero hb).1
    have hend : (selected concat dictSize w skip).1 + (dictSize / 4 - D + 1) ≤
        concat.length - D + 1 := by omega
    rw [if_neg hb, if_neg hb, Run.addWith_eq (by omega), Run.ret_bind,
      clear_eq (hashAt_lt concat) hend, Run.ret_bind, used_eq (by omega), Run.ret_bind,
      Run.addWith_eq (by omega), Run.ret_bind, Run.pure_eq]

/-- The loop over the segments. -/
theorem coverLoop_eq (h : Sized concat dictSize) :
    ∀ (r fuel : Nat) {w : Nat → Nat} {skip : Nat → Bool} (segments : List (Nat × Nat))
      {collected : Nat}, (∀ h, w h ≤ concat.length) →
      r = rounds (dictSize - collected) (dictSize / 4) → r < fuel →
      Run.loop (coverRound t checks dictSize (dictSize / 4) (dictSize / 4 - D + 1)
          (concat.length - D + 1) concat ((List.range (concat.length - D + 1)).map (hashAt concat)))
          fuel ⟨w, (List.range concat.length).map skip, segments, collected⟩ =
        .ret (segments ++ greedy (hashAt concat) (concat.length - dictSize / 4 + 1)
          (dictSize / 4 - D + 1) (dictSize / 4) r w skip)
  | r, 0, _, _, _, _, _, _, hf => absurd hf (Nat.not_lt_zero r)
  | r, fuel + 1, w, skip, segments, collected, hw, hr, hf => by
    have hk : 0 < dictSize / 4 := by have := h.min; omega
    by_cases hc : collected < dictSize
    · have hround := coverRound_eq t checks skip h hw segments hc
      rw [rounds_pos hk (by omega), Nat.sub_sub] at hr
      subst hr
      rw [greedy, ← selected]
      by_cases hb : (selected concat dictSize w skip).2 = 0
      · rw [if_pos hb] at hround
        rw [Run.loop_done hround, if_pos hb, List.append_nil]
      · rw [if_neg hb] at hround
        rw [Run.loop_next hround, if_neg hb, coverLoop_eq h _ fuel _
          (fun a => Nat.le_trans (clear_le ..) (hw a)) rfl (by omega), List.append_assoc,
          List.singleton_append]
    · have hdone : coverRound t checks dictSize (dictSize / 4) (dictSize / 4 - D + 1)
          (concat.length - D + 1) concat ((List.range (concat.length - D + 1)).map (hashAt concat))
          ⟨w, (List.range concat.length).map skip, segments, collected⟩ = .ret (.done segments) := by
        rw [coverRound, if_neg hc, Run.pure_eq]
      rw [Nat.sub_eq_zero_of_le (Nat.le_of_not_lt hc), rounds_zero hk] at hr
      subst hr
      rw [Run.loop_done hdone, greedy, List.append_nil]

end

/-! ## The dictionary -/

section

variable {samples : List (List UInt8)} {dictSize : Nat}

theorem mem_selection {s : Nat × Nat} (h : s ∈ selection samples dictSize) :
    s.1 + dictSize / 4 ≤ samples.flatten.length := by
  simp only [selection] at h
  split at h
  · cases h
  · have hlt := (mem_greedy h).1
    omega

theorem coverSegments_eq (hmin : 32 ≤ dictSize) (hmax : dictSize ≤ 65535)
    (hle : samples.flatten.length ≤ 524280) :
    coverSegments t checks samples dictSize = .ret (
      if samples.flatten.length < D then
        .whole (samples.flatten.take (min dictSize samples.flatten.length))
      else if samples.flatten.length < dictSize / 4 then .whole samples.flatten
      else .segments samples.flatten (dictSize / 4) (selection samples dictSize)) := by
  have hmod := modulus_large t
  have hD : D = 8 := rfl
  rw [coverSegments, concatSamples_eq]
  dsimp only
  by_cases h₁ : samples.flatten.length < D
  · rw [if_pos h₁, if_pos h₁, Run.pure_eq]
  · rw [if_neg h₁, if_neg h₁, Run.subWith_eq (by omega), Run.ret_bind, Run.addWith_eq (by omega),
      Run.ret_bind, hashDmers_eq (by omega), Run.ret_bind, countDmers_eq (by omega) (by omega),
      Run.ret_bind]
    by_cases h₂ : samples.flatten.length < dictSize / 4
    · rw [if_pos h₂, if_pos h₂, Run.pure_eq]
    · have hsized : Sized samples.flatten dictSize := ⟨hmin, hmax, hle, Nat.le_of_not_lt h₂⟩
      have hzero : List.replicate samples.flatten.length false =
          (List.range samples.flatten.length).map fun _ => false := by
        rw [List.map_const', List.length_range]
      have hrounds : rounds dictSize (dictSize / 4) ≤ dictSize := by
        have hk : 0 < dictSize / 4 := by omega
        rw [rounds, Nat.div_le_iff_le_mul_add_pred hk]
        have := Nat.le_mul_of_pos_left dictSize hk
        omega
      rw [if_neg h₂, if_neg h₂, Run.subWith_eq (by omega), Run.ret_bind,
        Run.addWith_eq (by omega), Run.ret_bind, hzero,
        coverLoop_eq hsized (rounds dictSize (dictSize / 4)) _ [] (weight_le samples) rfl (by omega),
        Run.ret_bind, List.nil_append, selection, if_neg (not_or.mpr ⟨h₁, h₂⟩), Run.pure_eq]

variable (t checks dictSize) in
/-- The segments are put together until there are enough bytes. -/
theorem assemble_eq {concat : List UInt8} {k : Nat} (hmod : concat.length < t.modulus) :
    ∀ (segments : List (Nat × Nat)) (dict : List UInt8), (∀ s ∈ segments, s.1 + k ≤ concat.length) →
      ∃ out, assemble t checks concat k dictSize segments dict = .ret out ∧
        out.take dictSize = (dict ++ segments.flatMap fun s => seg concat s.1 k).take dictSize
  | [], dict, _ => ⟨dict, rfl, by rw [List.flatMap_nil, List.append_nil]⟩
  | s :: segments, dict, h => by
    have hs := h s List.mem_cons_self
    have hmin : min (s.1 + k) concat.length = s.1 + k := Nat.min_eq_left hs
    have hassert : Run.assert (s.1 ≤ s.1 + k) = .ret () := if_pos (Nat.le_add_right _ _)
    rw [assemble, Run.addWith_eq (by omega), Run.ret_bind]
    dsimp only
    rw [hmin, hassert, Run.ret_bind, Nat.add_sub_cancel_left, Run.chunk_eq hs, Run.ret_bind,
      List.flatMap_cons, ← List.append_assoc]
    by_cases hd : (dict ++ seg concat s.1 k).length ≥ dictSize
    · rw [if_pos hd, Run.pure_eq]
      exact ⟨_, rfl, (List.take_append_of_le_length hd).symm⟩
    · rw [if_neg hd]
      exact assemble_eq hmod segments _ fun s' hs' => h s' (List.mem_cons_of_mem s hs')

/-- `cover_select` gives the dictionary. -/
theorem coverSelect_eq (hmin : 32 ≤ dictSize) (hmax : dictSize ≤ 65535)
    (hle : samples.flatten.length ≤ 524280) :
    coverSelect t checks samples dictSize = .ret (dictionary samples dictSize) := by
  have hmod := modulus_large t
  rw [coverSelect, coverSegments_eq hmin hmax hle, Run.ret_bind, dictionary]
  by_cases h₁ : samples.flatten.length < D
  · have htake : samples.flatten.take (min dictSize samples.flatten.length) =
        samples.flatten.take dictSize := (List.take_eq_take_min ..).symm
    rw [if_pos h₁, if_pos (.inl h₁), htake]
    rfl
  by_cases h₂ : samples.flatten.length < dictSize / 4
  · rw [if_neg h₁, if_pos h₂, if_pos (.inr h₂), List.take_of_length_le (by omega)]
    rfl
  · obtain ⟨out, hout, htake⟩ := assemble_eq t checks dictSize
      (show samples.flatten.length < t.modulus by omega) (selection samples dictSize).reverse []
      fun s hs => mem_selection (List.mem_reverse.mp hs)
    rw [if_neg h₁, if_neg h₂, if_neg (not_or.mpr ⟨h₁, h₂⟩)]
    dsimp only
    rw [hout, Run.ret_bind, htake, List.nil_append, Run.pure_eq]
    rfl

end

end Lz4rip.Proof.Encode
