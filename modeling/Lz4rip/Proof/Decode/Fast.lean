import Lz4rip.Proof.Decode.Token

/-!
# The fast loop

An iteration of the fast loop either takes the step of the machine
(`tokenStep`), ends the block as the machine does, or leaves for the general
path with nothing changed (`FastAgrees`). `fastToken_ok` says so, from one
lemma for each branch.
-/

namespace Lz4rip.Proof.Decode

open Lz4rip.Impl
open Lz4rip.Lz77 (Copied copyBack)

/-- What an iteration that starts at `ip` with `w` written may come to, when
the machine takes `step` there. -/
inductive FastAgrees (cap ip : Nat) (w : List UInt8) (step : Step) : FastFlow → Prop where
  | next {ip' : Nat} {s' : OutSink} {w' : List UInt8} : step = .next (ip', w') → Holds cap s' w' →
      FastAgrees cap ip w step (.next (ip', s'))
  | leave {s : OutSink} : Holds cap s w → FastAgrees cap ip w step (.done (.leave ip s))
  | finished {s' : OutSink} {w' : List UInt8} : step = .done (.ok (), w') → Holds cap s' w' →
      FastAgrees cap ip w step (.done (.finished s'))

/-! ## Reading -/

theorem readIntegerBounded_one (t : Target) {input : List UInt8} {pos : Nat} (max : Nat) {extra : UInt8}
    (h : input[pos]? = some extra) (he : extra ≠ EXT_MORE) :
    readIntegerBounded t input pos max = .ok (extra.toNat, pos + 1) := by
  obtain ⟨hlt, rfl⟩ := List.getElem?_eq_some_iff.mp h
  have := t.modulus_cases
  have := input[pos].toNat_lt
  rw [readIntegerBounded, List.drop_eq_getElem_cons hlt, readIntegerLoop, if_pos (by omega),
    if_pos he, Nat.zero_add]

theorem readLiteralLength_short (t : Target) (input : List UInt8) (pos max : Nat) {token : UInt8}
    (h : token.toNat / 16 ≠ RUN_MASK) :
    readLiteralLength t input pos token max = .ok (token.toNat / 16, pos) :=
  if_neg h

theorem readLiteralLength_long {t : Target} {input : List UInt8} {pos max n p : Nat}
    {token : UInt8} (h : token.toNat / 16 = RUN_MASK)
    (hn : readIntegerBounded t input pos max = .ok (n, p)) (ht : RUN_MASK + n < t.modulus) :
    readLiteralLength t input pos token max = .ok (RUN_MASK + n, p) := by
  simp only [readLiteralLength, h, if_true, extendLength, hn, if_pos ht]

theorem readMatchLength_short (t : Target) (input : List UInt8) (pos max : Nat) {token : UInt8}
    (h : token.toNat % 16 ≠ ML_MASK) :
    readMatchLength t input pos token max = .ok (MINMATCH + token.toNat % 16, pos) :=
  if_neg (by omega)

theorem readMatchLength_long {t : Target} {input : List UInt8} {pos max n p : Nat} {token : UInt8}
    (h : token.toNat % 16 = ML_MASK) (hn : readIntegerBounded t input pos max = .ok (n, p))
    (ht : MINMATCH + ML_MASK + n < t.modulus) :
    readMatchLength t input pos token max = .ok (MINMATCH + ML_MASK + n, p) := by
  simp only [readMatchLength, h, if_true, extendLength, hn, if_pos ht]

theorem readOffset_eq (input : List UInt8) (pos : Nat) (h : pos + 2 ≤ input.length)
    (h₀ : leNat (seg input pos 2) ≠ 0) :
    readOffset input pos = .ok (leNat (seg input pos 2), pos + 2) := by
  have hd : input.drop pos = input[pos] :: input[pos + 1] :: input.drop (pos + 2) := by
    rw [List.drop_eq_getElem_cons (by omega), List.drop_eq_getElem_cons (by omega)]
  rw [seg, hd] at h₀ ⊢
  rw [readOffset, hd]
  exact if_neg h₀

/-- The step of the machine on a token whose match is in reach. -/
theorem matchStep_eq {t : Target} {dict input : List UInt8} {cap ip i₁ i₂ off len : Nat}
    {token : UInt8} {w : List UInt8} (hoff : readOffset input ip = .ok (off, i₁))
    (hlen : readMatchLength t input i₁ token cap = .ok (len, i₂)) (hcap : w.length + len ≤ cap)
    (ho : off ≤ dict.length + w.length) :
    matchStep t dict input cap token ip w =
      .next (i₂, (copyBack (dict ++ w) off len).drop dict.length) := by
  simp only [matchStep, hoff, hlen]
  rw [if_neg (by omega), if_neg (by omega)]

/-- A match within what is written. -/
theorem matchStep_near {t : Target} {dict input : List UInt8} {cap ip i₁ i₂ off len : Nat}
    {token : UInt8} {w : List UInt8} (hoff : readOffset input ip = .ok (off, i₁))
    (hlen : readMatchLength t input i₁ token cap = .ok (len, i₂)) (hcap : w.length + len ≤ cap)
    (ho : off ≤ w.length) :
    matchStep t dict input cap token ip w = .next (i₂, copyBack w off len) := by
  rw [matchStep_eq hoff hlen hcap (by omega), Lz77.copyBack_append _ (readOffset_le hoff).1 ho,
    List.drop_left]

/-- The step of the machine on a token whose literals fit both buffers. -/
theorem tokenStep_eq {t : Target} {dict input : List UInt8} {cap ip i₁ len : Nat} {token : UInt8}
    {w : List UInt8} (htok : input[ip]? = some token)
    (hlen : readLiteralLength t input (ip + TOKEN_LEN) token cap = .ok (len, i₁))
    (hin : i₁ + len ≤ input.length) (hcap : w.length + len ≤ cap) :
    tokenStep t dict input cap (ip, w) =
      if input.length ≤ i₁ + len then .done (.ok (), w ++ seg input i₁ len)
      else matchStep t dict input cap token (i₁ + len) (w ++ seg input i₁ len) := by
  simp only [tokenStep, htok, hlen]
  rw [if_neg (by omega), if_neg (by omega)]

/-! ## The branches -/

section

variable {t : Target} {input dict : List UInt8} {useDict : Bool} {cap ip : Nat} {s : OutSink}
  {w : List UInt8} {token : UInt8}

/-- Literals that end the input end the block. -/
theorem fastLastLiterals_ok {start len : Nat} (h : Holds cap s w)
    (htok : input[ip]? = some token)
    (hlen : readLiteralLength t input (ip + TOKEN_LEN) token cap = .ok (len, start))
    (hin : start + len = input.length) (hcap : w.length + len ≤ cap) :
    (fastLastLiterals input s start s.pos len).WP
      (FastAgrees cap ip w (tokenStep t dict input cap (ip, w))) := by
  have hc := h.capacity
  have hp := h.pos
  have hseg : (seg input start len).length = len := length_seg (by omega)
  simp only [fastLastLiterals, Run.WP_bind, Run.pure_eq, Run.WP_ret]
  refine (copyFromSrc_ok (by omega) (by omega)).mono fun (b, p) ⟨ha, hb⟩ => ?_
  have := h.append ha (by omega)
  rw [hseg, ← hb] at this
  refine .finished ?_ this
  rw [tokenStep_eq htok hlen (by omega) hcap, if_pos (by omega)]

theorem fastLongestLiteral_ok (hf : Fits t input cap) (h : Holds cap s w)
    (htok : input[ip]? = some token) (hlit : token.toNat / 16 = RUN_MASK) :
    (fastLongestLiteral t input ip ip s s.pos).WP
      (FastAgrees cap ip w (tokenStep t dict input cap (ip, w))) := by
  have hc := h.capacity
  have hp := h.pos
  have hle := h.le
  have hfit := hf.le
  unfold fastLongestLiteral
  dsimp only
  rw [hc]
  cases hn : readIntegerBounded t input (ip + TOKEN_LEN) cap with
  | error e => exact .leave h
  | ok q =>
    obtain ⟨n, start⟩ := q
    have hb := readIntegerBounded_le hn
    simp only [RUN_MASK, Run.WP_bind, Target.WP_add]
    refine ⟨by omega, by omega, .ite (fun hin => ?_) fun _ => .leave h⟩
    simp only [Run.WP_bind, Target.WP_add]
    refine ⟨by omega, .ite (fun ho => ?_) fun _ => .leave h⟩
    exact fastLastLiterals_ok h htok (readLiteralLength_long hlit hn (by simp only [RUN_MASK]; omega))
      hin (by omega)

/-- A sink with literals and then a match copied to it. -/
theorem Holds.sequence {b b' : List UInt8} {i len off n : Nat} (h : Holds cap s w)
    (hi : i + len ≤ input.length) (ha : Appended s.output b s.pos (seg input i len))
    (h₀ : 0 < off) (ho : off ≤ s.pos + len) (hc : Copied b b' (s.pos + len) off n)
    (hn : w.length + len + n ≤ cap) :
    Holds cap ⟨b', s.pos + len + n⟩ (copyBack (w ++ seg input i len) off n) := by
  have hp := h.pos
  have hseg : (seg input i len).length = len := length_seg hi
  have h₁ := h.append ha (by omega)
  rw [hseg] at h₁
  exact h₁.copied h₀ (by rw [List.length_append]; omega) hc (by rw [List.length_append]; omega)

theorem fastLongLiteral_ok {extra : UInt8} (hf : Fits t input cap) (h : Holds cap s w)
    (htok : input[ip]? = some token) (hlit : token.toNat / 16 = RUN_MASK)
    (hext : input[ip + 1]? = some extra) (hmore : extra ≠ EXT_MORE) :
    (fastLongLiteral t input ip ip s s.pos token extra).WP
      (FastAgrees cap ip w (tokenStep t dict input cap (ip, w))) := by
  have hc := h.capacity
  have hp := h.pos
  have hle := h.le
  have hfit := hf.le
  have hlt := (List.getElem?_eq_some_iff.mp hext).1
  have := extra.toNat_lt
  have hlen : readLiteralLength t input (ip + TOKEN_LEN) token cap =
      .ok (RUN_MASK + extra.toNat, ip + 1 + 1) :=
    readLiteralLength_long hlit (readIntegerBounded_one t cap hext hmore) (by simp only [RUN_MASK]; omega)
  unfold fastLongLiteral
  simp only [TOKEN_LEN, EXT_LEN, OFFSET_LEN, RUN_MASK, Run.WP_bind, Target.WP_add] at hlen ⊢
  generalize hl : 15 + extra.toNat = len at hlen ⊢
  refine ⟨by omega, by omega, .ite (fun c => ?_) fun c => ?_⟩
  · exact fastLastLiterals_ok h htok hlen c.1 (by omega)
  simp only [LONG_CHUNK, WIDE_CHUNK, MATCH_CHUNK, Nat.reduceMul, Run.WP_bind, Target.WP_add]
  refine ⟨by omega, by omega, .ite (fun _ => .leave h) fun c₂ => ?_⟩
  simp only [Run.WP_bind, Run.WP_chunk]
  refine ⟨by omega, .ite (fun _ => .leave h) fun c₃ => ?_⟩
  simp only [not_or, Nat.not_lt] at c₂ c₃
  obtain ⟨hnib, h8, ho⟩ := c₃
  have := token.toNat_lt
  have hoff := readOffset_eq input (ip + 1 + 1 + len) (by omega) (by omega)
  have hmatch := readMatchLength_short t input (ip + 1 + 1 + len + 2) cap hnib
  have hseg : (seg input (ip + 1 + 1) len).length = len := length_seg (by omega)
  simp only [MINMATCH, ML_MASK] at hmatch hnib ⊢
  rw [Run.WP_bind]
  refine (copyLiterals32_ok (by omega) (by omega)).mono fun b ha => ?_
  rw [Run.WP_bind]
  have hbl := ha.length
  refine (wildMatchCopy18_ok h8 ho (by omega) (by omega)).mono fun (b', p) ⟨hcp, hb⟩ => ?_
  subst hb
  refine .next ?_ (h.sequence (by omega) ha (by omega) ho hcp (by omega))
  rw [tokenStep_eq htok hlen (by omega) (by omega), if_neg (by omega)]
  exact matchStep_near hoff hmatch (by rw [List.length_append]; omega)
    (by rw [List.length_append]; omega)

/-- The window of an iteration: the first `FAST_IN` bytes of the input from the
token on. -/
theorem window_literals {len : Nat} (hlen : len ≤ 14) (hw : ip + FAST_IN ≤ input.length)
    (hb : s.pos + WIDE_CHUNK ≤ s.output.length) :
    (do
      let c ← Run.chunk (seg input ip FAST_IN) TOKEN_LEN WIDE_CHUNK
      Run.storeAt s.output s.pos c).WP
      fun b => Appended s.output b s.pos (seg input (ip + 1) len) := by
  simp only [FAST_IN, TOKEN_LEN, SHORT_LITERAL_MAX, RUN_MASK, OFFSET_LEN, EXT_LEN, WIDE_CHUNK,
    MATCH_CHUNK, Nat.reduceMul, Nat.reduceAdd, Nat.reduceSub] at hw hb ⊢
  have h₁ : (seg input ip 18).length = 18 := length_seg hw
  have h₂ : seg (seg input ip 18) 1 16 = seg input (ip + 1) 16 := seg_seg _ (by omega)
  have h₃ : (seg input (ip + 1) 16).length = 16 := length_seg (by omega)
  simp only [Run.WP_bind, Run.WP_chunk, Run.WP_storeAt, h₁, h₂, h₃]
  refine ⟨by omega, hb, ?_⟩
  have := Appended.of_store_take s.output (seg input (ip + 1) 16) s.pos len (by omega) (by omega)
  rwa [take_seg _ (by omega)] at this

theorem fastShortMatch_ok {len off : Nat} (h : Holds cap s w) (hlen : len ≤ 14)
    (hw : ip + FAST_IN ≤ input.length) (hcap : w.length + len + SHORT_MATCH_MAX ≤ cap)
    (htok : input[ip]? = some token) (hlit : token.toNat / 16 = len)
    (hnib : token.toNat % 16 ≠ ML_MASK) (hoff : off = leNat (seg input (ip + 1 + len) 2)) :
    (fastShortMatch useDict dict ip ip s s.pos (s.pos + len) (seg input ip FAST_IN) len off
      (token.toNat % 16)).WP
      (FastAgrees cap ip w (tokenStep t (history useDict dict) input cap (ip, w))) := by
  have hc := h.capacity
  have hp := h.pos
  have hle := h.le
  have hmod : token.toNat % 16 < 16 := Nat.mod_lt _ (by decide)
  have hlits := fun b => window_literals (s := s) hlen hw b
  have hread := readLiteralLength_short t input (ip + 1) cap
    (show token.toNat / 16 ≠ RUN_MASK by simp only [RUN_MASK]; omega)
  have hmatch := readMatchLength_short t input (ip + 1 + len + 2) cap hnib
  rw [hlit] at hread
  simp only [SHORT_MATCH_MAX, FAST_IN, TOKEN_LEN, SHORT_LITERAL_MAX, RUN_MASK, OFFSET_LEN, EXT_LEN,
    MINMATCH, ML_MASK, Nat.reduceAdd, Nat.reduceSub, WIDE_CHUNK, MATCH_CHUNK, Nat.reduceMul] at *
  have hseg : (seg input (ip + 1) len).length = len := length_seg (by omega)
  have hlits := hlits (by omega)
  have hnext : ip + 1 + 2 + len = ip + 1 + len + 2 := by omega
  unfold fastShortMatch
  simp only [TOKEN_LEN, OFFSET_LEN, MINMATCH, WIDE_CHUNK, MATCH_CHUNK, Nat.reduceMul, hnext]
  have hstep : ∀ s' w', Holds cap s' w' →
      matchStep t (history useDict dict) input cap token (ip + 1 + len) (w ++ seg input (ip + 1) len) =
        .next (ip + 1 + len + 2, w') →
      FastAgrees cap ip w (tokenStep t (history useDict dict) input cap (ip, w))
        (.next (ip + 1 + len + 2, s')) := fun s' w' h' hm => by
    refine .next ?_ h'
    rw [tokenStep_eq htok hread (by omega) (by omega), if_neg (by omega), hm]
  refine .ite (fun c => ?_) fun c => .ite (fun c₂ => ?_) fun _ => .leave h
  · have ho := readOffset_eq input (ip + 1 + len) (by omega) (by omega)
    rw [← hoff] at ho
    simp only [Run.WP_bind] at hlits ⊢
    refine hlits.mono fun _ hlits => hlits.mono fun b ha => ?_
    have hbl := ha.length
    refine (wildMatchCopy18_ok c.1 (by omega) (by omega) (by omega)).mono fun (b', p) ⟨hcp, hb⟩ => ?_
    subst hb
    refine hstep _ _ (h.sequence (by omega) ha (by omega) (by omega) hcp (by omega)) ?_
    exact matchStep_near ho hmatch (by rw [List.length_append]; omega)
      (by rw [List.length_append]; omega)
  · have ho := readOffset_eq input (ip + 1 + len) (by omega) (by omega)
    rw [← hoff] at ho
    simp only [Run.WP_bind, Run.WP_sub]
    refine ⟨by omega, .ite (fun c₃ => ?_) fun _ => .leave h⟩
    simp only [SHORT_MATCH_MAX, MINMATCH, ML_MASK, Nat.reduceAdd, Nat.reduceSub, Run.WP_bind,
      Run.WP_chunk, Run.WP_storeAt] at hlits c₃ ⊢
    have hd : (seg dict (dict.length - (off - (s.pos + len))) 18).length = 18 :=
      length_seg (by omega)
    obtain ⟨h₁, h₂, ha⟩ := hlits
    have hbl := ha.length
    refine ⟨h₁, h₂, by omega, by omega, ?_⟩
    have h₃ := h.append ha (by omega)
    rw [hseg] at h₃
    have hm := Appended.of_store_take (store s.output s.pos (seg (seg input ip 18) 1 16))
      (seg dict (dict.length - (off - (s.pos + len))) 18) (s.pos + len) (4 + token.toNat % 16)
      (by omega) (by omega)
    have hml : ((seg dict (dict.length - (off - (s.pos + len))) 18).take
        (4 + token.toNat % 16)).length = 4 + token.toNat % 16 := by
      rw [List.length_take, hd]
      omega
    have h₄ := h₃.append hm (by rw [List.length_append]; omega)
    rw [hml] at h₄
    refine hstep _ _ h₄ ?_
    have hu : history useDict dict = dict := by simp only [history, c₂.1, if_true]
    rw [hu, matchStep_eq ho hmatch (by rw [List.length_append]; omega)
      (by rw [List.length_append]; omega), Lz77.copyBack_of_le (by omega)
      (by rw [List.length_append, List.length_append]; omega) (by omega), List.append_assoc,
      List.drop_left, List.length_append, List.length_append, hseg,
      show dict.length + (w.length + len) - off = dict.length - (off - (s.pos + len)) by omega,
      seg_append_left _ (by omega), take_seg _ (by omega)]

theorem fastLongMatch_ok {len off : Nat} (hf : Fits t input cap) (h : Holds cap s w)
    (hlen : len ≤ 14) (hw : ip + FAST_IN ≤ input.length)
    (hcap : w.length + len + SHORT_MATCH_MAX ≤ cap)
    (htok : input[ip]? = some token) (hlit : token.toNat / 16 = len)
    (hnib : token.toNat % 16 = ML_MASK) (hoff : off = leNat (seg input (ip + 1 + len) 2)) :
    (fastLongMatch t ip ip s s.pos (s.pos + len) (seg input ip FAST_IN) len off).WP
      (FastAgrees cap ip w (tokenStep t dict input cap (ip, w))) := by
  have hc := h.capacity
  have hp := h.pos
  have hle := h.le
  have hfit := hf.le
  have hlits := fun b => window_literals (s := s) hlen hw b
  have hread := readLiteralLength_short t input (ip + 1) cap
    (show token.toNat / 16 ≠ RUN_MASK by simp only [RUN_MASK]; omega)
  rw [hlit] at hread
  have hwl : (seg input ip FAST_IN).length = FAST_IN := length_seg hw
  simp only [SHORT_MATCH_MAX, FAST_IN, TOKEN_LEN, SHORT_LITERAL_MAX, RUN_MASK, OFFSET_LEN, EXT_LEN,
    MINMATCH, ML_MASK, Nat.reduceAdd, Nat.reduceSub, WIDE_CHUNK, MATCH_CHUNK, Nat.reduceMul] at *
  have hseg : (seg input (ip + 1) len).length = len := length_seg (by omega)
  have hlits := hlits (by omega)
  unfold fastLongMatch
  simp only [TOKEN_LEN, OFFSET_LEN, EXT_LEN, MINMATCH, ML_MASK, LONG_CHUNK, WIDE_CHUNK, MATCH_CHUNK,
    Nat.reduceMul, Nat.reduceAdd]
  rw [Run.index_eq (by omega), Run.ret_bind]
  have hext : input[ip + 1 + len + 2]? = some (seg input ip 18)[3 + len] := by
    rw [← List.getElem?_eq_getElem, getElem?_seg_of_lt _ (by omega)]
    congr 1
    omega
  generalize (seg input ip 18)[3 + len] = extra at hext ⊢
  have := extra.toNat_lt
  refine .ite (fun _ => .leave h) fun c => ?_
  simp only [not_or, Nat.not_lt] at c
  obtain ⟨hmore, h16, ho⟩ := c
  simp only [Run.WP_bind, Target.WP_add]
  refine ⟨by omega, by omega, .ite (fun _ => .leave h) fun c₂ => ?_⟩
  have hro := readOffset_eq input (ip + 1 + len) (by omega) (by omega)
  rw [← hoff] at hro
  have hmatch := readMatchLength_long hnib (readIntegerBounded_one t cap hext hmore) (by simp only [MINMATCH, ML_MASK]; omega)
  simp only [MINMATCH, ML_MASK, Nat.reduceAdd] at hmatch
  simp only [Run.WP_bind] at hlits ⊢
  refine hlits.mono fun _ hlits => hlits.mono fun b ha => ?_
  have hbl := ha.length
  refine (wildCopyMatchLong_ok h16 ho (by omega)).mono fun b' hcp => ?_
  have h₁ := h.sequence (by omega) ha (by omega) ho hcp (by omega)
  refine .next ?_ h₁
  rw [tokenStep_eq htok hread (by omega) (by omega), if_neg (by omega),
    matchStep_near hro hmatch (by rw [List.length_append]; omega)
      (by rw [List.length_append]; omega), show ip + 4 + len = ip + 1 + len + 2 + 1 by omega]

theorem fastShortLiteral_ok (hf : Fits t input cap) (h : Holds cap s w)
    (hw : ip + FAST_IN ≤ input.length) (htok : input[ip]? = some token)
    (hlit : token.toNat / 16 ≠ RUN_MASK) :
    (fastShortLiteral t useDict dict ip ip s s.pos (seg input ip FAST_IN) token
      (token.toNat / 16)).WP
      (FastAgrees cap ip w (tokenStep t (history useDict dict) input cap (ip, w))) := by
  have hc := h.capacity
  have hp := h.pos
  have hle := h.le
  have hfit := hf.le
  have := token.toNat_lt
  have hlen : token.toNat / 16 ≤ 14 := by
    simp only [RUN_MASK] at hlit
    omega
  have hwl : (seg input ip FAST_IN).length = FAST_IN := length_seg hw
  have hoff : seg (seg input ip FAST_IN) (TOKEN_LEN + token.toNat / 16) OFFSET_LEN =
      seg input (ip + 1 + token.toNat / 16) 2 := by
    rw [seg_seg, Nat.add_assoc]
    simp only [FAST_IN, TOKEN_LEN, SHORT_LITERAL_MAX, RUN_MASK, OFFSET_LEN, EXT_LEN]
    omega
  simp only [fastShortLiteral, Run.WP_bind, Target.WP_add]
  refine ⟨by omega, by simp only [SHORT_MATCH_MAX, MINMATCH, ML_MASK]; omega,
    .ite (fun _ => .leave h) fun c => ?_⟩
  simp only [Run.WP_bind, Run.WP_chunk, hwl, hoff]
  refine ⟨by
    simp only [FAST_IN, TOKEN_LEN, SHORT_LITERAL_MAX, RUN_MASK, OFFSET_LEN, EXT_LEN]
    omega, .ite (fun hnib => ?_) fun hnib => ?_⟩
  · exact fastShortMatch_ok h hlen hw (by omega) htok rfl hnib rfl
  · exact fastLongMatch_ok hf h hlen hw (by omega) htok rfl (Decidable.of_not_not hnib) rfl

end

/-- An iteration of the fast loop, on positions below 4 GiB. -/
theorem fastToken_ok {t : Target} {input dict : List UInt8} {useDict : Bool} {cap ip : Nat}
    {s : OutSink} {w : List UInt8} (hf : Fits t input cap) (hi : input.length ≤ U32_MAX)
    (ho : cap ≤ U32_MAX) (hip : ip ≤ input.length) (h : Holds cap s w) :
    (fastToken t useDict input dict (ip, s)).WP
      (FastAgrees cap ip w (tokenStep t (history useDict dict) input cap (ip, w))) := by
  have hle := h.le
  have hp := h.pos
  have hfit := hf.le
  have h₁ : idx ip = ip := Nat.mod_eq_of_lt (by simp only [U32_MAX] at hi; omega)
  have h₂ : idx s.pos = s.pos := Nat.mod_eq_of_lt (by simp only [U32_MAX] at ho; omega)
  simp only [fastToken, h₁, h₂, Run.WP_bind, Target.WP_add]
  refine ⟨by
    simp only [FAST_IN, TOKEN_LEN, SHORT_LITERAL_MAX, RUN_MASK, OFFSET_LEN, EXT_LEN]
    omega, .ite (fun _ => .leave h) fun c => ?_⟩
  have hw : ip + FAST_IN ≤ input.length := by omega
  have hwl : (seg input ip FAST_IN).length = 18 := length_seg hw
  simp only [Run.WP_bind, Run.WP_chunk]
  refine ⟨hw, ?_⟩
  have hbyte : ∀ j, (hj : j < (seg input ip FAST_IN).length) →
      input[ip + j]? = some (seg input ip FAST_IN)[j] := fun j hj => by
    rw [← List.getElem?_eq_getElem, getElem?_seg_of_lt _ (by rwa [length_seg hw] at hj)]
  have htok := hbyte 0 (by omega)
  have hext := hbyte 1 (by omega)
  rw [Run.index_eq (by omega), Run.WP_ret]
  generalize (seg input ip FAST_IN)[0] = token at htok ⊢
  refine .ite (fun hlit => ?_) fun hlit => fastShortLiteral_ok hf h hw htok hlit
  simp only [TOKEN_LEN]
  rw [Run.index_eq (show 1 < (seg input ip FAST_IN).length by omega), Run.ret_bind]
  generalize (seg input ip FAST_IN)[1] = extra at hext ⊢
  refine .ite (fun _ => ?_) fun hmore => ?_
  · exact fastLongestLiteral_ok hf h htok hlit
  · exact fastLongLiteral_ok hf h htok hlit hext hmore

end Lz4rip.Proof.Decode
