import Lz4rip.Impl.Decode.Validate
import Lz4rip.Proof.Decode.Decompress

/-!
# The validator and the decoder

An iteration of the validator follows the token that the reference reads
(`VFollows`, `validateToken_follows`), with its own order of checks and its own
limits for lengths. `validate_spec` is the run, which says what a size
mismatch reports as well; `validate_iff_decompress` joins it to the decoder.
-/

namespace Lz4rip.Proof.Decode

open Lz4rip.Impl
open Run (Visits Returns)
open Spec (readLength readToken)

section

variable {t : Target} {dict input : List UInt8} {n : Nat}

/-- An error that, if it is a size mismatch, reports a size above `n`. -/
def Over (n : Nat) (e : DecompressError) : Prop :=
  ∀ n' a, e = .decodedSizeMismatch n' a → n' = n ∧ n < a

/-- An error that, if it is a size mismatch, reports a size above `n` and no more
than `m`. -/
def Reports (n m : Nat) (e : DecompressError) : Prop :=
  ∀ n' a, e = .decodedSizeMismatch n' a → n' = n ∧ n < a ∧ a ≤ m

/-- The decoded size is wrong; if it is reported, then as one that the block does
reach. -/
def Beyond (n m : Nat) (r : Except DecompressError BlockValidation) : Prop :=
  ∃ e, r = .error e ∧ Reports n m e

/-- The step follows the token that the reference reads. -/
def VFollows (dict input : List UInt8) (n : Nat) (w : List UInt8) (step : ValidateFlow) :
    Option Spec.Token → Prop
  | none => ∃ e, step = .done (.error e) ∧ Over n e
  | some (.last l) =>
    if w.length + l.length ≤ n then step = .done (validateEnd n (w.length + l.length))
    else ∃ r, step = .done r ∧ Beyond n (w.length + l.length) r
  | some (.sequence s rest) =>
    match s.apply (dict ++ w) with
    | none => ∃ e, step = .done (.error e) ∧ Over n e
    | some _ =>
      if w.length + s.size ≤ n then
        ∃ ip, step = .next (ip, w.length + s.size) ∧ ip ≤ input.length ∧ input.drop ip = rest
      else ∃ r, step = .done r ∧ Beyond n (w.length + s.size) r

theorem Reports.over {m : Nat} {e : DecompressError} (h : Reports n m e) : Over n e :=
  fun n' a he => ⟨(h n' a he).1, (h n' a he).2.1⟩

theorem Reports.mono {m m' : Nat} {e : DecompressError} (h : Reports n m e) (hm : m ≤ m') :
    Reports n m' e := fun n' a he => by
  obtain ⟨h₁, h₂, h₃⟩ := h n' a he
  exact ⟨h₁, h₂, Nat.le_trans h₃ hm⟩

theorem Over.of_readInteger : ∀ {bs : List UInt8} {max m pos : Nat} {e : DecompressError},
    readIntegerLoop t max m pos bs = .error e → Over n e
  | [], max, m, pos, e, h => by cases h; exact fun _ _ he => by cases he
  | b :: bs, max, m, pos, e, h => by
    rw [readIntegerLoop] at h
    split at h
    · split at h
      · cases h
      · split at h
        · cases h
        · exact Over.of_readInteger h
    · cases h
      exact fun _ _ he => by cases he

theorem Over.of_extendLength {pos base max : Nat} {e : DecompressError}
    (h : extendLength t input pos base max = .error e) : Over n e := by
  unfold extendLength at h
  split at h
  · cases h
    exact .of_readInteger ‹_›
  · split at h
    · cases h
    · cases h
      exact fun _ _ he => by cases he

theorem Over.of_readLiteralLength {pos max : Nat} {token : UInt8} {e : DecompressError}
    (h : readLiteralLength t input pos token max = .error e) : Over n e := by
  unfold readLiteralLength at h
  dsimp only at h
  split at h
  · exact .of_extendLength h
  · cases h

theorem Over.of_readMatchLength {pos max : Nat} {token : UInt8} {e : DecompressError}
    (h : readMatchLength t input pos token max = .error e) : Over n e := by
  unfold readMatchLength at h
  dsimp only at h
  split at h
  · exact .of_extendLength h
  · cases h

/-- The position advances within the size, or what it would come to is above the
size, and is what is reported, unless it does not fit `usize`. -/
theorem advanceDecoded_cases (t : Target) (pos len n : Nat) (hn : n < t.modulus) :
    (pos + len ≤ n ∧ advanceDecoded t pos len n = .ok (pos + len)) ∨
    (n < pos + len ∧ ∃ e, advanceDecoded t pos len n = .error e ∧ Reports n (pos + len) e) := by
  unfold advanceDecoded
  by_cases hfit : pos + len < t.modulus
  · rw [if_pos hfit]
    by_cases hlt : n < pos + len
    · rw [if_pos hlt]
      refine .inr ⟨hlt, _, rfl, fun n' a he => ?_⟩
      obtain ⟨rfl, rfl⟩ := DecompressError.decodedSizeMismatch.inj he
      exact ⟨rfl, hlt, Nat.le_refl _⟩
    · rw [if_neg hlt]
      exact .inl ⟨Nat.le_of_not_lt hlt, rfl⟩
  · rw [if_neg hfit]
    exact .inr ⟨by omega, _, rfl, fun _ _ he => nomatch he⟩

/-- A step that finds the block longer than `n`, for some of the token. -/
theorem VFollows.of_reports {w : List UInt8} {tok : Option Spec.Token} {m : Nat}
    {e : DecompressError} (hr : Reports n m e) (hm : n < m)
    (hlast : ∀ l, tok = some (.last l) → m ≤ w.length + l.length)
    (hseq : ∀ s r, tok = some (.sequence s r) → m ≤ w.length + s.size) :
    VFollows dict input n w (.done (.error e)) tok := by
  unfold VFollows
  split
  · exact ⟨_, rfl, hr.over⟩
  · rename_i l
    have := hlast l rfl
    rw [if_neg (by omega)]
    exact ⟨_, rfl, e, rfl, hr.mono this⟩
  · rename_i s r
    have := hseq s r rfl
    split
    · exact ⟨_, rfl, hr.over⟩
    · rw [if_neg (by omega)]
      exact ⟨_, rfl, e, rfl, hr.mono this⟩

theorem VFollows.of_error {w : List UInt8} {e : DecompressError} {s : Spec.Sequence}
    {rest : List UInt8} (h : s.apply (dict ++ w) = none) (he : Over n e) :
    VFollows dict input n w (.done (.error e)) (some (.sequence s rest)) := by
  simp only [VFollows, h]
  exact ⟨_, rfl, he⟩

/-- A token's match, `l` being its literals. -/
theorem validateMatch_follows (dict : List UInt8) {ip : Nat} (token : UInt8) {lo hi : UInt8}
    (w l : List UInt8) {bs : List UInt8} (hn : n < t.modulus)
    (hw : w.length + l.length ≤ n) (hbs : input.drop ip = lo :: hi :: bs) :
    VFollows dict input n w (validateMatch t input n dict.length token ip (w.length + l.length))
      ((readLength (token.toNat % 16) bs).map fun (n, rest) =>
        .sequence ⟨l, lo.toNat + 256 * hi.toNat, 4 + n⟩ rest) := by
  have hlen : ip + 2 ≤ input.length := by
    have := congrArg List.length hbs
    simp only [List.length_drop, List.length_cons] at this
    omega
  have hdrop : input.drop (ip + 2) = bs := by
    rw [← List.drop_drop, hbs, List.drop_succ_cons, List.drop_succ_cons, List.drop_zero]
  have hle : leNat [lo, hi] = lo.toNat + 256 * hi.toNat := by
    simp only [leNat, Nat.mul_zero, Nat.add_zero]
  unfold validateMatch
  simp only [readOffset, hbs, hle, OFFSET_LEN, extensionLimit, MINMATCH, Nat.reduceAdd]
  by_cases h₀ : lo.toNat + 256 * hi.toNat = 0
  · rw [if_pos h₀]
    have hz : Over n .offsetZero := fun _ _ he => by cases he
    cases readLength (token.toNat % 16) bs with
    | none => exact ⟨_, rfl, hz⟩
    | some q =>
      exact .of_error (by simp only [Lz77.Sequence.apply, h₀, Nat.lt_irrefl, false_and, if_false])
        hz
  simp only [if_neg h₀]
  have hm := readMatchLength_reads t token (n - (w.length + l.length) - 19) hlen
  rw [hdrop] at hm
  rcases hm with hm | ⟨-, he, hlong⟩
  · cases hx : readLength (token.toNat % 16) bs with
    | none =>
      rw [hx] at hm
      rcases hm with ⟨e, he⟩ | ⟨m, p, he, -, hlt⟩
      · rw [he]
        exact ⟨_, rfl, .of_readMatchLength he⟩
      · simp only [he]
        obtain ⟨hle', -⟩ | ⟨-, e, he', hr⟩ := advanceDecoded_cases t (w.length + l.length) m n hn
        · omega
        · rw [he']
          exact ⟨_, rfl, hr.over⟩
    | some q =>
      obtain ⟨k, rest⟩ := q
      rw [hx] at hm
      obtain ⟨m, p, he, hp, hm⟩ := hm
      simp only [he, Option.map_some]
      obtain ⟨hc, he'⟩ | ⟨hc, e, he', hr⟩ := advanceDecoded_cases t (w.length + l.length) m n hn
      · rw [he']
        obtain ⟨rfl, rfl⟩ := hm.resolve_right (by omega)
        dsimp only
        by_cases ho : dict.length + (w.length + l.length) < lo.toNat + 256 * hi.toNat
        · rw [if_pos (by omega)]
          refine .of_error ?_ fun _ _ he => by cases he
          rw [Lz77.Sequence.apply, if_neg]
          simp only [List.length_append]
          omega
        · rw [if_neg (by omega)]
          have ha : Lz77.Sequence.apply ⟨l, lo.toNat + 256 * hi.toNat, 4 + k⟩ (dict ++ w) =
              some (Lz77.copyBack (dict ++ w ++ l) (lo.toNat + 256 * hi.toNat) (4 + k)) := by
            rw [Lz77.Sequence.apply, if_pos]
            simp only [List.length_append]
            omega
          simp only [VFollows, ha]
          rw [if_pos (by rw [Lz77.Sequence.size]; dsimp only; omega)]
          exact ⟨p, by rw [Lz77.Sequence.size, Nat.add_assoc], hp, rfl⟩
      · rw [he']
        refine .of_reports hr hc (fun _ h => by cases h) fun s r h => ?_
        obtain ⟨rfl, rfl⟩ := Spec.Token.sequence.inj (Option.some.inj h)
        rw [Lz77.Sequence.size]
        dsimp only at hm ⊢
        omega
  · -- The length does not fit: it is too long for any size.
    rw [he]
    refine .of_reports (fun _ _ he => by cases he) hn (fun _ h => ?_) fun s r h => ?_
    · obtain ⟨q, -, hq⟩ := Option.map_eq_some_iff.mp h
      cases hq
    · obtain ⟨⟨k, r'⟩, hq, hs⟩ := Option.map_eq_some_iff.mp h
      obtain ⟨rfl, rfl⟩ := Spec.Token.sequence.inj hs
      have := hlong (4 + k) r' (by rw [hq, Option.map_some])
      rw [Lz77.Sequence.size]
      dsimp only
      omega

/-- An iteration of the validator follows the token that the reference reads
there. -/
theorem validateToken_follows (dict : List UInt8) (ip : Nat) {w : List UInt8} (hn : n < t.modulus)
    (hin : input.length < t.modulus) (hw : w.length ≤ n) :
    VFollows dict input n w (validateToken t input n dict.length (ip, w.length))
      (readToken (input.drop ip)) := by
  unfold validateToken
  dsimp only
  cases htok : input[ip]? with
  | none =>
    rw [List.drop_eq_nil_of_le (List.getElem?_eq_none_iff.mp htok)]
    exact ⟨_, rfl, fun _ _ he => by cases he⟩
  | some token =>
    obtain ⟨hlt, rfl⟩ := List.getElem?_eq_some_iff.mp htok
    rw [List.drop_eq_getElem_cons hlt, readToken]
    generalize input[ip] = token
    simp only [extensionLimit]
    rcases readLiteralLength_reads t token (n - w.length - 15) hlt with hm | ⟨-, he, hlong⟩
    · cases hx : readLength (token.toNat / 16) (input.drop (ip + 1)) with
      | none =>
        rw [hx] at hm
        rcases hm with ⟨e, he⟩ | ⟨m, p, he, -, hgt⟩
        · rw [he]
          exact ⟨_, rfl, .of_readLiteralLength he⟩
        · simp only [he]
          obtain ⟨hle, -⟩ | ⟨-, e, he', hr⟩ := advanceDecoded_cases t w.length m n hn
          · omega
          · rw [he']
            exact ⟨_, rfl, hr.over⟩
      | some q =>
        obtain ⟨k, r⟩ := q
        rw [hx] at hm
        obtain ⟨m, p, he, hp, hm⟩ := hm
        simp only [he]
        obtain ⟨hc, he'⟩ | ⟨hc, e, he', hr⟩ := advanceDecoded_cases t w.length m n hn
        · rw [he']
          obtain ⟨rfl, rfl⟩ := hm.resolve_right (by omega)
          dsimp only
          rw [List.length_drop]
          by_cases hi : input.length - p < m
          · rw [if_pos hi, if_neg (by omega)]
            exact ⟨_, rfl, fun _ _ he => by cases he⟩
          · rw [if_neg hi, if_pos (by omega)]
            have hl : (input.drop p).take m = seg input p m := rfl
            have hlit : (seg input p m).length = m := length_seg (by omega)
            rw [List.drop_drop, hl]
            cases hd : input.drop (p + m) with
            | nil =>
              have := List.drop_eq_nil_iff.mp hd
              simp only [VFollows]
              rw [if_pos (by omega), if_pos (by omega), hlit]
            | cons lo bs =>
              have hlen := congrArg List.length hd
              rw [List.length_drop, List.length_cons] at hlen
              rw [if_neg (by omega)]
              cases bs with
              | nil =>
                simp only [validateMatch, readOffset, hd]
                exact ⟨_, rfl, fun _ _ he => by cases he⟩
              | cons hi bs =>
                have := validateMatch_follows dict token w (seg input p m) hn (by omega) hd
                rw [hlit] at this
                dsimp only
                cases hx : readLength (token.toNat % 16) bs with
                | none => rwa [hx] at this
                | some q => rwa [hx] at this
        · -- The literals alone are too many, whether or not the input has them.
          have hmk : m ≤ k := by
            rcases hm with ⟨rfl, -⟩ | ⟨-, hle, -⟩
            · exact Nat.le_refl m
            · exact hle
          have htok : ∀ tok, _ = some tok → readToken (token :: input.drop (ip + 1)) = some tok :=
            fun tok h => by
              rw [readToken, hx]
              exact h
          rw [he']
          refine .of_reports hr hc (fun l h => ?_) fun s r' h => ?_
          · have := (Spec.readToken_literals hx (htok _ h)).1 l rfl
            omega
          · have := (Spec.readToken_literals hx (htok _ h)).2 s r' rfl
            rw [Lz77.Sequence.size]
            omega
    · rw [he]
      cases hx : readLength (token.toNat / 16) (input.drop (ip + 1)) with
      | none => exact ⟨_, rfl, fun _ _ he => by cases he⟩
      | some q =>
        obtain ⟨k, r⟩ := q
        have hk := hlong k r hx
        have htok : ∀ tok, _ = some tok → readToken (token :: input.drop (ip + 1)) = some tok :=
          fun tok h => by
            rw [readToken, hx]
            exact h
        refine .of_reports (fun _ _ he => by cases he) hn (fun l h => ?_) fun s r' h => ?_
        · have := (Spec.readToken_literals hx (htok _ h)).1 l rfl
          omega
        · have := (Spec.readToken_literals hx (htok _ h)).2 s r' rfl
          rw [Lz77.Sequence.size]
          omega

/-- What the validator returns, for what the reference decodes to with the
history in front. -/
def Validates (dict : List UInt8) (n : Nat) (r : Except DecompressError BlockValidation) :
    Option (List UInt8) → Prop
  | none => ∃ e, r = .error e ∧ Over n e
  | some v =>
    if dict.length + n < v.length then Beyond n (v.length - dict.length) r
    else r = validateEnd n (v.length - dict.length)

/-- The validator returns what the reference decodes, from any state. -/
theorem validate_run (dict : List UInt8) (hn : n < t.modulus) (hin : input.length < t.modulus) :
    ∀ (k ip : Nat) (w : List UInt8), ip ≤ input.length → w.length ≤ n → input.length - ip < k →
      (Run.loop (fun s => .ret (validateToken t input n dict.length s)) k (ip, w.length)).WP
        fun r => Validates dict n r (Spec.decodeFrom (dict ++ w) k (input.drop ip))
  | k + 1, ip, w, hip, hw, hk => by
    have hstep := validateToken_follows dict ip hn hin hw
    rw [Spec.decodeFrom, Run.loop, Run.ret_bind]
    cases htok : readToken (input.drop ip) with
    | none =>
      rw [htok] at hstep
      obtain ⟨e, h, ho⟩ := hstep
      rw [h]
      exact ⟨e, rfl, ho⟩
    | some tok =>
      rw [htok] at hstep
      cases tok with
      | last l =>
        simp only [VFollows] at hstep
        have hl : (dict ++ w ++ l).length = dict.length + (w.length + l.length) := by
          rw [List.length_append, List.length_append, Nat.add_assoc]
        split at hstep
        · rw [hstep]
          simp only [Run.WP_ret, Validates]
          rw [if_neg (by omega), hl, Nat.add_sub_cancel_left]
        · obtain ⟨r, h, hb⟩ := hstep
          rw [h]
          simp only [Run.WP_ret, Validates]
          rw [if_pos (by omega), hl, Nat.add_sub_cancel_left]
          exact hb
      | sequence s rest =>
        simp only [VFollows] at hstep
        dsimp only
        cases hs : s.apply (dict ++ w) with
        | none =>
          simp only [hs] at hstep
          obtain ⟨e, h, ho⟩ := hstep
          rw [h]
          exact ⟨e, rfl, ho⟩
        | some v =>
          simp only [hs] at hstep
          have hl := Lz77.Sequence.length_apply hs
          have hv := Lz77.Sequence.take_apply hs
          rw [List.length_append] at hl
          rw [Option.bind_some]
          split at hstep
          · obtain ⟨ip', h, hip', hrest⟩ := hstep
            have hlt := (Spec.readToken_sequence htok).1
            rw [← hrest, List.length_drop, List.length_drop] at hlt
            have hd : (v.drop dict.length).length = w.length + s.size := by
              rw [List.length_drop]
              omega
            have ih := validate_run dict hn hin k ip' (v.drop dict.length) hip' (by omega) (by omega)
            rw [h]
            rwa [hd, Spec.append_drop_of_take hv, hrest] at ih
          · obtain ⟨r, h, e, rfl, hr⟩ := hstep
            rw [h]
            cases hd : Spec.decodeFrom v k rest with
            | none => exact ⟨_, rfl, hr.over⟩
            | some v' =>
              have := Spec.length_decodeFrom hd
              simp only [Run.WP_ret, Validates]
              rw [if_pos (by omega)]
              exact ⟨e, rfl, hr.mono (by omega)⟩

/-- What the validator returns: its verdict on the size that the reference
decodes to. -/
theorem validate_spec (dict : List UInt8) (hn : n < t.modulus) (hin : input.length < t.modulus) :
    (validateBlockInternal t input n dict.length).WP fun r =>
      match Spec.decode dict input with
      | none => ∃ e, r = .error e ∧ Over n e
      | some v => if n < v.length then Beyond n v.length r else r = validateEnd n v.length := by
  refine (validate_run dict hn hin (input.length + 1) 0 [] (Nat.zero_le _) (Nat.zero_le _)
    (by omega)).mono fun r hr => ?_
  rw [List.append_nil, List.drop_zero] at hr
  rw [Spec.decode]
  cases hd : Spec.decodeFrom dict (input.length + 1) input with
  | none => rwa [hd] at hr
  | some v =>
    have := Spec.length_decodeFrom hd
    simp only [hd, Validates, Option.map_some, List.length_drop] at hr ⊢
    split at hr
    · rwa [if_pos (by omega)]
    · rwa [if_neg (by omega)]

/-- A verdict is an acceptance for the size that the reference decodes to. -/
theorem validate_ok_iff (dict : List UInt8) (hn : n < t.modulus) (hin : input.length < t.modulus) :
    (validateBlockInternal t input n dict.length).WP fun r =>
      ∀ b, r = .ok b ↔ b = ⟨n⟩ ∧ ∃ v, Spec.decode dict input = some v ∧ v.length = n := by
  refine (validate_spec dict hn hin).mono fun r hr b => ?_
  cases hd : Spec.decode dict input with
  | none =>
    simp only [hd] at hr
    obtain ⟨e, rfl, -⟩ := hr
    exact ⟨(nomatch ·), fun ⟨_, _, h, _⟩ => nomatch h⟩
  | some v =>
    simp only [hd] at hr
    by_cases hv : v.length = n
    · rw [if_neg (by omega), validateEnd, if_neg (by omega)] at hr
      rw [hr, hv]
      exact ⟨fun h => ⟨(Except.ok.inj h).symm, v, rfl, hv⟩, fun ⟨h, _⟩ => by rw [h]⟩
    · refine ⟨fun h => ?_, fun ⟨_, u, hu, hn⟩ => ?_⟩
      · split at hr
        · obtain ⟨e, rfl, -⟩ := hr
          cases h
        · rw [validateEnd, if_pos hv] at hr
          cases hr.symm.trans h
      · obtain rfl := Option.some.inj hu
        exact absurd hn hv

end

/-- The validator against a decoder that follows the reference: both accept a block by
the size that the reference decodes to. -/
theorem validate_iff_run {run : List UInt8 → Run (Except DecompressError Nat × List UInt8)}
    {hist out : List UInt8} (h : RefinesReference run hist input out.length)
    (hout : out.length < t.modulus) (hin : input.length < t.modulus) :
    ((∃ b, validateBlockInternal t input out.length hist.length = .ret (.ok b) ∧
        b.decodedLen = out.length) ↔ ∃ out', run out = .ret (.ok out.length, out')) ∧
      ∀ b, validateBlockInternal t input out.length hist.length = .ret (.ok b) →
        b.decodedLen = out.length := by
  obtain ⟨r, hr, hok⟩ := Run.WP_iff.mp (validate_ok_iff hist hout hin)
  obtain ⟨r', hr', hrun⟩ := h
  obtain ⟨out', ho, -⟩ := hrun out rfl
  rw [ho, hr]
  refine ⟨⟨fun hx => ?_, fun hx => ?_⟩, fun b hb => ?_⟩
  · obtain ⟨b, hb, hn⟩ := hx
    obtain ⟨-, v, hv, hl⟩ := (hok b).mp (Run.ret.inj hb)
    exact ⟨out', by rw [(hr' out.length).mpr ⟨v, hv, hl, Nat.le_refl _⟩]⟩
  · obtain ⟨o, hb⟩ := hx
    obtain ⟨v, hv, hl, -⟩ := (hr' out.length).mp (Prod.mk.inj (Run.ret.inj hb)).1
    exact ⟨⟨out.length⟩, by rw [(hok _).mpr ⟨rfl, v, hv, hl⟩], rfl⟩
  · rw [((hok b).mp (Run.ret.inj hb)).1]

/-- The validator accepts a block for the size of an output buffer exactly when
the decoder fills that buffer with it. -/
theorem validate_iff_decompress (t : Target) (input out dict : List UInt8)
    (h : t.Addressable [input, out]) :
    ((∃ b, validateBlockWithDict t input out.length dict = .ret (.ok b) ∧
        b.decodedLen = out.length) ↔
      ∃ out', decompressIntoWithDict t input out dict = .ret (.ok out.length, out')) ∧
    ((∃ b, validateBlock t input out.length = .ret (.ok b) ∧ b.decodedLen = out.length) ↔
      ∃ out', decompressInto t input out = .ret (.ok out.length, out')) ∧
    ∀ b, validateBlockWithDict t input out.length dict = .ret (.ok b) ∨
      validateBlock t input out.length = .ret (.ok b) → b.decodedLen = out.length := by
  have hfit := (Fits.of_addressable h).le
  have hout : out.length < t.modulus := by omega
  have hin : input.length < t.modulus := by omega
  have hwith := validate_iff_run (refinesReference_of_internal true dict h) hout hin
  have hwithout := validate_iff_run (refinesReference_of_internal false dict h) hout hin
  exact ⟨hwith.1, hwithout.1, fun b hb => hb.elim (hwith.2 b) (hwithout.2 b)⟩

/-- The block of one literal, for two bytes: neither accepts it. -/
theorem validate_iff_decompress_literal :
    ((∃ b, validateBlockWithDict ⟨.w64, false, true⟩ [16, 7] 2 [1] = .ret (.ok b) ∧
        b.decodedLen = 2) ↔
      ∃ out', decompressIntoWithDict ⟨.w64, false, true⟩ [16, 7] [0, 0] [1] =
        .ret (.ok 2, out')) ∧
    ((∃ b, validateBlock ⟨.w64, false, true⟩ [16, 7] 2 = .ret (.ok b) ∧ b.decodedLen = 2) ↔
      ∃ out', decompressInto ⟨.w64, false, true⟩ [16, 7] [0, 0] = .ret (.ok 2, out')) ∧
    ∀ b, validateBlockWithDict ⟨.w64, false, true⟩ [16, 7] 2 [1] = .ret (.ok b) ∨
      validateBlock ⟨.w64, false, true⟩ [16, 7] 2 = .ret (.ok b) → b.decodedLen = 2 :=
  validate_iff_decompress _ _ [0, 0] _ (by decide)

/-! ## Prefixes -/

/-- A block that does not decode to the size is rejected. -/
theorem validate_rejects {t : Target} {input : List UInt8} {n : Nat} (dict : List UInt8)
    (hn : n < t.modulus) (hin : input.length ≤ t.isizeMax)
    (h : ∀ v, Spec.decode dict input = some v → v.length ≠ n) :
    ∃ e, validateBlockWithDict t input n dict = .ret (.error e) := by
  have hmod := t.modulus_cases
  have hlt : input.length < t.modulus := by
    unfold Target.isizeMax at hin
    omega
  obtain ⟨r, hr, hok⟩ := Run.WP_iff.mp (validate_ok_iff dict hn hlt)
  cases r with
  | error e => exact ⟨e, hr⟩
  | ok b =>
    obtain ⟨-, v, hv, hl⟩ := (hok b).mp rfl
    exact absurd hl (h v hv)

/-- Nothing in front of a valid block, and nothing that goes on behind it, is a valid
block for the same size and dictionary. -/
theorem validate_prefixFree (t : Target) (n : Nat) (dict b : List UInt8) (hn : n < t.modulus)
    (hb : b.length ≤ t.isizeMax) (hv : ∃ v, validateBlockWithDict t b n dict = .ret (.ok v)) :
    (∀ p, p <+: b → p ≠ b → ∃ e, validateBlockWithDict t p n dict = .ret (.error e)) ∧
    ∀ ext, ext ≠ [] → (b ++ ext).length ≤ t.isizeMax →
      ∃ e, validateBlockWithDict t (b ++ ext) n dict = .ret (.error e) := by
  have hmod := t.modulus_cases
  have hin : b.length < t.modulus := by
    unfold Target.isizeMax at hb
    omega
  obtain ⟨v, hrun⟩ := hv
  obtain ⟨r, hr, hok⟩ := Run.WP_iff.mp (validate_ok_iff dict hn hin)
  obtain ⟨-, u, hu, hlen⟩ := (hok v).mp (Run.ret.inj (hr.symm.trans hrun))
  refine ⟨fun p hp hne => ?_, fun ext hext hfit => ?_⟩
  · obtain ⟨q, rfl⟩ := hp
    have hq : q ≠ [] := fun h => hne (by rw [h, List.append_nil])
    rw [List.length_append] at hb
    refine validate_rejects dict hn (by omega) fun u' hu' => ?_
    have := Spec.length_decode_append hq hu' hu
    omega
  · refine validate_rejects dict hn hfit fun u' hu' => ?_
    have := Spec.length_decode_append hext hu hu'
    omega

/-- The block of one literal. -/
theorem validate_prefixFree_literal :
    (∀ p : List UInt8, p <+: [16, 7] → p ≠ [16, 7] →
      ∃ e, validateBlockWithDict ⟨.w32, false, false⟩ p 1 [] = .ret (.error e)) ∧
    ∀ ext : List UInt8, ext ≠ [] → ([16, 7] ++ ext).length ≤ 2147483647 →
      ∃ e, validateBlockWithDict ⟨.w32, false, false⟩ ([16, 7] ++ ext) 1 [] = .ret (.error e) :=
  validate_prefixFree ⟨.w32, false, false⟩ 1 [] [16, 7] (by decide) (by decide) ⟨⟨1⟩, by decide⟩

/-! ## Size mismatches -/

/-- A size mismatch names the size asked for, and another one: a smaller one is what the
block decodes to, and a larger one is no more than what it can decode to. -/
theorem validate_mismatch (t : Target) (input dict : List UInt8) (n expected actual : Nat)
    (hn : n < t.modulus) (hin : input.length ≤ t.isizeMax)
    (h : validateBlockWithDict t input n dict =
      .ret (.error (.decodedSizeMismatch expected actual))) :
    expected = n ∧ actual ≠ n ∧
    (actual < n → (∃ v, Spec.decode dict input = some v ∧ v.length = actual) ∧
      ∀ out, t.Addressable [input, out] → actual ≤ out.length →
        ∃ out', decompressIntoWithDict t input out dict = .ret (.ok actual, out')) ∧
    (n < actual → ∀ out m out', t.Addressable [input, out] →
      decompressIntoWithDict t input out dict = .ret (.ok m, out') → actual ≤ m) := by
  have hmod := t.modulus_cases
  have hlt : input.length < t.modulus := by
    unfold Target.isizeMax at hin
    omega
  obtain ⟨r, hr, hspec⟩ := Run.WP_iff.mp (validate_spec dict hn hlt)
  obtain rfl := Run.ret.inj (hr.symm.trans h)
  have decodes : ∀ out, t.Addressable [input, out] → ∃ r out',
      decompressIntoWithDict t input out dict = .ret (r, out') ∧ ∀ m, r = .ok m ↔
        ∃ v, Spec.decode dict input = some v ∧ v.length = m ∧ m ≤ out.length := fun out ha => by
    obtain ⟨r, hr, hrun⟩ := refinesReference_of_internal true dict ha
    obtain ⟨out', hx, -⟩ := hrun out rfl
    exact ⟨r, out', hx, hr⟩
  cases hd : Spec.decode dict input with
  | none =>
    simp only [hd] at hspec
    obtain ⟨e, he, ho⟩ := hspec
    obtain ⟨rfl, hgt⟩ := ho expected actual (Except.error.inj he).symm
    refine ⟨rfl, by omega, fun hl => by omega, fun _ out m out' ha hx => ?_⟩
    obtain ⟨r, _, hx', hr⟩ := decodes out ha
    obtain ⟨v, hv, -⟩ := (hr m).mp (Prod.mk.inj (Run.ret.inj (hx'.symm.trans hx))).1
    rw [hd] at hv
    cases hv
  | some v =>
    simp only [hd] at hspec
    split at hspec
    · obtain ⟨e, he, hrep⟩ := hspec
      obtain ⟨rfl, hgt, hle⟩ := hrep expected actual (Except.error.inj he).symm
      refine ⟨rfl, by omega, fun hl => by omega, fun _ out m out' ha hx => ?_⟩
      obtain ⟨r, _, hx', hr⟩ := decodes out ha
      obtain ⟨u, hu, rfl, -⟩ := (hr m).mp (Prod.mk.inj (Run.ret.inj (hx'.symm.trans hx))).1
      rw [hd] at hu
      exact Option.some.inj hu ▸ hle
    · unfold validateEnd at hspec
      split at hspec
      · obtain ⟨rfl, rfl⟩ := DecompressError.decodedSizeMismatch.inj (Except.error.inj hspec)
        refine ⟨rfl, ‹_›, fun _ => ⟨⟨v, rfl, rfl⟩, fun out ha hout => ?_⟩, fun hgt => by omega⟩
        obtain ⟨r, out', hx, hr⟩ := decodes out ha
        exact ⟨out', by rw [hx, (hr v.length).mpr ⟨v, hd, rfl, hout⟩]⟩
      · cases hspec

/-- The block of one literal, for two bytes. -/
theorem validate_mismatch_literal : ∃ out',
    decompressIntoWithDict ⟨.w64, false, false⟩ [16, 7] [0] [] = .ret (.ok 1, out') :=
  ((validate_mismatch ⟨.w64, false, false⟩ [16, 7] [] 2 2 1 (by decide) (by decide)
    (by decide)).2.2.1 (by decide)).2 [0] (by decide) (by decide)

end Lz4rip.Proof.Decode
