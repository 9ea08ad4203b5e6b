import Lz4rip.Proof.Decode.Body
import Lz4rip.Spec.Block

/-!
# The decoder and the reference

The machine of token steps against the reference decoder (`Spec.decode`). A
length is read as the reference reads it, unless it passes a limit
(`ReadsTo`); a step follows the token that the reference reads (`Follows`,
`tokenStep_follows`); and `machine_spec` is the run: the machine returns what
the reference decodes where that fits, an `OutputTooSmall` with its `expected`
size in between where it does not, and an error where the reference fails.
-/

namespace Lz4rip.Proof.Decode

open Lz4rip.Impl
open Lz4rip.Lz77 (copyBack)
open Run (Visits Returns)
open Spec (readExtension readLength readToken)

/-! ## Lengths -/

/-- What is read agrees with `spec`, the value and the rest of the input,
unless it stops early with a value above `limit`. -/
def ReadsTo (input : List UInt8) (limit : Nat) (res : Except DecompressError (Nat × Nat)) :
    Option (Nat × List UInt8) → Prop
  | some (m, r) => ∃ m' p, res = .ok (m', p) ∧ p ≤ input.length ∧
      (m' = m ∧ input.drop p = r ∨ limit < m' ∧ m' ≤ m ∧ p + r.length ≤ input.length)
  | none => (∃ e, res = .error e) ∨ ∃ m' p, res = .ok (m', p) ∧ p ≤ input.length ∧ limit < m'

/-- A length that does not fit `usize` is refused; it is too long for the limit, and
no length that the reference reads there fits. -/
def Overlong (t : Target) (limit : Nat) (res : Except DecompressError (Nat × Nat))
    (spec : Option (Nat × List UInt8)) : Prop :=
  t.modulus ≤ limit + 255 ∧ res = .error .literalOutOfBounds ∧
    ∀ m r, spec = some (m, r) → t.modulus ≤ m

theorem map_add_map (n k : Nat) (o : Option (Nat × List UInt8)) :
    (o.map fun (m, r) => (k + m, r)).map (fun (m, r) => (n + m, r)) =
      o.map fun (m, r) => (n + k + m, r) := by
  cases o with
  | none => rfl
  | some q => simp only [Option.map_some, Nat.add_assoc]

theorem readIntegerLoop_reads (t : Target) (input : List UInt8) {max : Nat} :
    ∀ {bs : List UInt8} {n pos : Nat}, bs = input.drop pos → n ≤ max →
      ReadsTo input max (readIntegerLoop t max n pos bs)
        ((readExtension bs).map fun (m, r) => (n + m, r)) ∨
      Overlong t max (readIntegerLoop t max n pos bs)
        ((readExtension bs).map fun (m, r) => (n + m, r))
  | [], n, pos, _, _ => .inl (.inl ⟨_, rfl⟩)
  | b :: bs, n, pos, hbs, hn => by
    have hb := b.toNat_lt
    have hbs' : bs = input.drop (pos + 1) := by
      rw [← List.drop_drop, ← hbs, List.drop_one, List.tail_cons]
    have hpos : pos + 1 + bs.length = input.length := by
      have := congrArg List.length hbs
      rw [List.length_cons, List.length_drop] at this
      omega
    rw [readIntegerLoop, readExtension]
    by_cases hfit : n + b.toNat < t.modulus
    · rw [if_pos hfit]
      by_cases hmore : b = EXT_MORE
      · have h255 : b.toNat = 255 := by rw [hmore]; rfl
        rw [if_neg (not_not.mpr hmore), if_pos h255, h255]
        split
        · refine .inl ?_
          cases hx : readExtension bs with
          | none => exact .inr ⟨_, _, rfl, by simp only [EXT_LEN]; omega, by omega⟩
          | some q =>
            have := Spec.length_readExtension hx
            exact ⟨_, _, rfl, by simp only [EXT_LEN]; omega, .inr ⟨by omega, by omega, by
              simp only [EXT_LEN]; omega⟩⟩
        · have hle : n + 255 ≤ max := by omega
          rw [map_add_map]
          exact readIntegerLoop_reads t input hbs' hle
      · have h255 : b.toNat ≠ 255 := fun h => hmore (UInt8.toNat_inj.mp h)
        rw [if_pos hmore, if_neg h255]
        exact .inl ⟨_, _, rfl, by simp only [EXT_LEN]; omega, .inl ⟨rfl, hbs'.symm⟩⟩
    · -- The sum overflows already, whatever comes after this byte.
      rw [if_neg hfit]
      refine .inr ⟨by omega, rfl, fun m r hm => ?_⟩
      obtain ⟨⟨k, r'⟩, hk, he⟩ := Option.map_eq_some_iff.mp hm
      obtain ⟨rfl, rfl⟩ := Prod.mk.inj he
      split at hk
      · obtain ⟨⟨k', r''⟩, -, he'⟩ := Option.map_eq_some_iff.mp hk
        obtain ⟨rfl, rfl⟩ := Prod.mk.inj he'
        omega
      · obtain ⟨rfl, rfl⟩ := Prod.mk.inj (Option.some.inj hk)
        omega

theorem readIntegerBounded_reads (t : Target) (input : List UInt8) (pos max : Nat) :
    ReadsTo input max (readIntegerBounded t input pos max) (readExtension (input.drop pos)) ∨
      Overlong t max (readIntegerBounded t input pos max) (readExtension (input.drop pos)) := by
  have := readIntegerLoop_reads t input (Eq.refl (input.drop pos)) (Nat.zero_le max)
  have he : (fun ((m : Nat), (r : List UInt8)) => (0 + m, r)) = id := by
    funext ⟨m, r⟩
    simp only [Nat.zero_add, id]
  rwa [he, Option.map_id] at this

theorem extendLength_reads (t : Target) (input : List UInt8) (pos base max : Nat) :
    ReadsTo input (base + max) (extendLength t input pos base max)
        ((readExtension (input.drop pos)).map fun (m, r) => (base + m, r)) ∨
      Overlong t (base + max) (extendLength t input pos base max)
        ((readExtension (input.drop pos)).map fun (m, r) => (base + m, r)) := by
  unfold extendLength
  rcases readIntegerBounded_reads t input pos max with h | ⟨hmax, he, hlong⟩
  · cases hx : readExtension (input.drop pos) with
    | none =>
      rw [hx] at h
      rcases h with ⟨e, he⟩ | ⟨m, p, he, hp, hm⟩
      · rw [he]
        exact .inl (.inl ⟨e, rfl⟩)
      · have := readIntegerBounded_le he
        rw [he]
        dsimp only
        by_cases hfit : base + m < t.modulus
        · exact .inl (.inr ⟨_, _, if_pos hfit, hp, by omega⟩)
        · exact .inr ⟨by omega, if_neg hfit, nofun⟩
    | some q =>
      rw [hx] at h
      obtain ⟨m, p, he, hp, hm⟩ := h
      have := readIntegerBounded_le he
      rw [he]
      dsimp only
      by_cases hfit : base + m < t.modulus
      · exact .inl ⟨_, _, if_pos hfit, hp,
          hm.imp (fun ⟨e₁, e₂⟩ => ⟨by rw [e₁], e₂⟩) fun h => by omega⟩
      · refine .inr ⟨by omega, if_neg hfit, fun k r hk => ?_⟩
        obtain ⟨rfl, rfl⟩ := Prod.mk.inj (Option.some.inj hk)
        rcases hm with ⟨rfl, -⟩ | ⟨-, hle, -⟩
        · omega
        · omega
  · rw [he]
    refine .inr ⟨by omega, rfl, fun m r hm => ?_⟩
    obtain ⟨⟨k, r'⟩, hk, heq⟩ := Option.map_eq_some_iff.mp hm
    obtain ⟨rfl, rfl⟩ := Prod.mk.inj heq
    have := hlong k r' hk
    omega

theorem readLiteralLength_reads (t : Target) {input : List UInt8} {pos : Nat} (token : UInt8)
    (max : Nat) (hp : pos ≤ input.length) :
    ReadsTo input (15 + max) (readLiteralLength t input pos token max)
        (readLength (token.toNat / 16) (input.drop pos)) ∨
      Overlong t (15 + max) (readLiteralLength t input pos token max)
        (readLength (token.toNat / 16) (input.drop pos)) := by
  unfold readLiteralLength readLength
  simp only [RUN_MASK]
  split
  · rename_i h
    rw [h]
    exact extendLength_reads t input pos 15 max
  · exact .inl ⟨_, _, rfl, hp, .inl ⟨rfl, rfl⟩⟩

theorem readMatchLength_reads (t : Target) {input : List UInt8} {pos : Nat} (token : UInt8)
    (max : Nat) (hp : pos ≤ input.length) :
    ReadsTo input (19 + max) (readMatchLength t input pos token max)
        ((readLength (token.toNat % 16) (input.drop pos)).map fun (n, r) => (4 + n, r)) ∨
      Overlong t (19 + max) (readMatchLength t input pos token max)
        ((readLength (token.toNat % 16) (input.drop pos)).map fun (n, r) => (4 + n, r)) := by
  unfold readMatchLength readLength
  simp only [MINMATCH, ML_MASK]
  by_cases h : token.toNat % 16 = 15
  · rw [h, if_pos rfl, if_pos rfl, Option.map_map]
    have := extendLength_reads t input pos 19 max
    have he : (fun (n, r) => (4 + n, r)) ∘ (fun ((m : Nat), (r : List UInt8)) => (15 + m, r)) =
        fun (m, r) => (19 + m, r) := by
      funext ⟨m, r⟩
      simp only [Function.comp, ← Nat.add_assoc, Nat.reduceAdd]
    rwa [he]
  · rw [if_neg (by omega), if_neg h]
    exact .inl ⟨_, _, rfl, hp, .inl ⟨rfl, rfl⟩⟩

/-- A length within a limit that is not close to `usize::MAX` fits. -/
theorem readLiteralLength_spec {t : Target} {input : List UInt8} {pos max : Nat} (token : UInt8)
    (ht : max + 270 < t.modulus) (hp : pos ≤ input.length) :
    ReadsTo input (15 + max) (readLiteralLength t input pos token max)
      (readLength (token.toNat / 16) (input.drop pos)) :=
  (readLiteralLength_reads t token max hp).resolve_right fun h => by
    have := h.1
    omega

theorem readMatchLength_spec {t : Target} {input : List UInt8} {pos max : Nat} (token : UInt8)
    (ht : max + 274 < t.modulus) (hp : pos ≤ input.length) :
    ReadsTo input (19 + max) (readMatchLength t input pos token max)
      ((readLength (token.toNat % 16) (input.drop pos)).map fun (n, r) => (4 + n, r)) :=
  (readMatchLength_reads t token max hp).resolve_right fun h => by
    have := h.1
    omega

/-! ## Tokens -/

section

variable {t : Target} {dict input : List UInt8} {cap : Nat}

/-- The output is too small, and is told a size that the block does need. -/
def TooSmall (cap n : Nat) (step : Step) : Prop :=
  ∃ e w, step = .done (.error (.outputTooSmall e cap), w) ∧ cap < e ∧ e ≤ n

/-- The step follows the token that the reference reads. -/
def Follows (dict input : List UInt8) (cap : Nat) (w : List UInt8) (step : Step) :
    Option Spec.Token → Prop
  | none => ∃ e w', step = .done (.error e, w')
  | some (.last l) =>
    if w.length + l.length ≤ cap then step = .done (.ok (), w ++ l)
    else TooSmall cap (w.length + l.length) step
  | some (.sequence s rest) =>
    match s.apply (dict ++ w) with
    | none => ∃ e w', step = .done (.error e, w')
    | some v =>
      if w.length + s.size ≤ cap then
        ∃ ip, step = .next (ip, v.drop dict.length) ∧ ip ≤ input.length ∧ input.drop ip = rest
      else TooSmall cap (w.length + s.size) step

/-- A step that needs more room than there is, for some of the token. -/
theorem Follows.of_tooSmall {w : List UInt8} {step : Step} {tok : Option Spec.Token} {n : Nat}
    (h : TooSmall cap n step) (hlast : ∀ l, tok = some (.last l) → n ≤ w.length + l.length)
    (hseq : ∀ s r, tok = some (.sequence s r) → n ≤ w.length + s.size) :
    Follows dict input cap w step tok := by
  obtain ⟨e, w', rfl, hlt, hle⟩ := h
  unfold Follows
  split
  · exact ⟨_, _, rfl⟩
  · rename_i l
    have := hlast l rfl
    rw [if_neg (by omega)]
    exact ⟨_, _, rfl, hlt, by omega⟩
  · rename_i s r
    have := hseq s r rfl
    split
    · exact ⟨_, _, rfl⟩
    · rw [if_neg (by omega)]
      exact ⟨_, _, rfl, hlt, by omega⟩

theorem Follows.of_error {w : List UInt8} {e : DecompressError} {v : List UInt8}
    {s : Spec.Sequence} {rest : List UInt8} (h : s.apply (dict ++ w) = none) :
    Follows dict input cap w (.done (.error e, v)) (some (.sequence s rest)) := by
  unfold Follows
  simp only [h]
  exact ⟨_, _, rfl⟩

theorem tooSmall_of_lt {w v : List UInt8} {n : Nat} (hf : Fits t input cap) (h : cap < w.length + n) :
    TooSmall cap (w.length + n)
      (.done (.error (.outputTooSmall (min (w.length + n) t.usizeMax) cap), v)) := by
  have := hf.le
  exact ⟨_, _, rfl, by rw [Target.usizeMax]; omega, Nat.min_le_left _ _⟩

/-- A token's match, `l` being its literals. -/
theorem matchStep_follows (dict : List UInt8) {ip : Nat} (token : UInt8) {lo hi : UInt8}
    (w l : List UInt8) {bs : List UInt8}
    (hf : Fits t input cap) (hbs : input.drop ip = lo :: hi :: bs) :
    Follows dict input cap w (matchStep t dict input cap token ip (w ++ l))
      ((readLength (token.toNat % 16) bs).map fun (n, rest) =>
        .sequence ⟨l, lo.toNat + 256 * hi.toNat, 4 + n⟩ rest) := by
  have hfit := hf.le
  have hlen : ip + 2 ≤ input.length := by
    have := congrArg List.length hbs
    simp only [List.length_drop, List.length_cons] at this
    omega
  have hdrop : input.drop (ip + 2) = bs := by rw [← List.drop_drop, hbs, List.drop_succ_cons,
    List.drop_succ_cons, List.drop_zero]
  have hle : leNat [lo, hi] = lo.toNat + 256 * hi.toNat := by
    simp only [leNat, Nat.mul_zero, Nat.add_zero]
  unfold matchStep
  simp only [readOffset, hbs, hle, OFFSET_LEN]
  have hm := readMatchLength_spec token (show cap + 274 < t.modulus by omega) hlen
  rw [hdrop] at hm
  by_cases h₀ : lo.toNat + 256 * hi.toNat = 0
  · rw [if_pos h₀]
    cases readLength (token.toNat % 16) bs with
    | none => exact ⟨_, _, rfl⟩
    | some q =>
      exact .of_error (by simp only [Lz77.Sequence.apply, h₀, Nat.lt_irrefl, false_and, if_false])
  · simp only [if_neg h₀]
    cases hx : readLength (token.toNat % 16) bs with
    | none =>
      rw [hx] at hm
      rcases hm with ⟨e, he⟩ | ⟨m, p, he, -, hlt⟩
      · rw [he]
        exact ⟨_, _, rfl⟩
      · simp only [he]
        rw [if_pos (by omega)]
        exact ⟨_, _, rfl⟩
    | some q =>
      obtain ⟨n, rest⟩ := q
      rw [hx] at hm
      obtain ⟨m, p, he, hp, hm⟩ := hm
      simp only [he, Option.map_some]
      by_cases hc : cap < (w ++ l).length + m
      · rw [if_pos hc]
        refine .of_tooSmall (tooSmall_of_lt hf hc) (fun _ h => by cases h) fun s r h => ?_
        obtain ⟨rfl, rfl⟩ := Spec.Token.sequence.inj (Option.some.inj h)
        rw [List.length_append, Lz77.Sequence.size]
        dsimp only at hm ⊢
        omega
      · rw [if_neg hc]
        rw [List.length_append] at hc
        obtain ⟨rfl, rfl⟩ := hm.resolve_right (by omega)
        by_cases ho : dict.length + (w ++ l).length < lo.toNat + 256 * hi.toNat
        · rw [if_pos ho]
          refine .of_error ?_
          rw [Lz77.Sequence.apply, if_neg]
          simp only [List.length_append] at ho ⊢
          omega
        · rw [if_neg ho]
          have ha : Lz77.Sequence.apply ⟨l, lo.toNat + 256 * hi.toNat, 4 + n⟩ (dict ++ w) =
              some (copyBack (dict ++ (w ++ l)) (lo.toNat + 256 * hi.toNat) (4 + n)) := by
            rw [Lz77.Sequence.apply, if_pos, List.append_assoc]
            simp only [List.length_append] at ho ⊢
            omega
          unfold Follows
          simp only [ha]
          rw [if_pos (by rw [Lz77.Sequence.size]; dsimp only; omega)]
          exact ⟨p, rfl, hp, rfl⟩

/-- A step of the machine follows the token that the reference reads there. -/
theorem tokenStep_follows (dict : List UInt8) (ip : Nat) (w : List UInt8) (hf : Fits t input cap) :
    Follows dict input cap w (tokenStep t dict input cap (ip, w)) (readToken (input.drop ip)) := by
  have hfit := hf.le
  unfold tokenStep
  dsimp only
  cases htok : input[ip]? with
  | none =>
    rw [List.drop_eq_nil_of_le (List.getElem?_eq_none_iff.mp htok)]
    exact ⟨_, _, rfl⟩
  | some token =>
    obtain ⟨hlt, rfl⟩ := List.getElem?_eq_some_iff.mp htok
    rw [List.drop_eq_getElem_cons hlt, readToken]
    generalize input[ip] = token
    have hm := readLiteralLength_spec token (show cap + 270 < t.modulus by omega) hlt
    simp only [TOKEN_LEN]
    cases hx : readLength (token.toNat / 16) (input.drop (ip + 1)) with
    | none =>
      rw [hx] at hm
      rcases hm with ⟨e, he⟩ | ⟨m, p, he, -, hgt⟩
      · rw [he]
        exact ⟨_, _, rfl⟩
      · simp only [he]
        split
        · exact ⟨_, _, rfl⟩
        · rw [if_pos (by omega)]
          exact ⟨_, _, rfl⟩
    | some q =>
      obtain ⟨n, r⟩ := q
      rw [hx] at hm
      obtain ⟨m, p, he, hp, hm⟩ := hm
      simp only [he]
      by_cases hn : r.length < n
      · -- The literals run past the end of the input.
        rw [if_pos hn]
        by_cases hi : input.length < p + m
        · rw [if_pos hi]
          exact ⟨_, _, rfl⟩
        · rw [if_neg hi, if_pos]
          · exact ⟨_, _, rfl⟩
          · rcases hm with ⟨rfl, rfl⟩ | ⟨hgt, -, -⟩
            · rw [List.length_drop] at hn
              omega
            · omega
      · rw [if_neg hn]
        have hi : ¬ input.length < p + m := by
          rcases hm with ⟨rfl, rfl⟩ | ⟨-, hle, hr⟩
          · rw [List.length_drop] at hn
            omega
          · omega
        rw [if_neg hi]
        by_cases hc : cap < w.length + m
        · have hmn : m ≤ n := by
            rcases hm with ⟨rfl, -⟩ | ⟨-, hle, -⟩
            · exact Nat.le_refl m
            · exact hle
          have hlit : (r.take n).length = n := by rw [List.length_take]; omega
          rw [if_pos hc]
          refine .of_tooSmall (tooSmall_of_lt hf hc) (fun l h => ?_) fun s r' h => ?_
          · split at h
            · obtain rfl := Spec.Token.last.inj (Option.some.inj h)
              omega
            · cases h
            · split at h
              · cases h
              · cases h
          · split at h
            · cases h
            · cases h
            · split at h
              · cases h
              · obtain ⟨rfl, -⟩ := Spec.Token.sequence.inj (Option.some.inj h)
                rw [Lz77.Sequence.size]
                dsimp only
                omega
        · rw [if_neg hc]
          obtain ⟨rfl, rfl⟩ := hm.resolve_right (by omega)
          have hl : (input.drop p).take m = seg input p m := rfl
          have hlit : (seg input p m).length = m := length_seg (by omega)
          rw [List.drop_drop, hl]
          cases hd : input.drop (p + m) with
          | nil =>
            rw [if_pos (List.drop_eq_nil_iff.mp hd)]
            simp only [Follows]
            rw [if_pos (by omega)]
            trivial
          | cons lo bs =>
            have hlen := congrArg List.length hd
            rw [List.length_drop, List.length_cons] at hlen
            rw [if_neg (by omega)]
            cases bs with
            | nil =>
              simp only [matchStep, readOffset, hd]
              exact ⟨_, _, rfl⟩
            | cons hi bs =>
              have := matchStep_follows dict token w (seg input p m) hf hd
              dsimp only
              cases hx : readLength (token.toNat % 16) bs with
              | none => rwa [hx] at this
              | some q => rwa [hx] at this

/-- What the machine returns, for what the reference decodes to with the
history in front. -/
def Decodes (dict : List UInt8) (cap : Nat) (r : Except DecompressError Unit × List UInt8) :
    Option (List UInt8) → Prop
  | none => ∃ e, r.1 = .error e
  | some v =>
    if v.length ≤ dict.length + cap then r = (.ok (), v.drop dict.length)
    else ∃ e, r.1 = .error (.outputTooSmall e cap) ∧ cap < e ∧ dict.length + e ≤ v.length

/-- The machine returns what the reference decodes, from any state. -/
theorem machine_spec (dict : List UInt8) (hf : Fits t input cap) :
    ∀ (n ip : Nat) (w : List UInt8), ip ≤ input.length → w.length ≤ cap → input.length - ip < n →
      ∃ r, Returns (machine t dict input cap) (ip, w) r ∧
        Decodes dict cap r (Spec.decodeFrom (dict ++ w) n (input.drop ip))
  | n + 1, ip, w, hip, hw, hn => by
    have hstep := tokenStep_follows dict ip w hf
    have done : ∀ {r}, tokenStep t dict input cap (ip, w) = .done r →
        Returns (machine t dict input cap) (ip, w) r := fun h => .done (congrArg Run.ret h)
    rw [Spec.decodeFrom]
    cases htok : readToken (input.drop ip) with
    | none =>
      rw [htok] at hstep
      obtain ⟨e, w', h⟩ := hstep
      exact ⟨_, done h, e, rfl⟩
    | some tok =>
      rw [htok] at hstep
      cases tok with
      | last l =>
        simp only [Follows] at hstep
        have hl : (dict ++ w ++ l).length = dict.length + (w.length + l.length) := by
          rw [List.length_append, List.length_append, Nat.add_assoc]
        unfold Decodes
        dsimp only
        split at hstep
        · refine ⟨_, done hstep, ?_⟩
          rw [if_pos (by omega), List.append_assoc, List.drop_left]
        · obtain ⟨e, w', h, hlt, hle⟩ := hstep
          refine ⟨_, done h, ?_⟩
          rw [if_neg (by omega)]
          exact ⟨e, rfl, hlt, by omega⟩
      | sequence s rest =>
        simp only [Follows] at hstep
        dsimp only
        cases hs : s.apply (dict ++ w) with
        | none =>
          simp only [hs] at hstep
          obtain ⟨e, w', h⟩ := hstep
          exact ⟨_, done h, e, rfl⟩
        | some v =>
          simp only [hs] at hstep
          have hl := Lz77.Sequence.length_apply hs
          have ht := Lz77.Sequence.take_apply hs
          rw [List.length_append] at hl
          rw [Option.bind_some]
          split at hstep
          · obtain ⟨ip', h, hip', hrest⟩ := hstep
            have hlt := tokenStep_next h
            obtain ⟨r, hr, hd⟩ := machine_spec dict hf n ip' (v.drop dict.length) hip'
              (by rw [List.length_drop]; omega) (by dsimp only at hlt; omega)
            rw [Spec.append_drop_of_take ht, hrest] at hd
            exact ⟨r, .next (congrArg Run.ret h) hr, hd⟩
          · obtain ⟨e, w', h, hgt, hle⟩ := hstep
            refine ⟨_, done h, ?_⟩
            cases hv : Spec.decodeFrom v n rest with
            | none => exact ⟨_, rfl⟩
            | some v' =>
              have := Spec.length_decodeFrom hv
              unfold Decodes
              dsimp only
              rw [if_neg (by omega)]
              exact ⟨e, rfl, hgt, by omega⟩

end

end Lz4rip.Proof.Decode
