import Lz4rip.Proof.Decode.Fast

/-!
# The decoder

`decompress_body`, with or without its fast loop, comes to what the machine of
token steps returns (`decompressBodyWith_ok`): the fast loop visits states of
the machine, and the general path takes one step from where it leaves.
-/

namespace Lz4rip.Proof.Decode

open Lz4rip.Impl
open Lz4rip.Lz77 (copyBack)
open Run (Visits Returns)

/-- The decoder without its buffer, as the body of a loop. -/
def machine (t : Target) (dict input : List UInt8) (cap : Nat) (s : Nat × List UInt8) : Run Step :=
  .ret (tokenStep t dict input cap s)

section

variable {t : Target} {dict input : List UInt8} {cap : Nat}

theorem copyBack_keeps {w : List UInt8} {off n : Nat} :
    w <+: (copyBack (dict ++ w) off n).drop dict.length := by
  refine List.prefix_iff_eq_take.mpr ?_
  have := Lz77.take_copyBack (dict ++ w) off n
  rw [List.length_append] at this
  rw [List.take_drop, this, List.drop_left]

/-- What is written after a step. -/
def written : Step → List UInt8
  | .next s => s.2
  | .done r => r.2

theorem matchStep_keeps {ip : Nat} {token : UInt8} {w : List UInt8} :
    w <+: written (matchStep t dict input cap token ip w) := by
  unfold matchStep
  split
  · exact List.prefix_refl w
  · split
    · exact List.prefix_refl w
    · split
      · exact List.prefix_refl w
      · split
        · exact List.prefix_refl w
        · exact copyBack_keeps

/-- A step keeps what is written. -/
theorem tokenStep_keeps (t : Target) (dict input : List UInt8) (cap : Nat) (s : Nat × List UInt8) :
    s.2 <+: written (tokenStep t dict input cap s) := by
  unfold tokenStep
  split
  · exact List.prefix_refl _
  · split
    · exact List.prefix_refl _
    · split
      · exact List.prefix_refl _
      · split
        · exact List.prefix_refl _
        · split
          · exact List.prefix_append _ _
          · exact (List.prefix_append _ _).trans matchStep_keeps

theorem machine_keeps {s : Nat × List UInt8} {r : Except DecompressError Unit × List UInt8}
    (h : Returns (machine t dict input cap) s r) : s.2 <+: r.2 := by
  induction h with
  | @done s r he =>
    have := tokenStep_keeps t dict input cap s
    rwa [Run.ret.inj he] at this
  | @next s s' r he _ ih =>
    have := tokenStep_keeps t dict input cap s
    rw [Run.ret.inj he] at this
    exact this.trans ih

end

section

variable {t : Target} {input dict : List UInt8} {useDict : Bool} {cap : Nat}

/-- Where the fast loop is left: at a state of the machine, or with its
result. -/
theorem fastLoop_ok {ip : Nat} {s : OutSink} {w : List UInt8} (hf : Fits t input cap)
    (hi : input.length ≤ U32_MAX) (ho : cap ≤ U32_MAX) (hip : ip ≤ input.length)
    (h : Holds cap s w) :
    (Run.loop (fastToken t useDict input dict) (input.length + 1) (ip, s)).WP fun
      | .leave ip' s' => ∃ w', Visits (machine t (history useDict dict) input cap) (ip, w) (ip', w') ∧
          Holds cap s' w' ∧ ip ≤ ip' ∧ ip' ≤ input.length
      | .finished s' => ∃ w',
          Returns (machine t (history useDict dict) input cap) (ip, w) (.ok (), w') ∧
            Holds cap s' w' := by
  refine Run.WP.loop (fun s => ∃ w', Visits (machine t (history useDict dict) input cap) (ip, w)
      (s.1, w') ∧ Holds cap s.2 w' ∧ ip ≤ s.1 ∧ s.1 ≤ input.length) (fun s => input.length - s.1)
    (fun s' hI => ?_) _ _ ⟨w, .start, h, Nat.le_refl _, hip⟩ (by dsimp only; omega)
  obtain ⟨ip', s'⟩ := s'
  obtain ⟨w', hv, h', hle, hip'⟩ := hI
  refine (fastToken_ok hf hi ho hip' h').mono fun r hr => ?_
  cases hr with
  | next hstep h'' =>
    have := tokenStep_next hstep
    exact ⟨⟨_, hv.step (congrArg Run.ret hstep), h'', by dsimp only at *; omega, this.2⟩,
      by dsimp only at *; omega⟩
  | leave h'' => exact ⟨w', hv, h'', hle, hip'⟩
  | finished hstep h'' => exact ⟨_, hv.returns (.done (congrArg Run.ret hstep)), h''⟩

theorem decompressStep_ok {fast : Bool} {ip : Nat} {s : OutSink} {w : List UInt8}
    (hf : Fits t input cap) (hfast : fast = true → input.length ≤ U32_MAX ∧ cap ≤ U32_MAX)
    (hip : ip ≤ input.length) (h : Holds cap s w) :
    (decompressStep t useDict fast input dict (ip, s)).WP fun
      | .next s' => ∃ w', Visits (machine t (history useDict dict) input cap) (ip, w) (s'.1, w') ∧
          Holds cap s'.2 w' ∧ ip < s'.1 ∧ s'.1 ≤ input.length
      | .done r => ∃ w', Returns (machine t (history useDict dict) input cap) (ip, w) (r.1, w') ∧
          Holds cap r.2 w' := by
  -- One token of the general path, from where the fast loop is left.
  have general : ∀ {ip' s' w'}, Visits (machine t (history useDict dict) input cap) (ip, w)
      (ip', w') → Holds cap s' w' → ip ≤ ip' →
      (generalToken t useDict input dict ip' s').WP fun
        | .next s' => ∃ w', Visits (machine t (history useDict dict) input cap) (ip, w) (s'.1, w') ∧
            Holds cap s'.2 w' ∧ ip < s'.1 ∧ s'.1 ≤ input.length
        | .done r => ∃ w', Returns (machine t (history useDict dict) input cap) (ip, w) (r.1, w') ∧
            Holds cap r.2 w' := fun {ip' s' w'} hv h' hle => by
    refine (generalToken_ok hf h').mono fun r hr => ?_
    generalize hstep : tokenStep t (history useDict dict) input cap (ip', w') = step at hr
    cases hr with
    | next h'' =>
      have := tokenStep_next hstep
      exact ⟨_, hv.step (congrArg Run.ret hstep), h'', by dsimp only at *; omega, this.2⟩
    | done h'' => exact ⟨_, hv.returns (.done (congrArg Run.ret hstep)), h''⟩
  unfold decompressStep
  cases fast with
  | false => exact general .start h (Nat.le_refl _)
  | true =>
    obtain ⟨hi, ho⟩ := hfast rfl
    simp only [if_true, Run.WP_bind]
    refine (fastLoop_ok hf hi ho hip h).mono fun exit hexit => ?_
    cases exit with
    | leave ip' s' =>
      obtain ⟨w', hv, h', hle, -⟩ := hexit
      exact general hv h' hle
    | finished s' => exact hexit

/-- The decoder comes to what the machine returns: the result, the position
and the bytes written. -/
theorem decompressBodyWith_ok (useDict fast : Bool) (dict : List UInt8) (s : OutSink)
    (hf : Fits t input s.output.length)
    (hfast : fast = true → input.length ≤ U32_MAX ∧ s.output.length ≤ U32_MAX)
    (hpos : s.pos ≤ s.output.length) :
    (decompressBodyWith t useDict fast input s dict).WP fun (r, s') => ∃ e w,
      Returns (machine t (history useDict dict) input s.output.length)
        (0, s.output.take s.pos) (e, w) ∧
        Holds s.output.length s' w ∧ s.pos ≤ w.length ∧ r = e.map fun _ => w.length - s.pos := by
  unfold decompressBodyWith
  rw [Run.WP_bind, Run.WP_assert]
  refine ⟨hpos, Run.WP_bind.mpr <| Run.WP.mono (Run.WP.loop (fun s' => ∃ w',
      Visits (machine t (history useDict dict) input s.output.length) (0, s.output.take s.pos)
        (s'.1, w') ∧ Holds s.output.length s'.2 w' ∧ s'.1 ≤ input.length)
    (fun s' => input.length - s'.1)
    (Q := fun r => ∃ w', Returns (machine t (history useDict dict) input s.output.length)
        (0, s.output.take s.pos) (r.1, w') ∧ Holds s.output.length r.2 w')
    (fun s' hI => ?_) _ _ ⟨_, .start, .of_pos hpos, Nat.zero_le _⟩ (by dsimp only; omega))
    fun r hr => ?_⟩
  · obtain ⟨ip, s'⟩ := s'
    obtain ⟨w', hv, h', hip⟩ := hI
    refine (decompressStep_ok hf hfast hip h').mono fun r hr => ?_
    cases r with
    | next s'' =>
      obtain ⟨w'', hv', h'', hlt, hle⟩ := hr
      exact ⟨⟨w'', hv.trans hv', h'', hle⟩, by dsimp only at *; omega⟩
    | done r =>
      obtain ⟨w'', hv', h''⟩ := hr
      exact ⟨w'', hv.returns hv', h''⟩
  · obtain ⟨e, s'⟩ := r
    obtain ⟨w, hret, h⟩ := hr
    have hp := h.pos
    have hle : s.pos ≤ w.length := by
      have := (machine_keeps hret).length_le
      rw [List.length_take] at this
      dsimp only at *
      omega
    cases e with
    | error e => exact ⟨.error e, w, hret, h, hle, rfl⟩
    | ok u =>
      simp only [Run.WP_bind, Run.WP_sub, Run.pure_eq, Run.WP_ret]
      dsimp only at hp
      exact ⟨by omega, .ok u, w, hret, h, hle, by rw [hp]; rfl⟩

/-- The decoder of the crate, whose fast loop runs on buffers below 4 GiB. -/
theorem decompressInternal_ok (useDict : Bool) (dict : List UInt8) (s : OutSink)
    (hf : Fits t input s.output.length)
    (hpos : s.pos ≤ s.output.length) :
    (decompressInternal t useDict input s dict).WP fun (r, s') => ∃ e w,
      Returns (machine t (history useDict dict) input s.output.length)
        (0, s.output.take s.pos) (e, w) ∧
        Holds s.output.length s' w ∧ s.pos ≤ w.length ∧ r = e.map fun _ => w.length - s.pos := by
  simp only [decompressInternal, decompressBody, Run.WP_bind]
  exact decompressBodyWith_ok useDict _ dict s hf (fun h => of_decide_eq_true h) hpos

end

end Lz4rip.Proof.Decode
