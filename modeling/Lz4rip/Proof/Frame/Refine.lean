import Lz4rip.Proof.Frame.Decoder
import Lz4rip.Proof.Frame.Naive

/-!
# The calls of the frame decoder

`Rep` is what the naive decoder's state says of the decoder's. Every call keeps
it and gives the same reply (`call_refines`), so any calls give the same replies
(`run_refines`).
-/

namespace Lz4rip.Proof.Frame

open Lz4rip.Impl
open Lz4rip.Impl.FrameDecoder
open Lz4rip.Proc (Refines)
open Spec (Frame Settings Naive blockLimit)

variable {X : XxHash32} {ρ : Type} [Read ρ]

/-- The decoder is in the state that the naive decoder is in. -/
structure Rep (S : Settings) (d : FrameDecoder X ρ) (s : Naive ρ) : Prop
    extends Matches S d s.r s.output where
  start : d.dstStart + s.pending.length = d.dstEnd
  le : d.dstEnd ≤ d.dst.length
  block : seg d.dst d.dstStart s.pending.length = s.pending
  closed : s.frame = none → d.currentFrameInfo = none
  opened : ∀ f, s.frame = some f → Open f d ∧ Windowed f (between f) d ∧ f.content.length ≤ s.output
  bound : s.output < S.target.modulus

/-- The decoder, and nothing to be consumed. -/
structure Idle (S : Settings) (d : FrameDecoder X ρ) (s : Naive ρ) : Prop extends Rep S d s where
  empty : s.pending = []

omit [Read ρ] in
/-- No frame is open any more. -/
theorem Drained.idle {S : Settings} {d : FrameDecoder X ρ} {s : Naive ρ}
    (h : Drained S d s.r s.output) (hc : d.currentFrameInfo = none) (he : s.pending = [])
    (hb : s.output < S.target.modulus) : Idle S d { s with frame := none } :=
  ⟨⟨h.toMatches, by rw [he]; exact h.start, h.le, by rw [he]; rfl, fun _ => hc, nofun, hb⟩, he⟩

omit [Read ρ] in
theorem Idle.drained {S : Settings} {d : FrameDecoder X ρ} {s : Naive ρ} (h : Idle S d s) :
    Drained S d s.r s.output :=
  ⟨h.toMatches, by have := h.start; rwa [h.empty] at this, h.le⟩

omit [Read ρ] in
theorem Rep.withReader {S : Settings} {d : FrameDecoder X ρ} {s : Naive ρ} (h : Rep S d s) (r : ρ) :
    Rep S { d with r := r } { s with r := r } where
  r := rfl
  dict := h.dict
  dictId := h.dictId
  maxOutput := h.maxOutput
  output := h.output
  start := h.start
  le := h.le
  block := h.block
  closed := h.closed
  opened f hf :=
    have ⟨ho, hw, hc⟩ := h.opened f hf
    ⟨⟨ho.info, ho.size, ho.hash, ho.len⟩, ⟨hw.ext, hw.stop, hw.pos, hw.recent, hw.older, hw.region⟩,
      hc⟩
  bound := h.bound

omit [Read ρ] in
/-- A frame that starts. -/
theorem Idle.open {S : Settings} {d : FrameDecoder X ρ} {s : Naive ρ} (h : Idle S d s)
    {info : FrameInfo} (hi : info.blockSize ≠ .auto) (contentReserve : Option Nat) :
    Idle S { d with
      contentReserve, currentFrameInfo := some info, contentHasher := X.withSeed 0, contentLen := 0
      extDictLen := 0, dstStart := 0, dstEnd := 0 } { s with frame := some ⟨info, []⟩ } where
  r := h.r
  dict := h.dict
  dictId := h.dictId
  maxOutput := h.maxOutput
  output := h.output
  start := by dsimp only; rw [h.empty]; rfl
  le := Nat.zero_le _
  block := by dsimp only; rw [h.empty]; rfl
  closed := nofun
  opened f hf := by
    obtain rfl := Option.some.inj hf
    exact ⟨⟨rfl, hi, fun _ => rfl, rfl⟩,
      ⟨rfl, rfl, Nat.zero_le _, rfl, rfl, fun hne => absurd rfl hne⟩, Nat.zero_le _⟩
  bound := h.bound
  empty := h.empty

omit [Read ρ] in
theorem onReader_both {α : Type} {x : Reads ρ α} {d : FrameDecoder X ρ} {s : Naive ρ}
    {Q : α → ρ → Prop} {E : Error → ρ → Prop} (hr : d.r = s.r) (h : Proc.WP Q E (x s.r)) :
    Refines (fun a d' b s' => a = b ∧ ∃ r, d' = { d with r := r } ∧ s' = { s with r := r } ∧ Q a r)
      (fun d' s' => ∃ r, d' = { d with r := r } ∧ s' = { s with r := r })
      (onReader x d) (Naive.onReader x s) := by
  rw [onReader, Naive.onReader, hr]
  obtain ⟨a, r', hx, hq⟩ | ⟨e, r', hx, -⟩ := Proc.WP_iff.mp h
  · rw [hx]
    exact .ok ⟨rfl, r', rfl, rfl, hq⟩
  · rw [hx]
    exact .error ⟨r', rfl, rfl⟩

variable [LawfulRead ρ]

/-- The header of the next frame. -/
theorem readFrameInfo_refines {S : Settings} {d : FrameDecoder X ρ} {s : Naive ρ} (h : Idle S d s)
    (hf : s.frame = none) :
    Refines (fun n d' q s' => Idle S d' s' ∧ s'.frame = q ∧ (n = 0 ↔ q = none)) (Idle S)
      (readFrameInfo S.target d) (Naive.openFrame X S s) := by
  have idle : ∀ r, Idle S { d with r := r } { s with r := r } := fun r =>
    ⟨h.toRep.withReader r, h.empty⟩
  unfold readFrameInfo Naive.openFrame
  rw [Proc.bind_run Proc.get, Proc.get_run, Run.ret_bind, Proc.andThen_ok]
  simp only [hf]
  refine (onReader_both h.r (readHeader_ok X s.r)).bind ?_ ?_
  · rintro a _ _ _ ⟨rfl, r, rfl, rfl, -, hq⟩
    cases a with
    | none => exact .ok ⟨idle r, hf, iff_of_true rfl rfl⟩
    | some p =>
      obtain ⟨hsize, hn⟩ := hq p.1 p.2 rfl
      simp only [Proc.bind_run, Proc.get_run, Run.ret_bind, Proc.andThen_ok, Proc.ofExcept_run,
        ← h.dictId]
      cases checkDictId p.1.dictId d.expectedDictId with
      | error e => exact .error (idle r)
      | ok u => exact .ok ⟨(idle r).open hsize _, rfl, iff_of_false hn (Option.some_ne_none _)⟩
  · rintro _ _ ⟨r, rfl, rfl⟩
    exact idle r

theorem openFrame_refines {S : Settings} {d : FrameDecoder X ρ} {s : Naive ρ} (h : Idle S d s) :
    Refines (fun n d' q s' => Idle S d' s' ∧ s'.frame = q ∧ (n = 0 ↔ q = none)) (Idle S)
      (openFrame S.target d) (Naive.openFrame X S s) := by
  unfold openFrame
  rw [Proc.bind_run, Proc.get_run, Run.ret_bind, Proc.andThen_ok, Proc.ite_run]
  cases hf : s.frame with
  | none =>
    simp only [h.closed hf, Option.isNone_none, if_true]
    exact readFrameInfo_refines h hf
  | some f =>
    obtain ⟨ho, -⟩ := h.opened f hf
    simp only [ho.info, Option.isNone_some, Bool.false_eq_true, if_false]
    unfold Naive.openFrame
    rw [Proc.bind_run, Proc.get_run, Run.ret_bind, Proc.andThen_ok]
    simp only [hf]
    exact .ok ⟨h, hf, iff_of_false (by decide) nofun⟩

omit [Read ρ] [LawfulRead ρ] in
/-- A block is decoded. -/
theorem Holds.rep {S : Settings} {f : Frame} {b : List UInt8} {d : FrameDecoder X ρ} {r : ρ}
    {output : Nat} (h : Holds S f b d r output) (hin : InOutput S f b output) :
    Rep S d ⟨r, some (f.push b), b, output⟩ where
  r := h.r
  dict := h.dict
  dictId := h.dictId
  maxOutput := h.maxOutput
  output := h.output
  start := h.start
  le := h.le
  block := h.block
  closed := nofun
  opened g hg := by
    obtain rfl := Option.some.inj hg
    refine ⟨h.toOpen, h.toWindowed, ?_⟩
    rw [Frame.push_content, List.length_append]
    exact hin.1
  bound := hin.2

/-- One block, or the end of a frame. -/
theorem readMoreStep_refines {S : Settings} {d : FrameDecoder X ρ} {s : Naive ρ} (limited : Bool)
    (hwhy : S.why = blockError S.target S.dict) (h : Idle S d s) :
    Refines (Proc.IterBoth (fun _ d' _ s' => Idle S d' s')
        fun n d' m s' => n = m ∧ Rep S d' s')
      (Idle S) (readMoreStep S.target limited () d) (Naive.readMoreStep X S () s) := by
  refine (openFrame_refines h).bind ?_ fun _ _ h => h
  rintro n d q s ⟨h, hf, hn⟩
  cases q with
  | none =>
    rw [if_pos (hn.mpr rfl)]
    exact .ok ⟨rfl, h.toRep⟩
  | some f =>
    rw [if_neg (fun hz => Option.some_ne_none f (hn.mp hz))]
    obtain ⟨ho, hw, hle⟩ := h.opened f hf
    dsimp only
    rw [Naive.blockStep, Proc.bind_run Proc.get, Proc.get_run, Run.ret_bind, Proc.andThen_ok]
    obtain ⟨⟨x, d'⟩, ⟨y, r'⟩, hx, hy, hb⟩ :=
      readBlock_refines limited hwhy ho hw h.drained hle
    simp only [Proc.bind_run, Proc.attempt_run, Naive.onReader, hx, hy, Run.ret_bind,
      Proc.andThen_ok]
    rcases x with e | n
    · rcases y with e' | q
      · obtain ⟨rfl, hd⟩ := hb
        exact .error (Drained.idle (d := { d' with currentFrameInfo := none })
          (s := { s with r := r' }) ⟨⟨hd.r, hd.dict, hd.dictId, hd.maxOutput, hd.output⟩, hd.start, hd.le⟩
          rfl h.empty h.bound)
      · cases hb
    rcases y with e' | _ | ⟨b, out⟩
    · cases hb
    · obtain ⟨rfl, hd, hc⟩ := hb
      exact .ok (Drained.idle (s := { s with r := r' }) hd hc h.empty h.bound)
    · obtain ⟨rfl, hh, hin⟩ := hb
      have hrep := hh.rep hin
      simp only [Proc.ite_run, Proc.bind_run, Proc.modify_run, Run.ret_bind, Proc.andThen_ok,
        Proc.pure_run]
      split
      · exact .ok ⟨rfl, hrep⟩
      · exact .ok ⟨hrep, List.length_eq_zero_iff.mp (not_not.mp ‹_›)⟩

/-- `Refines`, with what is known of the right run. -/
theorem refines_and {σ τ ε α β : Type} {R : α → σ → β → τ → Prop} {E : σ → τ → Prop}
    {Q : β → τ → Prop} {E' : ε → τ → Prop} {x : Run (Except ε α × σ)} {y : Run (Except ε β × τ)}
    (h : Refines R E x y) (hy : Proc.WP Q E' y) :
    Refines (fun a s b t => R a s b t ∧ Q b t) (fun s t => E s t ∧ ∃ e, E' e t) x y := by
  obtain ⟨p, q, hp, hq, h⟩ := h
  rw [hq] at hy
  refine ⟨p, q, hp, hq, ?_⟩
  match p, q, h, hy with
  | (.ok _, _), (.ok _, _), h, hy => exact ⟨h, hy⟩
  | (.error _, _), (.error e, _), h, hy => exact ⟨h.1, h.2, e, hy⟩

/-- The next bytes. -/
theorem readMore_refines {S : Settings} {d : FrameDecoder X ρ} {s : Naive ρ} (limited : Bool)
    (hwhy : S.why = blockError S.target S.dict) (h : Idle S d s) :
    Refines (fun n d' m s' => n = m ∧ Rep S d' s') (Idle S) (readMore S.target limited d)
      (Naive.readMore X S s) := by
  unfold readMore Naive.readMore
  rw [Proc.bind_run, Proc.bind_run, Proc.get_run, Proc.get_run, Run.ret_bind, Run.ret_bind,
    Proc.andThen_ok, Proc.andThen_ok, h.r]
  refine Refines.loop (fun _ d' _ s' => Idle S d' s') (fun _ s' => Read.left s'.r) ?_ _ _ () d () s h
    (Nat.lt_succ_self _) (Nat.lt_succ_self _)
  rintro ⟨⟩ d ⟨⟩ s h
  refine (refines_and (readMoreStep_refines limited hwhy h) (readMoreStep_ok h.empty)).mono ?_
    fun _ _ h => h.1
  rintro a d' b s' ⟨h₁, h₂⟩
  match a, b, h₁, h₂ with
  | .next _, .next _, h₁, ⟨_, _, hu⟩ => exact ⟨h₁, by unfold Used at hu; omega⟩
  | .done _, .done _, h₁, _ => exact h₁

/-! ## The calls -/

omit [Read ρ] [LawfulRead ρ] in
/-- Some of the bytes are consumed. -/
theorem Rep.drop {S : Settings} {d : FrameDecoder X ρ} {s : Naive ρ} (h : Rep S d s) {n : Nat}
    (hn : n ≤ s.pending.length) :
    Rep S { d with dstStart := d.dstStart + n } { s with pending := s.pending.drop n } where
  r := h.r
  dict := h.dict
  dictId := h.dictId
  maxOutput := h.maxOutput
  output := h.output
  start := by
    have := h.start
    dsimp only
    rw [List.length_drop]
    omega
  le := h.le
  block := by
    dsimp only
    rw [List.length_drop]
    conv_rhs => rw [← h.block]
    rw [seg, seg, List.drop_take, List.drop_drop]
  closed := h.closed
  opened f hf :=
    have ⟨ho, hw, hc⟩ := h.opened f hf
    ⟨⟨ho.info, ho.size, ho.hash, ho.len⟩, ⟨hw.ext, hw.stop, hw.pos, hw.recent, hw.older, hw.region⟩,
      hc⟩
  bound := h.bound

omit [Read ρ] [LawfulRead ρ] in
theorem Rep.block_eq {S : Settings} {d : FrameDecoder X ρ} {s : Naive ρ} (h : Rep S d s) :
    d.block = .ret s.pending := by
  have hs := h.start
  have hl := h.le
  have he : d.dstEnd - d.dstStart = s.pending.length := by omega
  rw [FrameDecoder.block, Run.sub, if_pos (by omega), Run.ret_bind, he,
    Run.chunk_eq (by omega), h.block]

theorem read_refines {S : Settings} {d : FrameDecoder X ρ} {s : Naive ρ} (limited : Bool)
    (hwhy : S.why = blockError S.target S.dict) (len : Nat) (h : Rep S d s) :
    Refines (fun a d' b s' => a = b ∧ Rep S d' s') (Rep S)
      (FrameDecoder.read S.target limited len d) (Naive.read X S len s) := by
  unfold FrameDecoder.read Naive.read
  refine Refines.loop (fun _ d' _ s' => Rep S d' s') (fun _ s' => if s'.pending = [] then 1 else 0)
    ?_ _ _ () d () s h (by split <;> decide) (by split <;> decide)
  rintro ⟨⟩ d ⟨⟩ s h
  have hs := h.start
  have hl := h.le
  simp only [Proc.bind_run Proc.get, Proc.get_run, Run.ret_bind, Proc.andThen_ok, Proc.ite_run]
  by_cases hp : s.pending = []
  · have hz : ¬ d.dstStart < d.dstEnd := by rw [hp] at hs; simp only [List.length_nil] at hs; omega
    rw [if_neg hz, if_neg (not_not.mpr hp)]
    refine (refines_and (readMore_refines limited hwhy ⟨h, hp⟩) (readMore_ok hp)).bind ?_
      fun _ _ h => h.1.toRep
    rintro n d' _ s' ⟨⟨rfl, h'⟩, hm⟩
    rw [Proc.ite_run, Proc.ite_run]
    by_cases hn : n = 0
    · rw [if_pos hn, if_pos hn]
      exact .ok ⟨rfl, h'⟩
    · rw [if_neg hn, if_neg hn]
      have hne : s'.pending ≠ [] := fun he => hn (by rw [← hm.len, he]; rfl)
      exact .ok ⟨h', by rw [if_pos hp, if_neg hne]; decide⟩
  · have hpos : 0 < s.pending.length := List.length_pos_iff.mpr hp
    have hsub : d.dstEnd - d.dstStart = s.pending.length := by omega
    have hchunk := Run.chunk_eq (l := d.dst) (i := d.dstStart) (n := min s.pending.length len)
      (by omega)
    have hseg : seg d.dst d.dstStart (min s.pending.length len) = s.pending.take len := by
      rw [← take_seg _ (Nat.min_le_left _ _), h.block, Nat.min_comm, ← List.take_eq_take_min]
    rw [if_pos (show d.dstStart < d.dstEnd by omega), if_pos hp, hsub]
    simp only [Proc.bind_run, Proc.lift_run, Proc.modify_run, Run.ret_bind, Proc.andThen_ok,
      Proc.pure_run, hchunk, hseg]
    have hdrop := h.drop (Nat.min_le_left s.pending.length len)
    rw [List.drop_eq_drop_min (i := len), Nat.min_comm len]
    exact .ok ⟨rfl, hdrop⟩

theorem fillBuf_refines {S : Settings} {d : FrameDecoder X ρ} {s : Naive ρ} (limited : Bool)
    (hwhy : S.why = blockError S.target S.dict) (h : Rep S d s) :
    Refines (fun a d' b s' => a = b ∧ Rep S d' s') (Rep S) (FrameDecoder.fillBuf S.target limited d)
      (Naive.fillBuf X S s) := by
  unfold FrameDecoder.fillBuf Naive.fillBuf
  simp only [Proc.bind_run Proc.get, Proc.get_run, Run.ret_bind, Proc.andThen_ok, Proc.ite_run]
  have hs := h.start
  by_cases hp : s.pending = []
  · have hz : d.dstStart = d.dstEnd := by rw [hp] at hs; exact hs
    rw [if_pos hz, if_pos hp]
    refine (readMore_refines limited hwhy ⟨h, hp⟩).bind ?_ fun _ _ h => h.toRep
    rintro n d' _ s' ⟨rfl, h'⟩
    simp only [Proc.bind_run, Proc.get_run, Run.ret_bind, Proc.andThen_ok, Proc.lift_run, h'.block_eq,
      Proc.pure_run]
    exact .ok ⟨rfl, h'⟩
  · have hpos : 0 < s.pending.length := List.length_pos_iff.mpr hp
    rw [if_neg (by omega), if_neg hp, Proc.lift_run, h.block_eq]
    exact .ok ⟨rfl, h⟩

omit [Read ρ] [LawfulRead ρ] in
theorem consume_refines {S : Settings} {d : FrameDecoder X ρ} {s : Naive ρ} {amt : Nat}
    (h : Rep S d s) (ha : amt ≤ s.pending.length) :
    Refines (fun _ d' _ s' => Rep S d' s' ∧ s' = { s with pending := s.pending.drop amt }) (Rep S)
      (FrameDecoder.consume amt d) (Naive.consume amt s) := by
  have hs := h.start
  simp only [FrameDecoder.consume, Naive.consume, Proc.bind_run, Proc.get_run, Run.ret_bind,
    Proc.andThen_ok, Proc.lift_run, Proc.modify_run, Run.assert, Run.sub, if_pos ha,
    if_pos (show d.dstStart ≤ d.dstEnd by omega), if_pos (show amt ≤ d.dstEnd - d.dstStart by omega)]
  exact .ok ⟨h.drop ha, rfl⟩

omit [Read ρ] [LawfulRead ρ] in
theorem Rep.reserve {S : Settings} {d : FrameDecoder X ρ} {s : Naive ρ} (h : Rep S d s)
    (contentReserve : Option Nat) : Rep S { d with contentReserve } s where
  r := h.r
  dict := h.dict
  dictId := h.dictId
  maxOutput := h.maxOutput
  output := h.output
  start := h.start
  le := h.le
  block := h.block
  closed := h.closed
  opened f hf :=
    have ⟨ho, hw, hc⟩ := h.opened f hf
    ⟨⟨ho.info, ho.size, ho.hash, ho.len⟩, ⟨hw.ext, hw.stop, hw.pos, hw.recent, hw.older, hw.region⟩,
      hc⟩
  bound := h.bound

theorem readToEndStep_refines {S : Settings} {d : FrameDecoder X ρ} {s : Naive ρ} (limited : Bool)
    (hwhy : S.why = blockError S.target S.dict) (buf : List UInt8) (h : Rep S d s) :
    Refines (Proc.IterBoth
        (fun c d' c' s' => (c = c' ∧ Rep S d' s') ∧ toEndLeft s' < toEndLeft s)
        fun a d' b s' => a = b ∧ Rep S d' s')
      (Rep S) (readToEndStep S.target limited buf d) (Naive.readToEndStep X S buf s) := by
  obtain ⟨p, q, hx, hy, hb⟩ := fillBuf_refines limited hwhy h
  have hw := fillBuf_ok (X := X) (S := S) s
  rw [hy] at hw
  unfold readToEndStep Naive.readToEndStep
  simp only [Proc.bind_run, Proc.attempt_run, hx, hy, Run.ret_bind, Proc.andThen_ok]
  rcases hb.cases with ⟨bytes, d', _, s', rfl, rfl, rfl, hr⟩ | ⟨e, d', s', rfl, rfl, hr⟩
  · obtain ⟨he, hm⟩ := hw
    cases bytes with
    | nil => exact .ok ⟨rfl, hr⟩
    | cons b bs =>
      have hr' := hr.reserve none
      simp only [Proc.bind_run Proc.get, Proc.bind_run (Proc.modify _), Proc.bind_run (Proc.lift _),
        Proc.get_run, Proc.modify_run, Proc.lift_run, hr'.block_eq, Run.ret_bind, Proc.andThen_ok, ← he]
      refine (consume_refines hr' (Nat.le_of_eq (congrArg List.length he))).bind ?_ fun _ _ h => h
      rintro _ d'' _ s'' ⟨hr'', rfl⟩
      refine .ok ⟨⟨rfl, hr''⟩, ?_⟩
      have hnil : s'.pending.drop (b :: bs).length = [] := by rw [← he, List.drop_length]
      rw [toEndLeft, toEndLeft, if_pos hnil]
      by_cases hp : s.pending = []
      · rw [if_pos hp] at hm ⊢
        have hu : Read.left s'.r + min (b :: bs).length 1 ≤ Read.left s.r := hm.used
        rw [List.length_cons] at hu
        dsimp only
        omega
      · rw [if_neg hp] at hm ⊢
        rw [hm]
        exact Nat.lt_succ_self _
  · obtain ⟨hp, hp', _, _, _, hk⟩ := hw
    simp only [Proc.ite_run]
    split
    · refine .ok ⟨⟨rfl, hr⟩, ?_⟩
      rw [toEndLeft, toEndLeft, if_pos hp', if_pos hp]
      exact (hk ‹_›).1
    · exact .ok ⟨rfl, hr⟩

theorem readToEnd_refines {S : Settings} {d : FrameDecoder X ρ} {s : Naive ρ} (limited : Bool)
    (hwhy : S.why = blockError S.target S.dict) (h : Rep S d s) :
    Refines (fun a d' b s' => a = b ∧ Rep S d' s') (Rep S)
      (FrameDecoder.readToEnd S.target limited d) (Naive.readToEnd X S s) := by
  unfold FrameDecoder.readToEnd Naive.readToEnd
  rw [Proc.bind_run, Proc.bind_run, Proc.get_run, Proc.get_run, Run.ret_bind, Run.ret_bind,
    Proc.andThen_ok, Proc.andThen_ok, h.r]
  have hlt : toEndLeft s < Read.left s.r + 2 := by unfold toEndLeft; split <;> omega
  refine Refines.loop (fun c d' c' s' => c = c' ∧ Rep S d' s') (fun _ s' => toEndLeft s') ?_ _ _ []
    d [] s ⟨rfl, h⟩ hlt hlt
  rintro buf d _ s ⟨rfl, h⟩
  exact readToEndStep_refines limited hwhy buf h

theorem call_refines {S : Settings} {d : FrameDecoder X ρ} {s : Naive ρ} (limited : Bool)
    (hwhy : S.why = blockError S.target S.dict) (c : Spec.Call ρ) (h : Rep S d s) :
    Run.Same (fun p q => p.1 = q.1 ∧ Rep S p.2 q.2)
      ((Spec.frameDecoder X S.target limited).call d c) ((Spec.naive X S).call s c) := by
  cases c with
  | read len =>
    obtain ⟨p, q, hx, hy, hb⟩ := read_refines limited hwhy len h
    simp only [Spec.Calls.call, Spec.frameDecoder, Spec.naive, hx, hy, Run.ret_bind, Run.pure_eq]
    rcases hb.cases with ⟨b, d', _, s', rfl, rfl, rfl, hr⟩ | ⟨e, d', s', rfl, rfl, hr⟩
    · exact ⟨rfl, hr⟩
    · exact ⟨rfl, hr⟩
  | fillBuf =>
    obtain ⟨p, q, hx, hy, hb⟩ := fillBuf_refines limited hwhy h
    simp only [Spec.Calls.call, Spec.frameDecoder, Spec.naive, hx, hy, Run.ret_bind, Run.pure_eq]
    rcases hb.cases with ⟨b, d', _, s', rfl, rfl, rfl, hr⟩ | ⟨e, d', s', rfl, rfl, hr⟩
    · exact ⟨rfl, hr⟩
    · exact ⟨rfl, hr⟩
  | consume amt =>
    have hs := h.start
    simp only [Spec.Calls.call, Spec.frameDecoder, Spec.naive]
    by_cases ha : amt ≤ s.pending.length
    · obtain ⟨p, q, hx, hy, hb⟩ := consume_refines h ha
      rw [hx, hy]
      rcases hb.cases with ⟨_, d', _, s', rfl, rfl, hr⟩ | ⟨e, d', s', rfl, rfl, hr⟩
      · exact ⟨rfl, hr.1⟩
      · exact ⟨rfl, hr⟩
    · simp only [FrameDecoder.consume, Naive.consume, Proc.bind_run, Proc.get_run, Run.ret_bind,
        Proc.andThen_ok, Proc.lift_run, Run.assert, Run.sub, if_neg ha, Run.panic_bind,
        if_pos (show d.dstStart ≤ d.dstEnd by omega),
        if_neg (show ¬ amt ≤ d.dstEnd - d.dstStart by omega)]
      trivial
  | readToEnd =>
    obtain ⟨p, q, hx, hy, hb⟩ := readToEnd_refines limited hwhy h
    simp only [Spec.Calls.call, Spec.frameDecoder, Spec.naive, hx, hy, Run.ret_bind, Run.pure_eq]
    rcases hb.cases with ⟨b, d', _, s', rfl, rfl, rfl, hr⟩ | ⟨e, d', s', rfl, rfl, hr⟩
    · obtain ⟨bytes, e | n⟩ := b
      · exact ⟨rfl, hr⟩
      · exact ⟨rfl, hr⟩
    · exact ⟨rfl, hr⟩
  | replace r => exact ⟨rfl, h.withReader r⟩

/-- Any calls. -/
theorem run_refines {S : Settings} (limited : Bool) (hwhy : S.why = blockError S.target S.dict) :
    ∀ (cs : List (Spec.Call ρ)) (d : FrameDecoder X ρ) (s : Naive ρ), Rep S d s →
      Run.Same (fun p q => p.1 = q.1 ∧ Rep S p.2 q.2)
        ((Spec.frameDecoder X S.target limited).run d cs) ((Spec.naive X S).run s cs)
  | [], _, _, h => ⟨rfl, h⟩
  | c :: cs, _, _, h =>
    (call_refines limited hwhy c h).bind fun _ _ ⟨he, h'⟩ =>
      (run_refines limited hwhy cs _ _ h').bind fun _ _ ⟨he', h''⟩ => ⟨by rw [he, he'], h''⟩

omit [LawfulRead ρ] in
theorem taken_refines {S : Settings} {d : FrameDecoder X ρ} {s : Naive ρ} (limited : Bool)
    (h : Rep S d s) (c : Spec.Call ρ) (r : Spec.Reply) :
    (Spec.frameDecoder X S.target limited).taken d c r = (Spec.naive X S).taken s c r := by
  cases c with
  | consume amt =>
    have hs := h.start
    have he : d.dstEnd - d.dstStart = s.pending.length := by omega
    show (seg d.dst d.dstStart (d.dstEnd - d.dstStart)).take amt = s.pending.take amt
    rw [he, h.block]
  | read => rfl
  | fillBuf => rfl
  | readToEnd => rfl
  | replace => rfl

/-- Any calls up to the end of the stream. -/
theorem session_refines {S : Settings} (limited : Bool) (hwhy : S.why = blockError S.target S.dict) :
    ∀ (cs : List (Spec.Call ρ)) (d : FrameDecoder X ρ) (s : Naive ρ), Rep S d s →
      Run.Same Eq ((Spec.frameDecoder X S.target limited).session d cs)
        ((Spec.naive X S).session s cs)
  | [], _, _, _ => rfl
  | c :: cs, d, s, h => by
    refine (call_refines limited hwhy c h).bind fun p q ⟨he, h'⟩ => ?_
    dsimp only
    rw [he, taken_refines limited h]
    split
    · exact rfl
    · refine (session_refines limited hwhy cs _ _ h').bind fun p q he => ?_
      rw [he]
      exact rfl

/-- What a decoder with the options does. -/
def settings (t : Target) (options : FrameDecoderOptions) : Settings :=
  let dict := (options.dictionary.map fun p => p.1).getD []
  { target := t, dict, dictId := options.dictionary.map fun p => p.2
    maxOutput := options.maxOutput.getD t.usizeMax, why := blockError t dict }

theorem settings_target (t : Target) (options : FrameDecoderOptions) :
    (settings t options).target = t := rfl

theorem settings_why (t : Target) (options : FrameDecoderOptions) :
    (settings t options).why = blockError (settings t options).target (settings t options).dict := rfl

omit [Read ρ] [LawfulRead ρ] in
theorem withOptions_rep (X : XxHash32) (t : Target) (r : ρ) (options : FrameDecoderOptions) :
    Rep (settings t options) (FrameDecoder.withOptions X t r options) (Naive.start r) := by
  obtain ⟨dictionary, maxOutput⟩ := options
  have : ∀ d : FrameDecoder X ρ, Matches (settings t ⟨dictionary, maxOutput⟩) d r 0 →
      d.currentFrameInfo = none → d.dstStart = 0 → d.dstEnd = 0 →
      Rep (settings t ⟨dictionary, maxOutput⟩) d (Naive.start r) := fun d hm hc h₁ h₂ =>
    ⟨hm, h₁.trans h₂.symm, by rw [h₂]; exact Nat.zero_le _, rfl, fun _ => hc, nofun, t.modulus_pos⟩
  cases dictionary <;> cases maxOutput <;> exact this _ ⟨rfl, rfl, rfl, rfl, rfl⟩ rfl rfl rfl

end Lz4rip.Proof.Frame
