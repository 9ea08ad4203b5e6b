import Lz4rip.Proof.Encode.RoundTrip
import Lz4rip.Proof.Frame.Source

/-!
# What the encoder writes

`Reliable` writers never fail, and `Sent` is what a write to a writer comes to
when it succeeds. `compressSrc_ok`: a block is compressed to a block of what
waits, behind the history of the frame, or to something that is not shorter.
-/

namespace Lz4rip.Proof.Frame

open Lz4rip.Impl
open Lz4rip.Impl.FrameEncoder
open Spec (Frame blockLimit IsBlockOf)
open Proof.Encode (Before Compressed defaultNodict_valid)

/-! ## Writers -/

/-- A write that takes some bytes, or that `write_all` tries again. -/
def Answers : WriteReply → Prop
  | .accept n => n ≠ 0
  | .fail e => e.kind = .interrupted

/-- The writer never fails. -/
structure Reliable (w : Writer) : Prop where
  replies : ∀ r ∈ w.replies, Answers r
  flushes : ∀ r ∈ w.flushes, r = .ok ()

/-- The writer has taken `bytes`. -/
structure Sent (w : Writer) (bytes : List UInt8) (w' : Writer) : Prop where
  accepted : w'.accepted = w.accepted ++ bytes
  reliable : Reliable w → Reliable w'

theorem Sent.refl (w : Writer) : Sent w [] w := ⟨(List.append_nil _).symm, id⟩

theorem Sent.trans {w w' w'' : Writer} {a b : List UInt8} (h : Sent w a w') (h' : Sent w' b w'') :
    Sent w (a ++ b) w'' :=
  ⟨by rw [h'.accepted, h.accepted, List.append_assoc], fun hr => h'.reliable (h.reliable hr)⟩

/-- A write takes all of the bytes, or fails after some of them. -/
theorem writeAllReplies_cases (buf : List UInt8) : ∀ replies : List WriteReply,
    (∃ rs, Writer.writeAllReplies buf replies = (buf, .ok (), rs) ∧ rs <:+ replies) ∨
    ∃ taken e rs, Writer.writeAllReplies buf replies = (taken, .error e, rs) ∧ taken <+: buf ∧
      ∃ r ∈ replies, ¬ Answers r
  | [] => .inl ⟨[], rfl, List.suffix_refl _⟩
  | .fail e :: replies => by
    rw [Writer.writeAllReplies]
    by_cases hb : buf = []
    · rw [if_pos hb]
      exact .inl ⟨_, by rw [hb], List.suffix_refl _⟩
    · rw [if_neg hb]
      by_cases hk : e.kind = .interrupted
      · rw [if_pos hk]
        rcases writeAllReplies_cases buf replies with ⟨rs, h, hs⟩ | ⟨taken, e', rs, h, ht, r, hr, ha⟩
        · exact .inl ⟨rs, h, hs.trans (List.suffix_cons _ _)⟩
        · exact .inr ⟨taken, e', rs, h, ht, r, List.mem_cons_of_mem _ hr, ha⟩
      · rw [if_neg hk]
        exact .inr ⟨[], e, replies, rfl, List.nil_prefix, _, List.mem_cons_self .., hk⟩
  | .accept n :: replies => by
    rw [Writer.writeAllReplies]
    by_cases hb : buf = []
    · rw [if_pos hb]
      exact .inl ⟨_, by rw [hb], List.suffix_refl _⟩
    · rw [if_neg hb]
      by_cases hn : n = 0
      · rw [if_pos hn]
        exact .inr ⟨[], _, replies, rfl, List.nil_prefix, _, List.mem_cons_self .., fun h => h hn⟩
      · rw [if_neg hn]
        rcases writeAllReplies_cases (buf.drop n) replies with
          ⟨rs, h, hs⟩ | ⟨taken, e', rs, h, ht, r, hr, ha⟩
        · rw [h]
          refine .inl ⟨rs, ?_, hs.trans (List.suffix_cons _ _)⟩
          dsimp only
          rw [List.take_append_drop]
        · rw [h]
          refine .inr ⟨buf.take n ++ taken, e', rs, rfl, ?_, r, List.mem_cons_of_mem _ hr, ha⟩
          conv_rhs => rw [← List.take_append_drop n buf]
          exact (List.prefix_append_right_inj _).mpr ht

theorem writeAll_cases (w : Writer) (buf : List UInt8) :
    (∃ w', w.writeAll buf = (.ok (), w') ∧ Sent w buf w') ∨
    ∃ e w' taken, w.writeAll buf = (.error e, w') ∧ taken <+: buf ∧
      w'.accepted = w.accepted ++ taken ∧ ¬ Reliable w := by
  unfold Writer.writeAll
  rcases writeAllReplies_cases buf w.replies with ⟨rs, h, hs⟩ | ⟨taken, e, rs, h, ht, r, hr, ha⟩
  · rw [h]
    exact .inl ⟨_, rfl, rfl, fun hw => ⟨fun r hr => hw.replies r (hs.subset hr), hw.flushes⟩⟩
  · rw [h]
    exact .inr ⟨e, _, taken, rfl, ht, rfl, fun hw => ha (hw.replies r hr)⟩

section

variable {X : XxHash32} {t : Target} {f : Frame} {e : FrameEncoder X}

/-- A call has failed with the writer. -/
def Faulty (e e' : FrameEncoder X) : Prop := e'.failed = e.failed ∧ ¬ Reliable e.w

/-- What the encoder is after a write. -/
def Wrote (e : FrameEncoder X) (bytes : List UInt8) (e' : FrameEncoder X) : Prop :=
  ∃ w, Sent e.w bytes w ∧ e' = { e with w }

theorem writeAll_ok (e : FrameEncoder X) (buf : List UInt8) :
    Proc.WP (fun _ e' => Wrote e buf e') (fun _ e' => Faulty e e') (writeAll buf e) := by
  unfold writeAll
  rcases writeAll_cases e.w buf with ⟨w', h, hs⟩ | ⟨err, w', -, h, -, -, hr⟩
  · rw [h]
    exact ⟨w', hs, rfl⟩
  · rw [h]
    exact ⟨rfl, hr⟩

theorem flushWriter_ok (e : FrameEncoder X) :
    Proc.WP (fun _ e' => Wrote e [] e') (fun _ e' => Faulty e e') (flushWriter e) := by
  unfold flushWriter Writer.flush
  rcases hf : e.w.flushes with _ | ⟨r, rs⟩
  · exact ⟨e.w, .refl _, rfl⟩
  · cases r with
    | ok u =>
      have hs : Sent e.w [] { e.w with flushes := rs } := ⟨(List.append_nil _).symm, fun hw =>
        ⟨hw.replies, fun r hr => hw.flushes r (by rw [hf]; exact List.mem_cons_of_mem _ hr)⟩⟩
      exact ⟨_, hs, rfl⟩
    | error err => exact ⟨rfl, fun hw => nomatch hw.flushes (.error err) (by rw [hf]; simp)⟩

/-- One write after the other. -/
theorem Wrote.trans {e' e'' : FrameEncoder X} {a b : List UInt8} (h : Wrote e a e')
    (h' : Wrote e' b e'') : Wrote e (a ++ b) e'' := by
  obtain ⟨w, hs, rfl⟩ := h
  obtain ⟨w', hs', rfl⟩ := h'
  exact ⟨w', hs.trans hs', rfl⟩

theorem Wrote.faulty {e' e'' : FrameEncoder X} {a : List UInt8} (h : Wrote e a e')
    (h' : Faulty e' e'') : Faulty e e'' := by
  obtain ⟨w, hs, rfl⟩ := h
  exact ⟨h'.1, fun hr => h'.2 (hs.reliable hr)⟩

/-- A write behind another. -/
theorem Wrote.then {α : Type} {e' : FrameEncoder X} {a b : List UInt8} {x : Run (Except Error α × _)}
    (h : Wrote e a e') (hx : Proc.WP (fun _ e'' => Wrote e' b e'') (fun _ e'' => Faulty e' e'') x) :
    Proc.WP (fun _ e'' => Wrote e (a ++ b) e'') (fun _ e'' => Faulty e e'') x :=
  hx.mono (fun _ _ hw => h.trans hw) fun _ _ hf => h.faulty hf

/-- A block with its size and its checksum is written. -/
theorem emitBlock_ok {info : BlockInfo} {size : UInt32} (data : List UInt8)
    (h : info.write = .ok (leOfU32 size)) :
    Proc.WP (fun _ e' => Wrote e (Spec.blockBytes X e.frameInfo size data) e')
      (fun _ e' => Faulty e e') (emitBlock info data e) := by
  simp only [emitBlock, h]
  rw [Proc.bind_run, Proc.ofExcept_run, Run.ret_bind, Proc.andThen_ok]
  refine (writeAll_ok e _).bind fun _ e₁ h₁ => ?_
  refine (h₁.then (writeAll_ok e₁ data)).bind fun _ e₂ h₂ => ?_
  rw [Proc.bind_run, Proc.get_run, Run.ret_bind, Proc.andThen_ok, Proc.ite_run]
  have hinfo : e₂.frameInfo = e.frameInfo := by
    obtain ⟨w, -, rfl⟩ := h₂
    rfl
  rw [hinfo]
  unfold Spec.blockBytes
  split
  · exact h₂.then (writeAll_ok e₂ _)
  · rw [List.append_nil]
    exact h₂

/-! ## Compressing -/

theorem getMaximumOutputSize_eq (t : Target) {n : Nat} (h : n ≤ 4194304) :
    getMaximumOutputSize t n = .ret (16 + 4 + n * 110 / 100) := by
  have hmod := t.modulus_cases
  rw [getMaximumOutputSize, Run.assert, if_pos (by omega), Run.ret_bind]
  dsimp only
  rw [if_neg (by unfold Target.usizeMax; omega)]
  rfl

theorem length_resize (v : Vec) (len : Nat) : (v.resize len).data.length = len := by
  unfold Vec.resize
  split
  · rw [List.length_take]
    omega
  · simp only [Vec.extend, Vec.reserve]
    split <;>
    · simp only [List.length_append, List.length_replicate]
      omega

/-- The sink is all of the vector, cut or filled up to the size. -/
theorem vecSinkForCompression_eq (v : Vec) (n : Nat) :
    vecSinkForCompression v 0 0 n = .ret (v.resize n, ⟨(v.resize n).data, 0⟩) := by
  simp only [vecSinkForCompression, Run.assert, if_pos (Nat.zero_le _), Run.ret_bind, Nat.zero_add,
    List.drop_zero, SliceSink.new]
  rfl

theorem addressable_block (t : Target) {src dst : List UInt8} (hs : src.length ≤ 4194304)
    (hd : dst.length ≤ 4613754) : t.Addressable [src, dst] := by
  have hmod := t.modulus_cases
  have hspace : 4294967296 ≤ t.addressSpace := by
    unfold Target.addressSpace
    cases t.width <;> decide
  unfold Target.Addressable Target.isizeMax
  simp only [List.mem_cons, List.not_mem_nil, or_false, forall_eq_or_imp, forall_eq, List.map_cons,
    List.map_nil, List.sum_cons, List.sum_nil]
  omega

/-- The compressed block is in the first `n` bytes of `dst`. -/
structure Packed (hist src dst : List UInt8) (n : Nat) : Prop where
  block : IsBlockOf hist src (dst.take n)
  le : n ≤ dst.length

theorem Packed.of_compressed {extDict input output : List UInt8} {inputPos n : Nat} {sink : SliceSink}
    {blk : Spec.Block} (h : Compressed extDict input inputPos ⟨output, 0⟩ (.ok n) sink blk) :
    Packed (extDict ++ input.take inputPos) (input.drop inputPos) sink.output n := by
  have htake := h.wrote.taken
  have hpos := h.wrote.pos
  obtain rfl := Except.ok.inj h.result
  rw [Nat.zero_add] at hpos
  rw [hpos, List.take_zero, List.nil_append] at htake
  exact ⟨by rw [htake]; exact h.isBlockOf, hpos ▸ h.wrote.pos_le⟩

theorem Packed.of_suffix {hist hist' src dst : List UInt8} {n : Nat} (h : Packed hist src dst n)
    (hs : hist <:+ hist') : Packed hist' src dst n :=
  ⟨h.block.of_suffix hs, h.le⟩

/-- With the dictionary alone. -/
theorem compressIntoSinkWithDict_packed (t : Target) {src dst : List UInt8} (dict : List UInt8)
    (hs : src.length ≤ 4194304) (hd : dst.length = 16 + 4 + src.length * 110 / 100) :
    ∃ n sink, compressIntoSinkWithDict t true src ⟨dst, 0⟩ dict = .ret (.ok n, sink) ∧
      Packed dict src sink.output n := by
  have haddr : t.Addressable [src, dst] := addressable_block t hs (by omega)
  have hno : true = false → dict = [] := fun h => absurd h.symm Bool.false_ne_true
  obtain ⟨n, sink, hrun⟩ := Encode.compressIntoSinkWithDict_returns true dict haddr hno
    (getMaximumOutputSize_eq t hs) (Nat.le_of_eq hd.symm)
  obtain ⟨d, blk, hsuf, hc⟩ := Encode.compressIntoSinkWithDict_compressed haddr hno hrun
  have hp := Packed.of_compressed hc
  rw [List.take_zero, List.append_nil, List.drop_zero] at hp
  exact ⟨n, sink, hrun, hp.of_suffix hsuf⟩

end

end Lz4rip.Proof.Frame
