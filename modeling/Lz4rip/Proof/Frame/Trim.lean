import Lz4rip.Impl.Decode.Validate
import Lz4rip.Proof.Decode.Buffer
import Lz4rip.Proof.Frame.InStep
import Lz4rip.Proof.Frame.Language

/-!
# The end of a dictionary

No match reaches back further than 65535 bytes. So of a dictionary only the last 64 KiB
count, and what is in front of them has no effect: not on the blocks that are compressed and
decoded with it (`dictionary_blocks`), and not on frames (`dictionary_frames`).

`Trims a d x`: the code does the same on an encoder with the dictionary `a ++ d` and on one
with `d`.
-/

namespace Lz4rip.Proof.Frame

open Lz4rip.Impl
open Lz4rip.Impl.FrameEncoder
open Proc (Respects)
open Run (Returns)
open Spec (EncoderCall Frame Naive Settings encoderCall encoderRun)

variable {t : Target} {a d : List UInt8} {X : XxHash32}

/-! ## Decoding -/

theorem matchStep_append (a : List UInt8) (hd : WINDOW_SIZE ≤ d.length) (input : List UInt8) (cap : Nat)
    (token : UInt8) (ip : Nat) (w : List UInt8) :
    Decode.matchStep t (a ++ d) input cap token ip w = Decode.matchStep t d input cap token ip w := by
  unfold Decode.matchStep
  split
  · rfl
  · rename_i off ip' hoff
    obtain ⟨hpos, hlt, -⟩ := Decode.readOffset_le hoff
    have hreach : off ≤ (d ++ w).length := by
      simp only [List.length_append, WINDOW_SIZE] at hd ⊢
      omega
    have hcopy (n : Nat) : (Lz77.copyBack (a ++ d ++ w) off n).drop (a ++ d).length =
        (Lz77.copyBack (d ++ w) off n).drop d.length := by
      rw [List.append_assoc, Lz77.copyBack_append a hpos hreach, List.length_append, List.drop_length_add_append]
    simp only [List.length_append] at hreach
    split
    · rfl
    · split
      · rfl
      · rw [if_neg (by rw [List.length_append]; omega), if_neg (by omega), hcopy]

/-- The decoder does the same after both. -/
theorem machine_append (a : List UInt8) (hd : WINDOW_SIZE ≤ d.length) (input : List UInt8) (cap : Nat) :
    Decode.machine t (a ++ d) input cap = Decode.machine t d input cap := by
  funext s
  unfold Decode.machine Decode.tokenStep
  simp only [matchStep_append a hd]

/-- What both decoders return is what their machines come to. -/
theorem decompressInternal_same {t' : Target} {input dict dict' : List UInt8} (out : List UInt8)
    (hf : Decode.Fits t input out.length) (hf' : Decode.Fits t' input out.length)
    (h : ∀ r, Returns (Decode.machine t dict input out.length) (0, []) r →
      Returns (Decode.machine t' dict' input out.length) (0, []) r) : ∃ r s s',
    decompressInternal t true input ⟨out, 0⟩ dict = .ret (r, s) ∧
      decompressInternal t' true input ⟨out, 0⟩ dict' = .ret (r, s') ∧
        Decode.appended r s.output = Decode.appended r s'.output := by
  obtain ⟨⟨r, s⟩, hx, e, w, hret, hs, -, hr⟩ := Run.WP_iff.mp
    (Decode.decompressInternal_ok true dict ⟨out, 0⟩ hf (Nat.zero_le _))
  obtain ⟨⟨r', s'⟩, hx', e', w', hret', hs', -, hr'⟩ := Run.WP_iff.mp
    (Decode.decompressInternal_ok true dict' ⟨out, 0⟩ hf' (Nat.zero_le _))
  obtain ⟨rfl, rfl⟩ := Prod.mk.inj ((h _ hret).unique hret')
  obtain rfl : r = r' := hr.trans hr'.symm
  refine ⟨r, s, s', hx, hx', ?_⟩
  have hsame : s.output.take w.length = s'.output.take w.length := by
    rw [← hs.pos, hs.written, hs.pos, ← hs'.pos, hs'.written]
  cases e with
  | error err =>
    subst hr
    rfl
  | ok u =>
    subst hr
    exact hsame

/-- A block decodes to the same, or fails with the same error. -/
def SameDecoded (x y : Run (Except DecompressError Nat × List UInt8)) : Prop :=
  ∃ r out out', x = .ret (r, out) ∧ y = .ret (r, out') ∧ Decode.appended r out = Decode.appended r out'

theorem decompressIntoWithDict_same {t' : Target} {input dict dict' out : List UInt8}
    (hf : Decode.Fits t input out.length) (hf' : Decode.Fits t' input out.length)
    (h : ∀ r, Returns (Decode.machine t dict input out.length) (0, []) r →
      Returns (Decode.machine t' dict' input out.length) (0, []) r) :
    SameDecoded (decompressIntoWithDict t input out dict) (decompressIntoWithDict t' input out dict') := by
  obtain ⟨r, s, s', hx, hx', hsame⟩ := decompressInternal_same out hf hf' h
  refine ⟨r, s.output, s'.output, ?_, ?_, hsame⟩
  · rw [decompressIntoWithDict, hx]
    rfl
  · rw [decompressIntoWithDict, hx']
    rfl

theorem decompressAppend_append (a : List UInt8) (hd : WINDOW_SIZE ≤ d.length) {input : List UInt8} {maxSize : Nat}
    (hf : Decode.Fits t input maxSize) (v : List UInt8) :
    DecompressorRef.decompressAppend ⟨a ++ d⟩ t input v maxSize =
      DecompressorRef.decompressAppend ⟨d⟩ t input v maxSize := by
  unfold DecompressorRef.decompressAppend
  by_cases hv : v.length + maxSize ≤ t.isizeMax
  · have hf' : Decode.Fits t input (List.replicate maxSize (0 : UInt8)).length := by rwa [List.length_replicate]
    obtain ⟨r, s, s', hx, hx', hsame⟩ := decompressInternal_same (List.replicate maxSize 0) hf' hf'
      fun r hr => machine_append a hd input _ ▸ hr
    rw [Decode.decompressAppendInternal_eq hv hx, Decode.decompressAppendInternal_eq hv hx', hsame]
  · unfold decompressAppendInternal
    rw [Run.assert, if_neg hv, Run.panic_bind, Run.panic_bind]

/-- The validator looks at nothing but the dictionary's length. -/
theorem validateBlockWithDict_append (a : List UInt8) (hd : WINDOW_SIZE ≤ d.length) (input : List UInt8) (n : Nat) :
    validateBlockWithDict t input n (a ++ d) = validateBlockWithDict t input n d := by
  have hmatch (token : UInt8) (ip pos : Nat) : validateMatch t input n (a ++ d).length token ip pos =
      validateMatch t input n d.length token ip pos := by
    unfold validateMatch
    split
    · rfl
    · rename_i off ip' hoff
      obtain ⟨-, hlt, -⟩ := Decode.readOffset_le hoff
      simp only [WINDOW_SIZE] at hd
      dsimp only
      split
      · rfl
      · split
        · rfl
        · rw [if_neg (by rw [List.length_append]; omega), if_neg (by omega)]
  have htoken : validateToken t input n (a ++ d).length = validateToken t input n d.length := by
    funext s
    unfold validateToken
    simp only [hmatch]
  unfold validateBlockWithDict validateBlockInternal
  rw [htoken]

/-! ## Compressing -/

theorem drop_append (a : List UInt8) (hd : WINDOW_SIZE ≤ d.length) :
    (a ++ d).drop ((a ++ d).length - WINDOW_SIZE) = d.drop (d.length - WINDOW_SIZE) := by
  rw [List.length_append, Nat.add_sub_assoc hd, List.drop_length_add_append]

/-- Of both the same is kept. -/
theorem kept_append (a : List UInt8) (hd : WINDOW_SIZE ≤ d.length) :
    (if (a ++ d).length > WINDOW_SIZE then (a ++ d).drop ((a ++ d).length - WINDOW_SIZE) else a ++ d) =
      if d.length > WINDOW_SIZE then d.drop (d.length - WINDOW_SIZE) else d := by
  have hkept {l : List UInt8} (hl : WINDOW_SIZE ≤ l.length) :
      (if l.length > WINDOW_SIZE then l.drop (l.length - WINDOW_SIZE) else l) = l.drop (l.length - WINDOW_SIZE) := by
    split
    · rfl
    · rw [Nat.sub_eq_zero_of_le (by omega), List.drop_zero]
  rw [hkept hd, hkept (by rw [List.length_append]; omega), drop_append a hd]

theorem initDict_append {w N : Nat} (a : List UInt8) (hd : WINDOW_SIZE ≤ d.length) (T : HashTable w N) :
    initDict t T (a ++ d) = initDict t T d := by
  unfold initDict
  rw [kept_append a hd]

theorem trimDict_append (a : List UInt8) (hd : WINDOW_SIZE ≤ d.length) : trimDict (a ++ d) = trimDict d := by
  have hmin : MINMATCH ≤ d.length := Nat.le_trans (by decide) hd
  have hmin' : MINMATCH ≤ (a ++ d).length := by
    rw [List.length_append]
    omega
  unfold trimDict
  rw [if_neg (Nat.not_lt.mpr hmin'), if_neg (Nat.not_lt.mpr hmin), kept_append a hd]

/-- A compressor that is made with both is the same. -/
theorem newCompressor_append (a : List UInt8) (hd : WINDOW_SIZE ≤ d.length) (N : Nat) :
    DictCompressorN.new t N (a ++ d) = DictCompressorN.new t N d ∧
      DictCompressorRefN.new t N (a ++ d) = DictCompressorRefN.new t N d := by
  unfold DictCompressorN.new DictCompressorRefN.new
  rw [trimDict_append a hd]
  exact ⟨rfl, rfl⟩

theorem compressIntoSinkWithDict_append (a : List UInt8) (hd : WINDOW_SIZE ≤ d.length) (input : List UInt8)
    (output : SliceSink) :
    compressIntoSinkWithDict t true input output (a ++ d) = compressIntoSinkWithDict t true input output d := by
  have hmin : MINMATCH ≤ d.length := Nat.le_trans (by decide) hd
  have hmax : U16_MAX ≤ d.length := Nat.le_trans (by decide) hd
  have hlong {l : List UInt8} (hl : d.length ≤ l.length) : ¬ ((true : Bool) = true ∧ l.length < MINMATCH) :=
    fun h => Nat.not_lt.mpr (hmin.trans hl) h.2
  have hle : d.length ≤ (a ++ d).length := by
    rw [List.length_append]
    omega
  unfold compressIntoSinkWithDict compressIntoSinkByLength
  rw [if_neg (hlong hle), if_neg (hlong (Nat.le_refl _)), if_neg (by omega), if_neg (by omega)]
  simp only [initDict_append a hd]

/-- Blocks are compressed, validated and decoded with a dictionary as they are with its last
64 KiB. -/
theorem dictionary_blocks (t : Target) (a : List UInt8) {d : List UInt8} (hd : WINDOW_SIZE ≤ d.length) :
    (∀ N, DictCompressorN.new t N (a ++ d) = DictCompressorN.new t N d ∧
      DictCompressorRefN.new t N (a ++ d) = DictCompressorRefN.new t N d) ∧
    (∀ input out, compressIntoWithDict t input out (a ++ d) = compressIntoWithDict t input out d) ∧
    (∀ input n, validateBlockWithDict t input n (a ++ d) = validateBlockWithDict t input n d) ∧
    ∀ input out, t.Addressable [input, out] →
      SameDecoded (decompressIntoWithDict t input out (a ++ d)) (decompressIntoWithDict t input out d) ∧
      ∀ v, DecompressorRef.decompressAppend ⟨a ++ d⟩ t input v out.length =
        DecompressorRef.decompressAppend ⟨d⟩ t input v out.length := by
  refine ⟨newCompressor_append a hd, fun input out => ?_, validateBlockWithDict_append a hd, fun input out h => ?_⟩
  · unfold compressIntoWithDict
    simp only [compressIntoSinkWithDict_append a hd]
  · have hf := Decode.Fits.of_addressable h
    exact ⟨decompressIntoWithDict_same hf hf fun r hr => machine_append a hd input _ ▸ hr,
      decompressAppend_append a hd hf⟩

theorem dictionary_blocks_one :
    let d := List.replicate 65536 (0 : UInt8)
    (∀ N, DictCompressorN.new ⟨.w64, false, false⟩ N ([1] ++ d) = DictCompressorN.new ⟨.w64, false, false⟩ N d ∧
      DictCompressorRefN.new ⟨.w64, false, false⟩ N ([1] ++ d) =
        DictCompressorRefN.new ⟨.w64, false, false⟩ N d) ∧
    (∀ input out, compressIntoWithDict ⟨.w64, false, false⟩ input out ([1] ++ d) =
      compressIntoWithDict ⟨.w64, false, false⟩ input out d) ∧
    (∀ input n, validateBlockWithDict ⟨.w64, false, false⟩ input n ([1] ++ d) =
      validateBlockWithDict ⟨.w64, false, false⟩ input n d) ∧
    ∀ input out, (⟨.w64, false, false⟩ : Target).Addressable [input, out] →
      SameDecoded (decompressIntoWithDict ⟨.w64, false, false⟩ input out ([1] ++ d))
        (decompressIntoWithDict ⟨.w64, false, false⟩ input out d) ∧
      ∀ v, DecompressorRef.decompressAppend ⟨[1] ++ d⟩ ⟨.w64, false, false⟩ input v out.length =
        DecompressorRef.decompressAppend ⟨d⟩ ⟨.w64, false, false⟩ input v out.length :=
  dictionary_blocks ⟨.w64, false, false⟩ [1] (Nat.le_of_eq List.length_replicate.symm)

/-! ## Decoding frames -/

/-- All that a naive decoder has of the dictionary is what its blocks decode to. -/
theorem naive_congr {ρ : Type} [Read ρ] {S S' : Settings} (ht : S.target = S'.target)
    (hid : S.dictId = S'.dictId) (hmax : S.maxOutput = S'.maxOutput)
    (hdecode : Spec.decodeBlock S = Spec.decodeBlock S') : Spec.naive (ρ := ρ) X S = Spec.naive X S' := by
  have hnext (f : Frame) (out : Nat) : Spec.nextBlock (ρ := ρ) X S f out = Spec.nextBlock X S' f out := by
    unfold Spec.nextBlock Spec.storedBlock Spec.compressedBlock
    rw [ht, hmax, hdecode]
  have hmore : Naive.readMore (ρ := ρ) X S = Naive.readMore X S' := by
    unfold Naive.readMore Naive.readMoreStep Naive.openFrame Naive.blockStep
    simp only [hnext, hid]
  have hfill : Naive.fillBuf (ρ := ρ) X S = Naive.fillBuf X S' := by
    unfold Naive.fillBuf
    rw [hmore]
  unfold Spec.naive Naive.read Naive.readToEnd Naive.readToEndStep
  simp only [hmore, hfill]

theorem decodeBlock_append (a : List UInt8) (hd : WINDOW_SIZE ≤ d.length) (id : UInt32) (max : Option Nat) :
    Spec.decodeBlock (settings t ⟨some (a ++ d, id), max⟩) =
      Spec.decodeBlock (settings t ⟨some (d, id), max⟩) := by
  funext f data
  have hlong : 65535 ≤ d.length := Nat.le_trans (by decide) hd
  have hhistory : Spec.decode (f.history (a ++ d)) data = Spec.decode (f.history d) data := by
    unfold Frame.history
    cases f.info.blockMode with
    | independent => exact Spec.decode_append_history a data hlong
    | linked =>
      dsimp only
      rw [List.append_assoc]
      exact Spec.decode_append_history a data (by rw [List.length_append]; omega)
  have hwhy : blockError t (a ++ d) f data = blockError t d f data := by
    unfold blockError extHistory
    split
    · rfl
    · unfold Decode.refusal
      rw [machine_append a hd]
  simp only [Spec.decodeBlock, settings, Option.map_some, Option.getD_some, hhistory, hwhy]

theorem frameDecoder_append {ρ : Type} [Read ρ] [LawfulRead ρ] (a : List UInt8) (hd : WINDOW_SIZE ≤ d.length)
    (id : UInt32) (max : Option Nat) (r : ρ) (cs : List (Spec.Call ρ)) :
    (Spec.frameDecoder X t true).replies (FrameDecoder.withOptions X t r ⟨some (a ++ d, id), max⟩) cs =
      (Spec.frameDecoder X t true).replies (FrameDecoder.withOptions X t r ⟨some (d, id), max⟩) cs := by
  have hreplies (options : FrameDecoderOptions) :
      (Spec.frameDecoder X t true).replies (FrameDecoder.withOptions X t r options) cs =
        (Spec.naive X (settings t options)).replies (Naive.start r) cs := by
    have hrun := run_refines true (settings_why t options) cs _ _ (withOptions_rep X t r options)
    unfold Spec.Calls.replies
    refine (hrun.bind fun p q h => ?_).eq
    exact h.1
  have hnaive : Spec.naive (ρ := ρ) X (settings t ⟨some (a ++ d, id), max⟩) =
      Spec.naive X (settings t ⟨some (d, id), max⟩) := naive_congr rfl rfl rfl (decodeBlock_append a hd id max)
  rw [hreplies, hreplies, hnaive]

/-! ## Writing frames -/

section

variable {α : Type}

/-- Encoders that differ in nothing but their dictionaries, `a ++ d` and `d`. -/
def Trimmed (a d : List UInt8) (e e' : FrameEncoder X) : Prop := e.dict = a ++ d ∧ e' = { e with dict := d }

/-- The dictionary stays. -/
def SameDict (e e' : FrameEncoder X) : Prop := e'.dict = e.dict

instance : Std.Refl (SameDict (X := X)) := ⟨fun _ => rfl⟩

instance : Trans (SameDict (X := X)) SameDict SameDict := ⟨fun h h' => Eq.trans h' h⟩

/-- Code that does the same with both. -/
abbrev Trims (a d : List UInt8) (x : Encode X α) : Prop :=
  Respects SameDict (Trimmed a d) (fun _ _ => False) x

theorem modify_trims {g : FrameEncoder X → FrameEncoder X}
    (h : ∀ e, (g e).dict = e.dict ∧ g { e with dict := d } = { g e with dict := d }) : Trims a d (Proc.modify g) :=
  .modify (fun e => (h e).1) fun {e e'} ⟨h₁, h₂⟩ => ⟨(h e).1.trans h₁, by rw [h₂, (h e).2]⟩

/-- What comes after `get` does not look at the dictionary. -/
theorem get_trims {f : FrameEncoder X → Encode X α} (h : ∀ e, f { e with dict := d } = f e)
    (hf : ∀ e, Trims a d (f e)) : Trims a d (Proc.get >>= f) :=
  .get hf fun ⟨_, h₂⟩ => by rw [h₂, h]

theorem writeAll_trims (buf : List UInt8) : Trims a d (writeAll buf : Encode X Unit) := by
  refine ⟨fun _ _ h => Run.ret.inj h ▸ rfl, fun {e e'} ⟨h₁, h₂⟩ => ?_⟩
  subst h₂
  unfold writeAll
  cases e.w.writeAll buf with
  | mk r u => exact .both (by cases r <;> exact ⟨rfl, h₁, rfl⟩)

theorem flushWriter_trims : Trims a d (flushWriter : Encode X Unit) := by
  refine ⟨fun _ _ h => Run.ret.inj h ▸ rfl, fun {e e'} ⟨h₁, h₂⟩ => ?_⟩
  subst h₂
  unfold flushWriter
  cases e.w.flush with
  | mk r u => exact .both (by cases r <;> exact ⟨rfl, h₁, rfl⟩)

theorem init_trims (t : Target) : Trims a d (init t : Encode X Unit) := by
  unfold init
  exact get_trims (fun _ => rfl) fun _ => .bind (.lift _) fun _ => .bind (.lift _) fun _ => (modify_trims fun _ => ⟨rfl, rfl⟩)

theorem endFrame_trims : Trims a d (endFrame : Encode X Unit) := by
  unfold endFrame
  refine get_trims (fun _ => rfl) fun _ => .bind (.lift _) fun _ => .bind (.ofExcept _) fun _ =>
    .bind (.ofExcept _) fun _ => .bind (writeAll_trims _) fun _ => ?_
  exact .ite (.bind (writeAll_trims _) fun _ => (modify_trims fun _ => ⟨rfl, rfl⟩)) (modify_trims fun _ => ⟨rfl, rfl⟩)

theorem addStreamOffset_trims (t : Target) (delta : Nat) :
    Trims a d (addStreamOffset t delta : Encode X Unit) := by
  unfold addStreamOffset
  refine get_trims (fun _ => rfl) fun e => ?_
  cases t.width with
  | w32 => exact .ite (modify_trims fun _ => ⟨rfl, rfl⟩) (.throw _)
  | w64 => exact .bind (.lift _) fun _ => (modify_trims fun _ => ⟨rfl, rfl⟩)

theorem beginFrame_trims (t : Target) (bufLen : Nat) : Trims a d (beginFrame t bufLen : Encode X Unit) := by
  have hresolve : Trims a d (Proc.modify fun e : FrameEncoder X => if e.frameInfo.blockSize = .auto then
      { e with frameInfo := { e.frameInfo with blockSize := .fromBufLength bufLen } } else e) := by
    refine modify_trims fun e => ⟨?_, ?_⟩
    · split <;> rfl
    · by_cases ha : e.frameInfo.blockSize = .auto
      · simp only [if_pos ha]
      · simp only [if_neg ha]
  unfold beginFrame
  refine .bind hresolve fun _ => .bind (init_trims t) fun _ => get_trims (fun _ => rfl) fun _ =>
    .bind (.lift _) fun _ => .bind (.ofExcept _) fun _ => .bind (.lift _) fun _ =>
    .bind (writeAll_trims _) fun _ => get_trims (fun _ => rfl) fun _ => ?_
  exact .ite (.bind (modify_trims fun _ => ⟨rfl, rfl⟩) fun _ => (modify_trims fun _ => ⟨rfl, rfl⟩)) (modify_trims fun _ => ⟨rfl, rfl⟩)

theorem repositionTable_trims (t : Target) (max : Nat) :
    Trims a d (repositionTable t max : Encode X Unit) := by
  unfold repositionTable
  exact get_trims (fun _ => rfl) fun _ => .bind (.lift _) fun _ => .ite (.bind (.lift _) fun _ => (modify_trims fun _ => ⟨rfl, rfl⟩)) (.pure _)

/-- Neither of the dictionaries is empty. -/
theorem append_nonempty (a : List UInt8) (hd : WINDOW_SIZE ≤ d.length) : d ≠ [] ∧ a ++ d ≠ [] := by
  have hne : d ≠ [] := by
    rintro rfl
    exact absurd hd (by decide)
  exact ⟨hne, List.append_ne_nil_of_right_ne_nil a hne⟩

theorem compressSrc_trims (t : Target) (hd : WINDOW_SIZE ≤ d.length) (input src : List UInt8) :
    Trims a d (compressSrc t input src : Encode X (Except CompressError Nat)) := by
  obtain ⟨hne, hne'⟩ := append_nonempty a hd
  unfold compressSrc
  refine .get (fun e => .bind (.lift _) fun _ => .ite ?_ (.ite ?_ ?_)) fun {e e'} ⟨h₁, h₂⟩ => ?_
  · exact .bind (.lift _) fun _ => .bind (.lift _) fun _ => .bind (.lift _) fun _ =>
      .bind (modify_trims fun _ => ⟨rfl, rfl⟩) fun _ => .pure _
  · exact .bind (.lift _) fun _ => .bind (.lift _) fun _ => .bind (.lift _) fun _ => .bind (.lift _) fun _ =>
      .bind (modify_trims fun _ => ⟨rfl, rfl⟩) fun _ => .pure _
  · exact .bind (.lift _) fun _ => .bind (.lift _) fun _ => .bind (modify_trims fun _ => ⟨rfl, rfl⟩) fun _ => .pure _
  · rw [h₂]
    simp only [h₁, compressIntoSinkWithDict_append a hd, ne_eq, hne, hne', not_false_eq_true, true_and]

theorem seedTable_trims (t : Target) (hd : WINDOW_SIZE ≤ d.length) (src : List UInt8) :
    Trims a d (seedTable t src : Encode X Unit) := by
  obtain ⟨hne, hne'⟩ := append_nonempty a hd
  unfold seedTable
  refine .get (fun _ => .ite (.bind (.lift _) fun _ => (modify_trims fun _ => ⟨rfl, rfl⟩)) (.pure _)) fun {e e'} ⟨h₁, h₂⟩ => ?_
  rw [h₂]
  simp only [h₁, ne_eq, hne, hne']

theorem emitBlock_trims (info : BlockInfo) (data : List UInt8) :
    Trims a d (emitBlock info data : Encode X Unit) := by
  unfold emitBlock
  exact .bind (.ofExcept _) fun _ => .bind (writeAll_trims _) fun _ => .bind (writeAll_trims _) fun _ =>
    get_trims (fun _ => rfl) fun _ => .ite (writeAll_trims _) (.pure _)

theorem slideSource_trims (t : Target) (max len : Nat) : Trims a d (slideSource t max len : Encode X Unit) := by
  have hassert : Trims a d (do
      let e ← Proc.get
      Proc.lift (Run.assert (e.extDictLen = 0 ∨ e.srcStart + max ≤ e.extDictOffset)) : Encode X Unit) :=
    get_trims (fun _ => rfl) fun _ => .lift _
  unfold slideSource
  refine get_trims (fun _ => rfl) fun e => .ite (.bind (.lift _) fun _ => .ite ?_ (.ite ?_ hassert)) ?_
  · exact .bind (.lift _) fun _ => .bind (modify_trims fun _ => ⟨rfl, rfl⟩) fun _ => .bind (addStreamOffset_trims t _) fun _ =>
      .bind (modify_trims fun _ => ⟨rfl, rfl⟩) fun _ => hassert
  · exact .bind (modify_trims fun _ => ⟨rfl, rfl⟩) fun _ => get_trims (fun _ => rfl) fun _ => .bind (.lift _) fun _ => hassert
  · exact .bind (.lift _) fun _ => .bind (.lift _) fun _ => .bind (modify_trims fun _ => ⟨rfl, rfl⟩) fun _ =>
      addStreamOffset_trims t len

theorem writeBlock_trims (t : Target) (hd : WINDOW_SIZE ≤ d.length) :
    Trims a d (FrameEncoder.writeBlock t : Encode X Unit) := by
  have hhash (src : List UInt8) : Trims a d (Proc.modify fun e : FrameEncoder X =>
      if e.frameInfo.contentChecksum then { e with contentHasher := X.write e.contentHasher src } else e) := by
    refine modify_trims fun e => ⟨?_, ?_⟩
    · split <;> rfl
    · dsimp only
      split <;> rfl
  unfold FrameEncoder.writeBlock
  refine get_trims (fun _ => rfl) fun e => .bind (.lift _) fun _ => .bind (.lift _) fun _ => .bind (.lift _) fun _ =>
    .bind (repositionTable_trims t _) fun _ => .bind (.lift _) fun _ => .bind (compressSrc_trims t hd _ _) fun _ =>
    get_trims (fun _ => rfl) fun _ => .bind (.lift _) fun _ => .bind (.ofExcept _) fun _ => .bind (seedTable_trims t hd _) fun _ =>
    .bind (emitBlock_trims _ _) fun _ => .bind (hhash _) fun _ => get_trims (fun _ => rfl) fun _ => .bind (.lift _) fun _ =>
    .bind (modify_trims fun _ => ⟨rfl, rfl⟩) fun _ => get_trims (fun _ => rfl) fun _ => .bind (.lift _) fun _ => .bind (slideSource_trims t _ _) fun _ =>
    get_trims (fun _ => rfl) fun _ => .bind (.lift _) fun _ => .lift _

theorem writeStep_trims (t : Target) (hd : WINDOW_SIZE ≤ d.length) (buf : List UInt8) :
    Trims a d (writeStep t buf : Encode X (Run.Flow (List UInt8) Unit)) := by
  unfold writeStep
  refine .ite (.pure _) (get_trims (fun _ => rfl) fun _ => .bind (.lift _) fun _ => .bind (.lift _) fun _ =>
    .bind (.lift _) fun _ => .ite ?_ ?_)
  · exact .bind (writeBlock_trims t hd) fun _ => get_trims (fun _ => rfl) fun _ => .bind (.lift _) fun _ => .pure _
  · exact .bind (.lift _) fun _ => .bind (modify_trims fun _ => ⟨rfl, rfl⟩) fun _ => .pure _

theorem flush_trims (t : Target) (hd : WINDOW_SIZE ≤ d.length) : Trims a d (FrameEncoder.flush t : Encode X Unit) := by
  have hrest : Trims a d (flushRest : Encode X Unit) := .bind flushWriter_trims fun _ => (modify_trims fun _ => ⟨rfl, rfl⟩)
  unfold FrameEncoder.flush
  exact get_trims (fun _ => rfl) fun _ => .ite (.throw _) (.bind (modify_trims fun _ => ⟨rfl, rfl⟩) fun _ =>
    .ite (.bind (writeBlock_trims t hd) fun _ => hrest) hrest)

theorem write_trims (t : Target) (hd : WINDOW_SIZE ≤ d.length) (buf : List UInt8) :
    Trims a d (FrameEncoder.write t buf : Encode X Nat) := by
  have hloop : Trims a d (Proc.loop (writeStep t) (2 * buf.length + 2) buf : Encode X Unit) :=
    .loop (writeStep_trims t hd) _ _
  have hrest : Trims a d (writeRest t buf : Encode X Nat) :=
    .bind hloop fun _ => .bind (modify_trims fun _ => ⟨rfl, rfl⟩) fun _ => .pure _
  unfold FrameEncoder.write
  exact get_trims (fun _ => rfl) fun _ => .ite (.throw _) (.bind (modify_trims fun _ => ⟨rfl, rfl⟩) fun _ =>
    .ite (.bind (beginFrame_trims t _) fun _ => hrest) hrest)

theorem tryFinish_trims (t : Target) (hd : WINDOW_SIZE ≤ d.length) :
    Trims a d (FrameEncoder.tryFinish t : Encode X Unit) := by
  have hrest : Trims a d (finishRest : Encode X Unit) := .bind endFrame_trims fun _ => (modify_trims fun _ => ⟨rfl, rfl⟩)
  unfold FrameEncoder.tryFinish
  exact .bind (flush_trims t hd) fun _ => get_trims (fun _ => rfl) fun _ => .ite (.pure _)
    (.bind (modify_trims fun _ => ⟨rfl, rfl⟩) fun _ => .ite (.bind (beginFrame_trims t 0) fun _ => hrest) hrest)

theorem encoderCall_trims (t : Target) (hd : WINDOW_SIZE ≤ d.length) (c : EncoderCall) :
    Trims a d (encoderCall t c : Encode X Nat) := by
  cases c with
  | write buf => exact write_trims t hd buf
  | flush => exact .bind (flush_trims t hd) fun _ => .pure _
  | tryFinish => exact .bind (tryFinish_trims t hd) fun _ => .pure _

/-- The same, with the dictionary `d`. -/
def withDict (d : List UInt8) (p : α × FrameEncoder X) : α × FrameEncoder X := (p.1, { p.2 with dict := d })

/-- What the code does on an encoder with the dictionary `a ++ d`, it does on one with `d`. -/
theorem Trims.eq {x : Encode X α} (h : Trims a d x) {e : FrameEncoder X} (he : e.dict = a ++ d) :
    x { e with dict := d } = x e >>= fun p => .ret (withDict d p) := by
  have ht := h.tandem (t := { e with dict := d }) ⟨he, rfl⟩
  generalize x e = u at ht ⊢
  generalize x { e with dict := d } = v at ht ⊢
  cases ht with
  | both hb =>
    rcases hb.cases with ⟨r, s, _, _, rfl, rfl, rfl, -, rfl⟩ | ⟨err, s, _, rfl, rfl, -, rfl⟩
    · rfl
    · rfl
  | panic => rfl
  | fuel => rfl
  | stop hc => exact hc.elim

/-- So also any calls. -/
theorem encoderRun_trims (t : Target) (hd : WINDOW_SIZE ≤ d.length) :
    ∀ (cs : List EncoderCall) {e : FrameEncoder X}, e.dict = a ++ d →
      encoderRun t { e with dict := d } cs = encoderRun t e cs >>= fun p => .ret (withDict d p)
  | [], _, _ => rfl
  | c :: cs, e, he => by
    have hc := encoderCall_trims (X := X) (a := a) t hd c
    unfold encoderRun
    rw [hc.eq he]
    cases hx : encoderCall t c e with
    | panic => rfl
    | fuel => rfl
    | ret p =>
      obtain ⟨r, e₁⟩ := p
      have hrest := encoderRun_trims t hd cs ((hc.moves e _ hx).trans he)
      simp only [Run.ret_bind, withDict, hrest, bind_assoc, Run.pure_eq]

end

/-- What calls on a new encoder with a dictionary return, and the writer after them. -/
def written (X : XxHash32) (t : Target) (w : Writer) (dict : List UInt8) (id : UInt32)
    (info : Option FrameInfo) (cs : List EncoderCall) : Run (List (Except Error Nat) × Writer) := do
  let e ← FrameEncoder.withDictionary X w dict id info
  let (rs, e) ← encoderRun t e cs
  return (rs, e.w)

/-- The calls of encoders and decoders give the same with a dictionary as with its last
64 KiB. -/
theorem dictionary_frames (X : XxHash32) (t : Target) (a : List UInt8) {d : List UInt8}
    (hd : WINDOW_SIZE ≤ d.length) (id : UInt32) :
    (∀ w info cs, written X t w (a ++ d) id info cs = written X t w d id info cs) ∧
    ∀ max (r : Reader) cs,
      (Spec.frameDecoder X t true).replies (FrameDecoder.withOptions X t r ⟨some (a ++ d, id), max⟩) cs =
        (Spec.frameDecoder X t true).replies (FrameDecoder.withOptions X t r ⟨some (d, id), max⟩) cs := by
  refine ⟨fun w info cs => ?_, fun max r cs => frameDecoder_append a hd id max r cs⟩
  unfold written FrameEncoder.withDictionary
  dsimp only
  generalize FrameEncoder.withFrameInfo X _ w = new
  cases new with
  | panic => rfl
  | fuel => rfl
  | ret e =>
    have hrun := encoderRun_trims t hd cs (show { e with dict := a ++ d }.dict = a ++ d from rfl)
    simp only [Run.ret_bind, Run.pure_eq]
    rw [hrun, bind_assoc]
    rfl

theorem dictionary_frames_one :
    let d := List.replicate 65536 (0 : UInt8)
    (∀ w info cs, written Spec.xxHash32 ⟨.w64, false, false⟩ w ([1] ++ d) 7 info cs =
      written Spec.xxHash32 ⟨.w64, false, false⟩ w d 7 info cs) ∧
    ∀ max (r : Reader) cs,
      (Spec.frameDecoder Spec.xxHash32 ⟨.w64, false, false⟩ true).replies
          (FrameDecoder.withOptions Spec.xxHash32 ⟨.w64, false, false⟩ r ⟨some ([1] ++ d, 7), max⟩) cs =
        (Spec.frameDecoder Spec.xxHash32 ⟨.w64, false, false⟩ true).replies
          (FrameDecoder.withOptions Spec.xxHash32 ⟨.w64, false, false⟩ r ⟨some (d, 7), max⟩) cs :=
  dictionary_frames Spec.xxHash32 ⟨.w64, false, false⟩ [1] (Nat.le_of_eq List.length_replicate.symm) 7

end Lz4rip.Proof.Frame
