import Lz4rip.Proof.Frame.Language
import Lz4rip.Proof.Frame.Latch

/-!
# From an encoder to a decoder

What calls on an encoder write is a stream (`Session`), with everything in it that the
calls were given (`after_content`), and no call fails as long as the frames have the
lengths that their headers declare, and lengths that fit a `u64` (`encoderRun_succeeds`).
So a decoder with the same dictionary gives it all back (`encoderRun_roundtrip`), on
whatever target it runs.
-/

namespace Lz4rip.Proof.Frame

open Lz4rip.Impl
open Lz4rip.Impl.FrameEncoder
open Spec (Created EncoderCall Progress Stream Text encoderRun)

variable {X : XxHash32} {e : FrameEncoder X} {w : Writer}

/-! ## What calls come to -/

theorem step_content (p : Progress) (c : EncoderCall) :
    (p.step c).ended.flatten ++ (p.step c).opened = p.ended.flatten ++ p.opened ++ c.bytes := by
  cases c with
  | write buf => exact (List.append_assoc ..).symm
  | flush => exact (List.append_nil _).symm
  | tryFinish =>
    rw [Progress.step, EncoderCall.bytes, List.append_nil]
    split
    · rfl
    · rw [List.flatten_append, List.append_nil, List.flatten_singleton]

/-- Nothing that is written is lost. -/
theorem foldl_content (cs : List EncoderCall) : ∀ p : Progress,
    (cs.foldl Progress.step p).ended.flatten ++ (cs.foldl Progress.step p).opened =
      p.ended.flatten ++ p.opened ++ (cs.map EncoderCall.bytes).flatten := by
  induction cs with
  | nil => exact fun p => (List.append_nil _).symm
  | cons c cs ih =>
    intro p
    rw [List.foldl_cons, ih, step_content, List.map_cons, List.flatten_cons, List.append_assoc]

theorem step_tryFinish_opened (p : Progress) : (p.step .tryFinish).opened = [] := by
  rw [Progress.step]
  split
  · rename_i h
    exact h.1
  · rfl

/-- After `try_finish` all of it is in frames that have ended. -/
theorem after_content (cs : List EncoderCall) :
    (Progress.after (cs ++ [EncoderCall.tryFinish])).ended.flatten = (cs.map EncoderCall.bytes).flatten := by
  have hall := foldl_content (cs ++ [EncoderCall.tryFinish]) .start
  have hopened : ((cs ++ [EncoderCall.tryFinish]).foldl Progress.step Progress.start).opened = [] := by
    rw [List.foldl_append]
    exact step_tryFinish_opened _
  rw [hopened, List.append_nil, List.map_append, List.flatten_append] at hall
  exact hall.trans (List.append_nil _)

/-- What is in the open frame is in a frame that ends. -/
theorem opened_ended : ∀ (cs : List EncoderCall) (p : Progress), p.opened ≠ [] →
    ∃ content ∈ ((cs ++ [EncoderCall.tryFinish]).foldl Progress.step p).ended, p.opened <+: content := by
  have finish (p : Progress) (hne : p.opened ≠ []) : p.opened ∈ (p.step .tryFinish).ended := by
    rw [Progress.step, if_neg fun h => hne h.1]
    exact List.mem_append_right _ (List.mem_singleton.mpr rfl)
  intro cs
  induction cs with
  | nil => exact fun p hne => ⟨p.opened, finish p hne, List.prefix_refl _⟩
  | cons c cs ih =>
    intro p hne
    rw [List.cons_append, List.foldl_cons]
    cases c with
    | write buf =>
      obtain ⟨content, hmem, hpre⟩ := ih (p.step (.write buf)) fun h => hne (List.append_eq_nil_iff.mp h).1
      exact ⟨content, hmem, (List.prefix_append _ _).trans hpre⟩
    | flush => exact ih (p.step .flush) hne
    | tryFinish => exact ⟨p.opened, ended_subset _ (finish p hne), List.prefix_refl _⟩

/-- A frame that grows too long ends too long. -/
theorem Outgrows.ended {cs : List EncoderCall} {p : Progress} (h : Outgrows p (cs ++ [EncoderCall.tryFinish])) :
    ∃ content ∈ ((cs ++ [EncoderCall.tryFinish]).foldl Progress.step p).ended, 2 ^ 64 ≤ content.length := by
  obtain ⟨cs', ⟨rest, hrest⟩, hlen⟩ := h
  have hne : (cs'.foldl Progress.step p).opened ≠ [] := fun hnil => by
    rw [hnil] at hlen
    cases hlen
  rcases rest.eq_nil_or_concat with rfl | ⟨rest, c, rfl⟩
  · rw [List.append_nil] at hrest
    rw [hrest, List.foldl_append] at hne
    exact absurd (step_tryFinish_opened _) hne
  · rw [List.concat_eq_append, ← List.append_assoc] at hrest
    obtain ⟨rfl, -⟩ := List.append_inj' hrest rfl
    obtain ⟨content, hmem, hpre⟩ := opened_ended rest _ hne
    rw [← List.foldl_append, ← List.append_assoc] at hmem
    exact ⟨content, hmem, hlen.trans hpre.length_le⟩

/-! ## What encoders write -/

theorem checkContentLen_iff {info : FrameInfo} {n : Nat} :
    checkContentLen info n = .ok () ↔ ∀ size, info.contentSize = some size → n = size.toNat := by
  unfold checkContentLen
  cases info.contentSize with
  | none => exact ⟨fun _ => nofun, fun _ => rfl⟩
  | some size =>
    dsimp only
    constructor
    · intro h _ hsize
      obtain rfl := Option.some.inj hsize
      split at h
      · cases h
      · exact not_not.mp ‹_›
    · intro h
      rw [if_neg (not_not.mpr (h size rfl))]

/-- An encoder that has no `Dict_ID` has no dictionary. -/
theorem created_dict (h : Created X w e) (hid : e.frameInfo.dictId = none) : e.dict = [] := by
  have plain {info : FrameInfo} (h : withFrameInfo X info w = .ret e) : e.dict = [] := by
    obtain ⟨T, -, he⟩ := Run.bind_eq_ret.mp h
    obtain rfl := Run.ret.inj he
    rfl
  cases h with
  | new h => exact plain h
  | withFrameInfo h => exact plain h
  | withDictionary h =>
    obtain ⟨e', hnew, he⟩ := Run.bind_eq_ret.mp h
    have hinfo := withFrameInfo_info hnew
    obtain rfl := Run.ret.inj he
    dsimp only at hid
    rw [hinfo] at hid
    cases hid

/-- The frames that end have the lengths that the headers declare, and a `u64` has room
for them. -/
def Declared (info : FrameInfo) (cs : List EncoderCall) : Prop :=
  ∀ content ∈ (Progress.after cs).ended, content.length < 2 ^ 64 ∧
    ∀ size, info.contentSize = some size → content.length = size.toNat

/-- No call fails, and a stream with all that the calls were given is what the writer has
taken. -/
theorem encoderRun_succeeds (t : Target) (hw : Reliable w) (he : Created X w e) (cs : List EncoderCall)
    (hcs : Declared e.frameInfo (cs ++ [.tryFinish])) :
    ∃ e' bytes, encoderRun t e (cs ++ [.tryFinish]) =
        .ret ((cs ++ [EncoderCall.tryFinish]).map fun c => .ok c.bytes.length, e') ∧
      e'.w.accepted = w.accepted ++ bytes ∧
      Stream X e.dict e.frameInfo.dictId (cs.map EncoderCall.bytes).flatten bytes := by
  rcases encoderRun_ok t (cs ++ [.tryFinish]) (created_session he) with ⟨-, hover⟩ | hran
  · obtain ⟨content, hmem, hlen⟩ := hover.ended
    exact absurd (hcs content hmem).1 (Nat.not_lt_of_le hlen)
  · obtain ⟨q, hrun, hq⟩ := Run.WP_iff.mp hran
    cases hq with
    | failed _ hr =>
      obtain ⟨content, hmem, hne⟩ := hr hw
      exact absurd (checkContentLen_iff.mpr (hcs content hmem).2) hne
    | @ok e' hs =>
      have hopened : ((cs ++ [EncoderCall.tryFinish]).foldl Progress.step Progress.start).opened = [] := by
        rw [List.foldl_append]
        exact step_tryFinish_opened _
      rcases hs.state with ⟨-, hrest⟩ | ⟨hne, -⟩
      · obtain ⟨bytes, hstream, hsent⟩ := hrest.sent
        rw [← after_content]
        exact ⟨e', bytes, hrun, hsent.accepted, hstream⟩
      · exact absurd hopened hne

/-! ## And back -/

/-- The options for a decoder with the dictionary of an encoder. -/
def decoderOptions (e : FrameEncoder X) (maxOutput : Option Nat) : FrameDecoderOptions :=
  ⟨e.frameInfo.dictId.map fun id => (e.dict, id), maxOutput⟩

theorem settings_decoderOptions (t : Target) (he : Created X w e) (maxOutput : Option Nat) :
    (settings t (decoderOptions e maxOutput)).dict = e.dict ∧
      (settings t (decoderOptions e maxOutput)).dictId = e.frameInfo.dictId ∧
      (settings t (decoderOptions e maxOutput)).maxOutput = maxOutput.getD t.usizeMax := by
  have hdict := created_dict he
  unfold decoderOptions settings
  cases hid : e.frameInfo.dictId with
  | none => exact ⟨(hdict hid).symm, rfl, rfl⟩
  | some id => exact ⟨rfl, rfl, rfl⟩

/-- What a decoder with the dictionary of an encoder reads from its stream: all of the
content, or as much of it as its limit lets through block by block. -/
theorem stream_outcome (hX : Spec.Lawful X) (t : Target) (he : Created X w e) (maxOutput : Option Nat)
    (hmax : Limited t (decoderOptions e maxOutput)) {content bytes : List UInt8}
    (hstream : Stream X e.dict e.frameInfo.dictId content bytes) :
    let limit := maxOutput.getD t.usizeMax
    (content.length ≤ limit → Outcome X t (decoderOptions e maxOutput) bytes content none) ∧
    (limit < content.length → ∃ D n, D <+: content ∧ D.length ≤ limit ∧ limit < n ∧
      n ≤ content.length ∧ Outcome X t (decoderOptions e maxOutput) bytes D
        (some (.decompressedSizeLimit limit (min n t.usizeMax)))) := by
  obtain ⟨hdict, hid, hlimit⟩ := settings_decoderOptions t he maxOutput
  have htext := hstream.text
  rw [← hdict, ← hid] at htext
  obtain ⟨hall, hpart⟩ := Text.left hX hmax htext 0
  rw [Nat.zero_add, hlimit] at hall hpart
  refine ⟨fun hle => ?_, fun hlt => ?_⟩
  · obtain ⟨f, hleft⟩ := hall hle
    exact hleft.outcome
  · obtain ⟨D, f, n, hpre, hle, hn, hn', hleft⟩ := hpart (Nat.zero_le _) hlt
    rw [Nat.zero_add] at hle
    refine ⟨D, n, hpre, hle, hn, hn', ?_⟩
    have houtcome := hleft.outcome
    rwa [Exceeded, Exceeds, hlimit] at houtcome

theorem usizeMax_limited (t : Target) (he : Created X w e) : Limited t (decoderOptions e none) := by
  rw [Limited, (settings_decoderOptions t he none).2.2]
  exact Nat.sub_lt t.modulus_pos Nat.one_pos

/-- A frame is no longer than all that is written. -/
theorem declared_of_le {info : FrameInfo} {cs : List EncoderCall}
    (hsize : ∀ size, info.contentSize = some size →
      ∀ content ∈ (Progress.after (cs ++ [.tryFinish])).ended, content.length = size.toNat)
    (hlen : (cs.map EncoderCall.bytes).flatten.length < 2 ^ 64) :
    Declared info (cs ++ [.tryFinish]) := fun content hmem => by
  have hle := (List.sublist_flatten_of_mem hmem).length_le
  rw [after_content] at hle
  exact ⟨Nat.lt_of_le_of_lt hle hlen, fun size h => hsize size h content hmem⟩

/-- What an encoder writes in any calls is read back by a decoder, of the same or of another
target: all that the calls were given, or as much of it as the decoder's limit lets through
block by block. -/
theorem encoderRun_roundtrip (hX : Spec.Lawful X) (t t' : Target) (hw : Reliable w) (he : Created X w e)
    (cs : List EncoderCall) (hcs : Declared e.frameInfo (cs ++ [.tryFinish])) :
    ∃ e' bytes, encoderRun t e (cs ++ [.tryFinish]) =
        .ret ((cs ++ [EncoderCall.tryFinish]).map fun c => .ok c.bytes.length, e') ∧
      e'.w.accepted = w.accepted ++ bytes ∧
      ∀ maxOutput, Limited t' (decoderOptions e maxOutput) →
        let content := (cs.map EncoderCall.bytes).flatten
        let limit := maxOutput.getD t'.usizeMax
        (content.length ≤ limit → Outcome X t' (decoderOptions e maxOutput) bytes content none) ∧
        (limit < content.length → ∃ D n, D <+: content ∧ D.length ≤ limit ∧ limit < n ∧
          n ≤ content.length ∧ Outcome X t' (decoderOptions e maxOutput) bytes D
            (some (.decompressedSizeLimit limit (min n t'.usizeMax)))) := by
  obtain ⟨e', bytes, hrun, hsent, hstream⟩ := encoderRun_succeeds t hw he cs hcs
  exact ⟨e', bytes, hrun, hsent, fun maxOutput hmax => stream_outcome hX t' he maxOutput hmax hstream⟩

/-- A write of three bytes, read back on a target of another width. -/
theorem encoderRun_roundtrip_write :
    let t : Target := ⟨.w64, false, false⟩
    let t' : Target := ⟨.w32, true, false⟩
    ∃ e e' : FrameEncoder Spec.xxHash32, ∃ bytes, Created Spec.xxHash32 ⟨[], [], []⟩ e ∧
      encoderRun t e ([.write [1, 2, 3]] ++ [.tryFinish]) = .ret ([.ok 3, .ok 0], e') ∧
      e'.w.accepted = bytes ∧
      Outcome Spec.xxHash32 t' (decoderOptions e none) bytes ([1, 2, 3] ++ []) none := by
  intro t t'
  obtain ⟨e, hnew⟩ : ∃ e, FrameEncoder.new Spec.xxHash32 ⟨[], [], []⟩ = .ret e := ⟨_, rfl⟩
  have hinfo := withFrameInfo_info hnew
  have hcs : Declared e.frameInfo ([.write [1, 2, 3]] ++ [.tryFinish]) := by
    intro content hmem
    obtain rfl := List.mem_singleton.mp hmem
    refine ⟨by decide, fun size hsize => ?_⟩
    rw [hinfo] at hsize
    cases hsize
  obtain ⟨e', bytes, hrun, hsent, hall⟩ := encoderRun_roundtrip Spec.xxHash32_lawful t t'
    (show Reliable ⟨[], [], []⟩ from ⟨by simp, by simp⟩) (.new hnew) [.write [1, 2, 3]] hcs
  refine ⟨e, e', bytes, .new hnew, hrun, hsent, (hall none ?_).1 (by decide)⟩
  show (settings t' (decoderOptions e none)).maxOutput < t'.modulus
  rw [(settings_decoderOptions t' (.new hnew) none).2.2]
  decide

end Lz4rip.Proof.Frame
