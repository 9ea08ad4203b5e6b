import Lz4rip.Framework.Ensures
import Lz4rip.Proof.Frame.Latch
import Mathlib.Tactic.Ring

/-!
# How much an encoder writes

Whatever its writer does, an encoder sends little more than it is given: the header and the
end of each frame, and the size and the checksum of each block (`encoderRun_expansion`).
A block that is not full is there only for a `flush` or at the end of a frame; the size of
a full one is paid for by its bytes, as they are written (`Budget`).
-/

namespace Lz4rip.Proof.Frame

open Lz4rip.Impl
open Lz4rip.Impl.FrameEncoder
open Proc (Ensures Preserves)
open Spec (Created EncoderCall blockLimit encoderCall encoderRun headerBytes)

variable {X : XxHash32} {t : Target} {e : FrameEncoder X} {info : FrameInfo}

/-! ## What is sent beside the data -/

/-- The size of a block, and its checksum. -/
def blockOverhead (info : FrameInfo) : Nat := BLOCK_INFO_SIZE + if info.blockChecksums then 4 else 0

/-- The end mark, and the checksum of the content. -/
def endOverhead (info : FrameInfo) : Nat := BLOCK_INFO_SIZE + if info.contentChecksum then 4 else 0

/-- How long a full block is at least. -/
def leastBlock (info : FrameInfo) : Nat :=
  if info.blockSize = .auto then 64 * 1024 else blockLimit info.blockSize

/-- The writer has taken at most `n` bytes more. -/
def Spends (n : Nat) (e e' : FrameEncoder X) : Prop :=
  ∃ w, e' = { e with w } ∧ w.accepted.length ≤ e.w.accepted.length + n

theorem Spends.trans {n m : Nat} {e₁ e₂ : FrameEncoder X} (h : Spends n e e₁) (h' : Spends m e₁ e₂) :
    Spends (n + m) e e₂ := by
  obtain ⟨w, rfl, hw⟩ := h
  obtain ⟨w', rfl, hw'⟩ := h'
  dsimp only at hw'
  exact ⟨w', rfl, by omega⟩

theorem Spends.mono {n m : Nat} {e' : FrameEncoder X} (h : Spends n e e') (hle : n ≤ m) : Spends m e e' := by
  obtain ⟨w, rfl, hw⟩ := h
  exact ⟨w, rfl, by omega⟩

theorem writeAll_spends {buf : List UInt8} {n : Nat} (hn : buf.length = n) :
    Preserves (Spends n e) (writeAll buf e) := by
  unfold writeAll
  rcases writeAll_cases e.w buf with ⟨w, hw, hs⟩ | ⟨err, w, taken, hw, htaken, ha, -⟩
  · rw [hw]
    exact .ret ⟨w, rfl, by rw [hs.accepted, List.length_append, hn]⟩
  · rw [hw]
    have hlen := htaken.length_le
    exact .error ⟨w, rfl, by rw [ha, List.length_append]; omega⟩

theorem flushWriter_spends : Preserves (Spends 0 e) (flushWriter e) := by
  have hw := flush_accepted e.w
  unfold flushWriter
  generalize e.w.flush = q at hw ⊢
  obtain ⟨r, w⟩ := q
  have hspends : Spends 0 e { e with w } := ⟨w, rfl, Nat.le_of_eq (congrArg List.length hw)⟩
  cases r with
  | ok u => exact .ret hspends
  | error err => exact .error hspends

/-- Code that goes on after bytes are sent. -/
theorem spends_bind {α β : Type} {x : Encode X α} {f : α → Encode X β} {n m : Nat}
    (h : Preserves (Spends n e) (x e)) (hf : ∀ a e', Spends n e e' → Preserves (Spends m e') (f a e')) :
    Preserves (Spends (n + m) e) ((x >>= f) e) :=
  (h.mono (fun _ _ h => h) fun _ _ h => h.mono (Nat.le_add_right n m)).bind fun a e' h' =>
    (hf a e' h').mono (fun _ _ h'' => h'.trans h'') fun _ _ h'' => h'.trans h''

/-! ## A block -/

theorem length_blockInfo {i : BlockInfo} {bytes : List UInt8} (h : i.write = .ok bytes) :
    bytes.length = BLOCK_INFO_SIZE := by
  cases i with
  | compressed len =>
    rw [BlockInfo.write] at h
    split_ifs at h
    cases h
    rfl
  | uncompressed len =>
    rw [BlockInfo.write] at h
    split_ifs at h
    cases h
    rfl
  | endMark =>
    cases h
    rfl

theorem emitBlock_spends (i : BlockInfo) (data : List UInt8) :
    Preserves (Spends (data.length + blockOverhead e.frameInfo) e) (emitBlock i data e) := by
  have hsum : data.length + blockOverhead e.frameInfo =
      BLOCK_INFO_SIZE + (data.length + if e.frameInfo.blockChecksums then 4 else 0) := by
    rw [blockOverhead, Nat.add_left_comm]
  rw [hsum]
  refine .ofExcept (fun bytes hbytes => ?_) fun _ => ⟨e.w, rfl, Nat.le_add_right _ _⟩
  refine spends_bind (writeAll_spends (length_blockInfo hbytes)) fun _ e₁ h₁ => ?_
  refine spends_bind (writeAll_spends rfl) fun _ e₂ h₂ => .get ?_
  obtain ⟨w₁, rfl, -⟩ := h₁
  obtain ⟨w₂, rfl, -⟩ := h₂
  refine .ite (fun hc => ?_) fun hc => ?_
  · dsimp only at hc ⊢
    rw [if_pos hc]
    exact writeAll_spends rfl
  · dsimp only at hc ⊢
    rw [if_neg hc]
    exact .ret ⟨w₂, rfl, Nat.le_refl _⟩

/-- A block is not sent longer than it is. -/
theorem blockData_post (res : Except CompressError Nat) (dst src : List UInt8) :
    (blockData res dst src).Post fun r => ∀ i data, r = .ok (i, data) → data.length ≤ src.length := by
  unfold blockData
  cases res with
  | error err => exact .ret nofun
  | ok n =>
    dsimp only
    split
    · rename_i hlt
      refine .bind .chunk fun data hdata => .ret fun i data' h => ?_
      obtain ⟨-, rfl⟩ := Prod.mk.inj (Except.ok.inj h)
      omega
    · refine .ret fun i data h => ?_
      obtain ⟨-, rfl⟩ := Prod.mk.inj (Except.ok.inj h)
      exact Nat.le_refl _

theorem sourceBlock_post : (sourceBlock e).Post fun q => q.2.length = e.srcEnd - e.srcStart := by
  unfold sourceBlock
  refine .bind .chunk fun input ⟨hinput, _⟩ => .bind (.sub _ _) fun n ⟨hn, _⟩ => .bind .chunk fun src ⟨hsrc, _⟩ => ?_
  exact .ret (by rw [hsrc, hn, hinput])

/-- The writer has taken at most `n` bytes more, and the same frame is open. -/
structure Grows (n : Nat) (e e' : FrameEncoder X) : Prop where
  sent_le : e'.w.accepted.length ≤ e.w.accepted.length + n
  info : e'.frameInfo = e.frameInfo
  isOpen : e'.isFrameOpen = e.isFrameOpen

theorem Spends.grows {n m : Nat} {e₁ e₂ : FrameEncoder X} (h : Grows n e e₁) (h' : Spends m e₁ e₂) :
    Grows (n + m) e e₂ := by
  obtain ⟨w, rfl, hw⟩ := h'
  have hsent := h.sent_le
  exact { h with sent_le := by dsimp only; omega }

theorem Grows.mono {n m : Nat} {e' : FrameEncoder X} (h : Grows n e e') (hle : n ≤ m) : Grows m e e' :=
  { h with sent_le := h.sent_le.trans (Nat.add_le_add_left hle _) }

section

variable {n : Nat} {e₁ : FrameEncoder X} (h : Grows n e e₁)

include h

theorem repositionTable_grows (limit : Nat) : Preserves (Grows n e) (repositionTable t limit e₁) := by
  unfold repositionTable
  refine .get (.lift (.any _) fun again _ => .ite (fun _ => ?_) fun _ => .ret h)
  exact .lift (.any _) fun offset _ => .ret { h with }

theorem compressSrc_grows (input src : List UInt8) : Preserves (Grows n e) (compressSrc t input src e₁) := by
  unfold compressSrc
  refine .get (.lift (.any _) fun size _ => .ite (fun _ => ?_) fun _ => .ite (fun _ => ?_) fun _ => ?_)
  · refine .lift (.any _) fun _ _ => .lift (.any _) fun _ _ => .lift (.any _) fun _ _ => ?_
    exact .modify (.ret { h with })
  · refine .lift (.any _) fun _ _ => .lift (.any _) fun _ _ => .lift (.any _) fun _ _ => ?_
    exact .lift (.any _) fun _ _ => .modify (.ret { h with })
  · refine .lift (.any _) fun _ _ => .lift (.any _) fun _ _ => ?_
    exact .modify (.ret { h with })

theorem seedTable_grows (src : List UInt8) : Preserves (Grows n e) (seedTable t src e₁) := by
  unfold seedTable
  refine .get (.ite (fun _ => ?_) fun _ => .ret h)
  exact .lift (.any _) fun table _ => .ret { h with }

theorem addStreamOffset_grows (delta : Nat) (hidle : e₁.srcStart = e₁.srcEnd) :
    Preserves (fun e' => Grows n e e' ∧ e'.srcStart = e'.srcEnd) (addStreamOffset t delta e₁) := by
  unfold addStreamOffset
  refine .get ?_
  cases t.width with
  | w32 =>
    exact .ite (fun _ => .ret ⟨{ h with }, hidle⟩) fun _ => .error ⟨h, hidle⟩
  | w64 =>
    exact .lift (.any _) fun offset _ => .ret ⟨{ h with }, hidle⟩

theorem slideSource_grows (limit len : Nat) (hidle : e₁.srcStart = e₁.srcEnd) :
    Preserves (fun e' => Grows n e e' ∧ e'.srcStart = e'.srcEnd) (slideSource t limit len e₁) := by
  have checked {e' : FrameEncoder X} (h' : Grows n e e' ∧ e'.srcStart = e'.srcEnd) :
      Preserves (fun e' => Grows n e e' ∧ e'.srcStart = e'.srcEnd) ((do
        let e ← Proc.get
        Proc.lift (Run.assert (e.extDictLen = 0 ∨ e.srcStart + limit ≤ e.extDictOffset)) : Encode X Unit) e') :=
    .get (.last (.any _) fun _ _ => h')
  unfold slideSource
  refine .get (.ite (fun _ => .lift (.any _) fun _ _ => ?_) fun _ => ?_)
  · refine .ite (fun _ => ?_) fun _ => .ite (fun _ => ?_) fun _ => checked ⟨h, hidle⟩
    · refine .lift (.any _) fun offset _ => .modify ?_
      have hwrapped : Grows n e { e₁ with extDictOffset := offset, extDictLen := WINDOW_SIZE } := { h with }
      exact (addStreamOffset_grows hwrapped _ hidle).bind fun _ e₂ h₂ => .modify (checked ⟨{ h₂.1 with }, rfl⟩)
    · exact .modify (.get (.lift (.any _) fun _ _ => checked ⟨{ h with }, hidle⟩))
  · refine .lift (.any _) fun _ _ => .lift (.any _) fun _ _ => .modify ?_
    have hreset : Grows n e { e₁ with srcStart := 0, srcEnd := 0 } := { h with }
    exact addStreamOffset_grows hreset _ rfl

end

/-- A block is sent with all that waits, and its overhead. -/
theorem writeBlock_grows :
    Ensures (fun _ e' => Grows (e.srcEnd - e.srcStart + blockOverhead e.frameInfo) e e' ∧ e'.srcStart = e'.srcEnd)
      (fun _ e' => Grows (e.srcEnd - e.srcStart + blockOverhead e.frameInfo) e e')
      (FrameEncoder.writeBlock t e) := by
  have hzero : Grows 0 e e := ⟨Nat.le_refl _, rfl, rfl⟩
  have fails {α : Type} {Q : α → FrameEncoder X → Prop} {n : Nat} {x : Run (Except Error α × FrameEncoder X)}
      (h : Ensures Q (fun _ => Grows n e) x) (hle : n ≤ e.srcEnd - e.srcStart + blockOverhead e.frameInfo) :
      Ensures Q (fun _ => Grows (e.srcEnd - e.srcStart + blockOverhead e.frameInfo) e) x :=
    h.mono (fun _ _ h => h) fun _ _ h => h.mono hle
  unfold FrameEncoder.writeBlock
  refine .get (.lift (.any _) fun _ _ => .lift (.any _) fun limit _ => .lift (.any _) fun _ _ => ?_)
  refine (fails (repositionTable_grows hzero limit) (Nat.zero_le _)).bind fun _ e₁ h₁ => ?_
  refine .lift sourceBlock_post fun q hsrc => ?_
  refine (fails (compressSrc_grows h₁ _ _) (Nat.zero_le _)).bind fun res e₂ h₂ => .get ?_
  refine .lift (blockData_post _ _ _) fun block hblock => .ofExcept (fun b hb => ?_) fun _ => h₂.mono (Nat.zero_le _)
  have hdata := hblock b.1 b.2 hb
  refine (fails (seedTable_grows h₂ _) (Nat.zero_le _)).bind fun _ e₃ h₃ => ?_
  have hemit : Preserves (Grows (e.srcEnd - e.srcStart + blockOverhead e.frameInfo) e) (emitBlock b.1 b.2 e₃) :=
    (emitBlock_spends b.1 b.2).mono (fun _ _ h => (h.grows h₃).mono (by rw [h₃.info]; omega))
      fun _ _ h => (h.grows h₃).mono (by rw [h₃.info]; omega)
  refine hemit.bind fun _ e₄ h₄ => .modify ?_
  have hhash : Grows (e.srcEnd - e.srcStart + blockOverhead e.frameInfo) e
      (if e₄.frameInfo.contentChecksum then { e₄ with contentHasher := X.write e₄.contentHasher q.2 } else e₄) := by
    split
    · exact { h₄ with }
    · exact h₄
  generalize (if e₄.frameInfo.contentChecksum then { e₄ with contentHasher := X.write e₄.contentHasher q.2 }
    else e₄) = e₅ at hhash ⊢
  refine .get (.lift (.any _) fun _ _ => .modify (.get (.lift .assert fun _ hidle => ?_)))
  have hcounted : Grows (e.srcEnd - e.srcStart + blockOverhead e.frameInfo) e { e₅ with
      contentLen := e₅.contentLen + q.2.length, srcStart := e₅.srcStart + q.2.length } := { hhash with }
  refine ((slideSource_grows hcounted limit _ hidle).mono (fun _ _ h => h) fun _ _ h => h.1).bind fun _ e₆ h₆ => ?_
  exact .get (.lift (.any _) fun _ _ => .last (.any _) fun _ _ => h₆)

/-! ## What is paid for -/

/-- What an encoder is given and is sent for it, a block's overhead with every `leastBlock`
bytes. Where no frame is open the next header is paid for. -/
def paid (info : FrameInfo) (e : FrameEncoder X) : Nat :=
  leastBlock info * (e.w.accepted.length + if e.isFrameOpen then 0 else info.writeSize) +
    (leastBlock info + blockOverhead info) * (e.srcEnd - e.srcStart)

/-- The settings are those of `info`, up to a block size that is chosen. -/
structure Settled (info : FrameInfo) (e : FrameEncoder X) : Prop where
  info_eq : e.frameInfo = { info with blockSize := e.frameInfo.blockSize }
  size : info.blockSize ≠ .auto → e.frameInfo.blockSize = info.blockSize

/-- No more is paid than there is to pay. -/
structure Budget (info : FrameInfo) (budget : Nat) (e : FrameEncoder X) : Prop extends Settled info e where
  paid_le : paid info e ≤ budget

/-- What a call that fails leaves. -/
def Spent (info : FrameInfo) (budget : Nat) (e : FrameEncoder X) : Prop :=
  leastBlock info * e.w.accepted.length ≤ budget

theorem Settled.overheads (h : Settled info e) : blockOverhead e.frameInfo = blockOverhead info ∧
    endOverhead e.frameInfo = endOverhead info ∧ e.frameInfo.writeSize = info.writeSize := by
  rw [h.info_eq]
  exact ⟨rfl, rfl, rfl⟩

theorem Settled.grows {n : Nat} {e' : FrameEncoder X} (h : Settled info e) (h' : Grows n e e') : Settled info e' := by
  obtain ⟨-, hinfo, -⟩ := h'
  exact ⟨by rw [hinfo]; exact h.info_eq, fun hne => by rw [hinfo]; exact h.size hne⟩

theorem Settled.leastBlock_le (h : Settled info e) (hne : e.frameInfo.blockSize ≠ .auto) :
    leastBlock info ≤ blockLimit e.frameInfo.blockSize := by
  unfold leastBlock
  split
  · exact blockLimit_ge hne
  · rw [h.size ‹_›]

theorem spent_of_sent {b n : Nat} (h : leastBlock info * (e.w.accepted.length + n) ≤ b) : Spent info b e :=
  (Nat.mul_le_mul_left _ (Nat.le_add_right _ n)).trans h

theorem Budget.spent {budget : Nat} (h : Budget info budget e) : Spent info budget e :=
  spent_of_sent ((Nat.le_add_right _ _).trans h.paid_le)

/-! ## Calls -/

/-- A block is paid for by what waits, up to its overhead. -/
theorem sent_block {b : Nat} {e' : FrameEncoder X} (hs : Settled info e) (hb : paid info e ≤ b)
    (h : Grows (e.srcEnd - e.srcStart + blockOverhead e.frameInfo) e e') :
    leastBlock info * (e'.w.accepted.length + if e'.isFrameOpen then 0 else info.writeSize) +
      blockOverhead info * (e.srcEnd - e.srcStart) ≤ b + leastBlock info * blockOverhead info := by
  obtain ⟨hsent, -, hopen⟩ := h
  rw [hs.overheads.1] at hsent
  rw [hopen]
  unfold paid at hb
  generalize (if e.isFrameOpen then 0 else info.writeSize) = m at hb ⊢
  have hmul := Nat.mul_le_mul_left (leastBlock info) (Nat.add_le_add_right hsent m)
  simp only [Nat.mul_add, Nat.add_mul] at hb hmul ⊢
  omega

theorem paid_idle (hidle : e.srcStart = e.srcEnd) : paid info e =
    leastBlock info * (e.w.accepted.length + if e.isFrameOpen then 0 else info.writeSize) := by
  rw [paid, hidle, Nat.sub_self, Nat.mul_zero, Nat.add_zero]

theorem getSize_post (b : BlockSize) : b.getSize.Post fun n => n = blockLimit b ∧ b ≠ .auto := by
  intro n hn
  cases b <;> cases hn <;> exact ⟨rfl, nofun⟩

theorem writeStep_budget {b : Nat} {rest : List UInt8} (hs : Settled info e)
    (hb : paid info e + (leastBlock info + blockOverhead info) * rest.length ≤ b) :
    Ensures (Proc.FlowAll (fun rest e => Settled info e ∧
      paid info e + (leastBlock info + blockOverhead info) * rest.length ≤ b) fun _ => Budget info b)
      (fun _ => Spent info b) (writeStep t rest e) := by
  unfold writeStep
  by_cases hrest : rest = []
  · subst hrest
    exact .ret ⟨hs, hb⟩
  rw [if_neg hrest]
  refine .get (.lift (.sub _ _) fun n ⟨hn, hstart⟩ => .lift (getSize_post _) fun limit ⟨hlimit, hne⟩ => ?_)
  refine .lift (.sub _ _) fun free ⟨hfree, hfilled⟩ => .ite (fun hfull => ?_) fun hfree' => ?_
  · -- The block is full: its bytes have paid for what it has beside them.
    have hpaid : leastBlock info * blockOverhead info ≤ blockOverhead info * (e.srcEnd - e.srcStart) := by
      have hleast := hs.leastBlock_le hne
      rw [Nat.mul_comm]
      exact Nat.mul_le_mul_left _ (by omega)
    have hsum : paid info e ≤ b - (leastBlock info + blockOverhead info) * rest.length := by omega
    refine (writeBlock_grows.mono (fun _ _ h => h) fun _ e' h => ?_).bind fun _ e₁ ⟨h₁, hidle⟩ =>
      .get (.lift (.any _) fun _ _ => .ret ⟨hs.grows h₁, ?_⟩)
    · have hsent := sent_block hs hsum h
      exact spent_of_sent (n := if e'.isFrameOpen then 0 else info.writeSize) (by omega)
    · have hsent := sent_block hs hsum h₁
      rw [paid_idle hidle]
      omega
  · refine .lift (.any _) fun src _ => .modify (.ret ⟨⟨hs.info_eq, hs.size⟩, ?_⟩)
    have hmin : min free rest.length ≤ rest.length := Nat.min_le_right _ _
    have hwait : e.srcEnd + min free rest.length - e.srcStart = e.srcEnd - e.srcStart + min free rest.length := by
      omega
    have hsplit : (leastBlock info + blockOverhead info) * rest.length =
        (leastBlock info + blockOverhead info) * min free rest.length +
          (leastBlock info + blockOverhead info) * (rest.drop (min free rest.length)).length := by
      rw [← Nat.mul_add, List.length_drop, Nat.add_sub_cancel' hmin]
    unfold paid at hb ⊢
    dsimp only
    rw [hwait, Nat.mul_add (leastBlock info + blockOverhead info)]
    omega

theorem Settled.resolve (h : Settled info e) (bufLen : Nat) :
    Settled info { e with frameInfo := Frame.resolve e.frameInfo bufLen } := by
  refine ⟨?_, fun hne => ?_⟩
  · dsimp only
    rw [resolve_eq, h.info_eq]
  · dsimp only
    rw [Frame.resolve, if_neg (by rwa [h.size hne]), h.size hne]

theorem headerWrite_post {i : FrameInfo} (hne : i.blockSize ≠ .auto) :
    (i.write X (List.replicate MAX_FRAME_INFO_SIZE 0)).Post fun q => q.1 = .ok i.writeSize := by
  rw [write_ok hne (by rw [List.length_replicate]; exact (writeSize_range i).2)]
  exact .ret rfl

/-- The header of a frame is paid for before. -/
theorem beginFrame_budget {b : Nat} (bufLen : Nat) (h : Budget info b e) (hopen : e.isFrameOpen = false) :
    Ensures (fun _ => Budget info b) (fun _ => Spent info b) (beginFrame t bufLen e) := by
  have hb := h.paid_le
  have hset := h.toSettled.resolve bufLen
  have hresolve : (if e.frameInfo.blockSize = .auto then
      { e with frameInfo := { e.frameInfo with blockSize := .fromBufLength bufLen } } else e) =
      { e with frameInfo := resolve e.frameInfo bufLen } := by
    unfold resolve
    split <;> rfl
  unfold beginFrame
  refine .modify ?_
  rw [hresolve]
  refine Ensures.bind (Q := fun _ e' => ∃ src dst, e' =
    { e with frameInfo := resolve e.frameInfo bufLen, src, dst }) ?_ fun _ e₁ ⟨src, dst, he₁⟩ => ?_
  · unfold init
    exact .get (.lift (.any _) fun _ _ => .lift (.any _) fun _ _ => .ret ⟨_, _, rfl⟩)
  subst he₁
  refine .get (.lift (headerWrite_post (resolve_blockSize _ _)) fun ⟨size, buffer⟩ hsize => ?_)
  dsimp only at hsize ⊢
  subst hsize
  refine .ofExcept (fun n hn => .lift .chunk fun header ⟨hheader, _⟩ => ?_) fun _ => h.spent
  obtain rfl := Except.ok.inj hn
  have hlen : header.length = info.writeSize := hheader.trans hset.overheads.2.2
  unfold paid at hb
  rw [hopen] at hb
  refine ((writeAll_spends hlen).mono (fun _ _ h => h) fun _ e' h' => ?_).bind fun _ e₂ h₂ => .get ?_
  · obtain ⟨w, rfl, hw⟩ := h'
    exact (Nat.mul_le_mul_left _ hw).trans ((Nat.le_add_right _ _).trans hb)
  · obtain ⟨w, rfl, hw⟩ := h₂
    have hsent := Nat.mul_le_mul_left (leastBlock info) hw
    refine .ite (fun _ => .modify (.ret ⟨⟨hset.info_eq, hset.size⟩, ?_⟩)) fun _ =>
      .ret ⟨⟨hset.info_eq, hset.size⟩, ?_⟩
    · exact hsent.trans ((Nat.le_add_right _ _).trans hb)
    · exact (Nat.add_le_add_right hsent _).trans hb

theorem Budget.failed {b : Nat} (h : Budget info b e) (failed : Bool) : Budget info b { e with failed } :=
  ⟨⟨h.info_eq, h.size⟩, h.paid_le⟩

theorem writeRest_budget {b : Nat} (buf : List UInt8) (h : Budget info b e) :
    Ensures (fun _ => Budget info (b + (leastBlock info + blockOverhead info) * buf.length))
      (fun _ => Spent info (b + (leastBlock info + blockOverhead info) * buf.length)) (writeRest t buf e) := by
  unfold writeRest
  refine Ensures.bind (Q := fun _ => Budget info (b + (leastBlock info + blockOverhead info) * buf.length))
    (.loop (fun rest e => Settled info e ∧ paid info e + (leastBlock info + blockOverhead info) * rest.length ≤
      b + (leastBlock info + blockOverhead info) * buf.length) (fun rest e ⟨hs, hb⟩ => writeStep_budget hs hb) _ buf e
        ⟨h.toSettled, Nat.add_le_add_right h.paid_le _⟩) fun _ e' h' => ?_
  exact .modify (.ret (h'.failed false))

/-- A write is paid for by what it is given. -/
theorem write_budget {b : Nat} (buf : List UInt8) (h : Budget info b e) :
    Ensures (fun _ => Budget info (b + (leastBlock info + blockOverhead info) * buf.length))
      (fun _ => Spent info (b + (leastBlock info + blockOverhead info) * buf.length)) (FrameEncoder.write t buf e) := by
  have more {e' : FrameEncoder X} (h : Spent info b e') :
      Spent info (b + (leastBlock info + blockOverhead info) * buf.length) e' := h.trans (Nat.le_add_right _ _)
  unfold FrameEncoder.write
  refine .get (.ite (fun _ => .error (more h.spent)) fun _ => .modify (.ite (fun hc => ?_) fun _ => ?_))
  · refine ((beginFrame_budget buf.length (h.failed true) hc.1).mono (fun _ _ h => h) fun _ _ h => more h).bind
      fun _ e₁ h₁ => writeRest_budget buf h₁
  · exact writeRest_budget buf (h.failed true)

/-- A `flush` costs one block. -/
theorem flush_budget {b : Nat} (h : Budget info b e) :
    Ensures (fun _ => Budget info (b + leastBlock info * blockOverhead info))
      (fun _ => Spent info (b + leastBlock info * blockOverhead info)) (FrameEncoder.flush t e) := by
  have more {e' : FrameEncoder X} (h : Budget info b e') : Budget info (b + leastBlock info * blockOverhead info) e' :=
    { h with paid_le := h.paid_le.trans (Nat.le_add_right _ _) }
  have hflush {e₁ : FrameEncoder X} (h₁ : Budget info (b + leastBlock info * blockOverhead info) e₁) :
      Ensures (fun _ => Budget info (b + leastBlock info * blockOverhead info))
        (fun _ => Spent info (b + leastBlock info * blockOverhead info)) (flushRest e₁) := by
    have hspends {e₂ : FrameEncoder X} (hs : Spends 0 e₁ e₂) :
        Budget info (b + leastBlock info * blockOverhead info) e₂ := by
      obtain ⟨w, rfl, hw⟩ := hs
      refine ⟨⟨h₁.info_eq, h₁.size⟩, Nat.le_trans ?_ h₁.paid_le⟩
      exact Nat.add_le_add_right (Nat.mul_le_mul_left _ (Nat.add_le_add_right hw _)) _
    refine (flushWriter_spends.mono (fun _ _ h => hspends h) fun _ _ h => (hspends h).spent).bind fun _ e₂ h₂ => ?_
    exact .ret (h₂.failed false)
  unfold FrameEncoder.flush
  refine .get (.ite (fun _ => .error (more h).spent) fun _ => .modify (.ite (fun _ => ?_) fun _ => ?_))
  · have hset : Settled info { e with failed := true } := (h.failed true).toSettled
    have hpaid : paid info { e with failed := true } ≤ b := h.paid_le
    refine (writeBlock_grows.mono (fun _ _ h => h) fun _ e' h' => ?_).bind fun _ e₁ ⟨h₁, hidle⟩ => hflush ?_
    · have hsent := sent_block hset hpaid h'
      exact spent_of_sent (n := if e'.isFrameOpen then 0 else info.writeSize) (by omega)
    · have hsent := sent_block hset hpaid h₁
      exact ⟨hset.grows h₁, by rw [paid_idle hidle]; omega⟩
  · exact hflush (more (h.failed true))

theorem endFrame_spends :
    Ensures (fun _ e' => ∃ e₁, Spends (endOverhead e.frameInfo) e e₁ ∧ e' = { e₁ with isFrameOpen := false } ∧
      e.isFrameOpen = true) (fun _ => Spends (endOverhead e.frameInfo) e) (endFrame e) := by
  have hzero : Spends (endOverhead e.frameInfo) e e := ⟨e.w, rfl, Nat.le_add_right _ _⟩
  unfold endOverhead at hzero ⊢
  unfold endFrame
  refine .get (.lift .assert fun _ hopen => .ofExcept (fun _ _ => .ofExcept (fun bytes hbytes => ?_) fun _ => hzero)
    fun _ => hzero)
  refine ((writeAll_spends (length_blockInfo hbytes)).mono (fun _ _ h => h) fun _ _ h =>
    h.mono (Nat.le_add_right _ _)).bind fun _ e₁ h₁ => .ite (fun hc => ?_) fun _ => ?_
  · simp only [if_pos hc]
    refine ((writeAll_spends (n := 4) rfl).mono (fun _ _ h => h₁.trans h) fun _ _ h => h₁.trans h).bind fun _ e₂ h₂ => ?_
    exact .ret ⟨e₂, h₂, rfl, hopen⟩
  · exact .ret ⟨e₁, h₁.mono (Nat.le_add_right _ _), rfl, hopen⟩

/-- The end of a frame costs its end mark, and the next header. -/
theorem finishRest_budget {b : Nat} (h : Budget info b e) :
    Ensures (fun _ => Budget info (b + leastBlock info * (endOverhead info + info.writeSize)))
      (fun _ => Spent info (b + leastBlock info * (endOverhead info + info.writeSize))) (finishRest e) := by
  have hb := h.paid_le
  have hend := h.toSettled.overheads.2.1
  have hsent {e₁ : FrameEncoder X} (h₁ : Spends (endOverhead e.frameInfo) e e₁) :
      leastBlock info * (e₁.w.accepted.length + info.writeSize) +
        (leastBlock info + blockOverhead info) * (e₁.srcEnd - e₁.srcStart) ≤
          b + leastBlock info * (endOverhead info + info.writeSize) := by
    obtain ⟨w, rfl, hw⟩ := h₁
    rw [hend] at hw
    have hmul := Nat.mul_le_mul_left (leastBlock info) hw
    unfold paid at hb
    simp only [Nat.mul_add] at hb hmul ⊢
    omega
  unfold finishRest
  refine (endFrame_spends.mono (fun _ _ h => h) fun _ e₁ h₁ => ?_).bind fun _ e₁ ⟨e₂, h₂, he₁, _⟩ => ?_
  · exact spent_of_sent ((Nat.le_add_right _ _).trans (hsent h₁))
  · have hpaid := hsent h₂
    obtain ⟨w, rfl, -⟩ := h₂
    subst he₁
    exact .ret ⟨⟨h.info_eq, h.size⟩, hpaid⟩

theorem tryFinish_budget {b : Nat} (h : Budget info b e) :
    Ensures (fun _ => Budget info (b + leastBlock info * (blockOverhead info + (endOverhead info + info.writeSize))))
      (fun _ => Spent info (b + leastBlock info * (blockOverhead info + (endOverhead info + info.writeSize))))
      (FrameEncoder.tryFinish t e) := by
  rw [Nat.mul_add, ← Nat.add_assoc]
  have more {e' : FrameEncoder X} (h : Spent info (b + leastBlock info * blockOverhead info) e') :
      Spent info (b + leastBlock info * blockOverhead info + leastBlock info * (endOverhead info + info.writeSize)) e' :=
    h.trans (Nat.le_add_right _ _)
  unfold FrameEncoder.tryFinish
  refine ((flush_budget h).mono (fun _ _ h => h) fun _ _ h => more h).bind fun _ e₁ h₁ => .get ?_
  refine .ite (fun _ => .ret { h₁ with paid_le := h₁.paid_le.trans (Nat.le_add_right _ _) }) fun _ => .modify ?_
  refine .ite (fun hopen => ?_) fun _ => finishRest_budget (h₁.failed true)
  exact ((beginFrame_budget 0 (h₁.failed true) hopen).mono (fun _ _ h => h) fun _ _ h => more h).bind
    fun _ e₂ h₂ => finishRest_budget h₂

/-! ## Runs -/

/-- What a call is paid for, with `leastBlock` for each byte that is sent. -/
def price (info : FrameInfo) : EncoderCall → Nat
  | .write buf => (leastBlock info + blockOverhead info) * buf.length
  | .flush => leastBlock info * blockOverhead info
  | .tryFinish => leastBlock info * (blockOverhead info + (endOverhead info + info.writeSize))

theorem encoderCall_budget {b : Nat} (h : Budget info b e) (c : EncoderCall) :
    Ensures (fun _ => Budget info (b + price info c)) (fun _ => Spent info (b + price info c)) (encoderCall t c e) := by
  cases c with
  | write buf => exact write_budget buf h
  | flush => exact (flush_budget h).bind fun _ _ h => .ret h
  | tryFinish => exact (tryFinish_budget h).bind fun _ _ h => .ret h

theorem encoderRun_budget {dict : List UInt8} {w : Writer} : ∀ (cs : List EncoderCall) {p : Spec.Progress} {b : Nat}
    {e e₁ : FrameEncoder X} {rs : List (Except Error Nat)}, Session info dict p w e → Budget info b e →
    encoderRun t e cs = .ret (rs, e₁) → Spent info (b + (cs.map (price info)).sum) e₁
  | [], p, b, e, e₁, rs, _, h, hrun => by
    obtain ⟨-, rfl⟩ := Prod.mk.inj (Run.ret.inj hrun)
    exact h.spent
  | c :: cs, p, b, e, e₁, rs, hs, h, hrun => by
    rw [encoderRun_cons] at hrun
    obtain ⟨⟨r, e₂⟩, hc, hrun⟩ := Run.bind_eq_ret.mp hrun
    obtain ⟨⟨rs', e₃⟩, hcs, hrun⟩ := Run.bind_eq_ret.mp hrun
    obtain ⟨-, rfl⟩ := Prod.mk.inj (Run.ret.inj hrun)
    have hcall := encoderCall_budget (t := t) h c
    rw [List.map_cons, List.sum_cons, ← Nat.add_assoc]
    cases r with
    | ok n => exact encoderRun_budget cs ((encoderCall_ok t hs c).of_ret hc).2 (hcall.of_ok hc) hcs
    | error err =>
      rw [encoderRun_failed t (hs.failed t hc)] at hcs
      obtain ⟨-, rfl⟩ := Prod.mk.inj (Run.ret.inj hcs)
      exact (hcall.of_error hc).trans (Nat.le_add_right _ _)

/-- The most that calls send: what they are given, a block's overhead for every full block, and
for every `flush`, and what is around each frame. -/
def sentBound (info : FrameInfo) (cs : List EncoderCall) : Nat :=
  (cs.map EncoderCall.bytes).flatten.length +
    blockOverhead info * (cs.map EncoderCall.bytes).flatten.length / leastBlock info +
    blockOverhead info * (cs.count .flush + cs.count .tryFinish) +
    endOverhead info * cs.count .tryFinish + info.writeSize * (cs.count .tryFinish + 1)

theorem leastBlock_pos (info : FrameInfo) : 0 < leastBlock info := by
  unfold leastBlock
  split
  · decide
  · have hge := blockLimit_ge ‹_›
    omega

theorem sum_price (info : FrameInfo) (cs : List EncoderCall) : (cs.map (price info)).sum =
    (leastBlock info + blockOverhead info) * (cs.map EncoderCall.bytes).flatten.length +
      leastBlock info * (blockOverhead info * (cs.count .flush + cs.count .tryFinish) +
        (endOverhead info + info.writeSize) * cs.count .tryFinish) := by
  induction cs with
  | nil => rfl
  | cons c cs ih =>
    rw [List.map_cons, List.sum_cons, ih, List.map_cons, List.flatten_cons, List.length_append]
    cases c with
    | write buf =>
      simp only [price, EncoderCall.bytes, ne_eq, reduceCtorEq, not_false_eq_true, List.count_cons_of_ne]
      ring
    | flush =>
      simp only [price, EncoderCall.bytes, List.length_nil, zero_add, ne_eq, reduceCtorEq, not_false_eq_true,
        List.count_cons_of_ne, List.count_cons_self]
      ring
    | tryFinish =>
      simp only [price, EncoderCall.bytes, List.length_nil, zero_add, ne_eq, reduceCtorEq, not_false_eq_true,
        List.count_cons_of_ne, List.count_cons_self]
      ring

/-- Whatever the writer does, and whichever calls fail: an encoder sends at most
`sentBound`. -/
theorem encoderRun_expansion (t : Target) {w : Writer} (he : Created X w e) {cs : List EncoderCall}
    {rs : List (Except Error Nat)} {e₁ : FrameEncoder X} (hrun : encoderRun t e cs = .ret (rs, e₁)) :
    e₁.w.accepted.length ≤ w.accepted.length + sentBound e.frameInfo cs := by
  have hs := created_session he
  have hw : e.w = w := (created_writer he w).1
  rcases hs.state with ⟨-, hr⟩ | ⟨hne, -⟩
  · have hpaid : paid e.frameInfo e = leastBlock e.frameInfo * (w.accepted.length + e.frameInfo.writeSize) := by
      rw [paid_idle hr.rests.idle, hr.rests.closed, hw]
      rfl
    have hbudget : Budget e.frameInfo (paid e.frameInfo e) e := ⟨⟨rfl, fun _ => rfl⟩, Nat.le_refl _⟩
    have hspent := encoderRun_budget cs hs hbudget hrun
    rw [hpaid, sum_price] at hspent
    have hleast := leastBlock_pos e.frameInfo
    unfold Spent at hspent
    unfold sentBound
    generalize leastBlock e.frameInfo = b at hspent hleast ⊢
    generalize (cs.map EncoderCall.bytes).flatten.length = len at hspent ⊢
    have hdiv : e₁.w.accepted.length - (w.accepted.length + e.frameInfo.writeSize + len +
        (blockOverhead e.frameInfo * (cs.count .flush + cs.count .tryFinish) +
          (endOverhead e.frameInfo + e.frameInfo.writeSize) * cs.count .tryFinish)) ≤
        blockOverhead e.frameInfo * len / b := by
      rw [Nat.le_div_iff_mul_le hleast, Nat.mul_comm, Nat.mul_sub]
      simp only [Nat.mul_add, Nat.add_mul] at hspent ⊢
      omega
    simp only [Nat.mul_add, Nat.add_mul] at hdiv ⊢
    omega
  · exact absurd rfl hne

/-- A writer that is full after three bytes. -/
theorem encoderRun_expansion_full :
    let t : Target := ⟨.w64, false, false⟩
    let w : Writer := ⟨[], [.accept 3, .fail ⟨.other, "full"⟩], []⟩
    ∃ e e₁ : FrameEncoder Spec.xxHash32, ∃ rs, Created Spec.xxHash32 w e ∧
      encoderRun t e [.write [1, 2, 3], .tryFinish] = .ret (rs, e₁) ∧
      e₁.w.accepted.length ≤ sentBound e.frameInfo [.write [1, 2, 3], .tryFinish] := by
  intro t w
  obtain ⟨e, hnew⟩ : ∃ e, FrameEncoder.new Spec.xxHash32 w = .ret e := ⟨_, rfl⟩
  have hcalls : (encoderRun t e [.write [1, 2, 3], .tryFinish] >>= fun p => .ret p.1.length) = .ret 2 := by
    obtain rfl := Run.ret.inj hnew
    decide +kernel
  obtain ⟨⟨rs, e₁⟩, hrun, -⟩ := Run.bind_eq_ret.mp hcalls
  have hbound := encoderRun_expansion t (.new hnew) hrun
  rw [show w.accepted.length = 0 from rfl, Nat.zero_add] at hbound
  exact ⟨e, e₁, rs, .new hnew, hrun, hbound⟩

end Lz4rip.Proof.Frame
