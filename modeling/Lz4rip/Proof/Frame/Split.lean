import Lz4rip.Proof.Frame.Latch

/-!
# How the data is split into writes

Where the block size is set, two writes one after the other come to what one write of
both comes to (`write_append`): the loop of the second one goes on in the block that
the first one has left (`writeLoop_append`). So only the data between flushes counts
(`drive_segments`).
-/

namespace Lz4rip.Proof.Frame

open Lz4rip.Impl
open Lz4rip.Impl.FrameEncoder
open Spec (EncoderCall Frame Progress WriteCall encoderCall encoderRun)

variable {X : XxHash32} {f : Frame} {e : FrameEncoder X} {info : FrameInfo} {dict : List UInt8}
  {first : Bool} {ended : List (List UInt8)} {p : Progress} {w : Writer} {total a b : List UInt8}

/-! ## The loop of `write` -/

/-- Bytes that are added in two goes. -/
theorem filled_filled (h : Begun f e) (a b : List UInt8) :
    filled (filled e a) b = filled e (a ++ b) := by
  have hstop : e.srcEnd ≤ e.src.data.length := h.source.stop_le
  unfold filled
  dsimp only
  rw [store_append hstop, List.length_append, Nat.add_assoc]

theorem room_filled (h : Begun f e) (a : List UInt8) : room f (filled e a) = room f e - a.length := by
  have hstart : e.srcStart ≤ e.srcEnd := h.source.start_le
  unfold room filled
  dsimp only
  omega

/-- `write_block`, as the loop calls it. -/
def writeFull (t : Target) : Encode X Unit := do
  FrameEncoder.writeBlock t
  let e ← Proc.get
  Proc.lift (Run.assert (e.srcEnd = e.srcStart))

theorem writeStep_writeFull (t : Target) (h : Begun f e) (ha : a ≠ []) (hroom : room f e = 0) :
    writeStep t a e = writeFull t e >>= Proc.andThen fun _ => pure (.next a) := by
  have hassoc : (do
      FrameEncoder.writeBlock t
      let e ← Proc.get
      Proc.lift (Run.assert (e.srcEnd = e.srcStart))
      return .next a : Encode X (Run.Flow (List UInt8) Unit)) = writeFull t >>= fun _ => pure (.next a) := by
    rw [writeFull, bind_assoc]
    congr 1
  rw [writeStep_full t h ha hroom, hassoc, Proc.bind_run]

/-- A loop that writes `a`, and one that writes `b`, come to what one that writes both
does. -/
theorem writeLoop_append (t : Target) (hb : b ≠ []) (m : Nat) : ∀ (n : Nat) {a : List UInt8}
    {e : FrameEncoder X}, Writing info dict first ended w total a e →
    (Proc.loop (writeStep t) n a >>= fun _ => Proc.loop (writeStep t) m b) e ≠ .fuel →
    ∃ k, Proc.loop (writeStep t) k (a ++ b) e =
      (Proc.loop (writeStep t) n a >>= fun _ => Proc.loop (writeStep t) m b) e
  | 0, a, e, _, hy => absurd rfl hy
  | n + 1, a, e, h, hy => by
    have hstep := writeStep_ok t h
    obtain ⟨-, f, hl, -⟩ := h
    have hbegun := hl.begun
    by_cases ha : a = []
    · subst ha
      have hdone : writeStep t [] e = .ret (.ok (.done ()), e) := rfl
      refine ⟨m, ?_⟩
      rw [Proc.bind_run, Proc.loop_done hdone]
      rfl
    have hab : a ++ b ≠ [] := fun hnil => ha (List.append_eq_nil_iff.mp hnil).1
    rw [Proc.bind_run] at hy ⊢
    by_cases hroom : room f e = 0
    · -- The block is full: both write it, and go on with what they had.
      have hfull := writeStep_writeFull t hbegun ha hroom
      have hfull' := writeStep_writeFull t hbegun hab hroom
      cases hx : writeFull t e with
      | ret p =>
        obtain ⟨r, e₁⟩ := p
        rw [hx, Run.ret_bind] at hfull hfull'
        cases r with
        | ok _ =>
          have hw := hstep.of_ret hfull
          rw [Proc.loop_next hfull] at hy ⊢
          obtain ⟨k, hk⟩ := writeLoop_append t hb m n hw.1 hy
          exact ⟨k + 1, (Proc.loop_next hfull').trans hk⟩
        | error err =>
          rw [Proc.loop_error hfull]
          exact ⟨1, Proc.loop_error hfull'⟩
      | panic =>
        rw [hx, Run.panic_bind] at hfull hfull'
        rw [Proc.loop_panic hfull]
        exact ⟨1, Proc.loop_panic hfull'⟩
      | fuel =>
        rw [hx, Run.fuel_bind] at hfull
        rcases hstep with hw | ⟨hp, -⟩
        · rw [hfull] at hw
          exact absurd hw Run.WP_fuel
        · cases hfull.symm.trans hp
    · have hfill := writeStep_fill t hbegun ha hroom
      have hfill' := writeStep_fill t hbegun hab hroom
      rw [Proc.loop_next hfill] at hy ⊢
      by_cases hle : room f e ≤ a.length
      · -- What is added is of `a`.
        rw [List.take_append_of_le_length hle, List.drop_append_of_le_length hle] at hfill'
        obtain ⟨k, hk⟩ := writeLoop_append t hb m n (hstep.of_ret hfill).1 hy
        exact ⟨k + 1, (Proc.loop_next hfill').trans hk⟩
      · -- All of `a` is added, and the first of `b`.
        rw [List.take_of_length_le (by omega), List.drop_of_length_le (by omega)] at hfill hy ⊢
        cases n with
        | zero => exact absurd rfl hy
        | succ n =>
          have hdone : writeStep t [] (filled e a) = .ret (.ok (.done ()), filled e a) := rfl
          rw [Proc.loop_done hdone, Run.ret_bind, Proc.andThen_ok] at hy ⊢
          cases m with
          | zero => exact absurd rfl hy
          | succ m =>
            have hfits := room_fits hbegun a
            rw [List.take_of_length_le (by omega)] at hfits
            have hfill₁ := writeStep_fill t (hbegun.fill hfits).1 hb (by rw [room_filled hbegun]; omega)
            rw [room_filled hbegun, filled_filled hbegun] at hfill₁
            rw [List.take_append, List.drop_append, List.take_of_length_le (by omega),
              List.drop_of_length_le (by omega), List.nil_append] at hfill'
            exact ⟨m + 1, (Proc.loop_next hfill').trans (Proc.loop_next hfill₁).symm⟩

/-! ## Writes -/

/-- The state that code leaves. -/
def final {α : Type} (x : Encode X α) (e : FrameEncoder X) : Run (FrameEncoder X) :=
  x e >>= fun p => .ret p.2

theorem write_nil (t : Target) (hf : e.failed = false) :
    FrameEncoder.write t [] e = .ret (.ok 0, e) := by
  have hne : ¬ e.failed = true := by
    rw [hf]
    decide
  have hsame : { e with failed := false } = e := by rw [← hf]
  unfold FrameEncoder.write
  rw [Proc.bind_run, Proc.get_run, Run.ret_bind, Proc.andThen_ok, Proc.ite_run, if_neg hne,
    Proc.bind_run, Proc.modify_run, Run.ret_bind, Proc.andThen_ok, if_neg (fun h => h.2 rfl)]
  show Run.ret (Except.ok 0, { e with failed := false }) = _
  rw [hsame]

theorem write_failed (t : Target) (hf : e.failed = true) (b : List UInt8) :
    FrameEncoder.write t b e = .ret (.error REUSED, e) :=
  encoderCall_failed t hf (.write b)

theorem write_open (t : Target) (hf : e.failed = false) (ho : e.isFrameOpen = true) (a : List UInt8) :
    FrameEncoder.write t a e = writeRest t a { e with failed := true } := by
  have hne : ¬ e.failed = true := by
    rw [hf]
    decide
  have hopen : ¬ (e.isFrameOpen = false ∧ a ≠ []) := fun h => by
    rw [ho] at h
    exact absurd h.1 (by decide)
  unfold FrameEncoder.write
  rw [Proc.bind_run, Proc.get_run, Run.ret_bind, Proc.andThen_ok, Proc.ite_run, if_neg hne,
    Proc.bind_run, Proc.modify_run, Run.ret_bind, Proc.andThen_ok, if_neg hopen]
  rfl

theorem write_begin (t : Target) (hf : e.failed = false) (ho : e.isFrameOpen = false) (ha : a ≠ []) :
    FrameEncoder.write t a e =
      beginFrame t a.length { e with failed := true } >>= Proc.andThen fun _ => writeRest t a := by
  have hne : ¬ e.failed = true := by
    rw [hf]
    decide
  unfold FrameEncoder.write
  rw [Proc.bind_run, Proc.get_run, Run.ret_bind, Proc.andThen_ok, Proc.ite_run, if_neg hne,
    Proc.bind_run, Proc.modify_run, Run.ret_bind, Proc.andThen_ok, if_pos ⟨ho, ha⟩]
  rfl

/-- How long the first write is has no effect on a block size that is set. -/
theorem beginFrame_bufLen (t : Target) (hne : e.frameInfo.blockSize ≠ .auto) (n m : Nat) :
    beginFrame t n e = beginFrame t m e := by
  unfold beginFrame
  rw [Proc.bind_run, Proc.modify_run, if_neg hne, Proc.bind_run, Proc.modify_run, if_neg hne]

/-- What a loop that has come to `p` leaves. -/
def settled (p : Except Error Unit × FrameEncoder X) : FrameEncoder X :=
  { p.2 with failed := p.1.isOk.not && p.2.failed }

theorem final_writeRest (t : Target) (a : List UInt8) (e : FrameEncoder X) :
    final (writeRest t a) e =
      Proc.loop (writeStep t) (2 * a.length + 2) a e >>= fun p => .ret (settled p) := by
  rw [final, writeRest, Proc.bind_run, bind_assoc]
  congr 1
  funext p
  obtain ⟨r, e₁⟩ := p
  cases r <;> rfl

theorem writeLoop_ne_fuel (t : Target) (h : Writing info dict first ended w total a e) :
    Proc.loop (writeStep t) (2 * a.length + 2) a e ≠ .fuel :=
  (writeLoop_ok t h).ne_fuel

theorem Writing.append (h : Writing info dict first ended w total a e) (b : List UInt8) :
    Writing info dict first ended w (total ++ b) (a ++ b) e := by
  obtain ⟨hf, f, hl, hopened⟩ := h
  exact ⟨hf, f, hl, by rw [← List.append_assoc, hopened]⟩

theorem writeLoop_eq (t : Target) (hb : b ≠ []) (h : Writing info dict first ended w total a e) :
    Proc.loop (writeStep t) (2 * (a ++ b).length + 2) (a ++ b) e =
      Proc.loop (writeStep t) (2 * a.length + 2) a e >>=
        Proc.andThen fun _ => Proc.loop (writeStep t) (2 * b.length + 2) b := by
  have hne : (Proc.loop (writeStep t) (2 * a.length + 2) a >>= fun _ =>
      Proc.loop (writeStep t) (2 * b.length + 2) b) e ≠ .fuel := by
    rw [Proc.bind_run]
    intro hfuel
    rcases writeLoop_ok t h with hw | ⟨hx, -⟩
    · rcases Proc.WP_iff.mp hw with ⟨_, e₁, hx, h₁⟩ | ⟨err, e₁, hx, -⟩
      · rw [hx, Run.ret_bind, Proc.andThen_ok] at hfuel
        exact writeLoop_ne_fuel t (h₁.append b) hfuel
      · rw [hx] at hfuel
        cases hfuel
    · rw [hx] at hfuel
      cases hfuel
  obtain ⟨k, hk⟩ := writeLoop_append t hb _ _ h hne
  rw [← Proc.bind_run, ← hk]
  exact Proc.loop_unique (writeLoop_ne_fuel t (h.append b)) (by rw [hk]; exact hne)

/-- A write that comes after another one is as if both had been one. -/
theorem writeRest_append (t : Target) (hb : b ≠ [])
    (h : Writing info dict first ended w total a e) :
    final (writeRest t a) e >>= final (FrameEncoder.write t b) = final (writeRest t (a ++ b)) e := by
  rw [final_writeRest, final_writeRest, writeLoop_eq t hb h]
  rcases writeLoop_ok t h with hw | ⟨hx, -⟩
  · rcases Proc.WP_iff.mp hw with ⟨_, e₁, hx, hf, f, hl, -⟩ | ⟨err, e₁, hx, hf, -⟩
    · have hsame : { e₁ with failed := true } = e₁ := by rw [← hf]
      rw [hx, Run.ret_bind, Run.ret_bind, Run.ret_bind, Proc.andThen_ok, ← final_writeRest, final,
        write_open t (show (settled (.ok (), e₁)).failed = false from rfl) hl.begun.isOpen]
      show final (writeRest t b) { e₁ with failed := true } = _
      rw [hsame]
    · have hsame : settled (.error err, e₁) = e₁ := by
        show { e₁ with failed := e₁.failed } = e₁
        rfl
      rw [hx, Run.ret_bind, Run.ret_bind, Run.ret_bind, Proc.andThen_error, Run.ret_bind, hsame, final,
        write_failed t hf]
      rfl
  · rw [hx]
    rfl

theorem write_append (t : Target) (h : Session info dict p w e) (hne : e.frameInfo.blockSize ≠ .auto)
    (a b : List UInt8) :
    final (FrameEncoder.write t a) e >>= final (FrameEncoder.write t b) =
      final (FrameEncoder.write t (a ++ b)) e := by
  by_cases ha : a = []
  · subst ha
    rw [final, write_nil t h.fine]
    rfl
  by_cases hb : b = []
  · subst hb
    rw [List.append_nil]
    have hsafe := write_session t h a
    rw [final]
    cases hx : FrameEncoder.write t a e with
    | ret q =>
      obtain ⟨r, e₁⟩ := q
      show final (FrameEncoder.write t []) e₁ = .ret e₁
      rcases Proc.WP_iff.mp (hsafe.of_ret hx) with ⟨n, e₂, he, -, hs⟩ | ⟨err, e₂, he, hf, -⟩
      · obtain ⟨-, rfl⟩ := Prod.mk.inj (Run.ret.inj he)
        rw [final, write_nil t hs.fine]
        rfl
      · obtain ⟨-, rfl⟩ := Prod.mk.inj (Run.ret.inj he)
        rw [final, write_failed t hf]
        rfl
    | panic => rfl
    | fuel => rfl
  have hab : a ++ b ≠ [] := fun hnil => ha (List.append_eq_nil_iff.mp hnil).1
  rcases h.state with ⟨-, hr⟩ | ⟨-, f, hl, -⟩
  · have hclosed := hr.rests.closed
    have hbegin := (hr.failed true).beginFrame_ok t rfl a.length
    rw [final, final, write_begin t h.fine hclosed ha, write_begin t h.fine hclosed hab,
      @beginFrame_bufLen X { e with failed := true } t hne (a ++ b).length a.length]
    rcases Proc.WP_iff.mp hbegin with ⟨_, e₁, hx, hf, f, hl, -⟩ | ⟨err, e₁, hx, hf, -⟩
    · rw [hx, Run.ret_bind, Run.ret_bind, Proc.andThen_ok, Proc.andThen_ok]
      exact writeRest_append t hb ⟨hf, f, hl, rfl⟩
    · rw [hx]
      show final (FrameEncoder.write t b) e₁ = .ret e₁
      rw [final, write_failed t hf]
      rfl
  · rw [final, final, write_open t h.fine hl.begun.isOpen, write_open t h.fine hl.begun.isOpen]
    exact writeRest_append t hb ⟨rfl, f, hl.failed true, rfl⟩

/-! ## Runs -/

/-- The state that calls leave. -/
def drive (t : Target) (e : FrameEncoder X) (cs : List EncoderCall) : Run (FrameEncoder X) :=
  encoderRun t e cs >>= fun p => .ret p.2

theorem drive_cons (t : Target) (e : FrameEncoder X) (c : EncoderCall) (cs : List EncoderCall) :
    drive t e (c :: cs) = final (encoderCall t c) e >>= fun e' => drive t e' cs := by
  unfold drive final
  rw [encoderRun_cons, bind_assoc, bind_assoc]
  congr 1
  funext p
  rw [bind_assoc]
  rfl

/-- The encoder has failed, or it goes on with a block size that is set. -/
def Going (info : FrameInfo) (dict : List UInt8) (w : Writer) (e : FrameEncoder X) : Prop :=
  e.failed = true ∨ (∃ p, Session info dict p w e) ∧ e.frameInfo.blockSize ≠ .auto

theorem Going.call (t : Target) (h : Going info dict w e) {c : EncoderCall} {r : Except Error Nat}
    {e' : FrameEncoder X} (hr : encoderCall t c e = .ret (r, e')) : Going info dict w e' := by
  rcases h with hf | ⟨⟨p, hs⟩, hne⟩
  · rw [encoderCall_failed t hf] at hr
    obtain ⟨-, rfl⟩ := Prod.mk.inj (Run.ret.inj hr)
    exact .inl hf
  · have hv : Reliable ⟨[], [], []⟩ := ⟨by simp, by simp⟩
    have hi := (encoderCall_moves hv t c _ _ hr).info hne
    rcases Proc.WP_iff.mp ((encoderCall_ok t hs c).of_ret hr) with ⟨n, e₁, he, -, hs₁⟩ | ⟨err, e₁, he, hf, -⟩
    · obtain ⟨-, rfl⟩ := Prod.mk.inj (Run.ret.inj he)
      exact .inr ⟨⟨_, hs₁⟩, by rwa [hi]⟩
    · obtain ⟨-, rfl⟩ := Prod.mk.inj (Run.ret.inj he)
      exact .inl hf

theorem Going.write_append (t : Target) (h : Going info dict w e) (a b : List UInt8) :
    final (FrameEncoder.write t a) e >>= final (FrameEncoder.write t b) =
      final (FrameEncoder.write t (a ++ b)) e := by
  rcases h with hf | ⟨⟨p, hs⟩, hne⟩
  · rw [final, final, write_failed t hf, write_failed t hf]
    show final (FrameEncoder.write t b) e = _
    rw [final, write_failed t hf]
  · exact Frame.write_append t hs hne a b

theorem Going.write_nil (t : Target) (h : Going info dict w e) :
    final (FrameEncoder.write t []) e = .ret e := by
  rcases h with hf | ⟨⟨p, hs⟩, -⟩
  · rw [final, write_failed t hf]
    rfl
  · rw [final, Frame.write_nil t hs.fine]
    rfl

/-- Calls that come to the same after `c` do so before it. -/
theorem Going.drive_congr (t : Target) (h : Going info dict w e) (c : EncoderCall)
    {cs cs' : List EncoderCall} (hcs : ∀ e' : FrameEncoder X, Going info dict w e' →
      drive t e' cs = drive t e' cs') : drive t e (c :: cs) = drive t e (c :: cs') := by
  rw [drive_cons, drive_cons, final, bind_assoc, bind_assoc]
  cases hr : encoderCall t c e with
  | ret p => exact hcs p.2 (h.call t hr)
  | panic => rfl
  | fuel => rfl

theorem Going.drive_append (t : Target) (h : Going info dict w e) (a b : List UInt8)
    (cs : List EncoderCall) :
    drive t e (.write a :: .write b :: cs) = drive t e (.write (a ++ b) :: cs) := by
  rw [drive_cons, drive_cons]
  show (final (FrameEncoder.write t a) e >>= fun e' => drive t e' (.write b :: cs)) =
    final (FrameEncoder.write t (a ++ b)) e >>= _
  rw [← h.write_append, bind_assoc]
  congr 1
  funext e'
  exact drive_cons t e' (.write b) cs

/-- One write for the data between two flushes. -/
def ofSegments : List (List UInt8) → List WriteCall
  | [] => []
  | [s] => [.write s]
  | s :: s' :: ss => .write s :: .flush :: ofSegments (s' :: ss)

theorem segments_ne_nil (cs : List WriteCall) : WriteCall.segments cs ≠ [] := by
  cases cs with
  | nil => simp [WriteCall.segments]
  | cons c cs => cases c <;> simp [WriteCall.segments]

theorem flatten_segments_write (a : List UInt8) (cs : List WriteCall) :
    (WriteCall.segments (.write a :: cs)).flatten = a ++ (WriteCall.segments cs).flatten := by
  have hne := segments_ne_nil cs
  rw [WriteCall.segments]
  generalize WriteCall.segments cs = l at hne ⊢
  cases l with
  | nil => exact absurd rfl hne
  | cons s ss => exact List.append_assoc a s ss.flatten

/-- Calls leave the state that one write for the data between two flushes leaves. -/
theorem drive_segments (t : Target) (tail : List EncoderCall) : ∀ (cs : List WriteCall)
    {e : FrameEncoder X}, Going info dict w e → drive t e (cs.map WriteCall.toEncoder ++ tail) =
      drive t e ((ofSegments (WriteCall.segments cs)).map WriteCall.toEncoder ++ tail)
  | [], e, h => by
    show _ = drive t e (.write [] :: tail)
    rw [drive_cons]
    show _ = final (FrameEncoder.write t []) e >>= _
    rw [h.write_nil]
    rfl
  | .write a :: cs, e, h => by
    have hcs := h.drive_congr t (.write a) fun e' he' => drive_segments t tail cs he'
    have hne := segments_ne_nil cs
    show drive t e (.write a :: (cs.map WriteCall.toEncoder ++ tail)) = _
    rw [hcs]
    show _ = drive t e ((ofSegments ((a ++ (WriteCall.segments cs).headD []) ::
      (WriteCall.segments cs).tail)).map WriteCall.toEncoder ++ tail)
    generalize WriteCall.segments cs = l at hne ⊢
    cases l with
    | nil => exact absurd rfl hne
    | cons s ss =>
      cases ss with
      | nil => exact h.drive_append t a s _
      | cons s' ss => exact h.drive_append t a s _
  | .flush :: cs, e, h => by
    have hcs := h.drive_congr t .flush fun e' he' => drive_segments t tail cs he'
    have hne := segments_ne_nil cs
    show drive t e (.flush :: (cs.map WriteCall.toEncoder ++ tail)) = _
    rw [hcs]
    show _ = drive t e ((ofSegments ([] :: WriteCall.segments cs)).map WriteCall.toEncoder ++ tail)
    generalize WriteCall.segments cs = l at hne ⊢
    cases l with
    | nil => exact absurd rfl hne
    | cons s ss =>
      show _ = drive t e (.write [] :: .flush :: _)
      rw [drive_cons t e (.write [])]
      show _ = final (FrameEncoder.write t []) e >>= _
      rw [h.write_nil]
      rfl

end Lz4rip.Proof.Frame
