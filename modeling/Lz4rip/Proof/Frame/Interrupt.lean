import Lz4rip.Proof.Frame.Language

/-!
# Interrupted readers

A reader may give its bytes in pieces and be interrupted in front of any of them
(`Trickles`). `read_exact` tries again, and a frame's header is begun with one `read`, so an
interrupted call has taken nothing from the stream. `read_to_end` then gives what it gives of
the bytes, and so do calls that are made again after they are interrupted
(`interrupts_invisible`).
-/

namespace Lz4rip.Proof.Frame

open Lz4rip.Impl
open Lz4rip.Proc (Upto)
open Spec (Frame Naive Settings)

/-- The reader gives the bytes, in pieces, with interruptions. -/
inductive Trickles : List ReadEvent → List UInt8 → Prop where
  | nil : Trickles [] []
  | data {b bytes : List UInt8} {es : List ReadEvent} (hb : b ≠ []) (h : Trickles es bytes) :
    Trickles (.data b :: es) (b ++ bytes)
  | interrupted {e : IoError} {bytes : List UInt8} {es : List ReadEvent} (he : e.kind = .interrupted)
    (h : Trickles es bytes) : Trickles (.fail e :: es) bytes

/-! ## Reading -/

theorem readExact_trickles {es : List ReadEvent} {bytes : List UInt8} (h : Trickles es bytes) (n : Nat) :
    if n ≤ bytes.length then
      ∃ es', Reader.readExactEvents n es = (bytes.take n, .ok (), es') ∧ Trickles es' (bytes.drop n)
    else ∃ got, Reader.readExactEvents n es = (got, .error READ_EXACT_EOF, []) := by
  induction h generalizing n with
  | nil =>
    cases n with
    | zero => exact ⟨[], rfl, .nil⟩
    | succ n => exact ⟨[], rfl⟩
  | @data b bytes es hb h ih =>
    cases n with
    | zero =>
      rw [if_pos (Nat.zero_le _)]
      exact ⟨_, by rw [Reader.readExactEvents.eq_def]; rfl, .data hb h⟩
    | succ n =>
      rw [Reader.readExactEvents, if_neg hb, List.length_append]
      by_cases hlt : n + 1 < b.length
      · rw [if_pos (by omega), if_pos hlt]
        refine ⟨_, by rw [List.take_append_of_le_length (by omega)], ?_⟩
        rw [List.drop_append_of_le_length (by omega)]
        refine .data ?_ h
        rw [ne_eq, List.drop_eq_nil_iff]
        omega
      · rw [if_neg hlt]
        have ih := ih (n + 1 - b.length)
        by_cases hle : n + 1 - b.length ≤ bytes.length
        · rw [if_pos hle] at ih
          obtain ⟨es', he, h'⟩ := ih
          rw [if_pos (by omega), he]
          refine ⟨es', ?_, ?_⟩
          · rw [List.take_append, List.take_of_length_le (show b.length ≤ n + 1 by omega)]
          · rwa [List.drop_append, List.drop_eq_nil_of_le (show b.length ≤ n + 1 by omega), List.nil_append]
        · rw [if_neg hle] at ih
          obtain ⟨got, he⟩ := ih
          rw [if_neg (by omega), he]
          exact ⟨b ++ got, rfl⟩
  | @interrupted e bytes es he h ih =>
    cases n with
    | zero =>
      rw [if_pos (Nat.zero_le _)]
      exact ⟨_, by rw [Reader.readExactEvents.eq_def]; rfl, .interrupted he h⟩
    | succ n =>
      rw [Reader.readExactEvents, if_pos he]
      exact ih (n + 1)

/-- The reader trickles, and the slice is what it gives. -/
abbrev Trickling (r : Reader) (bytes : List UInt8) : Prop := Trickles r.events bytes

theorem readFull_trickles {r : Reader} {bytes : List UInt8} (h : Trickling r bytes) (n : Nat) :
    Upto (fun _ => False) (SameIn Trickling) Trickling (readFull n r) (readFull n bytes) := by
  have hr := readExact_trickles h n
  rw [readFull_slice]
  unfold readFull
  simp only [Read.readExact]
  by_cases hn : n ≤ bytes.length
  · rw [if_pos hn] at hr ⊢
    obtain ⟨es', he, h'⟩ := hr
    rw [he]
    exact .ok ⟨rfl, h'⟩
  · rw [if_neg hn] at hr ⊢
    obtain ⟨got, he⟩ := hr
    rw [he]
    exact .error .nil

/-- Where nothing but `read_exact` is called, the interruptions are not seen. -/
theorem trickling_alike (S : Settings) : Alike (fun _ _ => False) Trickling Eq S S where
  dict := rfl
  dictId := rfl
  why := rfl
  full _ n hr := readFull_trickles hr n
  count {out out'} len _ ho := by
    subst ho
    cases hc : checkOutputLen S.target S.maxOutput out len with
    | ok o => exact .inr ⟨o, o, hc, hc, rfl⟩
    | error e => exact .inl ⟨e, rfl, .inr rfl⟩

/-- A magic number whose first bytes are read. -/
theorem readMagic_trickles (S : Settings) {r r' : Reader} {bytes : List UInt8} {k : Nat} (hk : k ≠ 0)
    (hk4 : k ≤ MAGIC_NUMBER_SIZE) (hkl : k ≤ bytes.length)
    (hsome : readSome MAGIC_NUMBER_SIZE r = .ret (.ok (bytes.take k), r')) (h : Trickling r' (bytes.drop k)) :
    Upto (fun _ => False) (SameIn Trickling) Trickling (readMagic r) (readMagic bytes) := by
  have hlen : (bytes.take k).length = k := by rw [List.length_take]; omega
  have hne : bytes.take k ≠ [] := fun he => hk (by rw [he] at hlen; exact hlen.symm)
  have hbytes : bytes ≠ [] := fun he => hne (by rw [he, List.take_nil])
  have hrest := readRest_upto (trickling_alike S) 0 h k MAGIC_NUMBER_SIZE
  rw [readRest_slice, List.length_drop] at hrest
  rw [readMagic_slice, if_neg hbytes]
  unfold readMagic
  rw [Proc.bind_run, hsome, Run.ret_bind, Proc.andThen_ok, Proc.ite_run, if_neg hne, hlen, Proc.bind_run]
  by_cases hl : MAGIC_NUMBER_SIZE ≤ bytes.length
  · rw [if_pos (by omega)] at hrest
    rw [if_pos hl]
    obtain ⟨_, _, -, hB⟩ | ⟨_, r'', hx, rfl, h'⟩ := hrest.of_ok rfl
    · exact hB.elim
    · rw [List.drop_drop, Nat.add_sub_cancel' hk4] at h'
      rw [hx]
      refine .ok ⟨?_, h'⟩
      rw [← List.take_add, Nat.add_sub_cancel' hk4]
  · rw [if_neg (by omega)] at hrest
    rw [if_neg hl]
    obtain ⟨_, _, -, hB⟩ | ⟨r'', hx, h'⟩ := hrest.of_error rfl
    · exact hB.elim
    · rw [hx]
      exact .error h'

/-- The first `read` of a header is interrupted, or the header is read as from the bytes. -/
theorem readHeader_trickles (X : XxHash32) (S : Settings) {r : Reader} {bytes : List UInt8} (h : Trickling r bytes) :
    (∃ e r', readHeader X r = .ret (.error e, r') ∧ e.kind = .interrupted ∧ Trickling r' bytes ∧
      Read.left r' < Read.left r) ∨
    Upto (fun _ => False) (SameIn Trickling) Trickling (readHeader X r) (readHeader X bytes) := by
  obtain ⟨es⟩ := r
  cases h with
  | nil => exact .inr (readHeader_upto (trickling_alike S) 0 (.ok ⟨rfl, .nil⟩))
  | @data b bytes es hb h =>
    refine .inr (readHeader_upto (trickling_alike S) 0 ?_)
    have hpos : 0 < b.length := List.length_pos_iff.mpr hb
    have hlen : b.length ≤ (b ++ bytes).length := by
      rw [List.length_append]
      exact Nat.le_add_right _ _
    by_cases hle : b.length ≤ MAGIC_NUMBER_SIZE
    · have hrest : Trickling ⟨es⟩ ((b ++ bytes).drop b.length) := by rwa [List.drop_left]
      refine readMagic_trickles S (Nat.ne_of_gt hpos) hle hlen ?_ hrest
      simp only [readSome, Read.read, Reader.readEvents, if_pos hle, List.take_left]
      rfl
    · have hlt : MAGIC_NUMBER_SIZE < b.length := Nat.lt_of_not_le hle
      have hrest : Trickling ⟨.data (b.drop MAGIC_NUMBER_SIZE) :: es⟩ ((b ++ bytes).drop MAGIC_NUMBER_SIZE) := by
        rw [List.drop_append_of_le_length (Nat.le_of_lt hlt)]
        refine .data ?_ h
        rw [ne_eq, List.drop_eq_nil_iff]
        omega
      refine readMagic_trickles S (by decide) (Nat.le_refl _) (by omega) ?_ hrest
      simp only [readSome, Read.read, Reader.readEvents, if_neg hle]
      rw [List.take_append_of_le_length (Nat.le_of_lt hlt)]
      rfl
  | @interrupted e bytes es he h =>
    refine .inl ⟨.ioError e, ⟨es⟩, rfl, he, h, ?_⟩
    simp only [Read.left, List.map_cons, List.sum_cons, Reader.eventSize]
    omega

section

variable {X : XxHash32} {S : Settings}

/-- An iteration is interrupted and has changed nothing, or it does what it does with the
bytes. -/
theorem readMoreStep_trickles {s : Naive Reader} {s' : Naive (List UInt8)} (hn : Near Trickling Eq s s')
    (hp : s.pending = []) :
    (∃ e s₁, Naive.readMoreStep X S () s = .ret (.error e, s₁) ∧ e.kind = .interrupted ∧
      Near Trickling Eq s₁ s') ∨
    Upto (fun _ => False) (SameNear Trickling Eq) (Near Trickling Eq) (Naive.readMoreStep X S () s)
      (Naive.readMoreStep X S () s') := by
  cases hf : s.frame with
  | some f =>
    exact .inr (readMoreStep_upto (trickling_alike S) hn (fun h => by rw [hf] at h; cases h) hp)
  | none =>
    rcases readHeader_trickles X S hn.r with ⟨e, r', hx, he, hr', -⟩ | hheader
    · refine .inl ⟨e, { s with r := r' }, ?_, he, hn.withReader hr'⟩
      simp only [Naive.readMoreStep, Naive.openFrame, Proc.bind_run, Proc.get_run, Run.ret_bind, Proc.andThen_ok,
        hf, Naive.onReader, hx, Proc.andThen_error]
    · exact .inr (readMoreStep_upto (trickling_alike S) hn (fun _ => hheader) hp)

/-! ## What is still to come -/

/-- From `s` on, the bytes `D` come, and then the end `o`. -/
def Awaits (X : XxHash32) (S : Settings) (s : Naive Reader) (D : List UInt8) (o : Option Error) : Prop :=
  ∃ s' f, Near Trickling Eq s s' ∧ Left X S s' D o f

/-- What `readMore` comes to. -/
abbrev NextAwaited (X : XxHash32) (S : Settings) (s : Naive Reader) (D : List UInt8) (o : Option Error) : Prop :=
  Next X S (Awaits X S) (fun _ => True) True s D o

theorem Drains.awaits {s : Naive Reader} {s' f : Naive (List UInt8)} {bs : List (List UInt8)} {o : Option Error}
    (hd : Drains X S s' bs o f) (hn : Near Trickling Eq s s') (hp : s'.pending = []) :
    Awaits X S s bs.flatten o := by
  have hs : { s' with pending := [] } = s' := by rw [← hp]
  exact ⟨s', f, hn, bs, by rwa [hs], by rw [hp]; rfl⟩

theorem Drains.nextAwaited {s' f : Naive (List UInt8)} {bs : List (List UInt8)} {o : Option Error}
    (hd : Drains X S s' bs o f) : ∀ {s : Naive Reader}, Near Trickling Eq s s' → s.pending = [] →
      NextAwaited X S s bs.flatten o := by
  -- an interrupted iteration leaves all that there is to drain
  have stays {s : Naive Reader} {s' f : Naive (List UInt8)} {bs : List (List UInt8)} {o : Option Error}
      (hd : Drains X S s' bs o f) (hn : Near Trickling Eq s s') (hp : s.pending = [])
      (h : ∃ e s₁, Naive.readMoreStep X S () s = .ret (.error e, s₁) ∧ e.kind = .interrupted ∧
        Near Trickling Eq s₁ s') : NextAwaited X S s bs.flatten o := by
    obtain ⟨e, s₁, hx, he, hn₁⟩ := h
    exact .again (readMore_error hx) trivial he (hd.awaits hn₁ (hn.pending.symm.trans hp))
  induction hd with
  | stop hstep =>
    intro s hn hp
    rcases readMoreStep_trickles hn hp with h | h
    · exact stays (.stop hstep) hn hp h
    · obtain ⟨_, _, -, hB⟩ | ⟨_, s₁, hx, rfl, -⟩ := h.of_ok hstep
      · exact hB.elim
      · exact .stop (readMore_done hx) trivial rfl rfl
  | fail hstep =>
    intro s hn hp
    rcases readMoreStep_trickles hn hp with h | h
    · exact stays (.fail hstep) hn hp h
    · obtain ⟨_, _, -, hB⟩ | ⟨s₁, hx, -⟩ := h.of_error hstep
      · exact hB.elim
      · exact .fail (readMore_error hx) trivial rfl rfl
  | skip hstep hd ih =>
    intro s hn hp
    rcases readMoreStep_trickles hn hp with h | h
    · exact stays (.skip hstep hd) hn hp h
    · obtain ⟨_, _, -, hB⟩ | ⟨_, s₁, hx, rfl, hn₁⟩ := h.of_ok hstep
      · exact hB.elim
      · have hw := readMoreStep_ok (X := X) (S := S) hp
        rw [hx] at hw
        have he := readMore_next hp hx
        cases ih hn₁ hw.1 with
        | stop h hf hD ho => exact .stop (he.trans h) hf hD ho
        | fail h hf hD ho => exact .fail (he.trans h) hf hD ho
        | again h hP hk ha => exact .again (he.trans h) hP hk ha
        | block h hne ha => exact .block (he.trans h) hne ha
  | block hstep hne hd _ =>
    intro s hn hp
    rcases readMoreStep_trickles hn hp with h | h
    · exact stays (.block hstep hne hd) hn hp h
    · obtain ⟨_, _, -, hB⟩ | ⟨_, s₁, hx, rfl, hn₁⟩ := h.of_ok hstep
      · exact hB.elim
      · exact .block (readMore_done hx) hne ⟨_, _, hn₁, _, hd, by rw [List.flatten_cons]⟩

theorem awaits_supplies (X : XxHash32) (S : Settings) : Supplies X S (Awaits X S) (fun _ => True) True where
  next {s D o} h hp := by
    obtain ⟨s', f, hn, bs, hd, rfl⟩ := h
    have hp' : s'.pending = [] := hn.pending.symm.trans hp
    have hs : { s' with pending := [] } = s' := by rw [← hp']
    rw [hs] at hd
    rw [hp', List.nil_append]
    exact hd.nextAwaited hn hp
  drop {s D o} h n := by
    obtain ⟨s', f, hn, hl⟩ := h
    obtain ⟨D', rfl, hl'⟩ := hl.drop n
    exact ⟨D', by rw [hn.pending], _, f, hn.drop n, hl'⟩

/-- The end that comes is no interruption. -/
theorem Awaits.calm {s : Naive Reader} {D : List UInt8} {o : Option Error} (h : Awaits X S s D o) :
    ∀ e, o = some e → e.kind ≠ .interrupted := by
  obtain ⟨_, _, -, _, hd, -⟩ := h
  exact hd.calm slice_calm rfl

theorem Awaits.notInterrupted {s : Naive Reader} {D : List UInt8} {o : Option Error} {r : Spec.Reply}
    (h : Awaits X S s D o) (hr : r.error = o) : r.interrupted = false := by
  unfold Spec.Reply.interrupted
  rw [hr]
  cases o with
  | none => rfl
  | some e => exact decide_eq_false (h.calm e rfl)

/-! ## The calls -/

/-- Calls that are made again after they are interrupted give a part of what comes, or all of it
and the end. -/
theorem persist_awaits {o : Option Error} : ∀ {cs : List (Spec.Call Reader)} {s : Naive Reader}
    {D bytes : List UInt8} {ended : Option (Option Error)}, Awaits X S s D o → (∀ c ∈ cs, c.reads = true) →
      (Spec.naive X S).persist s cs = .ret (bytes, ended) →
        match ended with
        | none => bytes <+: D
        | some o' => bytes = D ∧ o' = o
  | [], s, D, bytes, ended, _, _, h => by
    obtain ⟨rfl, rfl⟩ := Prod.mk.inj (Run.ret.inj h)
    exact List.nil_prefix
  | c :: cs, s, D, bytes, ended, ha, hcs, h => by
    obtain ⟨⟨r, s'⟩, hcall, h⟩ := Run.bind_eq_ret.mp h
    have ht := call_serves (awaits_supplies X S) ha.calm ha (hcs c (List.mem_cons_self ..)) hcall
    unfold Serves at ht
    dsimp only at h
    by_cases he : (Spec.Calls.ends c r && !r.interrupted) = true
    · rw [if_pos he] at h
      obtain ⟨hends, hi⟩ := Bool.and_eq_true_iff.mp he
      rw [if_pos hends] at ht
      obtain ⟨rfl, rfl⟩ := Prod.mk.inj (Run.ret.inj h)
      obtain ⟨hD, ho, -⟩ := ht.resolve_right fun h => by
        rw [h.2.1] at hi
        cases hi
      exact ⟨hD, ho⟩
    · rw [if_neg he] at h
      -- the call takes some of what comes, and where it is interrupted nothing
      have ht : ∃ D', D = (Spec.naive X S).taken s c r ++ D' ∧ Awaits X S s' D' o := by
        by_cases hends : Spec.Calls.ends c r = true
        · rw [if_pos hends] at ht
          rcases ht with ⟨-, ho, -⟩ | ⟨-, -, htaken, ha'⟩
          · rw [hends, ha.notInterrupted ho] at he
            exact absurd rfl he
          · exact ⟨D, by rw [htaken, List.nil_append], ha'⟩
        · rwa [if_neg hends] at ht
      obtain ⟨⟨bytes', ended'⟩, hs, h⟩ := Run.bind_eq_ret.mp h
      obtain ⟨rfl, rfl⟩ := Prod.mk.inj (Run.ret.inj h)
      obtain ⟨D', rfl, ha'⟩ := ht
      have ih := persist_awaits ha' (fun c hc => hcs c (List.mem_cons_of_mem _ hc)) hs
      cases ended' with
      | none => exact List.prefix_append_right_inj _ |>.mpr ih
      | some o' => exact ⟨by rw [ih.1], ih.2⟩

end

/-! ## The decoder -/

/-- The decoder persists as the naive one does. -/
theorem persist_refines {X : XxHash32} {S : Settings} (limited : Bool) (hwhy : S.why = blockError S.target S.dict) :
    ∀ (cs : List (Spec.Call Reader)) (d : FrameDecoder X Reader) (s : Naive Reader), Rep S d s →
      Run.Same Eq ((Spec.frameDecoder X S.target limited).persist d cs) ((Spec.naive X S).persist s cs)
  | [], _, _, _ => rfl
  | c :: cs, d, s, h => by
    refine (call_refines limited hwhy c h).bind fun p q ⟨he, h'⟩ => ?_
    dsimp only
    rw [he, taken_refines limited h]
    split
    · exact rfl
    · refine (persist_refines limited hwhy cs _ _ h').bind fun p q he => ?_
      rw [he]
      exact rfl

theorem persist_returns {X : XxHash32} {S : Settings} (hwhy : S.why = blockError S.target S.dict) :
    ∀ (cs : List (Spec.Call Reader)) (d : FrameDecoder X Reader) (s : Naive Reader), Rep S d s →
      (Spec.frameDecoder X S.target true).Proper d cs →
        ∃ p, (Spec.frameDecoder X S.target true).persist d cs = .ret p
  | [], _, _, _, _ => ⟨_, rfl⟩
  | c :: cs, d, s, h, hp => by
    obtain ⟨r, d', s', hcall, h', hp'⟩ := h.first hwhy hp
    rw [Spec.Calls.persist, hcall, Run.ret_bind]
    dsimp only
    split
    · exact ⟨_, rfl⟩
    · obtain ⟨p, hret⟩ := persist_returns hwhy cs d' s' h' hp'
      rw [hret]
      exact ⟨_, rfl⟩

/-- Interruptions of the reader are not seen. Where the bytes of a stream come in pieces, with
interruptions in front of any of them, `read_to_end` gives what it gives of the bytes, and calls
that are made again after they are interrupted give a part of that, or all of it and the same end;
none of them panics where no more is consumed than there is. -/
theorem interrupts_invisible (X : XxHash32) (t : Target) (options : FrameDecoderOptions) (r : Reader)
    (stream : List UInt8) (hr : Trickling r stream) :
    ∃ D o, (∃ d, (Spec.frameDecoder X t true).call (FrameDecoder.withOptions X t stream options) .readToEnd =
        .ret (⟨D, o⟩, d)) ∧
      (∃ d, (Spec.frameDecoder X t true).call (FrameDecoder.withOptions X t r options) .readToEnd =
        .ret (⟨D, o⟩, d)) ∧
      ∀ cs : List (Spec.Call Reader), (∀ c ∈ cs, c.reads = true) →
        (∀ bytes ended, (Spec.frameDecoder X t true).persist (FrameDecoder.withOptions X t r options) cs =
            .ret (bytes, ended) →
          match ended with
          | none => bytes <+: D
          | some o' => bytes = D ∧ o' = o) ∧
        ((Spec.frameDecoder X t true).Proper (FrameDecoder.withOptions X t r options) cs →
          ∃ p, (Spec.frameDecoder X t true).persist (FrameDecoder.withOptions X t r options) cs = .ret p) := by
  obtain ⟨D, o, f, hl⟩ := Left.total (X := X) (S := settings t options) (Naive.start stream)
  have ha : Awaits X (settings t options) (Naive.start r) D o := ⟨Naive.start stream, f, ⟨hr, rfl, rfl, rfl⟩, hl⟩
  have hwhy := settings_why t options
  have hrep := withOptions_rep X t r options
  refine ⟨D, o, hl.readToEnd, ?_, fun cs hcs => ⟨fun bytes ended h => ?_, fun hp => ?_⟩⟩
  · obtain ⟨f', -, hread⟩ := readToEnd_serves (awaits_supplies X _) ha.calm ha
    obtain ⟨d, hd, -⟩ := readToEnd_rep hwhy hread hrep
    rw [settings_target] at hd
    exact ⟨d, hd⟩
  · have hsame := (persist_refines true hwhy cs _ _ hrep).eq
    rw [settings_target] at hsame
    exact persist_awaits ha hcs (hsame.symm.trans h)
  · have hreturns := persist_returns hwhy cs _ _ hrep
    rw [settings_target] at hreturns
    exact hreturns hp

/-- A frame of one stored byte in two pieces, with an interruption in front of each. -/
theorem interrupts_invisible_twice :
    let t : Target := ⟨.w64, false, false⟩
    let stream : List UInt8 := [0x04, 0x22, 0x4D, 0x18, 0x60, 0x40, 0x82, 1, 0, 0, 0x80, 7, 0, 0, 0, 0]
    let interrupted : ReadEvent := .fail ⟨.interrupted, "interrupted"⟩
    let r : Reader := ⟨[interrupted, .data (stream.take 2), interrupted, .data (stream.drop 2)]⟩
    ∃ D o, (∃ d, (Spec.frameDecoder Spec.xxHash32 t true).call
        (FrameDecoder.withOptions Spec.xxHash32 t stream ⟨none, none⟩) .readToEnd = .ret (⟨D, o⟩, d)) ∧
      (∃ d, (Spec.frameDecoder Spec.xxHash32 t true).call
        (FrameDecoder.withOptions Spec.xxHash32 t r ⟨none, none⟩) .readToEnd = .ret (⟨D, o⟩, d)) ∧
      ∀ cs : List (Spec.Call Reader), (∀ c ∈ cs, c.reads = true) →
        (∀ bytes ended, (Spec.frameDecoder Spec.xxHash32 t true).persist
            (FrameDecoder.withOptions Spec.xxHash32 t r ⟨none, none⟩) cs = .ret (bytes, ended) →
          match ended with
          | none => bytes <+: D
          | some o' => bytes = D ∧ o' = o) ∧
        ((Spec.frameDecoder Spec.xxHash32 t true).Proper
            (FrameDecoder.withOptions Spec.xxHash32 t r ⟨none, none⟩) cs →
          ∃ p, (Spec.frameDecoder Spec.xxHash32 t true).persist
            (FrameDecoder.withOptions Spec.xxHash32 t r ⟨none, none⟩) cs = .ret p) := by
  intro t stream interrupted r
  have hr : Trickling r stream :=
    .interrupted rfl (.data (by decide) (.interrupted rfl (.data (by decide) .nil)))
  exact interrupts_invisible Spec.xxHash32 t ⟨none, none⟩ r stream hr

end Lz4rip.Proof.Frame
