import Lz4rip.Proof.Frame.Alike
import Lz4rip.Proof.Frame.Bounded
import Lz4rip.Proof.Frame.Exhaust
import Lz4rip.Spec.Hash

/-!
# Reading granularity

A reader that gives some bytes in chunks that are not empty is as good as the
bytes (`Delivers`, `delivers_alike`), and any reads of a decoder take a part of
what `read_to_end` gives, or all of it and the same end. That end is the true one:
nothing is left of the reader, and no frame is open (`reads_deliver`).
-/

namespace Lz4rip.Proof.Frame

open Lz4rip.Impl
open Lz4rip.Proc (Upto)
open Spec (Frame Settings Naive)

/-! ## Chunks -/

/-- The reader that gives the chunks one by one. -/
def Reader.ofChunks (chunks : List (List UInt8)) : Reader := ⟨chunks.map .data⟩

/-- The reader gives the bytes, in chunks that are not empty. -/
def Delivers (r : Reader) (bytes : List UInt8) : Prop :=
  ∃ chunks, r = Reader.ofChunks chunks ∧ (∀ c ∈ chunks, c ≠ []) ∧ chunks.flatten = bytes

theorem readExact_chunks : ∀ (n : Nat) (chunks : List (List UInt8)), (∀ c ∈ chunks, c ≠ []) →
    if n ≤ chunks.flatten.length then
      ∃ chunks' : List (List UInt8), Reader.readExactEvents n (chunks.map .data) =
        (chunks.flatten.take n, .ok (), chunks'.map .data) ∧ (∀ c ∈ chunks', c ≠ []) ∧
          chunks'.flatten = chunks.flatten.drop n
    else ∃ got, Reader.readExactEvents n (chunks.map .data) = (got, .error READ_EXACT_EOF, [])
  | 0, chunks, hne => by
    rw [if_pos (Nat.zero_le _)]
    refine ⟨chunks, ?_, hne, rfl⟩
    rw [Reader.readExactEvents.eq_def]
    rfl
  | n + 1, [], _ => ⟨[], rfl⟩
  | n + 1, c :: chunks, hne => by
    have hc : c ≠ [] := hne c (List.mem_cons_self ..)
    have hrest : ∀ c ∈ chunks, c ≠ [] := fun c h => hne c (List.mem_cons_of_mem _ h)
    have ih := readExact_chunks (n + 1 - c.length) chunks hrest
    rw [List.map_cons, Reader.readExactEvents, if_neg hc, List.flatten_cons, List.length_append]
    by_cases hlt : n + 1 < c.length
    · rw [if_pos (by omega), if_pos hlt]
      refine ⟨c.drop (n + 1) :: chunks, ?_, ?_, ?_⟩
      · rw [List.take_append_of_le_length (by omega)]
        rfl
      · intro c' h
        rcases List.mem_cons.mp h with rfl | h
        · rw [ne_eq, List.drop_eq_nil_iff]
          omega
        · exact hrest c' h
      · rw [List.flatten_cons, List.drop_append_of_le_length (by omega)]
    · rw [if_neg hlt]
      by_cases hle : n + 1 - c.length ≤ chunks.flatten.length
      · rw [if_pos hle] at ih
        obtain ⟨chunks', he, hne', hf⟩ := ih
        rw [if_pos (by omega), he]
        refine ⟨chunks', ?_, hne', ?_⟩
        · rw [List.take_append, List.take_of_length_le (show c.length ≤ n + 1 by omega)]
        · rw [hf, List.drop_append, List.drop_eq_nil_of_le (show c.length ≤ n + 1 by omega),
            List.nil_append]
      · rw [if_neg hle] at ih
        obtain ⟨got, he⟩ := ih
        rw [if_neg (by omega), he]
        exact ⟨c ++ got, rfl⟩

theorem readFull_delivers {B : Error → Prop} {r : Reader} {bs : List UInt8} (h : Delivers r bs)
    (n : Nat) : Upto B (SameIn Delivers) Delivers (readFull n r) (readFull n bs) := by
  obtain ⟨chunks, rfl, hne, rfl⟩ := h
  have hr := readExact_chunks n chunks hne
  rw [readFull_slice]
  unfold readFull
  simp only [Read.readExact, Reader.ofChunks]
  by_cases hn : n ≤ chunks.flatten.length
  · rw [if_pos hn] at hr ⊢
    obtain ⟨chunks', he, hne', hf⟩ := hr
    rw [he]
    exact .ok ⟨rfl, chunks', rfl, hne', hf⟩
  · rw [if_neg hn] at hr ⊢
    obtain ⟨got, he⟩ := hr
    rw [he]
    exact .error ⟨[], rfl, nofun, rfl⟩

/-- A first read gives some of the bytes. -/
theorem readSome_delivers {r : Reader} {bs : List UInt8} (h : Delivers r bs) (hbs : bs ≠ []) {n : Nat}
    (hn : n ≠ 0) : ∃ k r', k ≠ 0 ∧ k ≤ n ∧ k ≤ bs.length ∧ readSome n r = .ret (.ok (bs.take k), r') ∧
      Delivers r' (bs.drop k) := by
  obtain ⟨chunks, rfl, hne, rfl⟩ := h
  cases chunks with
  | nil => exact absurd rfl hbs
  | cons c chunks =>
    have hpos : 0 < c.length := List.length_pos_iff.mpr (hne c (List.mem_cons_self ..))
    have hrest : ∀ c ∈ chunks, c ≠ [] := fun c h => hne c (List.mem_cons_of_mem _ h)
    simp only [readSome, Read.read, Reader.ofChunks, List.map_cons, Reader.readEvents,
      List.flatten_cons, List.length_append]
    by_cases hle : c.length ≤ n
    · rw [if_pos hle]
      refine ⟨c.length, _, by omega, hle, by omega, ?_, chunks, rfl, hrest, ?_⟩
      · rw [List.take_left]
        rfl
      · rw [List.drop_left]
    · rw [if_neg hle]
      refine ⟨n, _, hn, Nat.le_refl _, by omega, ?_, c.drop n :: chunks, rfl, ?_, ?_⟩
      · rw [List.take_append_of_le_length (by omega)]
        rfl
      · intro c' h
        rcases List.mem_cons.mp h with rfl | h
        · rw [ne_eq, List.drop_eq_nil_iff]
          omega
        · exact hrest c' h
      · rw [List.flatten_cons, List.drop_append_of_le_length (by omega)]

theorem readMagic_delivers {B : Error → Prop} {r : Reader} {bs : List UInt8} (h : Delivers r bs) :
    Upto B (SameIn Delivers) Delivers (readMagic r) (readMagic bs) := by
  rw [readMagic_slice]
  by_cases hbs : bs = []
  · obtain ⟨chunks, rfl, hne, rfl⟩ := h
    rw [if_pos hbs]
    cases chunks with
    | nil => exact .ok ⟨rfl, [], rfl, nofun, rfl⟩
    | cons c chunks =>
      exact absurd (List.append_eq_nil_iff.mp hbs).1 (hne c (List.mem_cons_self ..))
  · obtain ⟨k, r', hk, hk4, hkl, hsome, hd⟩ := readSome_delivers h hbs (n := MAGIC_NUMBER_SIZE)
      (by decide)
    have hlen : (bs.take k).length = k := by rw [List.length_take]; omega
    have hne : bs.take k ≠ [] := fun he => hk (by rw [he] at hlen; exact hlen.symm)
    rw [if_neg hbs]
    unfold readMagic
    rw [Proc.bind_run, hsome, Run.ret_bind, Proc.andThen_ok, Proc.ite_run, if_neg hne, hlen]
    unfold readRest
    have hfull := readFull_delivers (B := B) hd (MAGIC_NUMBER_SIZE - k)
    rw [readFull_slice, List.length_drop] at hfull
    by_cases he : k = MAGIC_NUMBER_SIZE
    · subst he
      rw [Proc.bind_run, Proc.ite_run, if_pos rfl, if_pos hkl]
      simp only [Proc.pure_run, Run.ret_bind, Proc.andThen_ok, List.append_nil]
      exact .ok ⟨rfl, hd⟩
    · by_cases hl : MAGIC_NUMBER_SIZE ≤ bs.length
      · rw [if_pos (by omega)] at hfull
        rw [Proc.bind_run, Proc.ite_run, if_neg he, if_pos hl]
        obtain ⟨e, s, hx, hB⟩ | ⟨_, r'', hx, rfl, hd'⟩ := hfull.of_ok rfl
        · rw [hx]
          exact .stop hB
        · rw [hx]
          rw [List.drop_drop, Nat.add_sub_cancel' hk4] at hd'
          refine .ok ⟨?_, hd'⟩
          rw [← List.take_add, Nat.add_sub_cancel' hk4]
      · rw [if_neg (by omega)] at hfull
        rw [Proc.bind_run, Proc.ite_run, if_neg he, if_neg hl]
        obtain ⟨e, s, hx, hB⟩ | ⟨r'', hx, hd'⟩ := hfull.of_error rfl
        · rw [hx]
          exact .stop hB
        · rw [hx]
          exact .error hd'

/-- A reader in chunks is like the bytes. -/
theorem delivers_alike (S : Settings) : Alike (fun _ _ => False) Delivers Eq S S where
  dict := rfl
  dictId := rfl
  why := rfl
  full _ n hr := readFull_delivers hr n
  count {out out'} len _ ho := by
    subst ho
    cases hc : checkOutputLen S.target S.maxOutput out len with
    | ok o => exact .inr ⟨o, o, hc, hc, rfl⟩
    | error e => exact .inl ⟨e, rfl, .inr rfl⟩

theorem slice_calm : Calm (List UInt8) := nofun

/-! ## The end of the reader -/

/-- A slice gives nothing when it is empty. -/
theorem slice_ending : Ending (fun _ : List UInt8 => True) [] where
  some n bs _ := .ret ⟨trivial, fun hn he => by
    rcases List.take_eq_nil_iff.mp he with h₀ | h₀
    · exact absurd h₀ hn
    · rw [h₀, List.drop_nil]⟩
  full n bs _ := by
    rw [readFull_slice]
    split
    · exact .ret trivial
    · exact .error trivial

/-- None of the chunks is empty. -/
def Solid (es : List ReadEvent) : Prop := ∀ bytes, .data bytes ∈ es → bytes ≠ []

theorem Solid.tail {e : ReadEvent} {es : List ReadEvent} (h : Solid (e :: es)) : Solid es :=
  fun bytes hb => h bytes (List.mem_cons_of_mem _ hb)

/-- What is left of a chunk that is longer than what is read of it. -/
theorem Solid.split {bs : List UInt8} {es : List ReadEvent} (h : Solid (.data bs :: es)) {n : Nat}
    (hn : n < bs.length) : Solid (.data (bs.drop n) :: es) := by
  intro bytes hb
  rcases List.mem_cons.mp hb with heq | hb
  · obtain rfl := ReadEvent.data.inj heq
    rw [ne_eq, List.drop_eq_nil_iff]
    omega
  · exact h.tail bytes hb

theorem readExactEvents_solid : ∀ (n : Nat) (es : List ReadEvent), Solid es →
    Solid (Reader.readExactEvents n es).2.2
  | 0, es, h => by rwa [Reader.readExactEvents.eq_def]
  | n + 1, [], h => h
  | n + 1, .fail e :: es, h => by
    rw [Reader.readExactEvents]
    split
    · exact readExactEvents_solid (n + 1) es h.tail
    · exact h.tail
  | n + 1, .data bs :: es, h => by
    rw [Reader.readExactEvents, if_neg (h bs (List.mem_cons_self ..))]
    split
    · exact h.split ‹_›
    · exact readExactEvents_solid (n + 1 - bs.length) es h.tail

/-- A reader of chunks that are not empty gives nothing when there are no more. -/
theorem reader_ending : Ending (fun r : Reader => Solid r.events) (Reader.ofChunks []) where
  some n r hr := by
    obtain ⟨es⟩ := r
    rcases es with _ | ⟨bs | e, es⟩
    · exact .ret ⟨hr, fun _ _ => rfl⟩
    · have hne : bs ≠ [] := hr bs (List.mem_cons_self ..)
      simp only [readSome, Read.read, Reader.readEvents]
      by_cases hle : bs.length ≤ n
      · rw [if_pos hle]
        exact .ret ⟨hr.tail, fun _ he => absurd he hne⟩
      · rw [if_neg hle]
        refine .ret ⟨hr.split (Nat.lt_of_not_le hle), fun hn he => ?_⟩
        rcases List.take_eq_nil_iff.mp he with h₀ | h₀
        · exact absurd h₀ hn
        · exact absurd h₀ hne
    · exact .error hr.tail
  full n r hr := by
    have hsolid := readExactEvents_solid n r.events hr
    intro p hp
    cases hp
    dsimp only [readFull, Read.readExact]
    cases (Reader.readExactEvents n r.events).2.1 <;> exact hsolid

theorem Delivers.solid {r : Reader} {bytes : List UInt8} (h : Delivers r bytes) : Solid r.events := by
  obtain ⟨chunks, rfl, hne, -⟩ := h
  intro bs hb
  obtain ⟨c, hc, heq⟩ := List.mem_map.mp hb
  exact ReadEvent.data.inj heq ▸ hne c hc

/-! ## What is left -/

/-- What is left of the bytes is left of a reader that gives them in chunks. -/
theorem Left.delivers {X : XxHash32} {S : Settings} {r : Reader} {bs : List UInt8}
    (h : Delivers r bs) {f : Naive (List UInt8)} {D : List UInt8} {o : Option Error}
    (hl : Left X S (Naive.start bs) D o f) : ∃ f', Left X S (Naive.start r) D o f' := by
  obtain ⟨blocks, hd, rfl⟩ := hl
  obtain ⟨_, _, f', hd', ⟨rfl, rfl, -⟩ | ⟨_, -, hB, -⟩⟩ := hd.upto (delivers_alike S)
    (headersAlike_of_magic (delivers_alike S) fun _ => readMagic_delivers) (s := Naive.start r)
    ⟨h, rfl, rfl, rfl⟩ rfl
  · exact ⟨f', _, hd', rfl⟩
  · exact hB.elim

/-- `read_to_end` of a decoder gives what the naive one gives. -/
theorem readToEnd_rep {X : XxHash32} {S : Settings} {ρ : Type} [Read ρ] [LawfulRead ρ]
    (hwhy : S.why = blockError S.target S.dict) {d : FrameDecoder X ρ} {s f : Naive ρ} {D : List UInt8}
    {o : Option Error} (hread : Naive.readToEnd X S s = .ret (.ok (D, toEndResult o D.length), f))
    (hrep : Rep S d s) :
    ∃ d', (Spec.frameDecoder X S.target true).call d .readToEnd = .ret (⟨D, o⟩, d') ∧ Rep S d' f := by
  have hsame := call_refines true hwhy .readToEnd hrep
  rw [call_readToEnd hread] at hsame
  obtain ⟨⟨_, d'⟩, hd, rfl, hrep'⟩ := hsame.of_ret
  exact ⟨d', hd, hrep'⟩

/-- What is left of a slice is what `read_to_end` gives. -/
theorem Left.readToEnd {X : XxHash32} {t : Target} {options : FrameDecoderOptions}
    {stream : List UInt8} {f : Naive (List UInt8)} {D : List UInt8} {o : Option Error}
    (hl : Left X (settings t options) (Naive.start stream) D o f) :
    ∃ d', (Spec.frameDecoder X t true).call (FrameDecoder.withOptions X t stream options) .readToEnd =
      .ret (⟨D, o⟩, d') := by
  have ho : ∀ e, o = some e → e.kind ≠ .interrupted := by
    obtain ⟨_, hd, -⟩ := hl
    exact hd.calm slice_calm rfl
  obtain ⟨d', hd, -⟩ := readToEnd_rep (settings_why t options) (readToEnd_left ho hl)
    (withOptions_rep X t stream options)
  rw [settings_target] at hd
  exact ⟨d', hd⟩

/-- And what any reads give, of a reader that gives the slice in chunks. -/
theorem Left.session {X : XxHash32} {t : Target} {options : FrameDecoderOptions}
    {stream : List UInt8} {f : Naive (List UInt8)} {D : List UInt8} {o : Option Error} {r : Reader}
    {cs : List (Spec.Call Reader)} {bytes : List UInt8} {ended : Option (Option Error)}
    (hl : Left X (settings t options) (Naive.start stream) D o f) (hr : Delivers r stream)
    (hcs : ∀ c ∈ cs, c.reads = true) :
    (Spec.frameDecoder X t true).session (FrameDecoder.withOptions X t r options) cs =
        .ret (bytes, ended) →
      match ended with
      | none => bytes <+: D
      | some o' => bytes = D ∧ o' = o := by
  intro h
  have ho : ∀ e, o = some e → e.kind ≠ .interrupted := by
    obtain ⟨_, hd, -⟩ := hl
    exact hd.calm slice_calm rfl
  obtain ⟨f', hl'⟩ := hl.delivers hr
  rw [withOptions_session] at h
  exact session_left ho hl' hcs h

/-- However the stream is cut into chunks and however it is read, the decoder
gives a part of what `read_to_end` gives on the whole of it, or all of that and
the same end. A call that says that the stream has ended does so at its end, and
no call panics where no more is consumed than there is. -/
theorem reads_deliver (X : XxHash32) (t : Target) (options : FrameDecoderOptions) (r : Reader)
    (stream : List UInt8) (hr : Delivers r stream) (cs : List (Spec.Call Reader))
    (hcs : ∀ c ∈ cs, c.reads = true) :
    ∃ D o d', (Spec.frameDecoder X t true).call (FrameDecoder.withOptions X t stream options)
        .readToEnd = .ret (⟨D, o⟩, d') ∧ (o = none → AtEnd [] d') ∧
      (∀ bytes ended, (Spec.frameDecoder X t true).session (FrameDecoder.withOptions X t r options) cs =
          .ret (bytes, ended) →
        match ended with
        | none => bytes <+: D
        | some o' => bytes = D ∧ o' = o) ∧
      (∀ rs d c reply d', (Spec.frameDecoder X t true).run (FrameDecoder.withOptions X t r options) cs =
          .ret (rs, d) → c.reads = true → (Spec.frameDecoder X t true).call d c = .ret (reply, d') →
        Spec.Calls.ends c reply = true → reply.error = none → AtEnd (Reader.ofChunks []) d') ∧
      ((Spec.frameDecoder X t true).Proper (FrameDecoder.withOptions X t r options) cs →
        ∃ p, (Spec.frameDecoder X t true).session (FrameDecoder.withOptions X t r options) cs =
          .ret p) := by
  obtain ⟨D, o, f, hl⟩ := Left.total (X := X) (S := settings t options) (Naive.start stream)
  obtain ⟨d', hd⟩ := hl.readToEnd
  refine ⟨D, o, d', hd, fun ho => ?_, fun _ _ h => hl.session hr hcs h, ?_, fun hp => ?_⟩
  · have hrun : (Spec.frameDecoder X t true).run (FrameDecoder.withOptions X t stream options) [] =
        .ret ([], FrameDecoder.withOptions X t stream options) := rfl
    have hreads : (Spec.Call.readToEnd : Spec.Call (List UInt8)).reads = true := rfl
    exact run_ended slice_ending t options trivial (fun _ h => absurd h List.not_mem_nil) hrun hreads hd rfl ho
  · exact fun rs d c reply d' hrun hc hcall =>
      run_ended reader_ending t options hr.solid hcs hrun hc hcall
  · have := session_returns (settings_why t options) cs _ _ (withOptions_rep X t r options)
      (by rwa [settings_target])
    rwa [settings_target] at this

/-- A frame of one stored byte in two chunks, read byte by byte. -/
theorem reads_deliver_chunks :
    let t : Target := ⟨.w64, false, false⟩
    let stream : List UInt8 := [0x04, 0x22, 0x4D, 0x18, 0x60, 0x40, 0x82, 1, 0, 0, 0x80, 7, 0, 0, 0, 0]
    let fresh : FrameDecoder Spec.xxHash32 Reader :=
      FrameDecoder.withOptions Spec.xxHash32 t (Reader.ofChunks [stream.take 2, stream.drop 2]) ⟨none, none⟩
    let cs : List (Spec.Call Reader) := [.read 1, .fillBuf, .readToEnd]
    ∃ D o d', (Spec.frameDecoder Spec.xxHash32 t true).call
        (FrameDecoder.withOptions Spec.xxHash32 t stream ⟨none, none⟩) .readToEnd =
          .ret (⟨D, o⟩, d') ∧ (o = none → AtEnd [] d') ∧
      (∀ bytes ended, (Spec.frameDecoder Spec.xxHash32 t true).session fresh cs = .ret (bytes, ended) →
        match ended with
        | none => bytes <+: D
        | some o' => bytes = D ∧ o' = o) ∧
      (∀ rs d c reply d', (Spec.frameDecoder Spec.xxHash32 t true).run fresh cs = .ret (rs, d) →
        c.reads = true → (Spec.frameDecoder Spec.xxHash32 t true).call d c = .ret (reply, d') →
        Spec.Calls.ends c reply = true → reply.error = none → AtEnd (Reader.ofChunks []) d') ∧
      ((Spec.frameDecoder Spec.xxHash32 t true).Proper fresh cs →
        ∃ p, (Spec.frameDecoder Spec.xxHash32 t true).session fresh cs = .ret p) := by
  intro t stream fresh cs
  exact reads_deliver Spec.xxHash32 t ⟨none, none⟩ (Reader.ofChunks [stream.take 2, stream.drop 2]) stream
    ⟨_, rfl, by decide, by decide⟩ cs (by decide)

end Lz4rip.Proof.Frame
