import Lz4rip.Framework.Lz77
import Lz4rip.Framework.Target

/-!
# The LZ4 block format

A block is a list of sequences and a last literal run (`Block`). `readToken`
reads one token with everything that belongs to it; a token whose literals end
the input is the last one. `parse` reads the block a byte string stands for,
and `decode` is the reference decoder: token by token, literals appended and
matches copied one byte at a time after a history (`Lz77.copyBack`), which is
a dictionary, or the dictionary and what was decoded before the block.

`decode_eq_parse` joins the two. `Block.bytes` writes a block; `parse_bytes`
reads it back, for blocks whose matches are at least `4` long and whose
offsets fit two bytes.
-/

namespace Lz4rip.Spec

abbrev Sequence := Lz77.Sequence UInt8

/-- A block: sequences, then literals. -/
structure Block where
  sequences : List Sequence
  last : List UInt8
  deriving DecidableEq, Repr

/-! ## Reading -/

/-- The bytes that extend a length: `255` means that another one follows. -/
def readExtension : List UInt8 → Option (Nat × List UInt8)
  | [] => none
  | b :: bs =>
    if b.toNat = 255 then (readExtension bs).map fun (n, r) => (255 + n, r)
    else some (b.toNat, bs)

/-- A length from its four bits in the token; `15` means that it is extended. -/
def readLength (nibble : Nat) (bs : List UInt8) : Option (Nat × List UInt8) :=
  if nibble = 15 then (readExtension bs).map fun (n, r) => (15 + n, r) else some (nibble, bs)

/-- What a token and the bytes that belong to it stand for. -/
inductive Token where
  | last (literals : List UInt8)
  | sequence (s : Sequence) (rest : List UInt8)

/-- Reads one token, its literals and, unless they end the input, its match. -/
def readToken : List UInt8 → Option Token
  | [] => none
  | token :: bs =>
    match readLength (token.toNat / 16) bs with
    | none => none
    | some (litLen, bs) =>
      if bs.length < litLen then none
      else match bs.drop litLen with
        | [] => some (.last (bs.take litLen))
        | [_] => none
        | lo :: hi :: bs' =>
          match readLength (token.toNat % 16) bs' with
          | none => none
          | some (n, rest) =>
            some (.sequence ⟨bs.take litLen, lo.toNat + 256 * hi.toNat, 4 + n⟩ rest)

/-- `parse`, for at most `fuel` tokens. -/
def parseFrom : Nat → List UInt8 → Option Block
  | 0, _ => none
  | fuel + 1, bs =>
    match readToken bs with
    | none => none
    | some (.last l) => some ⟨[], l⟩
    | some (.sequence s rest) => (parseFrom fuel rest).map fun b => ⟨s :: b.sequences, b.last⟩

/-- The block that `bs` stands for. -/
def parse (bs : List UInt8) : Option Block := parseFrom (bs.length + 1) bs

/-- `decode`, for at most `fuel` tokens, with the history in front. -/
def decodeFrom (w : List UInt8) : Nat → List UInt8 → Option (List UInt8)
  | 0, _ => none
  | fuel + 1, bs =>
    match readToken bs with
    | none => none
    | some (.last l) => some (w ++ l)
    | some (.sequence s rest) => (s.apply w).bind fun v => decodeFrom v fuel rest

/-- The bytes that `bs` decodes to after the history `w`. -/
def decode (w bs : List UInt8) : Option (List UInt8) :=
  (decodeFrom w (bs.length + 1) bs).map (·.drop w.length)

/-- The bytes that a block decodes to after the history `w`, with the history
in front. -/
def Block.expand (w : List UInt8) (b : Block) : Option (List UInt8) :=
  (Lz77.expand w b.sequences).map (· ++ b.last)

theorem length_readExtension : ∀ {bs : List UInt8} {n : Nat} {r : List UInt8},
    readExtension bs = some (n, r) → r.length < bs.length
  | b :: bs, n, r, h => by
    rw [readExtension] at h
    split at h
    · obtain ⟨⟨m, r'⟩, hm, he⟩ := Option.map_eq_some_iff.mp h
      obtain ⟨-, rfl⟩ := Prod.mk.inj he
      exact Nat.lt_succ_of_lt (length_readExtension hm)
    · obtain ⟨-, rfl⟩ := Prod.mk.inj (Option.some.inj h)
      exact Nat.lt_succ_self _

theorem length_readLength {nibble n : Nat} {bs r : List UInt8}
    (h : readLength nibble bs = some (n, r)) : r.length ≤ bs.length := by
  unfold readLength at h
  split at h
  · obtain ⟨⟨m, r'⟩, hm, he⟩ := Option.map_eq_some_iff.mp h
    obtain ⟨-, rfl⟩ := Prod.mk.inj he
    exact Nat.le_of_lt (length_readExtension hm)
  · obtain ⟨-, rfl⟩ := Prod.mk.inj (Option.some.inj h)
    exact Nat.le_refl _

/-- Reading a token that is not the last one uses up at least one byte, and
what it reads has an offset of two bytes and a match of at least four. -/
theorem readToken_sequence {bs rest : List UInt8} {s : Sequence}
    (h : readToken bs = some (.sequence s rest)) :
    rest.length < bs.length ∧ s.offset < 65536 ∧ 4 ≤ s.matchLen := by
  cases bs with
  | nil => cases h
  | cons token bs =>
    simp only [readToken] at h
    split at h
    · cases h
    · rename_i litLen bs₁ h₁
      split at h
      · cases h
      · split at h
        · cases h
        · cases h
        · rename_i lo hi bs₂ h₂
          split at h
          · cases h
          · rename_i n rest' h₃
            obtain ⟨rfl, rfl⟩ := Token.sequence.inj (Option.some.inj h)
            have e₂ := congrArg List.length h₂
            have l₁ := length_readLength h₁
            have l₃ := length_readLength h₃
            have := lo.toNat_lt
            have := hi.toNat_lt
            simp only [List.length_drop, List.length_cons] at e₂ ⊢
            omega

/-- The literals of a token are as many as it says. -/
theorem readToken_literals {b : UInt8} {bs r : List UInt8} {k : Nat} {tok : Token}
    (hk : readLength (b.toNat / 16) bs = some (k, r)) (h : readToken (b :: bs) = some tok) :
    (∀ l, tok = .last l → l.length = k) ∧
      ∀ s rest, tok = .sequence s rest → s.literals.length = k := by
  rw [readToken, hk] at h
  dsimp only at h
  split at h
  · cases h
  · have hlen : (r.take k).length = k := by
      rw [List.length_take]
      omega
    split at h
    · obtain rfl := Option.some.inj h
      exact ⟨fun l hl => Token.last.inj hl ▸ hlen, nofun⟩
    · cases h
    · split at h
      · cases h
      · obtain rfl := Option.some.inj h
        exact ⟨nofun, fun s rest hs => (Token.sequence.inj hs).1 ▸ hlen⟩

theorem decodeFrom_fuel : ∀ {n m : Nat} {bs : List UInt8} (w : List UInt8), bs.length < n →
    bs.length < m → decodeFrom w n bs = decodeFrom w m bs
  | n + 1, m + 1, bs, w, hn, hm => by
    rw [decodeFrom, decodeFrom]
    split
    · rfl
    · rfl
    · rename_i s rest h
      have := (readToken_sequence h).1
      exact congrArg _ (funext fun v => decodeFrom_fuel v (by omega) (by omega))

theorem length_decodeFrom : ∀ {n : Nat} {w bs v : List UInt8}, decodeFrom w n bs = some v →
    w.length ≤ v.length
  | n + 1, w, bs, v, h => by
    rw [decodeFrom] at h
    split at h
    · cases h
    · cases h
      rw [List.length_append]
      omega
    · obtain ⟨u, hu, hv⟩ := Option.bind_eq_some_iff.mp h
      have := Lz77.Sequence.length_apply hu
      have := length_decodeFrom hv
      omega

/-- What is decoded after a dictionary and more starts with the dictionary. -/
theorem append_drop_of_take {d w v : List UInt8} (h : v.take (d ++ w).length = d ++ w) :
    d ++ v.drop d.length = v := by
  have : v.take d.length = d := by
    rw [← Nat.min_eq_left (show d.length ≤ (d ++ w).length by rw [List.length_append]; omega),
      ← List.take_take, h, List.take_left]
  conv_rhs => rw [← List.take_append_drop d.length v, this]

theorem decodeFrom_eq_parse : ∀ (n : Nat) (w bs : List UInt8),
    decodeFrom w n bs = (parseFrom n bs).bind (Block.expand w)
  | 0, _, _ => rfl
  | n + 1, w, bs => by
    rw [decodeFrom, parseFrom]
    split
    · rfl
    · rfl
    · rename_i s rest h
      simp only [Option.bind_map]
      cases hs : s.apply w with
      | none =>
        cases parseFrom n rest with
        | none => rfl
        | some b =>
          simp only [Option.bind_none, Option.bind_some, Function.comp, Block.expand, Lz77.expand,
            hs, Option.map_none]
      | some v =>
        rw [Option.bind_some, decodeFrom_eq_parse n v rest]
        refine congrArg _ (funext fun b => ?_)
        simp only [Function.comp, Block.expand, Lz77.expand, hs, Option.bind_some]

/-- The reference decoder decodes the block it parses. -/
theorem decode_eq_parse (w bs : List UInt8) :
    decode w bs = (parse bs).bind fun b => (b.expand w).map (·.drop w.length) := by
  rw [decode, decodeFrom_eq_parse, parse, Option.map_bind]
  rfl

theorem parseFrom_offset_lt : ∀ {n : Nat} {bs : List UInt8} {b : Block}, parseFrom n bs = some b →
    ∀ s ∈ b.sequences, s.offset < 65536
  | n + 1, bs, b, h => by
    rw [parseFrom] at h
    split at h
    · cases h
    · cases h; simp
    · rename_i s rest hs
      obtain ⟨b', hb, rfl⟩ := Option.map_eq_some_iff.mp h
      intro s' hs'
      rcases List.mem_cons.mp hs' with rfl | hm
      · exact (readToken_sequence hs).2.1
      · exact parseFrom_offset_lt hb s' hm

/-! ## Histories -/

theorem Block.expand_prepend {w r : List UInt8} {b : Block} (a : List UInt8)
    (h : b.expand w = some r) : b.expand (a ++ w) = some (a ++ r) := by
  obtain ⟨v, hv, rfl⟩ := Option.map_eq_some_iff.mp h
  rw [Block.expand, Lz77.expand_prepend a hv, Option.map_some, List.append_assoc]

/-- What decodes after a history decodes to the same after a longer one. -/
theorem decode_prepend {w bs r : List UInt8} (a : List UInt8) (h : decode w bs = some r) :
    decode (a ++ w) bs = some r := by
  rw [decode_eq_parse] at h ⊢
  obtain ⟨b, hb, hr⟩ := Option.bind_eq_some_iff.mp h
  obtain ⟨v, hv, rfl⟩ := Option.map_eq_some_iff.mp hr
  rw [hb, Option.bind_some, Block.expand_prepend a hv, Option.map_some, List.length_append,
    List.drop_length_add_append]

/-- The last `65535` bytes of the history are as good as all of it. -/
theorem decode_append_history (a : List UInt8) {w : List UInt8} (bs : List UInt8)
    (hw : 65535 ≤ w.length) : decode (a ++ w) bs = decode w bs := by
  rw [decode_eq_parse, decode_eq_parse]
  cases hp : parse bs with
  | none => rfl
  | some b =>
    rw [Option.bind_some, Option.bind_some, Block.expand, Block.expand,
      Lz77.expand_append_history a fun s hs => by
        have := parseFrom_offset_lt hp s hs
        omega,
      Option.map_map, Option.map_map, Option.map_map]
    refine congrArg (Option.map · _) (funext fun v => ?_)
    simp only [Function.comp, List.append_assoc, List.length_append, List.drop_length_add_append]

/-! ## Prefixes -/

theorem readExtension_append (q : List UInt8) : ∀ {bs : List UInt8} {n : Nat} {r : List UInt8},
    readExtension bs = some (n, r) → readExtension (bs ++ q) = some (n, r ++ q)
  | b :: bs, n, r, h => by
    rw [readExtension] at h
    rw [List.cons_append, readExtension]
    split at h
    · obtain ⟨⟨m, r'⟩, hm, he⟩ := Option.map_eq_some_iff.mp h
      obtain ⟨rfl, rfl⟩ := Prod.mk.inj he
      rw [if_pos ‹_›, readExtension_append q hm, Option.map_some]
    · obtain ⟨rfl, rfl⟩ := Prod.mk.inj (Option.some.inj h)
      rw [if_neg ‹_›]

theorem readLength_append (q : List UInt8) {nibble n : Nat} {bs r : List UInt8}
    (h : readLength nibble bs = some (n, r)) : readLength nibble (bs ++ q) = some (n, r ++ q) := by
  unfold readLength at h ⊢
  split at h
  · obtain ⟨⟨m, r'⟩, hm, he⟩ := Option.map_eq_some_iff.mp h
    obtain ⟨rfl, rfl⟩ := Prod.mk.inj he
    rw [if_pos ‹_›, readExtension_append q hm, Option.map_some]
  · obtain ⟨rfl, rfl⟩ := Prod.mk.inj (Option.some.inj h)
    rw [if_neg ‹_›]

/-- With more bytes behind it a token is read as before; but one that was the last
goes on with a match. -/
theorem readToken_append {bs q : List UInt8} {tok tok' : Token} (hq : q ≠ [])
    (h : readToken bs = some tok) (h' : readToken (bs ++ q) = some tok') :
    (∀ s r, tok = .sequence s r → tok' = .sequence s (r ++ q)) ∧
      ∀ l, tok = .last l → ∃ s r, tok' = .sequence s r ∧ s.literals = l := by
  cases bs with
  | nil => cases h
  | cons b bs =>
    rw [List.cons_append, readToken] at h'
    rw [readToken] at h
    split at h
    · cases h
    · rename_i k r hk
      rw [readLength_append q hk] at h'
      dsimp only at h'
      split at h
      · cases h
      · rename_i hlen
        rw [if_neg (by rw [List.length_append]; omega),
          List.drop_append_of_le_length (by omega), List.take_append_of_le_length (by omega)] at h'
        split at h
        · rename_i hd
          obtain rfl := Option.some.inj h
          rw [hd, List.nil_append] at h'
          refine ⟨nofun, fun l hl => ?_⟩
          obtain rfl := Token.last.inj hl
          split at h'
          · exact absurd rfl hq
          · cases h'
          · split at h'
            · cases h'
            · exact ⟨_, _, (Option.some.inj h').symm, rfl⟩
        · cases h
        · rename_i lo hi bs' hd
          rw [hd, List.cons_append, List.cons_append] at h'
          dsimp only at h'
          split at h
          · cases h
          · rename_i n rest hn
            rw [readLength_append q hn] at h'
            obtain rfl := Option.some.inj h
            refine ⟨fun s r hs => ?_, nofun⟩
            obtain ⟨rfl, rfl⟩ := Token.sequence.inj hs
            exact (Option.some.inj h').symm

/-- What decodes with more bytes behind it decodes to more. -/
theorem length_decodeFrom_append {q : List UInt8} (hq : q ≠ []) : ∀ {n : Nat} {w bs v v' : List UInt8},
    decodeFrom w n bs = some v → decodeFrom w n (bs ++ q) = some v' → v.length < v'.length
  | n + 1, w, bs, v, v', h, h' => by
    rw [decodeFrom] at h h'
    cases htok : readToken bs with
    | none => simp only [htok, reduceCtorEq] at h
    | some tok =>
      cases htok' : readToken (bs ++ q) with
      | none => simp only [htok', reduceCtorEq] at h'
      | some tok' =>
        have happ := readToken_append hq htok htok'
        cases tok with
        | last l =>
          -- The block ended here; now a match follows.
          obtain ⟨s, r, rfl, rfl⟩ := happ.2 l rfl
          simp only [htok, Option.some.injEq] at h
          simp only [htok'] at h'
          obtain ⟨u, hu, hv'⟩ := Option.bind_eq_some_iff.mp h'
          have hlen := Lz77.Sequence.length_apply hu
          have hmatch := (readToken_sequence htok').2.2
          have hle := length_decodeFrom hv'
          rw [← h, List.length_append]
          rw [Lz77.Sequence.size] at hlen
          omega
        | sequence s r =>
          obtain rfl := happ.1 s r rfl
          simp only [htok] at h
          simp only [htok'] at h'
          obtain ⟨u, hu, hv⟩ := Option.bind_eq_some_iff.mp h
          obtain ⟨u', hu', hv'⟩ := Option.bind_eq_some_iff.mp h'
          obtain rfl := Option.some.inj (hu.symm.trans hu')
          exact length_decodeFrom_append hq hv hv'

/-- Of two byte strings that decode after the same history, one in front of the other,
the shorter one decodes to less. -/
theorem length_decode_append {w bs q v v' : List UInt8} (hq : q ≠ []) (h : decode w bs = some v)
    (h' : decode w (bs ++ q) = some v') : v.length < v'.length := by
  obtain ⟨u, hu, rfl⟩ := Option.map_eq_some_iff.mp h
  obtain ⟨u', hu', rfl⟩ := Option.map_eq_some_iff.mp h'
  have hlen : bs.length < (bs ++ q).length + 1 := by
    rw [List.length_append]
    omega
  rw [decodeFrom_fuel w (Nat.lt_succ_self _) hlen] at hu
  have := length_decodeFrom_append hq hu hu'
  have := length_decodeFrom hu
  rw [List.length_drop, List.length_drop]
  omega

/-! ## How much bytes decode to -/

/-- A byte extends a length by at most `255`. -/
theorem readExtension_le : ∀ {bs r : List UInt8} {n : Nat}, readExtension bs = some (n, r) →
    n + 255 * r.length + 1 ≤ 255 * bs.length
  | b :: bs, r, n, h => by
    have hb := b.toNat_lt
    rw [readExtension] at h
    rw [List.length_cons]
    split at h
    · obtain ⟨⟨m, r'⟩, hm, he⟩ := Option.map_eq_some_iff.mp h
      obtain ⟨rfl, rfl⟩ := Prod.mk.inj he
      have := readExtension_le hm
      omega
    · obtain ⟨rfl, rfl⟩ := Prod.mk.inj (Option.some.inj h)
      omega

theorem readLength_le {nibble n : Nat} {bs r : List UInt8} (h : readLength nibble bs = some (n, r)) :
    n + 255 * r.length ≤ nibble + 255 * bs.length := by
  unfold readLength at h
  split at h
  · obtain ⟨⟨m, r'⟩, hm, he⟩ := Option.map_eq_some_iff.mp h
    obtain ⟨rfl, rfl⟩ := Prod.mk.inj he
    have := readExtension_le hm
    omega
  · obtain ⟨rfl, rfl⟩ := Prod.mk.inj (Option.some.inj h)
    exact Nat.le_refl _

/-- How much room a token and what belongs to it leave for the bytes behind. -/
theorem readToken_le {bs : List UInt8} {tok : Token} (h : readToken bs = some tok) :
    match tok with
    | .last l => l.length + 255 ≤ 255 * bs.length
    | .sequence s rest => s.size + 255 * rest.length ≤ 255 * bs.length := by
  cases bs with
  | nil => cases h
  | cons token bs =>
    simp only [readToken] at h
    split at h
    · cases h
    · rename_i litLen bs₁ hlit
      have hbs := length_readLength hlit
      split at h
      · cases h
      · have hlen : (bs₁.take litLen).length = litLen := by
          rw [List.length_take]
          omega
        split at h
        · obtain rfl := Option.some.inj h
          dsimp only
          rw [hlen, List.length_cons]
          omega
        · cases h
        · rename_i lo hi bs₂ hdrop
          split at h
          · cases h
          · rename_i n rest hn
            obtain rfl := Option.some.inj h
            have hmatch := readLength_le hn
            have hdrop := congrArg List.length hdrop
            have hnibble := Nat.mod_lt token.toNat (show 0 < 16 by decide)
            show (bs₁.take litLen).length + (4 + n) + 255 * rest.length ≤ 255 * (bs.length + 1)
            rw [List.length_drop, List.length_cons, List.length_cons] at hdrop
            omega

theorem decodeFrom_le : ∀ {n : Nat} {w bs v : List UInt8}, decodeFrom w n bs = some v →
    v.length + 255 ≤ w.length + 255 * bs.length
  | n + 1, w, bs, v, h => by
    rw [decodeFrom] at h
    split at h
    · cases h
    · rename_i l htok
      obtain rfl := Option.some.inj h
      have hl : l.length + 255 ≤ 255 * bs.length := readToken_le htok
      rw [List.length_append]
      omega
    · rename_i s rest htok
      obtain ⟨u, hu, hv⟩ := Option.bind_eq_some_iff.mp h
      have hs : s.size + 255 * rest.length ≤ 255 * bs.length := readToken_le htok
      have hu := Lz77.Sequence.length_apply hu
      have := decodeFrom_le hv
      omega

/-- Every byte but the first stands for at most `255`. -/
theorem length_decode_le {w bs b : List UInt8} (h : decode w bs = some b) :
    b.length + 255 ≤ 255 * bs.length := by
  obtain ⟨v, hv, rfl⟩ := Option.map_eq_some_iff.mp h
  have := decodeFrom_le hv
  have := length_decodeFrom hv
  rw [List.length_drop]
  omega

/-! ## Writing -/

/-- The bytes that extend a length by `n`. -/
def extension (n : Nat) : List UInt8 := List.replicate (n / 255) 255 ++ [UInt8.ofNat (n % 255)]

/-- The bytes of a length past its four bits in the token. -/
def lengthBytes (n : Nat) : List UInt8 := if n < 15 then [] else extension (n - 15)

def token (litLen extraLen : Nat) : UInt8 := UInt8.ofNat (16 * min litLen 15 + min extraLen 15)

def sequenceBytes (s : Sequence) : List UInt8 :=
  token s.literals.length (s.matchLen - 4) :: lengthBytes s.literals.length ++ s.literals ++
    leBytes 2 s.offset ++ lengthBytes (s.matchLen - 4)

def lastBytes (literals : List UInt8) : List UInt8 :=
  token literals.length 0 :: lengthBytes literals.length ++ literals

def Block.bytes (b : Block) : List UInt8 := b.sequences.flatMap sequenceBytes ++ lastBytes b.last

/-- A sequence that has a byte string: a match of at least `4`, and an offset
of two bytes. -/
def Encodable (s : Sequence) : Prop := 4 ≤ s.matchLen ∧ s.offset < 65536

theorem readExtension_replicate : ∀ (k n : Nat) (r : List UInt8), n < 255 →
    readExtension (List.replicate k 255 ++ [UInt8.ofNat n] ++ r) = some (255 * k + n, r)
  | 0, n, r, hn => by
    have : (UInt8.ofNat n).toNat = n := by rw [UInt8.toNat_ofNat']; omega
    simp only [List.replicate_zero, List.nil_append, List.singleton_append, readExtension, this]
    rw [if_neg (by omega), Nat.mul_zero, Nat.zero_add]
  | k + 1, n, r, hn => by
    have : (255 : UInt8).toNat = 255 := rfl
    rw [List.replicate_succ, List.cons_append, List.cons_append, readExtension, if_pos this,
      readExtension_replicate k n r hn, Option.map_some]
    simp only [Option.some.injEq, Prod.mk.injEq, and_true]
    omega

theorem readLength_lengthBytes (n : Nat) (r : List UInt8) :
    readLength (min n 15) (lengthBytes n ++ r) = some (n, r) := by
  unfold readLength lengthBytes
  by_cases hn : n < 15
  · rw [if_neg (by omega), if_pos hn, List.nil_append, Nat.min_eq_left (by omega)]
  · rw [if_pos (by omega), if_neg hn, extension,
      readExtension_replicate _ _ _ (Nat.mod_lt _ (by decide)), Option.map_some]
    simp only [Option.some.injEq, Prod.mk.injEq, and_true]
    omega

theorem toNat_token (a b : Nat) :
    (token a b).toNat / 16 = min a 15 ∧ (token a b).toNat % 16 = min b 15 := by
  have : (token a b).toNat = 16 * min a 15 + min b 15 := by
    rw [token, UInt8.toNat_ofNat']
    omega
  omega

theorem readToken_sequenceBytes {s : Sequence} (hs : Encodable s) (r : List UInt8) :
    readToken (sequenceBytes s ++ r) = some (.sequence s r) := by
  obtain ⟨h4, ho⟩ := hs
  obtain ⟨t₁, t₂⟩ := toNat_token s.literals.length (s.matchLen - 4)
  have hoff : (UInt8.ofNat s.offset).toNat + 256 * (UInt8.ofNat (s.offset / 256)).toNat =
      s.offset := by
    rw [UInt8.toNat_ofNat', UInt8.toNat_ofNat']
    omega
  have hb : sequenceBytes s ++ r = token s.literals.length (s.matchLen - 4) ::
      (lengthBytes s.literals.length ++ (s.literals ++ UInt8.ofNat s.offset ::
        UInt8.ofNat (s.offset / 256) :: (lengthBytes (s.matchLen - 4) ++ r))) := by
    simp only [sequenceBytes, leBytes, List.cons_append, List.append_assoc, List.nil_append]
  rw [hb, readToken, t₁, readLength_lengthBytes]
  dsimp only
  rw [if_neg (by rw [List.length_append]; omega), List.drop_left, List.take_left]
  dsimp only
  rw [t₂, readLength_lengthBytes]
  dsimp only
  rw [hoff, Nat.add_sub_cancel' h4]

theorem readToken_lastBytes (l : List UInt8) : readToken (lastBytes l) = some (.last l) := by
  obtain ⟨t₁, -⟩ := toNat_token l.length 0
  rw [lastBytes, List.cons_append, readToken, t₁, readLength_lengthBytes]
  dsimp only
  rw [if_neg (by omega), List.drop_length, List.take_length]

theorem parseFrom_bytes : ∀ (ss : List Sequence) (l : List UInt8) (n : Nat),
    (∀ s ∈ ss, Encodable s) → ss.length < n →
    parseFrom n (ss.flatMap sequenceBytes ++ lastBytes l) = some ⟨ss, l⟩
  | [], l, n + 1, _, _ => by
    rw [List.flatMap_nil, List.nil_append, parseFrom, readToken_lastBytes]
  | s :: ss, l, n + 1, hs, hn => by
    rw [List.flatMap_cons, List.append_assoc, parseFrom,
      readToken_sequenceBytes (hs s List.mem_cons_self)]
    dsimp only
    rw [parseFrom_bytes ss l n (fun s' h' => hs s' (List.mem_cons_of_mem _ h'))
      (Nat.lt_of_succ_lt_succ hn), Option.map_some]

theorem length_sequences_le (ss : List Sequence) :
    ss.length ≤ (ss.flatMap sequenceBytes).length := by
  induction ss with
  | nil => exact Nat.le_refl _
  | cons s ss ih =>
    rw [List.flatMap_cons, List.length_append, List.length_cons]
    have : 1 ≤ (sequenceBytes s).length := by
      simp only [sequenceBytes, List.cons_append, List.length_cons]
      omega
    omega

/-- Parsing the bytes of a block gives the block. -/
theorem parse_bytes {b : Block} (h : ∀ s ∈ b.sequences, Encodable s) :
    parse b.bytes = some b := by
  have hl := length_sequences_le b.sequences
  rw [parse, Block.bytes]
  exact parseFrom_bytes _ _ _ h (by rw [List.length_append]; omega)

/-! ## End-of-block rules -/

/-- The rules of the format for sequences from position `p` on, in a block of
`n` bytes that comes after `h` bytes of history: matches of at least 4 bytes,
offsets of two bytes that do not reach before the history, and a match starts
at least 12 bytes, and ends at least 5 bytes, before the end of the block. -/
def ConformsFrom (h n : Nat) : Nat → List Sequence → Prop
  | _, [] => True
  | p, s :: ss =>
    (4 ≤ s.matchLen ∧ (1 ≤ s.offset ∧ s.offset ≤ 65535) ∧
      s.offset ≤ h + p + s.literals.length ∧ p + s.literals.length + 12 ≤ n ∧ p + s.size + 5 ≤ n) ∧
    ConformsFrom h n (p + s.size) ss

/-- A block of fewer than 13 bytes has no match. -/
def Conforms (h n : Nat) (b : Block) : Prop :=
  ConformsFrom h n 0 b.sequences ∧ (n < 13 → b.sequences = [])

theorem conformsFrom_snoc {h n : Nat} {s : Sequence} : ∀ {p : Nat} {ss : List Sequence},
    ConformsFrom h n p ss → ConformsFrom h n (p + Lz77.sizes ss) [s] →
    ConformsFrom h n p (ss ++ [s])
  | _, [], _, hs => hs
  | p, s' :: ss, ⟨h', hss⟩, hs => by
    refine ⟨h', conformsFrom_snoc hss ?_⟩
    rwa [Nat.add_assoc, ← Lz77.sizes_cons]

theorem ConformsFrom.mono {h h' n : Nat} (hh : h ≤ h') : ∀ {p : Nat} {ss : List Sequence},
    ConformsFrom h n p ss → ConformsFrom h' n p ss
  | _, [], _ => trivial
  | p, s :: ss, ⟨⟨h₁, h₂, h₃, h₄⟩, hss⟩ => ⟨⟨h₁, h₂, by omega, h₄⟩, hss.mono hh⟩

theorem ConformsFrom.encodable {h n : Nat} : ∀ {p : Nat} {ss : List Sequence},
    ConformsFrom h n p ss → ∀ s ∈ ss, Encodable s
  | _, [], _, s, hs => absurd hs List.not_mem_nil
  | p, s' :: ss, ⟨h', hss⟩, s, hs => by
    rcases List.mem_cons.mp hs with rfl | hm
    · exact ⟨h'.1, Nat.lt_succ_of_le h'.2.1.2⟩
    · exact hss.encodable s hm

/-- `bytes` are a block of `input` after `hist`: it decodes to the input there,
and obeys the end-of-block rules. -/
def IsBlockOf (hist input bytes : List UInt8) : Prop :=
  ∃ b : Block, parse bytes = some b ∧ b.expand hist = some (hist ++ input) ∧
    Conforms hist.length input.length b

namespace IsBlockOf

variable {hist input bytes : List UInt8}

theorem decode (h : IsBlockOf hist input bytes) : Spec.decode hist bytes = some input := by
  obtain ⟨b, hp, he, -⟩ := h
  rw [decode_eq_parse, hp, Option.bind_some, he, Option.map_some, List.drop_left]

theorem ne_nil (h : IsBlockOf hist input bytes) : bytes ≠ [] := by
  obtain ⟨b, hp, -⟩ := h
  rintro rfl
  cases hp

/-- A longer history is as good. -/
theorem of_suffix {hist' : List UInt8} (h : IsBlockOf hist input bytes) (hs : hist <:+ hist') :
    IsBlockOf hist' input bytes := by
  obtain ⟨b, hp, he, hc⟩ := h
  obtain ⟨a, rfl⟩ := hs
  refine ⟨b, hp, ?_, hc.1.mono (by rw [List.length_append]; omega), hc.2⟩
  rw [Block.expand_prepend a he, List.append_assoc]

end IsBlockOf

end Lz4rip.Spec
