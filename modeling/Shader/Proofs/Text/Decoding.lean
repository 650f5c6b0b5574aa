import Shader.Token.Scan

/-!
# Texts in UTF-8

A text that is written in UTF-8 is read as its characters, all of them well formed. So scanning
depends on the characters of a text alone, and nothing in it is ill-formed. In any other text the
bytes that are found to be ill-formed are those with which no character starts.
-/

namespace Shader

namespace Text

/-! ## Bytes -/

theorem toList_loop (bytes : ByteArray) (i : Nat) (r : List UInt8) :
    ByteArray.toList.loop bytes i r = r.reverse ++ bytes.data.toList.drop i := by
  fun_induction ByteArray.toList.loop bytes i r with
  | case1 i r hlt ih =>
    have hlt' : i < bytes.data.toList.length := hlt
    rw [ih, List.drop_eq_getElem_cons hlt']
    simp [ByteArray.get!, hlt]
  | case2 i r hge =>
    rw [List.drop_eq_nil_of_le (Nat.le_of_not_lt hge), List.append_nil]

/-- The bytes of a text are those of its characters in a row. -/
theorem toList_toUTF8 (text : String) :
    text.toUTF8.toList = text.toList.flatMap String.utf8EncodeChar := by
  have hbytes : text.toUTF8 = (text.toList.flatMap String.utf8EncodeChar).toByteArray :=
    String.utf8Encode_toList.symm
  rw [hbytes, ByteArray.toList, toList_loop, List.toList_data_toByteArray]
  rfl

/-! ## Characters -/

/-- A continuation byte and what it carries. -/
theorem tail_ofNat (n : Nat) :
    isTail (UInt8.ofNat (n % 64 + 128)) = true ∧ low6 (UInt8.ofNat (n % 64 + 128)) = n % 64 := by
  have hn : (UInt8.ofNat (n % 64 + 128)).toNat = n % 64 + 128 := by
    rw [UInt8.toNat_ofNat']
    omega
  refine ⟨?_, ?_⟩
  · rw [isTail, Bool.and_eq_true_iff, decide_eq_true_iff, decide_eq_true_iff,
      UInt8.le_iff_toNat_le, UInt8.le_iff_toNat_le, hn]
    constructor
    · exact Nat.le_add_left 128 _
    · change n % 64 + 128 ≤ 191
      omega
  · rw [low6, hn]
    omega

section

variable {a b c d : UInt8} {more : List UInt8}

/-- The bytes of characters of two bytes. -/
theorem isPair_iff : isPair a b = true ↔ (194 ≤ a.toNat ∧ a.toNat ≤ 223) ∧ isTail b = true := by
  simp only [isPair, Bool.and_eq_true, decide_eq_true_eq, UInt8.le_iff_toNat_le]
  rfl

/-- The bytes of characters of three bytes, without those for surrogates and for what fits into two.
-/
theorem isTriple_iff : isTriple a b c = true ↔ isTail c = true ∧
    (a.toNat = 224 ∧ 160 ≤ b.toNat ∧ b.toNat ≤ 191 ∨
      (225 ≤ a.toNat ∧ a.toNat ≤ 236) ∧ isTail b = true ∨
      a.toNat = 237 ∧ 128 ≤ b.toNat ∧ b.toNat ≤ 159 ∨
      (238 ≤ a.toNat ∧ a.toNat ≤ 239) ∧ isTail b = true) := by
  simp only [isTriple, Bool.and_eq_true, Bool.or_eq_true, decide_eq_true_eq, beq_iff_eq,
    UInt8.le_iff_toNat_le, ← UInt8.toNat_inj, or_assoc, and_assoc]
  rfl

/-- The bytes of characters of four bytes, without those behind the last character and for what fits
into three. -/
theorem isQuad_iff : isQuad a b c d = true ↔ (isTail c = true ∧ isTail d = true) ∧
    (a.toNat = 240 ∧ 144 ≤ b.toNat ∧ b.toNat ≤ 191 ∨
      (241 ≤ a.toNat ∧ a.toNat ≤ 243) ∧ isTail b = true ∨
      a.toNat = 244 ∧ 128 ≤ b.toNat ∧ b.toNat ≤ 143) := by
  simp only [isQuad, Bool.and_eq_true, Bool.or_eq_true, decide_eq_true_eq, beq_iff_eq,
    UInt8.le_iff_toNat_le, ← UInt8.toNat_inj, or_assoc, and_assoc]
  rfl

theorem toNat_ofNat_byte {n : Nat} (h : n < 256) : (UInt8.ofNat n).toNat = n := by
  rw [UInt8.toNat_ofNat']
  exact Nat.mod_eq_of_lt h

theorem not_single (h : 128 ≤ a.toNat) : ¬ a < 0x80 := by
  rw [UInt8.lt_iff_toNat_lt]
  exact Nat.not_lt.2 h

/-- A number below 128 is decoded from one byte. -/
theorem lead_single {v : Nat} (h : v < 128) :
    Lead.of (UInt8.ofNat v) more = ⟨Char.ofNat v, true, 0⟩ := by
  have hv : (UInt8.ofNat v).toNat = v := toNat_ofNat_byte (by omega)
  have hsmall : UInt8.ofNat v < 0x80 := by
    rw [UInt8.lt_iff_toNat_lt, hv]
    exact h
  unfold Lead.of
  rw [if_pos hsmall, hv]

/-- A number below 2048 is decoded from two bytes. -/
theorem lead_pair {v : Nat} (hlow : 128 ≤ v) (hhigh : v < 2048) :
    Lead.of (UInt8.ofNat (v / 64 % 32 + 192)) (UInt8.ofNat (v % 64 + 128) :: more) =
      ⟨Char.ofNat v, true, 1⟩ := by
  have ha : (UInt8.ofNat (v / 64 % 32 + 192)).toNat = v / 64 % 32 + 192 :=
    toNat_ofNat_byte (by omega)
  obtain ⟨htail, hlow6⟩ := tail_ofNat v
  have hpair : isPair (UInt8.ofNat (v / 64 % 32 + 192)) (UInt8.ofNat (v % 64 + 128)) = true :=
    isPair_iff.2 ⟨by omega, htail⟩
  have hvalue : (v / 64 % 32 + 192) % 32 * 64 + v % 64 = v := by omega
  unfold Lead.of
  rw [if_neg (not_single (by omega))]
  dsimp only
  rw [if_pos hpair, ha, hlow6, hvalue]

/-- A number below 65536 that is no surrogate is decoded from three bytes. -/
theorem lead_triple {v : Nat} (hlow : 2048 ≤ v) (hhigh : v < 65536)
    (hvalid : v < 55296 ∨ 57343 < v) :
    Lead.of (UInt8.ofNat (v / 4096 % 16 + 224))
      (UInt8.ofNat (v / 64 % 64 + 128) :: UInt8.ofNat (v % 64 + 128) :: more) =
      ⟨Char.ofNat v, true, 2⟩ := by
  have ha : (UInt8.ofNat (v / 4096 % 16 + 224)).toNat = v / 4096 % 16 + 224 :=
    toNat_ofNat_byte (by omega)
  have hb : (UInt8.ofNat (v / 64 % 64 + 128)).toNat = v / 64 % 64 + 128 :=
    toNat_ofNat_byte (by omega)
  obtain ⟨htail, hlow6⟩ := tail_ofNat v
  obtain ⟨htail', hlow6'⟩ := tail_ofNat (v / 64)
  have hpair :
      ¬ isPair (UInt8.ofNat (v / 4096 % 16 + 224)) (UInt8.ofNat (v / 64 % 64 + 128)) = true := by
    rw [isPair_iff, ha]
    omega
  have htriple : isTriple (UInt8.ofNat (v / 4096 % 16 + 224)) (UInt8.ofNat (v / 64 % 64 + 128))
      (UInt8.ofNat (v % 64 + 128)) = true := by
    rw [isTriple_iff, ha, hb]
    refine ⟨htail, ?_⟩
    simp only [htail', and_true]
    omega
  have hvalue : ((v / 4096 % 16 + 224) % 16 * 64 + v / 64 % 64) * 64 + v % 64 = v := by omega
  unfold Lead.of
  rw [if_neg (not_single (by omega))]
  dsimp only
  rw [if_neg hpair, if_pos htriple, ha, hlow6, hlow6', hvalue]

/-- Any other character is decoded from four bytes. -/
theorem lead_quad {v : Nat} (hlow : 65536 ≤ v) (hhigh : v < 1114112) :
    Lead.of (UInt8.ofNat (v / 262144 % 8 + 240))
      (UInt8.ofNat (v / 4096 % 64 + 128) :: UInt8.ofNat (v / 64 % 64 + 128) ::
        UInt8.ofNat (v % 64 + 128) :: more) = ⟨Char.ofNat v, true, 3⟩ := by
  have ha : (UInt8.ofNat (v / 262144 % 8 + 240)).toNat = v / 262144 % 8 + 240 :=
    toNat_ofNat_byte (by omega)
  have hb : (UInt8.ofNat (v / 4096 % 64 + 128)).toNat = v / 4096 % 64 + 128 :=
    toNat_ofNat_byte (by omega)
  obtain ⟨htail, hlow6⟩ := tail_ofNat v
  obtain ⟨htail', hlow6'⟩ := tail_ofNat (v / 64)
  obtain ⟨htail'', hlow6''⟩ := tail_ofNat (v / 4096)
  have hpair : ¬ isPair (UInt8.ofNat (v / 262144 % 8 + 240)) (UInt8.ofNat (v / 4096 % 64 + 128)) =
      true := by
    rw [isPair_iff, ha]
    omega
  have htriple : ¬ isTriple (UInt8.ofNat (v / 262144 % 8 + 240)) (UInt8.ofNat (v / 4096 % 64 + 128))
      (UInt8.ofNat (v / 64 % 64 + 128)) = true := by
    rw [isTriple_iff, ha]
    omega
  have hquad : isQuad (UInt8.ofNat (v / 262144 % 8 + 240)) (UInt8.ofNat (v / 4096 % 64 + 128))
      (UInt8.ofNat (v / 64 % 64 + 128)) (UInt8.ofNat (v % 64 + 128)) = true := by
    rw [isQuad_iff, ha, hb]
    refine ⟨⟨htail', htail⟩, ?_⟩
    simp only [htail'', and_true]
    omega
  have hvalue : (((v / 262144 % 8 + 240) % 8 * 64 + v / 4096 % 64) * 64 + v / 64 % 64) * 64 +
      v % 64 = v := by omega
  unfold Lead.of
  rw [if_neg (not_single (by omega))]
  dsimp only
  rw [if_neg hpair, if_neg htriple, if_pos hquad, ha, hlow6, hlow6', hlow6'', hvalue]

end

/-- The bytes behind the first one of a character are passed over. -/
theorem decodeFrom_length_append (tail more : List UInt8) :
    decodeFrom tail.length (tail ++ more) = decodeFrom 0 more := by
  induction tail with
  | nil => rfl
  | cons b tail ih => rw [List.length_cons, List.cons_append, decodeFrom, ih]

/-- A character is read back from its bytes. -/
theorem decode_encode (c : Char) (more : List UInt8) :
    decodeFrom 0 (String.utf8EncodeChar c ++ more) = (c, true) :: decodeFrom 0 more := by
  have hc : Char.ofNat c.val.toNat = c := Char.ofNat_toNat c
  have hvalid : c.val.toNat < 55296 ∨ 57343 < c.val.toNat ∧ c.val.toNat < 1114112 := c.valid
  have hdecode : ∀ (a : UInt8) (tail : List UInt8),
      Lead.of a (tail ++ more) = ⟨Char.ofNat c.val.toNat, true, tail.length⟩ →
      decodeFrom 0 (a :: tail ++ more) = (c, true) :: decodeFrom 0 more := by
    intro a tail hlead
    rw [List.cons_append, decodeFrom, hlead, hc, decodeFrom_length_append]
  change decodeFrom 0 ((if c.val.toNat ≤ 127 then _ else if c.val.toNat ≤ 2047 then _ else
    if c.val.toNat ≤ 65535 then _ else _) ++ more) = _
  split
  · exact hdecode _ [] (lead_single (by omega))
  split
  · exact hdecode _ [_] (lead_pair (by omega) (by omega))
  split
  · exact hdecode _ [_, _] (lead_triple (by omega) (by omega) (by omega))
  · exact hdecode _ [_, _, _] (lead_quad (by omega) (by omega))

/-- What has been encoded is decoded, and well formed. -/
theorem decode_flatMap (cs : List Char) :
    decode (cs.flatMap String.utf8EncodeChar) = cs.map fun c => (c, true) := by
  induction cs with
  | nil => rfl
  | cons c cs ih =>
    rw [List.flatMap_cons, List.map_cons, ← ih]
    exact decode_encode c _

/-- A text is read back from its bytes. -/
theorem decode_toUTF8 (text : String) :
    decode text.toUTF8.toList = text.toList.map fun c => (c, true) := by
  rw [toList_toUTF8, decode_flatMap]

/-! ## What is decoded

The other way around, every text is decoded as characters and ill-formed bytes. -/

theorem isTail_iff {b : UInt8} : isTail b = true ↔ 128 ≤ b.toNat ∧ b.toNat ≤ 191 := by
  simp only [isTail, Bool.and_eq_true, decide_eq_true_eq, UInt8.le_iff_toNat_le]
  rfl

theorem eq_ofNat_byte {b : UInt8} {n : Nat} (h : n = b.toNat) : UInt8.ofNat n = b := by
  rw [h, UInt8.ofNat_toNat]

section

variable {a b c d : UInt8}

/-- The bytes of a character, by its number. -/
theorem encode_ofNat {v : Nat} (h : v < 55296 ∨ 57343 < v ∧ v < 1114112) :
    String.utf8EncodeChar (Char.ofNat v) =
      if v ≤ 127 then [UInt8.ofNat v]
      else if v ≤ 2047 then [UInt8.ofNat (v / 64 % 32 + 192), UInt8.ofNat (v % 64 + 128)]
      else if v ≤ 65535 then [UInt8.ofNat (v / 4096 % 16 + 224), UInt8.ofNat (v / 64 % 64 + 128),
        UInt8.ofNat (v % 64 + 128)]
      else [UInt8.ofNat (v / 262144 % 8 + 240), UInt8.ofNat (v / 4096 % 64 + 128),
        UInt8.ofNat (v / 64 % 64 + 128), UInt8.ofNat (v % 64 + 128)] := by
  have hv : (Char.ofNat v).val.toNat = v := by
    have hvalid : v.isValidChar := h
    rw [Char.ofNat, dif_pos hvalid]
    rfl
  rw [String.utf8EncodeChar, hv]

/-- A byte below 128 is the encoding of its character, and so on for two, three and four bytes
below. -/
theorem encode_single (h : a.toNat < 128) : String.utf8EncodeChar (Char.ofNat a.toNat) = [a] := by
  rw [encode_ofNat (by omega), if_pos (by omega), UInt8.ofNat_toNat]

theorem encode_pair (h : isPair a b = true) :
    String.utf8EncodeChar (Char.ofNat (a.toNat % 32 * 64 + low6 b)) = [a, b] := by
  obtain ⟨ha, hb⟩ := isPair_iff.1 h
  rw [isTail_iff] at hb
  rw [low6, encode_ofNat (by omega), if_neg (by omega), if_pos (by omega),
    eq_ofNat_byte (b := a) (by omega), eq_ofNat_byte (b := b) (by omega)]

theorem encode_triple (h : isTriple a b c = true) :
    String.utf8EncodeChar (Char.ofNat ((a.toNat % 16 * 64 + low6 b) * 64 + low6 c)) =
      [a, b, c] := by
  obtain ⟨hc, hab⟩ := isTriple_iff.1 h
  rw [isTail_iff] at hc
  simp only [isTail_iff] at hab
  simp only [low6]
  rw [encode_ofNat (by omega), if_neg (by omega), if_neg (by omega), if_pos (by omega),
    eq_ofNat_byte (b := a) (by omega), eq_ofNat_byte (b := b) (by omega),
    eq_ofNat_byte (b := c) (by omega)]

theorem encode_quad (h : isQuad a b c d = true) :
    String.utf8EncodeChar
      (Char.ofNat (((a.toNat % 8 * 64 + low6 b) * 64 + low6 c) * 64 + low6 d)) = [a, b, c, d] := by
  obtain ⟨⟨hc, hd⟩, hab⟩ := isQuad_iff.1 h
  rw [isTail_iff] at hc hd
  simp only [isTail_iff] at hab
  simp only [low6]
  rw [encode_ofNat (by omega), if_neg (by omega), if_neg (by omega), if_neg (by omega),
    eq_ofNat_byte (b := a) (by omega), eq_ofNat_byte (b := b) (by omega),
    eq_ofNat_byte (b := c) (by omega), eq_ofNat_byte (b := d) (by omega)]

end

/-- A text starts with an ill-formed byte, or with the bytes of a character. -/
theorem lead_cases (a : UInt8) (more : List UInt8) : Lead.of a more = .illFormed ∨
    ∃ c tail rest, more = tail ++ rest ∧ String.utf8EncodeChar c = a :: tail ∧
      Lead.of a more = ⟨c, true, tail.length⟩ := by
  unfold Lead.of
  split
  next h => exact .inr ⟨_, [], more, rfl, encode_single (UInt8.lt_iff_toNat_lt.1 h), rfl⟩
  next =>
    split
    · exact .inl rfl
    next b more =>
      split
      next h => exact .inr ⟨_, [b], more, rfl, encode_pair h, rfl⟩
      next =>
        split
        · exact .inl rfl
        next c more =>
          split
          next h => exact .inr ⟨_, [b, c], more, rfl, encode_triple h, rfl⟩
          next =>
            split
            · exact .inl rfl
            next d more =>
              split
              next h => exact .inr ⟨_, [b, c, d], more, rfl, encode_quad h, rfl⟩
              next => exact .inl rfl

/-- A text is a sequence of characters, and of bytes with which the encoding of no character
starts. Such a byte stands for a replacement character. -/
inductive Decodes : List UInt8 → List (Char × Bool) → Prop
  | nil : Decodes [] []
  | char (c : Char) {bytes : List UInt8} {cs : List (Char × Bool)} (h : Decodes bytes cs) :
    Decodes (String.utf8EncodeChar c ++ bytes) ((c, true) :: cs)
  | illFormed (b : UInt8) {bytes : List UInt8} {cs : List (Char × Bool)}
    (hb : ∀ c, ¬ String.utf8EncodeChar c <+: b :: bytes) (h : Decodes bytes cs) :
    Decodes (b :: bytes) ((replacement, false) :: cs)

/-- Decoding finds the characters of a text, and its ill-formed bytes. -/
theorem decodes_decode (bytes : List UInt8) : Decodes bytes (decode bytes) := by
  induction hn : bytes.length using Nat.strongRecOn generalizing bytes with
  | _ n ih =>
    rcases bytes with _ | ⟨a, more⟩
    · exact .nil
    · rcases lead_cases a more with hlead | ⟨c, tail, rest, rfl, henc, -⟩
      · have hdecode : decode (a :: more) = (replacement, false) :: decode more := by
          rw [decode, decodeFrom, hlead]
          rfl
        rw [hdecode]
        refine .illFormed a ?_ (ih more.length (hn ▸ Nat.lt_succ_self _) more rfl)
        rintro c ⟨rest, hrest⟩
        rw [← hrest, decode, decode_encode] at hdecode
        cases hdecode
      · have hbytes : a :: (tail ++ rest) = String.utf8EncodeChar c ++ rest := by
          rw [henc, List.cons_append]
        have hlen : rest.length < n := by
          rw [← hn, List.length_cons, List.length_append]
          omega
        rw [hbytes, decode, decode_encode]
        exact .char c (ih rest.length hlen rest rfl)

/-- There is only one way to decode a text. -/
theorem Decodes.eq_decode {bytes : List UInt8} {cs : List (Char × Bool)} (h : Decodes bytes cs) :
    cs = decode bytes := by
  induction h with
  | nil => rfl
  | char c _ ih => rw [decode, decode_encode, ih, decode]
  | @illFormed b bytes cs hb _ ih =>
    rcases lead_cases b bytes with hlead | ⟨c, tail, rest, rfl, henc, -⟩
    · rw [decode, decodeFrom, hlead, ih]
      rfl
    · refine absurd ⟨rest, ?_⟩ (hb c)
      rw [henc, List.cons_append]

/-! ## Arranged characters -/

/-- Arranging characters does not change them. -/
theorem map_char_arrange (line col : UInt32) (index : Nat) (cs : List (Char × Bool)) :
    (arrange line col index cs).1.map Glyph.char = cs.map Prod.fst := by
  induction cs generalizing line col index with
  | nil => rfl
  | cons c cs ih => rw [arrange_cons, List.map_cons, List.map_cons, ih]

/-- Nor does it change whether they are well formed. -/
theorem wellFormed_arrange (line col : UInt32) (index : Nat) {cs : List (Char × Bool)}
    (h : ∀ c ∈ cs, c.2 = true) : ∀ g ∈ (arrange line col index cs).1, g.wellFormed = true := by
  induction cs generalizing line col index with
  | nil => exact nofun
  | cons c cs ih =>
    rw [List.forall_mem_cons] at h
    rw [arrange_cons]
    exact List.forall_mem_cons.2 ⟨h.1, ih _ _ _ h.2⟩

end Text

theorem Scan.illFormed_eq_nil {file : String} {s : List Text.Glyph}
    (h : ∀ g ∈ s, g.wellFormed = true) : illFormed file s = [] := by
  induction s with
  | nil => rfl
  | cons g s ih =>
    rw [List.forall_mem_cons] at h
    rw [illFormed, if_pos h.1, ih h.2]

/-- A text as a source. -/
def Source.ofText (file text : String) : Source := { file, bytes := text.toUTF8.toList }

/-- Scanning a text looks at its characters only. -/
theorem Source.exists_scan_toUTF8 (file text : String) : ∃ last s,
    s.map Text.Glyph.char = text.toList ∧
      ({ file, bytes := text.toUTF8.toList } : Source).scan =
        { items := (Scan.lexemes file last s).1
          reports := (Scan.lexemes file last s).2.map fun n => ⟨n.pos, n.error.message⟩ } := by
  rcases harrange : Text.arrange 1 1 1 (text.toList.map fun c => (c, true)) with
    ⟨s, line, col, index⟩
  have hchars := Text.map_char_arrange 1 1 1 (text.toList.map fun c => (c, true))
  have hwell : ∀ c ∈ text.toList.map (fun c => (c, true)), c.2 = true :=
    List.forall_mem_map.2 fun _ _ => rfl
  have hformed := Text.wellFormed_arrange 1 1 1 hwell
  rw [harrange] at hchars hformed
  refine ⟨⟨file, line, col, index⟩, s, ?_, ?_⟩
  · rw [hchars, List.map_map]
    exact List.map_id _
  · simp only [Source.scan, Text.decode_toUTF8, harrange, Scan.illFormed_eq_nil hformed,
      List.nil_merge]

end Shader
