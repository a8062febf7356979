import WitCaller.Text.Utf8

/-!
The bytes of a text decode to the text, and bytes that decode to a text are its bytes.
-/

namespace WitCaller.Utf8
variable {a b c d : UInt8} {n p : Nat} {r : Bytes} {s : List Char}

theorem toNat_ofNat (hn : n < 256) : (UInt8.ofNat n).toNat = n := by
  simp [Nat.mod_eq_of_lt hn]

theorem continues_iff : continues b = true ↔ 128 ≤ b.toNat ∧ b.toNat < 192 := by
  rw [continues, Bool.and_eq_true, decide_eq_true_eq, decide_eq_true_eq, UInt8.le_iff_toNat_le,
    UInt8.lt_iff_toNat_lt]
  rfl

theorem follows_iff : follows a b = true ↔ (128 ≤ b.toNat ∧ b.toNat < 192) ∧
    ¬ (a.toNat = 224 ∧ b.toNat < 160) ∧ ¬ (a.toNat = 237 ∧ 160 ≤ b.toNat) ∧
    ¬ (a.toNat = 240 ∧ b.toNat < 144) ∧ ¬ (a.toNat = 244 ∧ 144 ≤ b.toNat) := by
  have heq (a b : UInt8) : (a == b) = decide (a.toNat = b.toNat) := by
    rw [Bool.eq_iff_iff, beq_iff_eq, decide_eq_true_eq, UInt8.toNat_inj]
  simp only [follows, Bool.and_eq_true, continues_iff, Bool.not_eq_true', Bool.and_eq_false_iff, heq,
    decide_eq_false_iff_not, UInt8.le_iff_toNat_le, UInt8.lt_iff_toNat_lt]
  change (((((128 ≤ b.toNat ∧ b.toNat < 192) ∧ (¬ a.toNat = 224 ∨ ¬ b.toNat < 160)) ∧
    (¬ a.toNat = 237 ∨ ¬ 160 ≤ b.toNat)) ∧ (¬ a.toNat = 240 ∨ ¬ b.toNat < 144)) ∧
    (¬ a.toNat = 244 ∨ ¬ 144 ≤ b.toNat)) ↔ _
  omega

theorem decodeFrom_one (ha : a.toNat < 128) : decodeFrom p (a :: r) =
    (decodeFrom (p + 1) r).map (Char.ofNat a.toNat :: ·) := by
  rw [decodeFrom.eq_def]
  simp only
  rw [if_pos (UInt8.lt_iff_toNat_lt.2 ha)]

theorem decodeFrom_two (ha : 194 ≤ a.toNat) (ha' : a.toNat < 224) (hb : continues b) :
    decodeFrom p (a :: b :: r) =
      (decodeFrom (p + 2) r).map (Char.ofNat (a.toNat % 32 * 64 + low b) :: ·) := by
  rw [decodeFrom.eq_def]
  simp only [UInt8.lt_iff_toNat_lt]
  change (if a.toNat < 128 then _ else if a.toNat < 194 then _ else if a.toNat < 224 then _ else _) = _
  rw [if_neg (by omega), if_neg (by omega), if_pos ha', if_pos hb]

theorem decodeFrom_three (ha : 224 ≤ a.toNat) (ha' : a.toNat < 240) (hb : follows a b)
    (hc : continues c) : decodeFrom p (a :: b :: c :: r) = (decodeFrom (p + 3) r).map
      (Char.ofNat (a.toNat % 16 * 4096 + low b * 64 + low c) :: ·) := by
  rw [decodeFrom.eq_def]
  simp only [UInt8.lt_iff_toNat_lt]
  change (if a.toNat < 128 then _ else if a.toNat < 194 then _ else if a.toNat < 224 then _ else
    if a.toNat < 240 then _ else _) = _
  rw [if_neg (by omega), if_neg (by omega), if_neg (by omega), if_pos ha', hb, hc]
  rfl

theorem decodeFrom_four (ha : 240 ≤ a.toNat) (ha' : a.toNat < 245) (hb : follows a b)
    (hc : continues c) (hd : continues d) : decodeFrom p (a :: b :: c :: d :: r) =
      (decodeFrom (p + 4) r).map
        (Char.ofNat (a.toNat % 8 * 262144 + low b * 4096 + low c * 64 + low d) :: ·) := by
  rw [decodeFrom.eq_def]
  simp only [UInt8.lt_iff_toNat_lt]
  change (if a.toNat < 128 then _ else if a.toNat < 194 then _ else if a.toNat < 224 then _ else
    if a.toNat < 240 then _ else if a.toNat < 245 then _ else _) = _
  rw [if_neg (by omega), if_neg (by omega), if_neg (by omega), if_neg (by omega), if_pos ha', hb, hc, hd]
  rfl

theorem utf8EncodeChar_eq (x : Char) : String.utf8EncodeChar x =
    if x.toNat ≤ 127 then [UInt8.ofNat x.toNat] else
    if x.toNat ≤ 2047 then [UInt8.ofNat (x.toNat / 64 % 32 + 192), UInt8.ofNat (x.toNat % 64 + 128)] else
    if x.toNat ≤ 65535 then [UInt8.ofNat (x.toNat / 4096 % 16 + 224),
      UInt8.ofNat (x.toNat / 64 % 64 + 128), UInt8.ofNat (x.toNat % 64 + 128)] else
    [UInt8.ofNat (x.toNat / 262144 % 8 + 240), UInt8.ofNat (x.toNat / 4096 % 64 + 128),
      UInt8.ofNat (x.toNat / 64 % 64 + 128), UInt8.ofNat (x.toNat % 64 + 128)] := rfl

/-- The bytes of a character are read as that character. -/
theorem decodeFrom_char (x : Char) : ∃ q, decodeFrom p (String.utf8EncodeChar x ++ r) =
    (decodeFrom q r).map (x :: ·) := by
  have hx : Char.ofNat x.toNat = x := Char.ofNat_toNat x
  have hvalid : x.toNat < 55296 ∨ 57343 < x.toNat ∧ x.toNat < 1114112 := x.valid
  have hcont (m : Nat) : continues (UInt8.ofNat (m % 64 + 128)) = true := by
    rw [continues_iff, toNat_ofNat (by omega)]
    omega
  have hlow (m : Nat) : low (UInt8.ofNat (m % 64 + 128)) = m % 64 := by
    rw [low, toNat_ofNat (by omega)]
    omega
  rw [utf8EncodeChar_eq]
  split
  · have hn := toNat_ofNat (n := x.toNat) (by omega)
    refine ⟨p + 1, (decodeFrom_one (by omega)).trans ?_⟩
    rw [hn, hx]
    rfl
  split
  · have hn := toNat_ofNat (n := x.toNat / 64 % 32 + 192) (by omega)
    refine ⟨p + 2, (decodeFrom_two (by omega) (by omega) (hcont _)).trans ?_⟩
    have he : (x.toNat / 64 % 32 + 192) % 32 * 64 + x.toNat % 64 = x.toNat := by omega
    rw [hn, hlow, he, hx]
    rfl
  split
  · have hn := toNat_ofNat (n := x.toNat / 4096 % 16 + 224) (by omega)
    have hm := toNat_ofNat (n := x.toNat / 64 % 64 + 128) (by omega)
    have hf : follows (UInt8.ofNat (x.toNat / 4096 % 16 + 224))
        (UInt8.ofNat (x.toNat / 64 % 64 + 128)) = true := by
      rw [follows_iff, hn, hm]
      omega
    refine ⟨p + 3, (decodeFrom_three (by omega) (by omega) hf (hcont _)).trans ?_⟩
    have he : (x.toNat / 4096 % 16 + 224) % 16 * 4096 + x.toNat / 64 % 64 * 64 + x.toNat % 64 =
        x.toNat := by omega
    rw [hn, hlow, hlow, he, hx]
    rfl
  · have hn := toNat_ofNat (n := x.toNat / 262144 % 8 + 240) (by omega)
    have hm := toNat_ofNat (n := x.toNat / 4096 % 64 + 128) (by omega)
    have hf : follows (UInt8.ofNat (x.toNat / 262144 % 8 + 240))
        (UInt8.ofNat (x.toNat / 4096 % 64 + 128)) = true := by
      rw [follows_iff, hn, hm]
      omega
    refine ⟨p + 4, (decodeFrom_four (by omega) (by omega) hf (hcont _) (hcont _)).trans ?_⟩
    have he : (x.toNat / 262144 % 8 + 240) % 8 * 262144 + x.toNat / 4096 % 64 * 4096 +
        x.toNat / 64 % 64 * 64 + x.toNat % 64 = x.toNat := by omega
    rw [hn, hlow, hlow, hlow, he, hx]
    rfl

theorem decodeFrom_encode : decodeFrom p (encode s) = .ok s := by
  induction s generalizing p with
  | nil => rfl
  | cons x s ih =>
    obtain ⟨q, hq⟩ := decodeFrom_char (p := p) (r := encode s) x
    show decodeFrom p (String.utf8EncodeChar x ++ encode s) = _
    rw [hq, ih]
    rfl

theorem decode_encode (s : List Char) : decode (encode s) = .ok s := decodeFrom_encode

theorem encode_inj {t : List Char} (h : encode s = encode t) : s = t :=
  Except.ok.inj ((decode_encode s).symm.trans (h ▸ decode_encode t))

theorem ofNat_eq (h : n = a.toNat) : UInt8.ofNat n = a := by
  rw [h, UInt8.ofNat_toNat]

theorem low_of_continues (h : continues b) : low b < 64 ∧ low b + 128 = b.toNat := by
  have hb := continues_iff.1 h
  rw [low]
  omega

theorem toNat_char (h : n.isValidChar) : (Char.ofNat n).toNat = n := by
  rw [Char.ofNat, dif_pos h]
  rfl

theorem utf8EncodeChar_one (ha : a.toNat < 128) : String.utf8EncodeChar (Char.ofNat a.toNat) = [a] := by
  rw [utf8EncodeChar_eq, toNat_char (.inl (by omega)), if_pos (by omega), UInt8.ofNat_toNat]

theorem utf8EncodeChar_two (ha : 194 ≤ a.toNat) (ha' : a.toNat < 224) (hb : continues b) :
    String.utf8EncodeChar (Char.ofNat (a.toNat % 32 * 64 + low b)) = [a, b] := by
  obtain ⟨hlow, hb⟩ := low_of_continues hb
  rw [utf8EncodeChar_eq, toNat_char (.inl (by omega)), if_neg (by omega), if_pos (by omega),
    ofNat_eq (a := a) (by omega), ofNat_eq (a := b) (by omega)]

theorem utf8EncodeChar_three (ha : 224 ≤ a.toNat) (ha' : a.toNat < 240) (hb : follows a b)
    (hc : continues c) :
    String.utf8EncodeChar (Char.ofNat (a.toNat % 16 * 4096 + low b * 64 + low c)) = [a, b, c] := by
  obtain ⟨hb, hlong, hsurrogate, -⟩ := follows_iff.1 hb
  obtain ⟨hlowb, hb⟩ := low_of_continues (continues_iff.2 hb)
  obtain ⟨hlowc, hc⟩ := low_of_continues hc
  have hvalid : (a.toNat % 16 * 4096 + low b * 64 + low c).isValidChar := by
    unfold Nat.isValidChar
    omega
  rw [utf8EncodeChar_eq, toNat_char hvalid, if_neg (by omega), if_neg (by omega), if_pos (by omega),
    ofNat_eq (a := a) (by omega), ofNat_eq (a := b) (by omega), ofNat_eq (a := c) (by omega)]

theorem utf8EncodeChar_four (ha : 240 ≤ a.toNat) (ha' : a.toNat < 245) (hb : follows a b)
    (hc : continues c) (hd : continues d) :
    String.utf8EncodeChar (Char.ofNat (a.toNat % 8 * 262144 + low b * 4096 + low c * 64 + low d)) =
      [a, b, c, d] := by
  obtain ⟨hb, -, -, hlong, hlast⟩ := follows_iff.1 hb
  obtain ⟨hlowb, hb⟩ := low_of_continues (continues_iff.2 hb)
  obtain ⟨hlowc, hc⟩ := low_of_continues hc
  obtain ⟨hlowd, hd⟩ := low_of_continues hd
  have hvalid : (a.toNat % 8 * 262144 + low b * 4096 + low c * 64 + low d).isValidChar := by
    unfold Nat.isValidChar
    omega
  rw [utf8EncodeChar_eq, toNat_char hvalid, if_neg (by omega), if_neg (by omega), if_neg (by omega),
    ofNat_eq (a := a) (by omega), ofNat_eq (a := b) (by omega), ofNat_eq (a := c) (by omega),
    ofNat_eq (a := d) (by omega)]

theorem encode_cons_of_map {x : Char} {bytes : Bytes} {e : Except Utf8Error (List Char)}
    (ih : ∀ s, e = .ok s → encode s = r) (hx : String.utf8EncodeChar x = bytes)
    (h : e.map (x :: ·) = .ok s) : encode s = bytes ++ r := by
  cases e with
  | error => cases h
  | ok s' =>
    cases h
    rw [← hx, ← ih s' rfl]
    rfl

/-- Bytes that are read as a text are those of the text. -/
theorem encode_of_decodeFrom {bytes : Bytes} (h : decodeFrom p bytes = .ok s) : encode s = bytes := by
  fun_induction decodeFrom p bytes generalizing s with
  | case1 =>
    cases h
    rfl
  | case2 p a r ha ih =>
    exact encode_cons_of_map (fun _ => ih) (utf8EncodeChar_one (UInt8.lt_iff_toNat_lt.1 ha)) h
  | case5 p a _ hlow hhigh b r hb ih =>
    have hbytes := utf8EncodeChar_two (UInt8.not_lt.1 hlow) (UInt8.lt_iff_toNat_lt.1 hhigh) hb
    exact encode_cons_of_map (fun _ => ih) hbytes h
  | case12 p a _ _ hlow hhigh b c r hb hc ih =>
    have hbytes := utf8EncodeChar_three (UInt8.not_lt.1 hlow) (UInt8.lt_iff_toNat_lt.1 hhigh)
      (by simpa using hb) (by simpa using hc)
    exact encode_cons_of_map (fun _ => ih) hbytes h
  | case22 p a _ _ _ hlow hhigh b c d r hb hc hd ih =>
    have hbytes := utf8EncodeChar_four (UInt8.not_lt.1 hlow) (UInt8.lt_iff_toNat_lt.1 hhigh)
      (by simpa using hb) (by simpa using hc) (by simpa using hd)
    exact encode_cons_of_map (fun _ => ih) hbytes h
  | _ => cases h

theorem encode_of_decode {bytes : Bytes} (h : decode bytes = .ok s) : encode s = bytes :=
  encode_of_decodeFrom h

end WitCaller.Utf8
