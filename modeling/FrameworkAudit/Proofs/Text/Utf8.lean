import FrameworkAudit.Proofs.Utf8

set_option autoImplicit false

namespace FrameworkAudit.Text.Utf8

variable {b : UInt8} {rest bytes : List UInt8} {c : Char} {size bits owed low high n : Nat}

theorem fromUTF8?_toUTF8 (text : String) : String.fromUTF8? text.toUTF8 = some text := by
  unfold String.fromUTF8?
  simp only [String.toUTF8_eq_toByteArray, dif_pos text.isValidUTF8]
  rfl

theorem decode_eq_ok_iff {raw : ByteArray} {text : String} :
    decode raw = .ok text ↔ raw = text.toUTF8 := by
  unfold decode
  constructor
  · intro h
    split at h
    · rename_i found read
      obtain rfl := Except.ok.inj h
      unfold String.fromUTF8? at read
      split at read
      · obtain rfl := Option.some.inj read
        rfl
      · cases read
    · cases h
  · rintro rfl
    rw [fromUTF8?_toUTF8]

namespace Lead

theorem ofByte?_one (h : b.toNat ≤ 0x7F) : ofByte? b = some ⟨b.toNat, 0, 0x80, 0xBF⟩ := by
  unfold ofByte?
  simp [h]

theorem ofByte?_two (h : 0xC2 ≤ b.toNat ∧ b.toNat ≤ 0xDF) :
    ofByte? b = some ⟨b.toNat - 0xC0, 1, 0x80, 0xBF⟩ := by
  unfold ofByte?
  dsimp only
  rw [if_neg (by omega), if_neg (by omega), if_pos (by omega)]

/-- Of the sequences of three bytes, the first bytes leave out the numbers that two bytes hold and
those that are no characters. -/
theorem ofByte?_three (h : 0xE0 ≤ b.toNat ∧ b.toNat ≤ 0xEF) :
    ofByte? b = some ⟨b.toNat - 0xE0, 2, if b.toNat = 0xE0 then 0xA0 else 0x80,
      if b.toNat = 0xED then 0x9F else 0xBF⟩ := by
  unfold ofByte?
  dsimp only
  rw [if_neg (by omega), if_neg (by omega), if_neg (by omega)]
  by_cases first : b.toNat = 0xE0
  · rw [if_pos first, if_pos first, if_neg (by omega), first]
  · rw [if_neg first, if_neg first]
    by_cases surrogate : b.toNat = 0xED
    · rw [if_pos surrogate, if_pos surrogate]
    · rw [if_neg surrogate, if_neg surrogate, if_pos (by omega)]

theorem ofByte?_four (h : 0xF0 ≤ b.toNat ∧ b.toNat ≤ 0xF4) :
    ofByte? b = some ⟨b.toNat - 0xF0, 3, if b.toNat = 0xF0 then 0x90 else 0x80,
      if b.toNat = 0xF4 then 0x8F else 0xBF⟩ := by
  unfold ofByte?
  dsimp only
  rw [if_neg (by omega), if_neg (by omega), if_neg (by omega), if_neg (by omega),
    if_neg (by omega), if_neg (by omega)]
  by_cases first : b.toNat = 0xF0
  · rw [if_pos first, if_pos first, if_neg (by omega), first]
  · rw [if_neg first, if_neg first]
    by_cases last : b.toNat = 0xF4
    · rw [if_neg (by omega), if_pos last, if_pos last]
    · rw [if_pos (by omega), if_neg last]

end Lead

namespace Head

theorem finish_cons (h : low ≤ b.toNat ∧ b.toNat ≤ high) :
    finish size bits (owed + 1) low high (b :: rest) =
      finish (size + 1) (bits * 64 + b.toNat % 64) owed 0x80 0xBF rest := by
  rw [finish, if_pos h]

theorem finish_zero (h : bits = c.toNat) : finish size bits 0 low high rest = .scalar c size := by
  rw [finish, h, Char.ofNat_toNat]

theorem toNat_valid (c : Char) : c.toNat < 0xD800 ∨ 0xDFFF < c.toNat ∧ c.toNat < 0x110000 :=
  c.valid

theorem toNat_ofNat_of_lt {n : Nat} (h : n < 256) : (UInt8.ofNat n).toNat = n := by
  rw [UInt8.toNat_ofNat']
  omega

theorem finish_follower :
    finish size bits (owed + 1) 0x80 0xBF (UInt8.ofNat (n % 64 + 128) :: rest) =
      finish (size + 1) (bits * 64 + n % 64) owed 0x80 0xBF rest := by
  have value : (UInt8.ofNat (n % 64 + 128)).toNat = n % 64 + 128 := toNat_ofNat_of_lt (by omega)
  have six : (n % 64 + 128) % 64 = n % 64 := by omega
  rw [finish_cons (by omega), value, six]

/-- A character is read from its bytes, whatever follows. -/
theorem ofBytes_utf8EncodeChar (c : Char) (rest : List UInt8) :
    ∃ b tail, String.utf8EncodeChar c = b :: tail ∧
      ofBytes b (tail ++ rest) = .scalar c (tail.length + 1) := by
  have valid := toNat_valid c
  have value : c.val.toNat = c.toNat := rfl
  unfold String.utf8EncodeChar
  dsimp only
  rw [value]
  split
  · rename_i one
    have lead : (UInt8.ofNat c.toNat).toNat = c.toNat := toNat_ofNat_of_lt (by omega)
    refine ⟨_, _, rfl, ?_⟩
    rw [ofBytes, Lead.ofByte?_one (by omega)]
    exact finish_zero lead
  split
  · rename_i many two
    have lead : (UInt8.ofNat (c.toNat / 64 % 32 + 192)).toNat = c.toNat / 64 + 192 := by
      rw [toNat_ofNat_of_lt (by omega)]
      omega
    refine ⟨_, _, rfl, ?_⟩
    rw [ofBytes, Lead.ofByte?_two (by omega)]
    dsimp only [List.cons_append, List.nil_append]
    rw [finish_follower]
    exact finish_zero (by omega)
  -- from here on the range of the first follower depends on the leading byte
  split
  · rename_i many more three
    have lead : (UInt8.ofNat (c.toNat / 4096 % 16 + 224)).toNat = c.toNat / 4096 + 224 := by
      rw [toNat_ofNat_of_lt (by omega)]
      omega
    have second : (UInt8.ofNat (c.toNat / 64 % 64 + 128)).toNat = c.toNat / 64 % 64 + 128 :=
      toNat_ofNat_of_lt (by omega)
    refine ⟨_, _, rfl, ?_⟩
    rw [ofBytes, Lead.ofByte?_three (by omega)]
    dsimp only [List.cons_append, List.nil_append]
    rw [finish_cons ⟨by split <;> omega, by split <;> omega⟩, finish_follower]
    exact finish_zero (by omega)
  · rename_i many more most
    have lead : (UInt8.ofNat (c.toNat / 262144 % 8 + 240)).toNat = c.toNat / 262144 + 240 := by
      rw [toNat_ofNat_of_lt (by omega)]
      omega
    have second : (UInt8.ofNat (c.toNat / 4096 % 64 + 128)).toNat = c.toNat / 4096 % 64 + 128 :=
      toNat_ofNat_of_lt (by omega)
    refine ⟨_, _, rfl, ?_⟩
    rw [ofBytes, Lead.ofByte?_four (by omega)]
    dsimp only [List.cons_append, List.nil_append]
    rw [finish_cons ⟨by split <;> omega, by split <;> omega⟩, finish_follower, finish_follower]
    exact finish_zero (by omega)

end Head

theorem lossyFrom_append (bytes rest : List UInt8) :
    lossyFrom bytes.length (bytes ++ rest) = lossyFrom 0 rest := by
  induction bytes with
  | nil => rfl
  | cons b bytes ih => rw [List.length_cons, List.cons_append, lossyFrom, ih]

theorem lossyFrom_flatMap (cs : List Char) :
    lossyFrom 0 (cs.flatMap String.utf8EncodeChar) = cs := by
  induction cs with
  | nil => rfl
  | cons c cs ih =>
    obtain ⟨b, tail, written, head⟩ :=
      Head.ofBytes_utf8EncodeChar c (cs.flatMap String.utf8EncodeChar)
    rw [List.flatMap_cons, written, List.cons_append, lossyFrom, head]
    dsimp only
    rw [Nat.add_sub_cancel, lossyFrom_append, ih]

/-- Text is read back from its bytes. -/
theorem lossy_toUTF8 (s : String) : lossy s.toUTF8 = s := by
  rw [lossy, Bytes.toList_toUTF8, lossyFrom_flatMap, String.ofList_toList]

theorem utf8EncodeChar_ascii (h : c.toNat < 0x80) :
    String.utf8EncodeChar c = [UInt8.ofNat c.toNat] := by
  have value : c.val.toNat = c.toNat := rfl
  unfold String.utf8EncodeChar
  dsimp only
  rw [value, if_pos (by omega)]

theorem flatMap_utf8EncodeChar_of_toNat {cs : List Char} (ascii : ∀ c ∈ cs, c.toNat < 0x80)
    (h : bytes.map UInt8.toNat = cs.map Char.toNat) :
    bytes = cs.flatMap String.utf8EncodeChar := by
  induction cs generalizing bytes with
  | nil => simpa using h
  | cons c cs ih =>
    cases bytes with
    | nil => cases h
    | cons b bytes =>
      obtain ⟨here, behind⟩ := List.cons.inj h
      rw [List.forall_mem_cons] at ascii
      have itself : UInt8.ofNat c.toNat = b := by
        rw [← here, UInt8.ofNat_toNat]
      rw [List.flatMap_cons, utf8EncodeChar_ascii ascii.1, itself, ← ih ascii.2 behind]
      rfl

theorem toList_of_lossy {data : ByteArray} {text : String} (h : lossy data = text)
    (ascii : ∀ c ∈ text.toList, 0 < c.toNat ∧ c.toNat < 0x80) :
    data.toList = text.toUTF8.toList := by
  subst h
  rw [Bytes.toList_toUTF8]
  simp only [lossy, String.toList_ofList] at ascii ⊢
  exact flatMap_utf8EncodeChar_of_toNat (fun c hc => (ascii c hc).2) (toNat_of_lossyFrom ascii)

theorem ne_zero_of_mem_utf8EncodeChar (filled : c ≠ '\x00')
    (h : b ∈ String.utf8EncodeChar c) : b ≠ 0 := by
  have value : c.val.toNat = c.toNat := rfl
  have pos : c.toNat ≠ 0 := fun zero => filled (Char.toNat_inj.1 zero)
  have byte {n : Nat} (h : n % 256 ≠ 0) : UInt8.ofNat n ≠ 0 := by
    rw [ne_eq, ← UInt8.toNat_inj, UInt8.toNat_ofNat']
    exact h
  unfold String.utf8EncodeChar at h
  dsimp only at h
  rw [value] at h
  repeat' split at h
  all_goals
    simp only [List.mem_cons, List.not_mem_nil, or_false] at h
    rcases h with rfl | rfl | rfl | rfl <;> exact byte (by omega)

theorem ne_zero_of_mem_toUTF8 {text : String} (filled : '\x00' ∉ text.toList) :
    ∀ b ∈ text.toUTF8.toList, b ≠ 0 := by
  intro b hb
  rw [Bytes.toList_toUTF8, List.mem_flatMap] at hb
  obtain ⟨c, hc, hb⟩ := hb
  exact ne_zero_of_mem_utf8EncodeChar (fun e => filled (e ▸ hc)) hb

end FrameworkAudit.Text.Utf8
