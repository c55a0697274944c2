import FrameworkAudit.Proofs.Bytes

set_option autoImplicit false

namespace FrameworkAudit.Text.Utf8

variable {b : UInt8} {rest bytes : List UInt8} {c : Char} {size bits owed low high n : Nat}

/-- What follows a leading byte is nothing, or enough to make a character that is not ASCII. -/
theorem Lead.of_ofByte? {lead : Lead} (h : ofByte? b = some lead) :
    (lead.owed = 0 ∧ lead.bits = b.toNat) ∨ lead.owed = 1 ∧ 2 ≤ lead.bits ∨
      2 ≤ lead.owed ∧ (1 ≤ lead.bits ∨ 0x82 ≤ lead.low ∧ lead.high ≤ 0xBF) := by
  unfold ofByte? at h
  dsimp only at h
  repeat' split at h
  all_goals simp only [reduceCtorEq, Option.some.injEq] at h
  all_goals
    subst h
    dsimp only
    omega

namespace Head

theorem of_finish_succ (h : finish size bits (owed + 1) low high rest = .scalar c n) :
    ∃ (b : UInt8) (tail : List UInt8), low ≤ b.toNat ∧ b.toNat ≤ high ∧
      finish (size + 1) (bits * 64 + b.toNat % 64) owed 0x80 0xBF tail = .scalar c n := by
  cases rest with
  | nil => cases h
  | cons b tail =>
    rw [finish] at h
    split at h
    · rename_i fits
      exact ⟨b, tail, fits.1, fits.2, h⟩
    · cases h

theorem le_of_finish (h : finish size bits owed low high rest = .scalar c n) :
    ∃ value, c = Char.ofNat value ∧ bits ≤ value := by
  induction owed generalizing size bits low high rest with
  | zero =>
    obtain ⟨rfl, -⟩ : Char.ofNat bits = c ∧ size = n := by simpa [finish] using h
    exact ⟨bits, rfl, Nat.le_refl _⟩
  | succ owed ih =>
    obtain ⟨b, tail, -, -, h⟩ := of_finish_succ h
    obtain ⟨value, hc, le⟩ := ih h
    exact ⟨value, hc, by omega⟩

theorem large_of_finish (h : finish size bits (owed + 1) low high rest = .scalar c n)
    (hb : 2 ≤ bits) : ∃ value, c = Char.ofNat value ∧ 0x80 ≤ value := by
  obtain ⟨b, tail, -, -, h⟩ := of_finish_succ h
  obtain ⟨value, hc, le⟩ := le_of_finish h
  exact ⟨value, hc, by omega⟩

theorem large_of_finish_long (h : finish size bits (owed + 2) low high rest = .scalar c n)
    (hb : 1 ≤ bits ∨ 0x82 ≤ low ∧ high ≤ 0xBF) : ∃ value, c = Char.ofNat value ∧ 0x80 ≤ value := by
  obtain ⟨b, tail, hlow, hhigh, h⟩ := of_finish_succ h
  exact large_of_finish h (by omega)

theorem toNat_ofNat_of_pos {value : Nat} (pos : 0 < (Char.ofNat value).toNat) :
    (Char.ofNat value).toNat = value := by
  by_cases valid : value.isValidChar
  · rw [Char.ofNat, dif_pos valid]
    rfl
  · rw [Char.ofNat, dif_neg valid] at pos
    exact absurd pos (Nat.lt_irrefl 0)

/-- A character of several bytes is no ASCII character, and one of a single byte is that byte. -/
theorem ascii_of_scalar (h : ofBytes b rest = .scalar c size) (pos : 0 < c.toNat)
    (ascii : c.toNat < 0x80) : size = 1 ∧ b.toNat = c.toNat := by
  have small : ¬ ∃ value, c = Char.ofNat value ∧ 0x80 ≤ value := by
    rintro ⟨value, rfl, le⟩
    rw [toNat_ofNat_of_pos pos] at ascii
    omega
  unfold ofBytes at h
  cases hl : Lead.ofByte? b with
  | none => simp [hl] at h
  | some lead =>
    simp only [hl] at h
    obtain ⟨bits, owed, low, high⟩ := lead
    rcases Lead.of_ofByte? hl with ⟨none, itself⟩ | ⟨one, large⟩ | ⟨more, large⟩
    · obtain rfl : owed = 0 := none
      obtain ⟨rfl, rfl⟩ := Head.scalar.inj h
      exact ⟨rfl, (toNat_ofNat_of_pos pos).trans itself |>.symm⟩
    · obtain rfl : owed = 0 + 1 := one
      exact absurd (large_of_finish h large) small
    · obtain ⟨k, rfl⟩ : ∃ k, owed = k + 2 := ⟨owed - 2, by dsimp only at more; omega⟩
      exact absurd (large_of_finish_long h large) small

end Head

theorem toNat_of_lossyFrom (ascii : ∀ c ∈ lossyFrom 0 bytes, 0 < c.toNat ∧ c.toNat < 0x80) :
    bytes.map UInt8.toNat = (lossyFrom 0 bytes).map Char.toNat := by
  induction bytes with
  | nil => rfl
  | cons b rest ih =>
    have replacement : ¬ ('\uFFFD').toNat < 0x80 := by decide
    unfold lossyFrom at ascii ⊢
    cases hh : Head.ofBytes b rest with
    | invalid size =>
      rw [hh] at ascii
      exact absurd (ascii _ List.mem_cons_self).2 replacement
    | incomplete size =>
      rw [hh] at ascii
      exact absurd (ascii _ List.mem_cons_self).2 replacement
    | scalar c size =>
      simp only [hh] at ascii ⊢
      obtain ⟨pos, small⟩ := ascii c List.mem_cons_self
      obtain ⟨rfl, itself⟩ := Head.ascii_of_scalar hh pos small
      have tail := ih fun d hd => ascii d (List.mem_cons_of_mem _ hd)
      rw [List.map_cons, List.map_cons, itself, tail]

theorem size_of_lossy {data : ByteArray} {text : String} (h : lossy data = text)
    (ascii : ∀ c ∈ text.toList, 0 < c.toNat ∧ c.toNat < 0x80) : data.size = text.length := by
  subst h
  simp only [lossy, String.toList_ofList] at ascii
  have length := congrArg List.length (toNat_of_lossyFrom ascii)
  rw [List.length_map, List.length_map] at length
  rw [← Bytes.length_toList, length, lossy, String.length_ofList]

end FrameworkAudit.Text.Utf8
