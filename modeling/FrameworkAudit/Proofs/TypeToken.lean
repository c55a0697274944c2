import FrameworkAudit.Proofs.Compressed

/-!
Compressed tokens. A value says a table of types in its two low bits and a row in the bits above
them, of which there may be 27, while a token has room for 24. A row that needs more is not refused:
its high bits run into the number of the table. So a token names what its value says exactly below
0x4000000, and there no two values give one token.
-/

set_option autoImplicit false

namespace FrameworkAudit

namespace Token

variable {t u : Token}

def NamesType (t : Token) : Prop :=
  t.table? = some .typeDef ∨ t.table? = some .typeRef ∨ t.table? = some .typeSpec

def tag (t : Token) : Nat :=
  match t.table? with
  | some .typeDef => 0
  | some .typeRef => 1
  | _ => 2

def bytes (t : Token) : List UInt8 := numberBytes (4 * t.row + t.tag)

def Says (t : Token) (value : Nat) : Prop :=
  ∃ table, Read.tokenTable? (value % 4) = some table ∧ t.table? = some table ∧ t.row = value / 4

theorem row_lt (t : Token) : t.row < 0x1000000 := Nat.mod_lt _ (by decide)

theorem value_eq (t : Token) : t.value.toNat = t.tableNumber * 0x1000000 + t.row := by
  unfold tableNumber row
  omega

theorem ext_parts (table : t.tableNumber = u.tableNumber) (row : t.row = u.row) : t = u := by
  have value : t.value.toNat = u.value.toNat := by rw [value_eq, value_eq, table, row]
  cases t
  cases u
  exact congrArg mk (UInt32.toNat_inj.1 value)

theorem table?_eq_some_iff {table : TableId} :
    t.table? = some table ↔ t.tableNumber = table.number := by
  constructor
  · intro h
    have numbered : ∀ n, (hn : n < TableId.all.length) → TableId.all[n].number = n := by decide
    obtain ⟨inside, rfl⟩ := List.getElem?_eq_some_iff.1 h
    exact (numbered _ inside).symm
  · intro h
    rw [table?, h, TableId.ofNumber?_number]

theorem tag_unique {m n : Nat} {table : TableId} (hm : Read.tokenTable? m = some table)
    (hn : Read.tokenTable? n = some table) : m = n := by
  unfold Read.tokenTable? at hm hn
  split at hm <;> split at hn <;> cases hm <;> cases hn <;> rfl

theorem Says.unique {v w : Nat} (hv : t.Says v) (hw : t.Says w) : v = w := by
  obtain ⟨table, tagOfV, tableOfV, rowOfV⟩ := hv
  obtain ⟨other, tagOfW, tableOfW, rowOfW⟩ := hw
  obtain rfl : table = other := Option.some.inj (tableOfV.symm.trans tableOfW)
  have low : v % 4 = w % 4 := tag_unique tagOfV tagOfW
  omega

end Token

namespace Read

variable {c d : Cursor} {t : Token} {v : Nat}

theorem compressedNat_lt (h : compressedNat c = .ok v d) : v < 0x20000000 := by
  have byte {c d : Cursor} {n : Nat} (h : word 1 c = .ok n d) : n < 0x100 := by
    obtain ⟨-, rfl, -⟩ := word_ok_iff.1 h
    exact Bytes.littleEndian_lt _ _ 1
  obtain ⟨first, middle, hfirst, h⟩ := bind_ok_iff.1 h
  have large := byte hfirst
  split at h
  · obtain ⟨rfl, -⟩ := pure_ok_iff.1 h
    omega
  · split at h
    · obtain ⟨second, _, hsecond, h⟩ := bind_ok_iff.1 h
      obtain ⟨rfl, -⟩ := pure_ok_iff.1 h
      have := byte hsecond
      omega
    · split at h
      · obtain ⟨tail, _, -, h⟩ := bind_ok_iff.1 h
        obtain ⟨rfl, -⟩ := pure_ok_iff.1 h
        have := (tail[0]?.getD 0).toNat_lt
        have := (tail[1]?.getD 0).toNat_lt
        have := (tail[2]?.getD 0).toNat_lt
        omega
      · cases h

theorem compressedToken_eq (h : compressedNat c = .ok v d) :
    compressedToken c =
      match tokenTable? (v % 4) with
      | some table => .ok ⟨UInt32.ofNat ((table.number * 0x1000000) ||| (v / 4))⟩ d
      | none => .error (.malformed (.compressedToken v)) d := by
  simp only [compressedToken, bind_apply, h]
  cases tokenTable? (v % 4) <;> rfl

theorem parts_of_or (table : TableId) {n : Nat} (h : n < 0x8000000) :
    (⟨UInt32.ofNat ((table.number * 0x1000000) ||| n)⟩ : Token).tableNumber =
        table.number ||| n / 0x1000000 ∧
      (⟨UInt32.ofNat ((table.number * 0x1000000) ||| n)⟩ : Token).row = n % 0x1000000 := by
  have small := table.number_lt
  have fits : (table.number * 0x1000000) ||| n < 2 ^ 32 :=
    Nat.or_lt_two_pow (by omega) (by omega)
  have high : ((table.number * 0x1000000) ||| n) / 0x1000000 =
      table.number * 0x1000000 / 0x1000000 ||| n / 0x1000000 := Nat.or_div_two_pow (n := 24)
  have low : ((table.number * 0x1000000) ||| n) % 0x1000000 =
      table.number * 0x1000000 % 0x1000000 ||| n % 0x1000000 := Nat.or_mod_two_pow (n := 24)
  rw [Nat.mul_div_cancel _ (by decide)] at high
  rw [Nat.mul_mod_left, Nat.zero_or] at low
  constructor
  · rw [Token.tableNumber, UInt32.toNat_ofNat', Nat.mod_eq_of_lt fits]
    exact high
  · rw [Token.row, UInt32.toNat_ofNat', Nat.mod_eq_of_lt fits]
    exact low

theorem compressedToken_of_bytes (h : t.NamesType) (next : c.Next t.bytes) :
    compressedToken c = .ok t (c.advance t.bytes.length) := by
  have row := t.row_lt
  have tagged : t.tag < 4 ∧ ∃ table, tokenTable? t.tag = some table ∧ t.table? = some table := by
    unfold Token.tag
    obtain h | h | h := h <;> rw [h] <;> exact ⟨by decide, _, rfl, rfl⟩
  obtain ⟨small, table, said, named⟩ := tagged
  have number := compressedNat_of_numberBytes (n := 4 * t.row + t.tag)
    (by simp only [NumberWidth.limit]; omega) next
  have low : (4 * t.row + t.tag) % 4 = t.tag := by omega
  have high : (4 * t.row + t.tag) / 4 = t.row := by omega
  rw [compressedToken_eq number, low, high, said]
  obtain ⟨tableNumber, tokenRow⟩ := parts_of_or table (n := t.row) (by omega)
  refine congrArg (EStateM.Result.ok · _) (Token.ext_parts ?_ ?_)
  · rw [tableNumber, Nat.div_eq_of_lt row, Nat.or_zero]
    exact (Token.table?_eq_some_iff.1 named).symm
  · rw [tokenRow, Nat.mod_eq_of_lt row]

theorem exists_compressedToken {table : TableId} (h : compressedNat c = .ok v d)
    (said : tokenTable? (v % 4) = some table) :
    ∃ t, compressedToken c = .ok t d ∧ t.tableNumber = table.number ||| v / 0x4000000 ∧
      t.row = v / 4 % 0x1000000 := by
  have inside := compressedNat_lt h
  obtain ⟨tableNumber, tokenRow⟩ := parts_of_or table (n := v / 4) (by omega)
  refine ⟨_, by rw [compressedToken_eq h, said], ?_, tokenRow⟩
  rw [tableNumber, Nat.div_div_eq_div_mul]

theorem says_iff {table : TableId} (said : tokenTable? (v % 4) = some table)
    (number : t.tableNumber = table.number ||| v / 0x4000000) (row : t.row = v / 4 % 0x1000000) :
    t.Says v ↔ v < 0x4000000 := by
  constructor
  · rintro ⟨-, -, -, exact⟩
    have := t.row_lt
    omega
  · intro small
    refine ⟨table, said, Token.table?_eq_some_iff.2 ?_, ?_⟩
    · rw [number, Nat.div_eq_of_lt small, Nat.or_zero]
    · rw [row]
      omega

/-- Where a compressed number stands, only the tag 3 is refused as a token. Else a token is read; it
names what the number says exactly if the number is below 0x4000000, where no other number gives the
same token. Above, the bits that a row has too many are set into the number of the table. -/
theorem compressedToken_says_iff (c d : Cursor) (v : Nat) (h : compressedNat c = .ok v d) :
    (tokenTable? (v % 4) = none ∧ compressedToken c = .error (.malformed (.compressedToken v)) d) ∨
      ∃ table t, tokenTable? (v % 4) = some table ∧ compressedToken c = .ok t d ∧
        (t.Says v ↔ v < 0x4000000) ∧
        (∀ c' d' w, compressedNat c' = .ok w d' → compressedToken c' = .ok t d' →
          v < 0x4000000 → w < 0x4000000 → v = w) ∧
        t.tableNumber = table.number ||| v / 0x4000000 ∧ t.row = v / 4 % 0x1000000 := by
  cases said : tokenTable? (v % 4) with
  | none => exact .inl ⟨rfl, by rw [compressedToken_eq h, said]⟩
  | some table =>
    obtain ⟨t, read, number, row⟩ := exists_compressedToken h said
    have whole := says_iff said number row
    refine .inr ⟨table, t, rfl, read, whole, fun c' d' w hw readW smallV smallW => ?_, number, row⟩
    cases saidW : tokenTable? (w % 4) with
    | none =>
      rw [compressedToken_eq hw, saidW] at readW
      cases readW
    | some other =>
      obtain ⟨u, readU, numberU, rowU⟩ := exists_compressedToken hw saidW
      obtain rfl : t = u := by
        rw [readW] at readU
        exact (EStateM.Result.ok.inj readU).1
      exact (whole.2 smallV).unique ((says_iff saidW numberU rowU).2 smallW)

theorem compressedToken_says_reference :
    compressedNat (.ofBytes ⟨#[0x05]⟩) = .ok 5 ⟨⟨#[0x05]⟩, 1⟩ ∧
      ∃ t, compressedToken (.ofBytes ⟨#[0x05]⟩) = .ok t ⟨⟨#[0x05]⟩, 1⟩ ∧ t.Says 5 ∧
        t.tableNumber = TableId.typeRef.number ∧ t.row = 1 := by
  have number : compressedNat (.ofBytes ⟨#[0x05]⟩) = .ok 5 ⟨⟨#[0x05]⟩, 1⟩ := rfl
  refine ⟨number, ?_⟩
  obtain ⟨none, -⟩ | ⟨table, t, said, read, whole, -, tableNumber, row⟩ :=
    compressedToken_says_iff _ _ 5 number
  · cases none
  · cases said
    exact ⟨t, read, whole.2 (by decide), tableNumber, row⟩

/-- The values 4 and 0x8000004 are read as the same token, though they say different rows. -/
theorem compressedToken_shared :
    run compressedNat ⟨#[0x04]⟩ = .ok 4 ∧ run compressedNat ⟨#[0xC8, 0, 0, 4]⟩ = .ok 0x8000004 ∧
      run compressedToken ⟨#[0x04]⟩ = .ok ⟨0x02000001⟩ ∧
      run compressedToken ⟨#[0xC8, 0, 0, 4]⟩ = .ok ⟨0x02000001⟩ ∧
      ¬ (⟨0x02000001⟩ : Token).Says 0x8000004 := by
  refine ⟨rfl, rfl, rfl, rfl, ?_⟩
  rintro ⟨-, -, -, row⟩
  exact absurd row (by decide)

end Read

end FrameworkAudit
