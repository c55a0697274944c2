import FrameworkAudit.Proofs.Delimited
import FrameworkAudit.Proofs.Signature.Compositional
import FrameworkAudit.Proofs.Signature.Written

/-!
A signature ends where its own bytes say so. Whatever bytes a signature was read from, in their
shortest form or not, the same signature is read from any others that begin with those it took, and
none is read from a part of them. A declared count takes at least a byte for each item that it
counts.
-/

set_option autoImplicit false

namespace FrameworkAudit

namespace Read

section

variable {type : Read TypeSig}

theorem delimited_arrayShape : Delimited 3 arrayShape := by
  refine delimited_compressedNat.bind (n := 2) fun rank => .check ?_
  refine delimited_compressedNat.bind (n := 1) fun sizeCount => .check ?_
  refine ((delimited_compressedNat.times sizeCount).bind (n := 1) fun sizes => ?_).mono (by omega)
  refine delimited_compressedNat.bind (n := 0) fun lowerCount => .check ?_
  exact ((delimited_compressedInt.times lowerCount).bind fun lowers => delimited_pure _).mono
    (Nat.zero_le _)

variable (h : Delimited 1 type)

include h

theorem delimited_varargs (count : Nat) : Delimited count (varargs type count) := by
  induction count with
  | zero => exact delimited_pure []
  | succ count ih =>
    refine delimited_peek fun next => .check ?_
    exact (h.bind fun first => ih.bind fun rest => delimited_pure _).mono (by omega)

theorem delimited_params (count : Nat) : Delimited count (params type count) := by
  induction count with
  | zero => exact delimited_pure ([], [])
  | succ count ih =>
    refine delimited_peek fun next => .ite ?_ ?_
    · -- the sentinel takes a byte more than the count demands
      have added (first : TypeSig) := (delimited_varargs h count).bind fun rest =>
        delimited_pure (([], first :: rest) : List TypeSig × List TypeSig)
      exact ((delimited_skip 1).bind fun _ => h.bind added).mono (by omega)
    · have fixed (first : TypeSig) := ih.bind fun parts =>
        delimited_pure ((first :: parts.1, parts.2) : List TypeSig × List TypeSig)
      exact (h.bind fixed).mono (by omega)

theorem delimited_methodOf : Delimited 3 (methodOf type) := by
  refine delimited_word.bind (n := 2) fun convention => ?_
  have rest (typeParams : Nat) := delimited_compressedNat.bind (n := 1) fun count =>
    (h.bind (n := 0) fun result => ((delimited_params h count).bind fun parts => delimited_pure
      (⟨.ofByte convention typeParams, result, parts.1, parts.2⟩ : MethodSig)).mono (Nat.zero_le _))
  refine .ite ?_ ?_
  · exact (delimited_compressedNat.bind rest).mono (by omega)
  · exact ((delimited_pure 0).bind rest).mono (by omega)

theorem delimited_genericOf : Delimited 2 (genericOf type) := by
  refine delimited_peek fun next => .check ?_
  refine h.bind (n := 1) fun base => delimited_compressedNat.bind (n := 0) fun count => ?_
  exact ((h.times count).bind fun arguments => delimited_pure _).mono (Nat.zero_le _)

theorem delimited_elementOf (element : Element) : Delimited 1 (elementOf type element) := by
  cases element with
  | pointer | byRef | vector | pinned => exact h.bind fun target => delimited_pure _
  | valueType | classType => exact delimited_compressedToken.bind fun token => delimited_pure _
  | typeParam | methodParam => exact delimited_compressedNat.bind fun index => delimited_pure _
  | array =>
    exact (h.bind fun target => delimited_arrayShape.bind fun shape => delimited_pure _).mono
      (by omega)
  | generic => exact (delimited_genericOf h).mono (by omega)
  | function => exact ((delimited_methodOf h).bind fun m => delimited_pure _).mono (by omega)
  | requiredModifier | optionalModifier =>
    exact (delimited_compressedToken.bind fun modifier => h.bind fun base => delimited_pure _).mono
      (by omega)

theorem delimited_typeFrom (code : Nat) : Delimited 0 (typeFrom type code) := by
  unfold typeFrom
  cases PlainType.ofCode? code with
  | some plain => exact delimited_pure _
  | none =>
    cases Element.ofCode? code with
    | some element => exact (delimited_elementOf h element).mono (Nat.zero_le _)
    | none => exact delimited_fail _

end

theorem delimited_type (room : Nat) : Delimited 1 (type room) := by
  induction room with
  | zero => exact delimited_throw _
  | succ room ih => exact delimited_word.bind (delimited_typeFrom ih)

theorem delimited_method (room : Nat) : Delimited 3 (method room) :=
  delimited_methodOf (delimited_type room)

theorem delimited_field (room : Nat) : Delimited 2 (field room) := by
  refine delimited_word.bind (n := 1) fun mark => .check ?_
  exact delimited_type room

theorem delimited_member (room : Nat) : Delimited 2 (member room) := by
  refine delimited_peek fun next => .ite ?_ ?_
  · exact (delimited_field room).bind fun sig => delimited_pure _
  · exact ((delimited_method room).bind fun sig => delimited_pure _).mono (by omega)

theorem delimited_form (form : SignatureForm) (room : Nat) : Delimited 1 (form.read room) := by
  cases form with
  | type => exact (delimited_type room).bind fun sig => delimited_pure _
  | field => exact ((delimited_field room).bind fun sig => delimited_pure _).mono (by omega)
  | method => exact ((delimited_method room).bind fun sig => delimited_pure _).mono (by omega)
  | member => exact ((delimited_member room).bind fun sig => delimited_pure _).mono (by omega)

end Read

namespace SignatureReader

variable {form : SignatureForm} {data : ByteArray} {s : Signature} {bytes : List UInt8}

theorem exists_settled (h : ((ofBytes data).next form.read).1 = .ok s) :
    ∃ bytes, (Cursor.ofBytes data).Next bytes ∧
      Read.Settled (form.read (maxTypeDepth - 1)) bytes s := by
  unfold next at h
  split at h
  · rename_i found stop taken
    obtain rfl := Except.ok.inj h
    obtain ⟨bytes, -, next, settled⟩ := Read.delimited_form form _ _ _ _ taken
    exact ⟨bytes, next, settled⟩
  · cases h

theorem next_of_settled (settled : Read.Settled (form.read (maxTypeDepth - 1)) bytes s)
    (next : (Cursor.ofBytes data).Next bytes) :
    (ofBytes data).next form.read = (.ok s, ⟨⟨data, bytes.length⟩, 0⟩) := by
  have taken : form.read (ofBytes data).room (ofBytes data).cursor = _ := settled.whole _ next
  rw [SignatureReader.next, taken]
  simp [Cursor.advance, ofBytes, Cursor.ofBytes]

/-- The bytes that a signature was read from decide it: the same signature is read from all data
that begin with them, and data that are only a part of them end too early. -/
theorem next_settled (form : SignatureForm) (data : ByteArray) (s : Signature)
    (read : ((ofBytes data).next form.read).1 = .ok s) :
    ∃ n, ((ofBytes data).next form.read).2.cursor.pos = n ∧ n ≤ data.size ∧
      (∀ other : ByteArray, other.extract 0 n = data.extract 0 n →
        ((ofBytes other).next form.read).1 = .ok s) ∧
      ∀ m < n, ((ofBytes (data.extract 0 m)).next form.read).1 = .error .outOfBounds := by
  obtain ⟨bytes, next, settled⟩ := exists_settled read
  refine ⟨bytes.length, ?_, next.length_le_remaining, fun other same => ?_, fun m few => ?_⟩
  · rw [next_of_settled settled next]
  · have begins : (Cursor.ofBytes other).Next bytes := by
      intro i hi
      have here := congrArg (·[i]?) same
      simp only [Bytes.getElem?_extract, Nat.zero_add, if_pos hi] at here
      rw [← next i hi]
      simpa only [Cursor.ofBytes, Nat.zero_add] using here
    rw [next_of_settled settled begins]
  · obtain ⟨d, failed⟩ := settled.short _ (Cursor.endsWithin_ofBytes next few)
    have stopped : form.read (ofBytes (data.extract 0 m)).room (ofBytes (data.extract 0 m)).cursor =
      .error .outOfBounds d := failed
    rw [SignatureReader.next, stopped]

def longCall : ByteArray :=
  ⟨#[0x05, 0x80, 2, 1, 0x1E, 0xC0, 0, 0, 1, 0x41, 0x15, 0x12, 8, 0x80, 0, 0xFF]⟩

theorem next_settled_longCall : ∃ s, ((ofBytes longCall).next SignatureForm.method.read).1 = .ok s ∧
    (∀ other : ByteArray, other.extract 0 15 = longCall.extract 0 15 →
      ((ofBytes other).next SignatureForm.method.read).1 = .ok s) ∧
    ∀ m < 15, ((ofBytes (longCall.extract 0 m)).next SignatureForm.method.read).1 =
      .error .outOfBounds := by
  have read : ((ofBytes longCall).next SignatureForm.method.read).1 =
      .ok (.method ⟨⟨false, false, true, 0⟩, .plain .void, [.methodParam 1],
        [.generic (.classType ⟨0x02000002⟩) []]⟩) := rfl
  obtain ⟨n, stop, -, whole, short⟩ := next_settled .method longCall _ read
  obtain rfl : 15 = n := stop
  exact ⟨_, read, whole, short⟩

end SignatureReader

end FrameworkAudit
