import FrameworkAudit.Proofs.Signature.Written

/-!
A signature that was written is read back, and the reader stops behind it, as long as its types nest
less than fifty levels deep; else its first type at the fiftieth level is refused. Every step of
the reader meets either outcome, so both are carried through the reader together.
-/

set_option autoImplicit false

namespace FrameworkAudit

variable {α β : Type}

/-- What a read makes of some bytes, wherever they stand: it passes over them with the value, or, if
the value takes more levels than there is room for, it is refused for its depth. -/
structure Read.Yields (room levels : Nat) (read : Read α) (bytes : List UInt8) (value : α) :
    Prop where
  within : levels ≤ room → ∀ c : Cursor, c.Next bytes → read c = .ok value (c.advance bytes.length)
  beyond : room < levels → ∀ c : Cursor, c.Next bytes →
    ∃ d, read c = .error (.recursionLimit maxTypeDepth) d

namespace Read

variable {room m n : Nat} {front back bytes : List UInt8} {a : α} {b : β}

theorem Yields.of_ok {read : Read α}
    (h : ∀ c : Cursor, c.Next bytes → read c = .ok a (c.advance bytes.length)) :
    Yields room 0 read bytes a :=
  ⟨fun _ => h, fun deep => absurd deep (Nat.not_lt_zero _)⟩

theorem yields_pure (a : α) : Yields room 0 (pure a) [] a := .of_ok fun _ _ => rfl

/-- Reads one after the other take as many levels as the deeper of them. -/
theorem Yields.bind {read : Read α} {k : α → Read β} (h : Yields room m read front a)
    (hk : Yields room n (k a) back b) : Yields room (max m n) (read >>= k) (front ++ back) b where
  within deep c next := by
    rw [bind_apply, h.within (by omega) c next.left]
    simp only [hk.within (by omega) _ next.right, Cursor.advance_advance, List.length_append]
  beyond deep c next := by
    rw [bind_apply]
    by_cases first : room < m
    · obtain ⟨d, hd⟩ := h.beyond first c next.left
      exact ⟨d, by rw [hd]⟩
    · rw [h.within (by omega) c next.left]
      exact hk.beyond (by omega) _ next.right

theorem Yields.then {read : Read α} {k : α → Read β} (h : Yields room 0 read front a)
    (hk : Yields room n (k a) back b) : Yields room n (read >>= k) (front ++ back) b := by
  have both := h.bind hk
  rwa [Nat.zero_max] at both

theorem Yields.before {read : Read α} {k : α → Read β} (h : Yields room m read front a)
    (hk : Yields room 0 (k a) back b) : Yields room m (read >>= k) (front ++ back) b := by
  have both := h.bind hk
  rwa [Nat.max_zero] at both

theorem Yields.last {read : Read α} {k : α → Read β} (h : Yields room m read bytes a)
    (hk : k a = pure b) : Yields room m (read >>= k) bytes b := by
  have both := h.before (hk ▸ yields_pure b)
  rwa [List.append_nil] at both

theorem Yields.of_peek {x : UInt8} {k : UInt8 → Read β} (first : bytes = x :: back)
    (h : Yields room n (k x) bytes b) : Yields room n (peek >>= k) bytes b where
  within deep c next := by
    rw [bind_apply, peek_of_next (first ▸ next)]
    exact h.within deep c next
  beyond deep c next := by
    rw [bind_apply, peek_of_next (first ▸ next)]
    exact h.beyond deep c next

theorem Yields.of_check {p : Prop} [Decidable p] {defect : Defect} {k : Unit → Read α}
    (h : ¬ p) (hk : Yields room n (k ()) bytes a) :
    Yields room n (if p then fail defect >>= k else k ()) bytes a := by
  rwa [if_neg h]

theorem yields_word {byte : UInt8} (h : byte.toNat = n) : Yields room 0 (word 1) [byte] n :=
  .of_ok fun _ next => h ▸ word_of_next next

theorem yields_skip (byte : UInt8) : Yields room 0 (skip 1) [byte] () :=
  .of_ok fun _ next => skip_ok_iff.2 ⟨next.length_le_remaining, rfl⟩

theorem yields_compressedNat (h : n < NumberWidth.four.limit) :
    Yields room 0 compressedNat (numberBytes n) n :=
  .of_ok fun _ next => compressedNat_of_numberBytes h next

theorem yields_compressedInt {z : Int}
    (h : -NumberWidth.four.signedLimit ≤ z ∧ z < NumberWidth.four.signedLimit) :
    Yields room 0 compressedInt (signedBytes z) z :=
  .of_ok fun _ next => compressedInt_of_signedBytes h next

theorem yields_compressedToken {token : Token} (h : token.NamesType) :
    Yields room 0 compressedToken token.bytes token :=
  .of_ok fun _ next => compressedToken_of_bytes h next

inductive YieldsEach (room : Nat) (read : Read α) : Nat → List (List UInt8) → List α → Prop where
  | nil : YieldsEach room read 0 [] []
  | cons {m n : Nat} {bytes : List UInt8} {rest : List (List UInt8)} {a : α} {others : List α}
      (first : Yields room m read bytes a) (each : YieldsEach room read n rest others) :
      YieldsEach room read (max m n) (bytes :: rest) (a :: others)

namespace YieldsEach

variable {read : Read α} {parts : List (List UInt8)} {values : List α}

theorem length_eq (h : YieldsEach room read n parts values) : parts.length = values.length := by
  induction h with
  | nil => rfl
  | cons first each ih => rw [List.length_cons, List.length_cons, ih]

theorem times (h : YieldsEach room read n parts values) :
    Yields room n (Read.times values.length read) parts.flatten values := by
  induction h with
  | nil => exact yields_pure []
  | cons first each ih => exact first.bind (ih.last rfl)

theorem of_flat {bytes : α → List UInt8} (h : ∀ a ∈ values, Yields room 0 read (bytes a) a) :
    YieldsEach room read 0 (values.map bytes) values := by
  induction values with
  | nil => exact .nil
  | cons a others ih =>
    obtain ⟨first, each⟩ := List.forall_mem_cons.1 h
    exact .cons first (ih each)

end YieldsEach

theorem yields_counted {read : Read α} {number : α → List UInt8} {values : List α}
    {k : List α → Read β} {check : Nat → Prop} [DecidablePred check] {defect : Nat → Defect}
    (count : values.length < NumberWidth.four.limit) (passes : ¬ check values.length)
    (h : ∀ a ∈ values, Yields room 0 read (number a) a) (hk : Yields room 0 (k values) back b) :
    Yields room 0 (do
      let count ← compressedNat
      if check count then fail (defect count)
      k (← times count read)) (countedBytes number values ++ back) b := by
  rw [countedBytes, List.append_assoc]
  refine (yields_compressedNat count).then ?_
  exact .of_check passes ((YieldsEach.of_flat h).times.then hk)

end Read

/-- Values that are recorded stand in front of the places that lack one, so each is found at its
place among the recorded ones. -/
theorem getElem?_filterMap_of_leading {value : α → Option β} {items : List α}
    (h : items.Pairwise fun a b => (value b).isSome → (value a).isSome) (i : Nat) :
    (items.filterMap value)[i]? = items[i]?.bind value := by
  induction items generalizing i with
  | nil => rfl
  | cons a rest ih =>
    obtain ⟨first, others⟩ := List.pairwise_cons.1 h
    cases ha : value a with
    | some b =>
      rw [List.filterMap_cons_some ha]
      cases i with
      | zero => simp [ha]
      | succ i => simpa using ih others i
    | none =>
      have missing : ∀ b ∈ rest, value b = none := by
        intro b hb
        have := first b hb
        simpa [ha] using this
      rw [List.filterMap_cons_none ha, List.filterMap_eq_nil_iff.2 missing, List.getElem?_nil]
      cases i with
      | zero => simp [ha]
      | succ i =>
        rw [List.getElem?_cons_succ]
        cases hi : rest[i]? with
        | none => rfl
        | some b => exact (missing b (List.mem_of_getElem? hi)).symm

namespace ArrayFits

variable {rank : Nat} {dimensions : List Dimension}

theorem dimensionsOf_eq (h : ArrayFits rank dimensions) :
    Read.dimensionsOf rank (dimensions.filterMap Dimension.size?)
      (dimensions.filterMap Dimension.lower?) = dimensions := by
  have sizes := getElem?_filterMap_of_leading (h.leading.imp And.left)
  have lowers := getElem?_filterMap_of_leading (h.leading.imp And.right)
  apply List.ext_getElem?
  intro i
  rw [Read.dimensionsOf, List.getElem?_map, ← h.length_eq]
  by_cases inside : i < dimensions.length
  · rw [List.getElem?_range inside, Option.map_some, sizes, lowers,
      List.getElem?_eq_getElem inside]
    rfl
  · rw [List.getElem?_eq_none (by rw [List.length_range]; omega), List.getElem?_eq_none (by omega)]
    rfl

theorem yields_arrayShape {room : Nat} (h : ArrayFits rank dimensions) :
    Read.Yields room 0 Read.arrayShape (arrayBytes rank dimensions) (rank, dimensions) := by
  have positive := h.rank_pos
  have small := h.rank_le
  have limit : maxRank < NumberWidth.four.limit := by decide
  have sizes := dimensions.length_filterMap_le Dimension.size?
  have lowers := dimensions.length_filterMap_le Dimension.lower?
  rw [h.length_eq] at sizes lowers
  have ending : Read.Yields room 0 (pure (rank, Read.dimensionsOf rank
      (dimensions.filterMap Dimension.size?) (dimensions.filterMap Dimension.lower?))) []
      (rank, dimensions) := by
    rw [h.dimensionsOf_eq]
    exact Read.yields_pure _
  unfold Read.arrayShape arrayBytes
  refine (Read.yields_compressedNat (by omega)).then (.of_check (by omega) ?_)
  refine Read.yields_counted (by omega) (by omega) (fun size hs => ?_) ?_
  · obtain ⟨d, hd, recorded⟩ := List.mem_filterMap.1 hs
    exact Read.yields_compressedNat (h.sizes d hd size recorded)
  · rw [← List.append_nil (countedBytes _ _)]
    refine Read.yields_counted (by omega) (by omega) (fun lower hl => ?_) ending
    obtain ⟨d, hd, recorded⟩ := List.mem_filterMap.1 hl
    exact Read.yields_compressedInt (h.lowers d hd lower recorded)

end ArrayFits

namespace CallKind

variable {kind : CallKind}

theorem toNat_convention (kind : CallKind) :
    (UInt8.ofNat kind.convention).toNat = kind.convention := by
  unfold convention
  split <;> split <;> split <;> split <;> rfl

theorem ofByte_convention (kind : CallKind) : ofByte kind.convention kind.typeParams = kind := by
  obtain ⟨hasThis, explicitThis, vararg, typeParams⟩ := kind
  unfold convention ofByte
  by_cases generic : 0 < typeParams <;> cases hasThis <;> cases explicitThis <;> cases vararg <;>
    simp only [generic, if_true, if_false, Bool.false_eq_true] <;> rfl

theorem isGeneric_convention (kind : CallKind) :
    isGeneric kind.convention = decide (0 < kind.typeParams) := by
  obtain ⟨hasThis, explicitThis, vararg, typeParams⟩ := kind
  unfold convention isGeneric
  by_cases generic : 0 < typeParams <;> cases hasThis <;> cases explicitThis <;> cases vararg <;>
    simp only [generic, if_true, if_false, Bool.false_eq_true] <;> rfl

theorem convention_ne_fieldMark (kind : CallKind) : kind.convention ≠ fieldMark := by
  unfold convention fieldMark
  split <;> split <;> split <;> split <;> decide

end CallKind

theorem TypeSig.exists_bytes_eq (sig : TypeSig) :
    ∃ first rest, sig.bytes = first :: rest ∧ first ≠ sentinel := by
  cases sig with
  | plain type => exact ⟨_, _, rfl, by cases type <;> decide⟩
  | modified required modifier base => exact ⟨_, _, rfl, by cases required <;> decide⟩
  | _ => exact ⟨_, _, rfl, by decide⟩

namespace Read

variable {room n : Nat} {type : Read TypeSig} {back : List UInt8} {a : α}

section

variable {sigs fixed added : List TypeSig}

theorem yieldsEach_of_forall (h : ∀ sig ∈ sigs, Yields room sig.levels type sig.bytes sig) :
    YieldsEach room type (TypeSig.levelsOf sigs) (TypeSig.bytesEach sigs) sigs := by
  induction sigs with
  | nil => exact .nil
  | cons sig rest ih =>
    obtain ⟨first, others⟩ := List.forall_mem_cons.1 h
    exact .cons first (ih others)

theorem yields_varargs (h : ∀ sig ∈ sigs, Yields room sig.levels type sig.bytes sig) :
    Yields room (TypeSig.levelsOf sigs) (varargs type sigs.length)
      (TypeSig.bytesEach sigs).flatten sigs := by
  induction sigs with
  | nil => exact yields_pure []
  | cons sig rest ih =>
    obtain ⟨first, others⟩ := List.forall_mem_cons.1 h
    obtain ⟨byte, back, opens, regular⟩ := sig.exists_bytes_eq
    have start : (TypeSig.bytesEach (sig :: rest)).flatten =
        byte :: (back ++ (TypeSig.bytesEach rest).flatten) := by
      rw [TypeSig.bytesEach, List.flatten_cons, opens, List.cons_append]
    refine .of_peek start (.of_check regular ?_)
    exact first.bind ((ih others).last rfl)

/-- The sentinel tells the declared parameters from those that a call adds. -/
theorem yields_params (declared : ∀ sig ∈ fixed, Yields room sig.levels type sig.bytes sig)
    (h : ∀ sig ∈ added, Yields room sig.levels type sig.bytes sig) :
    Yields room (max (TypeSig.levelsOf fixed) (TypeSig.levelsOf added))
      (params type (fixed.length + added.length))
      ((TypeSig.bytesEach fixed).flatten ++ (if TypeSig.bytesEach added = [] then []
        else sentinel :: (TypeSig.bytesEach added).flatten)) (fixed, added) := by
  induction fixed with
  | nil =>
    cases added with
    | nil => exact yields_pure ([], [])
    | cons sig rest =>
      obtain ⟨first, others⟩ := List.forall_mem_cons.1 h
      rw [TypeSig.levelsOf, Nat.zero_max, List.length_nil, Nat.zero_add]
      refine .of_peek (x := sentinel) rfl ?_
      rw [if_pos rfl]
      exact (yields_skip sentinel).then (first.bind ((yields_varargs others).last rfl))
  | cons sig rest ih =>
    obtain ⟨first, others⟩ := List.forall_mem_cons.1 declared
    obtain ⟨byte, back, opens, regular⟩ := sig.exists_bytes_eq
    rw [TypeSig.bytesEach, List.flatten_cons, List.append_assoc, TypeSig.levelsOf, Nat.max_assoc,
      List.length_cons, Nat.add_right_comm]
    refine .of_peek (by rw [opens, List.cons_append]) ?_
    rw [if_neg regular]
    exact first.bind ((ih others).last rfl)

theorem yields_typeParams {kind : CallKind} {k : Nat → Read α}
    (h : kind.typeParams < NumberWidth.four.limit) (hk : Yields room n (k kind.typeParams) back a) :
    Yields room n
      (if CallKind.isGeneric kind.convention then compressedNat >>= k else pure 0 >>= k)
      ((if 0 < kind.typeParams then numberBytes kind.typeParams else []) ++ back) a := by
  rw [kind.isGeneric_convention]
  by_cases generic : 0 < kind.typeParams
  · rw [if_pos (decide_eq_true generic), if_pos generic]
    exact (yields_compressedNat h).then hk
  · have none : kind.typeParams = 0 := by omega
    rw [if_neg (by simpa using generic), if_neg generic]
    rw [none] at hk
    exact (yields_pure 0).then hk

theorem yields_methodOf {kind : CallKind} {result : TypeSig}
    (typeParams : kind.typeParams < NumberWidth.four.limit)
    (count : fixed.length + added.length < NumberWidth.four.limit)
    (h : Yields room result.levels type result.bytes result)
    (each : ∀ sig ∈ fixed, Yields room sig.levels type sig.bytes sig)
    (others : ∀ sig ∈ added, Yields room sig.levels type sig.bytes sig) :
    Yields room (max result.levels (max (TypeSig.levelsOf fixed) (TypeSig.levelsOf added)))
      (methodOf type) (kind.bytes result.bytes (TypeSig.bytesEach fixed) (TypeSig.bytesEach added))
      ⟨kind, result, fixed, added⟩ := by
  have lengths := (yieldsEach_of_forall each).length_eq
  have addedLengths := (yieldsEach_of_forall others).length_eq
  rw [CallKind.bytes, lengths, addedLengths]
  refine (yields_word kind.toNat_convention).then (yields_typeParams typeParams ?_)
  refine (yields_compressedNat count).then ?_
  exact h.bind ((yields_params each others).last (by rw [CallKind.ofByte_convention]))

theorem yields_genericOf {base : TypeSig} (definition : base.isDefinition = true)
    (count : sigs.length < NumberWidth.four.limit)
    (h : Yields room base.levels type base.bytes base)
    (each : ∀ sig ∈ sigs, Yields room sig.levels type sig.bytes sig) :
    Yields room (max base.levels (TypeSig.levelsOf sigs)) (genericOf type)
      (base.bytes ++ (numberBytes sigs.length ++ (TypeSig.bytesEach sigs).flatten))
      (.generic base sigs) := by
  obtain ⟨byte, back, opens, allowed⟩ : ∃ byte back, base.bytes = byte :: back ∧
      ¬ (byte.toNat ≠ Element.code .classType ∧ byte.toNat ≠ Element.code .valueType) := by
    cases base <;> cases definition <;> exact ⟨_, _, rfl, by decide⟩
  refine .of_peek (by rw [opens, List.cons_append]) (.of_check allowed (h.bind ?_))
  exact (yields_compressedNat count).then ((yieldsEach_of_forall each).times.last rfl)

end

theorem yields_type (element : Element) {bytes : List UInt8} {sig : TypeSig}
    (h : ∀ room, Yields room n (elementOf (Read.type room) element) bytes sig) (room : Nat) :
    Yields room (n + 1) (Read.type room) (element.byte :: bytes) sig := by
  cases room with
  | zero => exact ⟨fun deep => absurd deep (Nat.not_succ_le_zero _), fun _ c _ => ⟨c, rfl⟩⟩
  | succ room =>
    have opening : Yields room n (Read.type (room + 1)) (element.byte :: bytes) sig := by
      refine (yields_word element.toNat_byte).then ?_
      rw [PlainType.ofCode?_element, Element.ofCode?_code]
      exact h room
    exact ⟨fun deep => opening.within (by omega), fun deep => opening.beyond (by omega)⟩

theorem yields_plain (plain : PlainType) (room : Nat) :
    Yields room 1 (Read.type room) [plain.byte] (.plain plain) := by
  cases room with
  | zero => exact ⟨fun deep => absurd deep (Nat.not_succ_le_zero _), fun _ c _ => ⟨c, rfl⟩⟩
  | succ room =>
    have opening : Yields room 0 (Read.type (room + 1)) [plain.byte] (.plain plain) := by
      refine (yields_word plain.toNat_byte).last ?_
      rw [PlainType.ofCode?_code]
    exact ⟨fun _ => opening.within (Nat.zero_le _), fun deep => absurd deep (by omega)⟩

end Read

theorem TypeSig.Fits.yields {sig : TypeSig} (h : sig.Fits) :
    ∀ room, Read.Yields room sig.levels (Read.type room) sig.bytes sig := by
  -- the types in a type have one level less, so the room is left open in the induction
  induction h with
  | plain type => exact Read.yields_plain type
  | pointer _ ih => exact Read.yields_type _ fun room => (ih room).last rfl
  | byRef _ ih => exact Read.yields_type _ fun room => (ih room).last rfl
  | valueType h => exact Read.yields_type _ fun _ => (Read.yields_compressedToken h).last rfl
  | classType h => exact Read.yields_type _ fun _ => (Read.yields_compressedToken h).last rfl
  | typeParam h => exact Read.yields_type _ fun _ => (Read.yields_compressedNat h).last rfl
  | methodParam h => exact Read.yields_type _ fun _ => (Read.yields_compressedNat h).last rfl
  | array _ shape ih =>
    exact Read.yields_type _ fun room => (ih room).before (shape.yields_arrayShape.last rfl)
  | vector _ ih => exact Read.yields_type _ fun room => (ih room).last rfl
  | generic _ definition count _ ih each =>
    exact Read.yields_type _ fun room =>
      Read.yields_genericOf definition count (ih room) fun sig hs => each sig hs room
  | function typeParams count _ _ _ ih fixed added =>
    refine Read.yields_type _ fun room => ?_
    exact (Read.yields_methodOf typeParams count (ih room) (fun sig hs => fixed sig hs room)
      fun sig hs => added sig hs room).last rfl
  | @modified required _ _ _ token ih =>
    cases required with
    | false =>
      exact Read.yields_type .optionalModifier fun room =>
        (Read.yields_compressedToken token).then ((ih room).last rfl)
    | true =>
      exact Read.yields_type .requiredModifier fun room =>
        (Read.yields_compressedToken token).then ((ih room).last rfl)
  | pinned _ ih => exact Read.yields_type _ fun room => (ih room).last rfl

namespace Signature

theorem Fits.yields {s : Signature} (h : s.Fits) (room : Nat) :
    Read.Yields room s.levels (s.form.read room) s.bytes s := by
  have field (sig : TypeSig) (h : sig.Fits) :
      Read.Yields room sig.levels (Read.field room) (fieldBytes sig) sig := by
    have mark : (UInt8.ofNat fieldMark).toNat = fieldMark := rfl
    exact (Read.yields_word mark).then (.of_check (by decide) (h.yields room))
  have method (m : MethodSig) (h : m.Fits) :
      Read.Yields room m.levels (Read.method room) m.bytes m := by
    obtain ⟨kind, result, fixed, added⟩ := m
    cases h with
    | function typeParams count h each others =>
      exact Read.yields_methodOf typeParams count (h.yields room)
        (fun sig hs => (each sig hs).yields room) fun sig hs => (others sig hs).yields room
  match s with
  | .type sig => exact (TypeSig.Fits.yields h room).last rfl
  | .field sig => exact (field sig h).last rfl
  | .method m => exact (method m h).last rfl
  | .member (.field sig) =>
    refine (Read.Yields.of_peek (x := UInt8.ofNat fieldMark) rfl ?_).last rfl
    rw [if_pos (by decide)]
    exact (field sig h).last rfl
  | .member (.method m) =>
    refine (Read.Yields.of_peek (x := UInt8.ofNat m.kind.convention) rfl ?_).last rfl
    rw [m.kind.toNat_convention, if_neg m.kind.convention_ne_fieldMark]
    exact (method m h).last rfl

end Signature

namespace SignatureReader

/-- A signature that was written is read back from its bytes, whatever follows them, and the reader
stops where it ends, its depth as before. If its types take fifty levels or more, it is refused for
its depth instead. -/
theorem next_bytes (s : Signature) (rest : List UInt8) (fits : s.Fits) :
    let data : ByteArray := ⟨(s.bytes ++ rest).toArray⟩
    let result := (ofBytes data).next s.form.read
    (s.levels < maxTypeDepth → result = (.ok s, ⟨⟨data, s.bytes.length⟩, 0⟩)) ∧
      (maxTypeDepth ≤ s.levels → result.1 = .error (.recursionLimit maxTypeDepth)) := by
  intro data result
  have here : (ofBytes data).cursor.Next s.bytes := Cursor.next_ofBytes s.bytes rest
  have read := fits.yields (ofBytes data).room
  have room : (ofBytes data).room + 1 = maxTypeDepth := rfl
  constructor
  · intro shallow
    have accepted := read.within (by omega) _ here
    show next (ofBytes data) _ = _
    rw [next, accepted]
    simp [Cursor.advance, ofBytes, Cursor.ofBytes]
  · intro deep
    obtain ⟨c, refused⟩ := read.beyond (by omega) _ here
    show (next (ofBytes data) _).1 = _
    rw [next, refused]

/-- A call with an added parameter, to a method whose parameter is a generic instance over an array
with a negative lower bound. -/
theorem next_bytes_call :
    (ofBytes ⟨#[0x35, 1, 2, 1, 0x15, 0x12, 8, 1, 0x14, 8, 2, 1, 3, 2, 0x7F, 0,
        0x41, 0x1F, 0x0D, 0x1E, 0, 0xFF]⟩).next SignatureForm.member.read =
      (.ok (.member (.method ⟨⟨true, false, true, 1⟩, .plain .void,
        [.generic (.classType ⟨0x02000002⟩)
          [.array (.plain .int32) 2 [⟨some 3, some (-1)⟩, ⟨none, some 0⟩]]],
        [.modified true ⟨0x01000003⟩ (.methodParam 0)]⟩)),
      ⟨⟨⟨#[0x35, 1, 2, 1, 0x15, 0x12, 8, 1, 0x14, 8, 2, 1, 3, 2, 0x7F, 0,
        0x41, 0x1F, 0x0D, 0x1E, 0, 0xFF]⟩, 21⟩, 0⟩) := by
  have array : ArrayFits 2 [⟨some 3, some (-1)⟩, ⟨none, some 0⟩] := by
    constructor <;> simp [maxRank, NumberWidth.limit, NumberWidth.signedLimit]
  have call : TypeSig.Fits (.function ⟨true, false, true, 1⟩ (.plain .void)
      [.generic (.classType ⟨0x02000002⟩)
        [.array (.plain .int32) 2 [⟨some 3, some (-1)⟩, ⟨none, some 0⟩]]]
      [.modified true ⟨0x01000003⟩ (.methodParam 0)]) := by
    refine .function (by decide) (by decide) (.plain _) ?_ ?_
    · exact List.forall_mem_singleton.2 (.generic (.classType (.inl (by decide))) rfl (by decide)
        (List.forall_mem_singleton.2 (.array (.plain _) array)))
    · exact List.forall_mem_singleton.2
        (.modified (.methodParam (by decide)) (.inr (.inl (by decide))))
  exact (next_bytes (.member (.method ⟨_, _, _, _⟩)) [0xFF] call).1 (by decide)

end SignatureReader

end FrameworkAudit
