import FrameworkAudit.Proofs.Signature.Nodes

/-!
Declared counts that the bytes cannot meet. A signature is read by reading the parts that it comes to,
one inside the other, and the failure of one of them is a failure of the whole. A part that declares more
items than there are bytes behind the count fails, and so does the signature, however deep inside it the
part stands.
-/

set_option autoImplicit false

namespace FrameworkAudit

namespace Read

variable {α β γ : Type}

/-- A read that begins at one place comes to another read at another: it begins with it, or it comes to
it from a step that follows one that was passed. -/
inductive Comes : {α β : Type} → Read α → Cursor → Read β → Cursor → Prop
  | self {α : Type} {read : Read α} {c : Cursor} : Comes read c read c
  | first {α β γ : Type} {read : Read α} {k : α → Read β} {part : Read γ} {c d : Cursor} :
    Comes read c part d → Comes (read >>= k) c part d
  | later {α β γ : Type} {read : Read α} {k : α → Read β} {part : Read γ} {a : α} {c d e : Cursor} :
    read c = .ok a e → Comes (k a) e part d → Comes (read >>= k) c part d

theorem Comes.trans {read : Read α} {part : Read β} {inner : Read γ} {c d e : Cursor}
    (h : Comes read c part d) (inside : Comes part d inner e) : Comes read c inner e := by
  induction h with
  | self => exact inside
  | first _ ih => exact (ih inside).first
  | later ok _ ih => exact .later ok (ih inside)

theorem Comes.fails {read : Read α} {part : Read β} {c d : Cursor} (h : Comes read c part d)
    (failed : part.Fails d) : read.Fails c := by
  induction h with
  | self => exact failed
  | first _ ih => exact (ih failed).bind
  | later ok _ ih => exact .after ok (ih failed)

section

variable {loop : Nat → Read α} {start a : α} {body : α → Read α} {part : Read β} {c d e : Cursor}
  {m n : Nat}

theorem Iterates.comes (h : Iterates loop start body) (ok : loop m c = .ok a d) (lt : m < n)
    (comes : Comes (body a) d part e) : Comes (loop n) c part e := by
  induction n with
  | zero => exact absurd lt (Nat.not_lt_zero m)
  | succ n ih =>
    rw [h.succ]
    rcases Nat.lt_or_eq_of_le (Nat.le_of_lt_succ lt) with fewer | rfl
    · exact (ih fewer).first
    · exact .later ok comes

theorem comes_nextItem {read : Read α} {items : List α} : Comes (nextItem read items) c read c :=
  .first .self

theorem comes_nextParam {type : Read TypeSig} {parts : List TypeSig × List TypeSig} {b : UInt8}
    (seen : peek c = .ok b c) (other : b ≠ sentinel) : Comes (nextParam type parts) c type c := by
  match parts with
  | (fixed, []) =>
    refine .later seen ?_
    rw [if_neg other]
    exact .first .self
  | (fixed, first :: rest) =>
    refine .first (.later seen ?_)
    dsimp only
    rw [if_neg other]
    exact .first .self

end

def methodHead : Read (CallKind × Nat) := do
  let convention ← word 1
  let typeParams ← if CallKind.isGeneric convention then compressedNat else pure 0
  let count ← compressedNat
  return (.ofByte convention typeParams, count)

def genericHead (type : Read TypeSig) : Read (TypeSig × Nat) := do
  let next := (← peek).toNat
  if next ≠ Element.code .classType ∧ next ≠ Element.code .valueType then
    fail (.genericBase next)
  let base ← type
  let count ← compressedNat
  return (base, count)

def sizesHead : Read (Nat × Nat) := do
  let rank ← compressedNat
  if rank = 0 ∨ maxRank < rank then fail (.arrayRank rank)
  let count ← compressedNat
  return (rank, count)

def lowersHead : Read (Nat × List Nat × Nat) := do
  let (rank, sizeCount) ← sizesHead
  if rank < sizeCount then fail (.arraySizes sizeCount rank)
  let sizes ← times sizeCount compressedNat
  let count ← compressedNat
  return (rank, sizes, count)

/-- A part of a signature declares how many items follow: the parameters of a method, the arguments of a
generic instance, the sizes and the lower bounds of an array. The bytes behind the count begin at the
last cursor. -/
inductive Declares : {α : Type} → Read α → Cursor → Nat → Cursor → Prop
  | params {room : Nat} {c d : Cursor} {kind : CallKind} {count : Nat} :
    methodHead c = .ok (kind, count) d → Declares (methodOf (type room)) c count d
  | arguments {room : Nat} {c d : Cursor} {base : TypeSig} {count : Nat} :
    genericHead (type room) c = .ok (base, count) d → Declares (genericOf (type room)) c count d
  | sizes {c d : Cursor} {rank count : Nat} :
    sizesHead c = .ok (rank, count) d → Declares arrayShape c count d
  | lowers {c d : Cursor} {rank count : Nat} {sizes : List Nat} :
    lowersHead c = .ok (rank, sizes, count) d → Declares arrayShape c count d

theorem methodOf_eq (type : Read TypeSig) : methodOf type = methodHead >>= fun head =>
    type >>= fun result => params type head.2 >>= fun parts =>
      pure ⟨head.1, result, parts.1, parts.2⟩ := by
  rw [methodOf, methodHead, bind_assoc]
  refine congrArg (word 1 >>= ·) (funext fun convention => ?_)
  split <;> simp

theorem genericOf_eq (type : Read TypeSig) : genericOf type = genericHead type >>= fun head =>
    times head.2 type >>= fun arguments => pure (.generic head.1 arguments) := by
  rw [genericOf, genericHead, bind_assoc]
  refine congrArg (peek >>= ·) (funext fun next => ?_)
  dsimp only
  split
  · rfl
  · simp

theorem arrayShape_eq_sizes : arrayShape = sizesHead >>= fun head => do
    if head.1 < head.2 then fail (.arraySizes head.2 head.1)
    let sizes ← times head.2 compressedNat
    let lowerCount ← compressedNat
    if head.1 < lowerCount then fail (.arrayLowerBounds lowerCount head.1)
    let lowers ← times lowerCount compressedInt
    return (head.1, dimensionsOf head.1 sizes lowers) := by
  rw [arrayShape, sizesHead, bind_assoc]
  refine congrArg (compressedNat >>= ·) (funext fun rank => ?_)
  dsimp only
  split
  · rfl
  · simp

theorem arrayShape_eq_lowers : arrayShape = lowersHead >>= fun head => do
    if head.1 < head.2.2 then fail (.arrayLowerBounds head.2.2 head.1)
    let lowers ← times head.2.2 compressedInt
    return (head.1, dimensionsOf head.1 head.2.1 lowers) := by
  rw [arrayShape_eq_sizes, lowersHead, bind_assoc]
  refine congrArg (sizesHead >>= ·) (funext fun head => ?_)
  dsimp only
  split
  · rfl
  · simp

variable {part : Read α} {c d : Cursor} {count : Nat}

theorem Declares.fails (h : Declares part c count d) (short : d.remaining < count) :
    part.Fails c := by
  cases h with
  | @params room _ _ kind _ ok =>
    have following : Delimited count (type room >>= fun result =>
        Read.params (type room) count >>= fun parts =>
          pure (MethodSig.mk kind result parts.1 parts.2)) :=
      ((delimited_type room).bind fun result => (delimited_params (delimited_type room) count).bind
        fun parts => delimited_pure _).mono (by omega)
    exact methodOf_eq _ ▸ .after ok (following.fails_of_short short)
  | @arguments room _ _ base _ ok =>
    have items : Delimited count (times count (type room)) :=
      ((delimited_type room).times count).mono (by omega)
    exact genericOf_eq _ ▸ .after ok (items.fails_of_short short).bind
  | @sizes _ _ rank _ ok =>
    have items : Delimited count (times count compressedNat) :=
      (delimited_compressedNat.times count).mono (by omega)
    refine arrayShape_eq_sizes ▸ .after ok ?_
    split
    · exact .bind ⟨_, _, rfl⟩
    · exact (items.fails_of_short short).bind
  | @lowers _ _ rank _ sizes ok =>
    have items : Delimited count (times count compressedInt) :=
      (delimited_compressedInt.times count).mono (by omega)
    refine arrayShape_eq_lowers ▸ .after ok ?_
    split
    · exact .bind ⟨_, _, rfl⟩
    · exact (items.fails_of_short short).bind

end Read

namespace SignatureReader

open Read

theorem next_error_of_fails {α : Type} {read : Nat → Read α} {r : SignatureReader}
    (failed : (read r.room).Fails r.cursor) : ∃ e, (r.next read).1 = .error e := by
  obtain ⟨e, d, stopped⟩ := failed
  exact ⟨e, by rw [next, stopped]⟩

/-- A signature has no more types than bytes were taken for it. The loops over its declared counts take a
byte at least for each iteration, and a part of it that declares more items than there are bytes left
makes the whole fail. -/
theorem counts_bounded (r : SignatureReader) (form : SignatureForm) :
    (∀ s, (r.next form.read).1 = .ok s → ∃ passed, s.nodes ≤ passed ∧
      passed ≤ r.cursor.remaining ∧ (r.next form.read).2.cursor = r.cursor.advance passed) ∧
    (∀ room, Paced (times · (type room)) [] (nextItem (type room)) ∧
      Paced (params (type room)) ([], []) (nextParam (type room))) ∧
    Paced (times · compressedNat) [] (nextItem compressedNat) ∧
    Paced (times · compressedInt) [] (nextItem compressedInt) ∧
    ∀ {α : Type} (part : Read α) (start behind : Cursor) (count : Nat),
      Comes (form.read r.room) r.cursor part start → Declares part start count behind →
      behind.remaining < count → ∃ e, (r.next form.read).1 = .error e := by
  have items {α : Type} {read : Read α} (h : Delimited 1 read) :
      Paced (times · read) [] (nextItem read) :=
    (iterates_times read).paced (delimited_nextItem h)
  refine ⟨fun s read => ?_, fun room => ⟨items (delimited_type room), ?_⟩,
    items delimited_compressedNat, items delimited_compressedInt,
    fun part start behind count comes declares short => ?_⟩
  · unfold next at read ⊢
    split at read
    · rename_i found stop taken
      obtain rfl := Except.ok.inj read
      obtain ⟨passed, -, inside, rfl⟩ := (delimited_form form r.room).advances taken
      obtain ⟨also, same, paid⟩ := costs_form form r.room _ _ _ taken
      have equal : passed = also := by simpa [Cursor.advance] using congrArg Cursor.pos same
      exact ⟨passed, by omega, inside, rfl⟩
    · cases read
  · exact (iterates_params (type room)).paced (delimited_nextParam (delimited_type room))
  · exact next_error_of_fails (comes.fails (declares.fails short))

/-- A method whose second parameter is an instance of a generic type. Its argument is a function, which
declares five parameters, but only the byte of its result is left. -/
def overstated : ByteArray :=
  ⟨#[0x00, 0x02, 0x01, 0x08, 0x15, 0x12, 0x08, 0x01, 0x1B, 0x00, 0x05, 0x01]⟩

theorem counts_bounded_overstated :
    Comes (SignatureForm.method.read (maxTypeDepth - 1)) (.ofBytes overstated) (methodOf (type 47))
        ⟨overstated, 9⟩ ∧
      Declares (methodOf (type 47)) ⟨overstated, 9⟩ 5 ⟨overstated, 11⟩ ∧
      (⟨overstated, 11⟩ : Cursor).remaining < 5 ∧
      (∃ e, ((ofBytes overstated).next SignatureForm.method.read).1 = .error e) ∧
      ∃ s passed, ((ofBytes ⟨#[0x06, 0x0F, 0x1D, 0x08]⟩).next SignatureForm.field.read).1 = .ok s ∧
        s.nodes = 3 ∧ 3 ≤ passed ∧ passed ≤ 4 := by
  have argument : Comes (typeFrom (type 48) (Element.code .generic)) ⟨overstated, 5⟩
      (methodOf (type 47)) ⟨overstated, 9⟩ := by
    have whole : typeFrom (type 48) (Element.code .generic) = _ := genericOf_eq (type 48)
    rw [whole]
    refine .later (a := (.classType ⟨0x02000002⟩, 1)) (e := ⟨overstated, 8⟩) rfl ?_
    refine .first ((iterates_times _).comes (m := 0) rfl (by decide) ?_)
    exact comes_nextItem.trans (.later rfl (.first .self))
  have params : Comes (Read.params (type 49) 2) ⟨overstated, 3⟩ (methodOf (type 47))
      ⟨overstated, 9⟩ := by
    refine (iterates_params _).comes (m := 1) (a := ([.plain .int32], [])) (d := ⟨overstated, 4⟩) rfl
      (by decide) ?_
    exact (comes_nextParam (b := 0x15) rfl (by decide)).trans (.later rfl argument)
  have comes : Comes (SignatureForm.method.read (maxTypeDepth - 1)) (.ofBytes overstated)
      (methodOf (type 47)) ⟨overstated, 9⟩ := by
    refine .first ?_
    have whole : method (maxTypeDepth - 1) = _ := methodOf_eq (type 49)
    rw [whole]
    refine .later (a := (⟨false, false, false, 0⟩, 2)) (e := ⟨overstated, 2⟩) rfl ?_
    exact .later (a := .plain .void) (e := ⟨overstated, 3⟩) rfl (.first params)
  have head : methodHead ⟨overstated, 9⟩ = .ok (⟨false, false, false, 0⟩, 5) ⟨overstated, 11⟩ := rfl
  have short : (⟨overstated, 11⟩ : Cursor).remaining < 5 := by decide
  have fails := (counts_bounded (ofBytes overstated) .method).2.2.2.2 _ _ _ _ comes (.params head) short
  obtain ⟨passed, enough, inside, -⟩ := (counts_bounded (ofBytes ⟨#[0x06, 0x0F, 0x1D, 0x08]⟩) .field).1
    (.field (.pointer (.vector (.plain .int32)))) rfl
  exact ⟨comes, .params head, short, fails, _, passed, rfl, rfl, enough, inside⟩

end SignatureReader

end FrameworkAudit
