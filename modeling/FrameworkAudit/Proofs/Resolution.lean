import FrameworkAudit.Proofs.Result
import FrameworkAudit.Proofs.Signature.Compositional
import FrameworkAudit.Shape.Resolve

/-!
References that cannot be resolved. Only damage keeps a reference from being resolved, and the damage
stays with it: where rows of which nothing becomes are left out of an assembly, all other rows resolve
to what they were.
-/

set_option autoImplicit false

namespace FrameworkAudit

variable {α β : Type}

/-- Results that are the same, or both lost to damage, of whatever kind. -/
inductive SameOrLost : Except Error α → Except Error α → Prop where
  | same (value : α) : SameOrLost (.ok value) (.ok value)
  | lost {d e : Error} (hd : d.isMalformedInput = true) (he : e.isMalformedInput = true) :
      SameOrLost (.error d) (.error e)

namespace SameOrLost

variable {x y : Except Error α} {e : Error}

theorem of_damage (h : ∀ e, x = .error e → e.isMalformedInput = true) : SameOrLost x x := by
  cases x with
  | ok value => exact .same value
  | error e => exact .lost (h e rfl) (h e rfl)

theorem isMalformedInput (h : SameOrLost x y) (failed : x = .error e) :
    e.isMalformedInput = true := by
  cases h with
  | same value => cases failed
  | lost hd he =>
    cases failed
    exact hd

theorem ok_iff (h : SameOrLost x y) {value : α} : x = .ok value ↔ y = .ok value := by
  cases h <;> simp

theorem bind {f g : α → Except Error β} (h : SameOrLost x y)
    (hf : ∀ value, SameOrLost (f value) (g value)) : SameOrLost (x >>= f) (y >>= g) := by
  cases h with
  | same value => exact hf value
  | lost hd he => exact .lost hd he

theorem mapM {f g : α → Except Error β} (h : ∀ value, SameOrLost (f value) (g value))
    (values : List α) : SameOrLost (values.mapM f) (values.mapM g) := by
  induction values with
  | nil => exact .same []
  | cons value values ih =>
    rw [List.mapM_cons, List.mapM_cons]
    exact (h value).bind fun first => ih.bind fun rest => .same _

end SameOrLost

namespace TypeSig

variable {f g : Token → Except Error TypeShape}

mutual

theorem shapeWith_sameOrLost (h : ∀ token, SameOrLost (f token) (g token)) :
    ∀ sig : TypeSig, SameOrLost (sig.shapeWith f) (sig.shapeWith g)
  | plain _ | typeParam _ | methodParam _ => .same _
  | valueType token | classType token => h token
  | pinned target => shapeWith_sameOrLost h target
  | pointer target | byRef target | vector target | array target _ _ =>
    (shapeWith_sameOrLost h target).bind fun _ => .same _
  | modified _ modifier base =>
    (shapeWith_sameOrLost h base).bind fun _ => (h modifier).bind fun _ => .same _
  | function _ result params _ =>
    (shapeWith_sameOrLost h result).bind fun _ => (shapesWith_sameOrLost h params).bind fun _ => .same _
  | generic base arguments => by
    refine (shapeWith_sameOrLost h base).bind fun shape => ?_
    cases shape with
    | named definition => exact (shapesWith_sameOrLost h arguments).bind fun _ => .same _
    | _ => exact .lost rfl rfl

theorem shapesWith_sameOrLost (h : ∀ token, SameOrLost (f token) (g token)) :
    ∀ sigs : List TypeSig, SameOrLost (shapesWith f sigs) (shapesWith g sigs)
  | [] => .same []
  | sig :: rest =>
    (shapeWith_sameOrLost h sig).bind fun _ => (shapesWith_sameOrLost h rest).bind fun _ => .same _

end

end TypeSig

namespace Assembly

variable {a b : Assembly} {room row : Nat} {e : Error}

theorem isMalformedInput_of_typeRefChain (failed : a.typeRefChain room row = .error e) :
    e.isMalformedInput = true := by
  induction room generalizing row e with
  | zero =>
    cases failed
    rfl
  | succ room ih =>
    rw [typeRefChain] at failed
    split at failed
    · cases failed
      rfl
    · rename_i entry _
      split at failed
      · split at failed
        · cases failed
        · cases outer : a.typeRefChain room entry.scope.row with
          | ok t =>
            rw [outer] at failed
            cases failed
          | error d =>
            rw [outer] at failed
            cases failed
            exact ih outer
      · split at failed <;> cases failed
        rfl
      · cases failed

theorem isMalformedInput_of_typeDefChain (failed : a.typeDefChain room row = .error e) :
    e.isMalformedInput = true := by
  induction room generalizing row e with
  | zero =>
    cases failed
    rfl
  | succ room ih =>
    rw [typeDefChain] at failed
    split at failed
    · cases failed
      rfl
    · split at failed
      · rename_i outerRow _
        cases outer : a.typeDefChain room outerRow with
        | ok t =>
          rw [outer] at failed
          cases failed
        | error d =>
          rw [outer] at failed
          cases failed
          exact ih outer
      · cases failed

theorem typeRefChain_succ {t : NamedType} (found : a.typeRefChain room row = .ok t) :
    a.typeRefChain (room + 1) row = .ok t := by
  induction room generalizing row t with
  | zero => cases found
  | succ room ih =>
    rw [typeRefChain] at found ⊢
    cases here : a.typeRef? row with
    | none =>
      rw [here] at found
      cases found
    | some entry =>
      simp only [here] at found ⊢
      split at found
      · split at found
        · rename_i null
          rwa [if_pos null]
        · rename_i nested
          obtain ⟨outer, houter, found⟩ := bind_eq_ok_iff.1 found
          rw [if_neg nested, ih houter]
          exact found
      · assumption
      · assumption

theorem typeRefChain_mono {more : Nat} {t : NamedType} (h : room ≤ more)
    (found : a.typeRefChain room row = .ok t) : a.typeRefChain more row = .ok t := by
  induction h with
  | refl => exact found
  | step _ ih => exact typeRefChain_succ ih

theorem exists_error_of_typeRefShape (lost : ∃ e, a.typeRefShape row = .error e)
    (within : room ≤ maxChain + 1) : ∃ e, a.typeRefChain room row = .error e := by
  cases chain : a.typeRefChain room row with
  | error e => exact ⟨e, rfl⟩
  | ok t =>
    obtain ⟨e, lost⟩ := lost
    rw [typeRefShape, typeRefChain_mono within chain] at lost
    cases lost

theorem memberShape_of_missing (gone : a.memberRef? row = none) :
    a.memberShape row = .error (.malformed (.rowUnavailable .memberRef row)) := by
  rw [memberShape, gone]

/-- Whether a row of the references to members names none that an assembly defines. -/
def NamesNoMember (a : Assembly) (row : Nat) : Prop :=
  ∀ m, a.memberShape row = .ok (some m) → m.parent.isPrimitive = false ∧ m.parent.assembly? = none

/-- An assembly from which rows of another are left out of which nothing becomes: references to types
that cannot be resolved, and references to members that name none. -/
structure Drops (a b : Assembly) : Prop where
  others : ∃ typeRefs memberRefs, b = { a with typeRefs, memberRefs }
  typeRefs_size : b.typeRefs.size = a.typeRefs.size
  memberRefs_size : b.memberRefs.size = a.memberRefs.size
  typeRef? (row : Nat) : b.typeRef? row = a.typeRef? row ∨
    b.typeRef? row = none ∧ ∃ e, a.typeRefShape row = .error e
  memberRef? (row : Nat) : b.memberRef? row = a.memberRef? row ∨
    b.memberRef? row = none ∧ a.NamesNoMember row

theorem Drops.refl (a : Assembly) : a.Drops a where
  others := ⟨_, _, rfl⟩
  typeRefs_size := rfl
  memberRefs_size := rfl
  typeRef? _ := .inl rfl
  memberRef? _ := .inl rfl

namespace Drops

variable (h : a.Drops b)

include h

theorem identity : b.identity = a.identity := by
  obtain ⟨_, _, rfl⟩ := h.others
  rfl

theorem assemblyRef? (row : Nat) : b.assemblyRef? row = a.assemblyRef? row := by
  obtain ⟨_, _, rfl⟩ := h.others
  rfl

theorem typeSpec? (row : Nat) : b.typeSpec? row = a.typeSpec? row := by
  obtain ⟨_, _, rfl⟩ := h.others
  rfl

theorem typeDefChain (room row : Nat) : b.typeDefChain room row = a.typeDefChain room row := by
  obtain ⟨typeRefs, memberRefs, rfl⟩ := h.others
  induction room generalizing row with
  | zero => rfl
  | succ room ih =>
    rw [Assembly.typeDefChain, Assembly.typeDefChain]
    simp only [ih]
    rfl

theorem typeRefChain (within : room ≤ maxChain + 1) (row : Nat) :
    SameOrLost (a.typeRefChain room row) (b.typeRefChain room row) := by
  induction room generalizing row with
  | zero => exact .lost rfl rfl
  | succ room ih =>
    rcases h.typeRef? row with here | ⟨gone, lost⟩
    · rw [Assembly.typeRefChain, Assembly.typeRefChain, here]
      cases a.typeRef? row with
      | none => exact .lost rfl rfl
      | some entry =>
        simp only [h.identity, h.assemblyRef?]
        split
        · split
          · exact .same _
          · exact (ih (by omega) _).bind fun _ => .same _
        · split
          · exact .same _
          · exact .lost rfl rfl
        · exact .same _
    · -- A chain that fails with all the room that it may take fails with less.
      obtain ⟨e, failed⟩ := exists_error_of_typeRefShape lost within
      rw [failed, Assembly.typeRefChain, gone]
      exact .lost (isMalformedInput_of_typeRefChain failed) rfl

theorem tokenWithin (hops : Nat) (token : Token) :
    SameOrLost (a.tokenWithin hops token) (b.tokenWithin hops token) := by
  induction hops generalizing token with
  | zero => exact .lost rfl rfl
  | succ hops ih =>
    rw [Assembly.tokenWithin, Assembly.tokenWithin]
    split
    · exact (h.typeRefChain (Nat.le_refl _) _).bind fun _ => .same _
    · rw [typeDefShape, typeDefShape, h.typeDefChain]
      have type : SameOrLost (a.typeDefChain (maxChain + 1) token.row) _ :=
        .of_damage fun e => isMalformedInput_of_typeDefChain
      exact type.bind fun _ => .same _
    · rw [h.typeSpec?]
      cases a.typeSpec? token.row with
      | none => exact .lost rfl rfl
      | some blob =>
        have sig : SameOrLost (TypeSig.ofBlob blob) _ :=
          .of_damage fun e => TypeSig.isMalformedInput_of_ofBlob
        exact sig.bind fun sig => sig.shapeWith_sameOrLost ih
    · exact .lost rfl rfl

theorem memberKind (sig : MemberSig) : SameOrLost (a.memberKind sig) (b.memberKind sig) := by
  have shape (type : TypeSig) : SameOrLost (a.signatureShape type) (b.signatureShape type) :=
    type.shapeWith_sameOrLost (h.tokenWithin _)
  cases sig with
  | method m =>
    refine SameOrLost.bind ?_ fun _ => .same _
    refine (SameOrLost.mapM shape m.params).bind fun params => ?_
    exact (shape m.result).bind fun result => .same _
  | field type => exact (shape type).bind fun _ => .same _

theorem memberShape (kept : b.memberRef? row = a.memberRef? row) :
    SameOrLost (a.memberShape row) (b.memberShape row) := by
  rw [Assembly.memberShape, Assembly.memberShape, kept]
  cases a.memberRef? row with
  | none => exact .lost rfl rfl
  | some entry =>
    dsimp only
    split
    · refine (h.tokenWithin _ _).bind fun parent => ?_
      have sig : SameOrLost (MemberSig.ofBlob entry.signature) _ :=
        .of_damage fun e => MemberSig.isMalformedInput_of_ofBlob
      exact sig.bind fun sig => (h.memberKind sig).bind fun kind => .same _
    · exact .same none

end Drops

/-- Only damage keeps a reference to a member from being resolved. -/
theorem isMalformedInput_of_memberShape (failed : a.memberShape row = .error e) :
    e.isMalformedInput = true :=
  ((Drops.refl a).memberShape rfl).isMalformedInput failed

end Assembly

end FrameworkAudit
