import FrameworkAudit.Proofs.Resolution.Mention

/-!
Why a resolution ends. A call for a token counts one step for the token and one for the signature of a
specification, and refuses what stands too deep; within a signature the depth stays and the signature
gets smaller. So no sequence of calls goes on for ever, whatever the rows name.
-/

set_option autoImplicit false

namespace FrameworkAudit

def MemberSig.types : MemberSig → List TypeSig
  | method m => m.params ++ [m.result]
  | field type => [type]

inductive Call where
  | member (row : Nat)
  | token (depth : Nat) (t : Token)
  | signature (depth : Nat) (sig : TypeSig)
  | reference (depth row : Nat)
  | definition (depth row : Nat)

/-- The depth that is left comes first, then the size of a signature; a chain of rows starts anew, below
every token. -/
noncomputable def Call.rank : Call → Nat × Nat × Nat
  | .member _ => (maxChain + 2, 0, 0)
  | .token depth _ => (maxChain + 1 - depth, 0, 0)
  | .signature depth sig => (maxChain + 1 - depth, sizeOf sig + 1, 0)
  | .reference depth _ => (0, 0, maxChain + 1 - depth)
  | .definition depth _ => (0, 0, maxChain + 1 - depth)

namespace Assembly

inductive Calls (a : Assembly) : Call → Call → Prop
  | parent {row : Nat} {entry : MemberRef} (found : a.memberRef? row = some entry) :
      Calls a (.member row) (.token 0 entry.parent.token)
  | type {row : Nat} {entry : MemberRef} {member : MemberSig} {sig : TypeSig}
      (found : a.memberRef? row = some entry)
      (read : MemberSig.ofBlob entry.signature = .ok member) (h : sig ∈ member.types) :
      Calls a (.member row) (.signature 0 sig)
  | reference {depth : Nat} {t : Token} (within : depth ≤ maxChain)
      (table : t.table? = some .typeRef) : Calls a (.token depth t) (.reference 0 t.row)
  | definition {depth : Nat} {t : Token} (within : depth ≤ maxChain)
      (table : t.table? = some .typeDef) : Calls a (.token depth t) (.definition 0 t.row)
  | specification {depth : Nat} {t : Token} {sig : TypeSig} (within : depth ≤ maxChain)
      (table : t.table? = some .typeSpec) (found : a.specification? t.row = some sig) :
      Calls a (.token depth t) (.signature (depth + 1) sig)
  | part {depth : Nat} {sig part : TypeSig} (h : part ∈ sig.parts) :
      Calls a (.signature depth sig) (.signature depth part)
  | own {depth : Nat} {sig : TypeSig} {t : Token} (h : t ∈ sig.ownTokens) :
      Calls a (.signature depth sig) (.token (depth + 1) t)
  | scope {depth row : Nat} {entry : TypeRef} (within : depth ≤ maxChain)
      (found : a.typeRef? row = some entry) (table : entry.scope.table = .typeRef) :
      Calls a (.reference depth row) (.reference (depth + 1) entry.scope.row)
  | enclosing {depth row outer : Nat} (within : depth ≤ maxChain)
      (found : a.enclosing? row = some outer) :
      Calls a (.definition depth row) (.definition (depth + 1) outer)

variable {a : Assembly}

theorem shapeWith_of_calls (a : Assembly) {f g : Token → Except Error TypeShape} (depth : Nat)
    (sig : TypeSig)
    (parts : ∀ part, a.Calls (.signature depth sig) (.signature depth part) →
      part.shapeWith f = part.shapeWith g)
    (tokens : ∀ t, a.Calls (.signature depth sig) (.token (depth + 1) t) → f t = g t) :
    sig.shapeWith f = sig.shapeWith g :=
  TypeSig.shapeWith_of_parts (fun part h => parts part (.part h)) fun t h => tokens t (.own h)

def tokenCall (a : Assembly) (depth : Nat) (t : Token) : Except Error TypeShape :=
  if maxChain < depth then .error (.recursionLimit maxChain)
  else
    match t.table? with
    | some .typeRef => do return .named (← a.typeRefShape t.row)
    | some .typeDef => do return .named (← a.typeDefShape t.row)
    | some .typeSpec =>
      match a.typeSpec? t.row with
      | none => .error (.malformed (.rowUnavailable .typeSpec t.row))
      | some blob => do a.signatureShapeAt (depth + 1) (← TypeSig.ofBlob blob)
    | _ => .error (.malformed (.notAType t))

theorem tokenShapeAt_eq (a : Assembly) (depth : Nat) (t : Token) :
    a.tokenShapeAt depth t = a.tokenCall depth t := by
  unfold tokenShapeAt tokenCall
  split
  · rename_i deep
    have none : hopsAt depth = 0 := by
      unfold hopsAt maxChain at *
      omega
    rw [none]
    rfl
  · rename_i within
    have one : hopsAt depth = hopsAt (depth + 2) + 1 := by
      unfold hopsAt maxChain at *
      omega
    rw [one]
    rfl

theorem rank_lt_of_calls {caller callee : Call} (h : a.Calls caller callee) :
    Prod.Lex (· < ·) (Prod.Lex (· < ·) (· < ·)) callee.rank caller.rank := by
  cases h with
  | parent _ | type _ _ _ => exact .left _ _ (by omega)
  | reference within _ | definition within _ => exact .left _ _ (by omega)
  | specification within _ _ => exact .left _ _ (by omega)
  | part h => exact .right _ (.left _ _ (Nat.succ_lt_succ (TypeSig.sizeOf_lt_of_mem_parts h)))
  | @own depth sig t h =>
    -- Beyond the limit no depth is left to get less, but a token counts less than any signature.
    rcases Nat.lt_or_ge maxChain depth with deep | within
    · have none : maxChain + 1 - (depth + 1) = 0 := by omega
      have before : maxChain + 1 - depth = 0 := by omega
      rw [Call.rank, Call.rank, none, before]
      exact .right _ (.left _ _ (Nat.succ_pos _))
    · exact .left _ _ (by omega)
  | scope within _ _ | enclosing within _ => exact .right _ (.right _ (by omega))

theorem wellFounded_calls : WellFounded fun callee caller => a.Calls caller callee := by
  refine Subrelation.wf (fun h => rank_lt_of_calls h) (InvImage.wf Call.rank ?_)
  exact (Prod.lex Nat.lt_wfRel (Prod.lex Nat.lt_wfRel Nat.lt_wfRel)).wf

end Assembly

end FrameworkAudit
