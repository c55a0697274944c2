import FrameworkAudit.Proofs.Renaming
import FrameworkAudit.Proofs.Resolution.Mention
import Mathlib.Logic.Relation

/-!
The rows that a row leads to. A specification refers to what its signature mentions, a reference to its
scope and a definition to the one around it. Whether a token resolves depends on the rows that are
reached from its own and on no other.
-/

set_option autoImplicit false

namespace FrameworkAudit

def Token.Names (t : Token) (index : CodedIndex) : Prop :=
  t.table? = some index.table ∧ t.row = index.row

theorem Token.Names.unique {t : Token} {index other : CodedIndex} (h : t.Names index)
    (h' : t.Names other) : index = other := by
  obtain ⟨table, row⟩ := h
  obtain ⟨table', row'⟩ := h'
  cases index
  cases other
  simp_all

namespace Assembly

open Relation

/-- The row that one index names refers to the row that another names. -/
inductive RefersTo (a : Assembly) : CodedIndex → CodedIndex → Prop
  | specification {row : Nat} {sig : TypeSig} {t : Token} {target : CodedIndex}
      (found : a.specification? row = some sig) (mentioned : sig.Mentions t) (names : t.Names target) :
      RefersTo a ⟨.typeSpec, row⟩ target
  | reference {row : Nat} {entry : TypeRef} (found : a.typeRef? row = some entry) :
      RefersTo a ⟨.typeRef, row⟩ entry.scope
  | definition {row outer : Nat} (found : a.enclosing? row = some outer) :
      RefersTo a ⟨.typeDef, row⟩ ⟨.typeDef, outer⟩

def SameRow (a b : Assembly) (index : CodedIndex) : Prop :=
  match index.table with
  | .typeRef => a.typeRef? index.row = b.typeRef? index.row
  | .typeDef => a.typeDef? index.row = b.typeDef? index.row ∧
      a.enclosing? index.row = b.enclosing? index.row
  | .typeSpec => a.typeSpec? index.row = b.typeSpec? index.row
  | .assemblyRef => a.assemblyRef? index.row = b.assemblyRef? index.row
  | _ => True

def SameFrom (a b : Assembly) (start : CodedIndex) : Prop :=
  ∀ index, ReflTransGen a.RefersTo start index → a.SameRow b index

variable {a b : Assembly} {start further : CodedIndex} {t : Token}

theorem SameFrom.here (same : a.SameFrom b start) : a.SameRow b start := same start .refl

theorem SameFrom.next (same : a.SameFrom b start) (step : a.RefersTo start further) :
    a.SameFrom b further := fun index reached => same index (.head step reached)

theorem refersTo_renamed (g : Identity → Identity) : (a.renamed g).RefersTo start further ↔
    a.RefersTo start further := by
  constructor <;> intro h
  · cases h with
    | specification found mentioned names => exact .specification found mentioned names
    | reference found => exact .reference found
    | definition found => exact .definition found
  · cases h with
    | specification found mentioned names => exact .specification found mentioned names
    | reference found => exact .reference found
    | definition found => exact .definition found

theorem SameRow.renamed (g : Identity → Identity) {index : CodedIndex} (same : a.SameRow b index) :
    (a.renamed g).SameRow (b.renamed g) index := by
  unfold SameRow at same ⊢
  split
  all_goals simp_all [assemblyRef?_renamed]

theorem SameFrom.renamed (g : Identity → Identity) (same : a.SameFrom b start) :
    (a.renamed g).SameFrom (b.renamed g) start := by
  intro index reached
  have before : ReflTransGen a.RefersTo start index :=
    reached.lift id fun _ _ => (refersTo_renamed g).1
  exact (same index before).renamed g

theorem SameFrom.typeRefChain (identity : a.identity = b.identity) {row : Nat}
    (same : a.SameFrom b ⟨.typeRef, row⟩) (room : Nat) :
    a.typeRefChain room row = b.typeRefChain room row := by
  induction room generalizing row with
  | zero => rfl
  | succ room ih =>
    have here : a.typeRef? row = b.typeRef? row := same.here
    rw [Assembly.typeRefChain, Assembly.typeRefChain, ← here, ← identity]
    cases found : a.typeRef? row with
    | none => rfl
    | some entry =>
      have scope : a.SameFrom b entry.scope := same.next (.reference found)
      dsimp only
      generalize entry.scope = index at scope ⊢
      rcases index with ⟨table, outer⟩
      cases table with
      | typeRef =>
        dsimp only
        rw [ih scope]
      | assemblyRef =>
        have reference : a.assemblyRef? outer = b.assemblyRef? outer := scope.here
        dsimp only
        rw [reference]
      | _ => rfl

theorem SameFrom.typeDefChain (identity : a.identity = b.identity) {row : Nat}
    (same : a.SameFrom b ⟨.typeDef, row⟩) (room : Nat) :
    a.typeDefChain room row = b.typeDefChain room row := by
  induction room generalizing row with
  | zero => rfl
  | succ room ih =>
    obtain ⟨here, around⟩ : a.typeDef? row = b.typeDef? row ∧ a.enclosing? row = b.enclosing? row :=
      same.here
    rw [Assembly.typeDefChain, Assembly.typeDefChain, ← here, ← around, ← identity]
    cases a.typeDef? row with
    | none => rfl
    | some entry =>
      cases found : a.enclosing? row with
      | none => rfl
      | some outer =>
        dsimp only
        rw [ih (same.next (.definition found))]

theorem SameFrom.tokenWithin (identity : a.identity = b.identity)
    (same : ∀ start, t.Names start → a.SameFrom b start) (hops : Nat) :
    a.tokenWithin hops t = b.tokenWithin hops t := by
  induction hops generalizing t with
  | zero => rfl
  | succ hops ih =>
    rw [Assembly.tokenWithin, Assembly.tokenWithin]
    split
    · rename_i table
      have type : a.typeRefShape t.row = b.typeRefShape t.row :=
        (same ⟨.typeRef, t.row⟩ ⟨table, rfl⟩).typeRefChain identity (maxChain + 1)
      rw [type]
    · rename_i table
      have type : a.typeDefShape t.row = b.typeDefShape t.row :=
        (same ⟨.typeDef, t.row⟩ ⟨table, rfl⟩).typeDefChain identity (maxChain + 1)
      rw [type]
    · rename_i table
      have ahead := same ⟨.typeSpec, t.row⟩ ⟨table, rfl⟩
      have here : a.typeSpec? t.row = b.typeSpec? t.row := ahead.here
      rw [← here]
      cases found : a.typeSpec? t.row with
      | none => rfl
      | some blob =>
        dsimp only
        refine bind_congr_of_ok fun sig read => ?_
        have there : a.specification? t.row = some sig := by
          rw [specification?, found, Option.bind_some, read, toOption_ok]
        refine TypeSig.shapeWith_congr sig fun inner mentioned => ih fun target names => ?_
        exact ahead.next (.specification there mentioned names)
    · rfl

theorem exists_shape_renamed (g : Identity → Identity) :
    (∃ shape, (a.renamed g).tokenShape t = .ok shape) ↔ ∃ shape, a.tokenShape t = .ok shape := by
  simp only [tokenShape, tokenShapeAt, tokenWithin_renamed]
  cases a.tokenWithin (hopsAt 0) t <;> simp

/-- Whether a token resolves is decided by the rows that are reached from its own. What the assemblies
are called does not matter: under one name they give one shape. -/
theorem SameFrom.exists_shape (same : a.SameFrom b start) (names : t.Names start) :
    (∃ shape, a.tokenShape t = .ok shape) ↔ ∃ shape, b.tokenShape t = .ok shape := by
  let one : Identity → Identity := fun _ => a.identity
  have ahead (other : CodedIndex) (named : t.Names other) :
      (a.renamed one).SameFrom (b.renamed one) other := by
    obtain rfl := named.unique names
    exact same.renamed one
  rw [← exists_shape_renamed one, ← exists_shape_renamed (a := b) one]
  have resolved : (a.renamed one).tokenShape t = (b.renamed one).tokenShape t :=
    SameFrom.tokenWithin (a := a.renamed one) (b := b.renamed one) rfl ahead _
  rw [resolved]

end Assembly

end FrameworkAudit
