import FrameworkAudit.Proofs.Cursor
import FrameworkAudit.Signature.Reader

/-!
Relations between reads that pass from their parts to the whole. The reads of signatures are put
together from a few steps, so a relation that passes on relates each of them, with any levels left,
as soon as it relates the steps and what is done where no level is left. A property of single reads
is such a relation too. One of them is that a read fails only because of damage in what it reads.
-/

set_option autoImplicit false

namespace FrameworkAudit

namespace Read

variable {α β : Type}

def typeFrom (type : Read TypeSig) (code : Nat) : Read TypeSig :=
  match PlainType.ofCode? code with
  | some plain => return .plain plain
  | none =>
    match Element.ofCode? code with
    | some element => elementOf type element
    | none => fail (.elementType code)

theorem type_succ (room : Nat) : type (room + 1) = word 1 >>= typeFrom (type room) := rfl

/-- A relation that holds between each step of a signature and itself, and between reads that are put
together from related reads. -/
structure Compositional (R : (α : Type) → Read α → Read α → Prop) : Prop where
  pure {α : Type} (value : α) : R α (pure value) (pure value)
  fail {α : Type} (defect : Defect) : R α (fail defect) (fail defect)
  peek : R UInt8 peek peek
  skip (count : Nat) : R Unit (skip count) (skip count)
  word : R Nat (word 1) (word 1)
  bytes (count : Nat) : R ByteArray (bytes count) (bytes count)
  /-- How many bytes a signed number took is not a step of its own. -/
  signed : R Nat compressedNat compressedNat → R Int compressedInt compressedInt
  bind {α β : Type} {read other : Read α} {k l : α → Read β} :
    R α read other → (∀ value, R β (k value) (l value)) → R β (read >>= k) (other >>= l)

namespace Compositional

variable {R : (α : Type) → Read α → Read α → Prop} {read other read' other' : Read α}
  {inner outer : Read TypeSig}

theorem ite {p : Prop} [Decidable p] (h : R α read other) (h' : R α read' other') :
    R α (if p then read else read') (if p then other else other') := by
  split <;> assumption

section

variable (hR : Compositional R)

include hR

theorem check {p : Prop} [Decidable p] {defect : Defect} {k l : Unit → Read α}
    (h : ∀ u, R α (k u) (l u)) :
    R α (if p then Read.fail defect >>= k else k ()) (if p then Read.fail defect >>= l else l ()) :=
  ite (hR.bind (hR.fail defect) h) (h ())

theorem compressedNat : R Nat compressedNat compressedNat := by
  refine hR.bind hR.word fun first => ?_
  refine ite (hR.pure _) (ite ?_ (ite ?_ (hR.fail _)))
  · exact hR.bind hR.word fun second => hR.pure _
  · exact hR.bind (hR.bytes 3) fun tail => hR.pure _

theorem compressedInt : R Int compressedInt compressedInt := hR.signed hR.compressedNat

theorem compressedToken : R Token compressedToken compressedToken := by
  refine hR.bind hR.compressedNat fun value => ?_
  split
  · exact hR.pure _
  · exact hR.fail _

theorem times (h : R α read other) (count : Nat) :
    R (List α) (Read.times count read) (Read.times count other) := by
  induction count with
  | zero => exact hR.pure []
  | succ count ih => exact hR.bind h fun first => hR.bind ih fun rest => hR.pure _

theorem arrayShape : R (Nat × List Dimension) arrayShape arrayShape := by
  refine hR.bind hR.compressedNat fun rank => hR.check fun _ => ?_
  refine hR.bind hR.compressedNat fun sizeCount => hR.check fun _ => ?_
  refine hR.bind (hR.times hR.compressedNat sizeCount) fun sizes => ?_
  refine hR.bind hR.compressedNat fun lowerCount => hR.check fun _ => ?_
  exact hR.bind (hR.times hR.compressedInt lowerCount) fun lowers => hR.pure _

section

variable (h : R TypeSig inner outer)

include h

theorem varargs (count : Nat) :
    R (List TypeSig) (Read.varargs inner count) (Read.varargs outer count) := by
  induction count with
  | zero => exact hR.pure []
  | succ count ih =>
    refine hR.bind hR.peek fun next => hR.check fun _ => ?_
    exact hR.bind h fun first => hR.bind ih fun rest => hR.pure _

theorem params (count : Nat) :
    R (List TypeSig × List TypeSig) (Read.params inner count) (Read.params outer count) := by
  induction count with
  | zero => exact hR.pure ([], [])
  | succ count ih =>
    refine hR.bind hR.peek fun next => ite ?_ ?_
    · refine hR.bind (hR.skip 1) fun _ => hR.bind h fun first => ?_
      exact hR.bind (hR.varargs h count) fun rest => hR.pure _
    · exact hR.bind h fun first => hR.bind ih fun rest => hR.pure _

theorem methodOf : R MethodSig (Read.methodOf inner) (Read.methodOf outer) := by
  refine hR.bind hR.word fun convention => ?_
  have rest (typeParams : Nat) := hR.bind hR.compressedNat fun count => hR.bind h fun result =>
    hR.bind (hR.params h count) fun parts =>
      hR.pure (⟨.ofByte convention typeParams, result, parts.1, parts.2⟩ : MethodSig)
  exact ite (hR.bind hR.compressedNat rest) (hR.bind (hR.pure 0) rest)

theorem genericOf : R TypeSig (Read.genericOf inner) (Read.genericOf outer) := by
  refine hR.bind hR.peek fun next => hR.check fun _ => hR.bind h fun base => ?_
  exact hR.bind hR.compressedNat fun count => hR.bind (hR.times h count) fun arguments => hR.pure _

theorem elementOf (element : Element) :
    R TypeSig (Read.elementOf inner element) (Read.elementOf outer element) := by
  cases element with
  | pointer | byRef | vector | pinned => exact hR.bind h fun target => hR.pure _
  | valueType | classType => exact hR.bind hR.compressedToken fun token => hR.pure _
  | typeParam | methodParam => exact hR.bind hR.compressedNat fun index => hR.pure _
  | array => exact hR.bind h fun target => hR.bind hR.arrayShape fun shape => hR.pure _
  | generic => exact hR.genericOf h
  | function => exact hR.bind (hR.methodOf h) fun m => hR.pure _
  | requiredModifier | optionalModifier =>
    exact hR.bind hR.compressedToken fun modifier => hR.bind h fun base => hR.pure _

theorem typeFrom (code : Nat) : R TypeSig (Read.typeFrom inner code) (Read.typeFrom outer code) := by
  unfold Read.typeFrom
  cases PlainType.ofCode? code with
  | some plain => exact hR.pure _
  | none =>
    cases Element.ofCode? code with
    | some element => exact hR.elementOf h element
    | none => exact hR.fail _

end

/-- Reads of types are related where they have as many levels left, if they are where there is none. -/
theorem type (limit : R TypeSig (Read.type 0) (Read.type 0)) (room : Nat) :
    R TypeSig (Read.type room) (Read.type room) := by
  induction room with
  | zero => exact limit
  | succ room ih => exact hR.bind hR.word (hR.typeFrom ih)

section

variable {m n : Nat} (h : R TypeSig (Read.type m) (Read.type n))

include h

theorem method : R MethodSig (Read.method m) (Read.method n) := hR.methodOf h

theorem field : R TypeSig (Read.field m) (Read.field n) :=
  hR.bind hR.word fun _ => hR.check fun _ => h

theorem member : R MemberSig (Read.member m) (Read.member n) := by
  refine hR.bind hR.peek fun next => ite ?_ ?_
  · exact hR.bind (hR.field h) fun type => hR.pure _
  · exact hR.bind (hR.method h) fun m => hR.pure _

end

end

end Compositional

def FailsByDamage (read : Read α) : Prop :=
  ∀ c e d, read c = .error e d → e.isMalformedInput = true

theorem failsByDamage_pure (value : α) : FailsByDamage (pure value) := fun _ _ _ failed => nomatch failed

theorem failsByDamage_throw {e : Error} (h : e.isMalformedInput = true) :
    FailsByDamage (throw e : Read α) := by
  intro c e d failed
  cases failed
  exact h

theorem FailsByDamage.bind {read : Read α} {k : α → Read β} (h : FailsByDamage read)
    (hk : ∀ value, FailsByDamage (k value)) : FailsByDamage (read >>= k) := by
  intro c e d failed
  rw [bind_apply] at failed
  split at failed
  · exact hk _ _ _ _ failed
  · rename_i first
    cases failed
    exact h _ _ _ first

theorem compositional_failsByDamage : Compositional fun _ read _ => FailsByDamage read where
  pure := failsByDamage_pure
  fail defect := failsByDamage_throw rfl
  peek c e d failed := by
    unfold peek at failed
    split at failed <;> cases failed
    rfl
  skip count c e d failed := by
    unfold skip at failed
    split at failed <;> cases failed
    rfl
  word c e d failed := (word_error failed).1 ▸ rfl
  bytes count c e d failed := by
    unfold bytes at failed
    split at failed <;> cases failed
    rfl
  signed number := by
    have position : FailsByDamage position := fun _ _ _ failed => nomatch failed
    refine position.bind fun start => number.bind fun value => position.bind fun stop => ?_
    split <;> exact failsByDamage_pure _
  bind := FailsByDamage.bind

theorem failsByDamage_type (room : Nat) : FailsByDamage (type room) :=
  compositional_failsByDamage.type (failsByDamage_throw rfl) room

end Read

variable {blob : ByteArray} {e : Error}

theorem SignatureReader.isMalformedInput_of_next {α : Type} {read : Nat → Read α}
    {r : SignatureReader} (h : ∀ room, (read room).FailsByDamage)
    (failed : (r.next read).1 = .error e) : e.isMalformedInput = true := by
  unfold next at failed
  split at failed
  · cases failed
  · rename_i stopped
    cases failed
    exact h _ _ _ _ stopped

theorem TypeSig.isMalformedInput_of_ofBlob (failed : ofBlob blob = .error e) :
    e.isMalformedInput = true :=
  SignatureReader.isMalformedInput_of_next Read.failsByDamage_type failed

theorem MemberSig.isMalformedInput_of_ofBlob (failed : ofBlob blob = .error e) :
    e.isMalformedInput = true :=
  SignatureReader.isMalformedInput_of_next
    (fun room => Read.compositional_failsByDamage.member (n := room)
      (Read.failsByDamage_type room)) failed

end FrameworkAudit
