import FrameworkAudit.Proofs.Signature.Loops

set_option autoImplicit false

namespace FrameworkAudit

variable {α β : Type}

namespace TypeSig

mutual

def nodes : TypeSig → Nat
  | plain _ | valueType _ | classType _ | typeParam _ | methodParam _ => 1
  | pointer inner | byRef inner | array inner _ _ | vector inner | modified _ _ inner
  | pinned inner => inner.nodes + 1
  | generic base arguments => base.nodes + nodesOf arguments + 1
  | function _ result params varargs => result.nodes + nodesOf params + nodesOf varargs + 1

def nodesOf : List TypeSig → Nat
  | [] => 0
  | sig :: rest => sig.nodes + nodesOf rest

end

end TypeSig

def MethodSig.nodes (m : MethodSig) : Nat :=
  m.result.nodes + TypeSig.nodesOf m.params + TypeSig.nodesOf m.varargs

def Signature.nodes : Signature → Nat
  | type sig | field sig | member (.field sig) => sig.nodes
  | method sig | member (.method sig) => sig.nodes

namespace Read

/-- A read whose values cost no more than the bytes that were passed over, `before` of them before it
began. -/
def Costs (before : Nat) (cost : α → Nat) (read : Read α) : Prop :=
  ∀ c a d, read c = .ok a d → ∃ passed, d = c.advance passed ∧ cost a ≤ before + passed

section

variable {read : Read α} {k : α → Read β} {m n : Nat} {cost lower : α → Nat} {whole : β → Nat} {a : α}

theorem costs_pure (h : cost a ≤ n) : Costs n cost (pure a) := by
  intro c b d ok
  obtain ⟨rfl, rfl⟩ := pure_ok_iff.1 ok
  exact ⟨0, rfl, h⟩

theorem costs_fail (defect : Defect) : Costs n cost (fail defect) := fun _ _ _ ok => nomatch ok

/-- What the first value costs is paid before the second read begins. -/
theorem Costs.bind (h : Costs n cost read) (hk : ∀ a, Costs (cost a) whole (k a)) :
    Costs n whole (read >>= k) := by
  intro c b d ok
  obtain ⟨a, _, first, second⟩ := bind_ok_iff.1 ok
  obtain ⟨front, rfl, paid⟩ := h c a _ first
  obtain ⟨back, rfl, last⟩ := hk a _ b d second
  exact ⟨front + back, Cursor.advance_advance _ _ _, by omega⟩

theorem Costs.on (h : Costs 0 cost read) (n : Nat) : Costs n (fun a => n + cost a) read := by
  intro c a d ok
  obtain ⟨passed, rfl, paid⟩ := h c a d ok
  exact ⟨passed, rfl, by dsimp only; omega⟩

theorem Costs.mono (h : Costs n cost read) (le : ∀ a, lower a ≤ cost a) : Costs n lower read := by
  intro c a d ok
  obtain ⟨passed, rfl, paid⟩ := h c a d ok
  exact ⟨passed, rfl, Nat.le_trans (le a) paid⟩

theorem Costs.ite {p : Prop} [Decidable p] {other : Read α} (h : Costs n cost read)
    (h' : Costs n cost other) : Costs n cost (if p then read else other) := by
  split <;> assumption

theorem Costs.check {p : Prop} [Decidable p] {defect : Defect} {k : Unit → Read α}
    (h : Costs n cost (k ())) : Costs n cost (if p then fail defect >>= k else k ()) :=
  .ite (costs_fail defect) h

theorem Costs.peek {k : UInt8 → Read α} (h : ∀ b, Costs n cost (k b)) :
    Costs n cost (peek >>= k) := by
  intro c a d ok
  obtain ⟨b, _, seen, rest⟩ := bind_ok_iff.1 ok
  rw [(peek_ok_iff.1 seen).2] at rest
  exact h b c a d rest

theorem Delimited.costs (h : Delimited m read) (n : Nat) : Costs n (fun _ => n + m) read := by
  intro c a d ok
  obtain ⟨passed, enough, -, rfl⟩ := h.advances ok
  exact ⟨passed, rfl, Nat.add_le_add_left enough n⟩

end

section

variable {type : Read TypeSig} (h : Costs 0 TypeSig.nodes type)

include h

theorem costs_times (n count : Nat) :
    Costs n (fun sigs => n + TypeSig.nodesOf sigs) (times count type) := by
  induction count generalizing n with
  | zero => exact costs_pure (Nat.le_refl n)
  | succ count ih =>
    refine (h.on n).bind fun first => (ih _).bind fun rest => costs_pure ?_
    simp only [TypeSig.nodesOf]
    omega

theorem costs_varargs (n count : Nat) :
    Costs n (fun sigs => n + TypeSig.nodesOf sigs) (varargs type count) := by
  induction count generalizing n with
  | zero => exact costs_pure (Nat.le_refl n)
  | succ count ih =>
    refine .peek fun next => .check ?_
    refine (h.on n).bind fun first => (ih _).bind fun rest => costs_pure ?_
    simp only [TypeSig.nodesOf]
    omega

theorem costs_params (n count : Nat) :
    Costs n (fun parts => n + (TypeSig.nodesOf parts.1 + TypeSig.nodesOf parts.2))
      (params type count) := by
  induction count generalizing n with
  | zero => exact costs_pure (Nat.le_refl n)
  | succ count ih =>
    refine .peek fun next => .ite ?_ ?_
    · refine ((delimited_skip 1).costs n).bind fun _ => (h.on _).bind fun first => ?_
      refine (costs_varargs h _ count).bind fun rest => costs_pure ?_
      simp only [TypeSig.nodesOf]
      omega
    · refine (h.on n).bind fun first => (ih _).bind fun parts => costs_pure ?_
      simp only [TypeSig.nodesOf]
      omega

theorem costs_methodOf (n : Nat) : Costs n (fun m => n + m.nodes) (methodOf type) := by
  refine (delimited_word.costs n).bind fun convention => ?_
  have rest (typeParams m : Nat) (le : n ≤ m) : Costs m (fun m => n + MethodSig.nodes m)
      (compressedNat >>= fun count => type >>= fun result => params type count >>= fun parts =>
        pure ⟨.ofByte convention typeParams, result, parts.1, parts.2⟩) := by
    refine (delimited_compressedNat.costs m).bind fun count => (h.on _).bind fun result => ?_
    refine (costs_params h _ count).bind fun parts => costs_pure ?_
    simp only [MethodSig.nodes]
    omega
  refine .ite ?_ ?_
  · exact (delimited_compressedNat.costs _).bind fun typeParams => rest typeParams _ (by omega)
  · exact rest 0 _ (by omega)

theorem costs_genericOf : Costs 1 TypeSig.nodes (genericOf type) := by
  refine .peek fun next => .check ?_
  refine (h.on 1).bind fun base => (delimited_compressedNat.costs _).bind fun count => ?_
  refine (costs_times h _ count).bind fun arguments => costs_pure ?_
  simp only [TypeSig.nodes]
  omega

theorem costs_elementOf (element : Element) : Costs 1 TypeSig.nodes (elementOf type element) := by
  cases element with
  | pointer | byRef | vector | pinned =>
    exact (h.on 1).bind fun target => costs_pure (by simp only [TypeSig.nodes]; omega)
  | valueType | classType =>
    exact (delimited_compressedToken.costs 1).bind fun token => costs_pure (by simp [TypeSig.nodes])
  | typeParam | methodParam =>
    exact (delimited_compressedNat.costs 1).bind fun index => costs_pure (by simp [TypeSig.nodes])
  | array =>
    refine (h.on 1).bind fun element => (delimited_arrayShape.costs _).bind fun shape => ?_
    exact costs_pure (by simp only [TypeSig.nodes]; omega)
  | generic => exact costs_genericOf h
  | function =>
    refine (costs_methodOf h 1).bind fun m => costs_pure ?_
    simp only [TypeSig.nodes, MethodSig.nodes]
    omega
  | requiredModifier | optionalModifier =>
    refine (delimited_compressedToken.costs 1).bind fun modifier => (h.on _).bind fun base => ?_
    exact costs_pure (by simp only [TypeSig.nodes]; omega)

theorem costs_typeFrom (code : Nat) : Costs 1 TypeSig.nodes (typeFrom type code) := by
  unfold typeFrom
  cases PlainType.ofCode? code with
  | some plain => exact costs_pure (by simp [TypeSig.nodes])
  | none =>
    cases Element.ofCode? code with
    | some element => exact costs_elementOf h element
    | none => exact costs_fail _

end

theorem costs_type (room : Nat) : Costs 0 TypeSig.nodes (type room) := by
  induction room with
  | zero => exact fun _ _ _ ok => nomatch ok
  | succ room ih => exact (delimited_word.costs 0).bind fun code => costs_typeFrom ih code

theorem costs_field (room : Nat) : Costs 0 TypeSig.nodes (field room) := by
  refine (delimited_word.costs 0).bind fun mark => .check ?_
  exact ((costs_type room).on _).mono fun sig => Nat.le_add_left _ _

theorem costs_form (form : SignatureForm) (room : Nat) :
    Costs 0 Signature.nodes (form.read room) := by
  have method := (costs_methodOf (costs_type room) 0)
  cases form with
  | type => exact (costs_type room).bind fun sig => costs_pure (Nat.le_refl _)
  | field => exact (costs_field room).bind fun sig => costs_pure (Nat.le_refl _)
  | method => exact method.bind fun m => costs_pure (by simp [Signature.nodes])
  | member =>
    have each : Costs 0 (fun sig => (Signature.member sig).nodes) (Read.member room) := by
      refine .peek fun next => .ite ?_ ?_
      · exact (costs_field room).bind fun sig => costs_pure (Nat.le_refl _)
      · exact method.bind fun m => costs_pure (by simp [Signature.nodes])
    exact each.bind fun sig => costs_pure (Nat.le_refl _)

end Read

end FrameworkAudit
