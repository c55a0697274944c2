import FrameworkAudit.Proofs.Resolution
import FrameworkAudit.Proofs.Resolution.Reach
import FrameworkAudit.Proofs.Resolution.Termination
import Mathlib.Data.Fintype.Pigeonhole
import Mathlib.Order.WellFounded

/-!
Specifications that lead into a cycle. Nothing keeps the signature of a specification from mentioning the
specification itself, or one that leads back to it. Such a row has no shape, and neither has what needs
it; the limit of a chain turns the resolution into an error like any other damage.
-/

set_option autoImplicit false

namespace FrameworkAudit

def Lost {α : Type} (x : Except Error α) : Prop := ∃ e, x = .error e ∧ e.isMalformedInput = true

def MemberRef.Mentions (entry : MemberRef) (index : CodedIndex) : Prop :=
  ∃ sig type t, MemberSig.ofBlob entry.signature = .ok sig ∧ type ∈ sig.types ∧ type.Mentions t ∧
    t.Names index

namespace Assembly

open Relation

variable {a : Assembly} {row other hops : Nat} {t : Token} {shape : TypeShape}

def Specifies (a : Assembly) (row other : Nat) : Prop :=
  a.RefersTo ⟨.typeSpec, row⟩ ⟨.typeSpec, other⟩

/-- Whether an infinite path of such references starts at a row. -/
def Endless (a : Assembly) (row : Nat) : Prop :=
  ∃ path : Nat → Nat, path 0 = row ∧ ∀ k, a.Specifies (path k) (path (k + 1))

theorem Specifies.exists_mention (h : a.Specifies row other) : ∃ sig t,
    a.specification? row = some sig ∧ sig.Mentions t ∧ t.Names ⟨.typeSpec, other⟩ := by
  cases h with
  | specification found mentioned names => exact ⟨_, _, found, mentioned, names⟩

theorem row_le_of_specifies (h : a.Specifies row other) : row ≤ a.typeSpecs.size := by
  obtain ⟨sig, -, found, -⟩ := h.exists_mention
  obtain ⟨blob, here, -⟩ := Option.bind_eq_some_iff.1 found
  cases row with
  | zero => exact Nat.zero_le _
  | succ row =>
    have present : a.typeSpecs[row]? = some (some blob) := Option.join_eq_some_iff.1 here
    exact (Array.getElem?_eq_some_iff.1 present).1

theorem Endless.next (endless : a.Endless row) : ∃ other, a.Specifies row other ∧ a.Endless other := by
  obtain ⟨path, rfl, steps⟩ := endless
  exact ⟨path 1, steps 0, fun k => path (k + 1), rfl, fun k => steps (k + 1)⟩

theorem endless_iff_not_acc : a.Endless row ↔ ¬ Acc (Function.swap a.Specifies) row :=
  (not_acc_iff_exists_descending_chain (r := Function.swap a.Specifies)).symm

theorem endless_of_cycle (reached : ReflTransGen a.Specifies row other)
    (cycle : TransGen a.Specifies other other) : a.Endless row := by
  refine endless_iff_not_acc.2 fun accessible => ?_
  induction accessible with
  | intro row _ ih =>
    obtain ⟨next, step, onward⟩ := TransGen.head'_iff.1 (TransGen.trans_right reached cycle)
    exact ih next step onward

/-- As there are finitely many rows, an infinite path comes back to one of them. -/
theorem cycle_of_endless (endless : a.Endless row) :
    ∃ other, ReflTransGen a.Specifies row other ∧ TransGen a.Specifies other other := by
  obtain ⟨path, rfl, steps⟩ := endless
  let place (k : Nat) : Fin (a.typeSpecs.size + 1) :=
    ⟨path k, Nat.lt_succ_of_le (row_le_of_specifies (steps k))⟩
  obtain ⟨i, j, apart, same⟩ := Finite.exists_ne_map_eq_of_infinite place
  have met : path i = path j := congrArg Fin.val same
  have before (k : Nat) : ReflTransGen a.Specifies (path 0) (path k) :=
    Nat.rel_of_forall_rel_succ_of_le _ (fun k => .single (steps k)) (Nat.zero_le k)
  have onward {k l : Nat} (h : k < l) : TransGen a.Specifies (path k) (path l) :=
    Nat.rel_of_forall_rel_succ_of_lt _ (fun k => .single (steps k)) h
  rcases Nat.lt_or_gt_of_ne apart with less | greater
  · have cycle := onward less
    rw [← met] at cycle
    exact ⟨path i, before i, cycle⟩
  · have cycle := onward greater
    rw [met] at cycle
    exact ⟨path j, before j, cycle⟩

/-- A token of such a row has no shape, for some token on the way would need one without a hop left. -/
theorem tokenWithin_ne_ok_of_endless (endless : a.Endless row) (names : t.Names ⟨.typeSpec, row⟩) :
    a.tokenWithin hops t ≠ .ok shape := by
  intro made
  -- Each reference of the path takes one hop.
  induction hops generalizing t row shape with
  | zero => cases made
  | succ hops ih =>
    obtain ⟨other, step, onward⟩ := endless.next
    obtain ⟨sig, inner, found, mentioned, named⟩ := step.exists_mention
    obtain ⟨table, rfl⟩ := names
    rw [tokenWithin_of_specification table found] at made
    obtain ⟨innerShape, innerMade⟩ := TypeSig.exists_shape_of_mentions made mentioned
    exact ih onward named innerMade

theorem lost_of_endless (endless : a.Endless row) (names : t.Names ⟨.typeSpec, row⟩) :
    Lost (a.tokenShape t) := by
  cases resolved : a.tokenShape t with
  | ok shape => exact absurd resolved (tokenWithin_ne_ok_of_endless endless names)
  | error e => exact ⟨e, rfl, ((Drops.refl a).tokenWithin _ _).isMalformedInput resolved⟩

theorem exists_shape_of_memberKind {sig : MemberSig} {kind : MemberKind} {type : TypeSig}
    (made : a.memberKind sig = .ok kind) (h : type ∈ sig.types) :
    ∃ shape, a.signatureShape type = .ok shape := by
  cases sig with
  | method m =>
    obtain ⟨method, made, -⟩ := bind_eq_ok_iff.1 made
    obtain ⟨params, hparams, made⟩ := bind_eq_ok_iff.1 made
    obtain ⟨result, hresult, -⟩ := bind_eq_ok_iff.1 made
    rcases List.mem_append.1 h with h | h
    · exact exists_of_mem_of_mapM hparams h
    · obtain rfl := List.mem_singleton.1 h
      exact ⟨result, hresult⟩
  | field declared =>
    obtain rfl := List.mem_singleton.1 h
    obtain ⟨shape, made, -⟩ := bind_eq_ok_iff.1 made
    exact ⟨shape, made⟩

variable {entry : MemberRef}

theorem lost_member (found : a.memberRef? row = some entry)
    (declares : declaresMembers entry.parent.table = true) (endless : a.Endless other)
    (needs : entry.parent.token.Names ⟨.typeSpec, other⟩ ∨ entry.Mentions ⟨.typeSpec, other⟩) :
    Lost (a.memberShape row) := by
  cases resolved : a.memberShape row with
  | error e => exact ⟨e, rfl, isMalformedInput_of_memberShape resolved⟩
  | ok member =>
    simp only [memberShape, found, declares, if_true] at resolved
    obtain ⟨parent, hparent, resolved⟩ := bind_eq_ok_iff.1 resolved
    obtain ⟨sig, read, resolved⟩ := bind_eq_ok_iff.1 resolved
    obtain ⟨kind, made, -⟩ := bind_eq_ok_iff.1 resolved
    rcases needs with names | ⟨read', type, t, here, declared, mentioned, names⟩
    · exact absurd hparent (tokenWithin_ne_ok_of_endless endless names)
    · obtain rfl := Except.ok.inj (read.symm.trans here)
      obtain ⟨shape, made⟩ := exists_shape_of_memberKind made declared
      obtain ⟨inner, made⟩ := TypeSig.exists_shape_of_mentions made mentioned
      exact absurd made (tokenWithin_ne_ok_of_endless endless names)

theorem declaresMembers_of_names (names : entry.parent.token.Names ⟨.typeSpec, other⟩) :
    declaresMembers entry.parent.table = true := by
  have table : some entry.parent.table = some .typeSpec := by
    rw [← names.1, CodedIndex.token, Token.table?_ofParts]
  rw [Option.some.inj table]
  rfl

/-- Every resolution ends: no call makes calls for ever, and what it gives it makes from what they give.
A specification with an infinite path of references, which is one from which a cycle is reached, is lost,
and with it every member that it declares or that a type declares and whose signature mentions it; a
member that no type declares is none, whatever its signature. The rows that are reached from a token's own
decide whether it resolves. -/
theorem resolution_of_cycles (a : Assembly) :
    ((WellFounded fun callee caller => a.Calls caller callee) ∧
      (∀ depth t, a.tokenShapeAt depth t = a.tokenCall depth t) ∧
      ∀ f g depth sig,
        (∀ part, a.Calls (.signature depth sig) (.signature depth part) →
          part.shapeWith f = part.shapeWith g) →
        (∀ t, a.Calls (.signature depth sig) (.token (depth + 1) t) → f t = g t) →
        sig.shapeWith f = sig.shapeWith g) ∧
    (∀ row, (a.Endless row ↔ ∃ other, ReflTransGen a.Specifies row other ∧
        TransGen a.Specifies other other) ∧
      (a.Endless row → (∀ t : Token, t.Names ⟨.typeSpec, row⟩ → Lost (a.tokenShape t)) ∧
        ∀ member entry, a.memberRef? member = some entry →
          (entry.parent.token.Names ⟨.typeSpec, row⟩ → Lost (a.memberShape member)) ∧
          (declaresMembers entry.parent.table = true → entry.Mentions ⟨.typeSpec, row⟩ →
            Lost (a.memberShape member)))) ∧
    (∀ member entry, a.memberRef? member = some entry →
      declaresMembers entry.parent.table = false → a.memberShape member = .ok none) ∧
    ∀ b t start, t.Names start → a.SameFrom b start →
      ((∃ shape, a.tokenShape t = .ok shape) ↔ ∃ shape, b.tokenShape t = .ok shape) := by
  have ends := wellFounded_calls (a := a)
  refine ⟨⟨ends, tokenShapeAt_eq a, fun f g => shapeWith_of_calls a⟩,
    fun row => ⟨⟨cycle_of_endless, ?_⟩, fun endless => ?_⟩,
    fun member entry found absent => ?_, fun b t start names same => same.exists_shape names⟩
  · rintro ⟨other, reached, cycle⟩
    exact endless_of_cycle reached cycle
  · refine ⟨fun t => lost_of_endless endless, fun member entry found => ⟨fun names => ?_, ?_⟩⟩
    · exact lost_member found (declaresMembers_of_names names) endless (.inl names)
    · exact fun declares mentioned => lost_member found declares endless (.inr mentioned)
  · simp [memberShape, found, absent]

/-- An assembly with a specification that mentions itself and a field of that type, in a type that is
declared elsewhere or in a module. -/
def selfMentioning (parent : CodedIndex) : Assembly where
  identity := .make "App" .zero none none
  framework := ""
  fileVersion := ""
  assemblyRefs := #[]
  typeRefs := #[some ⟨"", "Owner", ⟨.module, 1⟩⟩]
  typeDefs := #[]
  typeSpecs := #[some ⟨#[0x12, 0x06]⟩]
  memberRefs := #[some ⟨"field", parent, ⟨#[0x06, 0x12, 0x06]⟩⟩]
  nesting := []

theorem endless_selfMentioning (parent : CodedIndex) : (selfMentioning parent).Endless 1 :=
  ⟨fun _ => 1, rfl, fun _ => .specification rfl (.own (List.mem_singleton_self _)) ⟨rfl, rfl⟩⟩

theorem mentions_selfMentioning (parent : CodedIndex) :
    MemberRef.Mentions ⟨"field", parent, ⟨#[0x06, 0x12, 0x06]⟩⟩ ⟨.typeSpec, 1⟩ := by
  have read : MemberSig.ofBlob ⟨#[0x06, 0x12, 0x06]⟩ =
      .ok (.field (.classType (.ofParts .typeSpec 1))) := rfl
  exact ⟨_, _, _, read, List.mem_singleton_self _, .own (List.mem_singleton_self _), rfl, rfl⟩

theorem resolution_of_cycles_declared :
    let a := selfMentioning ⟨.typeRef, 1⟩
    let b := { a with identity := .make "Lib" .zero none none, memberRefs := #[] }
    a.Endless 1 ∧ Lost (a.tokenShape (.ofParts .typeSpec 1)) ∧ Lost (a.memberShape 1) ∧
      Lost ((selfMentioning ⟨.typeSpec, 1⟩).memberShape 1) ∧
      (selfMentioning ⟨.moduleRef, 1⟩).memberShape 1 = .ok none ∧
      ∃ shape, b.tokenShape (.ofParts .typeRef 1) = .ok shape := by
  intro a b
  have endless (parent : CodedIndex) := endless_selfMentioning parent
  obtain ⟨-, rows, -, resolves⟩ := resolution_of_cycles a
  obtain ⟨token, members⟩ := (rows 1).2 (endless _)
  obtain ⟨-, declaring, -, -⟩ := resolution_of_cycles (selfMentioning ⟨.typeSpec, 1⟩)
  obtain ⟨-, declared⟩ := (declaring 1).2 (endless _)
  obtain ⟨-, -, global, -⟩ := resolution_of_cycles (selfMentioning ⟨.moduleRef, 1⟩)
  have same : a.SameFrom b ⟨.typeRef, 1⟩ := fun index _ => by
    unfold SameRow
    split <;> simp [a, b, typeRef?, typeDef?, typeSpec?, assemblyRef?, enclosing?]
  refine ⟨endless _, token _ ⟨rfl, rfl⟩, ?_, ?_, global 1 _ rfl rfl, ?_⟩
  · exact (members 1 _ rfl).2 rfl (mentions_selfMentioning _)
  · exact (declared 1 _ rfl).1 ⟨rfl, rfl⟩
  · exact (resolves b _ ⟨.typeRef, 1⟩ ⟨rfl, rfl⟩ same).1 ⟨_, rfl⟩

/-- A global field of a module is not lost, though its signature mentions a specification that is. -/
theorem not_lost_of_module :
    let a := selfMentioning ⟨.moduleRef, 1⟩
    a.Endless 1 ∧ (∃ entry, a.memberRef? 1 = some entry ∧ entry.Mentions ⟨.typeSpec, 1⟩) ∧
      ¬ Lost (a.memberShape 1) := by
  intro a
  refine ⟨endless_selfMentioning _, ⟨_, rfl, mentions_selfMentioning _⟩, ?_⟩
  rintro ⟨e, failed, -⟩
  cases failed

end Assembly

end FrameworkAudit
