import FrameworkAudit.Proofs.Dependency.Contribution
import FrameworkAudit.Proofs.Renaming
import FrameworkAudit.Proofs.Text.Case

/-!
The case in which names of assemblies are written. What an assembly depends on is found by rules
that give equal answers for names that differ in case alone: whether an assembly is a framework,
whether it is a core library, whether it is the assembly itself, and whether two members are one. So
the search takes the same course in an assembly that writes the names otherwise.
-/

set_option autoImplicit false

namespace FrameworkAudit

namespace Identity

variable {i j : Identity}

def folded (i : Identity) : Identity := { i with name := i.nameKey }

theorem same_iff : i.same j = true ↔ i.folded = j.folded := by
  cases i
  cases j
  simp [same, folded, nameKey, Text.sameFolded, and_assoc]

theorem same_withName {name : String} (h : Text.sameFolded i.name name = true) :
    i.same { i with name } = true := by
  simp [same, h]

theorem same_folded (i j : Identity) : i.folded.same j.folded = i.same j := by
  simp [same, folded, nameKey, Text.sameFolded, Text.fold_fold]

end Identity

namespace MemberInfo

def renamed (g : Identity → Identity) (m : MemberInfo) : MemberInfo :=
  { m with assembly? := m.assembly?.map g }

theorem sameAssembly_iff {i? j? : Option Identity} :
    sameAssembly i? j? = true ↔ i?.map Identity.folded = j?.map Identity.folded := by
  cases i? <;> cases j? <;> simp [sameAssembly, Identity.same_iff]

end MemberInfo

def Mention.renamed (g : Identity → Identity) : Mention → Mention
  | type t => type (t.renamed g)
  | owner m definedIn => owner (m.renamed g) (g definedIn)
  | member m definedIn => member (m.renamed g) (g definedIn)

theorem Mention.info_renamed (g : Identity → Identity) (r : Mention) :
    (r.renamed g).info = r.info.renamed g := by
  cases r with
  | type t => rfl
  | owner m definedIn =>
    simp [renamed, info, MemberInfo.renamed, MemberShape.renamed, TypeShape.isPrimitive_renamed,
      DocId.ofTypeDefinition_renamed]
  | member m definedIn =>
    simp [renamed, info, MemberInfo.renamed, MemberShape.renamed, TypeShape.isPrimitive_renamed,
      DocId.ofTypeDefinition_renamed, ← DocId.ofMember_renamed g m]

/-- Assemblies that differ at most in the case in which they write the names of assemblies, their
own and those of their references. -/
structure Assembly.Recased (a b : Assembly) : Prop where
  identity : a.identity.same b.identity = true
  references : List.Forall₂ (fun i? j? => MemberInfo.sameAssembly i? j? = true)
    a.assemblyRefs.toList b.assemblyRefs.toList
  others : ∃ identity assemblyRefs, b = { a with identity, assemblyRefs }

theorem Assembly.Recased.renamed_eq {a b : Assembly} (h : a.Recased b) :
    a.renamed Identity.folded = b.renamed Identity.folded := by
  obtain ⟨identity, assemblyRefs, rfl⟩ := h.others
  have own : a.identity.folded = identity.folded := Identity.same_iff.1 h.identity
  have references : a.assemblyRefs.map (Option.map Identity.folded) =
      assemblyRefs.map (Option.map Identity.folded) := by
    rw [← Array.toList_inj, Array.toList_map, Array.toList_map, ← List.forall₂_eq_eq_eq,
      List.forall₂_map_left_iff, List.forall₂_map_right_iff]
    exact h.references.imp fun _ _ => MemberInfo.sameAssembly_iff.1
  simp only [renamed, own, references]

namespace Finder

structure Ignores (f : Finder) (g : Identity → Identity) : Prop where
  isCoreName (i : Identity) : f.isCoreName (g i).name = f.isCoreName i.name
  accepts (i : Identity) : f.filter.acceptsAssembly (g i) = f.filter.acceptsAssembly i
  same (i j : Identity) : (g i).same (g j) = i.same j

theorem ignores_folded [Host] (c : FilterConfig) (coreNames : List String) :
    Ignores ⟨c.filter, coreNames⟩ Identity.folded where
  isCoreName i := by
    simp [isCoreName, Text.sameFolded, Identity.folded, Identity.nameKey, Text.fold_fold]
  accepts i := by
    simp [FilterConfig.filter, FilterConfig.accepts, Text.sameFolded, Text.startsFolded,
      Identity.folded, Identity.nameKey, Text.fold_fold]
  same := Identity.same_folded

theorem typeRefMentions_renamed (g : Identity → Identity) (a : Assembly) (row : Nat) :
    typeRefMentions (a.renamed g) row = (typeRefMentions a row).map (Mention.renamed g) := by
  unfold typeRefMentions
  rw [Assembly.typeRefShape, Assembly.typeRefChain_renamed, ← Assembly.typeRefShape]
  cases a.typeRefShape row <;> rfl

namespace Ignores

variable {f : Finder} {g : Identity → Identity} (h : f.Ignores g) (a : Assembly)

include h

theorem coreLibrary? : f.coreLibrary? (a.renamed g) = (f.coreLibrary? a).map g := by
  have own : f.isCoreName (a.renamed g).identity.name = f.isCoreName a.identity.name :=
    h.isCoreName a.identity
  rw [Finder.coreLibrary?, Finder.coreLibrary?, own, Assembly.references_renamed, List.find?_map]
  simp only [Function.comp_def, h.isCoreName, h.accepts]
  split <;> rfl

theorem tracks (m : MemberInfo) : f.tracks (m.renamed g) = f.tracks m := by
  unfold Finder.tracks MemberInfo.renamed
  cases m.assembly? <;> simp [h.accepts]

theorem sameMember (m n : MemberInfo) : (m.renamed g).same (n.renamed g) = m.same n := by
  unfold MemberInfo.same MemberInfo.renamed
  cases m.assembly? <;> cases n.assembly? <;> simp [MemberInfo.sameAssembly, h.same]

theorem keepNew (kept : Array MemberInfo) (m : MemberInfo) :
    Finder.keepNew (kept.map (MemberInfo.renamed g)) (m.renamed g) =
      (Finder.keepNew kept m).map (MemberInfo.renamed g) := by
  have known : (kept.map (MemberInfo.renamed g)).any (m.renamed g).same = kept.any m.same := by
    rw [Array.any_map]
    simp only [Function.comp_def, h.sameMember]
  unfold Finder.keepNew
  rw [known]
  split
  · rfl
  · rw [Array.map_push]

theorem foldl_keepNew (members : List MemberInfo) (kept : Array MemberInfo) :
    (members.map (MemberInfo.renamed g)).foldl Finder.keepNew (kept.map (MemberInfo.renamed g)) =
      (members.foldl Finder.keepNew kept).map (MemberInfo.renamed g) := by
  induction members generalizing kept with
  | nil => rfl
  | cons m members ih => rw [List.map_cons, List.foldl_cons, List.foldl_cons, h.keepNew, ih]

theorem distinct (members : List MemberInfo) :
    distinct (members.map (MemberInfo.renamed g)) =
      (distinct members).map (MemberInfo.renamed g) := by
  have kept := h.foldl_keepNew members #[]
  rw [Array.map_empty] at kept
  exact (congrArg Array.toList kept).trans Array.toList_map

theorem memberMentions (m : MemberShape) (definedIn : Identity) :
    Finder.memberMentions (a.renamed g) (m.renamed g) (g definedIn) =
      (Finder.memberMentions a m definedIn).map (Mention.renamed g) := by
  have own : (g definedIn).same (a.renamed g).identity = definedIn.same a.identity :=
    h.same definedIn a.identity
  rw [Finder.memberMentions, Finder.memberMentions, own]
  split <;> rfl

theorem definingAssembly? (m : MemberShape) :
    f.definingAssembly? (a.renamed g) (m.renamed g) = (f.definingAssembly? a m).map g := by
  rw [Finder.definingAssembly?, Finder.definingAssembly?, h.coreLibrary?, MemberShape.renamed,
    TypeShape.isPrimitive_renamed, TypeShape.assembly?_renamed]
  split <;> rfl

theorem memberRefMentions (row : Nat) :
    Finder.memberRefMentions (f.coreLibrary? (a.renamed g)) (a.renamed g) row =
      (Finder.memberRefMentions (f.coreLibrary? a) a row).map (Mention.renamed g) := by
  unfold Finder.memberRefMentions
  rw [Assembly.memberShape_renamed]
  cases a.memberShape row with
  | error e => rfl
  | ok m? =>
    cases m? with
    | none => rfl
    | some m =>
      simp only [Option.map_some, Except.map_ok]
      rw [← Finder.definingAssembly?, h.definingAssembly?, ← Finder.definingAssembly?]
      cases f.definingAssembly? a m with
      | none => rfl
      | some definedIn => exact h.memberMentions a m definedIn

theorem mentions : f.mentions (a.renamed g) = (f.mentions a).map (Mention.renamed g) := by
  have types := funext (typeRefMentions_renamed g a)
  have members := funext (h.memberRefMentions a)
  rw [Finder.mentions, Finder.mentions, types, members, List.map_append, List.map_flatMap,
    List.map_flatMap]
  simp [Assembly.renamed]

theorem members [Host] : (f.dependenciesOf (a.renamed g)).dependencies.map Dependency.member =
    ((f.dependenciesOf a).dependencies.map Dependency.member).map (MemberInfo.renamed g) := by
  have infos : (f.mentions (a.renamed g)).map Mention.info =
      ((f.mentions a).map Mention.info).map (MemberInfo.renamed g) := by
    simp [h.mentions, Mention.info_renamed]
  have tracked : f.tracks ∘ MemberInfo.renamed g = f.tracks := funext h.tracks
  have members (b : Assembly) : (f.dependenciesOf b).dependencies.map Dependency.member =
      Finder.distinct (((f.mentions b).map Mention.info).filter f.tracks) := by
    simp [dependenciesOf, Function.comp_def]
  rw [members, members, infos, List.filter_map, tracked, h.distinct]

theorem lacks {row : Nat} : f.Lacks (a.renamed g) row ↔ f.Lacks a row := by
  rw [lacks_iff, lacks_iff, h.coreLibrary?, Option.map_eq_none_iff, Assembly.memberShape_renamed]
  cases a.memberShape row with
  | error e => simp
  | ok m? => cases m? <;> simp [MemberShape.renamed, TypeShape.isPrimitive_renamed]

theorem overflows {row : Nat} : f.Overflows (a.renamed g) row ↔ f.Overflows a row := by
  rw [Overflows, Overflows, Assembly.memberShape_renamed]
  cases a.memberShape row with
  | error e => simp
  | ok m? => cases m? <;> simp [h.definingAssembly?, MemberShape.isWritable_renamed]

end Ignores

section

variable [Host] {a b : Assembly} (h : a.Recased b) (c : FilterConfig) (coreNames : List String)

include h

theorem members_of_recased :
    List.Forall₂ (fun d e => d.member.id = e.member.id ∧
        MemberInfo.sameAssembly d.member.assembly? e.member.assembly? = true ∧
        d.member.type? = e.member.type? ∧ d.member.isPrimitive = e.member.isPrimitive)
      (dependenciesOf ⟨c.filter, coreNames⟩ a).dependencies
      (dependenciesOf ⟨c.filter, coreNames⟩ b).dependencies := by
  have ignores := ignores_folded c coreNames
  have members := (ignores.members a).symm.trans (h.renamed_eq ▸ ignores.members b)
  rw [List.map_map, List.map_map, ← List.forall₂_eq_eq_eq, List.forall₂_map_left_iff,
    List.forall₂_map_right_iff] at members
  refine members.imp fun d e same => ?_
  simp only [Function.comp_apply, MemberInfo.renamed, MemberInfo.mk.injEq] at same
  obtain ⟨id, type, assembly, primitive⟩ := same
  exact ⟨id, MemberInfo.sameAssembly_iff.2 assembly, type, primitive⟩

theorem lacks_of_recased (row : Nat) :
    Lacks ⟨c.filter, coreNames⟩ b row ↔ Lacks ⟨c.filter, coreNames⟩ a row := by
  have ignores := ignores_folded c coreNames
  rw [← ignores.lacks a, h.renamed_eq, ignores.lacks b]

theorem overflows_of_recased (row : Nat) :
    Overflows ⟨c.filter, coreNames⟩ b row ↔ Overflows ⟨c.filter, coreNames⟩ a row := by
  have ignores := ignores_folded c coreNames
  rw [← ignores.overflows a, h.renamed_eq, ignores.overflows b]

theorem reaches_of_recased (row : Nat) :
    Reaches ⟨c.filter, coreNames⟩ b row ↔ Reaches ⟨c.filter, coreNames⟩ a row := by
  simp only [Reaches, lacks_of_recased h, overflows_of_recased h]

end

/-- Whatever the configuration of the filter and the names of the core libraries, the case in which
an assembly writes its own name and those of its references does not matter: the core library is
missing in both spellings, or a member is met in both that cannot be written, or the same dependencies
are found in the same order, each defined by the same assembly, with the same declaring type and flag. -/
theorem find_recased [Host] (c : FilterConfig) (coreNames : List String) (a b : Assembly)
    (h : a.Recased b) :
    ((find ⟨c.filter, coreNames⟩ a false).value =
        .error (.missingCoreLibrary a.identity.display) ∧
      (find ⟨c.filter, coreNames⟩ b false).value =
        .error (.missingCoreLibrary b.identity.display)) ∨
    ((∃ row, Overflows ⟨c.filter, coreNames⟩ a row) ∧
      (find ⟨c.filter, coreNames⟩ a false).value = .error .arityOverflow ∧
      (find ⟨c.filter, coreNames⟩ b false).value = .error .arityOverflow) ∨
    ∃ x y, (find ⟨c.filter, coreNames⟩ a false).value = .ok x ∧
      (find ⟨c.filter, coreNames⟩ b false).value = .ok y ∧
      List.Forall₂ (fun d e => d.member.id = e.member.id ∧
          MemberInfo.sameAssembly d.member.assembly? e.member.assembly? = true ∧
          d.member.type? = e.member.type? ∧ d.member.isPrimitive = e.member.isPrimitive)
        x.dependencies y.dependencies := by
  have lacks := lacks_of_recased h c coreNames
  have overflows := overflows_of_recased h c coreNames
  have reaches := reaches_of_recased h c coreNames
  cases result : (find ⟨c.filter, coreNames⟩ a false).value with
  | error e =>
    obtain ⟨row, first, ⟨rfl, ends⟩ | ⟨rfl, ends⟩⟩ := find_eq_error_iff.1 result
    · refine .inl ⟨rfl, ?_⟩
      exact find_eq_error_iff.2 ⟨row, (reaches row).2 first, .inl ⟨rfl, (lacks row).2 ends⟩⟩
    · refine .inr (.inl ⟨⟨row, ends⟩, rfl, ?_⟩)
      exact find_eq_error_iff.2 ⟨row, (reaches row).2 first, .inr ⟨rfl, (overflows row).2 ends⟩⟩
  | ok x =>
    obtain ⟨goes, rfl⟩ := find_eq_ok_iff.1 result
    have gone (row : Nat) : ¬ Lacks ⟨c.filter, coreNames⟩ b row ∧
        ¬ Overflows ⟨c.filter, coreNames⟩ b row := by
      rw [lacks, overflows]
      exact goes row
    exact .inr (.inr ⟨_, _, rfl, find_eq_ok_iff.2 ⟨gone, rfl⟩, members_of_recased h c coreNames⟩)

def loudCaller : Assembly :=
  { integerCaller ⟨.typeSpec, 1⟩ with
    identity := { (integerCaller ⟨.typeSpec, 1⟩).identity with name := "APP" }
    assemblyRefs := #[some { coreReference with name := "MSCORLIB" }] }

theorem integerCaller_recased : (integerCaller ⟨.typeSpec, 1⟩).Recased loudCaller where
  identity := Identity.same_withName (by rw [Text.sameFolded_eq_toList]; rfl)
  references := .cons (Identity.same_withName (by rw [Text.sameFolded_eq_toList]; rfl)) .nil
  others := ⟨_, _, rfl⟩

/-- In capitals too the core library is found, and with it the type and the method. -/
theorem find_recased_loud : (integerCaller ⟨.typeSpec, 1⟩).Recased loudCaller ∧
    ∃ y, (standard.find loudCaller false).value = .ok y ∧
      y.dependencies.map (fun d => d.member.id) =
        ["T:System.Int32", "M:System.Int32.ToString"] ∧
      ∀ d ∈ y.dependencies,
        MemberInfo.sameAssembly (some coreReference) d.member.assembly? = true := by
  have quiet : (standard.find (integerCaller ⟨.typeSpec, 1⟩) false).value =
      .ok (integerCalls true) := find_integerCaller true
  rcases find_recased .standard defaultCoreNames _ loudCaller integerCaller_recased with
    ⟨missing, -⟩ | ⟨-, ended, -⟩ | ⟨x, y, hx, hy, same⟩
  · exact absurd (quiet.symm.trans missing) (by simp)
  · exact absurd (quiet.symm.trans ended) (by simp)
  · obtain rfl : integerCalls true = x := Except.ok.inj (quiet.symm.trans hx)
    obtain ⟨info, found⟩ := y
    rcases same with _ | ⟨⟨type, typeIn, -⟩, _ | ⟨⟨method, methodIn, -⟩, _ | _⟩⟩
    exact ⟨integerCaller_recased, _, hy, by simp [← type, ← method], by simp [typeIn, methodIn]⟩

def loudOverfullCaller : Assembly :=
  { overfullCaller with
    identity := { overfullCaller.identity with name := "APP" }
    assemblyRefs := #[some { coreReference with name := "MSCORLIB" }] }

theorem overfullCaller_recased : overfullCaller.Recased loudOverfullCaller where
  identity := Identity.same_withName (by rw [Text.sameFolded_eq_toList]; rfl)
  references := .cons (Identity.same_withName (by rw [Text.sameFolded_eq_toList]; rfl)) .nil
  others := ⟨_, _, rfl⟩

/-- In neither case is there a result or a core library that is missing. -/
theorem not_found_or_missing_of_recased : ¬ ∀ a b : Assembly, a.Recased b →
    ((standard.find a false).value = .error (.missingCoreLibrary a.identity.display) ∧
      (standard.find b false).value = .error (.missingCoreLibrary b.identity.display)) ∨
    ∃ x y, (standard.find a false).value = .ok x ∧ (standard.find b false).value = .ok y := by
  intro ends
  obtain ⟨missing, -⟩ | ⟨x, -, found, -⟩ := ends _ _ overfullCaller_recased
  · exact nomatch find_overfullCaller.symm.trans missing
  · exact nomatch find_overfullCaller.symm.trans found

end Finder

end FrameworkAudit
