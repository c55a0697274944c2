import FrameworkAudit.Proofs.Text.Order

/-!
Keys of maps and sets. Their order, their equality and what they are hashed by are written down apart from
each other, part by part, and yet agree: a map finds under a key what was put in under an equal one, and
under no other.
-/

set_option autoImplicit false

namespace FrameworkAudit

open HashInput

/-- What maps and sets rely on: a total order that tells two keys apart exactly if they are not the same,
and one hash for all keys that are. -/
structure LawfulKey {κ : Type} [Ord κ] (same : κ → κ → Bool) (hashed : κ → List HashInput) : Prop where
  swap : ∀ a b : κ, (compare a b).swap = compare b a
  total : ∀ a b : κ, (compare a b).isLE ∨ (compare b a).isLE
  antisymm : ∀ a b : κ, (compare a b).isLE → (compare b a).isLE → same a b
  trans : ∀ a b c : κ, (compare a b).isLE → (compare b c).isLE → (compare a c).isLE
  eq_iff : ∀ a b : κ, compare a b = .eq ↔ same a b
  equivalence : Equivalence fun a b : κ => same a b = true
  hashed_eq : ∀ a b : κ, same a b → hashed a = hashed b

theorem LawfulKey.of_transOrd {κ : Type} [Ord κ] [Std.TransOrd κ] {same : κ → κ → Bool}
    {hashed : κ → List HashInput} (eq_iff : ∀ a b : κ, compare a b = .eq ↔ same a b)
    (hashed_eq : ∀ a b : κ, same a b → hashed a = hashed b) : LawfulKey same hashed where
  swap a b := Std.OrientedCmp.eq_swap.symm
  total a b := by
    rw [Std.OrientedOrd.eq_swap (a := b) (b := a)]
    cases compare a b <;> simp
  antisymm a b le ge := (eq_iff a b).1 (Std.OrientedCmp.isLE_antisymm le ge)
  trans a b c := Std.TransCmp.isLE_trans
  eq_iff := eq_iff
  equivalence :=
    { refl := fun a => (eq_iff a a).1 Std.ReflCmp.compare_self
      symm := fun {a b} h => (eq_iff b a).1 (Std.OrientedCmp.eq_symm ((eq_iff a b).2 h))
      trans := fun {a b c} h h' => (eq_iff a c).1 <|
        Std.TransCmp.eq_trans ((eq_iff a b).2 h) ((eq_iff b c).2 h') }
  hashed_eq := hashed_eq

namespace Identity

variable {a b : Identity}

theorem compare_nameKey (a b : Identity) : compare a.nameKey b.nameKey =
    compare (a.name.toUTF8.toList.map Text.lowerByte) (b.name.toUTF8.toList.map Text.lowerByte) := by
  rw [← Text.toList_toUTF8_fold, ← Text.toList_toUTF8_fold, Text.compare_toUTF8]
  rfl

theorem hashed_eq_of_same (h : a.same b = true) : a.hashed = b.hashed := by
  simp only [same, Bool.and_eq_true, Text.sameFolded_iff, beq_iff_eq] at h
  obtain ⟨⟨⟨name, version⟩, culture⟩, token⟩ := h
  have bytes : a.name.toUTF8.toList.map Text.lowerByte = b.name.toUTF8.toList.map Text.lowerByte := by
    rw [← Text.toList_toUTF8_fold, name, Text.toList_toUTF8_fold]
  have named (i : Identity) : (i.name.toUTF8.toList.map fun c => byte (Text.lowerByte c)) =
      (i.name.toUTF8.toList.map Text.lowerByte).map .byte := by
    rw [List.map_map]
    rfl
  rw [hashed, hashed, named, named, bytes, version, culture, token]

theorem lawfulKey : LawfulKey same hashed :=
  .of_transOrd (fun _ _ => compare_eq_iff_same) fun _ _ => hashed_eq_of_same

end Identity

namespace MemberInfo

theorem hashed_eq_of_sameAssembly {a b : Option Identity} (h : sameAssembly a b = true) :
    ofOption Identity.hashed a = ofOption Identity.hashed b := by
  match a, b, h with
  | none, none, _ => rfl
  | some a, some b, h => exact congrArg (.word 1 :: ·) (Identity.hashed_eq_of_same h)

theorem lawfulKey : LawfulKey same hashed := by
  refine .of_transOrd (fun _ _ => compare_eq_iff_same) fun a b h => ?_
  obtain ⟨id, assembly⟩ : a.id = b.id ∧ sameAssembly a.assembly? b.assembly? = true := by
    simpa [same] using h
  rw [hashed, hashed, id, hashed_eq_of_sameAssembly assembly]

end MemberInfo

theorem AssemblyInfo.lawfulKey : LawfulKey same hashed := by
  refine .of_transOrd (fun _ _ => compare_eq_iff_same) fun a b h => ?_
  obtain ⟨identity, framework⟩ : a.identity = b.identity ∧ a.framework = b.framework := by
    simpa [same] using h
  rw [hashed, hashed, identity, framework]

/-- The keys of maps and sets are lawful. Texts among their parts are ordered by their bytes, and names by
their bytes in lower case. -/
theorem keys_lawful :
    LawfulKey Identity.same Identity.hashed ∧ LawfulKey MemberInfo.same MemberInfo.hashed ∧
    LawfulKey AssemblyInfo.same AssemblyInfo.hashed ∧
    (∀ s t : String, compare s t = compare s.toUTF8.toList t.toUTF8.toList) ∧
    ∀ a b : Identity, compare a.nameKey b.nameKey =
      compare (a.name.toUTF8.toList.map Text.lowerByte)
        (b.name.toUTF8.toList.map Text.lowerByte) :=
  ⟨Identity.lawfulKey, MemberInfo.lawfulKey, AssemblyInfo.lawfulKey,
    fun s t => (Text.compare_toUTF8 s t).symm, Identity.compare_nameKey⟩

end FrameworkAudit
