import FrameworkAudit.Proofs.Result
import FrameworkAudit.Shape.Resolve

/-!
What a signature mentions. The shape of a signature is made of the shapes of the tokens that it
mentions: it has one only if they all have one, and it depends on nothing else. The varargs of a function
are not mentioned.
-/

set_option autoImplicit false

namespace FrameworkAudit

namespace TypeSig

def parts : TypeSig → List TypeSig
  | pointer s | byRef s | vector s | pinned s | array s _ _ | modified _ _ s => [s]
  | generic base arguments => base :: arguments
  | function _ result params _ => result :: params
  | _ => []

def ownTokens : TypeSig → List Token
  | valueType t | classType t | modified _ t _ => [t]
  | _ => []

inductive Mentions : TypeSig → Token → Prop
  | own {sig : TypeSig} {t : Token} (h : t ∈ sig.ownTokens) : Mentions sig t
  | inside {sig part : TypeSig} {t : Token} (h : part ∈ sig.parts) (inner : part.Mentions t) :
      Mentions sig t

variable {f g : Token → Except Error TypeShape} {sig part : TypeSig} {shape : TypeShape} {t : Token}

theorem sizeOf_lt_of_mem_parts (h : part ∈ sig.parts) : sizeOf part < sizeOf sig := by
  have inside := List.sizeOf_lt_of_mem h
  cases sig with
  | generic base arguments =>
    simp only [parts, List.cons.sizeOf_spec] at inside
    simp only [generic.sizeOf_spec]
    omega
  | function kind result params varargs =>
    simp only [parts, List.cons.sizeOf_spec] at inside
    simp only [function.sizeOf_spec]
    omega
  | pointer s | byRef s | vector s | pinned s | array s _ _ | modified _ _ s =>
    obtain rfl := List.mem_singleton.1 h
    simp only [pointer.sizeOf_spec, byRef.sizeOf_spec, vector.sizeOf_spec, pinned.sizeOf_spec,
      array.sizeOf_spec, modified.sizeOf_spec]
    omega
  | _ => cases h

theorem shapesWith_eq_mapM (f : Token → Except Error TypeShape) (sigs : List TypeSig) :
    shapesWith f sigs = sigs.mapM (shapeWith f) := by
  induction sigs with
  | nil => rfl
  | cons sig rest ih => rw [shapesWith, List.mapM_cons, ih]

theorem exists_shape_of_part (made : sig.shapeWith f = .ok shape) (h : part ∈ sig.parts) :
    ∃ inner, part.shapeWith f = .ok inner := by
  cases sig with
  | generic base arguments =>
    obtain ⟨baseShape, hbase, made⟩ := bind_eq_ok_iff.1 made
    rcases List.mem_cons.1 h with rfl | h
    · exact ⟨baseShape, hbase⟩
    · split at made
      · obtain ⟨shapes, hshapes, -⟩ := bind_eq_ok_iff.1 made
        rw [shapesWith_eq_mapM] at hshapes
        exact exists_of_mem_of_mapM hshapes h
      · cases made
  | function kind result params varargs =>
    obtain ⟨resultShape, hresult, made⟩ := bind_eq_ok_iff.1 made
    obtain ⟨shapes, hshapes, -⟩ := bind_eq_ok_iff.1 made
    rcases List.mem_cons.1 h with rfl | h
    · exact ⟨resultShape, hresult⟩
    · rw [shapesWith_eq_mapM] at hshapes
      exact exists_of_mem_of_mapM hshapes h
  | pinned target =>
    obtain rfl := List.mem_singleton.1 h
    exact ⟨shape, made⟩
  | pointer target | byRef target | vector target | array target _ _ | modified _ _ target =>
    obtain rfl := List.mem_singleton.1 h
    obtain ⟨inner, made, -⟩ := bind_eq_ok_iff.1 made
    exact ⟨inner, made⟩
  | _ => cases h

theorem exists_shape_of_own (made : sig.shapeWith f = .ok shape) (h : t ∈ sig.ownTokens) :
    ∃ inner, f t = .ok inner := by
  cases sig with
  | valueType own | classType own =>
    obtain rfl := List.mem_singleton.1 h
    exact ⟨shape, made⟩
  | modified required own base =>
    obtain rfl := List.mem_singleton.1 h
    obtain ⟨baseShape, -, made⟩ := bind_eq_ok_iff.1 made
    obtain ⟨inner, made, -⟩ := bind_eq_ok_iff.1 made
    exact ⟨inner, made⟩
  | _ => cases h

theorem exists_shape_of_mentions (made : sig.shapeWith f = .ok shape) (h : sig.Mentions t) :
    ∃ inner, f t = .ok inner := by
  induction h generalizing shape with
  | own h => exact exists_shape_of_own made h
  | inside h _ ih =>
    obtain ⟨inner, made⟩ := exists_shape_of_part made h
    exact ih made

theorem shapesWith_congr {sigs : List TypeSig} (h : ∀ s ∈ sigs, s.shapeWith f = s.shapeWith g) :
    shapesWith f sigs = shapesWith g sigs := by
  induction sigs with
  | nil => rfl
  | cons sig rest ih =>
    have others := ih fun s hs => h s (List.mem_cons_of_mem _ hs)
    simp only [shapesWith, h sig List.mem_cons_self, others]

/-- The shape of a signature is made from those of its parts and of its own tokens. -/
theorem shapeWith_of_parts (inside : ∀ part ∈ sig.parts, part.shapeWith f = part.shapeWith g)
    (own : ∀ t ∈ sig.ownTokens, f t = g t) : sig.shapeWith f = sig.shapeWith g := by
  cases sig with
  | plain _ | typeParam _ | methodParam _ => rfl
  | valueType t | classType t => exact own t (List.mem_singleton_self t)
  | pointer s | byRef s | vector s | pinned s | array s _ _ =>
    simp only [shapeWith, inside s (List.mem_singleton_self s)]
  | modified _ modifier base =>
    simp only [shapeWith, inside base (List.mem_singleton_self base),
      own modifier (List.mem_singleton_self modifier)]
  | generic base arguments =>
    have rest := shapesWith_congr fun s hs => inside s (List.mem_cons_of_mem _ hs)
    simp only [shapeWith, inside base List.mem_cons_self, rest]
  | function _ result params _ =>
    have rest := shapesWith_congr fun s hs => inside s (List.mem_cons_of_mem _ hs)
    simp only [shapeWith, inside result List.mem_cons_self, rest]

theorem shapeWith_congr (sig : TypeSig) (h : ∀ t, sig.Mentions t → f t = g t) :
    sig.shapeWith f = sig.shapeWith g := by
  refine shapeWith_of_parts (fun part inside => ?_) fun t own => h t (.own own)
  exact shapeWith_congr part fun t mentioned => h t (.inside inside mentioned)
termination_by sizeOf sig
decreasing_by exact sizeOf_lt_of_mem_parts inside

theorem shapeWith_mono (h : ∀ t inner, f t = .ok inner → g t = .ok inner)
    (made : sig.shapeWith f = .ok shape) : sig.shapeWith g = .ok shape := by
  rw [← made]
  refine (shapeWith_congr sig fun t mentioned => ?_).symm
  obtain ⟨inner, named⟩ := exists_shape_of_mentions made mentioned
  rw [named, h t inner named]

end TypeSig

namespace Assembly

variable {a : Assembly} {hops : Nat} {token : Token} {sig : TypeSig} {shape : TypeShape}

def specification? (a : Assembly) (row : Nat) : Option TypeSig :=
  (a.typeSpec? row).bind fun blob => (TypeSig.ofBlob blob).toOption

theorem tokenWithin_of_specification (table : token.table? = some .typeSpec)
    (found : a.specification? token.row = some sig) :
    a.tokenWithin (hops + 1) token = sig.shapeWith (a.tokenWithin hops) := by
  obtain ⟨blob, here, read⟩ := Option.bind_eq_some_iff.1 found
  simp only [tokenWithin, table, here, toOption_eq_some_iff.1 read]
  rfl

/-- A specification that has a shape can be read, and its signature has the shape one hop on. -/
theorem exists_specification (table : token.table? = some .typeSpec)
    (made : a.tokenWithin hops token = .ok shape) :
    ∃ fewer sig, hops = fewer + 1 ∧ a.specification? token.row = some sig ∧
      sig.shapeWith (a.tokenWithin fewer) = .ok shape := by
  cases hops with
  | zero => cases made
  | succ fewer =>
    simp only [tokenWithin, table] at made
    split at made
    · cases made
    · rename_i blob here
      obtain ⟨sig, read, made⟩ := bind_eq_ok_iff.1 made
      refine ⟨fewer, sig, rfl, ?_, made⟩
      rw [specification?, here, Option.bind_some, read, toOption_ok]

theorem tokenWithin_succ (made : a.tokenWithin hops token = .ok shape) :
    a.tokenWithin (hops + 1) token = .ok shape := by
  induction hops generalizing token shape with
  | zero => cases made
  | succ hops ih =>
    rw [tokenWithin] at made ⊢
    split at made
    · exact made
    · exact made
    · split at made
      · cases made
      · obtain ⟨sig, read, made⟩ := bind_eq_ok_iff.1 made
        rw [read]
        exact TypeSig.shapeWith_mono (fun t inner => ih) made
    · cases made

/-- What a token names stays the same where more hops are allowed. -/
theorem tokenWithin_mono {more : Nat} (h : hops ≤ more) (made : a.tokenWithin hops token = .ok shape) :
    a.tokenWithin more token = .ok shape := by
  induction h with
  | refl => exact made
  | step _ ih => exact tokenWithin_succ ih

end Assembly

end FrameworkAudit
