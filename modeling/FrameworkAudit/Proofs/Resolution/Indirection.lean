import FrameworkAudit.Proofs.Resolution.Mention

/-!
Specifications in place of their tokens. A signature names a specification by a token, and it may as well
hold the signature of the specification itself: what has a shape keeps it, for the way to it only gets
shorter.
-/

set_option autoImplicit false

namespace FrameworkAudit

namespace Assembly

mutual

/-- Some of the class and value types of a signature that name specifications give way to the signatures
of these. -/
inductive Inlines (a : Assembly) : TypeSig → TypeSig → Prop
  | same (sig : TypeSig) : Inlines a sig sig
  | classType {t : Token} {sig : TypeSig} (table : t.table? = some .typeSpec)
      (found : a.specification? t.row = some sig) : Inlines a (.classType t) sig
  | valueType {t : Token} {sig : TypeSig} (table : t.table? = some .typeSpec)
      (found : a.specification? t.row = some sig) : Inlines a (.valueType t) sig
  | pointer {s u : TypeSig} (h : Inlines a s u) : Inlines a (.pointer s) (.pointer u)
  | byRef {s u : TypeSig} (h : Inlines a s u) : Inlines a (.byRef s) (.byRef u)
  | vector {s u : TypeSig} (h : Inlines a s u) : Inlines a (.vector s) (.vector u)
  | pinned {s u : TypeSig} (h : Inlines a s u) : Inlines a (.pinned s) (.pinned u)
  | array {s u : TypeSig} (rank : Nat) (dimensions : List Dimension) (h : Inlines a s u) :
      Inlines a (.array s rank dimensions) (.array u rank dimensions)
  | modified {s u : TypeSig} (required : Bool) (modifier : Token) (h : Inlines a s u) :
      Inlines a (.modified required modifier s) (.modified required modifier u)
  | generic {s u : TypeSig} {ss us : List TypeSig} (base : Inlines a s u)
      (arguments : InlinesAll a ss us) : Inlines a (.generic s ss) (.generic u us)
  | function {s u : TypeSig} {ss us vs ws : List TypeSig} (kind : CallKind) (result : Inlines a s u)
      (params : InlinesAll a ss us) (varargs : InlinesAll a vs ws) :
      Inlines a (.function kind s ss vs) (.function kind u us ws)

inductive InlinesAll (a : Assembly) : List TypeSig → List TypeSig → Prop
  | nil : InlinesAll a [] []
  | cons {s u : TypeSig} {ss us : List TypeSig} (first : Inlines a s u) (rest : InlinesAll a ss us) :
      InlinesAll a (s :: ss) (u :: us)

end

variable {a : Assembly} {hops : Nat}

theorem shapeWith_specification {t : Token} {sig : TypeSig} {shape : TypeShape}
    (table : t.table? = some .typeSpec) (found : a.specification? t.row = some sig)
    (made : a.tokenWithin hops t = .ok shape) : sig.shapeWith (a.tokenWithin hops) = .ok shape := by
  obtain ⟨fewer, read, rfl, here, made⟩ := exists_specification table made
  obtain rfl := Option.some.inj (found.symm.trans here)
  exact TypeSig.shapeWith_mono (fun t inner => tokenWithin_succ) made

mutual

theorem Inlines.shapeWith {s u : TypeSig} {shape : TypeShape} :
    Inlines a s u → s.shapeWith (a.tokenWithin hops) = .ok shape →
      u.shapeWith (a.tokenWithin hops) = .ok shape
  | .same _, made => made
  | .classType table found, made => shapeWith_specification table found made
  | .valueType table found, made => shapeWith_specification table found made
  | .pinned h, made => h.shapeWith made
  | .pointer h, made | .byRef h, made | .vector h, made | .array _ _ h, made => by
    obtain ⟨inner, hinner, made⟩ := bind_eq_ok_iff.1 made
    exact bind_eq_ok_iff.2 ⟨inner, h.shapeWith hinner, made⟩
  | .modified _ _ h, made => by
    obtain ⟨base, hbase, made⟩ := bind_eq_ok_iff.1 made
    exact bind_eq_ok_iff.2 ⟨base, h.shapeWith hbase, made⟩
  | .function _ h hs _, made => by
    obtain ⟨result, hresult, made⟩ := bind_eq_ok_iff.1 made
    obtain ⟨params, hparams, made⟩ := bind_eq_ok_iff.1 made
    refine bind_eq_ok_iff.2 ⟨result, h.shapeWith hresult, ?_⟩
    exact bind_eq_ok_iff.2 ⟨params, hs.shapesWith hparams, made⟩
  | .generic h hs, made => by
    obtain ⟨base, hbase, made⟩ := bind_eq_ok_iff.1 made
    refine bind_eq_ok_iff.2 ⟨base, h.shapeWith hbase, ?_⟩
    cases base with
    | named definition =>
      obtain ⟨arguments, harguments, made⟩ := bind_eq_ok_iff.1 made
      exact bind_eq_ok_iff.2 ⟨arguments, hs.shapesWith harguments, made⟩
    | _ => cases made

theorem InlinesAll.shapesWith {ss us : List TypeSig} {shapes : List TypeShape} :
    InlinesAll a ss us → TypeSig.shapesWith (a.tokenWithin hops) ss = .ok shapes →
      TypeSig.shapesWith (a.tokenWithin hops) us = .ok shapes
  | .nil, made => made
  | .cons h hs, made => by
    obtain ⟨first, hfirst, made⟩ := bind_eq_ok_iff.1 made
    obtain ⟨rest, hrest, made⟩ := bind_eq_ok_iff.1 made
    refine bind_eq_ok_iff.2 ⟨first, h.shapeWith hfirst, ?_⟩
    exact bind_eq_ok_iff.2 ⟨rest, hs.shapesWith hrest, made⟩

end

theorem hopsAt_antitone {less depth : Nat} (h : less ≤ depth) : hopsAt depth ≤ hopsAt less :=
  Nat.div_le_div_right (Nat.sub_le_sub_left h _)

/-- A signature that has a shape keeps it where specifications stand in place of their tokens, and where
it stands less deep. -/
theorem signatureShapeAt_inlined (a : Assembly) (depth : Nat) (s : TypeSig) (shape : TypeShape)
    (made : a.signatureShapeAt depth s = .ok shape) :
    (∀ u, a.Inlines s u → a.signatureShapeAt depth u = .ok shape) ∧
      ∀ less ≤ depth, a.signatureShapeAt less s = .ok shape := by
  refine ⟨fun u inlined => inlined.shapeWith made, fun less h => ?_⟩
  have hops : hopsAt (depth + 1) ≤ hopsAt (less + 1) := hopsAt_antitone (Nat.succ_le_succ h)
  exact TypeSig.shapeWith_mono (fun t inner => tokenWithin_mono hops) made

def specifying : Assembly where
  identity := .make "App" .zero none none
  framework := ""
  fileVersion := ""
  assemblyRefs := #[]
  typeRefs := #[some ⟨"System", "List`1", ⟨.module, 1⟩⟩]
  typeDefs := #[]
  typeSpecs := #[some ⟨#[0x12, 0x05]⟩, some ⟨#[0x08]⟩]
  memberRefs := #[]
  nesting := []

/-- The generic type and its argument may stand in place of their tokens at the greatest depth at which
these resolve. -/
theorem signatureShapeAt_inlined_list :
    let s : TypeSig := .generic (.classType (.ofParts .typeSpec 1)) [.valueType (.ofParts .typeSpec 2)]
    let u : TypeSig := .generic (.classType (.ofParts .typeRef 1)) [.plain .int32]
    ∃ shape, specifying.signatureShapeAt 61 s = .ok shape ∧ specifying.Inlines s u ∧
      specifying.signatureShapeAt 61 u = .ok shape ∧ specifying.signatureShapeAt 0 s = .ok shape := by
  intro s u
  have resolves : (specifying.signatureShapeAt 61 s).toOption.isSome = true := by decide +kernel
  obtain ⟨shape, resolved⟩ := Option.isSome_iff_exists.1 resolves
  have made := toOption_eq_some_iff.1 resolved
  have inlined : specifying.Inlines s u :=
    .generic (.classType rfl rfl) (.cons (.valueType rfl rfl) .nil)
  obtain ⟨inline, lower⟩ := signatureShapeAt_inlined specifying 61 s shape made
  exact ⟨shape, made, inlined, inline u inlined, lower 0 (by decide)⟩

end Assembly

end FrameworkAudit
