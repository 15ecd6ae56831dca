import SwiftOutline.Proofs.Declaration.Transparent
import SwiftOutline.Proofs.Descriptor.Result
import SwiftOutline.Proofs.Grammar.Annotated

/-!
# `InFile` — types alone and in a file

A type that is given as text by itself and a type that a file has somewhere are read by the same rules,
but they stand below different nodes. The nodes around a type give it labels, and an optional among them
would make it optional. Around the type of a variable, of a type alias, of a parameter and of an
associated value no optional stands, and only a parameter has labels. So each of these has the descriptor
that the type has alone, a parameter with its two names besides.
-/

namespace SwiftOutline

open SwiftOutline.Tree

/-! ## Names -/

/-- The descriptor with two names, and with all that follows from the names. What occurs inside it keeps
its own. -/
def Descriptor.named (name secondName : String) : Descriptor → Descriptor
  | standard f parameters => standard (f.withNames name secondName) parameters
  | tuple f arguments => tuple (f.withNames name secondName) arguments
  | closure f inputs outputs traits => closure (f.withNames name secondName) inputs outputs traits

theorem Descriptor.labelled_unlabelled (d : Descriptor) (name secondName : String) :
    d.unlabelled.labelled ⟨name, secondName, false, none⟩ = d.unlabelled.named name secondName := by
  cases d <;> rfl

namespace Place

variable {g : Token → Token} {u : Tree} {A : List Tree}

/-- **A type that something around it gives two names** has the descriptor that it has alone, with these
names. -/
theorem decompose_named {name secondName : String} (hg : Token.Faithful g u.tokens)
    (hstops : hasOptionalAbove A = false)
    (hlabels : ((root u).moved g A).labels = ⟨name, secondName, false, none⟩) :
    ((root u).moved g A).decompose = (root u).decompose.named name secondName := by
  -- nothing but labels comes from above, and alone there are none
  have halone : (root u).decompose.unlabelled = (root u).decompose := unlabelled_of_labels rfl
  have hmoved : ((root u).moved g A).decompose.unlabelled = (root u).decompose.unlabelled :=
    unlabelled_moved hg hstops
  rw [← labelled_unlabelled, hmoved, hlabels, Descriptor.labelled_unlabelled, halone]

/-- A type that is read by itself has no names. -/
theorem decompose_sole (hu : u.isType = true) : (sole u).decompose = (root u).decompose := by
  have hsole : sole u = (root u).moved id [.node .typeRoot [u]] := (moved_id_root _ u).symm
  have halike : Alike id [.node .typeRoot [u]] (root u) := by
    constructor
    · exact hasOptionalAbove_of_stops rfl rfl
    · rw [← hsole]
      exact labels_typeRoot hu
  rw [hsole, decompose_moved (Token.faithful_id u.tokens) halike]

/-! ## Types below a node -/

/-- The type behind the tokens of a node. -/
theorem childType?_last (front : List Token) (hu : u.isType = true) (k : NodeKind) (A : List Tree) :
    childType? ⟨.node k (front.map .token ++ [u.relabel g]), A⟩ =
      some ((root u).moved g (.node k (front.map .token ++ [u.relabel g]) :: A)) := by
  have hfront : (front.map Tree.token).find? Tree.isType = none := by
    rw [List.find?_eq_none]
    intro t ht
    obtain ⟨t, -, rfl⟩ := List.mem_map.mp ht
    exact Bool.false_ne_true
  show Option.map _ ((front.map Tree.token ++ [u.relabel g]).find? Tree.isType) = _
  rw [List.find?_append, hfront, Option.none_or, List.find?_cons, isType_relabel, hu]
  rfl

/-- The names that a parameter gives its type. -/
theorem elementLabels_parameter {v : Tree} (hv : v.isType = true) :
    (parameterTree v).elementLabels = ⟨"_", "p", false, none⟩ := by
  cases v with
  | token t => cases hv
  | node k cs =>
    have hchild : (parameterTree (.node k cs)).child? .initializerClause = none := by
      cases k <;> first | rfl | cases hv
    rw [elementLabels, initializer?, hchild]
    rfl

/-- The type in a clause, which gives it no names. -/
theorem decompose_clause (front : List Token) (k : NodeKind) (hstops : k.stopsSearch = true)
    (hcarrier : k.isCarrier = false) (hg : Token.Faithful g u.tokens) (hu : u.isType = true) (A : List Tree) :
    (childType? ⟨.node k (front.map .token ++ [u.relabel g]), A⟩).map decompose =
      some (root u).decompose := by
  rw [childType?_last front hu, Option.map_some, decompose_moved hg (alike_root rfl hstops hcarrier A)]

/-- The type of a parameter, which gives it two names. -/
theorem decompose_parameter (hg : Token.Faithful g u.tokens) (hu : u.isType = true) (A : List Tree) :
    (childType? ⟨parameterTree (u.relabel g), A⟩).map decompose =
      some ((root u).decompose.named "_" "p") := by
  have htype := childType?_last (g := g)
    [⟨.identifier, "", "_", 7, false⟩, ⟨.identifier, " ", "p", 9, false⟩, ⟨.punct, "", ":", 10, false⟩]
    hu .functionParameter A
  refine (congrArg (Option.map decompose) htype).trans (congrArg some ?_)
  exact decompose_named hg (hasOptionalAbove_of_stops rfl rfl)
    (elementLabels_parameter ((isType_relabel g u).trans hu))

/-- The type of an associated value, which gives it no names. -/
theorem decompose_value (hg : Token.Faithful g u.tokens) (hu : u.isType = true) (A : List Tree) :
    (childType? ⟨.node .enumCaseParameter [u.relabel g], A⟩).map decompose = some (root u).decompose := by
  have htype := childType?_last (g := g) [] hu .enumCaseParameter A
  refine (congrArg (Option.map decompose) htype).trans (congrArg some ?_)
  refine decompose_moved hg ⟨hasOptionalAbove_of_stops rfl rfl, ?_⟩
  exact elementLabels_of_isType ((isType_relabel g u).trans hu) .enumCaseParameter

/-- The types in a list with one entry. -/
theorem entries_single {entry : Place} {d : Descriptor} (h : entry.childType?.map decompose = some d) :
    ([entry].filterMap childType?).map decompose = [d] := by
  obtain ⟨q, hq, rfl⟩ := Option.map_eq_some_iff.mp h
  rw [List.filterMap_cons_some hq]
  rfl

end Place

/-! ## Outlines -/

/-- The outline of a file with one declaration. -/
theorem outlineOf_file {source : String} {t : Tree} (h : parseSource source = .ok (.node .sourceFile [t])) :
    outlineOf source = .ok ((Outline.ofDeclarations ((Place.visited Place.collectPolicy
      ⟨t, [.node .sourceFile [t]]⟩).flatMap Place.declarations)).locate (some source)) := by
  rw [outlineOf, h]
  show Except.ok (Outline.locate (some source) (Place.collect (Place.root (.node .sourceFile [t])))) = _
  rw [Place.collect, Place.visited_sourceFile, List.flatMap_cons]
  rfl

namespace SoleType

open Place

variable {text : String} {u : Tree}

/-- The variable has the type's descriptor. -/
theorem outlineOf_variable (h : SoleType (nestingLimit - 1) text u) (hu : u.isType = true) : ∃ o,
    outlineOf ("let x: " ++ text) = .ok o ∧ o.bindings.map (·.declaredType) = [some (root u).decompose] := by
  obtain ⟨g, hg, hparse⟩ := h.parseSource_variable
  refine ⟨_, outlineOf_file hparse, ?_⟩
  rw [variableTree, visited_prune rfl]
  exact congrArg (fun d => [d]) (decompose_clause [⟨.punct, "", ":", 5, false⟩] .typeClause rfl rfl hg hu _)

/-- The type alias stands for the type's descriptor. -/
theorem outlineOf_typealias (h : SoleType (nestingLimit - 1) text u) (hu : u.isType = true) : ∃ o,
    outlineOf ("typealias X = " ++ text) = .ok o ∧ o.typealiases.map (·.aliased) = [(root u).decompose] := by
  obtain ⟨g, hg, hparse⟩ := h.parseSource_typealias
  refine ⟨_, outlineOf_file hparse, ?_⟩
  rw [typealiasTree, visited_prune rfl]
  exact congrArg (fun d => [d.getD (Descriptor.ofType "")])
    (decompose_clause [⟨.punct, " ", "=", 12, false⟩] .typeInitializer rfl rfl hg hu _)

/-- The parameter has the type's descriptor, and its own names. -/
theorem outlineOf_function (h : SoleType (nestingLimit - 1) text u) (hu : u.isType = true) : ∃ o,
    outlineOf ("func f(_ p: " ++ text ++ "\n)") = .ok o ∧
      o.functions.map (·.parameters) = [[(root u).decompose.named "_" "p"]] := by
  obtain ⟨g, closing, hg, hparse⟩ := h.parseSource_function
  refine ⟨_, outlineOf_file hparse, ?_⟩
  rw [functionTree, visited_prune rfl]
  exact congrArg (fun ds => [ds]) (entries_single (decompose_parameter hg hu _))

/-- The case has the type's descriptor as its value. -/
theorem outlineOf_enum (h : SoleType (nestingLimit - 2) text u) (hu : u.isType = true) : ∃ o,
    outlineOf ("enum E \x7b case c(" ++ text ++ "\n) \x7d") = .ok o ∧
      o.enumCases.map (·.associatedValues) = [[(root u).decompose]] := by
  obtain ⟨g, closing, brace, hg, hparse⟩ := h.parseSource_enum
  refine ⟨_, outlineOf_file hparse, ?_⟩
  -- the walk goes into the members, and enters the case but nothing below it
  rw [enumTree, caseTree, visited_descend rfl]
  simp only [List.flatMap_cons, List.flatMap_nil, visited_token, visited_prune (k := .name) rfl,
    visited_descend (k := .memberBlock) rfl, visited_prune (k := .enumCaseDecl) rfl]
  exact congrArg (fun ds => [ds]) (entries_single (decompose_value hg hu _))

end SoleType

/-- Files are accepted in which the text is the type of a variable, a type alias, a parameter and a value
of a case, and there it has this descriptor, the parameter with its two names. -/
structure Descriptor.InFiles (text : String) (d : Descriptor) : Prop where
  binding : ∃ o, outlineOf ("let x: " ++ text) = .ok o ∧ o.bindings.map (·.declaredType) = [some d]
  aliased : ∃ o, outlineOf ("typealias X = " ++ text) = .ok o ∧ o.typealiases.map (·.aliased) = [d]
  parameter : ∃ o, outlineOf ("func f(_ p: " ++ text ++ "\n)") = .ok o ∧
    o.functions.map (·.parameters) = [[d.named "_" "p"]]
  value : ∃ o, outlineOf ("enum E \x7b case c(" ++ text ++ "\n) \x7d") = .ok o ∧
    o.enumCases.map (·.associatedValues) = [[d]]

/-- **A type means the same alone and in a file.** Take any text that is a type, that has no ellipsis
behind it and that is nested at least two levels less deep than is allowed. In a file it has the
descriptor that it has alone. -/
theorem type_alone_and_in_file {text : String} {d : Descriptor} (hd : decomposeType text = .ok d)
    (hellipsis : endsInEllipsis text = false) (hnests : nestsWithin (nestingLimit - 2) text = true) :
    d.InFiles text := by
  obtain ⟨u, hsole, hu⟩ := exists_soleType (Nat.sub_le _ _) hnests hellipsis
  have hsame : d = (Place.root u).decompose := by
    rw [hsole.decomposeType hu (Nat.sub_le _ _), Place.decompose_sole hu] at hd
    exact (Except.ok.inj hd).symm
  -- only the members of an enumeration take a second level
  have hmore : SoleType (nestingLimit - 1) text u := hsole.mono (by decide)
  rw [hsame]
  exact ⟨hmore.outlineOf_variable hu, hmore.outlineOf_typealias hu, hmore.outlineOf_function hu,
    hsole.outlineOf_enum hu⟩

/-- An optional closure in parentheses, with labels, a specifier and an ellipsis inside and a comment
behind. -/
theorem type_alone_and_in_file_closure : ∃ text d,
    text = "\n((_ a: inout [B?], @C D...) async throws -> Result<E, F.G>)? // h" ∧
      decomposeType text = .ok d ∧ d.InFiles text ∧ d.variant = "closure" ∧ d.isOptional = true :=
  (exists_ok_of_test (by decide +kernel)).elim fun d h =>
    ⟨_, d, rfl, h.1, type_alone_and_in_file h.1 (by decide +kernel) (by decide +kernel), h.2⟩

end SwiftOutline
