import SwiftOutline.Proofs.Descriptor.Respaced

/-!
# `Meaning` — what a type means does not hang on its spacing

A descriptor repeats the text of its type, and in it the gaps between the tokens. Apart from these texts
it says what the type means: its variant, its parts, its labels, its attributes and the traits of
closures. Texts that differ only in their gaps mean the same, and fail to be types for the same reason.
-/

namespace SwiftOutline

open SwiftOutline.Tree Descriptor List

/-! ## Meanings -/

/-- The fields without texts of the source; of a default value only whether there is one. -/
def Fields.meaning (f : Fields) : Fields :=
  { f with typeText := "", bareType := "", defaultArgument := f.defaultArgument.map fun _ => "" }

/-- The traits without texts of the source. -/
def ClosureTraits.meaning (t : ClosureTraits) : ClosureTraits :=
  { t with inputType := "", outputType := "", declarationText := "" }

namespace Descriptor

mutual

/-- The descriptor without texts of the source, at every depth. -/
def meaning : Descriptor → Descriptor
  | standard f parameters => standard f.meaning (meanings parameters)
  | tuple f arguments => tuple f.meaning (meanings arguments)
  | closure f inputs outputs traits => closure f.meaning (meanings inputs) (meanings outputs) traits.meaning

/-- The descriptors without texts of the source. -/
def meanings : List Descriptor → List Descriptor
  | [] => []
  | d :: ds => d.meaning :: meanings ds

end

theorem meanings_eq_map (ds : List Descriptor) : meanings ds = ds.map meaning := by
  induction ds with
  | nil => rw [meanings, map_nil]
  | cons d ds ih => rw [meanings, ih, List.map_cons]

end Descriptor

/-- The error without its place. -/
def ParseError.unplaced : ParseError → ParseError
  | lexical e => lexical e
  | unexpectedToken expected found _ => unexpectedToken expected found 0
  | unexpectedEnd expected _ => unexpectedEnd expected 0
  | nestingTooDeep limit _ => nestingTooDeep limit 0

/-- What a text means as a type, or why it is none. -/
def meaningOf (source : String) : Except ParseError Descriptor :=
  match decomposeType source with
  | .ok d => .ok d.meaning
  | .error e => .error e.unplaced

/-! ## Places and what stands above them -/

namespace Place

/-- The change keeps what descriptors are read from, at the place and at all nodes above it. -/
def Legible (g : Token → Token) (p : Place) : Prop := ∀ t ∈ p.tree :: p.above, t.Legible g

section

variable {g : Token → Token} {p q : Place}

theorem Legible.tree (h : p.Legible g) : p.tree.Legible g := h p.tree mem_cons_self

theorem Legible.below (h : p.Legible g) (hq : p.Below q) : q.Legible g := by
  have hdown {r : Place} {c : Tree} (h : r.Legible g) (hc : c ∈ r.tree.children) : (r.down c).Legible g := by
    intro t ht
    rcases mem_cons.mp ht with rfl | ht
    · exact h.tree.part (Contains.self.child hc)
    · exact h t ht
  induction hq with
  | child hc => exact hdown h hc
  | step _ hc ih => exact hdown ih hc

theorem Legible.core (h : p.Legible g) : p.peel.core.Legible g := by
  fun_induction peel p with
  | case1 => exact h
  | case2 p q hq _ ih => exact ih (h.below (holdsBelow_of_unwrapped? hq).below)

/-! ## What a descriptor shows of the nodes above -/

theorem hasOptionalAbove_relabel {above : List Tree} (h : ∀ t ∈ above, t.Legible g) :
    hasOptionalAbove (above.map (relabel g)) = hasOptionalAbove above := by
  have hrest {t : Tree} {ts : List Tree} (h : ∀ u ∈ t :: ts, u.Legible g) : ∀ u ∈ ts, u.Legible g :=
    fun u hu => h u (mem_cons_of_mem t hu)
  fun_induction hasOptionalAbove above with
  | case1 => rfl
  | case2 t above hkind => exact hasOptionalAbove_eq_true ((kind?_relabel g t).trans hkind) rfl
  | case3 t above hkind => exact hasOptionalAbove_eq_true ((kind?_relabel g t).trans hkind) rfl
  | case4 t above hkind ih =>
    rw [List.map_cons, hasOptionalAbove_attributed ((kind?_relabel g t).trans hkind)]
    exact ih (hrest h)
  | case5 t hkind l tuple above ih =>
    -- the search goes on above a tuple, if the tuple only groups
    have htuple := transparent?_moved [] (p := ⟨tuple, above⟩) (hrest (hrest h) tuple mem_cons_self)
    rw [moved, append_nil] at htuple
    rw [List.map_cons, List.map_cons, List.map_cons,
      hasOptionalAbove_element ((kind?_relabel g t).trans hkind), isKind_relabel, htuple, Option.isSome_map,
      ih (hrest (hrest (hrest h)))]
  | case6 t above hkind hshort =>
    have hkind' := (kind?_relabel g t).trans hkind
    cases above with
    | nil => simp [hasOptionalAbove, hkind']
    | cons l above =>
      cases above with
      | nil => simp [hasOptionalAbove, hkind']
      | cons tuple above => exact (hshort l tuple above rfl).elim
  | case7 t above hoptional hunwrapped hattributed helement =>
    rw [List.map_cons, hasOptionalAbove.eq_def]
    simp only [kind?_relabel]

theorem parent?_moved (p : Place) : (p.moved g []).parent? = p.parent?.map (moved g []) := by
  unfold parent?
  rw [above_moved, append_nil]
  cases p.above with
  | nil => rfl
  | cons t above => simp [moved]

theorem carrier?_moved (p : Place) : (p.moved g []).carrier? = p.carrier?.map (moved g []) := by
  have hcarrier (q : Place) : (if q.kind?.any NodeKind.isCarrier then some (q.moved g []) else none) =
      (if q.kind?.any NodeKind.isCarrier then some q else none).map (moved g []) := by
    split
    · rfl
    · rfl
  simp only [carrier?, parent?_moved, Option.bind_eq_bind]
  cases p.parent? with
  | none => rfl
  | some parent =>
    simp only [Option.map_some, Option.bind_some, kind?_moved, parent?_moved]
    split
    · cases parent.parent? with
      | none => rfl
      | some q =>
        simp only [Option.map_some, Option.bind_some, kind?_moved]
        exact hcarrier q
    · exact hcarrier parent

theorem Legible.parent? (h : p.Legible g) (hq : p.parent? = some q) : q.Legible g := by
  unfold Place.parent? at hq
  split at hq
  · cases hq
  · next t above habove =>
    cases hq
    intro u hu
    rw [← habove] at hu
    exact h u (mem_cons_of_mem _ hu)

theorem Legible.carrier? (h : p.Legible g) (hq : p.carrier? = some q) : q.Legible g := by
  simp only [Place.carrier?, Option.bind_eq_bind, Option.bind_eq_some_iff] at hq
  obtain ⟨parent, hparent, hq⟩ := hq
  split at hq
  · -- past an optional
    obtain ⟨carrier, hcarrier, hq⟩ := Option.bind_eq_some_iff.mp hq
    split at hq
    · cases hq
      exact (h.parent? hparent).parent? hcarrier
    · cases hq
  · rw [Option.bind_some] at hq
    split at hq
    · cases hq
      exact h.parent? hparent
    · cases hq

theorem outline_labels_moved (h : p.Legible g) : (p.moved g []).labels.outline = p.labels.outline := by
  unfold labels
  rw [carrier?_moved]
  cases hcarrier : p.carrier? with
  | none => rfl
  | some carrier => exact outline_elementLabels_relabel (h.carrier? hcarrier).tree

/-! ## Descriptors -/

theorem meaning_descriptorFields_moved (h : p.Legible g) :
    (p.moved g []).descriptorFields.meaning = p.descriptorFields.meaning := by
  have hlabels := outline_labels_moved h
  simp only [Labels.outline, Labels.mk.injEq] at hlabels
  obtain ⟨hname, hsecond, hvariadic, hdefault⟩ := hlabels
  have hoptional : hasOptionalAbove (p.peel.core.moved g []).above = hasOptionalAbove p.peel.core.above := by
    rw [above_moved, append_nil]
    apply hasOptionalAbove_relabel
    intro t ht
    exact h.core t (mem_cons_of_mem _ ht)
  simp only [Fields.meaning, descriptorFields, Fields.withNames, Fields.ofType,
    peel_moved [] h.tree, hname, hsecond, hvariadic, hdefault, hoptional]

theorem meaning_closureTraits_moved (h : p.Legible g) {f f' : Fields} (hf : f'.meaning = f.meaning) :
    (closureTraits f' (p.moved g [])).meaning = (closureTraits f p).meaning := by
  have hattributes : f'.attributes = f.attributes := (congrArg Fields.attributes hf :)
  have hoptional : f'.isOptional = f.isOptional := (congrArg Fields.isOptional hf :)
  have htype : ∀ q ∈ p.childType?, q.tree.Legible g := fun q hq =>
      (h.below (holdsBelow_of_childType? hq).below).tree
  have heffects : ∀ q ∈ p.child? .effectSpecifiers, q.tree.Legible g :=
    fun q hq => (h.below (below_of_child? hq)).tree
  simp only [ClosureTraits.meaning, closureTraits, hattributes, hoptional, isVoidInput_moved [] h.tree,
    childType?_moved, isVoidOutput_moved [] htype, child?_moved, isAsync_moved [] heffects,
    isThrowing_moved [] heffects]

/-- A core that is changed has the same meaning, if the types on its sides do. -/
theorem meaning_describe_moved (h : p.Legible g) {f f' : Fields} (hf : f'.meaning = f.meaning)
    (hstep : ∀ q : Place, p.HoldsBelow q → (q.moved g []).decompose.meaning = q.decompose.meaning) :
    (describe f' (p.moved g [])).meaning = (describe f p).meaning := by
  have hsides {qs : List Place} (hqs : ∀ q ∈ qs, p.HoldsBelow q) :
      meanings ((qs.map (moved g [])).map decompose) = meanings (qs.map decompose) := by
    rw [meanings_eq_map, meanings_eq_map, map_map, map_map, map_map]
    exact map_congr_left fun q hq => hstep q (hqs q hq)
  have htype : ∀ q ∈ p.childType?, q.tree.Legible g := fun q hq =>
      (h.below (holdsBelow_of_childType? hq).below).tree
  unfold describe
  simp only [isVoidCore_moved [] h.tree, kind?_moved]
  split
  · simp only [meaning, hf]
  split
  · rw [meaning, meaning, hf, meaning_closureTraits_moved h hf, inputTypes_moved [] h.tree,
      childType?_moved, outputTypes_moved [] htype, hsides, hsides]
    · exact fun q hq => holdsBelow_of_functionOutputs hq
    · exact fun q hq => holdsBelow_of_inputTypes hq
  · rw [meaning, meaning, hf, elementTypes_moved, hsides]
    exact fun q hq => holdsBelow_of_elementTypes hq
  · rw [meaning, meaning, hf, isResult_moved [] h.tree, argumentTypes_moved]
    split
    · rw [hsides]
      exact fun q hq => holdsBelow_of_argumentTypes hq
    · rfl
  · simp only [meaning, hf]

/-- **The change leaves the meaning alone.** The induction is on the size of the annotation; the types on
    the sides of its core are smaller. -/
theorem meaning_moved (h : p.Legible g) : (p.moved g []).decompose.meaning = p.decompose.meaning := by
  induction hn : sizeOf p.tree using Nat.strongRecOn generalizing p with
  | ind n ih =>
    have hsize := sizeOf_core_peel p
    rw [decompose_eq_describe, decompose_eq_describe, peel_moved [] h.tree]
    apply meaning_describe_moved h.core (meaning_descriptorFields_moved h)
    intro q hq
    have hlt := hq.below.sizeOf_lt
    exact ih (sizeOf q.tree) (by omega) (h.core.below hq.below) rfl

end

end Place

/-! ## Texts -/

/-- The same fault at other tokens is the same error at another place. -/
theorem unplaced_ofFault {g : Token → Token} (hg : Token.Respaces g) (size size' : Nat) (e : Fault) :
    (ParseError.ofFault size' (e.relabel g)).unplaced = (ParseError.ofFault size e).unplaced := by
  cases e with
  | tooDeep found => rfl
  | expected what found =>
    cases found with
    | none => rfl
    | some t => simp only [Fault.relabel, Option.map_some, ParseError.ofFault, ParseError.unplaced, hg.text t]

/-- The meaning of a text from its tokens. -/
theorem meaningOf_of_tokenize {source : String} {ts : List Token} (h : tokenize source = .ok ts) :
    meaningOf source = match Rule.soleType ts with
      | .error e => .error (ParseError.ofFault source.utf8ByteSize e).unplaced
      | .ok (f, _) => .ok (((Place.root (.node .typeRoot f)).childType?.map fun p => p.decompose.meaning).getD
          (ofType "")) := by
  cases hok : Rule.soleType ts with
  | error e => simp only [meaningOf, decomposeType, parseType, parseWith, h, hok, Except.map]
  | ok out =>
    obtain ⟨f, rest⟩ := out
    simp only [meaningOf, decomposeType, parseType, parseWith, h, hok, Except.map]
    cases (Place.root (.node .typeRoot f)).childType? with
    | some p => rfl
    | none =>
      -- the text of the source is no part of the meaning
      simp [ofType, meaning, meanings, Fields.ofType, Fields.meaning]

/-- **Spacing and comments do not change what a type means.** Two texts with the same tokens, which
differ in the white space and the comments between them, are types with the same meaning or fail with the
same error. Only at few places the gaps have to agree: whether a parenthesis after `throws` or after the
name of an attribute, and a dot in such a name, touches what stands in front of it, and whether a gap
inside a spelling of void holds a comment. -/
theorem meaning_respaced {source source' : String} {ts us : List Token} (hts : tokenize source = .ok ts)
    (hus : tokenize source' = .ok us) (h : Respaced ts us)
    (hvoid : ∀ tree, parseType source = .ok tree → SameVoidGaps tree ts us) :
    meaningOf source' = meaningOf source := by
  obtain ⟨g, hg, rfl⟩ := exists_respacing (nodup_of_tokenize hts) h.gapless
  have hblind : Rule.soleType (ts.map g) = _ :=
    Rule.lawfulFor_soleType.commutes (show SpacingChange g ts from ⟨hg, h.spacingKept⟩)
  rw [meaningOf_of_tokenize hts, meaningOf_of_tokenize hus, hblind]
  cases hok : Rule.soleType ts with
  | error e =>
    -- both texts fail, and with the same fault
    rw [Rule.relabelOutcome_error]
    exact congrArg Except.error (unplaced_ofFault hg _ _ e)
  | ok out =>
    -- both texts are types, and the change leads from one tree to the other
    obtain ⟨f, rest⟩ := out
    have hparse : parseType source = .ok (.node .typeRoot f) := by
      simp only [parseType, parseWith, hts, hok]
    have hroot : (Place.root (.node .typeRoot f)).Legible g := by
      intro t ht
      cases mem_singleton.mp ht
      apply (hvoid _ hparse).legible hg hts hus
      intro u hu
      rw [← Rule.lawful_soleType.keeps hok]
      exact mem_append_left rest (tokens_node .typeRoot f ▸ hu)
    have hmoved : Place.root (.node .typeRoot (f.map (relabel g))) =
        (Place.root (.node .typeRoot f)).moved g [] := by
      rw [Place.moved_root, relabel_node]
      rfl
    simp only [Rule.relabelOutcome_ok]
    rw [hmoved, Place.childType?_moved, Option.map_map]
    congr 2
    apply Option.map_congr
    intro p hp
    exact Place.meaning_moved (hroot.below (Place.holdsBelow_of_childType? hp).below)

/-- Blanks and comments come and go, also between the parentheses of an empty input list, and blanks
inside a void output. The name of the attribute, its distance to the input list and the thrown type stay
as they are. -/
theorem meaning_respaced_comments : ∃ text, text = "@A.B ((/*a*/) -> C?) throws(E) -> ( )" ∧
    ∃ text', text' = "@A.B/*b*/\t( () ->C?)throws(E)->()" ∧ ∃ ts us,
    tokenize text = .ok ts ∧ tokenize text' = .ok us ∧ Respaced ts us ∧
    (∀ tree, parseType text = .ok tree → SameVoidGaps tree ts us) ∧
    meaningOf text' = meaningOf text ∧ (meaningOf text).isOk = true := by
  refine exists_eq_and fun text htext => exists_eq_and fun text' htext' => ?_
  obtain ⟨ts, hts, htest⟩ := exists_ok_of_test (x := tokenize text) (P := fun ts =>
    ((tokenize text').toOption.any fun us => (parseType text).toOption.any fun tree =>
      Respaced ts us ∧ SameVoidGaps tree ts us) = true) (by
    subst htext htext'
    decide +kernel)
  obtain ⟨us, hus, htest⟩ := (Option.any_eq_true _ _).mp htest
  have hus := eq_ok_of_toOption hus
  obtain ⟨tree, htree, hrespaced, hgaps⟩ := exists_ok_of_test htest
  have hvoid : ∀ t, parseType text = .ok t → SameVoidGaps t ts us := by
    intro t ht
    rw [htree] at ht
    cases ht
    exact hgaps
  refine ⟨ts, us, hts, hus, hrespaced, hvoid, meaning_respaced hts hus hrespaced hvoid, ?_⟩
  subst htext
  decide +kernel

/-- **Where spacing shows.** In each pair the same tokens stand with other gaps. A parenthesis takes a
thrown type or the arguments of an attribute only where it touches, and a dot goes on with the name of an
attribute only there, so one text of the pair is a type and the other is none. A comment keeps a return
type from being void. -/
theorem spacing_shows :
    (∀ pair ∈ [("() throws(E) -> A", "() throws (E) -> A"), ("@A (B) -> C", "@A(B) -> C"),
      ("@A.B C", "@A .B C")],
      (tokenize pair.1).toOption.map (List.map Token.gapless) =
          (tokenize pair.2).toOption.map (List.map Token.gapless) ∧
        (decomposeType pair.1).isOk = true ∧ (decomposeType pair.2).isOk = false) ∧
    (tokenize "() -> ()").toOption.map (List.map Token.gapless) =
      (tokenize "() -> (/*c*/)").toOption.map (List.map Token.gapless) ∧
    meaningOf "() -> ()" =
      .ok (.closure (Fields.ofType "") [] [] { isVoidInput := true, isVoidOutput := true }) ∧
    meaningOf "() -> (/*c*/)" = .ok (.closure (Fields.ofType "") [] [] { isVoidInput := true }) := by
  refine ⟨by decide +kernel, by decide +kernel, ?_, ?_⟩
  · exact eq_ok_of_toOption (by decide +kernel)
  · exact eq_ok_of_toOption (by decide +kernel)

end SwiftOutline
