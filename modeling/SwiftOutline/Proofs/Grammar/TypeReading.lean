import SwiftOutline.Proofs.Grammar.TypeParts

/-!
# `TypeReading` — reading back a type that is written out

The tokens of a type are read as its tree in front of any rest that cannot go on with the type. One level of
types is read over a rule for the types inside them. So each kind of type has one lemma over a rule that reads
inner types (`ReadsTypes`), and the levels come last.
-/

namespace SwiftOutline

open Rule Mark List

variable {ts rest : List Token}

/-! ## How types begin -/

theorem Opens.append {ps : List Chunk} (h : Opens ps) (qs : List Chunk) : Opens (ps ++ qs) := by
  obtain ⟨p, ps, rfl, hp⟩ := h
  exact ⟨p, ps ++ qs, rfl, hp⟩

/-- What stands in front of a type opens it. -/
theorem Front.opens (front : Front) {ps : List Chunk} (h : Opens ps) : Opens (front.chunks ++ ps) := by
  cases front with
  | bare => exact h
  | marked specifiers attributes marks =>
    cases specifiers with
    | nil =>
      cases attributes with
      | nil => cases marks
      | cons name names => exact ⟨_, _, rfl, rfl⟩
    | cons s ss => exact ⟨_, _, rfl, rfl⟩
  | someOrAny isAny => exact ⟨_, _, rfl, rfl⟩
  | suppressed => exact ⟨_, _, rfl, rfl⟩

theorem Closed.opens (c : Closed) : Opens c.chunks := by
  cases c with
  | plain front head suffixes =>
    refine front.opens (Opens.append ?_ _)
    cases head <;> exact ⟨_, _, rfl, rfl⟩
  | bracketed front allowed brackets suffixes =>
    refine front.opens (Opens.append ?_ _)
    cases brackets <;> exact ⟨_, _, rfl, rfl⟩

theorem TypeExpr.opens (t : TypeExpr) : Opens t.chunks := by
  cases t with
  | operand o =>
    cases o with
    | closed c => exact c.opens
    | function front inputs effects result => exact front.opens ⟨_, _, rfl, rfl⟩
  | both first others => exact first.opens.append _

theorem Element.opens (e : Element) : Opens e.chunks := by
  obtain ⟨labels, type, variadic⟩ := e
  cases labels with
  | none => exact type.opens.append _
  | one name => exact ⟨_, _, rfl, rfl⟩
  | two name secondName => exact ⟨_, _, rfl, rfl⟩

/-- Not even after words does a colon come next. -/
def calm : List Token → Bool
  | [] => true
  | t :: ts => !(t.text == ":") && (!t.isWord || calm ts)

theorem Word.calm_token (w : Word) (ts : List Token) : calm (w.token :: ts) = calm ts := by
  have hcolon : (w.token.text == ":") = false := beq_eq_false_iff_ne.mpr (w.text_ne (by decide))
  rw [calm, hcolon, w.isWord_token]
  rfl

theorem Mark.calm_token {m : Mark} (h : m ≠ .colon) (ts : List Token) : calm (m.token :: ts) = true := by
  cases m <;> first | rfl | exact absurd rfl h

theorem Begins.calm_eq {ms : List Mark} (h : Begins ms ts) (hcolon : colon ∉ ms) : calm ts = true := by
  rcases h with rfl | ⟨m, hm, us, rfl⟩
  · rfl
  · exact Mark.calm_token (fun heq => hcolon (heq ▸ hm)) us

/-- By cases on what stands in front of a type. -/
theorem Front.calm_eq (front : Front) (h : calm ts = true) : calm (tokensOf front.chunks ++ ts) = true := by
  cases front with
  | bare => exact h
  | marked specifiers attributes marks =>
    have hattributes : calm (tokensOf (attributes.map .atName) ++ ts) = true := by
      cases attributes with
      | nil => exact h
      | cons name names => rfl
    rw [Front.chunks, tokensOf_append, append_assoc]
    clear marks
    induction specifiers with
    | nil => exact hattributes
    | cons s ss ih => exact (s.word.calm_token _).trans ih
  | someOrAny isAny => exact (Word.calm_token _ ts).trans h
  | suppressed => rfl

theorem clauseOf_calm {α : Type} (arguments : List α) (inside : List Chunk)
    (h : calm ts = true) : calm (tokensOf (clauseOf arguments inside) ++ ts) = true := by
  cases arguments with
  | nil => exact h
  | cons t ts => rfl

theorem suffixes_calm (suffixes : List Suffix) (h : calm ts = true) :
    calm (tokensOf (chunksOfSuffixes suffixes) ++ ts) = true := by
  cases suffixes with
  | nil => exact h
  | cons s ss => cases s <;> rfl

theorem Closed.calm_eq (c : Closed) (h : calm ts = true) : calm (tokensOf c.chunks ++ ts) = true := by
  cases c with
  | plain front head suffixes =>
    have hsuffixes := suffixes_calm suffixes h
    rw [Closed.chunks, tokensOf_append, tokensOf_append, append_assoc, append_assoc]
    refine front.calm_eq ?_
    cases head with
    | name w arguments => exact (w.calm_token _).trans (clauseOf_calm arguments _ hsuffixes)
    | tuple elements => rfl
  | bracketed front allowed brackets suffixes =>
    rw [Closed.chunks, tokensOf_append, tokensOf_append, append_assoc, append_assoc]
    refine front.calm_eq ?_
    cases brackets <;> rfl

/-- A type is not taken for a label, unless a colon follows it. -/
theorem TypeExpr.calm_eq (t : TypeExpr) (h : calm ts = true) : calm (tokensOf t.chunks ++ ts) = true := by
  cases t with
  | operand o =>
    cases o with
    | closed c => exact c.calm_eq h
    | function front inputs effects result =>
      show calm (tokensOf (front.chunks ++ _) ++ ts) = true
      rw [tokensOf_append, append_assoc]
      exact front.calm_eq rfl
  | both first others =>
    rw [TypeExpr.chunks, tokensOf_append, append_assoc]
    exact first.calm_eq rfl

/-! ## Labels -/

theorem textAt_of_calm (h : calm ts = true) : (textAt 0 ts == ":") = false := by
  cases ts with
  | nil => rfl
  | cons t ts => exact Bool.not_eq_true' _ ▸ (Bool.and_eq_true_iff.mp h).1

theorem calm_tail {t : Token} (h : calm (t :: ts) = true) (hword : t.isWord = true) : calm ts = true := by
  rw [calm, hword] at h
  exact (Bool.and_eq_true_iff.mp h).2

/-- A calm type does not look like a label. -/
theorem seesLabel_of_calm (h : calm ts = true) : (seesWord ts && textAt 1 ts == ":") = false := by
  cases ts with
  | nil => rfl
  | cons t ts =>
    by_cases hword : t.isWord = true
    · have hcolon : (textAt 1 (t :: ts) == ":") = false := textAt_of_calm (calm_tail h hword)
      rw [hcolon]
      exact Bool.and_false _
    · have hnot : seesWord (t :: ts) = false := Bool.eq_false_iff.mpr hword
      rw [hnot]
      rfl

theorem seesLabels_of_calm (h : calm ts = true) :
    (seesWord ts && isWordAt 1 ts && textAt 2 ts == ":") = false := by
  cases ts with
  | nil => rfl
  | cons t ts =>
    by_cases hword : t.isWord = true
    · have hlabel := seesLabel_of_calm (calm_tail h hword)
      rw [Bool.and_assoc]
      exact (congrArg (seesWord (t :: ts) && ·) hlabel).trans (Bool.and_false _)
    · have hnot : seesWord (t :: ts) = false := Bool.eq_false_iff.mpr hword
      rw [hnot]
      rfl

/-- The labels are read, as a calm type is none. -/
theorem ElementLabels.reads (labels : ElementLabels) (h : calm ts = true) :
    elementLabels (tokensOf labels.chunks ++ ts) = .ok (labels.leaves, ts) := by
  unfold elementLabels
  cases labels with
  | none =>
    show either _ _ _ ts = _
    rw [either_of_no (seesLabel_of_calm h)]
    exact optional_of_no (seesLabels_of_calm h)
  | one name =>
    show either _ _ _ (name.token :: colon.token :: ts) = _
    have hword : seesWord (name.token :: colon.token :: ts) = true := name.isWord_token
    rw [either_of_yes (by rw [hword]; rfl)]
    rfl
  | two name secondName =>
    show either _ _ _ (name.token :: secondName.token :: colon.token :: ts) = _
    have hword : seesWord (name.token :: secondName.token :: colon.token :: ts) = true := name.isWord_token
    have hsecond : isWordAt 1 (name.token :: secondName.token :: colon.token :: ts) = true :=
      secondName.isWord_token
    have htext : (textAt 1 (name.token :: secondName.token :: colon.token :: ts) == ":") = false :=
      beq_eq_false_iff_ne.mpr (secondName.text_ne (by decide))
    rw [either_of_no (by rw [htext]; exact Bool.and_false _), Rule.optional,
      either_of_yes (by rw [hword, hsecond]; rfl)]
    rfl

/-! ## Types inside a type -/

/-- The rule reads every type of at most this nesting as its tree, in front of what may follow a type. -/
def ReadsTypes (n : Nat) (inner : Rule) : Prop :=
  ∀ t : TypeExpr, t.nesting ≤ n → ∀ rest, Begins closesType rest →
    inner (tokensOf t.chunks ++ rest) = .ok ([t.tree], rest)

section

variable {n : Nat} {inner : Rule} (hinner : ReadsTypes n inner)
include hinner

/-- By `entries_read`. -/
theorem arguments_read {arguments : List TypeExpr} (hn : nestingOfTypes arguments ≤ n) (rest : List Token) :
    genericArgumentClause inner (angleOpen.token ::
        (tokensOf (chunksOfTypes arguments) ++ angleClose.token :: rest)) =
      .ok ([.node .genericArgumentClause
        (angleOpen.leaf :: (treesOfTypes arguments ++ [angleClose.leaf]))], rest) := by
  have hnesting := nesting_le_of_mem_types hn
  have hclose : angleClose ∈ closesType := by decide
  rw [chunksOfTypes_eq, treesOfTypes_eq]
  refine node_ok (seq_ok (seq_ok (bump_cons _ _) ?_) (bump_cons _ _))
  refine entries_read TypeExpr.chunks _ hclose _ (fun t _ => t.opens) ?_ rest
  intro t ht after more hafter
  have htype := hinner t (hnesting t ht) _ (hafter.begins closesType (by decide) hclose)
  exact node_ok (seq_ok htype (hafter.reads (by decide) _))

/-- Generic arguments, if there are any. -/
theorem clause_reads {arguments : List TypeExpr} (hn : nestingOfTypes arguments ≤ n)
    (hrest : Begins followsHead rest) : optional (sees "<") (genericArgumentClause inner)
        (tokensOf (clauseOf arguments (chunksOfTypes arguments)) ++ rest) =
      .ok (clauseTrees arguments (treesOfTypes arguments), rest) := by
  cases arguments with
  | nil => exact optional_of_no (hrest.sees_eq (by decide))
  | cons t ts =>
    have hread := arguments_read hinner hn rest
    have hinput : tokensOf (clauseOf (t :: ts) (chunksOfTypes (t :: ts))) ++ rest = angleOpen.token ::
        (tokensOf (chunksOfTypes (t :: ts)) ++ angleClose.token :: rest) := by
      simp [clauseOf]
    rw [hinput, Rule.optional, either_of_yes rfl]
    exact hread

omit hinner in
/-- An ellipsis, and a comma or the end. -/
theorem elementRest_reads (variadic : Bool) {after : List Mark} {more : List Token}
    (hafter : Separated .parenClose after more) :
    elementRest (tokensOf ((ellipsisOf variadic).map .mark) ++ (tokensOf (after.map .mark) ++ more)) =
      .ok ((ellipsisOf variadic).map leaf ++ after.map leaf, more) := by
  have hbegins := hafter.begins [.comma, .parenClose] (by decide) (by decide)
  have hellipsis : optional (seesKind .ellipsis) bump
      (tokensOf ((ellipsisOf variadic).map .mark) ++ (tokensOf (after.map .mark) ++ more)) =
        .ok ((ellipsisOf variadic).map leaf, tokensOf (after.map .mark) ++ more) := by
    cases variadic with
    | false => exact optional_of_no (hbegins.seesKind_eq (by decide))
    | true => exact either_of_yes rfl
  have hinitializer : optional (sees "=") initializerClause (tokensOf (after.map .mark) ++ more) =
      .ok ([], tokensOf (after.map .mark) ++ more) := optional_of_no (hbegins.sees_eq (by decide))
  rw [← append_nil ((ellipsisOf variadic).map leaf)]
  exact seq_ok (seq_ok hellipsis hinitializer) (hafter.reads (by decide) _)

/-- Labels, the type and what follows it. -/
theorem Element.reads (e : Element) (hn : e.nesting ≤ n) {after : List Mark} {more : List Token}
    (hafter : Separated .parenClose after more) :
    tupleElement inner .tupleTypeElement (tokensOf e.chunks ++ (tokensOf (after.map .mark) ++ more)) =
      .ok ([e.tree after], more) := by
  obtain ⟨labels, type, variadic⟩ := e
  let rest := tokensOf ((ellipsisOf variadic).map .mark) ++ (tokensOf (after.map .mark) ++ more)
  -- a colon is not among what may follow the type, so that the type is not read as labels
  have hbegins : Begins [.comma, .parenClose, .ellipsis] rest := by
    cases variadic with
    | false => exact hafter.begins _ (by decide) (by decide)
    | true => exact .cons (by decide) _
  have hlabels := labels.reads (type.calm_eq (hbegins.calm_eq (by decide)))
  have htype := hinner type hn rest (hbegins.mono (by decide))
  have hrest := elementRest_reads variadic hafter
  have hinput : tokensOf (Element.mk labels type variadic).chunks ++ (tokensOf (after.map .mark) ++ more) =
      tokensOf labels.chunks ++ (tokensOf type.chunks ++ rest) := by
    simp [Element.chunks, rest]
  have htrees : labels.leaves ++ (type.tree :: ((ellipsisOf variadic).map leaf ++ after.map leaf)) =
      labels.leaves ++ [type.tree] ++ ((ellipsisOf variadic).map leaf ++ after.map leaf) := by
    rw [append_assoc, singleton_append]
  rw [hinput, Element.tree, htrees]
  exact node_ok (seq_ok (seq_ok hlabels htype) hrest)

/-- A list in parentheses. -/
theorem elements_read {es : List Element} (hn : nestingOfElements es ≤ n) (rest : List Token) :
    (bump ++ node .tupleTypeElementList (elements (tupleElement inner .tupleTypeElement)) ++ bump : Rule)
        (parenOpen.token :: (tokensOf (chunksOfElements es) ++ parenClose.token :: rest)) =
      .ok ([parenOpen.leaf, .node .tupleTypeElementList (treesOfElements es), parenClose.leaf], rest) := by
  have hnesting := nesting_le_of_mem_elements hn
  have hclose : parenClose ∈ closesType := by decide
  rw [chunksOfElements_eq, treesOfElements_eq]
  refine seq_ok (seq_ok (bump_cons _ _) (node_ok ?_)) (bump_cons _ _)
  refine entries_read Element.chunks _ hclose _ (fun e _ => e.opens) ?_ rest
  intro e he after more hafter
  exact e.reads hinner (hnesting e he) hafter

/-! ## One level of types -/

/-- By cases on the head, with its arguments or elements. -/
theorem Head.reads (head : Head) (hn : head.nesting ≤ n) (hrest : Begins followsHead rest) :
    primaryType inner (tokensOf head.chunks ++ rest) = .ok ([head.tree], rest) := by
  unfold primaryType
  cases head with
  | name w arguments =>
    show either _ _ _ (w.token :: (tokensOf (clauseOf arguments (chunksOfTypes arguments)) ++ rest)) = _
    rw [either_of_no (w.sees_token _ (by decide)), either_of_no (w.sees_token _ (by decide)), require,
      either_of_yes (w.seesWord_token _)]
    exact node_ok (seq_ok (bump_cons _ _) (clause_reads hinner hn hrest))
  | tuple es =>
    have hread := elements_read hinner hn rest
    have hinput : tokensOf (Head.tuple es).chunks ++ rest = parenOpen.token ::
        (tokensOf (chunksOfElements es) ++ parenClose.token :: rest) := by
      simp [Head.chunks]
    rw [hinput, either_of_yes rfl, parenType, closing_ok hread (by rw [hrest.seesFunctionArrow_eq]; rfl),
      hrest.seesFunctionArrow_eq]
    rfl

/-- An array or a dictionary. -/
theorem Brackets.reads (brackets : Brackets) (hn : brackets.nesting ≤ n) (rest : List Token) :
    primaryType inner (tokensOf brackets.chunks ++ rest) = .ok ([brackets.tree], rest) := by
  unfold primaryType
  cases brackets with
  | array element =>
    have hinput : tokensOf (Brackets.array element).chunks ++ rest = bracketOpen.token ::
        (tokensOf element.chunks ++ bracketClose.token :: rest) := by
      simp [Brackets.chunks]
    have hread := hinner element hn (bracketClose.token :: rest) (.cons (by decide) rest)
    rw [hinput, either_of_no rfl, either_of_yes rfl]
    exact closing_ok (seq_ok (bump_cons _ _) hread) rfl
  | dictionary key value =>
    rw [Brackets.nesting, Nat.max_le] at hn
    have hinput : tokensOf (Brackets.dictionary key value).chunks ++ rest = bracketOpen.token ::
        (tokensOf key.chunks ++ colon.token ::
          (tokensOf value.chunks ++ bracketClose.token :: rest)) := by
      simp [Brackets.chunks]
    have hkey := hinner key hn.1 (colon.token :: (tokensOf value.chunks ++ bracketClose.token :: rest))
      (.cons (by decide) _)
    have hvalue := hinner value hn.2 (bracketClose.token :: rest) (.cons (by decide) rest)
    have hclose : expect "]" (bracketClose.token :: rest) = .ok ([bracketClose.leaf], rest) := rfl
    rw [hinput, either_of_no rfl, either_of_yes rfl]
    exact closing_ok (seq_ok (bump_cons _ _) hkey) (seq_ok (seq_ok (bump_cons _ _) hvalue) hclose)

omit hinner in
theorem suffixes_begin (suffixes : List Suffix) (hrest : Begins closesOperand rest) :
    Begins followsHead (tokensOf (chunksOfSuffixes suffixes) ++ rest) := by
  cases suffixes with
  | nil => exact hrest.mono (by decide)
  | cons s ss => cases s <;> exact .cons (by decide) _

omit hinner in
theorem postfixForm_eq_none (hrest : Begins closesOperand rest) : postfixForm inner rest = none := by
  unfold postfixForm
  rw [hrest.sees_eq (by decide), hrest.sees_eq (by decide), hrest.sees_eq (by decide)]
  rfl

/-- A suffix asks for its node and is read into it. -/
theorem Suffix.reads (s : Suffix) (hn : s.nesting ≤ n) {more : List Token} (hmore : Begins followsHead more) :
    ∃ kind p g, postfixForm inner (tokensOf s.chunks ++ more) = some (kind, p) ∧
      p (tokensOf s.chunks ++ more) = .ok (g, more) ∧ ∀ u, s.tree u = .node kind (u :: g) := by
  cases s with
  | optional => exact ⟨_, _, _, rfl, rfl, fun _ => rfl⟩
  | unwrapped => exact ⟨_, _, _, rfl, rfl, fun _ => rfl⟩
  | metatype isProtocol =>
    cases isProtocol <;> exact ⟨_, _, _, rfl, rfl, fun _ => rfl⟩
  | member name arguments =>
    have hform : postfixForm inner (dot.token :: name.word.token ::
        (tokensOf (clauseOf arguments (chunksOfTypes arguments)) ++ more)) =
          some (.memberType, bumps 2 ++ Rule.optional (sees "<") (genericArgumentClause inner)) := by
      unfold postfixForm
      have hword : isWordAt 1 (dot.token :: name.word.token ::
          (tokensOf (clauseOf arguments (chunksOfTypes arguments)) ++ more)) = true := name.word.isWord_token
      have hunlisted : ["Type", "Protocol"].contains (textAt 1 (dot.token :: name.word.token ::
          (tokensOf (clauseOf arguments (chunksOfTypes arguments)) ++ more))) = false := name.unlisted
      rw [dot.sees_token _ (by decide), dot.sees_token _ (by decide), hword, hunlisted]
      rfl
    exact ⟨_, _, _, hform, seq_ok rfl (clause_reads hinner hn hmore), fun _ => rfl⟩

/-- **Suffixes are read one after another**, each into a node around all that came before it. -/
theorem suffixes_read {suffixes : List Suffix} (hn : nestingOfSuffixes suffixes ≤ n)
    (hrest : Begins closesOperand rest) (u : Tree) :
    wrappings (postfixForm inner) [u] (tokensOf (chunksOfSuffixes suffixes) ++ rest) =
      .ok ([treeOfSuffixes u suffixes], rest) := by
  induction suffixes generalizing u with
  | nil => exact wrappings_of_none (postfixForm_eq_none hrest) [u]
  | cons s ss ih =>
    rw [nestingOfSuffixes, Nat.max_le] at hn
    -- the first suffix goes around what came before, and the others around that
    obtain ⟨kind, p, g, hform, hread, htree⟩ := s.reads hinner hn.1 (suffixes_begin ss hrest)
    rw [chunksOfSuffixes, tokensOf_append, append_assoc, wrappings_round hform hread ?_ [u],
      treeOfSuffixes, htree]
    · exact ih hn.2 _
    · have hpos : 0 < (tokensOf s.chunks).length := by cases s <;> exact Nat.succ_pos _
      simp only [length_append]
      omega

omit hinner in
theorem Head.starts (head : Head) (hrest : Begins followsHead rest) (brackets : Bool) :
    StartsOperand brackets (tokensOf head.chunks ++ rest) := by
  cases head with
  | name w arguments =>
    refine .name w ?_
    cases arguments with
    | nil => exact hrest.mono (by decide)
    | cons t ts => exact .cons (by decide) _
  | tuple es => exact .paren _

/-- A head and its suffixes, with what is in front. -/
theorem Closed.reads (c : Closed) (hn : c.nesting ≤ n) (hrest : Begins closesOperand rest) :
    simpleType inner (tokensOf c.chunks ++ rest) = .ok ([c.tree], rest) := by
  cases c with
  | plain front head suffixes =>
    rw [Closed.nesting, Nat.max_le] at hn
    have hmid := suffixes_begin suffixes hrest
    rw [Closed.chunks, tokensOf_append, tokensOf_append, append_assoc, append_assoc]
    refine front.reads (head.starts hmid _) ?_
    exact wrapping_ok (head.reads hinner hn.1 hmid) (suffixes_read hinner hn.2 hrest _)
  | bracketed front allowed brackets suffixes =>
    rw [Closed.nesting, Nat.max_le] at hn
    have hstart : StartsOperand (!front.isSomeOrAny)
        (tokensOf brackets.chunks ++ (tokensOf (chunksOfSuffixes suffixes) ++ rest)) := by
      rw [allowed]
      cases brackets <;> exact .bracket _
    rw [Closed.chunks, tokensOf_append, tokensOf_append, append_assoc, append_assoc]
    refine front.reads hstart ?_
    exact wrapping_ok (brackets.reads hinner hn.1 _) (suffixes_read hinner hn.2 hrest _)

/-- The inputs, the effects and the result. -/
theorem function_reads {inputs : List Element} (effects : List Effect) {result : TypeExpr}
    (hinputs : nestingOfElements inputs ≤ n) (hresult : result.nesting ≤ n) (hrest : Begins closesType rest) :
    primaryType inner (parenOpen.token :: (tokensOf (chunksOfElements inputs) ++ parenClose.token ::
        (tokensOf (effects.map (.word ·.word)) ++ arrow.token :: (tokensOf result.chunks ++ rest)))) =
      .ok ([.node .functionType ([parenOpen.leaf, .node .tupleTypeElementList (treesOfElements inputs),
        parenClose.leaf] ++ (effectTrees effects ++ [arrow.leaf, result.tree]))], rest) := by
  have harrow : seesFunctionArrow
      (tokensOf (effects.map (.word ·.word)) ++ arrow.token :: (tokensOf result.chunks ++ rest)) = true := by
    rw [seesFunctionArrow, afterEffects?_effects]
    rfl
  have htail : (optional seesEffect effectSpecifiers ++ bump ++ inner : Rule)
      (tokensOf (effects.map (.word ·.word)) ++ arrow.token :: (tokensOf result.chunks ++ rest)) =
        .ok (effectTrees effects ++ [arrow.leaf] ++ [result.tree], rest) :=
    seq_ok (seq_ok (effectSpecifiers_read effects _) (bump_cons _ _)) (hinner result hresult rest hrest)
  rw [append_assoc] at htail
  rw [primaryType, either_of_yes rfl, parenType,
    closing_ok (elements_read hinner hinputs _) (by rw [if_pos harrow]; exact htail), if_pos harrow]
  rfl

/-- By cases on the operand. -/
theorem Operand.reads (o : Operand) (hn : o.nesting ≤ n) (hrest : Begins closesType rest) :
    simpleType inner (tokensOf o.chunks ++ rest) = .ok ([o.tree], rest) := by
  have hclosed : Begins closesOperand rest := hrest.mono (by decide)
  cases o with
  | closed c => exact c.reads hinner hn hclosed
  | function front inputs effects result =>
    rw [Operand.nesting, Nat.max_le] at hn
    have hinput : tokensOf (Operand.function front inputs effects result).chunks ++ rest =
        tokensOf front.chunks ++ (parenOpen.token :: (tokensOf (chunksOfElements inputs) ++
          parenClose.token :: (tokensOf (effects.map (.word ·.word)) ++ arrow.token ::
            (tokensOf result.chunks ++ rest)))) := by
      simp [Operand.chunks]
    rw [hinput]
    refine front.reads (.paren _) ?_
    -- nothing goes on with a function type, since its result has taken all
    exact wrapping_ok (function_reads hinner effects hn.1 hn.2 hrest)
      (wrappings_of_none (postfixForm_eq_none hclosed) _)

/-- The operands behind the first one, each with the mark before it. -/
theorem TypeExpr.operands_read (t : TypeExpr) (hn : t.nesting ≤ n + 1) (hrest : Begins closesType rest) :
    many (sees "&") (bump ++ simpleType inner) (ampersand.token :: (tokensOf t.chunks ++ rest)) =
      .ok (ampersand.leaf :: t.operandTrees, rest) := by
  match t with
  | .operand o =>
    have hread := o.reads hinner (Nat.le_of_succ_le_succ hn) hrest
    refine many_round_ok rfl (seq_ok (bump_cons _ _) hread) ?_ (many_of_not (hrest.sees_eq (by decide)))
    simp only [length_cons, length_append]
    omega
  | .both first others =>
    rw [TypeExpr.nesting, Nat.max_le] at hn
    have hmid : Begins closesOperand (ampersand.token :: (tokensOf others.chunks ++ rest)) :=
      .cons (by decide) _
    have hread := first.reads hinner (Nat.le_of_succ_le_succ hn.1) hmid
    have hothers := others.operands_read hn.2 hrest
    rw [TypeExpr.chunks, tokensOf_append, append_assoc]
    refine many_round_ok rfl (seq_ok (bump_cons _ _) hread) ?_ hothers
    simp only [length_cons, length_append]
    omega

/-- **One level of types.** -/
theorem TypeExpr.reads (t : TypeExpr) (hn : t.nesting ≤ n + 1)
    (hrest : Begins closesType rest) : typeBody inner (tokensOf t.chunks ++ rest) = .ok ([t.tree], rest) := by
  have hend : compositionForm inner rest = none := if_neg (by rw [hrest.sees_eq (by decide)]; decide)
  cases t with
  | operand o =>
    exact wrapping_ok (o.reads hinner (Nat.le_of_succ_le_succ hn) hrest) (wrappings_of_none hend _)
  | both first others =>
    rw [TypeExpr.nesting, Nat.max_le] at hn
    have hmid : Begins closesOperand (ampersand.token :: (tokensOf others.chunks ++ rest)) :=
      .cons (by decide) _
    have hread := first.reads hinner (Nat.le_of_succ_le_succ hn.1) hmid
    have hothers := others.operands_read hinner hn.2 hrest
    rw [TypeExpr.chunks, tokensOf_append, append_assoc]
    -- the first operand ends at the mark, and a single round takes in all the others
    refine wrapping_ok hread ?_
    rw [wrappings_round rfl hothers ?_ _]
    · exact wrappings_of_none hend _
    · simp only [length_cons, length_append]
      omega

end

/-! ## All levels -/

/-- **The tokens of a type are read as its tree**, in front of anything that may follow a type, if the
type is not nested too deep. -/
theorem readsTypes_type (n : Nat) : ReadsTypes n (type n) := by
  induction n with
  | zero =>
    intro t hn
    exact absurd hn (Nat.not_le.mpr t.nesting_pos)
  | succ n ih =>
    -- the types inside are one level down, and the rule for them is the one of that level
    intro t hn rest hrest
    exact t.reads ih hn hrest

end SwiftOutline
