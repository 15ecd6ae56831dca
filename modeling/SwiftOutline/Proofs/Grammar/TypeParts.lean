import SwiftOutline.Proofs.Grammar.RereadTypes
import SwiftOutline.Proofs.Grammar.TypeSyntax

/-!
# `TypeParts` — reading what types are made of

Each part of a written type is read in front of a rest that cannot go on with it. What may stand in front
of an operand, effects and lists with commas are read here, with whatever rules read the types between
them.
-/

namespace SwiftOutline

open Rule Mark List

/-! ## The tokens of chunks -/

@[simp] theorem tokensOf_nil : tokensOf [] = [] := rfl

@[simp] theorem tokensOf_mark (m : Mark) (ps : List Chunk) :
    tokensOf (.mark m :: ps) = m.token :: tokensOf ps :=
  rfl

@[simp] theorem tokensOf_append (ps qs : List Chunk) : tokensOf (ps ++ qs) = tokensOf ps ++ tokensOf qs :=
  flatMap_append

theorem Word.isWord_token (w : Word) : w.token.isWord = true := by
  show (w.kind == .identifier || w.kind == .keyword) = true
  unfold Word.kind
  split <;> rfl

theorem Word.seesWord_token (w : Word) (ts : List Token) : seesWord (w.token :: ts) = true := w.isWord_token

variable {text : String} {ts : List Token} {close : Mark}

/-- No mark is spelled like a word. -/
theorem Word.text_ne (w : Word) (h : isPlainWord text = false) : w.text ≠ text := by
  rintro rfl
  rw [w.plain] at h
  cases h

/-- A word is of no other kind. -/
theorem Word.kind_ne (w : Word) {kind : TokenKind} (h : (kind == .identifier || kind == .keyword) = false) :
    w.kind ≠ kind := by
  rintro rfl
  have hword : (w.kind == .identifier || w.kind == .keyword) = true := w.isWord_token
  rw [hword] at h
  cases h

theorem Word.sees_token (w : Word) (ts : List Token) (h : isPlainWord text = false) :
    sees text (w.token :: ts) = false := beq_eq_false_iff_ne.mpr (w.text_ne h)

theorem Mark.sees_token (m : Mark) (ts : List Token) (h : m.text ≠ text) :
    sees text (m.token :: ts) = false := beq_eq_false_iff_ne.mpr h

theorem Mark.sees_self (m : Mark) (ts : List Token) : sees m.text (m.token :: ts) = true := beq_self_eq_true _

theorem Mark.isWord_token (m : Mark) : m.token.isWord = false := by cases m <;> rfl

/-- The token in front stands apart from the one before it. -/
theorem seesAdjacent_of_space {t : Token} (h : t.lead = " ") (text : String) (ts : List Token) :
    seesAdjacent text (t :: ts) = false := by
  show (t.text == text && t.lead.isEmpty) = false
  rw [h]
  exact Bool.and_false _

/-! ## Rules that are asked -/

namespace Rule

variable {ask : Lookahead} {p q : Rule} {ts : List Token}

theorem either_of_yes (h : ask ts = true) : either ask p q ts = p ts := if_pos h

theorem either_of_no (h : ask ts = false) : either ask p q ts = q ts :=
  if_neg (by rw [h]; exact Bool.false_ne_true)

theorem optional_of_no (h : ask ts = false) : optional ask p ts = .ok ([], ts) := either_of_no h

theorem bump_cons (t : Token) (ts : List Token) : bump (t :: ts) = .ok ([.token t], ts) := rfl

/-- Reads a rule and then what goes around it. -/
theorem wrapping_ok {ask : Form} {f g : List Tree} {mid rest : List Token}
    (hp : p ts = .ok (f, mid)) (hask : wrappings ask f mid = .ok (g, rest)) :
    wrapping p ask ts = .ok (g, rest) := by
  rw [wrapping, hp, andThen_ok, hask]

end Rule

/-! ## What the rest begins with -/

/-- Nothing is left, or one of the marks comes next. -/
def Begins (ms : List Mark) (ts : List Token) : Prop := ts = [] ∨ ∃ m ∈ ms, ∃ us, ts = m.token :: us

/-- The marks that may follow a type. -/
def closesType : List Mark := [.comma, .parenClose, .bracketClose, .colon, .angleClose, .ellipsis]

/-- The marks that may follow an operand. -/
def closesOperand : List Mark := .ampersand :: closesType

/-- The marks that may follow a type without its suffixes. -/
def followsHead : List Mark := .question :: .exclamation :: .dot :: closesOperand

/-- The marks that may follow a name. -/
def followsName : List Mark := .angleOpen :: followsHead

namespace Begins

variable {ms : List Mark} {ts : List Token}

theorem cons {m : Mark} (h : m ∈ ms) (us : List Token) : Begins ms (m.token :: us) := .inr ⟨m, h, us, rfl⟩

theorem mono {ms' : List Mark} (h : Begins ms ts) (hsub : ∀ m ∈ ms, m ∈ ms') : Begins ms' ts := by
  rcases h with rfl | ⟨m, hm, us, rfl⟩
  · exact .inl rfl
  · exact cons (hsub m hm) us

theorem sees_eq (h : Begins ms ts) {text : String} (hne : ∀ m ∈ ms, m.text ≠ text) :
    sees text ts = false := by
  rcases h with rfl | ⟨m, hm, us, rfl⟩
  · rfl
  · exact m.sees_token us (hne m hm)

theorem seesKind_eq (h : Begins ms ts) {kind : TokenKind} (hne : ∀ m ∈ ms, m.kind ≠ kind) :
    seesKind kind ts = false := by
  rcases h with rfl | ⟨m, hm, us, rfl⟩
  · rfl
  · exact beq_eq_false_iff_ne.mpr (hne m hm)

theorem isWordAt_eq (h : Begins ms ts) : isWordAt 0 ts = false := by
  rcases h with rfl | ⟨m, hm, us, rfl⟩
  · rfl
  · exact m.isWord_token

theorem contains_textAt (h : Begins ms ts) {texts : List String} (hempty : texts.contains "" = false)
    (hne : ∀ m ∈ ms, texts.contains m.text = false) : texts.contains (textAt 0 ts) = false := by
  rcases h with rfl | ⟨m, hm, us, rfl⟩
  · exact hempty
  · exact hne m hm

end Begins

/-! ## What an operand begins with -/

/-- What an operand begins with behind all that stands in front of it: a name with no word after it, a
parenthesis or, if `brackets` says so, a square bracket. -/
inductive StartsOperand : Bool → List Token → Prop
  | name {brackets : Bool} (w : Word) {us : List Token} (hus : Begins followsName us) :
    StartsOperand brackets (w.token :: us)
  | paren {brackets : Bool} (us : List Token) : StartsOperand brackets (parenOpen.token :: us)
  | bracket (us : List Token) : StartsOperand true (bracketOpen.token :: us)

namespace StartsOperand

variable {brackets : Bool} {ts : List Token}

theorem seesKind_eq (h : StartsOperand brackets ts) : seesKind .atSign ts = false := by
  cases h with
  | name w hus => exact beq_eq_false_iff_ne.mpr (w.kind_ne (by decide))
  | paren us => rfl
  | bracket us => rfl

theorem sees_eq (h : StartsOperand brackets ts) : sees "~" ts = false := by
  cases h with
  | name w hus => exact w.sees_token _ (by decide)
  | paren us => rfl
  | bracket us => rfl

/-- A name that is spelled like a specifier is no specifier, since no type follows it. -/
theorem seesTypeSpecifier_eq (h : StartsOperand brackets ts) : seesTypeSpecifier ts = false := by
  cases h with
  | @name _ w us hus =>
    have hword : isWordAt 1 (w.token :: us) = false := hus.isWordAt_eq
    have htext : ["(", "[", "@"].contains (textAt 1 (w.token :: us)) = false :=
      hus.contains_textAt (by decide) (by decide)
    rw [seesTypeSpecifier, hword, htext]
    exact Bool.and_false _
  | paren us => rfl
  | bracket us => rfl

/-- For the same reason a name that is spelled `some` or `any` is a name. -/
theorem seesSomeOrAny_eq (h : StartsOperand brackets ts) : seesSomeOrAny ts = false := by
  cases h with
  | @name _ w us hus =>
    have hword : isWordAt 1 (w.token :: us) = false := hus.isWordAt_eq
    have htext : (["("].contains (textAt 1 (w.token :: us))) = false :=
      hus.contains_textAt (by decide) (by decide)
    have hparen : (textAt 1 (w.token :: us) == "(") = false := by
      rwa [contains_cons, contains_nil, Bool.or_false] at htext
    rw [seesSomeOrAny, hword, hparen]
    exact Bool.and_false _
  | paren us => rfl
  | bracket us => rfl

theorem seesAdjacent_eq (h : StartsOperand brackets ts) (text : String) : seesAdjacent text ts = false := by
  cases h with
  | name w hus => exact seesAdjacent_of_space rfl text _
  | paren us => exact seesAdjacent_of_space rfl text us
  | bracket us => exact seesAdjacent_of_space rfl text us

end StartsOperand

/-- A type may stand here, so that a word before it is a specifier. -/
def typeAhead : Lookahead := fun ts => isWordAt 0 ts || ["(", "[", "@"].contains (textAt 0 ts)

theorem Word.typeAhead_token (w : Word) (ts : List Token) : typeAhead (w.token :: ts) = true := by
  have hword : isWordAt 0 (w.token :: ts) = true := w.isWord_token
  rw [typeAhead, hword]
  exact Bool.true_or _

namespace StartsOperand

theorem typeAhead_eq {brackets : Bool} {ts : List Token} (h : StartsOperand brackets ts) :
    typeAhead ts = true := by
  cases h with
  | name w hus => exact w.typeAhead_token _
  | paren us => rfl
  | bracket us => rfl

theorem seesSomeOrAny_cons {ts : List Token} (h : StartsOperand false ts) (isAny : Bool) :
    seesSomeOrAny ((Word.someOrAny isAny).token :: ts) = true := by
  have hword : (sees "some" ((Word.someOrAny isAny).token :: ts) ||
      sees "any" ((Word.someOrAny isAny).token :: ts)) = true := by cases isAny <;> rfl
  rw [seesSomeOrAny, hword, Bool.true_and]
  cases h with
  | name w hus =>
    rw [show isWordAt 1 (_ :: w.token :: _) = true from w.isWord_token]
    exact Bool.true_or _
  | paren us => rfl

end StartsOperand

/-! ## In front of an operand -/

/-- An attribute is read, as nothing touches its name. -/
theorem declAttribute_reads (name : Word) (h : ∀ text, seesAdjacent text ts = false) :
    declAttribute (atSign.token :: name.attached :: ts) = .ok ([attributeTree name], ts) := by
  have hname : expectWord "attribute name" (name.attached :: ts) = .ok ([.token name.attached], ts) :=
    either_of_yes (show isWordAt 0 (name.attached :: ts) = true from name.isWord_token)
  have hdots : many (fun ts => seesAdjacent "." ts && isWordAt 1 ts) (bumps 2) ts = .ok ([], ts) :=
    many_of_not (by rw [h "."]; rfl)
  have harguments : optional (seesAdjacent "(") (node .attributeArguments group) ts = .ok ([], ts) :=
    optional_of_no (h "(")
  exact node_ok (seq_ok (seq_ok (seq_ok (bump_cons _ _) hname) hdots) harguments)

theorem attributes_apart (names : List Word) (h : ∀ text, seesAdjacent text ts = false)
    (text : String) : seesAdjacent text (tokensOf (names.map .atName) ++ ts) = false := by
  cases names with
  | nil => exact h text
  | cons name names => exact seesAdjacent_of_space rfl text _

/-- By induction on the attributes. -/
theorem attributes_read (names : List Word) (hsign : seesKind .atSign ts = false)
    (h : ∀ text, seesAdjacent text ts = false) :
    many (seesKind .atSign) declAttribute (tokensOf (names.map .atName) ++ ts) =
      .ok (names.map attributeTree, ts) := by
  induction names with
  | nil => exact many_of_not hsign
  | cons name names ih =>
    -- the next attribute stands apart, so nothing is taken for an argument of this one
    have hfirst := declAttribute_reads name (attributes_apart names h)
    refine many_round_ok rfl hfirst ?_ ih
    exact Nat.lt_add_of_pos_right (Nat.succ_pos 1)

theorem attributeList_reads (names : List Word) (hsign : seesKind .atSign ts = false)
    (h : ∀ text, seesAdjacent text ts = false) :
    optional (seesKind .atSign) attributeList (tokensOf (names.map .atName) ++ ts) =
      .ok (attributeTrees names, ts) := by
  have hread := attributes_read names hsign h
  cases names with
  | nil => exact optional_of_no hsign
  | cons name names =>
    rw [Rule.optional, either_of_yes rfl]
    exact node_ok hread

theorem Specifier.seesTypeSpecifier_eq (s : Specifier) (h : typeAhead ts = true) :
    seesTypeSpecifier (s.word.token :: ts) = true := by
  have hword : seesWord (s.word.token :: ts) = true := s.word.isWord_token
  have hnext : (isWordAt 1 (s.word.token :: ts) || ["(", "[", "@"].contains (textAt 1 (s.word.token :: ts))) =
      true := h
  have hlisted : typeSpecifiers.contains (textAt 0 (s.word.token :: ts)) = true := s.listed
  rw [seesTypeSpecifier, hword, hnext, hlisted]
  rfl

theorem specifiers_typeAhead (specifiers : List Specifier) (h : typeAhead ts = true) :
    typeAhead (tokensOf (specifiers.map (.word ·.word)) ++ ts) = true := by
  cases specifiers with
  | nil => exact h
  | cons s ss => exact s.word.typeAhead_token _

/-- By induction on the specifiers; the last has a type behind it. -/
theorem specifiers_read (specifiers : List Specifier) (h : typeAhead ts = true)
    (hnone : seesTypeSpecifier ts = false) :
    many seesTypeSpecifier bump (tokensOf (specifiers.map (.word ·.word)) ++ ts) =
      .ok (specifiers.map (·.word.leaf), ts) := by
  induction specifiers with
  | nil => exact many_of_not hnone
  | cons s ss ih =>
    have hsees := s.seesTypeSpecifier_eq (specifiers_typeAhead ss h)
    refine many_round_ok hsees (bump_cons _ _) ?_ ih
    exact Nat.lt_succ_self _

/-- Specifiers, attributes and the type they belong to. -/
theorem attributedType_reads {specifiers : List Specifier} {attributes : List Word}
    (hmarks : (specifiers.isEmpty && attributes.isEmpty) = false) {p : Rule} {brackets : Bool}
    {rest : List Token} {u : Tree} (hstart : StartsOperand brackets ts) (hread : p ts = .ok ([u], rest)) :
    let input := tokensOf (specifiers.map (.word ·.word)) ++ (tokensOf (attributes.map .atName) ++ ts)
    (seesKind .atSign input || seesTypeSpecifier input) = true ∧
      (many seesTypeSpecifier bump ++ optional (seesKind .atSign) attributeList ++ p : Rule) input =
        .ok (specifiers.map (·.word.leaf) ++ (attributeTrees attributes ++ [u]), rest) := by
  intro input
  -- an attribute is no specifier, and a specifier may stand before it
  have hnext : typeAhead (tokensOf (attributes.map .atName) ++ ts) = true ∧
      seesTypeSpecifier (tokensOf (attributes.map .atName) ++ ts) = false := by
    cases attributes with
    | nil => exact ⟨hstart.typeAhead_eq, hstart.seesTypeSpecifier_eq⟩
    | cons name names => exact ⟨rfl, rfl⟩
  constructor
  · cases specifiers with
    | nil =>
      cases attributes with
      | nil => cases hmarks
      | cons name names => rfl
    | cons s ss =>
      have hsees := s.seesTypeSpecifier_eq (specifiers_typeAhead ss hnext.1)
      exact (congrArg _ hsees).trans (Bool.or_true _)
  · have hspecifiers := specifiers_read specifiers hnext.1 hnext.2
    have hattributes := attributeList_reads attributes hstart.seesKind_eq hstart.seesAdjacent_eq
    rw [← append_assoc]
    exact seq_ok (seq_ok hspecifiers hattributes) hread

/-- **An operand with what stands in front of it.** -/
theorem Front.reads (front : Front) {inner : Rule} {rest : List Token} {u : Tree}
    (hstart : StartsOperand (!front.isSomeOrAny) ts) (hread : postfixType inner ts = .ok ([u], rest)) :
    simpleType inner (tokensOf front.chunks ++ ts) = .ok ([front.tree u], rest) := by
  unfold simpleType
  cases front with
  | bare =>
    show either _ _ _ ts = _
    have hsign := hstart.seesKind_eq
    have hspecifier := hstart.seesTypeSpecifier_eq
    rw [either_of_no (by rw [hsign, hspecifier]; rfl), either_of_no hstart.seesSomeOrAny_eq,
      either_of_no hstart.sees_eq, hread]
    rfl
  | marked specifiers attributes marks =>
    obtain ⟨hsees, hall⟩ := attributedType_reads marks hstart hread
    rw [Front.chunks, tokensOf_append, append_assoc, either_of_yes hsees]
    exact node_ok hall
  | someOrAny isAny =>
    show either _ _ _ ((Word.someOrAny isAny).token :: ts) = _
    rw [either_of_no (by cases isAny <;> rfl), either_of_yes (hstart.seesSomeOrAny_cons isAny)]
    exact node_ok (seq_ok (bump_cons _ _) hread)
  | suppressed =>
    show either _ _ _ (tilde.token :: ts) = _
    rw [either_of_no rfl, either_of_no rfl, either_of_yes rfl]
    exact node_ok (seq_ok (bump_cons _ _) hread)

/-! ## Effects -/

theorem effects_apart (effects : List Effect) (ts : List Token) :
    seesAdjacent "(" (tokensOf (effects.map (.word ·.word)) ++ arrow.token :: ts) = false := by
  cases effects with
  | nil => exact seesAdjacent_of_space rfl "(" ts
  | cons e es => exact seesAdjacent_of_space rfl "(" _

/-- The search for the arrow goes past the effects. -/
theorem afterEffects?_effects (effects : List Effect) (ts : List Token) :
    afterEffects? (tokensOf (effects.map (.word ·.word)) ++ arrow.token :: ts) =
      some (arrow.token :: ts) := by
  induction effects with
  | nil => exact afterEffects?_stop (by decide) (by decide) ts
  | cons e es ih =>
    rw [← ih]
    -- the arrow or another effect follows, and a space before it
    have hapart : ¬ seesAdjacent "(" (tokensOf (es.map (.word ·.word)) ++ arrow.token :: ts) = true := by
      rw [effects_apart]
      exact Bool.false_ne_true
    cases e with
    | async => exact afterEffects?_async rfl _
    | reasync => exact afterEffects?_async rfl _
    | throws => exact afterEffects?_throws (by decide) rfl hapart
    | rethrows => exact afterEffects?_throws (by decide) rfl hapart

/-- An effect is read, as no type of an error touches it. -/
theorem Effect.reads (e : Effect) (h : seesAdjacent "(" ts = false) :
    effect (e.word.token :: ts) = .ok ([e.word.leaf], ts) := by
  have hthrows : (bump ++ optional (seesAdjacent "(") group : Rule) (e.word.token :: ts) =
      .ok ([e.word.leaf], ts) :=
    seq_ok (bump_cons _ _) (optional_of_no h)
  cases e with
  | async => exact either_of_no rfl
  | reasync => exact either_of_no rfl
  | throws => exact (either_of_yes rfl).trans hthrows
  | rethrows => exact (either_of_yes rfl).trans hthrows

/-- By induction on the effects. -/
theorem effects_read (effects : List Effect) (ts : List Token) :
    many seesEffect effect (tokensOf (effects.map (.word ·.word)) ++ arrow.token :: ts) =
      .ok (effects.map (·.word.leaf), arrow.token :: ts) := by
  induction effects with
  | nil => exact many_of_not rfl
  | cons e es ih =>
    have hsees : seesEffect (e.word.token :: (tokensOf (es.map (.word ·.word)) ++ arrow.token :: ts)) =
        true := by cases e <;> rfl
    refine many_round_ok hsees (e.reads (effects_apart es ts)) ?_ ih
    exact Nat.lt_succ_self _

theorem effectSpecifiers_read (effects : List Effect) (ts : List Token) :
    optional seesEffect effectSpecifiers (tokensOf (effects.map (.word ·.word)) ++ arrow.token :: ts) =
      .ok (effectTrees effects, arrow.token :: ts) := by
  have hread := effects_read effects ts
  cases effects with
  | nil => exact optional_of_no rfl
  | cons e es =>
    rw [Rule.optional, either_of_yes (by cases e <;> rfl)]
    exact node_ok hread

/-- What follows a head is no effect and no arrow. -/
theorem Begins.seesFunctionArrow_eq (h : Begins followsHead ts) : seesFunctionArrow ts = false := by
  rcases h with rfl | ⟨m, hm, us, rfl⟩
  · rw [seesFunctionArrow, afterEffects?]
    rfl
  · have hasync : ∀ m ∈ followsHead, ¬ (m.token.text == "async" || m.token.text == "reasync") = true := by
      decide
    have hthrows : ∀ m ∈ followsHead, ¬ (m.token.text == "throws" || m.token.text == "rethrows") = true := by
      decide
    have harrow : ∀ m ∈ followsHead, (m.kind == .arrow) = false := by decide
    rw [seesFunctionArrow, afterEffects?_stop (hasync m hm) (hthrows m hm)]
    exact harrow m hm

/-! ## Lists with commas -/

/-- A word, `@`, `~` or an opening bracket. -/
def Chunk.opens : Chunk → Bool
  | word _ => true
  | atName _ => true
  | mark m => [parenOpen, .bracketOpen, .tilde].contains m

/-- The chunks begin like a type or like a label. -/
def Opens (ps : List Chunk) : Prop := ∃ p qs, ps = p :: qs ∧ p.opens = true

/-- A closing mark does not begin a type. -/
theorem Opens.sees_eq {ps : List Chunk} (h : Opens ps) (hclose : close ∈ closesType)
    (ts : List Token) : sees close.text (tokensOf ps ++ ts) = false := by
  obtain ⟨p, qs, rfl, hp⟩ := h
  have hword : ∀ m ∈ closesType, isPlainWord m.text = false := by decide
  have hsign : ∀ m ∈ closesType, atSign.text ≠ m.text := by decide
  cases p with
  | word w => exact w.sees_token _ (hword close hclose)
  | atName name => exact atSign.sees_token _ (hsign close hclose)
  | mark m =>
    have hopener : ∀ m' ∈ [parenOpen, .bracketOpen, .tilde], ∀ m ∈ closesType, m'.text ≠ m.text := by
      decide
    exact m.sees_token _ (hopener m (contains_iff_mem.mp hp) close hclose)

theorem Opens.tokensOf_ne_nil {ps : List Chunk} (h : Opens ps) : tokensOf ps ≠ [] := by
  obtain ⟨p, qs, rfl, -⟩ := h
  cases p <;> exact cons_ne_nil _ _

/-- A comma comes next, or the mark that closes the list does. -/
def Separated (close : Mark) (after : List Mark) (more : List Token) : Prop :=
  after = [.comma] ∨ after = [] ∧ ∃ us, more = close.token :: us

theorem Separated.begins {after : List Mark} {more : List Token} (h : Separated close after more)
    (ms : List Mark) (hcomma : comma ∈ ms) (hclose : close ∈ ms) :
    Begins ms (tokensOf (after.map .mark) ++ more) := by
  rcases h with rfl | ⟨rfl, us, rfl⟩
  · exact .cons hcomma more
  · exact .cons hclose us

/-- A comma, or the mark that closes the list. -/
theorem Separated.reads {after : List Mark} {more : List Token} (h : Separated close after more)
    (hclose : close.text ≠ ",") (what : String) :
    either (sees ",") bump (require (sees close.text) what nothing) (tokensOf (after.map .mark) ++ more) =
      .ok (after.map leaf, more) := by
  rcases h with rfl | ⟨rfl, us, rfl⟩
  · exact either_of_yes rfl
  · show either _ _ _ (close.token :: us) = _
    rw [either_of_no (close.sees_token us hclose), Rule.require, either_of_yes (close.sees_self us)]
    rfl

/-- **Entries are read up to the closing mark**, if each is read up to what separates it from the next. -/
theorem entries_read {α : Type} (write : α → List Chunk) (tree : List Mark → α → Tree)
    (hclose : close ∈ closesType) {entry : Rule} (what : String) {xs : List α}
    (hopens : ∀ x ∈ xs, Opens (write x))
    (hentry : ∀ x ∈ xs, ∀ after more, Separated close after more →
      entry (tokensOf (write x) ++ (tokensOf (after.map .mark) ++ more)) = .ok ([tree after x], more))
    (rest : List Token) : many (fun ts => !sees close.text ts) (require (fun ts => !seesEnd ts) what entry)
      (tokensOf (listed write xs) ++ close.token :: rest) =
        .ok (listedTrees tree xs, close.token :: rest) := by
  induction xs with
  | nil =>
    refine many_of_not ?_
    show (!sees close.text (close.token :: rest)) = false
    rw [close.sees_self]
    rfl
  | cons x xs ih =>
    obtain ⟨hx, hxs⟩ := forall_mem_cons.mp hopens
    obtain ⟨hread, hreads⟩ := forall_mem_cons.mp hentry
    have hlist : tokensOf (listed write (x :: xs)) ++ close.token :: rest = tokensOf (write x) ++
        (tokensOf ((separator xs).map .mark) ++ (tokensOf (listed write xs) ++ close.token :: rest)) := by
      simp only [listed, tokensOf_append, append_assoc]
    have hseparated : Separated close (separator xs) (tokensOf (listed write xs) ++ close.token :: rest) := by
      cases xs with
      | nil => exact .inr ⟨rfl, rest, rfl⟩
      | cons y ys => exact .inl rfl
    -- no entry begins with the closing mark, so the list goes on; and none is empty, so the round counts
    have hne := hx.tokensOf_ne_nil
    rw [hlist]
    refine many_round_ok ?_ ((either_of_yes ?_).trans (hread _ _ hseparated)) ?_ (ih hxs hreads)
    · rw [hx.sees_eq hclose]
      rfl
    · obtain ⟨t, ts, htokens⟩ := exists_cons_of_ne_nil hne
      rw [htokens]
      rfl
    · have hpos := length_pos_iff.mpr hne
      simp only [length_append]
      omega

end SwiftOutline
