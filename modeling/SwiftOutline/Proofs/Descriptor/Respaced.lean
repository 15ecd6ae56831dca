import SwiftOutline.Proofs.Descriptor.Moved
import SwiftOutline.Proofs.Grammar.Excerpt
import SwiftOutline.Proofs.Grammar.Spacing
import SwiftOutline.Proofs.Tree.Visit

/-!
# `Respaced` — texts of types that differ only in their gaps

Two texts may have the same tokens with other white space and other comments between them. The gaps show
at two sorts of places: where the grammar asks whether a token touches the one in front of it, and inside
a part of the type that spells void, which may hold white space but no comment. Elsewhere a gap may be
anything.
-/

namespace SwiftOutline

open SwiftOutline.Tree Text List

namespace Token

/-- What a token says without the gap in front of it and without its place. -/
def gapless (t : Token) : TokenKind × String × Bool := (t.kind, t.text, t.newlineBefore)

/-- The gap in front of the token holds more than blank characters. -/
def hasComment (t : Token) : Bool := t.lead.toList.any fun c => !isBlank c

/-- The texts of the tokens without the gaps between them. -/
def spelling (ts : List Token) : String := String.join (ts.map text)

end Token

/-! ## Comments -/

/-- Beyond blank characters a gap holds comments, and every comment begins with a slash. -/
theorem slash_mem_of_scanGap {pos : Nat} {cs : List Char} {gap : Gap} (h : scanGap .between pos cs = .ok gap)
    {c : Char} (hc : c ∈ gap.text) (hblank : isBlank c = false) : '/' ∈ gap.text := by
  obtain ⟨opened, pieces, htext, rfl, htrivia, -⟩ := isTrivia_of_scanGap h
  rw [nil_append] at htext
  rw [htext] at hc ⊢
  clear htext
  induction pieces with
  | nil => cases hc
  | cons piece pieces ih =>
    rw [flatMap_cons, mem_append] at hc ⊢
    cases piece with
    | line body => exact .inl mem_cons_self
    | block body => exact .inl mem_cons_self
    | blank d =>
      rcases hc with hc | hc
      · -- the character is the blank one
        cases mem_singleton.mp hc
        rw [htrivia.1] at hblank
        cases hblank
      · exact .inr (ih hc htrivia.2)

variable {ts us : List Token} {t : Token}

theorem slash_mem_of_hasComment {pos : Nat} {cs : List Char} (h : tokensFrom pos cs = .ok ts)
    (ht : t ∈ ts) (hcomment : t.hasComment = true) : '/' ∈ t.lead.toList := by
  refine tokensFrom_induction (motive := fun _ _ ts => t ∈ ts → '/' ∈ t.lead.toList) ?_ ?_ h ht
  · intro _ _ _ _ _ ht
    cases ht
  · intro _ _ gap _ _ _ tail hgap _ _ _ ih ht
    rcases mem_cons.mp ht with rfl | ht
    · simp only [Token.hasComment, String.toList_ofList, any_eq_true, Bool.not_eq_true'] at hcomment ⊢
      obtain ⟨c, hc, hblank⟩ := hcomment
      exact slash_mem_of_scanGap hgap hc hblank
    · exact ih ht

/-! ## Runs of tokens that spell void -/

theorem Text.strip_append (a b : String) : strip (a ++ b) = strip a ++ strip b := by
  simp only [strip, String.toList_append, filter_append, String.ofList_append]

theorem strip_lead (h : t.hasComment = false) : strip t.lead = "" := by
  have hnone : t.lead.toList.filter (fun c => !isBlank c) = [] := by
    rw [filter_eq_nil_iff]
    intro c hc
    exact any_eq_false.mp h c hc
  rw [strip, hnone]

/-- Without comments, a run of tokens reads like the tokens set close together. -/
theorem strip_joined (h : ∀ u ∈ us, u.hasComment = false) :
    strip (Token.joined (t :: us)) = strip (Token.spelling (t :: us)) := by
  rw [Token.joined, Token.spelling, List.map_cons, String.join_cons, strip_append, strip_append]
  congr 1
  induction us with
  | nil => rfl
  | cons u us ih =>
    have hus := ih fun v hv => h v (mem_cons_of_mem u hv)
    rw [List.map_cons, List.map_cons, String.join_cons, String.join_cons,
      strip_append, strip_append, strip_append, strip_lead (h u mem_cons_self),
        String.empty_append, hus]

/-- No spelling of void holds a character that stands in none of them. -/
theorem not_isVoidSpelling_of_mem {text : String} {c : Char} (h : c ∈ text.toList) (hkept : isBlank c = false)
    (hnone : ∀ s ∈ voidSpellings, c ∉ s.toList) : isVoidSpelling text = false := by
  have hstrip : c ∈ (strip text).toList := by
    rw [strip, String.toList_ofList, mem_filter]
    exact ⟨h, by rw [hkept]; rfl⟩
  rw [isVoidSpelling, contains_eq_mem, decide_eq_false_iff_not]
  intro hmem
  exact hnone _ hmem hstrip

/-- **A run of tokens spells void if its texts do and no comment stands inside it.** -/
theorem isVoidSpelling_joined (hslash : ∀ u ∈ us, u.hasComment = true → '/' ∈ u.lead.toList) :
    isVoidSpelling (Token.joined (t :: us)) =
      (isVoidSpelling (Token.spelling (t :: us)) && us.all fun u => !u.hasComment) := by
  cases hall : us.all fun u => !u.hasComment with
  | true =>
    rw [all_eq_true] at hall
    rw [Bool.and_true, isVoidSpelling, isVoidSpelling, strip_joined]
    intro u hu
    exact Bool.not_eq_true' _ ▸ hall u hu
  | false =>
    rw [Bool.and_false]
    obtain ⟨u, hu, hcomment⟩ := all_eq_false.mp hall
    refine not_isVoidSpelling_of_mem (c := '/') ?_ rfl (by decide)
    rw [Token.toList_joined, Token.layout]
    apply mem_append_right
    rw [mem_flatMap]
    refine ⟨u, hu, mem_append_left _ (hslash u hu ?_)⟩
    simpa using hcomment

/-! ## Texts that differ in their gaps -/

/-- How a type is read may depend on whether the `i`th token touches the one in front of it. -/
def touchAsked (ts : List Token) (i : Nat) : Bool := ts[i]?.any (asksTouch (ts.take i).reverse)

/-- **The same tokens with other gaps.** Where the grammar asks for it, the same tokens touch. -/
structure Respaced (ts us : List Token) : Prop where
  gapless : ts.map Token.gapless = us.map Token.gapless
  touch : ∀ i < ts.length, touchAsked ts i = true → us[i]?.map Token.isAdjacent = ts[i]?.map Token.isAdjacent

instance (ts us : List Token) : Decidable (Respaced ts us) :=
  decidable_of_iff (ts.map Token.gapless = us.map Token.gapless ∧
      ∀ i < ts.length, touchAsked ts i = true → us[i]?.map Token.isAdjacent = ts[i]?.map Token.isAdjacent)
    ⟨fun h => ⟨h.1, h.2⟩, fun h => ⟨h.gapless, h.touch⟩⟩

/-- The gap in front of the token lies inside a node of the tree that spells void. -/
def insideVoid (tree : Tree) (t : Token) : Bool :=
  (Place.root tree).preorder.any fun p =>
    isVoidSpelling (Token.spelling p.tree.tokens) && p.tree.tokens.tail.contains t

/-- Inside the nodes of the tree that spell void, the same gaps hold comments. -/
def SameVoidGaps (tree : Tree) (ts us : List Token) : Prop :=
  ∀ i < ts.length, ts[i]?.any (insideVoid tree) = true →
    us[i]?.map Token.hasComment = ts[i]?.map Token.hasComment

instance (tree : Tree) (ts us : List Token) : Decidable (SameVoidGaps tree ts us) :=
  inferInstanceAs (Decidable (∀ i < ts.length, _ → _))

/-- **The second text comes from the first by a change of tokens.** No token comes twice in the first
    one, so the tokens can be changed one by one. -/
theorem exists_respacing (hnodup : ts.Nodup) (h : ts.map Token.gapless = us.map Token.gapless) :
    ∃ g, Token.Respaces g ∧ ts.map g = us := by
  induction ts generalizing us with
  | nil =>
    rw [map_nil, eq_comm, map_eq_nil_iff] at h
    exact ⟨id, ⟨fun _ => rfl, fun _ => rfl, fun _ => rfl⟩, h.symm⟩
  | cons t ts ih =>
    cases us with
    | nil => cases h
    | cons u us =>
      rw [List.map_cons, List.map_cons, List.cons.injEq] at h
      obtain ⟨hhead, htail⟩ := h
      obtain ⟨hnot, hnodup⟩ := nodup_cons.mp hnodup
      obtain ⟨g, hg, hmap⟩ := ih hnodup htail
      simp only [Token.gapless, Prod.mk.injEq] at hhead
      refine ⟨fun v => if v = t then u else g v, ⟨?_, ?_, ?_⟩, ?_⟩
      · intro v
        by_cases hv : v = t
        · rw [if_pos hv, hv, hhead.1]
        · rw [if_neg hv, hg.kind v]
      · intro v
        by_cases hv : v = t
        · rw [if_pos hv, hv, hhead.2.1]
        · rw [if_neg hv, hg.text v]
      · intro v
        by_cases hv : v = t
        · rw [if_pos hv, hv, hhead.2.2]
        · rw [if_neg hv, hg.newlineBefore v]
      · rw [List.map_cons, if_pos rfl, ← hmap, List.cons.injEq]
        refine ⟨rfl, map_congr_left ?_⟩
        intro v hv
        apply if_neg
        rintro rfl
        exact hnot hv

theorem nodup_of_tokenize {source : String} (h : tokenize source = .ok ts) : ts.Nodup := by
  apply (pairwise_start_of_tokenize h).imp
  rintro a b hlt rfl
  exact Nat.lt_irrefl _ hlt

section

variable {g : Token → Token} {ts : List Token}

/-- Spacing is kept if it is kept at each token. -/
theorem touchKept_of_splits {before : List Token}
    (h : ∀ us t vs, ts = us ++ t :: vs → asksTouch (us.reverse ++ before) t = true →
      (g t).isAdjacent = t.isAdjacent) : TouchKept g before ts := by
  induction ts generalizing before with
  | nil => trivial
  | cons t ts ih =>
    refine ⟨h [] t ts rfl, ih ?_⟩
    intro us u vs hsplit hask
    apply h (t :: us) u vs (by rw [hsplit, cons_append])
    rw [reverse_cons, append_assoc]
    exact hask

theorem Respaced.spacingKept (h : Respaced ts (ts.map g)) : SpacingKept g ts := by
  refine ⟨[], touchKept_of_splits ?_⟩
  rintro us t vs rfl hask
  have htouch := h.touch us.length (by simp) ?_
  · simpa using htouch
  · rw [append_nil] at hask
    simpa [touchAsked] using hask

theorem insideVoid_of_contains {tree c : Tree} (h : tree.Contains c)
    (hvoid : isVoidSpelling (Token.spelling c.tokens) = true) {u : Token} (hu : u ∈ c.tokens.tail) :
    insideVoid tree u = true := by
  have hnode : c.isNode = true := by
    cases c with
    | token t => cases hu
    | node k cs => rfl
  obtain ⟨p, hp, rfl⟩ := Place.exists_mem_preorder h hnode
  unfold insideVoid
  rw [any_eq_true]
  refine ⟨p, hp, ?_⟩
  simp [hvoid, hu]

/-- **Descriptors cannot see the change.** The tokens of the tree are among those of the text. A part of
    it spells void before the change if it does so after it. -/
theorem SameVoidGaps.legible {source source' : String} {tree : Tree} (h : SameVoidGaps tree ts (ts.map g))
    (hg : Token.Respaces g) (hts : tokenize source = .ok ts) (hus : tokenize source' = .ok (ts.map g))
    (hin : ∀ u ∈ tree.tokens, u ∈ ts) : tree.Legible g where
  kind u _ := hg.kind u
  text u _ := hg.text u
  void c hc := by
    have htokens : ∀ u ∈ c.tokens, u ∈ ts := fun u hu => hin u (hc.tokens_isInfix.mem hu)
    have hspelling : Token.spelling (c.tokens.map g) = Token.spelling c.tokens := by
      rw [Token.spelling, Token.spelling, map_map]
      congr 1
      exact map_congr_left fun u _ => hg.text u
    have hinside := @insideVoid_of_contains tree c hc
    rw [text, text, tokens_relabel]
    cases hrun : c.tokens with
    | nil => rfl
    | cons t run =>
      rw [hrun] at htokens hspelling hinside
      rw [List.map_cons, isVoidSpelling_joined, isVoidSpelling_joined, ← List.map_cons,
        hspelling, all_map]
      · cases hvoid : isVoidSpelling (Token.spelling (t :: run)) with
        | false => rfl
        | true =>
          -- inside a part that spells void the same gaps hold comments
          congr 1
          rw [Bool.eq_iff_iff, all_eq_true, all_eq_true]
          refine forall₂_congr ?_
          intro u hu
          obtain ⟨i, hi, hget⟩ := getElem_of_mem (htokens u (mem_cons_of_mem t hu))
          have hcomment : (g u).hasComment = u.hasComment := by
            have hsame := h i hi (by simp [hi, hget, hinside hvoid hu])
            simpa [hi, hget] using hsame
          simp [hcomment]
      · intro u hu
        exact slash_mem_of_hasComment hts (htokens u (mem_cons_of_mem t hu))
      · intro u hu
        obtain ⟨v, hv, rfl⟩ := mem_map.mp hu
        exact slash_mem_of_hasComment hus (mem_map_of_mem (htokens v (mem_cons_of_mem t hv)))

end

end SwiftOutline
