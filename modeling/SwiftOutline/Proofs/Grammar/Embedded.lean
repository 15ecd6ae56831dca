import SwiftOutline.Proofs.Grammar.Grouped

/-!
# `Embedded` — a type behind other text

A text that is a type can be put behind fixed text. The fixed text ends where a token ends, and a space
may stand between it and the type. Then the tokens of the type are those that it has alone, further on
and with the space in the gap of the first, and they are read as the same type.
-/

namespace SwiftOutline

open Rule Token

/-- The text, which begins at byte `pos`, is the type `u` and nothing else, and is read without going
deeper than so many levels. -/
structure TypeAt (levels pos : Nat) (cs : List Char) (u : Tree) : Prop where
  tokens : tokensFrom pos cs = .ok u.tokens
  read : Rule.type levels u.tokens = .ok ([u], [])

theorem TypeAt.lexical {levels pos : Nat} {cs : List Char} {u : Tree} (h : TypeAt levels pos cs u) :
    ∀ t ∈ u.tokens, t.Lexical :=
  lexical_of_tokensFrom h.tokens

/-- The token with more text in the gap in front of it if it is the first. -/
def Token.spaced (lead : String) (first t : Token) : Token :=
  if t = first then { t with lead := lead ++ t.lead } else t

theorem Token.regap_spaced (lead : String) {first : Token} {ts : List Token} (hfirst : first ∉ ts) :
    Regap (spaced lead first) first ts where
  kind := by rw [spaced, if_pos rfl]
  text := by rw [spaced, if_pos rfl]
  fixed t ht := by
    rw [spaced, if_neg]
    rintro rfl
    exact hfirst ht

/-- The token further on, with more text in the gap in front of it if it is the first. -/
def Token.movedOn (base : Nat) (lead : String) (first t : Token) : Token := (spaced lead first t).shiftUp base

/-- Tokens that move on keep their texts, and the gaps behind the first. -/
theorem Token.faithful_movedOn (base : Nat) (lead : String) {first : Token} {ts : List Token}
    (hfirst : first ∉ ts) : Faithful (movedOn base lead first) (first :: ts) := by
  have hregap := regap_spaced lead hfirst
  constructor
  · intro t _
    unfold movedOn spaced
    split <;> rfl
  · intro t _
    unfold movedOn spaced
    split <;> rfl
  · intro t ht
    rw [movedOn, hregap.fixed t ht]
    rfl
  · intro t ht
    rw [movedOn, hregap.fixed t ht]
    rfl

namespace SoleType

variable {levels : Nat} {text : String} {u : Tree}

/-- **A text that is one type, right behind other text.** -/
theorem typeAt (h : SoleType levels text u) (pos : Nat) :
    TypeAt levels pos text.toList (u.relabel (shiftUp pos)) := by
  have hmoved := (lawful_type levels).natural (unseen_shiftUp pos) u.tokens
  rw [h.read, relabelOutcome_ok, List.map_singleton, List.map_nil] at hmoved
  have htokens := tokensFrom_shiftUp h.tokens pos
  rw [Nat.zero_add] at htokens
  constructor
  · rw [htokens, Tree.tokens_relabel]
  · rw [Tree.tokens_relabel, hmoved]

/-- **A text that is one type, behind other text and a space.** -/
theorem typeAt_space (h : SoleType levels text u) (pos : Nat) : ∃ g, Faithful g u.tokens ∧
    TypeAt levels pos (' ' :: text.toList) (u.relabel g) := by
  obtain ⟨t, ts, hts⟩ := List.exists_cons_of_ne_nil (Rule.ne_nil_of_type h.read)
  have hfirst : t ∉ ts := not_mem_of_isInfix h.tokens (hts ▸ List.infix_refl _)
  have hregap := regap_spaced " " hfirst
  have hmap : (t :: ts).map (movedOn (pos + 1) " " t) =
      (spaced " " t t :: ts).map (shiftUp (pos + 1)) := by
    rw [← hregap.map_cons, List.map_map]
    rfl
  refine ⟨movedOn (pos + 1) " " t, hts ▸ faithful_movedOn _ _ hfirst, ?_, ?_⟩
  · have hspace : scanGap .between pos (' ' :: text.toList) =
        (scanGap .between (pos + Text.byteSize [' ']) text.toList).map (·.push [' '] false) :=
      scanGap_blank (by decide) pos text.toList
    have hmoved := tokensFrom_shiftUp h.tokens (pos + 1)
    rw [Nat.zero_add, hts, List.map_cons] at hmoved
    rw [tokensFrom_push hspace, show pos + Text.byteSize [' '] = pos + 1 from rfl, hmoved,
      Tree.tokens_relabel, hts, hmap, spaced, if_pos rfl]
    rfl
  · -- first the gap is changed, which no type sees, and then the places
    have hread := h.read
    rw [hts] at hread
    have hplaces := (lawful_type levels).natural (unseen_shiftUp (pos + 1)) (spaced " " t t :: ts)
    rw [headBlind_type levels hregap hread, relabelOutcome_ok, Tree.relabelForest_relabel] at hplaces
    rw [Tree.tokens_relabel, hts, hmap, hplaces]
    rfl

end SoleType

end SwiftOutline
