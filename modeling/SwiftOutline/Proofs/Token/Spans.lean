import SwiftOutline.Proofs.Token.Partition

/-!
# `Spans` — where runs of tokens lie

The tokens of a source have text and follow each other, so a run of tokens is told by its span: a run
within another lies in its span, a run that fills the span of another is that run, and runs that follow
each other have spans neither of which lies in the other.
-/

namespace SwiftOutline

open List

namespace Span

/-- The first span lies in the second. -/
def isWithin (a b : Span) : Bool := decide (b.start ≤ a.start) && decide (a.stop ≤ b.stop)

/-- The span as counted from a later offset. -/
def shiftDown (base : Nat) (s : Span) : Span := ⟨s.start - base, s.stop - base⟩

theorem isWithin_iff {a b : Span} : a.isWithin b = true ↔ b.start ≤ a.start ∧ a.stop ≤ b.stop := by
  rw [isWithin, Bool.and_eq_true, decide_eq_true_eq, decide_eq_true_eq]

theorem isWithin_refl (s : Span) : s.isWithin s = true := isWithin_iff.mpr ⟨Nat.le_refl _, Nat.le_refl _⟩

end Span

namespace Token

/-- The tokens have text and follow each other. -/
structure Ordered (ts : List Token) : Prop where
  nonempty : ∀ t ∈ ts, t.start < t.stop
  pairwise : ts.Pairwise fun a b => a.stop ≤ b.start

theorem ordered_of_tokenize {source : String} {tokens : List Token} (h : tokenize source = .ok tokens) :
    Ordered tokens :=
  have hlaid := laid_of_tokensFrom h
  ⟨fun _ ht => (hlaid.token_slice ht).2.1, hlaid.pairwise⟩

theorem spanOf_eq {ts : List Token} (h : ts ≠ []) : spanOf ts = ⟨(ts.head h).start, (ts.getLast h).stop⟩ := by
  rw [spanOf, List.head?_eq_some_head h, List.getLast?_eq_some_getLast h]

namespace Ordered

variable {ts us vs : List Token}

theorem sublist (h : Ordered ts) (hus : us.Sublist ts) : Ordered us :=
  ⟨fun t ht => h.nonempty t (hus.subset ht), h.pairwise.sublist hus⟩

theorem start_le (h : Ordered ts) {t : Token} (ht : t ∈ ts) : (spanOf ts).start ≤ t.start := by
  cases ts with
  | nil => cases ht
  | cons u us =>
    rw [spanOf_eq (cons_ne_nil u us)]
    show u.start ≤ t.start
    rcases mem_cons.mp ht with rfl | ht
    · exact Nat.le_refl _
    · have hstop := rel_of_pairwise_cons h.pairwise ht
      have hlt := h.nonempty u mem_cons_self
      omega

theorem le_stop (h : Ordered ts) {t : Token} (ht : t ∈ ts) : t.stop ≤ (spanOf ts).stop := by
  have hne := ne_nil_of_mem ht
  obtain ⟨us, u, hts⟩ : ∃ us u, ts = us ++ [u] := ⟨_, _, (dropLast_concat_getLast hne).symm⟩
  have hlast : (spanOf ts).stop = u.stop := by
    rw [spanOf_eq hne]
    simp only [hts, getLast_concat]
  rw [hlast]
  rw [hts] at h ht
  rcases mem_append.mp ht with ht | ht
  · have hstop := (pairwise_append.mp h.pairwise).2.2 t ht u mem_cons_self
    have hlt := h.nonempty u (mem_append_right _ mem_cons_self)
    omega
  · exact Nat.le_of_eq (congrArg stop (mem_singleton.mp ht))

theorem start_lt_stop (h : Ordered ts) (hne : ts ≠ []) : (spanOf ts).start < (spanOf ts).stop := by
  have hmem := head_mem hne
  have hstart := h.start_le hmem
  have hstop := h.le_stop hmem
  have hlt := h.nonempty _ hmem
  omega

/-- A run of tokens lies in the span of each run that it is taken from. -/
theorem isWithin_spanOf (h : Ordered ts) (hus : us.Sublist ts) (hne : us ≠ []) :
    (spanOf us).isWithin (spanOf ts) = true := by
  rw [Span.isWithin_iff, spanOf_eq hne]
  exact ⟨h.start_le (hus.subset (head_mem hne)), h.le_stop (hus.subset (getLast_mem hne))⟩

theorem stop_le_start (h : Ordered (us ++ vs)) (hus : us ≠ []) (hvs : vs ≠ []) :
    (spanOf us).stop ≤ (spanOf vs).start := by
  rw [spanOf_eq hus, spanOf_eq hvs]
  exact (pairwise_append.mp h.pairwise).2.2 _ (getLast_mem hus) _ (head_mem hvs)

/-- Of two runs that follow each other neither lies in the span of the other. -/
theorem not_isWithin_spanOf (h : Ordered (us ++ vs)) (hus : us ≠ []) (hvs : vs ≠ []) :
    (spanOf us).isWithin (spanOf vs) = false ∧ (spanOf vs).isWithin (spanOf us) = false := by
  have hbetween := h.stop_le_start hus hvs
  have hu := (h.sublist (sublist_append_left us vs)).start_lt_stop hus
  have hv := (h.sublist (sublist_append_right us vs)).start_lt_stop hvs
  constructor
  · rw [← Bool.not_eq_true, Span.isWithin_iff]
    omega
  · rw [← Bool.not_eq_true, Span.isWithin_iff]
    omega

/-- A run that fills the span of the tokens around it is all of them. -/
theorem eq_of_isWithin_spanOf (h : Ordered ts) (hus : us <:+: ts) (hne : us ≠ [])
    (hwithin : (spanOf ts).isWithin (spanOf us) = true) : us = ts := by
  obtain ⟨before, after, rfl⟩ := hus
  rw [Span.isWithin_iff] at hwithin
  have hbefore : before = [] := by
    refine Classical.byContradiction fun hbefore => ?_
    -- the tokens before begin in front of the run
    have hfront := h.sublist (sublist_append_left (before ++ us) after)
    have hbetween := hfront.stop_le_start hbefore hne
    have hlt := (hfront.sublist (sublist_append_left before us)).start_lt_stop hbefore
    have hin := hfront.isWithin_spanOf (sublist_append_left before us) hbefore
    have hin' := h.isWithin_spanOf (sublist_append_left (before ++ us) after) (by simp [hbefore])
    rw [Span.isWithin_iff] at hin hin'
    omega
  subst hbefore
  rw [nil_append] at h hwithin ⊢
  have hafter : after = [] := by
    refine Classical.byContradiction fun hafter => ?_
    have hbetween := h.stop_le_start hne hafter
    have hlt := (h.sublist (sublist_append_right us after)).start_lt_stop hafter
    have hin := h.isWithin_spanOf (sublist_append_right us after) hafter
    rw [Span.isWithin_iff] at hin
    omega
  rw [hafter, append_nil]

end Ordered

/-- The span of a run whose tokens are counted from a later offset. -/
theorem spanOf_map_shiftDown {ts : List Token} {g : Token → Token} {base : Nat}
    (hstart : ∀ t, (g t).start = t.start - base) (htext : ∀ t, (g t).text = t.text)
    (hbase : ∀ t ∈ ts, base ≤ t.start) : spanOf (ts.map g) = (spanOf ts).shiftDown base := by
  by_cases hne : ts = []
  · subst hne
    rw [map_nil, show spanOf [] = ⟨0, 0⟩ from rfl, Span.shiftDown, Nat.zero_sub]
  · have hmap : ts.map g ≠ [] := by simpa using hne
    have hlast := hbase _ (getLast_mem hne)
    have hstop : (g (ts.getLast hne)).stop = (ts.getLast hne).stop - base := by
      rw [stop, stop, hstart, htext]
      omega
    rw [spanOf_eq hmap, spanOf_eq hne, head_map, getLast_map, hstart, hstop]
    rfl

end Token

end SwiftOutline
