import NestedRegex.Proofs.Forest.Spans
import NestedRegex.Proofs.Forest.Zones

namespace NestedRegex

namespace Span

variable {α : Type} {u s t : Span}

/-- The items of `u` with new ones in the place of those of `s`, if `u` encloses it. -/
def patched (u s : Span) (new items : List α) : List α :=
  if u.encloses s then
    items.take (s.start - u.start) ++ new ++ items.drop (s.stop - u.start)
  else items

theorem patched_of_not_encloses (h : ¬u.encloses s = true) (new items : List α) :
    u.patched s new items = items :=
  if_neg h

theorem patched_append {before old behind : List α} (h : u.encloses s = true)
    (hbefore : before.length = s.start - u.start) (hold : old.length = s.length) (new : List α) :
    u.patched s new (before ++ old ++ behind) = before ++ new ++ behind := by
  obtain ⟨-, hl, -⟩ := encloses_iff.1 h
  have hskip : s.stop - u.start = (before ++ old).length := by
    simp only [stop, List.length_append]
    omega
  rw [patched, if_pos h, hskip, List.drop_left, ← hbefore, List.append_assoc before old,
    List.take_left]

/-- Two enclosed spans, one behind the other, change their items. The one behind goes first, so that
the other is still where it was. -/
theorem patched_both_append {before ss between ts behind : List α} (hs : u.encloses s = true)
    (ht : u.encloses t = true) (hbefore : before.length = s.start - u.start)
    (hss : ss.length = s.length) (hbetween : s.stop + between.length = t.start)
    (hts : ts.length = t.length) :
    u.patched s ts (u.patched t ss (before ++ (ss ++ between ++ ts) ++ behind)) =
      before ++ (ts ++ between ++ ss) ++ behind := by
  obtain ⟨-, hl, -⟩ := encloses_iff.1 hs
  have hplace : (before ++ ss ++ between).length = t.start - u.start := by
    simp only [stop] at hbetween
    simp only [List.length_append]
    omega
  calc u.patched s ts (u.patched t ss (before ++ (ss ++ between ++ ts) ++ behind))
      = u.patched s ts (u.patched t ss (before ++ ss ++ between ++ ts ++ behind)) := by
        simp only [List.append_assoc]
    _ = u.patched s ts (before ++ ss ++ between ++ ss ++ behind) := by
        rw [patched_append ht hplace hts ss]
    _ = u.patched s ts (before ++ ss ++ (between ++ ss ++ behind)) := by
        simp only [List.append_assoc]
    _ = before ++ ts ++ (between ++ ss ++ behind) := patched_append hs hbefore hss ts
    _ = before ++ (ts ++ between ++ ss) ++ behind := by simp only [List.append_assoc]

end Span

namespace Forest

variable {f g : Forest} {u s : Span} {front old new back nodes : List Node}

section Enclosed

variable (hbefore : f.children? s.seq = some (front ++ old ++ back))
  (hfront : front.length = s.start) (hold : old.length = s.length) (hn : f.nodes? u = some nodes)
  (henc : u.encloses s = true)
include hbefore hfront hold hn henc

/-- The nodes of a span are cut into those of an enclosed one and what is before and behind it. -/
theorem split_of_encloses : ∃ frontU before behind backU, front = frontU ++ before ∧
    back = behind ++ backU ∧ nodes = before ++ old ++ behind ∧ frontU.length = u.start ∧
    before.length = s.start - u.start := by
  obtain ⟨e, hl, hr⟩ := Span.encloses_iff.1 henc
  obtain ⟨frontU, backU, hc, hstart, hlength⟩ := nodes?_eq_some_iff.1 hn
  have heq : front ++ old ++ back = frontU ++ nodes ++ backU :=
    Option.some.inj (hbefore.symm.trans (e ▸ hc))
  simp only [Span.stop] at hr
  obtain ⟨before, rfl⟩ : frontU <+: front := by
    have hp : front <+: front ++ old ++ back := ⟨old ++ back, (List.append_assoc _ _ _).symm⟩
    have hq : frontU <+: front ++ old ++ back := ⟨nodes ++ backU, by rw [heq, List.append_assoc]⟩
    exact List.prefix_of_prefix_length_le hq hp (by omega)
  have hlengths := congrArg List.length heq
  simp only [List.length_append] at hlengths hfront
  obtain ⟨behind, rfl⟩ : backU <:+ back :=
    List.suffix_of_suffix_length_le ⟨frontU ++ nodes, heq.symm⟩ ⟨frontU ++ before ++ old, rfl⟩
      (by omega)
  refine ⟨frontU, before, behind, backU, rfl, rfl, ?_, hstart, by omega⟩
  have hmid : frontU ++ (before ++ old ++ behind) ++ backU = frontU ++ nodes ++ backU := by
    rw [← heq]
    simp only [List.append_assoc]
  exact (List.append_cancel_left (List.append_cancel_right hmid)).symm

/-- A span that is stretched around new nodes has them in the place of the old ones. -/
theorem nodes?_stretched (hafter : g.children? s.seq = some (front ++ new ++ back)) :
    g.nodes? (u.stretched s new.length) = some (u.patched s new nodes) := by
  obtain ⟨e, hl, hr⟩ := Span.encloses_iff.1 henc
  obtain ⟨frontU, before, behind, backU, rfl, rfl, rfl, hstart, hlength⟩ :=
    split_of_encloses hbefore hfront hold hn henc
  have hcount := length_of_nodes? hn
  rw [Span.patched_append henc hlength hold]
  refine nodes?_eq_some_iff.2 ⟨frontU, backU, ?_, hstart, ?_⟩
  · change g.children? u.seq = _
    rw [e, hafter]
    simp only [List.append_assoc]
  · simp only [List.length_append] at hcount
    simp only [Span.stretched, List.length_append]
    omega

end Enclosed

end Forest

end NestedRegex
