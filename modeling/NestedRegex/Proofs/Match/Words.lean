import NestedRegex.Proofs.Forest.Word
import NestedRegex.Proofs.Match.Exchanges
import NestedRegex.Proofs.Match.Replaces

namespace NestedRegex

namespace Match

variable {m m' : Match} {h a b : Handle} {s old x y : Span} {nodes : List Node}

/-- The bounds of all spans that are held are words. -/
def InWords (m : Match) : Prop :=
  ∀ (i : Nat) (s : Span), m.places[i]? = some (.held s) → s.InWords

/-- All spans that are held stop below the limit of words. -/
def StopsInWords (m : Match) : Prop :=
  ∀ (i : Nat) (s : Span), m.places[i]? = some (.held s) → s.stop < Word.limit

theorem StopsInWords.inWords (hw : m.StopsInWords) : m.InWords :=
  fun i s hs => Span.inWords_of_stop_lt (hw i s hs)

end Match

namespace Edit

variable {m : Match} {move : Nat → Span → Except Fault (Option Span)}
  {exact : Nat → Span → Option Span}

/-- Where all spans that are held can be reckoned, they go there. -/
theorem reckonPlaces_ok (h : ∀ (i : Nat) (s : Span), m.places[i]? = some (.held s) →
      move i s = .ok (exact i s)) :
    reckonPlaces move m = .ok () { m with places := Match.moved exact m.places } := by
  have reckoned : m.places.zipIdx.mapM (fun entry => entry.1.reckon (move entry.2)) =
      .ok (Match.moved exact m.places) := by
    rw [Match.moved, List.mapIdx_eq_zipIdx_map]
    refine List.mapM_ok fun entry hin => ?_
    obtain ⟨place, i⟩ := entry
    have hplace : m.places[i]? = some place := List.mem_zipIdx_iff_getElem?.1 hin
    cases place with
    | unbound => rfl
    | invalidated => rfl
    | held s =>
      simp only [Place.reckon, h i s hplace, bind, Except.bind, pure, Except.pure]
      cases exact i s <;> rfl
  simp only [reckonPlaces, reckoned]

/-- Where no stop wraps around, neither before nor after, spans go where they go exactly. -/
theorem reckonPlaces_eq (hw : m.StopsInWords)
    (hw' : Match.InWords { m with places := Match.moved exact m.places })
    (h : ∀ (i : Nat) (s : Span), m.places[i]? = some (.held s) →
      Word.Reckoned s (move i s) (exact i s)) : reckonPlaces move m = movePlaces exact m := by
  refine reckonPlaces_ok fun i s hs => ?_
  obtain ⟨t, ht, hexact⟩ := h i s hs
  obtain rfl := hexact (hw i s hs)
  rw [ht]
  cases he : exact i s with
  | none => rfl
  | some u =>
    have hu : u.InWords := hw' i u (Match.held_moved.2 ⟨s, hs, he⟩)
    rw [Option.map_some, hu.wrapped_eq]

end Edit

namespace Match

variable {m m' : Match} {h a b : Handle} {s old x y : Span} {nodes : List Node}

/-- The spans of a replacement can be reckoned. -/
theorem reckoned_replaced (hs : s.InWords) (hold : old.stop < Word.limit) (h : Handle) (i : Nat)
    {count : Nat} (hcount : count < Word.limit) (stays : SeqName → Bool) :
    Word.Reckoned s
      (Option.filter (fun s => stays s.seq) <$> if i = h.index then
        .ok (some { old with length := count }) else Word.whenReplaced s old count)
      ((if i = h.index then some { old with length := count }
        else s.whenReplaced old count).filter fun s => stays s.seq) := by
  refine .filter ?_ stays
  by_cases hi : i = h.index
  · rw [if_pos hi, if_pos hi]
    have hown : Span.InWords { old with length := count } :=
      ⟨(Span.inWords_of_stop_lt hold).1, hcount⟩
    exact .known hown fun _ => rfl
  · rw [if_neg hi, if_neg hi]
    exact Word.reckoned_whenReplaced hs hold count

theorem contentUpTo_eq (hw : m.StopsInWords) (h : Handle) :
    m.contentUpTo Word.stop h = m.content h := by
  unfold content contentUpTo
  cases hs : m.span h with
  | error e => rfl
  | ok s =>
    have hstop : Word.stop s = s.stop := Word.stop_eq (hw _ _ (span_eq_ok_iff.1 hs).2)
    simp only [bind, Except.bind, hstop]

theorem Swapped.closed {xs ys frontX backX frontY backY : List Node}
    (hs : Swapped m m' a b x y xs ys frontX backX frontY backY) (hf : m.forest.Closed) :
    m'.forest.Closed := by
  obtain ⟨hx, hy⟩ := hs.nodes_before
  have hmid := Forest.spliced_setChildren hs.beforeY xs
  have hnext := Forest.spliced_setChildren hs.beforeX ys
  rw [hs.result]
  exact hnext.closed (hmid.closed hf (hf.holds_of_nodes? hx)) (hmid.holds.2 (hf.holds_of_nodes? hy))

/-- The spans of a swap can be reckoned. -/
theorem Swapped.reckoned {xs ys frontX backX frontY backY : List Node}
    (hd : Swapped m m' a b x y xs ys frontX backX frontY backY)
    (hlt : ∀ s, m.span a = .ok s ∨ m.span b = .ok s → s.stop < Word.limit) (hs : s.InWords) :
    Word.Reckoned s (Word.whenSwapped s x y) (s.whenSwapped x y) := by
  obtain ⟨hx, hy⟩ : x.stop < Word.limit ∧ y.stop < Word.limit := by
    rcases hd.spans with ⟨hax, hby⟩ | ⟨hay, hbx⟩
    · exact ⟨hlt x (.inl hax), hlt y (.inr hby)⟩
    · exact ⟨hlt x (.inr hbx), hlt y (.inl hay)⟩
  exact Word.reckoned_whenSwapped hs hx hy hd.order

section Closed

variable (hf : m.forest.Closed)
include hf

section Stops

variable (hw : m.StopsInWords)
include hw

/-- A replacement in words is the exact one where all spans stop below the limit. -/
theorem replaceInWords_eq (h : Handle) (holds : m.forest.Holds nodes)
    (hcount : nodes.length < Word.limit)
    (hw' : ∀ m', replace h nodes m = .ok () m' → m'.InWords) :
    replaceInWords h nodes m = replace h nodes m := by
  have hstop {s : Span} (hs : m.span h = .ok s) : Word.stop s = s.stop :=
    Word.stop_eq (hw _ _ (span_eq_ok_iff.1 hs).2)
  cases hn : m.content h with
  | error e =>
    have hrefused : replaceInWords h nodes m = _ :=
      replaceBy_refused ((contentUpTo_eq hw h).trans hn)
    exact hrefused.trans (replaceBy_refused hn).symm
  | ok content =>
    obtain ⟨s, hs, hx⟩ := content_eq_ok_iff.1 hn
    rcases replaceBy_cases hf hs hx holds with ⟨e, hrun⟩ | ⟨m', _, _, kept, gone, hr, hrun⟩
    · exact (hrun _ _ (hstop hs)).trans (hrun _ _ rfl).symm
    · have hmade : replace h nodes m = _ := hrun _ _ rfl
      have hwords : replaceInWords h nodes m = _ := hrun _ _ (hstop hs)
      rw [hwords, hmade, Nat.mod_eq_of_lt hcount]
      exact Edit.reckonPlaces_eq (m := { m with forest := m'.forest }) hw (hw' _ hmade)
        fun i t ht => reckoned_replaced (hw.inWords i t ht) (hw _ _ (span_eq_ok_iff.1 hs).2) h i
          hcount fun id => id ∉ gone || id ∈ kept

/-- A swap in words is the exact one where all spans stop below the limit. -/
theorem swapInWords_eq (a b : Handle) (hw' : ∀ m', swap a b m = .ok () m' → m'.InWords) :
    swapInWords a b m = swap a b m := by
  have hlt (s : Span) (hs : m.span a = .ok s ∨ m.span b = .ok s) : s.stop < Word.limit := by
    rcases hs with hs | hs
    · exact hw _ _ (span_eq_ok_iff.1 hs).2
    · exact hw _ _ (span_eq_ok_iff.1 hs).2
  have refused {e : HandleError} (hn : m.content a = .error e ∨ m.content b = .error e) :
      swapInWords a b m = swap a b m := by
    obtain ⟨e, he⟩ := swapBy_refused hn
    have hwords : swapInWords a b m = _ := he _ _ (contentUpTo_eq hw a) (contentUpTo_eq hw b)
    exact hwords.trans (he _ _ rfl rfl).symm
  cases hss : m.content a with
  | error e => exact refused (.inl hss)
  | ok ss =>
    cases hts : m.content b with
    | error e => exact refused (.inr hts)
    | ok ts =>
      obtain ⟨s, hs, hns⟩ := content_eq_ok_iff.1 hss
      obtain ⟨t, ht, hnt⟩ := content_eq_ok_iff.1 hts
      have hstop : Word.stop s = s.stop := Word.stop_eq (hlt s (.inl hs))
      have htstop : Word.stop t = t.stop := Word.stop_eq (hlt t (.inr ht))
      rcases swapBy_cases hf hs ht hns hnt with ⟨e, hrun⟩ | ⟨m', x, y, _, _, _, _, _, _, hd, hrun⟩
      · have hwords : swapInWords a b m = _ := hrun _ _ hstop htstop
        exact hwords.trans (hrun _ _ rfl rfl).symm
      · have hmade : swap a b m = _ := hrun _ _ rfl rfl
        have hwords : swapInWords a b m = _ := hrun _ _ hstop htstop
        rw [hwords, hmade]
        exact Edit.reckonPlaces_eq (m := { m with forest := m'.forest }) hw (hw' _ hmade)
          fun i u hu => hd.reckoned hlt (hw.inWords i u hu)

end Stops

end Closed

section Sound

variable {home : SeqName} {front back : List Node}

/-- All sequences are shorter than the limit of words. -/
def LengthsInWords (m : Match) : Prop :=
  ∀ id, (m.forest.nodesOf id).length < Word.limit

theorem Sound.stopsInWords (hm : m.Sound home front back) (hl : m.LengthsInWords) :
    m.StopsInWords := by
  intro i s hs
  have hfits := (hm.held hs).2.2
  exact Nat.lt_of_le_of_lt (Nat.le_of_add_right_le hfits) (hl s.seq)

theorem Sound.after (hm : m.Sound home front back) (op : Operation) :
    (op.after m).Sound home front back := by
  have hstep : Step (fun _ => True) m (op.after m) := ⟨op, trivial, rfl⟩
  exact hm.step hstep

/-- So in good order an edit in words is the exact one, as long as no sequence grows to the limit. -/
theorem Sound.replaceInWords_eq (hm : m.Sound home front back) (hl : m.LengthsInWords) (h : Handle)
    (holds : m.forest.Holds nodes) (hcount : nodes.length < Word.limit)
    (hl' : ((Operation.replace h nodes).after m).LengthsInWords) :
    replaceInWords h nodes m = replace h nodes m := by
  refine Match.replaceInWords_eq hm.closed (hm.stopsInWords hl) h holds hcount fun m' hrun => ?_
  have hafter : (Operation.replace h nodes).after m = m' := by
    rw [Operation.after, Operation.edit, hrun]
  exact hafter ▸ ((hm.after _).stopsInWords hl').inWords

theorem Sound.swapInWords_eq (hm : m.Sound home front back) (hl : m.LengthsInWords) (a b : Handle)
    (hl' : ((Operation.swap a b).after m).LengthsInWords) :
    swapInWords a b m = swap a b m := by
  refine Match.swapInWords_eq hm.closed (hm.stopsInWords hl) a b fun m' hrun => ?_
  have hafter : (Operation.swap a b).after m = m' := by
    rw [Operation.after, Operation.edit, hrun]
  exact hafter ▸ ((hm.after _).stopsInWords hl').inWords

end Sound

end Match

end NestedRegex
