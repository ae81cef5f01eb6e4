import NestedRegex.Proofs.Forest.Shows

namespace NestedRegex.Forest

/-- `g` is a forest in good order, and `f` but for what some sequences and new ones hold. -/
structure Edited (f g : Forest) (names : List SeqName) : Prop where
  closed : g.Closed
  acyclic : g.Acyclic
  root : g.root = f.root
  there : ∀ {x}, f.contains x = true → g.contains x = true
  others : ∀ {x nodes}, x ∉ names → f.children? x = some nodes → g.children? x = some nodes

/-- Names that are some of the old ones, or of sequences that were not there before. -/
def Renews (f : Forest) (old new : List SeqName) : Prop :=
  ∀ x ∈ new, x ∈ old ∨ f.contains x = false

variable {f g h : Forest} {names more old new : List SeqName} {id : SeqName} {v w : Value}
  {n : Node} {vs : List Value} {nodes : List Node}

theorem Renews.refl (f : Forest) (names : List SeqName) : f.Renews names names :=
  fun _ hx => .inl hx

theorem Renews.mono (hn : f.Renews old new) (hs : old ⊆ more) : f.Renews more new :=
  fun x hx => (hn x hx).imp_left fun hin => hs hin

theorem Renews.append (ho : f.Renews old names) (hn : f.Renews new more) :
    f.Renews (old ++ new) (names ++ more) := by
  intro x hx
  rcases List.mem_append.1 hx with hx | hx
  · exact (ho x hx).imp_left (List.mem_append_left _)
  · exact (hn x hx).imp_left (List.mem_append_right _)

theorem Renews.cons (hn : f.Renews old new) (id : SeqName) : f.Renews (id :: old) (id :: new) := by
  intro x hx
  rcases List.mem_cons.1 hx with rfl | hx
  · exact .inl List.mem_cons_self
  · exact (hn x hx).imp_left (List.mem_cons_of_mem _)

/-- A sequence that is there and is not one of the old ones is not one of the new ones. -/
theorem Renews.not_mem (hn : f.Renews old new) (hi : f.contains id = true) (ho : id ∉ old) :
    id ∉ new := by
  intro hin
  rcases hn id hin with hin | hnot
  · exact ho hin
  · rw [hi] at hnot
    cases hnot

namespace Edited

theorem refl (hf : f.Closed) (ha : f.Acyclic) (names : List SeqName) : Edited f f names where
  closed := hf
  acyclic := ha
  root := rfl
  there hx := hx
  others _ hc := hc

theorem mono (hg : Edited f g names) (hs : names ⊆ more) : Edited f g more where
  closed := hg.closed
  acyclic := hg.acyclic
  root := hg.root
  there := hg.there
  others hx := hg.others fun hin => hx (hs hin)

/-- What is new after the first edits is new before them. -/
theorem renews_trans (hg : Edited f g names) (ho : f.Renews old more) (hn : g.Renews more new) :
    f.Renews old new := by
  intro x hx
  rcases hn x hx with hin | hnot
  · exact ho x hin
  · cases hc : f.contains x with
    | false => exact .inr rfl
    | true =>
      rw [hg.there hc] at hnot
      cases hnot

/-- Later edits may keep to sequences that the first ones added. -/
theorem trans (hg : Edited f g names) (hh : Edited g h new) (hn : f.Renews names new) :
    Edited f h names where
  closed := hh.closed
  acyclic := hh.acyclic
  root := hh.root.trans hg.root
  there hx := hh.there (hg.there hx)
  others hx hc := hh.others (hn.not_mem (contains_iff.2 ⟨_, hc⟩) hx) (hg.others hx hc)

/-- What other sequences show stays as it is. -/
theorem shows (hg : Edited f g names) (hs : Shows f v n more) (apart : ∀ x ∈ more, x ∉ names) :
    Shows g v n more :=
  hs.congr fun x hx _ hc => hg.others (apart x hx) hc

theorem showsItems (hg : Edited f g names) (hs : ShowsItems f vs nodes more)
    (apart : ∀ x ∈ more, x ∉ names) : ShowsItems g vs nodes more :=
  hs.congr fun x hx _ hc => hg.others (apart x hx) hc

end Edited

section Update

variable {before after : List Value} {front back : List Node}

/-- One of some nodes, and what becomes of all of them when it comes to show another value. -/
theorem ShowsItems.update (hs : ShowsItems f (before ++ v :: after) (front ++ n :: back) names)
    (hl : before.length = front.length) (hid : id ∉ names) :
    ∃ xs, Shows f v n xs ∧ xs ⊆ names ∧ ∀ {g w n' xs'}, f.Edited g (id :: xs) →
      Shows g w n' xs' → f.Renews xs xs' → ∃ names',
        ShowsItems g (before ++ w :: after) (front ++ n' :: back) names' ∧
        f.Renews names names' := by
  induction before generalizing front names with
  | nil =>
    obtain rfl := List.length_eq_zero_iff.1 hl.symm
    cases hs with
    | @cons _ _ _ _ xs ys hv hvs apart =>
      refine ⟨xs, hv, List.subset_append_left xs ys, ?_⟩
      intro g w n' xs' hg hw hrenews
      have hkept : ShowsItems g after back ys := hg.showsItems hvs fun y hy hin => by
        rcases List.mem_cons.1 hin with rfl | hin
        · exact hid (List.mem_append_right _ hy)
        · exact apart y hin hy
      refine ⟨xs' ++ ys, .cons hw hkept fun x hx hy => ?_, hrenews.append (.refl f ys)⟩
      exact hrenews.not_mem (hvs.contains hy) (fun hin => apart x hin hy) hx
  | cons u before ih =>
    cases front with
    | nil => cases hl
    | cons m front =>
      cases hs with
      | @cons _ _ _ _ us ys hu hvs apart =>
        obtain ⟨xs, hv, hxs, hupdate⟩ := ih hvs (by simpa using hl) fun hin =>
          hid (List.mem_append_right _ hin)
        refine ⟨xs, hv, fun x hx => List.mem_append_right _ (hxs hx), ?_⟩
        intro g w n' xs' hg hw hrenews
        obtain ⟨ys', hvs', hrenews'⟩ := hupdate hg hw hrenews
        have hkept : Shows g u m us := hg.shows hu fun x hx hin => by
          rcases List.mem_cons.1 hin with rfl | hin
          · exact hid (List.mem_append_left _ hx)
          · exact apart x hx (hxs hin)
        refine ⟨us ++ ys', .cons hkept hvs' fun x hx hy => ?_,
          (Renews.refl f us).append hrenews'⟩
        exact hrenews'.not_mem (hu.contains hx) (apart x hx) hy

/-- One of the items that a node shows, and what the node shows when the item becomes another. -/
theorem Shows.update (hs : Shows f (.seq (before ++ v :: after)) (.seq id) names)
    (hc : f.children? id = some (front ++ n :: back)) (hl : before.length = front.length) :
    ∃ xs, Shows f v n xs ∧ xs ⊆ names ∧ id ∉ xs ∧ ∀ {g w n' xs'}, f.Edited g (id :: xs) →
      g.children? id = some (front ++ n' :: back) → Shows g w n' xs' → f.Renews xs xs' →
      ∃ names', Shows g (.seq (before ++ w :: after)) (.seq id) names' ∧
        f.Renews names names' := by
  cases hs with
  | @seq _ _ nodes below hc' hvs hid =>
    obtain rfl := Option.some.inj (hc.symm.trans hc')
    obtain ⟨xs, hv, hxs, hupdate⟩ := hvs.update hl hid
    refine ⟨xs, hv, fun x hx => List.mem_cons_of_mem _ (hxs hx), fun hin => hid (hxs hin), ?_⟩
    intro g w n' xs' hg hc hw hrenews
    obtain ⟨names', hvs', hrenews'⟩ := hupdate hg hw hrenews
    have there : f.contains id = true := contains_iff.2 ⟨_, hc'⟩
    exact ⟨id :: names', .seq hc hvs' (hrenews'.not_mem there hid), hrenews'.cons id⟩

end Update

end NestedRegex.Forest
