import NestedRegex.Proofs.Match.Puts

namespace NestedRegex

namespace Forest

variable {f : Forest} {v w : Value} {before after : List Value} {n n' : Node}
  {front back : List Node} {names : List SeqName}

/-- Two neighbours in the other order. -/
theorem ShowsItems.exchange
    (hs : ShowsItems f (before ++ v :: w :: after) (front ++ n :: n' :: back) names)
    (hl : before.length = front.length) :
    ∃ names', ShowsItems f (before ++ w :: v :: after) (front ++ n' :: n :: back) names' ∧
      names' ⊆ names := by
  induction before generalizing front names with
  | nil =>
    obtain rfl := List.length_eq_zero_iff.1 hl.symm
    cases hs with
    | @cons _ _ _ _ xs _ hv hvs apart =>
      cases hvs with
      | @cons _ _ _ _ ys zs hw hvs apart' =>
        refine ⟨ys ++ (xs ++ zs), .cons hw (.cons hv hvs ?_) ?_, ?_⟩
        · exact fun x hx hz => apart x hx (List.mem_append_right _ hz)
        · intro y hy hin
          rcases List.mem_append.1 hin with hx | hz
          · exact apart y hx (List.mem_append_left _ hy)
          · exact apart' y hy hz
        · intro x hx
          simp only [List.mem_append] at hx ⊢
          tauto
  | cons u before ih =>
    cases front with
    | nil => cases hl
    | cons m front =>
      cases hs with
      | @cons _ _ _ _ us ys hu hvs apart =>
        obtain ⟨ys', hvs', hsub⟩ := ih hvs (by simpa using hl)
        exact ⟨us ++ ys', .cons hu hvs' fun x hx hy => apart x hx (hsub hy),
          List.append_subset.2 ⟨List.subset_append_left _ _,
            List.Subset.trans hsub (List.subset_append_right _ _)⟩⟩

end Forest

namespace Match

open Forest

variable {m m' m'' : Match} {h k : Handle} {id below : SeqName}
  {names names' names'' : List SeqName} {before after : List Value} {front back : List Node}
  {v w : Value} {n n' : Node}

/-- Edits below a node, which shows `w` after them. -/
structure Reworked (m m' : Match) (id : SeqName) (names : List SeqName) (w : Value)
    (names' : List SeqName) : Prop where
  get : ∀ name, m'.get? name = m.get? name
  whole : m'.whole = m.whole
  edited : m.forest.Edited m'.forest names
  shows : m'.forest.Shows w (.seq id) names'
  renews : m.forest.Renews names names'
  held : ∀ {s}, m'.span m'.whole = .ok s → m.span m.whole = .ok s

theorem Reworked.refl (hf : m.forest.Closed) (ha : m.forest.Acyclic)
    (hs : m.forest.Shows v (.seq id) names) : Reworked m m id names v names where
  get _ := rfl
  whole := rfl
  edited := .refl hf ha names
  shows := hs
  renews := .refl _ _
  held hspan := hspan

theorem Reworked.trans (h : Reworked m m' id names v names')
    (h' : Reworked m' m'' id names' w names'') : Reworked m m'' id names w names'' where
  get name := (h'.get name).trans (h.get name)
  whole := h'.whole.trans h.whole
  edited := h.edited.trans h'.edited h.renews
  shows := h'.shows
  renews := h.edited.renews_trans h.renews h'.renews
  held hspan := h.held (h'.held hspan)

/-- What is edited below an item is edited below the node that has the item. -/
theorem reworked_below (hs : m.forest.Shows (.seq (before ++ v :: after)) (.seq id) names)
    (hc : m.forest.children? id = some (front ++ .seq below :: back))
    (hl : before.length = front.length) :
    ∃ xs, m.forest.Shows v (.seq below) xs ∧ xs ⊆ names ∧ id ∉ xs ∧
      ∀ {m' w xs'}, Reworked m m' below xs w xs' →
        m'.forest.children? id = some (front ++ .seq below :: back) ∧
        ∃ names', Reworked m m' id names (.seq (before ++ w :: after)) names' := by
  obtain ⟨xs, hv, hxs, hid, hupdate⟩ := hs.update hc hl
  refine ⟨xs, hv, hxs, hid, ?_⟩
  intro m' w xs' h
  have hc' := h.edited.others hid hc
  obtain ⟨names', hs', hrenews⟩ :=
    hupdate (h.edited.mono (List.subset_cons_self id xs)) hc' h.shows h.renews
  exact ⟨hc', names', h.get, h.whole, h.edited.mono hxs, hs', hrenews, h.held⟩

section Items

variable (hf : m.forest.Closed) (ha : m.forest.Acyclic)
include hf ha

/-- A new value can take the place of an item. -/
theorem refill_ok (hs : m.forest.Shows (.seq (before ++ v :: after)) (.seq id) names)
    (hc : m.forest.children? id = some (front ++ n :: back)) (hl : before.length = front.length)
    (hspan : m.span h = .ok ⟨id, front.length, 1⟩) (hw : m.whole.index ≠ h.index) (w : Value) :
    ∃ m' n' fresh names', putValues h [w] m = .ok () m' ∧
      Put m m' h ⟨id, front.length, 1⟩ front back w n' fresh ∧
      Reworked m m' id names (.seq (before ++ w :: after)) names' := by
  obtain ⟨m', n', fresh, hrun, hput⟩ := putValue_ok hf ha hc rfl rfl hspan w
  obtain ⟨xs, -, -, -, hupdate⟩ := hs.update hc hl
  obtain ⟨names', hs', hrenews⟩ := hupdate (hput.edited.mono (by simp)) hput.children hput.shows
    fun x hx => .inr (hput.fresh x hx)
  refine ⟨m', n', fresh, names', hrun, hput, hput.get, hput.whole, ?_, hs', hrenews, ?_⟩
  · exact hput.edited.mono (by simpa using hs.mem_names)
  · intro s hspan
    rw [hput.whole] at hspan
    exact hput.held hw hspan

/-- Two items next to each other can change places. -/
theorem exchange_items_ok
    (hs : m.forest.Shows (.seq (before ++ v :: w :: after)) (.seq id) names)
    (hc : m.forest.children? id = some (front ++ n :: n' :: back))
    (hl : before.length = front.length) (hh : m.span h = .ok ⟨id, front.length + 1, 1⟩)
    (hk : m.span k = .ok ⟨id, front.length, 1⟩)
    (hw : ∀ {s}, m.span m.whole = .ok s → s.seq ≠ id) :
    ∃ m' names', swap h k m = .ok () m' ∧
      Reworked m m' id names (.seq (before ++ w :: v :: after)) names' := by
  obtain ⟨m', hrun, hflip⟩ := swap_neighbours hf ha hc hh hk
  cases hs with
  | @seq _ _ nodes names hc' hvs hid =>
    obtain rfl := Option.some.inj (hc.symm.trans hc')
    obtain ⟨names', hvs', hsub⟩ := hvs.exchange hl
    have hid' : id ∉ names' := fun hin => hid (hsub hin)
    have hkept := hflip.edited.showsItems hvs' fun x hx hin =>
      hid' (List.mem_singleton.1 hin ▸ hx)
    refine ⟨m', id :: names', hrun, hflip.get, hflip.whole, hflip.edited.mono (by simp),
      .seq hflip.children hkept hid', ?_, ?_⟩
    · exact ((Renews.refl _ names').mono hsub).cons id
    · intro s hspan
      rw [hflip.whole] at hspan
      obtain ⟨t, ht, hsame⟩ := hflip.held hspan
      rw [hsame (hw ht)]
      exact ht

end Items

end Match

end NestedRegex
