import NestedRegex.Proofs.Pattern.Checks

namespace NestedRegex.Pattern

section Names

variable {before after b : List String} {name : String} {f : Flaw} {p q : Pattern} {path : Path}

theorem nameFlawed_congr (h : ∀ n, n ∈ before ↔ n ∈ after) :
    NameFlawed before p path f ↔ NameFlawed after p path f :=
  ⟨fun hf => hf.mono fun n hn => (h n).1 hn, fun hf => hf.mono fun n hn => (h n).2 hn⟩

/-- The names before the next item are those before this one and those that it captures. -/
theorem mem_capturedBefore_succ {i : Nat} (hs : p.step? (.item i) = some q) :
    name ∈ capturedBefore p (.item (i + 1)) ↔
      name ∈ capturedBefore p (.item i) ∨ name ∈ captures q := by
  have next : ∀ items : List Pattern, items[i]? = some q →
      (name ∈ capturesOfItems (items.take (i + 1)) ↔
        name ∈ capturesOfItems (items.take i) ∨ name ∈ captures q) := by
    intro items hi
    simp only [mem_capturesOfItems_iff, List.take_add_one, hi, Option.toList_some, List.mem_append,
      List.mem_singleton, or_and_right, exists_or, exists_eq_left]
  cases p with
  | sequence items => exact next items hs
  | named other items =>
    rw [capturedBefore, capturedBefore, List.mem_cons, List.mem_cons, next items hs, or_assoc]
  | literal _ | any | choice _ | oneOrMore _ | backRef _ | check _ _ | atEnd => cases hs

/-- No name is empty in a part without flaws. -/
theorem empty_not_mem_captures (none : ∀ rest f, ¬NameFlawed before p rest f) :
    "" ∉ captures p := by
  intro h
  obtain ⟨inner, rest, part⟩ := (mem_captures p).1 h
  exact none rest _ (.emptyCaptureName part)

theorem within_nameFlawed (before : List String) (p : Pattern) : p.Within (NameFlawed before p) :=
  within_of_part NameFlawed.part

/-- Only a capture has a flaw of a name itself. -/
theorem not_nameFlawed_nil (hp : ∀ name inner, p ≠ .named name inner) (f : Flaw) :
    ¬NameFlawed before p [] f := by
  intro h
  obtain ⟨name, inner, he, -⟩ := nameFlawed_nil_iff.1 h
  exact hp name inner he

mutual

/-- The names of a part are checked from left to right, a part before what is inside it. -/
theorem scope_reports : ∀ (p : Pattern) {path before}, "" ∉ before →
    Reports (NameFlawed before p) path (scope path before p)
  | .named name items, path, before, hb => by
    rw [scope]
    by_cases hname : name = ""
    · subst hname
      rw [if_pos rfl]
      refine .here (nameFlawed_nil_iff.2 ⟨"", items, rfl, .inl ⟨rfl, rfl⟩⟩) fun f h => ?_
      obtain ⟨_, _, he, ⟨-, rfl⟩ | ⟨hin, -⟩⟩ := nameFlawed_nil_iff.1 h
      · rfl
      · obtain ⟨rfl, -⟩ := named.inj he
        exact absurd hin hb
    · rw [if_neg hname]
      by_cases hin : name ∈ before
      · rw [if_pos hin]
        refine .here (nameFlawed_nil_iff.2 ⟨name, items, rfl, .inr ⟨hin, rfl⟩⟩) fun f h => ?_
        obtain ⟨_, _, he, ⟨rfl, -⟩ | ⟨-, rfl⟩⟩ := nameFlawed_nil_iff.1 h
        · exact absurd (named.inj he).1 hname
        · rw [(named.inj he).1]
      · rw [if_neg hin]
        refine .whole (within_nameFlawed before _) (fun f h => ?_) (onlySteps_named name items)
          (scopeOfItems_reports items (listed_zero fun _ => rfl) ?_ fun n => ?_)
        · obtain ⟨_, _, he, ⟨rfl, -⟩ | ⟨h, -⟩⟩ := nameFlawed_nil_iff.1 h
          · exact hname (named.inj he).1
          · exact hin ((named.inj he).1 ▸ h)
        · rw [List.mem_cons, not_or]
          exact ⟨fun e => hname e.symm, hb⟩
        · simp only [capturedBefore, List.take_zero, capturesOfItems, List.mem_cons,
            List.not_mem_nil, or_false]
          exact or_comm
  | .sequence items, path, before, hb => by
    rw [scope]
    exact .whole (within_nameFlawed before _) (not_nameFlawed_nil nofun) (onlySteps_sequence items)
      (scopeOfItems_reports items (listed_zero fun _ => rfl) hb fun n =>
        (or_iff_left List.not_mem_nil).symm)
  | .choice alternatives, path, before, hb => by
    rw [scope]
    exact .whole (within_nameFlawed before _) (not_nameFlawed_nil nofun)
      (onlySteps_choice alternatives)
      (scopeOfAlternatives_reports alternatives (listed_zero fun _ => rfl) hb)
  | .oneOrMore body, path, before, hb => by
    rw [scope]
    have hnone : capturedBefore (.oneOrMore body) .body = [] := rfl
    refine .body (within_nameFlawed before _) (not_nameFlawed_nil nofun) (fun rest f => ?_)
      (scope_reports body hb)
    rw [nameFlawed_cons_iff rfl, hnone, List.append_nil]
  | .literal _, path, before, hb | .any, path, before, hb | .backRef _, path, before, hb
  | .check _ _, path, before, hb | .atEnd, path, before, hb =>
    .leaf (within_nameFlawed before _) (not_nameFlawed_nil nofun) fun s => by cases s <;> rfl

/-- Items are checked with the names of all that lies to the left of them. -/
theorem scopeOfItems_reports : ∀ (ps : List Pattern) {p path index before b},
    p.Listed .item index ps → "" ∉ before →
    (∀ n, n ∈ before ↔ n ∈ b ∨ n ∈ capturedBefore p (.item index)) →
    Reports (From .item index (NameFlawed b p)) path (scopeOfItems path index before ps)
  | [], p, path, index, before, b, listed, hb, hn => .nil (within_nameFlawed b p) listed
  | q :: ps, p, path, index, before, b, listed, hb, hn => by
    have hs := listed.head
    rw [scopeOfItems]
    refine .cons id (scope_reports q hb) (fun rest f => ?_) fun after hafter => ?_
    · rw [nameFlawed_cons_iff hs]
      exact nameFlawed_congr fun n => by rw [List.mem_append, hn]
    · have hmem := mem_of_scope q hafter
      have hempty : "" ∉ captures q := by
        have hreport : Reports (NameFlawed before q) (path ++ [.item index])
            (scope (path ++ [.item index]) before q) := scope_reports q hb
        rw [hafter] at hreport
        exact empty_not_mem_captures hreport.none_of_ok
      refine scopeOfItems_reports ps listed.tail ?_ fun n => ?_
      · rw [hmem, not_or]
        exact ⟨hb, hempty⟩
      · rw [hmem, hn, mem_capturedBefore_succ hs, or_assoc]

/-- Alternatives are all checked with the names of what lies to the left of the choice. -/
theorem scopeOfAlternatives_reports : ∀ (ps : List Pattern) {p path index before all},
    p.Listed .alternative index ps → "" ∉ before →
    Reports (From .alternative index (NameFlawed before p)) path
      (scopeOfAlternatives path index before all ps)
  | [], p, path, index, before, all, listed, hb => .nil (within_nameFlawed before p) listed
  | q :: ps, p, path, index, before, all, listed, hb => by
    have hnone : capturedBefore p (.alternative index) = [] := by cases p <;> rfl
    rw [scopeOfAlternatives]
    refine .cons id (scope_reports q hb) (fun rest f => ?_) fun branch _ =>
      scopeOfAlternatives_reports ps listed.tail hb
    rw [nameFlawed_cons_iff listed.head, hnone, List.append_nil]

end

end Names

section Places

variable {slots : List String} {ends ends' : Option Flaw} {f : Flaw} {p : Pattern} {path : Path}

theorem within_placeFlawed (slots : List String) (ends : Option Flaw) (p : Pattern) :
    p.Within (PlaceFlawed slots ends p) :=
  within_of_part PlaceFlawed.part

/-- A part that refers to nothing, offers something and is no end is not out of place itself. -/
theorem not_placeFlawed_nil (ref : ∀ name, p ≠ .backRef name) (offers : p ≠ .choice [])
    (anchor : p ≠ .atEnd) (f : Flaw) : ¬PlaceFlawed slots ends p [] f := by
  intro h
  rcases placeFlawed_nil_iff.1 h with ⟨name, he, -⟩ | ⟨he, -⟩ | ⟨he, -⟩
  · exact ref name he
  · exact offers he
  · exact anchor he

/-- Whether an end may stand here matters only for an end. -/
theorem PlaceFlawed.of_ne_end (hp : p ≠ .atEnd) (h : PlaceFlawed slots ends p path f) :
    PlaceFlawed slots ends' p path f := by
  cases h with
  | undeclaredBackRef part nowhere => exact .undeclaredBackRef part nowhere
  | emptyAlternation part => exact .emptyAlternation part
  | whole anchor flawed => exact absurd anchor hp
  | anchor part anchor flawed => exact .anchor part anchor flawed

/-- The flaw that an end has where it may or may not stand as the last item. -/
def endFlawIf (endAllowed : Bool) : Option Flaw :=
  if endAllowed then none else some .misplacedAnchor

mutual

/-- The places in a part are checked from left to right, a part before what is inside it. -/
theorem place_reports : ∀ (p : Pattern) {path endAllowed},
    Reports (PlaceFlawed slots (endFlawIf endAllowed) p) path (place slots path endAllowed p)
  | .sequence items, path, endAllowed => by
    rw [place]
    refine .whole (within_placeFlawed slots _ _) (not_placeFlawed_nil nofun nofun nofun)
      (onlySteps_sequence items) (placeItems_reports items (listed_zero fun _ => rfl) fun k _ => ?_)
    simp only [endFlaw, endFlawIf, Nat.zero_add, Bool.true_and, decide_eq_true_eq]
  | .named name items, path, endAllowed => by
    rw [place]
    exact .whole (within_placeFlawed slots _ _) (not_placeFlawed_nil nofun nofun nofun)
      (onlySteps_named name items)
      (placeItems_reports items (listed_zero fun _ => rfl) fun k _ => rfl)
  | .choice [], path, endAllowed => by
    rw [place]
    refine .here (.emptyAlternation rfl) fun f h => ?_
    obtain ⟨_, he, -⟩ | ⟨-, rfl⟩ | ⟨he, -⟩ := placeFlawed_nil_iff.1 h
    · cases he
    · rfl
    · cases he
  | .choice (q :: qs), path, endAllowed => by
    rw [place]
    exact .whole (within_placeFlawed slots _ _) (not_placeFlawed_nil nofun nofun nofun)
      (onlySteps_choice (q :: qs))
      (placeAlternatives_reports (q :: qs) (listed_zero fun _ => rfl) fun k => rfl)
  | .oneOrMore body, path, endAllowed => by
    have hinner : Reports (PlaceFlawed slots (endFlawIf false) body) (path ++ [.body])
        (place slots (path ++ [.body]) false body) := place_reports body
    have hbody : Reports (PlaceFlawed slots (some .anchorInRepeat) body) (path ++ [.body])
        (place slots path endAllowed (.oneOrMore body)) := by
      by_cases hend : body = .atEnd
      · subst hend
        refine .here (.whole rfl rfl) fun f h => ?_
        obtain ⟨_, he, -⟩ | ⟨he, -⟩ | ⟨-, hf⟩ := placeFlawed_nil_iff.1 h
        · cases he
        · cases he
        · exact (Option.some.inj hf).symm
      · have hplace : place slots path endAllowed (.oneOrMore body) =
            place slots (path ++ [.body]) false body := by
          cases body <;> first | rfl | exact absurd rfl hend
        rw [hplace]
        exact hinner.congr fun rest f => ⟨fun h => h.of_ne_end hend, fun h => h.of_ne_end hend⟩
    exact .body (within_placeFlawed slots _ _) (not_placeFlawed_nil nofun nofun nofun)
      (fun rest f => placeFlawed_cons_iff rfl) hbody
  | .backRef name, path, endAllowed => by
    rw [place]
    by_cases hin : name ∈ slots
    · rw [if_pos hin]
      refine .leaf (within_placeFlawed slots _ _) (fun f h => ?_) fun s => by cases s <;> rfl
      obtain ⟨_, he, hout, -⟩ | ⟨he, -⟩ | ⟨he, -⟩ := placeFlawed_nil_iff.1 h
      · exact hout (backRef.inj he ▸ hin)
      · cases he
      · cases he
    · rw [if_neg hin]
      refine .here (.undeclaredBackRef rfl hin) fun f h => ?_
      obtain ⟨_, he, -, rfl⟩ | ⟨he, -⟩ | ⟨he, -⟩ := placeFlawed_nil_iff.1 h
      · rw [backRef.inj he]
      · cases he
      · cases he
  | .atEnd, path, endAllowed => by
    rw [place]
    cases endAllowed with
    | true =>
      refine .leaf (within_placeFlawed slots _ _) (fun f h => ?_) fun s => by cases s <;> rfl
      obtain ⟨_, he, -⟩ | ⟨he, -⟩ | ⟨-, he⟩ := placeFlawed_nil_iff.1 h <;> cases he
    | false =>
      refine .here (.whole rfl rfl) fun f h => ?_
      obtain ⟨_, he, -⟩ | ⟨he, -⟩ | ⟨-, hf⟩ := placeFlawed_nil_iff.1 h
      · cases he
      · cases he
      · exact (Option.some.inj hf).symm
  | .literal _, path, endAllowed | .any, path, endAllowed | .check _ _, path, endAllowed =>
    .leaf (within_placeFlawed slots _ _) (not_placeFlawed_nil nofun nofun nofun) fun s => by
      cases s <;> rfl

/-- Only the last item may be an end, if any may. -/
theorem placeItems_reports : ∀ (ps : List Pattern) {p path index endAllowed ends},
    p.Listed .item index ps →
    (∀ k, k < ps.length →
      endFlaw p (.item (index + k)) = endFlawIf (endAllowed && k + 1 = ps.length)) →
    Reports (From .item index (PlaceFlawed slots ends p)) path
      (placeItems slots path index endAllowed ps)
  | [], p, path, index, endAllowed, ends, listed, hend =>
    .nil (within_placeFlawed slots ends p) listed
  | q :: ps, p, path, index, endAllowed, ends, listed, hend => by
    have hfirst : endFlaw p (.item index) = endFlawIf (endAllowed && ps.isEmpty) := by
      rw [show endFlaw p (.item index) = _ from hend 0 (Nat.zero_lt_succ _)]
      cases ps <;> simp
    rw [placeItems]
    refine .cons id (place_reports q) (fun rest f => ?_) fun _ _ => ?_
    · rw [placeFlawed_cons_iff listed.head, hfirst]
    · refine placeItems_reports ps listed.tail fun k hk => ?_
      rw [Nat.add_assoc, Nat.add_comm 1 k, hend (k + 1) (Nat.succ_lt_succ hk)]
      simp

/-- No alternative may be an end. -/
theorem placeAlternatives_reports : ∀ (ps : List Pattern) {p path index ends},
    p.Listed .alternative index ps →
    (∀ k, endFlaw p (.alternative (index + k)) = endFlawIf false) →
    Reports (From .alternative index (PlaceFlawed slots ends p)) path
      (placeAlternatives slots path index ps)
  | [], p, path, index, ends, listed, hend => .nil (within_placeFlawed slots ends p) listed
  | q :: ps, p, path, index, ends, listed, hend => by
    rw [placeAlternatives]
    refine .cons id (place_reports q) (fun rest f => ?_) fun _ _ => ?_
    · rw [placeFlawed_cons_iff listed.head, show endFlaw p (.alternative index) = _ from hend 0]
    · refine placeAlternatives_reports ps listed.tail fun k => ?_
      rw [Nat.add_assoc]
      exact hend (1 + k)

end

end Places

section Order

variable {before slots : List String} {p : Pattern} {path : Path} {f : Flaw} {e e' : Error}
  {items : List Pattern}

theorem NameFlawed.isNaming (h : NameFlawed before p path f) : f.IsNaming := by
  cases h <;> trivial

theorem PlaceFlawed.not_isNaming (h : PlaceFlawed slots none p path f) : ¬f.IsNaming := by
  cases h with
  | undeclaredBackRef part nowhere => exact id
  | emptyAlternation part => exact id
  | whole anchor flawed => cases flawed
  | anchor part anchor flawed => rcases endFlaw_eq_some flawed with rfl | ⟨rfl, -⟩ <;> exact id

theorem Error.Precedes.asymm (h : e.Precedes e') : ¬e'.Precedes e := by
  rintro (⟨hin', hout⟩ | ⟨hiff', hbefore'⟩)
  · rcases h with ⟨hin, -⟩ | ⟨hiff, -⟩
    · exact hout hin
    · exact hout (hiff.2 hin')
  · rcases h with ⟨hin, hout⟩ | ⟨-, hbefore⟩
    · exact hout (hiff'.2 hin)
    · exact hbefore.asymm hbefore'

/-- An error is a flaw that comes before all others. -/
def Leads (items : List Pattern) (e : Error) : Prop :=
  Flawed items e.path e.flaw ∧ ∀ path f, Flawed items path f →
    path = e.path ∧ f = e.flaw ∨ e.Precedes ⟨f, path⟩

theorem Leads.unique (h : Leads items e) (h' : Leads items e') : e = e' := by
  rcases h.2 e'.path e'.flaw h'.1 with ⟨hpath, hflaw⟩ | hfirst
  · obtain ⟨flaw, path⟩ := e
    exact Error.mk.injEq .. ▸ ⟨hflaw.symm, hpath.symm⟩
  · rcases h'.2 e.path e.flaw h.1 with ⟨hpath, hflaw⟩ | hlast
    · obtain ⟨flaw, path⟩ := e
      exact Error.mk.injEq .. ▸ ⟨hflaw, hpath⟩
    · exact absurd hlast hfirst.asymm

/-- A flaw of a name leads if it is the first of these. -/
theorem leads_of_name {rest : Path} {f : Flaw} (flawed : NameFlawed [] (.sequence items) rest f)
    (first : ∀ path f', NameFlawed [] (.sequence items) path f' →
      path = rest ∧ f' = f ∨ Before rest path) : Leads items ⟨f, rest⟩ := by
  refine ⟨flawed_iff.2 (.inr (.inl flawed)), fun path f' h => ?_⟩
  rcases flawed_iff.1 h with ⟨-, rfl, rfl⟩ | h | h
  · exact .inr (.inl ⟨flawed.isNaming, id⟩)
  · exact (first path f' h).imp_right fun hbefore =>
      .inr ⟨iff_of_true flawed.isNaming h.isNaming, hbefore⟩
  · exact .inr (.inl ⟨flawed.isNaming, h.not_isNaming⟩)

/-- A flaw of a place leads if it is the first of these, and names have no flaws. -/
theorem leads_of_place {rest : Path} {f : Flaw} (some : items ≠ [])
    (named : ∀ path f, ¬NameFlawed [] (.sequence items) path f)
    (flawed : PlaceFlawed (names items) none (.sequence items) rest f)
    (first : ∀ path f', PlaceFlawed (names items) none (.sequence items) path f' →
      path = rest ∧ f' = f ∨ Before rest path) : Leads items ⟨f, rest⟩ := by
  refine ⟨flawed_iff.2 (.inr (.inr flawed)), fun path f' h => ?_⟩
  rcases flawed_iff.1 h with ⟨hnone, -, -⟩ | h | h
  · exact absurd hnone some
  · exact absurd h (named path f')
  · exact (first path f' h).imp_right fun hbefore =>
      .inr ⟨iff_of_false flawed.not_isNaming h.not_isNaming, hbefore⟩

end Order

end NestedRegex.Pattern

namespace NestedRegex.Program

open Pattern

/-- The compiler ends with the flaw that leads, or there is none. -/
theorem compileAll_cases (items : List Pattern) :
    (∃ e, compileAll items = .error e ∧ Leads items e) ∨
      (∃ p, compileAll items = .ok p) ∧ ∀ path f, ¬Flawed items path f := by
  have hscope : Reports (NameFlawed [] (.sequence items)) [] (scopeOfItems [] 0 [] items) := by
    have h : Reports (NameFlawed [] (.sequence items)) [] (scope [] [] (.sequence items)) :=
      scope_reports (.sequence items) List.not_mem_nil
    rwa [scope] at h
  have hplace : Reports (PlaceFlawed (Pattern.names items) none (.sequence items)) []
      (placeItems (Pattern.names items) [] 0 true items) := by
    have h : Reports (PlaceFlawed (Pattern.names items) (endFlawIf true) (.sequence items)) []
        (place (Pattern.names items) [] true (.sequence items)) := place_reports (.sequence items)
    rwa [place] at h
  by_cases hnil : items = []
  · subst hnil
    refine .inl ⟨⟨.emptyPattern, []⟩, rfl, .emptyPattern rfl, fun path f h => ?_⟩
    rcases flawed_iff.1 h with ⟨-, rfl, rfl⟩ | h | h
    · exact .inl ⟨rfl, rfl⟩
    · exact absurd h (hscope.none_of_ok path f)
    · exact absurd h (hplace.none_of_ok path f)
  · rw [compileAll_eq hnil]
    cases hs : scopeOfItems [] 0 [] items with
    | error e =>
      rw [hs] at hscope
      cases hscope with
      | flawed flawed first => exact .inl ⟨_, rfl, leads_of_name flawed first⟩
    | ok after =>
      rw [hs] at hscope
      have named := hscope.none_of_ok
      cases hp : placeItems (Pattern.names items) [] 0 true items with
      | error e =>
        rw [hp] at hplace
        cases hplace with
        | flawed flawed first => exact .inl ⟨_, rfl, leads_of_place hnil named flawed first⟩
      | ok u =>
        rw [hp] at hplace
        refine .inr ⟨⟨ofItems items, rfl⟩, fun path f h => ?_⟩
        rcases flawed_iff.1 h with ⟨hnone, -, -⟩ | h | h
        · exact hnil hnone
        · exact named path f h
        · exact hplace.none_of_ok path f h

/-- The compiler refuses items with an error just if the path of the error leads to a part that has
the flaw of the error, and every other flaw comes later: flaws of names come before all others, and
of the same kind that of the part that comes first, a part before what is inside it and from left to
right. -/
theorem compileAll_error_iff (items : List Pattern) (e : Error) : compileAll items = .error e ↔
    Flawed items e.path e.flaw ∧ ∀ path f, Flawed items path f →
      path = e.path ∧ f = e.flaw ∨ e.Precedes ⟨f, path⟩ := by
  change _ ↔ Leads items e
  rcases compileAll_cases items with ⟨e', hrun, leads⟩ | ⟨⟨p, hrun⟩, none⟩
  · rw [hrun]
    exact ⟨fun h => Except.error.inj h ▸ leads, fun h => congrArg _ (leads.unique h)⟩
  · rw [hrun]
    exact iff_of_false nofun fun h => none _ _ h.1

/-- The second `x` may follow the first, so it is refused, and before the end that is out of place.
-/
example : compileAll [.choice [.named "x" [.atEnd], .named "x" []], .sequence [.named "x" []]] =
    .error ⟨.duplicateCapture "x", [.item 1, .item 0]⟩ := by
  rfl

end NestedRegex.Program
