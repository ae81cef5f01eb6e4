import NestedRegex.Proofs.Pattern.Parts
import NestedRegex.Proofs.Pattern.Ready

namespace NestedRegex

namespace Pattern

mutual

/-- The captures of the chosen parts, for each way to choose an alternative of every choice. -/
def selections : Pattern → List (List String)
  | .named name items => (selectionsOfItems items).map (name :: ·)
  | .sequence items => selectionsOfItems items
  | .choice alternatives => selectionsOfAlternatives alternatives
  | .oneOrMore body => selections body
  | .literal _ | .any | .backRef _ | .check _ _ | .atEnd => [[]]

def selectionsOfItems : List Pattern → List (List String)
  | [] => [[]]
  | p :: ps => (selections p).flatMap fun names => (selectionsOfItems ps).map (names ++ ·)

def selectionsOfAlternatives : List Pattern → List (List String)
  | [] => []
  | p :: ps => selections p ++ selectionsOfAlternatives ps

end

/-- Items that make sense as a whole. They stand like those of a nested sequence. -/
structure WellFormed (items : List Pattern) : Prop where
  nonempty : items ≠ []
  choices : ¬(sequence items).Has (.choice [])
  named : ∀ inner, ¬(sequence items).Has (.named "" inner)
  /-- No name is captured by two parts that are chosen together. -/
  distinct : ∀ names ∈ selectionsOfItems items, names.Nodup
  declared : ∀ name, (sequence items).Has (.backRef name) →
    ∃ inner, (sequence items).Has (.named name inner)
  /-- The end is required only by the last item of the whole or of a nested sequence. -/
  ends : ∀ q s, (sequence items).Has q → q.step? s = some .atEnd →
    ∃ inner i, q = .sequence inner ∧ s = .item i ∧ i + 1 = inner.length

/-- Nothing can be chosen from no alternatives. -/
def Offers (p : Pattern) : Prop :=
  p ≠ .choice []

/-- A capture has a name. -/
def Names (p : Pattern) : Prop :=
  ∀ inner, p ≠ .named "" inner

/-- References are to these names, and an end stands only as the last item of a sequence. -/
structure InPlace (slots : List String) (p : Pattern) : Prop where
  offers : p.Offers
  declared : ∀ name, p = .backRef name → name ∈ slots
  ends : ∀ s, p.step? s = some .atEnd →
    ∃ inner i, p = .sequence inner ∧ s = .item i ∧ i + 1 = inner.length

/-- Each list is without repetition and without these names. -/
def Distinct (before : List String) (nss : List (List String)) : Prop :=
  ∀ ns ∈ nss, ns.Nodup ∧ ∀ n ∈ ns, n ∉ before

variable {P : Pattern → Prop} {p q : Pattern} {ps : List Pattern} {name : String}
  {before after slots : List String} {nss mss : List (List String)}

mutual

/-- Where every choice offers something, there is a way to choose. -/
theorem selections_ne_nil : ∀ (p : Pattern), p.Everywhere Offers → selections p ≠ []
  | .named name items, h => by
    have hs := selectionsOfItems_ne_nil items (everywhere_iff.1 h).2
    simpa [selections] using hs
  | .sequence items, h => by
    rw [selections]
    exact selectionsOfItems_ne_nil items (everywhere_iff.1 h).2
  | .choice [], h => absurd rfl (everywhere_iff.1 h).1
  | .choice (p :: ps), h => by
    have hp := (everywhereIn_cons.1 (everywhere_iff.1 h).2).1
    rw [selections, selectionsOfAlternatives]
    exact List.append_ne_nil_of_left_ne_nil (selections_ne_nil p hp) _
  | .oneOrMore body, h => by
    rw [selections]
    exact selections_ne_nil body (everywhereIn_cons.1 (everywhere_iff.1 h).2).1
  | .literal _, _ | .any, _ | .backRef _, _ | .check _ _, _ | .atEnd, _ => by simp [selections]

theorem selectionsOfItems_ne_nil : ∀ (ps : List Pattern), EverywhereIn Offers ps →
    selectionsOfItems ps ≠ []
  | [], _ => by simp [selectionsOfItems]
  | p :: ps, h => by
    obtain ⟨hp, hps⟩ := everywhereIn_cons.1 h
    obtain ⟨ns, hns⟩ := List.exists_mem_of_ne_nil _ (selections_ne_nil p hp)
    obtain ⟨ms, hms⟩ := List.exists_mem_of_ne_nil _ (selectionsOfItems_ne_nil ps hps)
    rw [selectionsOfItems]
    exact List.ne_nil_of_mem (List.mem_flatMap.2 ⟨ns, hns, List.mem_map_of_mem hms⟩)

end

theorem distinct_congr (h : ∀ n, n ∈ before ↔ n ∈ after) :
    Distinct before nss ↔ Distinct after nss := by
  simp only [Distinct, h]

/-- Where two lists are chosen, the second is to be distinct from all that the first can be. -/
theorem distinct_product (hn : nss ≠ []) (hm : mss ≠ []) :
    Distinct before (nss.flatMap fun ns => mss.map (ns ++ ·)) ↔
      Distinct before nss ∧ Distinct (before ++ nss.flatten) mss := by
  have pairs : Distinct before (nss.flatMap fun ns => mss.map (ns ++ ·)) ↔
      ∀ ns ∈ nss, ∀ ms ∈ mss, (ns ++ ms).Nodup ∧ ∀ n ∈ ns ++ ms, n ∉ before := by
    simp only [Distinct, List.mem_flatMap, List.mem_map]
    grind
  rw [pairs]
  constructor
  · intro h
    refine ⟨fun ns hns => ?_, fun ms hms => ?_⟩
    · obtain ⟨ms, hms⟩ := List.exists_mem_of_ne_nil _ hm
      obtain ⟨hd, hb⟩ := h ns hns ms hms
      exact ⟨(List.nodup_append.1 hd).1, fun n hin => hb n (List.mem_append_left _ hin)⟩
    · obtain ⟨ns, hns⟩ := List.exists_mem_of_ne_nil _ hn
      refine ⟨(List.nodup_append.1 (h ns hns ms hms).1).2.1, fun n hin ha => ?_⟩
      rcases List.mem_append.1 ha with hb | hf
      · exact (h ns hns ms hms).2 n (List.mem_append_right _ hin) hb
      · obtain ⟨ks, hks, hk⟩ := List.mem_flatten.1 hf
        exact (List.nodup_append.1 (h ks hks ms hms).1).2.2 n hk n hin rfl
  · rintro ⟨hns, hms⟩ ns hin ms him
    refine ⟨List.nodup_append.2 ⟨(hns ns hin).1, (hms ms him).1, fun n hl m hr e => ?_⟩, ?_⟩
    · exact (hms ms him).2 m hr
        (List.mem_append_right _ (List.mem_flatten.2 ⟨ns, hin, e ▸ hl⟩))
    · intro n hmem hb
      rcases List.mem_append.1 hmem with hl | hr
      · exact (hns ns hin).2 n hl hb
      · exact (hms ms him).2 n hr (List.mem_append_left _ hb)

theorem distinct_cons (hn : nss ≠ []) :
    Distinct before (nss.map (name :: ·)) ↔ name ∉ before ∧ Distinct (name :: before) nss := by
  simp only [Distinct, List.forall_mem_map, List.nodup_cons, List.mem_cons, forall_eq_or_imp,
    not_or]
  constructor
  · intro h
    obtain ⟨ns, hns⟩ := List.exists_mem_of_ne_nil _ hn
    refine ⟨(h ns hns).2.1, fun ms hms => ⟨(h ms hms).1.2, fun n hin => ⟨?_, (h ms hms).2.2 n hin⟩⟩⟩
    rintro rfl
    exact (h ms hms).1.1 hin
  · rintro ⟨hb, h⟩ ns hns
    exact ⟨⟨fun hin => ((h ns hns).2 name hin).1 rfl, (h ns hns).1⟩, hb,
      fun n hin => ((h ns hns).2 n hin).2⟩

mutual

/-- Where every choice offers something, what a part captures is what can be chosen in it. -/
theorem mem_selections : ∀ (p : Pattern), p.Everywhere Offers →
    (name ∈ (selections p).flatten ↔ name ∈ captures p)
  | .named other items, hp => by
    have hin := (everywhere_iff.1 hp).2
    obtain ⟨ns, hns⟩ := List.exists_mem_of_ne_nil _ (selectionsOfItems_ne_nil items hin)
    rw [captures, List.mem_cons, ← mem_selectionsOfItems items hin, selections]
    simp only [List.mem_flatten, List.mem_map]
    grind
  | .sequence items, hp => by
    rw [selections, captures]
    exact mem_selectionsOfItems items (everywhere_iff.1 hp).2
  | .choice alternatives, hp => by
    rw [selections, captures]
    exact mem_selectionsOfAlternatives alternatives (everywhere_iff.1 hp).2
  | .oneOrMore body, hp => by
    rw [selections, captures]
    exact mem_selections body (everywhereIn_cons.1 (everywhere_iff.1 hp).2).1
  | .literal _, hp | .any, hp | .backRef _, hp | .check _ _, hp | .atEnd, hp => by
    simp [selections, captures]

theorem mem_selectionsOfItems : ∀ (ps : List Pattern), EverywhereIn Offers ps →
    (name ∈ (selectionsOfItems ps).flatten ↔ name ∈ capturesOfItems ps)
  | [], hp => by simp [selectionsOfItems, capturesOfItems]
  | p :: ps, hp => by
    obtain ⟨hp, hps⟩ := everywhereIn_cons.1 hp
    obtain ⟨ns, hns⟩ := List.exists_mem_of_ne_nil _ (selections_ne_nil p hp)
    obtain ⟨ms, hms⟩ := List.exists_mem_of_ne_nil _ (selectionsOfItems_ne_nil ps hps)
    rw [capturesOfItems, List.mem_append, ← mem_selections p hp, ← mem_selectionsOfItems ps hps,
      selectionsOfItems]
    simp only [List.mem_flatten, List.mem_flatMap, List.mem_map]
    grind

theorem mem_selectionsOfAlternatives : ∀ (ps : List Pattern), EverywhereIn Offers ps →
    (name ∈ (selectionsOfAlternatives ps).flatten ↔ name ∈ capturesOfItems ps)
  | [], hp => by simp [selectionsOfAlternatives, capturesOfItems]
  | p :: ps, hp => by
    obtain ⟨hp, hps⟩ := everywhereIn_cons.1 hp
    rw [capturesOfItems, List.mem_append, ← mem_selections p hp,
      ← mem_selectionsOfAlternatives ps hps, selectionsOfAlternatives, List.flatten_append,
      List.mem_append]

end

theorem everywhere_unless_end {endAllowed : Bool} (h : p ≠ .atEnd) :
    p.Everywhere P ∧ (p = .atEnd → endAllowed = true) ↔ P p ∧ EverywhereIn P p.inside := by
  rw [everywhere_iff]
  exact and_iff_left fun e => absurd e h

mutual

/-- A part passes for its names just when all of them are names, and no choice of alternatives
captures one of them twice. -/
theorem scope_ok_iff : ∀ (p : Pattern) {path before}, p.Everywhere Offers →
    ((∃ after, scope path before p = .ok after) ↔
      p.Everywhere Names ∧ Distinct before (selections p))
  | .named name items, path, before, hp => by
    have hin := (everywhere_iff.1 hp).2
    rw [scope, everywhere_iff, selections, distinct_cons (selectionsOfItems_ne_nil items hin)]
    by_cases hname : name = ""
    · subst hname
      rw [if_pos rfl]
      exact iff_of_false nofun fun h => h.1.1 items rfl
    · have hnames : Names (.named name items) := fun inner e => hname (named.inj e).1
      rw [if_neg hname]
      by_cases hb : name ∈ before
      · rw [if_pos hb]
        exact iff_of_false nofun fun h => h.2.1 hb
      · rw [if_neg hb, scopeOfItems_ok_iff items hin]
        exact ⟨fun h => ⟨⟨hnames, h.1⟩, hb, h.2⟩, fun h => ⟨h.1.2, h.2.2⟩⟩
  | .sequence items, path, before, hp => by
    rw [scope, everywhere_of_self (p := .sequence items) nofun]
    exact scopeOfItems_ok_iff items (everywhere_iff.1 hp).2
  | .choice alternatives, path, before, hp => by
    rw [scope, everywhere_of_self (p := .choice alternatives) nofun]
    exact scopeOfAlternatives_ok_iff alternatives (everywhere_iff.1 hp).2
  | .oneOrMore body, path, before, hp => by
    rw [scope, everywhere_of_self (p := .oneOrMore body) nofun, inside, everywhereIn_cons,
      and_iff_left everywhereIn_nil]
    exact scope_ok_iff body (everywhereIn_cons.1 (everywhere_iff.1 hp).2).1
  | .literal _, path, before, hp | .any, path, before, hp | .backRef _, path, before, hp
  | .check _ _, path, before, hp | .atEnd, path, before, hp => by
    rw [everywhere_iff]
    simp [scope, selections, Distinct, inside, Names]

theorem scopeOfItems_ok_iff : ∀ (ps : List Pattern) {path index before},
    EverywhereIn Offers ps →
    ((∃ after, scopeOfItems path index before ps = .ok after) ↔
      EverywhereIn Names ps ∧ Distinct before (selectionsOfItems ps))
  | [], path, index, before, hp => by simp [scopeOfItems, selectionsOfItems, Distinct]
  | p :: ps, path, index, before, hp => by
    obtain ⟨hp, hps⟩ := everywhereIn_cons.1 hp
    rw [scopeOfItems, everywhereIn_cons, selectionsOfItems, Except.exists_bind_ok,
      distinct_product (selections_ne_nil p hp) (selectionsOfItems_ne_nil ps hps)]
    have rest : ∀ middle, scope (path ++ [.item index]) before p = .ok middle →
        ((∃ after, scopeOfItems path (index + 1) middle ps = .ok after) ↔
          EverywhereIn Names ps ∧
            Distinct (before ++ (selections p).flatten) (selectionsOfItems ps)) := by
      intro middle hm
      have after : ∀ n, n ∈ middle ↔ n ∈ before ++ (selections p).flatten := fun n => by
        rw [mem_of_scope p hm, List.mem_append, mem_selections p hp]
      rw [scopeOfItems_ok_iff ps hps, distinct_congr after]
    constructor
    · rintro ⟨middle, hm, hrest⟩
      obtain ⟨hnames, hd⟩ := (scope_ok_iff p hp).1 ⟨middle, hm⟩
      obtain ⟨hnamess, hds⟩ := (rest middle hm).1 hrest
      exact ⟨⟨hnames, hnamess⟩, hd, hds⟩
    · rintro ⟨⟨hnames, hnamess⟩, hd, hds⟩
      obtain ⟨middle, hm⟩ := (scope_ok_iff p hp).2 ⟨hnames, hd⟩
      exact ⟨middle, hm, (rest middle hm).2 ⟨hnamess, hds⟩⟩

theorem scopeOfAlternatives_ok_iff : ∀ (ps : List Pattern) {path index before all},
    EverywhereIn Offers ps →
    ((∃ after, scopeOfAlternatives path index before all ps = .ok after) ↔
      EverywhereIn Names ps ∧ Distinct before (selectionsOfAlternatives ps))
  | [], path, index, before, all, hp => by
    simp [scopeOfAlternatives, selectionsOfAlternatives, Distinct]
  | p :: ps, path, index, before, all, hp => by
    obtain ⟨hp, hps⟩ := everywhereIn_cons.1 hp
    rw [scopeOfAlternatives, everywhereIn_cons, selectionsOfAlternatives, Except.exists_bind_ok,
      Distinct, List.forall_mem_append, and_and_and_comm, ← Distinct, ← Distinct]
    simp only [scopeOfAlternatives_ok_iff ps hps]
    rw [exists_and_right, scope_ok_iff p hp]

end

mutual

/-- A part passes the second check just when all inside it are in place, and itself is not an end
where none may stand. -/
theorem place_ok_iff : ∀ (p : Pattern) {path endAllowed},
    place slots path endAllowed p = .ok () ↔
      p.Everywhere (InPlace slots) ∧ (p = .atEnd → endAllowed = true)
  | .sequence items, path, endAllowed => by
    rw [place, placeItems_ok_iff items, everywhere_unless_end (p := .sequence items) nofun]
    constructor
    · rintro ⟨hin, hend⟩
      refine ⟨⟨nofun, nofun, fun s hs => ?_⟩, hin⟩
      cases s with
      | item i => exact ⟨items, i, rfl, rfl, (hend i hs).2⟩
      | alternative _ | body => cases hs
    · rintro ⟨hself, hin⟩
      refine ⟨hin, fun i hi => ⟨rfl, ?_⟩⟩
      obtain ⟨inner, j, he, hj, hlast⟩ := hself.ends (.item i) hi
      obtain rfl := sequence.inj he
      obtain rfl := Step.item.inj hj
      exact hlast
  | .named name items, path, endAllowed => by
    rw [place, placeItems_ok_iff items, everywhere_unless_end (p := .named name items) nofun]
    constructor
    · rintro ⟨hin, hend⟩
      refine ⟨⟨nofun, nofun, fun s hs => ?_⟩, hin⟩
      cases s with
      | item i => exact absurd (hend i hs).1 Bool.noConfusion
      | alternative _ | body => cases hs
    · rintro ⟨hself, hin⟩
      refine ⟨hin, fun i hi => ?_⟩
      obtain ⟨inner, j, he, -, -⟩ := hself.ends (.item i) hi
      cases he
  | .choice [], path, endAllowed => by
    rw [place, everywhere_iff]
    exact iff_of_false nofun fun h => h.1.1.offers rfl
  | .choice (p :: ps), path, endAllowed => by
    rw [place, placeAlternatives_ok_iff (p :: ps),
      everywhere_unless_end (p := .choice (p :: ps)) nofun]
    constructor
    · rintro ⟨hin, hend⟩
      refine ⟨⟨nofun, nofun, fun s hs => ?_⟩, hin⟩
      cases s with
      | alternative i => exact absurd (List.mem_of_getElem? hs) hend
      | item _ | body => cases hs
    · rintro ⟨hself, hin⟩
      refine ⟨hin, fun hmem => ?_⟩
      obtain ⟨i, hi⟩ := List.getElem?_of_mem hmem
      obtain ⟨inner, j, he, -, -⟩ := hself.ends (.alternative i) hi
      cases he
  | .oneOrMore body, path, endAllowed => by
    have split : place slots path endAllowed (.oneOrMore body) = .ok () ↔
        place slots (path ++ [.body]) false body = .ok () := by
      cases body <;> first | exact Iff.rfl | exact iff_of_false nofun nofun
    rw [split, place_ok_iff body, everywhere_unless_end (p := .oneOrMore body) nofun]
    constructor
    · rintro ⟨hin, hend⟩
      refine ⟨⟨nofun, nofun, fun s hs => ?_⟩, everywhereIn_cons.2 ⟨hin, everywhereIn_nil⟩⟩
      cases s with
      | body => exact absurd (hend (Option.some.inj hs)) Bool.noConfusion
      | item _ | alternative _ => cases hs
    · rintro ⟨hself, hin⟩
      refine ⟨(everywhereIn_cons.1 hin).1, fun he => ?_⟩
      obtain ⟨inner, j, he, -, -⟩ := hself.ends .body (congrArg some he)
      cases he
  | .backRef name, path, endAllowed => by
    rw [place, everywhere_iff]
    by_cases h : name ∈ slots
    · rw [if_pos h]
      refine iff_of_true rfl ⟨⟨⟨nofun, fun _ e => backRef.inj e ▸ h, nofun⟩, everywhereIn_nil⟩,
        Pattern.noConfusion⟩
    · rw [if_neg h]
      exact iff_of_false nofun fun hp => h (hp.1.1.declared name rfl)
  | .atEnd, path, endAllowed => by
    rw [place, everywhere_iff]
    have self : InPlace slots .atEnd := ⟨nofun, nofun, nofun⟩
    cases endAllowed <;> simp [self, inside]
  | .literal _, path, endAllowed | .any, path, endAllowed | .check _ _, path, endAllowed => by
    rw [place, everywhere_iff]
    exact iff_of_true rfl ⟨⟨⟨nofun, nofun, nofun⟩, everywhereIn_nil⟩, Pattern.noConfusion⟩

theorem placeItems_ok_iff : ∀ (ps : List Pattern) {path index endAllowed},
    placeItems slots path index endAllowed ps = .ok () ↔
      EverywhereIn (InPlace slots) ps ∧
        ∀ i, ps[i]? = some .atEnd → endAllowed = true ∧ i + 1 = ps.length
  | [], path, index, endAllowed => by simp [placeItems]
  | p :: ps, path, index, endAllowed => by
    rw [placeItems, Except.bind_ok_unit_iff, place_ok_iff p, placeItems_ok_iff ps,
      everywhereIn_cons]
    constructor
    · rintro ⟨⟨hp, hend⟩, hps, hends⟩
      refine ⟨⟨hp, hps⟩, fun i hi => ?_⟩
      cases i with
      | zero =>
        have h := hend (Option.some.inj hi)
        simp only [Bool.and_eq_true, List.isEmpty_iff] at h
        exact ⟨h.1, by simp [h.2]⟩
      | succ i => exact ⟨(hends i hi).1, by simp [(hends i hi).2]⟩
    · rintro ⟨⟨hp, hps⟩, hends⟩
      refine ⟨⟨hp, fun he => ?_⟩, hps, fun i hi => ?_⟩
      · have h := hends 0 (congrArg some he)
        simp only [Bool.and_eq_true, List.isEmpty_iff]
        exact ⟨h.1, by simpa [eq_comm] using h.2⟩
      · have h := hends (i + 1) hi
        exact ⟨h.1, by simpa using h.2⟩

theorem placeAlternatives_ok_iff : ∀ (ps : List Pattern) {path index},
    placeAlternatives slots path index ps = .ok () ↔
      EverywhereIn (InPlace slots) ps ∧ Pattern.atEnd ∉ ps
  | [], path, index => by simp [placeAlternatives]
  | p :: ps, path, index => by
    rw [placeAlternatives, Except.bind_ok_unit_iff, place_ok_iff p, placeAlternatives_ok_iff ps,
      everywhereIn_cons, List.mem_cons, not_or]
    simp only [Bool.false_eq_true, imp_false, eq_comm (a := Pattern.atEnd)]
    rw [and_and_and_comm]

end

/-- A pattern is well-formed just when it has items and passes both checks. -/
theorem wellFormed_iff {items : List Pattern} : WellFormed items ↔ items ≠ [] ∧
    (∃ after, scopeOfItems [] 0 [] items = .ok after) ∧
    placeItems (names items) [] 0 true items = .ok () := by
  have whole : placeItems (names items) [] 0 true items = .ok () ↔
      (sequence items).Everywhere (InPlace (names items)) := by
    have h : place (names items) [] true (.sequence items) = .ok () ↔ _ := place_ok_iff _
    rwa [place, and_iff_left nofun] at h
  have distinct : Distinct [] (selectionsOfItems items) ↔
      ∀ names ∈ selectionsOfItems items, names.Nodup := by
    simp [Distinct]
  have declared : ∀ name, name ∈ names items ↔
      ∃ inner, (sequence items).Has (.named name inner) := by
    intro name
    rw [mem_names]
    exact mem_captures (.sequence items)
  rw [whole]
  constructor
  · intro h
    have offers : (sequence items).Everywhere Offers := fun q hq e => h.choices (e ▸ hq)
    have named : (sequence items).Everywhere Names := fun q hq inner e => h.named inner (e ▸ hq)
    refine ⟨h.nonempty, (scopeOfItems_ok_iff items (everywhere_iff.1 offers).2).2
      ⟨(everywhere_iff.1 named).2, distinct.2 h.distinct⟩, fun q hq => ⟨offers q hq, ?_, ?_⟩⟩
    · rintro name rfl
      exact (declared name).2 (h.declared name hq)
    · exact fun s hs => h.ends q s hq hs
  · rintro ⟨hne, hscope, hplace⟩
    have offers : (sequence items).Everywhere Offers := fun q hq => (hplace q hq).offers
    obtain ⟨hnamed, hd⟩ := (scopeOfItems_ok_iff items (everywhere_iff.1 offers).2).1 hscope
    have named : (sequence items).Everywhere Names := everywhere_iff.2 ⟨nofun, hnamed⟩
    exact ⟨hne, fun h => offers _ h rfl, fun inner h => named _ h inner rfl, distinct.1 hd,
      fun name h => (declared name).1 ((hplace _ h).declared name rfl),
      fun q s hq => (hplace q hq).ends s⟩

end Pattern

namespace Program

open Pattern

/-- The compiler accepts just the well-formed patterns. -/
theorem compileAll_ok_iff (items : List Pattern) :
    (∃ p, compileAll items = .ok p) ↔ WellFormed items := by
  rw [wellFormed_iff]
  by_cases hnil : items = []
  · subst hnil
    exact iff_of_false nofun fun h => h.1 rfl
  · rw [compileAll_eq hnil, and_iff_right hnil]
    constructor
    · rintro ⟨p, h⟩
      obtain ⟨after, hs, h⟩ := Except.bind_ok h
      obtain ⟨⟨⟩, hp, -⟩ := Except.bind_ok h
      exact ⟨⟨after, hs⟩, hp⟩
    · rintro ⟨⟨after, hs⟩, hp⟩
      exact ⟨ofItems items, by rw [hs, hp]; rfl⟩

end Program

end NestedRegex
