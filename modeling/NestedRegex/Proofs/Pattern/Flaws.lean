import Mathlib.Data.List.Lex
import NestedRegex.Proofs.Pattern.Parts
import NestedRegex.Proofs.Pattern.Ready

namespace NestedRegex.Pattern

/-- Of two steps from one part, the first leads further to the left. -/
def Step.Before : Step → Step → Prop
  | .item i, .item j | .alternative i, .alternative j => i < j
  | _, _ => False

/-- Two steps from one part lead to different alternatives. -/
def Step.Excludes : Step → Step → Prop
  | .alternative i, .alternative j => i ≠ j
  | _, _ => False

/-- The part at the one path comes before the part at the other. -/
def Before (p q : Path) : Prop :=
  List.Lex Step.Before p q

/-- The parts at two paths lie in different alternatives of one choice, so no way through the
pattern includes both. -/
def Excludes : Path → Path → Prop
  | s :: p, t :: q => s.Excludes t ∨ s = t ∧ Excludes p q
  | _, _ => False

instance : Std.Asymm Step.Before where
  asymm s t h := by
    cases s <;> cases t <;> simp only [Step.Before] at h ⊢ <;> omega

/-- A flaw is looked for among the names of a pattern, before all others. -/
def Flaw.IsNaming : Flaw → Prop
  | .duplicateCapture _ | .emptyCaptureName => True
  | _ => False

/-- The first error is found before the second: flaws of names before all others, and of the same
kind the flaw of the part that comes first. -/
def Error.Precedes (e e' : Error) : Prop :=
  e.flaw.IsNaming ∧ ¬e'.flaw.IsNaming ∨
    (e.flaw.IsNaming ↔ e'.flaw.IsNaming) ∧ Before e.path e'.path

/-- The part at the end of a path has a flaw. The items as a whole stand like those of a nested
sequence. -/
inductive Flawed (items : List Pattern) : Path → Flaw → Prop
  | emptyPattern (none : items = []) : Flawed items [] .emptyPattern
  | emptyCaptureName {path inner} (part : (sequence items).part? path = some (.named "" inner)) :
    Flawed items path .emptyCaptureName
  /-- Some way through the pattern includes an earlier part with the same name. -/
  | duplicateCapture {path earlier name inner inner'}
    (part : (sequence items).part? path = some (.named name inner))
    (first : (sequence items).part? earlier = some (.named name inner'))
    (before : Before earlier path) (together : ¬Excludes earlier path) :
    Flawed items path (.duplicateCapture name)
  | undeclaredBackRef {path name} (part : (sequence items).part? path = some (.backRef name))
    (nowhere : ∀ inner, ¬(sequence items).Has (.named name inner)) :
    Flawed items path (.undeclaredBackRef name)
  /-- An end that is not the last item of the whole or of a nested sequence. -/
  | misplacedAnchor {path s q} (part : (sequence items).part? path = some q)
    (anchor : q.step? s = some .atEnd) (here : s ≠ .body)
    (last : ∀ inner i, q = .sequence inner → s = .item i → i + 1 ≠ inner.length) :
    Flawed items (path ++ [s]) .misplacedAnchor
  | anchorInRepeat {path} (part : (sequence items).part? path = some (.oneOrMore .atEnd)) :
    Flawed items (path ++ [.body]) .anchorInRepeat
  | emptyAlternation {path} (part : (sequence items).part? path = some (.choice [])) :
    Flawed items path .emptyAlternation

/-- The names that are captured before the part that a step leads to, and together with it. -/
def capturedBefore : Pattern → Step → List String
  | .sequence items, .item i => capturesOfItems (items.take i)
  | .named name items, .item i => name :: capturesOfItems (items.take i)
  | _, _ => []

/-- A part has no name, or the name of an earlier part that some way includes too, where the names
`before` were captured before all. -/
inductive NameFlawed (before : List String) (p : Pattern) (path : Path) : Flaw → Prop
  | emptyCaptureName {inner} (part : p.part? path = some (.named "" inner)) :
    NameFlawed before p path .emptyCaptureName
  | duplicateCapture {name inner} (part : p.part? path = some (.named name inner))
    (taken : name ∈ before ∨ ∃ earlier inner', p.part? earlier = some (.named name inner') ∧
      Before earlier path ∧ ¬Excludes earlier path) :
    NameFlawed before p path (.duplicateCapture name)

/-- The flaw that an end would have where a step leads; none if it may stand there. -/
def endFlaw : Pattern → Step → Option Flaw
  | .sequence items, .item i => if i + 1 = items.length then none else some .misplacedAnchor
  | _, .body => some .anchorInRepeat
  | _, _ => some .misplacedAnchor

/-- A part is out of place, where references may be to these names, and `ends` is the flaw that an
end would have in the place of the whole. -/
inductive PlaceFlawed (slots : List String) (ends : Option Flaw) (p : Pattern) : Path → Flaw → Prop
  | undeclaredBackRef {path name} (part : p.part? path = some (.backRef name))
    (nowhere : name ∉ slots) : PlaceFlawed slots ends p path (.undeclaredBackRef name)
  | emptyAlternation {path} (part : p.part? path = some (.choice [])) :
    PlaceFlawed slots ends p path .emptyAlternation
  | whole {f} (anchor : p = .atEnd) (flawed : ends = some f) : PlaceFlawed slots ends p [] f
  | anchor {path q s f} (part : p.part? path = some q) (anchor : q.step? s = some .atEnd)
    (flawed : endFlaw q s = some f) : PlaceFlawed slots ends p (path ++ [s]) f

variable {p q r : Pattern} {s t : Step} {path path' earlier : Path} {name : String}
  {before slots : List String} {f : Flaw} {ends : Option Flaw} {items inner : List Pattern}

theorem not_before_nil : ¬Before path [] :=
  nofun

theorem before_nil_cons : Before [] (s :: path) :=
  .nil

theorem before_cons_iff :
    Before (s :: path) (t :: path') ↔ s.Before t ∨ s = t ∧ Before path path' := by
  constructor
  · intro h
    cases h with
    | cons h => exact .inr ⟨rfl, h⟩
    | rel h => exact .inl h
  · rintro (h | ⟨rfl, h⟩)
    · exact .rel h
    · exact .cons h

theorem Before.asymm (h : Before path path') : ¬Before path' path :=
  Std.Asymm.asymm (r := List.Lex Step.Before) path path' h

theorem Step.Before.ne (h : s.Before t) : s ≠ t := by
  rintro rfl
  exact Std.Asymm.asymm (r := Step.Before) s s h h

theorem part?_cons (hs : p.step? s = some q) : p.part? (s :: path) = q.part? path := by
  rw [part?, hs, Option.bind_some]

theorem part?_append (h : p.part? path = some q) : p.part? (path ++ path') = q.part? path' := by
  induction path generalizing p with
  | nil =>
    obtain rfl := Option.some.inj h
    rfl
  | cons s path ih =>
    obtain ⟨r, hr, hq⟩ := Option.bind_eq_some_iff.1 h
    rw [List.cons_append, part?_cons hr]
    exact ih hq

theorem mem_capturesOfItems_iff :
    name ∈ capturesOfItems items ↔ ∃ p ∈ items, name ∈ captures p := by
  simp only [mem_capturesOfItems, mem_captures]
  exact ⟨fun ⟨inner, p, hp, h⟩ => ⟨p, hp, inner, h⟩, fun ⟨p, hp, inner, h⟩ => ⟨inner, p, hp, h⟩⟩

section Names

theorem NameFlawed.mono {after : List String} (h : NameFlawed before p path f)
    (hs : before ⊆ after) : NameFlawed after p path f := by
  cases h with
  | emptyCaptureName part => exact .emptyCaptureName part
  | duplicateCapture part taken => exact .duplicateCapture part (taken.imp_left fun hn => hs hn)

/-- The names that items capture to the left of one of them. -/
theorem mem_capturesOfItems_take {i : Nat} : name ∈ capturesOfItems (items.take i) ↔
    ∃ j r, j < i ∧ items[j]? = some r ∧ name ∈ captures r := by
  rw [mem_capturesOfItems_iff]
  constructor
  · rintro ⟨r, hr, hn⟩
    obtain ⟨j, hj⟩ := List.getElem?_of_mem hr
    rw [List.getElem?_take] at hj
    split at hj
    · next hlt => exact ⟨j, r, hlt, hj, hn⟩
    · cases hj
  · rintro ⟨j, r, hlt, hj, hn⟩
    refine ⟨r, List.mem_of_getElem? (i := j) ?_, hn⟩
    rw [List.getElem?_take, if_pos hlt, hj]

/-- Names captured before a step are those of the part itself and of what lies to the left. -/
theorem mem_capturedBefore (hs : p.step? s = some q) : name ∈ capturedBefore p s ↔
    (∃ inner, p = .named name inner) ∨
      ∃ t r, t.Before s ∧ ¬t.Excludes s ∧ p.step? t = some r ∧ name ∈ captures r := by
  cases p with
  | sequence items =>
    cases s with
    | item i =>
      rw [capturedBefore, mem_capturesOfItems_take]
      constructor
      · rintro ⟨j, r, hlt, hj, hn⟩
        exact .inr ⟨.item j, r, hlt, id, hj, hn⟩
      · rintro (⟨inner, he⟩ | ⟨t, r, ht, -, hr, hn⟩)
        · cases he
        · cases t with
          | item j => exact ⟨j, r, ht, hr, hn⟩
          | alternative _ | body => cases ht
    | alternative _ | body => cases hs
  | named other items =>
    cases s with
    | item i =>
      rw [capturedBefore, List.mem_cons, mem_capturesOfItems_take]
      refine or_congr ⟨fun e => ⟨items, e ▸ rfl⟩, fun ⟨_, he⟩ => (named.inj he).1.symm⟩ ?_
      constructor
      · rintro ⟨j, r, hlt, hj, hn⟩
        exact ⟨.item j, r, hlt, id, hj, hn⟩
      · rintro ⟨t, r, ht, -, hr, hn⟩
        cases t with
        | item j => exact ⟨j, r, ht, hr, hn⟩
        | alternative _ | body => cases ht
    | alternative _ | body => cases hs
  | choice alternatives =>
    cases s with
    | alternative i =>
      refine iff_of_false List.not_mem_nil ?_
      rintro (⟨inner, he⟩ | ⟨t, r, ht, hout, -⟩)
      · cases he
      · cases t with
        | alternative j => exact hout (Nat.ne_of_lt ht)
        | item _ | body => cases ht
    | item _ | body => cases hs
  | oneOrMore body =>
    refine iff_of_false List.not_mem_nil ?_
    rintro (⟨inner, he⟩ | ⟨t, r, ht, -, hr, -⟩)
    · cases he
    · cases s with
      | body => cases t <;> cases ht
      | item _ | alternative _ => cases hs
  | literal _ | any | backRef _ | check _ _ | atEnd => cases s <;> cases hs

/-- An earlier part that is not reached by the same step is the part itself or lies to the left. -/
theorem exists_earlier_iff (hs : p.step? s = some q) :
    (∃ earlier inner, p.part? earlier = some (.named name inner) ∧ Before earlier (s :: path) ∧
      ¬Excludes earlier (s :: path)) ↔ name ∈ capturedBefore p s ∨
      ∃ earlier inner, q.part? earlier = some (.named name inner) ∧ Before earlier path ∧
        ¬Excludes earlier path := by
  rw [mem_capturedBefore hs]
  constructor
  · rintro ⟨earlier, inner, part, before, together⟩
    cases earlier with
    | nil => exact .inl (.inl ⟨inner, Option.some.inj part⟩)
    | cons t rest =>
      rw [Excludes, not_or, not_and] at together
      rcases before_cons_iff.1 before with ht | ⟨rfl, hrest⟩
      · obtain ⟨r, hr, hn⟩ := Option.bind_eq_some_iff.1 part
        exact .inl (.inr ⟨t, r, ht, together.1, hr, (mem_captures r).2 ⟨inner, rest, hn⟩⟩)
      · rw [part?_cons hs] at part
        exact .inr ⟨rest, inner, part, hrest, together.2 rfl⟩
  · rintro ((⟨inner, rfl⟩ | ⟨t, r, ht, hout, hr, hn⟩) | ⟨rest, inner, part, hrest, together⟩)
    · exact ⟨[], inner, rfl, before_nil_cons, id⟩
    · obtain ⟨inner, rest, part⟩ := (mem_captures r).1 hn
      refine ⟨t :: rest, inner, (part?_cons hr).trans part, before_cons_iff.2 (.inl ht), ?_⟩
      rw [Excludes, not_or]
      exact ⟨hout, fun h => ht.ne h.1⟩
    · refine ⟨s :: rest, inner, (part?_cons hs).trans part,
        before_cons_iff.2 (.inr ⟨rfl, hrest⟩), ?_⟩
      rw [Excludes, not_or]
      refine ⟨?_, fun h => together h.2⟩
      cases s <;> simp [Step.Excludes]

/-- The flaws of names behind a step are those of the part there, behind what is captured before. -/
theorem nameFlawed_cons_iff (hs : p.step? s = some q) :
    NameFlawed before p (s :: path) f ↔ NameFlawed (before ++ capturedBefore p s) q path f := by
  constructor
  · intro h
    cases h with
    | emptyCaptureName part =>
      rw [part?_cons hs] at part
      exact .emptyCaptureName part
    | duplicateCapture part taken =>
      rw [part?_cons hs] at part
      refine .duplicateCapture part ?_
      rw [exists_earlier_iff hs, ← or_assoc, ← List.mem_append] at taken
      exact taken
  · intro h
    cases h with
    | emptyCaptureName part => exact .emptyCaptureName ((part?_cons hs).trans part)
    | duplicateCapture part taken =>
      refine .duplicateCapture ((part?_cons hs).trans part) ?_
      rw [exists_earlier_iff hs, ← or_assoc, ← List.mem_append]
      exact taken

/-- The part itself is flawed if it has no name, or one that was captured before. -/
theorem nameFlawed_nil_iff : NameFlawed before p [] f ↔ ∃ name inner, p = .named name inner ∧
    (name = "" ∧ f = .emptyCaptureName ∨ name ∈ before ∧ f = .duplicateCapture name) := by
  constructor
  · intro h
    cases h with
    | emptyCaptureName part => exact ⟨_, _, Option.some.inj part, .inl ⟨rfl, rfl⟩⟩
    | duplicateCapture part taken =>
      refine ⟨_, _, Option.some.inj part, .inr ⟨taken.resolve_right ?_, rfl⟩⟩
      rintro ⟨earlier, inner, -, before, -⟩
      exact not_before_nil before
  · rintro ⟨name, inner, rfl, ⟨rfl, rfl⟩ | ⟨hn, rfl⟩⟩
    · exact .emptyCaptureName rfl
    · exact .duplicateCapture rfl (.inl hn)

/-- A flaw of a name is the flaw of a part. -/
theorem NameFlawed.part (h : NameFlawed before p path f) : ∃ q, p.part? path = some q := by
  cases h with
  | emptyCaptureName part => exact ⟨_, part⟩
  | duplicateCapture part taken => exact ⟨_, part⟩

end Names

section Places

/-- What is out of place behind a step is out of place in the part there. -/
theorem placeFlawed_cons_iff (hs : p.step? s = some q) :
    PlaceFlawed slots ends p (s :: path) f ↔ PlaceFlawed slots (endFlaw p s) q path f := by
  constructor
  · intro h
    generalize he : s :: path = whole at h
    cases h with
    | undeclaredBackRef part nowhere =>
      subst he
      exact .undeclaredBackRef ((part?_cons hs).symm.trans part) nowhere
    | emptyAlternation part =>
      subst he
      exact .emptyAlternation ((part?_cons hs).symm.trans part)
    | whole anchor flawed => cases he
    | @anchor front q' t f part anchor flawed =>
      cases front with
      | nil =>
        obtain ⟨rfl, rfl⟩ := List.cons.inj he
        obtain rfl := Option.some.inj part
        exact .whole (Option.some.inj (hs.symm.trans anchor)) flawed
      | cons t' front =>
        obtain ⟨rfl, rfl⟩ := List.cons.inj he
        exact .anchor ((part?_cons hs).symm.trans part) anchor flawed
  · intro h
    cases h with
    | undeclaredBackRef part nowhere =>
      exact .undeclaredBackRef ((part?_cons hs).trans part) nowhere
    | emptyAlternation part => exact .emptyAlternation ((part?_cons hs).trans part)
    | whole anchor flawed =>
      have h : PlaceFlawed slots ends p ([] ++ [s]) f := .anchor rfl (anchor ▸ hs) flawed
      exact h
    | @anchor front q' t f part anchor flawed =>
      have h : PlaceFlawed slots ends p ((s :: front) ++ [t]) f :=
        .anchor ((part?_cons hs).trans part) anchor flawed
      exact h

theorem placeFlawed_nil_iff : PlaceFlawed slots ends p [] f ↔
    (∃ name, p = .backRef name ∧ name ∉ slots ∧ f = .undeclaredBackRef name) ∨
      (p = .choice [] ∧ f = .emptyAlternation) ∨ p = .atEnd ∧ ends = some f := by
  constructor
  · intro h
    generalize he : ([] : Path) = whole at h
    cases h with
    | undeclaredBackRef part nowhere =>
      subst he
      exact .inl ⟨_, Option.some.inj part, nowhere, rfl⟩
    | emptyAlternation part =>
      subst he
      exact .inr (.inl ⟨Option.some.inj part, rfl⟩)
    | whole anchor flawed => exact .inr (.inr ⟨anchor, flawed⟩)
    | anchor part anchor flawed => exact absurd he.symm (List.append_ne_nil_of_right_ne_nil _ nofun)
  · rintro (⟨name, rfl, nowhere, rfl⟩ | ⟨rfl, rfl⟩ | ⟨rfl, flawed⟩)
    · exact .undeclaredBackRef rfl nowhere
    · exact .emptyAlternation rfl
    · exact .whole rfl flawed

/-- What is out of place is a part. -/
theorem PlaceFlawed.part (h : PlaceFlawed slots ends p path f) : ∃ q, p.part? path = some q := by
  cases h with
  | undeclaredBackRef part nowhere => exact ⟨_, part⟩
  | emptyAlternation part => exact ⟨_, part⟩
  | whole anchor flawed => exact ⟨p, rfl⟩
  | anchor part anchor flawed =>
    rw [part?_append part, part?_cons anchor]
    exact ⟨_, rfl⟩

theorem endFlaw_eq_misplaced_iff : endFlaw p s = some .misplacedAnchor ↔
    s ≠ .body ∧ ∀ inner i, p = .sequence inner → s = .item i → i + 1 ≠ inner.length := by
  cases p <;> cases s <;> simp [endFlaw]

theorem endFlaw_eq_some (h : endFlaw p s = some f) :
    f = .misplacedAnchor ∨ f = .anchorInRepeat ∧ s = .body := by
  cases p <;> cases s <;> simp [endFlaw] at h <;> simp_all

/-- The flaws of items are those of their names and those of their places. -/
theorem flawed_iff : Flawed items path f ↔ (items = [] ∧ path = [] ∧ f = .emptyPattern) ∨
    NameFlawed [] (.sequence items) path f ∨
      PlaceFlawed (names items) none (.sequence items) path f := by
  have declared : ∀ name, name ∈ names items ↔
      ∃ inner, (sequence items).Has (.named name inner) := by
    intro name
    rw [mem_names]
    exact mem_captures (.sequence items)
  constructor
  · intro h
    cases h with
    | emptyPattern none => exact .inl ⟨none, rfl, rfl⟩
    | emptyCaptureName part => exact .inr (.inl (.emptyCaptureName part))
    | duplicateCapture part first before together =>
      exact .inr (.inl (.duplicateCapture part (.inr ⟨_, _, first, before, together⟩)))
    | undeclaredBackRef part nowhere =>
      refine .inr (.inr (.undeclaredBackRef part ?_))
      rw [declared, not_exists]
      exact nowhere
    | misplacedAnchor part anchor here last =>
      exact .inr (.inr (.anchor part anchor (endFlaw_eq_misplaced_iff.2 ⟨here, last⟩)))
    | anchorInRepeat part => exact .inr (.inr (.anchor part rfl rfl))
    | emptyAlternation part => exact .inr (.inr (.emptyAlternation part))
  · rintro (⟨rfl, rfl, rfl⟩ | h | h)
    · exact .emptyPattern rfl
    · cases h with
      | emptyCaptureName part => exact .emptyCaptureName part
      | duplicateCapture part taken =>
        obtain ⟨earlier, inner, first, before, together⟩ := taken.resolve_left List.not_mem_nil
        exact .duplicateCapture part first before together
    · cases h with
      | undeclaredBackRef part nowhere =>
        rw [declared, not_exists] at nowhere
        exact .undeclaredBackRef part nowhere
      | emptyAlternation part => exact .emptyAlternation part
      | whole anchor flawed => cases flawed
      | @anchor path q s f part anchor flawed =>
        rcases endFlaw_eq_some flawed with rfl | ⟨rfl, rfl⟩
        · obtain ⟨here, last⟩ := endFlaw_eq_misplaced_iff.1 flawed
          exact .misplacedAnchor part anchor here last
        · cases q with
          | oneOrMore body =>
            obtain rfl := Option.some.inj anchor
            exact .anchorInRepeat part
          | _ => cases anchor

end Places

end NestedRegex.Pattern
