import NestedRegex.Proofs.Program.Emitted

namespace NestedRegex.Pattern

mutual

/-- A part that the compiler lets pass, where it may or may not require the end. -/
def Ready (slots : List String) : Pattern → Bool → Prop
  | .sequence items, _ => ReadyItems slots items true
  | .named name items, _ =>
    name ∈ slots ∧ name ∉ capturesOfItems items ∧ ReadyItems slots items false
  | .choice alternatives, _ => alternatives ≠ [] ∧ ReadyAlternatives slots alternatives
  | .oneOrMore body, _ => Ready slots body false
  | .backRef name, _ => name ∈ slots
  | .atEnd, endAllowed => endAllowed = true
  | .literal _, _ | .any, _ | .check _ _, _ => True

/-- Items that the compiler lets pass; only the last may require the end, if any may. -/
def ReadyItems (slots : List String) : List Pattern → Bool → Prop
  | [], _ => True
  | p :: ps, endAllowed => Ready slots p (endAllowed && ps.isEmpty) ∧ ReadyItems slots ps endAllowed

def ReadyAlternatives (slots : List String) : List Pattern → Prop
  | [] => True
  | p :: ps => Ready slots p false ∧ ReadyAlternatives slots ps

end

mutual

/-- The names after a part are those before it and those that it captures. -/
theorem mem_of_scope : ∀ (p : Pattern) {path before after}, scope path before p = .ok after →
    ∀ n, n ∈ after ↔ n ∈ before ∨ n ∈ captures p
  | .named name items, path, before, after, h, n => by
    rw [scope] at h
    split at h
    · cases h
    · split at h
      · cases h
      · rw [mem_of_scopeOfItems items h, captures, List.mem_cons, List.mem_cons]
        tauto
  | .sequence items, path, before, after, h, n => by
    rw [scope] at h
    exact mem_of_scopeOfItems items h n
  | .choice alternatives, path, before, after, h, n => by
    rw [scope] at h
    exact mem_of_scopeOfAlternatives alternatives h (List.Subset.refl before) n
  | .oneOrMore body, path, before, after, h, n => by
    rw [scope] at h
    exact mem_of_scope body h n
  | .literal _, path, before, after, h, n | .any, path, before, after, h, n
  | .backRef _, path, before, after, h, n | .check _ _, path, before, after, h, n
  | .atEnd, path, before, after, h, n => by
    obtain rfl := Except.ok.inj h
    exact (or_iff_left List.not_mem_nil).symm

theorem mem_of_scopeOfItems : ∀ (ps : List Pattern) {path index before after},
    scopeOfItems path index before ps = .ok after →
    ∀ n, n ∈ after ↔ n ∈ before ∨ n ∈ capturesOfItems ps
  | [], path, index, before, after, h, n => by
    obtain rfl := Except.ok.inj h
    exact (or_iff_left List.not_mem_nil).symm
  | p :: ps, path, index, before, after, h, n => by
    rw [scopeOfItems] at h
    obtain ⟨middle, hp, hps⟩ := Except.bind_ok h
    rw [mem_of_scopeOfItems ps hps, mem_of_scope p hp, capturesOfItems, List.mem_append, or_assoc]

theorem mem_of_scopeOfAlternatives : ∀ (ps : List Pattern) {path index before all after},
    scopeOfAlternatives path index before all ps = .ok after → before ⊆ all →
    ∀ n, n ∈ after ↔ n ∈ all ∨ n ∈ capturesOfItems ps
  | [], path, index, before, all, after, h, hb, n => by
    obtain rfl := Except.ok.inj h
    exact (or_iff_left List.not_mem_nil).symm
  | p :: ps, path, index, before, all, after, h, hb, n => by
    rw [scopeOfAlternatives] at h
    obtain ⟨branch, hp, hps⟩ := Except.bind_ok h
    have hb' : before ⊆ joinNames all branch := fun m hm => mem_joinNames.2 (.inl (hb hm))
    have hin : n ∈ before → n ∈ all := fun hn => hb hn
    rw [mem_of_scopeOfAlternatives ps hps hb', mem_joinNames, mem_of_scope p hp, capturesOfItems,
      List.mem_append]
    tauto

end

mutual

/-- No part captures a name that was captured before it. -/
theorem scope_fresh : ∀ (p : Pattern) {path before after}, scope path before p = .ok after →
    before ⊆ after ∧ ∀ n ∈ captures p, n ∉ before
  | .named name items, path, before, after, h => by
    rw [scope] at h
    split at h
    · cases h
    · split at h
      · cases h
      · next hb =>
        obtain ⟨hs, hf⟩ := scopeOfItems_fresh items h
        refine ⟨fun n hn => hs (by simp [hn]), fun n hn => ?_⟩
        rcases List.mem_cons.1 hn with rfl | hn
        · exact hb
        · exact fun hm => hf n hn (by simp [hm])
  | .sequence items, path, before, after, h => by
    rw [scope] at h
    exact scopeOfItems_fresh items h
  | .choice alternatives, path, before, after, h => by
    rw [scope] at h
    exact scopeOfAlternatives_fresh alternatives h
  | .oneOrMore body, path, before, after, h => by
    rw [scope] at h
    exact scope_fresh body h
  | .literal _, path, before, after, h | .any, path, before, after, h
  | .backRef _, path, before, after, h | .check _ _, path, before, after, h
  | .atEnd, path, before, after, h => by
    obtain rfl := Except.ok.inj h
    exact ⟨fun n hn => hn, by simp [captures]⟩

theorem scopeOfItems_fresh : ∀ (ps : List Pattern) {path index before after},
    scopeOfItems path index before ps = .ok after →
    before ⊆ after ∧ ∀ n ∈ capturesOfItems ps, n ∉ before
  | [], path, index, before, after, h => by
    obtain rfl := Except.ok.inj h
    exact ⟨fun n hn => hn, by simp [capturesOfItems]⟩
  | p :: ps, path, index, before, after, h => by
    rw [scopeOfItems] at h
    obtain ⟨middle, hp, hps⟩ := Except.bind_ok h
    obtain ⟨hs, hf⟩ := scope_fresh p hp
    obtain ⟨hss, hfs⟩ := scopeOfItems_fresh ps hps
    refine ⟨fun n hn => hss (hs hn), fun n hn => ?_⟩
    rcases List.mem_append.1 hn with hn | hn
    · exact hf n hn
    · exact fun hm => hfs n hn (hs hm)

theorem scopeOfAlternatives_fresh : ∀ (ps : List Pattern) {path index before all after},
    scopeOfAlternatives path index before all ps = .ok after →
    all ⊆ after ∧ ∀ n ∈ capturesOfItems ps, n ∉ before
  | [], path, index, before, all, after, h => by
    obtain rfl := Except.ok.inj h
    exact ⟨fun n hn => hn, by simp [capturesOfItems]⟩
  | p :: ps, path, index, before, all, after, h => by
    rw [scopeOfAlternatives] at h
    obtain ⟨branch, hp, hps⟩ := Except.bind_ok h
    obtain ⟨-, hf⟩ := scope_fresh p hp
    obtain ⟨hss, hfs⟩ := scopeOfAlternatives_fresh ps hps
    refine ⟨fun n hn => hss (mem_joinNames.2 (.inl hn)), fun n hn => ?_⟩
    rcases List.mem_append.1 hn with hn | hn
    · exact hf n hn
    · exact hfs n hn

end

variable {slots : List String}

mutual

/-- A part that passes both checks of the compiler is ready. -/
theorem ready_of_scope_place : ∀ (p : Pattern) {path before after path' endAllowed},
    scope path before p = .ok after → place slots path' endAllowed p = .ok () →
    captures p ⊆ slots → Ready slots p endAllowed
  | .named name items, path, before, after, path', endAllowed, hs, hp, hc => by
    rw [scope] at hs
    split at hs
    · cases hs
    · split at hs
      · cases hs
      · rw [place] at hp
        have hfresh := (scopeOfItems_fresh items hs).2
        exact ⟨hc (by simp [captures]), fun hn => hfresh name hn (by simp),
          ready_items_of_scope_place items hs hp fun n hn => hc (by simp [captures, hn])⟩
  | .sequence items, path, before, after, path', endAllowed, hs, hp, hc => by
    rw [scope] at hs
    rw [place] at hp
    exact ready_items_of_scope_place items hs hp hc
  | .choice [], path, before, after, path', endAllowed, hs, hp, hc => by
    rw [place] at hp
    cases hp
  | .choice (p :: ps), path, before, after, path', endAllowed, hs, hp, hc => by
    rw [scope] at hs
    rw [place] at hp
    exact ⟨by simp, ready_alternatives_of_scope_place (p :: ps) hs hp hc⟩
  | .oneOrMore body, path, before, after, path', endAllowed, hs, hp, hc => by
    rw [scope] at hs
    rw [Ready]
    have hb : place slots (path' ++ [.body]) false body = .ok () := by
      cases body <;> first | exact hp | cases hp
    exact ready_of_scope_place body hs hb hc
  | .backRef name, path, before, after, path', endAllowed, hs, hp, hc => by
    rw [place] at hp
    split at hp
    · assumption
    · cases hp
  | .atEnd, path, before, after, path', endAllowed, hs, hp, hc => by
    rw [place] at hp
    split at hp
    · assumption
    · cases hp
  | .literal _, path, before, after, path', endAllowed, hs, hp, hc => trivial
  | .any, path, before, after, path', endAllowed, hs, hp, hc => trivial
  | .check _ _, path, before, after, path', endAllowed, hs, hp, hc => trivial

theorem ready_items_of_scope_place : ∀ (ps : List Pattern)
    {path index before after path' index' endAllowed},
    scopeOfItems path index before ps = .ok after →
    placeItems slots path' index' endAllowed ps = .ok () →
    capturesOfItems ps ⊆ slots → ReadyItems slots ps endAllowed
  | [], path, index, before, after, path', index', endAllowed, hs, hp, hc => trivial
  | p :: ps, path, index, before, after, path', index', endAllowed, hs, hp, hc => by
    rw [scopeOfItems] at hs
    rw [placeItems] at hp
    obtain ⟨middle, hsp, hsps⟩ := Except.bind_ok hs
    obtain ⟨_, hpp, hpps⟩ := Except.bind_ok hp
    exact ⟨ready_of_scope_place p hsp hpp fun n hn => hc (by simp [capturesOfItems, hn]),
      ready_items_of_scope_place ps hsps hpps fun n hn => hc (by simp [capturesOfItems, hn])⟩

theorem ready_alternatives_of_scope_place : ∀ (ps : List Pattern)
    {path index before all after path' index'},
    scopeOfAlternatives path index before all ps = .ok after →
    placeAlternatives slots path' index' ps = .ok () →
    capturesOfItems ps ⊆ slots → ReadyAlternatives slots ps
  | [], path, index, before, all, after, path', index', hs, hp, hc => trivial
  | p :: ps, path, index, before, all, after, path', index', hs, hp, hc => by
    rw [scopeOfAlternatives] at hs
    rw [placeAlternatives] at hp
    obtain ⟨branch, hsp, hsps⟩ := Except.bind_ok hs
    obtain ⟨_, hpp, hpps⟩ := Except.bind_ok hp
    exact ⟨ready_of_scope_place p hsp hpp fun n hn => hc (by simp [capturesOfItems, hn]),
      ready_alternatives_of_scope_place ps hsps hpps
        fun n hn => hc (by simp [capturesOfItems, hn])⟩

end

theorem mem_names {items : List Pattern} {name : String} :
    name ∈ names items ↔ name ∈ capturesOfItems items := by
  simp [names]

theorem nodup_names (items : List Pattern) : (names items).Nodup :=
  List.nodup_eraseDups _

end NestedRegex.Pattern

namespace NestedRegex.Program

open Pattern

/-- What is compiled is not empty and ready as a whole. -/
theorem compileAll_ok {items : List Pattern} {p : Program} (h : compileAll items = .ok p) :
    p = ofItems items ∧ items ≠ [] ∧ ReadyItems (Pattern.names items) items true := by
  by_cases hnil : items = []
  · subst hnil
    cases h
  · rw [compileAll_eq hnil] at h
    obtain ⟨after, hs, h⟩ := Except.bind_ok h
    obtain ⟨_, hp, h⟩ := Except.bind_ok h
    exact ⟨(Except.ok.inj h).symm, hnil,
      ready_items_of_scope_place _ hs hp fun n hn => mem_names.2 hn⟩

end NestedRegex.Program
