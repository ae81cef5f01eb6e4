import NestedRegex.Proofs.Pass.Settled

namespace NestedRegex

namespace Value

/-- A block around one statement. -/
def Wrapped (v : Value) : Prop :=
  ∃ s, v = .seq [.scalar (.string "block"), .seq [s]]

def head? (v : Value) : Option Value :=
  (v.items?.getD []).head?

/-- The places of a value that the rules read: its first two items, the first two items of the
second one, and the first item of each item of the second one. -/
def readPlaces : Value → List Value
  | .seq (t :: x :: _) =>
    t :: x :: ((x.items?.getD []).take 2 ++ (x.items?.getD []).filterMap head?)
  | _ => []

section ReadPlaces

variable {v t x d b : Value} {vs : List Value}

theorem head_mem_take (h : v.head? = some b) : b ∈ (v.items?.getD []).take 2 := by
  rw [head?] at h
  cases hv : v.items?.getD [] with
  | nil =>
    rw [hv] at h
    cases h
  | cons c cs =>
    rw [hv] at h
    obtain rfl := Option.some.inj h
    exact List.mem_cons_self

theorem first_mem_readPlaces : t ∈ (seq (t :: x :: vs)).readPlaces :=
  List.mem_cons_self

theorem second_mem_readPlaces : x ∈ (seq (t :: x :: vs)).readPlaces :=
  List.mem_cons_of_mem _ List.mem_cons_self

theorem item_mem_readPlaces (h : b ∈ (x.items?.getD []).take 2) :
    b ∈ (seq (t :: x :: vs)).readPlaces :=
  List.mem_cons_of_mem _ (List.mem_cons_of_mem _ (List.mem_append_left _ h))

theorem head_mem_readPlaces (hd : d ∈ x.items?.getD []) (h : d.head? = some b) :
    b ∈ (seq (t :: x :: vs)).readPlaces :=
  List.mem_cons_of_mem _ (List.mem_cons_of_mem _
    (List.mem_append_right _ (List.mem_filterMap.2 ⟨d, hd, h⟩)))

end ReadPlaces

end Value

namespace Rule

open Value

/-- All rules, the unwrapping of blocks last. -/
def full : Rule :=
  quiet.orElse unwrapBlock

variable {v w c : Value} {vs : List Value} {s : Scalar} {t : String}

theorem unwrapBlock_eq_none (h : ¬v.Wrapped) : unwrapBlock.apply v = none := by
  rw [Option.eq_none_iff_forall_ne_some]
  exact fun w hw => h ⟨w, unwrapBlock_eq_some_iff.1 hw⟩

theorem full_eq_quiet (h : ¬v.Wrapped) : full.apply v = quiet.apply v := by
  rw [full, apply_orElse, unwrapBlock_eq_none h, Option.or_none]

theorem full_after_eq_quiet (h : ¬v.Wrapped) : full.after v = quiet.after v := by
  rw [after, after, full_eq_quiet h]

theorem tagged_full : full.Tagged := by
  intro v w h
  rcases Option.or_eq_some_iff.1 h with h | ⟨-, h⟩
  · exact tagged_quiet h
  · exact ⟨_, _, unwrapBlock_eq_some_iff.1 h, by decide⟩

theorem quiet_after_of_renames (h : Renames v w) : quiet.after v = w :=
  after_eq_of_some (quiet_eq_some_iff.2 (.inl h))

/-- What the rules for names and comparisons made of a value, they leave alone. -/
theorem quiet_settles (h : quiet.apply v = some w) : quiet.after w = w := by
  rcases quiet_eq_some_iff.1 h with h | h
  · refine quiet_after_of_renames ?_
    cases h with
    | name x _ hw =>
      refine .name x.upcased hw ?_
      rw [hw, upcased_upcased]
    | function tag x y z htag _ hw =>
      refine .function tag x.functionName y.parameters z htag hw ?_
      rw [hw, functionName_functionName, parameters_parameters]
    | property x y _ hw =>
      refine .property x y.upcased hw ?_
      rw [hw, upcased_upcased]
    | declarations tag x htag _ hw =>
      refine .declarations tag x.allDeclared htag hw ?_
      rw [hw, allDeclared_allDeclared]
  · obtain ⟨c, c', t, e, hturned, rfl, rfl⟩ := turnComparison_eq_some_iff.1 h
    refine after_eq_of_none (Option.eq_none_iff_forall_ne_some.2 fun u hu => ?_)
    rcases quiet_eq_some_iff.1 hu with hu | hu
    · have happ := naming_eq_some_iff.2 hu
      rw [keeps_naming.apply_eq_none (by decide)] at happ
      cases happ
    · obtain ⟨d, d', t', e', hturned', he, -⟩ := turnComparison_eq_some_iff.1 hu
      simp only [Value.seq.injEq, List.cons.injEq] at he
      obtain ⟨-, rfl, -⟩ := he
      rw [turnedAround_turned hturned] at hturned'
      cases hturned'

/-- What the rules for names and comparisons together leave alone, each kind leaves alone. -/
theorem settled_of_quiet (h : quiet.after v = v) :
    naming.after v = v ∧ turnComparison.after v = v := by
  cases hn : naming.apply v with
  | none =>
    refine ⟨after_eq_of_none hn, ?_⟩
    rwa [after, quiet, apply_orElse, hn, Option.none_or] at h
  | some w =>
    have hw : w = v := by
      rw [after, quiet, apply_orElse, hn, Option.some_or, Option.getD_some] at h
      exact h
    subst hw
    obtain ⟨tag, htag, vs, ws, hv, -⟩ := keeps_naming hn
    refine ⟨after_eq_of_some hn, after_eq_of_none ?_⟩
    rw [hv]
    refine keeps_turnComparison.apply_eq_none fun hif => ?_
    obtain rfl := List.mem_singleton.1 hif
    exact absurd htag (by decide)

section Becomes

/-- A scalar comes from a scalar, but for what a block is around. -/
theorem scalar_of_becomes (hw : ¬v.Wrapped) (h : full.becomes v = .scalar s) : v = .scalar s := by
  cases v with
  | scalar a => rwa [tagged_full.becomes_scalar] at h
  | seq vs =>
    rw [becomes, full_after_eq_quiet hw] at h
    cases happ : quiet.apply (.seq vs) with
    | none =>
      rw [after_eq_of_none happ, rewritten_seq] at h
      cases h
    | some w =>
      obtain ⟨tag, -, us, ws, -, rfl⟩ := keeps_quiet happ
      rw [after_eq_of_some happ, rewritten_seq] at h
      cases h

/-- A tag that no rule looks for comes from the same tag, but for what a block is around. -/
theorem tag_of_becomes {ws : List Value} (hw : ¬v.Wrapped)
    (hhead : ∀ b, v.head? = some b → ¬b.Wrapped) (ht : t ∉ quietTags)
    (h : full.becomes v = .seq (.scalar (.string t) :: ws)) :
    ∃ vs, v = .seq (.scalar (.string t) :: vs) ∧ ws = vs.map full.becomes := by
  cases v with
  | scalar a =>
    rw [tagged_full.becomes_scalar] at h
    cases h
  | seq vs =>
    rw [becomes, full_after_eq_quiet hw] at h
    cases happ : quiet.apply (.seq vs) with
    | none =>
      rw [after_eq_of_none happ, rewritten_seq, Value.seq.injEq] at h
      obtain ⟨b, us, rfl, hb, hus⟩ := List.map_eq_cons_iff.1 h
      rw [scalar_of_becomes (hhead b rfl) hb]
      exact ⟨us, rfl, hus.symm⟩
    | some w =>
      obtain ⟨tag, htag, us, ws', -, rfl⟩ := keeps_quiet happ
      rw [after_eq_of_some happ, rewritten_seq, List.map_cons, tagged_full.becomes_scalar] at h
      obtain ⟨he, -⟩ := List.cons.inj (Value.seq.inj h)
      exact absurd (Scalar.string.inj (Value.scalar.inj he) ▸ htag) ht

/-- A declaration in upper case that does not begin with a block. -/
structure Plain (v : Value) : Prop where
  declared : v.declared = v
  head : ∀ b, v.head? = some b → ¬b.Wrapped

theorem plain_scalar (s : Scalar) : Plain (.scalar s) :=
  ⟨rfl, nofun⟩

theorem plain_functionName (v : Value) : Plain v.functionName := by
  obtain ⟨s, hs⟩ := functionName_scalar v
  rw [hs]
  exact plain_scalar s

theorem plain_parameters (v : Value) : Plain v.parameters := by
  refine ⟨declared_parameters v, fun b hb => ?_⟩
  obtain ⟨x, -, rfl⟩ := List.mem_map.1 (List.mem_of_head? hb)
  exact fun ⟨s, hs⟩ => nomatch hs

/-- No name that is written in upper case makes a block of a value. -/
theorem not_wrapped_declared (h : ¬v.Wrapped) : ¬v.declared.Wrapped := by
  rintro ⟨s, hs⟩
  by_cases htext : ∃ t vs, v = .seq (.scalar (.string t) :: vs)
  · obtain ⟨t, vs, rfl⟩ := htext
    rw [declared_text] at hs
    obtain ⟨he, -⟩ := List.cons.inj (Value.seq.inj hs)
    exact Text.upper_ne (by decide) (Scalar.string.inj (Value.scalar.inj he))
  · rw [declared_of_no_text fun t vs e => htext ⟨t, vs, e⟩] at hs
    exact h ⟨s, hs⟩

theorem Plain.allDeclared (h : Plain v) : Plain v.allDeclared := by
  cases v with
  | scalar s => exact h
  | seq vs =>
    refine ⟨declared_eq_self_iff.2 fun t ws he => ?_, fun b hb => ?_⟩
    · obtain ⟨b, us, rfl, hb, -⟩ := List.map_eq_cons_iff.1 (Value.seq.inj he)
      cases b with
      | scalar s =>
        have hs : s = .string t := Value.scalar.inj hb
        exact declared_eq_self_iff.1 h.declared t us (hs ▸ rfl)
      | seq bs =>
        obtain ⟨cs, hcs⟩ := declared_seq bs
        rw [hcs] at hb
        cases hb
    · cases vs with
      | nil => cases hb
      | cons c cs =>
        obtain rfl := Option.some.inj hb
        exact not_wrapped_declared (h.head c rfl)

/-- A declaration in upper case stays one. -/
theorem Plain.becomes (h : Plain v) : (full.becomes v).declared = full.becomes v := by
  cases v with
  | scalar a =>
    rw [tagged_full.becomes_scalar]
    rfl
  | seq vs =>
    rw [tagged_full.becomes_eq h.declared, rewritten_seq]
    refine declared_eq_self_iff.2 fun t ws he => ?_
    obtain ⟨b, us, rfl, hb, -⟩ := List.map_eq_cons_iff.1 (Value.seq.inj he)
    have hb' := scalar_of_becomes (h.head b rfl) hb
    exact declared_eq_self_iff.1 h.declared t us (hb' ▸ rfl)

/-- Where all items are such declarations, they still are after the rules for names and
comparisons. -/
theorem plain_items {ds : List Value} (hw : ¬(Value.seq ds).Wrapped) (hds : ∀ d ∈ ds, Plain d) :
    ∃ es, full.after (.seq ds) = .seq es ∧ ∀ e ∈ es, Plain e := by
  rw [full_after_eq_quiet hw]
  cases happ : quiet.apply (.seq ds) with
  | none => exact ⟨ds, after_eq_of_none happ, hds⟩
  | some w =>
    rw [after_eq_of_some happ]
    rcases quiet_eq_some_iff.1 happ with hn | ht
    · cases hn with
      | name x hv hw' =>
        refine ⟨_, hw', ?_⟩
        simp only [List.forall_mem_cons]
        exact ⟨plain_scalar _, plain_scalar _, nofun⟩
      | function tag x y z htag hv hw' =>
        obtain rfl := Value.seq.inj hv
        refine ⟨_, hw', ?_⟩
        simp only [List.forall_mem_cons]
        exact ⟨plain_scalar _, plain_functionName x, plain_parameters y, hds z (by simp), nofun⟩
      | property x y hv hw' =>
        obtain rfl := Value.seq.inj hv
        refine ⟨_, hw', ?_⟩
        simp only [List.forall_mem_cons]
        exact ⟨plain_scalar _, hds x (by simp), plain_scalar _, nofun⟩
      | declarations tag x htag hv hw' =>
        obtain rfl := Value.seq.inj hv
        refine ⟨_, hw', ?_⟩
        simp only [List.forall_mem_cons]
        exact ⟨plain_scalar _, (hds x (by simp)).allDeclared, nofun⟩
    · obtain ⟨c, c', t, e, hturned, hv, -⟩ := turnComparison_eq_some_iff.1 ht
      obtain ⟨operator, x, y, -, rfl, -⟩ := turnedAround_eq_some_iff.1 hturned
      obtain rfl := Value.seq.inj hv
      have hc := hds _ (List.mem_cons_of_mem _ List.mem_cons_self)
      exact absurd (declared_eq_self_iff.1 hc.declared _ _ rfl) (Text.upper_ne (by decide))

/-- A list of declarations in upper case stays one. -/
theorem allDeclared_becomes (h : v.allDeclared = v) (hw : ¬v.Wrapped)
    (heads : ∀ d ∈ v.items?.getD [], ∀ b, d.head? = some b → ¬b.Wrapped) :
    (full.becomes v).allDeclared = full.becomes v := by
  cases v with
  | scalar a =>
    rw [tagged_full.becomes_scalar]
    rfl
  | seq ds =>
    have hds := allDeclared_eq_self_iff.1 h
    obtain ⟨es, he, hes⟩ := plain_items hw fun d hd => ⟨hds d hd, heads d hd⟩
    rw [becomes, he, rewritten_seq]
    refine allDeclared_eq_self_iff.2 fun e hin => ?_
    obtain ⟨d, hd, rfl⟩ := List.mem_map.1 hin
    exact (hes d hd).becomes

end Becomes

section Rewritten

variable {ns : List Value} (h : quiet.after (.seq ns) = .seq ns)
  (hread : ∀ b ∈ (Value.seq ns).readPlaces, ¬b.Wrapped)
include h hread

/-- Names in upper case are so still when what has them was rewritten inside. -/
theorem eq_of_renames (hn : Renames (.seq (ns.map full.becomes)) w) :
    w = .seq (ns.map full.becomes) := by
  cases hn with
  | name x' hv hw =>
    simp only [Value.seq.injEq, List.map_eq_cons_iff, List.map_eq_nil_iff] at hv
    obtain ⟨t, -, rfl, ht, x, -, rfl, rfl, rfl⟩ := hv
    obtain rfl := scalar_of_becomes (hread t first_mem_readPlaces) ht
    have hfix := (quiet_after_of_renames (.name x rfl rfl)).symm.trans h
    simp only [Value.seq.injEq, List.cons.injEq, true_and, and_true] at hfix
    have hsame : full.becomes x = x := by rw [← hfix, tagged_full.becomes_upcased]
    simp only [hw, List.map_cons, List.map_nil, ht, hsame, hfix]
  | function tag x' y' z' htag hv hw =>
    simp only [Value.seq.injEq, List.map_eq_cons_iff, List.map_eq_nil_iff] at hv
    obtain ⟨t, -, rfl, ht, x, -, rfl, rfl, y, -, rfl, rfl, z, -, rfl, rfl, rfl⟩ := hv
    obtain rfl := scalar_of_becomes (hread t first_mem_readPlaces) ht
    have hfix := (quiet_after_of_renames (.function tag x y z htag rfl rfl)).symm.trans h
    simp only [Value.seq.injEq, List.cons.injEq, true_and, and_true] at hfix
    obtain ⟨hx, hy⟩ := hfix
    have hx' : full.becomes x = x := by rw [← hx, tagged_full.becomes_functionName]
    have hy' : full.becomes y = y := by rw [← hy, tagged_full.becomes_parameters]
    simp only [hw, List.map_cons, List.map_nil, ht, hx', hy', hx, hy]
  | property x' y' hv hw =>
    simp only [Value.seq.injEq, List.map_eq_cons_iff, List.map_eq_nil_iff] at hv
    obtain ⟨t, -, rfl, ht, x, -, rfl, rfl, y, -, rfl, rfl, rfl⟩ := hv
    obtain rfl := scalar_of_becomes (hread t first_mem_readPlaces) ht
    have hfix := (quiet_after_of_renames (.property x y rfl rfl)).symm.trans h
    simp only [Value.seq.injEq, List.cons.injEq, true_and, and_true] at hfix
    have hsame : full.becomes y = y := by rw [← hfix, tagged_full.becomes_upcased]
    simp only [hw, List.map_cons, List.map_nil, ht, hsame, hfix]
  | declarations tag x' htag hv hw =>
    simp only [Value.seq.injEq, List.map_eq_cons_iff, List.map_eq_nil_iff] at hv
    obtain ⟨t, -, rfl, ht, x, -, rfl, rfl, rfl⟩ := hv
    obtain rfl := scalar_of_becomes (hread t first_mem_readPlaces) ht
    have hfix := (quiet_after_of_renames (.declarations tag x htag rfl rfl)).symm.trans h
    simp only [Value.seq.injEq, List.cons.injEq, true_and, and_true] at hfix
    have hsame : (full.becomes x).allDeclared = full.becomes x :=
      allDeclared_becomes hfix (hread x second_mem_readPlaces) fun d hd b hb =>
        hread b (head_mem_readPlaces hd hb)
    simp only [hw, List.map_cons, List.map_nil, ht, hsame]

/-- A comparison that can be turned around when it was rewritten inside could be so before. -/
theorem turnComparison_eq_none : turnComparison.apply (.seq (ns.map full.becomes)) = none := by
  rw [Option.eq_none_iff_forall_ne_some]
  intro w happ
  obtain ⟨c', d, t', e', hturned, hv, -⟩ := turnComparison_eq_some_iff.1 happ
  obtain ⟨operator, x', y', ho, rfl, -⟩ := turnedAround_eq_some_iff.1 hturned
  simp only [Value.seq.injEq, List.map_eq_cons_iff, List.map_eq_nil_iff] at hv
  obtain ⟨i, -, rfl, hi, c, -, rfl, hc, t, -, rfl, rfl, e, -, rfl, rfl, rfl⟩ := hv
  obtain rfl := scalar_of_becomes (hread i first_mem_readPlaces) hi
  have htwo : ∀ b ∈ (c.items?.getD []).take 2, ¬b.Wrapped :=
    fun b hb => hread b (item_mem_readPlaces hb)
  obtain ⟨cs, rfl, hcs⟩ := tag_of_becomes (hread c second_mem_readPlaces)
    (fun b hb => htwo b (head_mem_take hb)) (by decide) hc
  obtain ⟨o, us, rfl, ho', hus⟩ := List.map_eq_cons_iff.1 hcs.symm
  obtain rfl := scalar_of_becomes (htwo o (by simp [items?])) ho'
  simp only [List.map_eq_cons_iff, List.map_eq_nil_iff] at hus
  obtain ⟨x, -, rfl, -, y, -, rfl, -, rfl⟩ := hus
  have hturned := turnedAround_eq_some_iff.2 ⟨operator, x, y, ho, rfl, rfl⟩
  have hfix := (settled_of_quiet h).2
  rw [after_eq_of_some (turnComparison_eq_some_iff.2 ⟨_, _, t, e, hturned, rfl, rfl⟩)] at hfix
  simp only [Value.seq.injEq, List.cons.injEq, Value.scalar.injEq, Scalar.string.injEq] at hfix
  exact opposite_ne ho hfix.2.1.2.1

end Rewritten

/-- What the rules for names and comparisons leave alone, they leave alone when it has been
rewritten inside, unless they read where a block was unwrapped. -/
theorem settled_rewritten (h : quiet.after v = v) (hread : ∀ b ∈ v.readPlaces, ¬b.Wrapped) :
    quiet.after (full.rewritten v) = full.rewritten v := by
  cases v with
  | scalar s => rwa [rewritten_scalar]
  | seq ns =>
    rw [rewritten_seq]
    cases happ : quiet.apply (.seq (ns.map full.becomes)) with
    | none => exact after_eq_of_none happ
    | some w =>
      rw [after_eq_of_some happ]
      rcases quiet_eq_some_iff.1 happ with hn | ht
      · exact eq_of_renames h hread hn
      · rw [turnComparison_eq_none h hread] at ht
        cases ht

end Rule

open Rule in
theorem Pass.rule_all : Pass.all.rule = full := by
  ext v : 2
  change (firstOf (forNames ++ [turnComparison, unwrapBlock])).apply v = _
  rw [apply_firstOf_append, full, quiet, naming]
  simp only [apply_orElse, firstOf, apply_never, Option.or_none, Option.or_assoc]

end NestedRegex
