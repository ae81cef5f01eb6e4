import NestedRegex.Proofs.Forest.Exchange
import NestedRegex.Proofs.Match.Refusals

namespace NestedRegex

namespace Forest

open Relation

variable {f g mid : Forest} {a b id top : SeqName} {s t : Span}
  {nodes front old new back xs ys frontA backA frontB backB : List Node}

/-- The forest with nodes in the place of those of a span; none if the span is not there. -/
def withNodes (f : Forest) (s : Span) (nodes : List Node) : Option Forest :=
  (f.splice s.seq s.start s.stop nodes).toOption.map Prod.snd

/-- The forest with the nodes of two spans of different sequences in the place of each other; none
if one of the spans is not there. -/
def withExchanged (f : Forest) (s t : Span) : Option Forest := do
  let ss ← f.nodes? s
  let ts ← f.nodes? t
  let mid ← f.withNodes s ts
  mid.withNodes t ss

theorem withNodes_eq_some (hc : f.children? s.seq = some (front ++ old ++ back))
    (hstart : front.length = s.start) (hlength : old.length = s.length) (new : List Node) :
    f.withNodes s new = some (f.setChildren s.seq (front ++ new ++ back)) := by
  have hspliced : f.spliced s.seq s.start s.stop new =
      .ok (old, (front ++ new ++ back).toArray) := by
    rw [Span.stop, ← hstart, ← hlength]
    exact spliced_ok hc
  simp only [withNodes, splice, hspliced]
  rfl

theorem withNodes_eq_none (hn : f.nodes? s = none) (new : List Node) :
    f.withNodes s new = none := by
  rw [nodes?_eq] at hn
  rw [withNodes, splice_eq]
  cases hc : f.children? s.seq with
  | none =>
    cases hr : f.children s.seq with
    | error e => rfl
    | ok nodes =>
      rw [children_eq_ok_iff.1 hr] at hc
      cases hc
  | some nodes =>
    rw [hc, Option.bind_some] at hn
    have hout : ¬(s.start ≤ s.stop ∧ s.stop ≤ nodes.length) := fun hin => by simp [hin.2] at hn
    rw [children_ok hc, Except.bind, if_neg hout]
    rfl

theorem withExchanged_eq_none (hn : f.nodes? s = none ∨ f.nodes? t = none) :
    f.withExchanged s t = none := by
  unfold withExchanged
  rcases hn with hn | hn
  · rw [hn, Option.bind_eq_bind, Option.bind_none]
  · cases hs : f.nodes? s <;> simp [hn]

/-- The two splices of an exchange between two sequences. -/
theorem exists_withExchanged (hs : f.nodes? s = some xs) (ht : f.nodes? t = some ys)
    (ne : s.seq ≠ t.seq) : ∃ mid g frontS backS frontT backT, f.withExchanged s t = some g ∧
      Spliced f mid s.seq frontS xs ys backS ∧ Spliced mid g t.seq frontT ys xs backT := by
  obtain ⟨frontS, backS, hcs, hfs, hls⟩ := nodes?_eq_some_iff.1 hs
  obtain ⟨frontT, backT, hct, hft, hlt⟩ := nodes?_eq_some_iff.1 ht
  have hfirst := spliced_setChildren hcs ys
  have hmid := (hfirst.other t.seq ne.symm).trans hct
  refine ⟨_, _, frontS, backS, frontT, backT, ?_, hfirst, spliced_setChildren hmid xs⟩
  simp only [withExchanged, hs, ht, Option.bind_eq_bind, Option.bind_some,
    withNodes_eq_some hcs hfs hls, withNodes_eq_some hmid hft hlt]

/-- A kept way from the children of a sequence back to it is a cycle. -/
theorem not_acyclic_of_way (hc : g.children? id = some nodes) (hm : .seq top ∈ nodes)
    (hr : f.Reaches top id)
    (same : ∀ x, f.Reaches top x → TransGen f.Child x id → g.children? x = f.children? x) :
    ¬g.Acyclic :=
  fun hg => hg id (.head' ⟨nodes, hc, hm⟩ (hr.transfer same))

/-- Nodes put into a sequence make a cycle just if they lead back to it. -/
theorem Spliced.acyclic_iff (h : Spliced f g id front old new back) (hf : f.Acyclic) :
    g.Acyclic ↔ ¬f.ReachedFrom new id := by
  constructor
  · rintro hg ⟨top, hm, hr⟩
    refine not_acyclic_of_way h.after (by simp [hm]) hr (fun x _ hx => ?_) hg
    exact h.other x fun e => hf id (e ▸ hx)
  · exact h.acyclic hf

/-- Nodes that come from one sequence to another make a cycle if they lead there. -/
theorem not_acyclic_of_come (hf : f.Acyclic) (ha : f.children? a = some (frontA ++ xs ++ backA))
    (hb : g.children? b = some (frontB ++ xs ++ backB))
    (other : ∀ x, x ≠ a → x ≠ b → g.children? x = f.children? x) (hr : f.ReachedFrom xs b) :
    ¬g.Acyclic := by
  obtain ⟨top, hm, hr⟩ := hr
  refine not_acyclic_of_way hb (by simp [hm]) hr fun x hxr hx => ?_
  -- The way passes neither the sequence that it comes from nor, before its end, the other one.
  refine other x (fun e => ?_) fun e => hf b (e ▸ hx)
  exact hf.not_reachedFrom ha ⟨top, by simp [hm], e ▸ hxr⟩

/-- Two splices that exchange nodes of two sequences make a cycle just if the nodes of one of them
lead to the other sequence. -/
theorem acyclic_exchange_iff (hfirst : Spliced f mid b frontB ys xs backB)
    (hsecond : Spliced mid g a frontA xs ys backA) (ne : a ≠ b) (hf : f.Acyclic) :
    g.Acyclic ↔ ¬(f.ReachedFrom xs b ∨ f.ReachedFrom ys a) := by
  have ha : f.children? a = some (frontA ++ xs ++ backA) :=
    (hfirst.other a ne).symm.trans hsecond.before
  have hb : g.children? b = some (frontB ++ xs ++ backB) :=
    (hsecond.other b ne.symm).trans hfirst.after
  have other : ∀ x, x ≠ a → x ≠ b → g.children? x = f.children? x :=
    fun x hxa hxb => (hsecond.other x hxa).trans (hfirst.other x hxb)
  constructor
  · rintro hg (hx | hy)
    · exact not_acyclic_of_come hf ha hb other hx hg
    · exact not_acyclic_of_come hf hfirst.before hsecond.after (fun x hxb hxa => other x hxa hxb)
        hy hg
  · intro hapart
    rw [not_or] at hapart
    exact Exchanged.acyclic ⟨hfirst, hsecond, ne, hapart.1, hapart.2⟩ hf

end Forest

namespace Match

variable {m m' : Match} {a b h : Handle} {s t : Span} {nodes : List Node}

/-- A handle has no nodes if its span is not there. -/
theorem content_stale (hs : m.span h = .ok s) (hx : m.forest.nodes? s = none) :
    m.content h = .error (.handleInvalidated (m.nameAt h.index)) := by
  have hin : m.forest.nodesIn? s.seq s.start s.stop = none := hx
  simp only [content, contentUpTo, hs, hin, bind, Except.bind, throw, throwThe,
    MonadExceptOf.throw]

/-- Nodes are not put in the place of a span that is not there. -/
theorem replace_stale (hs : m.span h = .ok s) (hx : m.forest.nodes? s = none) :
    replace h nodes m = .error (.error (.handleInvalidated (m.nameAt h.index))) m :=
  replaceBy_refused (content_stale hs hx)

/-- Nor are the nodes of two spans exchanged. -/
theorem swap_stale (hs : m.span a = .ok s) (ht : m.span b = .ok t)
    (hx : m.forest.nodes? s = none ∨ m.forest.nodes? t = none) :
    ∃ i, swap a b m = .error (.error (.handleInvalidated (m.nameAt i))) m := by
  unfold swap swapBy
  rw [Edit.bind_ok (Edit.ask_ok hs), Edit.bind_ok (Edit.ask_ok ht)]
  cases hns : m.forest.nodes? s with
  | none => exact ⟨_, Edit.bind_error (Edit.ask_error (content_stale hs hns))⟩
  | some ss =>
    have hss : m.contentUpTo Span.stop a = .ok ss := contentUpTo_eq_ok_iff.2 ⟨s, hs, hns⟩
    have hnt : m.forest.nodes? t = none := hx.resolve_left (by simp [hns])
    rw [Edit.bind_ok (Edit.ask_ok hss)]
    exact ⟨_, Edit.bind_error (Edit.ask_error (content_stale ht hnt))⟩

section Acyclic

variable (hf : m.forest.Closed) (ha : m.forest.Acyclic)
include hf ha

theorem replace_cyclic_iff (hs : m.span h = .ok s) (holds : m.forest.Holds nodes)
    (name : String) (m' : Match) :
    replace h nodes m = .error (.error (.cyclicReplace name)) m' ↔
      name = m.nameAt h.index ∧ m' = m ∧ ∃ g, m.forest.withNodes s nodes = some g ∧ ¬g.Acyclic := by
  cases hx : m.forest.nodes? s with
  | none =>
    rw [replace_stale hs hx, Forest.withNodes_eq_none hx]
    simp
  | some old =>
    obtain ⟨front, back, hc, hfront, hold⟩ := Forest.nodes?_eq_some_iff.1 hx
    rw [Forest.withNodes_eq_some hc hfront hold]
    have hiff := (Forest.spliced_setChildren hc nodes).acyclic_iff ha
    simp only [Option.some.injEq, exists_eq_left', hiff, not_not]
    by_cases hback : m.forest.ReachedFrom nodes s.seq
    · have hrun : replace h nodes m = _ := replaceBy_cyclic hf hs rfl hx holds hback
      rw [hrun]
      simp only [EStateM.Result.error.injEq, Failure.error.injEq, HandleError.cyclicReplace.injEq,
        hback, and_true, eq_comm]
    · obtain ⟨m'', -, -, -, -, hrun, -⟩ := replace_ok hf hs hx holds hback
      simp [hrun, hback]

theorem swap_overlap_iff (hs : m.span a = .ok s) (ht : m.span b = .ok t) (ne : s.seq ≠ t.seq)
    (x y : String) (m' : Match) :
    swap a b m = .error (.error (.swapOverlap x y)) m' ↔
      x = m.nameAt a.index ∧ y = m.nameAt b.index ∧ m' = m ∧
        ∃ g, m.forest.withExchanged s t = some g ∧ ¬g.Acyclic := by
  by_cases hx : m.forest.nodes? s = none ∨ m.forest.nodes? t = none
  · obtain ⟨i, hstale⟩ := swap_stale hs ht hx
    rw [hstale, Forest.withExchanged_eq_none hx]
    simp
  · obtain ⟨⟨ss, hns⟩, ts, hnt⟩ : (∃ ss, m.forest.nodes? s = some ss) ∧
        ∃ ts, m.forest.nodes? t = some ts := by
      simpa only [not_or, ← Option.isSome_iff_ne_none, Option.isSome_iff_exists] using hx
    obtain ⟨mid, g, _, _, _, _, hg, hfirst, hsecond⟩ := Forest.exists_withExchanged hns hnt ne
    have hiff := Forest.acyclic_exchange_iff hfirst hsecond ne.symm ha
    obtain ⟨nested, hnested, hrun⟩ := swapBy_eq hf hs ht hns hnt
    have hswap : swap a b m = _ := hrun _ _ rfl rfl
    simp only [hg, Option.some.injEq, exists_eq_left', hiff, not_not]
    have hout : s.overlaps t = false := by simp [Span.overlaps, ne]
    cases nested with
    | true =>
      rw [hswap, if_pos (by simp)]
      simp only [EStateM.Result.error.injEq, Failure.error.injEq, HandleError.swapOverlap.injEq,
        (hnested.1 rfl).symm, and_true, eq_comm, and_assoc]
    | false =>
      have happart : ¬(m.forest.ReachedFrom ts s.seq ∨ m.forest.ReachedFrom ss t.seq) :=
        fun hr => Bool.false_ne_true (hnested.2 hr.symm)
      obtain ⟨m'', -, -, -, -, -, -, -, -, hrun, -⟩ := swap_ok hf hs ht hns hnt hout
        (fun hr => happart (.inr hr)) fun hr => happart (.inl hr)
      simp only [hrun, happart, reduceCtorEq, and_false]

/-- In a closed forest without cycles a replacement with nodes that are there answers that the
handle's nodes would lead to their own sequence just if putting them in the place of its span would
make a cycle. A swap of two handles whose spans lie in different sequences answers that they overlap
just if the exchange of their nodes would. Either answer names the handles asked for and leaves the
match as it was. -/
theorem cycle_refusals_exact :
    (∀ h s nodes, m.span h = .ok s → m.forest.Holds nodes → ∀ name m',
      (replace h nodes m = .error (.error (.cyclicReplace name)) m' ↔
        name = m.nameAt h.index ∧ m' = m ∧
          ∃ g, m.forest.withNodes s nodes = some g ∧ ¬g.Acyclic)) ∧
    ∀ a b s t, m.span a = .ok s → m.span b = .ok t → s.seq ≠ t.seq → ∀ x y m',
      (swap a b m = .error (.error (.swapOverlap x y)) m' ↔
        x = m.nameAt a.index ∧ y = m.nameAt b.index ∧ m' = m ∧
          ∃ g, m.forest.withExchanged s t = some g ∧ ¬g.Acyclic) :=
  ⟨fun _ _ _ hs holds => replace_cyclic_iff hf ha hs holds,
    fun _ _ _ _ hs ht ne => swap_overlap_iff hf ha hs ht ne⟩

end Acyclic

/-- A sequence that two others share may come to the outer one once more. The one between them,
which leads to it, may not come to it, by a replacement or by a swap. -/
theorem cycle_refusals_exact_shared :
    let items : List Pattern := [.sequence [.named "x" [.any]], .named "y" [.any]]
    let f := ((Forest.ofValue (.seq [.seq [.scalar .null]])).alloc [.seq ⟨0⟩, .seq ⟨1⟩]).2
    let m := ofCaptures 0 (Program.ofItems items) f
      ⟨⟨⟨2⟩, 0, 2⟩, [some ⟨⟨0⟩, 0, 1⟩, some ⟨⟨2⟩, 1, 1⟩]⟩
    (Program.ofItems items).match? f ⟨2⟩ 0 =
        .ok (some ⟨⟨⟨2⟩, 0, 2⟩, [some ⟨⟨0⟩, 0, 1⟩, some ⟨⟨2⟩, 1, 1⟩]⟩) ∧
      (∀ g, m.forest.withNodes ⟨⟨2⟩, 1, 1⟩ [.seq ⟨0⟩, .seq ⟨1⟩] = some g → g.Acyclic) ∧
      (replace ⟨0, 1⟩ [.seq ⟨1⟩] m = .error (.error (.cyclicReplace "x")) m ∧
        ∃ g, m.forest.withNodes ⟨⟨0⟩, 0, 1⟩ [.seq ⟨1⟩] = some g ∧ ¬g.Acyclic) ∧
      swap ⟨0, 1⟩ ⟨0, 2⟩ m = .error (.error (.swapOverlap "x" "y")) m ∧
        ∃ g, m.forest.withExchanged ⟨⟨0⟩, 0, 1⟩ ⟨⟨2⟩, 1, 1⟩ = some g ∧ ¬g.Acyclic := by
  intro items f m
  have holds : (Forest.ofValue (.seq [.seq [.scalar .null]])).Holds [.seq ⟨0⟩, .seq ⟨1⟩] := by
    intro id hid
    obtain rfl | rfl : id = ⟨0⟩ ∨ id = ⟨1⟩ := by simpa using hid
    · rfl
    · rfl
  have hclosed : m.forest.Closed := (Forest.closed_ofValue _).alloc holds
  have hacyclic : m.forest.Acyclic :=
    (Forest.acyclic_ofValue _).alloc (Forest.closed_ofValue _) holds
  have hx : m.span ⟨0, 1⟩ = .ok ⟨⟨0⟩, 0, 1⟩ := by rfl
  have hy : m.span ⟨0, 2⟩ = .ok ⟨⟨2⟩, 1, 1⟩ := by rfl
  have hshared : m.forest.Holds [.seq ⟨0⟩, .seq ⟨1⟩] := (Forest.extends_alloc _ _).holds holds
  obtain ⟨hreplace, hswap⟩ := cycle_refusals_exact hclosed hacyclic
  refine ⟨by decide +kernel, ?_, ?_, ?_⟩
  · intro g hg
    by_contra hcycle
    have hrefused := (hreplace ⟨0, 2⟩ _ _ hy hshared "y" m).2 ⟨rfl, rfl, g, hg, hcycle⟩
    have hmade : replace ⟨0, 2⟩ [.seq ⟨0⟩, .seq ⟨1⟩] m = .ok () _ :=
      edit_eq_ok_after (.replace ⟨0, 2⟩ [.seq ⟨0⟩, .seq ⟨1⟩]) (by decide +kernel)
    rw [hmade] at hrefused
    cases hrefused
  · have hrefused : replace ⟨0, 1⟩ [.seq ⟨1⟩] m = .error (.error (.cyclicReplace "x")) _ :=
      edit_eq_error_after (.replace ⟨0, 1⟩ [.seq ⟨1⟩]) _ (by decide +kernel)
    obtain ⟨-, hsame, hcycle⟩ :=
      (hreplace ⟨0, 1⟩ _ _ hx (hshared.mono (by simp)) _ _).1 hrefused
    exact ⟨hrefused.trans (by rw [hsame]), hcycle⟩
  · have hrefused : swap ⟨0, 1⟩ ⟨0, 2⟩ m = .error (.error (.swapOverlap "x" "y")) _ :=
      edit_eq_error_after (.swap ⟨0, 1⟩ ⟨0, 2⟩) _ (by decide +kernel)
    obtain ⟨-, -, hsame, hcycle⟩ := (hswap _ _ _ _ hx hy (by decide) _ _ _).1 hrefused
    exact ⟨hrefused.trans (by rw [hsame]), hcycle⟩

end Match

end NestedRegex
