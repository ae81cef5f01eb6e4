import NestedRegex.Proofs.Forest.Places

namespace NestedRegex.Forest

open Relation

variable {f g mid : Forest} {a b r t : SeqName} {xs ys frontA backA frontB backB : List Node}

/-- Other children in another order lead to the same sequences. -/
theorem reaches_congr_mem {old new : List Node} (h : Spliced f g a frontA old new backA)
    (hm : ∀ n, n ∈ new ↔ n ∈ old) : g.Reaches r t ↔ f.Reaches r t := by
  have child : ∀ x y, g.Child x y ↔ f.Child x y := by
    intro x y
    by_cases e : x = a
    · subst e
      simp only [Child, h.after, h.before, Option.some.injEq, exists_eq_left', List.mem_append, hm]
    · simp only [Child, h.other x e]
  have same : g.Child = f.Child := funext fun x => funext fun y => propext (child x y)
  rw [Reaches, Reaches, same]

/-- The nodes `xs` of one sequence and `ys` of another change places, those of the other first. -/
structure Exchanged (f mid g : Forest) (a b : SeqName)
    (xs ys frontA backA frontB backB : List Node) : Prop where
  first : Spliced f mid b frontB ys xs backB
  second : Spliced mid g a frontA xs ys backA
  ne : a ≠ b
  apartX : ¬f.ReachedFrom xs b
  apartY : ¬f.ReachedFrom ys a

namespace Exchanged

variable (h : Exchanged f mid g a b xs ys frontA backA frontB backB)
include h

theorem children_a : f.children? a = some (frontA ++ xs ++ backA) :=
  (h.first.other a h.ne).symm.trans h.second.before

theorem children_b : g.children? b = some (frontB ++ xs ++ backB) :=
  (h.second.other b h.ne.symm).trans h.first.after

theorem other (x : SeqName) (ha : x ≠ a) (hb : x ≠ b) : g.children? x = f.children? x :=
  (h.second.other x ha).trans (h.first.other x hb)

theorem closed (hf : f.Closed) : g.Closed := by
  have hx : f.Holds xs := (hf a _ h.children_a).mono (by simp)
  have hy : f.Holds ys := (hf b _ h.first.before).mono (by simp)
  exact h.second.closed (h.first.closed hf hx) (h.first.holds.2 hy)

theorem places (x : SeqName) : g.places x = f.places x := by
  have hfirst := h.first.places x
  have hsecond := h.second.places x
  omega

section Acyclic

variable (hf : f.Acyclic)
include hf

theorem not_reachedFrom_self : ¬f.ReachedFrom xs a ∧ ¬f.ReachedFrom ys b := by
  refine ⟨fun hr => ?_, fun hr => ?_⟩
  · exact hf.not_reachedFrom h.children_a (hr.mono (by simp))
  · exact hf.not_reachedFrom h.first.before (hr.mono (by simp))

theorem acyclic_mid : mid.Acyclic :=
  h.first.acyclic hf h.apartX

theorem acyclic : g.Acyclic := by
  apply h.second.acyclic (h.acyclic_mid hf)
  rw [h.first.reachedFrom_iff (h.not_reachedFrom_self hf).2]
  exact h.apartY

theorem reaches_first (hr : f.Reaches r a) : g.Reaches r a := by
  have hmid : mid.Reaches r a := by
    rcases h.first.reaches_or hr with hr | ⟨-, hr⟩
    · exact hr
    · exact absurd hr h.apartY
  exact (h.second.reaches_self_iff (h.acyclic_mid hf) (h.acyclic hf)).2 hmid

theorem reaches_second (hr : f.Reaches r b) : g.Reaches r b := by
  have hmid := (h.first.reaches_self_iff hf (h.acyclic_mid hf)).2 hr
  rcases h.second.reaches_or hmid with hr | ⟨-, hr⟩
  · exact hr
  · exact absurd ((h.first.reachedFrom_iff h.apartX).1 hr) h.apartX

theorem reachedFrom_first : g.ReachedFrom xs t ↔ f.ReachedFrom xs t := by
  rw [h.second.reachedFrom_iff, h.first.reachedFrom_iff h.apartX]
  rw [h.first.reachedFrom_iff h.apartX]
  exact (h.not_reachedFrom_self hf).1

theorem reachedFrom_second : g.ReachedFrom ys t ↔ f.ReachedFrom ys t := by
  rw [h.second.reachedFrom_iff, h.first.reachedFrom_iff (h.not_reachedFrom_self hf).2]
  rw [h.first.reachedFrom_iff (h.not_reachedFrom_self hf).2]
  exact h.apartY

/-- A sequence that leads to both still leads wherever it led. -/
theorem reaches (ha : f.Reaches r a) (hb : f.Reaches r b) (ht : f.Reaches r t) :
    g.Reaches r t := by
  have hga := h.reaches_first hf ha
  have hgb := h.reaches_second hf hb
  rcases h.first.reaches_or ht with hmid | ⟨-, hy⟩
  · rcases h.second.reaches_or hmid with hg | ⟨-, hx⟩
    · exact hg
    · -- Through the nodes that are now in the second sequence.
      have hin := (h.reachedFrom_first hf).2 ((h.first.reachedFrom_iff h.apartX).1 hx)
      exact hgb.trans ((hin.mono (by simp)).reaches h.children_b)
  · have hin := (h.reachedFrom_second hf).2 hy
    exact hga.trans ((hin.mono (by simp)).reaches h.second.after)

/-- The exchange back. -/
theorem symm : Exchanged g mid f b a xs ys frontB backB frontA backA where
  first := h.second.symm
  second := h.first.symm
  ne := h.ne.symm
  apartX hr := (h.not_reachedFrom_self hf).1 ((h.reachedFrom_first hf).1 hr)
  apartY hr := (h.not_reachedFrom_self hf).2 ((h.reachedFrom_second hf).1 hr)

/-- A sequence that leads to both leads where it led, and nowhere else. -/
theorem reaches_iff (ha : f.Reaches r a) (hb : f.Reaches r b) :
    g.Reaches r t ↔ f.Reaches r t := by
  constructor
  · exact (h.symm hf).reaches (h.acyclic hf) (h.reaches_second hf hb) (h.reaches_first hf ha)
  · exact h.reaches hf ha hb

end Acyclic

end Exchanged

end NestedRegex.Forest
