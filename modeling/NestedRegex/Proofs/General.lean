import Mathlib.Algebra.Ring.Nat
import Mathlib.Data.List.Nodup

namespace Except

variable {ε α β : Type} {x : Except ε α} {next : α → Except ε β} {a : α} {b : β}

theorem bind_ok (h : (x >>= next) = .ok b) : ∃ a, x = .ok a ∧ next a = .ok b := by
  cases x with
  | error e => cases h
  | ok a => exact ⟨a, rfl, h⟩

theorem exists_bind_ok :
    (∃ b, (x >>= next) = .ok b) ↔ ∃ a, x = .ok a ∧ ∃ b, next a = .ok b := by
  constructor
  · rintro ⟨b, h⟩
    obtain ⟨a, ha, hb⟩ := bind_ok h
    exact ⟨a, ha, b, hb⟩
  · rintro ⟨a, rfl, b, hb⟩
    exact ⟨b, hb⟩

theorem bind_ok_unit_iff {x : Except ε Unit} {y : Except ε α} :
    (x >>= fun _ => y) = .ok a ↔ x = .ok () ∧ y = .ok a := by
  cases x with
  | error e => exact iff_of_false nofun nofun
  | ok u => exact (and_iff_right rfl).symm

theorem toOption_eq_some_iff : x.toOption = some a ↔ x = .ok a := by
  cases x <;> simp [Except.toOption]

end Except

namespace List

section Runs

variable {α β ε : Type} {xs : List α} {ys : List β} {act act' : α → Except ε β}

theorem mapM_ok {v : α → β} (h : ∀ x ∈ xs, act x = .ok (v x)) : xs.mapM act = .ok (xs.map v) := by
  induction xs with
  | nil => rfl
  | cons x xs ih =>
    rw [List.mapM_cons, h x (by simp), ih fun y hy => h y (by simp [hy])]
    rfl

theorem mapM_congr (h : ∀ x ∈ xs, act x = act' x) : xs.mapM act = xs.mapM act' := by
  induction xs with
  | nil => rfl
  | cons x xs ih =>
    rw [List.mapM_cons, List.mapM_cons, h x (by simp), ih fun y hy => h y (by simp [hy])]

theorem mapM_mono (same : ∀ x y, act x = .ok y → act' x = .ok y) (hx : xs.mapM act = .ok ys) :
    xs.mapM act' = .ok ys := by
  induction xs generalizing ys with
  | nil => exact hx
  | cons x xs ih =>
    rw [List.mapM_cons] at hx ⊢
    obtain ⟨y, hy, hx⟩ := Except.bind_ok hx
    obtain ⟨ys', hys, hx⟩ := Except.bind_ok hx
    have hrest := ih hys
    rw [same x y hy]
    simp only [bind, Except.bind, hrest]
    exact hx

end Runs

theorem drop_append_eq_iff {α : Type} {xs ys : List α} {n : Nat} (h : n ≤ xs.length) :
    (xs ++ ys).drop n = ys ↔ n = xs.length := by
  rw [List.drop_append_of_le_length h, List.append_left_eq_self, List.drop_eq_nil_iff]
  exact ⟨fun hle => Nat.le_antisymm h hle, fun e => Nat.le_of_eq e.symm⟩

/-- Of two lists of one length, those of the first whose partner passes. -/
theorem filterMap_zip_eq_filter {α β : Type} {xs : List α} {ys : List β} {q : α → Bool}
    {g : β → Bool} (same : xs.length = ys.length)
    (agree : ∀ (i : Nat) x y, xs[i]? = some x → ys[i]? = some y → q x = g y) :
    (xs.zip ys).filterMap (fun (x, y) => if g y then some x else none) = xs.filter q := by
  induction xs generalizing ys with
  | nil => rfl
  | cons x xs ih =>
    cases ys with
    | nil => cases same
    | cons y ys =>
      have rest := ih (Nat.succ.inj same) fun i => agree (i + 1)
      have first := agree 0 x y rfl rfl
      simp only [List.zip_cons_cons, List.filterMap_cons, List.filter_cons, rest, first]
      cases g y <;> rfl

theorem sum_set_add_getElem (xs : List Nat) (i : Nat) (n : Nat) (h : i < xs.length) :
    (xs.set i n).sum + xs[i] = xs.sum + n := by
  induction xs generalizing i with
  | nil => simp at h
  | cons x xs ih =>
    cases i with
    | zero =>
      simp only [List.set_cons_zero, List.sum_cons, List.getElem_cons_zero]
      omega
    | succ i =>
      have hs := ih i (by simpa using h)
      simp only [List.set_cons_succ, List.sum_cons, List.getElem_cons_succ]
      omega

section EraseDups

variable {α : Type} [BEq α] [LawfulBEq α]

theorem eraseDups_of_nodup {xs : List α} (h : xs.Nodup) : xs.eraseDups = xs := by
  induction xs with
  | nil => rfl
  | cons x xs ih =>
    obtain ⟨hx, h⟩ := List.nodup_cons.1 h
    have others : xs.filter (fun y => !y == x) = xs := by
      refine List.filter_eq_self.2 fun y hy => ?_
      have hne : y ≠ x := fun e => hx (e ▸ hy)
      simpa using hne
    rw [List.eraseDups_cons, others, ih h]

/-- Without its repetitions a list keeps its order: what then comes before an entry came before each
of its repetitions. -/
theorem pairwise_eraseDups (xs : List α) :
    xs.eraseDups.Pairwise fun a b => ∀ front back, xs = front ++ b :: back → a ∈ front := by
  match xs with
  | [] => simp
  | x :: xs =>
    rw [List.eraseDups_cons, List.pairwise_cons]
    have later : ∀ b ∈ (xs.filter fun y => !y == x).eraseDups, b ≠ x := fun b hb => by
      have hx := (List.mem_filter.1 (List.mem_eraseDups.1 hb)).2
      simpa using hx
    refine ⟨fun b hb front back he => ?_, ?_⟩
    · rcases List.cons_eq_append_iff.1 he with ⟨-, he⟩ | ⟨rest, rfl, -⟩
      · exact absurd (List.cons.inj he).1 (later b hb)
      · exact List.mem_cons_self
    · refine (pairwise_eraseDups _).imp_of_mem fun {a b} _ hb ih front back he => ?_
      rcases List.cons_eq_append_iff.1 he with ⟨-, he⟩ | ⟨rest, rfl, rfl⟩
      · exact absurd (List.cons.inj he).1 (later b hb)
      · have kept : (!b == x) = true := by simpa using later b hb
        have hm := ih (rest.filter fun y => !y == x) (back.filter fun y => !y == x) (by
          rw [List.filter_append, List.filter_cons, if_pos kept])
        exact List.mem_cons_of_mem _ (List.mem_filter.1 hm).1
termination_by xs.length
decreasing_by
  simp only [List.length_cons]
  exact Nat.lt_succ_of_le (List.length_filter_le _ _)

theorem nodup_eraseDups (xs : List α) : xs.eraseDups.Nodup := by
  refine (pairwise_eraseDups xs).imp_of_mem fun {a b} _ hb first e => ?_
  obtain ⟨front, back, he, fresh⟩ := List.eq_append_cons_of_mem (List.mem_eraseDups.1 hb)
  exact fresh (e ▸ first front back he)

end EraseDups

end List
