import NestedRegex.Machine.Basic
import NestedRegex.Proofs.Forest.Occurrences
import NestedRegex.Search.Basic

namespace NestedRegex

/-- What a program finds at one position of a sequence. -/
def Program.finds (p : Program) (f : Forest) (seq : SeqName) (position : Nat) : Option Captures :=
  (p.match? f seq position).toOption.join

namespace Search

/-- The sequences that a search visits, in order: those that occur below the root, each where it
occurs first. Without descent it is the root alone. -/
def order (options : Options) (f : Forest) : List SeqName :=
  if options.descend then (f.occurrences (.seq f.root)).eraseDups else [f.root]

/-- The positions of a sequence that may be tried. -/
def positions (options : Options) (length : Nat) : List Nat :=
  if options.anchored then (List.range length).take 1 else List.range length

/-- Where a scan goes on after an answer: behind a match, and else with the next position. -/
def following (position : Nat) : Option Captures → Nat
  | some b => b.whole.stop
  | none => position + 1

/-- The answers at some positions, of which those before `next` are passed over. -/
def answersFrom (answer : Nat → Option Captures) : Nat → List Nat → List (Option Captures)
  | _, [] => []
  | next, i :: is =>
    if i < next then answersFrom answer next is
    else answer i :: answersFrom answer (following i (answer i)) is

/-- The answers of the scan of a sequence from a position on. -/
def scanFrom (p : Program) (options : Options) (f : Forest) (seq : SeqName) (position : Nat) :
    List (Option Captures) :=
  answersFrom (p.finds f seq) position (positions options (f.nodesOf seq).length)

/-- The answers at all positions that a search tries, in order. -/
def answers (p : Program) (options : Options) (f : Forest) : List (Option Captures) :=
  (order options f).flatMap fun seq => scanFrom p options f seq 0

section Scans

variable {answer : Nat → Option Captures} {next i : Nat} {is : List Nat} {options : Options}
  {length : Nat}

theorem answersFrom_past (h : ∀ i ∈ is, i < next) : answersFrom answer next is = [] := by
  induction is with
  | nil => rfl
  | cons i is ih =>
    rw [answersFrom, if_pos (h i List.mem_cons_self)]
    exact ih fun j hj => h j (List.mem_cons_of_mem _ hj)

/-- The first position that is not passed over is tried. -/
theorem answersFrom_here (sorted : is.Pairwise (· < ·)) (hi : i ∈ is)
    (ahead : i < following i (answer i)) :
    answersFrom answer i is = answer i :: answersFrom answer (following i (answer i)) is := by
  induction is with
  | nil => cases hi
  | cons j is ih =>
    obtain ⟨hj, sorted⟩ := List.pairwise_cons.1 sorted
    rcases List.mem_cons.1 hi with rfl | hi
    · rw [answersFrom, if_neg (Nat.lt_irrefl _), answersFrom, if_pos ahead]
    · have hlt := hj i hi
      rw [answersFrom, if_pos hlt, ih sorted hi, answersFrom, if_pos (Nat.lt_trans hlt ahead)]

theorem sorted_positions (options : Options) (length : Nat) :
    (positions options length).Pairwise (· < ·) := by
  unfold positions
  split
  · exact List.pairwise_lt_range.sublist (List.take_sublist _ _)
  · exact List.pairwise_lt_range

theorem mem_positions : i ∈ positions options length ↔
    i < length ∧ ¬(options.anchored ∧ 0 < i) := by
  unfold positions
  cases options.anchored with
  | false => simp
  | true =>
    cases length with
    | zero => simp
    | succ length =>
      simp only [List.range_succ_eq_map, if_true, List.take_succ_cons, List.take_zero,
        List.mem_singleton, true_and, Nat.not_lt]
      omega

end Scans

section Order

variable {options : Options} {f : Forest} {visited : NameSet} {before later : List SeqName}
  {n : Node} {ns : List Node} {x y : SeqName}

/-- The children that are followed. -/
def followed (options : Options) (f : Forest) (seq : SeqName) : List Node :=
  if options.descend then f.nodesOf seq else []

/-- The sequences that are met below a node, each as often as it occurs. -/
def met (options : Options) (f : Forest) : Node → List SeqName
  | .scalar _ => []
  | .seq id => if options.descend then f.occurrences (.seq id) else [id]

/-- The sequences that are still to be scanned, in order. -/
def upcoming (options : Options) (f : Forest) (visited : NameSet) (ns : List Node) : List SeqName :=
  ((ns.flatMap (met options f)).filter fun x => x ∉ visited).eraseDups

theorem met_of_descend (hd : options.descend = true) (n : Node) :
    met options f n = f.occurrences n := by
  cases n with
  | scalar s => exact (Forest.occurrencesWithin_scalar s).symm
  | seq id => exact if_pos hd

theorem met_seq (hf : f.Closed) (ha : f.Acyclic) (hc : f.contains x = true) :
    met options f (.seq x) = x :: (followed options f x).flatMap (met options f) := by
  unfold followed
  cases hd : options.descend with
  | false => simp [met, hd]
  | true =>
    have same : met options f = f.occurrences := funext (met_of_descend hd)
    rw [same, Forest.occurrences_seq hf ha hc, if_pos rfl]

theorem upcoming_root (options : Options) (f : Forest) :
    upcoming options f .empty [.seq f.root] = order options f := by
  unfold upcoming order met
  cases options.descend <;> simp [List.eraseDups_cons]

/-- A new sequence comes first, and then what is followed below it. -/
theorem upcoming_enter (hf : f.Closed) (ha : f.Acyclic) (hc : f.contains x = true)
    (new : x ∉ visited) : upcoming options f visited (.seq x :: ns) =
      x :: upcoming options f (visited.insert x) (followed options f x ++ ns) := by
  unfold upcoming
  rw [List.flatMap_cons, met_seq hf ha hc, List.cons_append,
    List.filter_cons_of_pos (by simpa using new), List.eraseDups_cons, List.filter_filter,
    ← List.flatMap_append]
  congr 2
  apply List.filter_congr
  intro y _
  simp [NameSet.mem_insert, not_or, beq_eq_decide]

/-- Where all was visited before, nothing new comes up. -/
theorem upcoming_seen (h : ∀ z ∈ met options f n, z ∈ visited) :
    upcoming options f visited (n :: ns) = upcoming options f visited ns := by
  have none : (met options f n).filter (fun x => decide (x ∉ visited)) = [] :=
    List.filter_eq_nil_iff.2 fun z hz => by simpa using h z hz
  unfold upcoming
  rw [List.flatMap_cons, List.filter_append, none, List.nil_append]

/-- What lies below a visited sequence that is met again was visited too, or it comes up before. -/
def Settled (options : Options) (f : Forest) (visited : NameSet) :
    List SeqName → List Node → Prop
  | _, [] => True
  | before, n :: ns =>
    (∀ y ∈ met options f n, y ∈ visited → ∀ z ∈ met options f (.seq y),
      z ∈ visited ∨ z ∈ before) ∧ Settled options f visited (before ++ met options f n) ns

theorem Settled.empty (options : Options) (f : Forest) (before : List SeqName) (ns : List Node) :
    Settled options f .empty before ns := by
  induction ns generalizing before with
  | nil => trivial
  | cons n ns ih => exact ⟨fun y _ hy => absurd hy (NameSet.not_mem_empty y), ih _⟩

theorem Settled.mono {more : NameSet} (h : Settled options f visited before ns)
    (hbefore : ∀ z ∈ before, z ∈ more ∨ z ∈ later) (hmore : ∀ y ∈ visited, y ∈ more)
    (hnew : ∀ y ∈ more, y ∉ visited → ∀ z ∈ met options f (.seq y), z ∈ more ∨ z ∈ later) :
    Settled options f more later ns := by
  induction ns generalizing before later with
  | nil => trivial
  | cons n ns ih =>
    obtain ⟨here, rest⟩ := h
    refine ⟨fun y hy hin z hz => ?_, ih rest (fun z hz => ?_) fun y hy hn z hz => ?_⟩
    · by_cases hv : y ∈ visited
      · rcases here y hy hv z hz with hz | hz
        · exact .inl (hmore z hz)
        · exact hbefore z hz
      · exact hnew y hin hv z hz
    · rcases List.mem_append.1 hz with hz | hz
      · exact (hbefore z hz).imp_right (List.mem_append_left _)
      · exact .inr (List.mem_append_right _ hz)
    · exact (hnew y hy hn z hz).imp_right (List.mem_append_left _)

theorem Settled.of_visited (h : ∀ n ∈ ns, ∀ y ∈ met options f n, y ∈ visited →
    ∀ z ∈ met options f (.seq y), z ∈ visited) : Settled options f visited before ns := by
  induction ns generalizing before with
  | nil => trivial
  | cons n ns ih =>
    exact ⟨fun y hy hin z hz => .inl (h n List.mem_cons_self y hy hin z hz),
      ih fun m hm => h m (List.mem_cons_of_mem _ hm)⟩

theorem Settled.append {ms : List Node} (hn : Settled options f visited before ns)
    (hm : Settled options f visited (before ++ ns.flatMap (met options f)) ms) :
    Settled options f visited before (ns ++ ms) := by
  induction ns generalizing before with
  | nil => simpa using hm
  | cons n ns ih =>
    refine ⟨hn.1, ih hn.2 ?_⟩
    rwa [List.flatMap_cons, ← List.append_assoc] at hm

/-- Without cycles no sequence is met below itself. -/
theorem not_mem_met_followed (hf : f.Closed) (ha : f.Acyclic) (hn : n ∈ followed options f x) :
    x ∉ met options f n := by
  intro hx
  unfold followed at hn
  split at hn
  · next hd =>
    rw [met_of_descend hd] at hx
    cases n with
    | scalar s => simp [Forest.occurrences] at hx
    | seq b =>
      have child := Forest.mem_nodesOf.1 hn
      exact ha x (.head' child ((Forest.mem_occurrences hf ha (hf.child child)).1 hx))
  · cases hn

theorem Settled.enter (hf : f.Closed) (ha : f.Acyclic) (hc : f.contains x = true)
    (h : Settled options f visited [] (.seq x :: ns)) :
    Settled options f (visited.insert x) [] (followed options f x ++ ns) := by
  obtain ⟨here, rest⟩ := h
  rw [met_seq hf ha hc] at here
  have inserted : ∀ y ∈ visited, y ∈ visited.insert x := fun y hy => NameSet.mem_insert.2 (.inr hy)
  refine .append (.of_visited fun n hn y hy hin z hz => ?_) (rest.mono (fun z hz => ?_) inserted ?_)
  · have hne : y ≠ x := fun e => not_mem_met_followed hf ha hn (e ▸ hy)
    have hv := (NameSet.mem_insert.1 hin).resolve_left hne
    have hy : y ∈ x :: (followed options f x).flatMap (met options f) :=
      List.mem_cons_of_mem _ (List.mem_flatMap.2 ⟨n, hn, hy⟩)
    exact inserted z ((here y hy hv z hz).resolve_right List.not_mem_nil)
  · rw [List.nil_append, met_seq hf ha hc] at hz
    exact (List.mem_cons.1 hz).imp_left fun e => NameSet.mem_insert.2 (.inl e)
  · intro y hy hn z hz
    obtain rfl := (NameSet.mem_insert.1 hy).resolve_right hn
    rw [met_seq hf ha hc] at hz
    exact (List.mem_cons.1 hz).imp_left fun e => NameSet.mem_insert.2 (.inl e)

theorem Settled.seen (h : Settled options f visited [] (.seq x :: ns)) (hx : x ∈ visited)
    (hself : x ∈ met options f (.seq x)) :
    (∀ z ∈ met options f (.seq x), z ∈ visited) ∧ Settled options f visited [] ns := by
  obtain ⟨here, rest⟩ := h
  have all : ∀ z ∈ met options f (.seq x), z ∈ visited := fun z hz =>
    (here x hself hx z hz).resolve_right List.not_mem_nil
  exact ⟨all, rest.mono (fun z hz => .inl (all z hz)) (fun _ hy => hy) fun y hy hn => absurd hy hn⟩

end Order

end Search

end NestedRegex
