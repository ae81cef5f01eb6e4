import NestedRegex.Proofs.Pass.RepeatedRun
import NestedRegex.Proofs.Pass.Reports
import NestedRegex.Proofs.Search.Unedited
import NestedRegex.Proofs.Value.Text

namespace NestedRegex.Pass

open Match Pattern Value

variable {f : Forest} {seq : SeqName} {start : Nat} {x y : Value}

/-- The line for a run of `x` and `y`. -/
def lineFor (run : Value × Value) : String :=
  "F1 = [" ++ run.1.text ++ ", " ++ run.2.text ++ "], F2 = [" ++ run.2.text ++ "]"

/-- The match is described by the line for a run, whatever its number. -/
def Describes (f : Forest) (b : Captures) (run : Value × Value) : Prop :=
  ∀ id, runLine (ofCaptures id (Program.ofItems repeatedRun) f b) = .ok (lineFor run)

theorem describes_runCaptures (hf : f.Closed) (ha : f.Acyclic) (hc : f.contains seq = true)
    (h : IsRun x y ((f.valuesOf seq).drop start)) :
    Describes f (runCaptures f seq start) (x, y) := by
  obtain ⟨more, hvs⟩ := h
  intro id
  have described (name : String) {position : Nat} {vs : List Value} (hname : name ≠ wholeName)
      (hin : name ∈ names repeatedRun) (hne : vs ≠ [])
      (hs : (opened seq start).bound name = some ⟨seq, position, vs.length⟩)
      (hvs : vs <+: (f.valuesOf seq).drop position) :
      captureLine (ofCaptures id (Program.ofItems repeatedRun) f (runCaptures f seq start)) name =
        .ok (Value.seq vs).text := by
    obtain ⟨h, hget, hspan⟩ := held_name_ofCaptures hname hin hs
    obtain ⟨nodes, hnodes, rfl⟩ := Forest.exists_nodes?_of_prefix hc hne hvs
    exact captureLine_ok hf ha hget (content_eq_ok_iff.2 ⟨_, hspan, hnodes⟩)
  have long := described "F1" (by decide) (by decide) (List.cons_ne_nil x [y]) rfl ⟨_, hvs.symm⟩
  have short := described "F2" (by decide) (by decide) (List.cons_ne_nil y []) rfl
    ⟨_, (drop_succ_of_drop hvs).symm⟩
  rw [text_seq] at long short
  simp only [runLine, long, short]
  refine congrArg Except.ok
    (?_ : "F1 = " ++ Text.bracketed _ ++ ", F2 = " ++ Text.bracketed _ = _)
  have opens : "F1 = [" = "F1 = " ++ "[" := by decide
  have between : "], F2 = [" = "]" ++ (", F2 = " ++ "[") := by decide
  rw [lineFor, opens, between]
  simp only [Text.bracketed, List.map_cons, List.map_nil, String.intercalate_cons_cons,
    String.intercalate_singleton, String.append_assoc]

section Scans

open Search

/-- What is left of a scan finds the longest run in what is left of the sequence. -/
theorem answersFrom_repeatedRun (hf : f.Closed) (ha : f.Acyclic) (hc : f.contains seq = true)
    {left : Nat} (h : start + left = (f.nodesOf seq).length) :
    List.Forall₂ (Describes f)
      (answersFrom ((Program.ofItems repeatedRun).finds f seq) start
        (List.range' start left)).reduceOption
      (longestRun? ((f.valuesOf seq).drop start)).toList := by
  rw [← Forest.length_valuesOf] at h
  induction left generalizing start with
  | zero =>
    obtain rfl : start = (f.valuesOf seq).length := h
    rw [List.drop_length]
    exact .nil
  | succ left ih =>
    have hlt : start < (f.valuesOf seq).length := by omega
    have hvs := List.drop_eq_getElem_cons hlt
    rw [List.range'_succ, answersFrom, if_neg (Nat.lt_irrefl _), finds_repeatedRun hf ha hc, hvs,
      longestRun?_cons, ← hvs]
    cases hrun : run? ((f.valuesOf seq).drop start) with
    | none =>
      have behind : start + 1 + left = (f.valuesOf seq).length := by omega
      exact ih behind
    | some run =>
      have stops : (runCaptures f seq start).whole.stop = (f.valuesOf seq).length := by
        rw [Forest.length_valuesOf] at hlt ⊢
        exact Nat.add_sub_cancel' (Nat.le_of_lt hlt)
      have past : ∀ i ∈ List.range' (start + 1) left, i < (f.valuesOf seq).length := by
        intro i hi
        have hi := (List.mem_range'_1.1 hi).2
        omega
      rw [Option.map_some, following, stops, answersFrom_past past]
      exact .cons (describes_runCaptures hf ha hc (run?_eq_some_iff.1 hrun)) .nil

/-- The scan of a sequence finds the longest run at its end, and ends there. -/
theorem scan_repeatedRun (hf : f.Closed) (ha : f.Acyclic) (hc : f.contains seq = true) :
    List.Forall₂ (Describes f) (scanFrom (Program.ofItems repeatedRun) {} f seq 0).reduceOption
      (longestRun? (f.valuesOf seq)).toList := by
  have positions : positions {} (f.nodesOf seq).length =
      List.range' 0 (f.nodesOf seq).length := List.range_eq_range'
  rw [scanFrom, positions]
  exact answersFrom_repeatedRun hf ha hc (Nat.zero_add _)

/-- Scans of some sequences, one after the other, find the longest runs at their ends. -/
theorem scans_repeatedRun (hf : f.Closed) (ha : f.Acyclic) {names : List SeqName}
    (there : ∀ seq ∈ names, f.contains seq = true) :
    List.Forall₂ (Describes f)
      (names.flatMap fun seq => scanFrom (Program.ofItems repeatedRun) {} f seq 0).reduceOption
      ((names.map f.valuesOf).filterMap longestRun?) := by
  induction names with
  | nil => exact .nil
  | cons seq names ih =>
    obtain ⟨hc, there⟩ := List.forall_mem_cons.1 there
    rw [List.flatMap_cons, List.reduceOption_append, List.map_cons,
      List.filterMap_eq_flatMap_toList, List.flatMap_cons, ← List.filterMap_eq_flatMap_toList]
    exact List.rel_append (scan_repeatedRun hf ha hc) (ih there)

/-- The lines for the matches of a search are the lines for the runs that it finds. -/
theorem runLines_matchesFrom {found : List Captures} {runs : List (Value × Value)}
    (h : List.Forall₂ (Describes f) found runs) (number : Nat) :
    (matchesFrom (Program.ofItems repeatedRun) f number found).map runLine =
      (runs.map lineFor).map .ok := by
  induction h generalizing number with
  | nil => rfl
  | @cons b run found runs hb _ ih =>
    rw [← List.singleton_append, matchesFrom_append, List.map_append, ih, List.map_cons,
      List.map_cons, ← hb number]
    rfl

/-- What a search finds in a forest that shows a value are the longest runs at the ends of the
sequences of the value. -/
theorem answers_repeatedRun (hf : f.Closed) (ha : f.Acyclic) {v : Value} {names : List SeqName}
    (hs : f.Shows v (.seq f.root) names) :
    List.Forall₂ (Describes f) (answers (Program.ofItems repeatedRun) {} f).reduceOption
      (v.sequences.filterMap longestRun?) := by
  have order : order {} f = names := by
    rw [order, if_pos rfl, hs.occurrences_eq hf ha, List.eraseDups_of_nodup hs.nodup]
  rw [answers, order, ← hs.sequences_eq hf ha]
  exact scans_repeatedRun hf ha fun seq hseq => hs.contains hseq

end Scans

section Lines

open Search

variable {p : Program} {options : Options} {counts : Counts}

/-- The lines so far, the latest first, are those for the matches that were handed out. -/
def Lined (data : List String × List Match) : Prop :=
  data.2.map runLine = data.1.reverse.map .ok

theorem lined_snoc {m m' : Match} {next : Next} {data data' : List String × List Match}
    (h : Lined data) (given : recording reporting (m, data) = .ok next (m', data')) :
    Lined data' := by
  obtain ⟨line, hline, -, -, hlines⟩ := of_reporting_ok (of_recording_ok given)
  rw [Lined, noted_ok given, hlines, List.map_append, h, List.reverse_cons, List.map_append,
    List.map_singleton, List.map_singleton, hline]

/-- A search that ends well has a line for each match. -/
theorem lines_of_search {level : Nat}
    (h : (p.search options level reporting f []).outcome = .ok counts) :
    (p.given options level reporting f []).map runLine =
      (p.search options level reporting f []).data.reverse.map .ok := by
  have noted := search_recording p options level reporting f []
  have well : (p.search options level (recording reporting) f ([], [])).outcome = .ok counts := by
    rw [noted]
    exact h
  have none : Lined ([], []) := rfl
  have lined := data_of_search none lined_snoc well
  rwa [noted] at lined

end Lines

/-- The pass for repeated runs changes nothing. It has one finding for each sequence of the value
that ends with a run, a sequence before those in it, and that is the line for the longest run at the
end of the sequence. -/
theorem repeats_reports_longest_runs (v : Value) :
    let runs := v.rooted.sequences.filterMap longestRun?
    Pass.repeats.run (.ofValue v) = ⟨.ok ⟨runs.length, runs.map lineFor⟩, .ofValue v⟩ ∧
      (∀ vs, longestRun? vs = none ↔ ∀ back, back <:+ vs → ∀ x y, ¬IsRun x y back) ∧
      ∀ vs x y, longestRun? vs = some (x, y) ↔ ∃ back, back <:+ vs ∧ IsRun x y back ∧
        ∀ back', back' <:+ vs → ∀ x' y', IsRun x' y' back' → back'.length ≤ back.length := by
  intro runs
  refine ⟨?_, fun _ => longestRun?_eq_none_iff, fun _ _ _ => longestRun?_eq_some_iff⟩
  let f := Forest.ofValue v
  have hf : f.Closed := Forest.closed_ofValue v
  have ha : f.Acyclic := Forest.acyclic_ofValue v
  have hp : Program.compileAll repeatedRun = .ok (Program.ofItems repeatedRun) :=
    program_eq .repeats
  have unlimited : ({} : Search.Options).limit = none := rfl
  obtain ⟨names, hs⟩ := Forest.shows_ofValue v
  obtain ⟨w, data, hsearch, given, -, -, found⟩ := Search.reading_ends hp hf ha
    (Forest.contains_root_ofValue v) (fun c hc => nomatch hc) unlimited reporting_reads
    (reporting_accepts hf ha) (reading_le_level f) []
  have answered := answers_repeatedRun hf ha hs
  have lines : data.reverse = runs.map lineFor := by
    have lines := lines_of_search (congrArg Search.Result.outcome hsearch)
    rw [given, runLines_matchesFrom answered, hsearch] at lines
    exact (List.map_injective_iff.2 (fun _ _ => Except.ok.inj) lines).symm
  change Pass.run .repeats f = _
  simp only [run, program_eq, receiver, items, if_true, hsearch]
  rw [lines, ← answered.length_eq, ← found]
  rfl

/-- A sequence is repeated at the end of the whole, which also holds a sequence of equal numbers. -/
theorem repeats_reports_longest_runs_nested :
    let word (s : String) : Value := .scalar (.string s)
    let one : Value := .scalar (.int 1)
    let y : Value := .seq [word "bar", .scalar .null, .scalar (.bool true), .scalar (.int (-7)),
      .scalar (.float 0x3ff8000000000000)]
    let v : Value := .seq [.seq [one, one, one, one, one, one], word "mak", y, y, y, word "mak", y]
    Pass.repeats.run (.ofValue v) = ⟨.ok ⟨2, [
      "F1 = [\"mak\", [\"bar\", null, true, -7, 1.5]], F2 = [[\"bar\", null, true, -7, 1.5]]",
      "F1 = [1, 1], F2 = [1]"]⟩, .ofValue v⟩ := by
  intro word one y v
  obtain ⟨reported, -⟩ := repeats_reports_longest_runs v
  have runs : v.rooted.sequences.filterMap longestRun? = [(word "mak", y), (one, one)] := by
    decide +kernel
  have first : lineFor (word "mak", y) =
      "F1 = [\"mak\", [\"bar\", null, true, -7, 1.5]], F2 = [[\"bar\", null, true, -7, 1.5]]" := by
    decide +kernel
  have second : lineFor (one, one) = "F1 = [1, 1], F2 = [1]" := by decide +kernel
  rw [reported, runs, List.map_cons, List.map_cons, first, second]
  rfl

end NestedRegex.Pass
