import NestedRegex.Proofs.Match.Contents
import NestedRegex.Proofs.Pass.Runs
import NestedRegex.Proofs.Search.Watched

namespace NestedRegex.Pass

open Match Pattern

variable {f : Forest} {seq : SeqName} {start : Nat} {b : Captures} {v : Way}

/-- Both names of a repeated run are bound by its first item, and stay bound. -/
theorem bound_of_repeatedRun
    (h : .ok v ∈ waysOfItems f repeatedRun seq ⟨start, fun _ => none⟩) :
    (v.bound "F1").isSome ∧ (v.bound "F2").isSome := by
  have ready := (Program.compileAll_ok (program_eq .repeats)).2.2
  have solid : Way.Solid ⟨start, fun _ => none⟩ := by exact nofun
  obtain ⟨u, hu, hv⟩ := Choices.mem_andThen h
  have first := (ways_follow _ ready.1 solid hu).1
  have rest := (waysOfItems_follow _ ready.2 (first.solid solid) hv).1
  obtain ⟨long, inner, hinner, keeps⟩ := bound_of_named hu
  obtain ⟨_, -, hlast⟩ := Choices.mem_andThen hinner
  rw [waysOfItems_single] at hlast
  obtain ⟨short, -⟩ := bound_of_named hlast
  exact ⟨rest.isSome_bound long, rest.isSome_bound (keeps _ short)⟩

/-- A name is described by the values of the nodes that it has. -/
theorem captureLine_ok {m : Match} {name : String} {h : Handle} {nodes : List Node}
    (hf : m.forest.Closed) (ha : m.forest.Acyclic) (hget : m.get? name = some h)
    (hn : m.content h = .ok nodes) :
    captureLine m name = .ok (Value.seq (nodes.map m.forest.value)).text := by
  simp only [captureLine, hget, values_ok hf ha hn]
  rfl

/-- Every match of a repeated run can be described. -/
theorem runLine_ok (hf : f.Closed) (ha : f.Acyclic) (hc : f.contains seq = true)
    (hm : (Program.ofItems repeatedRun).match? f seq start = .ok (some b)) (id : Nat) :
    ∃ line, runLine (ofCaptures id (Program.ofItems repeatedRun) f b) = .ok line := by
  have hp : Program.compileAll repeatedRun = .ok (Program.ofItems repeatedRun) :=
    program_eq .repeats
  have none : Run (fun _ => False) _ (ofCaptures id (Program.ofItems repeatedRun) f b) := .refl
  obtain ⟨-, -, content⟩ := content_of_run hp hf ha hc hm none
  obtain ⟨v, hv, rfl⟩ := Program.way_of_match hp hf ha hc hm
  -- Either name is bound, so it has a handle, the handle has nodes, and the nodes have values.
  have described {name : String} (hname : name ≠ wholeName)
      (hin : name ∈ Pattern.names repeatedRun) (hbound : (v.bound name).isSome) :
      ∃ line, captureLine (ofCaptures id (Program.ofItems repeatedRun) f
        ⟨⟨seq, start, v.position - start⟩, (Pattern.names repeatedRun).map v.bound⟩) name =
          .ok line := by
    obtain ⟨s, hs⟩ := Option.isSome_iff_exists.1 hbound
    obtain ⟨h, hget, hspan⟩ := held_name_ofCaptures hname hin hs
    obtain ⟨nodes, hn⟩ := content h s hspan
    exact ⟨_, captureLine_ok hf ha hget (content_eq_ok_iff.2 ⟨s, hspan, hn⟩)⟩
  obtain ⟨hlong, hshort⟩ := bound_of_repeatedRun hv
  obtain ⟨long, hlong⟩ := described (by decide) (by decide) hlong
  obtain ⟨short, hshort⟩ := described (by decide) (by decide) hshort
  simp only [runLine, hlong, hshort]
  exact ⟨_, rfl⟩

theorem of_reporting_ok {m m' : Match} {next : Search.Next} {lines lines' : List String}
    (h : reporting (m, lines) = .ok next (m', lines')) :
    ∃ line, runLine m = .ok line ∧ next = .proceed ∧ m' = m ∧ lines' = line :: lines := by
  unfold reporting at h
  dsimp only at h
  split at h <;> cases h
  next line hline => exact ⟨line, hline, rfl, rfl, rfl⟩

theorem reporting_reads : Search.Reads reporting := by
  intro m lines next m' lines' h
  obtain ⟨line, -, hnext, hm, -⟩ := of_reporting_ok h
  exact ⟨hnext, hm⟩

theorem reporting_accepts (hf : f.Closed) (ha : f.Acyclic) :
    Search.Accepts (Program.ofItems repeatedRun) f reporting := by
  intro seq position b hc hm id lines e m' lines' h
  obtain ⟨line, hline⟩ := runLine_ok hf ha hc hm id
  simp only [reporting, hline] at h
  cases h

theorem reading_le_level (f : Forest) :
    3 * f.placeCount + 2 * f.size + 2 ≤ 2 ^ level f := by
  have more : f.size + f.placeCount + 1 ≤ 2 ^ (f.size + f.placeCount) := Nat.lt_two_pow_self
  calc 3 * f.placeCount + 2 * f.size + 2
    _ ≤ 2 ^ 2 * (f.size + f.placeCount + 1) := by omega
    _ ≤ 2 ^ 2 * 2 ^ (f.size + f.placeCount) := Nat.mul_le_mul_left _ more
    _ = 2 ^ (2 + (f.size + f.placeCount)) := (Nat.pow_add 2 2 _).symm
    _ ≤ 2 ^ level f := by
      rw [level, Nat.add_assoc]
      exact Nat.pow_le_pow_right (by decide) (Nat.add_le_add_right (by decide) _)

/-- The receiver of a pass gets through a match: it makes all its edits, or finds all that the line
for it says. -/
def Manages (pass : Pass) (m : Match) : Prop :=
  if pass = .repeats then ∃ line, runLine m = .ok line else ∃ m', edits m = .ok () m'

theorem manages_of_answers {pass : Pass} {m : Match} (h : Search.Answers pass.receiver m) :
    pass.Manages m := by
  obtain ⟨lines, next, m', lines', h⟩ := h
  unfold receiver at h
  unfold Manages
  split at h
  · next hpass =>
    rw [if_pos hpass]
    obtain ⟨line, hline, -⟩ := of_reporting_ok h
    exact ⟨line, hline⟩
  · next hpass =>
    rw [if_neg hpass]
    cases hedits : edits m with
    | ok _ after => exact ⟨after, rfl⟩
    | error e after => simp [editing, Edit.received, bind, EStateM.bind, hedits] at h

/-- A pass comes to a report just when its search ends well. -/
theorem run_ok_iff {pass : Pass} {f : Forest} {report : Report} :
    (pass.run f).outcome = .ok report ↔
      let result := (Program.ofItems pass.items).search {} (level f) pass.receiver f []
      ∃ counts, result.outcome = .ok counts ∧ ⟨counts.found, result.data.reverse⟩ = report := by
  simp only [run, program_eq pass]
  cases ((Program.ofItems pass.items).search {} (level f) pass.receiver f []).outcome <;>
    simp [Except.map, Except.mapError]

/-- Every pass over the forest of a value comes to its end with a report. Its pattern compiles, and
none of the matches that its search hands out and counts refuses an operation on a handle or a
lookup. -/
theorem run_reports (pass : Pass) (v : Value) :
    ∃ program report, pass.program = .ok program ∧
      (pass.run (.ofValue v)).outcome = .ok report ∧
      let given := program.given {} (level (.ofValue v)) pass.receiver (.ofValue v) []
      given.length = report.found ∧ ∀ m ∈ given, pass.Manages m := by
  have reports : ∃ report, (pass.run (.ofValue v)).outcome = .ok report := by
    by_cases hpass : pass = .repeats
    · subst hpass
      have hf := Forest.closed_ofValue v
      have ha := Forest.acyclic_ofValue v
      obtain ⟨counts, lines, hsearch⟩ := Search.search_ok_of_reads {} (program_eq .repeats) hf ha
        (Forest.contains_root_ofValue v) (fun c hc => nomatch hc) reporting_reads
        (reporting_accepts hf ha) (reading_le_level _) []
      exact ⟨_, run_ok_iff.2 ⟨counts, congrArg Search.Result.outcome hsearch, rfl⟩⟩
    · obtain ⟨g, hrun, -⟩ := run_ofValue hpass v
      exact ⟨_, congrArg Pass.Result.outcome hrun⟩
  obtain ⟨report, hreport⟩ := reports
  obtain ⟨counts, hsearch, rfl⟩ := run_ok_iff.1 hreport
  exact ⟨_, _, program_eq pass, hreport, Search.length_given hsearch, fun m hm =>
    manages_of_answers (Search.answers_of_given hsearch hm)⟩

end NestedRegex.Pass
