/-
Lineage.Proofs.Config.Policies — what policy variables do to the policies.

The variables are entered one after the other, in the order of their names,
and the policies change with every one of them.  So whether a variable is
refused depends on the ones before it: the first that meets a limit of the
reader, or finds a value that is no object on the way to its end, decides
(`enterDecoded_eq_error_iff`).  If none is refused, each of them has its value
at its path unless a later one came near it, and what none of them came
near is as it was.
-/
import Lineage.Proofs.Config.Variables
import Lineage.Usual

namespace Lineage.Variables

open Value (names)

theorem sorted_perm (vars : Variables) : vars.sorted.Perm vars :=
  List.mergeSort_perm _ _

theorem sorted_pairwise (vars : Variables) :
    vars.sorted.Pairwise fun a b => a.1.atMost b.1 = true := by
  refine List.pairwise_mergeSort (fun _ _ _ hab hbc => ?_) (fun _ _ => ?_) _
  · exact Text.atMost_trans hab hbc
  · exact Text.atMost_total _ _

section Entering

variable [Stack] {vars : Variables} {fields fields' : Fields}

/-- Variables that stay apart from a path leave alone what stands there. -/
theorem at?_of_enterDecoded {entries : List (List Text × Text)} (hne : ∀ e ∈ entries, e.1 ≠ [])
    (h : enterDecoded fields entries = .ok fields') {path : List Scalar}
    (hentries : ∀ e ∈ entries, Apart (names e.1) path) :
    (Value.object fields').at? path = (Value.object fields).at? path := by
  obtain ⟨decoded, hdecoded, hentered⟩ := entered_of_enterDecoded hne h
  refine hentered.at?_of_apart fun d hd => ?_
  obtain ⟨raw, hraw⟩ := hdecoded.mem hd
  exact hentries _ hraw

/-- The value of a variable stands at its path, if the later ones stay
apart from it. -/
theorem at?_of_enterDecoded_self {before after : List (List Text × Text)} {e : List Text × Text}
    (hne : ∀ d ∈ before ++ e :: after, d.1 ≠ [])
    (h : enterDecoded fields (before ++ e :: after) = .ok fields')
    (hafter : ∀ d ∈ after, Apart (names d.1) (names e.1)) :
    ∃ v, StandsFor e.2 v ∧ (Value.object fields').at? (names e.1) = some v := by
  rw [enterDecoded_append] at h
  obtain ⟨reached, -, h⟩ := bind_eq_ok_iff.mp h
  rw [enterDecoded_cons] at h
  obtain ⟨made, hmade, h⟩ := bind_eq_ok_iff.mp h
  obtain ⟨v, hv, hset⟩ := bind_eq_ok_iff.mp hmade
  have hset := mapError_eq_ok_iff.mp hset
  have hobject := ((setPath_eq_ok_iff (hne e (by simp))).mp hset).2
  refine ⟨v, (decode_eq_ok_iff.mp (mapError_eq_ok_iff.mp hv)).1, ?_⟩
  rw [at?_of_enterDecoded (fun d hd => hne d (by simp [hd])) h hafter, hobject]
  exact Value.at?_enter_self _ v e.1

/-- The policy variables count in the order of the code points of their
names.  They are entered up to the first one that is refused, for a value
that is no object before the end of its path or for a limit of the reader,
which its text then shows; where none is refused, what a variable stands
for is at its path unless a later one came near it, and what is apart from
all of them is as it was. -/
theorem policyVariables_enters (vars : Variables) (fields : Fields) :
    (vars.sorted.Perm vars ∧ vars.sorted.Pairwise fun a b => a.1.atMost b.1 = true)
      ∧ (∀ failure, vars.policyVariables fields = .error failure
        ↔ ∃ before e after made, vars.pathsOf policyStart = before ++ e :: after
          ∧ enterDecoded fields before = .ok made ∧ Refusal made e failure)
      ∧ (∀ e ∈ vars.pathsOf policyStart, ∀ fault, Json.Limit (Stack.room .readPolicy) e.2 fault →
        fault.cause.kind = .size ∧ Json.LongDigits e.2
          ∨ fault.cause.kind = .depth ∧ Stack.room .readPolicy < Json.openings e.2)
      ∧ ∀ result, vars.policyVariables fields = .ok result →
        (∀ before e after, vars.pathsOf policyStart = before ++ e :: after →
          (∀ d ∈ after, Apart (names d.1) (names e.1)) →
          ∃ v, StandsFor e.2 v ∧ (Value.object result).at? (names e.1) = some v)
        ∧ ∀ path, (∀ e ∈ vars.pathsOf policyStart, Apart (names e.1) path) →
          (Value.object result).at? path = (Value.object fields).at? path := by
  have hne : ∀ e ∈ vars.pathsOf policyStart, e.1 ≠ [] := fun _ he => ne_nil_of_mem_pathsOf he
  refine ⟨⟨sorted_perm vars, sorted_pairwise vars⟩, fun failure => enterDecoded_eq_error_iff,
    fun _ _ _ hlimit => hlimit.explained, fun result hresult => ⟨?_, ?_⟩⟩
  · intro before e after hpaths hafter
    rw [policyVariables, hpaths] at hresult
    exact at?_of_enterDecoded_self (hpaths ▸ hne) hresult hafter
  · exact fun path hpath => at?_of_enterDecoded hne hresult hpath

end Entering

/-- Two variables, of which the first puts a number where the second needs
a mapping. -/
def blocking : Variables :=
  [("GROUPHIERARCHY_POLICY__A", "1"), ("GROUPHIERARCHY_POLICY__a__B", "2")]

/-- The value of one variable is in the way of the next one. -/
theorem policyVariables_enters_blocking :
    blocking.pathsOf policyStart = ([(["a"], "1"), (["a", "b"], "2")] : List (List Text × Text))
      ∧ blocking.policyVariables [] = .error (.crossing ⟨["a", "b"], 1⟩) := by
  have hsorted : blocking.sorted = blocking := List.mergeSort_of_pairwise (by decide)
  have hpaths : blocking.pathsOf policyStart
      = ([(["a"], "1"), (["a", "b"], "2")] : List (List Text × Text)) := by
    rw [pathsOf, hsorted]
    decide +kernel
  have hmade : enterDecoded [] [(["a"], "1")] = .ok [(.text "a", .int 1)] := by
    rfl
  have hread : Json.readWithin Json.maxNesting "2" = .ok (.int 2) := by
    rfl
  obtain ⟨-, hrefused, -, -⟩ := policyVariables_enters blocking []
  refine ⟨hpaths, (hrefused _).mpr ⟨_, _, [], _, hpaths, hmade, ?_⟩⟩
  exact .crossing (Json.readWithin_eq_ok_iff.mp hread).2 ⟨by decide, by decide, .int 1, rfl, rfl⟩

/-- A variable whose text is no document, but opens more arrays than there
is room for, ends the program although nothing is in its way. -/
theorem policyVariables_refuses_unclosed :
    ∃ fault, policyVariables [("GROUPHIERARCHY_POLICY__X", Json.unclosed 20000)] []
        = .error (.json fault)
      ∧ (Failure.json fault).concernsValue = false
      ∧ pathsOf policyStart [("GROUPHIERARCHY_POLICY__X", Json.unclosed 20000)]
        = ([(["x"], Json.unclosed 20000)] : List (List Text × Text))
      ∧ ¬ Json.LongDigits (Json.unclosed 20000)
      ∧ StandsFor (Json.unclosed 20000) (.text (Json.unclosed 20000))
      ∧ ∀ k, ¬ (Value.object []).Blocked ["x"] k := by
  have hdeep : Json.maxNesting < 20000 := by decide
  obtain ⟨fault, hread, hcause⟩ := Json.readWithin_unclosed hdeep
  have hpath : path? policyStart "GROUPHIERARCHY_POLICY__X" = some (["x"] : List Text) := by
    decide +kernel
  generalize hraw : Json.unclosed 20000 = raw at *
  have hpaths : pathsOf policyStart [("GROUPHIERARCHY_POLICY__X", raw)]
      = ([(["x"], raw)] : List (List Text × Text)) := by
    simp [pathsOf, sorted, hpath]
  have hdecode : decode .readPolicy raw = .error fault := by
    refine decode_eq_error_iff.mpr ⟨hread, ?_⟩
    rw [hcause]
    decide
  refine ⟨fault, ?_, ?_, hpaths, ?_, .inr ⟨fun v hv => ?_, rfl⟩, fun k => Value.not_blocked_empty⟩
  · rw [policyVariables, hpaths, enterDecoded, hdecode]
  · simp [Failure.concernsValue, hcause, Json.Cause.kind]
  · exact hraw ▸ Json.not_longDigits_unclosed 20000
  · exact Json.not_document_unclosed (by decide) v (hraw ▸ hv)

end Lineage.Variables
