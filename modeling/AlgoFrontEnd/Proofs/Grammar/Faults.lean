import AlgoFrontEnd.Proofs.Faults
import AlgoFrontEnd.Proofs.Grammar.Remaining
import AlgoFrontEnd.Proofs.Grammar.Steps

/-! What can be wrong with tokens. Main statement: reading them ends in no fault but one of the
parser's, which has a place. -/
namespace AlgoFrontEnd.Grammar

namespace Yard

theorem fails_reduce (output : List Item) (top : Pending) :
    Fails (Fault.isPlaced .parse) (reduce output top) := by
  unfold reduce
  split
  · split
    · exact .ok _
    · exact .fault rfl
  · split
    · split
      · exact .ok _
      · exact .ok _
      · exact .fault rfl
    · exact .fault rfl
  · exact .ok _
  · exact .ok _

theorem fails_reduceWhile (yields : Nat → Bool) (output : List Item) (pending : List Pending) :
    Fails (Fault.isPlaced .parse) (reduceWhile yields output pending) := by
  induction pending generalizing output with
  | nil => exact .ok _
  | cons top pending ih =>
    rw [reduceWhile]
    split
    · split
      · exact .bind (fails_reduce output top) fun output _ => ih output
      · exact .ok _
    · exact .ok _

theorem fails_settle (y : Yard) : Fails (Fault.isPlaced .parse) y.settle := fails_reduceWhile _ _ _

theorem fails_take (y : Yard) (t : Token) : Fails (Fault.isPlaced .parse) (y.take t) := by
  unfold take
  split
  · exact .ok _
  · exact .ok _
  · exact .ok _
  · exact .ok _
  · exact .ok _
  · exact .bind (fails_reduceWhile _ _ _) fun y _ => .ok _
  · exact .bind (fails_reduceWhile _ _ _) fun y _ => .ok _
  · exact .ok _
  · refine .bind (fails_settle y) fun y _ => ?_
    split
    · exact .ok _
    · exact .ok _
    · exact .fault rfl
  · refine .bind (fails_settle y) fun y _ => ?_
    split
    · exact .ok _
    · exact .fault rfl
  · exact .fault rfl

theorem fails_finish (y : Yard) (start : Position) :
    Fails (Fault.isPlaced .parse) (y.finish start) := by
  refine .bind (fails_settle y) fun y _ => ?_
  split
  · exact .fault rfl
  · exact .ok _
  · exact .fault rfl

end Yard

theorem fails_typing? (ts : List Token) : Fails (Fault.isPlaced .parse) (typing? ts) := by
  unfold typing?
  split
  · exact .ok _
  · exact .ok _
  · exact .fault rfl
  · exact .ok _

theorem fails_elementParts (opener : Position) (inside : List Token) :
    Fails (Fault.isPlaced .parse) (elementParts opener inside) := by
  unfold elementParts
  split
  · exact .ok _
  · simp only
    split
    · exact .fault rfl
    · exact .ok _

mutual
theorem fails_run (b : Bool) (y : Yard) :
    (ts : List Token) → Fails (Fault.isPlaced .parse) (run b y ts)
  | [] => by
    rw [run_nil]
    exact .ok _
  | ⟨form, p⟩ :: rest => by
    by_cases hn : ∃ text, form = .name text
    · obtain ⟨text, rfl⟩ := hn
      rw [run_eq_of_name]
      split
      · refine .bind (fails_typing? rest) fun ta hta => ?_
        have := length_of_typing? hta
        exact fails_run _ _ ta.2
      · exact fails_run _ _ rest
    by_cases ho : form = .mark .openBracket
    · subst ho
      rw [run_eq_of_openBracket]
      cases hc : closing? 0 rest with
      | none => exact .fault rfl
      | some split =>
        obtain ⟨inside, after⟩ := split
        refine .bind (fails_elementParts p inside) fun parts hparts => ?_
        have := length_of_closing? hc
        have := weight_of_elementParts hparts
        refine .bind (fails_runParts p parts) fun elements _ => ?_
        exact fails_run _ _ after
    · have hn : ∀ text, form ≠ .name text := fun text h => hn ⟨text, h⟩
      rw [run_take b y (t := ⟨form, p⟩) hn ho]
      exact .bind (y.fails_take _) fun z _ => fails_run _ _ rest
termination_by ts => ts.length

theorem fails_runParts (opener : Position) : (parts : List (List Token)) →
    Fails (Fault.isPlaced .parse) (runParts opener parts)
  | [] => by
    rw [runParts]
    exact .ok _
  | part :: parts => by
    rw [runParts]
    refine .bind (fails_run false .empty part) fun y _ => ?_
    refine .bind (y.fails_finish _) fun e _ => ?_
    exact .bind (fails_runParts opener parts) fun es _ => .ok _
termination_by parts => weight parts
decreasing_by
  all_goals
    simp only [weight]
    omega
end

theorem fails_expression (stop : Position) (ts : List Token) :
    Fails (Fault.isPlaced .parse) (expression stop ts) := by
  unfold expression
  split
  · exact .fault rfl
  · exact .bind (fails_run _ _ _) fun y _ => y.fails_finish _

/-! ### Lines -/

theorem fails_expectMark (stop : Position) (m : Mark) (ts : List Token) :
    Fails (Fault.isPlaced .parse) (expectMark stop m ts) := by
  unfold expectMark
  split
  · split
    · exact .ok _
    · exact .fault rfl
  · exact .fault rfl

theorem fails_resultType? (stop : Position) (ts : List Token) :
    Fails (Fault.isPlaced .parse) (resultType? stop ts) := by
  unfold resultType?
  split
  · split
    · exact .ok _
    · exact .ok _
    · exact .fault rfl
  · exact .ok _

theorem fails_parameters (stop : Position) (ts : List Token) :
    Fails (Fault.isPlaced .parse) (parameters stop ts) := by
  fun_induction parameters stop ts with
  | case1 text p rest e he =>
    rintro f ⟨⟩
    exact fails_resultType? stop rest e he
  | case2 text p rest type comma rest' ht ih => exact .bind ih fun _ _ => .ok _
  | case3 => exact .ok _
  | case4 => exact .fault rfl

theorem fails_expectEnd (ts : List Token) : Fails (Fault.isPlaced .parse) (expectEnd ts) := by
  unfold expectEnd
  split
  · exact .ok _
  · exact .fault rfl

theorem fails_parametersOrNone (stop : Position) (ts : List Token) :
    Fails (Fault.isPlaced .parse) (parametersOrNone stop ts) := by
  unfold parametersOrNone
  split
  · exact .ok _
  · exact fails_parameters stop ts

theorem fails_header (stop : Position) (ts : List Token) :
    Fails (Fault.isPlaced .parse) (header stop ts) := by
  match ts with
  | [] => exact .fault rfl
  | ⟨form, p⟩ :: rest =>
    cases form with
    | name text =>
      rw [header_eq_of_name]
      refine .bind (fails_expectMark _ _ _) fun r₁ _ => ?_
      refine .bind (fails_parametersOrNone _ _) fun ps _ => ?_
      refine .bind (fails_expectMark _ _ _) fun r₂ _ => ?_
      refine .bind (fails_resultType? _ _) fun result _ => ?_
      exact .bind (fails_expectEnd _) fun _ _ => .ok _
    | _ => exact .fault rfl

theorem fails_line (stop : Position) (r : Reading) (ts : List Token) :
    Fails (Fault.isPlaced .parse) (r.line stop ts) := by
  induction ts generalizing r with
  | nil => exact .ok _
  | cons t rest ih =>
    obtain ⟨form, p⟩ := t
    cases form with
    | keyword k =>
      cases k with
      | ifWord | whileWord => exact .bind (fails_expression _ _) fun _ _ => .ok _
      | functionWord => exact .bind (fails_header _ _) fun _ _ => .ok _
      | declareWord =>
        simp only [Reading.line]
        split
        · exact .bind (fails_header _ _) fun _ _ => .ok _
        · exact .fault rfl
      | returnWord =>
        simp only [Reading.line]
        split
        · exact .ok _
        · exact .bind (fails_expression _ _) fun _ _ => .ok _
      | elseWord =>
        simp only [Reading.line]
        split
        · exact ih _
        · exact .fault rfl
      | endWord =>
        simp only [Reading.line]
        split
        · exact .bind (fails_expectEnd _) fun _ _ => .ok _
        · exact .fault rfl
      | unknown word => exact .fault rfl
    | _ => exact .bind (fails_expression _ _) fun _ _ => .ok _

theorem fails_lines (r : Reading) (ls : List TokenLine) :
    Fails (Fault.isPlaced .parse) (r.lines ls) := by
  induction ls generalizing r with
  | nil => exact .ok _
  | cons l ls ih => exact .bind (fails_line l.stop r l.tokens) fun r _ => ih r

theorem placed_program (ts : List Token) : Fails (Fault.isPlaced .parse) (program ts) := by
  refine .bind (fails_lines _ _) fun r _ => ?_
  split
  · exact .ok _
  · exact .fault rfl

/-- A program that is refused has a fault of the parser. -/
theorem fails_program (ts : List Token) : Fails (Fault.isA .parse) (program ts) :=
  (placed_program ts).mono fun _ => Fault.isA_of_isPlaced

end AlgoFrontEnd.Grammar
