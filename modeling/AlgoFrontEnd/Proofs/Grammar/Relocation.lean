import AlgoFrontEnd.Grammar.Header
import AlgoFrontEnd.Proofs.Grammar.Steps
import AlgoFrontEnd.Proofs.Relocation
import AlgoFrontEnd.Proofs.Token.Lines

/-! Expressions and headers read from tokens at other positions. Main statements: tokens are
accepted or refused wherever they stand, and what they make up, or the fault that they end in,
differs in its positions only. -/
namespace AlgoFrontEnd.Grammar
open Token (Form)

def Pending.map (f : Position → Position) : Pending → Pending
  | connective c p => connective c (f p)
  | sign s p => sign s (f p)
  | paren p => paren (f p)
  | call function p => call function (f p)

def Item.map (f : Position → Position) : Item → Item
  | value e => value (e.map f)
  | callMark => callMark

def Yard.map (f : Position → Position) (y : Yard) : Yard :=
  ⟨y.output.map (Item.map f), y.pending.map (Pending.map f)⟩

section
variable (f : Position → Position)

@[simp] theorem move_form (t : Token) : (t.move f).form = t.form := rfl

@[simp] theorem precedence?_map (top : Pending) : (top.map f).precedence? = top.precedence? := by
  cases top <;> rfl

/-! ### Stacks -/

theorem Yard.reduce_map (output : List Item) (top : Pending) :
    Yard.reduce (output.map (Item.map f)) (top.map f) =
      carry (Fault.move f) (List.map (Item.map f)) (Yard.reduce output top) := by
  cases top with
  | sign s p =>
    match output with
    | [] | .callMark :: _ | .value _ :: _ => rfl
  | connective c p =>
    match output with
    | [] | .callMark :: _ | [.value _] | .value _ :: .callMark :: _ => rfl
    | .value right :: .value left :: rest =>
      cases c with
      | operate op => rfl
      | assign =>
        cases left with
        | place target => cases target <;> rfl
        | _ => rfl
  | paren p => rfl
  | call function p => rfl

theorem Yard.reduceWhile_map (yields : Nat → Bool) (output : List Item) (pending : List Pending) :
    Yard.reduceWhile yields (output.map (Item.map f)) (pending.map (Pending.map f)) =
      carry (Fault.move f) (Yard.map f) (Yard.reduceWhile yields output pending) := by
  induction pending generalizing output with
  | nil => rfl
  | cons top pending ih =>
    rw [List.map_cons, Yard.reduceWhile, Yard.reduceWhile, precedence?_map]
    split
    · split
      · exact bind_carry (Yard.reduce_map f output top) fun output _ => ih output
      · rfl
    · rfl

theorem Yard.settle_map (y : Yard) :
    (y.map f).settle = carry (Fault.move f) (Yard.map f) y.settle :=
  Yard.reduceWhile_map f _ _ _

theorem Yard.pushOperator_map (y : Yard) (operator : Pending) :
    (y.map f).pushOperator (operator.map f) =
      carry (Fault.move f) (Yard.map f) (y.pushOperator operator) := by
  cases operator <;> exact bind_carry (Yard.reduceWhile_map f _ _ _) fun y _ => rfl

theorem Yard.arguments_map (output : List Item) :
    Yard.arguments (output.map (Item.map f)) =
      ((Yard.arguments output).1.map (Expr.map f), (Yard.arguments output).2.map (Item.map f)) := by
  induction output with
  | nil => rfl
  | cons i output ih =>
    cases i with
    | value e => simp [Item.map, Yard.arguments, ih]
    | callMark => rfl

theorem Yard.close_map (y : Yard) (t : Token) :
    (y.map f).close (t.move f) = carry (Fault.move f) (Yard.map f) (y.close t) := by
  refine bind_carry (Yard.settle_map f y) fun ⟨output, pending⟩ _ => ?_
  match pending with
  | .paren _ :: .call function p :: pending =>
    simp [Yard.map, Pending.map, Yard.arguments_map, Item.map, Expr.map, Expr.mapAll_eq_map, carry,
      pure, Except.pure]
  | .paren _ :: [] | .paren _ :: .paren _ :: _ | .paren _ :: .sign _ _ :: _
  | .paren _ :: .connective _ _ :: _ => rfl
  | [] | .call _ _ :: _ | .sign _ _ :: _ | .connective _ _ :: _ => rfl

theorem Yard.separate_map (y : Yard) (t : Token) :
    (y.map f).separate (t.move f) = carry (Fault.move f) (Yard.map f) (y.separate t) := by
  refine bind_carry (Yard.settle_map f y) fun ⟨output, pending⟩ _ => ?_
  match pending with
  | [] | .paren _ :: _ | .call _ _ :: _ | .sign _ _ :: _ | .connective _ _ :: _ => rfl

theorem Yard.take_map (y : Yard) (t : Token) :
    (y.map f).take (t.move f) = carry (Fault.move f) (Yard.map f) (y.take t) := by
  obtain ⟨form, p⟩ := t
  cases form with
  | connective c => exact Yard.pushOperator_map f y (.connective c p)
  | sign s => exact Yard.pushOperator_map f y (.sign s p)
  | mark m =>
    cases m with
    | closeParen => exact Yard.close_map f y _
    | comma => exact Yard.separate_map f y _
    | openParen | openBracket | closeBracket | colon => rfl
  | _ => rfl

theorem Yard.takeBrackets_map (y : Yard) (opener : Position) (behindName : Bool)
    (elements : List (Expr Position)) :
    (y.takeBrackets opener behindName elements).map f =
      (y.map f).takeBrackets (f opener) behindName (elements.map (Expr.map f)) := by
  obtain ⟨output, pending⟩ := y
  rw [← Expr.mapAll_eq_map]
  match behindName, elements with
  | false, _ | true, [] => rfl
  | true, e :: _ :: _ => cases e <;> rfl
  | true, [e] =>
    cases e with
    | int n offset =>
      match output with
      | [] | .callMark :: _ => rfl
      | .value v :: output =>
        cases v with
        | place p =>
          cases p with
          | whole n name type => cases type <;> rfl
          | element n array offset => rfl
        | _ => rfl
    | _ => rfl

theorem Yard.finish_map (y : Yard) (start : Position) :
    (y.map f).finish (f start) = carry (Fault.move f) (Expr.map f) (y.finish start) := by
  refine bind_carry (Yard.settle_map f y) fun ⟨output, pending⟩ _ => ?_
  match pending, output with
  | top :: _, _ => cases top <;> rfl
  | [], [] | [], [.value _] | [], [.callMark] | [], .value _ :: _ :: _ | [], .callMark :: _ :: _ =>
    rfl

/-! ### Tokens that belong together -/

theorem closing?_map (depth : Nat) (ts : List Token) :
    closing? depth (ts.map (Token.move f)) = (closing? depth ts).map fun p =>
      (p.1.map (Token.move f), p.2.map (Token.move f)) := by
  induction ts generalizing depth with
  | nil => rfl
  | cons t ts ih =>
    rw [List.map_cons]
    unfold closing?
    rw [move_form]
    split
    · rfl
    all_goals
      rw [ih, Option.map_map, Option.map_map]
      rfl

theorem splitParts_map (depth : Int) (ts : List Token) :
    splitParts depth (ts.map (Token.move f)) =
      (splitParts depth ts).map (List.map (Token.move f)) := by
  induction ts generalizing depth with
  | nil => rfl
  | cons t ts ih =>
    rw [List.map_cons, splitParts, splitParts, move_form, ih, ih]
    split
    · rfl
    · cases splitParts (depth + depthChange t.form) ts <;> rfl

theorem elementParts_map (opener : Position) (inside : List Token) :
    elementParts (f opener) (inside.map (Token.move f)) =
      carry (Fault.move f) (List.map (List.map (Token.move f))) (elementParts opener inside) := by
  unfold elementParts
  have hany (parts : List (List Token)) :
      (parts.map (List.map (Token.move f))).any (·.isEmpty) = parts.any (·.isEmpty) := by
    simp [Function.comp_def]
  simp only [List.isEmpty_map, splitParts_map, hany]
  split
  · rfl
  · split <;> rfl

theorem typing?_map (ts : List Token) :
    typing? (ts.map (Token.move f)) =
      carry (Fault.move f) (Prod.map id (List.map (Token.move f))) (typing? ts) := by
  rcases ts with _ | ⟨⟨form, p⟩, ts⟩
  · rfl
  · cases form with
    | mark m =>
      cases m with
      | colon =>
        rcases ts with _ | ⟨⟨form, q⟩, ts⟩
        · rfl
        · cases form <;> rfl
      | _ => rfl
    | _ => rfl

theorem startOf_map (tokens : List Token) (otherwise : Position) :
    startOf (tokens.map (Token.move f)) (f otherwise) = f (startOf tokens otherwise) := by
  cases tokens <;> rfl

/-! ### Expressions -/

mutual
theorem run_map (b : Bool) (y : Yard) : (ts : List Token) →
    run b (y.map f) (ts.map (Token.move f)) = carry (Fault.move f) (Yard.map f) (run b y ts)
  | [] => by
    rw [run_nil]
    exact run_nil b _
  | ⟨form, p⟩ :: rest => by
    by_cases hn : ∃ text, form = .name text
    · obtain ⟨text, rfl⟩ := hn
      rw [List.map_cons, Token.move, run_eq_of_name, run_eq_of_name]
      have hp : (y.map f).pending.isEmpty = y.pending.isEmpty := List.isEmpty_map
      rw [hp]
      split
      · refine bind_carry (typing?_map f rest) fun (a, after) ht => ?_
        have hlen := length_of_typing? ht
        exact run_map a.isNone (y.push (.place (.whole p text a))) after
      · exact run_map true (y.push (.place (.whole p text none))) rest
    by_cases ho : form = .mark .openBracket
    · subst ho
      rw [List.map_cons, Token.move, run_eq_of_openBracket, run_eq_of_openBracket, closing?_map]
      cases hc : closing? 0 rest with
      | none => rfl
      | some closed =>
        obtain ⟨inside, after⟩ := closed
        have hlen := length_of_closing? hc
        refine bind_carry (elementParts_map f p inside) fun parts hp => ?_
        have hweight := weight_of_elementParts hp
        refine bind_carry (runParts_map p parts) fun elements _ => ?_
        rw [← Yard.takeBrackets_map]
        exact run_map false _ after
    · have hn : ∀ text, form ≠ .name text := fun text h => hn ⟨text, h⟩
      rw [List.map_cons, run_take b y (t := ⟨form, p⟩) hn ho,
        run_take b _ (t := Token.move f ⟨form, p⟩) hn ho]
      exact bind_carry (Yard.take_map f y _) fun y _ => run_map false y rest
termination_by ts => ts.length

theorem runParts_map (opener : Position) : (parts : List (List Token)) →
    runParts (f opener) (parts.map (List.map (Token.move f))) =
      carry (Fault.move f) (List.map (Expr.map f)) (runParts opener parts)
  | [] => by
    rw [List.map_nil, runParts, runParts]
    rfl
  | part :: parts => by
    rw [List.map_cons, runParts, runParts]
    refine bind_carry (run_map false .empty part) fun y _ => ?_
    rw [startOf_map]
    refine bind_carry (Yard.finish_map f y _) fun e _ => ?_
    exact bind_carry (runParts_map opener parts) fun es _ => rfl
termination_by parts => weight parts
decreasing_by
  · simp only [weight]; omega
  · simp only [weight]; omega
end

theorem expression_map (stop : Position) (ts : List Token) :
    expression (f stop) (ts.map (Token.move f)) =
      carry (Fault.move f) (Expr.map f) (expression stop ts) := by
  cases ts with
  | nil => rfl
  | cons t ts =>
    exact bind_carry (run_map f false .empty (t :: ts)) fun y _ => Yard.finish_map f y _

/-! ### Headers -/

theorem expectMark_map (stop : Position) (m : Mark) (ts : List Token) :
    expectMark (f stop) m (ts.map (Token.move f)) =
      carry (Fault.move f) (List.map (Token.move f)) (expectMark stop m ts) := by
  cases ts with
  | nil => rfl
  | cons t ts =>
    rw [List.map_cons, expectMark, expectMark, move_form]
    split <;> rfl

theorem resultType?_map (stop : Position) (ts : List Token) :
    resultType? (f stop) (ts.map (Token.move f)) =
      carry (Fault.move f) (Prod.map id (List.map (Token.move f))) (resultType? stop ts) := by
  rcases ts with _ | ⟨⟨form, p⟩, ts⟩
  · rfl
  · cases form with
    | mark m =>
      cases m with
      | colon =>
        rcases ts with _ | ⟨⟨form, q⟩, ts⟩
        · rfl
        · cases form <;> rfl
      | _ => rfl
    | _ => rfl

theorem parameters_comma {stop p comma : Position} {text : String} {type : Option TypeRef}
    {rest rest' : List Token}
    (ht : resultType? stop rest = .ok (type, ⟨.mark .comma, comma⟩ :: rest')) :
    parameters stop (⟨.name text, p⟩ :: rest) =
      parameters stop rest' >>= fun (more, after) => .ok (⟨p, text, type⟩ :: more, after) := by
  rw [parameters]
  split
  · simp_all
  · simp_all
    rfl
  · rename_i hne heq
    rw [ht] at heq
    cases heq
    exact absurd rfl (hne comma rest')

theorem parameters_last {stop p : Position} {text : String} {type : Option TypeRef}
    {rest after : List Token} (ht : resultType? stop rest = .ok (type, after))
    (hc : ∀ t ∈ after.head?, t.form ≠ .mark .comma) :
    parameters stop (⟨.name text, p⟩ :: rest) = .ok ([⟨p, text, type⟩], after) := by
  rw [parameters]
  split
  · simp_all
  · rename_i heq
    rw [ht] at heq
    cases heq
    exact absurd rfl (hc _ rfl)
  · simp_all

theorem parameters_map (stop : Position) (ts : List Token) :
    parameters (f stop) (ts.map (Token.move f)) =
      carry (Fault.move f) (Prod.map (List.map (Parameter.map f)) (List.map (Token.move f)))
        (parameters stop ts) := by
  fun_induction parameters stop ts with
  | case1 text p rest e he =>
    have ht := resultType?_map f stop rest
    rw [he] at ht
    rw [List.map_cons, Token.move, parameters]
    split <;> simp_all [carry]
  | case2 text p rest type comma rest' ht ih =>
    have ht' := resultType?_map f stop rest
    rw [ht] at ht'
    rw [List.map_cons, Token.move, parameters_comma ht']
    exact bind_carry ih fun _ _ => rfl
  | case3 text p rest type after' hcomma ht =>
    have ht' := resultType?_map f stop rest
    rw [ht] at ht'
    refine parameters_last ht' ?_
    intro t ht hform
    obtain ⟨u, hu, rfl⟩ := Option.map_eq_some_iff.mp (List.head?_map ▸ ht)
    obtain ⟨form, q⟩ := u
    obtain rfl : form = .mark .comma := hform
    obtain ⟨more, rfl⟩ := List.head?_eq_some_iff.mp hu
    exact hcomma q more rfl
  | case4 ts hname =>
    rcases ts with _ | ⟨⟨form, p⟩, ts⟩
    · rw [List.map_nil, parameters.eq_def]
      rfl
    · cases form with
      | name text => exact absurd rfl (hname text p ts)
      | _ =>
        rw [List.map_cons, parameters.eq_def]
        rfl

theorem expectEnd_map (ts : List Token) :
    expectEnd (ts.map (Token.move f)) = carry (Fault.move f) id (expectEnd ts) := by
  cases ts <;> rfl

/-- What stands between the parentheses of a header. -/
def parametersOrNone (stop : Position) :
    List Token → Except Fault (List (Parameter Position) × List Token)
  | ⟨.mark .closeParen, p⟩ :: ts => .ok ([], ⟨.mark .closeParen, p⟩ :: ts)
  | ts => parameters stop ts

theorem header_eq_of_name (stop : Position) (text : String) (p : Position) (ts : List Token) :
    header stop (⟨.name text, p⟩ :: ts) =
      expectMark stop .openParen ts >>= fun r₁ => parametersOrNone stop r₁ >>= fun ps =>
        expectMark stop .closeParen ps.2 >>= fun r₂ => resultType? stop r₂ >>= fun result =>
          expectEnd result.2 >>= fun _ => .ok ⟨text, ps.1, result.1⟩ := by
  rw [header]
  refine congrArg _ (funext fun r₁ => ?_)
  rcases r₁ with _ | ⟨⟨form, q⟩, r₁⟩
  · rfl
  · cases form with
    | mark m => cases m <;> rfl
    | _ => rfl

theorem parametersOrNone_map (stop : Position) (ts : List Token) :
    parametersOrNone (f stop) (ts.map (Token.move f)) =
      carry (Fault.move f) (Prod.map (List.map (Parameter.map f)) (List.map (Token.move f)))
        (parametersOrNone stop ts) := by
  have hp := parameters_map f stop ts
  rcases ts with _ | ⟨⟨form, p⟩, ts⟩
  · exact hp
  · cases form with
    | mark m => cases m <;> first | rfl | exact hp
    | _ => exact hp

theorem header_map (stop : Position) (ts : List Token) :
    header (f stop) (ts.map (Token.move f)) =
      carry (Fault.move f) (Header.map f) (header stop ts) := by
  rcases ts with _ | ⟨⟨form, p⟩, ts⟩
  · rfl
  · cases form with
    | name text =>
      rw [List.map_cons, Token.move, header_eq_of_name, header_eq_of_name]
      refine bind_carry (expectMark_map f stop _ ts) fun r₁ _ => ?_
      refine bind_carry (parametersOrNone_map f stop r₁) fun ps _ => ?_
      refine bind_carry (expectMark_map f stop _ ps.2) fun r₂ _ => ?_
      refine bind_carry (resultType?_map f stop r₂) fun result _ => ?_
      exact bind_carry (expectEnd_map f result.2) fun _ _ => rfl
    | _ => rfl

end

end AlgoFrontEnd.Grammar
