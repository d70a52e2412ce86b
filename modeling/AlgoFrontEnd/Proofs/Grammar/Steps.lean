import AlgoFrontEnd.Grammar.Expression
import AlgoFrontEnd.Proofs.Success

/-! The steps of reading a line, one equation for each kind of token, and of the stacks. -/
namespace AlgoFrontEnd.Grammar
open Token (Form)

theorem run_nil (b : Bool) (y : Yard) : run b y [] = .ok y := by
  rw [run]

/-- A name takes the type declared behind it only where nothing is open. -/
theorem run_eq_of_name (b : Bool) (y : Yard) (text : String) (p : Position) (rest : List Token) :
    run b y (⟨.name text, p⟩ :: rest) =
      if y.pending.isEmpty then
        typing? rest >>= fun ta => run ta.1.isNone (y.push (.place (.whole p text ta.1))) ta.2
      else run true (y.push (.place (.whole p text none))) rest := by
  rw [run]
  split
  · split <;> simp_all [bind, Except.bind]
  · rfl

/-- A name inside an open operator or parenthesis stands alone. -/
theorem run_name_pending (b : Bool) {y : Yard} (h : y.pending ≠ []) (text : String)
    (position : Position) (rest : List Token) :
    run b y (⟨.name text, position⟩ :: rest) =
      run true (y.push (.place (.whole position text none))) rest := by
  rw [run_eq_of_name]
  simp [h]

/-- Where nothing is open, a name takes the type declared behind it. -/
theorem run_name_free (b : Bool) {y : Yard} (h : y.pending = []) {rest after : List Token}
    {a : Option TypeRef} (ht : typing? rest = .ok (a, after)) (text : String)
    (position : Position) :
    run b y (⟨.name text, position⟩ :: rest) =
      run a.isNone (y.push (.place (.whole position text a))) after := by
  rw [run_eq_of_name, h, ht]
  rfl

/-- Brackets are split at the one that closes the first, then at their commas. -/
theorem run_eq_of_openBracket (b : Bool) (y : Yard) (opener : Position) (rest : List Token) :
    run b y (⟨.mark .openBracket, opener⟩ :: rest) =
      match closing? 0 rest with
      | none => fault (.missingToken "']' before end of line") opener
      | some (inside, after) =>
        elementParts opener inside >>= fun parts => runParts opener parts >>= fun elements =>
          run false (y.takeBrackets opener b elements) after := by
  rw [run]
  split
  · simp_all
  · split <;> simp_all [bind, Except.bind]

/-- A pair of brackets is read as a whole. -/
theorem run_brackets (b : Bool) (y : Yard) (opener : Position) {rest inside after : List Token}
    {parts : List (List Token)} (hc : closing? 0 rest = some (inside, after))
    (hp : elementParts opener inside = .ok parts) :
    run b y (⟨.mark .openBracket, opener⟩ :: rest) =
      runParts opener parts >>= fun elements =>
        run false (y.takeBrackets opener b elements) after := by
  rw [run_eq_of_openBracket, hc]
  simp only [hp]
  rfl

/-- Every other token is complete by itself. -/
theorem run_take (b : Bool) (y : Yard) {t : Token} (hn : ∀ text, t.form ≠ .name text)
    (ho : t.form ≠ .mark .openBracket) (rest : List Token) :
    run b y (t :: rest) = y.take t >>= fun y => run false y rest := by
  rcases t with ⟨form, position⟩
  cases form with
  | name text => exact absurd rfl (hn text)
  | mark m => cases m <;> first | exact absurd rfl ho | rw [run] <;> simp
  | _ => rw [run] <;> simp

theorem run_of_take (b : Bool) {y y' : Yard} {t : Token} (hn : ∀ text, t.form ≠ .name text)
    (ho : t.form ≠ .mark .openBracket) (h : y.take t = .ok y') (rest : List Token) :
    run b y (t :: rest) = run false y' rest := by
  rw [run_take b y hn ho, h]
  rfl

theorem run_connective (b : Bool) {y y' : Yard} {c : Connective} {position : Position}
    (h : y.pushOperator (.connective c position) = .ok y') (rest : List Token) :
    run b y (⟨.connective c, position⟩ :: rest) = run false y' rest :=
  run_of_take b (t := ⟨.connective c, position⟩) (by simp) (by simp) h rest

theorem run_sign (b : Bool) {y y' : Yard} {s : Sign} {position : Position}
    (h : y.pushOperator (.sign s position) = .ok y') (rest : List Token) :
    run b y (⟨.sign s, position⟩ :: rest) = run false y' rest :=
  run_of_take b (t := ⟨.sign s, position⟩) (by simp) (by simp) h rest

theorem run_call (b : Bool) (y : Yard) (text : String) (position : Position) (rest : List Token) :
    run b y (⟨.call text, position⟩ :: rest) =
      run false ⟨.callMark :: y.output, .call text position :: y.pending⟩ rest :=
  run_of_take b (by simp) (by simp) rfl rest

theorem run_openParen (b : Bool) (y : Yard) (position : Position) (rest : List Token) :
    run b y (⟨.mark .openParen, position⟩ :: rest) =
      run false ⟨y.output, .paren position :: y.pending⟩ rest :=
  run_of_take b (by simp) (by simp) rfl rest

theorem run_closeParen (b : Bool) {y y' : Yard} {position : Position}
    (h : y.close ⟨.mark .closeParen, position⟩ = .ok y') (rest : List Token) :
    run b y (⟨.mark .closeParen, position⟩ :: rest) = run false y' rest :=
  run_of_take b (t := ⟨.mark .closeParen, position⟩) (by simp) (by simp) h rest

theorem run_comma (b : Bool) {y y' : Yard} {position : Position}
    (h : y.separate ⟨.mark .comma, position⟩ = .ok y') (rest : List Token) :
    run b y (⟨.mark .comma, position⟩ :: rest) = run false y' rest :=
  run_of_take b (t := ⟨.mark .comma, position⟩) (by simp) (by simp) h rest

/-! ### Tokens that belong together -/

theorem closing?_append {depth : Nat} {ts inside after : List Token}
    (h : closing? depth ts = some (inside, after)) (rest : List Token) :
    closing? depth (ts ++ rest) = some (inside, after ++ rest) := by
  induction ts generalizing depth inside after with
  | nil => cases h
  | cons t ts ih =>
    rw [List.cons_append]
    unfold closing? at h ⊢
    split at h
    · cases h
      simp_all
    all_goals
      obtain ⟨⟨i, a⟩, hp, he⟩ := Option.map_eq_some_iff.1 h
      cases he
      simp_all
      exact ih hp

theorem form_of_closing? {depth : Nat} {inside : List Token} {closer : Token}
    (h : closing? depth (inside ++ [closer]) = some (inside, [])) :
    closer.form = .mark .closeBracket := by
  induction inside generalizing depth with
  | nil =>
    rw [List.nil_append] at h
    unfold closing? at h
    split at h
    · assumption
    all_goals
      obtain ⟨p, -, he⟩ := Option.map_eq_some_iff.1 h
      cases he
  | cons t inside ih =>
    rw [List.cons_append] at h
    unfold closing? at h
    split at h
    · cases h
    all_goals
      obtain ⟨⟨i, a⟩, hp, he⟩ := Option.map_eq_some_iff.1 h
      cases he
      exact ih hp

theorem typing?_append {ts : List Token} {a : Option TypeRef} (h : typing? ts = .ok (a, []))
    {rest : List Token} (hr : ∀ t ∈ rest.head?, t.form ≠ .mark .colon) :
    typing? (ts ++ rest) = .ok (a, rest) := by
  unfold typing? at h
  split at h
  · cases h
    rfl
  · cases h
    rfl
  · exact absurd h fault_ne_ok
  · cases h
    cases rest with
    | nil => rfl
    | cons t rest =>
      obtain ⟨form, p⟩ := t
      have := hr _ rfl
      unfold typing?
      split <;> simp_all

theorem closing?_eq_some {depth : Nat} {ts inside after : List Token}
    (h : closing? depth ts = some (inside, after)) :
    ∃ closer, ts = inside ++ closer :: after ∧
      closing? depth (inside ++ [closer]) = some (inside, []) := by
  induction ts generalizing depth inside after with
  | nil => cases h
  | cons t ts ih =>
    unfold closing? at h
    split at h
    · rename_i hf
      cases h
      exact ⟨t, rfl, by simp [closing?, hf]⟩
    all_goals
      obtain ⟨⟨i, a⟩, hp, he⟩ := Option.map_eq_some_iff.1 h
      cases he
      obtain ⟨closer, rfl, hi⟩ := ih hp
      refine ⟨closer, rfl, ?_⟩
      rw [List.cons_append]
      unfold closing?
      simp_all

theorem isInfix_of_closing? {depth : Nat} {ts inside after : List Token}
    (h : closing? depth ts = some (inside, after)) : inside <:+: ts ∧ after <:+: ts := by
  obtain ⟨closer, rfl, -⟩ := closing?_eq_some h
  have hafter := (List.suffix_cons closer after).trans (List.suffix_append inside _)
  exact ⟨(List.prefix_append ..).isInfix, hafter.isInfix⟩

theorem typing?_eq_ok {ts after : List Token} {a : Option TypeRef}
    (h : typing? ts = .ok (a, after)) :
    ∃ typing, ts = typing ++ after ∧ typing? typing = .ok (a, []) := by
  unfold typing? at h
  split at h
  · cases h
    exact ⟨[_, _], rfl, rfl⟩
  · cases h
    exact ⟨[_, _], rfl, rfl⟩
  · exact absurd h fault_ne_ok
  · cases h
    exact ⟨[], rfl, rfl⟩

theorem typing?_eq_none {ts after : List Token} (h : typing? ts = .ok (none, after)) :
    ts = after := by
  unfold typing? at h
  split at h
  · cases h
  · cases h
  · exact absurd h fault_ne_ok
  · cases h
    rfl

/-- A name that is read takes the type declared behind it, if any. -/
theorem run_name {b : Bool} {y z : Yard} {text : String} {p : Position} {rest after : List Token}
    {a : Option TypeRef} (ht : typing? rest = .ok (a, after))
    (h : run b y (⟨.name text, p⟩ :: rest) = .ok z) :
    run a.isNone (y.push (.place (.whole p text a))) after = .ok z := by
  by_cases hp : y.pending = []
  · rwa [run_name_free b hp ht] at h
  · rw [run_name_pending b hp] at h
    cases a with
    | none =>
      obtain rfl := typing?_eq_none ht
      exact h
    | some type =>
      unfold typing? at ht
      split at ht
      · rw [run_take _ _ (by simp) (by simp)] at h
        exact absurd h (by simp [Yard.take, unexpected, fault, bind, Except.bind])
      · rw [run_take _ _ (by simp) (by simp)] at h
        exact absurd h (by simp [Yard.take, unexpected, fault, bind, Except.bind])
      · exact absurd ht fault_ne_ok
      · cases ht

theorem take_of_run {b : Bool} {y z : Yard} {t : Token} {rest : List Token}
    (hn : ∀ text, t.form ≠ .name text) (ho : t.form ≠ .mark .openBracket)
    (h : run b y (t :: rest) = .ok z) : ∃ y', y.take t = .ok y' ∧ run false y' rest = .ok z := by
  rw [run_take b y hn ho] at h
  exact bind_eq_ok.mp h

theorem typing?_of_run {b : Bool} {y z : Yard} {text : String} {p : Position} {rest : List Token}
    (hy : y.pending = []) (h : run b y (⟨.name text, p⟩ :: rest) = .ok z) :
    ∃ a after, typing? rest = .ok (a, after) ∧
      run a.isNone (y.push (.place (.whole p text a))) after = .ok z := by
  rw [run_eq_of_name, hy, List.isEmpty_nil, if_pos rfl] at h
  obtain ⟨⟨a, after⟩, ht, h⟩ := bind_eq_ok.mp h
  exact ⟨a, after, ht, h⟩

theorem brackets_of_run {b : Bool} {y z : Yard} {opener : Position} {rest : List Token}
    (h : run b y (⟨.mark .openBracket, opener⟩ :: rest) = .ok z) :
    ∃ inside after parts elements, closing? 0 rest = some (inside, after) ∧
      elementParts opener inside = .ok parts ∧ runParts opener parts = .ok elements ∧
      run false (y.takeBrackets opener b elements) after = .ok z := by
  rw [run_eq_of_openBracket] at h
  cases hc : closing? 0 rest with
  | none =>
    rw [hc] at h
    exact absurd h fault_ne_ok
  | some closed =>
    rw [hc] at h
    obtain ⟨parts, hp, h⟩ := bind_eq_ok.mp h
    obtain ⟨elements, he, h⟩ := bind_eq_ok.mp h
    exact ⟨closed.1, closed.2, parts, elements, rfl, hp, he, h⟩

/-! ### Stacks -/

/-- Nothing is reduced while the newest operator does not yield. -/
theorem reduceWhile_eq_self {yields : Nat → Bool} (output : List Item) {pending : List Pending}
    (h : ∀ top ∈ pending.head?, ∀ p ∈ top.precedence?, yields p = false) :
    Yard.reduceWhile yields output pending = .ok ⟨output, pending⟩ := by
  cases pending with
  | nil => rfl
  | cons top pending =>
    rw [Yard.reduceWhile]
    cases hp : top.precedence? with
    | none => rfl
    | some p => simp [h top rfl p hp]

theorem Pending.precedence_le_sign {top : Pending} {p : Nat} (h : top.precedence? = some p) :
    p ≤ Sign.precedence := by
  cases top with
  | connective c _ =>
    cases h
    exact Nat.le_of_lt c.precedence_lt_sign
  | sign _ _ =>
    cases h
    exact Nat.le_refl _
  | _ => cases h

/-- A sign takes nothing that stands before it. -/
theorem Yard.pushOperator_sign (y : Yard) (s : Sign) (position : Position) :
    y.pushOperator (.sign s position) = .ok ⟨y.output, .sign s position :: y.pending⟩ := by
  have hs : ∀ top ∈ y.pending.head?, ∀ p ∈ top.precedence?,
      decide (Sign.precedence < p) = false := by
    intro top _ p hp
    have := Pending.precedence_le_sign hp
    simpa using this
  simp only [Yard.pushOperator, reduceWhile_eq_self _ hs]
  rfl

/-- The values above a call mark are its arguments in source order. -/
theorem arguments_append (es : List (Expr Position)) (output : List Item) :
    Yard.arguments (es.reverse.map .value ++ .callMark :: output) = (es, output) := by
  have (es : List (Expr Position)) :
      Yard.arguments (es.map .value ++ .callMark :: output) = (es.reverse, output) := by
    induction es with
    | nil => rfl
    | cons e es ih => simp [Yard.arguments, ih]
  simpa using this es.reverse

end AlgoFrontEnd.Grammar
