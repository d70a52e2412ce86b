import AlgoFrontEnd.Proofs.Breach
import AlgoFrontEnd.Proofs.Grammar.Steps

/-! Expressions read with every partial operation checked: taking from a stack, looking up an
operator, reading a token at an index. Main statement: none of the checks ever fails, because the
output holds one call mark for each pending call. -/
namespace AlgoFrontEnd.Grammar

def Item.isMark : Item → Bool
  | .callMark => true
  | .value _ => false

def Pending.isCall : Pending → Bool
  | .call _ _ => true
  | _ => false

def Pending.isOperator : Pending → Bool
  | .connective _ _ | .sign _ _ => true
  | .paren _ | .call _ _ => false

namespace Checked

def halt {α : Type} (c : Cause) (position : Position) : Except Halt α := guarded (fault c position)

/-! ### Reading with checks -/

def tokenAt (tokens : List Token) (i : Nat) : Except Halt Token :=
  match tokens[i]? with
  | some t => .ok t
  | none => breach .pastTokens

/-- Takes the newest item as an operand. -/
def operand : List Item → Except Halt (Expr Position × List Item)
  | [] => breach .emptyStack
  | .callMark :: _ => breach .markTaken
  | .value e :: rest => .ok (e, rest)

/-- Looks at the newest item and leaves it. -/
def newest : List Item → Except Halt Item
  | [] => breach .emptyStack
  | item :: _ => .ok item

/-- Takes the values above the newest call mark, in source order, and the mark. -/
def collect : List Item → Except Halt (List (Expr Position) × List Item)
  | [] => breach .emptyStack
  | .callMark :: rest => .ok ([], rest)
  | .value e :: rest => do
    let (newer, below) ← collect rest
    return (newer ++ [e], below)

/-- The connective of a spelling. -/
def connective (spelling : String) : Except Halt Connective :=
  match Connective.ofSpelling? spelling with
  | some c => .ok c
  | none => breach .unknownOperator

/-- The sign of a spelling. -/
def sign (spelling : String) : Except Halt Sign :=
  match Sign.ofSpelling? spelling with
  | some s => .ok s
  | none => breach .unknownOperator

def precedence : Pending → Except Halt Nat
  | .connective c _ => do return (← connective c.spelling).precedence
  | .sign _ _ => .ok Sign.precedence
  | .paren _ | .call _ _ => breach .unknownOperator

/-- Whether so many newest items are there and none is a mark. -/
def hasOperands (n : Nat) (output : List Item) : Bool :=
  n ≤ output.length && (output.take n).all (!·.isMark)

def reduce (output : List Item) : Pending → Except Halt (List Item)
  | .sign s position =>
    if hasOperands 1 output then do
      let (e, rest) ← operand output
      return .value (.sign position (← sign s.spelling) e) :: rest
    else halt (.missingOperand s.spelling) position
  | .connective c position =>
    if hasOperands 2 output then do
      let (right, rest) ← operand output
      let (left, rest) ← operand rest
      match ← connective c.spelling, left with
      | .operate op, _ => return .value (.binary position op left right) :: rest
      | .assign, .place target => return .value (.assign target.note target right) :: rest
      | .assign, _ => halt .invalidTarget position
    else halt (.missingOperand c.spelling) position
  | .paren _ | .call _ _ => breach .unknownOperator

def reduceWhile (yields : Nat → Bool) (output : List Item) : List Pending → Except Halt Yard
  | [] => .ok ⟨output, []⟩
  | top :: pending =>
    if top.isOperator then do
      if yields (← precedence top) then reduceWhile yields (← reduce output top) pending
      else return ⟨output, top :: pending⟩
    else .ok ⟨output, top :: pending⟩

def settle (y : Yard) : Except Halt Yard := reduceWhile (fun _ => true) y.output y.pending

def pushOperator (y : Yard) (operator : Pending) : Except Halt Yard := do
  let incoming ← precedence operator
  let yields := match operator with
    | .connective _ _ => fun p => incoming ≤ p
    | _ => fun p => incoming < p
  let y ← reduceWhile yields y.output y.pending
  return { y with pending := operator :: y.pending }

def close (y : Yard) (t : Token) : Except Halt Yard := do
  let y ← settle y
  match y.pending with
  | .paren _ :: .call function position :: pending =>
    let (values, below) ← collect y.output
    return ⟨.value (.call position function values) :: below, pending⟩
  | .paren _ :: pending => return ⟨y.output, pending⟩
  | _ => guarded (unexpected t "matching '('")

def separate (y : Yard) (t : Token) : Except Halt Yard := do
  let y ← settle y
  match y.pending with
  | .paren _ :: _ => return y
  | _ => guarded (unexpected t "',' only between call arguments")

/-- Other tokens than these take nothing from the stacks. -/
def take (y : Yard) (t : Token) : Except Halt Yard :=
  match t.form with
  | .connective c => pushOperator y (.connective c t.position)
  | .sign s => pushOperator y (.sign s t.position)
  | .mark .closeParen => close y t
  | .mark .comma => separate y t
  | _ => guarded (y.take t)

def takeBrackets (y : Yard) (opener : Position) (behindName : Bool)
    (elements : List (Expr Position)) : Except Halt Yard :=
  match behindName, elements with
  | true, [.int _ offset] =>
    if y.output.isEmpty then .ok (y.push (.array opener elements))
    else do
      match ← newest y.output with
      | .value (.place (.whole position name none)) =>
        let (_, output) ← operand y.output
        return { y with output := .value (.place (.element position name offset)) :: output }
      | _ => return y.push (.array opener elements)
  | _, _ => .ok (y.push (.array opener elements))

/-- Where a line comes to no single value, its first token is pointed at. -/
def finish (y : Yard) (tokens : List Token) : Except Halt (Expr Position) := do
  let y ← settle y
  match y.pending, y.output with
  | top :: _, _ => halt (.missingToken "')'") top.position
  | [], [.value e] => return e
  | [], _ => halt .notOneValue (← tokenAt tokens 0).position

def typing (tokens : List Token) : Except Halt (Option TypeRef × List Token) :=
  if tokens.isEmpty then .ok (none, tokens)
  else do
    let colon ← tokenAt tokens 0
    if colon.form = .mark .colon then
      if tokens.length ≤ 1 then halt (.missingToken "type name after ':'") colon.position
      else
        match (← tokenAt tokens 1).form with
        | .typeName type => return (some ⟨type, false⟩, tokens.drop 2)
        | .arrayTypeName type => return (some ⟨type, true⟩, tokens.drop 2)
        | _ => halt (.missingToken "type name after ':'") colon.position
    else return (none, tokens)

/-- Reading at an index and taking apart by a pattern come to the same. -/
theorem typing_eq (ts : List Token) : typing ts = guarded (typing? ts) := by
  match ts with
  | [] => rfl
  | [t] =>
    obtain ⟨form, p⟩ := t
    by_cases h : form = .mark .colon
    · subst h
      rfl
    · cases form with
      | mark m => cases m <;> first | exact absurd rfl h | rfl
      | _ => rfl
  | t :: u :: rest =>
    obtain ⟨form, p⟩ := t
    by_cases h : form = .mark .colon
    · subst h
      obtain ⟨form, q⟩ := u
      cases form <;> rfl
    · cases form with
      | mark m => cases m <;> first | exact absurd rfl h | rfl
      | _ => rfl

mutual
def run (behindName : Bool) (y : Yard) : List Token → Except Halt Yard
  | [] => .ok y
  | ⟨.name text, position⟩ :: rest =>
    if y.pending.isEmpty then
      match _annotated : typing rest with
      | .error e => .error e
      | .ok (a, after) => run a.isNone (y.push (.place (.whole position text a))) after
    else run true (y.push (.place (.whole position text none))) rest
  | ⟨.mark .openBracket, opener⟩ :: rest =>
    match _closed : closing? 0 rest with
    | none => halt (.missingToken "']' before end of line") opener
    | some (inside, after) =>
      match _split : elementParts opener inside with
      | .error e => .error (.fault e)
      | .ok parts => do
        let elements ← runParts parts
        run false (← takeBrackets y opener behindName elements) after
  | t :: rest => do run false (← take y t) rest
termination_by ts => ts.length
decreasing_by
  · rw [typing_eq, guarded_eq_ok] at _annotated
    have := length_of_typing? _annotated
    simp only [List.length_cons]
    omega
  · simp
  · have := length_of_closing? _closed
    have := weight_of_elementParts _split
    simp only [List.length_cons]
    omega
  · have := length_of_closing? _closed
    simp only [List.length_cons]
    omega
  · simp

def runParts : List (List Token) → Except Halt (List (Expr Position))
  | [] => .ok []
  | part :: parts => do
    let y ← run false .empty part
    let e ← finish y part
    return e :: (← runParts parts)
termination_by parts => weight parts
decreasing_by
  · simp only [weight]; omega
  · simp only [weight]; omega
end

def expression (stop : Position) (tokens : List Token) : Except Halt (Expr Position) :=
  match tokens with
  | [] => halt (.missingToken "expression") stop
  | _ => do finish (← run false .empty tokens) tokens

/-! ### No operator is missing from its table -/

theorem connective_spelling (c : Connective) : connective c.spelling = .ok c := by
  cases c with
  | assign => rfl
  | operate op => cases op <;> rfl

theorem sign_spelling (s : Sign) : sign s.spelling = .ok s := by
  cases s <;> rfl

theorem precedence_eq {top : Pending} (h : top.isOperator = true) :
    ∃ n, precedence top = .ok n ∧ top.precedence? = some n := by
  cases top with
  | connective c p => exact ⟨_, congrArg (· >>= _) (connective_spelling c), rfl⟩
  | sign s p => exact ⟨_, rfl, rfl⟩
  | _ => cases h

theorem precedence?_eq_none {top : Pending} (h : top.isOperator = false) :
    top.precedence? = none := by
  cases top with
  | connective c p | sign s p => cases h
  | paren p | call f p => rfl

/-! ### The stacks hold what is taken -/

/-- One call mark for each pending call. -/
def Balanced (output : List Item) (pending : List Pending) : Prop :=
  output.countP (·.isMark) = pending.countP (·.isCall)

theorem balanced_empty : Balanced Yard.empty.output Yard.empty.pending := rfl

theorem reduce_eq (output : List Item) {top : Pending} (h : top.isOperator = true) :
    reduce output top = guarded (Yard.reduce output top) := by
  cases top with
  | sign s p =>
    rcases output with _ | ⟨e | _, rest⟩
    · rfl
    · simp only [reduce, hasOperands, Item.isMark, operand, sign_spelling, Yard.reduce, bind,
        Except.bind]
      rfl
    · rfl
  | connective c p =>
    rcases output with _ | ⟨right | _, rest⟩
    · rfl
    · rcases rest with _ | ⟨left | _, rest⟩
      · rfl
      · simp only [reduce, hasOperands, Item.isMark, operand, connective_spelling, Yard.reduce,
          bind, Except.bind]
        cases c with
        | operate op => rfl
        | assign => cases left <;> rfl
      · simp [reduce, hasOperands, Item.isMark, Yard.reduce, halt]
    · simp [reduce, hasOperands, Item.isMark, Yard.reduce, halt]
  | _ => cases h

/-- What an operator takes are values, so all marks are left. -/
theorem marks_reduce {output output' : List Item} {top : Pending}
    (h : Yard.reduce output top = .ok output') :
    output'.countP (·.isMark) = output.countP (·.isMark) := by
  unfold Yard.reduce at h
  split at h
  · split at h
    · cases h
      simp [Item.isMark]
    · exact absurd h fault_ne_ok
  · split at h
    · split at h
      · cases h
        simp [Item.isMark]
      · cases h
        simp [Item.isMark]
      · exact absurd h fault_ne_ok
    · exact absurd h fault_ne_ok
  · cases h
    rfl
  · cases h
    rfl

theorem reduceWhile_eq (yields : Nat → Bool) (output : List Item) (pending : List Pending) :
    reduceWhile yields output pending = guarded (Yard.reduceWhile yields output pending) := by
  induction pending generalizing output with
  | nil => rfl
  | cons top pending ih =>
    cases ho : top.isOperator with
    | false => simp [reduceWhile, Yard.reduceWhile, ho, precedence?_eq_none ho]
    | true =>
      obtain ⟨n, hn, hp⟩ := precedence_eq ho
      simp only [reduceWhile, Yard.reduceWhile, ho, hn, hp, if_true]
      change (if yields n then _ else _) = _
      split
      · rw [reduce_eq _ ho, guarded_bind]
        exact congrArg _ (funext fun o => ih o)
      · rfl

theorem balanced_reduceWhile {yields : Nat → Bool} {output : List Item} {pending : List Pending}
    {y : Yard} (hb : Balanced output pending)
    (h : Yard.reduceWhile yields output pending = .ok y) : Balanced y.output y.pending := by
  induction pending generalizing output with
  | nil =>
    cases h
    exact hb
  | cons top pending ih =>
    rw [Yard.reduceWhile] at h
    split at h
    · rename_i n hn
      split at h
      · obtain ⟨o, ho, h⟩ := bind_eq_ok.mp h
        refine ih ?_ h
        have hc : top.isCall = false := by
          cases top with
          | call f p => cases hn
          | _ => rfl
        rw [Balanced, marks_reduce ho]
        simpa [Balanced, List.countP_cons, hc] using hb
      · cases h
        exact hb
    · cases h
      exact hb

theorem settle_eq (y : Yard) : settle y = guarded y.settle := reduceWhile_eq _ _ _

/-- Above a mark that is there, nothing is taken past it. -/
theorem collect_eq {output : List Item} (h : 0 < output.countP (·.isMark)) :
    collect output = .ok (Yard.arguments output) := by
  induction output with
  | nil => exact absurd h (Nat.lt_irrefl 0)
  | cons item output ih =>
    cases item with
    | callMark => rfl
    | value e =>
      rw [collect, ih (by simpa [Item.isMark] using h)]
      rfl

theorem marks_arguments {output : List Item} (h : 0 < output.countP (·.isMark)) :
    (Yard.arguments output).2.countP (·.isMark) + 1 = output.countP (·.isMark) := by
  induction output with
  | nil => exact absurd h (Nat.lt_irrefl 0)
  | cons item output ih =>
    cases item with
    | callMark => simp [Yard.arguments, Item.isMark]
    | value e =>
      have := ih (by simpa [Item.isMark] using h)
      simpa [Yard.arguments, Item.isMark] using this

/-! ### A step keeps the balance -/

theorem pushOperator_eq (y : Yard) {operator : Pending} (h : operator.isOperator = true) :
    pushOperator y operator = guarded (y.pushOperator operator) := by
  cases operator with
  | connective c p =>
    have hc : pushOperator y (.connective c p) =
        reduceWhile (fun n => c.precedence ≤ n) y.output y.pending >>= fun y =>
          .ok ⟨y.output, .connective c p :: y.pending⟩ := by
      simp only [pushOperator, precedence, connective_spelling]
      rfl
    rw [hc, reduceWhile_eq, Yard.pushOperator, guarded_bind]
    rfl
  | sign s p =>
    have hs : pushOperator y (.sign s p) =
        reduceWhile (fun n => Sign.precedence < n) y.output y.pending >>= fun y =>
          .ok ⟨y.output, .sign s p :: y.pending⟩ := rfl
    rw [hs, reduceWhile_eq, Yard.pushOperator, guarded_bind]
    · rfl
    · intro _ _ h
      cases h
  | _ => cases h

theorem balanced_pushOperator {y z : Yard} {operator : Pending} (hc : operator.isCall = false)
    (hy : Balanced y.output y.pending) (h : y.pushOperator operator = .ok z) :
    Balanced z.output z.pending := by
  obtain ⟨w, hw, h⟩ := bind_eq_ok.mp h
  cases h
  simpa [Balanced, List.countP_cons, hc] using balanced_reduceWhile hy hw

theorem close_eq {y : Yard} (hy : Balanced y.output y.pending) (t : Token) :
    close y t = guarded (y.close t) := by
  rw [close, Yard.close, guarded_bind, settle_eq]
  refine bind_congr_ok fun z hz => ?_
  have hz := balanced_reduceWhile hy (guarded_eq_ok.mp hz)
  obtain ⟨output, pending⟩ := z
  rcases pending with _ | ⟨top, pending⟩
  · rfl
  · cases top with
    | paren p =>
      rcases pending with _ | ⟨next, pending⟩
      · rfl
      · cases next with
        | call function position =>
          have hm : 0 < output.countP (·.isMark) := by
            rw [hz]
            simp [Pending.isCall]
          simp only [collect_eq hm]
          rfl
        | _ => rfl
    | _ => rfl

theorem balanced_close {y z : Yard} {t : Token} (hy : Balanced y.output y.pending)
    (h : y.close t = .ok z) : Balanced z.output z.pending := by
  obtain ⟨w, hw, h⟩ := bind_eq_ok.mp h
  have hw := balanced_reduceWhile hy hw
  split at h
  · rename_i paren function position pending hp
    cases h
    have hm : w.output.countP (·.isMark) = pending.countP (·.isCall) + 1 := by
      rw [hw, hp]
      simp [Pending.isCall]
    have := marks_arguments (by omega : 0 < w.output.countP (·.isMark))
    change (Item.value _ :: _).countP (·.isMark) = pending.countP (·.isCall)
    rw [List.countP_cons_of_neg (by simp [Item.isMark])]
    omega
  · rename_i paren pending hn hp
    cases h
    rw [Balanced, hp] at hw
    simpa [Balanced, Pending.isCall] using hw
  · exact absurd h fault_ne_ok

theorem separate_eq (y : Yard) (t : Token) : separate y t = guarded (y.separate t) := by
  rw [separate, Yard.separate, guarded_bind, settle_eq]
  refine bind_congr_ok fun z hz => ?_
  obtain ⟨output, pending⟩ := z
  rcases pending with _ | ⟨top, pending⟩
  · rfl
  · cases top <;> rfl

theorem balanced_separate {y z : Yard} {t : Token} (hy : Balanced y.output y.pending)
    (h : y.separate t = .ok z) : Balanced z.output z.pending := by
  obtain ⟨w, hw, h⟩ := bind_eq_ok.mp h
  split at h
  · cases h
    exact balanced_reduceWhile hy hw
  · exact absurd h fault_ne_ok

theorem take_eq {y : Yard} (hy : Balanced y.output y.pending) (t : Token) :
    take y t = guarded (y.take t) := by
  obtain ⟨form, p⟩ := t
  cases form with
  | connective c => exact pushOperator_eq y rfl
  | sign s => exact pushOperator_eq y rfl
  | mark m =>
    cases m with
    | closeParen => exact close_eq hy _
    | comma => exact separate_eq y _
    | _ => rfl
  | _ => rfl

theorem balanced_push {y : Yard} (hy : Balanced y.output y.pending) (e : Expr Position) :
    Balanced (y.push e).output (y.push e).pending := by
  simpa [Balanced, Yard.push, Item.isMark] using hy

theorem balanced_take {y z : Yard} {t : Token} (hy : Balanced y.output y.pending)
    (h : y.take t = .ok z) : Balanced z.output z.pending := by
  obtain ⟨form, p⟩ := t
  cases form with
  | connective c =>
    have h : y.pushOperator (.connective c p) = .ok z := h
    exact balanced_pushOperator rfl hy h
  | sign s =>
    have h : y.pushOperator (.sign s p) = .ok z := h
    exact balanced_pushOperator rfl hy h
  | call text =>
    cases h
    simpa [Balanced, Item.isMark, Pending.isCall] using hy
  | mark m =>
    cases m with
    | closeParen => exact balanced_close hy h
    | comma => exact balanced_separate hy h
    | openParen =>
      cases h
      simpa [Balanced, Pending.isCall] using hy
    | _ => exact absurd h fault_ne_ok
  | int value | float value | bool value | string value =>
    cases h
    exact balanced_push hy _
  | _ => exact absurd h fault_ne_ok

theorem takeBrackets_eq (y : Yard) (opener : Position) (behindName : Bool)
    (elements : List (Expr Position)) :
    takeBrackets y opener behindName elements =
      .ok (y.takeBrackets opener behindName elements) := by
  obtain ⟨output, pending⟩ := y
  unfold takeBrackets
  split
  · match output with
    | [] => rfl
    | .callMark :: rest => rfl
    | .value e :: rest =>
      cases e with
      | place q =>
        cases q with
        | whole position name type => cases type <;> rfl
        | element position array offset => rfl
      | _ => rfl
  · rename_i h
    simp only [Yard.takeBrackets]
    split
    · exact absurd rfl (h _ _ rfl)
    · rfl

theorem balanced_takeBrackets {y : Yard} (hy : Balanced y.output y.pending) (opener : Position)
    (behindName : Bool) (elements : List (Expr Position)) :
    Balanced (y.takeBrackets opener behindName elements).output
      (y.takeBrackets opener behindName elements).pending := by
  unfold Yard.takeBrackets
  split
  · rename_i ho
    rw [Balanced, ho] at hy
    simpa [Balanced, Item.isMark] using hy
  · exact balanced_push hy _

/-- A line that is not empty has a first token to point at. -/
theorem finish_eq (y : Yard) (t : Token) (ts : List Token) :
    finish y (t :: ts) = guarded (y.finish t.position) := by
  rw [finish, Yard.finish, guarded_bind, settle_eq]
  refine bind_congr_ok fun z hz => ?_
  split <;> simp_all [halt, tokenAt, fault, bind, Except.bind, pure, Except.pure]

/-! ### Whole lines -/

theorem run_name (b : Bool) (y : Yard) (text : String) (p : Position) (rest : List Token) :
    run b y (⟨.name text, p⟩ :: rest) =
      if y.pending.isEmpty then
        typing rest >>= fun ta => run ta.1.isNone (y.push (.place (.whole p text ta.1))) ta.2
      else run true (y.push (.place (.whole p text none))) rest := by
  rw [run]
  split
  · split <;> simp_all [bind, Except.bind]
  · rfl

theorem run_openBracket (b : Bool) (y : Yard) (opener : Position) (rest : List Token) :
    run b y (⟨.mark .openBracket, opener⟩ :: rest) =
      match closing? 0 rest with
      | none => halt (.missingToken "']' before end of line") opener
      | some (inside, after) =>
        guarded (elementParts opener inside) >>= fun parts => runParts parts >>= fun elements =>
          takeBrackets y opener b elements >>= fun y => run false y after := by
  rw [run]
  split
  · simp_all
  · split <;> simp_all [bind, Except.bind]

theorem run_take (b : Bool) (y : Yard) {t : Token} (hn : ∀ text, t.form ≠ .name text)
    (ho : t.form ≠ .mark .openBracket) (rest : List Token) :
    run b y (t :: rest) = take y t >>= fun y => run false y rest := by
  obtain ⟨form, p⟩ := t
  cases form with
  | name text => exact absurd rfl (hn text)
  | mark m => cases m <;> first | exact absurd rfl ho | rw [run] <;> simp
  | _ => rw [run] <;> simp

/-- No part between brackets is empty. -/
theorem ne_nil_of_elementParts {opener : Position} {inside : List Token}
    {parts : List (List Token)} (h : elementParts opener inside = .ok parts) :
    ∀ part ∈ parts, part ≠ [] := by
  simp only [elementParts, fault] at h
  split at h
  · cases h
    simp
  · split at h
    · cases h
    · rename_i hany
      cases h
      rintro part hp rfl
      exact hany (List.any_eq_true.mpr ⟨[], hp, rfl⟩)

theorem startOf_cons (t : Token) (ts : List Token) (otherwise : Position) :
    startOf (t :: ts) otherwise = t.position := rfl

mutual
/-- From a balanced yard, reading breaches nothing and comes to the same. -/
theorem run_eq {b : Bool} {y : Yard} (hy : Balanced y.output y.pending) :
    (ts : List Token) → run b y ts = guarded (Grammar.run b y ts)
  | [] => by
    rw [run, run_nil]
    rfl
  | ⟨form, p⟩ :: rest => by
    by_cases hn : ∃ text, form = .name text
    · obtain ⟨text, rfl⟩ := hn
      rw [run_name, run_eq_of_name]
      split
      · rw [typing_eq, guarded_bind]
        refine bind_congr_ok fun ta hta => ?_
        have := length_of_typing? (guarded_eq_ok.mp hta)
        exact run_eq (balanced_push hy _) ta.2
      · exact run_eq (balanced_push hy _) rest
    by_cases ho : form = .mark .openBracket
    · subst ho
      rw [run_openBracket, run_eq_of_openBracket]
      cases hc : closing? 0 rest with
      | none => rfl
      | some split =>
        obtain ⟨inside, after⟩ := split
        simp only [guarded_bind]
        refine bind_congr_ok fun parts hparts => ?_
        have hparts := guarded_eq_ok.mp hparts
        have := length_of_closing? hc
        have := weight_of_elementParts hparts
        rw [runParts_eq p parts (ne_nil_of_elementParts hparts)]
        refine bind_congr_ok fun elements _ => ?_
        rw [takeBrackets_eq]
        exact run_eq (balanced_takeBrackets hy _ _ _) after
    · have hn : ∀ text, form ≠ .name text := fun text h => hn ⟨text, h⟩
      rw [run_take b y (t := ⟨form, p⟩) hn ho, Grammar.run_take b y (t := ⟨form, p⟩) hn ho,
        take_eq hy, guarded_bind]
      refine bind_congr_ok fun z hz => ?_
      exact run_eq (balanced_take hy (guarded_eq_ok.mp hz)) rest
termination_by ts => ts.length

theorem runParts_eq (opener : Position) : (parts : List (List Token)) →
    (∀ part ∈ parts, part ≠ []) → runParts parts = guarded (Grammar.runParts opener parts)
  | [], _ => by
    rw [runParts, Grammar.runParts]
    rfl
  | [] :: parts, h => absurd rfl (h [] (List.mem_cons_self))
  | (t :: ts) :: parts, h => by
    rw [runParts, Grammar.runParts, run_eq balanced_empty, guarded_bind]
    refine bind_congr_ok fun z hz => ?_
    rw [finish_eq, guarded_bind, startOf_cons]
    refine bind_congr_ok fun e _ => ?_
    rw [runParts_eq opener parts fun part hp => h part (List.mem_cons_of_mem _ hp), guarded_bind]
    rfl
termination_by parts => weight parts
decreasing_by
  all_goals
    simp only [weight, List.length_cons]
    omega
end

/-- Reading the expression of a line breaches nothing. -/
theorem expression_eq (stop : Position) (ts : List Token) :
    expression stop ts = guarded (Grammar.expression stop ts) := by
  cases ts with
  | nil => rfl
  | cons t ts =>
    rw [expression, Grammar.expression, run_eq balanced_empty, guarded_bind]
    · exact bind_congr_ok fun y _ => finish_eq y t ts
    · nofun

end Checked
end AlgoFrontEnd.Grammar
