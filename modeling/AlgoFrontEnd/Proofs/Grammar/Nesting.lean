import AlgoFrontEnd.Proofs.Grammar.Blocks
import AlgoFrontEnd.Proofs.Grammar.Faults
import AlgoFrontEnd.Proofs.Grammar.Tally

/-! Brackets of both kinds. Main statement: what is read as an expression is well bracketed, and so
is every line of a program that is read; anything else is refused with a fault of the parser. -/
namespace AlgoFrontEnd
open Token (Form)

/-- Kinds of brackets. -/
inductive Bracket where
  | round | square
  deriving DecidableEq, Repr

namespace Token.Form

def opened? : Form → Option Bracket
  | .mark .openParen => some .round
  | .mark .openBracket => some .square
  | _ => none

def closed? : Form → Option Bracket
  | .mark .closeParen => some .round
  | .mark .closeBracket => some .square
  | _ => none

def isBracket (f : Form) : Bool := f.opened?.isSome || f.closed?.isSome

end Token.Form

namespace Grammar

/-- The brackets form pairs of one kind each, one pair inside or behind another. -/
inductive WellBracketed : List Token → Prop
  | nil : WellBracketed []
  | plain {t : Token} {ts : List Token} (ht : t.form.isBracket = false) (h : WellBracketed ts) :
      WellBracketed (t :: ts)
  | pair {k : Bracket} {opener closer : Token} {inside after : List Token}
      (ho : opener.form.opened? = some k) (hi : WellBracketed inside)
      (hc : closer.form.closed? = some k) (ha : WellBracketed after) :
      WellBracketed (opener :: (inside ++ closer :: after))

/-- The brackets that are open behind the tokens, the innermost first. A bracket closes the
innermost one only. -/
def openBehind? (stack : List Bracket) : List Token → Option (List Bracket)
  | [] => some stack
  | t :: ts =>
    match t.form.opened?, t.form.closed? with
    | some k, _ => openBehind? (k :: stack) ts
    | none, none => openBehind? stack ts
    | none, some k =>
      match stack with
      | [] => none
      | top :: stack => if top = k then openBehind? stack ts else none

section
variable {stack : List Bracket} {t : Token} {k : Bracket}

theorem closed?_of_opened? {f : Form} (h : f.opened? = some k) : f.closed? = none := by
  unfold Form.opened? at h
  split at h
  · rfl
  · rfl
  · cases h

theorem isBracket_eq_false {f : Form} :
    f.isBracket = false ↔ f.opened? = none ∧ f.closed? = none := by
  simp [Form.isBracket]

theorem openBehind?_opener (h : t.form.opened? = some k) (ts : List Token) :
    openBehind? stack (t :: ts) = openBehind? (k :: stack) ts := by
  rw [openBehind?, h]

theorem openBehind?_closer (h : t.form.closed? = some k) (ts : List Token) :
    openBehind? (k :: stack) (t :: ts) = openBehind? stack ts := by
  have ho : t.form.opened? = none := by
    cases ho : t.form.opened? with
    | none => rfl
    | some j => rw [closed?_of_opened? ho] at h; cases h
  rw [openBehind?, h, ho]
  exact if_pos rfl

theorem openBehind?_plain (h : t.form.isBracket = false) (ts : List Token) :
    openBehind? stack (t :: ts) = openBehind? stack ts := by
  obtain ⟨ho, hc⟩ := isBracket_eq_false.mp h
  rw [openBehind?, ho, hc]

theorem openBehind?_append (stack : List Bracket) (xs ys : List Token) :
    openBehind? stack (xs ++ ys) = (openBehind? stack xs).bind (openBehind? · ys) := by
  induction xs generalizing stack with
  | nil => rfl
  | cons x xs ih =>
    rw [List.cons_append, openBehind?, openBehind?]
    split
    · exact ih _
    · exact ih _
    · split
      · rfl
      · split
        · exact ih _
        · rfl

end

/-- Tokens behind which the same brackets are open as before them. -/
def Neutral (ts : List Token) : Prop := ∀ stack, openBehind? stack ts = some stack

namespace Neutral
variable {xs ys : List Token}

theorem nil : Neutral [] := fun _ => rfl

theorem append (hx : Neutral xs) (hy : Neutral ys) : Neutral (xs ++ ys) := by
  intro stack
  rw [openBehind?_append, hx, Option.bind_some, hy]

theorem plain {t : Token} (ht : t.form.isBracket = false) (h : Neutral xs) :
    Neutral (t :: xs) := by
  intro stack
  rw [openBehind?_plain ht, h]

theorem of_forall (h : ∀ t ∈ xs, t.form.isBracket = false) : Neutral xs := by
  induction xs with
  | nil => exact nil
  | cons t xs ih =>
    obtain ⟨ht, h⟩ := List.forall_mem_cons.mp h
    exact plain ht (ih h)

theorem enclosed {k : Bracket} {opener closer : Token} (ho : opener.form.opened? = some k)
    (h : Neutral xs) (hc : closer.form.closed? = some k) :
    Neutral (opener :: (xs ++ [closer])) := by
  intro stack
  rw [openBehind?_opener ho, openBehind?_append, h, Option.bind_some, openBehind?_closer hc]
  rfl

end Neutral

theorem WellBracketed.neutral {ts : List Token} (h : WellBracketed ts) : Neutral ts := by
  induction h with
  | nil => exact .nil
  | plain ht _ ih => exact ih.plain ht
  | @pair k opener closer inside after ho _ hc _ hi ha =>
    have hsplit : opener :: (inside ++ closer :: after) =
        opener :: (inside ++ [closer]) ++ after := by simp
    rw [hsplit]
    exact (hi.enclosed ho hc).append ha

/-- Tokens that close the brackets of a stack one after the other, and are well bracketed in
between. -/
inductive Closing : List Bracket → List Token → Prop
  | last {ts : List Token} (h : WellBracketed ts) : Closing [] ts
  | next {k : Bracket} {stack : List Bracket} {closer : Token} {inside rest : List Token}
      (hi : WellBracketed inside) (hc : closer.form.closed? = some k) (h : Closing stack rest) :
      Closing (k :: stack) (inside ++ closer :: rest)

theorem Closing.extend {stack : List Bracket} {xs ts : List Token}
    (hx : ∀ ys, WellBracketed ys → WellBracketed (xs ++ ys)) (h : Closing stack ts) :
    Closing stack (xs ++ ts) := by
  cases h with
  | last h => exact .last (hx _ h)
  | next hi hc h =>
    rw [← List.append_assoc]
    exact .next (hx _ hi) hc h

theorem closing_of_openBehind? {stack : List Bracket} {ts : List Token}
    (h : openBehind? stack ts = some []) : Closing stack ts := by
  induction ts generalizing stack with
  | nil =>
    obtain rfl := Option.some.inj h
    exact .last .nil
  | cons t ts ih =>
    rw [openBehind?] at h
    split at h
    · rename_i k ho
      -- the closer of the new bracket ends the pair, and the rest closes the stack
      cases ih h with
      | @next _ _ closer inside rest hi hc hrest =>
        have hsplit : t :: (inside ++ closer :: rest) = t :: (inside ++ [closer]) ++ rest := by simp
        rw [hsplit]
        refine hrest.extend fun ys hy => ?_
        rw [List.cons_append, List.append_assoc]
        exact .pair ho hi hc hy
    · rename_i ho hc
      have hplain : ∀ ys, WellBracketed ys → WellBracketed ([t] ++ ys) :=
        fun ys hy => .plain (isBracket_eq_false.mpr ⟨ho, hc⟩) hy
      exact (ih h).extend hplain
    · rename_i k ho hc
      split at h
      · cases h
      · split at h
        · rename_i htop
          subst htop
          exact .next .nil hc (ih h)
        · cases h

/-- Well bracketed are the tokens behind which nothing is open. -/
theorem wellBracketed_iff {ts : List Token} : WellBracketed ts ↔ openBehind? [] ts = some [] := by
  constructor
  · intro h
    exact h.neutral []
  · intro h
    cases closing_of_openBehind? h with
    | last h => exact h

instance (ts : List Token) : Decidable (WellBracketed ts) := decidable_of_iff _ wellBracketed_iff.symm

/-! ### Elements -/

/-- Parts with a comma between any two of them. -/
inductive Joined : List (List Token) → List Token → Prop
  | last (part : List Token) : Joined [part] part
  | comma {parts : List (List Token)} {ts : List Token} {t : Token} (part : List Token)
      (ht : t.form = .mark .comma) (h : Joined parts ts) :
      Joined (part :: parts) (part ++ t :: ts)

theorem joined_splitParts (depth : Int) (ts : List Token) : Joined (splitParts depth ts) ts := by
  induction ts generalizing depth with
  | nil => exact .last []
  | cons t ts ih =>
    rw [splitParts]
    split
    · rename_i hcomma
      exact .comma [] (by simp_all) (ih depth)
    · have hrest := ih (depth + depthChange t.form)
      split
      · rename_i hs
        exact absurd hs (splitParts_ne_nil _ ts)
      · rename_i part parts hs
        rw [hs] at hrest
        cases hrest with
        | last => exact .last _
        | comma _ ht h => exact .comma _ ht h

theorem Joined.neutral {parts : List (List Token)} {ts : List Token} (h : Joined parts ts)
    (hp : ∀ part ∈ parts, Neutral part) : Neutral ts := by
  induction h with
  | last part => exact hp part (List.mem_singleton_self part)
  | comma _ ht _ ih =>
    obtain ⟨hpart, hp⟩ := List.forall_mem_cons.mp hp
    exact hpart.append ((ih hp).plain (by rw [ht]; rfl))

theorem neutral_of_elementParts {opener : Position} {inside : List Token}
    {parts : List (List Token)} (h : elementParts opener inside = .ok parts)
    (hp : ∀ part ∈ parts, Neutral part) : Neutral inside := by
  unfold elementParts at h
  split at h
  · rename_i he
    rw [List.isEmpty_iff.mp he]
    exact .nil
  · simp only at h
    split at h
    · exact absurd h fault_ne_ok
    · cases h
      exact (joined_splitParts 0 inside).neutral hp

/-! ### Steps of a line -/

/-- The parentheses that wait to be closed, the innermost first. -/
def Pending.brackets (pending : List Pending) : List Bracket :=
  pending.filterMap fun
    | .paren _ => some .round
    | _ => none

theorem brackets_reduceWhile {yields : Nat → Bool} {output : List Item} {pending : List Pending}
    {z : Yard} (h : Yard.reduceWhile yields output pending = .ok z) :
    Pending.brackets z.pending = Pending.brackets pending := by
  induction pending generalizing output with
  | nil =>
    cases h
    rfl
  | cons top pending ih =>
    rw [Yard.reduceWhile] at h
    split at h
    · rename_i p hp
      split at h
      · obtain ⟨output', -, h⟩ := bind_eq_ok.mp h
        rw [ih h]
        cases top with
        | paren _ => cases hp
        | _ => rfl
      · cases h
        rfl
    · cases h
      rfl

/-- A token that is complete by itself opens and closes parentheses in their order. -/
theorem openBehind?_of_take {y z : Yard} {t : Token} (h : y.take t = .ok z)
    (stack : List Bracket) :
    openBehind? (Pending.brackets y.pending ++ stack) [t] =
      some (Pending.brackets z.pending ++ stack) := by
  obtain ⟨form, p⟩ := t
  cases form with
  | int | float | bool | string | call =>
    cases h
    rfl
  | connective c =>
    obtain ⟨w, hw, hz⟩ := bind_eq_ok.mp h
    cases hz
    rw [← brackets_reduceWhile hw]
    rfl
  | sign s =>
    obtain ⟨w, hw, hz⟩ := bind_eq_ok.mp h
    cases hz
    rw [← brackets_reduceWhile hw]
    rfl
  | mark m =>
    cases m with
    | openParen =>
      cases h
      rfl
    | closeParen =>
      obtain ⟨w, hw, hz⟩ := bind_eq_ok.mp h
      rw [← brackets_reduceWhile hw]
      split at hz
      · rename_i hp
        cases hz
        rw [hp]
        rfl
      · rename_i hp
        cases hz
        rw [hp]
        rfl
      · exact absurd hz fault_ne_ok
    | comma =>
      obtain ⟨w, hw, hz⟩ := bind_eq_ok.mp h
      rw [← brackets_reduceWhile hw]
      split at hz
      · cases hz
        rfl
      · exact absurd hz fault_ne_ok
    | openBracket | closeBracket | colon => exact absurd h fault_ne_ok
  | _ => exact absurd h fault_ne_ok

/-- Brackets behind a name or not leave what waits as it is. -/
theorem pending_takeBrackets (y : Yard) (opener : Position) (b : Bool)
    (es : List (Expr Position)) : (y.takeBrackets opener b es).pending = y.pending := by
  unfold Yard.takeBrackets
  split <;> rfl

/-- In the end nothing waits. -/
theorem brackets_of_finish {y : Yard} {start : Position} {e : Expr Position}
    (h : y.finish start = .ok e) : Pending.brackets y.pending = [] := by
  obtain ⟨w, hw, hf⟩ := bind_eq_ok.mp h
  rw [← brackets_reduceWhile hw]
  split at hf
  · exact absurd hf fault_ne_ok
  · rename_i hp _
    rw [hp]
    rfl
  · exact absurd hf fault_ne_ok

theorem neutral_of_typing? {typing : List Token} {a : Option TypeRef}
    (h : typing? typing = .ok (a, [])) : Neutral typing := by
  unfold typing? at h
  split at h
  · cases h
    exact .of_forall (by simp [Form.isBracket, Form.opened?, Form.closed?])
  · cases h
    exact .of_forall (by simp [Form.isBracket, Form.opened?, Form.closed?])
  · exact absurd h fault_ne_ok
  · cases h
    exact .nil

mutual
/-- Behind tokens that are read the parentheses are open that still wait to be closed. -/
theorem openBehind?_of_run {b : Bool} {y z : Yard} (stack : List Bracket) : ∀ {ts : List Token},
    run b y ts = .ok z →
      openBehind? (Pending.brackets y.pending ++ stack) ts =
        some (Pending.brackets z.pending ++ stack)
  | [], h => by
    rw [run_nil] at h
    cases h
    rfl
  | ⟨form, p⟩ :: rest, h => by
    by_cases hn : ∃ text, form = .name text
    · obtain ⟨text, rfl⟩ := hn
      rw [openBehind?_plain rfl]
      by_cases hy : y.pending = []
      · obtain ⟨a, after, ht, hrun⟩ := typing?_of_run hy h
        have hlen := length_of_typing? ht
        have hafter := openBehind?_of_run stack hrun
        obtain ⟨typing, rfl, htyping⟩ := typing?_eq_ok ht
        rw [openBehind?_append, neutral_of_typing? htyping, Option.bind_some]
        exact hafter
      · rw [run_name_pending b hy] at h
        have hrest := openBehind?_of_run stack h
        exact hrest
    by_cases ho : form = .mark .openBracket
    · subst ho
      obtain ⟨inside, after, parts, elements, hc, hp, he, h⟩ := brackets_of_run h
      have hlen := length_of_closing? hc
      have hweight := weight_of_elementParts hp
      have hinside := neutral_of_elementParts hp (neutral_of_runParts he)
      have hafter := openBehind?_of_run stack h
      rw [pending_takeBrackets] at hafter
      obtain ⟨closer, rfl, hcloser⟩ := closing?_eq_some hc
      rw [openBehind?_opener rfl, openBehind?_append, hinside, Option.bind_some,
        openBehind?_closer (by rw [form_of_closing? hcloser]; rfl), hafter]
    · have hn : ∀ text, form ≠ .name text := fun text h => hn ⟨text, h⟩
      obtain ⟨w, hw, h⟩ := take_of_run hn ho h
      rw [← List.singleton_append, openBehind?_append, openBehind?_of_take hw, Option.bind_some]
      exact openBehind?_of_run stack h
termination_by ts => ts.length

/-- Each part of an array is read as an expression of its own. -/
theorem neutral_of_runParts {opener : Position} : ∀ {parts : List (List Token)}
    {es : List (Expr Position)}, runParts opener parts = .ok es → ∀ part ∈ parts, Neutral part
  | [], _, _ => nofun
  | part :: parts, _, h => by
    rw [runParts] at h
    obtain ⟨y, hy, h⟩ := bind_eq_ok.mp h
    obtain ⟨e, he, h⟩ := bind_eq_ok.mp h
    obtain ⟨es, hes, -⟩ := bind_eq_ok.mp h
    refine List.forall_mem_cons.mpr ⟨fun stack => ?_, neutral_of_runParts hes⟩
    have hpart := openBehind?_of_run stack hy
    rwa [brackets_of_finish he] at hpart
termination_by parts => weight parts
decreasing_by
  · simp only [weight]; omega
  · simp only [weight]; omega
end

theorem wellBracketed_of_expression {stop : Position} {ts : List Token} {e : Expr Position}
    (h : expression stop ts = .ok e) : WellBracketed ts := by
  cases ts with
  | nil => exact absurd h fault_ne_ok
  | cons t ts =>
    obtain ⟨y, hy, hf⟩ := bind_eq_ok.mp h
    have hrun := openBehind?_of_run [] hy
    rw [brackets_of_finish hf] at hrun
    exact wellBracketed_iff.mpr hrun

/-! ### Lines -/

theorem WellBracketed.of_forall {ts : List Token} (h : ∀ t ∈ ts, t.form.isBracket = false) :
    WellBracketed ts :=
  wellBracketed_iff.mpr (Neutral.of_forall h [])

theorem resultType?_eq_ok {stop : Position} {ts after : List Token} {a : Option TypeRef}
    (h : resultType? stop ts = .ok (a, after)) :
    ∃ typing, ts = typing ++ after ∧ ∀ t ∈ typing, t.form.isBracket = false := by
  unfold resultType? at h
  split at h
  · split at h
    · cases h
      exact ⟨[_, _], rfl, by simp [Form.isBracket, Form.opened?, Form.closed?]⟩
    · cases h
      exact ⟨[_, _], rfl, by simp [Form.isBracket, Form.opened?, Form.closed?]⟩
    · exact absurd h fault_ne_ok
  · cases h
    exact ⟨[], rfl, nofun⟩

theorem parameters_eq_ok {stop : Position} {ts after : List Token}
    {ps : List (Parameter Position)} (h : parameters stop ts = .ok (ps, after)) :
    ∃ written, ts = written ++ after ∧ ∀ t ∈ written, t.form.isBracket = false := by
  fun_induction parameters stop ts generalizing ps after with
  | case1 => cases h
  | case2 text p rest type comma behind ht ih =>
    obtain ⟨⟨more, last⟩, hm, h⟩ := bind_eq_ok.mp h
    cases h
    obtain ⟨typing, rfl, htyping⟩ := resultType?_eq_ok ht
    obtain ⟨written, rfl, hwritten⟩ := ih hm
    refine ⟨⟨.name text, p⟩ :: typing ++ ⟨.mark .comma, comma⟩ :: written, by simp, ?_⟩
    simp only [List.mem_append, List.mem_cons, or_imp, forall_and, forall_eq]
    exact ⟨⟨rfl, htyping⟩, rfl, hwritten⟩
  | case3 text p rest type behind _ ht =>
    cases h
    obtain ⟨typing, rfl, htyping⟩ := resultType?_eq_ok ht
    exact ⟨⟨.name text, p⟩ :: typing, rfl, List.forall_mem_cons.mpr ⟨rfl, htyping⟩⟩
  | case4 => exact absurd h fault_ne_ok

theorem parametersOrNone_eq_ok {stop : Position} {ts after : List Token}
    {ps : List (Parameter Position)} (h : parametersOrNone stop ts = .ok (ps, after)) :
    ∃ written, ts = written ++ after ∧ ∀ t ∈ written, t.form.isBracket = false := by
  unfold parametersOrNone at h
  split at h
  · cases h
    exact ⟨[], rfl, nofun⟩
  · exact parameters_eq_ok h

theorem expectMark_eq_ok {stop : Position} {m : Mark} {ts after : List Token}
    (h : expectMark stop m ts = .ok after) : ∃ p, ts = ⟨.mark m, p⟩ :: after := by
  unfold expectMark at h
  split at h
  · rename_i t rest
    split at h
    · rename_i ht
      cases h
      exact ⟨t.position, by rw [← ht]⟩
    · exact absurd h fault_ne_ok
  · exact absurd h fault_ne_ok

/-- The parentheses of a header are those around its parameters. -/
theorem wellBracketed_of_header {stop : Position} {ts : List Token} {head : Header Position}
    (h : header stop ts = .ok head) : WellBracketed ts := by
  match ts with
  | [] => exact absurd h fault_ne_ok
  | ⟨form, p⟩ :: rest =>
    cases form with
    | name text =>
      rw [header_eq_of_name] at h
      obtain ⟨inside, ho, h⟩ := bind_eq_ok.mp h
      obtain ⟨⟨ps, behind⟩, hps, h⟩ := bind_eq_ok.mp h
      obtain ⟨after, hc, h⟩ := bind_eq_ok.mp h
      obtain ⟨⟨result, last⟩, ht, h⟩ := bind_eq_ok.mp h
      obtain ⟨_, hend, -⟩ := bind_eq_ok.mp h
      obtain ⟨opener, rfl⟩ := expectMark_eq_ok ho
      obtain ⟨closer, rfl⟩ := expectMark_eq_ok hc
      obtain ⟨typing, rfl, htyping⟩ := resultType?_eq_ok ht
      obtain rfl := expectEnd_eq_ok.mp hend
      obtain ⟨written, rfl, hplain⟩ := parametersOrNone_eq_ok hps
      rw [List.append_nil]
      exact .plain rfl (.pair rfl (.of_forall hplain) rfl (.of_forall htyping))
    | _ => exact absurd h fault_ne_ok

theorem wellBracketed_of_line {stop : Position} {r s : Reading} {ts : List Token}
    (h : r.line stop ts = .ok s) : WellBracketed ts := by
  induction ts generalizing r with
  | nil => exact .nil
  | cons t rest ih =>
    obtain ⟨form, p⟩ := t
    cases form with
    | keyword k =>
      refine .plain rfl ?_
      cases k with
      | ifWord | whileWord =>
        obtain ⟨e, he, -⟩ := bind_eq_ok.mp h
        exact wellBracketed_of_expression he
      | functionWord =>
        obtain ⟨head, hh, -⟩ := bind_eq_ok.mp h
        exact wellBracketed_of_header hh
      | declareWord =>
        simp only [Reading.line] at h
        split at h
        · obtain ⟨head, hh, -⟩ := bind_eq_ok.mp h
          exact .plain rfl (wellBracketed_of_header hh)
        · exact absurd h fault_ne_ok
      | returnWord =>
        simp only [Reading.line] at h
        split at h
        · exact .nil
        · obtain ⟨e, he, -⟩ := bind_eq_ok.mp h
          exact wellBracketed_of_expression he
      | elseWord =>
        simp only [Reading.line] at h
        split at h
        · exact ih h
        · exact absurd h fault_ne_ok
      | endWord =>
        simp only [Reading.line] at h
        split at h
        · obtain ⟨_, hend, -⟩ := bind_eq_ok.mp h
          rw [expectEnd_eq_ok.mp hend]
          exact .nil
        · exact absurd h fault_ne_ok
      | unknown word => exact absurd h fault_ne_ok
    | _ =>
      obtain ⟨e, he, -⟩ := bind_eq_ok.mp h
      exact wellBracketed_of_expression he

theorem wellBracketed_of_lines {r s : Reading} {ls : List TokenLine} (h : r.lines ls = .ok s) :
    ∀ l ∈ ls, WellBracketed l.tokens := by
  induction ls generalizing r with
  | nil => nofun
  | cons l ls ih =>
    obtain ⟨r', hr, h⟩ := bind_eq_ok.mp h
    exact List.forall_mem_cons.mpr ⟨wellBracketed_of_line hr, ih h⟩

theorem wellBracketed_of_program {ts : List Token} {p : Program Position}
    (h : program ts = .ok p) : ∀ l ∈ TokenLine.ofTokens ts, WellBracketed l.tokens := by
  obtain ⟨r, hr, -⟩ := bind_eq_ok.mp h
  exact wellBracketed_of_lines hr

/-- Tokens that are read as an expression are well bracketed. Tokens that are not, be it for a
bracket too few or too many or for two pairs that cross, are refused with a fault of the parser, and
so is every program with such a line. -/
theorem brackets_nested (ts : List Token) (stop : Position) :
    (∀ e, expression stop ts = .ok e → WellBracketed ts) ∧
      (¬ WellBracketed ts → ∃ f, expression stop ts = .error f ∧ f.isA .parse = true) ∧
      ∀ l ∈ TokenLine.ofTokens ts, ¬ WellBracketed l.tokens →
        ∃ f, program ts = .error f ∧ f.isA .parse = true := by
  refine ⟨fun e he => wellBracketed_of_expression he, fun hn => ?_, fun l hl hn => ?_⟩
  · cases h : expression stop ts with
    | ok e => exact absurd (wellBracketed_of_expression h) hn
    | error f => exact ⟨f, rfl, Fault.isA_of_isPlaced (fails_expression stop ts f h)⟩
  · cases h : program ts with
    | ok p => exact absurd (wellBracketed_of_program h l hl) hn
    | error f => exact ⟨f, rfl, fails_program ts f h⟩

/-- Groups and calls in arrays, and arrays in calls. -/
def bracketedLine : String := "x <- f([(1), g(2)], (y[0]), [[], [3]])"

/-- Pairs that cross at several depths, and brackets that are missing or too many. -/
def crossedLines : List String :=
  ["([1)]", "f([2, (3])", "[1), (2]", "[(1, [2)]]", "((4)", "5)", "[6", "7]]"]

theorem bracketedLine_nested :
    (∃ ts, Accepted 1 bracketedLine.toList ts ∧ WellBracketed ts) ∧
      crossedLines.Forall fun text => ∃ ts f, Token.ofLines [text] = .ok ts ∧
        program ts = .error f ∧ f.isA .parse = true := by
  constructor
  · obtain ⟨ts, hts, -⟩ := accepted_of_any bracketedLine (fun _ => true) (by decide +kernel)
    obtain ⟨line, stop, e, hl, hs, he⟩ := hts
    exact ⟨ts, ⟨line, stop, e, hl, hs, he⟩, (brackets_nested ts stop).1 e he⟩
  · refine List.forall_iff_forall_mem.mpr fun text ht => ?_
    have hany : ((Token.ofLines [text]).toOption.any fun ts =>
        (TokenLine.ofTokens ts).any fun l => !decide (WellBracketed l.tokens)) = true := by
      revert text
      decide +kernel
    obtain ⟨ts, hts, hl⟩ := (Option.any_eq_true ..).mp hany
    obtain ⟨l, hl, hn⟩ := List.any_eq_true.mp hl
    obtain ⟨f, hf, hk⟩ := (brackets_nested ts ⟨1, 1⟩).2.2 l hl (by simpa using hn)
    exact ⟨ts, f, eq_ok_of_toOption hts, hf, hk⟩

end Grammar
end AlgoFrontEnd
