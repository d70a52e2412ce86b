import AlgoFrontEnd.Proofs.Grammar.Brackets
import AlgoFrontEnd.Proofs.Grammar.Pairs
import AlgoFrontEnd.Proofs.Token.Contexts

/-! Commas and call arguments. Main statement: the pairs of parentheses of every line that is
accepted can be counted on its tokens. -/
namespace AlgoFrontEnd.Grammar
open Token (Form Opens)

/-! ### Stacks -/

/-- How many values more an operator takes than it makes. -/
def Pending.owes : Pending → Int
  | .connective _ _ => 1
  | _ => 0

/-- The values held and the count of the newest segment, pair by pair. The values held are those
before the pair, those of its ended segments, those counted, and those that operators still take. -/
inductive Agree : Int → List Item → List Pending → Int → List Opened → List Opened → Prop
  | line {k below n} : k = n → Agree k below [] n [] []
  | operator {k h below top p pending n os cs} : top.precedence? = some p → k = h + top.owes →
      Agree h below pending n os cs → Agree k below (top :: pending) n os cs
  | group {k h below p pending n m ended os cs} : k = h + ended.sum + n →
      (∀ text o rest, pending ≠ .call text o :: rest) → Agree h below pending m os cs →
      Agree k below (.paren p :: pending) n (⟨false, h, ended⟩ :: os) (⟨false, m, ended⟩ :: cs)
  | call {k output p text o pending n m ended os cs} : k = ended.sum + n →
      Agree (held output) (Yard.arguments output).2 pending m os cs →
      Agree k output (.paren p :: .call text o :: pending) n (⟨true, 0, ended⟩ :: os)
        (⟨true, m, ended⟩ :: cs)

theorem Opened.gain_eq {o : Opened} {k n : Int} (h : k = o.before + o.ended.sum + n) :
    o.gain k = n := by
  rw [Opened.gain]
  omega

theorem Opened.sum_close (o : Opened) (k : Int) :
    (o.close (o.gain k)).segments.sum = k - o.before := by
  simp only [Opened.close, Opened.gain, List.sum_reverse, List.sum_cons]
  omega

namespace Agree
variable {k n : Int} {below : List Item} {p : Position} {pending : List Pending}
  {os cs : List Opened}

theorem add (h : Agree k below pending n os cs) (d : Int) :
    Agree (k + d) below pending (n + d) os cs := by
  induction h with
  | line hk => exact .line (congrArg (· + d) hk)
  | operator ht hk _ ih => exact .operator ht (by omega) ih
  | group hk hc h _ => exact .group (by omega) hc h
  | call hk h _ => exact .call (by omega) h

theorem apply {top : Pending} {precedence : Nat} (ht : top.precedence? = some precedence)
    (h : Agree k below (top :: pending) n os cs) : Agree (k - top.owes) below pending n os cs := by
  cases h with
  | operator _ hk h => rwa [hk, Int.add_sub_cancel]
  | group => cases ht
  | call => cases ht

/-- A comma ends a segment that gains what it counts. -/
theorem comma (h : Agree k below (.paren p :: pending) n os cs) :
    ∃ o os' c cs', os = o :: os' ∧ cs = c :: cs' ∧
      Agree k below (.paren p :: pending) 0 (o.comma (o.gain k) :: os') (c.comma n :: cs') := by
  cases h with
  | operator ht => cases ht
  | group hk hc h =>
    refine ⟨_, _, _, _, rfl, rfl, ?_⟩
    rw [Opened.gain_eq hk]
    apply Agree.group _ hc h
    simp only [List.sum_cons]
    omega
  | call hk h =>
    refine ⟨_, _, _, _, rfl, rfl, ?_⟩
    rw [Opened.gain_eq (by simpa using hk)]
    apply Agree.call _ h
    simp only [List.sum_cons]
    omega

/-- A pair that is not a call's leaves its values to what stands around it. -/
theorem closeGroup (h : Agree k below (.paren p :: pending) n os cs)
    (hc : ∀ text o rest, pending ≠ .call text o :: rest) :
    ∃ o os' c cs', os = o :: os' ∧ cs = c :: cs' ∧ o.close (o.gain k) = c.close n ∧
      Agree k below pending (c.after n) os' cs' := by
  cases h with
  | operator ht => cases ht
  | group hk _ h =>
    refine ⟨_, _, _, _, rfl, rfl, ?_, ?_⟩
    · rw [Opened.gain_eq hk]
      rfl
    · rw [hk, Int.add_assoc, Int.add_comm _ n]
      exact h.add _
  | call => exact absurd rfl (hc _ _ _)

/-- The pair of a call leaves one value. -/
theorem closeCall {text : String} {o : Position}
    (h : Agree k below (.paren p :: .call text o :: pending) n os cs) :
    ∃ o os' c cs', os = o :: os' ∧ cs = c :: cs' ∧ o.close (o.gain k) = c.close n ∧
      Agree (held below + 1) (Yard.arguments below).2 pending (c.after n) os' cs' := by
  cases h with
  | operator ht => cases ht
  | group _ hc => exact absurd rfl (hc _ _ _)
  | call hk h =>
    refine ⟨_, _, _, _, rfl, rfl, ?_, h.add 1⟩
    rw [Opened.gain_eq (by simpa using hk)]
    rfl

theorem before_eq {o : Opened} (h : Agree k below pending n (o :: os) cs)
    (hc : o.isCall = true) : o.before = 0 := by
  generalize hos : o :: os = opened at h
  induction h with
  | line => cases hos
  | operator _ _ _ ih => exact ih hos
  | group =>
    cases hos
    cases hc
  | call =>
    cases hos
    rfl

theorem isEmpty_eq (h : Agree k below pending n os cs) : os.isEmpty = cs.isEmpty := by
  induction h with
  | line => rfl
  | operator _ _ _ ih => exact ih
  | group => rfl
  | call => rfl

end Agree

theorem held_value (e : Expr Position) (output : List Item) :
    held (.value e :: output) = held output + 1 := by
  simp [held, Yard.arguments]

theorem below_value (e : Expr Position) (output : List Item) :
    (Yard.arguments (.value e :: output)).2 = (Yard.arguments output).2 := rfl

/-- What an operator takes are values above the newest call mark. -/
theorem held_reduce {output output' : List Item} {top : Pending} {p : Nat}
    (ht : top.precedence? = some p) (h : Yard.reduce output top = .ok output') :
    held output = held output' + top.owes ∧
      (Yard.arguments output).2 = (Yard.arguments output').2 := by
  cases top with
  | paren _ => cases ht
  | call _ _ => cases ht
  | sign s position =>
    simp only [Yard.reduce] at h
    split at h
    · cases h
      simp [held_value, below_value, Pending.owes]
    · exact absurd h fault_ne_ok
  | connective c position =>
    simp only [Yard.reduce] at h
    split at h
    · split at h
      · cases h
        simp [held_value, below_value, Pending.owes]
      · cases h
        simp [held_value, below_value, Pending.owes]
      · exact absurd h fault_ne_ok
    · exact absurd h fault_ne_ok

/-- The stacks of a yard against a count. -/
def Yard.Counts (y : Yard) (n : Int) (os cs : List Opened) : Prop :=
  Agree (held y.output) (arguments y.output).2 y.pending n os cs

/-- Where a name without a type has just been read, it is the newest value. -/
def Yard.IsBehind (y : Yard) (b : Bool) : Prop :=
  b = true → ∃ p text rest, y.output = .value (.place (.whole p text none)) :: rest

theorem Yard.isBehind_false (y : Yard) : y.IsBehind false :=
  fun h => absurd h Bool.false_ne_true

theorem Yard.isBehind_name (y : Yard) (p : Position) (text : String) (type : Option TypeRef) :
    (y.push (.place (.whole p text type))).IsBehind type.isNone := by
  intro h
  rw [Option.isNone_iff_eq_none.mp h]
  exact ⟨p, text, y.output, rfl⟩

section
variable {y z : Yard} {n : Int} {os cs : List Opened}

theorem Yard.counts_empty : Yard.empty.Counts 0 [] [] := .line rfl

theorem Yard.Counts.push (h : y.Counts n os cs) (e : Expr Position) :
    (y.push e).Counts (n + 1) os cs := by
  rw [Yard.Counts, Yard.push, held_value, below_value]
  exact Agree.add h 1

theorem counts_reduce {output output' : List Item} {top : Pending} {pending : List Pending}
    {p : Nat} (ht : top.precedence? = some p) (hr : Yard.reduce output top = .ok output')
    (h : Yard.Counts ⟨output, top :: pending⟩ n os cs) :
    Yard.Counts ⟨output', pending⟩ n os cs := by
  obtain ⟨hheld, hbelow⟩ := held_reduce ht hr
  have hagree := Agree.apply ht h
  rwa [hheld, Int.add_sub_cancel, hbelow] at hagree

theorem counts_reduceWhile {yields : Nat → Bool} {output : List Item} {pending : List Pending}
    (h : Yard.Counts ⟨output, pending⟩ n os cs)
    (hr : Yard.reduceWhile yields output pending = .ok z) : z.Counts n os cs := by
  induction pending generalizing output with
  | nil =>
    cases hr
    exact h
  | cons top pending ih =>
    rw [Yard.reduceWhile] at hr
    split at hr
    · rename_i p hp
      split at hr
      · obtain ⟨output', ho, hr⟩ := bind_eq_ok.mp hr
        exact ih (counts_reduce hp ho h) hr
      · cases hr
        exact h
    · cases hr
      exact h

theorem separate_eq_ok {t : Token} (h : y.separate t = .ok z) :
    y.settle = .ok z ∧ ∃ p pending, z.pending = .paren p :: pending := by
  obtain ⟨settled, hs, h⟩ := bind_eq_ok.mp h
  split at h
  · rename_i p pending hp
    cases h
    exact ⟨hs, p, pending, hp⟩
  · exact absurd h fault_ne_ok

/-- A closing parenthesis ends a call or another pair. -/
theorem close_eq_ok {t : Token} (h : y.close t = .ok z) :
    ∃ output p,
      (∃ text o pending, y.settle = .ok ⟨output, .paren p :: .call text o :: pending⟩ ∧
        z = ⟨.value (.call o text (Yard.arguments output).1) :: (Yard.arguments output).2,
          pending⟩) ∨
      (y.settle = .ok ⟨output, .paren p :: z.pending⟩ ∧ z.output = output ∧
        ∀ text o rest, z.pending ≠ .call text o :: rest) := by
  obtain ⟨⟨output, pending⟩, hs, h⟩ := bind_eq_ok.mp h
  simp only at h
  split at h
  · cases h
    exact ⟨output, _, .inl ⟨_, _, _, hs, rfl⟩⟩
  · rename_i hn
    cases h
    exact ⟨output, _, .inr ⟨hs, rfl, hn⟩⟩
  · exact absurd h fault_ne_ok

/-- A call takes as many arguments as its segments contribute. -/
theorem Yard.Counts.sum_segments {o : Opened} (h : y.Counts n (o :: os) cs)
    (hc : o.isCall = true) (output : List Item) :
    (o.close (o.gain (held output))).segments.sum = (Yard.arguments output).1.length := by
  rw [Opened.sum_close, Agree.before_eq h hc, Int.sub_zero]
  rfl

/-! ### Steps of a line -/

namespace Yard.Counts

theorem connective {c : Connective} {p : Position} (h : y.Counts n os cs)
    (hp : y.pushOperator (.connective c p) = .ok z) : z.Counts (n - 1) os cs := by
  obtain ⟨w, hw, hz⟩ := bind_eq_ok.mp hp
  cases hz
  rw [Int.sub_eq_add_neg]
  apply Agree.operator rfl (Int.neg_add_cancel_right _ 1).symm
  exact Agree.add (counts_reduceWhile h hw) (-1)

theorem sign {s : Sign} {p : Position} (h : y.Counts n os cs)
    (hp : y.pushOperator (.sign s p) = .ok z) : z.Counts n os cs := by
  obtain ⟨w, hw, hz⟩ := bind_eq_ok.mp hp
  cases hz
  apply Agree.operator rfl (Int.add_zero _).symm
  exact counts_reduceWhile h hw

/-- No call waits for its parenthesis. -/
theorem ne_call (h : y.Counts n os cs) (text : String) (o : Position) (rest : List Pending) :
    y.pending ≠ .call text o :: rest := by
  intro hp
  rw [Yard.Counts, hp] at h
  cases h with
  | operator ht => cases ht

theorem openParen (h : y.Counts n os cs) (p : Position) :
    Yard.Counts ⟨y.output, .paren p :: y.pending⟩ 0 (⟨false, held y.output, []⟩ :: os)
      (⟨false, n, []⟩ :: cs) :=
  Agree.group (by simp) h.ne_call h

theorem call (h : y.Counts n os cs) (text : String) (o p : Position) :
    Yard.Counts ⟨.callMark :: y.output, .paren p :: .call text o :: y.pending⟩ 0
      (⟨true, 0, []⟩ :: os) (⟨true, n, []⟩ :: cs) :=
  Agree.call rfl h

theorem comma {t : Token} (h : y.Counts n os cs) (hs : y.separate t = .ok z) :
    ∃ o os' c cs', os = o :: os' ∧ cs = c :: cs' ∧
      z.Counts 0 (o.comma (o.gain (held z.output)) :: os') (c.comma n :: cs') := by
  obtain ⟨hs, p, pending, hp⟩ := separate_eq_ok hs
  replace h := counts_reduceWhile h hs
  rw [Yard.Counts, hp] at h
  simp only [Yard.Counts, hp]
  exact h.comma

theorem closeParen {t : Token} (h : y.Counts n os cs) (hc : y.close t = .ok z) :
    ∃ settled o os' c cs', y.settle = .ok settled ∧ os = o :: os' ∧ cs = c :: cs' ∧
      o.close (o.gain (held settled.output)) = c.close n ∧ z.Counts (c.after n) os' cs' := by
  obtain ⟨output, p, ⟨text, o, pending, hs, rfl⟩ | ⟨hs, rfl, hn⟩⟩ := close_eq_ok hc
  · obtain ⟨o, os', c, cs', hos, hcs, he, hz⟩ := Agree.closeCall (counts_reduceWhile h hs)
    refine ⟨_, o, os', c, cs', hs, hos, hcs, he, ?_⟩
    rwa [Yard.Counts, held_value, below_value]
  · obtain ⟨o, os', c, cs', hos, hcs, he, hz⟩ := Agree.closeGroup (counts_reduceWhile h hs) hn
    exact ⟨_, o, os', c, cs', hs, hos, hcs, he, hz⟩

/-- A single integer behind a name takes the place of the name; everything else is one value
more. -/
theorem takeBrackets {b : Bool} {opener : Position} {parts : List (List Token)}
    {elements : List (Expr Position)} (h : y.Counts n os cs) (hb : y.IsBehind b)
    (hr : runParts opener parts = .ok elements) :
    (y.takeBrackets opener b elements).Counts
      (if b && (offset? opener parts).isSome then n else n + 1) os cs := by
  obtain ⟨output, pending⟩ := y
  unfold Yard.takeBrackets
  split
  · rename_i ho
    simp only at ho
    subst ho
    simpa [offset?, hr, Yard.Counts, held_value, below_value] using h
  · rename_i hn
    rw [if_neg]
    · exact h.push _
    · intro hindex
      obtain ⟨rfl, ho⟩ := Bool.and_eq_true_iff.mp hindex
      obtain ⟨p, text, rest, hy⟩ := hb rfl
      simp only [offset?, hr] at ho
      split at ho
      · rename_i he
        cases he
        exact hn _ _ _ _ _ rfl rfl hy
      · cases ho

/-- Behind the last token of a line nothing is open. -/
theorem finish {start : Position} {e : Expr Position} (h : y.Counts n os cs)
    (hf : y.finish start = .ok e) : os = [] := by
  obtain ⟨settled, hs, hf⟩ := bind_eq_ok.mp hf
  replace h := counts_reduceWhile h hs
  split at hf
  · exact absurd hf fault_ne_ok
  · rename_i hp _
    rw [Yard.Counts, hp] at h
    cases h
    rfl
  · exact absurd hf fault_ne_ok

end Yard.Counts

end

/-! ### Steps of the count -/

section
variable {b : Bool} {n : Int} {os : List Opened} {rest : List Token}

theorem tally_nil : tally b n os [] = if os.isEmpty then some [] else none := by
  rw [tally]

theorem tally_name (text : String) (p : Position) :
    tally b n os (⟨.name text, p⟩ :: rest) = tally true (n + 1) os rest := by
  rw [tally]

theorem tally_brackets {opener : Position} {inside after : List Token}
    {parts : List (List Token)} (hc : closing? 0 rest = some (inside, after))
    (hp : elementParts opener inside = .ok parts) :
    tally b n os (⟨.mark .openBracket, opener⟩ :: rest) = (do
      let ps ← tallyParts parts
      let n := if b && (offset? opener parts).isSome then n else n + 1
      return ps ++ (← tally false n os after)) := by
  rw [tally]
  split
  · simp_all
  · rename_i hc'
    rw [hc] at hc'
    cases hc'
    split
    · simp_all
    · rename_i hp'
      rw [hp] at hp'
      cases hp'
      rfl

theorem tally_connective (c : Connective) (p : Position) :
    tally b n os (⟨.connective c, p⟩ :: rest) = tally false (n - 1) os rest := by
  rw [tally]

theorem tally_sign (s : Sign) (p : Position) :
    tally b n os (⟨.sign s, p⟩ :: rest) = tally false n os rest := by
  rw [tally]

theorem tally_call (text : String) (o p : Position) :
    tally b n os (⟨.call text, o⟩ :: ⟨.mark .openParen, p⟩ :: rest) =
      tally false 0 (⟨true, n, []⟩ :: os) rest := by
  rw [tally]

theorem tally_openParen (p : Position) :
    tally b n os (⟨.mark .openParen, p⟩ :: rest) = tally false 0 (⟨false, n, []⟩ :: os) rest := by
  rw [tally]

theorem tally_comma (o : Opened) (p : Position) :
    tally b n (o :: os) (⟨.mark .comma, p⟩ :: rest) = tally false 0 (o.comma n :: os) rest := by
  rw [tally]

theorem tally_closeParen (o : Opened) (p : Position) :
    tally b n (o :: os) (⟨.mark .closeParen, p⟩ :: rest) =
      (tally false (o.after n) os rest).map (o.close n :: ·) := by
  rw [tally]

theorem tally_literal {t : Token} {v : Expr Position} (h : literal? t = some v) :
    tally b n os (t :: rest) = tally false (n + 1) os rest := by
  obtain ⟨form, p⟩ := t
  cases form with
  | int _ | float _ | bool _ | string _ => rw [tally] <;> simp [literal?]
  | _ => simp [literal?] at h

/-- A type behind a name is passed over. -/
theorem tally_typing {after : List Token} {type : Option TypeRef}
    (h : typing? rest = .ok (type, after)) :
    tally true n os rest = tally type.isNone n os after := by
  unfold typing? at h
  split at h
  · cases h
    rw [tally]
    rfl
  · cases h
    rw [tally]
    rfl
  · exact absurd h fault_ne_ok
  · cases h
    rfl

end

/-! ### Lines -/

mutual
/-- The tokens of a line count what is gained while it is read. -/
theorem tally_of_gains : ∀ {b : Bool} {y : Yard} {os : List Opened} {ts : List Token}
    {ps : List Pair}, Gains b y os ts ps → ∀ {n : Int} {cs : List Opened}, y.IsBehind b →
      y.Counts n os cs → tally b n cs ts = some ps
  | _, _, _, _, _, .nil, _, _, _, h => by
    rw [tally_nil, ← Agree.isEmpty_eq h]
    rfl
  | _, _, _, _, _, .literal hv hg, _, _, _, h => by
    rw [tally_literal hv]
    exact tally_of_gains hg (Yard.isBehind_false _) (h.push _)
  | _, _, _, _, _, .freeName hp ht hg, _, _, _, h => by
    rw [tally_name, tally_typing ht]
    exact tally_of_gains hg (Yard.isBehind_name _ _ _ _) (h.push _)
  | _, _, _, _, _, .name hp hg, _, _, _, h => by
    rw [tally_name]
    exact tally_of_gains hg (Yard.isBehind_name _ _ _ _) (h.push _)
  | _, _, _, _, _, .brackets hc hp hr hgs hg, _, _, hb, h => by
    rw [tally_brackets hc hp, tallyParts_of_gains hgs]
    have hafter := tally_of_gains hg (Yard.isBehind_false _) (h.takeBrackets hb hr)
    exact congrArg (· >>= fun qs => some (_ ++ qs)) hafter
  | _, _, _, _, _, .connective hp hg, _, _, _, h => by
    rw [tally_connective]
    exact tally_of_gains hg (Yard.isBehind_false _) (h.connective hp)
  | _, _, _, _, _, .sign hp hg, _, _, _, h => by
    rw [tally_sign]
    exact tally_of_gains hg (Yard.isBehind_false _) (h.sign hp)
  | _, _, _, _, _, .openParen hg, _, _, _, h => by
    rw [tally_openParen]
    exact tally_of_gains hg (Yard.isBehind_false _) (h.openParen _)
  | _, _, _, _, _, .call hg, _, _, _, h => by
    rw [tally_call]
    exact tally_of_gains hg (Yard.isBehind_false _) (h.call _ _ _)
  | _, _, _, _, _, .comma hs hg, _, _, _, h => by
    obtain ⟨o, os, c, cs, hos, rfl, h⟩ := h.comma hs
    cases hos
    rw [tally_comma]
    exact tally_of_gains hg (Yard.isBehind_false _) h
  | _, _, _, _, _, .closeParen hs hc hg, _, _, _, h => by
    obtain ⟨settled, o, os, c, cs, hs', hos, rfl, he, h⟩ := h.closeParen hc
    cases hos
    cases hs.symm.trans hs'
    rw [tally_closeParen, tally_of_gains hg (Yard.isBehind_false _) h, he]
    rfl

theorem tallyParts_of_gains : ∀ {parts : List (List Token)} {ps : List Pair},
    GainsAll parts ps → tallyParts parts = some ps
  | _, _, .nil => by rw [tallyParts]
  | _, _, .cons hg hgs => by
    rw [tallyParts, tally_of_gains hg (Yard.isBehind_false _) Yard.counts_empty,
      tallyParts_of_gains hgs]
    rfl
end

mutual
/-- A line that is accepted is read to its end, and all its pairs are closed. -/
theorem gains_of_run {b : Bool} {y z : Yard} {n : Int} {os cs : List Opened} {start : Position}
    {e : Expr Position} (hz : z.finish start = .ok e) (hb : y.IsBehind b)
    (hy : y.Counts n os cs) : ∀ {ts : List Token}, run b y ts = .ok z → ts.IsChain Opens →
      ∃ ps, Gains b y os ts ps
  | [], h, _ => by
    rw [run_nil] at h
    cases h
    obtain rfl := hy.finish hz
    exact ⟨[], .nil⟩
  | t :: rest, h, hts => by
    have hrest : rest.IsChain Opens := hts.tail
    cases hl : literal? t with
    | some v =>
      rw [run_literal hl] at h
      obtain ⟨ps, hps⟩ := gains_of_run hz (Yard.isBehind_false _) (hy.push v) h hrest
      exact ⟨ps, .literal hl hps⟩
    | none =>
      obtain ⟨form, p⟩ := t
      cases form with
      | name text =>
        by_cases hp : y.pending = []
        · obtain ⟨type, after, ht, h⟩ := typing?_of_run hp h
          have hlen := length_of_typing? ht
          have hafter : after.IsChain Opens := by
            obtain ⟨typing, rfl, -⟩ := typing?_eq_ok ht
            exact Token.isChain_of_isInfix hrest (List.suffix_append ..).isInfix
          obtain ⟨ps, hps⟩ := gains_of_run hz (y.isBehind_name _ _ _) (hy.push _) h hafter
          exact ⟨ps, .freeName hp ht hps⟩
        · rw [run_name_pending b hp] at h
          obtain ⟨ps, hps⟩ := gains_of_run hz (y.isBehind_name p text none) (hy.push _) h hrest
          exact ⟨ps, .name hp hps⟩
      | connective c =>
        obtain ⟨y', hy', h⟩ := take_of_run (by simp) (by simp) h
        obtain ⟨ps, hps⟩ := gains_of_run hz (Yard.isBehind_false _) (hy.connective hy') h hrest
        exact ⟨ps, .connective hy' hps⟩
      | sign s =>
        obtain ⟨y', hy', h⟩ := take_of_run (by simp) (by simp) h
        obtain ⟨ps, hps⟩ := gains_of_run hz (Yard.isBehind_false _) (hy.sign hy') h hrest
        exact ⟨ps, .sign hy' hps⟩
      | call text =>
        rw [run_call] at h
        cases rest with
        | nil =>
          rw [run_nil] at h
          cases h
          exact absurd hz fault_ne_ok
        | cons next rest =>
          obtain ⟨form, q⟩ := next
          obtain rfl := hts.rel text rfl
          rw [run_openParen] at h
          have hmore : rest.IsChain Opens := hrest.tail
          obtain ⟨ps, hps⟩ := gains_of_run hz (Yard.isBehind_false _) (hy.call text p q) h hmore
          exact ⟨ps, .call hps⟩
      | mark m =>
        cases m with
        | openParen =>
          rw [run_openParen] at h
          obtain ⟨ps, hps⟩ := gains_of_run hz (Yard.isBehind_false _) (hy.openParen p) h hrest
          exact ⟨ps, .openParen hps⟩
        | closeParen =>
          obtain ⟨y', hy', h⟩ := take_of_run (by simp) (by simp) h
          obtain ⟨settled, o, os, c, cs, hs, rfl, rfl, -, hc⟩ := hy.closeParen hy'
          obtain ⟨ps, hps⟩ := gains_of_run hz (Yard.isBehind_false _) hc h hrest
          exact ⟨_, .closeParen hs hy' hps⟩
        | comma =>
          obtain ⟨y', hy', h⟩ := take_of_run (by simp) (by simp) h
          obtain ⟨o, os, c, cs, rfl, rfl, hc⟩ := hy.comma hy'
          obtain ⟨ps, hps⟩ := gains_of_run hz (Yard.isBehind_false _) hc h hrest
          exact ⟨ps, .comma hy' hps⟩
        | openBracket =>
          obtain ⟨inside, after, parts, elements, hc, hp, he, h⟩ := brackets_of_run h
          have hlen := length_of_closing? hc
          have hweight := weight_of_elementParts hp
          obtain ⟨hinside, hafter⟩ := isInfix_of_closing? hc
          obtain ⟨ps, hps⟩ := gainsAll_of_runParts he fun part hpart =>
            Token.isChain_of_isInfix hrest ((isInfix_of_elementParts hp hpart).trans hinside)
          obtain ⟨qs, hqs⟩ := gains_of_run hz (Yard.isBehind_false _) (hy.takeBrackets hb he) h
            (Token.isChain_of_isInfix hrest hafter)
          exact ⟨ps ++ qs, .brackets hc hp he hps hqs⟩
        | closeBracket | colon =>
          obtain ⟨y', hy', -⟩ := take_of_run (by simp) (by simp) h
          exact absurd hy' fault_ne_ok
      | int | float | bool | string => cases hl
      | _ =>
        obtain ⟨y', hy', -⟩ := take_of_run (by simp) (by simp) h
        exact absurd hy' fault_ne_ok
termination_by ts => ts.length

theorem gainsAll_of_runParts {opener : Position} : ∀ {parts : List (List Token)}
    {es : List (Expr Position)}, runParts opener parts = .ok es →
      (∀ part ∈ parts, part.IsChain Opens) → ∃ ps, GainsAll parts ps
  | [], _, _, _ => ⟨[], .nil⟩
  | part :: parts, _, h, hp => by
    obtain ⟨hpart, hparts⟩ := List.forall_mem_cons.mp hp
    rw [runParts] at h
    obtain ⟨y, hy, h⟩ := bind_eq_ok.mp h
    obtain ⟨e, he, h⟩ := bind_eq_ok.mp h
    obtain ⟨es, hes, -⟩ := bind_eq_ok.mp h
    obtain ⟨ps, hps⟩ := gains_of_run he (Yard.isBehind_false _) Yard.counts_empty hy hpart
    obtain ⟨qs, hqs⟩ := gainsAll_of_runParts hes hparts
    exact ⟨ps ++ qs, .cons hps hqs⟩
termination_by parts => weight parts
decreasing_by
  · simp only [weight]; omega
  · simp only [weight]; omega
end

/-- Tokens of a line that are accepted as an expression. -/
def Accepted (number : Int) (chars : List Char) (ts : List Token) : Prop :=
  ∃ line stop e, Token.ofLine number chars = .ok line ∧ ts <:+: line ∧ expression stop ts = .ok e

/-- The pairs of an expression can be counted on its tokens: every expression that is accepted has
pairs, and their segments contribute what they count. So its commas and call arguments are
disciplined exactly if all pairs that are counted are orderly. -/
theorem disciplined_iff_tally {number : Int} {chars : List Char} {ts : List Token}
    (h : Accepted number chars ts) :
    ∃ ps, Gains false .empty [] ts ps ∧ tally false 0 [] ts = some ps ∧
      (Disciplined ts ↔ ∀ p ∈ ps, p.IsOrderly) := by
  obtain ⟨line, stop, e, hl, hs, he⟩ := h
  have hts := Token.isChain_of_isInfix (Token.isChain_of_ofLine hl) hs
  have hread : ∃ y start, run false .empty ts = .ok y ∧ y.finish start = .ok e := by
    cases ts with
    | nil => exact absurd he fault_ne_ok
    | cons t ts =>
      obtain ⟨y, hy, hf⟩ := bind_eq_ok.mp he
      exact ⟨y, t.position, hy, hf⟩
  obtain ⟨y, start, hy, hf⟩ := hread
  obtain ⟨ps, hps⟩ := gains_of_run hf (Yard.isBehind_false _) Yard.counts_empty hy hts
  have htally := tally_of_gains hps (Yard.isBehind_false _) Yard.counts_empty
  refine ⟨ps, hps, htally, ?_, fun ho => ⟨ps, hps, ho⟩⟩
  -- The pairs of any other reading are those that are counted.
  rintro ⟨qs, hqs, ho⟩
  cases htally.symm.trans (tally_of_gains hqs (Yard.isBehind_false _) Yard.counts_empty)
  exact ho

/-- The tokens of a text up to the end of the line, if they are accepted. -/
def accepted? (text : String) : Option (List Token) := do
  let line ← (Token.ofLine 1 text.toList).toOption
  let _ ← (expression ⟨1, 1⟩ line.dropLast).toOption
  return line.dropLast

theorem accepted_of_any (text : String) (holds : List Token → Bool)
    (h : (accepted? text).any holds = true) :
    ∃ ts, Accepted 1 text.toList ts ∧ holds ts = true := by
  obtain ⟨ts, hts, hh⟩ := (Option.any_eq_true ..).mp h
  simp only [accepted?, Option.bind_eq_bind, Option.bind_eq_some_iff, Option.pure_def,
    Option.some.injEq] at hts
  obtain ⟨line, hl, e, he, rfl⟩ := hts
  exact ⟨_, ⟨line, _, e, eq_ok_of_toOption hl, line.dropLast_prefix.isInfix, eq_ok_of_toOption he⟩,
    hh⟩

/-- A comma with nothing behind it, one outside of calls, a pair with nothing in it, and a call
whose second segment takes its value from the first. -/
def looseLines : List String := ["f(1,)", "(1, 2) +", "() 1", "f(1, * 2)"]

theorem looseLines_undisciplined :
    looseLines.Forall fun text => ∃ ts, Accepted 1 text.toList ts ∧ ¬ Disciplined ts := by
  refine List.forall_iff_forall_mem.mpr fun text ht => ?_
  have hany : (accepted? text).any (fun ts =>
      (tally false 0 [] ts).any fun ps => ps.any fun p => !decide p.IsOrderly) = true := by
    revert text
    decide +kernel
  obtain ⟨ts, hts, hp⟩ := accepted_of_any text _ hany
  refine ⟨ts, hts, ?_⟩
  rintro ⟨ps, hps, ho⟩
  rw [tally_of_gains hps (Yard.isBehind_false _) Yard.counts_empty, Option.any_some,
    List.any_eq_true] at hp
  obtain ⟨p, hmem, hp⟩ := hp
  simp [ho p hmem] at hp

/-- Calls in a call and in an array, a group, and a sign. -/
def tidyLine : String := "x <- f(1, (y[0] + 2) * -g(), [g(3, 4)])"

theorem tidyLine_disciplined : ∃ ts, Accepted 1 tidyLine.toList ts ∧
    tally false 0 [] ts =
      some [⟨false, [1]⟩, ⟨true, [0]⟩, ⟨true, [1, 1]⟩, ⟨true, [1, 1, 1]⟩] ∧
    Disciplined ts := by
  obtain ⟨ts, hts, htally⟩ := accepted_of_any tidyLine (fun ts => tally false 0 [] ts =
    some [⟨false, [1]⟩, ⟨true, [0]⟩, ⟨true, [1, 1]⟩, ⟨true, [1, 1, 1]⟩]) (by decide +kernel)
  replace htally := of_decide_eq_true htally
  refine ⟨ts, hts, htally, ?_⟩
  obtain ⟨ps, -, hps, ho⟩ := disciplined_iff_tally hts
  cases htally.symm.trans hps
  exact ho.mpr (by decide)

end AlgoFrontEnd.Grammar
