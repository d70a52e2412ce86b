import AlgoFrontEnd.Proofs.Token.Contexts

/-! How a run of operator characters is taken apart. Main statement: into the longest operators, the
same ones whatever stands before the run. -/
namespace AlgoFrontEnd.Token

/-- The spellings of all operators. A sign is spelled like one of the connectives. -/
def spellings : List String :=
  Connective.all.map (·.spelling) ++ [Sign.positive, .negate].map (·.spelling)

/-- The longest of the spellings that characters begin with. -/
structure Longest (text : String) (cs : List Char) : Prop where
  mem : text ∈ spellings
  isPrefix : text.toList <+: cs
  longest : ∀ other ∈ spellings, other.toList <+: cs → other.length ≤ text.length

/-- Characters taken apart into spellings, each the longest that what is left begins with. -/
def Greedy : List Char → List String → Prop
  | cs, [] => cs = []
  | cs, text :: texts => ∃ rest, cs = text.toList ++ rest ∧ Longest text cs ∧ Greedy rest texts

/-- Tokens right behind one another from a column on. -/
def Consecutive (line : Int) : Nat → List Token → Prop
  | _, [] => True
  | column, t :: ts =>
    t.position = ⟨line, column⟩ ∧ Consecutive line (column + t.form.text.length) ts

def Form.IsSign (f : Form) : Prop := ∃ s, f = .sign s

def Form.IsConnective (f : Form) : Prop := ∃ c, f = .connective c

/-- The operators of a run that starts in a column: a plus or minus is a sign everywhere but at the
start of the run, and there if an operand is due. -/
structure RunOf (line : Int) (column : Nat) (operandDue : Bool) (run : List Char)
    (ts : List Token) : Prop where
  greedy : Greedy run (ts.map (·.form.text))
  consecutive : Consecutive line column ts
  operators : ∀ t ∈ ts, t.form.IsSign ∨ t.form.IsConnective
  first : ∀ t ∈ ts.head?,
    t.form.IsSign ↔ operandDue = true ∧ (t.form.text = "+" ∨ t.form.text = "-")
  later : ∀ t ∈ ts.tail, t.form.IsSign ↔ t.form.text = "+" ∨ t.form.text = "-"

/-- Tokens that differ at most in what kind of operator a leading plus or minus is. -/
def SameButLead (ts us : List Token) : Prop :=
  ts = us ∨ ∃ t u rest, ts = t :: rest ∧ us = u :: rest ∧ t.position = u.position ∧
    t.form.text = u.form.text ∧ (t.form.text = "+" ∨ t.form.text = "-")

/-! ### The longest operator -/

theorem longest_unique {text other : String} {cs : List Char} (h : Longest text cs)
    (h' : Longest other cs) : text = other := by
  have hlen : text.length = other.length :=
    Nat.le_antisymm (h'.longest text h.mem h.isPrefix) (h.longest other h'.mem h'.isPrefix)
  rw [← String.length_toList, ← String.length_toList] at hlen
  have := List.prefix_of_prefix_length_le h.isPrefix h'.isPrefix hlen.le
  exact String.toList_injective (this.eq_of_length hlen)

theorem mem_spellings (c : Connective) : c.spelling ∈ spellings := by
  cases c with
  | assign => decide
  | operate op => cases op <;> decide

/-- The spelling of a sign is that of a connective too. -/
theorem exists_connective {text : String} (h : text ∈ spellings) :
    ∃ c : Connective, c.spelling = text := by
  rcases List.mem_append.mp h with h | h
  · obtain ⟨c, -, hc⟩ := List.mem_map.mp h
    exact ⟨c, hc⟩
  · obtain ⟨s, -, rfl⟩ := List.mem_map.mp h
    cases s with
    | positive => exact ⟨.operate .add, rfl⟩
    | negate => exact ⟨.operate .subtract, rfl⟩

/-- Characters that begin with a connective are taken for one that is at least as long. -/
theorem exists_leadingConnective? (op : Connective) (rest : List Char) :
    ∃ c rest', leadingConnective? (op.spelling.toList ++ rest) = some (c, rest') ∧
      op.spelling.length ≤ c.spelling.length := by
  have one {c : Connective} (h : op.spelling.length = 1) :
      op.spelling.length ≤ c.spelling.length := by
    rw [h, ← String.length_toList]
    exact List.length_pos_iff.mpr (spelling_ne_nil c)
  cases op with
  | assign => exact ⟨_, _, rfl, le_rfl⟩
  | operate op =>
    cases op with
    | less =>
      show ∃ c rest', leadingConnective? ('<' :: rest) = some (c, rest') ∧ _
      unfold leadingConnective?
      split <;> first | exact ⟨_, _, rfl, one rfl⟩ | simp_all
    | greater =>
      show ∃ c rest', leadingConnective? ('>' :: rest) = some (c, rest') ∧ _
      unfold leadingConnective?
      split <;> first | exact ⟨_, _, rfl, one rfl⟩ | simp_all
    | _ => exact ⟨_, _, rfl, le_rfl⟩

theorem longest_of_leadingConnective? {cs rest : List Char} {c : Connective}
    (h : leadingConnective? cs = some (c, rest)) : Longest c.spelling cs := by
  refine ⟨mem_spellings c, ⟨rest, spelling_of_leadingConnective? h⟩, fun other ho hp => ?_⟩
  obtain ⟨op, rfl⟩ := exists_connective ho
  obtain ⟨more, rfl⟩ := hp
  obtain ⟨c', rest', hc', hle⟩ := exists_leadingConnective? op more
  rw [h] at hc'
  cases hc'
  exact hle

theorem ofSpelling?_spelling (c : Connective) : Connective.ofSpelling? c.spelling = some c := by
  cases c with
  | assign => rfl
  | operate op => cases op <;> rfl

theorem spelling_injective {c d : Connective} (h : c.spelling = d.spelling) : c = d := by
  have := ofSpelling?_spelling c
  rw [h, ofSpelling?_spelling d] at this
  exact (Option.some.inj this).symm

/-- The leading connective is the one with the longest spelling. -/
theorem leadingConnective?_append {c : Connective} {rest : List Char}
    (h : Longest c.spelling (c.spelling.toList ++ rest)) :
    leadingConnective? (c.spelling.toList ++ rest) = some (c, rest) := by
  obtain ⟨d, more, hd, -⟩ := exists_leadingConnective? c rest
  have hsame : d = c := spelling_injective (longest_unique (longest_of_leadingConnective? hd) h)
  subst hsame
  rw [hd, List.append_cancel_left (spelling_of_leadingConnective? hd)]

/-! ### Splitting -/

/-- The connective that is spelled like a sign. -/
def signConnective : Sign → Connective
  | .positive => .operate .add
  | .negate => .operate .subtract

theorem spelling_signConnective (s : Sign) : (signConnective s).spelling = s.spelling := by
  cases s <;> rfl

/-- No other connective begins like a sign. -/
theorem eq_signConnective {c : Connective} {s : Sign}
    (h : c.spelling.toList.head? = s.spelling.toList.head?) : c = signConnective s := by
  cases c with
  | assign => cases s <;> exact absurd h (by decide)
  | operate op => cases s <;> cases op <;> first | rfl | exact absurd h (by decide)

theorem spelling_sign (s : Sign) : s.spelling = "+" ∨ s.spelling = "-" := by
  cases s
  · exact .inl rfl
  · exact .inr rfl

theorem length_sign (s : Sign) : s.spelling.length = 1 := by
  cases s <;> rfl

theorem longest_sign (s : Sign) (rest : List Char) :
    Longest s.spelling (s.spelling.toList ++ rest) := by
  have hlead : leadingConnective? (s.spelling.toList ++ rest) = some (signConnective s, rest) := by
    cases s <;> rfl
  have := longest_of_leadingConnective? hlead
  rwa [spelling_signConnective] at this

section
variable {line : Int} {column : Nat} {operandDue : Bool}

theorem splitRun_sign (s : Sign) (rest : List Char) :
    splitRun line column true (s.spelling.toList ++ rest) =
      (⟨.sign s, ⟨line, column⟩⟩ :: ·) <$> splitRun line (column + 1) true rest := by
  obtain ⟨c, hc⟩ : ∃ c : Char, Sign.ofSpelling? c.toString = some s := by
    cases s
    · exact ⟨'+', rfl⟩
    · exact ⟨'-', rfl⟩
  rw [char_of_ofSpelling? hc, List.singleton_append, splitRun]
  simp only [if_true, hc]

/-- The longest connective is taken, unless a sign is due in its place. -/
theorem splitRun_connective {c : Connective} {rest : List Char}
    (h : Longest c.spelling (c.spelling.toList ++ rest))
    (hd : ¬ (operandDue = true ∧ (c.spelling = "+" ∨ c.spelling = "-"))) :
    splitRun line column operandDue (c.spelling.toList ++ rest) =
      (⟨.connective c, ⟨line, column⟩⟩ :: ·) <$>
        splitRun line (column + c.spelling.length) true rest := by
  have hlead := leadingConnective?_append h
  obtain ⟨x, more, hx⟩ := List.exists_cons_of_ne_nil (spelling_ne_nil c)
  have hsign : (if operandDue = true then Sign.ofSpelling? x.toString else none) = none := by
    split
    · refine Option.eq_none_iff_forall_ne_some.mpr fun s hs => hd ⟨‹_›, ?_⟩
      have : c = signConnective s := eq_signConnective (by rw [hx, char_of_ofSpelling? hs]; rfl)
      rw [this, spelling_signConnective]
      exact spelling_sign s
    · rfl
  rw [hx, List.cons_append] at hlead ⊢
  rw [splitRun]
  simp only [hsign]
  split
  · rename_i heq
    rw [hlead] at heq
    cases heq
    rfl
  · rename_i heq
    rw [hlead] at heq
    cases heq

theorem runOf_nil {run : List Char} : RunOf line column operandDue run [] ↔ run = [] := by
  constructor
  · intro h
    exact h.greedy
  · rintro rfl
    exact ⟨rfl, trivial, by simp, by simp, by simp⟩

/-- The first operator of a run, and the operators of what is left behind it. -/
theorem runOf_cons {run : List Char} {t : Token} {ts : List Token} :
    RunOf line column operandDue run (t :: ts) ↔
      ∃ rest, run = t.form.text.toList ++ rest ∧ Longest t.form.text run ∧
        t.position = ⟨line, column⟩ ∧ (t.form.IsSign ∨ t.form.IsConnective) ∧
        (t.form.IsSign ↔ operandDue = true ∧ (t.form.text = "+" ∨ t.form.text = "-")) ∧
        RunOf line (column + t.form.text.length) true rest ts := by
  constructor
  · intro h
    obtain ⟨rest, hr, hl, hg⟩ := h.greedy
    obtain ⟨hp, hc⟩ := h.consecutive
    obtain ⟨ho, hos⟩ := List.forall_mem_cons.mp h.operators
    have hlater := h.later
    rw [List.tail_cons] at hlater
    refine ⟨rest, hr, hl, hp, ho, h.first t rfl, hg, hc, hos, ?_, ?_⟩
    · exact fun u hu => by simpa using hlater u (List.mem_of_mem_head? hu)
    · exact fun u hu => hlater u (List.mem_of_mem_tail hu)
  · rintro ⟨rest, hr, hl, hp, ho, hf, h⟩
    refine ⟨⟨rest, hr, hl, h.greedy⟩, ⟨hp, h.consecutive⟩,
      List.forall_mem_cons.mpr ⟨ho, h.operators⟩, ?_, ?_⟩
    · rintro _ ⟨⟩
      exact hf
    · intro u hu
      cases ts with
      | nil => cases hu
      | cons v ts =>
        rcases List.mem_cons.mp hu with rfl | hu
        · simpa using h.first u rfl
        · exact h.later u hu

theorem runOf_of_splitRun {run : List Char} {ts : List Token}
    (h : splitRun line column operandDue run = some ts) : RunOf line column operandDue run ts := by
  fun_induction splitRun line column operandDue run generalizing ts with
  | case1 =>
    cases h
    exact runOf_nil.mpr rfl
  | case2 column due c rest s hs ih =>
    obtain ⟨ts, hts, rfl⟩ := Option.map_eq_some_iff.mp h
    obtain ⟨rfl, hs⟩ : due = true ∧ Sign.ofSpelling? c.toString = some s := by
      cases due with
      | true => exact ⟨rfl, hs⟩
      | false => cases hs
    have hrun : c :: rest = s.spelling.toList ++ rest := by
      rw [char_of_ofSpelling? hs, List.singleton_append]
    refine runOf_cons.mpr ⟨rest, hrun, hrun ▸ longest_sign s rest, rfl, .inl ⟨s, rfl⟩, ?_, ?_⟩
    · simp [Form.IsSign, Form.text, spelling_sign s]
    · rw [Form.text, length_sign]
      exact ih hts
  | case3 column due c rest hs op rest' hc ih =>
    obtain ⟨ts, hts, rfl⟩ := Option.map_eq_some_iff.mp h
    refine runOf_cons.mpr ⟨rest', (spelling_of_leadingConnective? hc).symm,
      longest_of_leadingConnective? hc, rfl, .inr ⟨op, rfl⟩, ?_, ih hts⟩
    -- a plus or minus would have been taken as a sign before
    have hnot : ¬ (due = true ∧ (op.spelling = "+" ∨ op.spelling = "-")) := by
      rintro ⟨rfl, hop⟩
      exact ofSpelling?_of_leadingConnective? hc hop hs
    simpa [Form.IsSign, Form.text] using hnot
  | case4 => cases h

/-- A run is split into exactly the tokens that are its operators. -/
theorem splitRun_eq_some_iff {run : List Char} {ts : List Token} :
    splitRun line column operandDue run = some ts ↔ RunOf line column operandDue run ts := by
  refine ⟨runOf_of_splitRun, fun h => ?_⟩
  induction ts generalizing column operandDue run with
  | nil =>
    obtain rfl := runOf_nil.mp h
    rw [splitRun]
  | cons t ts ih =>
    obtain ⟨form, position⟩ := t
    obtain ⟨rest, rfl, hl, rfl, ho, hf, hts⟩ := runOf_cons.mp h
    rcases ho with ⟨s, rfl⟩ | ⟨c, rfl⟩
    · obtain ⟨rfl, -⟩ := hf.mp ⟨s, rfl⟩
      rw [Form.text, length_sign] at hts
      rw [Form.text, splitRun_sign, ih hts]
      rfl
    · have hnot : ¬ (operandDue = true ∧ (c.spelling = "+" ∨ c.spelling = "-")) := by
        simpa [Form.IsSign, Form.text] using hf
      rw [Form.text] at hl hts ⊢
      rw [splitRun_connective hl hnot, ih hts]
      rfl

/-- A leading plus or minus is taken in any case, as a sign or as a connective. -/
theorem splitRun_lead (line : Int) (column : Nat) (due : Bool) (s : Sign) (rest : List Char) :
    ∃ form : Form, form.text = s.spelling ∧
      splitRun line column due (s.spelling.toList ++ rest) =
        (⟨form, ⟨line, column⟩⟩ :: ·) <$> splitRun line (column + 1) true rest := by
  cases due with
  | true => exact ⟨.sign s, rfl, splitRun_sign s rest⟩
  | false =>
    have h := longest_sign s rest
    rw [← spelling_signConnective] at h ⊢
    refine ⟨.connective (signConnective s), rfl, (splitRun_connective h (by simp)).trans ?_⟩
    rw [spelling_signConnective, length_sign]

/-- What stands before a run decides at most what kind of operator its first plus or minus is. -/
theorem splitRun_sameButLead (due due' : Bool) (run : List Char) :
    Option.Rel SameButLead (splitRun line column due run) (splitRun line column due' run) := by
  have same (x : Option (List Token)) : Option.Rel SameButLead x x := by
    cases x with
    | none => exact .none
    | some ts => exact .some (.inl rfl)
  cases run with
  | nil =>
    rw [splitRun, splitRun]
    exact same _
  | cons c rest =>
    cases hs : Sign.ofSpelling? c.toString with
    | none =>
      have h (d : Bool) : splitRun line column d (c :: rest) =
          splitRun line column false (c :: rest) := by
        cases d with
        | false => rfl
        | true =>
          rw [splitRun, splitRun]
          simp only [if_true, hs]
          rfl
      rw [h due, h due']
      exact same _
    | some s =>
      obtain ⟨form, hform, h⟩ := splitRun_lead line column due s rest
      obtain ⟨form', hform', h'⟩ := splitRun_lead line column due' s rest
      rw [char_of_ofSpelling? hs, List.singleton_append] at h h'
      rw [h, h']
      cases splitRun line (column + 1) true rest with
      | none => exact .none
      | some ts =>
        refine .some (.inr ⟨_, _, ts, rfl, rfl, rfl, hform.trans hform'.symm, ?_⟩)
        rw [hform]
        exact spelling_sign s

end

/-- A run of operators is split into the longest ones, as they are registered, and whether it can be
split and where does not depend on what stands before it. A run that cannot be split is refused as a
whole, at its first column. -/
theorem runs_split (line : Int) (column : Nat) (run : List Char) (previous : Option Form) :
    (∀ ts, splitRun line column (wantsOperand previous) run = some ts ↔
      RunOf line column (wantsOperand previous) run ts) ∧
    (∀ other, Option.Rel SameButLead (splitRun line column (wantsOperand previous) run)
      (splitRun line column (wantsOperand other) run)) ∧
    (splitRun line column (wantsOperand previous) run = none → ∀ later,
      ofPieces line previous (⟨column, .operators run⟩ :: later) =
        .error (.fault (.invalidOperator (String.ofList run)) column)) := by
  refine ⟨fun ts => splitRun_eq_some_iff, fun other => splitRun_sameButLead .., fun h later => ?_⟩
  rw [ofPieces, h]

/-- Behind a value the first two characters are an assignment, and the others are signs. -/
example : (splitRun 1 3 false "<--+".toList).map (List.map (·.form)) =
    some [.connective .assign, .sign .negate, .sign .positive] := by
  decide +kernel

end AlgoFrontEnd.Token
