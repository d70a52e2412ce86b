import AlgoFrontEnd.Proofs.Grammar.Brackets
import AlgoFrontEnd.Proofs.Grammar.Derivation
import AlgoFrontEnd.Proofs.Grammar.Steps

/-! A line that the infix grammar derives is read, and its tree is that of the derivation.
Operators may still wait when a phrase ends, so the stacks behind a phrase are compared with the
finished tree only under a reduction that reaches down to the level of the phrase. -/
namespace AlgoFrontEnd.Grammar
open Token (Form)

/-! Derived tokens are whole for brackets and commas. -/

theorem Spot.balanced {start : Bool} (s : Spot start) : Balanced s.tokens := by
  cases s with
  | plain => exact .cons .nil (by simp) (by simp)
  | typed text type position colon last =>
    have : ∀ m, typeForm type ≠ .mark m := by intro m; unfold typeForm; split <;> simp
    exact .cons (.cons (.cons .nil (this _) (this _)) (by simp) (by simp)) (by simp) (by simp)
  | element => exact .cons (.brackets (.cons .nil (by simp) (by simp)) _ _) (by simp) (by simp)

theorem Balanced.parens {ts : List Token} (h : Balanced ts) (opener closer : Position) :
    Balanced (⟨.mark .openParen, opener⟩ :: ts ++ [⟨.mark .closeParen, closer⟩]) :=
  .cons (.append h (.cons .nil (by simp) (by simp))) (by simp) (by simp)

theorem Target.balanced {start : Bool} (t : Target start) : Balanced t.tokens := by
  induction t with
  | spot s => exact s.balanced
  | parens opener closer inside ih => exact ih.parens opener closer

mutual
theorem Phrase.balanced {start : Bool} {n : Nat} : (d : Phrase start n) → Balanced d.tokens
  | .int _ _ | .float _ _ | .bool _ _ | .string _ _ => .cons .nil (by simp) (by simp)
  | .spot s => s.balanced
  | .call _ _ opener closer arguments =>
    .cons (arguments.balanced.parens opener closer) (by simp) (by simp)
  | .array opener closer elements => .brackets elements.balanced opener closer
  | .parens opener closer inside => inside.balanced.parens opener closer
  | .sign _ _ operand => .cons operand.balanced (by simp) (by simp)
  | .binary _ _ left right => .append left.balanced (.cons right.balanced (by simp) (by simp))
  | .assign _ target source => .append target.balanced (.cons source.balanced (by simp) (by simp))
  | .tighter phrase => phrase.balanced

theorem Items.balanced : (d : Items) → Balanced d.tokens
  | .none => .nil
  | .some items => items.balanced

theorem Sequence.balanced : (d : Sequence) → Balanced d.tokens
  | .one item => item.balanced
  | .more item _ items => .append item.balanced (.cons items.balanced (by simp) (by simp))
end

theorem Spot.unsplit {start : Bool} (s : Spot start) (depth : Int) : Unsplit depth s.tokens := by
  cases s with
  | plain => exact .cons (.nil _) (by simp) rfl
  | typed text type position colon last =>
    have ht : ∀ m, typeForm type ≠ .mark m := by intro m; unfold typeForm; split <;> simp
    have hd : depthChange (typeForm type) = 0 := by unfold typeForm; split <;> rfl
    exact .cons (.cons (.cons (.nil _) (fun h => absurd h (ht _)) hd) (by simp) rfl) (by simp) rfl
  | element => exact .cons (.enclosed (.cons (.nil _) (by simp) rfl) rfl rfl) (by simp) rfl

theorem Target.unsplit {start : Bool} (t : Target start) (depth : Int) :
    Unsplit depth t.tokens := by
  induction t generalizing depth with
  | spot s => exact s.unsplit depth
  | parens opener closer inside ih => exact .enclosed (ih _) rfl rfl

mutual
theorem Phrase.unsplit {start : Bool} {n : Nat} {depth : Int} (hd : 0 ≤ depth) :
    (d : Phrase start n) → Unsplit depth d.tokens
  | .int _ _ | .float _ _ | .bool _ _ | .string _ _ => .cons (.nil _) (by simp) rfl
  | .spot s => s.unsplit depth
  | .call _ _ _ _ arguments =>
    .cons (.enclosed (arguments.unsplit (by omega)) rfl rfl) (by simp) rfl
  | .array _ _ elements => .enclosed (elements.unsplit (by omega)) rfl rfl
  | .parens _ _ inside => .enclosed (inside.unsplit (by omega)) rfl rfl
  | .sign _ _ operand => .cons (operand.unsplit hd) (by simp) rfl
  | .binary _ _ left right => .append (left.unsplit hd) (.cons (right.unsplit hd) (by simp) rfl)
  | .assign _ target source =>
    .append (target.unsplit depth) (.cons (source.unsplit hd) (by simp) rfl)
  | .tighter phrase => phrase.unsplit hd

theorem Items.unsplit {depth : Int} (hd : 0 < depth) : (d : Items) → Unsplit depth d.tokens
  | .none => .nil depth
  | .some items => items.unsplit hd

/-- Commas between items separate only where nothing is open around them. -/
theorem Sequence.unsplit {depth : Int} (hd : 0 < depth) : (d : Sequence) → Unsplit depth d.tokens
  | .one item => item.unsplit (by omega)
  | .more item _ items =>
    .append (item.unsplit (by omega)) (.cons (items.unsplit hd) (by intro; omega) rfl)
end

theorem Spot.tokens_ne_nil {start : Bool} (s : Spot start) : s.tokens ≠ [] := by
  cases s <;> simp [Spot.tokens]

theorem Phrase.tokens_ne_nil {start : Bool} {n : Nat} : (d : Phrase start n) → d.tokens ≠ []
  | .spot s => s.tokens_ne_nil
  | .tighter phrase => phrase.tokens_ne_nil
  | .int _ _ | .float _ _ | .bool _ _ | .string _ _ | .call .. | .array .. | .parens .. | .sign ..
  | .binary .. | .assign .. => by simp [Phrase.tokens]

/-! Reading a phrase. -/

/-- What can stand behind a phrase: nothing, an operator, or the end of an item or a group. -/
def endsPhrase : List Token → Bool
  | [] => true
  | t :: _ =>
    match t.form with
    | .connective _ | .mark .closeParen | .mark .comma => true
    | _ => false

/-- Behind a phrase it no longer matters whether it ended in a name. -/
theorem run_of_endsPhrase {rest : List Token} (h : endsPhrase rest) (b : Bool) (y : Yard) :
    run b y rest = run false y rest := by
  cases rest with
  | nil => rw [run_nil, run_nil]
  | cons t rest =>
    have hn : ∀ text, t.form ≠ .name text := by intro text he; simp [endsPhrase, he] at h
    have ho : t.form ≠ .mark .openBracket := by intro he; simp [endsPhrase, he] at h
    rw [run_take b y hn ho, run_take false y hn ho]

theorem typing?_of_endsPhrase {rest : List Token} (h : endsPhrase rest) :
    typing? rest = .ok (none, rest) := by
  unfold typing?
  split <;> simp_all [endsPhrase]

/-- Reading the tokens turns one yard into the other, whatever ends the phrase. -/
def Reads (y : Yard) (ts : List Token) (y' : Yard) : Prop :=
  ∀ rest, endsPhrase rest → run false y (ts ++ rest) = run false y' rest

/-- Both yards come to the same under every reduction that reaches down to the level. -/
def SettlesTo (n : Nat) (y y' : Yard) : Prop :=
  ∀ yields : Nat → Bool, (∀ p, n ≤ p → yields p) →
    Yard.reduceWhile yields y.output y.pending = Yard.reduceWhile yields y'.output y'.pending

theorem SettlesTo.mono {m n : Nat} {y y' : Yard} (h : SettlesTo n y y') (hm : m ≤ n) :
    SettlesTo m y y' := by
  intro yields hy
  exact h yields fun p hp => hy p (Nat.le_trans hm hp)

/-- What may be open directly before a phrase at a level. A sign takes what binds at least as
tight as itself; a call waits for its parenthesis. -/
def Pending.admits (n : Nat) : Pending → Prop
  | .connective c _ => c.precedence < n
  | .sign _ _ => Sign.precedence ≤ n
  | .paren _ => True
  | .call _ _ => False

def Yard.Ready (n : Nat) (y : Yard) : Prop := ∀ top ∈ y.pending.head?, top.admits n

theorem Yard.Ready.mono {m n : Nat} {y : Yard} (h : y.Ready m) (hn : m ≤ n) : y.Ready n := by
  intro top ht
  have := h top ht
  cases top <;> simp only [Pending.admits] at * <;> omega

/-- An operator behind a phrase finds the finished tree on the stack. -/
theorem Yard.pushOperator_of_settlesTo {y y' : Yard} {e : Expr Position} {c : Connective}
    (h : SettlesTo c.precedence y' (y.push e))
    (hr : y.Ready c.precedence) (position : Position) :
    y'.pushOperator (.connective c position) =
      .ok ⟨.value e :: y.output, .connective c position :: y.pending⟩ := by
  have hs : ∀ top ∈ y.pending.head?, ∀ p ∈ top.precedence?,
      decide (c.precedence ≤ p) = false := by
    intro top ht p hp
    have := hr top ht
    have := c.precedence_lt_sign
    cases top <;> simp_all [Pending.admits, Pending.precedence?]
    omega
  have := h (fun p => c.precedence ≤ p) (by simp)
  simp only [Yard.pushOperator, this, Yard.push, reduceWhile_eq_self _ hs]
  rfl

theorem Reads.connective {y y₁ y₂ y₃ : Yard} {ts us : List Token} {c : Connective}
    {position : Position} (h : Reads y ts y₁)
    (hp : y₁.pushOperator (.connective c position) = .ok y₂) (k : Reads y₂ us y₃) :
    Reads y (ts ++ ⟨.connective c, position⟩ :: us) y₃ := by
  intro rest hr
  rw [List.append_assoc, h _ rfl, List.cons_append, run_connective _ hp]
  exact k rest hr

/-- A phrase in parentheses is the phrase itself. -/
theorem Reads.parens {y y' : Yard} {ts : List Token} {e : Expr Position} {opener : Position}
    (hr : y.Ready primaryLevel)
    (h : Reads { y with pending := .paren opener :: y.pending } ts y')
    (hs : SettlesTo 0 y' (Yard.push { y with pending := .paren opener :: y.pending } e))
    (closer : Position) :
    Reads y (⟨.mark .openParen, opener⟩ :: ts ++ [⟨.mark .closeParen, closer⟩]) (y.push e) := by
  intro rest _
  have settled : y'.settle = .ok ⟨.value e :: y.output, .paren opener :: y.pending⟩ :=
    hs (fun _ => true) (by simp)
  have closed : y'.close ⟨.mark .closeParen, closer⟩ = .ok (y.push e) := by
    simp only [Yard.close, settled]
    cases hp : y.pending with
    | nil => simp [bind, Except.bind, Yard.push, hp]; rfl
    | cons top pending =>
      have := hr top (by rw [hp]; rfl)
      cases top <;> simp_all [bind, Except.bind, Yard.push, Pending.admits] <;> rfl
  rw [List.append_assoc, List.cons_append, run_openParen, List.singleton_append, h _ rfl,
    run_closeParen _ closed]

/-- Arguments that settle above the mark of their call complete it. -/
theorem Reads.call {y y' : Yard} {ts : List Token} {es : List (Expr Position)} {text : String}
    {position opener : Position}
    (h : Reads ⟨.callMark :: y.output, .paren opener :: .call text position :: y.pending⟩ ts y')
    (hs : SettlesTo 0 y' ⟨es.reverse.map .value ++ .callMark :: y.output,
      .paren opener :: .call text position :: y.pending⟩)
    (closer : Position) :
    Reads y (⟨.call text, position⟩ :: ⟨.mark .openParen, opener⟩ :: ts ++
      [⟨.mark .closeParen, closer⟩]) (y.push (.call position text es)) := by
  intro rest _
  have settled : y'.settle = .ok ⟨es.reverse.map .value ++ .callMark :: y.output,
      .paren opener :: .call text position :: y.pending⟩ :=
    hs (fun _ => true) (by simp)
  have closed : y'.close ⟨.mark .closeParen, closer⟩ = .ok (y.push (.call position text es)) := by
    simp only [Yard.close, settled, bind, Except.bind, arguments_append]
    rfl
  rw [List.append_assoc, List.cons_append, List.cons_append, run_call, run_openParen,
    List.singleton_append, h _ rfl, run_closeParen _ closed]

/-- A comma ends the item before it and leaves the parenthesis open. -/
theorem Reads.comma {y y₁ y₂ : Yard} {ts us : List Token} {e : Expr Position} {opener : Position}
    {pending : List Pending} (hp : y.pending = .paren opener :: pending) (h : Reads y ts y₁)
    (hs : SettlesTo 0 y₁ (y.push e)) (k : Reads (y.push e) us y₂) (comma : Position) :
    Reads y (ts ++ ⟨.mark .comma, comma⟩ :: us) y₂ := by
  intro rest hr
  have settled : y₁.settle = .ok (y.push e) := by
    have := hs (fun _ => true) (by simp)
    rw [Yard.settle, this, Yard.push, hp]
    rfl
  have separated : y₁.separate ⟨.mark .comma, comma⟩ = .ok (y.push e) := by
    simp only [Yard.separate, settled, bind, Except.bind, Yard.push, hp]
    rfl
  rw [List.append_assoc, h _ rfl, List.cons_append, run_comma _ separated]
  exact k rest hr

/-- A phrase that is all there is to read becomes the result. -/
theorem Reads.finish {ts : List Token} {y' : Yard} {e : Expr Position}
    (h : Reads .empty ts y') (hs : SettlesTo 0 y' (Yard.empty.push e)) (position : Position) :
    (run false .empty ts >>= fun y => y.finish position) = .ok e := by
  have hr := h [] rfl
  rw [List.append_nil, run_nil] at hr
  have settled : y'.settle = .ok (Yard.empty.push e) := hs (fun _ => true) (by simp)
  rw [hr]
  simp only [bind, Except.bind, Yard.finish, settled]
  rfl

theorem runParts_cons {opener : Position} {part : List Token} {parts : List (List Token)}
    {e : Expr Position} {es : List (Expr Position)}
    (h : ∀ position, (run false .empty part >>= fun y => y.finish position) = .ok e)
    (k : runParts opener parts = .ok es) : runParts opener (part :: parts) = .ok (e :: es) := by
  have := h (startOf part opener)
  rw [runParts]
  cases hr : run false .empty part with
  | error fault => rw [hr] at this; cases this
  | ok y =>
    rw [hr] at this
    simp only [bind, Except.bind] at this ⊢
    rw [this, k]
    rfl

/-- A literal is complete by itself. -/
theorem Reads.literal {y : Yard} {t : Token} {e : Expr Position} (hn : ∀ text, t.form ≠ .name text)
    (ho : t.form ≠ .mark .openBracket) (h : y.take t = .ok (y.push e)) :
    Reads y [t] (y.push e) := by
  intro rest _
  rw [List.singleton_append, run_of_take _ hn ho h]

theorem Reads.spot {start : Bool} (s : Spot start) {y : Yard}
    (hs : start = true → y.pending = []) : Reads y s.tokens (y.push (.place s.place)) := by
  -- Where nothing is open, the tokens behind a name are searched for a type first.
  have name (text : String) (position : Position) {rest : List Token}
      (ht : typing? rest = .ok (none, rest)) :
      run false y (⟨.name text, position⟩ :: rest) =
        run true (y.push (.place (.whole position text none))) rest := by
    by_cases hp : y.pending = []
    · exact run_name_free false hp ht text position
    · exact run_name_pending false hp text position rest
  intro rest hr
  cases s with
  | plain text position =>
    rw [Spot.tokens, List.singleton_append, name _ _ (typing?_of_endsPhrase hr),
      run_of_endsPhrase hr]
    rfl
  | typed text type position colon last =>
    have ht : typing? (⟨.mark .colon, colon⟩ :: ⟨typeForm type, last⟩ :: rest) =
        .ok (some type, rest) := by
      rcases type with ⟨name, _ | _⟩ <;> rfl
    exact run_name_free false (hs rfl) ht text position
  | element text offset position opener index closer =>
    have closed : closing? 0 (⟨.int offset, index⟩ :: ⟨.mark .closeBracket, closer⟩ :: rest) =
        some ([⟨.int offset, index⟩], rest) := rfl
    have split : elementParts opener [⟨.int offset, index⟩] =
        .ok [[⟨.int offset, index⟩]] := rfl
    have read : runParts opener [[⟨.int offset, index⟩]] = .ok [.int index offset] := by
      refine runParts_cons ?_ (by rw [runParts])
      intro p
      exact Reads.finish (.literal (by simp) (by simp) rfl) (fun _ _ => rfl) p
    simp only [Spot.tokens, List.cons_append, List.nil_append]
    rw [name _ _ rfl, run_brackets _ _ _ closed split, read]
    rfl

theorem Reads.target {start : Bool} (t : Target start) {y : Yard} (hr : y.Ready primaryLevel)
    (hs : start = true → y.pending = []) : Reads y t.tokens (y.push (.place t.place)) := by
  induction t generalizing y with
  | spot s => exact .spot s hs
  | parens opener closer inside ih =>
    refine .parens hr (ih ?_ (by simp)) (fun _ _ => rfl) closer
    intro top ht
    cases ht
    trivial

/-- Items that are read one by one make up the elements between two brackets. -/
theorem elementParts_of_unsplit {opener : Position} {ts : List Token} {parts : List (List Token)}
    (hn : ts ≠ []) (h : splitParts 0 ts = parts) (hp : ∀ part ∈ parts, part ≠ []) :
    elementParts opener ts = .ok parts := by
  have he : parts.any (·.isEmpty) = false := by
    rw [List.any_eq_false]
    intro part hm
    simpa using hp part hm
  simp [elementParts, hn, h, he]

/-- A pair of brackets that stands by itself is an array. -/
theorem Reads.array {y : Yard} {ts : List Token} {parts : List (List Token)}
    {es : List (Expr Position)} {opener : Position} (hb : Balanced ts)
    (hp : elementParts opener ts = .ok parts) (hr : runParts opener parts = .ok es)
    (closer : Position) :
    Reads y (⟨.mark .openBracket, opener⟩ :: ts ++ [⟨.mark .closeBracket, closer⟩])
      (y.push (.array opener es)) := by
  intro rest _
  rw [List.append_assoc, List.cons_append, List.singleton_append,
    run_brackets _ _ _ (hb.closing?_eq closer rest) hp, hr]
  rfl

theorem Yard.Ready.of_paren {y : Yard}
    (h : ∃ opener pending, y.pending = .paren opener :: pending) : y.Ready 0 := by
  obtain ⟨opener, pending, he⟩ := h
  intro top ht
  rw [he] at ht
  cases ht
  trivial

mutual
/-- A phrase is read as its tree, up to operators that still wait and bind at least as tight. -/
theorem Phrase.reads {start : Bool} {n : Nat} {y : Yard} (hr : y.Ready n)
    (hs : start = true → y.pending = []) :
    (d : Phrase start n) → ∃ y', Reads y d.tokens y' ∧ SettlesTo n y' (y.push d.tree)
  | .int _ _ | .float _ _ | .bool _ _ | .string _ _ =>
    ⟨_, .literal (by simp) (by simp) rfl, fun _ _ => rfl⟩
  | .spot s => ⟨_, .spot s hs, fun _ _ => rfl⟩
  | .call text position opener closer arguments => by
    obtain ⟨y', h, k⟩ := arguments.reads
      (y := ⟨.callMark :: y.output, .paren opener :: .call text position :: y.pending⟩) ⟨_, _, rfl⟩
    exact ⟨_, .call h k closer, fun _ _ => rfl⟩
  | .array opener closer elements => by
    obtain ⟨parts, hp, hr⟩ := elements.parts opener
    exact ⟨_, .array elements.balanced hp hr closer, fun _ _ => rfl⟩
  | .parens opener closer inside => by
    have hi : Yard.Ready 0 { y with pending := .paren opener :: y.pending } := by
      intro top ht
      cases ht
      trivial
    obtain ⟨y', h, k⟩ := inside.reads hi (by simp)
    exact ⟨_, .parens hr h k closer, fun _ _ => rfl⟩
  | .sign s position operand => by
    have ho : Yard.Ready Sign.precedence ⟨y.output, .sign s position :: y.pending⟩ := by
      intro top ht
      cases ht
      exact Nat.le_refl _
    obtain ⟨y', h, k⟩ := operand.reads ho (by simp)
    refine ⟨y', ?_, ?_⟩
    · intro rest hr
      rw [Phrase.tokens, List.cons_append, run_sign _ (y.pushOperator_sign s position)]
      exact h rest hr
    · intro yields hy
      rw [k yields hy]
      simp only [Yard.push, Yard.reduceWhile, Pending.precedence?, hy _ (Nat.le_refl _), if_true]
      rfl
  | .binary op position left right => by
    obtain ⟨y₁, h₁, k₁⟩ := left.reads hr hs
    have hp := Yard.pushOperator_of_settlesTo (c := .operate op) k₁ hr position
    have ho : Yard.Ready (op.precedence + 1)
        ⟨.value left.tree :: y.output, .connective (.operate op) position :: y.pending⟩ := by
      intro top ht
      cases ht
      exact Nat.lt_succ_self _
    obtain ⟨y₂, h₂, k₂⟩ := right.reads ho (by simp)
    refine ⟨y₂, .connective h₁ hp h₂, ?_⟩
    intro yields hy
    rw [k₂ yields fun p hp => hy p (Nat.le_of_succ_le hp)]
    simp only [Yard.push, Yard.reduceWhile, Pending.precedence?, Connective.precedence,
      hy _ (Nat.le_refl _), if_true]
    rfl
  | .assign position target source => by
    have h₁ := Reads.target target (hr.mono (Nat.zero_le _)) hs
    have hp : (y.push (.place target.place)).pushOperator (.connective .assign position) =
        .ok ⟨.value (.place target.place) :: y.output, .connective .assign position :: y.pending⟩ :=
      Yard.pushOperator_of_settlesTo (c := .assign) (fun _ _ => rfl) hr position
    have ho : Yard.Ready 1
        ⟨.value (.place target.place) :: y.output, .connective .assign position :: y.pending⟩ := by
      intro top ht
      cases ht
      exact Nat.zero_lt_one
    obtain ⟨y₂, h₂, k₂⟩ := source.reads ho (by simp)
    refine ⟨y₂, .connective h₁ hp h₂, ?_⟩
    intro yields hy
    rw [k₂ yields fun p _ => hy p (Nat.zero_le p)]
    simp only [Yard.push, Yard.reduceWhile, Pending.precedence?, Connective.precedence,
      hy _ (Nat.le_refl _), if_true]
    rfl
  | .tighter phrase => by
    obtain ⟨y', h, k⟩ := phrase.reads (hr.mono (Nat.le_succ _)) hs
    exact ⟨y', h, k.mono (Nat.le_succ _)⟩

/-- The arguments of a call settle above what was read before them, the last on top. -/
theorem Items.reads {y : Yard} (hp : ∃ opener pending, y.pending = .paren opener :: pending) :
    (d : Items) → ∃ y', Reads y d.tokens y' ∧
      SettlesTo 0 y' ⟨d.trees.reverse.map .value ++ y.output, y.pending⟩
  | .none => ⟨y, fun _ _ => rfl, fun _ _ => rfl⟩
  | .some items => items.reads hp

theorem Sequence.reads {y : Yard} (hp : ∃ opener pending, y.pending = .paren opener :: pending) :
    (d : Sequence) → ∃ y', Reads y d.tokens y' ∧
      SettlesTo 0 y' ⟨d.trees.reverse.map .value ++ y.output, y.pending⟩
  | .one item => item.reads (Yard.Ready.of_paren hp) (by simp)
  | .more item comma items => by
    obtain ⟨opener, pending, he⟩ := hp
    obtain ⟨y₁, h₁, k₁⟩ := item.reads (Yard.Ready.of_paren ⟨opener, pending, he⟩) (by simp)
    obtain ⟨y₂, h₂, k₂⟩ := items.reads (y := y.push item.tree) ⟨opener, pending, he⟩
    refine ⟨y₂, .comma he h₁ k₁ h₂ comma, ?_⟩
    simpa [Sequence.trees, Yard.push] using k₂

/-- The elements of an array are read each by itself. -/
theorem Items.parts (opener : Position) :
    (d : Items) → ∃ parts, elementParts opener d.tokens = .ok parts ∧
      runParts opener parts = .ok d.trees
  | .none => ⟨[], rfl, by rw [runParts]; rfl⟩
  | .some items => by
    obtain ⟨parts, hs, hp, hr⟩ := items.parts opener
    have hn : items.tokens ≠ [] := by
      intro he
      rw [he] at hs
      exact hp [] (by rw [← hs]; exact List.mem_singleton_self _) rfl
    exact ⟨parts, elementParts_of_unsplit hn hs hp, hr⟩

theorem Sequence.parts (opener : Position) :
    (d : Sequence) → ∃ parts, splitParts 0 d.tokens = parts ∧ (∀ part ∈ parts, part ≠ []) ∧
      runParts opener parts = .ok d.trees
  | .one item => by
    obtain ⟨y', h, k⟩ := item.reads (y := .empty) (fun _ h => by cases h) (by simp)
    refine ⟨_, (item.unsplit (Int.le_refl 0)).splitParts_eq, ?_, ?_⟩
    · simpa using item.tokens_ne_nil
    · exact runParts_cons (h.finish k) (by rw [runParts])
  | .more item comma items => by
    obtain ⟨y', h, k⟩ := item.reads (y := .empty) (fun _ h => by cases h) (by simp)
    obtain ⟨parts, hs, hp, hr⟩ := items.parts opener
    refine ⟨item.tokens :: parts, ?_, ?_, runParts_cons (h.finish k) hr⟩
    · rw [Sequence.tokens, (item.unsplit (Int.le_refl 0)).splitParts_comma, hs]
    · intro part hm
      rcases List.mem_cons.1 hm with rfl | hm
      · exact item.tokens_ne_nil
      · exact hp part hm
end

/-- Every line that the infix grammar derives is read as the tree of its derivation. -/
theorem expression_tokens (d : Phrase true 0) (stop : Position) :
    expression stop d.tokens = .ok d.tree := by
  obtain ⟨y', h, k⟩ := d.reads (y := .empty) (fun _ h => by cases h) (fun _ => rfl)
  have hf := h.finish k
  unfold expression
  split
  · rename_i he
    exact absurd he d.tokens_ne_nil
  · exact hf _

end AlgoFrontEnd.Grammar
