import AlgoFrontEnd.Proofs.Grammar.Chains
import AlgoFrontEnd.Token.Lexer

/-! Lines that are accepted and alternate have all their operators in place. -/
namespace AlgoFrontEnd.Grammar
open Token (Form)

/-! ### What has been read -/

/-- Rows between parentheses that end in a comma, or none. -/
def Precedes (ws : List Token) (ds : List (Expr Position)) : Prop :=
  ∀ c us fs, Row c us fs → Rows (ws ++ us) (ds ++ fs)

namespace Precedes

theorem nil : Precedes [] [] := fun _ _ _ h => .single h

theorem comma {ws us : List Token} {ds fs : List (Expr Position)} {c : Bool} (h : Precedes ws ds)
    (hr : Row c us fs) (p : Position) :
    Precedes (ws ++ (us ++ [⟨.mark .comma, p⟩])) (ds ++ fs) := by
  intro c' us' fs' hr'
  have := Rows.comma (p := p) (h _ _ _ hr) hr'
  simpa using this

end Precedes

/-- What stands before the row that is being read, and lies below it on both stacks. -/
inductive Standing : List Enclosing → List Token → List Item → List Pending → Prop
  | line : Standing [] [] [] []
  | group {outer ts below stop us es ops s ws ds} (p : Position) :
      Standing outer ts below stop → Open us es ops s → Precedes ws ds →
      Standing (⟨s, false, ds.length⟩ :: outer) (ts ++ (us ++ ⟨.mark .openParen, p⟩ :: ws))
        (items ds ++ (items es ++ below)) (.paren p :: (ops ++ stop))
  | call {outer ts below stop us es ops s ws ds} (text : String) (o p : Position) :
      Standing outer ts below stop → Open us es ops s → Precedes ws ds →
      Standing (⟨s, true, ds.length⟩ :: outer)
        (ts ++ (us ++ ⟨.call text, o⟩ :: ⟨.mark .openParen, p⟩ :: ws))
        (items ds ++ .callMark :: (items es ++ below)) (.paren p :: .call text o :: (ops ++ stop))

/-- An open row that ends in a name or not. The row before the name is known, since an index
behind it replaces the name's value. -/
inductive OpenAt : Bool → List Token → List (Expr Position) → List Pending → Scan → Prop
  | plain {us es ops s} : Open us es ops s → endsInName us = false → OpenAt false us es ops s
  | name {us es ops s} (text : String) (p : Position) : Open us es ops s →
      OpenAt true (us ++ [⟨.name text, p⟩]) (es ++ [.place (.whole p text none)]) ops (s.add 1)

/-- A line that has been read up to some token. -/
inductive State (b : Bool) (outer : List Enclosing) (s : Scan) : List Token → Yard → Prop
  | mk {ts below stop us es ops} : Standing outer ts below stop → OpenAt b us es ops s →
      State b outer s (ts ++ us) ⟨items es ++ below, ops ++ stop⟩

namespace Open
variable {us : List Token} {es : List (Expr Position)} {ops : List Pending} {s : Scan}

theorem name (h : Open us es ops s) {typing : List Token} {a : Option TypeRef}
    (ht : typing? typing = .ok (a, [])) (text : String) (p : Position) :
    Open (us ++ ⟨.name text, p⟩ :: typing) (es ++ [.place (.whole p text a)]) ops (s.add 1) :=
  h.extend _ [.place (.whole p text a)] fun _ _ hr _ => hr.name ht

end Open

theorem OpenAt.isOpen {b : Bool} {us : List Token} {es : List (Expr Position)}
    {ops : List Pending} {s : Scan} (h : OpenAt b us es ops s) : Open us es ops s := by
  cases h with
  | plain h _ => exact h
  | name _ _ h => exact h.name rfl _ _

theorem OpenAt.start : OpenAt false [] [] [] .start := .plain (.row .nil) rfl

namespace Standing
variable {outer : List Enclosing} {ts : List Token} {below : List Item} {stop : List Pending}

theorem precedence? (h : Standing outer ts below stop) :
    ∀ top ∈ stop.head?, top.precedence? = none := by
  cases h <;> simp [Pending.precedence?]

/-- A call that waits has its own parenthesis above it. -/
theorem ne_call (h : Standing outer ts below stop) {us : List Token} {es : List (Expr Position)}
    {ops : List Pending} {s : Scan} (hopen : Open us es ops s) (text : String) (o : Position)
    (pending : List Pending) : ops ++ stop ≠ .call text o :: pending := by
  cases hopen <;> cases h <;> simp

end Standing

namespace State
variable {b : Bool} {outer : List Enclosing} {s : Scan} {ts : List Token} {y : Yard}

theorem start : State false [] .start [] .empty := .mk .line .start

/-- A token that is a value, or all tokens of one, stand behind the row. -/
theorem value (h : State b outer s ts y) {vs : List Token} {v : Expr Position}
    (hv : ∀ us es, Row false us es → (endsInName us = true → b = true) →
      Row false (us ++ vs) (es ++ [v]))
    (hn : ∀ us, endsInName (us ++ vs) = false) :
    State false outer (s.add 1) (ts ++ vs) (y.push v) := by
  obtain ⟨hs, hr⟩ := h
  have hb : ∀ {us es ops}, OpenAt b us es ops s → endsInName us = true → b = true := by
    intro us es ops hr hu
    cases hr with
    | plain _ hn => simp [hn] at hu
    | name _ _ _ => rfl
  have hopen := hr.isOpen.extend _ [v] fun us es hus hu => hv us es hus fun he => hb hr (hu he)
  have := State.mk hs (.plain hopen (hn _))
  simpa [Yard.push, items_concat] using this

/-- The brackets of an index replace the name in front of them. -/
theorem index (h : State true outer s ts y) {opener : Position} {inside : List Token}
    {closer : Token} {parts : List (List Token)} {offset : Int} {elements : List (Expr Position)}
    (hc : closing? 0 (inside ++ [closer]) = some (inside, []))
    (hp : elementParts opener inside = .ok parts) (ho : offset? opener parts = some offset)
    (he : runParts opener parts = .ok elements) :
    State false outer s (ts ++ ⟨.mark .openBracket, opener⟩ :: (inside ++ [closer]))
      (y.takeBrackets opener true elements) := by
  obtain ⟨hs, hr⟩ := h
  cases hr with
  | @name us es ops s text p hopen =>
    have helem : ∃ q, elements = [.int q offset] := by
      rw [offset?, he] at ho
      split at ho
      · simp_all
      · cases ho
    obtain ⟨q, rfl⟩ := helem
    have hindex := hopen.extend _ [.place (.element p text offset)]
      fun _ _ hrow _ => hrow.index hc hp ho
    have := State.mk hs (.plain hindex
      (endsInName_enclosed us (_ :: _ :: inside) (by simp [form_of_closing? hc])))
    simpa [items_concat, Yard.takeBrackets] using this

theorem openParen (h : State b outer s ts y) (p : Position) :
    State false (⟨s, false, 0⟩ :: outer) .start (ts ++ [⟨.mark .openParen, p⟩])
      ⟨y.output, .paren p :: y.pending⟩ := by
  obtain ⟨hs, hr⟩ := h
  have := State.mk (.group p hs hr.isOpen .nil) .start
  simpa [items] using this

theorem call (h : State b outer s ts y) (text : String) (o p : Position) :
    State false (⟨s, true, 0⟩ :: outer) .start
      (ts ++ [⟨.call text, o⟩, ⟨.mark .openParen, p⟩])
      ⟨.callMark :: y.output, .paren p :: .call text o :: y.pending⟩ := by
  obtain ⟨hs, hr⟩ := h
  have := State.mk (.call text o p hs hr.isOpen .nil) .start
  simpa [items] using this

theorem sign (h : State b outer s ts y) (sg : Sign) (p : Position) :
    State false outer s.sign (ts ++ [⟨.sign sg, p⟩]) ⟨y.output, .sign sg p :: y.pending⟩ := by
  obtain ⟨hs, hr⟩ := h
  have hn (us : List Token) : endsInName (us ++ [⟨.sign sg, p⟩]) = false := by
    rw [endsInName_append_cons (by simp)]
    rfl
  have := State.mk hs (.plain (.sign sg p hr.isOpen .nil) (hn _))
  simpa [Scan.add] using this

theorem connective (h : State b outer s ts y) {s' : Scan} (hc : s.connective? = some s')
    {k : Connective} {p : Position} {z : Yard} (hz : y.pushOperator (.connective k p) = .ok z) :
    State false outer s' (ts ++ [⟨.connective k, p⟩]) z := by
  obtain ⟨hs, hr⟩ := h
  obtain ⟨fs, ops, hopen, rfl⟩ := hr.isOpen.pushOperator hc hs.precedence? hz
  rw [List.append_assoc]
  apply State.mk hs
  apply OpenAt.plain hopen
  rw [endsInName_append_cons (by simp)]
  rfl

theorem comma {e : Enclosing} (h : State b (e :: outer) s ts y) (hc : s.isComplete = true)
    {p : Position} {z : Yard} (hz : y.separate ⟨.mark .comma, p⟩ = .ok z) :
    State false (e.comma s :: outer) .start (ts ++ [⟨.mark .comma, p⟩]) z := by
  obtain ⟨hs, hr⟩ := h
  obtain ⟨y, hy, hz⟩ := bind_eq_ok.1 hz
  obtain ⟨c, fs, hrow, hl, rfl⟩ := hr.isOpen.settle hc hs.precedence? hy
  cases hs with
  | group opener hs hopen hpre =>
    cases hz
    have := State.mk (.group opener hs hopen (hpre.comma hrow p)) .start
    simpa [Enclosing.comma, hl, items_append] using this
  | call text o opener hs hopen hpre =>
    cases hz
    have := State.mk (.call text o opener hs hopen (hpre.comma hrow p)) .start
    simpa [Enclosing.comma, hl, items_append] using this

theorem closeParen {e : Enclosing} (h : State b (e :: outer) s ts y) (hc : s.isComplete = true)
    {p : Position} {z : Yard} (hz : y.close ⟨.mark .closeParen, p⟩ = .ok z) :
    State false outer (e.close s) (ts ++ [⟨.mark .closeParen, p⟩]) z := by
  obtain ⟨hs, hr⟩ := h
  obtain ⟨y, hy, hz⟩ := bind_eq_ok.1 hz
  obtain ⟨c, fs, hrow, hl, rfl⟩ := hr.isOpen.settle hc hs.precedence? hy
  cases hs with
  | @group _ _ _ _ us₀ _ _ _ ws ds opener hs hopen hpre =>
    -- no call waits right below the parenthesis, so that it closes a group
    have hnc := hs.ne_call hopen
    simp only at hz
    cases hz
    have hgroup := hopen.extend _ (ds ++ fs) fun _ _ hr _ =>
      hr.group (p := opener) (q := p) (hpre _ _ _ hrow)
    have := State.mk hs (.plain hgroup
      (endsInName_enclosed us₀ (_ :: (ws ++ _)) (by simp)))
    simpa [Enclosing.close, hl, items_append] using this
  | @call _ _ _ _ us₀ _ _ _ ws ds text o opener hs hopen hpre =>
    rw [← List.append_assoc, ← items_append, items, arguments_append] at hz
    cases hz
    have hcall := hopen.extend _ [.call o text (ds ++ fs)] fun _ _ hr _ =>
      hr.call (p := opener) (q := p) (hpre _ _ _ hrow)
    have := State.mk hs (.plain hcall
      (endsInName_enclosed us₀ (_ :: _ :: (ws ++ _)) (by simp)))
    simpa [Enclosing.close, items_concat] using this

theorem literal (h : State b outer s ts y) {t : Token} {v : Expr Position}
    (hv : literal? t = some v) : State false outer (s.add 1) (ts ++ [t]) (y.push v) :=
  h.value (fun _ _ hr _ => hr.literal hv) fun us =>
    endsInName_enclosed us [] (name_ne_of_literal? hv)

/-- Only behind a name that is given no type can an index follow. -/
theorem name (h : State b outer s ts y) {typing : List Token} {a : Option TypeRef}
    (ht : typing? typing = .ok (a, [])) (text : String) (p : Position) :
    State a.isNone outer (s.add 1) (ts ++ ⟨.name text, p⟩ :: typing)
      (y.push (.place (.whole p text a))) := by
  cases a with
  | none =>
    obtain ⟨hs, hr⟩ := h
    obtain rfl := typing?_eq_none ht
    have := State.mk hs (.name text p hr.isOpen)
    simpa [Yard.push, items_concat] using this
  | some type => exact h.value (fun _ _ hr _ => hr.name ht) fun _ => endsInName_name ht

/-- Brackets that are no index of a name in front of them are an array. -/
theorem array (h : State b outer s ts y) {opener : Position} {inside : List Token} {closer : Token}
    {parts : List (List Token)} {elements : List (Expr Position)}
    (hc : closing? 0 (inside ++ [closer]) = some (inside, []))
    (hp : elementParts opener inside = .ok parts) (hps : Parts parts elements)
    (ho : b = true → offset? opener parts = none) (he : runParts opener parts = .ok elements) :
    State false outer (s.add 1) (ts ++ ⟨.mark .openBracket, opener⟩ :: (inside ++ [closer]))
      (y.takeBrackets opener b elements) := by
  have hpush : y.takeBrackets opener b elements = y.push (.array opener elements) := by
    unfold Yard.takeBrackets
    split
    · simp [offset?, he] at ho
    · rfl
  rw [hpush]
  apply h.value
  · intro us es hr hb
    exact hr.array hc hp hps fun hu => ho (hb hu)
  · intro us
    exact endsInName_enclosed us (_ :: inside) (by simp [form_of_closing? hc])

/-- Behind the last token of a complete row, a line comes to one value. -/
theorem finish (h : State b [] s ts y) (hc : s.isComplete = true) {p : Position}
    {e : Expr Position} (he : y.finish p = .ok e) : InPlace ts e := by
  obtain ⟨hs, hr⟩ := h
  obtain ⟨y, hy, he⟩ := bind_eq_ok.1 he
  obtain ⟨c, fs, hrow, -, rfl⟩ := hr.isOpen.settle hc hs.precedence? hy
  cases hs
  split at he
  · rename_i hp
    cases hp
  · rename_i ho
    cases he
    obtain rfl : fs = [e] := by
      simp only [items, List.append_nil, List.map_reverse, List.reverse_eq_cons_iff,
        List.reverse_nil, List.nil_append, List.map_eq_singleton_iff] at ho
      obtain ⟨_, rfl, hv⟩ := ho
      cases hv
      rfl
    exact ⟨c, hrow⟩
  · exact absurd he fault_ne_ok

end State

/-! ### Whole lines -/

/-- A line has been read to the end of a complete row. -/
def Ends (ts : List Token) (z : Yard) : Prop := ∃ b s, State b [] s ts z ∧ s.isComplete = true

/-- The parenthesis of a call follows its name. -/
theorem openParen_of_alternates {b : Bool} {s : Scan} {outer : List Enclosing} {text : String}
    {o : Position} {rest : List Token}
    (h : alternates b s outer (⟨.call text, o⟩ :: rest) = true) :
    ∃ p rest', rest = ⟨.mark .openParen, p⟩ :: rest' := by
  cases rest with
  | nil => simp [alternates, literal?] at h
  | cons t rest =>
    obtain ⟨form, p⟩ := t
    cases form with
    | mark m =>
      cases m with
      | openParen => exact ⟨p, rest, rfl⟩
      | _ => simp [alternates, literal?] at h
    | _ => simp [alternates, literal?] at h

theorem brackets_of_alternates {b : Bool} {s : Scan} {outer : List Enclosing} {opener : Position}
    {rest : List Token} (h : alternates b s outer (⟨.mark .openBracket, opener⟩ :: rest) = true) :
    ∃ inside after parts, closing? 0 rest = some (inside, after) ∧
      elementParts opener inside = .ok parts := by
  rw [alternates] at h
  split at h
  · cases h
  · split at h
    · cases h
    · exact ⟨_, _, _, ‹_›, ‹_›⟩

theorem typing_of_alternates {b : Bool} {s : Scan} {outer : List Enclosing} {text : String}
    {p : Position} {rest : List Token}
    (h : alternates b s outer (⟨.name text, p⟩ :: rest) = true) :
    ∃ a after, typing? rest = .ok (a, after) := by
  rw [alternates] at h
  split at h
  · cases h
  · exact ⟨_, _, ‹_›⟩

mutual
/-- All that is read of tokens which alternate stays in place, up to the end of the line. -/
theorem State.run {b : Bool} {s : Scan} {outer : List Enclosing} {us : List Token} {y z : Yard}
    (h : State b outer s us y) : ∀ {ts : List Token}, run b y ts = .ok z →
      alternates b s outer ts = true → Ends (us ++ ts) z
  | [], hr, ha => by
    rw [run_nil] at hr
    rw [alternates_nil] at ha
    cases hr
    simp only [Bool.and_eq_true, List.isEmpty_iff] at ha
    obtain ⟨rfl, hs⟩ := ha
    exact ⟨b, s, by rwa [List.append_nil], hs⟩
  | t :: rest, hr, ha => by
    cases hl : literal? t with
    | some v =>
      rw [run_literal hl] at hr
      rw [alternates_literal hl] at ha
      simpa using (h.literal hl).run hr ha
    | none =>
      obtain ⟨form, p⟩ := t
      cases form with
      | mark m =>
        cases m with
        | openParen =>
          rw [run_openParen] at hr
          rw [alternates_openParen] at ha
          simpa using (h.openParen p).run hr ha
        | closeParen =>
          obtain ⟨y', hy, hr⟩ := take_of_run (by simp) (by simp) hr
          cases outer with
          | nil => simp [alternates] at ha
          | cons e outer =>
            rw [alternates_closeParen, Bool.and_eq_true] at ha
            simpa using (h.closeParen ha.1 hy).run hr ha.2
        | comma =>
          obtain ⟨y', hy, hr⟩ := take_of_run (by simp) (by simp) hr
          cases outer with
          | nil => simp [alternates] at ha
          | cons e outer =>
            rw [alternates_comma, Bool.and_eq_true] at ha
            simpa using (h.comma ha.1 hy).run hr ha.2
        | openBracket =>
          obtain ⟨inside, after, parts, hc, hp⟩ := brackets_of_alternates ha
          obtain ⟨closer, hrest, hc'⟩ := closing?_eq_some hc
          have hlen := length_of_closing? hc
          have hweight := weight_of_elementParts hp
          rw [run_brackets b y p hc hp] at hr
          obtain ⟨elements, he, hr⟩ := bind_eq_ok.1 hr
          rw [alternates_brackets hc hp] at ha
          split at ha
          · rename_i hi
            obtain ⟨rfl, ho⟩ := Bool.and_eq_true_iff.1 hi
            obtain ⟨offset, ho⟩ := Option.isSome_iff_exists.1 ho
            simpa [hrest] using (h.index hc' hp ho he).run hr ha
          · rename_i hi
            rw [Bool.and_eq_true] at ha
            have ho : b = true → offset? p parts = none := by
              rintro rfl
              simpa using hi
            have hps := parts_of_partsAlternate he ha.1
            simpa [hrest] using (h.array hc' hp hps ho he).run hr ha.2
        | closeBracket | colon => simp [alternates, literal?] at ha
      | connective k =>
        obtain ⟨y', hy, hr⟩ := take_of_run (by simp) (by simp) hr
        cases hc : s.connective? with
        | none => simp [alternates, hc] at ha
        | some s =>
          rw [alternates_connective hc] at ha
          simpa using (h.connective hc hy).run hr ha
      | sign sg =>
        rw [run_sign b (y.pushOperator_sign sg p)] at hr
        rw [alternates_sign] at ha
        simpa using (h.sign sg p).run hr ha
      | name text =>
        obtain ⟨a, after, ht⟩ := typing_of_alternates ha
        obtain ⟨typing, hrest, ht'⟩ := typing?_eq_ok ht
        have hlen := length_of_typing? ht
        rw [alternates_name ht] at ha
        simpa [hrest] using (h.name ht' text p).run (run_name ht hr) ha
      | call text =>
        obtain ⟨q, rest', hrest⟩ := openParen_of_alternates ha
        rw [hrest, run_call, run_openParen] at hr
        rw [hrest, alternates_call] at ha
        have hlen : rest.length = rest'.length + 1 := by rw [hrest, List.length_cons]
        simpa [hrest] using (h.call text p q).run hr ha
      | _ => simp_all [alternates, literal?]
termination_by ts => ts.length
decreasing_by
  all_goals
    simp only [List.length_cons]
    omega

theorem parts_of_partsAlternate {opener : Position} :
    ∀ {parts : List (List Token)} {es : List (Expr Position)}, runParts opener parts = .ok es →
      partsAlternate parts = true → Parts parts es
  | [], es, hr, _ => by
    rw [runParts] at hr
    cases hr
    exact .nil
  | part :: parts, es, hr, ha => by
    rw [runParts] at hr
    rw [partsAlternate, Bool.and_eq_true] at ha
    obtain ⟨y, hy, hr⟩ := bind_eq_ok.1 hr
    obtain ⟨e, he, hr⟩ := bind_eq_ok.1 hr
    obtain ⟨es, hes, hr⟩ := bind_eq_ok.1 hr
    cases hr
    obtain ⟨b, s, h, hs⟩ := State.start.run hy ha.1
    obtain ⟨c, hrow⟩ := h.finish hs he
    exact .cons hrow (parts_of_partsAlternate hes ha.2)
termination_by parts => weight parts
decreasing_by
  · simp only [weight]; omega
  · simp only [weight]; omega
end

theorem inPlace_of_alternates {stop : Position} {ts : List Token} {e : Expr Position}
    (h : expression stop ts = .ok e) (ha : alternates false .start [] ts = true) :
    InPlace ts e := by
  cases ts with
  | nil => exact absurd h fault_ne_ok
  | cons t ts =>
    obtain ⟨y, hy, h⟩ := bind_eq_ok.1 h
    obtain ⟨b, s, hs, hc⟩ := State.start.run hy ha
    exact hs.finish hc h

/-- Of the lines that are accepted, those in which operands and operators alternate are exactly
the ones that have all operators in place. -/
theorem inPlace_iff_alternates {stop : Position} {ts : List Token} {e : Expr Position}
    (h : expression stop ts = .ok e) : InPlace ts e ↔ alternates false .start [] ts = true :=
  ⟨alternates_of_inPlace, inPlace_of_alternates h⟩

/-- An operator behind both of its operands. -/
def postfixLine : List Token :=
  [⟨.int 1, ⟨1, 1⟩⟩, ⟨.int 2, ⟨1, 3⟩⟩, ⟨.connective (.operate .add), ⟨1, 5⟩⟩]

theorem postfixLine_out_of_place :
    Token.ofLines ["1 2 +"] = .ok (postfixLine ++ [⟨.endLine, ⟨1, 6⟩⟩]) ∧
      ∃ e, expression ⟨1, 6⟩ postfixLine = .ok e ∧ ¬ InPlace postfixLine e := by
  refine ⟨eq_ok_of_toOption (by decide +kernel),
    .binary ⟨1, 5⟩ .add (.int ⟨1, 1⟩ 1) (.int ⟨1, 3⟩ 2), ?_, ?_⟩
  · with_unfolding_all rfl
  · intro h
    have ha := alternates_of_inPlace h
    revert ha
    decide +kernel

/-- A line with each kind of operator and a call. -/
def nestedLine : List Token :=
  [⟨.name "x", ⟨1, 1⟩⟩, ⟨.connective .assign, ⟨1, 3⟩⟩, ⟨.call "f", ⟨1, 6⟩⟩,
    ⟨.mark .openParen, ⟨1, 7⟩⟩, ⟨.int 1, ⟨1, 8⟩⟩, ⟨.mark .comma, ⟨1, 9⟩⟩, ⟨.int 2, ⟨1, 11⟩⟩,
    ⟨.mark .closeParen, ⟨1, 12⟩⟩, ⟨.connective (.operate .multiply), ⟨1, 14⟩⟩,
    ⟨.sign .negate, ⟨1, 16⟩⟩, ⟨.int 3, ⟨1, 17⟩⟩]

theorem nestedLine_in_place :
    Token.ofLines ["x <- f(1, 2) * -3"] = .ok (nestedLine ++ [⟨.endLine, ⟨1, 18⟩⟩]) ∧
      ∃ e, expression ⟨1, 18⟩ nestedLine = .ok e ∧ InPlace nestedLine e := by
  have h : expression ⟨1, 18⟩ nestedLine =
      .ok (.assign ⟨1, 1⟩ (.whole ⟨1, 1⟩ "x" none) (.binary ⟨1, 14⟩ .multiply
        (.call ⟨1, 6⟩ "f" [.int ⟨1, 8⟩ 1, .int ⟨1, 11⟩ 2])
        (.sign ⟨1, 16⟩ .negate (.int ⟨1, 17⟩ 3)))) := by
    with_unfolding_all rfl
  exact ⟨eq_ok_of_toOption (by decide +kernel), _, h,
    (inPlace_iff_alternates h).mpr (by decide +kernel)⟩

end AlgoFrontEnd.Grammar
