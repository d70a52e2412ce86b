import AlgoFrontEnd.Proofs.Grammar.Blocks
import AlgoFrontEnd.Proofs.Grammar.Conservation

/-! Statements laid out in lines. Main statement: every layout is read back as its statements, and
what is read never puts anything behind a conditional that begins an else part. -/
namespace AlgoFrontEnd
open Token (Form)

mutual
/-- The expressions that statements consist of, at every depth. -/
def Stmt.exprs {α : Type} : Stmt α → List (Expr α)
  | .function _ _ body => Stmt.exprsAll body
  | .branch _ c thenBody elseBody => c :: Stmt.exprsAll thenBody ++ Stmt.exprsAll elseBody
  | .loop _ c body => c :: Stmt.exprsAll body
  | .give _ (some e) | .expr e => [e]
  | .give _ none | .declare _ _ => []

def Stmt.exprsAll {α : Type} : List (Stmt α) → List (Expr α)
  | [] => []
  | s :: ss => s.exprs ++ Stmt.exprsAll ss
end

theorem Stmt.exprsAll_append {α : Type} (xs ys : List (Stmt α)) :
    Stmt.exprsAll (xs ++ ys) = Stmt.exprsAll xs ++ Stmt.exprsAll ys := by
  induction xs with
  | nil => rfl
  | cons s ss ih => simp only [List.cons_append, Stmt.exprsAll, ih, List.append_assoc]

namespace Grammar

/-! ### Headers -/

section
variable {α : Type}

/-- How a type is declared. -/
def typeWriting : Option TypeRef → List Form
  | none => []
  | some type => [.mark .colon, typeForm type]

def parametersWriting : List (Parameter α) → List Form
  | [] => []
  | [p] => .name p.name :: typeWriting p.type
  | p :: q :: ps =>
    .name p.name :: typeWriting p.type ++ .mark .comma :: parametersWriting (q :: ps)

def headerWriting (h : Header α) : List Form :=
  .name h.name :: .mark .openParen ::
    (parametersWriting h.parameters ++ .mark .closeParen :: typeWriting h.result)

end

theorem forms_eq_cons {ts : List Token} {f : Form} {fs : List Form}
    (h : ts.map (·.form) = f :: fs) : ∃ p us, ts = ⟨f, p⟩ :: us ∧ us.map (·.form) = fs := by
  obtain ⟨⟨_, p⟩, us, rfl, rfl, hus⟩ := List.map_eq_cons_iff.mp h
  exact ⟨p, us, rfl, hus⟩

theorem resultType?_written {type : Option TypeRef} {ts : List Token}
    (h : ts.map (·.form) = typeWriting type) (stop : Position) {rest : List Token}
    (hr : ∀ t ∈ rest.head?, t.form ≠ .mark .colon) :
    resultType? stop (ts ++ rest) = .ok (type, rest) := by
  cases type with
  | none =>
    obtain rfl := List.map_eq_nil_iff.mp h
    cases rest with
    | nil => rfl
    | cons t rest =>
      obtain ⟨form, p⟩ := t
      have := hr _ rfl
      rw [List.nil_append]
      unfold resultType?
      split <;> simp_all
  | some type =>
    obtain ⟨p, us, rfl, hus⟩ := forms_eq_cons h
    obtain ⟨q, vs, rfl, hvs⟩ := forms_eq_cons hus
    obtain rfl := List.map_eq_nil_iff.mp hvs
    obtain ⟨name, isArray⟩ := type
    cases isArray <;> rfl

theorem parameters_written {ps : List (Parameter Unit)} (hne : ps ≠ []) {ts : List Token}
    (h : ts.map (·.form) = parametersWriting ps) (stop closer : Position) (rest : List Token) :
    ∃ ps', parameters stop (ts ++ ⟨.mark .closeParen, closer⟩ :: rest) =
        .ok (ps', ⟨.mark .closeParen, closer⟩ :: rest) ∧
      ps'.map (Parameter.map fun _ => ()) = ps := by
  induction ps using parametersWriting.induct generalizing ts with
  | case1 => exact absurd rfl hne
  | case2 p =>
    obtain ⟨at', us, rfl, hus⟩ := forms_eq_cons h
    have ht : resultType? stop (us ++ ⟨.mark .closeParen, closer⟩ :: rest) = .ok (p.type, _) :=
      resultType?_written hus stop (by simp)
    exact ⟨[⟨at', p.name, p.type⟩], parameters_last ht (by simp), rfl⟩
  | case3 p q ps ih =>
    obtain ⟨at', us, rfl, hus⟩ := forms_eq_cons h
    obtain ⟨typing, vs, rfl, htyping, hvs⟩ := List.map_eq_append_iff.mp hus
    obtain ⟨comma, ws, rfl, hws⟩ := forms_eq_cons hvs
    obtain ⟨ps', hps, hmap⟩ := ih (by simp) hws
    have ht : resultType? stop (typing ++
        ⟨.mark .comma, comma⟩ :: (ws ++ ⟨.mark .closeParen, closer⟩ :: rest)) = .ok (p.type, _) :=
      resultType?_written htyping stop (by simp)
    refine ⟨⟨at', p.name, p.type⟩ :: ps', ?_, congrArg (p :: ·) hmap⟩
    simp only [List.cons_append, List.append_assoc]
    rw [parameters_comma ht, hps]
    rfl

theorem header_written {h : Header Unit} {ts : List Token}
    (ht : ts.map (·.form) = headerWriting h) (stop : Position) :
    ∃ h', header stop ts = .ok h' ∧ h'.map (fun _ => ()) = h := by
  obtain ⟨p, us, rfl, hus⟩ := forms_eq_cons ht
  obtain ⟨opener, vs, rfl, hvs⟩ := forms_eq_cons hus
  obtain ⟨params, ws, rfl, hparams, hws⟩ := List.map_eq_append_iff.mp hvs
  obtain ⟨closer, typing, rfl, htyping⟩ := forms_eq_cons hws
  have hr : resultType? stop typing = .ok (h.result, []) := by
    rw [← List.append_nil typing]
    exact resultType?_written htyping stop (by simp)
  obtain ⟨name, ps, result⟩ := h
  cases ps with
  | nil =>
    obtain rfl := List.map_eq_nil_iff.mp hparams
    refine ⟨⟨name, [], result⟩, ?_, rfl⟩
    exact bind_eq_ok.mpr ⟨_, rfl, bind_eq_ok.mpr ⟨_, rfl, bind_eq_ok.mpr ⟨_, rfl,
      bind_eq_ok.mpr ⟨_, hr, rfl⟩⟩⟩⟩
  | cons q ps =>
    obtain ⟨ps', hps, hmap⟩ := parameters_written (by simp) hparams stop closer typing
    refine ⟨⟨name, ps', result⟩, ?_, by simp only [Header.map, hmap]⟩
    refine bind_eq_ok.mpr ⟨_, rfl, ?_⟩
    split
    · rename_i he
      rw [he, parameters.eq_def] at hps
      exact absurd hps fault_ne_ok
    · exact bind_eq_ok.mpr ⟨_, hps, bind_eq_ok.mpr ⟨_, rfl, bind_eq_ok.mpr ⟨_, hr, rfl⟩⟩⟩

/-! ### Lines -/

/-- Tokens that a line may write an expression with. -/
def Spells (ts : List Token) (e : Expr Unit) : Prop :=
  ∃ stop e', expression stop ts = .ok e' ∧ e'.map (fun _ => ()) = e

/-- Where the line stops matters to lines without an expression only. -/
theorem Spells.read {ts : List Token} {e : Expr Unit} (h : Spells ts e) (stop : Position) :
    ∃ e', expression stop ts = .ok e' ∧ e'.map (fun _ => ()) = e := by
  obtain ⟨stop', e', he, hmap⟩ := h
  cases ts with
  | nil => exact absurd he fault_ne_ok
  | cons t ts => exact ⟨e', he, hmap⟩

theorem Spells.inner {ts : List Token} {e : Expr Unit} (h : Spells ts e) :
    ∀ t ∈ ts, Inner t := by
  obtain ⟨stop, e', he, -⟩ := h
  exact inner_of_expression he

def endAt (p stop : Position) : TokenLine := ⟨[⟨.keyword .endWord, p⟩], stop⟩

mutual
/-- The lines that a statement may be written in. -/
inductive Layout : Stmt Unit → List TokenLine → Prop
  | expr {e : Expr Unit} {ts : List Token} (stop : Position) (h : Spells ts e) :
      Layout (.expr e) [⟨ts, stop⟩]
  | give (p stop : Position) : Layout (.give () none) [⟨[⟨.keyword .returnWord, p⟩], stop⟩]
  | giveValue {e : Expr Unit} {ts : List Token} (p stop : Position) (h : Spells ts e) :
      Layout (.give () (some e)) [⟨⟨.keyword .returnWord, p⟩ :: ts, stop⟩]
  | declare {head : Header Unit} {ts : List Token} (p q stop : Position)
      (h : ts.map (·.form) = headerWriting head) :
      Layout (.declare () head)
        [⟨⟨.keyword .declareWord, p⟩ :: ⟨.keyword .functionWord, q⟩ :: ts, stop⟩]
  | function {head : Header Unit} {body : List (Stmt Unit)} {ts : List Token}
      {ls : List TokenLine} (p stop q last : Position)
      (h : ts.map (·.form) = headerWriting head) (hb : Layouts body ls) :
      Layout (.function () head body)
        (⟨⟨.keyword .functionWord, p⟩ :: ts, stop⟩ :: ls ++ [endAt q last])
  | loop {c : Expr Unit} {body : List (Stmt Unit)} {ts : List Token} {ls : List TokenLine}
      (p stop q last : Position) (h : Spells ts c) (hb : Layouts body ls) :
      Layout (.loop () c body) (⟨⟨.keyword .whileWord, p⟩ :: ts, stop⟩ :: ls ++ [endAt q last])
  | branch {c : Expr Unit} {thenBody elseBody : List (Stmt Unit)} {ls : List TokenLine}
      (q last : Position) (h : Unended c thenBody elseBody ls) :
      Layout (.branch () c thenBody elseBody) (ls ++ [endAt q last])

/-- The lines of a conditional without its end, which it has in common with the one that its else
part consists of. -/
inductive Unended : Expr Unit → List (Stmt Unit) → List (Stmt Unit) → List TokenLine → Prop
  | plain {c : Expr Unit} {thenBody : List (Stmt Unit)} {ts : List Token} {ls : List TokenLine}
      (p stop : Position) (h : Spells ts c) (ht : Layouts thenBody ls) :
      Unended c thenBody [] (⟨⟨.keyword .ifWord, p⟩ :: ts, stop⟩ :: ls)
  | otherwise {c : Expr Unit} {thenBody elseBody : List (Stmt Unit)} {ts : List Token}
      {ls ms : List TokenLine} (p stop q last : Position) (h : Spells ts c)
      (ht : Layouts thenBody ls) (hn : ∀ s, elseBody = [s] → s.isBranch = false)
      (he : Layouts elseBody ms) :
      Unended c thenBody elseBody
        (⟨⟨.keyword .ifWord, p⟩ :: ts, stop⟩ :: ls ++ ⟨[⟨.keyword .elseWord, q⟩], last⟩ :: ms)
  | chained {c c' : Expr Unit} {thenBody thenBody' elseBody' : List (Stmt Unit)}
      {ts : List Token} {ls ms : List TokenLine} {first : TokenLine} (p stop q : Position)
      (h : Spells ts c) (ht : Layouts thenBody ls)
      (he : Unended c' thenBody' elseBody' (first :: ms)) :
      Unended c thenBody [.branch () c' thenBody' elseBody']
        (⟨⟨.keyword .ifWord, p⟩ :: ts, stop⟩ :: ls ++
          ⟨⟨.keyword .elseWord, q⟩ :: first.tokens, first.stop⟩ :: ms)

/-- The lines of one statement after the other. -/
inductive Layouts : List (Stmt Unit) → List TokenLine → Prop
  | nil : Layouts [] []
  | cons {s : Stmt Unit} {ss : List (Stmt Unit)} {ls ms : List TokenLine} (h : Layout s ls)
      (hs : Layouts ss ms) : Layouts (s :: ss) (ls ++ ms)
end

/-! ### Reading -/

namespace Reading

theorem lines_of_step {r r₁ r₂ : Reading} {l : TokenLine} {ls : List TokenLine}
    (h : r.Step l.stop l.tokens r₁) (hs : r₁.lines ls = .ok r₂) : r.lines (l :: ls) = .ok r₂ :=
  bind_eq_ok.mpr ⟨r₁, line_of_step h, hs⟩

theorem lines_trans {r r₁ r₂ : Reading} {ls ms : List TokenLine}
    (h : r.lines ls = .ok r₁) (hs : r₁.lines ms = .ok r₂) : r.lines (ls ++ ms) = .ok r₂ := by
  rw [lines_append]
  exact bind_eq_ok.mpr ⟨r₁, h, hs⟩

theorem lines_end {r r₁ : Reading} (h : close r.body r.enclosing = some r₁)
    (p stop : Position) : r.lines [endAt p stop] = .ok r₁ :=
  lines_of_step (.close h) rfl

theorem turn_enter (r : Reading) (p : Position) (c : Expr Position)
    (thenBody : List (Stmt Position)) (chained : Bool) :
    turn ⟨thenBody.reverse ++ [], (r.enter (.thenPart p c chained)).enclosing⟩ =
      some (r.enter (.elsePart p c thenBody chained)) := by
  simp [turn, enter]

theorem close_enter (r : Reading) (b : Block) (body : List (Stmt Position)) :
    close (body.reverse ++ []) (r.enter b).enclosing =
      if b.isChained then close (b.complete body :: r.body) r.enclosing
      else some (r.add (b.complete body)) := by
  rw [List.append_nil]
  simp only [enter, close, List.reverse_reverse]
  rfl

/-- A block that is chained to none becomes a statement at its end. -/
theorem lines_block {r : Reading} {b : Block} (hb : b.isChained = false) {l : TokenLine}
    {ls : List TokenLine} {body : List (Stmt Position)} (hl : r.Step l.stop l.tokens (r.enter b))
    (hs : (r.enter b).lines ls = .ok ⟨body.reverse ++ [], (r.enter b).enclosing⟩)
    (p stop : Position) :
    r.lines (l :: ls ++ [endAt p stop]) = .ok (r.add (b.complete body)) := by
  refine lines_trans (lines_of_step hl hs) (lines_end ?_ p stop)
  rw [close_enter, hb]
  rfl

end Reading

theorem step_expression {r : Reading} {stop : Position} {ts : List Token} {e : Expr Position}
    (h : expression stop ts = .ok e) : r.Step stop ts (r.add (.expr e)) := by
  cases ts with
  | nil => exact absurd h fault_ne_ok
  | cons t ts => exact .expr (inner_of_expression h t (List.mem_cons_self ..)).2 h

theorem opensBranch_eq_false {ss : List (Stmt Unit)} (h : LoneBranch ss)
    (hn : ∀ s, ss = [s] → s.isBranch = false) : opensBranch ss = false := by
  by_contra ho
  obtain ⟨s, rfl⟩ := List.length_eq_one_iff.mp (h (Bool.eq_true_of_not_eq_false ho))
  exact ho (hn s rfl)

mutual
/-- A statement that is laid out is read back as it is, and nothing else is read. -/
theorem Layout.read : {s : Stmt Unit} → {ls : List TokenLine} → Layout s ls → s.ElseAlone →
    (r : Reading) → (r.startsElse = true → s.isBranch = false) →
    ∃ s', s'.map (fun _ => ()) = s ∧ r.lines ls = .ok (r.add s')
  | _, _, .expr stop h, _, r, _ => by
    obtain ⟨e', he, rfl⟩ := h.read stop
    exact ⟨.expr e', rfl, r.lines_of_step (step_expression he) rfl⟩
  | _, _, .give p stop, _, r, _ => ⟨.give p none, rfl, r.lines_of_step .give rfl⟩
  | _, _, .giveValue p stop h, _, r, _ => by
    obtain ⟨e', he, rfl⟩ := h.read stop
    exact ⟨.give p (some e'), rfl, r.lines_of_step (.giveValue he) rfl⟩
  | _, _, .declare p q stop h, _, r, _ => by
    obtain ⟨head, hh, rfl⟩ := header_written h stop
    exact ⟨.declare p head, rfl, r.lines_of_step (.declare hh) rfl⟩
  | _, _, .function p stop q last h hb, hs, r, _ => by
    obtain ⟨head, hh, rfl⟩ := header_written h stop
    obtain ⟨body, rfl, hbody⟩ := hb.read hs (r.enter (.function p head)) nofun
    refine ⟨.function p head body, ?_, r.lines_block rfl (.function hh) hbody q last⟩
    rw [Stmt.map, Stmt.mapAll_eq_map]
  | _, _, .loop p stop q last h hb, hs, r, _ => by
    obtain ⟨c, hc, rfl⟩ := h.read stop
    obtain ⟨body, rfl, hbody⟩ := hb.read hs (r.enter (.loop p c)) nofun
    refine ⟨.loop p c body, ?_, r.lines_block rfl (.loop hc) hbody q last⟩
    rw [Stmt.map, Stmt.mapAll_eq_map]
  | _, _, .branch q last h, hs, r, hr => by
    obtain ⟨s', r', hmap, hls, hc⟩ := h.read hs r
    rw [if_neg fun h => by cases hr h] at hc
    exact ⟨s', hmap, Reading.lines_trans hls (Reading.lines_end hc q last)⟩

theorem Unended.read : {c : Expr Unit} → {thenBody elseBody : List (Stmt Unit)} →
    {ls : List TokenLine} → Unended c thenBody elseBody ls →
    (Stmt.branch () c thenBody elseBody).ElseAlone → (r : Reading) →
    ∃ s' r', s'.map (fun _ => ()) = .branch () c thenBody elseBody ∧ r.lines ls = .ok r' ∧
      Reading.close r'.body r'.enclosing =
        if r.startsElse then Reading.close (s' :: r.body) r.enclosing else some (r.add s')
  | _, _, _, _, .plain p stop h ht, hs, r => by
    obtain ⟨c, hc, rfl⟩ := h.read stop
    obtain ⟨thenBody, rfl, hthen⟩ := ht.read hs.1 (r.enter (.thenPart p c r.startsElse)) nofun
    refine ⟨.branch p c thenBody [], _, ?_, Reading.lines_of_step (.branch hc) hthen, ?_⟩
    · rw [Stmt.map, Stmt.mapAll_eq_map]
      rfl
    · exact r.close_enter _ thenBody
  | _, _, _, _, .otherwise p stop q last h ht hn he, hs, r => by
    obtain ⟨c, hc, rfl⟩ := h.read stop
    obtain ⟨thenBody, rfl, hthen⟩ := ht.read hs.1 (r.enter (.thenPart p c r.startsElse)) nofun
    obtain ⟨elseBody, rfl, helse⟩ :=
      he.read hs.2.1 (r.enter (.elsePart p c thenBody r.startsElse))
        fun _ => opensBranch_eq_false hs.2.2 hn
    refine ⟨.branch p c thenBody elseBody, _, ?_, Reading.lines_trans
      (Reading.lines_of_step (.branch hc) hthen)
      (Reading.lines_of_step (.otherwise (r.turn_enter p c thenBody _) .blank) helse), ?_⟩
    · rw [Stmt.map, Stmt.mapAll_eq_map, Stmt.mapAll_eq_map]
    · exact r.close_enter _ elseBody
  | _, _, _, _, .chained p stop q h ht he, hs, r => by
    obtain ⟨c, hc, rfl⟩ := h.read stop
    obtain ⟨thenBody, rfl, hthen⟩ := ht.read hs.1 (r.enter (.thenPart p c r.startsElse)) nofun
    obtain ⟨s', r', hmap, helse, hclose⟩ :=
      he.read hs.2.1.1 (r.enter (.elsePart p c thenBody r.startsElse))
    obtain ⟨r₁, hfirst, helse⟩ := bind_eq_ok.mp helse
    refine ⟨.branch p c thenBody [s'], r', ?_, Reading.lines_trans
      (Reading.lines_of_step (.branch hc) hthen)
      (Reading.lines_of_step (.otherwise (r.turn_enter p c thenBody _) (step_of_line hfirst))
        helse), ?_⟩
    · rw [Stmt.map, Stmt.mapAll_eq_map, Stmt.mapAll, hmap, Stmt.mapAll]
    · rw [hclose]
      exact r.close_enter _ [s']

theorem Layouts.read : {ss : List (Stmt Unit)} → {ls : List TokenLine} → Layouts ss ls →
    Stmt.ElseAloneAll ss → (r : Reading) → (r.startsElse = true → opensBranch ss = false) →
    ∃ ss' : List (Stmt Position), ss'.map (Stmt.map fun _ => ()) = ss ∧
      r.lines ls = .ok ⟨ss'.reverse ++ r.body, r.enclosing⟩
  | _, _, .nil, _, r, _ => ⟨[], rfl, rfl⟩
  | _, _, .cons h hs, ha, r, hr => by
    obtain ⟨s', rfl, hls⟩ := h.read ha.1 r hr
    obtain ⟨ss', rfl, hms⟩ := hs.read ha.2 (r.add s') nofun
    refine ⟨s' :: ss', rfl, Reading.lines_trans hls ?_⟩
    rw [hms]
    simp [Reading.add]
end

/-! ### Tokens -/

/-- The tokens of lines, each line with its end. -/
def TokenLine.closed (ls : List TokenLine) : List Token :=
  ls.flatMap fun l => l.tokens ++ [⟨.endLine, l.stop⟩]

theorem ofTokens_closed {ls : List TokenLine} (h : ∀ l ∈ ls, ∀ t ∈ l.tokens, t.form ≠ .endLine) :
    TokenLine.ofTokens (TokenLine.closed ls) = ls := by
  induction ls with
  | nil => rfl
  | cons l ls ih =>
    obtain ⟨hl, hls⟩ := List.forall_mem_cons.mp h
    rw [TokenLine.closed, List.flatMap_cons, List.append_assoc, List.singleton_append,
      ofTokens_append, ofTokens_line hl, ← TokenLine.closed, ih hls]
    rfl

theorem Reading.Step.endLine_notMem {stop : Position} {r r' : Reading} {ts : List Token}
    (h : r.Step stop ts r') : ∀ t ∈ ts, t.form ≠ .endLine := by
  induction h with
  | blank | give | close => simp
  | branch h | loop h | giveValue h =>
    exact List.forall_mem_cons.mpr ⟨nofun, fun t ht => (inner_of_expression h t ht).1⟩
  | function h => exact List.forall_mem_cons.mpr ⟨nofun, fun t ht => (inner_of_header h t ht).1⟩
  | declare h =>
    exact List.forall_mem_cons.mpr ⟨nofun, List.forall_mem_cons.mpr
      ⟨nofun, fun t ht => (inner_of_header h t ht).1⟩⟩
  | otherwise _ _ ih => exact List.forall_mem_cons.mpr ⟨nofun, ih⟩
  | expr _ h => exact fun t ht => (inner_of_expression h t ht).1

theorem Reading.endLine_notMem {r r' : Reading} {ls : List TokenLine} (h : r.lines ls = .ok r') :
    ∀ l ∈ ls, ∀ t ∈ l.tokens, t.form ≠ .endLine := by
  induction ls generalizing r with
  | nil => nofun
  | cons l ls ih =>
    obtain ⟨r₁, hl, hls⟩ := bind_eq_ok.mp h
    exact List.forall_mem_cons.mpr ⟨(step_of_line hl).endLine_notMem, ih hls⟩

theorem program_layouts {ss : List (Stmt Unit)} {ls : List TokenLine} (h : Layouts ss ls)
    (hs : Stmt.ElseAloneAll ss) :
    ∃ p, program (TokenLine.closed ls) = .ok p ∧ p.map (Stmt.map fun _ => ()) = ss := by
  obtain ⟨p, hp, hls⟩ := h.read hs .start nofun
  refine ⟨p, bind_eq_ok.mpr ⟨⟨p.reverse, []⟩, ?_, ?_⟩, hp⟩
  · rw [ofTokens_closed (Reading.endLine_notMem hls), hls]
    simp [Reading.start]
  · simp [pure, Except.pure]

/-! ### Writing -/

theorem forms_tokens (p : Position) (fs : List Form) :
    (fs.map fun f => (⟨f, p⟩ : Token)).map (·.form) = fs := by
  rw [List.map_map]
  exact List.map_id fs

theorem eq_branch_of_isBranch {s : Stmt Unit} (h : s.isBranch = true) :
    ∃ c thenBody elseBody, s = .branch () c thenBody elseBody := by
  cases s with
  | branch _ c thenBody elseBody => exact ⟨c, thenBody, elseBody, rfl⟩
  | _ => cases h

mutual
/-- A statement can be written in lines if its expressions can, and a conditional also without
its end. -/
theorem exists_layout (p : Position) : (s : Stmt Unit) → (∀ e ∈ s.exprs, ∃ ts, Spells ts e) →
    (∃ ls, Layout s ls) ∧ ∀ c thenBody elseBody, s = .branch () c thenBody elseBody →
      ∃ l ls, Unended c thenBody elseBody (l :: ls)
  | .expr e, h => by
    obtain ⟨ts, hts⟩ := h e (List.mem_singleton_self e)
    exact ⟨⟨_, .expr p hts⟩, nofun⟩
  | .give _ none, _ => ⟨⟨_, .give p p⟩, nofun⟩
  | .give _ (some e), h => by
    obtain ⟨ts, hts⟩ := h e (List.mem_singleton_self e)
    exact ⟨⟨_, .giveValue p p hts⟩, nofun⟩
  | .declare _ head, _ => ⟨⟨_, .declare p p p (forms_tokens p (headerWriting head))⟩, nofun⟩
  | .function _ head body, h => by
    obtain ⟨ls, hls⟩ := exists_layouts p body h
    exact ⟨⟨_, .function p p p p (forms_tokens p (headerWriting head)) hls⟩, nofun⟩
  | .loop _ c body, h => by
    obtain ⟨⟨ts, hts⟩, hbody⟩ := List.forall_mem_cons.mp h
    obtain ⟨ls, hls⟩ := exists_layouts p body hbody
    exact ⟨⟨_, .loop p p p p hts hls⟩, nofun⟩
  | .branch _ c thenBody elseBody, h => by
    obtain ⟨⟨ts, hts⟩, hbodies⟩ := List.forall_mem_cons.mp h
    obtain ⟨hthen, helse⟩ := List.forall_mem_append.mp hbodies
    obtain ⟨ls, hls⟩ := exists_layouts p thenBody hthen
    have hu : ∃ l ls, Unended c thenBody elseBody (l :: ls) := by
      match elseBody with
      | [] => exact ⟨_, _, .plain p p hts hls⟩
      | [s] =>
        rw [Stmt.exprsAll, Stmt.exprsAll, List.append_nil] at helse
        obtain ⟨⟨ms, hms⟩, hchain⟩ := exists_layout p s helse
        cases hb : s.isBranch with
        | false =>
          have hn : ∀ s', [s] = [s'] → s'.isBranch = false := by
            rintro _ ⟨⟩
            exact hb
          exact ⟨_, _, .otherwise p p p p hts hls hn (.cons hms .nil)⟩
        | true =>
          obtain ⟨c', thenBody', elseBody', rfl⟩ := eq_branch_of_isBranch hb
          obtain ⟨first, ms, hms⟩ := hchain c' thenBody' elseBody' rfl
          exact ⟨_, _, .chained p p p hts hls hms⟩
      | s :: s' :: ss =>
        obtain ⟨ms, hms⟩ := exists_layouts p (s :: s' :: ss) helse
        exact ⟨_, _, .otherwise p p p p hts hls nofun hms⟩
    obtain ⟨l, ms, hms⟩ := hu
    refine ⟨⟨_, .branch p p hms⟩, ?_⟩
    rintro _ _ _ ⟨⟩
    exact ⟨l, ms, hms⟩

theorem exists_layouts (p : Position) : (ss : List (Stmt Unit)) →
    (∀ e ∈ Stmt.exprsAll ss, ∃ ts, Spells ts e) → ∃ ls, Layouts ss ls
  | [], _ => ⟨[], .nil⟩
  | s :: ss, h => by
    obtain ⟨hs, hss⟩ := List.forall_mem_append.mp h
    obtain ⟨⟨ls, hls⟩, -⟩ := exists_layout p s hs
    obtain ⟨ms, hms⟩ := exists_layouts p ss hss
    exact ⟨ls ++ ms, .cons hls hms⟩
end

/-! ### There and back -/

/-- Statements can be written in lines, unless an else part puts more behind a conditional that it
begins with. However they are written, they are read back, and nothing else is ever read. -/
theorem statements_read_back :
    (∀ ss : List (Stmt Unit), Stmt.ElseAloneAll ss →
      (∀ e ∈ Stmt.exprsAll ss, ∃ ts, Spells ts e) →
        (∃ ls, Layouts ss ls) ∧
        ∀ ls, Layouts ss ls →
          ∃ p, program (TokenLine.closed ls) = .ok p ∧ p.map (Stmt.map fun _ => ()) = ss) ∧
    ∀ ts p, program ts = .ok p → Stmt.ElseAloneAll p :=
  ⟨fun ss ha hs => ⟨exists_layouts ⟨1, 1⟩ ss hs, fun _ hls => program_layouts hls ha⟩,
    fun _ _ hp => elseAlone_of_program hp⟩

/-- A chain of conditionals around a loop, a function and a declaration. -/
def ladderText : List String :=
  ["if a", "f(1)", "else if b", "while c", "x <- 2", "end", "else", "return x", "end",
    "function g(n: int): int", "return", "end", "declare function h()"]

def ladder : List (Stmt Unit) :=
  let name (text : String) : Expr Unit := .place (.whole () text none)
  [.branch () (name "a") [.expr (.call () "f" [.int () 1])]
      [.branch () (name "b")
        [.loop () (name "c") [.expr (.assign () (.whole () "x" none) (.int () 2))]]
        [.give () (some (name "x"))]],
    .function () ⟨"g", [⟨(), "n", some ⟨"int", false⟩⟩], some ⟨"int", false⟩⟩ [.give () none],
    .declare () ⟨"h", [], none⟩]

theorem ladder_read_back :
    ∃ ls, Layouts ladder ls ∧ Token.ofLines ladderText = .ok (TokenLine.closed ls) ∧
      ∃ p, program (TokenLine.closed ls) = .ok p ∧ p.map (Stmt.map fun _ => ()) = ladder := by
  have name (text : String) (p : Position) :
      Spells [⟨.name text, p⟩] (.place (.whole () text none)) :=
    ⟨p, .place (.whole p text none), by with_unfolding_all rfl, rfl⟩
  have call : Spells [⟨.call "f", ⟨2, 1⟩⟩, ⟨.mark .openParen, ⟨2, 2⟩⟩, ⟨.int 1, ⟨2, 3⟩⟩,
      ⟨.mark .closeParen, ⟨2, 4⟩⟩] (.call () "f" [.int () 1]) :=
    ⟨⟨2, 5⟩, .call ⟨2, 1⟩ "f" [.int ⟨2, 3⟩ 1], by with_unfolding_all rfl, rfl⟩
  have store : Spells [⟨.name "x", ⟨5, 1⟩⟩, ⟨.connective .assign, ⟨5, 3⟩⟩, ⟨.int 2, ⟨5, 6⟩⟩]
      (.assign () (.whole () "x" none) (.int () 2)) :=
    ⟨⟨5, 7⟩, .assign ⟨5, 1⟩ (.whole ⟨5, 1⟩ "x" none) (.int ⟨5, 6⟩ 2),
      by with_unfolding_all rfl, rfl⟩
  have typed : ([⟨.name "g", ⟨10, 10⟩⟩, ⟨.mark .openParen, ⟨10, 11⟩⟩, ⟨.name "n", ⟨10, 12⟩⟩,
      ⟨.mark .colon, ⟨10, 13⟩⟩, ⟨.typeName "int", ⟨10, 15⟩⟩, ⟨.mark .closeParen, ⟨10, 18⟩⟩,
      ⟨.mark .colon, ⟨10, 19⟩⟩, ⟨.typeName "int", ⟨10, 21⟩⟩] : List Token).map (·.form) =
      headerWriting (⟨"g", [⟨(), "n", some ⟨"int", false⟩⟩], some ⟨"int", false⟩⟩ : Header Unit) :=
    rfl
  have untyped : ([⟨.name "h", ⟨13, 18⟩⟩, ⟨.mark .openParen, ⟨13, 19⟩⟩,
      ⟨.mark .closeParen, ⟨13, 20⟩⟩] : List Token).map (·.form) =
      headerWriting (⟨"h", [], none⟩ : Header Unit) := rfl
  have inner := Unended.otherwise ⟨3, 6⟩ ⟨3, 10⟩ ⟨7, 1⟩ ⟨7, 5⟩ (name "b" ⟨3, 9⟩)
    (.cons (.loop ⟨4, 1⟩ ⟨4, 8⟩ ⟨6, 1⟩ ⟨6, 4⟩ (name "c" ⟨4, 7⟩)
      (.cons (.expr ⟨5, 7⟩ store) .nil)) .nil)
    (fun s h => by cases h; rfl) (.cons (.giveValue ⟨8, 1⟩ ⟨8, 9⟩ (name "x" ⟨8, 8⟩)) .nil)
  have chain := Layout.branch ⟨9, 1⟩ ⟨9, 4⟩ (.chained ⟨1, 1⟩ ⟨1, 5⟩ ⟨3, 1⟩ (name "a" ⟨1, 4⟩)
    (.cons (.expr ⟨2, 5⟩ call) .nil) inner)
  have function := Layout.function ⟨10, 1⟩ ⟨10, 24⟩ ⟨12, 1⟩ ⟨12, 4⟩ typed
    (.cons (.give ⟨11, 1⟩ ⟨11, 7⟩) .nil)
  have hls : Layouts ladder _ :=
    .cons chain (.cons function (.cons (.declare ⟨13, 1⟩ ⟨13, 9⟩ ⟨13, 21⟩ untyped) .nil))
  have halone : Stmt.ElseAloneAll ladder := by
    simp [ladder, Stmt.ElseAloneAll, Stmt.ElseAlone, LoneBranch, opensBranch, Stmt.isBranch]
  have hspelled : ∀ e ∈ Stmt.exprsAll ladder, ∃ ts, Spells ts e := by
    simp only [ladder, Stmt.exprsAll, Stmt.exprs, List.append_nil, List.cons_append,
      List.nil_append, List.forall_mem_cons]
    exact ⟨⟨_, name "a" ⟨1, 4⟩⟩, ⟨_, call⟩, ⟨_, name "b" ⟨3, 9⟩⟩, ⟨_, name "c" ⟨4, 7⟩⟩,
      ⟨_, store⟩, ⟨_, name "x" ⟨8, 8⟩⟩, List.forall_mem_nil _⟩
  exact ⟨_, hls, eq_ok_of_toOption (by decide +kernel),
    (statements_read_back.1 ladder halone hspelled).2 _ hls⟩

end Grammar
end AlgoFrontEnd
