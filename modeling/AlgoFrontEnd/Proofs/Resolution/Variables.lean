import AlgoFrontEnd.Proofs.Resolution.Linking
import AlgoFrontEnd.Proofs.Resolution.Uses

/-! What the names of a program mean in its functions. Main statement: a name means the variable of
the nearest function around it that has bound it by then, and no nearer function has a variable
of that name but one that it binds later. -/
namespace AlgoFrontEnd.Resolution

/-- What is known of a function around a use: it has bound the names of its level, and its
variables go on from there. -/
structure Knows (functions : List Routine) (l : Level) (a : Enclosing) : Prop where
  names : ∀ name, name ∈ l.bindings.map (·.name) ↔ name ∈ a.names
  later : ∃ F, functions[a.index]? = some F ∧ l.bindings <+: F.variables

/-- A body on its way to a later one of the same function. -/
structure Between (functions : List Routine) (F : Routine) (here : Enclosing) (b b' : Body) :
    Prop where
  own : functions[here.index]? = some F
  names : ∀ name, name ∈ b.names ↔ name ∈ here.names
  later : b'.level.bindings <+: F.variables

section
variable {functions : List Routine} {F : Routine} {here : Enclosing} {b b₁ b' : Body}
  {xs : List String}

theorem Between.first (h : Between functions F here b b') (hg : Grows xs b₁ b') :
    Between functions F here b b₁ :=
  ⟨h.own, h.names, hg.isPrefix.trans h.later⟩

theorem Between.rest (h : Between functions F here b b') (hg : Grows xs b b₁) :
    Between functions F (here.bind xs) b₁ b' := by
  refine ⟨h.own, ?_, h.later⟩
  intro name
  rw [hg.mem_names_iff, h.names, Enclosing.bind, List.mem_append]

theorem Between.knows (h : Between functions F here b b) : Knows functions b.level here :=
  ⟨h.names, F, h.own, h.later⟩

theorem Knows.typeOf? {l : Level} {a : Enclosing} (h : Knows functions l a) {name : String}
    {type : Ty} (hl : l.binding? name = some type) : a.typeOf? functions name = some type := by
  obtain ⟨F, hF, hp⟩ := h.later
  rw [Enclosing.typeOf?, hF]
  exact Binding.type?_mono hp hl

theorem Knows.exists_type {l : Level} {a : Enclosing} (h : Knows functions l a) {name : String}
    (hn : name ∈ a.names) :
    ∃ type, l.binding? name = some type ∧ a.typeOf? functions name = some type := by
  obtain ⟨type, ht⟩ := Option.isSome_iff_exists.mp
    (Level.isSome_binding?_iff.mpr ((h.names name).mpr hn))
  exact ⟨type, ht, h.typeOf? ht⟩

theorem isSome_typeOf?_of_knows {scope : Scope} {around : List Enclosing}
    (h : List.Forall₂ (Knows functions) scope around) :
    ∀ a ∈ around, ∀ name ∈ a.names, (a.typeOf? functions name).isSome = true := by
  induction h with
  | nil => exact List.forall_mem_nil _
  | @cons l a scope around hk _ ih =>
    refine List.forall_mem_cons.mpr ⟨?_, ih⟩
    intro name hn
    obtain ⟨type, -, hv⟩ := hk.exists_type hn
    exact Option.isSome_of_eq_some hv

/-- The nearest function that has bound a name gives it its type. The nearest one that has a
variable of the name is either the same or binds the name later. -/
theorem find?_of_binding? {scope : Scope} {around : List Enclosing} {name : String} {type : Ty}
    (h : List.Forall₂ (Knows functions) scope around) (hs : scope.binding? name = some type) :
    (∃ H, around.find? (name ∈ ·.names) = some H ∧ H.typeOf? functions name = some type) ∧
    ∃ G held, around.find? (fun a => (a.typeOf? functions name).isSome) = some G ∧
      G.typeOf? functions name = some held ∧ (name ∈ G.names → held = type) := by
  induction h with
  | nil => cases hs
  | @cons l a scope around hk _ ih =>
    by_cases hn : name ∈ a.names
    · obtain ⟨bound, hb, hv⟩ := hk.exists_type hn
      obtain rfl : bound = type := by simpa [Scope.binding?, hb] using hs
      exact ⟨⟨a, by simp [hn], hv⟩, a, bound, by simp [hv], hv, fun _ => rfl⟩
    · have hb : l.binding? name = none :=
        Level.binding?_eq_none_iff.mpr fun hm => hn ((hk.names name).mp hm)
      obtain ⟨⟨H, hH, hHv⟩, G, held, hG, hGv, hheld⟩ := ih (by simpa [Scope.binding?, hb] using hs)
      refine ⟨⟨H, by simpa [hn] using hH, hHv⟩, ?_⟩
      cases ha : a.typeOf? functions name with
      | none => exact ⟨G, held, by simpa [ha] using hG, hGv, hheld⟩
      | some later => exact ⟨a, later, by simp [ha], ha, fun hm => absurd hm hn⟩

end

/-! ### Places -/

section
variable {functions : List Routine} {F : Routine} {here : Enclosing} {outer : Scope}
  {around : List Enclosing} {b b' : Body} {place' : Place Typed}

/-- A place that carries the type of the nearest binding keeps its meaning. -/
theorem kept_of_binding? {place : Place Position} {held : Ty}
    (ho : List.Forall₂ (Knows functions) outer around) (hw : Between functions F here b b)
    (hs : Scope.binding? (b.level :: outer) place.name = some held) (hm : place'.Means held)
    (he : place'.map Typed.position = place) :
    Use.Kept functions F ⟨place, here, around⟩ place' := by
  have hknows := List.Forall₂.cons hw.knows ho
  obtain ⟨⟨H, hH, hHv⟩, G, type, hG, hGv, heq⟩ := find?_of_binding? hknows hs
  refine ⟨he, hw.own, isSome_typeOf?_of_knows hknows, ⟨G, type, hG, hGv, ?_⟩, H, held, hH, hHv, hm⟩
  intro hn
  rwa [heq hn]

theorem means_of_agrees {position : Position} {name : String} {written : Option TypeRef}
    {held type : Ty} (h : held.agrees type = true) :
    (Place.whole ⟨position, some type⟩ name written : Place Typed).Means held :=
  ⟨type, rfl, h⟩

theorem means_element {position : Position} {name : String} {offset : Int} {held type : Ty}
    (hi : held.isArray = true) (h : ∀ e ∈ held.element?, e = type) :
    (Place.element ⟨position, some type⟩ name offset : Place Typed).Means held :=
  ⟨hi, type, rfl, fun e he => h e he ▸ e.agrees_refl⟩

theorem readPlace_kept {place : Place Position} {type : Ty}
    (h : readPlace (b.level :: outer) place = .ok (place', type))
    (ho : List.Forall₂ (Knows functions) outer around) (hw : Between functions F here b b) :
    Use.Kept functions F ⟨place, here, around⟩ place' := by
  cases place with
  | whole p name written =>
    obtain ⟨hs, rfl⟩ := readPlace_whole h
    exact kept_of_binding? ho hw hs (means_of_agrees type.agrees_refl) rfl
  | element p name offset =>
    obtain ⟨held, hs, hi, he, rfl⟩ := readPlace_element h
    refine kept_of_binding? ho hw hs (means_element hi ?_) rfl
    intro e hm
    exact Option.some.inj (hm.symm.trans he)

theorem binding?_of_bind {name : String} {type bound : Ty} {position : Position}
    (h : b.bind name type position = .ok (b', bound)) :
    Scope.binding? (b'.level :: outer) name = some bound := by
  simp [Scope.binding?, (bind_binding? h).1]

theorem writePlace_kept {place : Place Position} {position : Position} {actual : Ty}
    (h : writePlace outer b position actual place = .ok (b', place'))
    (ho : List.Forall₂ (Knows functions) outer around) (hw : Between functions F here b' b') :
    Use.Kept functions F ⟨place, here, around⟩ place' := by
  cases place with
  | whole p name written =>
    obtain ⟨type, bound, -, hb, rfl⟩ := writePlace_whole h
    exact kept_of_binding? ho hw (binding?_of_bind hb) (means_of_agrees bound.agrees_refl) rfl
  | element p name offset =>
    obtain ⟨held, hs, hi, -, rfl, rfl⟩ := writePlace_element h
    refine kept_of_binding? ho hw hs (means_element hi ?_) rfl
    intro e hm
    rw [Option.mem_def.mp hm, Option.getD_some]

end

/-! ### Expressions and statements -/

mutual
/-- The places of an expression have kept their meaning. -/
theorem value_kept {functions : List Routine} {F : Routine} {outer : Scope}
    {around : List Enclosing} {here : Enclosing} {b b' : Body} {e' : Expr Typed} {type : Ty}
    (ho : List.Forall₂ (Knows functions) outer around) :
    (e : Expr Position) → value outer b e = .ok (b', e', type) →
    Between functions F here b b' →
    List.Forall₂ (Use.Kept functions F) (e.uses around here) e'.places
  | .int _ _, h, _ | .float _ _, h, _ | .bool _ _, h, _ | .string _ _, h, _ => by
    cases h
    exact .nil
  | .array _ elements, h, hw => by
    obtain ⟨elements', types, hv, -, rfl⟩ := value_array h
    exact values_kept ho elements hv hw
  | .place _, h, hw => by
    obtain ⟨place', hp, rfl, rfl⟩ := value_place h
    exact .cons (readPlace_kept hp ho hw) .nil
  | .call _ _ arguments, h, hw => by
    obtain ⟨arguments', types, symbol, hv, -, -, rfl⟩ := value_call h
    exact values_kept ho arguments hv hw
  | .binary _ _ left right, h, hw => by
    obtain ⟨b₁, left', leftType, right', rightType, hl, hr, -, rfl⟩ := value_binary h
    exact List.rel_append (value_kept ho left hl (hw.first (value_grows right hr)))
      (value_kept ho right hr (hw.rest (value_grows left hl)))
  | .sign _ _ operand, h, hw => by
    obtain ⟨operand', hv, -, rfl⟩ := value_sign h
    rw [Expr.uses, Expr.places]
    exact value_kept ho operand hv hw
  | .assign _ target source, h, hw => by
    obtain ⟨b₁, source', target', hv, ht, rfl⟩ := value_assign h
    have hg := writePlace_grows ht
    have hw' := (hw.rest (value_grows source hv)).rest hg
    exact List.rel_append (value_kept ho source hv (hw.first hg))
      (.cons (writePlace_kept ht ho hw') .nil)

theorem values_kept {functions : List Routine} {F : Routine} {outer : Scope}
    {around : List Enclosing} {here : Enclosing} {b b' : Body} {es' : List (Expr Typed)}
    {types : List Ty} (ho : List.Forall₂ (Knows functions) outer around) :
    (es : List (Expr Position)) → values outer b es = .ok (b', es', types) →
    Between functions F here b b' →
    List.Forall₂ (Use.Kept functions F) (Expr.usesAll around here es) (Expr.placesAll es')
  | [], h, _ => by
    cases h
    exact .nil
  | e :: es, h, hw => by
    obtain ⟨b₁, first, type, rest, more, he, hes, rfl, -⟩ := values_cons h
    exact List.rel_append (value_kept ho e he (hw.first (values_grows es hes)))
      (values_kept ho es hes (hw.rest (value_grows e he)))
end

theorem alone_kept {functions : List Routine} {F : Routine} {outer : Scope}
    {around : List Enclosing} {here : Enclosing} {b b' : Body} {e : Expr Position}
    {e' : Expr Typed} (ho : List.Forall₂ (Knows functions) outer around)
    (h : alone outer b e = .ok (b', e')) (hw : Between functions F here b b') :
    List.Forall₂ (Use.Kept functions F) (e.usesAlone around here) e'.places := by
  rcases alone_cases h with ⟨position, name, written, type, bound, rfl, -, hb, rfl⟩ |
    ⟨position, function, arguments, arguments', types, symbol, rfl, hv, -, rfl⟩ | ⟨type, hv, hp⟩
  · have hw' := hw.rest (bind_grows hb)
    exact .cons (kept_of_binding? ho hw' (binding?_of_bind hb)
      (means_of_agrees (bind_binding? hb).2) rfl) .nil
  · exact values_kept ho arguments hv hw
  · have he : e.usesAlone around here = e.uses around here := by
      unfold Expr.usesAlone
      split
      · exact absurd rfl (hp _ _ _)
      · rfl
    rw [he]
    exact value_kept ho e hv hw

mutual
/-- The places that a statement leaves in its function have kept their meaning there. -/
theorem statement_kept {functions : List Routine} {F : Routine} {ctx : Context}
    {around : List Enclosing} {here : Enclosing} {p p' : Progress} {out : List (Stmt Typed)}
    (ho : List.Forall₂ (Knows functions) ctx.outer around) :
    (s : Stmt Position) → statement ctx p s = .ok (p', out) →
    Between functions F here p.body p'.body →
    List.Forall₂ (Use.Kept functions F) (s.uses around here) (Stmt.placesAll out)
  | .function _ _ _, h, _ => by
    obtain ⟨_, _, _, _, _, _, -, -, -, -, -, -, -, -, rfl⟩ := statement_function h
    exact .nil
  | .declare _ _, h, _ => by
    obtain ⟨_, _, -, -, -, -, -, -, -, rfl⟩ := statement_declare h
    exact .nil
  | .branch _ condition thenBody elseBody, h, hw => by
    obtain ⟨b, condition', type, p₁, thenBody', elseBody', hc, ht, he, rfl⟩ := statement_branch h
    have hcond := value_grows condition hc
    have hthen := block_grows thenBody ht
    have helse := block_grows elseBody he
    have hbranch := hw.rest hcond
    simp only [Stmt.uses, Stmt.placesAll, Stmt.places, List.append_nil]
    refine List.rel_append (List.rel_append ?_ ?_) ?_
    · exact value_kept ho condition hc (hw.first (hthen.trans helse))
    · exact block_kept ho thenBody ht (hbranch.first helse)
    · exact block_kept ho elseBody he (hbranch.rest hthen)
  | .loop _ condition body, h, hw => by
    obtain ⟨b, condition', type, body', hc, hb, rfl⟩ := statement_loop h
    simp only [Stmt.uses, Stmt.placesAll, Stmt.places, List.append_nil]
    refine List.rel_append ?_ ?_
    · exact value_kept ho condition hc (hw.first (block_grows body hb))
    · exact block_kept ho body hb (hw.rest (value_grows condition hc))
  | .give _ e, h, hw => by
    rcases statement_give h with ⟨rfl, -, -, rfl⟩ |
      ⟨e₁, b, e', type, expected, rfl, hv, -, -, rfl, rfl⟩
    · exact .nil
    · simpa only [Stmt.uses, Stmt.placesAll, Stmt.places, List.append_nil] using
        value_kept ho e₁ hv hw
  | .expr e, h, hw => by
    obtain ⟨b, e', ha, rfl, rfl⟩ := statement_expr h
    simpa only [Stmt.uses, Stmt.placesAll, Stmt.places, List.append_nil] using
      alone_kept ho ha hw

theorem block_kept {functions : List Routine} {F : Routine} {ctx : Context}
    {around : List Enclosing} {here : Enclosing} {p p' : Progress} {out : List (Stmt Typed)}
    (ho : List.Forall₂ (Knows functions) ctx.outer around) :
    (ss : List (Stmt Position)) → block ctx p ss = .ok (p', out) →
    Between functions F here p.body p'.body →
    List.Forall₂ (Use.Kept functions F) (Stmt.usesAll around here ss) (Stmt.placesAll out)
  | [], h, _ => by
    cases h
    exact .nil
  | s :: ss, h, hw => by
    obtain ⟨p₁, first, rest, hs, hss, rfl⟩ := block_cons h
    rw [Stmt.placesAll_append]
    exact List.rel_append (statement_kept ho s hs (hw.first (block_grows ss hss)))
      (block_kept ho ss hss (hw.rest (statement_grows s hs)))
end

/-! ### Functions -/

mutual
/-- A statement finishes as many functions as it defines. -/
theorem statement_finished {ctx : Context} {p p' : Progress} {out : List (Stmt Typed)} :
    (s : Stmt Position) → statement ctx p s = .ok (p', out) →
    ∃ new, p'.finished = p.finished ++ new ∧ new.length = s.functions
  | .function _ _ body, h => by
    obtain ⟨s, result, bound, log, last, statements, -, -, -, hb, -, hf, -⟩ := statement_function h
    obtain ⟨new, hn, hl⟩ := block_finished body hb
    refine ⟨new ++ [_], by rw [hf, hn, List.append_assoc], ?_⟩
    rw [List.length_append, hl, Stmt.functions, List.length_singleton]
  | .declare _ _, h => by
    obtain ⟨s, result, -, -, -, -, hf, -⟩ := statement_declare h
    exact ⟨[], by rw [hf, List.append_nil], rfl⟩
  | .branch _ _ thenBody elseBody, h => by
    obtain ⟨b, condition', type, p₁, thenBody', elseBody', -, ht, he, -⟩ := statement_branch h
    obtain ⟨new, hn, hl⟩ := block_finished thenBody ht
    obtain ⟨more, hm, hl'⟩ := block_finished elseBody he
    refine ⟨new ++ more, by rw [hm, hn, List.append_assoc], ?_⟩
    rw [List.length_append, hl, hl', Stmt.functions]
  | .loop _ _ body, h => by
    obtain ⟨b, condition', type, body', -, hb, -⟩ := statement_loop h
    obtain ⟨new, hn, hl⟩ := block_finished body hb
    exact ⟨new, hn, by rw [hl, Stmt.functions]⟩
  | .give _ _, h => by
    rcases statement_give h with ⟨-, -, rfl, -⟩ | ⟨_, _, _, _, _, -, -, -, -, rfl, -⟩ <;>
      exact ⟨[], (List.append_nil _).symm, rfl⟩
  | .expr _, h => by
    obtain ⟨b, e', -, rfl, -⟩ := statement_expr h
    exact ⟨[], (List.append_nil _).symm, rfl⟩

theorem block_finished {ctx : Context} {p p' : Progress} {out : List (Stmt Typed)} :
    (ss : List (Stmt Position)) → block ctx p ss = .ok (p', out) →
    ∃ new, p'.finished = p.finished ++ new ∧ new.length = Stmt.functionsAll ss
  | [], h => by
    cases h
    exact ⟨[], (List.append_nil _).symm, rfl⟩
  | s :: ss, h => by
    obtain ⟨p₁, first, rest, hs, hss, -⟩ := block_cons h
    obtain ⟨new, hn, hl⟩ := statement_finished s hs
    obtain ⟨more, hm, hl'⟩ := block_finished ss hss
    refine ⟨new ++ more, by rw [hm, hn, List.append_assoc], ?_⟩
    rw [List.length_append, hl, hl', Stmt.functionsAll]
end

theorem finished_isPrefix {functions : List Routine} {ctx : Context} {p p' : Progress}
    {out : List (Stmt Typed)} {ss : List (Stmt Position)} (h : block ctx p ss = .ok (p', out))
    (hd : p'.finished <+: functions) : p.finished <+: functions := by
  obtain ⟨new, hn, -⟩ := block_finished ss h
  exact List.IsPrefix.trans ⟨new, hn.symm⟩ hd

theorem length_finished {ctx : Context} {p p' : Progress} {out : List (Stmt Typed)}
    {ss : List (Stmt Position)} (h : block ctx p ss = .ok (p', out)) :
    p'.finished.length = p.finished.length + Stmt.functionsAll ss := by
  obtain ⟨new, hn, hl⟩ := block_finished ss h
  rw [hn, List.length_append, hl]

/-- A body that is about to become the next function of a result. -/
theorem Between.of_finished {functions finished : List Routine} {F : Routine} {b b' : Body}
    {index : Nat} {names : List String} (hd : finished ++ [F] <+: functions)
    (hi : finished.length = index) (hn : b.names = names)
    (hv : F.variables = b'.level.bindings) : Between functions F ⟨index, names⟩ b b' := by
  obtain ⟨further, rfl⟩ := hd
  subst hi hn
  refine ⟨?_, fun _ => .rfl, hv ▸ List.prefix_rfl⟩
  rw [List.append_assoc, List.getElem?_append_right (Nat.le_refl _), Nat.sub_self]
  rfl

mutual
theorem statement_inside {functions : List Routine} {F : Routine} {ctx : Context}
    {around : List Enclosing} {here : Enclosing} {p p' : Progress} {out : List (Stmt Typed)}
    (ho : List.Forall₂ (Knows functions) ctx.outer around) :
    (s : Stmt Position) → statement ctx p s = .ok (p', out) →
    Between functions F here p.body p'.body → p'.finished <+: functions →
    ∃ new, p'.finished = p.finished ++ new ∧
      List.Forall₂ (Use.AllKept functions) (s.usesInside around here p.finished.length) new
  | .function position header body, h, hw, hd => by
    have hg := statement_grows _ h
    obtain ⟨s, result, bound, log, last, statements, hh, -, hb, hbody, -, hf, -, -, -⟩ :=
      statement_function h
    obtain ⟨hopens, hnames⟩ := bindParameters_opens hh hb
    rw [hf] at hd
    have hself := Between.of_finished hd (length_finished hbody) hnames (hopens.variables hbody)
    have hknows : Knows functions (p.body.level.enter true position header) here := by
      obtain ⟨hn, F, hF, hl⟩ := (hw.first hg).knows
      exact ⟨by rwa [bindings_enter], F, hF, by rwa [bindings_enter]⟩
    obtain ⟨new, hn, hk⟩ := block_inside (.cons hknows ho) body hbody hself
      (List.IsPrefix.trans (List.prefix_append ..) hd)
    refine ⟨new ++ [_], by rw [hf, hn, List.append_assoc], ?_⟩
    exact List.rel_append hk (.cons (block_kept (.cons hknows ho) body hbody hself) .nil)
  | .declare _ _, h, _, _ => by
    obtain ⟨s, result, -, -, -, -, hf, -⟩ := statement_declare h
    exact ⟨[], by rw [hf, List.append_nil], .nil⟩
  | .branch _ condition thenBody elseBody, h, hw, hd => by
    obtain ⟨b, condition', type, p₁, thenBody', elseBody', hc, ht, he, -⟩ := statement_branch h
    have hthen := block_grows thenBody ht
    have hbranch := hw.rest (value_grows condition hc)
    obtain ⟨new, hn, hk⟩ := block_inside ho thenBody ht (hbranch.first (block_grows elseBody he))
      (finished_isPrefix he hd)
    obtain ⟨more, hm, hk'⟩ := block_inside ho elseBody he (hbranch.rest hthen) hd
    rw [length_finished ht] at hk'
    exact ⟨new ++ more, by rw [hm, hn, List.append_assoc], List.rel_append hk hk'⟩
  | .loop _ condition body, h, hw, hd => by
    obtain ⟨b, condition', type, body', hc, hb, -⟩ := statement_loop h
    obtain ⟨new, hn, hk⟩ := block_inside ho body hb (hw.rest (value_grows condition hc)) hd
    exact ⟨new, hn, hk⟩
  | .give _ _, h, _, _ => by
    rcases statement_give h with ⟨-, -, rfl, -⟩ | ⟨_, _, _, _, _, -, -, -, -, rfl, -⟩ <;>
      exact ⟨[], (List.append_nil _).symm, .nil⟩
  | .expr _, h, _, _ => by
    obtain ⟨b, e', -, rfl, -⟩ := statement_expr h
    exact ⟨[], (List.append_nil _).symm, .nil⟩

theorem block_inside {functions : List Routine} {F : Routine} {ctx : Context}
    {around : List Enclosing} {here : Enclosing} {p p' : Progress} {out : List (Stmt Typed)}
    (ho : List.Forall₂ (Knows functions) ctx.outer around) :
    (ss : List (Stmt Position)) → block ctx p ss = .ok (p', out) →
    Between functions F here p.body p'.body → p'.finished <+: functions →
    ∃ new, p'.finished = p.finished ++ new ∧
      List.Forall₂ (Use.AllKept functions) (Stmt.usesInsideAll around here p.finished.length ss) new
  | [], h, _, _ => by
    cases h
    exact ⟨[], (List.append_nil _).symm, .nil⟩
  | s :: ss, h, hw, hd => by
    obtain ⟨p₁, first, rest, hs, hss, -⟩ := block_cons h
    obtain ⟨new, hn, hk⟩ := statement_inside ho s hs (hw.first (block_grows ss hss))
      (finished_isPrefix hss hd)
    obtain ⟨more, hm, hk'⟩ := block_inside ho ss hss (hw.rest (statement_grows s hs)) hd
    obtain ⟨count, hc, hl⟩ := statement_finished s hs
    rw [hc, List.length_append, hl] at hk'
    exact ⟨new ++ more, by rw [hm, hn, List.append_assoc], List.rel_append hk hk'⟩
end

/-- Source and result have the same functions with the same places, and each place has the meaning
that its name had where it stood. -/
theorem program_kept {entry : String} {p : Program Position} {r : Result} {log : List Event}
    (h : program entry p = .ok (r, log)) :
    List.Forall₂ (Use.AllKept r.routines) p.uses r.routines := by
  obtain ⟨last, statements, hb, -, hr⟩ := program_ok h
  obtain ⟨main, hr, hv, hplaces⟩ : ∃ main : Routine, r.routines = last.finished ++ [main] ∧
      main.variables = last.body.level.bindings ∧ main.places = Stmt.placesAll statements :=
    ⟨_, hr, Body.opens_global.variables hb, rfl⟩
  have hd : last.finished ++ [main] <+: r.routines := ⟨[], by rw [hr, List.append_nil]⟩
  have hi : last.finished.length = Stmt.functionsAll p := by
    rw [length_finished hb, List.length_nil, Nat.zero_add]
  have hnames : Body.names ⟨.global, [], 0⟩ = [] := rfl
  have hself := Between.of_finished hd hi hnames hv
  obtain ⟨new, hn, hk⟩ := block_inside .nil p hb hself ((List.prefix_append ..).trans hd)
  have hmain := block_kept .nil p hb hself
  rw [List.nil_append] at hn
  rw [← hn] at hk
  rw [← hplaces] at hmain
  rw [hr]
  rw [hr] at hk hmain
  exact List.rel_append hk (.cons hmain .nil)

/-- A variable is read further out before its name is bound further in, to another type. -/
def earlySource : List String := ["x <- 1", "function f()", "y <- x", "x <- \"s\"", "end"]

theorem earlySource_differs : ∃ p r, Resolves "main" earlySource p r ∧
    ∃ F ∈ r.routines, ∃ q ∈ F.places, ∃ held ∈ F.typeOf? q.name, ¬ q.Means held := by
  obtain ⟨p, r, h, hd⟩ := resolves_of_any "main" earlySource
    (fun (_, r) => ∃ F ∈ r.routines, ∃ q ∈ F.places, ∃ held ∈ F.typeOf? q.name,
      ¬ q.Means held) (by decide +kernel)
  exact ⟨p, r, h, of_decide_eq_true hd⟩

/-- A function reads two variables of the program past a function that has one of that name
later. -/
def nestedSource : List String :=
  ["x <- 1", "xs <- [x]", "function f(s: string)", "function g() : int", "return x + xs[0]", "end",
    "y <- x", "x <- s", "z <- x", "end"]

theorem nestedSource_kept : ∃ p r log, program "main" p = .ok (r, log) ∧
    (p.uses.map fun us => us.map fun u =>
      (u.place.name, (u.holder? r.routines).map (·.index), u.binder?.map (·.index))) =
      [[("x", some 1, some 2), ("xs", some 2, some 2)],
        [("x", some 1, some 2), ("y", some 1, some 1), ("s", some 1, some 1),
          ("x", some 1, some 1), ("x", some 1, some 1), ("z", some 1, some 1)],
        [("x", some 2, some 2), ("x", some 2, some 2), ("xs", some 2, some 2)]] ∧
    List.Forall₂ (Use.AllKept r.routines) p.uses r.routines := by
  obtain ⟨p, r, ⟨_, log, -, -, h⟩, hs⟩ := resolves_of_any "main" nestedSource
    (fun (p, r) => (p.uses.map fun us => us.map fun u =>
      (u.place.name, (u.holder? r.routines).map (·.index), u.binder?.map (·.index))) =
      [[("x", some 1, some 2), ("xs", some 2, some 2)],
        [("x", some 1, some 2), ("y", some 1, some 1), ("s", some 1, some 1),
          ("x", some 1, some 1), ("x", some 1, some 1), ("z", some 1, some 1)],
        [("x", some 2, some 2), ("x", some 2, some 2), ("xs", some 2, some 2)]])
    (by decide +kernel)
  exact ⟨p, r, log, h, of_decide_eq_true hs, program_kept h⟩

end AlgoFrontEnd.Resolution
