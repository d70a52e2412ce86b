import AlgoFrontEnd.Proofs.Faults
import AlgoFrontEnd.Resolution.Program

/-! What can be wrong with a tree. Main statement: resolving it ends in no fault but one of
resolution's, which has a place. -/
namespace AlgoFrontEnd

/-- Whether a fault of resolution has a place and does not come of a second declaration. -/
def Fault.isOfUse (f : Fault) : Bool := f.isPlaced .semantic && f.cause.kind ≠ .redeclaration

theorem Fault.isPlaced_of_isOfUse {f : Fault} (h : f.isOfUse = true) :
    f.isPlaced .semantic = true :=
  (Bool.and_eq_true_iff.mp h).1

theorem Fault.ne_redeclaration_of_isOfUse {f : Fault} (h : f.isOfUse = true) :
    f.cause.kind ≠ .redeclaration :=
  of_decide_eq_true (Bool.and_eq_true_iff.mp h).2

namespace Resolution

theorem fails_refType (a : TypeRef) (position : Position) :
    Fails Fault.isOfUse (refType a position) := by
  unfold refType
  split
  · exact .ok _
  · exact .fault rfl

theorem fails_variableType (scope : Scope) (name : String) (position : Position) :
    Fails Fault.isOfUse (variableType scope name position) := by
  unfold variableType
  split
  · exact .ok _
  · exact .fault rfl

theorem fails_arrayType (scope : Scope) (name : String) (position : Position) :
    Fails Fault.isOfUse (arrayType scope name position) := by
  refine .bind (fails_variableType scope name position) fun type _ => ?_
  split
  · exact .ok _
  · exact .fault rfl

theorem fails_bind (b : Body) (name : String) (type : Ty) (position : Position) :
    Fails Fault.isOfUse (b.bind name type position) := by
  unfold Body.bind
  split
  · exact .ok _
  · split
    · exact .ok _
    · exact .fault rfl

theorem fails_readPlace (scope : Scope) (p : Place Position) :
    Fails Fault.isOfUse (readPlace scope p) := by
  unfold readPlace
  split
  · exact .bind (fails_variableType _ _ _) fun type _ => .ok _
  · refine .bind (fails_arrayType _ _ _) fun type _ => ?_
    split
    · exact .ok _
    · exact .fault rfl

theorem fails_targetType (name : String) (written : Option TypeRef) (actual : Ty)
    (position : Position) :
    Fails Fault.isOfUse (targetType name written actual position) := by
  unfold targetType
  split
  · exact .ok _
  · refine .bind (fails_refType _ _) fun declared _ => ?_
    split
    · exact .ok _
    · exact .fault rfl

theorem fails_writePlace (outer : Scope) (b : Body) (position : Position) (actual : Ty)
    (p : Place Position) :
    Fails Fault.isOfUse (writePlace outer b position actual p) := by
  unfold writePlace
  split
  · refine .bind (fails_targetType _ _ _ _) fun type _ => ?_
    exact .bind (fails_bind _ _ _ _) fun _ _ => .ok _
  · refine .bind (fails_arrayType _ _ _) fun type _ => ?_
    split
    · split
      · exact .ok _
      · exact .fault rfl
    · exact .ok _

theorem fails_binaryType (op : BinaryOp) (left right : Ty) (position : Position) :
    Fails Fault.isOfUse (binaryType op left right position) := by
  unfold binaryType
  split
  · exact .ok _
  · split
    · exact .ok _
    · exact .fault rfl

theorem fails_checkArguments (s : Signature) (arguments : List (Position × Ty))
    (parameters : List Ty) :
    Fails Fault.isOfUse (checkArguments s arguments parameters) := by
  fun_induction checkArguments s arguments parameters with
  | case1 position actual arguments expected parameters h ih => exact ih
  | case2 => exact .fault rfl
  | case3 => exact .ok _

theorem fails_callee (scope : Scope) (function : String) (arguments : List (Position × Ty))
    (position : Position) :
    Fails Fault.isOfUse (callee scope function arguments position) := by
  unfold callee
  simp only
  split
  · exact .fault rfl
  · exact .bind (fails_checkArguments _ _ _) fun _ _ => .ok _

mutual
theorem fails_value (outer : Scope) (b : Body) : (e : Expr Position) →
    Fails Fault.isOfUse (value outer b e)
  | .int _ _ | .float _ _ | .bool _ _ | .string _ _ => .ok _
  | .array _ elements => by
    rw [value]
    exact .bind (fails_values outer b elements) fun _ _ => .ok _
  | .place p => by
    rw [value]
    exact .bind (fails_readPlace _ p) fun _ _ => .ok _
  | .call position function arguments => by
    rw [value]
    refine .bind (fails_values outer b arguments) fun r _ => ?_
    refine .bind (fails_callee _ _ _ _) fun symbol _ => ?_
    split
    · exact .ok _
    · exact .fault rfl
  | .binary position op left right => by
    rw [value]
    refine .bind (fails_value outer b left) fun l _ => ?_
    refine .bind (fails_value outer l.1 right) fun r _ => ?_
    exact .bind (fails_binaryType _ _ _ _) fun _ _ => .ok _
  | .sign position s operand => by
    rw [value]
    refine .bind (fails_value outer b operand) fun r _ => ?_
    simp only
    split
    · exact .ok _
    · exact .fault rfl
  | .assign position target source => by
    rw [value]
    refine .bind (fails_value outer b source) fun r _ => ?_
    exact .bind (fails_writePlace _ _ _ _ _) fun _ _ => .ok _

theorem fails_values (outer : Scope) (b : Body) : (es : List (Expr Position)) →
    Fails Fault.isOfUse (values outer b es)
  | [] => .ok _
  | e :: es => by
    rw [values]
    refine .bind (fails_value outer b e) fun r _ => ?_
    exact .bind (fails_values outer r.1 es) fun _ _ => .ok _
end

theorem fails_alone (outer : Scope) (b : Body) (e : Expr Position) :
    Fails Fault.isOfUse (alone outer b e) := by
  unfold alone
  split
  · refine .bind (fails_refType _ _) fun type _ => ?_
    exact .bind (fails_bind _ _ _ _) fun _ _ => .ok _
  · refine .bind (fails_values outer b _) fun r _ => ?_
    exact .bind (fails_callee _ _ _ _) fun _ _ => .ok _
  · exact .bind (fails_value outer b e) fun _ _ => .ok _

/-! ### Statements -/

def Stop.isA (k : Kind) (s : Stop) : Bool := s.fault.isA k

def Stop.isPlaced (k : Kind) (s : Stop) : Bool := s.fault.isPlaced k

theorem fails_attempt {α : Type} {k : Kind} {x : Except Fault α} (p : Progress)
    (h : Fails (Fault.isPlaced k) x) : Fails (Stop.isPlaced k) (p.attempt x) := by
  cases x with
  | ok a => exact .ok a
  | error f => exact .error (h f rfl)

theorem fails_attempt_use {α : Type} {x : Except Fault α} (p : Progress)
    (h : Fails Fault.isOfUse x) : Fails (Stop.isPlaced .semantic) (p.attempt x) :=
  fails_attempt p (h.mono fun _ => Fault.isPlaced_of_isOfUse)

theorem fails_parameterTypes (ps : List (Parameter Position)) :
    Fails Fault.isOfUse (parameterTypes ps) := by
  induction ps with
  | nil => exact .ok _
  | cons p ps ih =>
    have hp : Fails Fault.isOfUse (parameterType p) := by
      unfold parameterType
      split
      · exact fails_refType _ _
      · exact .fault rfl
    exact .bind hp fun type _ => .bind ih fun types _ => .ok _

theorem fails_headerTypes (position : Position) (h : Header Position) :
    Fails Fault.isOfUse (headerTypes position h) := by
  unfold headerTypes
  refine .bind (fails_parameterTypes _) fun types _ => ?_
  cases h.result with
  | none => exact .ok _
  | some a => exact .bind (fails_refType a position) fun _ _ => .ok _

theorem placed_headerTypes (position : Position) (h : Header Position) :
    Fails (Fault.isPlaced .semantic) (headerTypes position h) :=
  (fails_headerTypes position h).mono fun _ => Fault.isPlaced_of_isOfUse

theorem fails_enterFunction (l : Level) (position : Position) (h : Header Position) :
    Fails (Fault.isPlaced .semantic) (enterFunction l position h) := by
  refine .bind (placed_headerTypes position h) fun r _ => ?_
  refine .bind ?_ fun _ _ => .ok _
  unfold checkDefinition
  split
  · exact .ok _
  · split
    · exact .fault rfl
    · split
      · exact .ok _
      · exact .fault rfl

theorem fails_bindParameters (s : Signature) (b : Body) (ps : List (Parameter Position))
    (types : List Ty) : Fails Fault.isOfUse (bindParameters s b ps types) := by
  fun_induction bindParameters s b ps types with
  | case1 => exact .fault rfl
  | case2 b p ps type types h ih => exact ih
  | case3 => exact .ok _

theorem fails_declareHeader (ctx : Context) (l : Level) (position : Position)
    (h : Header Position) : Fails (Fault.isPlaced .semantic) (declareHeader ctx l position h) := by
  unfold declareHeader
  simp only
  split
  · refine .bind (placed_headerTypes position h) fun r _ => ?_
    split
    · exact .fault rfl
    · exact .ok _
  · exact .bind (.fault rfl) fun _ hf => absurd hf fault_ne_ok

theorem fails_checkReturn (ctx : Context) (position : Position) (actual : Ty) :
    Fails Fault.isOfUse (checkReturn ctx position actual) := by
  unfold checkReturn
  split
  · exact .fault rfl
  · split
    · exact .ok _
    · exact .fault rfl

mutual
theorem fails_statement (ctx : Context) (p : Progress) : (s : Stmt Position) →
    Fails (Stop.isPlaced .semantic) (statement ctx p s)
  | .function position header body => by
    rw [statement]
    refine .bind (fails_attempt p (fails_enterFunction _ _ _)) fun r _ => ?_
    refine .bind (fails_attempt_use _ (fails_bindParameters _ _ _ _)) fun bound _ => ?_
    exact .bind (fails_block _ _ body) fun _ _ => .ok _
  | .declare position header => by
    rw [statement]
    exact .bind (fails_attempt p (fails_declareHeader _ _ _ _)) fun _ _ => .ok _
  | .branch position condition thenBody elseBody => by
    rw [statement]
    refine .bind (fails_attempt_use p (fails_value _ _ condition)) fun r _ => ?_
    refine .bind (fails_block ctx _ thenBody) fun q _ => ?_
    exact .bind (fails_block ctx q.1 elseBody) fun _ _ => .ok _
  | .loop position condition body => by
    rw [statement]
    refine .bind (fails_attempt_use p (fails_value _ _ condition)) fun r _ => ?_
    exact .bind (fails_block ctx _ body) fun _ _ => .ok _
  | .give position none => by
    rw [statement]
    split
    · exact .ok _
    · exact fails_attempt p (.fault rfl)
  | .give position (some e) => by
    rw [statement]
    refine .bind (fails_attempt_use p (fails_value _ _ e)) fun r _ => ?_
    exact .bind (fails_attempt_use p (fails_checkReturn _ _ _)) fun _ _ => .ok _
  | .expr e => by
    rw [statement]
    exact .bind (fails_attempt_use p (fails_alone _ _ e)) fun _ _ => .ok _

theorem fails_block (ctx : Context) (p : Progress) : (ss : List (Stmt Position)) →
    Fails (Stop.isPlaced .semantic) (block ctx p ss)
  | [] => .ok _
  | s :: ss => by
    rw [block]
    refine .bind (fails_statement ctx p s) fun r _ => ?_
    exact .bind (fails_block ctx r.1 ss) fun _ _ => .ok _
end

theorem placed_program (entry : String) (p : Program Position) :
    Fails (Stop.isPlaced .semantic) (program entry p) :=
  .bind (fails_block _ _ p) fun _ _ => .ok _

/-- A tree that is refused has a fault of resolution. -/
theorem fails_program (entry : String) (p : Program Position) :
    Fails (Stop.isA .semantic) (program entry p) :=
  (placed_program entry p).mono fun _ => Fault.isA_of_isPlaced

end Resolution
end AlgoFrontEnd
