import AlgoFrontEnd.Proofs.Scope.History
import AlgoFrontEnd.Scope.Forest
import Mathlib.Data.List.Forall2
import Mathlib.Data.List.TakeWhile

/-! What a change of one level does to what is seen from all levels. Main statement: in a tree of
levels that has grown from the global one, a declaration is seen exactly from the levels below it
that bind nothing nearer, and everything else is seen as before. -/
namespace AlgoFrontEnd

/-- Signatures that are the same one by one. -/
abbrev SameAll : List Signature → List Signature → Prop := List.Forall₂ fun s t => s.same t = true

/-- What can be done to a tree of levels. -/
inductive Change where
  | child (i : Nat) (path : String)
  | declare (i : Nat) (name : String) (type : Ty)
  | register (i : Nat) (symbol : Symbol)
  deriving DecidableEq, Repr

namespace Forest

def apply (f : Forest) : Change → Forest
  | .child i path => f.child i path
  | .declare i name type => f.modify i (·.declare name type)
  | .register i symbol => f.modify i (·.register symbol)

/-- The tree that changes make out of the global level. -/
def grown (cs : List Change) : Forest := cs.foldl apply start

def level? (f : Forest) (i : Nat) : Option Level := f.nodes[i]?.map (·.level)

/-- The level that another is directly inside of. -/
def parent? (f : Forest) (i : Nat) : Option Nat := f.nodes[i]?.bind (·.enclosing.head?)

/-- From level `j` outwards, nothing is found before level `i` is reached. -/
def Sees {α : Type} (f : Forest) (find : Level → Option α) (j i : Nat) : Prop :=
  i ∈ f.chain j ∧ ∀ k ∈ (f.chain j).takeWhile (· ≠ i), (f.level? k).bind find = none

/-- Chains lead from each level to the one around it and end in the global level. No level that
is inside another lies on the chain of that other. -/
structure Chained (f : Forest) : Prop where
  walk : ∀ j < f.nodes.length, f.chain j = j :: (f.parent? j).elim [] f.chain
  outwards : ∀ j p, f.parent? j = some p → p < j
  finite : ∀ j, (f.chain j).length ≤ j + 1
  global : ∀ j < f.nodes.length, (f.chain j).getLast? = some 0
  apart : ∀ i j, i ∈ f.chain j → j ∈ f.chain i → i = j

/-- The second tree differs from the first by a variable of one level. -/
structure Declares (f g : Forest) (i : Nat) (name : String) (type : Ty) : Prop where
  seen : ∀ j, f.Sees (·.binding? name) j i → (g.scope j).binding? name = some type
  kept : ∀ j k, ¬ (k = name ∧ f.Sees (·.binding? k) j i) →
    (g.scope j).binding? k = (f.scope j).binding? k
  functions : ∀ j s, (g.scope j).function? s = (f.scope j).function? s
  types : ∀ j k, g.type? j k = f.type? j k
  chains : ∀ j, g.chain j = f.chain j

/-- The second tree differs from the first by a function of one level. One of a signature that the
level has already takes the place of the function of before. -/
structure Registers (f g : Forest) (i : Nat) (symbol : Symbol) : Prop where
  seen : ∀ j s, symbol.signature.same s = true → f.Sees (·.function? s) j i →
    (g.scope j).function? s = some symbol
  kept : ∀ j s, ¬ (symbol.signature.same s = true ∧ f.Sees (·.function? s) j i) →
    (g.scope j).function? s = (f.scope j).function? s
  bindings : ∀ j k, (g.scope j).binding? k = (f.scope j).binding? k
  types : ∀ j k, g.type? j k = f.type? j k
  chains : ∀ j, g.chain j = f.chain j
  candidates : ∀ l old, f.level? i = some l → l.function? symbol.signature = some old →
    ∀ j name, SameAll ((f.scope j).candidates name) ((g.scope j).candidates name)
  unimplemented : ∀ l old, f.level? i = some l → l.function? symbol.signature = some old →
    ∃ l' before after, g.level? i = some l' ∧
      l.unimplemented = before ++ (if old.implemented then [] else [old]) ++ after ∧
      l'.unimplemented = before ++ (if symbol.implemented then [] else [symbol]) ++ after

/-! ### Levels and chains -/

section
variable {f : Forest} {i j : Nat} {change : Level → Level}

theorem chain_eq_nil (h : f.nodes[i]? = none) : f.chain i = [] := by
  rw [chain, h]

theorem chain_eq_cons {node : Nested} (h : f.nodes[i]? = some node) :
    f.chain i = i :: node.enclosing := by
  rw [chain, h]

theorem scope_eq (f : Forest) (i : Nat) : f.scope i = (f.chain i).filterMap f.level? := by
  unfold scope chain
  split
  · rename_i node h
    rw [List.filterMap_cons, level?, h]
    rfl
  · rfl

theorem level?_modify (f : Forest) (i j : Nat) (change : Level → Level) :
    (f.modify i change).level? j = if j = i then (f.level? j).map change else f.level? j := by
  rw [level?, level?, modify, List.getElem?_modify]
  by_cases h : j = i
  · simp [h, Function.comp_def]
  · simp [h, Ne.symm h]

theorem enclosing_modify (f : Forest) (i j : Nat) (change : Level → Level) :
    (f.modify i change).nodes[j]?.map (·.enclosing) = f.nodes[j]?.map (·.enclosing) := by
  rw [modify, List.getElem?_modify]
  by_cases h : i = j
  · simp [h, Function.comp_def]
  · simp [h]

/-- A chain is made of the numbers around a level. -/
theorem chain_eq_elim (f : Forest) (i : Nat) :
    f.chain i = (f.nodes[i]?.map (·.enclosing)).elim [] (i :: ·) := by
  unfold chain
  split <;> rename_i h <;> rw [h] <;> rfl

theorem chain_modify (f : Forest) (i j : Nat) (change : Level → Level) :
    (f.modify i change).chain j = f.chain j := by
  rw [chain_eq_elim, chain_eq_elim, enclosing_modify]

theorem type?_modify (f : Forest) (i j : Nat) (change : Level → Level) (name : String) :
    (f.modify i change).type? j name = f.type? j name := by
  have types (g : Forest) (k : Nat) :
      (g.nodes[k]?.bind fun node => node.types.find? (·.name = name)) =
        (g.nodes[k]?.map (·.enclosing)).bind fun around =>
          (if around.isEmpty then Ty.builtins else []).find? (·.name = name) := by
    cases g.nodes[k]? <;> rfl
  simp only [type?, types, enclosing_modify, chain_modify]

end

/-! ### Growth -/

/-- Every level but the global one is inside one that was opened before it. -/
structure Grown (f : Forest) : Prop where
  root : 0 < f.nodes.length
  inside : ∀ j node, f.nodes[j]? = some node →
    j = 0 ∧ node.enclosing = [] ∨ ∃ p, p < j ∧ node.enclosing = f.chain p

namespace Grown
variable {f : Forest} {i j : Nat}

theorem start : start.Grown where
  root := Nat.one_pos
  inside := by
    intro j node h
    cases j with
    | zero =>
      cases h
      exact .inl ⟨rfl, rfl⟩
    | succ j => cases h

theorem modify (h : f.Grown) (i : Nat) (change : Level → Level) : (f.modify i change).Grown where
  root := by
    rw [Forest.modify, List.length_modify]
    exact h.root
  inside := by
    intro j node hj
    have hnode : f.nodes[j]?.map (·.enclosing) = some node.enclosing := by
      rw [← enclosing_modify f i j change, hj]
      rfl
    obtain ⟨old, hold, he⟩ := Option.map_eq_some_iff.mp hnode
    simp only [chain_modify, ← he]
    exact h.inside j old hold

theorem child (h : f.Grown) (i : Nat) (path : String) : (f.child i path).Grown := by
  unfold Forest.child
  split
  · rename_i parent hi
    have hlt : i < f.nodes.length := (List.getElem?_eq_some_iff.mp hi).1
    -- the levels of before keep their chains
    have hold : ∀ p, p < f.nodes.length →
        (Forest.mk (f.nodes ++ [⟨⟨path, [], []⟩, i :: parent.enclosing⟩])).chain p =
          f.chain p := by
      intro p hp
      rw [chain, chain, List.getElem?_append_left hp]
    refine ⟨by simp, fun j node hj => ?_⟩
    rcases Nat.lt_or_ge j f.nodes.length with hj' | hj'
    · rw [List.getElem?_append_left hj'] at hj
      obtain hroot | ⟨p, hp, he⟩ := h.inside j node hj
      · exact .inl hroot
      · exact .inr ⟨p, hp, by rw [he, hold p (Nat.lt_trans hp hj')]⟩
    · rw [List.getElem?_append_right hj', List.getElem?_singleton] at hj
      split at hj
      · cases hj
        exact .inr ⟨i, Nat.lt_of_lt_of_le hlt hj', by rw [hold i hlt, chain_eq_cons hi]⟩
      · cases hj
  · exact h

theorem apply (h : f.Grown) (c : Change) : (f.apply c).Grown := by
  cases c with
  | child i path => exact h.child i path
  | declare i name type => exact h.modify i (·.declare name type)
  | register i symbol => exact h.modify i (·.register symbol)

end Grown

theorem grown_isGrown (cs : List Change) : (grown cs).Grown := by
  suffices ∀ f : Forest, f.Grown → (cs.foldl apply f).Grown from this start .start
  induction cs with
  | nil => exact fun _ h => h
  | cons c cs ih => exact fun f h => ih _ (h.apply c)

namespace Grown
variable {f : Forest} {i j : Nat}

/-- A chain goes on with that of the level around. -/
theorem chain_cases (h : f.Grown) (hj : j < f.nodes.length) :
    j = 0 ∧ f.chain j = [j] ∧ f.parent? j = none ∨
      ∃ p, p < j ∧ f.chain j = j :: f.chain p ∧ f.parent? j = some p := by
  obtain ⟨node, hnode⟩ : ∃ node, f.nodes[j]? = some node := ⟨_, List.getElem?_eq_getElem hj⟩
  obtain ⟨hzero, he⟩ | ⟨p, hp, he⟩ := h.inside j node hnode
  · refine .inl ⟨hzero, ?_, ?_⟩
    · rw [chain_eq_cons hnode, he]
    · rw [parent?, hnode, Option.bind_some, he]
      rfl
  · obtain ⟨around, haround⟩ : ∃ node, f.nodes[p]? = some node :=
      ⟨_, List.getElem?_eq_getElem (Nat.lt_trans hp hj)⟩
    refine .inr ⟨p, hp, ?_, ?_⟩
    · rw [chain_eq_cons hnode, he]
    · rw [parent?, hnode, Option.bind_some, he, chain_eq_cons haround]
      rfl

theorem lt_of_mem_chain (hi : i ∈ f.chain j) : j < f.nodes.length := by
  by_contra hj
  rw [chain_eq_nil (List.getElem?_eq_none (Nat.le_of_not_lt hj))] at hi
  cases hi

theorem le_of_mem_chain (h : f.Grown) (hi : i ∈ f.chain j) : i ≤ j := by
  induction j using Nat.strongRecOn with
  | ind j ih =>
    obtain ⟨-, hc, -⟩ | ⟨p, hp, hc, -⟩ := h.chain_cases (lt_of_mem_chain hi)
    · rw [hc, List.mem_singleton] at hi
      exact Nat.le_of_eq hi
    · rw [hc] at hi
      rcases List.mem_cons.mp hi with rfl | hi
      · exact Nat.le_refl i
      · exact Nat.le_trans (ih p hp hi) (Nat.le_of_lt hp)

theorem length_chain_le (h : f.Grown) (j : Nat) : (f.chain j).length ≤ j + 1 := by
  induction j using Nat.strongRecOn with
  | ind j ih =>
    rcases Nat.lt_or_ge j f.nodes.length with hj | hj
    · obtain ⟨-, hc, -⟩ | ⟨p, hp, hc, -⟩ := h.chain_cases hj
      · rw [hc, List.length_singleton]
        omega
      · have := ih p hp
        rw [hc, List.length_cons]
        omega
    · rw [chain_eq_nil (List.getElem?_eq_none hj)]
      exact Nat.zero_le _

theorem getLast?_chain (h : f.Grown) (hj : j < f.nodes.length) :
    (f.chain j).getLast? = some 0 := by
  induction j using Nat.strongRecOn with
  | ind j ih =>
    obtain ⟨rfl, hc, -⟩ | ⟨p, hp, hc, -⟩ := h.chain_cases hj
    · rw [hc]
      rfl
    · have hlast := ih p hp (Nat.lt_trans hp hj)
      rw [hc, List.getLast?_cons, hlast]
      rfl

theorem chained (h : f.Grown) : f.Chained where
  walk := by
    intro j hj
    obtain ⟨-, hc, hp⟩ | ⟨p, -, hc, hp⟩ := h.chain_cases hj
    · rw [hc, hp]
      rfl
    · rw [hc, hp]
      rfl
  outwards := by
    intro j p hp
    have hj : j < f.nodes.length := by
      by_contra hj
      rw [parent?, List.getElem?_eq_none (Nat.le_of_not_lt hj)] at hp
      cases hp
    obtain ⟨-, -, hp'⟩ | ⟨q, hq, -, hp'⟩ := h.chain_cases hj
    · rw [hp'] at hp
      cases hp
    · rw [hp'] at hp
      cases hp
      exact hq
  finite := h.length_chain_le
  global := fun j hj => h.getLast?_chain hj
  apart := fun i j hi hj => Nat.le_antisymm (h.le_of_mem_chain hi) (h.le_of_mem_chain hj)

end Grown

/-! ### Lookups -/

section
variable {α : Type}

/-- What is found at one place is found from the start if nothing was found before. -/
theorem findSome?_seen {own : Nat → Option α} {xs : List Nat} {i : Nat} (hi : i ∈ xs)
    (hb : ∀ k ∈ xs.takeWhile (· ≠ i), own k = none) : xs.findSome? own = own i ∨ own i = none := by
  induction xs with
  | nil => cases hi
  | cons k xs ih =>
    by_cases hk : k = i
    · subst hk
      rw [List.findSome?_cons]
      cases own k with
      | none => exact .inr rfl
      | some a => exact .inl rfl
    · rw [List.takeWhile_cons_of_pos (by simpa using hk)] at hb
      obtain ⟨hnone, hb⟩ := List.forall_mem_cons.mp hb
      rw [List.findSome?_cons, hnone]
      exact ih ((List.mem_cons.mp hi).resolve_left (Ne.symm hk)) hb

/-- A place that is not reached makes no difference. -/
theorem findSome?_kept {own new : Nat → Option α} {xs : List Nat} {i : Nat}
    (hn : ∀ k, k ≠ i → new k = own k)
    (h : ¬ (i ∈ xs ∧ ∀ k ∈ xs.takeWhile (· ≠ i), own k = none)) :
    xs.findSome? new = xs.findSome? own := by
  induction xs with
  | nil => rfl
  | cons k xs ih =>
    by_cases hk : k = i
    · subst hk
      refine absurd ⟨List.mem_cons_self, ?_⟩ h
      rw [List.takeWhile_cons_of_neg (by simp)]
      nofun
    · rw [List.findSome?_cons, List.findSome?_cons, hn k hk]
      cases hown : own k with
      | some a => rfl
      | none =>
        refine ih fun ⟨hi, hb⟩ => h ⟨List.mem_cons_of_mem _ hi, ?_⟩
        rw [List.takeWhile_cons_of_pos (by simpa using hk)]
        exact List.forall_mem_cons.mpr ⟨hown, hb⟩

variable {f : Forest} {i j : Nat} {change : Level → Level} {find : Level → Option α}

theorem findSome?_scope (f : Forest) (j : Nat) (find : Level → Option α) :
    (f.scope j).findSome? find = (f.chain j).findSome? fun k => (f.level? k).bind find := by
  rw [scope_eq, ← List.head?_filterMap, List.filterMap_filterMap, List.head?_filterMap]

/-- What a level finds after a change is found from wherever the level is seen. -/
theorem findSome?_modify_seen (h : f.Grown) {a : α} (hc : ∀ l, find (change l) = some a)
    (hs : f.Sees find j i) : ((f.modify i change).scope j).findSome? find = some a := by
  obtain ⟨hi, hb⟩ := hs
  have hlt : i < f.nodes.length := Nat.lt_of_le_of_lt (h.le_of_mem_chain hi) (Grown.lt_of_mem_chain hi)
  have hown : ((f.modify i change).level? i).bind find = some a := by
    rw [level?_modify, if_pos rfl, level?, List.getElem?_eq_getElem hlt]
    exact hc _
  have hbefore : ∀ k ∈ (f.chain j).takeWhile (· ≠ i),
      ((f.modify i change).level? k).bind find = none := by
    intro k hk
    have hne : k ≠ i := by simpa using List.mem_takeWhile_imp hk
    rw [level?_modify, if_neg hne]
    exact hb k hk
  rw [findSome?_scope, chain_modify]
  obtain hseen | hnone := findSome?_seen hi hbefore
  · rw [hseen, hown]
  · rw [hown] at hnone
    cases hnone

/-- From everywhere else it is found what was found before. -/
theorem findSome?_modify_kept (hs : ¬ f.Sees find j i) :
    ((f.modify i change).scope j).findSome? find = (f.scope j).findSome? find := by
  rw [findSome?_scope, findSome?_scope, chain_modify]
  refine findSome?_kept (fun k hk => ?_) hs
  rw [level?_modify, if_neg hk]

/-- A change that a level does not notice is noticed nowhere. -/
theorem findSome?_modify (hc : ∀ l, find (change l) = find l) :
    ((f.modify i change).scope j).findSome? find = (f.scope j).findSome? find := by
  have hlevel : ∀ k, ((f.modify i change).level? k).bind find = (f.level? k).bind find := by
    intro k
    rw [level?_modify]
    split
    · cases f.level? k with
      | none => rfl
      | some l => exact hc l
    · rfl
  simp only [findSome?_scope, chain_modify, hlevel]

end

end Forest

theorem Level.binding?_declare_eq (l : Level) (name : String) (type : Ty) (k : String) :
    (l.declare name type).binding? k = if k = name then some type else l.binding? k := by
  simp only [binding?, declare]
  induction l.bindings with
  | nil => by_cases hk : k = name <;> simp [putEntry, hk, eq_comm]
  | cons b bs ih =>
    rw [putEntry]
    by_cases hb : b.name = name
    · by_cases hk : k = name <;> simp [hb, hk, eq_comm]
    · by_cases hbk : b.name = k
      · have hk : k ≠ name := hbk ▸ hb
        simp [hbk, hk]
      · simpa [hb, hbk] using ih

namespace Forest

theorem Grown.declares {f : Forest} (h : f.Grown) (i : Nat) (name : String) (type : Ty) :
    f.Declares (f.apply (.declare i name type)) i name type where
  seen := by
    intro j hs
    refine findSome?_modify_seen h (fun l => ?_) hs
    rw [Level.binding?_declare_eq, if_pos rfl]
  kept := by
    intro j k hk
    by_cases hname : k = name
    · exact findSome?_modify_kept fun hs => hk ⟨hname, hs⟩
    · refine findSome?_modify fun l => ?_
      rw [Level.binding?_declare_eq, if_neg hname]
  functions := fun j s => findSome?_modify fun l => rfl
  types := fun j k => type?_modify f i j _ k
  chains := fun j => chain_modify f i j _

end Forest

/-! ### Functions that are registered again -/

/-- An entry comes into the place of the first that it replaces. -/
theorem putEntry_split {α : Type} {replaces : α → Bool} {old : α} {xs : List α}
    (h : xs.find? replaces = some old) (entry : α) :
    ∃ before after, xs = before ++ old :: after ∧
      putEntry replaces entry xs = before ++ entry :: after := by
  induction xs with
  | nil => cases h
  | cons x xs ih =>
    rw [List.find?_cons] at h
    rw [putEntry]
    cases hx : replaces x with
    | true =>
      rw [hx] at h
      cases h
      exact ⟨[], xs, rfl, rfl⟩
    | false =>
      rw [hx] at h
      obtain ⟨before, after, rfl, hput⟩ := ih h
      refine ⟨x :: before, after, rfl, ?_⟩
      rw [hput]
      rfl

theorem sameAll_refl (ss : List Signature) : SameAll ss ss :=
  List.forall₂_same.mpr fun s _ => same_refl s

/-- A level has the same overloads in the same order when a function is registered again. -/
theorem Level.sameAll_candidates_register {l : Level} {symbol old : Symbol}
    (h : l.function? symbol.signature = some old) (name : String) :
    SameAll (Scope.candidates [l] name) (Scope.candidates [l.register symbol] name) := by
  obtain ⟨before, after, hold, hnew⟩ := putEntry_split h symbol
  have hsame := (mem_of_function? h).2
  have hname : old.signature.name = symbol.signature.name := (same_iff.mp hsame).1
  simp only [Scope.candidates, List.flatMap_cons, List.flatMap_nil, List.append_nil, register, hnew]
  rw [hold]
  simp only [List.map_append, List.map_cons, List.filter_append, List.filter_cons, hname]
  refine List.rel_append (sameAll_refl _) ?_
  split
  · exact .cons hsame (sameAll_refl _)
  · exact sameAll_refl _

/-- Its place among the functions without a body is that of before. -/
theorem Level.unimplemented_register {l : Level} {symbol old : Symbol}
    (h : l.function? symbol.signature = some old) :
    ∃ before after, l.unimplemented = before ++ (if old.implemented then [] else [old]) ++ after ∧
      (l.register symbol).unimplemented =
        before ++ (if symbol.implemented then [] else [symbol]) ++ after := by
  obtain ⟨before, after, hold, hnew⟩ := putEntry_split h symbol
  refine ⟨before.filter (!·.implemented), after.filter (!·.implemented), ?_, ?_⟩
  · rw [unimplemented, hold, List.filter_append, List.filter_cons]
    cases old.implemented <;> simp
  · rw [unimplemented, register, hnew, List.filter_append, List.filter_cons]
    cases symbol.implemented <;> simp

namespace Forest

theorem sameAll_candidates {f g : Forest} {name : String}
    (h : ∀ k, SameAll (Scope.candidates (f.level? k).toList name)
      (Scope.candidates (g.level? k).toList name)) (ks : List Nat) :
    SameAll (Scope.candidates (ks.filterMap f.level?) name)
      (Scope.candidates (ks.filterMap g.level?) name) := by
  have candidates_append (xs ys : Scope) :
      Scope.candidates (xs ++ ys) name = Scope.candidates xs name ++ Scope.candidates ys name :=
    List.flatMap_append
  have filterMap_cons (f : Forest) (k : Nat) (ks : List Nat) :
      (k :: ks).filterMap f.level? = (f.level? k).toList ++ ks.filterMap f.level? := by
    rw [List.filterMap_cons]
    cases f.level? k <;> rfl
  induction ks with
  | nil => exact .nil
  | cons k ks ih =>
    rw [filterMap_cons, filterMap_cons, candidates_append, candidates_append]
    exact List.rel_append (h k) ih

theorem Grown.registers {f : Forest} (h : f.Grown) (i : Nat) (symbol : Symbol) :
    f.Registers (f.apply (.register i symbol)) i symbol where
  seen := by
    intro j s hsame hs
    refine findSome?_modify_seen h (fun l => ?_) hs
    rw [Level.function?_register, if_pos hsame]
  kept := by
    intro j s hs
    by_cases hsame : symbol.signature.same s = true
    · exact findSome?_modify_kept fun hsees => hs ⟨hsame, hsees⟩
    · refine findSome?_modify fun l => ?_
      rw [Level.function?_register, if_neg hsame]
  bindings := fun j k => findSome?_modify fun l => rfl
  types := fun j k => type?_modify f i j _ k
  chains := fun j => chain_modify f i j _
  candidates := by
    intro l old hl hold j name
    rw [scope_eq, scope_eq, Forest.apply, chain_modify]
    refine sameAll_candidates (fun k => ?_) _
    rw [level?_modify]
    split
    · rename_i hk
      rw [hk, hl]
      exact Level.sameAll_candidates_register hold name
    · exact sameAll_refl _
  unimplemented := by
    intro l old hl hold
    obtain ⟨before, after, hbefore, hafter⟩ := Level.unimplemented_register hold
    refine ⟨l.register symbol, before, after, ?_, hbefore, hafter⟩
    rw [Forest.apply, level?_modify, if_pos rfl, hl]
    rfl

/-- From every level the built-in types are found, and no others. -/
theorem Grown.type?_eq {f : Forest} (h : f.Grown) {j : Nat} (hj : j < f.nodes.length)
    (name : String) : f.type? j name = Ty.ofName? name := by
  induction j using Nat.strongRecOn with
  | ind j ih =>
    obtain ⟨node, hnode⟩ : ∃ node, f.nodes[j]? = some node := ⟨_, List.getElem?_eq_getElem hj⟩
    obtain ⟨-, hc, -⟩ | ⟨p, hp, hc, -⟩ := h.chain_cases hj
    · have he : node.enclosing = [] := by simpa [chain_eq_cons hnode] using hc
      rw [type?, hc, List.findSome?_singleton, hnode, Option.bind_some, Nested.types, he]
      rfl
    · have hp' := ih p hp (Nat.lt_trans hp hj)
      have he : node.enclosing = f.chain p := by simpa [chain_eq_cons hnode] using hc
      have hne : (f.chain p).isEmpty = false := by
        obtain ⟨-, hp, -⟩ | ⟨q, -, hp, -⟩ := h.chain_cases (Nat.lt_trans hp hj) <;> rw [hp] <;> rfl
      rw [type?, hc, List.findSome?_cons, hnode, Option.bind_some, Nested.types, he, hne]
      exact hp'

/-- In a tree of levels that has grown from the global one by any changes, all chains end in the
global level and run through no level inside of their own. A variable or a function that is then
declared at a level is what the levels below find that find nothing nearer; every other lookup
finds what it found before. A function that is registered again keeps its place. -/
theorem scopes_isolated (cs : List Change) :
    (grown cs).Chained ∧
      (∀ i name type, (grown cs).Declares ((grown cs).apply (.declare i name type)) i name type) ∧
      ∀ i symbol, (grown cs).Registers ((grown cs).apply (.register i symbol)) i symbol := by
  have h := grown_isGrown cs
  exact ⟨h.chained, h.declares, h.registers⟩

/-- The variable of the global level is hidden by that of the level in between. -/
example :
    let f := grown [.child 0 "f()", .child 1 "f().g()", .declare 1 "x" .float, .declare 0 "x" .int]
    (f.scope 0).binding? "x" = some .int ∧ (f.scope 2).binding? "x" = some .float := by
  decide

end Forest
end AlgoFrontEnd
