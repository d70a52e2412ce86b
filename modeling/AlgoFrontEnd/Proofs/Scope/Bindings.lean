import AlgoFrontEnd.Proofs.Scope.Registration
import Mathlib.Data.List.Nodup

/-! Variables of a level, in the order in which their names were first bound. -/
namespace AlgoFrontEnd

theorem putEntry_eq_append {α : Type} {replaces : α → Bool} {entry : α} {xs : List α}
    (h : ∀ x ∈ xs, replaces x = false) : putEntry replaces entry xs = xs ++ [entry] := by
  induction xs with
  | nil => rfl
  | cons x xs ih =>
    obtain ⟨hx, hxs⟩ := List.forall_mem_cons.mp h
    rw [putEntry, hx, ih hxs]
    rfl

theorem length_putEntry {α : Type} {replaces : α → Bool} {entry x : α} {xs : List α} (hx : x ∈ xs)
    (h : replaces x = true) : (putEntry replaces entry xs).length = xs.length := by
  induction xs with
  | nil => cases hx
  | cons y xs ih =>
    rw [putEntry]
    split
    · rfl
    · rename_i hy
      have hx : x ∈ xs := (List.mem_cons.mp hx).resolve_left (fun hxy => hy (hxy ▸ h))
      rw [List.length_cons, ih hx, List.length_cons]

/-- Of entries with different keys, each is the one of its key. -/
theorem find?_key {α : Type} (key : α → String) {xs : List α} (h : (xs.map key).Nodup) {x : α}
    (hx : x ∈ xs) : xs.find? (key · = key x) = some x := by
  cases hf : xs.find? (key · = key x) with
  | none => simpa using List.find?_eq_none.mp hf x hx
  | some y =>
    have hk : key y = key x := by simpa using List.find?_some hf
    rw [List.inj_on_of_nodup_map h (List.mem_of_find?_eq_some hf) hx hk]

/-- Bytes of variables together. -/
def Binding.total : List Binding → Nat
  | [] => 0
  | v :: vs => v.type.size + total vs

theorem Binding.total_append (xs ys : List Binding) :
    total (xs ++ ys) = total xs + total ys := by
  induction xs with
  | nil => simp [total]
  | cons x xs ih => simp only [List.cons_append, total, ih, Nat.add_assoc]

/-- The type of the variable of a name; of several, the first. -/
def Binding.type? (vs : List Binding) (name : String) : Option Ty :=
  (vs.find? (·.name = name)).map (·.type)

theorem Binding.type?_mono {vs ws : List Binding} {name : String} {type : Ty}
    (h : vs <+: ws) (hv : type? vs name = some type) : type? ws name = some type := by
  obtain ⟨new, rfl⟩ := h
  obtain ⟨v, hf, rfl⟩ := Option.map_eq_some_iff.mp hv
  rw [type?, List.find?_append, hf]
  rfl

namespace Level
variable {l : Level} {name : String} {type : Ty}

theorem binding?_eq_none_iff : l.binding? name = none ↔ name ∉ l.bindings.map (·.name) := by
  simp [binding?]

theorem isSome_binding?_iff :
    (l.binding? name).isSome = true ↔ name ∈ l.bindings.map (·.name) := by
  simp [binding?]

/-- A name that is not bound yet comes behind all others. -/
theorem declare_of_binding?_none (h : l.binding? name = none) (type : Ty) :
    l.declare name type = { l with bindings := l.bindings ++ [⟨name, type⟩] } := by
  rw [declare, putEntry_eq_append]
  intro x hx
  rw [decide_eq_false_iff_not]
  intro hn
  exact binding?_eq_none_iff.mp h (List.mem_map.mpr ⟨x, hx, hn⟩)

theorem binding?_declare (h : l.binding? name = none) (type : Ty) :
    (l.declare name type).binding? name = some type := by
  have hf : l.bindings.find? (·.name = name) = none := Option.map_eq_none_iff.mp h
  rw [declare_of_binding?_none h, binding?, List.find?_append, hf]
  simp

theorem nodup_declare (h : (l.bindings.map (·.name)).Nodup) (hn : l.binding? name = none)
    (type : Ty) : ((l.declare name type).bindings.map (·.name)).Nodup := by
  rw [declare_of_binding?_none hn, List.map_append, List.nodup_append]
  refine ⟨h, by simp, ?_⟩
  intro x hx y hy
  rw [List.map_singleton, List.mem_singleton] at hy
  subst hy
  rintro rfl
  exact binding?_eq_none_iff.mp hn hx

end Level
end AlgoFrontEnd
