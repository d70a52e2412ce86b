import AlgoFrontEnd.Frame
import AlgoFrontEnd.Proofs.Resolution.Bodies
import AlgoFrontEnd.Proofs.Resolution.Linking
import Mathlib.Data.List.Nodup

/-! Frames hold the variables of their functions side by side. Main statement: the functions of a
result can always be laid out, and every byte of a frame belongs to one variable. -/
namespace AlgoFrontEnd

/-- A byte of a frame lies in a slot. -/
def Slot.Holds (s : Slot) (byte : Nat) : Prop := s.offset ≤ byte ∧ byte < s.offset + s.size

instance (s : Slot) (byte : Nat) : Decidable (s.Holds byte) := inferInstanceAs (Decidable (_ ∧ _))

def Slot.variable (s : Slot) : Binding := ⟨s.name, s.type⟩

/-- Slots lie side by side from the start of a frame to its end. -/
structure Frame.Tiled (f : Frame) : Prop where
  first : ∀ s ∈ f.slots.head?, s.offset = 0
  next : ∀ (i : Nat) s t, f.slots[i]? = some s → f.slots[i + 1]? = some t →
    t.offset = s.offset + s.size
  apart : f.slots.Pairwise fun s t => s.offset + s.size ≤ t.offset
  covered : ∀ byte, byte < f.size ↔ ∃ s ∈ f.slots, s.Holds byte

/-- A frame is that of a function: a slot for each variable, found by its name, and no more bytes
than the function has counted. -/
structure Frame.Fits (f : Frame) (F : Routine) : Prop where
  function : f.function = F.name
  held : f.slots.map Slot.variable = F.variables
  distinct : (F.variables.map (·.name)).Nodup
  size : F.frameSize = f.size
  tiled : f.Tiled
  offset : ∀ s ∈ f.slots, f.offsetOf s.name = .ok s.offset ∧ ∀ t ∈ f.slots, t.name = s.name → t = s

namespace Frame

@[simp] theorem function_ofRoutine (F : Routine) : (ofRoutine F).function = F.name := rfl

/-! ### Slots behind one another -/

theorem map_slotsFrom (offset : Nat) (vs : List Binding) :
    (slotsFrom offset vs).map Slot.variable = vs := by
  induction vs generalizing offset with
  | nil => rfl
  | cons v vs ih => rw [slotsFrom, List.map_cons, ih, Slot.variable]

theorem total_slotsFrom (offset : Nat) (vs : List Binding) :
    Slot.total (slotsFrom offset vs) = Binding.total vs := by
  induction vs generalizing offset with
  | nil => rfl
  | cons v vs ih =>
    rw [slotsFrom, Slot.total, ih]
    rfl

theorem head?_slotsFrom {offset : Nat} {vs : List Binding} {s : Slot}
    (h : s ∈ (slotsFrom offset vs).head?) : s.offset = offset := by
  cases vs with
  | nil => cases h
  | cons v vs =>
    cases h
    rfl

theorem getElem?_succ_slotsFrom {offset : Nat} {vs : List Binding} {i : Nat} {s t : Slot}
    (hs : (slotsFrom offset vs)[i]? = some s) (ht : (slotsFrom offset vs)[i + 1]? = some t) :
    t.offset = s.offset + s.size := by
  induction vs generalizing offset i with
  | nil => cases hs
  | cons v vs ih =>
    rw [slotsFrom, List.getElem?_cons_succ] at ht
    cases i with
    | zero =>
      cases hs
      exact head?_slotsFrom (List.head?_eq_getElem?.trans ht)
    | succ i => exact ih hs ht

/-- Slots from an offset on hold exactly the bytes of their variables behind the offset. -/
theorem exists_holds_slotsFrom {offset byte : Nat} {vs : List Binding} :
    (∃ s ∈ slotsFrom offset vs, s.Holds byte) ↔
      offset ≤ byte ∧ byte < offset + Binding.total vs := by
  induction vs generalizing offset with
  | nil =>
    simp only [slotsFrom, Binding.total, List.not_mem_nil, false_and, exists_false, false_iff]
    omega
  | cons v vs ih =>
    have hv : Slot.Holds ⟨v.name, v.type, offset⟩ byte ↔
        offset ≤ byte ∧ byte < offset + v.type.size := .rfl
    rw [slotsFrom, List.exists_mem_cons_iff, ih, hv, Binding.total]
    omega

theorem le_offset_of_mem_slotsFrom {offset : Nat} {vs : List Binding} {s : Slot}
    (h : s ∈ slotsFrom offset vs) : offset ≤ s.offset := by
  induction vs generalizing offset with
  | nil => cases h
  | cons v vs ih =>
    rcases List.mem_cons.mp h with rfl | h
    · exact Nat.le_refl _
    · have := ih h
      omega

theorem pairwise_slotsFrom (offset : Nat) (vs : List Binding) :
    (slotsFrom offset vs).Pairwise fun s t => s.offset + s.size ≤ t.offset := by
  induction vs generalizing offset with
  | nil => exact .nil
  | cons v vs ih => exact .cons (fun s hs => le_offset_of_mem_slotsFrom hs) (ih _)

theorem tiled_ofRoutine (F : Routine) : (ofRoutine F).Tiled where
  first _ hs := head?_slotsFrom hs
  next _ _ _ hs ht := getElem?_succ_slotsFrom hs ht
  apart := pairwise_slotsFrom ..
  covered byte := by
    simp only [size, ofRoutine, exists_holds_slotsFrom, total_slotsFrom]
    omega

theorem fits_ofRoutine {F : Routine} (h : Resolution.Made F) : (ofRoutine F).Fits F := by
  obtain ⟨hd, hs⟩ := h.variables
  have hv : (ofRoutine F).slots.map Slot.variable = F.variables := map_slotsFrom ..
  have hn : ((ofRoutine F).slots.map (·.name)).Nodup := by
    rw [← hv, List.map_map] at hd
    exact hd
  refine ⟨rfl, hv, hd, ?_, tiled_ofRoutine F, ?_⟩
  · rw [hs, size, ofRoutine, total_slotsFrom, Routine.variables]
  · intro s hs
    refine ⟨?_, fun t ht hts => List.inj_on_of_nodup_map hn ht hs hts⟩
    rw [offsetOf, slot?, find?_key Slot.name hn hs]

end Frame

/-! ### Tables of frames -/

namespace FrameTable

theorem frame?_put (t : FrameTable) (f : Frame) (name : String) :
    (t.put f).frame? name = if f.function = name then some f else t.frame? name := by
  obtain ⟨fs⟩ := t
  simp only [put, frame?]
  induction fs with
  | nil =>
    rw [putEntry]
    split <;> simp [*]
  | cons g fs ih =>
    rw [putEntry]
    by_cases hg : g.function = f.function
    · by_cases hn : f.function = name <;> simp [hg, hn]
    · by_cases hn : g.function = name
      · have hf : f.function ≠ name := fun hf => hg (hn.trans hf.symm)
        simp [hn, hf, hf.symm]
      · simp [hg, hn, ih]

/-- Functions whose declared size is that of their frame are laid out, and the last one of a name
has its frame under the name. -/
theorem addAll_ok {rs : List Routine} (h : ∀ F ∈ rs, F.frameSize = (Frame.ofRoutine F).size)
    (t : FrameTable) (log : List Event) :
    ∃ table events, addAll t log rs = .ok (table, events) ∧ ∀ name, table.frame? name =
      ((rs.reverse.find? (·.name = name)).map Frame.ofRoutine).or (t.frame? name) := by
  induction rs generalizing t log with
  | nil => exact ⟨t, log, rfl, by simp⟩
  | cons F rs ih =>
    obtain ⟨hF, hrs⟩ := List.forall_mem_cons.mp h
    obtain ⟨table, events, ht, hn⟩ := ih hrs (t.put (Frame.ofRoutine F))
      (log ++ [(Frame.ofRoutine F).event])
    refine ⟨table, events, ?_, ?_⟩
    · simp only [addAll, Frame.verify, if_pos hF]
      exact ht
    · intro name
      rw [hn, frame?_put, List.reverse_cons, List.find?_append, List.find?_singleton]
      cases rs.reverse.find? (·.name = name) with
      | some G => rfl
      | none => by_cases hname : F.name = name <;> simp [Frame.ofRoutine, hname]

theorem addAll_append (t : FrameTable) (log : List Event) (rs rs' : List Routine) :
    addAll t log (rs ++ rs') = (do
      let (t, log) ← addAll t log rs
      addAll t log rs') := by
  induction rs generalizing t log with
  | nil => rfl
  | cons F rs ih =>
    simp only [List.cons_append, addAll]
    split
    · exact ih ..
    · rfl

/-- Functions with different names have frames behind one another. -/
theorem addAll_of_nodup {rs : List Routine}
    (h : ∀ F ∈ rs, F.frameSize = (Frame.ofRoutine F).size) (t : FrameTable) (log : List Event)
    (hn : (t.frames.map (·.function) ++ rs.map (·.name)).Nodup) :
    ∃ events, addAll t log rs = .ok (⟨t.frames ++ rs.map Frame.ofRoutine⟩, events) := by
  induction rs generalizing t log with
  | nil => exact ⟨log, by simp [addAll]⟩
  | cons F rs ih =>
    obtain ⟨hF, hrs⟩ := List.forall_mem_cons.mp h
    have hnew : ∀ f ∈ t.frames, decide (f.function = (Frame.ofRoutine F).function) = false := by
      intro f hf
      exact decide_eq_false
        ((List.nodup_append.mp hn).2.2 _ (List.mem_map_of_mem hf) _ (List.mem_cons_self ..))
    have hput : t.put (Frame.ofRoutine F) = ⟨t.frames ++ [Frame.ofRoutine F]⟩ :=
      congrArg FrameTable.mk (putEntry_eq_append hnew)
    obtain ⟨events, he⟩ := ih hrs (t.put (Frame.ofRoutine F)) (log ++ [(Frame.ofRoutine F).event])
      (by simpa [hput] using hn)
    refine ⟨events, ?_⟩
    simp only [addAll, Frame.verify, if_pos hF]
    simpa [hput] using he

/-- If only the last function may have the name of another, its frame is put last. -/
theorem ofRoutines_concat {rs : List Routine} {main : Routine}
    (h : ∀ F ∈ rs ++ [main], F.frameSize = (Frame.ofRoutine F).size)
    (hn : (rs.map (·.name)).Nodup) :
    ∃ events, ofRoutines (rs ++ [main]) =
      .ok (put ⟨rs.map Frame.ofRoutine⟩ (Frame.ofRoutine main), events) := by
  obtain ⟨hrs, hmain⟩ := List.forall_mem_append.mp h
  have hmain := List.forall_mem_singleton.mp hmain
  obtain ⟨events, he⟩ := addAll_of_nodup hrs ⟨[]⟩ [] (by simpa using hn)
  refine ⟨events ++ [(Frame.ofRoutine main).event], ?_⟩
  rw [ofRoutines, addAll_append, he]
  simp [bind, Except.bind, addAll, Frame.verify, hmain]

end FrameTable

namespace Resolution

/-- Resolution and layout agree on the variables of every function. -/
theorem program_laid_out {entry : String} {p : Program Position} {r : Result} {log : List Event}
    (h : program entry p = .ok (r, log)) :
    (∃ table events, FrameTable.ofRoutines r.routines = .ok (table, events) ∧ ∀ name,
      table.frame? name = (r.routines.reverse.find? (·.name = name)).map Frame.ofRoutine) ∧
    ∀ F ∈ r.routines, (Frame.ofRoutine F).Fits F := by
  have hfits : ∀ F ∈ r.routines, (Frame.ofRoutine F).Fits F :=
    fun F hF => Frame.fits_ofRoutine (program_made h F hF)
  obtain ⟨table, events, ht, hn⟩ := FrameTable.addAll_ok (fun F hF => (hfits F hF).size) ⟨[]⟩ []
  refine ⟨⟨table, events, ht, ?_⟩, hfits⟩
  intro name
  rw [hn]
  simp [FrameTable.frame?]

/-- Parameters, locals of nested blocks and a function inside that reuses a name. -/
def tiledSource : List String :=
  ["function area(w: int, unit: string) : int", "if w > 0", "ok <- true", "end", "a <- w * w",
    "function twice(a: int) : int", "return a + a", "end", "return twice(a)", "end",
    "n <- area(2, \"m\")", "flags: bool[]"]

theorem tiledSource_laid_out : ∃ p r log, program "main" p = .ok (r, log) ∧
    (r.routines.map fun F => (F.name, F.frameSize,
      (Frame.ofRoutine F).slots.map fun s => (s.name, s.offset, s.size))) =
      [("area(int,string).twice(int)", 4, [("a", 0, 4)]),
        ("area(int,string)", 17, [("w", 0, 4), ("unit", 4, 8), ("ok", 12, 1), ("a", 13, 4)]),
        ("main", 12, [("n", 0, 4), ("flags", 4, 8)])] ∧
    (∃ table events, FrameTable.ofRoutines r.routines = .ok (table, events) ∧ ∀ name,
      table.frame? name = (r.routines.reverse.find? (·.name = name)).map Frame.ofRoutine) ∧
    ∀ F ∈ r.routines, (Frame.ofRoutine F).Fits F := by
  obtain ⟨p, r, ⟨_, log, -, -, h⟩, hs⟩ := resolves_of_any "main" tiledSource
    (fun (_, r) => (r.routines.map fun F => (F.name, F.frameSize,
      (Frame.ofRoutine F).slots.map fun s => (s.name, s.offset, s.size))) =
      [("area(int,string).twice(int)", 4, [("a", 0, 4)]),
        ("area(int,string)", 17, [("w", 0, 4), ("unit", 4, 8), ("ok", 12, 1), ("a", 13, 4)]),
        ("main", 12, [("n", 0, 4), ("flags", 4, 8)])]) (by decide +kernel)
  exact ⟨p, r, log, h, of_decide_eq_true hs, program_laid_out h⟩

end Resolution
end AlgoFrontEnd
