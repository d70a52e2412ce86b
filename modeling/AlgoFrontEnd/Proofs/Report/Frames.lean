import AlgoFrontEnd.Proofs.Compilation.Stages
import AlgoFrontEnd.Proofs.Frame.Tiling
import AlgoFrontEnd.Report

/-! What the report on a compilation shows of frames. Main statement: every function is shown with
its own frame, unless the entry function takes the name of another one. -/
namespace AlgoFrontEnd

namespace Report

def headLine (F : Routine) : String := "function " ++ F.name ++ resultText F.result

def plainLine (label : String) (v : Binding) : String := s!"  {label} {v.name}: {v.type.display}"

def slotLine (label : String) (s : Slot) : String := s!"{plainLine label s.variable} @{s.offset}"

/-- A function without a frame. -/
def plainLines (F : Routine) : List String :=
  headLine F :: F.parameters.map (plainLine "param") ++ F.locals.map (plainLine "local") ++
    statementLines F.statements ++ [""]

/-- A function with its own frame. The first slots are those of the parameters. -/
def framedLines (F : Routine) : List String :=
  let f := Frame.ofRoutine F
  headLine F :: (f.slots.take F.parameters.length).map (slotLine "param") ++
    (f.slots.drop F.parameters.length).map (slotLine "local") ++ [s!"  frame {f.size} bytes"] ++
    statementLines F.statements ++ [""]

def externalLines (c : Compilation) : List String := c.externals.map externalLine

end Report

/-- The frames of a compilation and what its report shows of them. The functions before the entry
function have different names, but the entry function may take the name of one of them, which then
has no frame of its own. -/
structure Compilation.Framed (c : Compilation) (before : List Routine) (main : Routine) :
    Prop where
  found : ∀ F ∈ before, c.frames.frame? F.name =
    some (Frame.ofRoutine (if main.name = F.name then main else F))
  last : c.frames.frame? main.name = some (Frame.ofRoutine main)
  single : c.frames.frames.length = c.routines.length ↔ ∀ F ∈ before, F.name ≠ main.name
  renders : (∃ text, c.describe = .ok text) ↔ ∀ F ∈ before, F.name = main.name →
    ∀ v ∈ F.variables, v.name ∈ main.variables.map (·.name)
  own : (∀ F ∈ before, F.name ≠ main.name) →
    c.frames.frames = c.routines.map Frame.ofRoutine ∧
    c.describe = .ok (Report.closed (c.routines.flatMap Report.framedLines ++
      Report.externalLines c))

/-! ### Frames by name -/

namespace FrameTable
variable {rs : List Routine} {main : Routine}

theorem frame?_concat (hn : (rs.map (·.name)).Nodup) {F : Routine} (hF : F ∈ rs) :
    (put ⟨rs.map Frame.ofRoutine⟩ (Frame.ofRoutine main)).frame? F.name =
      some (Frame.ofRoutine (if main.name = F.name then main else F)) := by
  rw [frame?_put, Frame.function_ofRoutine]
  split
  · rfl
  · rw [frame?, List.find?_map]
    exact congrArg (Option.map Frame.ofRoutine) (find?_key Routine.name hn hF)

theorem frames_concat (h : ∀ F ∈ rs, F.name ≠ main.name) :
    (put ⟨rs.map Frame.ofRoutine⟩ (Frame.ofRoutine main)).frames =
      (rs ++ [main]).map Frame.ofRoutine := by
  rw [put, putEntry_eq_append, List.map_append, List.map_singleton]
  intro f hf
  obtain ⟨F, hF, rfl⟩ := List.mem_map.mp hf
  exact decide_eq_false (h F hF)

/-- The frame of a function that the entry function is called like is lost. -/
theorem length_concat_iff :
    (put ⟨rs.map Frame.ofRoutine⟩ (Frame.ofRoutine main)).frames.length = (rs ++ [main]).length ↔
      ∀ F ∈ rs, F.name ≠ main.name := by
  refine ⟨?_, fun h => by rw [frames_concat h, List.length_map]⟩
  intro hlength F hF hname
  have hsame : (putEntry (·.function = (Frame.ofRoutine main).function) (Frame.ofRoutine main)
      (rs.map Frame.ofRoutine)).length = (rs.map Frame.ofRoutine).length :=
    length_putEntry (List.mem_map_of_mem hF) (decide_eq_true hname)
  rw [put, hsame, List.length_map, List.length_append, List.length_singleton] at hlength
  omega

end FrameTable

namespace Frame

theorem exists_offsetOf_iff {f : Frame} {name : String} :
    (∃ offset, f.offsetOf name = .ok offset) ↔ name ∈ f.slots.map (·.name) := by
  unfold offsetOf slot?
  cases hs : f.slots.find? (·.name = name) with
  | some s =>
    have hn : s.name = name := by simpa using List.find?_some hs
    exact ⟨fun _ => List.mem_map.mpr ⟨s, List.mem_of_find?_eq_some hs, hn⟩, fun _ => ⟨_, rfl⟩⟩
  | none =>
    refine ⟨nofun, fun h => ?_⟩
    obtain ⟨s, hm, hn⟩ := List.mem_map.mp h
    simpa [hn] using List.find?_eq_none.mp hs s hm

theorem names_ofRoutine (F : Routine) :
    (ofRoutine F).slots.map (·.name) = F.variables.map (·.name) := by
  have := congrArg (List.map Binding.name) (map_slotsFrom 0 F.variables)
  rwa [List.map_map] at this

end Frame

/-! ### Lines -/

namespace Report

theorem variableLines_none (label : String) (vs : List Binding) :
    variableLines none label vs = .ok (vs.map (plainLine label)) := by
  induction vs with
  | nil => rfl
  | cons v vs ih =>
    rw [variableLines, ih]
    rfl

/-- Variables that a frame holds are shown with their offsets in it. -/
theorem variableLines_slots {f : Frame} (label : String) (ss : List Slot)
    (h : ∀ s ∈ ss, f.offsetOf s.name = .ok s.offset) :
    variableLines (some f) label (ss.map Slot.variable) = .ok (ss.map (slotLine label)) := by
  induction ss with
  | nil => rfl
  | cons s ss ih =>
    obtain ⟨hs, hss⟩ := List.forall_mem_cons.mp h
    have hline : variableLine (some f) label s.variable = .ok (slotLine label s) := by
      simp only [variableLine, Slot.variable, hs]
      rfl
    rw [List.map_cons, variableLines, hline, ih hss]
    rfl

theorem exists_variableLines_iff (label : String) {f : Frame} {vs : List Binding} :
    (∃ lines, variableLines (some f) label vs = .ok lines) ↔
      ∀ v ∈ vs, v.name ∈ f.slots.map (·.name) := by
  induction vs with
  | nil => exact ⟨fun _ => List.forall_mem_nil _, fun _ => ⟨[], rfl⟩⟩
  | cons v vs ih =>
    rw [List.forall_mem_cons, ← ih, ← Frame.exists_offsetOf_iff]
    constructor
    · rintro ⟨lines, h⟩
      simp only [variableLines, variableLine, bind_eq_ok, pure_eq_ok] at h
      obtain ⟨line, ⟨offset, ho, -⟩, rest, hr, -⟩ := h
      exact ⟨⟨offset, ho⟩, rest, hr⟩
    · rintro ⟨⟨offset, ho⟩, rest, hr⟩
      simp only [variableLines, variableLine, bind_eq_ok, pure_eq_ok]
      exact ⟨_, _, ⟨offset, ho, rfl⟩, rest, hr, rfl⟩

theorem routineLines_plain {table : FrameTable} {F : Routine} (h : table.frame? F.name = none) :
    routineLines table F = .ok (plainLines F) := by
  rw [routineLines, h, variableLines_none, variableLines_none]
  simp [plainLines, headLine, bind, Except.bind, pure, Except.pure]

/-- A function whose own frame is under its name is shown with this frame. -/
theorem routineLines_framed {table : FrameTable} {F : Routine}
    (h : table.frame? F.name = some (Frame.ofRoutine F)) (hf : (Frame.ofRoutine F).Fits F) :
    routineLines table F = .ok (framedLines F) := by
  have hparameters : F.parameters =
      ((Frame.ofRoutine F).slots.take F.parameters.length).map Slot.variable := by
    rw [List.map_take, hf.held, Routine.variables, List.take_left]
  have hlocals : F.locals =
      ((Frame.ofRoutine F).slots.drop F.parameters.length).map Slot.variable := by
    rw [List.map_drop, hf.held, Routine.variables, List.drop_left]
  have hp := variableLines_slots "param" ((Frame.ofRoutine F).slots.take F.parameters.length)
    (fun s hs => (hf.offset s (List.mem_of_mem_take hs)).1)
  have hl := variableLines_slots "local" ((Frame.ofRoutine F).slots.drop F.parameters.length)
    (fun s hs => (hf.offset s (List.mem_of_mem_drop hs)).1)
  rw [← hparameters] at hp
  rw [← hlocals] at hl
  rw [routineLines, h, hp, hl]
  simp [framedLines, headLine, bind, Except.bind, pure, Except.pure]

/-- A function can be shown with any frame that has a slot for each of its variables. -/
theorem exists_routineLines_iff {table : FrameTable} {F : Routine} {f : Frame}
    (h : table.frame? F.name = some f) :
    (∃ lines, routineLines table F = .ok lines) ↔
      ∀ v ∈ F.variables, v.name ∈ f.slots.map (·.name) := by
  rw [Routine.variables, List.forall_mem_append, ← exists_variableLines_iff "param",
    ← exists_variableLines_iff "local"]
  simp only [routineLines, h, bind_eq_ok, pure_eq_ok]
  constructor
  · rintro ⟨_, parameters, hp, locals, hl, -⟩
    exact ⟨⟨parameters, hp⟩, locals, hl⟩
  · rintro ⟨⟨parameters, hp⟩, locals, hl⟩
    exact ⟨_, parameters, hp, locals, hl, rfl⟩

theorem routinesLines_ok {table : FrameTable} {lines : Routine → List String} {rs : List Routine}
    (h : ∀ F ∈ rs, routineLines table F = .ok (lines F)) :
    routinesLines table rs = .ok (rs.flatMap lines) := by
  induction rs with
  | nil => rfl
  | cons F rs ih =>
    obtain ⟨hF, hrs⟩ := List.forall_mem_cons.mp h
    rw [routinesLines, hF, ih hrs]
    rfl

theorem exists_routinesLines_iff {table : FrameTable} {rs : List Routine} :
    (∃ lines, routinesLines table rs = .ok lines) ↔
      ∀ F ∈ rs, ∃ lines, routineLines table F = .ok lines := by
  constructor
  · intro h
    induction rs with
    | nil => exact List.forall_mem_nil _
    | cons F rs ih =>
      obtain ⟨lines, h⟩ := h
      simp only [routinesLines, bind_eq_ok, pure_eq_ok] at h
      obtain ⟨first, hF, rest, hr, -⟩ := h
      exact List.forall_mem_cons.mpr ⟨⟨first, hF⟩, ih ⟨rest, hr⟩⟩
  · intro h
    choose! lines hlines using h
    exact ⟨_, routinesLines_ok hlines⟩

end Report

section
variable {c : Compilation}

theorem exists_describe_iff : (∃ text, c.describe = .ok text) ↔
    ∀ F ∈ c.routines, ∃ lines, Report.routineLines c.frames F = .ok lines := by
  rw [← Report.exists_routinesLines_iff, Compilation.describe]
  cases Report.routinesLines c.frames c.routines <;> simp

theorem describe_ok {lines : Routine → List String}
    (h : ∀ F ∈ c.routines, Report.routineLines c.frames F = .ok (lines F)) :
    c.describe = .ok (Report.closed (c.routines.flatMap lines ++ Report.externalLines c)) := by
  rw [Compilation.describe, Report.routinesLines_ok h]
  rfl

/-! ### Results -/

theorem framed_of_put {before : List Routine} {main : Routine} (hr : c.routines = before ++ [main])
    (ht : c.frames = .put ⟨before.map Frame.ofRoutine⟩ (Frame.ofRoutine main))
    (hn : (before.map (·.name)).Nodup) (hf : ∀ F ∈ c.routines, (Frame.ofRoutine F).Fits F) :
    c.Framed before main := by
  have hfound {F : Routine} (hF : F ∈ before) : c.frames.frame? F.name =
      some (Frame.ofRoutine (if main.name = F.name then main else F)) := by
    rw [ht, FrameTable.frame?_concat hn hF]
  have hlast : c.frames.frame? main.name = some (Frame.ofRoutine main) := by
    rw [ht, FrameTable.frame?_put, if_pos (Frame.function_ofRoutine main)]
  refine ⟨fun F hF => hfound hF, hlast, by rw [ht, hr, FrameTable.length_concat_iff], ?_, ?_⟩
  · rw [exists_describe_iff, hr, List.forall_mem_append, List.forall_mem_singleton,
      Report.exists_routineLines_iff hlast, Frame.names_ofRoutine, and_iff_left]
    · refine forall₂_congr fun F hF => ?_
      rw [Report.exists_routineLines_iff (hfound hF), Frame.names_ofRoutine]
      by_cases hname : F.name = main.name
      · rw [if_pos hname.symm]
        exact ⟨fun h _ => h, fun h => h hname⟩
      · rw [if_neg (Ne.symm hname)]
        exact ⟨fun _ h => absurd h hname, fun _ v hv => List.mem_map_of_mem hv⟩
    · exact fun v hv => List.mem_map_of_mem hv
  · intro hdistinct
    refine ⟨by rw [ht, hr, FrameTable.frames_concat hdistinct], describe_ok ?_⟩
    intro F hF
    refine Report.routineLines_framed ?_ (hf F hF)
    rcases List.mem_append.mp (hr ▸ hF) with hF | hF
    · rw [hfound hF, if_neg (hdistinct F hF).symm]
    · rw [List.mem_singleton.mp hF, hlast]

end

/-- With frames, each function is shown with its own one unless the entry function takes the name
of another, and the report fails only if the other one has variables that the entry function
lacks. Without frames nothing can be missing. -/
theorem report_of_compiled {options : Options} {file text : String} {c : Compilation}
    (h : (compileText options file text).result = .ok c) :
    ∃ before main, c.routines = before ++ [main] ∧ main.name = options.entry ∧
      (options.layout = true → c.Framed before main) ∧
      (options.layout = false → c.frames.frames = [] ∧
        c.describe = .ok (Report.closed (c.routines.flatMap Report.plainLines ++
          Report.externalLines c))) := by
  obtain ⟨⟨tokens, log, ht, hp, hr⟩, hframes⟩ := compileLines_ok h
  have hn := Grammar.plainHeaders_program ht hp
  obtain ⟨l, hc, -⟩ := Resolution.program_consistent hn hr
  have hf : ∀ F ∈ c.routines, (Frame.ofRoutine F).Fits F :=
    fun F hF => Frame.fits_ofRoutine (Resolution.program_made hr F hF)
  obtain ⟨last, statements, -, -, hroutines⟩ := Resolution.program_ok hr
  have hroutines : c.routines = last.finished ++ [_] := hroutines
  obtain ⟨hon, hoff⟩ := Source.layOut_ok hframes
  refine ⟨last.finished, _, hroutines, rfl, fun hl => ?_, fun hl => ?_⟩
  · obtain ⟨events, htable⟩ := hon hl
    have hdistinct : (last.finished.map (·.name)).Nodup := by
      have hd : (c.routines.dropLast.map (·.name)).Nodup := hc.distinct
      rwa [hroutines, List.dropLast_concat] at hd
    obtain ⟨events', hput⟩ := FrameTable.ofRoutines_concat
      (fun F hF => (hf F (by rwa [hroutines])).size) hdistinct
    rw [hroutines, hput] at htable
    exact framed_of_put hroutines (congrArg Prod.fst (Except.ok.inj htable)).symm hdistinct hf
  · have hempty := hoff hl
    refine ⟨by rw [hempty], describe_ok fun F _ => Report.routineLines_plain ?_⟩
    rw [hempty]
    rfl

/-- The entry function is called like a function with a parameter. -/
def renamedText : String := "function f(x: int)\nend\n"

theorem renamedText_fails : ∃ c,
    (compileText ⟨"f(int)", true⟩ "<input>" renamedText).result = .ok c ∧
    c.routines.map (·.name) = ["f(int)", "f(int)"] ∧ c.frames.frames = [⟨"f(int)", []⟩] ∧
    c.describe = .error (.noSlot ⟨"x", "f(int)"⟩) := by
  obtain ⟨c, hc, hd⟩ := compiles_of_any ⟨"f(int)", true⟩ "<input>" renamedText
    (fun c => c.routines.map (·.name) = ["f(int)", "f(int)"] ∧
      c.frames.frames = [⟨"f(int)", []⟩] ∧
      c.describe = .error (.noSlot ⟨"x", "f(int)"⟩)) (by decide +kernel)
  exact ⟨c, hc, of_decide_eq_true hd⟩

/-- Two functions with a variable of one name. -/
def shownText : String := "function f(b: bool, n: int)\nm <- n\nend\nn <- 1\n"

theorem shownText_shown : ∃ c,
    (compileText ⟨"main", true⟩ "<input>" shownText).result = .ok c ∧
    Report.routinesLines c.frames c.routines = .ok ["function f(bool,int)",
      "  param b: bool @0", "  param n: int @1", "  local m: int @5", "  frame 9 bytes",
      "    Assign: m <- n", "", "function main", "  local n: int @0", "  frame 4 bytes",
      "    Assign: n <- 1", ""] ∧
    ∃ before main, c.routines = before ++ [main] ∧ main.name = "main" ∧ c.Framed before main := by
  obtain ⟨c, hc, hd⟩ := compiles_of_any ⟨"main", true⟩ "<input>" shownText
    (fun c => Report.routinesLines c.frames c.routines = .ok ["function f(bool,int)",
      "  param b: bool @0", "  param n: int @1", "  local m: int @5", "  frame 9 bytes",
      "    Assign: m <- n", "", "function main", "  local n: int @0", "  frame 4 bytes",
      "    Assign: n <- 1", ""]) (by decide +kernel)
  obtain ⟨before, main, hr, hn, hon, -⟩ := report_of_compiled hc
  exact ⟨c, hc, of_decide_eq_true hd, before, main, hr, hn, hon rfl⟩

end AlgoFrontEnd
