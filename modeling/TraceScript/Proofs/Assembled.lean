import Mathlib.Data.List.Sort
import TraceScript.Proofs.Bound
import TraceScript.Proofs.Emitted
import TraceScript.Proofs.Numbered

namespace TraceScript

namespace Flow

namespace Interval

theorem le_total (a b : Interval) : a.le b ∨ b.le a := by
  grind [le]

theorem le_trans {a b c : Interval} (h : a.le b) (h' : b.le c) : a.le c := by
  grind [le]

theorem le_antisymm {a b : Interval} (h : a.le b) (h' : b.le a) : a = b := by
  obtain ⟨start, stop, temp⟩ := a
  obtain ⟨start', stop', temp'⟩ := b
  grind [le]

instance : Std.Total fun a b : Interval => a.le b := ⟨le_total⟩

instance : IsTrans Interval fun a b => a.le b := ⟨fun _ _ _ => le_trans⟩

instance : Std.Antisymm fun a b : Interval => a.le b := ⟨fun _ _ => le_antisymm⟩

end Interval

namespace Program

/-- The ranges of a program by temporary. -/
def ranges (p : Program) : List Interval :=
  p.temps.toList.zipIdx.filterMap fun (info, t) => Interval.ofTemp info t

theorem intervals_eq (p : Program) :
    p.intervals = p.ranges.insertionSort fun a b => a.le b := by
  rw [← List.mergeSort_eq_insertionSort]
  simp only [Bool.decide_eq_true]
  rfl

/-- Gives out homes along some ranges. -/
def allocateAlong (p : Program) (frame : Frame) (vs : List Interval) : Allocator :=
  vs.foldl (Allocator.allocate p.hints)
    { homes := Array.replicate p.temps.size none, temps := p.temps, frame }

/-- The machine code of a program in a frame. -/
def assemble (p : Program) (frame : Frame) (limit : Nat) : Except CodeError Bytecode :=
  let a := p.twoAddress.analyze.allocate frame
  Bytecode.generate a.program a.allocation a.frame.usage limit

/-- The same as `assemble`, with the ranges sorted by insertion. -/
def assembleInOrder (p : Program) (frame : Frame) (limit : Nat) : Except CodeError Bytecode :=
  let q := p.twoAddress.analyze
  let a := q.allocateAlong frame (q.ranges.insertionSort fun a b => a.le b)
  Bytecode.generate { q with temps := a.temps } ⟨a.homes⟩ a.frame.usage limit

theorem assemble_eq (p : Program) (frame : Frame) (limit : Nat) :
    p.assemble frame limit = p.assembleInOrder frame limit := by
  rw [assembleInOrder, ← intervals_eq]
  rfl

theorem instructions_twoAddress (p : Program) :
    p.twoAddress.instructions = p.instructions.flatMap Instruction.twoAddress := by
  rw [instructions, instructions, twoAddress, Array.toList_map, List.flatMap_map,
    List.flatMap_assoc]
  rfl

theorem instructions_allocate (p : Program) (frame : Frame) :
    (p.twoAddress.analyze.allocate frame).program.instructions =
      p.instructions.flatMap Instruction.twoAddress := by
  rw [← instructions_twoAddress, ← instructions_analyze p.twoAddress]
  rfl

end Program

end Flow

namespace Compile

variable {σ α β ε : Type}

theorem note_bind (n : Note) (f : Unit → Compile σ α) (s : Session σ) :
    (note n >>= f) s = f () { s with notes := s.notes.push n } := rfl

theorem notes_bind (ns : Array Note) (f : Unit → Compile σ α) (s : Session σ) :
    (notes ns >>= f) s = f () { s with notes := s.notes ++ ns } := rfl

theorem orFail_bind (wrap : ε → CompileError) (x : Except ε α) (f : α → Compile σ β)
    (s : Session σ) : (orFail wrap x >>= f) s = match x with
      | .ok a => f a s
      | .error e => .error (wrap e) s := by
  cases x <;> rfl

/-- The code of a typed probe whose maps are known, without the notes that are taken on the way. -/
def codeResult (options : Options) (t : Table) (p : Probe) : Except CodeError Code := do
  let (p, t) := p.place.run t
  let built ← Flow.ofProbe t p
  let allocated := built.program.twoAddress.analyze.allocate t.frame
  let bytecode ← built.program.assemble t.frame options.maxInstructions
  return ⟨allocated.program, allocated.allocation, bytecode, built.outputs⟩

theorem codeOf_eq (options : Options) (t : Table) (p : Probe) (s : Session σ) :
    ∃ notes, codeOf options t p s = match codeResult options t p with
      | .ok code => .ok code { s with notes }
      | .error e => .error (.code e) { s with notes } := by
  unfold codeOf codeResult Flow.Program.assemble
  obtain ⟨placed, table⟩ := p.place.run t
  simp only [note_bind, notes_bind, orFail_bind]
  cases Flow.ofProbe table placed with
  | error e => exact ⟨_, rfl⟩
  | ok built =>
    dsimp only [bind, Except.bind]
    generalize Bytecode.generate _ _ _ _ = x
    cases x <;> exact ⟨_, rfl⟩

section

variable {options : Options} {bound table : Table} {typed placed : Probe}

theorem codeResult_of_built {built : Flow.Built} (hplaced : typed.place.run bound = (placed, table))
    (hbuilt : Flow.ofProbe table placed = .ok built) :
    codeResult options bound typed =
      (built.program.assemble table.frame options.maxInstructions).map fun bytecode =>
        let allocated := built.program.twoAddress.analyze.allocate table.frame
        ⟨allocated.program, allocated.allocation, bytecode, built.outputs⟩ := by
  unfold codeResult
  rw [hplaced]
  dsimp only
  rw [hbuilt]
  dsimp only [bind, Except.bind]
  cases built.program.assemble table.frame options.maxInstructions <;> rfl

variable {s s' : Session σ} {code : Code}

theorem codeResult_of_codeOf (h : codeOf options bound typed s = .ok code s') :
    codeResult options bound typed = .ok code := by
  obtain ⟨notes, hrun⟩ := codeOf_eq options bound typed s
  rw [h] at hrun
  split at hrun
  · rename_i hcode
    rw [hcode, (EStateM.Result.ok.inj hrun).1]
  · cases hrun

/-- The code of a probe is the machine code of its program in the frame that it was placed in. -/
theorem codeOf_ok (h : (codeOf options bound typed).run s = .ok code s')
    (hplaced : typed.place.run bound = (placed, table)) :
    ∃ built, Flow.ofProbe table placed = .ok built ∧
      built.program.assemble table.frame options.maxInstructions = .ok code.bytecode := by
  have hcode := codeResult_of_codeOf h
  cases hbuilt : Flow.ofProbe table placed with
  | error e =>
    unfold codeResult at hcode
    rw [hplaced] at hcode
    dsimp only at hcode
    rw [hbuilt] at hcode
    cases hcode
  | ok built =>
    rw [codeResult_of_built hplaced hbuilt] at hcode
    obtain ⟨b, hb, rfl⟩ := Run.except_map_ok.1 hcode
    exact ⟨built, rfl, hb⟩

theorem codeOf_of_assemble (s : Session σ) {built : Flow.Built} {b : Bytecode}
    (hplaced : typed.place.run bound = (placed, table)) (hbuilt : Flow.ofProbe table placed = .ok built)
    (hb : built.program.assemble table.frame options.maxInstructions = .ok b) :
    ∃ code s', (codeOf options bound typed).run s = .ok code s' ∧ code.bytecode = b := by
  obtain ⟨notes, hrun⟩ := codeOf_eq options bound typed s
  rw [codeResult_of_built hplaced hbuilt, hb] at hrun
  exact ⟨_, _, hrun, rfl⟩

theorem codeOf_of_evaluated (options : Options) (s : Session σ) {q : Bytecode → Bool}
    (hplaced : typed.place.run bound = (placed, table))
    (h : (Flow.ofProbe table placed).toOption.any (fun built =>
      (built.program.assembleInOrder table.frame options.maxInstructions).toOption.any q)) :
    ∃ code s', (codeOf options bound typed).run s = .ok code s' ∧ q code.bytecode := by
  obtain ⟨built, hbuilt, h⟩ := Run.except_ok_of_any h
  obtain ⟨b, hb, hq⟩ := Run.except_ok_of_any h
  rw [← Flow.Program.assemble_eq] at hb
  obtain ⟨code, s', hrun, rfl⟩ := codeOf_of_assemble s hplaced hbuilt hb
  exact ⟨code, s', hrun, hq⟩

end

end Compile

end TraceScript
