import Mathlib.Logic.Relation
import TraceScript.Flow.Program
import TraceScript.Proofs.World

/-!
How programs of temporaries run: what each instruction does to the frame, to the temporaries and
outside, and how control goes from one instruction to the next.
-/
namespace TraceScript

/-- The state after some steps, or the last before that if there are not as many. -/
def follow {α : Type} (step : α → Option α) : Nat → α → α
  | 0, a => a
  | n + 1, a =>
    match step a with
    | some b => follow step n b
    | none => a

theorem reaches_follow {α : Type} (step : α → Option α) (n : Nat) (a : α) :
    Relation.ReflTransGen (fun c d => step c = some d) a (follow step n a) := by
  induction n generalizing a with
  | zero => exact .refl
  | succ n ih =>
    rw [follow]
    split
    · rename_i b hb
      exact .head hb (ih b)
    · exact .refl

namespace Flow

structure State where
  frame : Memory
  temps : Temp → UInt64
  outside : Outside

namespace State

def set (s : State) (t : Temp) (v : UInt64) : State :=
  { s with temps := Function.update s.temps t v }

def write (s : State) (addr : Int) (data : List UInt8) : State :=
  { s with frame := s.frame.write addr data }

@[simp] theorem frame_set (s : State) (t : Temp) (v : UInt64) : (s.set t v).frame = s.frame := rfl

@[simp] theorem outside_set (s : State) (t : Temp) (v : UInt64) :
    (s.set t v).outside = s.outside := rfl

@[simp] theorem temps_set (s : State) (t : Temp) (v : UInt64) : (s.set t v).temps t = v :=
  Function.update_self ..

theorem temps_set_of_ne (s : State) {t u : Temp} (v : UInt64) (h : u ≠ t) :
    (s.set t v).temps u = s.temps u :=
  Function.update_of_ne h ..

@[simp] theorem frame_write (s : State) (addr : Int) (data : List UInt8) :
    (s.write addr data).frame = s.frame.write addr data := rfl

@[simp] theorem outside_write (s : State) (addr : Int) (data : List UInt8) :
    (s.write addr data).outside = s.outside := rfl

@[simp] theorem temps_write (s : State) (addr : Int) (data : List UInt8) :
    (s.write addr data).temps = s.temps := rfl

end State

namespace Operand

def value (temps : Temp → UInt64) : Operand → UInt64
  | temp t => temps t
  | imm v => v.toInt64.toUInt64

theorem value_congr {f g : Temp → UInt64} {x : Operand} (h : ∀ u ∈ x.temps, f u = g u) :
    x.value f = x.value g := by
  cases x with
  | temp t => exact h t List.mem_cons_self
  | imm v => rfl

end Operand

namespace Helper

/-- The result of a call, if it has one, and the state after it. -/
def run (w : World) : Helper → State → Option UInt64 × State
  | pid, s => (some w.pid.toUInt64, s)
  | tid, s => (some w.tid.toUInt64, s)
  | cpu, s => (some w.cpu, s)
  | ns, s =>
    let (reading, o) := s.outside.tick w
    (some reading, { s with outside := o })
  | arg n, s => (some (w.args n.toNat), s)
  | comm addr size, s => (none, s.write addr (Bytes.extend size w.comm))
  | strcmp lhs rhs size, s =>
    (some (if s.frame.read lhs size = s.frame.read rhs size then 0 else 1), s)
  | out addr size channel, s =>
    (none, { s with outside := s.outside.send channel (s.frame.read addr size) })

end Helper

namespace Instruction

/-- Puts the result of a call where it is wanted. -/
def keep (dst : Option Temp) : Option UInt64 × State → State
  | (result, s) =>
    match dst, result with
    | some t, some v => s.set t v
    | _, _ => s

/-- What an instruction does besides going on to another one. -/
def run (w : World) : Instruction → State → State
  | imm dst v, s => s.set dst v.toUInt64
  | arith op dst lhs rhs, s => s.set dst (op.apply (s.temps lhs) (rhs.value s.temps))
  | compare op dst lhs rhs, s =>
    s.set dst (if op.holds (s.temps lhs) (rhs.value s.temps) then 1 else 0)
  | move dst src, s => s.set dst (s.temps src)
  | load dst addr, s => s.set dst (Bytes.toWord (s.frame.read addr 8))
  | store src addr, s => s.write addr (Bytes.ofWord (s.temps src))
  | zero addr size, s => s.write addr (List.replicate size 0)
  | bytes addr data, s => s.write addr data
  | copy dest source size, s => s.write dest (s.frame.read source size)
  | update map key value, s =>
    let k := s.frame.read key (w.keySize map)
    let v := s.frame.read value (w.valueSize map)
    { s with outside := s.outside.put map k v }
  | lookup map key value size, s =>
    let (entry, o) := s.outside.find map (s.frame.read key (w.keySize map))
    match entry with
    | some v => { s.write value (Bytes.extend size v) with outside := o }
    | none => { s with outside := o }
  | call helper dst, s => keep dst (helper.run w s)
  | branch .., s | jump _, s | ret, s => s

/-- Instructions that end a block. -/
def isFinal : Instruction → Bool
  | branch .. | jump _ | ret => true
  | _ => false

def runAll (w : World) (code : List Instruction) (s : State) : State :=
  code.foldl (fun s i => i.run w s) s

@[simp] theorem runAll_nil (w : World) (s : State) : runAll w [] s = s := rfl

@[simp] theorem runAll_cons (w : World) (i : Instruction) (code : List Instruction) (s : State) :
    runAll w (i :: code) s = runAll w code (i.run w s) := rfl

@[simp] theorem runAll_append (w : World) (c d : List Instruction) (s : State) :
    runAll w (c ++ d) s = runAll w d (runAll w c s) :=
  List.foldl_append ..

end Instruction

/-- A place in a program and the state there. -/
structure Config where
  block : BlockId
  index : Nat
  state : State

namespace Program

def fetch (p : Program) (block : BlockId) (index : Nat) : Option Instruction := do
  (← p.blocks[block]?).code[index]?

/-- One step of a program. There is none from a return or from outside the program. -/
def step (w : World) (p : Program) (c : Config) : Option Config :=
  match p.fetch c.block c.index with
  | none | some .ret => none
  | some (.jump target) => some ⟨target, 0, c.state⟩
  | some (.branch cond yes no) => some ⟨if c.state.temps cond ≠ 0 then yes else no, 0, c.state⟩
  | some i => some ⟨c.block, c.index + 1, i.run w c.state⟩

/-- Some steps lead from one place to another. -/
def Reaches (w : World) (p : Program) : Config → Config → Prop :=
  Relation.ReflTransGen fun c d => p.step w c = some d

/-- Started in a state, the program runs to a return and ends in another state. -/
def Finishes (w : World) (p : Program) (s s' : State) : Prop :=
  ∃ block index, p.Reaches w ⟨0, 0, s⟩ ⟨block, index, s'⟩ ∧ p.fetch block index = some .ret

theorem step_straight {w : World} {p : Program} {b k : Nat} {i : Instruction} {s : State}
    (h : p.fetch b k = some i) (hi : i.isFinal = false) :
    p.step w ⟨b, k, s⟩ = some ⟨b, k + 1, i.run w s⟩ := by
  unfold step
  rw [h]
  cases i <;> first | rfl | cases hi

end Program

end Flow

end TraceScript
