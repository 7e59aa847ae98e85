import TraceScript.Bytecode.Emit

namespace TraceScript

open TraceScript.Flow

/-- The maps and channels that an instruction uses. -/
def Flow.Instruction.maps : Instruction → List MapId
  | .update map _ _ | .lookup map _ _ _ | .call (.out _ _ map) _ => [map]
  | _ => []

/-- The right operand of an instruction. A constant is extended by its sign. -/
inductive Machine.Operand where
  | reg (r : Reg)
  | imm (value : Int32)

namespace Listing

open Emit (arithCode compareCode)

/-- How many bytes of memory are read or written. -/
inductive Width where
  | double
  | word
  | half
  | byte

namespace Width

def code : Width → UInt8
  | double => Opcode.double
  | word => Opcode.word
  | half => Opcode.half
  | byte => Opcode.byte

def ofNat : Nat → Width
  | 8 => double
  | 4 => word
  | 2 => half
  | _ => byte

theorem code_ofNat (n : Nat) : (ofNat n).code = Emit.widthCode n := by
  unfold ofNat
  split <;> simp_all [code, Emit.widthCode]

end Width

/-- A whole instruction with its operands, which is an entry of a listing. -/
inductive Entry where
  | arith (op : ArithOp) (dst : Reg) (right : Machine.Operand)
  | move (dst : Reg) (right : Machine.Operand)
  | moveLow (dst src : Reg)
  | load (width : Width) (dst src : Reg) (off : Int16)
  | store (width : Width) (dst src : Reg) (off : Int16)
  | storeImm (width : Width) (dst : Reg) (off : Int16) (imm : Int32)
  | wide (dst : Reg) (value : Int64)
  | map (dst : Reg) (fd : Int32)
  | jump (off : Int16)
  | test (op : CompareOp) (dst : Reg) (right : Machine.Operand) (off : Int16)
  | call (function : Int32)
  | exit

namespace Entry

/-- The slots that an instruction takes. -/
def slots : Entry → List Slot
  | arith op dst (.reg src) => [.aluReg (arithCode op) dst src]
  | arith op dst (.imm imm) => [.aluImm (arithCode op) dst imm]
  | move dst (.reg src) => [.movReg dst src]
  | move dst (.imm imm) => [.movImm dst imm]
  | moveLow dst src => [.mov32Reg dst src]
  | load width dst src off => [.load width.code dst src off]
  | store width dst src off => [.store width.code dst src off]
  | storeImm width dst off imm => [.storeImm width.code dst off imm]
  | wide dst value => Slot.loadImm dst value
  | map dst fd => Slot.loadMap dst fd
  | jump off => [.jump off]
  | test op dst (.reg src) off => [.jumpReg (compareCode op) dst src off]
  | test op dst (.imm imm) off => [.jumpImm (compareCode op) dst imm off]
  | call function => [.call function]
  | exit => [.exit]

/-- The instruction is left to the next one and takes a single slot, and its result is put into one of
some registers. -/
def Straight (W : UInt8 → Prop) : Entry → Prop
  | arith _ dst _ | move dst _ | moveLow dst _ | load _ dst .. => W dst.number
  | store .. | storeImm .. | call _ => True
  | wide .. | map .. | jump _ | test .. | exit => False

end Entry

end Listing

open Listing (Entry Width)

namespace Slot

/-- The two slots that load a descriptor. -/
def loadId (r : Reg) (id : MapId) : List Slot := loadMap r (Int32.ofInt id.fd)

def isExit (s : Slot) : Bool := s.opClass == Opcode.jmp && s.operation == Opcode.exit

/-- A jump that depends on a comparison. -/
def isTest (s : Slot) : Bool := s.isJump && s.operation != Opcode.ja

/-- The slot puts a result into the register that it names first. -/
def hasResult (s : Slot) : Bool :=
  s.isWide || s.opClass == Opcode.ldx || s.opClass == Opcode.alu || s.opClass == Opcode.alu64

/-- The slot is left to the next one, as its opcode tells. -/
def isPlain (s : Slot) : Bool := !s.isJump && !s.isExit && !s.isWide

/-- A slot that is left to the next one, with its result in one of some registers. -/
def Straight (W : UInt8 → Prop) (s : Slot) : Prop := ∃ i : Entry, i.slots = [s] ∧ i.Straight W

/-- A slot that is a whole test. -/
def Tests (s : Slot) : Prop := ∃ op dst right off, (Entry.test op dst right off).slots = [s]

variable {W : UInt8 → Prop} {s : Slot}

theorem told_ofRegs {code : UInt8} {d : Reg} (r : Reg) (off : Int16) (imm : Int32)
    (hplain : (Slot.mk code 0 0 0 0).isPlain) (hd : (Slot.mk code 0 0 0 0).hasResult → W d.number) :
    (ofRegs code d r off imm).isPlain ∧
      ((ofRegs code d r off imm).hasResult → W (ofRegs code d r off imm).dst) := ⟨hplain, hd⟩

theorem Straight.told (h : s.Straight W) : s.isPlain ∧ (s.hasResult → W s.dst) := by
  obtain ⟨i, hs, hi⟩ := h
  cases i with
  | arith op dst right =>
    cases right <;> obtain rfl := List.singleton_inj.1 hs <;>
      exact told_ofRegs _ _ _ (by cases op <;> decide) fun _ => hi
  | move dst right =>
    cases right <;> obtain rfl := List.singleton_inj.1 hs <;>
      exact told_ofRegs _ _ _ (by decide) fun _ => hi
  | moveLow dst src =>
    obtain rfl := List.singleton_inj.1 hs
    exact told_ofRegs _ _ _ (by decide) fun _ => hi
  | load width dst src off =>
    obtain rfl := List.singleton_inj.1 hs
    exact told_ofRegs _ _ _ (by cases width <;> decide) fun _ => hi
  | store width dst src off | storeImm width dst off imm =>
    obtain rfl := List.singleton_inj.1 hs
    cases width <;> exact told_ofRegs _ _ _ (by decide) fun h => absurd h (by decide)
  | call function =>
    obtain rfl := List.singleton_inj.1 hs
    exact told_ofRegs _ _ _ (by decide) fun h => absurd h (by decide)
  | wide | map | jump | test | exit => exact hi.elim

theorem Straight.plain (h : s.Straight W) : s.isPlain := h.told.1

theorem Straight.result (h : s.Straight W) : s.hasResult → W s.dst := h.told.2

theorem Tests.isTest (h : s.Tests) : s.isTest := by
  obtain ⟨op, dst, right, off, hs⟩ := h
  cases right with
  | reg src =>
    obtain rfl := List.singleton_inj.1 hs
    change (Slot.mk (Opcode.jmp ||| Emit.compareCode op ||| Opcode.fromReg) 0 0 0 0).isTest
    cases op <;> decide
  | imm value =>
    obtain rfl := List.singleton_inj.1 hs
    change (Slot.mk (Opcode.jmp ||| Emit.compareCode op) 0 0 0 0).isTest
    cases op <;> decide

theorem straight_movImm {d : Reg} (imm : Int32) (hd : W d.number) : (movImm d imm).Straight W :=
  ⟨.move d (.imm imm), rfl, hd⟩

theorem tests_jumpImm (op : CompareOp) (d : Reg) (imm : Int32) (off : Int16) :
    (jumpImm (Emit.compareCode op) d imm off).Tests := ⟨op, d, .imm imm, off, rfl⟩

end Slot

namespace Emit

/-- A row of slots with one way in and one way out. -/
inductive Piece (ids : List MapId) (W : UInt8 → Prop) : List Slot → Prop
  | straight {s : Slot} : s.Straight W → Piece ids W [s]
  | wide {d : Reg} (value : Int64) : W d.number → Piece ids W (Slot.loadImm d value)
  | map {d : Reg} {id : MapId} : id ∈ ids → W d.number → Piece ids W (Slot.loadId d id)
  | skip {s : Slot} {ss : List Slot} : s.Tests → s.off.toInt = ss.length →
      (∀ x ∈ ss, x.Straight W) → Piece ids W (s :: ss)
  | choose {s : Slot} {d : Reg} : s.Tests → s.off.toInt = 2 → W d.number →
      Piece ids W [s, .movImm d 0, .jump 1, .movImm d 1]

/-- A slot that does not depend on the places of blocks. -/
def draft (s : Slot) : Draft := { slot := s }

/-- What an action may write and how it may fail: groups of slots, jumps to blocks whose distance is
still open, and errors. -/
structure Scope where
  group : List Slot → Prop
  jump : Slot → BlockId → Prop
  error : CodeError → Prop

/-- A row of groups and jumps. -/
inductive Row (k : Scope) : List Draft → Prop
  | nil : Row k []
  | group {ss : List Slot} {ds : List Draft} : k.group ss → Row k ds → Row k (ss.map draft ++ ds)
  | jump {s : Slot} {target : BlockId} {ds : List Draft} : k.jump s target → Row k ds →
      Row k ({ slot := s, target := some target } :: ds)

theorem Row.append {k : Scope} {ds es : List Draft} (h : Row k ds) (h' : Row k es) :
    Row k (ds ++ es) := by
  induction h with
  | nil => exact h'
  | group hg _ ih =>
    rw [List.append_assoc]
    exact .group hg ih
  | jump hj _ ih => exact .jump hj ih

end Emit

end TraceScript
