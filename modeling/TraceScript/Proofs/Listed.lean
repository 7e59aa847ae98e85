import TraceScript.Proofs.Assembly
import TraceScript.Proofs.Words

namespace TraceScript

theorem Text.toString_string (s : String) : toString s = s := rfl

namespace Listing

theorem operands_pair (f g : Field) : operands [f, g] = " " ++ f.text ++ ", " ++ g.text := by
  apply String.toList_inj.1
  simp [operands]

theorem operands_triple (f g h : Field) :
    operands [f, g, h] = " " ++ f.text ++ ", " ++ g.text ++ ", " ++ h.text := by
  apply String.toList_inj.1
  simp [operands]

theorem text_register (r : Reg) :
    (Field.operand (.reg r)).text = "r" ++ toString r.number.toNat := by
  have hnumber : r.number.toNat = r.val := by
    revert r
    decide
  rw [hnumber]
  rfl

theorem text_memory (base : Reg) (off : Int16) :
    (Field.memory base off).text = Slot.renderMem base.number off := by
  have hbase : base.render = "r" ++ toString base.number.toNat := text_register base
  apply String.toList_inj.1
  simp [Field.text, Slot.renderMem, hbase, Text.toString_string]

end Listing

namespace Slot

open Listing

section

variable {code : UInt8} (name : String) (dst src : Reg) (off : Int16) (imm : Int32)

/-- The operand that a bit of the opcode chooses. -/
def rightOf (code : UInt8) (src : Reg) (imm : Int32) : Machine.Operand :=
  if code &&& Opcode.fromReg != 0 then .reg src else .imm imm

theorem rightOperand_ofRegs :
    (ofRegs code dst src off imm).rightOperand = (Field.operand (rightOf code src imm)).text := by
  unfold rightOperand rightOf
  change (if (code &&& Opcode.fromReg != 0) = true then _ else _) = _
  split
  · exact (text_register src).symm
  · rfl

theorem render_arith (h : code &&& 0x07 = Opcode.alu64 ∨ code &&& 0x07 = Opcode.alu)
    (hname : (arithNames.lookup (code &&& 0xf0)).getD "alu?" ++
      (if code &&& 0x07 = Opcode.alu then "32" else "") = name) :
    (ofRegs code dst src off imm).render =
      name ++ operands [.operand (.reg dst), .operand (rightOf code src imm)] := by
  have hrender : (ofRegs code dst src off imm).render = (ofRegs code dst src off imm).renderArith :=
    if_pos h
  have hclass : (ofRegs code dst src off imm).opClass = code &&& 0x07 := rfl
  have hop : (ofRegs code dst src off imm).operation = code &&& 0xf0 := rfl
  rw [hrender, renderArith, hop, hclass, rightOperand_ofRegs, operands_pair, text_register, ← hname]
  apply String.toList_inj.1
  simp [ofRegs, Text.toString_string]

theorem render_load (h : code &&& 0x07 = Opcode.ldx) : (ofRegs code dst src off imm).render =
    "ldx" ++ widthSuffix code ++ operands [.operand (.reg dst), .memory src off] := by
  have hclass : (ofRegs code dst src off imm).opClass = Opcode.ldx := h
  rw [render, hclass, operands_pair, text_register, text_memory]
  apply String.toList_inj.1
  simp [ofRegs, Opcode.ldx, Opcode.alu, Opcode.alu64, Text.toString_string]

theorem render_store (h : code &&& 0x07 = Opcode.stx) : (ofRegs code dst src off imm).render =
    "stx" ++ widthSuffix code ++ operands [.memory dst off, .operand (.reg src)] := by
  have hclass : (ofRegs code dst src off imm).opClass = Opcode.stx := h
  rw [render, hclass, operands_pair, text_register, text_memory]
  apply String.toList_inj.1
  simp [ofRegs, Opcode.stx, Opcode.ldx, Opcode.alu, Opcode.alu64, Text.toString_string]

theorem render_storeImm (h : code &&& 0x07 = Opcode.st) : (ofRegs code dst src off imm).render =
    "st" ++ widthSuffix code ++ operands [.memory dst off, .operand (.imm imm)] := by
  have hclass : (ofRegs code dst src off imm).opClass = Opcode.st := h
  rw [render, hclass, operands_pair, text_memory]
  apply String.toList_inj.1
  simp [ofRegs, Field.text, Opcode.st, Opcode.stx, Opcode.ldx, Opcode.alu, Opcode.alu64,
    Text.toString_string]

theorem render_jump (h : code &&& 0x07 = Opcode.jmp) :
    (ofRegs code dst src off imm).render = (ofRegs code dst src off imm).renderJump := by
  have hclass : (ofRegs code dst src off imm).opClass = Opcode.jmp := h
  have hwide : (ofRegs code dst src off imm).isWide = false := by
    refine beq_eq_false_iff_ne.2 fun hcode => ?_
    rw [show code = wideCode from hcode] at h
    exact absurd h (by decide)
  rw [render, hclass, hwide]
  rfl

theorem render_test (h : code &&& 0x07 = Opcode.jmp)
    (hname : jumpNames.lookup (code &&& 0xf0) = some name)
    (hother : code &&& 0xf0 ≠ Opcode.call ∧ code &&& 0xf0 ≠ Opcode.exit ∧
      code &&& 0xf0 ≠ Opcode.ja) :
    (ofRegs code dst src off imm).render = name ++
      operands [.operand (.reg dst), .operand (rightOf code src imm), .distance off] := by
  have hop : (ofRegs code dst src off imm).operation = code &&& 0xf0 := rfl
  rw [render_jump _ _ _ _ h, renderJump, hop, if_neg hother.1, if_neg hother.2.1, if_neg hother.2.2,
    hname, rightOperand_ofRegs, operands_triple, text_register]
  apply String.toList_inj.1
  simp [ofRegs, Field.text, Text.toString_string]

theorem render_goto (h : code &&& 0x07 = Opcode.jmp) (hop : code &&& 0xf0 = Opcode.ja) :
    (ofRegs code dst src off imm).render = "ja" ++ operands [.distance off] := by
  have hoperation : (ofRegs code dst src off imm).operation = Opcode.ja := hop
  rw [render_jump _ _ _ _ h, renderJump, hoperation]
  apply String.toList_inj.1
  simp [ofRegs, operands, Field.text, Opcode.ja, Opcode.call, Opcode.exit, Text.toString_string]

theorem render_call (h : code &&& 0x07 = Opcode.jmp) (hop : code &&& 0xf0 = Opcode.call) :
    (ofRegs code dst src off imm).render = "call" ++ operands [.operand (.imm imm)] := by
  have hoperation : (ofRegs code dst src off imm).operation = Opcode.call := hop
  rw [render_jump _ _ _ _ h, renderJump, hoperation]
  apply String.toList_inj.1
  simp [ofRegs, operands, Field.text, Text.toString_string]

theorem render_descriptor (fd : Int32) : (Slot.mk wideCode dst.number mapMark 0 fd).render =
    "lddw" ++ operands [.operand (.reg dst), .descriptor fd] := by
  have hclass : (Slot.mk wideCode dst.number mapMark 0 fd).opClass = Opcode.ld :=
    (by decide : wideCode &&& 0x07 = Opcode.ld)
  rw [render, hclass, operands_pair, text_register]
  apply String.toList_inj.1
  simp [Field.text, Opcode.ld, Opcode.st, Opcode.stx, Opcode.ldx, Opcode.alu, Opcode.alu64,
    Text.toString_string]

end

end Slot

namespace Listing

open Emit (arithCode compareCode widthCode)

namespace Entry

/-- An instruction of a single slot, which the slot shows by itself. -/
structure ShownBy (i : Entry) (s : Slot) : Prop where
  narrow : s.isWide = false
  render : s.render = i.text

section

variable (dst src : Reg) (off : Int16) (imm : Int32)

theorem shownBy_aluReg (op : ArithOp) :
    (arith op dst (.reg src)).ShownBy (.aluReg (arithCode op) dst src) where
  narrow := by cases op <;> rfl
  render := by
    rw [Slot.aluReg, Slot.render_arith (arithName op)]
    · cases op <;> rfl
    · cases op <;> decide
    · cases op <;> rfl

theorem shownBy_aluImm (op : ArithOp) :
    (arith op dst (.imm imm)).ShownBy (.aluImm (arithCode op) dst imm) where
  narrow := by cases op <;> rfl
  render := by
    rw [Slot.aluImm, Slot.render_arith (arithName op)]
    · cases op <;> rfl
    · cases op <;> decide
    · cases op <;> rfl

theorem shownBy_movReg : (move dst (.reg src)).ShownBy (.movReg dst src) where
  narrow := rfl
  render := Slot.render_arith "mov" dst src 0 0 (by decide) rfl

theorem shownBy_movImm : (move dst (.imm imm)).ShownBy (.movImm dst imm) where
  narrow := rfl
  render := Slot.render_arith "mov" dst 0 0 imm (by decide) rfl

theorem shownBy_mov32Reg : (moveLow dst src).ShownBy (.mov32Reg dst src) where
  narrow := rfl
  render := Slot.render_arith "mov32" dst src 0 0 (by decide) rfl

theorem shownBy_load (width : Width) :
    (load width dst src off).ShownBy (.load width.code dst src off) where
  narrow := by cases width <;> rfl
  render := by
    rw [Slot.load, Slot.render_load]
    · cases width <;> rfl
    · cases width <;> decide

theorem shownBy_store (width : Width) :
    (store width dst src off).ShownBy (.store width.code dst src off) where
  narrow := by cases width <;> rfl
  render := by
    rw [Slot.store, Slot.render_store]
    · cases width <;> rfl
    · cases width <;> decide

theorem shownBy_storeImm (width : Width) :
    (storeImm width dst off imm).ShownBy (.storeImm width.code dst off imm) where
  narrow := by cases width <;> rfl
  render := by
    rw [Slot.storeImm, Slot.render_storeImm]
    · cases width <;> rfl
    · cases width <;> decide

theorem shownBy_jumpReg (op : CompareOp) :
    (test op dst (.reg src) off).ShownBy (.jumpReg (compareCode op) dst src off) where
  narrow := by cases op <;> rfl
  render := by
    rw [Slot.jumpReg, Slot.render_test (testName op)]
    · cases op <;> rfl
    · cases op <;> decide
    · cases op <;> rfl
    · cases op <;> decide

theorem shownBy_jumpImm (op : CompareOp) :
    (test op dst (.imm imm) off).ShownBy (.jumpImm (compareCode op) dst imm off) where
  narrow := by cases op <;> rfl
  render := by
    rw [Slot.jumpImm, Slot.render_test (testName op)]
    · cases op <;> rfl
    · cases op <;> decide
    · cases op <;> rfl
    · cases op <;> decide

theorem shownBy_jump : (jump off).ShownBy (.jump off) where
  narrow := rfl
  render := Slot.render_goto 0 0 off 0 (by decide) (by decide)

theorem shownBy_call : (call imm).ShownBy (.call imm) where
  narrow := rfl
  render := Slot.render_call 0 0 0 imm (by decide) (by decide)

theorem shownBy_exit : exit.ShownBy .exit := ⟨rfl, by decide⟩

end

theorem lines_of_shown {i : Entry} {s : Slot} (h : i.ShownBy s) (index : Nat) (rest : List Slot) :
    lines index (s :: rest) = line index i.text :: lines (index + 1) rest := by
  cases rest with
  | nil => exact congrArg (fun text => [line index text]) h.render
  | cons upper rest =>
    rw [lines, h.narrow, h.render]
    rfl

theorem lines_of_wide {s : Slot} (hs : s.isWide = true) (upper : Slot) (index : Nat)
    (rest : List Slot) : lines index (s :: upper :: rest) = line index (if s.src = Slot.mapMark then s.render else
      Slot.renderWide s.dst (upper.imm.toUInt32.toNat * UInt32.size + s.imm.toUInt32.toNat)) ::
        lines (index + 2) rest := by
  rw [lines, if_pos hs]

theorem lines_wide (dst : Reg) (value : Int64) (index : Nat) (rest : List Slot) :
    lines index (Slot.loadImm dst value ++ rest) =
      line index (wide dst value).text :: lines (index + 2) rest := by
  have hvalue : (value >>> 32).toInt32.toUInt32.toNat * UInt32.size + value.toInt32.toUInt32.toNat =
      value.toUInt64.toNat := by
    rw [toNat_upperHalf, toNat_lowerHalf]
    exact Nat.div_add_mod' ..
  have htext : Slot.renderWide dst.number value.toUInt64.toNat = (wide dst value).text := by
    change _ = "lddw" ++ operands [.operand (.reg dst), .constant value]
    rw [operands_pair, text_register]
    apply String.toList_inj.1
    simp [Slot.renderWide, Field.text, Text.toString_string]
  have hmark : ¬(Slot.ofRegs Slot.wideCode dst 0 0 value.toInt32).src = Slot.mapMark :=
    (by decide : ¬(0 : Reg).number = Slot.mapMark)
  refine (lines_of_wide rfl ..).trans ?_
  rw [if_neg hmark, ← htext, ← hvalue]
  rfl

theorem lines_map (dst : Reg) (fd : Int32) (index : Nat) (rest : List Slot) :
    lines index (Slot.loadMap dst fd ++ rest) =
      line index (map dst fd).text :: lines (index + 2) rest := by
  refine (lines_of_wide rfl ..).trans ?_
  rw [if_pos rfl, Slot.render_descriptor]
  rfl

theorem lines_slots (i : Entry) (index : Nat) (rest : List Slot) :
    lines index (i.slots ++ rest) = line index i.text :: lines (index + i.slots.length) rest := by
  cases i with
  | arith op dst right =>
    cases right with
    | reg src => exact lines_of_shown (shownBy_aluReg ..) index rest
    | imm imm => exact lines_of_shown (shownBy_aluImm ..) index rest
  | move dst right =>
    cases right with
    | reg src => exact lines_of_shown (shownBy_movReg ..) index rest
    | imm imm => exact lines_of_shown (shownBy_movImm ..) index rest
  | moveLow dst src => exact lines_of_shown (shownBy_mov32Reg ..) index rest
  | load width dst src off => exact lines_of_shown (shownBy_load ..) index rest
  | store width dst src off => exact lines_of_shown (shownBy_store ..) index rest
  | storeImm width dst off imm => exact lines_of_shown (shownBy_storeImm ..) index rest
  | wide dst value => exact lines_wide dst value index rest
  | map dst fd => exact lines_map dst fd index rest
  | jump off => exact lines_of_shown (shownBy_jump ..) index rest
  | test op dst right off =>
    cases right with
    | reg src => exact lines_of_shown (shownBy_jumpReg ..) index rest
    | imm imm => exact lines_of_shown (shownBy_jumpImm ..) index rest
  | call function => exact lines_of_shown (shownBy_call ..) index rest
  | exit => exact lines_of_shown shownBy_exit index rest

end Entry

/-- A character that does not end a line. -/
def InLine (c : Char) : Prop := c ≠ '\n' ∧ c ≠ '\r'

instance (c : Char) : Decidable (InLine c) := inferInstanceAs (Decidable (_ ∧ _))

theorem inLine_operands (fs : List Field) : ∀ c ∈ (operands fs).toList, InLine c := by
  have hfield : ∀ f : Field, ∀ c ∈ f.text.toList, InLine c := fun f c hc => (f.isPlain_text c hc).2
  have hjoined : ∀ c ∈ [',', ' '].intercalate (fs.map fun f => f.text.toList), InLine c := by
    induction fs with
    | nil => exact List.forall_mem_nil _
    | cons f fs ih =>
      cases fs with
      | nil =>
        rw [List.map_singleton, List.intercalate_singleton]
        exact hfield f
      | cons g fs =>
        rw [List.map_cons, List.map_cons, List.intercalate_cons_cons]
        simp only [List.forall_mem_append]
        exact ⟨⟨hfield f, by simp [InLine]⟩, ih⟩
  cases fs with
  | nil => exact List.forall_mem_nil _
  | cons f fs =>
    change ∀ c ∈ (" " ++ ", ".intercalate ((f :: fs).map Field.text)).toList, InLine c
    rw [String.toList_append, String.toList_intercalate, List.map_map]
    exact List.forall_mem_append.2 ⟨by simp [InLine], hjoined⟩

theorem Entry.inLine_text (i : Entry) : ∀ c ∈ i.text.toList, InLine c := by
  rw [text, String.toList_append]
  exact List.forall_mem_append.2 ⟨fun c hc => (i.mnemonic.name_word c hc).2.2, inLine_operands _⟩

/-- What a line begins with. -/
def label (index : Nat) : String := Text.alignRight 4 (toString index) ++ ": "

theorem toList_spaces (n : Nat) : (Text.spaces n).toList = List.replicate n ' ' := by
  rw [Text.spaces, String.pushn_eq_repeat_push]
  induction n with
  | zero => rfl
  | succ n ih => rw [Nat.repeat, String.toList_push, ih, List.replicate_succ']

theorem inLine_label (index : Nat) : ∀ c ∈ (label index).toList, InLine c := by
  have hdigits : ∀ c ∈ (toString index).toList, InLine c := fun c hc =>
    (Text.isPlain_int index c hc).2
  simp only [label, Text.alignRight, String.toList_append, List.forall_mem_append, toList_spaces]
  exact ⟨⟨by simp [InLine], hdigits⟩, by simp [InLine]⟩

theorem toList_line (index : Nat) (text : String) :
    (line index text).toList = (label index).toList ++ (text.toList ++ ['\n']) := by
  change (Text.alignRight 4 (toString index) ++ ": " ++ text ++ "\n").toList = _
  simp [label]

/-- Each instruction with the slot at which it begins. -/
def placed (index : Nat) : List Entry → List (Nat × Entry)
  | [] => []
  | i :: is => (index, i) :: placed (index + i.slots.length) is

theorem lines_flatMap (index : Nat) (is : List Entry) :
    lines index (is.flatMap Entry.slots) = (placed index is).map fun p => line p.1 p.2.text := by
  induction is generalizing index with
  | nil => rfl
  | cons i is ih =>
    rw [List.flatMap_cons, Entry.lines_slots, ih]
    rfl

theorem toList_disassemble (is : List Entry) : (disassemble (is.flatMap Entry.slots)).toList =
    (placed 0 is).flatMap fun p => (label p.1).toList ++ (p.2.text.toList ++ ['\n']) := by
  rw [disassemble, String.toList_join, lines_flatMap, List.flatMap_map]
  exact List.flatMap_congr fun p _ => toList_line ..

theorem eq_of_placed {is js : List Entry} (index : Nat)
    (h : (placed index is).flatMap (fun p => (label p.1).toList ++ (p.2.text.toList ++ ['\n'])) =
      (placed index js).flatMap fun p => (label p.1).toList ++ (p.2.text.toList ++ ['\n'])) :
    is = js := by
  induction is generalizing js index with
  | nil =>
    cases js with
    | nil => rfl
    | cons j js => simp [placed] at h
  | cons i is ih =>
    cases js with
    | nil => simp [placed] at h
    | cons j js =>
      simp only [placed, List.flatMap_cons, List.append_assoc, List.append_cancel_left_eq] at h
      have hline : ∀ i : Entry, ∀ c ∈ i.text.toList, c ≠ '\n' := fun i c hc =>
        (i.inLine_text c hc).1
      obtain ⟨htext, hrest⟩ := Text.append_inj_of_class (· ≠ '\n') (hline i) (hline j) (by simp)
        (by simp) h
      obtain rfl := Entry.text_inj (String.toList_inj.1 htext)
      rw [ih _ (List.append_cancel_left hrest)]

theorem disassemble_inj {is js : List Entry}
    (h : disassemble (is.flatMap Entry.slots) = disassemble (js.flatMap Entry.slots)) :
    is = js := by
  have hlist := congrArg String.toList h
  rw [toList_disassemble, toList_disassemble] at hlist
  exact eq_of_placed 0 hlist

theorem splitLines_line {l : List Char} (h : ∀ c ∈ l, InLine c) (rest : List Char) :
    Text.splitLines (l ++ '\n' :: rest) = l :: Text.splitLines rest := by
  induction l with
  | nil => rfl
  | cons c l ih =>
    obtain ⟨⟨hnewline, hreturn⟩, hl⟩ := List.forall_mem_cons.1 h
    rw [List.cons_append, Text.splitLines.eq_4 c _ hnewline fun _ hc => absurd hc hreturn, ih hl]

/-- A listing has a line for each instruction, with the number of its slot. -/
theorem lines_disassemble (is : List Entry) : Text.lines (disassemble (is.flatMap Entry.slots)) =
    (placed 0 is).map fun p => label p.1 ++ p.2.text := by
  have hsplit : ∀ ps : List (Nat × Entry),
      Text.splitLines (ps.flatMap fun p => (label p.1).toList ++ (p.2.text.toList ++ ['\n'])) =
        ps.map fun p => (label p.1 ++ p.2.text).toList := by
    intro ps
    induction ps with
    | nil => rfl
    | cons p ps ih =>
      have hline : ∀ c ∈ (label p.1 ++ p.2.text).toList, InLine c := by
        rw [String.toList_append]
        exact List.forall_mem_append.2 ⟨inLine_label _, p.2.inLine_text⟩
      rw [List.flatMap_cons, List.map_cons, ← ih, ← splitLines_line hline]
      simp
  rw [Text.lines, toList_disassemble, hsplit, List.map_map]
  exact List.map_congr_left fun p _ => String.ofList_toList

end Listing

end TraceScript
