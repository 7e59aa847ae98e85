import TraceScript.Proofs.Pieces
import TraceScript.Proofs.Run

namespace TraceScript

open TraceScript.Flow

namespace Flow

/-- The register of a home; a place in the frame goes through a scratch register. -/
def Home.register (scratch : Reg) : Home → Reg
  | .reg r => r
  | .spill _ => scratch

/-- The register through which a temporary is used. -/
def Allocation.register (a : Allocation) (t : Temp) (scratch : Reg) : Reg :=
  ((a.home t).map (Home.register scratch)).getD scratch

/-- The register through which a temporary is used is its home or a scratch register. -/
theorem Allocation.register_cases (a : Allocation) (t : Temp) (scratch : Reg) :
    a.register t scratch = scratch ∨ a.home t = some (.reg (a.register t scratch)) := by
  unfold register
  cases h : a.home t with
  | none => exact .inl rfl
  | some home =>
    cases home with
    | reg r => exact .inr rfl
    | spill addr => exact .inl rfl

theorem Allocation.register_of_home {a : Allocation} {t : Temp} {home : Home}
    (h : a.home t = some home) (scratch : Reg) : a.register t scratch = home.register scratch := by
  rw [register, h, Option.map_some, Option.getD_some]

end Flow

namespace Emit

open Listing (Entry Width)

/-- An action that is made of single steps, under any limit, and whose result has a property. -/
inductive Written (k : Scope) : {α : Type} → (α → Prop) → (Ceiling → Emit α) → Prop
  | pure {α : Type} {Q : α → Prop} {a : α} : Q a → Written k Q fun _ => pure a
  | throw {α : Type} {Q : α → Prop} {e : CodeError} : k.error e → Written k Q fun _ => throw e
  | group {ss : List Slot} : k.group ss → Written k (fun _ => True) fun _ => pushAll ss
  | jump {s : Slot} {target : BlockId} : k.jump s target →
      Written k (fun _ => True) fun _ => pushJump s target
  | bind {α β : Type} {Q : α → Prop} {R : β → Prop} {m : Ceiling → Emit α}
      {f : α → Ceiling → Emit β} : Written k Q m → (∀ a, Q a → Written k R (f a)) →
      Written k R fun c => m c >>= fun a => f a c

theorem pushAll_singleton [Ceiling] (s : Slot) : pushAll [s] = push s := bind_pure_unit

namespace Written

variable {k : Scope} {α β : Type} {Q : α → Prop} {R : β → Prop}

theorem ite {p : Prop} [Decidable p] {m n : Ceiling → Emit α} (hm : p → Written k Q m)
    (hn : ¬p → Written k Q n) : Written k Q fun c => if p then m c else n c := by
  split
  · exact hm ‹_›
  · exact hn ‹_›

/-- The same as a chain, where the result of the first action is of no interest. -/
theorem seq {m : Ceiling → Emit α} {f : α → Ceiling → Emit β} (hm : Written k (fun _ => True) m)
    (hf : ∀ a, Written k R (f a)) : Written k R fun c => m c >>= fun a => f a c :=
  hm.bind fun a _ => hf a

end Written

/-- The registers that code may use for results: those that calls do not keep and the homes of
temporaries. -/
structure Usable (a : Allocation) (W : UInt8 → Prop) : Prop where
  low : ∀ r : Reg, r.val ≤ 5 → W r.number
  home : ∀ t r, a.home t = some (.reg r) → W r.number

theorem usable_all (a : Allocation) : Usable a fun _ => True := ⟨fun _ _ => trivial, fun _ _ _ => trivial⟩

/-- A scope with room for the pieces of code and for offsets that do not reach. -/
structure Scope.Admits (k : Scope) (a : Allocation) (ids : List MapId) (W : UInt8 → Prop) : Prop
    extends Usable a W where
  piece : ∀ ss, Piece ids W ss → k.group ss
  offset : ∀ addr, k.error (.stackOffset addr)

/-- A temporary without a home is one of the errors, if that can occur. -/
def Scope.Homed (k : Scope) (a : Allocation) (t : Temp) : Prop :=
  a.home t = none → k.error (.internal .noHome)

section

variable {k : Scope} {a : Allocation} {ids : List MapId} {W : UInt8 → Prop}
  (hk : k.Admits a ids W) {t dst lhs : Temp} (ht : k.Homed a t) (hdst : k.Homed a dst)

theorem written_homeOf (ht : k.Homed a t) :
    Written k (fun h => a.home t = some h) fun _ => homeOf a t := by
  unfold homeOf
  split
  · rename_i h hh
    exact .pure hh
  · rename_i hnone
    exact .throw (ht hnone)

include hk

theorem written_push {s : Slot} (i : Entry) (hs : i.slots = [s]) (hi : i.Straight W) :
    Written k (fun _ => True) fun _ => push s := by
  have hgroup := Written.group (hk.piece [s] (.straight ⟨i, hs, hi⟩))
  simpa only [pushAll_singleton] using hgroup

theorem written_offset (addr : Int) : Written k (fun _ => True) fun _ => offset addr :=
  .ite (fun _ => .pure trivial) fun _ => .throw (hk.offset addr)

theorem written_load (n : Nat) {d : Reg} (s : Reg) (off : Int16) (hd : W d.number) :
    Written k (fun _ => True) fun _ => push (.load (widthCode n) d s off) := by
  rw [← Width.code_ofNat]
  exact written_push hk (.load (.ofNat n) d s off) rfl hd

theorem written_store (n : Nat) (d s : Reg) (off : Int16) :
    Written k (fun _ => True) fun _ => push (.store (widthCode n) d s off) := by
  rw [← Width.code_ofNat]
  exact written_push hk (.store (.ofNat n) d s off) rfl trivial

theorem written_storeImm (n : Nat) (d : Reg) (off : Int16) (imm : Int32) :
    Written k (fun _ => True) fun _ => push (.storeImm (widthCode n) d off imm) := by
  rw [← Width.code_ofNat]
  exact written_push hk (.storeImm (.ofNat n) d off imm) rfl trivial

theorem written_movImm {d : Reg} (imm : Int32) (hd : W d.number) :
    Written k (fun _ => True) fun _ => push (.movImm d imm) :=
  written_push hk (.move d (.imm imm)) rfl hd

theorem written_movReg {d : Reg} (s : Reg) (hd : W d.number) :
    Written k (fun _ => True) fun _ => push (.movReg d s) :=
  written_push hk (.move d (.reg s)) rfl hd

theorem written_call (function : Int32) : Written k (fun _ => True) fun _ => push (.call function) :=
  written_push hk (.call function) rfl trivial

include ht in
theorem written_read {scratch : Reg} (hs : scratch.val ≤ 5) :
    Written k (fun r => r = a.register t scratch ∧ W r.number) fun _ => read a t scratch := by
  refine .bind (written_homeOf ht) fun home hhome => ?_
  rw [a.register_of_home hhome]
  cases home with
  | reg r => exact .pure ⟨rfl, hk.home t r hhome⟩
  | spill addr =>
    exact .seq (written_offset hk addr) fun _ => .seq (written_load hk 8 _ _ (hk.low _ hs)) fun _ =>
      .pure ⟨rfl, hk.low _ hs⟩

include ht in
theorem written_target :
    Written k (fun r => r = a.register t scratch₁ ∧ W r.number) fun _ => target a t := by
  refine .bind (written_homeOf ht) fun home hhome => ?_
  rw [a.register_of_home hhome]
  cases home with
  | reg r => exact .pure ⟨rfl, hk.home t r hhome⟩
  | spill addr => exact .pure ⟨rfl, hk.low _ (by decide)⟩

include ht in
theorem written_writeBack (r : Reg) : Written k (fun _ => True) fun _ => writeBack a t r := by
  refine .bind (written_homeOf ht) fun home _ => ?_
  cases home with
  | reg r => exact .pure trivial
  | spill addr => exact .seq (written_offset hk addr) fun _ => written_store hk 8 ..

theorem written_copyReg {d : Reg} (s : Reg) (hd : W d.number) :
    Written k (fun _ => True) fun _ => copyReg d s :=
  .ite (fun _ => .pure trivial) fun _ => written_movReg hk s hd

theorem written_pointer {r : Reg} (hr : r.val ≤ 5) (addr : Int) :
    Written k (fun _ => True) fun _ => pointer r addr :=
  .seq (written_movReg hk _ (hk.low r hr)) fun _ =>
    written_push hk (.arith .add r (.imm _)) rfl (hk.low r hr)

theorem written_loadMap {r : Reg} (hr : r.val ≤ 5) {map : MapId} (hmap : map ∈ ids) :
    Written k (fun _ => True) fun _ => loadMap r map :=
  .group (hk.piece _ (.map hmap (hk.low r hr)))

omit hk in
theorem written_forChunks {addr : Int} {size : Nat} {action : Ceiling → Nat → Nat → Emit Unit}
    (h : ∀ done width, Written k (fun _ => True) fun c => action c done width) :
    Written k (fun _ => True) fun c => forChunks addr size (action c) := by
  have hfrom : ∀ n done, size - done = n →
      Written k (fun _ => True) fun c => forChunksFrom addr size (action c) done := by
    intro n
    -- Every chunk leaves less of the region.
    induction n using Nat.strongRecOn with
    | ind n ih =>
      intro done hn
      unfold forChunksFrom
      have hpos := chunkWidth_pos (addr + done) (size - done)
      exact .ite (fun _ => .seq (h done _) fun _ => ih _ (by omega) _ rfl) fun _ => .pure trivial
  exact hfrom _ 0 rfl

theorem written_zero (addr : Int) (size : Nat) : Written k (fun _ => True) fun _ => zero addr size :=
  written_forChunks fun _ _ => .seq (written_offset hk _) fun _ => written_storeImm hk ..

theorem written_storeChunk (addr : Int) (width value : Nat) :
    Written k (fun _ => True) fun _ => storeChunk addr width value :=
  .seq (written_offset hk addr) fun _ => .ite
    (fun _ => .ite (fun _ => written_storeImm hk 8 ..) fun _ => .seq (written_offset hk _) fun _ =>
      .seq (written_storeImm hk 4 ..) fun _ => written_storeImm hk 4 ..)
    fun _ => written_storeImm hk ..

theorem written_copyBytes (dest source : Int) (size : Nat) :
    Written k (fun _ => True) fun _ => copyBytes dest source size :=
  written_forChunks fun _ width => .seq (written_offset hk _) fun _ =>
    .seq (written_load hk width _ _ (hk.low 0 (by decide))) fun _ =>
    .seq (written_offset hk _) fun _ => written_store hk ..

theorem written_mapUpdate {map : MapId} (hmap : map ∈ ids) (key value : Int) :
    Written k (fun _ => True) fun _ => mapUpdate map key value :=
  .seq (written_loadMap hk (by decide) hmap) fun _ => .seq (written_pointer hk (by decide) _) fun _ =>
    .seq (written_pointer hk (by decide) _) fun _ =>
    .seq (written_movImm hk _ (hk.low 4 (by decide))) fun _ => written_call hk _

theorem written_copyFound (value : Int) (size : Nat) :
    Written k (fun _ => True) fun _ => (do
      push (.jumpImm Opcode.jeq 0 0 5)
      pointer 1 value
      push (.movImm 2 (Int32.ofNat size))
      push (.movReg 3 0)
      push (.call KernelFunction.probeRead)) := by
  have hpiece : Piece ids W [.jumpImm Opcode.jeq 0 0 5, .movReg 1 Reg.frame,
      .aluImm Opcode.add 1 (Int32.ofInt value), .movImm 2 (Int32.ofNat size), .movReg 3 0,
      .call KernelFunction.probeRead] := by
    refine .skip (Slot.tests_jumpImm .eq ..) rfl ?_
    simp only [List.forall_mem_cons]
    exact ⟨⟨.move 1 (.reg _), rfl, hk.low 1 (by decide)⟩,
      ⟨.arith .add 1 (.imm _), rfl, hk.low 1 (by decide)⟩,
      ⟨.move 2 (.imm _), rfl, hk.low 2 (by decide)⟩, ⟨.move 3 (.reg _), rfl, hk.low 3 (by decide)⟩,
      ⟨.call _, rfl, trivial⟩, nofun⟩
  simpa only [pushAll, pointer, bind_assoc, bind_pure_unit] using Written.group (hk.piece _ hpiece)

theorem written_mapLookup {map : MapId} (hmap : map ∈ ids) (key value : Int) (size : Nat) :
    Written k (fun _ => True) fun _ => mapLookup map key value size :=
  .seq (written_loadMap hk (by decide) hmap) fun _ => .seq (written_pointer hk (by decide) _) fun _ =>
    .seq (written_call hk _) fun _ => written_copyFound hk value size

theorem written_keepResult {dst : Option Temp} (hdst : ∀ t ∈ dst, k.Homed a t) :
    Written k (fun _ => True) fun _ => keepResult a dst := by
  cases dst with
  | none => exact .pure trivial
  | some t =>
    exact .bind (written_target hk (hdst t rfl)) fun _ hd => .seq (written_movReg hk _ hd.2) fun _ =>
      written_writeBack hk (hdst t rfl) _

theorem written_compareRegions {d : Reg} (hd : W d.number) (lhs rhs : Int) (size : Nat) :
    Written k (fun _ => True) fun _ => compareRegions d lhs rhs size := by
  refine .seq (written_movImm hk _ hd) fun _ => written_forChunks fun _ width =>
    .seq (written_offset hk _) fun _ =>
    .seq (written_load hk width _ _ (hk.low 0 (by decide))) fun _ =>
    .seq (written_offset hk _) fun _ =>
    .seq (written_load hk width _ _ (hk.low 1 (by decide))) fun _ => ?_
  have hpiece : Piece ids W [.jumpReg Opcode.jeq 0 1 1, .movImm d 1] :=
    .skip ⟨.eq, 0, .reg 1, 1, rfl⟩ rfl (List.forall_mem_singleton.2 (Slot.straight_movImm _ hd))
  simpa only [pushAll, bind_pure_unit] using Written.group (hk.piece _ hpiece)

theorem written_sendEvent (addr : Int) (size : Nat) {channel : MapId} (hchannel : channel ∈ ids) :
    Written k (fun _ => True) fun _ => sendEvent addr size channel :=
  .seq (written_call hk _) fun _ => .seq (written_movReg hk _ (hk.low 3 (by decide))) fun _ =>
    .seq (written_movReg hk _ (hk.low 1 (by decide))) fun _ =>
    .seq (written_loadMap hk (by decide) hchannel) fun _ =>
    .seq (written_pointer hk (by decide) _) fun _ =>
    .seq (written_movImm hk _ (hk.low 5 (by decide))) fun _ => written_call hk _

theorem written_helper {dst : Option Temp} (hdst : ∀ t ∈ dst, k.Homed a t) {h : Helper}
    (hids : ∀ x ∈ (Instruction.call h dst).maps, x ∈ ids) :
    Written k (fun _ => True) fun _ => helper a dst h := by
  cases h with
  | pid =>
    exact .seq (written_call hk _) fun _ =>
      .seq (written_push hk (.arith .rsh 0 (.imm 32)) rfl (hk.low 0 (by decide))) fun _ =>
      written_keepResult hk hdst
  | tid =>
    exact .seq (written_call hk _) fun _ =>
      .seq (written_push hk (.moveLow 0 0) rfl (hk.low 0 (by decide))) fun _ =>
      written_keepResult hk hdst
  | cpu | ns => exact .seq (written_call hk _) fun _ => written_keepResult hk hdst
  | arg n =>
    cases dst with
    | none => exact .pure trivial
    | some t =>
      exact .bind (written_target hk (hdst t rfl)) fun _ hd => .seq (written_load hk 8 _ _ hd.2) fun _ =>
        written_writeBack hk (hdst t rfl) _
  | comm addr size =>
    exact .seq (written_zero hk ..) fun _ => .seq (written_pointer hk (by decide) _) fun _ =>
      .seq (written_movImm hk _ (hk.low 2 (by decide))) fun _ => written_call hk _
  | strcmp lhs rhs size =>
    cases dst with
    | none => exact .pure trivial
    | some t =>
      exact .bind (written_target hk (hdst t rfl)) fun _ hd =>
        .seq (written_compareRegions hk hd.2 ..) fun _ => written_writeBack hk (hdst t rfl) _
  | out addr size channel => exact written_sendEvent hk _ _ (hids channel List.mem_cons_self)

include hdst in
theorem written_arith (op : ArithOp) {rhs : Operand} (hlhs : k.Homed a lhs)
    (hrhs : ∀ u ∈ rhs.temps, k.Homed a u)
    (hplace : lhs ≠ dst → k.error (.internal .operandCollision)) :
    Written k (fun _ => True) fun _ => arith a op dst lhs rhs := by
  refine .bind (written_read hk hlhs (by decide)) fun l hl => .bind (written_target hk hdst) fun d hd => ?_
  cases rhs with
  | imm value =>
    exact .seq (written_copyReg hk _ hd.2) fun _ =>
      .seq (written_push hk (.arith op d (.imm value)) rfl hd.2) fun _ => written_writeBack hk hdst _
  | temp t =>
    have hrest : ∀ r : Reg, Written k (fun _ => True) fun _ => (do
        copyReg d l
        push (.aluReg (arithCode op) d r)
        writeBack a dst d) := fun r =>
      .seq (written_copyReg hk _ hd.2) fun _ =>
        .seq (written_push hk (.arith op d (.reg r)) rfl hd.2) fun _ => written_writeBack hk hdst _
    refine .bind (written_read hk (hrhs t List.mem_cons_self) (by decide)) fun r _ =>
      .ite (fun hcollide => .seq (.throw (hplace ?_)) fun _ => hrest r) fun _ => hrest r
    rintro rfl
    exact hcollide.2 (hl.1.trans hd.1.symm)

include hdst in
theorem written_compare (op : CompareOp) {rhs : Operand} (hlhs : k.Homed a lhs)
    (hrhs : ∀ u ∈ rhs.temps, k.Homed a u) :
    Written k (fun _ => True) fun _ => compare a op dst lhs rhs := by
  have hrest : ∀ test : Slot, test.Tests ∧ test.off.toInt = 2 → Written k (fun _ => True) fun _ => (do
      let d ← target a dst
      push test
      push (.movImm d 0)
      push (.jump 1)
      push (.movImm d 1)
      writeBack a dst d) := by
    rintro test ⟨htest, hoff⟩
    refine .bind (written_target hk hdst) fun d hd => ?_
    have hgroup := Written.seq (.group (hk.piece _ (.choose htest hoff hd.2))) fun _ =>
      written_writeBack hk hdst d
    simpa only [pushAll, bind_assoc, pure_bind] using hgroup
  refine .bind (written_read hk hlhs (by decide)) fun l _ => ?_
  cases rhs with
  | imm value => exact .bind (.pure ⟨Slot.tests_jumpImm op .., rfl⟩) hrest
  | temp t =>
    exact .bind (written_read hk (hrhs t List.mem_cons_self) (by decide)) fun r _ =>
      .bind (.pure ⟨⟨op, l, .reg r, 2, rfl⟩, rfl⟩) hrest

end

/-- A scope with room for all that is special about an instruction: temporaries without homes, an
operation that cannot be done in place, and how it leaves its block. -/
structure Scope.Takes (k : Scope) (a : Allocation) (i : Instruction) : Prop where
  homes : ∀ t, i.def? = some t ∨ t ∈ i.uses → k.Homed a t
  inPlace : ∀ op dst lhs rhs, i = .arith op dst lhs rhs → lhs ≠ dst →
    k.error (.internal .operandCollision)
  goto : ∀ b ∈ i.targets, k.jump (.jump 0) b ∧ ∀ c, k.jump (.jumpImm Opcode.jne c 0 0) b
  exit : i = .ret → k.group [.exit]

theorem written_instruction {k : Scope} {a : Allocation} {ids : List MapId} {W : UInt8 → Prop}
    (hk : k.Admits a ids W) {i : Instruction} (hi : k.Takes a i) (hids : ∀ x ∈ i.maps, x ∈ ids) :
    Written k (fun _ => True) fun _ => instruction a i := by
  have hdef : ∀ u, i.def? = some u → k.Homed a u := fun u hu => hi.homes u (.inl hu)
  have huse : ∀ u ∈ i.uses, k.Homed a u := fun u hu => hi.homes u (.inr hu)
  cases i with
  | imm dst value =>
    exact .bind (written_target hk (hdef dst rfl)) fun _ hd => .ite
      (fun _ => .seq (written_movImm hk _ hd.2) fun _ => written_writeBack hk (hdef dst rfl) _)
      fun _ => .seq (.group (hk.piece _ (.wide _ hd.2))) fun _ => written_writeBack hk (hdef dst rfl) _
  | arith op dst lhs rhs =>
    exact written_arith hk (hdef dst rfl) op (huse lhs List.mem_cons_self)
      (fun u hu => huse u (List.mem_cons_of_mem _ hu)) (hi.inPlace op dst lhs rhs rfl)
  | compare op dst lhs rhs =>
    exact written_compare hk (hdef dst rfl) op (huse lhs List.mem_cons_self)
      fun u hu => huse u (List.mem_cons_of_mem _ hu)
  | move dst src =>
    exact .bind (written_read hk (huse src List.mem_cons_self) (by decide)) fun _ _ =>
      .bind (written_target hk (hdef dst rfl)) fun _ hd => .seq (written_copyReg hk _ hd.2) fun _ =>
      written_writeBack hk (hdef dst rfl) _
  | load dst addr =>
    exact .bind (written_target hk (hdef dst rfl)) fun _ hd => .seq (written_offset hk _) fun _ =>
      .seq (written_load hk 8 _ _ hd.2) fun _ => written_writeBack hk (hdef dst rfl) _
  | store src addr =>
    exact .bind (written_read hk (huse src List.mem_cons_self) (by decide)) fun _ _ =>
      .seq (written_offset hk _) fun _ => written_store hk 8 ..
  | zero addr size => exact written_zero hk ..
  | bytes addr data => exact written_forChunks fun _ _ => written_storeChunk hk ..
  | copy dest source size => exact written_copyBytes hk ..
  | update map key value => exact written_mapUpdate hk (hids map List.mem_cons_self) ..
  | lookup map key value size => exact written_mapLookup hk (hids map List.mem_cons_self) ..
  | call h dst => exact written_helper hk (fun u hu => hdef u hu) hids
  | branch cond yes no =>
    exact .bind (written_read hk (huse cond List.mem_cons_self) (by decide)) fun c _ =>
      .seq (.jump ((hi.goto yes (by simp [Instruction.targets])).2 c)) fun _ =>
      .jump (hi.goto no (by simp [Instruction.targets])).1
  | jump target => exact .jump (hi.goto target (by simp [Instruction.targets])).1
  | ret =>
    have hexit := Written.group (hi.exit rfl)
    simp only [pushAll_singleton] at hexit
    exact .seq (written_movImm hk _ (hk.low 0 (by decide))) fun _ => hexit

/-- The scope of everything. -/
def Scope.all : Scope := ⟨fun _ => True, fun _ _ => True, fun _ => True⟩

theorem admits_all (a : Allocation) (ids : List MapId) : Scope.all.Admits a ids fun _ => True :=
  ⟨usable_all a, fun _ _ => trivial, fun _ => trivial⟩

theorem written_all (a : Allocation) (i : Instruction) :
    Written .all (fun _ => True) fun _ => instruction a i :=
  written_instruction (admits_all a i.maps)
    ⟨fun _ _ _ => trivial, fun _ _ _ _ _ _ => trivial, fun _ _ => ⟨trivial, fun _ => trivial⟩,
      fun _ => trivial⟩ fun _ hx => hx

/-- The scope of slots with some property. -/
def Scope.each (P : Slot → Prop) : Scope := ⟨fun ss => ∀ s ∈ ss, P s, fun s _ => P s, fun _ => True⟩

theorem Row.each {P : Slot → Prop} {ds : List Draft} (h : Row (.each P) ds) : ∀ d ∈ ds, P d.slot := by
  induction h with
  | nil => exact nofun
  | group hg _ ih => exact List.forall_mem_append.2 ⟨List.forall_mem_map.2 hg, ih⟩
  | jump hj _ ih => exact List.forall_mem_cons.2 ⟨hj, ih⟩

theorem written_each {P : Slot → Prop} {a : Allocation} {ids : List MapId} {W : UInt8 → Prop}
    (hk : (Scope.each P).Admits a ids W) {i : Instruction} (hids : ∀ x ∈ i.maps, x ∈ ids)
    (hgoto : P (.jump 0)) (htest : ∀ r, P (.jumpImm Opcode.jne r 0 0)) (hexit : P .exit) :
    Written (.each P) (fun _ => True) fun _ => instruction a i :=
  written_instruction hk ⟨fun _ _ _ => trivial, fun _ _ _ _ _ _ => trivial,
    fun _ _ => ⟨hgoto, htest⟩, fun _ => List.forall_mem_singleton.2 hexit⟩ hids

theorem written_instructions {k : Scope} {a : Allocation} {code : List Instruction}
    (h : ∀ i ∈ code, Written k (fun _ => True) fun _ => instruction a i) :
    Written k (fun _ => True) fun _ => instructions a code := by
  induction code with
  | nil => exact .pure trivial
  | cons i code ih =>
    exact .seq (h i List.mem_cons_self) fun _ => ih fun j hj => h j (List.mem_cons_of_mem _ hj)

section

variable {α β : Type}

theorem run_bind (m : Emit α) (f : α → Emit β) (ds : Array Draft) :
    (m >>= f) ds = match m ds with
      | .ok a es => f a es
      | .error e es => .error e es := by
  change EStateM.bind m f ds = _
  unfold EStateM.bind
  cases m ds <;> rfl

theorem run_pushAll (ss : List Slot) (ds : Array Draft) :
    pushAll ss ds = .ok () (ds ++ (ss.map draft).toArray) := by
  induction ss generalizing ds with
  | nil => exact congrArg (EStateM.Result.ok ()) (Array.append_empty).symm
  | cons s ss ih =>
    have hrest : pushAll (s :: ss) ds = pushAll ss (ds.push (draft s)) := rfl
    rw [hrest, ih]
    simp

theorem Written.outcome {k : Scope} {Q : α → Prop} {m : Ceiling → Emit α} (h : Written k Q m) :
    (∃ a fs, (∀ ds, m .unlimited ds = .ok a (ds ++ fs.toArray)) ∧ Row k fs ∧ Q a) ∨
      ∃ e fs, (∀ ds, m .unlimited ds = .error e (ds ++ List.toArray fs)) ∧ k.error e := by
  induction h with
  | pure hq => exact .inl ⟨_, [], fun ds => congrArg _ (Array.append_empty).symm, .nil, hq⟩
  | throw he => exact .inr ⟨_, [], fun ds => congrArg _ (Array.append_empty).symm, he⟩
  | group hg =>
    exact .inl ⟨(), _, run_pushAll _, List.append_nil (List.map ..) ▸ .group hg .nil, trivial⟩
  | jump hj => exact .inl ⟨(), [_], fun ds => congrArg _ (by simp), .jump hj .nil, trivial⟩
  | bind _ _ ihm ihf =>
    rcases ihm with ⟨a, fs, hrun, hrow, hq⟩ | ⟨e, fs, hrun, he⟩
    · rcases ihf a hq with ⟨b, gs, hrun', hrow', hr⟩ | ⟨e, gs, hrun', he⟩
      · refine .inl ⟨b, fs ++ gs, fun ds => (run_bind ..).trans ?_, hrow.append hrow', hr⟩
        rw [hrun]
        simp [hrun', Array.append_assoc]
      · refine .inr ⟨e, fs ++ gs, fun ds => (run_bind ..).trans ?_, he⟩
        rw [hrun]
        simp [hrun', Array.append_assoc]
    · refine .inr ⟨e, fs, fun ds => (run_bind ..).trans ?_, he⟩
      rw [hrun]

/-- The drafts that an action writes. -/
def drafts (m : Emit α) : List Draft :=
  match m #[] with
  | .ok _ ds | .error _ ds => ds.toList

/-- The action ends with a result. -/
def Succeeds (m : Emit α) : Prop := ∃ a ds, m #[] = .ok a ds

variable {k : Scope} {Q : α → Prop} {m : Ceiling → Emit α}

theorem Written.ok (h : Written k Q m) {ds es : Array Draft} {a : α}
    (hm : m .unlimited ds = .ok a es) :
    Succeeds (m .unlimited) ∧ es.toList = ds.toList ++ drafts (m .unlimited) ∧ Q a := by
  rcases h.outcome with ⟨b, fs, hrun, -, hq⟩ | ⟨e, fs, hrun, -⟩
  · obtain ⟨rfl, rfl⟩ := EStateM.Result.ok.inj ((hrun ds).symm.trans hm)
    refine ⟨⟨b, _, hrun #[]⟩, ?_, hq⟩
    rw [drafts, hrun #[]]
    simp
  · cases (hrun ds).symm.trans hm

theorem Written.error (h : Written k Q m) {ds es : Array Draft} {e : CodeError}
    (hm : m .unlimited ds = .error e es) : k.error e := by
  rcases h.outcome with ⟨a, fs, hrun, -⟩ | ⟨e', fs, hrun, he⟩
  · cases (hrun ds).symm.trans hm
  · obtain ⟨rfl, -⟩ := EStateM.Result.error.inj ((hrun ds).symm.trans hm)
    exact he

theorem Written.row (h : Written k Q m) (hm : Succeeds (m .unlimited)) :
    Row k (drafts (m .unlimited)) := by
  obtain ⟨a, ds, hm⟩ := hm
  rcases h.outcome with ⟨b, fs, hrun, hrow, -⟩ | ⟨e, fs, hrun, -⟩
  · rw [drafts, hrun #[]]
    simpa using hrow
  · cases (hrun #[]).symm.trans hm

end

section

variable {α β : Type} {limit : Nat}

/-- The number of drafts at the end of an action. -/
def extent : EStateM.Result CodeError (Array Draft) α → Nat
  | .ok _ ds | .error _ ds => ds.size

/-- An action under a limit and the same action without one. They end in the same way if the drafts
fit; otherwise the first reports the limit. -/
structure Capped (limit : Nat) (m : Ceiling → Emit α) : Prop where
  grows : ∀ ds, ds.size ≤ extent (m .unlimited ds)
  fits : ∀ ds, extent (m .unlimited ds) ≤ limit → m (.ofLimit limit) ds = m .unlimited ds
  exceeds : ∀ ds, ds.size ≤ limit → limit < extent (m .unlimited ds) →
    ∃ es, m (.ofLimit limit) ds = .error (.tooLong limit) es

namespace Capped

theorem of_still {m : Emit α} (h : ∀ ds, extent (m ds) = ds.size) : Capped limit fun _ => m where
  grows ds := Nat.le_of_eq (h ds).symm
  fits _ _ := rfl
  exceeds ds hle hlt := by
    rw [h ds] at hlt
    omega

theorem append (d : Draft) : Capped limit fun _ => append d where
  grows ds := by
    change ds.size ≤ (ds.push d).size
    rw [Array.size_push]
    omega
  fits ds hle := by
    change (ds.push d).size ≤ limit at hle
    rw [Array.size_push] at hle
    exact if_pos hle
  exceeds ds _ hlt := by
    change limit < (ds.push d).size at hlt
    rw [Array.size_push] at hlt
    exact ⟨ds, if_neg (by omega)⟩

protected theorem bind {m : Ceiling → Emit α} {f : α → Ceiling → Emit β} (hm : Capped limit m)
    (hf : ∀ a ds es, m .unlimited ds = .ok a es → Capped limit (f a)) :
    Capped limit fun c => m c >>= fun a => f a c := by
  refine ⟨fun ds => ?_, fun ds hle => ?_, fun ds hds hlt => ?_⟩
  · have hgrows := hm.grows ds
    rw [run_bind]
    cases h : m .unlimited ds with
    | ok a es =>
      rw [h] at hgrows
      exact Nat.le_trans hgrows ((hf a ds es h).grows es)
    | error e es =>
      rw [h] at hgrows
      exact hgrows
  · have hfits := hm.fits ds
    rw [run_bind] at hle
    rw [run_bind, run_bind]
    cases h : m .unlimited ds with
    | ok a es =>
      have hf := hf a ds es h
      rw [h] at hle hfits
      rw [hfits (Nat.le_trans (hf.grows es) hle)]
      exact hf.fits es hle
    | error e es =>
      rw [h] at hle hfits
      rw [hfits hle]
  · have hover := hm.exceeds ds hds
    have hfits := hm.fits ds
    rw [run_bind] at hlt ⊢
    cases h : m .unlimited ds with
    | ok a es =>
      have hf := hf a ds es h
      rw [h] at hlt hover hfits
      by_cases hes : es.size ≤ limit
      · rw [hfits hes]
        exact hf.exceeds es hes hlt
      · obtain ⟨fs, hfs⟩ := hover (Nat.lt_of_not_le hes)
        rw [hfs]
        exact ⟨fs, rfl⟩
    | error e es =>
      rw [h] at hlt hover
      obtain ⟨fs, hfs⟩ := hover hlt
      rw [hfs]
      exact ⟨fs, rfl⟩

theorem pushAll (ss : List Slot) : Capped limit fun _ => pushAll ss := by
  induction ss with
  | nil => exact .of_still fun _ => rfl
  | cons s ss ih => exact .bind (.append _) fun _ _ _ _ => ih

end Capped

theorem Written.capped {k : Scope} {Q : α → Prop} {m : Ceiling → Emit α} (h : Written k Q m) :
    Capped limit m := by
  induction h with
  | pure | throw => exact .of_still fun _ => rfl
  | group => exact .pushAll _
  | jump => exact .append _
  | bind hm _ ihm ihf =>
    refine .bind ihm fun a ds es hrun => ?_
    exact ihf a (hm.ok hrun).2.2

theorem capped_blocks (a : Allocation) (starts : Array Nat) (bs : List Block) :
    Capped limit fun _ => blocks a starts bs := by
  induction bs generalizing starts with
  | nil => exact .of_still fun _ => rfl
  | cons b bs ih =>
    exact .bind (.of_still fun _ => rfl) fun _ _ _ _ =>
      .bind (written_instructions fun i _ => written_all a i).capped fun _ _ _ _ => ih _

theorem capped_program (a : Allocation) (p : Program) : Capped limit fun _ => program a p :=
  .bind (.append _) fun _ _ _ _ => capped_blocks a #[] _

end

end Emit

end TraceScript
