import TraceScript.Kernel.DryRun
import TraceScript.Proofs.Aligned
import TraceScript.Proofs.Appended
import TraceScript.Proofs.CodeInsertion

namespace TraceScript

open TraceScript.Flow

namespace Flow

theorem mentions_flatMap {p : Program} {bs : List Nat} {t : Temp}
    (h : Mentions (bs.flatMap p.codeAt) t) : ∃ b ∈ bs, Mentions (p.codeAt b) t := by
  induction bs with
  | nil => exact (List.not_mem_nil (h.elim id id)).elim
  | cons b bs ih =>
    rw [List.flatMap_cons, mentions_append] at h
    rcases h with h | h
    · exact ⟨b, List.mem_cons_self, h⟩
    · obtain ⟨k, hk, h⟩ := ih h
      exact ⟨k, List.mem_cons_of_mem _ hk, h⟩

namespace Program

variable {p q : Program} {block : Nat} {c added d : List Instruction}

theorem Ordered.mem_defs_of_mentions (h : p.Ordered) {b : Nat} {t : Temp}
    (ht : Mentions (p.codeAt b) t) : t ∈ defs (p.codeAt b) := by
  rcases ht with ht | ht
  · exact ht
  · obtain ⟨i, hi, hu⟩ := List.mem_flatMap.1 ht
    obtain ⟨c, d, hcode⟩ := List.append_of_mem hi
    rw [hcode, defs_append]
    exact List.mem_append_left _ (h.isLocal b c i d hcode t hu)

theorem Widens.inserts (h : p.Widens q block c added d) (hp : p.Ordered)
    (hd : ∀ t, ¬Mentions d t) (hown : ∀ t, Mentions added t → p.temps.size ≤ t)
    (hcount : p.temps.size ≤ q.temps.size) (hlive : ∀ b, (p.analyze.liveOutAt b).isEmpty)
    (hlive' : ∀ b, (q.analyze.liveOutAt b).isEmpty) :
    Inserts p q (p.codeBelow block ++ c) added (d ++ p.codeAbove block) := by
  have hbefore : ∀ t, Mentions (p.codeBelow block ++ c) t → ∃ b ≤ block, t ∈ defs (p.codeAt b) := by
    intro t ht
    rcases mentions_append.1 ht with ht | ht
    · obtain ⟨b, hb, ht⟩ := mentions_flatMap ht
      exact ⟨b, (List.mem_range.1 hb).le, hp.mem_defs_of_mentions ht⟩
    · refine ⟨block, Nat.le_refl _, hp.mem_defs_of_mentions (ht.mono ?_)⟩
      rw [h.old]
      exact List.subset_append_left _ _
  have hafter : ∀ t, Mentions (d ++ p.codeAbove block) t →
      ∃ b, block < b ∧ t ∈ defs (p.codeAt b) := by
    intro t ht
    obtain ⟨b, hb, ht⟩ := mentions_flatMap ((mentions_append.1 ht).resolve_left (hd t))
    exact ⟨b, (List.mem_range'_1.1 hb).1, hp.mem_defs_of_mentions ht⟩
  refine ⟨h.instructions_old, h.instructions_new, fun t ht ht' => ?_, fun t ht => ?_, hown, hcount,
    hlive, hlive'⟩
  · obtain ⟨b, hb, hdef⟩ := hbefore t ht
    obtain ⟨b', hb', hdef'⟩ := hafter t ht'
    have := hp.apart b b' t hdef hdef'
    omega
  · rcases ht with ht | ht
    · obtain ⟨b, -, hdef⟩ := hbefore t ht
      exact hp.bounded b t hdef
    · obtain ⟨b, -, hdef⟩ := hafter t ht
      exact hp.bounded b t hdef

end Program

theorem Builder.widens_append {s : Builder} (hs : s.here < s.size) (c : Chunk) :
    (s.finish .ret).program.Widens ((s.append c).finish .ret).program s.here (s.codeAt s.here) c.code
      [.ret] where
  lt := hs.trans_eq (s.size_finish .ret).symm
  size := ((s.append c).size_finish .ret).trans ((s.size_append c).trans (s.size_finish .ret).symm)
  old := (codeAt_finish hs .ret s.here).trans (if_pos rfl)
  new := by
    have hs' : (s.append c).here < (s.append c).size := hs.trans_eq (s.size_append c).symm
    refine (codeAt_finish hs' .ret s.here).trans ?_
    rw [here_append, if_pos rfl, codeAt_append hs, if_pos rfl, List.append_assoc]
  others b hb := by
    have hs' : (s.append c).here < (s.append c).size := hs.trans_eq (s.size_append c).symm
    refine (codeAt_finish hs' .ret b).trans (.trans ?_ (codeAt_finish hs .ret b).symm)
    rw [here_append, if_neg hb, if_neg hb, codeAt_append hs, if_neg hb]

theorem ofProbe_liveOut_empty {t : Table} {p : Probe} {built : Built} (h : ofProbe t p = .ok built)
    (b : Nat) : (built.program.twoAddress.analyze.liveOutAt b).isEmpty := by
  obtain ⟨s, hshape, hprogram⟩ := ofProbe_shaped h
  have hwell : built.program.WellFormed := hprogram ▸ hshape.wellFormed
  exact (Program.liveAt_analyze_empty (ofProbe_formed h).ordered.isLocal
    hwell.reversible_twoAddress b).2

theorem twoAddress_updateChunk (t : Temp) (op : ArithOp) (value : Int32) (addr : Int)
    (origin : Option Origin) :
    (updateChunk t op value addr origin).code.flatMap Instruction.twoAddress =
      selfUpdate t op value addr := by
  simp [updateChunk, Instruction.twoAddress, selfUpdate]

/-- Two programs that differ by the code of one more statement in the block that returns. -/
structure Updates (built built' : Built) (block : Nat) (op : ArithOp) (value : Int32) (addr : Int) :
    Prop where
  count : built'.program.temps.size = built.program.temps.size + 2
  widens : ∃ c, built.program.twoAddress.Widens built'.program.twoAddress block c
    (selfUpdate built.program.temps.size op value addr) [.ret]
  inserts : ∃ before after, built.program.twoAddress.Inserts built'.program.twoAddress before
    (selfUpdate built.program.temps.size op value addr) after

theorem ofProbe_updatesAt {t : Table} {p : Probe} {built built' : Built} {n : Node} {op : ArithOp}
    {value : Int64} {addr : Int} (h : ofProbe t p = .ok built)
    (h' : ofProbe t { p with body := p.body ++ [n] } = .ok built') (hn : n.UpdatesAt op value addr)
    (hfits : value.toInt32.toInt64 = value) :
    ∃ block, Updates built built' block op value.toInt32 addr := by
  -- both programs are built alike up to the last statement
  obtain ⟨s, hs, hprogram⟩ := ofProbe_statements h
  obtain ⟨s', hs', hprogram'⟩ := ofProbe_statements h'
  obtain ⟨origin, hemits⟩ := emits_updatesAt hn hfits t s
  obtain ⟨-, rfl⟩ := Prod.mk.inj (Except.ok.inj ((statements_append hs hemits).symm.trans hs'))
  have hopen := ((shaped_statements t p.body _ s hs).opens (Builder.open_start _)).1
  have hcount : built.program.temps.size = s.count := by
    rw [hprogram]
    exact s.count_finish .ret
  have hcount' : built'.program.temps.size = built.program.temps.size + 2 := by
    rw [hprogram', hcount]
    exact (Builder.count_finish _ .ret).trans (s.count_append _)
  have hwidens := (Builder.widens_append hopen.current
    (updateChunk s.count op value.toInt32 addr origin)).twoAddress
  rw [twoAddress_updateChunk, ← hprogram, ← hprogram', ← hcount] at hwidens
  refine ⟨s.here, hcount', ⟨_, hwidens⟩, _, _, hwidens.inserts (ofProbe_formed h).ordered ?_ ?_
    (hcount' ▸ Nat.le_add_right _ 2) (ofProbe_liveOut_empty h) (ofProbe_liveOut_empty h')⟩
  · rintro t (ht | ht) <;> exact List.not_mem_nil ht
  · intro t ht
    have hown : t = built.program.temps.size ∨ t = built.program.temps.size + 1 := by
      simp [Mentions, defs, reads, selfUpdate, Instruction.def?, Instruction.uses, Operand.temps] at ht
      tauto
    rcases hown with rfl | rfl
    · exact Nat.le_refl _
    · exact Nat.le_succ _

end Flow

namespace Emit

open TraceScript.Flow

section

variable {a : Allocation} {t : Temp} {r : Reg} (h : a.home t = some (.reg r))

include h

theorem homeOf_reg : homeOf a t = pure (.reg r) := by rw [homeOf, h]

theorem target_reg : target a t = pure r := by
  rw [target, homeOf_reg h]
  rfl

theorem read_reg (scratch : Reg) : read a t scratch = pure r := by
  rw [read, homeOf_reg h]
  rfl

theorem writeBack_reg (source : Reg) : writeBack a t source = pure () := by
  rw [writeBack, homeOf_reg h]
  rfl

end

theorem codeDrafts_selfUpdate {a : Allocation} {t : Temp} {op : ArithOp} {value : Int32} {addr : Int}
    (hfirst : a.home t = some (.reg 6)) (hsecond : a.home (t + 1) = some (.reg 6))
    (hoff : (Int16.ofInt addr).toInt = addr) :
    codeDrafts a (selfUpdate t op value addr) =
      [Slot.load Opcode.double 6 Reg.frame (Int16.ofInt addr), .aluImm (arithCode op) 6 value,
        .store Opcode.double Reg.frame 6 (Int16.ofInt addr)].map draft := by
  have hoffset : offset addr = pure (Int16.ofInt addr) := if_pos hoff
  have hload : drafts (instruction a (.load t addr)) =
      [draft (.load Opcode.double 6 Reg.frame (Int16.ofInt addr))] := by
    simp only [instruction, target_reg hfirst, writeBack_reg hfirst, hoffset]
    rfl
  have hmove : drafts (instruction a (.move (t + 1) t)) = [] := by
    simp only [instruction, read_reg hfirst, target_reg hsecond, writeBack_reg hsecond]
    rfl
  have harith : drafts (instruction a (.arith op (t + 1) (t + 1) (.imm value))) =
      [draft (.aluImm (arithCode op) 6 value)] := by
    simp only [instruction, arith, read_reg hsecond, target_reg hsecond, writeBack_reg hsecond]
    rfl
  have hstore : drafts (instruction a (.store (t + 1) addr)) =
      [draft (.store Opcode.double Reg.frame 6 (Int16.ofInt addr))] := by
    simp only [instruction, read_reg hsecond, hoffset]
    rfl
  simp only [codeDrafts, selfUpdate, List.flatMap_cons, List.flatMap_nil, hload, hmove, harith, hstore]
  rfl

theorem offset_of_load {a : Allocation} {t : Temp} {addr : Int}
    (h : Succeeds (instruction a (.load t addr))) : (Int16.ofInt addr).toInt = addr := by
  obtain ⟨u, ds, hrun⟩ := h
  by_contra hne
  have hoffset : offset addr = throw (.stackOffset addr) := if_neg hne
  rw [instruction, hoffset] at hrun
  obtain ⟨r, es, -, hrest⟩ := Run.estate_bind_ok.1 hrun
  cases hrest

end Emit

theorem Bytecode.generate_selfUpdate {p q : Program} {block : Nat} {c before after : List Instruction}
    {op : ArithOp} {value : Int32} {addr : Int} {frame : Frame} {limit : Nat} {b b' : Bytecode}
    (hwidens : p.Widens q block c (selfUpdate p.temps.size op value addr) [.ret])
    (hinserts : p.Inserts q before (selfUpdate p.temps.size op value addr) after)
    (hcount : q.temps.size = p.temps.size + 2)
    (hb : generate (p.analyze.allocate frame).program (p.analyze.allocate frame).allocation
      (p.analyze.allocate frame).frame.usage limit = .ok b)
    (hb' : generate (q.analyze.allocate frame).program (q.analyze.allocate frame).allocation
      (q.analyze.allocate frame).frame.usage limit = .ok b') :
    (∃ place off, Int16.toInt off = addr ∧ Widened place [Slot.load Opcode.double 6 Reg.frame off,
      .aluImm (Emit.arithCode op) 6 value, .store Opcode.double Reg.frame 6 off] b.code b'.code) ∧
    b'.stack = b.stack := by
  obtain ⟨hframe, hhomes, hfirst, hsecond⟩ := hinserts.allocate_selfUpdate hcount frame
  obtain ⟨hcode, -, hstack⟩ := generate_ok hb
  obtain ⟨hcode', -, hstack'⟩ := generate_ok hb'
  have hprogram : (p.analyze.allocate frame).program.instructions = p.instructions :=
    p.instructions_analyze
  have hprogram' : (q.analyze.allocate frame).program.instructions = q.instructions :=
    q.instructions_analyze
  have hoff : (Int16.ofInt addr).toInt = addr := by
    refine Emit.offset_of_load (hcode'.succeeds (.load p.temps.size addr) ?_)
    rw [hprogram', hinserts.new]
    exact List.mem_append_right _ (List.mem_append_left _ List.mem_cons_self)
  have hallocated : (p.analyze.allocate frame).program.Widens (q.analyze.allocate frame).program block
      c (selfUpdate p.temps.size op value addr) [.ret] :=
    hwidens.of_codeAt Array.size_mapIdx Array.size_mapIdx p.codeAt_analyze q.codeAt_analyze
  refine ⟨⟨_, Int16.ofInt addr, hoff, Generated.widened hallocated hcode hcode' (fun t ht => ?_)
    (Emit.codeDrafts_selfUpdate hfirst hsecond hoff) (List.cons_ne_nil _ _)⟩, ?_⟩
  · rw [hprogram, hinserts.old, mentions_append] at ht
    exact hhomes t (hinserts.bounded t ht)
  · rw [hstack, hstack', hframe]

namespace Compile

variable {σ : Type} {k : Kernel σ} {options : Options} {s : Session σ} {p : Probe}
  {table table' : Table} {code code' : Code}

/-- A probe is typed on its own table, a kernel creates its maps, and code is generated for it. The
table has all places in the end. -/
def Generates (k : Kernel σ) (options : Options) (s : Session σ) (p : Probe) (table : Table)
    (code : Code) : Prop :=
  ∃ typed typing bound placed s₁ s₂, p.annotate.run {} = .ok typed typing ∧
    (bindTable k options typing.table).run s = .ok bound s₁ ∧
    typed.place.run bound = (placed, table) ∧ (codeOf options bound typed).run s₁ = .ok code s₂

theorem Generates.inv (h : Generates k options s p table code) :
    ∃ typed typing bound placed s₁ built, p.annotate {} = .ok typed typing ∧
      bindTable k options typing.table s = .ok bound s₁ ∧ typed.place.run bound = (placed, table) ∧
      ofProbe table placed = .ok built ∧
      let allocated := built.program.twoAddress.analyze.allocate table.frame
      Bytecode.generate allocated.program allocated.allocation allocated.frame.usage
        options.maxInstructions = .ok code.bytecode ∧
      code.program = allocated.program ∧ code.allocation = allocated.allocation := by
  obtain ⟨typed, typing, bound, placed, s₁, s₂, htyped, hbound, hplaced, hcode⟩ := h
  obtain ⟨built, hbuilt, hassemble⟩ := codeOf_ok hcode hplaced
  have hresult := codeResult_of_codeOf hcode
  rw [codeResult_of_built hplaced hbuilt, hassemble] at hresult
  refine ⟨typed, typing, bound, placed, s₁, built, htyped, hbound, hplaced, hbuilt, hassemble, ?_, ?_⟩
  · exact congrArg Code.program (Except.ok.inj hresult).symm
  · exact congrArg Code.allocation (Except.ok.inj hresult).symm

/-- Whatever a probe does, one more statement that changes an integer variable by a constant makes its
code longer by three slots: the variable is loaded from its place, changed in a register and stored
there. No other slot changes, apart from how far a jump goes. The frame keeps its size, and every
temporary of the probe keeps its home. -/
theorem selfUpdate_costs_three {a : Name} {x : Symbol} {op : ArithOp} {value : Int64} {n : Node}
    (hp : ∀ m ∈ p.body, Statement m) (h : Generates k options s p table code)
    (hfind : table.find? a = some x) (hm : x.map = none) (hshape : x.facts.shape = some .int)
    (hfits : value.toInt32.toInt64 = value) (hn : n.SelfUpdate a op value)
    (h' : Generates k options s { p with body := p.body ++ [n] } table' code') :
    code'.bytecode.code.size = code.bytecode.code.size + 3 ∧
    (∃ place off, x.addr = some (Int16.toInt off) ∧ Bytecode.Widened place
      [Slot.load Opcode.double 6 Reg.frame off, .aluImm (Emit.arithCode op) 6 value.toInt32,
        .store Opcode.double Reg.frame 6 off] code.bytecode.code code'.bytecode.code) ∧
    code'.bytecode.stack = code.bytecode.stack ∧
    ∀ t < code.program.temps.size, code'.allocation.home t = code.allocation.home t := by
  obtain ⟨typed, typing, bound, placed, s₁, built, htyped, hbound, hplaced, hbuilt, hcode, hprogram,
    hallocation⟩ := h.inv
  obtain ⟨typed', typing', bound', placed', s₁', built', htyped', hbound', hplaced', hbuilt', hcode',
    -, hallocation'⟩ := h'.inv
  obtain ⟨hstacked, hist⟩ := Probe.annotate_history hp htyped
  obtain ⟨hsound, -, hall⟩ := Probe.annotate_typed hp htyped
  have hb := bindTable_ok hbound
  obtain ⟨ks, hprep⟩ := hb.prepared hsound hall hplaced
  obtain ⟨i, hx⟩ := Table.names_of_find hfind
  obtain ⟨x₀, hx₀, -, hfacts, hm₀⟩ := hprep.typed_variable hb hist hx hm
  obtain ⟨addr, haddr⟩ := Option.isSome_iff_exists.1 (hprep.addr_isSome hb hsound hist hx hm)
  -- the table is the same up to here, so the kernel is asked for the same maps
  obtain ⟨n₁, hann, hn₁, hresult⟩ := Probe.annotate_selfUpdate htyped hstacked hx₀ hm₀
    (by rw [hfacts]; exact hshape) hn
  obtain ⟨rfl, rfl⟩ := EStateM.Result.ok.inj (hann.symm.trans htyped')
  obtain ⟨rfl, rfl⟩ := EStateM.Result.ok.inj (hbound.symm.trans hbound')
  obtain ⟨n₂, hplace, hn₂⟩ := Probe.place_selfUpdate hplaced hx haddr hn₁ hresult
  obtain ⟨rfl, rfl⟩ := Prod.mk.inj (hplace.symm.trans hplaced')
  obtain ⟨block, hcount, ⟨c, hwidens⟩, before, after, hinserts⟩ :=
    ofProbe_updatesAt hbuilt hbuilt' hn₂ hfits
  obtain ⟨⟨place, off, hoff, hwidened⟩, hstack⟩ :=
    Bytecode.generate_selfUpdate hwidens hinserts hcount hcode hcode'
  refine ⟨hwidened.size, ⟨place, off, by rw [haddr, hoff], hwidened⟩, hstack, fun t ht => ?_⟩
  have hsize : (built.program.twoAddress.analyze.allocate table.frame).program.temps.size =
      built.program.twoAddress.analyze.temps.size := Allocator.size_temps_allocateAll ..
  rw [hprogram, hsize, Program.size_temps_analyze] at ht
  rw [hallocation, hallocation']
  exact (hinserts.allocate_selfUpdate hcount table.frame).2.1 t ht

theorem generates_of_evaluated {q : Table → Bytecode → Bool}
    (h : ∃ typed typing bound placed table s₁, p.annotate.run {} = .ok typed typing ∧
      (bindTable k options typing.table).run s = .ok bound s₁ ∧
      typed.place.run bound = (placed, table) ∧ (ofProbe table placed).toOption.any fun built =>
        (built.program.assembleInOrder table.frame options.maxInstructions).toOption.any (q table)) :
    ∃ table code, Generates k options s p table code ∧ q table code.bytecode := by
  obtain ⟨typed, typing, bound, placed, table, s₁, htyped, hbound, hplaced, heval⟩ := h
  obtain ⟨code, s₂, hrun, hq⟩ := codeOf_of_evaluated options s₁ hplaced heval
  exact ⟨table, code, ⟨typed, typing, bound, placed, s₁, s₂, htyped, hbound, hplaced, hrun⟩, hq⟩

/-- The block that returns comes before those of the inner branch, and these keep a value in the
frame. -/
def nestedLoad : Source where
  name := "nested"
  lines := ["probe p \x7b a = 1; if (pid()) \x7b if (tid()) \x7b " ++
    "a = a * 2 + (a * 3 + (a * 5 + a * 7)); \x7d \x7d \x7d"]

def stepDown : Node := .assignment default .sub (.var default ⟨"a"⟩) (.int default 3)

theorem nestedLoad_costs_three : ∃ p table table' x, ∃ code code' : Code,
    parseScript nestedLoad = .ok [p] ∧
    Generates DryRun.kernel {} { kernel := {} } p table code ∧
    table.find? ⟨"a"⟩ = some x ∧ x.map = none ∧ x.facts.shape = some .int ∧
    Generates DryRun.kernel {} { kernel := {} } { p with body := p.body ++ [stepDown] } table' code' ∧
    code.bytecode.code.size = 37 ∧ code'.bytecode.code.size = 40 ∧
    (∃ place off, x.addr = some (Int16.toInt off) ∧ Bytecode.Widened place
      [Slot.load Opcode.double 6 Reg.frame off, .aluImm Opcode.sub 6 3,
        .store Opcode.double Reg.frame 6 off] code.bytecode.code code'.bytecode.code) ∧
    code.bytecode.stack = 16 ∧ code'.bytecode.stack = 16 ∧
    ∀ t < code.program.temps.size, code'.allocation.home t = code.allocation.home t := by
  obtain ⟨p, hparse, heval, heval'⟩ : ∃ p, parseScript nestedLoad = .ok [p] ∧
      (∃ typed typing bound placed table s₁, p.annotate.run {} = .ok typed typing ∧
        (bindTable DryRun.kernel {} typing.table).run { kernel := {} } = .ok bound s₁ ∧
        typed.place.run bound = (placed, table) ∧ (ofProbe table placed).toOption.any fun built =>
          (built.program.assembleInOrder table.frame 4096).toOption.any fun b =>
            b.code.size = 37 ∧ b.stack = 16 ∧
              (table.find? ⟨"a"⟩).any fun x => x.map = none ∧ x.facts.shape = some .int) ∧
      ∃ typed typing bound placed table s₁,
        ({ p with body := p.body ++ [stepDown] } : Probe).annotate.run {} = .ok typed typing ∧
        (bindTable DryRun.kernel {} typing.table).run { kernel := {} } = .ok bound s₁ ∧
        typed.place.run bound = (placed, table) ∧ (ofProbe table placed).toOption.any fun built =>
          (built.program.assembleInOrder table.frame 4096).toOption.any fun _ => true := by
    refine ⟨?_, ?_, ?_, ?_⟩
    rotate_left 1
    · conv => lhs; cbv
    · refine ⟨?_, ?_, ?_, ?_, ?_, ?_, ?_, ?_, ?_, ?_⟩
      rotate_left 6
      · conv => lhs; cbv
      · exact rfl
      · exact rfl
      · decide +kernel
    · refine ⟨?_, ?_, ?_, ?_, ?_, ?_, ?_, ?_, ?_, ?_⟩
      rotate_left 6
      · conv => lhs; cbv
      · exact rfl
      · exact rfl
      · decide +kernel
  obtain ⟨table, code, hcode, hknown⟩ := generates_of_evaluated heval
  obtain ⟨table', code', hcode', -⟩ := generates_of_evaluated heval'
  obtain ⟨hsize, hstack, hvar⟩ := of_decide_eq_true hknown
  obtain ⟨x, hfind, hx⟩ := (Option.any_eq_true _ _).1 hvar
  obtain ⟨hm, hshape⟩ := of_decide_eq_true hx
  obtain ⟨hsize', hslots, hstack', hhomes⟩ :=
    selfUpdate_costs_three (parseScript_statements hparse p List.mem_cons_self) hcode hfind hm hshape
      (by decide) .assignment hcode'
  exact ⟨p, table, table', x, code, code', hparse, hcode, hfind, hm, hshape, hcode', hsize,
    by rw [hsize', hsize], hslots, hstack, hstack'.trans hstack, hhomes⟩

end Compile

end TraceScript
