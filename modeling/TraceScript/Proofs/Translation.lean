import TraceScript.Proofs.LineTokens
import TraceScript.Proofs.Simulation
import TraceScript.Proofs.SingleUse

namespace TraceScript

open TraceScript.Flow Emit

/-- The registers that a slot may change. -/
def Slot.writes (s : Slot) : List Reg := (s.action.map Machine.Action.writes).getD []

theorem Machine.Action.writes_ofCode {code : UInt8} {dst src : Reg} {off : Int16} {imm : Int32}
    {a : Action} (h : ofCode code dst src off imm = some a) {r : Reg} (hr : r ∈ a.writes) :
    r.val ≤ 5 ∨ (Slot.mk code 0 0 0 0).hasResult ∧ r = dst := by
  have hcalled : ∀ r : Reg, r ∈ ([0, 1, 2, 3, 4, 5] : List Reg) → r.val ≤ 5 := by decide
  unfold ofCode at h
  dsimp only at h
  split at h
  case h_1 =>
    split at h
    · rename_i hwide
      obtain rfl := Option.some.inj h
      exact .inr ⟨hwide ▸ rfl, List.mem_singleton.1 hr⟩
    · cases h
  case h_2 hclass =>
    obtain ⟨_, -, rfl⟩ := Option.map_eq_some_iff.1 h
    exact .inr ⟨by simp [Slot.hasResult, Slot.opClass, hclass, Opcode.ldx], List.mem_singleton.1 hr⟩
  case h_3 | h_4 =>
    obtain ⟨_, -, rfl⟩ := Option.map_eq_some_iff.1 h
    cases hr
  case h_5 hclass =>
    split at h
    · obtain rfl := Option.some.inj h
      exact .inr ⟨by simp [Slot.hasResult, Slot.opClass, hclass, Opcode.alu], List.mem_singleton.1 hr⟩
    · cases h
  case h_6 =>
    split at h
    · obtain rfl := Option.some.inj h
      cases hr
    · split at h
      · obtain rfl := Option.some.inj h
        exact .inl (hcalled r hr)
      · split at h
        · obtain rfl := Option.some.inj h
          cases hr
        · obtain ⟨_, -, rfl⟩ := Option.map_eq_some_iff.1 h
          cases hr
  case h_7 hclass =>
    have hresult : (Slot.mk code 0 0 0 0).hasResult := by
      simp [Slot.hasResult, Slot.opClass, hclass, Opcode.alu64]
    split at h
    · obtain rfl := Option.some.inj h
      exact .inr ⟨hresult, List.mem_singleton.1 hr⟩
    · obtain ⟨_, -, rfl⟩ := Option.map_eq_some_iff.1 h
      exact .inr ⟨hresult, List.mem_singleton.1 hr⟩
  case h_8 => cases h

theorem Slot.result_of_writes {s : Slot} {r : Reg} (h : r ∈ s.writes) :
    r.val ≤ 5 ∨ s.hasResult ∧ s.dst = r.number := by
  unfold writes at h
  cases ha : s.action with
  | none =>
    rw [ha] at h
    cases h
  | some a =>
    rw [ha] at h
    obtain ⟨dst, hdst, hcode⟩ := Option.bind_eq_some_iff.1 ha
    obtain ⟨src, -, hcode⟩ := Option.bind_eq_some_iff.1 hcode
    refine (Machine.Action.writes_ofCode hcode h).imp id fun ⟨hresult, hr⟩ => ⟨hresult, ?_⟩
    rw [hr]
    exact Reg.number_of_ofNumber? hdst

namespace Emit

theorem hasResult_of_isTest {s : Slot} (h : s.isTest) : s.hasResult = false := by
  have hwide := Slot.isWide_of_isTest h
  have hclass : s.opClass = Opcode.jmp := by
    have hjump := Slot.isJump_of_isTest h
    simp only [Slot.isJump, Bool.and_eq_true, beq_iff_eq] at hjump
    exact hjump.1.1
  rw [Slot.hasResult, hwide, hclass]
  rfl

variable {ids : List MapId} {W : UInt8 → Prop}

theorem Piece.results {ss : List Slot} (h : Piece ids W ss) : ∀ s ∈ ss, s.hasResult → W s.dst := by
  have htest : ∀ {s : Slot}, s.isTest → s.hasResult → W s.dst := by
    intro s htest hresult
    rw [hasResult_of_isTest htest] at hresult
    cases hresult
  have hupper : ∀ value, (Slot.upperHalf value).hasResult = false := fun value => by
    change (Slot.mk 0 0 0 0 0).hasResult = false
    decide
  cases h with
  | straight hs => exact List.forall_mem_singleton.2 hs.result
  | wide value hd | map _ hd =>
    refine List.forall_mem_cons.2 ⟨fun _ => hd, List.forall_mem_singleton.2 fun hresult => ?_⟩
    rw [hupper] at hresult
    cases hresult
  | skip hs _ hall => exact List.forall_mem_cons.2 ⟨htest hs.isTest, fun s hs => (hall s hs).result⟩
  | choose hs _ hd =>
    refine List.forall_mem_cons.2 ⟨htest hs.isTest, List.forall_mem_cons.2 ⟨fun _ => hd,
      List.forall_mem_cons.2 ⟨fun hresult => ?_, List.forall_mem_singleton.2 fun _ => hd⟩⟩⟩
    exact absurd hresult (by decide)

end Emit

theorem Bytecode.Generated.fixed {p : Program} {a : Allocation} {code : Array Slot} {stack : Nat}
    {ps : List Region} (h : Generated p a code) (hroom : a.Roomy stack ps) {i : Nat} {s : Slot}
    (hs : code[i]? = some s) (hi : 0 < i) {r : Reg} (hr : r ∈ s.writes) : r.val < 9 := by
  have hW : Usable a fun n => n.toNat < 9 := by
    have hlow : ∀ r : Reg, r.val < 9 → r.number.toNat < 9 := by decide
    exact ⟨fun r hr => hlow r (by omega), fun t r ht => hlow r (hroom.register_bounds ht).2⟩
  have hk : (Scope.each fun s => s.hasResult → s.dst.toNat < 9).Admits a
      (p.instructions.flatMap Instruction.maps) fun n => n.toNat < 9 :=
    ⟨hW, fun _ hp => hp.results, fun _ => trivial⟩
  have htest : ∀ r : Reg, (Slot.jumpImm Opcode.jne r 0 0).hasResult = false := fun r =>
    hasResult_of_isTest (Slot.tests_jumpImm .ne ..).isTest
  have hrow := row_codeDrafts (fun j hj => written_each hk
    (fun x hx => List.mem_flatMap.2 ⟨j, hj, hx⟩) (fun h => absurd h (by decide))
    (fun r h => Bool.noConfusion (htest r ▸ h)) fun h => absurd h (by decide)) h.succeeds
  obtain ⟨d, hd⟩ : ∃ d, (layout a p)[i]? = some d := by
    have hlt := (Array.getElem?_eq_some_iff.1 hs).1
    rw [h.size] at hlt
    exact ⟨_, List.getElem?_eq_getElem hlt⟩
  obtain ⟨s', haim, hs'⟩ := h.slots i d hd
  obtain rfl := Option.some.inj (hs.symm.trans hs')
  obtain ⟨k, rfl⟩ := Nat.exists_eq_succ_of_ne_zero (Nat.ne_of_gt hi)
  have hresults := hrow.each d (List.mem_of_getElem? hd)
  have haimed : s.hasResult → s.dst.toNat < 9 := by
    obtain ⟨-, rfl⟩ | ⟨_, _, -, -, -, heq⟩ := aim_ok haim
    · exact hresults
    · rw [heq]
      exact hresults
  rcases Slot.result_of_writes hr with hlow | ⟨hresult, hdst⟩
  · omega
  · have hnumber : ∀ r : Reg, r.number.toNat = r.val := by decide
    rw [← hnumber, ← hdst]
    exact haimed hresult

namespace Machine

/-- How the kernel enters code: with the context in the register of the first argument, and a frame that
holds the bytes of some state. -/
structure Enters (e : Env) (stack : Nat) (σ : Flow.State) (m : State) : Prop where
  frame : m.regs Reg.frame = e.frame
  context : m.regs 1 = e.context
  arguments : ∀ n : UInt8, m.memory.read (e.argument n).addr 8 = Bytes.ofWord (e.world.args n.toNat)
  outside : m.outside = σ.outside
  memory : ∀ x, (Env.frameBytes stack).Contains x → m.memory x = σ.frame x

theorem Enters.mirrors {e : Env} {stack : Nat} {σ : Flow.State} {m : State} (h : Enters e stack σ m)
    (a : Allocation) :
    Mirrors e a stack (fun _ => False) σ (m.set Reg.context (m.regs 1)) where
  frame := by
    rw [State.regs_set_of_ne _ (by decide)]
    exact h.frame
  context := by rw [State.regs_set, h.context]
  arguments := h.arguments
  outside := h.outside
  memory x hx _ := h.memory x hx
  temps := nofun

end Machine

theorem Prepared.near {bound table : Table} {typed placed : Probe} {ks : List Placing}
    (h : Prepared bound table typed placed ks) (htotal : placed.frameTotal table < 2 ^ 31) :
    -2 ^ 31 < table.frame.top := by
  have htop := (h.packed htotal).1.total
  rw [Probe.frameTotal, h.bodyRegions_eq] at htotal
  omega

/-- The machine code of a probe does what its program does, as long as the frame takes less than `2 ^ 31`
bytes. Whatever the kernel leaves in registers after calls, the code comes to an exit with zero as its
result. -/
theorem Bytecode.generate_follows_program {σ : Type} {k : Kernel σ} {options : Options}
    {source : Source} {typed placed : Probe} {bound table : Table} {built : Built} {limit : Nat}
    {b : Bytecode} (h : Compile.Prepares k options source typed bound placed table)
    (htotal : placed.frameTotal table < 2 ^ 31) (hbuilt : Flow.ofProbe table placed = .ok built)
    (hcode : let a := built.program.twoAddress.analyze.allocate table.frame
      generate a.program a.allocation a.frame.usage limit = .ok b) :
    let slots := spillSlots (built.program.twoAddress.analyze.allocate table.frame).allocation.homes
    (∀ (i : Nat) (slot : Slot), b.code[i]? = some slot →
      Reg.frame ∉ slot.writes ∧ (0 < i → Reg.context ∉ slot.writes)) ∧
    ∀ (e : Machine.Env) (s : Flow.State) (m : Machine.State), e.world.Keeps bound →
      e.Suits b.stack → Machine.Enters e b.stack s m →
      ∃ s' g, built.program.Finishes e.world s s' ∧ Machine.Reaches e b.code ⟨0, m⟩ g ∧
        fetch b.code g.index = some .exit ∧ g.state.regs 0 = 0 ∧ g.state.outside = s'.outside ∧
        ∀ x, (Machine.Env.frameBytes b.stack).Contains x → (∀ r ∈ slots, ¬r.Contains x) →
          g.state.memory x = s'.frame x := by
  obtain ⟨ks, hprep⟩ := h.prepared
  obtain ⟨hgen, -, hstack⟩ := generate_ok hcode
  obtain ⟨hpacked, hsizes⟩ := hprep.packed htotal
  have hroom := built.program.twoAddress.analyze.allocate_roomy hpacked hsizes (hprep.near htotal)
  rw [← hstack] at hroom
  have hfirst : b.code[0]? = some (.movReg Reg.context 1) := by
    obtain ⟨s, haim, hs⟩ := hgen.slots 0 _ rfl
    obtain rfl := Except.ok.inj haim
    exact hs
  refine ⟨fun i slot hslot => ?_, fun e s m hw henv hm => ?_⟩
  · cases i with
    | zero =>
      obtain rfl := Option.some.inj (hfirst.symm.trans hslot)
      exact ⟨by decide, nofun⟩
    | succ i =>
      have hfixed := fun r => hgen.fixed hroom hslot (Nat.succ_pos i) (r := r)
      exact ⟨fun hr => absurd (hfixed _ hr) (by decide), fun _ hr => absurd (hfixed _ hr) (by decide)⟩
  · obtain ⟨built', hbuilt', hwhole⟩ :=
      Flow.ofProbe_whole (w := e.world) hprep.ready_table hprep.placed hprep.statements
    obtain rfl : built = built' := Except.ok.inj (hbuilt.symm.trans hbuilt')
    have hframed := hprep.framed htotal hw
    obtain ⟨s', hfinish, -⟩ := hwhole.runs hframed s
    have hformed := Flow.ofProbe_formed hbuilt
    have hfinish' := (hformed.finishes_twoAddress hfinish).congr
      (q := (built.program.twoAddress.analyze.allocate table.frame).program) fun b =>
        Program.codeAt_allocate table.frame b
    obtain ⟨g, hreach, hexit, hzero, hg⟩ := Machine.reaches_exit hgen hroom henv
      (hformed.housed table.frame (hwhole.safe hframed)) hfinish' (hm.mirrors _)
    have hstep : Machine.step e b.code ⟨0, m⟩ = some ⟨1, m.set Reg.context (m.regs 1)⟩ :=
      Machine.step_eq ((fetch_natCast 0).trans hfirst) (Slot.action_movReg _ _) rfl
    exact ⟨s', g, hfinish, .head hstep hreach, hexit, hzero, hg.outside, hg.memory⟩

/-- More values at once than registers, a key that is a string, and an event. -/
def spilledEntry : Source where
  name := "spilled"
  lines :=
    ["probe p \x7b x[comm()] = pid() + (tid() + (cpu() + (ns() + arg(1)))); " ++
      "if (x[comm()] > 5000000000) \x7b out(\"%s\", comm()); \x7d \x7d"]

/-- A kernel that shows the descriptors of its maps, and what it finds in them far from the frame. -/
def spilledMachine : Machine.Env where
  world :=
    { pid := 7, tid := 8, cpu := 1, args := fun _ => 0, comm := [97], clock := UInt64.ofNat
      created := fun
        | ⟨3⟩ => some ⟨.hash, 16, 8, 1024⟩
        | ⟨4⟩ => some ⟨.perfEventArray, 4, 4, 1⟩
        | _ => none }
  frame := 0x10000
  context := 0x20000
  handle fd := fd.toInt64.toUInt64
  resolve v := [(3, ⟨3⟩), (4, ⟨4⟩)].lookup v
  left n r := UInt64.ofNat (n + r.val)
  entry _ := 0x30000

theorem spilledMachine_suits (stack : Nat) : spilledMachine.Suits stack := by
  have hargument : ∀ k : UInt8, 0 ≤ (spilledMachine.argument k).addr ∧
      (spilledMachine.argument k).addr + 8 ≤ 0x20000 := by
    have hall : ∀ n < 256, 0 ≤ (spilledMachine.argument (UInt8.ofNat n)).addr ∧
        (spilledMachine.argument (UInt8.ofNat n)).addr + 8 ≤ 0x20000 := by decide +kernel
    intro k
    have hk := hall k.toNat k.toNat_lt
    rwa [UInt8.ofNat_toNat] at hk
  have hentry : ∀ n, spilledMachine.place (spilledMachine.entry n) = 0x20000 := by
    intro n
    rw [show spilledMachine.entry n = 0x30000 from rfl]
    decide
  constructor
  case knows =>
    intro id hid
    change Option.isSome (match id with | ⟨3⟩ => _ | ⟨4⟩ => _ | _ => none) at hid
    split at hid
    · decide
    · decide
    · cases hid
  case shown => exact fun _ => (by decide : (0x30000 : UInt64) ≠ 0)
  case entries =>
    intro n id r
    have haddr : r.addr = 0x20000 := hentry n
    refine ⟨.inr ?_, fun k => .inr ?_⟩
    · rw [haddr]
      dsimp only [Machine.Env.frameBytes]
      omega
    · rw [haddr]
      exact (hargument k).2
  case arguments =>
    intro k
    have := (hargument k).1
    refine .inr ?_
    dsimp only [Machine.Env.frameBytes]
    omega

/-- How the code is entered, with nothing in the frame and in the maps. -/
def spilledStart : Machine.State where
  regs r := if r = Reg.frame then 0x10000 else 0x20000
  memory _ := 0
  outside := { store := fun _ _ => none }

/-- The code keeps two temporaries in the frame. -/
theorem spilledEntry_exits :
    ∃ typed bound placed table built b s' g,
      Compile.Prepares DryRun.kernel {} spilledEntry typed bound placed table ∧
      placed.frameTotal table < 2 ^ 31 ∧ Flow.ofProbe table placed = .ok built ∧
      spilledMachine.world.Keeps bound ∧
      let a := built.program.twoAddress.analyze.allocate table.frame
      let s : Flow.State := ⟨fun _ => 0, fun _ => 0, spilledStart.outside⟩
      Bytecode.generate a.program a.allocation a.frame.usage 4096 = .ok b ∧
      (spillSlots a.allocation.homes).length = 2 ∧ spilledMachine.Suits b.stack ∧
      Machine.Enters spilledMachine b.stack s spilledStart ∧
      built.program.Finishes spilledMachine.world s s' ∧
      Machine.Reaches spilledMachine b.code ⟨0, spilledStart⟩ g ∧
      Bytecode.fetch b.code g.index = some .exit ∧ g.state.regs 0 = 0 ∧
      g.state.outside = s'.outside := by
  have hprepares : ∃ typed bound placed table,
      Compile.Prepares DryRun.kernel {} spilledEntry typed bound placed table ∧
      placed.frameTotal table < 2 ^ 31 ∧ spilledMachine.world.Keeps bound ∧
      (Flow.ofProbe table placed).toOption.any fun built =>
        (built.program.assembleInOrder table.frame 4096).toOption.any fun _ =>
          let q := built.program.twoAddress.analyze
          (spillSlots (q.allocateAlong table.frame
            (q.ranges.insertionSort fun a b => a.le b)).homes).length = 2 := by
    apply Compile.exists_prepares (s := { kernel := {} })
    · conv => lhs; cbv
    · conv => lhs; cbv
    · exact rfl
    · exact ⟨by decide +kernel, ⟨by decide +kernel, by decide +kernel⟩, by decide +kernel⟩
  obtain ⟨typed, bound, placed, table, hp, htotal, hkeeps, heval⟩ := hprepares
  obtain ⟨built, hbuilt, heval⟩ := Run.except_ok_of_any heval
  obtain ⟨b, hb, heval⟩ := Run.except_ok_of_any heval
  rw [← Program.assemble_eq] at hb
  have hcount := of_decide_eq_true heval
  rw [← Program.intervals_eq] at hcount
  have hsuits := spilledMachine_suits b.stack
  have henters : Machine.Enters spilledMachine b.stack
      ⟨fun _ => 0, fun _ => 0, spilledStart.outside⟩ spilledStart :=
    ⟨rfl, rfl, fun _ => (by decide : (List.range 8).map (fun _ => 0) = Bytes.ofWord 0), rfl,
      fun _ _ => rfl⟩
  obtain ⟨-, hruns⟩ := Bytecode.generate_follows_program hp htotal hbuilt hb
  obtain ⟨s', g, hfinish, hreach, hexit, hzero, hout, -⟩ := hruns _ _ _ hkeeps hsuits henters
  exact ⟨typed, bound, placed, table, built, b, s', g, hp, htotal, hbuilt, hkeeps, hb, hcount, hsuits,
    henters, hfinish, hreach, hexit, hzero, hout⟩

/-- A variable, an entry that holds it, and then a variable for a literal that takes `2 ^ 32 - 40`
bytes. -/
def overrunEntry : Source := .around
  "probe p \x7b a = 1; b = pid() + (tid() + (cpu() + pid())); x[comm()] = a; unroll(0) \x7b s ="
  (wideText (2 ^ 30 - 11)) "; \x7d \x7d"

/-- The literal lifts the frame to its end again, and a temporary gets the slot of the first variable.
The program keeps that variable in the map, and the code keeps the process in its place. -/
theorem overrunEntry_updates : overrunEntry.fits = true ∧
    ∃ typed bound placed table built b s' g,
      Compile.Prepares DryRun.kernel {} overrunEntry typed bound placed table ∧
      Flow.ofProbe table placed = .ok built ∧ spilledMachine.world.Keeps bound ∧
      let a := built.program.twoAddress.analyze.allocate table.frame
      let s : Flow.State := ⟨fun _ => 0, fun _ => 0, spilledStart.outside⟩
      let key : List UInt8 := 97 :: List.replicate 15 0
      Bytecode.generate a.program a.allocation a.frame.usage 4096 = .ok b ∧
      spilledMachine.Suits b.stack ∧ Machine.Enters spilledMachine b.stack s spilledStart ∧
      built.program.Finishes spilledMachine.world s s' ∧
      Machine.Reaches spilledMachine b.code ⟨0, spilledStart⟩ g ∧
      Bytecode.fetch b.code g.index = some .exit ∧
      s'.outside.trace = [.update ⟨3⟩ key (Bytes.ofWord 1)] ∧
      g.state.outside.trace = [.update ⟨3⟩ key (Bytes.ofWord 7)] := by
  have hprepares : ∃ typed bound placed table,
      Compile.Prepares DryRun.kernel {} overrunEntry typed bound placed table ∧
      spilledMachine.world.Keeps bound ∧ (Flow.ofProbe table placed).toOption.any fun built =>
        (built.program.assembleInOrder table.frame 4096).toOption.any fun b =>
          let c := follow (built.program.step spilledMachine.world) 20
            ⟨0, 0, fun _ => 0, fun _ => 0, spilledStart.outside⟩
          let g := follow (Machine.step spilledMachine b.code) 50 ⟨0, spilledStart⟩
          let key : List UInt8 := 97 :: List.replicate 15 0
          built.program.fetch c.block c.index = some .ret ∧
            Bytecode.fetch b.code g.index = some .exit ∧
            c.state.outside.trace = [.update ⟨3⟩ key (Bytes.ofWord 1)] ∧
            g.state.outside.trace = [.update ⟨3⟩ key (Bytes.ofWord 7)] := by
    apply Compile.exists_prepares (s := { kernel := {} })
    · rw [overrunEntry, Token.parseScript_around _ (by decide) (by cbv) (by cbv)]
      conv => lhs; cbv
    · conv =>
        lhs
        simp only [Probe.annotate, Annotate.statements, Annotate.statement, Annotate.declaration,
          Annotate.expression_sealed]
        cbv
    · exact rfl
    · exact ⟨⟨by decide +kernel, by decide +kernel⟩, by decide +kernel⟩
  obtain ⟨typed, bound, placed, table, hp, hkeeps, heval⟩ := hprepares
  obtain ⟨built, hbuilt, heval⟩ := Run.except_ok_of_any heval
  obtain ⟨b, hb, heval⟩ := Run.except_ok_of_any heval
  rw [← Program.assemble_eq] at hb
  obtain ⟨hret, hexit, htrace, htrace'⟩ := of_decide_eq_true heval
  refine ⟨Source.around_fits (by decide), typed, bound, placed, table, built, b, _, _, hp, hbuilt, hkeeps,
    hb, spilledMachine_suits b.stack, ?_, ⟨_, _, reaches_follow _ 20 _, hret⟩, reaches_follow _ 50 _,
    hexit, htrace, htrace'⟩
  exact ⟨rfl, rfl, fun _ => (by decide : (List.range 8).map (fun _ => 0) = Bytes.ofWord 0), rfl,
    fun _ _ => rfl⟩

end TraceScript
