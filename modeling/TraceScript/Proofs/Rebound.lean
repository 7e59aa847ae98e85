import TraceScript.Proofs.Assembled
import TraceScript.Proofs.Control
import TraceScript.Proofs.Renamed

namespace TraceScript

namespace Flow

variable (f : MapId → MapId)

namespace Instruction

/-- An instruction that stays as it is holds descriptors that stay as they are. -/
theorem fixed_of_rename {i : Instruction} (h : i.rename f = i) : ∀ x ∈ i.maps, f x = x := by
  intro x hx
  cases i with
  | update map key value =>
    obtain rfl := List.mem_singleton.1 hx
    exact (Instruction.update.inj h).1
  | lookup map key value size =>
    obtain rfl := List.mem_singleton.1 hx
    exact (Instruction.lookup.inj h).1
  | call helper dst =>
    cases helper with
    | out addr size map =>
      obtain rfl := List.mem_singleton.1 hx
      exact (Helper.out.inj (Instruction.call.inj h).1).2.2
    | _ => cases hx
  | _ => cases hx

theorem def?_rename (i : Instruction) : (i.rename f).def? = i.def? := by
  cases i <;> rfl

theorem uses_rename (i : Instruction) : (i.rename f).uses = i.uses := by
  cases i <;> rfl

theorem twoAddress_rename (i : Instruction) :
    (i.rename f).twoAddress = i.twoAddress.map (rename f) := by
  cases i with
  | arith op dst lhs rhs =>
    change twoAddress (.arith op dst lhs rhs) = _
    unfold twoAddress
    dsimp only
    split <;> rfl
  | _ => rfl

end Instruction

theorem LocalSets.ofCode_rename (code : Array Instruction) :
    ofCode (code.map (Instruction.rename f)) = ofCode code := by
  rw [ofCode, ofCode, Array.foldl_map]
  congr 1
  funext s i
  rw [step, step, Instruction.uses_rename, Instruction.def?_rename]

theorem Junction.ofBlock_rename (b : Block) : ofBlock (b.rename f) = ofBlock b := by
  have hcode : LocalSets.ofCode (b.rename f).code = LocalSets.ofCode b.code :=
    LocalSets.ofCode_rename f b.code
  rw [ofBlock, hcode]
  rfl

theorem Numbering.block_rename (n : Numbering) (b : Block) :
    n.block (b.rename f) = n.block b := by
  have hcode : (b.rename f).code.foldl instruction n = b.code.foldl instruction n := by
    rw [Block.rename, Array.foldl_map]
    congr 1
    funext n i
    rw [instruction, instruction, Instruction.uses_rename, Instruction.def?_rename]
  unfold block
  rw [hcode]
  rfl

namespace Program

theorem instructions_rename (p : Program) :
    (p.rename f).instructions = p.instructions.map (Instruction.rename f) := by
  rw [instructions, instructions, rename, Array.toList_map, List.flatMap_map, List.map_flatMap]
  congr 1
  funext b
  exact Array.toList_map

theorem twoAddress_rename (p : Program) : (p.rename f).twoAddress = p.twoAddress.rename f := by
  have hblock : ∀ b : Block, (b.rename f).twoAddress = b.twoAddress.rename f := by
    intro b
    have hcode : ((b.code.map (Instruction.rename f)).toList.flatMap Instruction.twoAddress).toArray =
        (b.code.toList.flatMap Instruction.twoAddress).toArray.map (Instruction.rename f) := by
      rw [Array.toList_map, List.flatMap_map, List.map_toArray, List.map_flatMap]
      simp only [Instruction.twoAddress_rename]
    exact congrArg (fun code => { b with code }) hcode
  rw [twoAddress, rename, twoAddress, rename, Array.map_map, Array.map_map]
  congr 2
  funext b
  exact hblock b

theorem analyze_rename (p : Program) : (p.rename f).analyze = p.analyze.rename f := by
  let js := p.blocks.map Junction.ofBlock
  let found := Worklist.run js (.start js.size) (.start js)
  let mark (i : Nat) (b : Block) : Block :=
    { b with
      defined := (js.getD i {}).defined
      liveIn := found.liveIn.getD i ∅
      liveOut := found.liveOut.getD i ∅ }
  let start : Numbering := { temps := p.temps.map TempInfo.unknown }
  have hjs : (p.rename f).blocks.map Junction.ofBlock = js := by
    rw [rename, Array.map_map]
    congr 1
    funext b
    exact Junction.ofBlock_rename f b
  have hblocks : (p.blocks.map (Block.rename f)).mapIdx mark =
      (p.blocks.mapIdx mark).map (Block.rename f) := by
    refine Array.ext_getElem? fun i => ?_
    rw [Array.getElem?_mapIdx, Array.getElem?_map, Array.getElem?_map, Array.getElem?_mapIdx]
    cases p.blocks[i]? <;> rfl
  have hnumbering : ((p.blocks.mapIdx mark).map (Block.rename f)).foldl Numbering.block start =
      (p.blocks.mapIdx mark).foldl Numbering.block start := by
    rw [Array.foldl_map]
    congr 1
    funext n b
    exact n.block_rename f b
  have hanalyze : (p.rename f).analyze =
      { p with
        blocks := (p.blocks.map (Block.rename f)).mapIdx mark
        temps := (((p.blocks.map (Block.rename f)).mapIdx mark).foldl Numbering.block start).temps } := by
    unfold analyze
    dsimp only
    rw [hjs]
    rfl
  rw [hanalyze, hblocks, hnumbering]
  rfl

theorem hints_rename (p : Program) : (p.rename f).hints = p.hints := by
  unfold hints
  rw [instructions_rename, List.foldl_map]
  congr 1
  funext hints i
  cases i <;> rfl

theorem allocate_rename (p : Program) (frame : Frame) :
    (p.rename f).allocate frame =
      { p.allocate frame with program := (p.allocate frame).program.rename f } := by
  unfold allocate
  rw [hints_rename]
  rfl

end Program

end Flow

/-- The slot begins to load a descriptor. -/
def Slot.LoadsMap (s : Slot) : Prop := s.isWide ∧ s.src = mapMark

/-- Two lists that agree at every place, except that one loads a descriptor where the other loads
the descriptor that corresponds to it. Nothing else is loaded in this way. -/
inductive Rebound {α : Type} (R : MapId → MapId → Prop) (load : Reg → MapId → List α)
    (plain : α → Prop) : List α → List α → Prop
  | nil : Rebound R load plain [] []
  | same {xs ys : List α} {x : α} : plain x → Rebound R load plain xs ys →
      Rebound R load plain (x :: xs) (x :: ys)
  | loads {xs ys : List α} {id id' : MapId} (r : Reg) : R id id' → Rebound R load plain xs ys →
      Rebound R load plain (load r id ++ xs) (load r id' ++ ys)

namespace Rebound

variable {α : Type} {R : MapId → MapId → Prop} {load : Reg → MapId → List α} {plain : α → Prop}
  {xs ys : List α}

theorem refl (h : ∀ x ∈ xs, plain x) : Rebound R load plain xs xs := by
  induction xs with
  | nil => exact .nil
  | cons x xs ih =>
    exact .same (h x List.mem_cons_self) (ih fun y hy => h y (List.mem_cons_of_mem _ hy))

theorem append {xs' ys' : List α} (h : Rebound R load plain xs ys)
    (h' : Rebound R load plain xs' ys') : Rebound R load plain (xs ++ xs') (ys ++ ys') := by
  induction h with
  | nil => exact h'
  | same hx _ ih => exact .same hx ih
  | loads r hr _ ih =>
    rw [List.append_assoc, List.append_assoc]
    exact .loads r hr ih

theorem length_eq (hload : ∀ r id id', (load r id).length = (load r id').length)
    (h : Rebound R load plain xs ys) : xs.length = ys.length := by
  induction h with
  | nil => rfl
  | same _ _ ih => rw [List.length_cons, List.length_cons, ih]
  | @loads _ _ id id' r _ _ ih => rw [List.length_append, List.length_append, ih, hload r id id']

end Rebound

namespace Emit

open TraceScript.Flow

section

variable {W : UInt8 → Prop}

theorem not_loadsMap_of_code {s : Slot} (h : s.isWide = false) : ¬s.LoadsMap := fun hs => by
  rw [hs.1] at h
  cases h

theorem not_loadsMap_of_straight {s : Slot} (h : s.Straight W) : ¬s.LoadsMap := by
  have hplain := h.plain
  simp only [Slot.isPlain, Bool.and_eq_true, Bool.not_eq_true'] at hplain
  exact not_loadsMap_of_code hplain.2

theorem not_loadsMap_of_isTest {s : Slot} (h : s.isTest) : ¬s.LoadsMap := by
  rintro ⟨hwide, -⟩
  have hcode : s.code = Slot.wideCode := beq_iff_eq.1 hwide
  have htest : (Slot.mk s.code 0 0 0 0).isTest := h
  rw [hcode] at htest
  exact absurd htest (by decide)

theorem not_loadsMap_of_piece {ss : List Slot} (h : Piece [] W ss) : ∀ s ∈ ss, ¬s.LoadsMap := by
  cases h with
  | straight hs =>
    intro x hx
    obtain rfl := List.mem_singleton.1 hx
    exact not_loadsMap_of_straight hs
  | wide value =>
    intro x hx
    rcases List.mem_cons.1 hx with rfl | hx
    · exact fun h => absurd h.2 (by change ¬(0 : UInt8) = 1; decide)
    · obtain rfl := List.mem_singleton.1 hx
      exact not_loadsMap_of_code rfl
  | map hid => cases hid
  | skip htest _ hall =>
    intro x hx
    rcases List.mem_cons.1 hx with rfl | hx
    · exact not_loadsMap_of_isTest htest.isTest
    · exact not_loadsMap_of_straight (hall x hx)
  | choose htest _ hd =>
    intro x hx
    rcases List.mem_cons.1 hx with rfl | hx
    · exact not_loadsMap_of_isTest htest.isTest
    rcases List.mem_cons.1 hx with rfl | hx
    · exact not_loadsMap_of_straight (Slot.straight_movImm _ hd)
    rcases List.mem_cons.1 hx with rfl | hx
    · exact not_loadsMap_of_code rfl
    · obtain rfl := List.mem_singleton.1 hx
      exact not_loadsMap_of_straight (Slot.straight_movImm _ hd)

/-- A draft of a slot that does not load a descriptor. -/
def Unmarked (d : Draft) : Prop := ¬d.slot.LoadsMap

theorem admits_unmarked (a : Allocation) :
    (Scope.each fun s => ¬s.LoadsMap).Admits a [] fun _ => True :=
  ⟨usable_all a, fun _ hp => not_loadsMap_of_piece hp, fun _ => trivial⟩

theorem unmarked_of_written {m : Ceiling → Emit Unit}
    (h : Written (.each fun s => ¬s.LoadsMap) (fun _ => True) m) (hm : Succeeds (m .unlimited)) :
    ∀ d ∈ drafts (m .unlimited), Unmarked d := (h.row hm).each

theorem unmarked_instruction {a : Allocation} {i : Instruction} (hmaps : i.maps = [])
    (hi : Succeeds (instruction a i)) : ∀ d ∈ drafts (instruction a i), Unmarked d := by
  refine unmarked_of_written (m := fun _ => instruction a i) (written_each (admits_unmarked a)
    (fun x hx => ?_) (not_loadsMap_of_code rfl) (fun r => not_loadsMap_of_isTest ?_)
    (not_loadsMap_of_code rfl)) hi
  · rwa [hmaps] at hx
  · exact (Slot.tests_jumpImm .ne ..).isTest

end

variable {R : MapId → MapId → Prop} {f g : MapId → MapId}

/-- The drafts that load a descriptor. -/
def loadId (r : Reg) (id : MapId) : List Draft := (Slot.loadId r id).map draft

theorem rebound_instruction {a : Allocation} {i : Instruction} (h : ∀ x ∈ i.maps, R (f x) (g x))
    (hi : Succeeds (instruction a (i.rename f))) :
    Rebound R loadId Unmarked (drafts (instruction a (i.rename f)))
      (drafts (instruction a (i.rename g))) := by
  have hk := admits_unmarked a
  cases i with
  | update map key value =>
    refine .loads 1 (h map List.mem_cons_self) (.refl (unmarked_of_written (m := fun _ => do
      pointer 2 key
      pointer 3 value
      push (.movImm 4 0)
      push (.call KernelFunction.mapUpdate)) ?_ ⟨_, _, rfl⟩))
    exact .seq (written_pointer hk (by decide) _) fun _ =>
      .seq (written_pointer hk (by decide) _) fun _ =>
      .seq (written_movImm hk _ trivial) fun _ => written_call hk _
  | lookup map key value size =>
    refine .loads 1 (h map List.mem_cons_self) (.refl (unmarked_of_written (m := fun _ => do
      pointer 2 key
      push (.call KernelFunction.mapLookup)
      push (.jumpImm Opcode.jeq 0 0 5)
      pointer 1 value
      push (.movImm 2 (Int32.ofNat size))
      push (.movReg 3 0)
      push (.call KernelFunction.probeRead)) ?_ ⟨_, _, rfl⟩))
    exact .seq (written_pointer hk (by decide) _) fun _ => .seq (written_call hk _) fun _ =>
      written_copyFound hk value size
  | call helper dst =>
    cases helper with
    | out addr size map =>
      refine .same (not_loadsMap_of_code rfl) (.same (not_loadsMap_of_code rfl)
        (.same (not_loadsMap_of_code rfl) (.loads 2 (h map List.mem_cons_self)
          (.refl (unmarked_of_written (m := fun _ => do
            pointer 4 addr
            push (.movImm 5 (Int32.ofNat size))
            push (.call KernelFunction.eventOutput)) ?_ ⟨_, _, rfl⟩)))))
      exact .seq (written_pointer hk (by decide) _) fun _ =>
        .seq (written_movImm hk _ trivial) fun _ => written_call hk _
    | _ => exact .refl (unmarked_instruction rfl hi)
  | _ => exact .refl (unmarked_instruction rfl hi)

theorem rebound_codeDrafts {a : Allocation} {is : List Instruction}
    (h : ∀ i ∈ is, ∀ x ∈ i.maps, R (f x) (g x))
    (hall : ∀ i ∈ is.map (Instruction.rename f), Succeeds (instruction a i)) :
    Rebound R loadId Unmarked (codeDrafts a (is.map (Instruction.rename f)))
      (codeDrafts a (is.map (Instruction.rename g))) := by
  induction is with
  | nil => exact .nil
  | cons i is ih =>
    exact (rebound_instruction (h i List.mem_cons_self) (hall _ List.mem_cons_self)).append
      (ih (fun j hj => h j (List.mem_cons_of_mem _ hj)) fun j hj => hall j (List.mem_cons_of_mem _ hj))

theorem codeOf_take_rename (f : MapId → MapId) (p : Program) (b : Nat) :
    codeOf ((p.rename f).blocks.toList.take b) =
      (codeOf (p.blocks.toList.take b)).map (Instruction.rename f) := by
  rw [codeOf, codeOf, Program.rename, Array.toList_map, ← List.map_take, List.flatMap_map,
    List.map_flatMap]
  congr 1
  funext b
  exact Array.toList_map

/-- Every draft of a list is aimed, at the places from one on. -/
inductive AimedAt (starts : Array Nat) : Nat → List Draft → List Slot → Prop
  | nil {k : Nat} : AimedAt starts k [] []
  | cons {k : Nat} {d : Draft} {s : Slot} {ds : List Draft} {ss : List Slot} :
      aim starts k d = .ok s → AimedAt starts (k + 1) ds ss → AimedAt starts k (d :: ds) (s :: ss)

theorem aimedAt_of_slots {starts : Array Nat} {k : Nat} {ds : List Draft} {ss : List Slot}
    (hlength : ss.length = ds.length) (h : ∀ (j : Nat) (d : Draft), ds[j]? = some d →
      ∃ s, aim starts (k + j) d = .ok s ∧ ss[j]? = some s) : AimedAt starts k ds ss := by
  induction ds generalizing k ss with
  | nil =>
    obtain rfl := List.length_eq_zero_iff.1 hlength
    exact .nil
  | cons d ds ih =>
    cases ss with
    | nil => cases hlength
    | cons s ss =>
      obtain ⟨s', haim, hs⟩ := h 0 d rfl
      obtain rfl : s = s' := Option.some.inj hs
      refine .cons haim (ih (Nat.succ.inj hlength) fun j d' hd => ?_)
      obtain ⟨s', haim', hs'⟩ := h (j + 1) d' hd
      exact ⟨s', by rw [Nat.add_right_comm]; exact haim', hs'⟩

theorem AimedAt.loadId {starts : Array Nat} {k : Nat} {r : Reg} {id : MapId} {ds : List Draft}
    {ss : List Slot} (h : AimedAt starts k (loadId r id ++ ds) ss) :
    ∃ rest, ss = Slot.loadId r id ++ rest ∧ AimedAt starts (k + 2) ds rest := by
  cases h with
  | cons hlower h =>
    cases h with
    | cons hupper h =>
      obtain rfl := Except.ok.inj hlower
      obtain rfl := Except.ok.inj hupper
      exact ⟨_, rfl, h⟩

theorem Unmarked.aim {starts : Array Nat} {k : Nat} {d : Draft} {s : Slot} (h : Unmarked d)
    (haim : aim starts k d = .ok s) : ¬s.LoadsMap := by
  rcases aim_ok haim with ⟨-, rfl⟩ | ⟨_, _, -, -, -, hs⟩
  · exact h
  · rw [hs]
    exact h

theorem rebound_of_aimedAt {starts : Array Nat} {k : Nat} {ds ds' : List Draft} {ss ss' : List Slot}
    (h : Rebound R loadId Unmarked ds ds') (hs : AimedAt starts k ds ss)
    (hs' : AimedAt starts k ds' ss') : Rebound R Slot.loadId (¬Slot.LoadsMap ·) ss ss' := by
  induction h generalizing k ss ss' with
  | nil =>
    cases hs
    cases hs'
    exact .nil
  | same hx _ ih =>
    cases hs with
    | cons haim hs =>
      cases hs' with
      | cons haim' hs' =>
        obtain rfl := Except.ok.inj (haim.symm.trans haim')
        exact .same (hx.aim haim) (ih hs hs')
  | loads r hr _ ih =>
    obtain ⟨rest, rfl, hrest⟩ := hs.loadId
    obtain ⟨rest', rfl, hrest'⟩ := hs'.loadId
    exact .loads r hr (ih hrest hrest')

end Emit

theorem Bytecode.Generated.rebound {R : MapId → MapId → Prop} {f g : MapId → MapId}
    {p : Flow.Program} {a : Flow.Allocation} {code code' : Array Slot}
    (h : Generated (p.rename f) a code) (h' : Generated (p.rename g) a code')
    (hids : ∀ i ∈ p.instructions, ∀ x ∈ i.maps, R (f x) (g x)) :
    Rebound R Slot.loadId (¬Slot.LoadsMap ·) code.toList code'.toList := by
  have hsucceeds := h.succeeds
  rw [Flow.Program.instructions_rename] at hsucceeds
  have hlayout : Rebound R Emit.loadId Emit.Unmarked (Emit.layout a (p.rename f))
      (Emit.layout a (p.rename g)) := by
    rw [Emit.layout, Emit.layout, Flow.Program.instructions_rename, Flow.Program.instructions_rename]
    exact .same (Emit.not_loadsMap_of_code rfl) (Emit.rebound_codeDrafts hids hsucceeds)
  have hstarts : ((List.range (p.rename f).blocks.size).map (Emit.startOf a (p.rename f))).toArray =
      ((List.range (p.rename g).blocks.size).map (Emit.startOf a (p.rename g))).toArray := by
    have hsize : (p.rename f).blocks.size = (p.rename g).blocks.size := by
      rw [Flow.Program.rename, Flow.Program.rename, Array.size_map, Array.size_map]
    rw [hsize]
    congr 2
    funext b
    rw [Emit.startOf, Emit.startOf, Emit.codeOf_take_rename, Emit.codeOf_take_rename]
    congr 1
    have htake : ∀ i ∈ Emit.codeOf (p.blocks.toList.take b), i ∈ p.instructions := by
      intro i hi
      obtain ⟨block, hblock, hi⟩ := List.mem_flatMap.1 hi
      exact List.mem_flatMap.2 ⟨block, List.mem_of_mem_take hblock, hi⟩
    refine Rebound.length_eq (fun _ _ _ => rfl)
      (Emit.rebound_codeDrafts (fun i hi => hids i (htake i hi)) fun i hi => ?_)
    obtain ⟨j, hj, rfl⟩ := List.mem_map.1 hi
    exact hsucceeds _ (List.mem_map_of_mem (htake j hj))
  have haimed : Emit.AimedAt _ 0 _ code.toList := Emit.aimedAt_of_slots
    (by rw [Array.length_toList]; exact h.size) fun j d hd => by
      rw [Nat.zero_add, Array.getElem?_toList]
      exact h.slots j d hd
  have haimed' : Emit.AimedAt _ 0 _ code'.toList := Emit.aimedAt_of_slots
    (by rw [Array.length_toList]; exact h'.size) fun j d hd => by
      rw [Nat.zero_add, Array.getElem?_toList]
      exact h'.slots j d hd
  rw [← hstarts] at haimed'
  exact Emit.rebound_of_aimedAt hlayout haimed haimed'

end TraceScript
