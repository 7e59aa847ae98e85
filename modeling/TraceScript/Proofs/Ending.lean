import TraceScript.Proofs.Assembled
import TraceScript.Proofs.Graph

namespace TraceScript

namespace Node

mutual

/-- The number of branches inside the last branch of a statement's program, if it has any. -/
def insideLast : Node → Option Nat
  | .cond _ _ yes no => some (branchesAll yes + branchesAll no)
  | .unroll _ count body => if count = 0 then none else insideLastAll body
  | _ => none

def insideLastAll : List Node → Option Nat
  | [] => none
  | n :: ns => (insideLastAll ns).or n.insideLast

end

mutual

theorem spread_after : ∀ (n : Node) (k : Nat),
    n.spread.after k = (n.insideLast.map (3 * ·)).getD k
  | .cond _ _ yes no, k => by
    simp [spread, Flow.Spread.fork, insideLast, spreadAll_branches]
  | .unroll _ count body, k => by
    have hbody := spreadAll_after body
    simp only [spread, Flow.Spread.times, insideLast]
    cases count with
    | zero => rfl
    | succ count =>
      rw [if_neg count.succ_ne_zero, Function.iterate_succ_apply', hbody]
      cases hlast : insideLastAll body with
      | some m => rfl
      | none =>
        have hid : (spreadAll body).after = id := funext fun j => by rw [hbody, hlast]; rfl
        rw [hid, Function.iterate_id]
        rfl
  | .declaration .., _ | .assignment .., _ | .var .., _ | .mapAccess .., _ | .int .., _
  | .text .., _ | .call .., _ | .binary .., _ | .record .., _ => rfl

theorem spreadAll_after : ∀ (ns : List Node) (k : Nat),
    (spreadAll ns).after k = ((insideLastAll ns).map (3 * ·)).getD k
  | [], _ => rfl
  | n :: ns, k => by
    simp only [spreadAll, Flow.Spread.seq, Function.comp, insideLastAll]
    rw [spreadAll_after ns, spread_after n]
    cases insideLastAll ns <;> rfl

end

end Node

theorem PlacedStatement.spread_eq {t : Table} {n n' : Node} {rs : List Region}
    (h : PlacedStatement t n n' rs) : n'.spread = n.spread := by
  have hall : ∀ ks : List Placing, (∀ k ∈ ks, k.placed.spread = k.node.spread) →
      Node.spreadAll (ks.map Placing.placed) = Node.spreadAll (ks.map Placing.node) := by
    intro ks hks
    induction ks with
    | nil => rfl
    | cons k ks ih =>
      simp only [List.map_cons, Node.spreadAll]
      rw [hks k List.mem_cons_self, ih fun j hj => hks j (List.mem_cons_of_mem _ hj)]
  induction h with
  | cond _ _ _ _ ihyes ihno => simp only [Node.spread, hall _ ihyes, hall _ ihno]
  | unroll _ ih => simp only [Node.spread, hall _ ih]
  | _ => rfl

namespace Prepared

theorem spread_eq {bound table : Table} {typed placed : Probe} {ks : List Placing}
    (h : Prepared bound table typed placed ks) :
    Node.spreadAll placed.body = Node.spreadAll typed.body := by
  rw [h.nodes, h.placed]
  have hks := h.statements
  clear h
  induction ks with
  | nil => rfl
  | cons k ks ih =>
    simp only [List.map_cons, Node.spreadAll]
    rw [(hks k List.mem_cons_self).spread_eq, ih fun j hj => hks j (List.mem_cons_of_mem _ hj)]

end Prepared

namespace Flow

open Instruction

namespace Program

theorem instructions_of_last {p : Program} {n : Nat} {c : List Instruction} {i : Instruction}
    (hsize : p.blocks.size = n + 1) (hcode : p.codeAt n = c ++ [i]) :
    ∃ c', p.instructions = c' ++ [i] := by
  have hn : n < p.blocks.toList.length := by
    rw [Array.length_toList, hsize]
    exact Nat.lt_succ_self n
  have hlast := codeAt_of_getElem? (List.getElem?_eq_getElem hn)
  have hdrop : p.blocks.toList.drop (n + 1) = [] := List.drop_eq_nil_of_le (by simp [hsize])
  have hsplit : p.blocks.toList = p.blocks.toList.take n ++ [p.blocks.toList[n]] := by
    rw [← hdrop, ← List.drop_eq_getElem_cons hn, List.take_append_drop]
  refine ⟨(p.blocks.toList.take n).flatMap (·.code.toList) ++ c, ?_⟩
  rw [List.append_assoc, ← hcode, hlast, instructions]
  conv => lhs; rw [hsplit]
  simp

end Program

/-- The last instruction is the return if no blocks follow the one that is built last, and a jump
otherwise. -/
theorem instructions_of_ofProbe {t : Table} {p : Probe} {built : Built}
    (h : ofProbe t p = .ok built) :
    ∃ c i, built.program.instructions = c ++ [i] ∧
      (if (Node.spreadAll p.body).after 0 = 0 then i = .ret else i.targets ≠ []) := by
  obtain ⟨s, hshape, hprogram⟩ := ofProbe_shaped h
  have hstart := Builder.open_start p.name.value
  have hopen := (hshape.opens hstart).1
  have hafter := (hshape.measures hstart).after
  have hzero : (Builder.start p.name.value).size - ((Builder.start p.name.value).here + 1) = 0 := rfl
  rw [hzero] at hafter
  have hsize : built.program.blocks.size = s.size := hprogram ▸ s.size_finish .ret
  have hcode : ∀ b, built.program.codeAt b = _ := fun b =>
    (congrArg (Program.codeAt · b) hprogram).trans (Builder.codeAt_finish hopen.current .ret b)
  split
  · rename_i hnone
    have hhere := hcode s.here
    rw [if_pos rfl] at hhere
    obtain ⟨c, hc⟩ := Program.instructions_of_last (by rw [hsize, hafter, hnone]) hhere
    exact ⟨c, .ret, hc, rfl⟩
  · rename_i hsome
    have hlast := hcode (s.size - 1)
    rw [if_neg (by omega)] at hlast
    obtain ⟨c, i, hc, htargets, -⟩ := hshape.ended (b := s.size - 1) (by omega) (by omega)
    obtain ⟨c', hc'⟩ := Program.instructions_of_last (n := s.size - 1) (by rw [hsize]; omega)
      (hlast.trans hc)
    exact ⟨c', i, hc', htargets⟩

end Flow

open TraceScript.Flow

namespace Emit

theorem drafts_of_final {a : Allocation} {i : Instruction} (hfinal : i.isFinal)
    (hi : Succeeds (instruction a i)) :
    ∃ ds d, drafts (instruction a i) = ds ++ [d] ∧
      (if i = .ret then d = { slot := .exit } else d.slot = .jump 0) := by
  cases i with
  | branch cond yes no =>
    obtain ⟨ds, -, hdrafts⟩ := drafts_branch hi
    exact ⟨ds.toList ++ [_], { slot := .jump 0, target := some no },
      hdrafts.trans (List.append_cons ..), rfl⟩
  | jump target => exact ⟨[], _, rfl, rfl⟩
  | ret => exact ⟨[{ slot := .movImm 0 0 }], _, rfl, rfl⟩
  | _ => cases hfinal

end Emit

namespace Bytecode

theorem Generated.back {p : Program} {a : Allocation} {code : Array Slot}
    (h : Generated p a code) {c : List Instruction} {i : Instruction}
    (hlast : p.instructions = c ++ [i]) (hfinal : i.isFinal) :
    ∃ s, code.back? = some s ∧ (if i = .ret then s = .exit else ∃ off, s = .jump off) := by
  obtain ⟨ds, d, hdrafts, hd⟩ := Emit.drafts_of_final hfinal
    (h.succeeds i (by rw [hlast]; exact List.mem_append_right _ List.mem_cons_self))
  have hlayout : Emit.layout a p =
      ({ slot := .movReg Reg.context 1 } :: Emit.codeDrafts a c ++ ds) ++ [d] := by
    have hi : Emit.codeDrafts a [i] = ds ++ [d] := (List.flatMap_singleton ..).trans hdrafts
    rw [Emit.layout, hlast, Emit.codeDrafts_append, hi]
    simp
  generalize ({ slot := .movReg Reg.context 1 } :: Emit.codeDrafts a c ++ ds : List Draft) = es
    at hlayout
  have hget : (Emit.layout a p)[es.length]? = some d := by
    rw [hlayout, List.getElem?_append_right (Nat.le_refl _), Nat.sub_self]
    rfl
  obtain ⟨s, haim, hs⟩ := h.slots _ _ hget
  refine ⟨s, ?_, ?_⟩
  · have hsize : code.size - 1 = es.length := by
      rw [h.size, hlayout]
      simp
    rw [Array.back?_eq_getElem?, hsize]
    exact hs
  · split at hd
    · rename_i hret
      obtain ⟨-, rfl⟩ | ⟨b, -, hb, -⟩ := Emit.aim_ok haim
      · rw [if_pos hret, hd]
      · rw [hd] at hb
        cases hb
    · rename_i hret
      rw [if_neg hret]
      obtain ⟨-, rfl⟩ | ⟨b, start, -, -, -, hs⟩ := Emit.aim_ok haim
      · exact ⟨0, hd⟩
      · rw [hd] at hs
        exact ⟨s.off, hs⟩

end Bytecode

namespace Flow

theorem back_of_assemble {p : Program} {frame : Frame} {limit : Nat} {b : Bytecode}
    (h : p.assemble frame limit = .ok b) {c : List Instruction} {i : Instruction}
    (hlast : p.instructions = c ++ [i]) (hfinal : i.isFinal) :
    ∃ s, b.code.back? = some s ∧ (if i = .ret then s = .exit else ∃ off, s = .jump off) := by
  have hinstructions := p.instructions_allocate frame
  rw [hlast, List.flatMap_append, List.flatMap_singleton, Instruction.twoAddress_of_final hfinal]
    at hinstructions
  exact (Bytecode.generate_ok h).1.back hinstructions hfinal

end Flow

namespace Compile

/-- The machine code of a probe ends in `exit` if no branch is inside the last one, and is then
accepted as long as its frame fits. Otherwise it ends in a jump and is turned down. -/
theorem loadProgram_of_codeOf {σ : Type} {k : Kernel σ} {options : Options} {source : Source}
    {typed placed : Probe} {bound table : Table} {s s' : Session σ} {code : Code}
    (h : Prepares k options source typed bound placed table)
    (hcode : (codeOf options bound typed).run s = .ok code s')
    (hstack : code.bytecode.stack ≤ DryRun.stackSize) (d : DryRun) (name : String) :
    if (Node.insideLastAll typed.body).getD 0 = 0 then
      code.bytecode.code.back? = some .exit ∧
        (d.loadProgram name code.bytecode).result = .ok ⟨d.nextDescriptor⟩
    else
      (∃ off, code.bytecode.code.back? = some (.jump off)) ∧
        (d.loadProgram name code.bytecode).result =
          .error (.rejected name "last insn is not an exit or jmp") := by
  obtain ⟨ks, hprep⟩ := h.prepared
  obtain ⟨-, -, -, -, -, -, -, hplaced⟩ := h
  obtain ⟨built, hbuilt, hb⟩ := codeOf_ok hcode hplaced
  obtain ⟨c, i, hlast, hi⟩ := instructions_of_ofProbe hbuilt
  have hafter : (Node.spreadAll placed.body).after 0 = 3 * (Node.insideLastAll typed.body).getD 0 := by
    rw [hprep.spread_eq, Node.spreadAll_after]
    cases Node.insideLastAll typed.body <;> rfl
  have hzero : 3 * (Node.insideLastAll typed.body).getD 0 = 0 ↔
      (Node.insideLastAll typed.body).getD 0 = 0 := by omega
  rw [hafter] at hi
  simp only [hzero] at hi
  unfold DryRun.loadProgram
  rw [if_neg (Nat.not_lt.2 hstack)]
  split
  · rename_i hnone
    rw [if_pos hnone] at hi
    subst hi
    obtain ⟨slot, hback, rfl⟩ := back_of_assemble hb hlast rfl
    refine ⟨hback, ?_⟩
    rw [DryRun.endsInExit, hback]
    rfl
  · rename_i hsome
    rw [if_neg hsome] at hi
    have hret : i ≠ .ret := fun heq => hi (heq ▸ rfl)
    have hfinal : i.isFinal := by cases i <;> first | rfl | exact (hi rfl).elim
    obtain ⟨slot, hback, hslot⟩ := back_of_assemble hb hlast hfinal
    rw [if_neg hret] at hslot
    obtain ⟨off, rfl⟩ := hslot
    refine ⟨⟨off, hback⟩, ?_⟩
    rw [DryRun.endsInExit, hback]
    rfl

/-- A branch inside another one. -/
def innerBranch : Source where
  name := "inner"
  lines := ["probe p \x7b if (pid()) \x7b if (tid()) \x7b out(\"%d\", 1); \x7d \x7d \x7d"]

/-- Its code is generated and its frame fits, but no kernel state accepts it. -/
theorem innerBranch_rejected :
    ∃ typed bound placed table code, ∃ s s' : Session DryRun,
      Prepares DryRun.kernel {} innerBranch typed bound placed table ∧
      (codeOf {} bound typed).run s = .ok code s' ∧ code.bytecode.stack ≤ DryRun.stackSize ∧
      code.bytecode.code.back? ≠ some .exit ∧
      ∀ (d : DryRun) (name : String), (d.loadProgram name code.bytecode).result =
        .error (.rejected name "last insn is not an exit or jmp") := by
  have hprepares : ∃ typed bound placed table,
      Prepares DryRun.kernel {} innerBranch typed bound placed table ∧
      typed.place.run bound = (placed, table) ∧
      (Flow.ofProbe table placed).toOption.any (fun built =>
        (built.program.assembleInOrder table.frame 4096).toOption.any fun b =>
          b.stack ≤ DryRun.stackSize && !DryRun.endsInExit b) := by
    apply Compile.exists_prepares (s := { kernel := {} })
    · conv => lhs; cbv
    · conv => lhs; cbv
    · exact rfl
    · exact ⟨rfl, by decide +kernel⟩
  obtain ⟨typed, bound, placed, table, hp, hplaced, heval⟩ := hprepares
  obtain ⟨code, s', hcode, hq⟩ := codeOf_of_evaluated {} { kernel := ({} : DryRun) } hplaced heval
  rw [Bool.and_eq_true, decide_eq_true_eq, Bool.not_eq_true'] at hq
  refine ⟨typed, bound, placed, table, code, _, s', hp, hcode, hq.1, ?_, fun d name => ?_⟩
  · intro hback
    rw [DryRun.endsInExit, hback] at hq
    cases hq.2
  · rw [DryRun.loadProgram, if_neg (Nat.not_lt.2 hq.1), hq.2]
    rfl

/-- A branch inside another one, followed by one with none inside. -/
def outerBranch : Source where
  name := "outer"
  lines :=
    ["probe p \x7b if (pid()) \x7b if (tid()) \x7b x = 1; \x7d \x7d " ++
      "if (cpu()) \x7b out(\"%d\", 1); \x7d \x7d"]

theorem outerBranch_loaded :
    ∃ typed bound placed table code, ∃ s s' : Session DryRun,
      Prepares DryRun.kernel {} outerBranch typed bound placed table ∧
      (codeOf {} bound typed).run s = .ok code s' ∧ code.bytecode.stack ≤ DryRun.stackSize ∧
      code.bytecode.code.back? = some .exit ∧ ∀ (d : DryRun) (name : String),
        (d.loadProgram name code.bytecode).result = .ok ⟨d.nextDescriptor⟩ := by
  have hprepares : ∃ typed bound placed table,
      Prepares DryRun.kernel {} outerBranch typed bound placed table ∧
      typed.place.run bound = (placed, table) ∧ (Node.insideLastAll typed.body).getD 0 = 0 ∧
      (Flow.ofProbe table placed).toOption.any (fun built =>
        (built.program.assembleInOrder table.frame 4096).toOption.any fun b =>
          b.stack ≤ DryRun.stackSize) := by
    apply Compile.exists_prepares (s := { kernel := {} })
    · conv => lhs; cbv
    · conv => lhs; cbv
    · exact rfl
    · exact ⟨rfl, by decide +kernel, by decide +kernel⟩
  obtain ⟨typed, bound, placed, table, hp, hplaced, hinside, heval⟩ := hprepares
  obtain ⟨code, s', hcode, hq⟩ := codeOf_of_evaluated {} { kernel := ({} : DryRun) } hplaced heval
  have hloads := loadProgram_of_codeOf hp hcode (of_decide_eq_true hq)
  simp only [if_pos hinside] at hloads
  exact ⟨typed, bound, placed, table, code, _, s', hp, hcode, of_decide_eq_true hq,
    (hloads {} "").1, fun d name => (hloads d name).2⟩

end Compile

end TraceScript
