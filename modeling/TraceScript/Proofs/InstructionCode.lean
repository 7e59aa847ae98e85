import TraceScript.Proofs.MachineMirror

namespace TraceScript

open TraceScript.Flow

namespace Flow

theorem Allocation.Roomy.scratch_fresh {a : Allocation} {stack : Nat} {ps : List Region}
    (hroom : a.Roomy stack ps) (t : Temp) {v : UInt64} :
    Emit.scratch₂ ∉ [(a.register t Emit.scratch₁, v)].map Prod.fst := by
  intro hmem
  have heq : Emit.scratch₂ = a.register t Emit.scratch₁ := List.mem_singleton.1 hmem
  rcases a.register_cases t Emit.scratch₁ with h | h
  · rw [h] at heq
    exact absurd heq (by decide)
  · have hbounds := hroom.register_bounds h
    rw [← heq] at hbounds
    exact absurd hbounds.1 (by decide)

/-- The temporaries that are needed before and after an instruction. What is needed after it is
defined by it or was needed before, and shares no register with what is defined. -/
structure Instruction.Passes (a : Allocation) (i : Instruction) (L L' : Temp → Prop) : Prop where
  uses : ∀ t ∈ i.uses, L t
  kept : ∀ t, L' t → i.def? ≠ some t → L t
  apart : ∀ t x, L' t → i.def? = some x → t ≠ x → ∀ r, a.home t = some (.reg r) →
    a.home x ≠ some (.reg r)

namespace Instruction.Passes

variable {a : Allocation} {i : Instruction} {L L' : Temp → Prop} {x : Temp}

theorem before (h : i.Passes a L L') (hx : i.def? = some x) (t : Temp) (ht : L' t ∧ t ≠ x) : L t :=
  h.kept t ht.1 fun hdef => ht.2 (Option.some.inj (hdef.symm.trans hx))

theorem before_of_none (h : i.Passes a L L') (hx : i.def? = none) (t : Temp) (ht : L' t) : L t :=
  h.kept t ht fun hdef => by cases hdef.symm.trans hx

/-- The register in which a temporary is computed holds nothing that is needed afterwards. -/
theorem idle (h : i.Passes a L L') {stack : Nat} {ps : List Region} (hroom : a.Roomy stack ps)
    (hx : i.def? = some x) : a.Idle (fun t => L' t ∧ t ≠ x) (a.register x Emit.scratch₁) := by
  rcases a.register_cases x Emit.scratch₁ with heq | hhome
  · rw [heq]
    exact hroom.idle_of_low _ (by decide)
  · refine ⟨(hroom.register_bounds hhome).2, fun t q ht hq heq => ?_⟩
    subst heq
    exact h.apart t x ht.1 hx ht.2 _ hq hhome

end Instruction.Passes

end Flow

namespace Emit

open Machine (Env Action IsWidth Runs)

variable {e : Env} {a : Allocation} {stack : Nat} {ps : List Region} {L L' : Temp → Prop}
  {σ : Flow.State} {P Q : Machine.State → Prop} {α β : Type} {x : Temp} {v : UInt64}

namespace CarriesBy

theorem load {width : Nat} (hw : IsWidth width) {d : Reg} {addr : Int}
    (haddr : (Int16.ofInt addr).toInt = addr)
    (h : ∀ m, P m → m.regs Reg.frame = e.frame ∧ Q (m.set d (Bytes.toWord (m.memory.read addr width)))) :
    Carries e P Q () (Emit.push (.load (widthCode width) d Reg.frame (Int16.ofInt addr))) := by
  refine .push (Slot.action_load _ _ _ hw) fun m hm => ?_
  obtain ⟨hframe, hq⟩ := h m hm
  refine ⟨_, fun _ => rfl, ?_⟩
  rwa [e.place_address hframe haddr]

theorem store {width : Nat} (hw : IsWidth width) {s : Reg} {addr : Int}
    (haddr : (Int16.ofInt addr).toInt = addr)
    (h : ∀ m, P m → m.regs Reg.frame = e.frame ∧
      Q (m.write addr (Bytes.ofNat width (m.regs s).toNat))) :
    Carries e P Q () (Emit.push (.store (widthCode width) Reg.frame s (Int16.ofInt addr))) := by
  refine .push (Slot.action_store _ _ _ hw) fun m hm => ?_
  obtain ⟨hframe, hq⟩ := h m hm
  refine ⟨_, fun _ => rfl, ?_⟩
  rwa [e.place_address hframe haddr]

theorem loadWord {d : Reg} {addr : Int} (haddr : (Int16.ofInt addr).toInt = addr)
    (h : ∀ m, P m → m.regs Reg.frame = e.frame ∧ Q (m.set d (Bytes.toWord (m.memory.read addr 8)))) :
    Carries e P Q () (Emit.push (.load Opcode.double d Reg.frame (Int16.ofInt addr))) :=
  load (.inl rfl : IsWidth 8) haddr h

theorem storeWord {s : Reg} {addr : Int} (haddr : (Int16.ofInt addr).toInt = addr)
    (h : ∀ m, P m → m.regs Reg.frame = e.frame ∧ Q (m.write addr (Bytes.ofWord (m.regs s)))) :
    Carries e P Q () (Emit.push (.store Opcode.double Reg.frame s (Int16.ofInt addr))) :=
  store (.inl rfl : IsWidth 8) haddr h

theorem move {d : Reg} {s : Slot} {right : Machine.Operand} (hs : s.action = some (.move d right))
    (h : ∀ m, P m → Q (m.set d (m.value right))) : Carries e P Q () (Emit.push s) :=
  .push hs fun m hm => ⟨_, fun _ => rfl, h m hm⟩

theorem arith {op : ArithOp} {d : Reg} {s : Slot} {right : Machine.Operand}
    (hs : s.action = some (.arith op d right))
    (h : ∀ m, P m → Q (m.set d (op.apply (m.regs d) (m.value right)))) :
    Carries e P Q () (Emit.push s) :=
  .push hs fun m hm => ⟨_, fun _ => rfl, h m hm⟩

theorem call {function : Int32} {service : Machine.Service}
    (hs : Machine.services.lookup function = some service)
    (h : ∀ m, P m → ∃ m', service.run e m = some m' ∧ Q m') :
    Carries e P Q () (Emit.push (.call function)) := by
  refine .push (Slot.action_call function) fun m hm => ?_
  obtain ⟨m', hrun, hq⟩ := h m hm
  exact ⟨m', fun _ => by simp [Action.run, hs, hrun], hq⟩

end CarriesBy

/-- A state is mirrored, and some registers hold some values. -/
structure Holding (e : Env) (a : Allocation) (stack : Nat) (L : Temp → Prop) (σ : Flow.State)
    (vs : List (Reg × UInt64)) (m : Machine.State) : Prop where
  mirrors : Mirrors e a stack L σ m
  holds : ∀ d v, (d, v) ∈ vs → m.regs d = v

namespace Holding

variable {m : Machine.State} {vs ws : List (Reg × UInt64)} {d : Reg}

theorem of_mirrors (h : Mirrors e a stack L σ m) : Holding e a stack L σ [] m := ⟨h, nofun⟩

theorem mono (h : Holding e a stack L σ vs m) (hL : ∀ t, L' t → L t) (hvs : ws ⊆ vs) :
    Holding e a stack L' σ ws m :=
  ⟨h.mirrors.mono hL, fun d v hmem => h.holds d v (hvs hmem)⟩

theorem set (h : Holding e a stack L σ vs m) (hd : a.Idle L d) (hfresh : d ∉ vs.map Prod.fst)
    (v : UInt64) : Holding e a stack L σ ((d, v) :: vs) (m.set d v) := by
  refine ⟨h.mirrors.set hd v, fun r u hru => ?_⟩
  rcases List.mem_cons.1 hru with heq | hmem
  · obtain ⟨rfl, rfl⟩ := Prod.mk.inj heq
    exact m.regs_set ..
  · have hne : r ≠ d := by
      rintro rfl
      exact hfresh (List.mem_map_of_mem hmem)
    exact (Machine.State.regs_set_of_ne v hne).trans (h.holds r u hmem)

theorem set_only (h : Holding e a stack L σ vs m) (hd : a.Idle L d) (v : UInt64) :
    Holding e a stack L σ [(d, v)] (m.set d v) :=
  (of_mirrors h.mirrors).set hd nofun v

end Holding

section

variable {vs : List (Reg × UInt64)} {d r : Reg}

theorem carries_target : Carries e P P (a.register x scratch₁) (target a x) := by
  unfold target homeOf Allocation.register
  cases a.home x with
  | none => exact ⟨nofun⟩
  | some home => cases home <;> exact .pure fun _ h => h

theorem carries_move {s : Slot} {right : Machine.Operand} (hs : s.action = some (.move d right))
    (hd : a.Idle L d) (hfresh : d ∉ vs.map Prod.fst)
    (hv : ∀ m, Holding e a stack L σ vs m → m.value right = v) :
    Carries e (Holding e a stack L σ vs) (Holding e a stack L σ ((d, v) :: vs)) () (push s) :=
  .move hs fun m hm => hv m hm ▸ hm.set hd hfresh _

theorem carries_copyReg {l : Reg} (ws : List (Reg × UInt64)) (hd : a.Idle L d) (hl : (l, v) ∈ vs)
    (hws : ∀ p ∈ ws, p ∈ vs ∧ (p.1 = d → l = d)) :
    Carries e (Holding e a stack L σ vs) (Holding e a stack L σ ((d, v) :: ws)) () (copyReg d l) := by
  unfold copyReg
  split
  · rename_i heq
    subst heq
    refine .pure fun m hm => hm.mono (fun _ h => h) fun p hp => ?_
    rcases List.mem_cons.1 hp with rfl | hp
    · exact hl
    · exact (hws p hp).1
  · rename_i hne
    refine .move (Slot.action_movReg d l) fun m hm => ?_
    have hfresh : d ∉ ws.map Prod.fst := fun hmem => by
      obtain ⟨p, hp, rfl⟩ := List.mem_map.1 hmem
      exact hne ((hws p hp).2 rfl).symm
    have hvalue : m.value (.reg l) = v := hm.holds l v hl
    rw [hvalue]
    exact (hm.mono (fun _ h => h) fun p hp => (hws p hp).1).set hd hfresh v

theorem runs_choose {op : CompareOp} {l : Reg} {right : Machine.Operand} {s : Slot}
    (hs : s.action = some (.test op l right 2)) (m : Machine.State) :
    Runs e [s, .movImm d 0, .jump 1, .movImm d 1] m
      (m.set d (if op.holds (m.regs l) (m.value right) then 1 else 0)) := by
  by_cases hholds : op.holds (m.regs l) (m.value right)
  · rw [if_pos hholds]
    have hskip : Runs e [s, .movImm d 0, .jump 1] m m :=
      .passing hs fun _ => by simp [Action.run, hholds]
    exact hskip.append (.single (Slot.action_movImm d 1) fun _ => rfl)
  · rw [if_neg hholds]
    refine .cons (n := m) hs (fun _ => by simp [Action.run, hholds]) ?_
    refine .cons (Slot.action_movImm d 0) (fun _ => rfl) ?_
    exact .passing (Slot.action_jump 1) fun _ => rfl

variable (hroom : a.Roomy stack ps) (henv : e.Suits stack)

include hroom

theorem carries_read {t : Temp} {scratch : Reg} (ht : L t) (hs : scratch.val ≤ 5)
    (hfresh : scratch ∉ vs.map Prod.fst) :
    Carries e (Holding e a stack L σ vs)
      (Holding e a stack L σ ((a.register t scratch, σ.temps t) :: vs)) (a.register t scratch)
      (read a t scratch) := by
  unfold read homeOf Allocation.register
  cases hhome : a.home t with
  | none => exact ⟨nofun⟩
  | some home =>
    cases home with
    | reg r =>
      refine .pure fun m hm => ⟨hm.mirrors, fun d v hmem => ?_⟩
      rcases List.mem_cons.1 hmem with heq | hmem
      · obtain ⟨rfl, rfl⟩ := Prod.mk.inj heq
        exact hm.mirrors.temps t (.reg _) ht hhome
      · exact hm.holds d v hmem
    | spill addr =>
      refine .offset fun haddr => .bind (.loadWord haddr fun m hm => ⟨hm.mirrors.frame, ?_⟩)
        (.pure fun _ h => h)
      have hvalue : Bytes.toWord (m.memory.read addr 8) = σ.temps t :=
        hm.mirrors.temps t (.spill addr) ht hhome
      rw [hvalue]
      exact hm.set (hroom.idle_of_low L hs) hfresh _

include henv

theorem carries_writeBack :
    Carries e (Holding e a stack (fun t => L t ∧ t ≠ x) σ [(a.register x scratch₁, v)])
      (Mirrors e a stack L (σ.set x v)) () (writeBack a x (a.register x scratch₁)) := by
  have hholds : ∀ m, Holding e a stack (fun t => L t ∧ t ≠ x) σ [(a.register x scratch₁, v)] m →
      m.regs (a.register x scratch₁) = v := fun m hm => hm.holds _ _ List.mem_cons_self
  unfold writeBack homeOf
  cases hhome : a.home x with
  | none => exact ⟨nofun⟩
  | some home =>
    cases home with
    | reg r =>
      refine .pure fun m hm => hm.mirrors.define_reg hhome ?_
      simpa [Allocation.register, hhome, Home.register] using hholds m hm
    | spill addr =>
      refine .offset fun haddr => .storeWord haddr fun m hm => ⟨hm.mirrors.frame, ?_⟩
      rw [hholds m hm]
      exact hm.mirrors.define_spill hroom henv hhome

theorem carries_define {body : Reg → Emit Unit}
    (h : Carries e P (Holding e a stack (fun t => L t ∧ t ≠ x) σ [(a.register x scratch₁, v)]) ()
      (body (a.register x scratch₁))) :
    Carries e P (Mirrors e a stack L (σ.set x v)) () (do
      let d ← target a x
      body d
      writeBack a x d) :=
  .bind carries_target (.bind h (carries_writeBack hroom henv))

end

section

variable (hroom : a.Roomy stack ps) (henv : e.Suits stack)

include hroom henv

theorem carries_imm {value : Int64} (hpass : (Instruction.imm x value).Passes a L L') :
    Carries e (Mirrors e a stack L σ) (Mirrors e a stack L' (σ.set x value.toUInt64)) ()
      (instruction a (.imm x value)) := by
  have hset : ∀ m, Mirrors e a stack L σ m →
      Holding e a stack (fun t => L' t ∧ t ≠ x) σ [(a.register x scratch₁, value.toUInt64)]
        (m.set (a.register x scratch₁) value.toUInt64) := fun m hm =>
    (Holding.of_mirrors (hm.mono (hpass.before rfl))).set_only (hpass.idle hroom rfl) _
  refine .bind carries_target ?_
  split
  · rename_i hsmall
    refine .bind (.move (Slot.action_movImm ..) fun m hm => ?_) (carries_writeBack hroom henv)
    have hvalue : m.value (.imm value.toInt32) = value.toUInt64 := congrArg Int64.toUInt64 hsmall
    rw [hvalue]
    exact hset m hm
  · refine .bind (.pushAll fun m hm => ⟨_, .wide (Slot.action_wide ..) rfl, ?_⟩)
      (carries_writeBack hroom henv)
    have hhalves := ofNat_halves value
    rw [Slot.upperHalf, hhalves]
    exact hset m hm

theorem carries_arith {op : ArithOp} {lhs : Temp} {rhs : Operand}
    (hpass : (Instruction.arith op x lhs rhs).Passes a L L') :
    Carries e (Mirrors e a stack L σ)
      (Mirrors e a stack L' (σ.set x (op.apply (σ.temps lhs) (rhs.value σ.temps)))) ()
      (arith a op x lhs rhs) := by
  have hidle := hpass.idle hroom rfl
  have hlhs := hpass.uses lhs List.mem_cons_self
  refine .weaken ?_ fun _ => Holding.of_mirrors
  refine .bind (carries_read hroom hlhs (by decide) nofun) (.bind carries_target ?_)
  cases rhs with
  | imm value =>
    refine .weaken ?_ fun m hm => hm.mono (hpass.before rfl) (List.Subset.refl _)
    refine .bind (carries_copyReg [] hidle List.mem_cons_self nofun) ?_
    refine .bind (.arith (Slot.action_aluImm ..) fun m hm => ?_) (carries_writeBack hroom henv)
    rw [hm.holds _ _ List.mem_cons_self]
    exact hm.set_only hidle _
  | temp t =>
    have ht : L t := hpass.uses t (List.mem_cons_of_mem _ List.mem_cons_self)
    refine .bind (carries_read hroom ht (by decide) (hroom.scratch_fresh lhs)) ?_
    dsimp only
    split
    · exact ⟨nofun⟩
    · rename_i hcollide
      refine .weaken ?_ fun m hm => hm.mono (hpass.before rfl) (List.Subset.refl _)
      refine .bind (carries_copyReg [(a.register t scratch₂, σ.temps t)] hidle
        (List.mem_cons_of_mem _ List.mem_cons_self) fun p hp => ?_) ?_
      · obtain rfl := List.mem_singleton.1 hp
        refine ⟨List.mem_cons_self, fun heq => ?_⟩
        by_contra hne
        exact hcollide ⟨heq, hne⟩
      · refine .bind (.arith (Slot.action_aluReg ..) fun m hm => ?_) (carries_writeBack hroom henv)
        have hright : m.value (.reg (a.register t scratch₂)) = σ.temps t :=
          hm.holds _ _ (List.mem_cons_of_mem _ List.mem_cons_self)
        rw [hm.holds _ _ List.mem_cons_self, hright]
        exact hm.set_only hidle _

theorem carries_compare {op : CompareOp} {lhs : Temp} {rhs : Operand}
    (hpass : (Instruction.compare op x lhs rhs).Passes a L L') :
    Carries e (Mirrors e a stack L σ)
      (Mirrors e a stack L'
        (σ.set x (if op.holds (σ.temps lhs) (rhs.value σ.temps) then 1 else 0))) ()
      (compare a op x lhs rhs) := by
  have hidle := hpass.idle hroom rfl
  have hlhs := hpass.uses lhs List.mem_cons_self
  -- What follows once the test is known.
  have hrest : ∀ (vs : List (Reg × UInt64)) (test : Slot) (l : Reg) (right : Machine.Operand),
      test.action = some (.test op l right 2) →
      (∀ m, Holding e a stack L σ vs m →
        m.regs l = σ.temps lhs ∧ m.value right = rhs.value σ.temps) →
      Carries e (Holding e a stack L σ vs) (Mirrors e a stack L'
        (σ.set x (if op.holds (σ.temps lhs) (rhs.value σ.temps) then 1 else 0))) () (do
          let d ← target a x
          push test
          push (.movImm d 0)
          push (.jump 1)
          push (.movImm d 1)
          writeBack a x d) := by
    intro vs test l right htest hvalues
    refine .bind carries_target ?_
    have hgroup := carries_writeBack (L := L') (σ := σ) (x := x) hroom henv
      (v := if op.holds (σ.temps lhs) (rhs.value σ.temps) then 1 else 0)
    have hall : Carries e (Holding e a stack L σ vs) (Mirrors e a stack L'
        (σ.set x (if op.holds (σ.temps lhs) (rhs.value σ.temps) then 1 else 0))) () (do
          pushAll [test, .movImm (a.register x scratch₁) 0, .jump 1, .movImm (a.register x scratch₁) 1]
          writeBack a x (a.register x scratch₁)) := by
      refine .bind (.pushAll fun m hm => ⟨_, runs_choose htest m, ?_⟩) hgroup
      rw [(hvalues m hm).1, (hvalues m hm).2]
      exact (hm.mono (hpass.before rfl) (List.Subset.refl _)).set_only hidle _
    exact hall
  refine .weaken ?_ fun _ => Holding.of_mirrors
  refine .bind (carries_read hroom hlhs (by decide) nofun) ?_
  cases rhs with
  | imm value =>
    refine .bind (.pure fun _ h => h) (hrest _ _ _ _ (Slot.action_jumpImm ..) fun m hm => ?_)
    exact ⟨hm.holds _ _ List.mem_cons_self, rfl⟩
  | temp t =>
    have ht : L t := hpass.uses t (List.mem_cons_of_mem _ List.mem_cons_self)
    refine .bind (carries_read hroom ht (by decide) (hroom.scratch_fresh lhs))
      (.bind (.pure fun _ h => h) (hrest _ _ _ _ (Slot.action_jumpReg ..) fun m hm => ?_))
    exact ⟨hm.holds _ _ (List.mem_cons_of_mem _ List.mem_cons_self), hm.holds _ _ List.mem_cons_self⟩

theorem carries_moveTemp {src : Temp} (hpass : (Instruction.move x src).Passes a L L') :
    Carries e (Mirrors e a stack L σ) (Mirrors e a stack L' (σ.set x (σ.temps src))) ()
      (instruction a (.move x src)) := by
  refine .weaken ?_ fun _ => Holding.of_mirrors
  refine .bind (carries_read hroom (hpass.uses src List.mem_cons_self) (by decide) nofun)
    (.bind carries_target ?_)
  refine .weaken ?_ fun m hm => hm.mono (hpass.before rfl) (List.Subset.refl _)
  exact .bind (carries_copyReg [] (hpass.idle hroom rfl) List.mem_cons_self nofun)
    (carries_writeBack hroom henv)

theorem carries_load {addr : Int} (hpass : (Instruction.load x addr).Passes a L L')
    (hsafe : (Instruction.load x addr).Safe e.world ps) :
    Carries e (Mirrors e a stack L σ)
      (Mirrors e a stack L' (σ.set x (Bytes.toWord (σ.frame.read addr 8)))) ()
      (instruction a (.load x addr)) := by
  obtain ⟨q, hq, hin⟩ := hsafe.inside ⟨addr, 8⟩ List.mem_cons_self
  refine .bind carries_target (.offset fun haddr => .bind (.loadWord haddr fun m hm => ?_)
    (carries_writeBack hroom henv))
  rw [hm.read_eq hroom hq hin (Int.le_refl _) (Int.le_refl _)]
  exact ⟨hm.frame, (Holding.of_mirrors (hm.mono (hpass.before rfl))).set_only (hpass.idle hroom rfl) _⟩

theorem carries_store {src : Temp} {addr : Int} (hpass : (Instruction.store src addr).Passes a L L')
    (hsafe : (Instruction.store src addr).Safe e.world ps) :
    Carries e (Mirrors e a stack L σ)
      (Mirrors e a stack L' (σ.write addr (Bytes.ofWord (σ.temps src)))) ()
      (instruction a (.store src addr)) := by
  obtain ⟨q, hq, hin⟩ := hsafe.inside ⟨addr, 8⟩ List.mem_cons_self
  refine .weaken ?_ fun _ => Holding.of_mirrors
  refine .bind (carries_read hroom (hpass.uses src List.mem_cons_self) (by decide) nofun)
    (.offset fun haddr => .storeWord haddr fun m hm => ?_)
  rw [hm.holds _ _ List.mem_cons_self]
  refine ⟨hm.mirrors.frame, ?_⟩
  exact (hm.mirrors.mono (hpass.before_of_none rfl)).write hroom henv hq hin (Int.le_refl _)
    (by rw [Bytes.length_ofWord])

end

end Emit

end TraceScript
