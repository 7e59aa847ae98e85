import TraceScript.Proofs.InstructionCode
import TraceScript.Proofs.RegionStores

namespace TraceScript

open TraceScript.Flow

theorem Memory.write_write (m : Memory) (addr : Int) {data data' : List UInt8}
    (h : data.length = data'.length) : (m.write addr data).write addr data' = m.write addr data' := by
  funext x
  simp only [write, h]
  split <;> rfl

namespace Emit

open Machine (Env Action IsWidth Runs)

variable {e : Env} {a : Allocation} {stack : Nat} {ps : List Region} {L L' : Temp → Prop}
  {σ : Flow.State} {x : Temp} {v : UInt64} {addr : Int} {size : Nat} {q : Region}

/-- The register gets one at the first part that differs. A condition that does not depend on the
registers in use is kept. -/
theorem CarriesBy.compareRegions {P : Machine.State → Prop} {μ : Memory} {lhs rhs : Int} {d : Reg}
    (hne : d ≠ 0 ∧ d ≠ 1) (hset : ∀ r ∈ [0, 1, d], ∀ m v, P m → P (m.set r v))
    (hframe : ∀ m, P m → m.regs Reg.frame = e.frame)
    (hbytes : ∀ m, P m → ∀ x, (Region.mk lhs size).Contains x ∨ (Region.mk rhs size).Contains x →
      m.memory x = μ x) :
    Carries e P (fun m => P m ∧ m.regs d = if μ.read lhs size = μ.read rhs size then 0 else 1) ()
      (Emit.compareRegions d lhs rhs size) := by
  -- What the register tells after some bytes.
  let told (done : Nat) : UInt64 := if μ.read lhs done = μ.read rhs done then 0 else 1
  refine .bind (.move (Q := fun m => P m ∧ m.regs d = told 0) (Slot.action_movImm d 0)
    fun m hm => ⟨hset d (by simp) m _ hm, m.regs_set ..⟩) ?_
  refine carries_forChunks (I := fun done m => P m ∧ m.regs d = told done)
    fun done width hwidest hfits => ?_
  have hwidth := hwidest.isWidth
  let left := μ.read (lhs + done) width
  let right := μ.read (rhs + done) width
  have hleft : ∀ m, P m → m.memory.read (lhs + done) width = left := fun m hm =>
    Memory.read_congr fun x h1 h2 => hbytes m hm x (.inl ⟨by dsimp only; omega, by dsimp only; omega⟩)
  have hright : ∀ m, P m → m.memory.read (rhs + done) width = right := fun m hm =>
    Memory.read_congr fun x h1 h2 => hbytes m hm x (.inr ⟨by dsimp only; omega, by dsimp only; omega⟩)
  refine .offset fun hl => .bind (.load (Q := fun m => P m ∧ m.regs d = told done ∧
    m.regs 0 = Bytes.toWord left) hwidth hl fun m hm => ⟨hframe m hm.1, hset 0 (by simp) m _ hm.1,
      (Machine.State.regs_set_of_ne _ hne.1).trans hm.2, ?_⟩) ?_
  · rw [m.regs_set, hleft m hm.1]
  refine .offset fun hr => .bind (.load (Q := fun m => P m ∧ m.regs d = told done ∧
    m.regs 0 = Bytes.toWord left ∧ m.regs 1 = Bytes.toWord right) hwidth hr fun m hm =>
      ⟨hframe m hm.1, hset 1 (by simp) m _ hm.1, (Machine.State.regs_set_of_ne _ hne.2).trans hm.2.1,
        (Machine.State.regs_set_of_ne _ (by decide)).trans hm.2.2, ?_⟩) ?_
  · rw [m.regs_set, hright m hm.1]
  have hsame : Bytes.toWord left = Bytes.toWord right ↔ left = right :=
    Bytes.toWord_inj (by rw [Memory.length_read]; exact width_le hwidth) (by simp [left, right])
  have hsplit : μ.read lhs (done + width) = μ.read rhs (done + width) ↔
      μ.read lhs done = μ.read rhs done ∧ left = right := by
    rw [Memory.read_add, Memory.read_add]
    exact ⟨fun h => List.append_inj h (by simp), fun h => congr (congrArg _ h.1) h.2⟩
  -- The last two slots are executed as one group, since the first may pass over the second.
  suffices hgroup : Carries e (fun m => P m ∧ m.regs d = told done ∧
      m.regs 0 = Bytes.toWord left ∧ m.regs 1 = Bytes.toWord right)
      (fun m => P m ∧ m.regs d = told (done + width)) ()
      (Emit.pushAll [.jumpReg Opcode.jeq 0 1 1, .movImm d 1]) from hgroup
  refine .pushAll fun m hm => ?_
  obtain ⟨hp, htold, hl, hr⟩ := hm
  by_cases heq : left = right
  · have htaken : CompareOp.eq.holds (m.regs 0) (m.regs 1) = true := by
      rw [hl, hr, hsame.2 heq]
      exact beq_self_eq_true _
    refine ⟨m, .passing (Slot.action_jumpReg 0 1 1 .eq) fun _ => ?_, hp, ?_⟩
    · simp [Action.run, Machine.State.value, htaken]
    · simp only [told, hsplit, heq, and_true]
      exact htold
  · have hpassed : CompareOp.eq.holds (m.regs 0) (m.regs 1) = false := by
      rw [hl, hr]
      exact beq_eq_false_iff_ne.2 fun h => heq (hsame.1 h)
    refine ⟨m.set d 1, .cons (Slot.action_jumpReg 0 1 1 .eq) (fun _ => ?_)
      (.single (Slot.action_movImm d 1) fun _ => rfl), hset d (by simp) m 1 hp, ?_⟩
    · simp [Action.run, Machine.State.value, hpassed]
    · simp only [told, hsplit, heq, and_false, if_false]
      exact m.regs_set ..

theorem CarriesBy.of_aligned {P Q : Machine.State → Prop} {m : Emit Unit}
    (h : CarriesBy (Machine.AlignedStep e) P Q () m) : Carries e P Q () m :=
  h.imp (fun _ _ _ hstep => hstep.step) (fun _ h => h) fun _ h => h

section

variable (hroom : a.Roomy stack ps) (henv : e.Suits stack) (hq : q ∈ ps)

include hroom

theorem view_mirrors (henv : e.Suits stack) :
    View e (fun r => ∃ q ∈ ps, ∃ s : Region, s.Inside q ∧ s.addr ≤ r.addr ∧
      r.addr + r.size ≤ s.addr + s.size) fun μ => Mirrors e a stack L { σ with frame := μ } where
  part := by
    rintro r r' ⟨q, hq, s, hin, hlow, hhigh⟩ hlow' hhigh'
    exact ⟨q, hq, s, hin, by omega, by omega⟩
  frame hm := hm.frame
  scratch v hm := hm.set (hroom.idle_of_low L (by decide)) v
  read := fun ⟨_, hq, _, hin, hlow, hhigh⟩ hm => hm.read_eq hroom hq hin hlow hhigh
  write := fun ⟨_, hq, _, hin, hlow, hhigh⟩ hm => hm.write hroom henv hq hin hlow hhigh

include henv hq

theorem carries_zero (hin : (Region.mk addr size).Inside q) :
    Carries e (Mirrors e a stack L σ) (Mirrors e a stack L (σ.write addr (List.replicate size 0))) ()
      (zero addr size) :=
  ((view_mirrors hroom henv).zero ⟨q, hq, _, hin, Int.le_refl _, Int.le_refl _⟩).of_aligned

theorem carries_storeBytes {data : List UInt8} (hin : (Region.mk addr data.length).Inside q) :
    Carries e (Mirrors e a stack L σ) (Mirrors e a stack L (σ.write addr data)) ()
      (storeBytes addr data) :=
  ((view_mirrors hroom henv).storeBytes ⟨q, hq, _, hin, Int.le_refl _, Int.le_refl _⟩).of_aligned

theorem carries_copyBytes {source dest : Int} {q' : Region} (hq' : q' ∈ ps)
    (hdest : (Region.mk dest size).Inside q) (hsource : (Region.mk source size).Inside q')
    (hapart : (Region.mk dest size).Disjoint ⟨source, size⟩) :
    Carries e (Mirrors e a stack L σ)
      (Mirrors e a stack L (σ.write dest (σ.frame.read source size))) ()
      (copyBytes dest source size) := by
  have haligned : ∀ (r p : Region), p ∈ ps → r.Inside p → r.addr % 8 = 0 := by
    rintro r p hp ⟨k, hk, -⟩
    have := hroom.packed.aligned p (List.mem_append_right _ hp)
    omega
  exact ((view_mirrors hroom henv).copyBytes (haligned _ q hq hdest) (haligned _ q' hq' hsource)
    ⟨q, hq, _, hdest, Int.le_refl _, Int.le_refl _⟩
    ⟨q', hq', _, hsource, Int.le_refl _, Int.le_refl _⟩ hapart).of_aligned

omit henv in
theorem carries_compareRegions {lhs rhs : Int} {q' : Region} (hq' : q' ∈ ps)
    (hlhs : (Region.mk lhs size).Inside q) (hrhs : (Region.mk rhs size).Inside q') {d : Reg}
    (hd : a.Idle L d) (hne : d ≠ 0 ∧ d ≠ 1) :
    Carries e (Mirrors e a stack L σ)
      (Holding e a stack L σ
        [(d, if σ.frame.read lhs size = σ.frame.read rhs size then 0 else 1)]) ()
      (compareRegions d lhs rhs size) := by
  have hidle : ∀ r ∈ [0, 1, d], a.Idle L r := by
    rintro r (_ | ⟨_, _ | ⟨_, _ | ⟨_, ⟨⟩⟩⟩⟩)
    · exact hroom.idle_of_low L (by decide)
    · exact hroom.idle_of_low L (by decide)
    · exact hd
  refine .mono (.compareRegions (P := Mirrors e a stack L σ) (μ := σ.frame) hne
    (fun r hr m v hm => hm.set (hidle r hr) v) (fun m hm => hm.frame) fun m hm x hx => ?_)
    fun m hm => ⟨hm.1, ?_⟩
  · rcases hx with hx | hx
    · exact hm.byte_eq hroom hq hlhs hx
    · exact hm.byte_eq hroom hq' hrhs hx
  · intro r v hmem
    obtain ⟨rfl, rfl⟩ := Prod.mk.inj (List.mem_singleton.1 hmem)
    exact hm.2

end

/-- The result of a lookup: the address of the entry that was found, or zero. -/
def Shows (e : Env) (size : Nat) : Option (List UInt8) → Machine.State → Prop
  | some v, m => m.regs 0 ≠ 0 ∧ m.memory.read (e.place (m.regs 0)) size = Bytes.extend size v
  | none, m => m.regs 0 = 0

section

variable (hroom : a.Roomy stack ps) (henv : e.Suits stack) {vs : List (Reg × UInt64)} {r : Reg}

include hroom

theorem carries_pointer (hr : r.val ≤ 5) (hfresh : r ∉ vs.map Prod.fst) (addr : Int) :
    Carries e (Holding e a stack L σ vs) (Holding e a stack L σ ((r, e.pointer addr) :: vs)) ()
      (pointer r addr) := by
  have hidle := hroom.idle_of_low L hr
  refine .bind (carries_move (Slot.action_movReg ..) hidle hfresh fun m hm => hm.mirrors.frame) ?_
  refine .arith (Slot.action_aluImm r (Int32.ofInt addr) .add) fun m hm => ?_
  rw [hm.holds _ _ List.mem_cons_self]
  exact (hm.mono (fun _ h => h) (List.subset_cons_self ..)).set hidle hfresh _

theorem carries_loadMap (hr : r.val ≤ 5) (hfresh : r ∉ vs.map Prod.fst) (map : MapId) :
    Carries e (Holding e a stack L σ vs)
      (Holding e a stack L σ ((r, e.handle (Int32.ofInt map.fd)) :: vs)) () (loadMap r map) :=
  .pushAll fun _ hm => ⟨_, .wide (Slot.action_mapMark ..) rfl,
    hm.set (hroom.idle_of_low L hr) hfresh _⟩

theorem carries_constant (hr : r.val ≤ 5) (hfresh : r ∉ vs.map Prod.fst) (imm : Int32) :
    Carries e (Holding e a stack L σ vs)
      (Holding e a stack L σ ((r, imm.toInt64.toUInt64) :: vs)) () (push (.movImm r imm)) :=
  carries_move (Slot.action_movImm ..) (hroom.idle_of_low L hr) hfresh fun _ _ => rfl

theorem place_touched (hq : q ∈ ps) (hin : (Region.mk addr size).Inside q) :
    e.place (e.pointer addr) = addr := by
  obtain ⟨hlow, hhigh⟩ := hroom.touched_bounds hq hin
  dsimp only at hlow hhigh
  exact e.place_pointer (by omega) (by omega)

include henv

theorem carries_mapUpdate {map : MapId} {key value : Int}
    (hsafe : (Instruction.update map key value).Safe e.world ps) :
    Carries e (Mirrors e a stack L σ)
      (Mirrors e a stack L ((Instruction.update map key value).run e.world σ)) ()
      (mapUpdate map key value) := by
  obtain ⟨q, hq, hkey⟩ := hsafe.inside _ List.mem_cons_self
  obtain ⟨q', hq', hvalue⟩ := hsafe.inside _ (List.mem_cons_of_mem _ List.mem_cons_self)
  refine .weaken ?_ fun _ => Holding.of_mirrors
  refine .bind (carries_loadMap hroom (by decide) List.not_mem_nil map) ?_
  refine .bind (carries_pointer hroom (by decide) (by simp) key) ?_
  refine .bind (carries_pointer hroom (by decide) (by simp) value) ?_
  refine .bind (carries_constant hroom (by decide) (by simp) 0) ?_
  refine .call rfl fun m hm => ?_
  have h₁ : m.regs 1 = e.handle (Int32.ofInt map.fd) := hm.holds _ _ (by simp)
  have h₂ : m.regs 2 = e.pointer key := hm.holds _ _ (by simp)
  have h₃ : m.regs 3 = e.pointer value := hm.holds _ _ (by simp)
  have h₄ : m.regs 4 = 0 := hm.holds 4 _ List.mem_cons_self
  have hmap : e.resolve (m.regs 1) = some map := by rw [h₁, henv.knows map hsafe.fits]
  have hkeyRead : m.memory.read (e.place (m.regs 2)) (e.world.keySize map) =
      σ.frame.read key (e.world.keySize map) := by
    rw [h₂, place_touched hroom hq hkey]
    exact hm.mirrors.read_eq hroom hq hkey (Int.le_refl _) (Int.le_refl _)
  have hvalueRead : m.memory.read (e.place (m.regs 3)) (e.world.valueSize map) =
      σ.frame.read value (e.world.valueSize map) := by
    rw [h₃, place_touched hroom hq' hvalue]
    exact hm.mirrors.read_eq hroom hq' hvalue (Int.le_refl _) (Int.le_refl _)
  refine ⟨_, ?_, hm.mirrors.effect hroom _⟩
  simp [Machine.Service.run, hmap, hkeyRead, hvalueRead, h₄, hm.mirrors.outside]

theorem carries_copyFound {found : Option (List UInt8)} {value : Int} (hq : q ∈ ps)
    (hvalue : (Region.mk value size).Inside q) :
    Carries e (fun m => Mirrors e a stack L σ m ∧ Shows e size found m)
      (Mirrors e a stack L (found.elim σ fun v => σ.write value (Bytes.extend size v))) ()
      (pushAll [.jumpImm Opcode.jeq 0 0 5, .movReg 1 Reg.frame,
        .aluImm Opcode.add 1 (Int32.ofInt value), .movImm 2 (Int32.ofNat size), .movReg 3 0,
        .call KernelFunction.probeRead]) := by
  refine .pushAll fun m ⟨hm, hshows⟩ => ?_
  cases found with
  | none =>
    have hzero : m.regs 0 = 0 := hshows
    refine ⟨m, .passing (Slot.action_jumpImm 0 5 0 .eq) fun _ => ?_, hm⟩
    simp only [Action.run, Machine.State.value, hzero]
    rfl
  | some v =>
    obtain ⟨hshown, hread⟩ : m.regs 0 ≠ 0 ∧
      m.memory.read (e.place (m.regs 0)) size = Bytes.extend size v := hshows
    obtain ⟨hlow, hhigh⟩ := hroom.touched_bounds hq hvalue
    have hsize : (Int32.ofNat size).toInt64.toUInt64.toNat = size :=
      toNat_extend32 (by dsimp only at hlow hhigh; omega)
    have hpoint : (m.set 1 (m.regs Reg.frame)).set 1
        (ArithOp.add.apply ((m.set 1 (m.regs Reg.frame)).regs 1)
          (Int32.ofInt value).toInt64.toUInt64) = m.set 1 (e.pointer value) := by
      rw [Machine.State.set_set, Machine.State.regs_set, hm.frame]
      rfl
    let m₁ := m.set 1 (e.pointer value)
    let m₂ := m₁.set 2 (Int32.ofNat size).toInt64.toUInt64
    let m₃ := m₂.set 3 (m.regs 0)
    have hidle : ∀ d : Reg, d.val ≤ 5 → a.Idle L d := fun d hd => hroom.idle_of_low L hd
    have hm₃ : Mirrors e a stack L σ m₃ :=
      ((hm.set (hidle 1 (by decide)) _).set (hidle 2 (by decide)) _).set (hidle 3 (by decide)) _
    refine ⟨(m₃.called e).write value (Bytes.extend size v), ?_, ?_⟩
    · refine .cons (n := m) (Slot.action_jumpImm 0 5 0 .eq) (fun _ => ?_) ?_
      · have hpassed : CompareOp.eq.holds (m.regs 0) (m.value (.imm 0)) = false :=
          beq_eq_false_iff_ne.2 hshown
        simp [Action.run, hpassed]
      refine .cons (Slot.action_movReg 1 Reg.frame) (fun _ => rfl) ?_
      refine .cons (n := m₁) (Slot.action_aluImm 1 _ .add) (fun _ => ?_) ?_
      · exact congrArg (fun s => some (s, (1 : Int))) hpoint
      refine .cons (n := m₂) (Slot.action_movImm 2 _) (fun _ => rfl) ?_
      refine .cons (n := m₃) (Slot.action_movReg 3 0) (fun _ => rfl) ?_
      refine .single (Slot.action_call _) fun _ => ?_
      have h₁ : m₃.regs 1 = e.pointer value := rfl
      have h₂ : (m₃.regs 2).toNat = size := hsize
      have h₃ : m₃.regs 3 = m.regs 0 := rfl
      have hprobe : Machine.Service.probeRead.run e m₃ =
          some ((m₃.called e).write value (Bytes.extend size v)) := by
        rw [Machine.Service.run, h₁, h₂, h₃, place_touched hroom hq hvalue, ← hread]
        rfl
      have hservice : Machine.services.lookup KernelFunction.probeRead = some .probeRead := rfl
      simp [Action.run, hservice, hprobe]
    · refine (hm₃.called hroom).write hroom henv hq hvalue (Int.le_refl _) ?_
      rw [Bytes.length_extend]

theorem carries_mapLookup {map : MapId} {key value : Int}
    (hsafe : (Instruction.lookup map key value size).Safe e.world ps) :
    Carries e (Mirrors e a stack L σ)
      (Mirrors e a stack L ((Instruction.lookup map key value size).run e.world σ)) ()
      (mapLookup map key value size) := by
  obtain ⟨q, hq, hkey⟩ := hsafe.inside _ List.mem_cons_self
  obtain ⟨q', hq', hvalue⟩ := hsafe.inside _ (List.mem_cons_of_mem _ List.mem_cons_self)
  obtain ⟨hcreated, hsize⟩ := hsafe.fits
  let k := σ.frame.read key (e.world.keySize map)
  let τ : Flow.State := { σ with outside := σ.outside.log (.lookup map k) }
  have hrun : (Instruction.lookup map key value size).run e.world σ =
      (σ.outside.store map k).elim τ fun v => τ.write value (Bytes.extend size v) := by
    simp only [Instruction.run, Outside.find, k]
    cases σ.outside.store map (σ.frame.read key (e.world.keySize map)) <;> rfl
  rw [hrun]
  refine .weaken ?_ fun _ => Holding.of_mirrors
  refine .bind (carries_loadMap hroom (by decide) List.not_mem_nil map) ?_
  refine .bind (carries_pointer hroom (by decide) (by simp) key) ?_
  refine .bind (.call rfl fun m hm => ?_) (carries_copyFound hroom henv hq' hvalue)
  have h₁ : m.regs 1 = e.handle (Int32.ofInt map.fd) := hm.holds _ _ (by simp)
  have h₂ : m.regs 2 = e.pointer key := hm.holds _ _ (by simp)
  have hmap : e.resolve (m.regs 1) = some map := by rw [h₁, henv.knows map hcreated]
  have hkeyRead : m.memory.read (e.place (m.regs 2)) (e.world.keySize map) = k := by
    rw [h₂, place_touched hroom hq hkey]
    exact hm.mirrors.read_eq hroom hq hkey (Int.le_refl _) (Int.le_refl _)
  have hafter := hm.mirrors.effect hroom (σ.outside.log (.lookup map k))
  have hidle := hroom.idle_of_low L (d := 0) (by decide)
  cases hfound : σ.outside.store map k with
  | none =>
    refine ⟨_, ?_, hafter.set hidle 0, Machine.State.regs_set ..⟩
    simp [Machine.Service.run, hmap, hkeyRead, hm.mirrors.outside, Outside.find, hfound]
  | some v =>
    have hlen : (Bytes.extend (e.world.valueSize map) v).length = e.world.valueSize map :=
      Bytes.length_extend ..
    refine ⟨_, ?_, (hafter.show_entry hroom henv m.calls map hlen).set hidle (e.entry m.calls), ?_⟩
    · simp [Machine.Service.run, hmap, hkeyRead, hm.mirrors.outside, Outside.find, hfound]
    · simp only [Shows, Machine.State.regs_set, Machine.State.memory_set, Machine.State.memory_write]
      rw [hsize, Memory.read_write _ _ hlen]
      exact ⟨henv.shown _, rfl⟩

end

section

variable (hroom : a.Roomy stack ps) (henv : e.Suits stack)

theorem carries_ask (hroom : a.Roomy stack ps) {function : Int32} {service : Machine.Service}
    (hs : Machine.services.lookup function = some service)
    (hrun : ∀ m, service.run e m = some ((m.called e).set 0 v)) :
    Carries e (Mirrors e a stack L σ) (Holding e a stack L σ [(0, v)]) () (push (.call function)) :=
  .call hs fun m hm => ⟨_, hrun m, (Holding.of_mirrors (hm.called hroom)).set_only
    (hroom.idle_of_low L (by decide)) v⟩

include hroom henv

theorem carries_comm (hq : q ∈ ps) (hin : (Region.mk addr size).Inside q) :
    Carries e (Mirrors e a stack L σ)
      (Mirrors e a stack L (σ.write addr (Bytes.extend size e.world.comm))) ()
      (helper a none (.comm addr size)) := by
  obtain ⟨hlow, hhigh⟩ := hroom.touched_bounds hq hin
  refine .bind (carries_zero hroom henv hq hin) ?_
  refine .weaken ?_ fun _ => Holding.of_mirrors
  refine .bind (carries_pointer hroom (by decide) List.not_mem_nil addr) ?_
  refine .bind (carries_constant hroom (by decide) (by simp) _) ?_
  refine .call rfl fun m hm => ?_
  have h₁ : m.regs 1 = e.pointer addr := hm.holds _ _ (by simp)
  have h₂ : (m.regs 2).toNat = size := by
    rw [hm.holds 2 _ List.mem_cons_self]
    exact toNat_extend32 (by dsimp only at hlow hhigh; omega)
  have hfits : addr + (Bytes.extend size e.world.comm).length ≤ addr + size := by
    rw [Bytes.length_extend]
  have hafter := (hm.mirrors.called hroom).write hroom henv hq hin (Int.le_refl _) hfits
  have hwrite : (σ.write addr (List.replicate size 0)).write addr (Bytes.extend size e.world.comm) =
      σ.write addr (Bytes.extend size e.world.comm) :=
    congrArg (fun f => { σ with frame := f }) (σ.frame.write_write addr (by simp))
  refine ⟨_, ?_, hwrite ▸ hafter⟩
  rw [Machine.Service.run, h₁, h₂, place_touched hroom hq hin]

theorem carries_sendEvent {channel : MapId} (hq : q ∈ ps) (hin : (Region.mk addr size).Inside q)
    (hchannel : (e.world.created channel).isSome) :
    Carries e (Mirrors e a stack L σ)
      (Mirrors e a stack L { σ with outside := σ.outside.send channel (σ.frame.read addr size) }) ()
      (sendEvent addr size channel) := by
  obtain ⟨hlow, hhigh⟩ := hroom.touched_bounds hq hin
  have hidle : ∀ d : Reg, d.val ≤ 5 → a.Idle L d := fun d hd => hroom.idle_of_low L hd
  refine .bind (carries_ask hroom rfl fun _ => rfl) ?_
  refine .bind (carries_move (v := e.world.cpu) (Slot.action_movReg 3 0) (hidle 3 (by decide)) (by simp)
    fun m hm => hm.holds 0 _ List.mem_cons_self) ?_
  refine .bind (carries_move (Slot.action_movReg 1 Reg.context) (hidle 1 (by decide)) (by simp)
    fun m hm => hm.mirrors.context) ?_
  refine .bind (carries_loadMap hroom (by decide) (by simp) channel) ?_
  refine .bind (carries_pointer hroom (by decide) (by simp) addr) ?_
  refine .bind (carries_constant hroom (by decide) (by simp) _) ?_
  refine .call rfl fun m hm => ?_
  have h₁ : m.regs 1 = e.context := hm.holds _ _ (by simp)
  have h₂ : m.regs 2 = e.handle (Int32.ofInt channel.fd) := hm.holds _ _ (by simp)
  have h₃ : m.regs 3 = e.world.cpu := hm.holds _ _ (by simp)
  have h₄ : m.regs 4 = e.pointer addr := hm.holds _ _ (by simp)
  have h₅ : (m.regs 5).toNat = size := by
    rw [hm.holds 5 _ List.mem_cons_self]
    exact toNat_extend32 (by dsimp only at hlow hhigh; omega)
  have hmap : e.resolve (m.regs 2) = some channel := by rw [h₂, henv.knows channel hchannel]
  have hrecord : m.memory.read (e.place (m.regs 4)) (m.regs 5).toNat = σ.frame.read addr size := by
    rw [h₄, h₅, place_touched hroom hq hin]
    exact hm.mirrors.read_eq hroom hq hin (Int.le_refl _) (Int.le_refl _)
  refine ⟨_, ?_, hm.mirrors.effect hroom _⟩
  simp [Machine.Service.run, hmap, h₁, h₃, hrecord, hm.mirrors.outside]

variable {h : Helper} {dst : Option Temp} (hpass : (Instruction.call h dst).Passes a L L')

include hpass

theorem carries_keepResult :
    Carries e (Holding e a stack L σ [(0, v)])
      (Mirrors e a stack L' (Instruction.keep dst (some v, σ))) () (keepResult a dst) := by
  cases dst with
  | none => exact .pure fun m hm => hm.mirrors.mono (hpass.before_of_none rfl)
  | some x =>
    refine carries_define hroom henv (.move (Slot.action_movReg ..) fun m hm => ?_)
    have hvalue : m.value (.reg 0) = v := hm.holds _ _ List.mem_cons_self
    rw [hvalue]
    exact (hm.mono (hpass.before rfl) (List.Subset.refl _)).set_only (hpass.idle hroom rfl) v

theorem carries_helper (hsafe : (Instruction.call h dst).Safe e.world ps) :
    Carries e (Mirrors e a stack L σ)
      (Mirrors e a stack L' ((Instruction.call h dst).run e.world σ)) () (helper a dst h) := by
  have hlow : (0 : Reg).val ≤ 5 := by decide
  cases h with
  | pid =>
    refine .bind (carries_ask hroom rfl fun _ => rfl) (.bind (.arith (Slot.action_aluImm 0 32 .rsh)
      fun m hm => ?_) (carries_keepResult hroom henv hpass))
    rw [hm.holds _ _ List.mem_cons_self]
    have hshift := shiftRight_joined e.world.pid e.world.tid
    exact hshift ▸ hm.set_only (hroom.idle_of_low L hlow) _
  | tid =>
    refine .bind (carries_ask hroom rfl fun _ => rfl) (.bind (.push (Slot.action_mov32Reg 0 0)
      fun m hm => ⟨_, fun _ => rfl, ?_⟩) (carries_keepResult hroom henv hpass))
    have hvalue := hm.holds _ _ List.mem_cons_self
    have hhalf := toUInt32_joined e.world.pid e.world.tid
    rw [Machine.State.value, hvalue, hhalf]
    exact hm.set_only (hroom.idle_of_low L hlow) _
  | cpu => exact .bind (carries_ask hroom rfl fun _ => rfl) (carries_keepResult hroom henv hpass)
  | ns =>
    refine .bind (.call rfl fun m hm => ?_) (carries_keepResult hroom henv hpass)
    have hafter := (Holding.of_mirrors (hm.effect hroom (σ.outside.tick e.world).2)).set_only
      (hroom.idle_of_low L hlow) (σ.outside.tick e.world).1
    exact ⟨_, by rw [Machine.Service.run, hm.outside], hafter⟩
  | arg n =>
    cases dst with
    | none => exact .pure fun m hm => hm.mono (hpass.before_of_none rfl)
    | some x =>
      refine carries_define hroom henv (.push (Slot.action_loadDouble ..)
        fun m hm => ⟨_, fun _ => rfl, ?_⟩)
      rw [e.place_argument hm.context, hm.arguments, Bytes.toWord_ofWord]
      exact (Holding.of_mirrors (hm.mono (hpass.before rfl))).set_only (hpass.idle hroom rfl) _
  | comm addr size =>
    obtain rfl : dst = none := hsafe.fits
    obtain ⟨q, hq, hin⟩ := hsafe.inside _ List.mem_cons_self
    exact .weaken (carries_comm hroom henv hq hin) fun m hm => hm.mono (hpass.before_of_none rfl)
  | strcmp lhs rhs size =>
    obtain ⟨q, hq, hlhs⟩ := hsafe.inside _ List.mem_cons_self
    obtain ⟨q', hq', hrhs⟩ := hsafe.inside _ (List.mem_cons_of_mem _ List.mem_cons_self)
    cases dst with
    | none => exact .pure fun m hm => hm.mono (hpass.before_of_none rfl)
    | some x =>
      have hne : a.register x scratch₁ ≠ 0 ∧ a.register x scratch₁ ≠ 1 := by
        rcases a.register_cases x scratch₁ with heq | hhome
        · rw [heq]
          decide
        · have hbounds := hroom.register_bounds hhome
          constructor <;> rintro heq <;> rw [heq] at hbounds <;> exact absurd hbounds.1 (by decide)
      exact carries_define hroom henv (.weaken
        (carries_compareRegions hroom hq hq' hlhs hrhs (hpass.idle hroom rfl) hne)
        fun m hm => hm.mono (hpass.before rfl))
  | out addr size channel =>
    obtain ⟨hchannel, rfl⟩ := hsafe.fits
    obtain ⟨q, hq, hin⟩ := hsafe.inside _ List.mem_cons_self
    exact .weaken (carries_sendEvent hroom henv hq hin hchannel) fun m hm =>
      hm.mono (hpass.before_of_none rfl)

end

/-- The code of an instruction that does not end a block carries every mirror of a state to a mirror of
the state after it. -/
theorem carries_instruction (hroom : a.Roomy stack ps) (henv : e.Suits stack) {i : Instruction}
    (hpass : i.Passes a L L') (hsafe : i.Safe e.world ps) (hstraight : i.isFinal = false) :
    Carries e (Mirrors e a stack L σ) (Mirrors e a stack L' (i.run e.world σ)) ()
      (instruction a i) := by
  have hkept : i.def? = none → ∀ m, Mirrors e a stack L σ m → Mirrors e a stack L' σ m :=
    fun hnone m hm => hm.mono (hpass.before_of_none hnone)
  cases i with
  | imm dst value => exact carries_imm hroom henv hpass
  | arith op dst lhs rhs => exact carries_arith hroom henv hpass
  | compare op dst lhs rhs => exact carries_compare hroom henv hpass
  | move dst src => exact carries_moveTemp hroom henv hpass
  | load dst addr => exact carries_load hroom henv hpass hsafe
  | store src addr => exact carries_store hroom henv hpass hsafe
  | zero addr size =>
    obtain ⟨q, hq, hin⟩ := hsafe.inside _ List.mem_cons_self
    exact .weaken (carries_zero hroom henv hq hin) (hkept rfl)
  | bytes addr data =>
    obtain ⟨q, hq, hin⟩ := hsafe.inside _ List.mem_cons_self
    exact .weaken (carries_storeBytes hroom henv hq hin) (hkept rfl)
  | copy dest source size =>
    obtain ⟨q, hq, hdest⟩ := hsafe.inside _ List.mem_cons_self
    obtain ⟨q', hq', hsource⟩ := hsafe.inside _ (List.mem_cons_of_mem _ List.mem_cons_self)
    exact .weaken (carries_copyBytes hroom henv hq hq' hdest hsource hsafe.fits) (hkept rfl)
  | update map key value => exact .weaken (carries_mapUpdate hroom henv hsafe) (hkept rfl)
  | lookup map key value size => exact .weaken (carries_mapLookup hroom henv hsafe) (hkept rfl)
  | call h dst => exact carries_helper hroom henv hpass hsafe
  | branch cond yes no => cases hstraight
  | jump target => cases hstraight
  | ret => cases hstraight

end Emit

end TraceScript
