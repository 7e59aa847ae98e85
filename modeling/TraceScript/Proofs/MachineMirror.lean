import TraceScript.Proofs.Execution
import TraceScript.Proofs.Limits
import TraceScript.Proofs.Words

namespace TraceScript

open TraceScript.Flow

namespace Machine.Env

/-- The place of an argument of the event. The arguments follow a header of sixteen bytes. -/
def argument (e : Env) (n : UInt8) : Region :=
  ⟨e.place (e.context + UInt64.ofNat (16 + 8 * n.toNat)), 8⟩

/-- The bytes of a frame of some size. -/
def frameBytes (stack : Nat) : Region := ⟨-stack, stack⟩

/-- Descriptors stand for the maps that were created with them, and what the kernel shows of an entry
lies at an address, apart from the frame and from the arguments of the event. -/
structure Suits (e : Env) (stack : Nat) : Prop where
  knows : ∀ id, (e.world.created id).isSome → e.resolve (e.handle (Int32.ofInt id.fd)) = some id
  shown : ∀ n, e.entry n ≠ 0
  entries : ∀ n id, let r : Region := ⟨e.place (e.entry n), e.world.valueSize id⟩
    r.Disjoint (frameBytes stack) ∧ ∀ k, r.Disjoint (e.argument k)
  arguments : ∀ k, (e.argument k).Disjoint (frameBytes stack)

variable (e : Env)

theorem place_frame (v : Int64) : e.place (e.frame + v.toUInt64) = v.toInt := by
  have hsub : e.frame + v.toUInt64 - e.frame = v.toUInt64 := by grind
  rw [place, hsub]
  exact congrArg Int64.toInt (Int64.toInt64_toUInt64 v)

/-- The address of a place in the frame. -/
def pointer (addr : Int) : UInt64 := e.frame + (Int32.ofInt addr).toInt64.toUInt64

theorem place_pointer {addr : Int} (h : -2 ^ 31 ≤ addr) (h' : addr < 2 ^ 31) :
    e.place (e.pointer addr) = addr :=
  (e.place_frame _).trans (toInt_extend32 h h')

theorem place_address {m : State} (hm : m.regs Reg.frame = e.frame) {addr : Int}
    (h : (Int16.ofInt addr).toInt = addr) :
    e.place (m.address Reg.frame (Int16.ofInt addr)) = addr := by
  rw [State.address, hm]
  exact (e.place_frame _).trans (toInt_extend16 h)

theorem place_argument {m : State} (hm : m.regs Reg.context = e.context) (n : UInt8) :
    e.place (m.address Reg.context (Emit.argOffset n)) = (e.argument n).addr := by
  rw [State.address, hm, argOffset_extend]
  rfl

end Machine.Env

namespace Flow

namespace Home

/-- What a home holds. -/
def value (m : Machine.State) : Home → UInt64
  | reg r => m.regs r
  | spill addr => Bytes.toWord (m.memory.read addr 8)

end Home

namespace Allocation

/-- The homes of temporaries are registers that calls keep, and slots of the frame that are apart from
some regions. -/
structure Roomy (a : Allocation) (stack : Nat) (ps : List Region) : Prop where
  pooled : ∀ t r, a.home t = some (.reg r) → r ∈ Allocator.registers
  packed : Packed (-stack) (spillSlots a.homes ++ ps)
  near : ∀ q ∈ ps, -2 ^ 31 < q.addr

/-- No temporary of some kind has its home in a register, which is neither of those with a fixed
use. -/
structure Idle (a : Allocation) (L : Temp → Prop) (d : Reg) : Prop where
  usable : d.val < 9
  unused : ∀ t q, L t → a.home t = some (.reg q) → q ≠ d

end Allocation

/-- A state of the machine that mirrors a state of temporaries, as far as some temporaries are still
needed. -/
structure Mirrors (e : Machine.Env) (a : Allocation) (stack : Nat) (L : Temp → Prop) (σ : State)
    (m : Machine.State) : Prop where
  frame : m.regs Reg.frame = e.frame
  context : m.regs Reg.context = e.context
  arguments : ∀ n : UInt8, m.memory.read (e.argument n).addr 8 = Bytes.ofWord (e.world.args n.toNat)
  outside : m.outside = σ.outside
  memory : ∀ x, (Machine.Env.frameBytes stack).Contains x →
    (∀ r ∈ spillSlots a.homes, ¬r.Contains x) → m.memory x = σ.frame x
  temps : ∀ t h, L t → a.home t = some h → h.value m = σ.temps t

variable {e : Machine.Env} {a : Allocation} {stack : Nat} {ps : List Region} {L L' : Temp → Prop}
  {σ : State} {m m' : Machine.State}

theorem slot_of_home {t : Temp} {addr : Int} (h : a.home t = some (.spill addr)) :
    (⟨addr, 8⟩ : Region) ∈ spillSlots a.homes := by
  have hget : a.homes[t]? = some (some (.spill addr)) := Option.join_eq_some_iff.1 h
  refine List.mem_flatMap.2 ⟨some (.spill addr), ?_, List.mem_singleton_self _⟩
  exact Array.mem_toList_iff.2 (Array.mem_of_getElem? hget)

namespace Allocation.Roomy

variable (hroom : a.Roomy stack ps)

include hroom

theorem register_bounds {t : Temp} {r : Reg} (h : a.home t = some (.reg r)) :
    5 < r.val ∧ r.val < 9 := by
  have hbounds : ∀ r ∈ Allocator.registers, 5 < r.val ∧ r.val < 9 := by decide
  exact hbounds r (hroom.pooled t r h)

theorem slot_inside {t : Temp} {addr : Int} (h : a.home t = some (.spill addr)) {x : Int}
    (hx : (Region.mk addr 8).Contains x) : (Machine.Env.frameBytes stack).Contains x := by
  obtain ⟨hlow, hhigh⟩ := hroom.packed.bounds _ (List.mem_append_left _ (slot_of_home h))
  obtain ⟨h1, h2⟩ := hx
  dsimp only at hlow hhigh h1 h2
  constructor <;> dsimp only [Machine.Env.frameBytes] <;> omega

theorem touched {r q : Region} (hq : q ∈ ps) (hr : r.Inside q) {x : Int} (hx : r.Contains x) :
    (Machine.Env.frameBytes stack).Contains x ∧ ∀ s ∈ spillSlots a.homes, ¬s.Contains x := by
  have hqx := hr.contains hx
  obtain ⟨hlow, hhigh⟩ := hroom.packed.bounds q (List.mem_append_right _ hq)
  obtain ⟨h1, h2⟩ := hqx
  refine ⟨?_, fun s hs => ?_⟩
  · constructor <;> dsimp only [Machine.Env.frameBytes] <;> omega
  · have hdisjoint := (List.pairwise_append.1 hroom.packed.disjoint).2.2 s hs q hq
    exact hdisjoint.symm.not_contains ⟨h1, h2⟩

theorem touched_bounds {r q : Region} (hq : q ∈ ps) (hr : r.Inside q) :
    -2 ^ 31 < r.addr ∧ r.addr + r.size ≤ 0 := by
  obtain ⟨k, hk, hsize⟩ := hr
  have hnear := hroom.near q hq
  obtain ⟨-, hhigh⟩ := hroom.packed.bounds q (List.mem_append_right _ hq)
  constructor <;> omega

theorem slots_apart {t u : Temp} {x y : Int} (htu : t ≠ u) (ht : a.home t = some (.spill x))
    (hu : a.home u = some (.spill y)) : (Region.mk x 8).Disjoint ⟨y, 8⟩ :=
  slots_disjoint (List.pairwise_append.1 hroom.packed.disjoint).1 htu
    (Option.join_eq_some_iff.1 ht) (Option.join_eq_some_iff.1 hu)

theorem idle_of_low (L : Temp → Prop) {d : Reg} (hd : d.val ≤ 5) : a.Idle L d where
  usable := by omega
  unused t q _ hq := by
    rintro rfl
    have := hroom.register_bounds hq
    omega

end Allocation.Roomy

namespace Mirrors

theorem mono (h : Mirrors e a stack L σ m) (hsub : ∀ t, L' t → L t) : Mirrors e a stack L' σ m :=
  { h with temps := fun t home ht => h.temps t home (hsub t ht) }

section

variable (hroom : a.Roomy stack ps) (henv : e.Suits stack) (h : Mirrors e a stack L σ m)

include hroom h

theorem keep {o : Outside} (hregs : ∀ r : Reg, 5 < r.val → m'.regs r = m.regs r)
    (hmemory : ∀ x, (Machine.Env.frameBytes stack).Contains x ∨ (∃ n, (e.argument n).Contains x) →
      m'.memory x = m.memory x)
    (hout : m'.outside = o) : Mirrors e a stack L { σ with outside := o } m' where
  frame := (hregs _ (by decide)).trans h.frame
  context := (hregs _ (by decide)).trans h.context
  arguments n := by
    rw [← h.arguments n]
    exact Memory.read_congr fun x h1 h2 => hmemory x (.inr ⟨n, h1, h2⟩)
  outside := hout
  memory x hx hfree := (hmemory x (.inl hx)).trans (h.memory x hx hfree)
  temps t home ht hhome := by
    rw [← h.temps t home ht hhome]
    cases home with
    | reg r => exact hregs r (hroom.register_bounds hhome).1
    | spill addr =>
      refine congrArg Bytes.toWord (Memory.read_congr fun x h1 h2 => hmemory x (.inl ?_))
      exact hroom.slot_inside hhome ⟨h1, h2⟩

theorem effect (o : Outside) :
    Mirrors e a stack L { σ with outside := o } { m.called e with outside := o } :=
  h.keep hroom (fun _ hr => Machine.State.regs_called_of_lt e hr) (fun _ _ => rfl) rfl

theorem called : Mirrors e a stack L σ (m.called e) :=
  h.keep hroom (fun _ hr => Machine.State.regs_called_of_lt e hr) (fun _ _ => rfl) h.outside

omit hroom in
theorem set {d : Reg} (hd : a.Idle L d) (v : UInt64) : Mirrors e a stack L σ (m.set d v) := by
  have hfixed : ∀ {r : Reg}, 9 ≤ r.val → (m.set d v).regs r = m.regs r := by
    intro r hr
    refine Machine.State.regs_set_of_ne v ?_
    rintro rfl
    have := hd.usable
    omega
  refine ⟨(hfixed (by decide)).trans h.frame, (hfixed (by decide)).trans h.context, h.arguments,
    h.outside, h.memory, fun t home ht hhome => ?_⟩
  rw [← h.temps t home ht hhome]
  cases home with
  | reg r => exact Machine.State.regs_set_of_ne v (hd.unused t r ht hhome)
  | spill addr => rfl

theorem byte_eq {r q : Region} (hq : q ∈ ps) (hr : r.Inside q) {x : Int} (hx : r.Contains x) :
    m.memory x = σ.frame x := by
  obtain ⟨hframe, hfree⟩ := hroom.touched hq hr hx
  exact h.memory x hframe hfree

theorem read_eq {r q : Region} (hq : q ∈ ps) (hr : r.Inside q) {addr : Int} {size : Nat}
    (hlow : r.addr ≤ addr) (hhigh : addr + size ≤ r.addr + r.size) :
    m.memory.read addr size = σ.frame.read addr size :=
  Memory.read_congr fun x h1 h2 => h.byte_eq hroom hq hr ⟨by omega, by omega⟩

include henv

theorem show_entry (n : Nat) (id : MapId) {data : List UInt8}
    (hlen : data.length = e.world.valueSize id) :
    Mirrors e a stack L σ (m.write (e.place (e.entry n)) data) := by
  obtain ⟨hframe, harguments⟩ := henv.entries n id
  refine h.keep hroom (fun _ _ => rfl) (fun x hx => ?_) h.outside
  refine m.memory.changedIn_write _ data x fun r hr hc => ?_
  rw [hlen] at hr
  obtain rfl := List.mem_singleton.1 hr
  rcases hx with hx | ⟨k, hx⟩
  · exact hframe.not_contains hc hx
  · exact (harguments k).not_contains hc hx

theorem write {r q : Region} (hq : q ∈ ps) (hr : r.Inside q) {addr : Int} {data : List UInt8}
    (hlow : r.addr ≤ addr) (hhigh : addr + data.length ≤ r.addr + r.size) :
    Mirrors e a stack L (σ.write addr data) (m.write addr data) := by
  have houtside : ∀ x, ¬r.Contains x → (m.memory.write addr data) x = m.memory x := by
    intro x hx
    refine m.memory.changedIn_write addr data x fun s hs hc => hx ?_
    obtain rfl := List.mem_singleton.1 hs
    obtain ⟨h1, h2⟩ := hc
    dsimp only at h1 h2
    exact ⟨by omega, by omega⟩
  refine ⟨h.frame, h.context, fun n => ?_, h.outside, fun x hx hfree => ?_, fun t home ht hhome => ?_⟩
  · rw [← h.arguments n]
    refine Memory.read_congr fun x h1 h2 => houtside x fun hx => ?_
    exact (henv.arguments n).not_contains ⟨h1, h2⟩ (hroom.touched hq hr hx).1
  · have hsame := h.memory x hx hfree
    simp only [Machine.State.memory_write, State.frame_write, Memory.write]
    split
    · rfl
    · exact hsame
  · rw [State.temps_write, ← h.temps t home ht hhome]
    cases home with
    | reg r => rfl
    | spill addr' =>
      refine congrArg Bytes.toWord (Memory.read_congr fun x h1 h2 => houtside x fun hx => ?_)
      exact (hroom.touched hq hr hx).2 _ (slot_of_home hhome) ⟨h1, h2⟩

end

section

variable {x : Temp} {v : UInt64} (h : Mirrors e a stack (fun t => L t ∧ t ≠ x) σ m)

include h

theorem define_reg {r : Reg} (hx : a.home x = some (.reg r)) (hv : m.regs r = v) :
    Mirrors e a stack L (σ.set x v) m := by
  refine ⟨h.frame, h.context, h.arguments, h.outside, h.memory, fun t home ht hhome => ?_⟩
  by_cases htx : t = x
  · subst htx
    obtain rfl := Option.some.inj (hx.symm.trans hhome)
    rw [State.temps_set]
    exact hv
  · rw [State.temps_set_of_ne _ _ htx]
    exact h.temps t home ⟨ht, htx⟩ hhome

theorem define_spill (hroom : a.Roomy stack ps) (henv : e.Suits stack) {addr : Int}
    (hx : a.home x = some (.spill addr)) :
    Mirrors e a stack L (σ.set x v) (m.write addr (Bytes.ofWord v)) := by
  have houtside : ∀ {y : Int} {size : Nat}, (Region.mk y size).Disjoint ⟨addr, 8⟩ →
      (m.memory.write addr (Bytes.ofWord v)).read y size = m.memory.read y size := by
    intro y size hdisjoint
    refine (m.memory.changedIn_write addr (Bytes.ofWord v)).read fun r hr => ?_
    rw [Bytes.length_ofWord] at hr
    exact List.mem_singleton.1 hr ▸ hdisjoint
  refine ⟨h.frame, h.context, fun n => ?_, h.outside, fun y hy hfree => ?_, fun t home ht hhome => ?_⟩
  · rw [← h.arguments n]
    refine houtside ?_
    have hbounds := hroom.packed.bounds _ (List.mem_append_left _ (slot_of_home hx))
    have hframe := henv.arguments n
    simp only [Region.Disjoint, Machine.Env.frameBytes] at hframe hbounds ⊢
    have hsize : (e.argument n).size = 8 := rfl
    omega
  · rw [State.frame_set, ← h.memory y hy hfree]
    refine m.memory.changedIn_write addr (Bytes.ofWord v) y fun r hr => ?_
    rw [Bytes.length_ofWord] at hr
    exact List.mem_singleton.1 hr ▸ hfree _ (slot_of_home hx)
  · by_cases htx : t = x
    · subst htx
      obtain rfl := Option.some.inj (hx.symm.trans hhome)
      rw [State.temps_set, Home.value, Machine.State.memory_write,
        Memory.read_write _ _ (Bytes.length_ofWord v), Bytes.toWord_ofWord]
    · rw [State.temps_set_of_ne _ _ htx, ← h.temps t home ⟨ht, htx⟩ hhome]
      cases home with
      | reg r => rfl
      | spill y => exact congrArg Bytes.toWord (houtside (hroom.slots_apart htx hhome hx))

end

end Mirrors

end Flow

end TraceScript
