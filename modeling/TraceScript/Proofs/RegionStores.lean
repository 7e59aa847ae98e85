import TraceScript.Proofs.MachineMirror

namespace TraceScript

theorem Memory.take_drop_read (m : Memory) (addr : Int) {k width size : Nat} (h : k + width ≤ size) :
    ((m.read addr size).drop k).take width = m.read (addr + k) width := by
  obtain ⟨rest, rfl⟩ := Nat.exists_eq_add_of_le h
  rw [Nat.add_assoc, read_add, List.drop_left' (m.length_read ..), read_add,
    List.take_left' (m.length_read ..)]

namespace Machine

open Bytecode (fetch)

/-- Some bytes that the machine reads or writes at once. -/
structure Access where
  address : UInt64
  width : Nat

/-- The access that an action makes to memory. What a call does there is left to the kernel. -/
def Action.access (m : State) : Action → Option Access
  | load width _ src off => some ⟨m.address src off, width⟩
  | store width dst _ off => some ⟨m.address dst off, width⟩
  | arith .. | move .. | moveLow .. | wide .. | jump _ | test .. | call _ | exit => none

/-- An access at a multiple of its own width, counted from the end of the frame. It is one counted
from the start of memory as well if the frame ends at a whole word. -/
structure Access.Aligned (e : Env) (x : Access) : Prop where
  place : e.place x.address % x.width = 0
  address : e.frame.toNat % 8 = 0 → x.address.toNat % x.width = 0

theorem Env.place_emod (e : Env) (address : UInt64) :
    (e.frame.toNat + e.place address) % 2 ^ 64 = address.toNat := by
  have hplace : e.place address = ((address - e.frame).toNat : Int).bmod (2 ^ 64) :=
    BitVec.toInt_eq_toNat_bmod _
  have hmod : e.place address % (2 ^ 64 : Nat) = (address - e.frame).toNat % (2 ^ 64 : Nat) := by
    rw [hplace, Int.bmod_emod]
  have hframe := e.frame.toNat_lt
  have hlt := address.toNat_lt
  rw [UInt64.toNat_sub] at hmod
  omega

theorem Access.Aligned.frame {e : Env} {m : State} (hm : m.regs Reg.frame = e.frame) {addr : Int}
    (haddr : (Int16.ofInt addr).toInt = addr) {width : Nat} (hwidth : IsWidth width)
    (h : addr % width = 0) : Access.Aligned e ⟨m.address Reg.frame (Int16.ofInt addr), width⟩ := by
  have hplace := e.place_address hm haddr
  refine ⟨?_, fun hframe => ?_⟩
  · rwa [hplace]
  · have hwhole := e.place_emod (m.address Reg.frame (Int16.ofInt addr))
    rw [hplace] at hwhole
    dsimp only
    rcases hwidth with rfl | rfl | rfl | rfl <;> omega

/-- A step whose access to memory, if there is one, is aligned. -/
structure AlignedStep (e : Env) (code : Array Slot) (c d : Config) : Prop where
  step : step e code c = some d
  aligned : ∀ s a x, fetch code c.index = some s → s.action = some a → a.access c.state = some x →
    x.Aligned e

theorem AlignedStep.single {e : Env} {m n : State} {s : Slot} {a : Action} (ha : s.action = some a)
    (hrun : ∀ next, a.run e next m = some (n, 1)) (hx : ∀ x, a.access m = some x → x.Aligned e) :
    RunsBy (AlignedStep e) [s] m n := by
  intro code i hl
  refine .single ⟨step_eq hl.head ha (hrun _), fun s' a' x hs ha' hax => hx x ?_⟩
  obtain rfl : s = s' := Option.some.inj (hl.head.symm.trans hs)
  obtain rfl : a = a' := Option.some.inj (ha.symm.trans ha')
  exact hax

/-- The slots leave some bytes in a region and the rest of memory as it was. -/
structure Fills (e : Env) (ss : List Slot) (addr : Int) (data : List UInt8) (m n : State) :
    Prop where
  sweeps : RunsBy (AlignedStep e) ss m n
  bytes : n.memory.read addr data.length = data
  others : Memory.ChangedIn [⟨addr, data.length⟩] m.memory n.memory

end Machine

namespace Emit

open Machine (Env IsWidth AlignedStep)

theorem width_le {width : Nat} (h : IsWidth width) : width ≤ 8 := by
  unfold IsWidth at h
  omega

/-- The accesses to what is left of a region after some bytes of it, each by its distance from the
start of the region and its width. -/
def chunksFrom (addr : Int) (size done : Nat) : List (Nat × Nat) :=
  if done < size then
    let width := chunkWidth (addr + done) (size - done)
    (done, width) :: chunksFrom addr size (done + width)
  else []
termination_by size - done
decreasing_by
  have := chunkWidth_pos (addr + done) (size - done)
  omega

def chunks (addr : Int) (size : Nat) : List (Nat × Nat) := chunksFrom addr size 0

variable (addr : Int) (size : Nat)

theorem forChunks_eq_forM (action : Nat → Nat → Emit Unit) :
    forChunks addr size action = (chunks addr size).forM fun c => action c.1 c.2 := by
  have hfrom : ∀ done, forChunksFrom addr size action done =
      (chunksFrom addr size done).forM fun c => action c.1 c.2 := by
    intro done
    fun_induction chunksFrom addr size done with
    | case1 done hlt width ih =>
      rw [forChunksFrom, if_pos hlt, List.forM_eq_forM, List.forM_cons]
      rw [← List.forM_eq_forM, ← ih]
    | case2 done hge =>
      rw [forChunksFrom, if_neg hge]
      rfl
  exact hfrom 0

theorem flatMap_chunks :
    (chunks addr size).flatMap (fun c => List.range' c.1 c.2) = List.range size := by
  have hfrom : ∀ done, (chunksFrom addr size done).flatMap (fun c => List.range' c.1 c.2) =
      List.range' done (size - done) := by
    intro done
    fun_induction chunksFrom addr size done with
    | case1 done hlt width ih =>
      have hleft : 0 < size - done := by omega
      have hfits := (widest_chunkWidth (addr + done) hleft).fits
      have hrest : size - done = width + (size - (done + width)) := by omega
      rw [List.flatMap_cons, ih, hrest]
      exact List.range'_append_1
    | case2 done hge =>
      rw [Nat.sub_eq_zero_of_le (Nat.le_of_not_lt hge)]
      rfl
  rw [chunks, hfrom, List.range_eq_range']
  rfl

theorem widest_chunks {c : Nat × Nat} (h : c ∈ chunks addr size) :
    Widest (addr + c.1) (size - c.1) c.2 := by
  have hfrom : ∀ done, c ∈ chunksFrom addr size done → Widest (addr + c.1) (size - c.1) c.2 := by
    intro done hc
    fun_induction chunksFrom addr size done with
    | case1 done hlt width ih =>
      rcases List.mem_cons.1 hc with rfl | hc
      · exact widest_chunkWidth _ (Nat.sub_pos_of_lt hlt)
      · exact ih hc
    | case2 done hge => cases hc
  exact hfrom 0 h

/-- A kind of states that tells the bytes in memory, as far as they lie in some regions. These may be
read and written through the register of the frame. -/
structure View (e : Env) (area : Region → Prop) (P : Memory → Machine.State → Prop) : Prop where
  part : ∀ {r q : Region}, area q → q.addr ≤ r.addr → r.addr + r.size ≤ q.addr + q.size → area r
  frame : ∀ {μ m}, P μ m → m.regs Reg.frame = e.frame
  scratch : ∀ {μ m} v, P μ m → P μ (m.set 0 v)
  read : ∀ {μ m addr size}, area ⟨addr, size⟩ → P μ m → m.memory.read addr size = μ.read addr size
  write : ∀ {μ m addr data}, area ⟨addr, data.length⟩ → P μ m →
    P (μ.write addr data) (m.write addr data)

variable {e : Env} {area : Region → Prop} {P : Memory → Machine.State → Prop} {μ : Memory}
  {addr : Int} {size : Nat}

theorem carries_fill {T : Array Slot → Machine.Config → Machine.Config → Prop} {data : List UInt8}
    (hlen : data.length = size) {action : Nat → Nat → Emit Unit}
    (h : ∀ (ν : Memory) (done width : Nat), Widest (addr + done) (size - done) width → done + width ≤ size →
      ν = μ.write addr (data.take done) → CarriesBy T (P ν)
        (P (ν.write (addr + done) ((data.drop done).take width))) () (action done width)) :
    CarriesBy T (P μ) (P (μ.write addr data)) () (forChunks addr size action) := by
  have hall : CarriesBy T (P (μ.write addr (data.take 0))) (P (μ.write addr (data.take size))) ()
      (forChunks addr size action) := by
    refine carries_forChunks (I := fun done => P (μ.write addr (data.take done)))
      fun done width hwidest hfits => ?_
    have hpart := h _ done width hwidest hfits rfl
    have hdone : (data.take done).length = done := List.length_take_of_le (by omega)
    have hnext := μ.write_append addr (data.take done) ((data.drop done).take width)
    rw [hdone, ← List.take_add] at hnext
    rwa [hnext] at hpart
  rwa [List.take_zero, μ.write_nil, List.take_of_length_le (Nat.le_of_eq hlen)] at hall

section

variable [Ceiling] (hP : View e area P)

include hP

theorem View.load {width : Nat} (hwidth : IsWidth width) (haddr : (Int16.ofInt addr).toInt = addr)
    (haligned : addr % width = 0) (harea : area ⟨addr, width⟩) :
    CarriesBy (AlignedStep e) (P μ) (fun m => P μ m ∧ m.regs 0 = Bytes.toWord (μ.read addr width)) ()
      (push (.load (widthCode width) 0 Reg.frame (Int16.ofInt addr))) := by
  refine .slot fun m hm => ⟨_, AlignedStep.single (Slot.action_load _ _ _ hwidth) (fun _ => rfl) ?_,
    hP.scratch _ hm, ?_⟩
  · rintro x ⟨⟩
    exact .frame (hP.frame hm) haddr hwidth haligned
  · rw [m.regs_set, e.place_address (hP.frame hm) haddr, hP.read harea hm]

theorem View.store {width : Nat} (hwidth : IsWidth width) (haddr : (Int16.ofInt addr).toInt = addr)
    (haligned : addr % width = 0) {data : List UInt8} (harea : area ⟨addr, data.length⟩) {v : UInt64}
    {right : Machine.Operand} {s : Slot}
    (hs : s.action = some (.store width Reg.frame right (Int16.ofInt addr)))
    (hdata : Bytes.ofNat width v.toNat = data) :
    CarriesBy (AlignedStep e) (fun m => P μ m ∧ m.value right = v) (P (μ.write addr data)) ()
      (push s) := by
  refine .slot fun m hm => ⟨_, AlignedStep.single hs (fun _ => rfl) ?_, ?_⟩
  · rintro x ⟨⟩
    exact .frame (hP.frame hm.1) haddr hwidth haligned
  · rw [e.place_address (hP.frame hm.1) haddr, hm.2, hdata]
    exact hP.write harea hm.1

theorem View.storeImm {width : Nat} (hwidth : IsWidth width)
    (haddr : (Int16.ofInt addr).toInt = addr) (haligned : addr % width = 0) {imm : Int32}
    {data : List UInt8} (harea : area ⟨addr, data.length⟩)
    (hdata : Bytes.ofNat width imm.toInt64.toUInt64.toNat = data) :
    CarriesBy (AlignedStep e) (P μ) (P (μ.write addr data)) ()
      (push (.storeImm (widthCode width) Reg.frame (Int16.ofInt addr) imm)) :=
  .weaken (hP.store hwidth haddr haligned harea (Slot.action_storeImm _ _ _ hwidth) hdata)
    fun _ hm => ⟨hm, rfl⟩

theorem View.zero (harea : area ⟨addr, size⟩) :
    CarriesBy (AlignedStep e) (P μ) (P (μ.write addr (List.replicate size 0))) ()
      (Emit.zero addr size) := by
  refine carries_fill List.length_replicate fun ν done width hwidest hfits _ => .offset fun haddr => ?_
  rw [List.drop_replicate, List.take_replicate, Nat.min_eq_left (by omega)]
  refine hP.storeImm hwidest.isWidth haddr hwidest.aligned (hP.part harea ?_ ?_)
    (Bytes.ofNat_zero width) <;> simp only [List.length_replicate] <;> omega

theorem View.storeChunk {data : List UInt8} (hwidth : IsWidth data.length)
    (haligned : addr % data.length = 0) (harea : area ⟨addr, data.length⟩) :
    CarriesBy (AlignedStep e) (P μ) (P (μ.write addr data)) ()
      (Emit.storeChunk addr data.length (Bytes.toNat data)) := by
  refine .offset fun haddr => ?_
  dsimp only
  split
  · rename_i hlen
    rw [hlen] at haligned
    split
    · rename_i hsmall
      have height : IsWidth 8 := .inl rfl
      exact hP.storeImm height haddr haligned harea (by rw [hsmall, Bytes.ofNat_whole hlen])
    · refine .offset fun hnext => ?_
      have hfour : IsWidth 4 := .inr (.inl rfl)
      have hwrite := μ.write_append addr
        (Bytes.ofNat 4 (Int64.ofNat (Bytes.toNat data)).toInt32.toInt64.toUInt64.toNat)
        (Bytes.ofNat 4 (Int64.ofNat (Bytes.toNat data) >>> 32).toInt32.toInt64.toUInt64.toNat)
      rw [Bytes.length_ofNat, Bytes.ofNat_halved hlen] at hwrite
      rw [← hwrite]
      refine .bind (hP.storeImm hfour haddr (by omega) (hP.part harea ?_ ?_) rfl)
        (hP.storeImm hfour hnext (by omega) (hP.part harea ?_ ?_) rfl) <;>
      simp only [Bytes.length_ofNat, hlen] <;> omega
  · rename_i hlen
    have hshort : data.length ≤ 4 := by
      unfold IsWidth at hwidth
      omega
    exact hP.storeImm hwidth haddr haligned harea (Bytes.ofNat_short hshort)

theorem View.storeBytes {data : List UInt8} (harea : area ⟨addr, data.length⟩) :
    CarriesBy (AlignedStep e) (P μ) (P (μ.write addr data)) () (Emit.storeBytes addr data) := by
  refine carries_fill rfl fun ν done width hwidest hfits _ => ?_
  have hlen : ((data.drop done).take width).length = width := by
    rw [List.length_take, List.length_drop]
    omega
  have hpart : area ⟨addr + done, width⟩ :=
    hP.part harea (by dsimp only; omega) (by dsimp only; omega)
  have hstore : ∀ chunk : List UInt8, chunk.length = width →
      CarriesBy (AlignedStep e) (P ν) (P (ν.write (addr + done) chunk)) ()
        (Emit.storeChunk (addr + done) width (Bytes.toNat chunk)) := by
    rintro chunk rfl
    exact hP.storeChunk hwidest.isWidth hwidest.aligned hpart
  exact hstore _ hlen

/-- The accesses to the source stand at the same distance from a whole word as those to the
destination. -/
theorem View.copyBytes {dest source : Int} (hdest : dest % 8 = 0) (hsource : source % 8 = 0)
    (hto : area ⟨dest, size⟩) (hfrom : area ⟨source, size⟩)
    (hapart : (Region.mk dest size).Disjoint ⟨source, size⟩) :
    CarriesBy (AlignedStep e) (P μ) (P (μ.write dest (μ.read source size))) ()
      (Emit.copyBytes dest source size) := by
  refine carries_fill (μ.length_read ..) fun ν done width hwidest hfits hν => ?_
  have hwidth := hwidest.isWidth
  have haligned : (source + done) % width = 0 := by
    have := hwidest.aligned
    rcases hwidth with rfl | rfl | rfl | rfl <;> omega
  -- What was copied so far lies outside of the source.
  have hkept : ν.read (source + done) width = μ.read (source + done) width := by
    rw [hν]
    refine (μ.changedIn_write dest _).read fun r hr => ?_
    obtain rfl := List.mem_singleton.1 hr
    simp only [Region.Disjoint, List.length_take, μ.length_read] at hapart ⊢
    omega
  have hlen : (ν.read (source + done) width).length = width := ν.length_read ..
  have hbytes := Bytes.ofNat_toWord (hlen.symm ▸ width_le hwidth : _ ≤ 8)
  rw [hlen] at hbytes
  rw [μ.take_drop_read source hfits, ← hkept]
  refine .offset fun hsaddr => .bind (hP.load hwidth hsaddr haligned (hP.part hfrom ?_ ?_))
    (.offset fun hdaddr => hP.store hwidth hdaddr hwidest.aligned (hP.part hto ?_ ?_)
      (Slot.action_store _ _ _ hwidth) hbytes) <;> simp only [hlen] <;> omega

end

/-- A state with some bytes in memory, whose frame register points to the end of the frame. -/
structure Framed (e : Env) (μ : Memory) (m : Machine.State) : Prop where
  memory : m.memory = μ
  frame : m.regs Reg.frame = e.frame

theorem view_framed : View e (fun _ => True) (Framed e) where
  part _ _ _ := trivial
  frame h := h.frame
  scratch v h := ⟨h.memory, (Machine.State.regs_set_of_ne v (by decide)).trans h.frame⟩
  read _ h := by rw [h.memory]
  write _ h := ⟨by rw [Machine.State.memory_write, h.memory], h.frame⟩

/-- Whenever the action succeeds, the machine gets from a state through the slots that it has written,
and they fill the region. -/
def FillsRegion (e : Env) (m : Machine.State) (addr : Int) (data : List UInt8) (action : Emit Unit) :
    Prop :=
  ∀ ds es, action ds = .ok () es → ∃ ss n, es.toList = ds.toList ++ ss.map draft ∧
    Machine.Fills e ss addr data m n

theorem CarriesBy.fillsRegion {m : Machine.State} (hm : m.regs Reg.frame = e.frame)
    {data : List UInt8} {action : Emit Unit}
    (h : CarriesBy (AlignedStep e) (Framed e m.memory) (Framed e (m.memory.write addr data)) () action) :
    FillsRegion e m addr data action := by
  intro ds es hes
  obtain ⟨-, ss, hss, hrun⟩ := h.made ds () es hes
  obtain ⟨n, hsweeps, hn⟩ := hrun m ⟨rfl, hm⟩
  refine ⟨ss, n, hss, hsweeps, ?_, ?_⟩
  · rw [hn.memory, m.memory.read_write addr rfl]
  · rw [hn.memory]
    exact m.memory.changedIn_write addr data

/-- Whatever the address, the code for some bytes or for zeros leaves exactly these in the region that
begins there, and the code for a copy leaves the bytes of a region apart from it, if both begin at
whole words. Nothing else in memory changes, and every access is aligned. The accesses lie side by
side from the start of the region to its end, and each is the widest that fits and is aligned. -/
theorem regionStores_exact [Ceiling] (e : Env) (a : Flow.Allocation) {m : Machine.State}
    (hm : m.regs Reg.frame = e.frame) (addr : Int) :
    (∀ data, FillsRegion e m addr data (storeBytes addr data)) ∧
    (∀ size, FillsRegion e m addr (List.replicate size 0) (zero addr size)) ∧
    (∀ source size, addr % 8 = 0 → source % 8 = 0 → (Region.mk addr size).Disjoint ⟨source, size⟩ →
      FillsRegion e m addr (m.memory.read source size) (instruction a (.copy addr source size))) ∧
    ∀ size,
      (∀ action, forChunks addr size action = (chunks addr size).forM fun c => action c.1 c.2) ∧
      (chunks addr size).flatMap (fun c => List.range' c.1 c.2) = List.range size ∧
      ∀ c ∈ chunks addr size, Widest (addr + c.1) (size - c.1) c.2 := by
  refine ⟨fun data => ?_, fun size => ?_, fun source size hdest hsource hapart => ?_, fun size => ?_⟩
  · exact (view_framed.storeBytes trivial).fillsRegion hm
  · exact (view_framed.zero trivial).fillsRegion hm
  · exact (view_framed.copyBytes hdest hsource trivial trivial hapart).fillsRegion hm
  · exact ⟨forChunks_eq_forM addr size, flatMap_chunks addr size, fun c => widest_chunks addr size⟩

/-- A machine without maps, whose frame ends at a whole word. -/
def bareMachine : Env where
  world :=
    { pid := 7, tid := 8, cpu := 1, args := fun _ => 0, comm := [], clock := UInt64.ofNat
      created := fun _ => none }
  frame := 0x10000
  context := 0x20000
  handle _ := 0
  resolve _ := none
  left _ _ := 0
  entry _ := 0

/-- A frame whose bytes tell their own places. -/
def numberedFrame : Machine.State where
  regs _ := 0x10000
  memory x := UInt8.ofInt x
  outside := { store := fun _ _ => none }

/-- Thirteen bytes at an odd address, of which the last eight do not survive as one constant, and a
copy that ends with three bytes. -/
theorem regionStores_exact_odd :
    let data := [1, 2, 3, 4, 0x85, 6, 7, 8, 0x89, 10, 11, 12, 0xff]
    let stores := [Slot.storeImm Opcode.byte Reg.frame (-13) 1,
      .storeImm Opcode.word Reg.frame (-12) (-0x7afbfcfe),
      .storeImm Opcode.word Reg.frame (-8) (-0x76f7f8fa),
      .storeImm Opcode.word Reg.frame (-4) (-0xf3f4f6)]
    let copies := [Slot.load Opcode.double 0 Reg.frame (-32), .store Opcode.double Reg.frame 0 (-16),
      .load Opcode.half 0 Reg.frame (-24), .store Opcode.half Reg.frame 0 (-8),
      .load Opcode.byte 0 Reg.frame (-22), .store Opcode.byte Reg.frame 0 (-6)]
    numberedFrame.regs Reg.frame = bareMachine.frame ∧
    storeBytes (-13) data #[] = .ok () (stores.map draft).toArray ∧
    (∃ n, Machine.Fills bareMachine stores (-13) data numberedFrame n) ∧
    instruction {} (.copy (-16) (-32) 11) #[] = .ok () (copies.map draft).toArray ∧
    ∃ n, Machine.Fills bareMachine copies (-16) (numberedFrame.memory.read (-32) 11) numberedFrame
      n := by
  intro data stores copies
  have hframe : numberedFrame.regs Reg.frame = bareMachine.frame := rfl
  have hslots : ∀ ss ts : List Slot, (ss.map draft).toArray.toList = #[].toList ++ ts.map draft →
      ts = ss := fun ss ts h =>
    List.map_injective_iff.2 (fun s t h => congrArg Draft.slot h) (by simpa using h.symm)
  have hstore : storeBytes (-13) data #[] = .ok () (stores.map draft).toArray := by cbv
  have hcopy : instruction {} (.copy (-16) (-32) 11) #[] = .ok () (copies.map draft).toArray := by cbv
  have hstored := regionStores_exact bareMachine {} hframe (-13)
  have hcopied := regionStores_exact bareMachine {} hframe (-16)
  obtain ⟨ss, n, hss, hn⟩ := hstored.1 data _ _ hstore
  have hapart : (Region.mk (-16) 11).Disjoint ⟨-32, 11⟩ := .inr (by decide)
  obtain ⟨ts, k, hts, hk⟩ := hcopied.2.2.1 (-32) 11 (by decide) (by decide) hapart _ _ hcopy
  obtain rfl := hslots _ _ hss
  obtain rfl := hslots _ _ hts
  exact ⟨hframe, hstore, ⟨n, hn⟩, hcopy, ⟨k, hk⟩⟩

end Emit

end TraceScript
