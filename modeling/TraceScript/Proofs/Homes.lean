import TraceScript.Proofs.Allocated

namespace TraceScript.Flow

/-- The first slots below a frame. -/
def slotsBelow (f : Frame) (n : Nat) : List Region :=
  (List.range n).map fun j : Nat => ⟨f.top - 8 * (j + 1), 8⟩

theorem slotsBelow_succ (f : Frame) (n : Nat) :
    (slotsBelow f (n + 1)).Perm (⟨f.top - 8 * (n + 1), 8⟩ :: slotsBelow f n) := by
  rw [slotsBelow, List.range_succ, List.map_append]
  exact List.perm_append_singleton ..

theorem slotsBelow_disjoint (f : Frame) (n : Nat) : (slotsBelow f n).Pairwise Region.Disjoint := by
  refine List.pairwise_map.2 (List.pairwise_lt_range.imp fun {i j} hij => ?_)
  have hij' : (i : Int) < j := Int.ofNat_lt.2 hij
  right
  dsimp only
  omega

theorem length_slots (h : Option Home) :
    (Home.slots h).length = if h.any Home.isSpill then 1 else 0 := by
  rcases h with _ | _ | _ <;> rfl

theorem length_spillSlots (homes : Array (Option Home)) :
    (spillSlots homes).length = homes.countP fun h => h.any Home.isSpill := by
  rw [spillSlots, ← Array.countP_toList]
  induction homes.toList with
  | nil => rfl
  | cons h hs ih =>
    rw [List.flatMap_cons, List.length_append, ih, length_slots, List.countP_cons, Nat.add_comm]

theorem isSpill_iff {h : Option Home} :
    h.any Home.isSpill = true ↔ ∃ addr, h = some (.spill addr) := by
  rcases h with _ | _ | addr
  · exact ⟨nofun, nofun⟩
  · exact ⟨nofun, nofun⟩
  · exact ⟨fun _ => ⟨addr, rfl⟩, fun _ => rfl⟩

namespace Numbering

/-- No temporary is marked as living in the frame. -/
def Unflagged (n : Numbering) : Prop :=
  ∀ (t : Nat) (info : TempInfo), n.temps[t]? = some info → info.spilled = false

namespace Unflagged

variable {n : Numbering}

theorem modify (h : n.Unflagged) (t : Temp) {g : TempInfo → TempInfo}
    (hg : ∀ info, (g info).spilled = info.spilled) :
    ({ n with temps := n.temps.modify t g } : Numbering).Unflagged := by
  intro u info hu
  rw [Array.getElem?_modify] at hu
  split at hu
  · obtain ⟨info', hinfo', rfl⟩ := Option.map_eq_some_iff.1 hu
    exact (hg info').trans (h u info' hinfo')
  · exact h u info hu

theorem useAll (h : n.Unflagged) (k : Numbering → Nat) (us : List Temp) :
    (us.foldl (fun n t => n.use (k n) t) n).Unflagged := by
  induction us generalizing n with
  | nil => exact h
  | cons t us ih => exact ih (h.modify t fun _ => rfl)

theorem instruction (h : n.Unflagged) (i : Instruction) : (n.instruction i).Unflagged := by
  have hdefine : (n.define i.def?).Unflagged := by
    cases i.def? with
    | none => exact h
    | some t => exact h.modify t fun _ => rfl
  exact hdefine.useAll Numbering.index i.uses

theorem block (h : n.Unflagged) (b : Block) : (n.block b).Unflagged := by
  have hcode : (b.code.foldl Numbering.instruction n).Unflagged :=
    Array.foldl_induction (fun _ => Unflagged) h fun i n hn => hn.instruction _
  rw [Numbering.block]
  split
  · exact hcode
  · exact hcode.useAll (fun n => n.index - 1) _

end Unflagged

end Numbering

namespace Allocator

/-- The account of an allocation that began in a frame with some temporaries. -/
structure Tallied (f : Frame) (temps : Array TempInfo) (a : Allocator) : Prop where
  slots : (spillSlots a.homes).Perm (slotsBelow f (spillSlots a.homes).length)
  top : a.frame.top = f.top - 8 * ((spillSlots a.homes).length : Int)
  flags : ∀ t, a.temps[t]? = (temps[t]?).map fun i : TempInfo =>
    { i with spilled := i.spilled || (a.homeOf t).any Home.isSpill }

namespace Tallied

variable {f : Frame} {temps : Array TempInfo} {a : Allocator}

theorem start (f : Frame) (temps : Array TempInfo) (n : Nat) :
    ({ homes := Array.replicate n none, temps, frame := f } : Allocator).Tallied f temps where
  slots := by rw [spillSlots_replicate]; exact .refl _
  top := by rw [spillSlots_replicate]; simp
  flags t := by
    have hnone : (Array.replicate n (none : Option Home))[t]?.join = none := by
      rw [Array.getElem?_replicate]
      split <;> rfl
    simp [homeOf, hnone]

theorem release (h : a.Tallied f temps) (p : Pool) :
    ({ a with pool := p } : Allocator).Tallied f temps :=
  ⟨h.slots, h.top, h.flags⟩

theorem spill (h : a.Tallied f temps) {t : Temp} {old : Option Home} (ht : a.homes[t]? = some old)
    (hold : Home.slots old = []) : (a.spill t).Tallied f temps := by
  have hlt : t < a.homes.size := (Array.getElem?_eq_some_iff.1 ht).1
  have hset : (spillSlots (a.spill t).homes).Perm
      (⟨(a.frame.reserve 8).1, 8⟩ :: spillSlots a.homes) := spillSlots_set ht hold
  have haddr : (a.frame.reserve 8).1 = a.frame.top - 8 := rfl
  have hlen : (spillSlots (a.spill t).homes).length = (spillSlots a.homes).length + 1 :=
    hset.length_eq
  constructor
  case slots =>
    rw [hlen]
    refine (hset.trans ?_).trans (slotsBelow_succ f _).symm
    have hslot : (a.frame.reserve 8).1 = f.top - 8 * ((spillSlots a.homes).length + 1) := by
      rw [haddr, h.top]
      omega
    rw [hslot]
    exact h.slots.cons _
  case top =>
    change a.frame.top - 8 = _
    rw [hlen, h.top]
    push_cast
    omega
  case flags =>
    intro u
    rw [Fair.homeOf_spill a hlt]
    change (a.temps.modify t fun i => { i with spilled := true })[u]? = _
    rw [Array.getElem?_modify, h.flags u]
    by_cases hu : t = u
    · subst hu
      cases temps[t]? <;> simp [Home.isSpill]
    · rw [if_neg hu, if_neg (Ne.symm hu)]

theorem occupy (h : a.Tallied f temps) {v : Interval} (ht : a.homes[v.temp]? = some none) (i : Nat) :
    (a.occupy i v).Tallied f temps := by
  unfold Allocator.occupy
  split
  · exact h
  · rename_i e _
    have hset : (spillSlots (a.homes.setIfInBounds v.temp (some (.reg e.reg)))).Perm
        (spillSlots a.homes) := spillSlots_set ht rfl
    have hlt : v.temp < a.homes.size := (Array.getElem?_eq_some_iff.1 ht).1
    constructor
    case slots => rw [hset.length_eq]; exact hset.trans h.slots
    case top => rw [hset.length_eq]; exact h.top
    case flags =>
      intro u
      rw [h.flags u, homeOf, homeOf, homeOf_set hlt]
      split
      · rename_i hu
        rw [hu, ht]
        rfl
      · rfl

variable {n now : Nat} {done : List Interval}

theorem allocate (h : a.Tallied f temps) (hfair : a.Fair f n now done) {v : Interval}
    (hnow : now ≤ v.start) (hv : v.temp < n) (hnew : ∀ u ∈ done, u.temp ≠ v.temp)
    (hints : Array (Option Temp)) : (a.allocate hints v).Tallied f temps := by
  have hreleased := hfair.release hnow
  have htallied := h.release (a.pool.release v.start)
  have hnone := hreleased.homes_of_fresh hv hnew
  unfold Allocator.allocate
  dsimp only
  split
  · exact htallied.occupy hnone _
  · split
    · rename_i i o hvictim
      split
      · obtain ⟨e, hi, ho⟩ := Pool.victim_ok hvictim
        obtain ⟨hmem, hhas⟩ := hreleased.occupied i e o hi ho
        -- The victim holds a register, so it has no slot yet, and it is not the new range.
        have hold : a.homes[o.temp]? = some (some (.reg e.reg)) := by
          cases hget : a.homes[o.temp]? with
          | none => rw [homeOf, hget] at hhas; cases hhas
          | some x => rw [homeOf, hget, Option.join_some] at hhas; rw [hhas]
        refine (htallied.spill hold rfl).occupy ?_ i
        change (a.homes.setIfInBounds o.temp _)[v.temp]? = _
        rw [Array.getElem?_setIfInBounds, if_neg (hnew o hmem)]
        exact hnone
      · exact htallied.spill hnone rfl
    · exact htallied.spill hnone rfl

theorem allocateAll (hints : Array (Option Temp)) {vs : List Interval} (h : a.Tallied f temps)
    (hfair : a.Fair f n now done) (hsorted : vs.Pairwise (·.start ≤ ·.start))
    (hnow : ∀ v ∈ vs, now ≤ v.start) (hv : ∀ v ∈ vs, v.temp < n)
    (honce : vs.Pairwise (·.temp ≠ ·.temp)) (hnew : ∀ v ∈ vs, ∀ u ∈ done, u.temp ≠ v.temp) :
    (vs.foldl (Allocator.allocate hints) a).Tallied f temps := by
  induction vs generalizing a now done with
  | nil => exact h
  | cons v vs ih =>
    rw [List.pairwise_cons] at hsorted honce
    have hnow' := hnow v List.mem_cons_self
    have hv' := hv v List.mem_cons_self
    have hnew' := hnew v List.mem_cons_self
    refine ih (h.allocate hfair hnow' hv' hnew' hints) (hfair.allocate hnow' hv' hnew' hints)
      hsorted.2 hsorted.1 (fun u hu => hv u (List.mem_cons_of_mem _ hu)) honce.2 ?_
    intro u hu w hw
    rcases List.mem_cons.1 hw with rfl | hw
    · exact honce.1 u hu
    · exact hnew u (List.mem_cons_of_mem _ hu) w hw

end Tallied

end Allocator

/-- What may be relied on when the temporaries of a program get their homes in a frame in which some
regions are reserved. The slots in the frame follow its lowest address, which is below these regions
if they have less than `2 ^ 31` bytes. -/
structure Allocated.Sound (p : Program) (reserved : List Region × Frame) (a : Allocated) : Prop where
  settled : ∀ t, (a.allocation.home t).isSome ↔
    t < p.temps.size ∧ ∃ i ∈ p.instructions, i.def? = some t
  apart : ∀ v ∈ a.program.ranges, ∀ w ∈ a.program.ranges, v.temp ≠ w.temp → v.start < w.stop →
    w.start < v.stop → ∀ r, a.allocation.home v.temp = some (.reg r) →
    a.allocation.home w.temp ≠ some (.reg r)
  pooled : ∀ t r, a.allocation.home t = some (.reg r) → r = 6 ∨ r = 7 ∨ r = 8
  distinct : ∀ t u x y, t ≠ u → a.allocation.home t = some (.spill x) →
    a.allocation.home u = some (.spill y) → (Region.mk x 8).Disjoint ⟨y, 8⟩
  flagged : ∀ t info, a.program.temps[t]? = some info →
    (info.spilled = true ↔ ∃ x, a.allocation.home t = some (.spill x))
  lower : ∀ t x, a.allocation.home t = some (.spill x) → x + 8 ≤ reserved.2.top
  lowered : a.frame.top = reserved.2.top - 8 * (a.allocation.spilled : Int)
  below : (reserved.1.map Region.size).sum < 2 ^ 31 → ∀ t x,
    a.allocation.home t = some (.spill x) → ∀ r ∈ reserved.1, x + 8 ≤ r.addr
  grown : (reserved.1.map Region.size).sum < 2 ^ 31 →
    a.frame.usage = reserved.2.usage + 8 * a.allocation.spilled
  fits : (reserved.1.map Region.size).sum < 2 ^ 31 →
    (a.frame.fits = true ↔ (reserved.1.map Region.size).sum + 8 * a.allocation.spilled ≤ 2 ^ 31)

namespace Program

theorem allocate_tallied (p : Program) (f : Frame) :
    (p.allocateAlong f p.intervals).Tallied f p.temps :=
  (Allocator.Tallied.start f p.temps p.temps.size).allocateAll p.hints (.start ..)
    p.intervals_sorted (fun _ _ => Nat.zero_le _) p.intervals_temp_lt p.intervals_once
    (fun _ _ _ hu => (List.not_mem_nil hu).elim)

theorem spilled_analyze {p : Program} {t : Temp} {info : TempInfo}
    (h : p.analyze.temps[t]? = some info) : info.spilled = false := by
  have hstart : Numbering.Unflagged { temps := p.temps.map TempInfo.unknown } := by
    intro u info hu
    rw [Array.getElem?_map] at hu
    obtain ⟨_, -, rfl⟩ := Option.map_eq_some_iff.1 hu
    rfl
  have hall : Numbering.Unflagged (p.analyze.blocks.foldl Numbering.block _) :=
    Array.foldl_induction (fun _ => Numbering.Unflagged) hstart fun i n hn => hn.block _
  exact hall t info h

theorem mem_ranges_allocate {p : Program} {f : Frame} {v : Interval}
    (h : v ∈ (p.allocate f).program.ranges) : v ∈ p.intervals := by
  obtain ⟨info, hinfo, hstart, hstop⟩ := mem_ranges.1 h
  have hflags : (p.allocate f).program.temps[v.temp]? = _ := (p.allocate_tallied f).flags v.temp
  rw [hflags] at hinfo
  obtain ⟨info', hinfo', rfl⟩ := Option.map_eq_some_iff.1 hinfo
  exact p.intervals_perm.mem_iff.2 (mem_ranges.2 ⟨info', hinfo', hstart, hstop⟩)

theorem lower_of_spill (p : Program) (f : Frame) {t : Temp} {x : Int}
    (h : (p.allocate f).allocation.home t = some (.spill x)) : x + 8 ≤ f.top := by
  have hmem : (⟨x, 8⟩ : Region) ∈ spillSlots (p.allocateAlong f p.intervals).homes :=
    List.mem_flatMap.2 ⟨_, Array.mem_toList_iff.2 (Array.mem_of_getElem? (Option.join_eq_some_iff.1 h)),
      List.mem_singleton_self _⟩
  obtain ⟨j, -, hj⟩ := List.mem_map.1 ((p.allocate_tallied f).slots.mem_iff.1 hmem)
  have haddr := congrArg Region.addr hj
  dsimp only at haddr
  omega

theorem top_allocate (p : Program) (f : Frame) :
    (p.allocate f).frame.top = f.top - 8 * ((p.allocate f).allocation.spilled : Int) := by
  have hcount : (p.allocate f).allocation.spilled =
      (spillSlots (p.allocateAlong f p.intervals).homes).length := (length_spillSlots _).symm
  rw [hcount]
  exact (p.allocate_tallied f).top

/-- Homes are given out soundly in every program, whatever its blocks and edges are, and after any
reservations. -/
theorem allocate_sound (p : Program) (sizes : List Nat) :
    (p.analyze.allocate (({} : Frame).reserveAll sizes).2).Sound p (({} : Frame).reserveAll sizes) := by
  have hbounds := ({} : Frame).reserveAll_bounds sizes
  generalize ({} : Frame).reserveAll sizes = reserved at hbounds
  obtain ⟨rs, f⟩ := reserved
  dsimp only at hbounds ⊢
  obtain ⟨now, hfair⟩ := p.analyze.allocate_fair f
  have htallied := p.analyze.allocate_tallied f
  have htop := p.analyze.top_allocate f
  have hstart : ({} : Frame).top = 0 := rfl
  constructor
  case settled =>
    intro t
    rw [← p.exists_range_iff]
    constructor
    · intro h
      by_contra hnone
      have hfresh := hfair.fresh t fun v hv heq => hnone ⟨v, List.mem_reverse.1 hv, heq⟩
      exact Option.isSome_iff_ne_none.1 h hfresh
    · rintro ⟨v, hv, rfl⟩
      exact hfair.settled v (List.mem_reverse.2 hv)
  case apart =>
    intro v hv w hw hne hvw hwv r hr hr'
    have hv := List.mem_reverse.2 (mem_ranges_allocate hv)
    have hw := List.mem_reverse.2 (mem_ranges_allocate hw)
    rcases hfair.apart v hv w hw hne r hr hr' with h | h <;> omega
  case pooled =>
    intro t r hr
    simpa [Allocator.registers] using hfair.pooled t r hr
  case distinct =>
    intro t u x y htu ht hu
    have hdisjoint := (htallied.slots.pairwise_iff Region.Disjoint.symm).2 (slotsBelow_disjoint f _)
    exact slots_disjoint hdisjoint htu (Option.join_eq_some_iff.1 ht) (Option.join_eq_some_iff.1 hu)
  case flagged =>
    intro t info hinfo
    have hflags : (p.analyze.allocate f).program.temps[t]? = _ := htallied.flags t
    rw [hflags] at hinfo
    obtain ⟨info', hinfo', rfl⟩ := Option.map_eq_some_iff.1 hinfo
    rw [spilled_analyze hinfo', Bool.false_or]
    exact isSpill_iff
  case lower => exact fun t x hx => p.analyze.lower_of_spill f hx
  case lowered => exact htop
  case below =>
    intro hsum t x hx r hr
    exact (p.analyze.lower_of_spill f hx).trans ((hbounds hsum).2 r hr)
  case grown =>
    intro hsum
    have hf := (hbounds hsum).1
    dsimp only at hsum ⊢
    rw [Frame.usage, Frame.usage, htop]
    omega
  case fits =>
    intro hsum
    have hf := (hbounds hsum).1
    dsimp only at hsum ⊢
    have hmin : Int32.minValue.toInt = -2 ^ 31 := by decide
    have hmax : Int32.maxValue.toInt = 2 ^ 31 - 1 := by decide
    rw [Frame.fits, Bool.and_eq_true, decide_eq_true_eq, decide_eq_true_eq, htop]
    omega

/-- Four values at once, of which the first is needed longest. -/
def crowded : Program where
  blocks := #[{ code := #[.imm 0 0, .imm 1 1, .imm 2 2, .imm 3 3, .store 3 (-8), .store 2 (-8),
    .store 1 (-8), .store 0 (-8), .ret] }]
  temps := #[{}, {}, {}, {}]

theorem crowded_homes : ∀ top ∈ [-8, 0, 8],
    (crowded.analyze.allocate ⟨top⟩).allocation.homes =
      #[some (.spill (top - 8)), some (.reg 7), some (.reg 8), some (.reg 6)] := by
  have heval : ∀ top ∈ [-8, 0, 8], (crowded.analyze.allocateAlong ⟨top⟩
      (crowded.analyze.ranges.insertionSort fun a b => a.le b)).homes =
      #[some (.spill (top - 8)), some (.reg 7), some (.reg 8), some (.reg 6)] := by decide +kernel
  intro top htop
  have hhomes := heval top htop
  rw [← intervals_eq] at hhomes
  exact hhomes

theorem crowded_spilled (top : Int) (h : top ∈ [-8, 0, 8]) :
    (crowded.analyze.allocate ⟨top⟩).allocation.spilled = 1 :=
  congrArg (fun homes => Allocation.spilled ⟨homes⟩) (crowded_homes top h)

theorem crowded_sound :
    let a := crowded.analyze.allocate ⟨-8⟩
    a.allocation.homes = #[some (.spill (-16)), some (.reg 7), some (.reg 8), some (.reg 6)] ∧
      a.Sound crowded (({} : Frame).reserveAll [8]) ∧ a.frame.usage = 16 ∧ a.frame.fits = true := by
  have hspilled := crowded_spilled (-8) (by decide)
  have hsound : (crowded.analyze.allocate ⟨-8⟩).Sound crowded (({} : Frame).reserveAll [8]) :=
    crowded.allocate_sound [8]
  exact ⟨crowded_homes (-8) (by decide), hsound, (hsound.grown (by decide)).trans (by rw [hspilled]; rfl),
    (hsound.fits (by decide)).2 (by rw [hspilled]; decide)⟩

/-- A region of `2 ^ 32 - 8` bytes lifts the lowest address by 8 bytes. The next slot is one that was
reserved before, and the use of the frame shrinks. -/
theorem crowded_slot_reused :
    (⟨-8, 8⟩ ∈ (({} : Frame).reserveAll [8, 4294967288]).1 ∧
      (crowded.analyze.allocate (({} : Frame).reserveAll [8, 4294967288]).2).allocation.home 0 =
        some (.spill (-8))) ∧
    (({} : Frame).reserveAll [4294967288]).2.usage = 8 ∧
    (crowded.analyze.allocate (({} : Frame).reserveAll [4294967288]).2).allocation.spilled = 1 ∧
    (crowded.analyze.allocate (({} : Frame).reserveAll [4294967288]).2).frame.usage = 0 := by
  have hlifted : (({} : Frame).reserveAll [8, 4294967288]).2 = ⟨0⟩ := by decide
  have habove : (({} : Frame).reserveAll [4294967288]).2 = ⟨8⟩ := by decide
  have hspilled := crowded_spilled 8 (by decide)
  rw [hlifted, habove]
  refine ⟨⟨by decide, ?_⟩, by decide, hspilled, ?_⟩
  · exact congrArg (fun homes => Allocation.home ⟨homes⟩ 0) (crowded_homes 0 (by decide))
  · rw [Frame.usage, top_allocate, hspilled]
    decide

end Program

end TraceScript.Flow
