import TraceScript.Proofs.CallCode

/-!
Machine code does what the program does that it was generated from. At every place of a program, the
temporaries that are still needed have homes that nothing else uses. So each step of the program is
followed by some steps of the machine, which end with the same maps, the same events in the same order
and the same frame apart from the slots of temporaries.
-/
namespace TraceScript

namespace Flow

namespace Program

variable {p : Program} {v : Interval} {n : Nat} {i : Instruction}

theorem range_info (hv : v ∈ p.analyze.ranges) : ∃ info, p.analyze.temps[v.temp]? = some info ∧
    info.firstDef = some v.start ∧ info.stop = some v.stop ∧ v.temp < p.temps.size := by
  obtain ⟨info, hinfo, hstart, hstop⟩ := mem_ranges.1 hv
  refine ⟨info, hinfo, hstart, hstop, ?_⟩
  rw [← p.numbered_analyze.size]
  exact (Array.getElem?_eq_some_iff.1 hinfo).1

theorem range_start (hv : v ∈ p.analyze.ranges) :
    p.instructions.findIdx? (fun i => i.def? = some v.temp) = some v.start := by
  obtain ⟨info, hinfo, hstart, -, hlt⟩ := range_info hv
  rw [← p.numbered_analyze.firstDef v.temp hlt, Numbering.firstDef, hinfo]
  exact hstart

theorem range_start_le (hv : v ∈ p.analyze.ranges) (hi : p.instructions[n]? = some i)
    (hdef : i.def? = some v.temp) : v.start ≤ n := by
  obtain ⟨hlt, -, hbefore⟩ := List.findIdx?_eq_some_iff_getElem.1 (range_start hv)
  obtain ⟨hn, rfl⟩ := List.getElem?_eq_some_iff.1 hi
  by_contra hge
  have hno := hbefore n (by omega)
  simp [hdef] at hno

theorem le_range_stop (hv : v ∈ p.analyze.ranges) (hi : p.instructions[n]? = some i)
    (huse : v.temp ∈ i.uses) : n ≤ v.stop := by
  obtain ⟨info, hinfo, hstart, hstop, hlt⟩ := range_info hv
  obtain ⟨u, hu, hn⟩ := p.numbered_analyze.lastUse n i hi v.temp huse hlt
  have hlast : info.lastUse = some u := by
    simpa [hinfo] using hu
  rw [TempInfo.stop, hstart, hlast] at hstop
  have := Option.some.inj hstop
  omega

theorem range_start_le_stop (hv : v ∈ p.analyze.ranges) : v.start ≤ v.stop := by
  obtain ⟨info, -, hstart, hstop, -⟩ := range_info hv
  rw [TempInfo.stop, hstart] at hstop
  cases hlast : info.lastUse with
  | none =>
    rw [hlast] at hstop
    exact Nat.le_of_eq (Option.some.inj hstop)
  | some u =>
    rw [hlast] at hstop
    have := Option.some.inj hstop
    omega

end Program

/-- The temporaries that were given a value in one piece of code and are read in another. -/
def Needed (c d : List Instruction) (t : Temp) : Prop := t ∈ defs c ∧ ∃ i ∈ d, t ∈ i.uses

namespace Program.Ordered

variable {p : Program} (h : p.Ordered) {b : Nat} {c d : List Instruction} {i : Instruction}
  (hcode : p.codeAt b = c ++ i :: d)

include h hcode

theorem range_of_def {v : Interval} (hv : v ∈ p.analyze.ranges) (hdef : i.def? = some v.temp) :
    v.start ≤ p.offset b + c.length ∧ p.offset b + c.length ≤ v.stop := by
  have hi := instruction_of_code hcode
  refine ⟨range_start_le hv hi hdef, ?_⟩
  by_cases hbefore : v.temp ∈ defs c
  · exact le_range_stop hv hi (h.redefined b c i d hcode v.temp hdef hbefore)
  · -- There is no definition before this one, in this block or in another.
    obtain ⟨hlt, hfirst, -⟩ := List.findIdx?_eq_some_iff_getElem.1 (range_start hv)
    obtain ⟨b', c', d', hcode', hplace⟩ := code_of_instruction (List.getElem?_eq_getElem hlt)
    have hfirst : (p.instructions[v.start]).def? = some v.temp := by simpa using hfirst
    obtain rfl : b' = b := by
      refine h.apart b' b v.temp ?_ ?_
      · exact hcode' ▸ mem_defs.2 ⟨_, List.mem_append_right _ List.mem_cons_self, hfirst⟩
      · exact hcode ▸ mem_defs.2 ⟨_, List.mem_append_right _ List.mem_cons_self, hdef⟩
    have hle : c.length ≤ c'.length := by
      by_contra hshort
      have hget : (c)[c'.length]? = some p.instructions[v.start] := by
        rw [← List.getElem?_append_left (by omega), ← hcode, hcode',
          List.getElem?_append_right (Nat.le_refl _), Nat.sub_self]
        rfl
      exact hbefore (mem_defs.2 ⟨_, List.mem_of_getElem? hget, hfirst⟩)
    have := range_start_le_stop hv
    omega

omit h in
theorem range_of_needed {v : Interval} (hv : v ∈ p.analyze.ranges)
    (hneeded : Needed (c ++ [i]) d v.temp) (hdef : i.def? ≠ some v.temp) :
    v.start < p.offset b + c.length ∧ p.offset b + c.length < v.stop := by
  obtain ⟨hmem, j, hj, huse⟩ := hneeded
  obtain ⟨j', hj', hdef'⟩ := mem_defs.1 hmem
  have hbefore : j' ∈ c := by
    rcases List.mem_append.1 hj' with hj' | hj'
    · exact hj'
    · obtain rfl := List.mem_singleton.1 hj'
      exact (hdef hdef').elim
  obtain ⟨c₁, c₂, rfl⟩ := List.append_of_mem hbefore
  obtain ⟨d₁, d₂, rfl⟩ := List.append_of_mem hj
  have hstart := range_start_le hv (instruction_of_code (c := c₁) (i := j')
    (by rw [hcode, List.append_assoc]; rfl)) hdef'
  have hstop := le_range_stop hv (instruction_of_code (c := c₁ ++ j' :: c₂ ++ i :: d₁) (i := j) (d := d₂)
    (by rw [hcode]; simp)) huse
  simp only [List.length_append, List.length_cons] at hstop ⊢
  omega

/-- From one place to the next, nothing that is still needed shares a register with what is
defined. -/
theorem passes (frame : Frame) : i.Passes (p.analyze.allocate frame).allocation
    (Needed c (i :: d)) (Needed (c ++ [i]) d) := by
  obtain ⟨now, hfair⟩ := p.analyze.allocate_fair frame
  have hrange : ∀ {t : Temp} {r : Reg},
      (p.analyze.allocate frame).allocation.home t = some (.reg r) →
      ∃ v ∈ p.analyze.intervals.reverse, v.temp = t ∧ v ∈ p.analyze.ranges := by
    intro t r ht
    by_contra hnone
    have hfresh := hfair.fresh t fun v hv heq => hnone ⟨v, hv, heq,
      p.analyze.intervals_perm.mem_iff.1 (List.mem_reverse.1 hv)⟩
    cases hfresh.symm.trans ht
  constructor
  case uses => exact fun t ht => ⟨h.isLocal b c i d hcode t ht, i, List.mem_cons_self, ht⟩
  case kept =>
    rintro t ⟨hmem, j, hj, huse⟩ hdef
    refine ⟨?_, j, List.mem_cons_of_mem _ hj, huse⟩
    obtain ⟨j', hj', hdef'⟩ := mem_defs.1 hmem
    rcases List.mem_append.1 hj' with hj' | hj'
    · exact mem_defs.2 ⟨j', hj', hdef'⟩
    · obtain rfl := List.mem_singleton.1 hj'
      exact (hdef hdef').elim
  case apart =>
    intro t x ht hx hne r hhome hhome'
    obtain ⟨u, hu, rfl, hu'⟩ := hrange hhome
    obtain ⟨v, hv, rfl, hv'⟩ := hrange hhome'
    have hneeded := range_of_needed hcode hu' ht fun hdef => hne (Option.some.inj (hdef.symm.trans hx))
    have hdefined := h.range_of_def hcode hv' hx
    rcases hfair.apart u hu v hv hne r hhome hhome' with hlt | hlt <;> omega

end Program.Ordered

theorem Program.allocate_roomy (p : Program) {frame : Frame} {ps : List Region}
    (hpacked : Packed frame.top ps) (hsizes : ∀ r ∈ ps, r.size % 8 = 0) (hnear : -2 ^ 31 < frame.top) :
    (p.allocate frame).allocation.Roomy (p.allocate frame).frame.usage ps := by
  obtain ⟨now, hfair⟩ := p.allocate_fair frame
  obtain ⟨hslots, -⟩ := hfair.slots ps hpacked hsizes
  have htop : (p.allocate frame).frame.top = -((p.allocate frame).frame.usage : Int) := by
    have htotal : _ = -(p.allocate frame).frame.top := hslots.total
    rw [Frame.usage]
    omega
  refine ⟨hfair.pooled, htop ▸ hslots, fun q hq => ?_⟩
  have := (hpacked.bounds q hq).1
  omega

end Flow

open TraceScript.Flow Emit

theorem Emit.Lies.liesAt {code : Array Slot} {starts : Array Nat} {i : Nat} {ss : List Slot}
    {ds : List Draft} (h : Lies code starts i (ss.map draft ++ ds)) : Machine.LiesAt code i ss := by
  intro k s hs
  have hk := (List.getElem?_eq_some_iff.1 hs).1
  have hdraft : (ss.map draft ++ ds)[k]? = some (draft s) := by
    rw [List.getElem?_append_left (by rwa [List.length_map]), List.getElem?_map, hs]
    rfl
  obtain ⟨s', haim, hs'⟩ := h k _ hdraft
  obtain rfl := Except.ok.inj haim
  exact (Bytecode.fetch_natCast (i + k)).trans hs'

section

variable {e : Machine.Env} {a : Allocation} {stack : Nat} {ps : List Region} {p : Program}
  {code : Array Slot} {σ : Flow.State} {m : Machine.State} {b : Nat} {c d : List Instruction}
  {i : Instruction}

/-- What a program and its homes have to satisfy. -/
structure Flow.Program.Housed (p : Program) (w : World) (a : Allocation) (ps : List Region) : Prop where
  safe : ∀ b, ∀ i ∈ p.codeAt b, i.Safe w ps
  passes : ∀ b c i d, p.codeAt b = c ++ i :: d → i.Passes a (Needed c (i :: d)) (Needed (c ++ [i]) d)

variable (hgen : Bytecode.Generated p a code) (hroom : a.Roomy stack ps) (henv : e.Suits stack)
  (hhoused : p.Housed e.world a ps)

theorem Flow.Program.lt_size_of_code (hcode : p.codeAt b = c ++ i :: d) : b < p.blocks.size := by
  by_contra hge
  have hnone : p.codeAt b = [] := by
    rw [Program.codeAt, Array.getElem?_eq_none (Nat.le_of_not_lt hge)]
    rfl
  rw [hnone] at hcode
  cases c <;> cases hcode

include hgen

theorem Bytecode.Generated.lies_instruction (hcode : p.codeAt b = c ++ i :: d) :
    Lies code ((List.range p.blocks.size).map (startOf a p)).toArray
        (startOf a p b + (codeDrafts a c).length)
        (drafts (instruction a i) ++ codeDrafts a d) ∧
      Succeeds (instruction a i) := by
  have hb := Program.lt_size_of_code hcode
  have hlies := hgen.lies hb
  rw [hcode, codeDrafts_append] at hlies
  refine ⟨hlies.right, hgen.succeeds i ?_⟩
  exact List.mem_of_getElem? (Program.instruction_of_code hcode)

include hroom henv hhoused

theorem Machine.reaches_straight (hcode : p.codeAt b = c ++ i :: d) (hi : i.isFinal = false)
    (hm : Mirrors e a stack (Needed c (i :: d)) σ m) :
    ∃ m', Reaches e code ⟨(startOf a p b + (codeDrafts a c).length : Nat), m⟩
        ⟨(startOf a p b + (codeDrafts a (c ++ [i])).length : Nat), m'⟩ ∧
      Mirrors e a stack (Needed (c ++ [i]) d) (i.run e.world σ) m' := by
  obtain ⟨hlies, ⟨⟨⟩, ds, hrun⟩⟩ := hgen.lies_instruction hcode
  have hmem : i ∈ p.codeAt b := hcode ▸ List.mem_append_right _ List.mem_cons_self
  have hcarries := carries_instruction (σ := σ) hroom henv (hhoused.passes b c i d hcode)
    (hhoused.safe b i hmem) hi
  obtain ⟨-, ss, hss, hruns⟩ := hcarries.made #[] () ds hrun
  have hdrafts : drafts (instruction a i) = ss.map draft := by
    rw [drafts, hrun]
    exact hss
  obtain ⟨m', hreach, hm'⟩ := hruns m hm
  rw [hdrafts] at hlies
  refine ⟨m', ?_, hm'⟩
  have hreach := hreach code _ hlies.liesAt
  have hone : codeDrafts a [i] = ss.map draft := (List.flatMap_singleton ..).trans hdrafts
  rw [codeDrafts_append, hone, List.length_append, List.length_map, ← Nat.add_assoc]
  exact hreach

omit hgen hroom henv hhoused in
theorem Machine.fetch_goto {n : Nat} {s : Slot} {target : BlockId} {ds : List Draft}
    (hlies : Lies code ((List.range p.blocks.size).map (startOf a p)).toArray n
      ({ slot := s, target := some target } :: ds))
    {action : Int16 → Action} (hs : ∀ off, ({ s with off } : Slot).action = some (action off)) :
    ∃ s', Bytecode.fetch code n = some s' ∧ s'.action = some (action s'.off) ∧
      (n : Int) + (1 + s'.off.toInt) = startOf a p target := by
  obtain ⟨start, s', hstart, hs', hoff, heq⟩ := hlies.goto
  have hblock : start = startOf a p target := by
    rw [List.getElem?_toArray, List.getElem?_map] at hstart
    obtain ⟨k, hk, rfl⟩ := Option.map_eq_some_iff.1 hstart
    obtain ⟨hlt, rfl⟩ := List.getElem?_eq_some_iff.1 hk
    rw [List.getElem_range]
  refine ⟨s', (Bytecode.fetch_natCast n).trans hs', ?_, by omega⟩
  conv => lhs; rw [heq]
  exact hs s'.off

omit henv in
theorem Machine.reaches_block {target : Nat} (hcode : p.codeAt b = c ++ i :: d)
    (hm : Mirrors e a stack (Needed c (i :: d)) σ m)
    (hi : i = .jump target ∨ ∃ cond yes no, i = .branch cond yes no ∧
      target = if σ.temps cond ≠ 0 then yes else no) :
    ∃ m', Reaches e code ⟨(startOf a p b + (codeDrafts a c).length : Nat), m⟩
        ⟨(startOf a p target : Nat), m'⟩ ∧
      Mirrors e a stack (Needed [] (p.codeAt target)) σ m' := by
  have hnone : ∀ t, Needed [] (p.codeAt target) t → Needed c (i :: d) t := fun t ht =>
    (List.not_mem_nil ht.1).elim
  obtain ⟨hlies, hsucceeds⟩ := hgen.lies_instruction hcode
  obtain rfl | ⟨cond, yes, no, rfl, htarget⟩ := hi
  · obtain ⟨s, hs, haction, hstart⟩ := fetch_goto hlies Slot.action_jump
    have hstep : step e code ⟨(startOf a p b + (codeDrafts a c).length : Nat), m⟩ = _ :=
      step_eq hs haction rfl
    rw [hstart] at hstep
    exact ⟨m, .single hstep, hm.mono hnone⟩
  · obtain ⟨es, hread, hdrafts⟩ := drafts_branch hsucceeds
    have hcond := (hhoused.passes b c _ d hcode).uses cond List.mem_cons_self
    have hcarries : Carries e (Holding e a stack _ σ []) _ _ (read a cond scratch₁) :=
      carries_read (σ := σ) hroom hcond (by decide) List.not_mem_nil
    obtain ⟨-, ss, hss, hruns⟩ := hcarries.made #[] _ es hread
    have hss : es.toList = ss.map draft := hss
    rw [hdrafts, hss, List.append_assoc] at hlies
    obtain ⟨m', hreach, hm'⟩ := hruns m (.of_mirrors hm)
    have hvalue := hm'.holds _ _ List.mem_cons_self
    refine ⟨m', (hreach code _ hlies.liesAt).trans ?_, hm'.mirrors.mono hnone⟩
    have hjumps := hlies.right
    rw [List.length_map] at hjumps
    rw [← Int.natCast_add]
    generalize startOf a p b + (codeDrafts a c).length + ss.length = n at hjumps ⊢
    obtain ⟨s, hs, haction, hyes⟩ := fetch_goto hjumps fun off => Slot.action_jumpImm _ off 0 .ne
    by_cases hzero : σ.temps cond = 0
    · -- The test falls through to the jump behind it.
      obtain ⟨s', hs', haction', hno⟩ := fetch_goto hjumps.tail Slot.action_jump
      have hpassed : CompareOp.ne.holds (m'.regs (a.register cond scratch₁)) (m'.value (.imm 0)) =
          false := by
        rw [hvalue, hzero]
        rfl
      have htest : step e code ⟨n, m'⟩ = some ⟨n + 1, m'⟩ :=
        step_eq hs haction (by simp [Action.run, hpassed])
      have hjump : step e code ⟨(n + 1 : Nat), m'⟩ = _ := step_eq hs' haction' rfl
      rw [hno] at hjump
      rw [htarget, if_neg (not_not.2 hzero)]
      exact .head htest (.single hjump)
    · have htaken : CompareOp.ne.holds (m'.regs (a.register cond scratch₁)) (m'.value (.imm 0)) =
          true := hvalue ▸ bne_iff_ne.2 hzero
      have htest : step e code ⟨n, m'⟩ = some ⟨n + (1 + s.off.toInt), m'⟩ :=
        step_eq hs haction (by simp [Action.run, htaken])
      rw [hyes] at htest
      rw [htarget, if_pos hzero]
      exact .single htest

omit hgen hroom henv hhoused in
/-- The machine stands at the place in machine code of a place in a program, with a mirror of the state
there. -/
def Machine.Follows (e : Env) (a : Allocation) (stack : Nat) (p : Program) (f : Flow.Config)
    (g : Config) : Prop :=
  ∃ c d, p.codeAt f.block = c ++ d ∧ c.length = f.index ∧
    g.index = (startOf a p f.block + (codeDrafts a c).length : Nat) ∧
    Mirrors e a stack (Needed c d) f.state g.state

omit hgen hroom henv hhoused in
theorem Flow.Program.code_of_place {k : Nat} (hi : p.fetch b k = some i) (hcode : p.codeAt b = c ++ d)
    (hk : c.length = k) : ∃ d', d = i :: d' := by
  rw [Program.fetch_eq, hcode, ← hk, List.getElem?_append_right (Nat.le_refl _), Nat.sub_self] at hi
  cases d with
  | nil => cases hi
  | cons j d' => exact ⟨d', congrArg (· :: d') (Option.some.inj hi)⟩

theorem Machine.follows_step {f f' : Flow.Config} {g : Config} (hstep : p.step e.world f = some f')
    (h : Follows e a stack p f g) : ∃ g', Reaches e code g g' ∧ Follows e a stack p f' g' := by
  obtain ⟨b, k, σ⟩ := f
  obtain ⟨index, m⟩ := g
  obtain ⟨c, d, hcode, hk, rfl, hm⟩ := h
  dsimp only at hcode hk hm ⊢
  cases hi : p.fetch b k with
  | none =>
    rw [Program.step, hi] at hstep
    cases hstep
  | some i =>
    obtain ⟨d', rfl⟩ := Program.code_of_place hi hcode hk
    cases hfinal : i.isFinal with
    | false =>
      rw [Program.step_straight hi hfinal] at hstep
      obtain rfl := Option.some.inj hstep
      obtain ⟨m', hreach, hm'⟩ := reaches_straight hgen hroom henv hhoused hcode hfinal hm
      refine ⟨_, hreach, c ++ [i], d', ?_, ?_, rfl, hm'⟩
      · rw [hcode, List.append_assoc]
        rfl
      · rw [List.length_append, hk]
        rfl
    | true =>
      rw [Program.step, hi] at hstep
      have hblock : ∀ {target : Nat}, f' = ⟨target, 0, σ⟩ → (i = .jump target ∨
          ∃ cond yes no, i = .branch cond yes no ∧ target = if σ.temps cond ≠ 0 then yes else no) →
          ∃ g', Reaches e code ⟨(startOf a p b + (codeDrafts a c).length : Nat), m⟩ g' ∧
            Follows e a stack p f' g' := by
        rintro target rfl hi
        obtain ⟨m', hreach, hm'⟩ := reaches_block hgen hroom hhoused hcode hm hi
        exact ⟨_, hreach, [], _, rfl, rfl, rfl, hm'⟩
      cases i with
      | jump target => exact hblock (Option.some.inj hstep).symm (.inl rfl)
      | branch cond yes no =>
        exact hblock (Option.some.inj hstep).symm (.inr ⟨cond, yes, no, rfl, rfl⟩)
      | ret => cases hstep
      | _ => cases hfinal

theorem Machine.follows_reaches {f f' : Flow.Config} {g : Config} (hreach : p.Reaches e.world f f')
    (h : Follows e a stack p f g) : ∃ g', Reaches e code g g' ∧ Follows e a stack p f' g' := by
  induction hreach with
  | refl => exact ⟨g, .refl, h⟩
  | tail _ hstep ih =>
    obtain ⟨g₁, hreach₁, h₁⟩ := ih
    obtain ⟨g₂, hreach₂, h₂⟩ := follows_step hgen hroom henv hhoused hstep h₁
    exact ⟨g₂, hreach₁.trans hreach₂, h₂⟩

/-- From the slot behind the first one, the machine comes to an exit where the program returns. -/
theorem Machine.reaches_exit {σ' : Flow.State} (hfinish : p.Finishes e.world σ σ')
    (hm : Mirrors e a stack (fun _ => False) σ m) :
    ∃ g, Reaches e code ⟨1, m⟩ g ∧ Bytecode.fetch code g.index = some .exit ∧ g.state.regs 0 = 0 ∧
      Mirrors e a stack (fun _ => False) σ' g.state := by
  obtain ⟨b, k, hreach, hret⟩ := hfinish
  have hstart : Follows e a stack p ⟨0, 0, σ⟩ ⟨1, m⟩ :=
    ⟨[], _, rfl, rfl, rfl, hm.mono fun t ht => List.not_mem_nil ht.1⟩
  obtain ⟨⟨index, m'⟩, hreach', c, d, hcode, hk, rfl, hm'⟩ :=
    follows_reaches hgen hroom henv hhoused hreach hstart
  obtain ⟨d', rfl⟩ := Program.code_of_place hret hcode hk
  obtain ⟨hlies, -⟩ := hgen.lies_instruction hcode
  change Lies code _ _ (draft (.movImm 0 0) :: draft .exit :: codeDrafts a d') at hlies
  dsimp only at hreach' hm'
  generalize startOf a p b + (codeDrafts a c).length = n at hlies hreach'
  have hstep : step e code ⟨n, m'⟩ = some ⟨(n + 1 : Nat), m'.set 0 0⟩ :=
    step_eq ((Bytecode.fetch_natCast n).trans hlies.slot) (Slot.action_movImm 0 0) rfl
  refine ⟨_, hreach'.tail hstep, (Bytecode.fetch_natCast (n + 1)).trans hlies.tail.slot,
    m'.regs_set 0 0, ?_⟩
  exact (hm'.mono nofun).set (hroom.idle_of_low _ (by decide)) 0

end

namespace Flow

theorem Instruction.Safe.twoAddress {w : World} {ps : List Region} {i j : Instruction}
    (h : i.Safe w ps) (hj : j ∈ i.twoAddress) : j.Safe w ps := by
  obtain ⟨c, d, hcode⟩ := List.append_of_mem hj
  rcases Instruction.twoAddress_cases hcode with
    ⟨-, rfl, -⟩ | ⟨op, dst, lhs, rhs, -, ⟨-, rfl⟩ | ⟨-, rfl⟩⟩
  · exact h
  · exact Instruction.safe_of_untouched rfl trivial
  · exact Instruction.safe_of_untouched rfl trivial

namespace Program

theorem Finishes.congr {w : World} {p q : Program} {σ σ' : State} (h : p.Finishes w σ σ')
    (hcode : ∀ b, q.codeAt b = p.codeAt b) : q.Finishes w σ σ' := by
  have hfetch : q.fetch = p.fetch := by
    funext b k
    rw [fetch_eq, fetch_eq, hcode]
  have hstep : q.step w = p.step w := by
    funext c
    rw [step, step, hfetch]
  obtain ⟨b, k, hreach, hret⟩ := h
  refine ⟨b, k, ?_, hfetch ▸ hret⟩
  rw [Reaches, hstep]
  exact hreach

variable {p : Program} (frame : Frame)

theorem codeAt_allocate (b : Nat) :
    (p.twoAddress.analyze.allocate frame).program.codeAt b = p.twoAddress.codeAt b :=
  p.twoAddress.codeAt_analyze b

/-- A program that lowering builds has homes of its own for what it needs. -/
theorem Formed.housed (h : p.Formed) {w : World} {ps : List Region}
    (hsafe : ∀ b, ∀ i ∈ p.codeAt b, i.Safe w ps) :
    (p.twoAddress.analyze.allocate frame).program.Housed w
      (p.twoAddress.analyze.allocate frame).allocation ps := by
  have hordered := h.ordered
  constructor
  case safe =>
    intro b j hj
    rw [codeAt_allocate, codeAt_twoAddress] at hj
    obtain ⟨i, hi, hj⟩ := List.mem_flatMap.1 hj
    exact (hsafe b i hi).twoAddress hj
  case passes =>
    intro b c i d hcode
    rw [codeAt_allocate] at hcode
    exact hordered.passes hcode frame

end Program

end Flow

end TraceScript
