import TraceScript.Proofs.SingleUse
import TraceScript.Proofs.TwoAddress

namespace TraceScript.Flow

open Instruction

/-- Code and what becomes of it: arithmetic that does not change its left operand is split into a
move and arithmetic that does, and all else is kept. -/
inductive SplitInto : List Instruction → List Instruction → Prop
  | nil : SplitInto [] []
  | keep {i : Instruction} {c d : List Instruction} :
      (∀ op dst lhs rhs, i = .arith op dst lhs rhs → lhs = dst) → SplitInto c d →
      SplitInto (i :: c) (i :: d)
  | split {op : ArithOp} {dst lhs : Temp} {rhs : Operand} {c d : List Instruction} :
      lhs ≠ dst → SplitInto c d →
      SplitInto (.arith op dst lhs rhs :: c) (.move dst lhs :: .arith op dst dst rhs :: d)

theorem splitInto_twoAddress (code : List Instruction) :
    SplitInto code (code.flatMap Instruction.twoAddress) := by
  induction code with
  | nil => exact .nil
  | cons i code ih =>
    rw [List.flatMap_cons]
    rcases inPlace_or_split i with hi | ⟨op, dst, lhs, rhs, hne, rfl, hsplit⟩
    · rw [twoAddress_of_inPlace hi]
      exact .keep hi ih
    · rw [hsplit]
      exact .split hne ih

namespace Program

theorem flatMap_twoAddress_of_inPlace {code : List Instruction}
    (h : ∀ i ∈ code, ∀ op dst lhs rhs, i = .arith op dst lhs rhs → lhs = dst) :
    code.flatMap Instruction.twoAddress = code := by
  rw [List.flatMap_congr fun i hi => twoAddress_of_inPlace (h i hi)]
  exact List.flatMap_singleton' code

theorem blocks_twoAddress (p : Program) (b : Nat) :
    p.twoAddress.blocks[b]? =
      (p.blocks[b]?).map fun block => { block with code := (p.twoAddress.codeAt b).toArray } := by
  rw [codeAt_twoAddress, codeAt]
  simp only [twoAddress, Array.getElem?_map]
  cases p.blocks[b]? <;> rfl

theorem twoAddress_twoAddress (p : Program) : p.twoAddress.twoAddress = p.twoAddress := by
  have hblocks : p.twoAddress.twoAddress.blocks = p.twoAddress.blocks := by
    apply Array.ext_getElem?
    intro b
    rw [blocks_twoAddress, codeAt_twoAddress, flatMap_twoAddress_of_inPlace (p.inPlace_twoAddress b)]
    rw [codeAt]
    cases p.twoAddress.blocks[b]? <;> rfl
  exact congrArg (fun blocks => { p.twoAddress with blocks }) hblocks

/-- Where the two-address form of the instruction at a place begins. -/
def splitIndex (p : Program) (b k : Nat) : Nat :=
  (((p.codeAt b).take k).flatMap Instruction.twoAddress).length

/-- A place in a program, and one in its two-address form that stands for it. -/
inductive Matches (p : Program) : Config → Config → Prop
  | same (b k : Nat) (σ : State) : Matches p ⟨b, k, σ⟩ ⟨b, p.splitIndex b k, σ⟩
  | between {b k : Nat} {σ : State} {op : ArithOp} {dst lhs : Temp} {rhs : Operand} :
      p.fetch b k = some (.arith op dst lhs rhs) → lhs ≠ dst →
      Matches p ⟨b, k, σ⟩ ⟨b, p.splitIndex b k + 1, σ.set dst (σ.temps lhs)⟩

section

variable {w : World} {p : Program} {b k : Nat} {i : Instruction} {σ : State}

theorem fetch_split (h : p.fetch b k = some i) {a e : List Instruction} {j : Instruction}
    (hi : i.twoAddress = a ++ j :: e) :
    p.twoAddress.fetch b (p.splitIndex b k + a.length) = some j := by
  obtain ⟨hcode, -⟩ := code_of_fetch h
  have hcode₂ := p.codeAt_twoAddress b
  rw [hcode, List.flatMap_append, List.flatMap_cons, hi, List.append_assoc, List.cons_append,
    ← List.append_assoc] at hcode₂
  have hfetch := (Extends.refl p.twoAddress).fetch hcode₂
  rwa [List.length_append] at hfetch

theorem fetch_split_none (h : p.fetch b k = none) :
    p.twoAddress.fetch b (p.splitIndex b k) = none := by
  rw [fetch_eq] at h ⊢
  have htake : (p.codeAt b).take k = p.codeAt b :=
    List.take_of_length_le (List.getElem?_eq_none_iff.1 h)
  rw [codeAt_twoAddress, splitIndex, htake]
  exact List.getElem?_eq_none (Nat.le_refl _)

theorem splitIndex_succ (h : p.fetch b k = some i) :
    p.splitIndex b (k + 1) = p.splitIndex b k + i.twoAddress.length := by
  have hnext : (p.codeAt b).take (k + 1) = (p.codeAt b).take k ++ [i] := by
    rw [List.take_add_one, ← fetch_eq, h]
    rfl
  simp [splitIndex, hnext]

theorem step_final {q : Program} {k' : Nat} (h : p.fetch b k = some i)
    (h' : q.fetch b k' = some i) (hi : i.isFinal = true) {d : Config}
    (hstep : q.step w ⟨b, k', σ⟩ = some d) :
    p.step w ⟨b, k, σ⟩ = some d ∧ d.index = 0 := by
  rw [Program.step, h'] at hstep
  rw [Program.step, h]
  cases i with
  | jump target =>
    obtain rfl := Option.some.inj hstep
    exact ⟨rfl, rfl⟩
  | branch cond yes no =>
    obtain rfl := Option.some.inj hstep
    exact ⟨rfl, rfl⟩
  | ret => cases hstep
  | _ => cases hi

/-- From a place that matches, the two-address form goes on to one that matches. -/
theorem Matches.step {c d d' : Config} (hm : p.Matches c d) (hp : p.KeepsOperands)
    (hstep : p.twoAddress.step w d = some d') : ∃ c', p.Reaches w c c' ∧ p.Matches c' d' := by
  cases hm with
  | same b k σ =>
    cases hi : p.fetch b k with
    | none =>
      rw [Program.step, fetch_split_none hi] at hstep
      cases hstep
    | some i =>
      rcases inPlace_or_split i with hkeep | ⟨op, dst, lhs, rhs, hne, rfl, hsplit⟩
      · have htwo := twoAddress_of_inPlace hkeep
        have hfetch := fetch_split hi (a := []) htwo
        cases hfinal : i.isFinal with
        | false =>
          have hnext := splitIndex_succ hi
          rw [htwo, List.length_singleton] at hnext
          obtain rfl := Option.some.inj ((step_straight hfetch hfinal).symm.trans hstep)
          refine ⟨_, .single (step_straight hi hfinal), ?_⟩
          have hmatch := Matches.same (p := p) b (k + 1) (i.run w σ)
          rwa [hnext] at hmatch
        | true =>
          obtain ⟨hsame, hzero⟩ := step_final hi hfetch hfinal hstep
          obtain ⟨b', k', σ'⟩ := d'
          cases hzero
          exact ⟨_, .single hsame, .same b' 0 σ'⟩
      · have hfetch := fetch_split hi (a := []) hsplit
        obtain rfl := Option.some.inj ((step_straight hfetch rfl).symm.trans hstep)
        exact ⟨_, .refl, .between hi hne⟩
  | @between b k σ op dst lhs rhs hi hne =>
    have hsplit : (arith op dst lhs rhs).twoAddress =
        [.move dst lhs] ++ .arith op dst dst rhs :: [] := if_neg hne
    have hfetch := fetch_split hi hsplit
    obtain rfl := Option.some.inj ((step_straight hfetch rfl).symm.trans hstep)
    -- The move and the arithmetic together do what the arithmetic did.
    have hmem := List.mem_of_getElem? ((p.fetch_eq b k).symm.trans hi)
    have hrun := runAll_twoAddress (w := w) (hp b _ hmem) σ
    have hnext := splitIndex_succ hi
    rw [hsplit] at hrun hnext
    have hmatch := Matches.same (p := p) b (k + 1) ((arith op dst lhs rhs).run w σ)
    rw [hnext, ← hrun] at hmatch
    refine ⟨_, .single (step_straight hi rfl), ?_⟩
    rw [← hrun]
    exact hmatch

theorem Matches.reaches {c d d' : Config} (hm : p.Matches c d) (hp : p.KeepsOperands)
    (hreach : p.twoAddress.Reaches w d d') : ∃ c', p.Reaches w c c' ∧ p.Matches c' d' := by
  induction hreach with
  | refl => exact ⟨c, .refl, hm⟩
  | tail _ hstep ih =>
    obtain ⟨c₁, hreach₁, hm₁⟩ := ih
    obtain ⟨c₂, hreach₂, hm₂⟩ := hm₁.step hp hstep
    exact ⟨c₂, hreach₁.trans hreach₂, hm₂⟩

theorem Matches.observed {c d : Config} (hm : p.Matches c d) :
    d.state.frame = c.state.frame ∧ d.state.outside = c.state.outside := by
  cases hm <;> exact ⟨rfl, rfl⟩

/-- The two-address form returns only where the program does, in the same state. -/
theorem Matches.returns {c d : Config} (hm : p.Matches c d)
    (hret : p.twoAddress.fetch d.block d.index = some .ret) :
    p.fetch c.block c.index = some .ret ∧ c.state = d.state := by
  cases hm with
  | same b k σ =>
    cases hi : p.fetch b k with
    | none =>
      rw [fetch_split_none hi] at hret
      cases hret
    | some i =>
      rcases inPlace_or_split i with hkeep | ⟨op, dst, lhs, rhs, hne, rfl, hsplit⟩
      · have hfetch := fetch_split hi (a := []) (twoAddress_of_inPlace hkeep)
        exact ⟨hfetch.symm.trans hret, rfl⟩
      · cases (fetch_split hi (a := []) hsplit).symm.trans hret
  | @between b k σ op dst lhs rhs hi hne =>
    have hsplit : (arith op dst lhs rhs).twoAddress =
        [.move dst lhs] ++ .arith op dst dst rhs :: [] := if_neg hne
    cases (fetch_split hi hsplit).symm.trans hret

end

/-- What the frame and the outside have been in the course of a run. -/
def Observed (w : World) (p : Program) (σ : State) : Set (Memory × Outside) :=
  { x | ∃ c, p.Reaches w ⟨0, 0, σ⟩ c ∧ x = (c.state.frame, c.state.outside) }

theorem KeepsOperands.finishes_iff {w : World} {p : Program} (h : p.KeepsOperands)
    {σ σ' : State} : p.twoAddress.Finishes w σ σ' ↔ p.Finishes w σ σ' := by
  refine ⟨?_, h.finishes_twoAddress⟩
  rintro ⟨b, k, hreach, hret⟩
  obtain ⟨⟨b', k', σ''⟩, hreach', hm⟩ := (Matches.same (p := p) 0 0 σ).reaches h hreach
  obtain ⟨hret', rfl⟩ := hm.returns hret
  exact ⟨b', k', hreach', hret'⟩

theorem KeepsOperands.observed_eq {w : World} {p : Program} (h : p.KeepsOperands) (σ : State) :
    p.twoAddress.Observed w σ = p.Observed w σ := by
  ext x
  constructor
  · rintro ⟨d, hreach, rfl⟩
    obtain ⟨c, hreach', hm⟩ := (Matches.same (p := p) 0 0 σ).reaches h hreach
    rw [hm.observed.1, hm.observed.2]
    exact ⟨c, hreach', rfl⟩
  · rintro ⟨c, hreach, rfl⟩
    exact ⟨p.shifted c, h.reaches_twoAddress hreach, rfl⟩

/-- The rewriting keeps what every program does whose arithmetic does not overwrite its right operand,
among them all programs that are built. Whatever the program, all arithmetic changes its left operand
afterwards, blocks keep all but their code, code keeps all but the arithmetic that is split, and
rewriting again changes nothing. -/
theorem twoAddress_same_runs :
    (∀ p : Program, p.KeepsOperands → ∀ (w : World) (σ : State),
      (∀ σ', p.twoAddress.Finishes w σ σ' ↔ p.Finishes w σ σ') ∧
        p.twoAddress.Observed w σ = p.Observed w σ) ∧
    (∀ p : Program, p.twoAddress.name = p.name ∧ p.twoAddress.temps = p.temps ∧
      p.twoAddress.blocks.size = p.blocks.size ∧ p.twoAddress.twoAddress = p.twoAddress ∧
      ∀ b, p.twoAddress.blocks[b]? =
          (p.blocks[b]?).map (fun block => { block with code := (p.twoAddress.codeAt b).toArray }) ∧
        SplitInto (p.codeAt b) (p.twoAddress.codeAt b) ∧
        ∀ i ∈ p.twoAddress.codeAt b, ∀ op dst lhs rhs, i = .arith op dst lhs rhs → lhs = dst) ∧
    ∀ (t : Table) (probe : Probe) (built : Built), ofProbe t probe = .ok built →
      built.program.KeepsOperands := by
  refine ⟨fun p h w σ => ⟨fun σ' => h.finishes_iff, h.observed_eq σ⟩, fun p => ?_,
    fun t probe built hbuilt => (ofProbe_formed hbuilt).keepsOperands⟩
  refine ⟨rfl, rfl, p.size_twoAddress, p.twoAddress_twoAddress, fun b => ?_⟩
  refine ⟨p.blocks_twoAddress b, ?_, p.inPlace_twoAddress b⟩
  rw [codeAt_twoAddress]
  exact splitInto_twoAddress _

/-- A loop that counts down from two by way of another temporary. -/
def unwinding : Program where
  name := "unwinding"
  blocks := #[
    { code := #[.imm 0 2, .imm 1 1, .jump 1], succs := #[1] },
    { code := #[.arith .sub 2 0 (.temp 1), .move 0 2, .branch 2 1 2], preds := #[0, 1],
      succs := #[1, 2] },
    { code := #[.ret], preds := #[1] }]
  temps := #[{}, {}, {}]

theorem unwinding_round (w : World) {σ : State} {n : UInt64} (hcount : σ.temps 0 = n)
    (hone : σ.temps 1 = 1) :
    ∃ σ', unwinding.Reaches w ⟨1, 0, σ⟩ ⟨if n - 1 ≠ 0 then 1 else 2, 0, σ'⟩ ∧
      σ'.temps 0 = n - 1 ∧ σ'.temps 1 = 1 := by
  refine ⟨(σ.set 2 (n - 1)).set 0 (n - 1), .head (b := ⟨1, 1, σ.set 2 (n - 1)⟩) ?_ (.head
    (b := ⟨1, 2, (σ.set 2 (n - 1)).set 0 (n - 1)⟩) ?_ (.single ?_)), ?_, ?_⟩
  · simp [step, fetch, unwinding, run, ArithOp.apply, Operand.value, hcount, hone]
  · simp [step, fetch, unwinding, run, State.set]
  · simp [step, fetch, unwinding, State.set]
  · simp [State.set]
  · simp [State.set, hone]

/-- One variable is increased. -/
def increase : Probe where
  name := default
  body := [.assignment default .add (.var { span := default, facts := { addr := some (-8) } } default)
    (.int default 5)]

theorem unwinding_same_runs :
    unwinding.KeepsOperands ∧
      (∀ w σ, ∃ σ', unwinding.twoAddress.Finishes w σ σ' ∧ σ'.temps 0 = 0) ∧
      ∃ built, ofProbe {} increase = .ok built ∧ built.program.KeepsOperands := by
  obtain ⟨hruns, -, hbuilt⟩ := twoAddress_same_runs
  have hkeeps : unwinding.KeepsOperands := by
    rintro (_ | _ | _ | b) i hi <;> simp [codeAt, unwinding] at hi
    · rcases hi with rfl | rfl | rfl <;> trivial
    · rcases hi with rfl | rfl | rfl
      · exact fun _ => by decide
      · trivial
      · trivial
    · subst hi
      trivial
  obtain ⟨built, hok⟩ : ∃ built, ofProbe {} increase = .ok built := ⟨_, rfl⟩
  refine ⟨hkeeps, fun w σ => ?_, built, hok, hbuilt _ _ _ hok⟩
  obtain ⟨σ₁, hfirst, hcount₁, hone₁⟩ : ∃ σ₁, unwinding.Reaches w ⟨0, 0, σ⟩ ⟨1, 0, σ₁⟩ ∧
      σ₁.temps 0 = 2 ∧ σ₁.temps 1 = 1 :=
    ⟨_, .head rfl (.head rfl (.single rfl)), rfl, rfl⟩
  obtain ⟨σ₂, hsecond, hcount₂, hone₂⟩ := unwinding_round w hcount₁ hone₁
  obtain ⟨σ₃, hthird, hcount₃, -⟩ := unwinding_round w hcount₂ hone₂
  have hfinish : unwinding.Finishes w σ σ₃ := ⟨2, 0, hfirst.trans (hsecond.trans hthird), rfl⟩
  exact ⟨σ₃, ((hruns unwinding hkeeps w σ).1 σ₃).2 hfinish, hcount₃⟩

end Program

end TraceScript.Flow
