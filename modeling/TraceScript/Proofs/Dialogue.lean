import TraceScript.Proofs.Assembled

/-!
Compilation as a dialogue with a kernel. What the compiler asks is chosen by the replies that it has
got so far, never by the state of the kernel or by what the kernel reports. So the calls up to one
that fails are the calls that would have been made anyway, and the failure is the last word.
-/
namespace TraceScript

/-- A call and what came of it. -/
structure Exchange where
  call : Call
  result : Except KernelError call.Reply

/-- The same kernel with a record of what it was asked and what it replied. -/
def Kernel.logged {σ : Type} (k : Kernel σ) : Kernel (σ × List Exchange) where
  answer c s :=
    let a := k.answer c s.1
    { a with state := (a.state, s.2 ++ [⟨c, a.result⟩]) }

/-- Questions to a kernel, each chosen by the replies before it, up to a result. -/
inductive Dialogue (α : Type) where
  | done (result : Except CompileError α)
  | ask (c : Call) (next : c.Reply → Dialogue α)

/-- The result of a dialogue, what was said, and the state in which it leaves the kernel. -/
structure Outcome (σ α : Type) where
  result : Except CompileError α
  exchanges : List Exchange
  state : σ

/-- How a compilation with this outcome ends. -/
def Outcome.ending {σ α : Type} (o : Outcome σ α) (notes : Array Note) :
    EStateM.Result CompileError (Session σ) α :=
  match o.result with
  | .ok a => .ok a ⟨o.state, notes⟩
  | .error e => .error e ⟨o.state, notes⟩

namespace Dialogue

variable {α β σ : Type}

def bind (f : α → Dialogue β) : Dialogue α → Dialogue β
  | done (.ok a) => f a
  | done (.error e) => done (.error e)
  | ask c next => ask c fun r => (next r).bind f

/-- A call that fails ends the dialogue. -/
def run (k : Kernel σ) : Dialogue α → σ → Outcome σ α
  | done result, s => ⟨result, [], s⟩
  | ask c next, s =>
    let a := k.answer c s
    match a.result with
    | .ok r =>
      let o := (next r).run k a.state
      { o with exchanges := ⟨c, .ok r⟩ :: o.exchanges }
    | .error e => ⟨.error (.kernel e), [⟨c, .error e⟩], a.state⟩

theorem run_ask_ok {k : Kernel σ} {c : Call} {s : σ} {r : c.Reply}
    (h : (k.answer c s).result = .ok r) (next : c.Reply → Dialogue α) :
    (ask c next).run k s =
      let o := (next r).run k (k.answer c s).state
      { o with exchanges := ⟨c, .ok r⟩ :: o.exchanges } := by
  simp only [run, h]

theorem run_ask_error {k : Kernel σ} {c : Call} {s : σ} {e : KernelError}
    (h : (k.answer c s).result = .error e) (next : c.Reply → Dialogue α) :
    (ask c next).run k s = ⟨.error (.kernel e), [⟨c, .error e⟩], (k.answer c s).state⟩ := by
  simp only [run, h]

theorem run_bind (k : Kernel σ) (f : α → Dialogue β) (d : Dialogue α) (s : σ) :
    ((d.bind f).run k s).result =
        ((d.run k s).result >>= fun a => ((f a).run k (d.run k s).state).result) ∧
      ((d.bind f).run k s).state = match (d.run k s).result with
        | .ok a => ((f a).run k (d.run k s).state).state
        | .error _ => (d.run k s).state := by
  induction d generalizing s with
  | done result =>
    cases result with
    | ok a => exact ⟨rfl, rfl⟩
    | error e => exact ⟨rfl, rfl⟩
  | ask c next ih =>
    rw [bind]
    cases ha : (k.answer c s).result with
    | ok r =>
      rw [run_ask_ok ha, run_ask_ok ha]
      exact ih r _
    | error e =>
      rw [run_ask_error ha, run_ask_error ha]
      exact ⟨rfl, rfl⟩

theorem run_logged (k : Kernel σ) (d : Dialogue α) (s : σ) (log : List Exchange) :
    (d.run k.logged (s, log)).result = (d.run k s).result ∧
      (d.run k.logged (s, log)).state = ((d.run k s).state, log ++ (d.run k s).exchanges) := by
  induction d generalizing s log with
  | done result => exact ⟨rfl, by rw [run, run, List.append_nil]⟩
  | ask c next ih =>
    cases ha : (k.answer c s).result with
    | ok r =>
      have hl : (k.logged.answer c (s, log)).result = .ok r := ha
      rw [run_ask_ok ha, run_ask_ok hl]
      have hstate : (k.logged.answer c (s, log)).state =
          ((k.answer c s).state, log ++ [⟨c, .ok r⟩]) := by rw [← ha]; rfl
      obtain ⟨hresult, hend⟩ := ih r (k.answer c s).state (log ++ [⟨c, .ok r⟩])
      dsimp only
      rw [hstate]
      exact ⟨hresult, by rw [hend, List.append_assoc, List.singleton_append]⟩
    | error e =>
      have hl : (k.logged.answer c (s, log)).result = .error e := ha
      rw [run_ask_error ha, run_ask_error hl]
      refine ⟨rfl, ?_⟩
      dsimp only
      rw [← ha]
      rfl

/-- If one of the calls fails, then all calls before it are made, and none after it. -/
theorem run_failingAt (k : Kernel σ) (e : KernelError) (d : Dialogue α) (s : σ) (made n : Nat)
    (hn : n < (d.run k s).exchanges.length) :
    let o := d.run (k.failingAt (made + n) e) (s, made)
    o.exchanges.map Exchange.call = ((d.run k s).exchanges.map Exchange.call).take (n + 1) ∧
      o.result = .error (.kernel e) := by
  induction d generalizing s made n with
  | done result => exact (Nat.not_lt_zero n hn).elim
  | ask c next ih =>
    cases n with
    | zero =>
      have hfail : ((k.failingAt (made + 0) e).answer c (s, made)).result = .error e := by
        simp [Kernel.failingAt]
      rw [run_ask_error hfail]
      cases ha : (k.answer c s).result with
      | ok r =>
        rw [run_ask_ok ha]
        exact ⟨rfl, rfl⟩
      | error e' =>
        rw [run_ask_error ha]
        exact ⟨rfl, rfl⟩
    | succ n =>
      have hpass : (k.failingAt (made + (n + 1)) e).answer c (s, made) =
          { k.answer c s with state := ((k.answer c s).state, made + 1) } :=
        if_neg (by dsimp only; omega)
      cases ha : (k.answer c s).result with
      | ok r =>
        rw [run_ask_ok ha] at hn ⊢
        rw [run_ask_ok (by rw [hpass]; exact ha)]
        obtain ⟨hcalls, hresult⟩ := ih r _ (made + 1) n (Nat.lt_of_succ_lt_succ hn)
        rw [show made + 1 + n = made + (n + 1) by omega] at hcalls hresult
        rw [hpass]
        exact ⟨congrArg (c :: ·) hcalls, hresult⟩
      | error e' =>
        rw [run_ask_error ha] at hn
        exact (Nat.not_lt_zero n (Nat.lt_of_succ_lt_succ hn)).elim

end Dialogue

/-- The same steps with every kernel, which depend on it through its replies alone. -/
def Spoken {α : Type} (m : (σ : Type) → Kernel σ → Compile σ α) : Prop :=
  ∃ d : Dialogue α, ∀ (σ : Type) (k : Kernel σ) (s : Session σ),
    ∃ notes, m σ k s = (d.run k s.kernel).ending notes

namespace Spoken

variable {α β : Type}

protected theorem pure (a : α) : Spoken fun _ _ => pure a :=
  ⟨.done (.ok a), fun _ _ s => ⟨s.notes, rfl⟩⟩

theorem note (n : Note) : Spoken fun _ _ => Compile.note n :=
  ⟨.done (.ok ()), fun _ _ _ => ⟨_, rfl⟩⟩

theorem orFail {ε : Type} (wrap : ε → CompileError) (x : Except ε α) :
    Spoken fun _ _ => Compile.orFail wrap x :=
  ⟨.done (x.mapError wrap), fun _ _ s => ⟨s.notes, by cases x <;> rfl⟩⟩

theorem call (c : Call) : Spoken fun _ k => Compile.call k c := by
  refine ⟨.ask c fun r => .done (.ok r), fun σ k s => ?_⟩
  refine ⟨s.notes ++ (k.answer c s.kernel).notes.toArray, ?_⟩
  change Compile.orFail .kernel (k.answer c s.kernel).result ⟨(k.answer c s.kernel).state, _⟩ = _
  cases ha : (k.answer c s.kernel).result with
  | ok r =>
    rw [Dialogue.run_ask_ok ha]
    rfl
  | error e =>
    rw [Dialogue.run_ask_error ha]
    rfl

protected theorem bind {m : (σ : Type) → Kernel σ → Compile σ α}
    {f : (σ : Type) → Kernel σ → α → Compile σ β} (hm : Spoken m)
    (hf : ∀ a, Spoken fun σ k => f σ k a) : Spoken fun σ k => m σ k >>= f σ k := by
  obtain ⟨d, hd⟩ := hm
  choose g hg using hf
  refine ⟨d.bind g, fun σ k s => ?_⟩
  obtain ⟨notes, hrun⟩ := hd σ k s
  obtain ⟨hresult, hstate⟩ := Dialogue.run_bind k g d s.kernel
  change ∃ notes, EStateM.bind (m σ k) (f σ k) s = _
  unfold EStateM.bind
  rw [hrun]
  unfold Outcome.ending
  cases hr : (d.run k s.kernel).result with
  | ok a =>
    rw [hr] at hresult hstate
    obtain ⟨notes', hrun'⟩ := hg a σ k ⟨(d.run k s.kernel).state, notes⟩
    refine ⟨notes', hrun'.trans ?_⟩
    rw [Outcome.ending, hresult, hstate]
    rfl
  | error e =>
    rw [hr] at hresult hstate
    refine ⟨notes, ?_⟩
    dsimp only
    rw [hresult, hstate]
    rfl

end Spoken

namespace Compile

theorem spoken_annotate (p : Probe) : Spoken fun _ _ => annotate p := by
  cases h : p.annotate.run {} with
  | ok q typing =>
    refine ⟨.done (.ok (q, typing.table)), fun σ k s => ⟨s.notes ++ typing.notes, ?_⟩⟩
    unfold annotate
    rw [h]
    rfl
  | error e typing =>
    refine ⟨.done (.error (.semantic e)), fun σ k s => ⟨s.notes ++ typing.notes, ?_⟩⟩
    unfold annotate
    rw [h]
    rfl

theorem spoken_codeOf (options : Options) (t : Table) (p : Probe) :
    Spoken fun _ _ => codeOf options t p := by
  refine ⟨.done ((codeResult options t p).mapError .code), fun σ k s => ?_⟩
  obtain ⟨notes, hrun⟩ := codeOf_eq options t p s
  refine ⟨notes, hrun.trans ?_⟩
  cases codeResult options t p <;> rfl

theorem spoken_createMaps (options : Options) (ss : List Symbol) :
    Spoken fun _ k => createMaps k options ss := by
  induction ss with
  | nil => exact .pure _
  | cons s ss ih =>
    unfold createMaps
    cases s.map with
    | none => exact .bind (.pure _) fun _ => .bind ih fun _ => .pure _
    | some slot =>
      exact .bind (.call _) fun _ => .bind (.pure _) fun _ => .bind ih fun _ => .pure _

theorem spoken_bindTable (options : Options) (t : Table) :
    Spoken fun _ k => bindTable k options t := by
  refine .bind (spoken_createMaps options _) fun symbols => ?_
  dsimp only
  split
  · exact .bind (.call _) fun _ => .pure _
  · exact .pure _

theorem spoken_probe (options : Options) (p : Probe) : Spoken fun _ k => probe k options p :=
  .bind (.note _) fun _ => .bind (spoken_annotate p) fun _ => .bind (.note _) fun _ =>
    .bind (spoken_bindTable options _) fun _ => .bind (spoken_codeOf options _ _) fun _ =>
    .bind (.call _) fun _ => .bind (.call _) fun _ => .bind (.call _) fun _ =>
    .bind (.note _) fun _ => .pure _

theorem spoken_probes (options : Options) (ps : List Probe) :
    Spoken fun _ k => probes k options ps := by
  induction ps with
  | nil => exact .pure _
  | cons p ps ih => exact .bind (spoken_probe options p) fun _ => .bind ih fun _ => .pure _

theorem spoken_script (options : Options) (source : Source) :
    Spoken fun _ k => script k options source :=
  .bind (.orFail _ _) fun _ => .bind (.note _) fun _ => spoken_probes options _

end Compile

end TraceScript
