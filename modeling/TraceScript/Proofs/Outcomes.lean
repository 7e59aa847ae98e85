import Mathlib
import TraceScript.Proofs.Limits
import TraceScript.Proofs.SingleUse

namespace TraceScript

open Run

/-- A kernel that fails for some reasons only when it is asked as the compiler asks. What it knows of
a program that it has loaded lasts until the program is attached. -/
structure Kernel.FailsOnly {σ : Type} (k : Kernel σ) (options : Options)
    (loaded : ProgramHandle → σ → Prop) (reason : KernelError → Prop) : Prop where
  createMap : ∀ (r : MapRequest) (s : σ), 0 < r.keySize → 0 < r.valueSize →
    r.maxEntries = options.mapEntries ∨ r.maxEntries = options.cpus →
    ∀ e, (k.answer (.createMap r) s).result = .error e → reason e
  load : ∀ name b s e, (k.answer (.loadProgram name b) s).result = .error e → reason e
  loads : ∀ name b s h, (k.answer (.loadProgram name b) s).result = .ok h →
    loaded h (k.answer (.loadProgram name b) s).state
  event : ∀ name s e, (k.answer (.traceEvent name) s).result = .error e → reason e
  keeps : ∀ name s h, loaded h s → loaded h (k.answer (.traceEvent name) s).state
  attach : ∀ h event s, loaded h s →
    ∀ e, (k.answer (.attach h event) s).result = .error e → reason e

theorem Kernel.failsOnly {σ : Type} (k : Kernel σ) (options : Options) :
    k.FailsOnly options (fun _ _ => True) fun _ => True where
  createMap _ _ _ _ _ _ _ := trivial
  load _ _ _ _ _ := trivial
  loads _ _ _ _ _ := trivial
  event _ _ _ _ := trivial
  keeps _ _ _ _ := trivial
  attach _ _ _ _ _ _ := trivial

/-- The kernel refuses a program. -/
def KernelError.IsRefusal : KernelError → Prop
  | stackExhausted .. | rejected .. => True
  | mapCreation .. | attach .. => False

namespace DryRun

theorem failsOnly {options : Options} (hentries : 0 < options.mapEntries) (hcpus : 0 < options.cpus) :
    kernel.FailsOnly options (fun h d => d.programs.isEmpty = false ∧ (firstDescriptor : Int) ≤ h.fd)
      KernelError.IsRefusal where
  createMap r d hkey hvalue hr e h := by
    have hsizes : ¬(r.keySize = 0 ∨ r.valueSize = 0 ∨ r.maxEntries = 0) := by
      rcases hr with hr | hr <;> omega
    change (d.createMap r).result = .error e at h
    unfold createMap at h
    rw [if_neg hsizes] at h
    cases h
  load name b d e h := by
    change (d.loadProgram name b).result = .error e at h
    unfold loadProgram at h
    split at h
    · obtain rfl := Except.error.inj h
      trivial
    · split at h
      · cases h
      · obtain rfl := Except.error.inj h
        trivial
  loads name b d h hload := by
    change (d.loadProgram name b).result = .ok h at hload
    change (d.loadProgram name b).state.programs.isEmpty = false ∧ _
    unfold loadProgram at hload ⊢
    split at hload
    · cases hload
    · rename_i hstack
      rw [if_neg hstack]
      split at hload
      · rename_i hexit
        obtain rfl := Except.ok.inj hload
        rw [if_pos hexit]
        refine ⟨by simp, ?_⟩
        change (firstDescriptor : Int) ≤ d.nextDescriptor
        unfold nextDescriptor
        omega
      · cases hload
  event name d e h := by
    change (d.traceEvent name).result = .error e at h
    unfold traceEvent at h
    split at h <;> cases h
  keeps name d h hd := by
    change (d.traceEvent name).state.programs.isEmpty = false ∧ _
    unfold traceEvent
    split <;> exact hd
  attach h event d hd e he := by
    have hloaded : ¬(d.programs.isEmpty ∨ h.fd < firstDescriptor) := by
      rw [hd.1]
      exact fun hor => hor.elim nofun (Int.not_lt.2 hd.2)
    change (d.attach h event).result = .error e at he
    unfold attach at he
    rw [if_neg hloaded] at he
    cases he

theorem loadProgram_rejected (d : DryRun) (name : String) {b : Bytecode} (hstack : b.stack ≤ stackSize)
    (hexit : endsInExit b = false) : (kernel.answer (.loadProgram name b) d).result =
      .error (.rejected name "last insn is not an exit or jmp") := by
  change (d.loadProgram name b).result = _
  rw [loadProgram, if_neg (Nat.not_lt.2 hstack), hexit]
  rfl

end DryRun

/-- The errors of a script, with the reasons of its kernel. -/
def CompileError.Expected (options : Options) (reason : KernelError → Prop) : CompileError → Prop
  | lexical _ | syntactic _ | semantic _ => True
  | code e => e.IsLimit options.maxInstructions
  | kernel e => reason e

namespace Compile

variable {σ : Type} {s s' : Session σ} {e : CompileError}

theorem orFail_error {ε α : Type} {wrap : ε → CompileError} {x : Except ε α}
    (h : orFail wrap x s = .error e s') : ∃ e', x = .error e' ∧ e = wrap e' := by
  cases x with
  | ok a => cases h
  | error e' =>
    obtain ⟨rfl, -⟩ := EStateM.Result.error.inj h
    exact ⟨e', rfl, rfl⟩

theorem call_error {k : Kernel σ} {c : Call} (h : call k c s = .error e s') :
    ∃ e', (k.answer c s.kernel).result = .error e' ∧ e = .kernel e' :=
  orFail_error (s := { s with kernel := (k.answer c s.kernel).state, notes := _ }) h

theorem call_of_error {k : Kernel σ} {c : Call} {e : KernelError}
    (h : (k.answer c s.kernel).result = .error e) : ∃ s', call k c s = .error (.kernel e) s' := by
  let s' : Session σ :=
    ⟨(k.answer c s.kernel).state, s.notes ++ (k.answer c s.kernel).notes.toArray⟩
  refine ⟨s', ?_⟩
  change orFail .kernel (k.answer c s.kernel).result s' = _
  rw [h]
  rfl

theorem call_result {k : Kernel σ} {c : Call} {a : c.Reply} (h : call k c s = .ok a s') :
    (k.answer c s.kernel).result = .ok a ∧ s'.kernel = (k.answer c s.kernel).state := by
  obtain ⟨hresult, rfl⟩ :=
    orFail_ok (s := { s with kernel := (k.answer c s.kernel).state, notes := _ }) h
  exact ⟨hresult, rfl⟩

theorem annotate_error {p : Probe} (h : annotate p s = .error e s') : ∃ e', e = .semantic e' := by
  unfold annotate at h
  cases hrun : p.annotate.run {} with
  | ok q typing =>
    rw [hrun] at h
    cases h
  | error e' typing =>
    rw [hrun] at h
    obtain ⟨rfl, -⟩ := EStateM.Result.error.inj h
    exact ⟨_, rfl⟩

theorem annotate_ok {p p' : Probe} {t : Table} (h : annotate p s = .ok (p', t) s') :
    ∃ typing, p.annotate.run {} = .ok p' typing ∧ t = typing.table := by
  unfold annotate at h
  cases hrun : p.annotate.run {} with
  | ok q typing =>
    rw [hrun] at h
    obtain ⟨⟨⟩, s₁, -, hpure⟩ := estate_bind_ok.1 h
    obtain ⟨hq, -⟩ := estate_pure_ok.1 hpure
    obtain ⟨rfl, rfl⟩ := Prod.mk.inj hq
    exact ⟨typing, rfl, rfl⟩
  | error e' typing =>
    rw [hrun] at h
    cases h

section

variable {k : Kernel σ} {options : Options} {loaded : ProgramHandle → σ → Prop}
  {reason : KernelError → Prop}

theorem createMaps_error (hk : k.FailsOnly options loaded reason) {ss : List Symbol}
    (hss : ∀ x ∈ ss, x.Sound) (h : createMaps k options ss s = .error e s') :
    e.Expected options reason := by
  induction ss generalizing s with
  | nil => cases h
  | cons x ss ih =>
    have hx := hss x List.mem_cons_self
    have hrest : ∀ {s : Session σ}, createMaps k options ss s = .error e s' →
        e.Expected options reason := ih fun y hy => hss y (List.mem_cons_of_mem _ hy)
    rw [createMaps] at h
    cases hm : x.map with
    | none =>
      rw [hm] at h
      rcases estate_bind_error.1 h with h | ⟨x', s₁, -, h⟩
      · cases h
      · rcases estate_bind_error.1 h with h | ⟨_, _, -, h⟩
        · exact hrest h
        · cases h
    | some slot =>
      rw [hm] at h
      rcases estate_bind_error.1 h with h | ⟨id, s₁, -, h⟩
      · obtain ⟨e', he, rfl⟩ := call_error h
        obtain ⟨sh, hsh, hvalue⟩ := hx.shape
        have hsize : x.facts.size = sh.size := by
          obtain ⟨_, -, rfl⟩ := Option.map_eq_some_iff.1 hsh
          rfl
        exact hk.createMap _ _ (hx.keySize slot hm).1 (hsize ▸ hvalue.size_pos) (.inl rfl) _ he
      · rcases estate_bind_error.1 h with h | ⟨x', s₂, -, h⟩
        · cases h
        · rcases estate_bind_error.1 h with h | ⟨_, _, -, h⟩
          · exact hrest h
          · cases h

theorem bindTable_error (hk : k.FailsOnly options loaded reason) {t : Table} (ht : t.Sound)
    (h : bindTable k options t s = .error e s') : e.Expected options reason := by
  unfold bindTable at h
  rcases estate_bind_error.1 h with h | ⟨symbols, s₁, -, h⟩
  · refine createMaps_error hk (fun x hx => ?_) h
    obtain ⟨i, hi⟩ := List.mem_iff_getElem?.1 hx
    exact ht.symbols i x (by rw [← Array.getElem?_toList]; exact hi)
  · by_cases hevents : ({ t with symbols := symbols.toArray } : Table).needsEvents = true
    · rw [if_pos hevents] at h
      rcases estate_bind_error.1 h with h | ⟨_, _, -, h⟩
      · obtain ⟨e', he, rfl⟩ := call_error h
        exact hk.createMap _ _ (Nat.zero_lt_succ 3) (Nat.zero_lt_succ 3) (.inr rfl) _ he
      · cases h
    · rw [if_neg hevents] at h
      cases h

theorem codeOf_error {bound table : Table} {typed placed : Probe} {ks : List Placing}
    (hprep : Prepared bound table typed placed ks)
    (hplaced : typed.place.run bound = (placed, table))
    (h : codeOf options bound typed s = .error e s') : e.Expected options reason := by
  obtain ⟨built, hbuilt, -⟩ :=
    Flow.ofProbe_whole (w := default) hprep.ready_table hprep.placed hprep.statements
  obtain ⟨notes, hrun⟩ := codeOf_eq options bound typed s
  rw [h, codeResult_of_built hplaced hbuilt] at hrun
  cases hassemble : built.program.assemble table.frame options.maxInstructions with
  | ok b =>
    rw [hassemble] at hrun
    cases hrun
  | error c =>
    rw [hassemble] at hrun
    obtain ⟨rfl, -⟩ := EStateM.Result.error.inj hrun
    exact (Flow.ofProbe_formed hbuilt).assemble_error hassemble

theorem probe_error (hk : k.FailsOnly options loaded reason) {p : Probe}
    (hp : ∀ n ∈ p.body, Statement n) (h : probe k options p s = .error e s') :
    e.Expected options reason := by
  unfold probe at h
  rcases estate_bind_error.1 h with h | ⟨⟨⟩, s₁, -, h⟩
  · cases h
  rcases estate_bind_error.1 h with h | ⟨⟨typed, t⟩, s₂, hannotate, h⟩
  · obtain ⟨e', rfl⟩ := annotate_error h
    trivial
  obtain ⟨typing, htyped, rfl⟩ := annotate_ok hannotate
  obtain ⟨hsound, -, hall⟩ := Probe.annotate_typed hp htyped
  rcases estate_bind_error.1 h with h | ⟨⟨⟩, s₃, -, h⟩
  · cases h
  rcases estate_bind_error.1 h with h | ⟨bound, s₄, hbound, h⟩
  · exact bindTable_error hk hsound h
  rcases estate_bind_error.1 h with h | ⟨code, s₅, -, h⟩
  · obtain ⟨ks, hprep⟩ := (bindTable_ok hbound).prepared hsound hall rfl
    exact codeOf_error hprep rfl h
  rcases estate_bind_error.1 h with h | ⟨handle, s₆, hload, h⟩
  · obtain ⟨e', he, rfl⟩ := call_error h
    exact hk.load _ _ _ _ he
  obtain ⟨hhandle, hstate⟩ := call_result hload
  have hloaded := hk.loads _ _ _ _ hhandle
  rw [← hstate] at hloaded
  rcases estate_bind_error.1 h with h | ⟨event, s₇, hevent, h⟩
  · obtain ⟨e', he, rfl⟩ := call_error h
    exact hk.event _ _ _ he
  have hkept := hk.keeps p.name.value s₆.kernel handle hloaded
  rw [← (call_result hevent).2] at hkept
  rcases estate_bind_error.1 h with h | ⟨⟨⟩, s₈, -, h⟩
  · obtain ⟨e', he, rfl⟩ := call_error h
    exact hk.attach _ _ _ hkept _ he
  rcases estate_bind_error.1 h with h | ⟨⟨⟩, s₉, -, h⟩ <;> cases h

theorem probes_error (hk : k.FailsOnly options loaded reason) {ps : List Probe}
    (hps : ∀ p ∈ ps, ∀ n ∈ p.body, Statement n) (h : probes k options ps s = .error e s') :
    e.Expected options reason := by
  induction ps generalizing s with
  | nil => cases h
  | cons p ps ih =>
    rw [probes] at h
    rcases estate_bind_error.1 h with h | ⟨first, s₁, -, h⟩
    · exact probe_error hk (hps p List.mem_cons_self) h
    · rcases estate_bind_error.1 h with h | ⟨_, _, -, h⟩
      · exact ih (fun q hq => hps q (List.mem_cons_of_mem _ hq)) h
      · cases h

theorem parseScript_error {source : Source} (h : parseScript source = .error e) :
    (∃ errors, e = .lexical errors) ∨ ∃ e', e = .syntactic e' := by
  unfold parseScript at h
  rcases except_bind_error.1 h with h | ⟨tokens, -, h⟩
  · cases hx : Token.ofSource source with
    | ok _ => rw [hx] at h; cases h
    | error errors =>
      rw [hx] at h
      exact .inl ⟨errors, (Except.error.inj h).symm⟩
  · cases hx : Probe.ofTokens tokens with
    | ok _ => rw [hx] at h; cases h
    | error e' =>
      rw [hx] at h
      exact .inr ⟨e', (Except.error.inj h).symm⟩

theorem script_error (hk : k.FailsOnly options loaded reason) {source : Source}
    (h : script k options source s = .error e s') : e.Expected options reason := by
  unfold script at h
  rcases estate_bind_error.1 h with h | ⟨parsed, s₁, hparsed, h⟩
  · obtain ⟨e', he, rfl⟩ := orFail_error h
    rcases parseScript_error he with ⟨errors, rfl⟩ | ⟨e', rfl⟩ <;> trivial
  · rcases estate_bind_error.1 h with h | ⟨⟨⟩, s₂, -, h⟩
    · cases h
    · exact probes_error hk (parseScript_statements (orFail_ok hparsed).1) h

theorem script_of_first {source : Source} {p typed : Probe} {ps : List Probe} {typing : Typing}
    {bound : Table} {state : σ} (hparse : parseScript source = .ok (p :: ps))
    (htyped : p.annotate.run {} = .ok typed typing)
    (hbound : ∀ notes, ∃ s', bindTable k options typing.table ⟨state, notes⟩ = .ok bound s')
    (hcode : ∀ s, ∃ s', (do
      let code ← codeOf options bound typed
      call k (.loadProgram p.name.value code.bytecode)) s = .error e s') :
    ∃ s', (script k options source).run ⟨state, #[]⟩ = .error e s' := by
  have hannotate : ∀ s : Session σ,
      annotate p s = .ok (typed, typing.table) { s with notes := s.notes ++ typing.notes } := by
    intro s
    unfold annotate
    rw [htyped]
    rfl
  have hfirst : ∀ notes, ∃ s', probe k options p ⟨state, notes⟩ = .error e s' := by
    intro notes
    obtain ⟨s₁, hs₁⟩ := hbound (((notes.push (Note.probe p.name.value)) ++ typing.notes).push
      (Note.annotated typing.table.symbols.size))
    obtain ⟨s₂, hs₂⟩ := hcode s₁
    refine ⟨s₂, ?_⟩
    unfold probe
    rw [note_bind]
    refine estate_bind_error.2 (.inr ⟨_, _, hannotate _, ?_⟩)
    dsimp only
    rw [note_bind]
    refine estate_bind_error.2 (.inr ⟨bound, s₁, hs₁, ?_⟩)
    rcases estate_bind_error.1 hs₂ with hgen | ⟨code, s₃, hgen, hload⟩
    · exact estate_bind_error.2 (.inl hgen)
    · exact estate_bind_error.2 (.inr ⟨code, s₃, hgen, estate_bind_error.2 (.inl hload)⟩)
  obtain ⟨s', hs'⟩ := hfirst (#[].push (Note.scriptParsed source.name (p :: ps).length))
  refine ⟨s', ?_⟩
  change script k options source ⟨state, #[]⟩ = _
  unfold script
  rw [hparse, orFail_bind]
  dsimp only
  rw [note_bind]
  exact estate_bind_error.2 (.inl hs')

theorem codeOf_of_error {bound table : Table} {typed placed : Probe} {built : Flow.Built}
    {c : CodeError} (hplaced : typed.place.run bound = (placed, table))
    (hbuilt : Flow.ofProbe table placed = .ok built)
    (hc : built.program.assemble table.frame options.maxInstructions = .error c) (s : Session σ) :
    ∃ s', codeOf options bound typed s = .error (.code c) s' := by
  obtain ⟨notes, hrun⟩ := codeOf_eq options bound typed s
  rw [codeResult_of_built hplaced hbuilt, hc] at hrun
  exact ⟨_, hrun⟩

end

/-- A script that is too large for the machine is refused as such, and no other error of code
generation occurs: no internal one, no map without a descriptor and no missing channel. A kernel that
only keeps account refuses programs, but never a map or an attachment. -/
theorem script_fails_at_limits (options : Options) (source : Source) :
    (∀ (σ : Type) (k : Kernel σ) (s s' : Session σ) (e : CodeError),
      (script k options source).run s = .error (.code e) s' →
        e = .tooLong options.maxInstructions ∨ (∃ addr, e = .stackOffset addr) ∨
          ∃ distance, e = .jumpRange distance) ∧
    (0 < options.mapEntries → 0 < options.cpus →
      ∀ (s s' : Session DryRun) (e : KernelError),
        (script DryRun.kernel options source).run s = .error (.kernel e) s' →
          (∃ probe used limit, e = .stackExhausted probe used limit) ∨
            ∃ probe log, e = .rejected probe log) := by
  refine ⟨fun σ k s s' e h => ?_, fun hentries hcpus s s' e h => ?_⟩
  · have hlimit : e.IsLimit options.maxInstructions := script_error (k.failsOnly options) h
    cases e with
    | tooLong limit => exact .inl (congrArg _ hlimit)
    | stackOffset addr => exact .inr (.inl ⟨addr, rfl⟩)
    | jumpRange distance => exact .inr (.inr ⟨distance, rfl⟩)
    | unboundMap _ | noEventChannel | internal _ => exact hlimit.elim
  · have hrefusal : e.IsRefusal := script_error (DryRun.failsOnly hentries hcpus) h
    cases e with
    | stackExhausted probe used limit => exact .inl ⟨probe, used, limit, rfl⟩
    | rejected probe log => exact .inr ⟨probe, log, rfl⟩
    | mapCreation _ _ _ | attach _ => exact hrefusal.elim

/-- A branch inside another one, at the end of a probe with a map. -/
def innerEntry : Source where
  name := "entry"
  lines := ["probe p \x7b if (pid()) \x7b if (tid()) \x7b x[cpu()] = 1; \x7d \x7d \x7d"]

/-- With room for eight slots the program is too long, with more its kernel refuses it. -/
theorem innerEntry_fails :
    (∃ (s s' : Session DryRun) (e : CodeError),
      (script DryRun.kernel { maxInstructions := 8 } innerEntry).run s = .error (.code e) s' ∧
        (e = .tooLong 8 ∨ (∃ addr, e = .stackOffset addr) ∨ ∃ distance, e = .jumpRange distance)) ∧
    ∃ (s s' : Session DryRun) (e : KernelError),
      (script DryRun.kernel {} innerEntry).run s = .error (.kernel e) s' ∧
        ((∃ probe used limit, e = .stackExhausted probe used limit) ∨
          ∃ probe log, e = .rejected probe log) := by
  have hparts : ∃ p ps typed typing bound placed table, parseScript innerEntry = .ok (p :: ps) ∧
      p.annotate.run {} = .ok typed typing ∧
      (∃ s', bindTable DryRun.kernel {} typing.table ⟨{}, #[]⟩ = .ok bound s') ∧
      (∀ (n : Nat) notes, ∃ s', bindTable DryRun.kernel { maxInstructions := n } typing.table
        ⟨{}, notes⟩ = .ok bound s') ∧ typed.place.run bound = (placed, table) ∧
      (Flow.ofProbe table placed).toOption.any fun built =>
        (built.program.assembleInOrder table.frame 8).toOption.isNone &&
        (built.program.assembleInOrder table.frame 4096).toOption.any fun b =>
          b.stack ≤ DryRun.stackSize && !DryRun.endsInExit b := by
    refine ⟨?_, ?_, ?_, ?_, ?_, ?_, ?_, ?_, ?_, ⟨?_, ?_⟩, ?_, ?_, ?_⟩
    rotate_left 7
    · conv => lhs; cbv
    · conv => lhs; cbv
    rotate_left 1
    · exact rfl
    · exact fun _ _ => ⟨_, rfl⟩
    · exact rfl
    · decide +kernel
  obtain ⟨p, ps, typed, typing, bound, placed, table, hparse, htyped, -, hbound, hplaced, heval⟩ :=
    hparts
  obtain ⟨built, hbuilt, heval⟩ := except_ok_of_any heval
  obtain ⟨hlong, heval⟩ := Bool.and_eq_true_iff.1 heval
  obtain ⟨c, hc⟩ := except_error_of_none hlong
  obtain ⟨b, hb, hrefused⟩ := except_ok_of_any heval
  rw [← Flow.Program.assemble_eq] at hc hb
  have hcode : ∃ s', (script DryRun.kernel { maxInstructions := 8 } innerEntry).run ⟨{}, #[]⟩ =
      .error (.code c) s' := by
    refine script_of_first hparse htyped (hbound 8) fun s => ?_
    obtain ⟨s', hs'⟩ : ∃ s', codeOf { maxInstructions := 8 } bound typed s = .error (.code c) s' :=
      codeOf_of_error hplaced hbuilt hc s
    exact ⟨s', estate_bind_error.2 (.inl hs')⟩
  have hkernel : ∃ s', (script DryRun.kernel {} innerEntry).run ⟨{}, #[]⟩ =
      .error (.kernel (.rejected p.name.value "last insn is not an exit or jmp")) s' := by
    refine script_of_first hparse htyped (hbound 4096) fun s => ?_
    obtain ⟨code, s', hs', rfl⟩ : ∃ code s', (codeOf {} bound typed).run s = .ok code s' ∧
        code.bytecode = b := codeOf_of_assemble s hplaced hbuilt hb
    rw [Bool.and_eq_true, decide_eq_true_eq, Bool.not_eq_true'] at hrefused
    obtain ⟨s'', hload⟩ := call_of_error (k := DryRun.kernel) (s := s')
      (DryRun.loadProgram_rejected s'.kernel p.name.value hrefused.1 hrefused.2)
    exact ⟨s'', estate_bind_error.2 (.inr ⟨code, s', hs', hload⟩)⟩
  obtain ⟨s₁, hcode⟩ := hcode
  obtain ⟨s₂, hkernel⟩ := hkernel
  exact ⟨⟨_, _, _, hcode, (script_fails_at_limits _ _).1 _ _ _ _ _ hcode⟩,
    ⟨_, _, _, hkernel, (script_fails_at_limits _ _).2 (by decide) (by decide) _ _ _ hkernel⟩⟩

end Compile

end TraceScript
