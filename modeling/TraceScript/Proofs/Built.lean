import TraceScript.Proofs.Blocks

namespace TraceScript

namespace Flow

section

variable {w : World} {t : Table}

theorem builds_times {rs : List Region} {m : Build Unit} {f : Situation → Situation}
    (h : AlwaysBuilds w t rs m f) (n : Nat) : AlwaysBuilds w t rs (times m n) f^[n] := by
  induction n with
  | zero => exact fun s hs => ⟨s, .nothing hs⟩
  | succ n ih =>
    intro s hs
    obtain ⟨s₁, h₁⟩ := h s hs
    obtain ⟨s₂, h₂⟩ := ih s₁ h₁.opens
    exact ⟨s₂, h₁.seq h₂⟩

theorem builds_statements {ks : List Placing}
    (h : ∀ k ∈ ks, AlwaysBuilds w t k.regions (statement t k.placed)
      (k.node.perform w t.scope)) :
    AlwaysBuilds w t (ks.flatMap Placing.regions) (statements t (ks.map Placing.placed))
      (Node.performAll w t.scope (ks.map Placing.node)) := by
  induction ks with
  | nil => exact fun s hs => ⟨s, .nothing hs⟩
  | cons k ks ih =>
    intro s hs
    obtain ⟨s₁, h₁⟩ := h k List.mem_cons_self s hs
    obtain ⟨s₂, h₂⟩ := ih (fun k hk => h k (List.mem_cons_of_mem _ hk)) s₁ h₁.opens
    rw [List.flatMap_cons]
    have hboth := (h₁.mono (List.sublist_append_left ..)).seq (h₂.mono (List.sublist_append_right ..))
    exact ⟨s₂, hboth⟩

theorem builds_of_placed (ht : t.Ready) {n n' : Node} {rs : List Region}
    (h : PlacedStatement t n n' rs) :
    AlwaysBuilds w t rs (statement t n') (n.perform w t.scope) := by
  induction h with
  | declaration htarget hsym hp hs =>
    intro s hopen
    obtain ⟨c, hc⟩ := straight_declaration ht htarget hsym hp hs s
    exact ⟨_, .of_straight hopen (balanced_declaration t _ _) hc⟩
  | assignment htarget hsym hp hs =>
    intro s hopen
    obtain ⟨c, hc⟩ := straight_assignment ht htarget hsym hp hs s
    exact ⟨_, .of_straight hopen (balanced_assignment t _ _ _) hc⟩
  | cond hp hs _ _ ihyes ihno =>
    intro s hopen
    have hcond := (lowers_of_placed (w := w) ht hp).scalar hs
    exact Builds.branch hcond hopen (builds_statements ihyes) (builds_statements ihno)
  | unroll _ ih =>
    exact builds_times (builds_statements ih) _
  | call hp =>
    intro s hopen
    obtain ⟨c, hc⟩ := straight_call ht hp s
    exact ⟨_, .of_straight hopen (balanced_callStatement t _ _ _) hc⟩
  | out hb _ hcs _ hchannel hsh hs hs' ha hm =>
    intro s hopen
    obtain ⟨c, hc⟩ := straight_out hb hcs hchannel hsh hs hs' ha
      (fun k hk => lowers_of_placed ht (hm k hk)) s
    exact ⟨_, .of_straight hopen (balanced_callStatement t _ _ _) hc⟩

end

/-- A whole program touches its regions only, and does what some statements say. -/
structure Whole (w : World) (t : Table) (rs : List Region) (f : Situation → Situation)
    (p : Program) : Prop where
  safe : Framed w t rs → ∀ b, ∀ i ∈ p.codeAt b, i.Safe w (t.regions ++ rs)
  runs : Framed w t rs → ∀ σ, ∃ σ', p.Finishes w σ σ' ∧ t.situation σ' = f (t.situation σ)

/-- A builder with one empty block. -/
def Builder.start (name : String) : Builder :=
  { program := { name, blocks := #[{}] } }

theorem Builder.codeAt_start (name : String) (b : Nat) : (start name).program.codeAt b = [] := by
  cases b with
  | zero => rfl
  | succ b => exact codeAt_of_size_le (Nat.le_add_left 1 b)

theorem Builder.open_start (name : String) : (start name).Open where
  current := Nat.one_pos
  straight i hi := by
    have hi' : i ∈ (start name).program.codeAt 0 := hi
    rw [codeAt_start] at hi'
    cases hi'

theorem probe_eq (t : Table) (p : Probe) (name : String) :
    probe t p { program := { name } } =
      (do statements t p.body; Build.push .ret) (Builder.start name) := by
  rw [probe, Build.bind_of_ok (Builder.newBlock_eq _), Build.bind_of_ok (Builder.enter_eq _ _)]
  rfl

theorem ofProbe_whole {w : World} {t : Table} (ht : t.Ready) {p : Probe} {ks : List Placing}
    (hp : p.body = ks.map Placing.placed)
    (hks : ∀ k ∈ ks, PlacedStatement t k.node k.placed k.regions) :
    ∃ built, ofProbe t p = .ok built ∧ Whole w t (ks.flatMap Placing.regions)
      (Node.performAll w t.scope (ks.map Placing.node)) built.program := by
  have hstart := Builder.open_start p.name.value
  obtain ⟨s, hs⟩ := builds_statements (w := w) (fun k hk => builds_of_placed ht (hks k hk)) _ hstart
  let s' := s.append ⟨[.ret], []⟩
  have hleave : s.Leaves s' .ret s.size s.here :=
    ⟨Builder.codeAt_append hs.opens.current _, s.size_append _, rfl, s.count_append _⟩
  refine ⟨⟨s'.program, s'.outputs.toList⟩, ?_, fun hf b i hi => ?_, fun hf σ => ?_⟩
  · have hrun : probe t p { program := { name := p.name.value } } = .ok ((), s') := by
      rw [probe_eq, hp, Build.bind_of_ok hs.run]
      exact Emits.push _
    rw [ofProbe, StateT.run, hrun]
    rfl
  · rcases hleave.mem hi with hi | rfl
    · rcases hs.safe hf b i hi with hi | hi
      · have hnone : i ∈ (Builder.start p.name.value).program.codeAt b := hi
        rw [Builder.codeAt_start] at hnone
        cases hnone
      · exact hi
    · exact Instruction.safe_of_untouched rfl trivial
  · obtain ⟨σ', hreach, hsit⟩ := hs.runs hf s'.program hleave.extend σ
    exact ⟨σ', ⟨_, _, hreach, hleave.fetch fun _ => List.prefix_rfl⟩, hsit⟩

end Flow

end TraceScript
