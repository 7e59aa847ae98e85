import TraceScript.Flow.Build
import TraceScript.Proofs.FlowRun
import TraceScript.Proofs.Run

namespace TraceScript.Flow

theorem Build.ok_of_bind {α β : Type} {m : Build α} {f : α → Build β} {s s' : Builder} {b : β}
    (h : (m >>= f) s = .ok (b, s')) : ∃ a s₁, m s = .ok (a, s₁) ∧ f a s₁ = .ok (b, s') := by
  change (m s >>= fun r => f r.1 r.2) = _ at h
  obtain ⟨⟨a, s₁⟩, hm, hf⟩ := Run.except_bind_ok.1 h
  exact ⟨a, s₁, hm, hf⟩

/-- Instructions and the temporaries that they introduce. -/
structure Chunk where
  code : List Instruction := []
  temps : List TempInfo := []

instance : Append Chunk := ⟨fun c d => ⟨c.code ++ d.code, c.temps ++ d.temps⟩⟩

@[simp] theorem Chunk.code_append (c d : Chunk) : (c ++ d).code = c.code ++ d.code := rfl

@[simp] theorem Chunk.temps_append (c d : Chunk) : (c ++ d).temps = c.temps ++ d.temps := rfl

namespace Builder

/-- The number of the next temporary. -/
def count (s : Builder) : Nat := s.program.temps.size

/-- Adds a piece of code to the current block. -/
def append (s : Builder) (c : Chunk) : Builder :=
  { s with program :=
    { s.program with
      blocks := s.program.blocks.modify s.current fun b =>
        { b with code := b.code ++ c.code.toArray }
      temps := s.program.temps ++ c.temps.toArray } }

@[simp] theorem count_append (s : Builder) (c : Chunk) :
    (s.append c).count = s.count + c.temps.length := by
  simp [count, append]

@[simp] theorem current_append (s : Builder) (c : Chunk) : (s.append c).current = s.current := rfl

@[simp] theorem outputs_append (s : Builder) (c : Chunk) : (s.append c).outputs = s.outputs := rfl

theorem append_append (s : Builder) (c d : Chunk) : (s.append c).append d = s.append (c ++ d) := by
  have hblocks : (s.program.blocks.modify s.current fun b =>
      { b with code := b.code ++ c.code.toArray }).modify s.current (fun b =>
      { b with code := b.code ++ d.code.toArray }) =
      s.program.blocks.modify s.current fun b =>
        { b with code := b.code ++ (c.code ++ d.code).toArray } := by
    apply Array.ext_getElem?
    intro i
    simp only [Array.getElem?_modify]
    split
    · cases s.program.blocks[i]? with
      | none => rfl
      | some b => simp
    · rfl
  simp [append, hblocks]

theorem append_empty (s : Builder) : s.append {} = s := by
  have hblocks : (s.program.blocks.modify s.current fun b =>
      { b with code := b.code ++ ([] : List Instruction).toArray }) = s.program.blocks := by
    apply Array.ext_getElem?
    intro i
    simp only [Array.getElem?_modify, Array.append_empty]
    split <;> simp
  rw [append, hblocks, Array.append_empty]

/-- Keeps the formats of some events. -/
def announce (s : Builder) (fs : Array EventFormat) : Builder :=
  { s with outputs := s.outputs ++ fs }

theorem announce_empty (s : Builder) : s.announce #[] = s := by
  rw [announce, Array.append_empty]

theorem announce_append (s : Builder) (c : Chunk) (fs : Array EventFormat) :
    (s.announce fs).append c = (s.append c).announce fs := rfl

theorem announce_announce (s : Builder) (fs gs : Array EventFormat) :
    (s.announce fs).announce gs = s.announce (fs ++ gs) := by
  simp [announce, Array.append_assoc]

end Builder

/-- An action succeeds, and all that it does is to add a piece of code. -/
def Emits {α : Type} (m : Build α) (s : Builder) (a : α) (c : Chunk) : Prop :=
  m s = .ok (a, s.append c)

namespace Emits

variable {α β : Type} {s : Builder}

theorem pure (a : α) : Emits (Pure.pure a) s a {} := by
  rw [Emits, s.append_empty]
  rfl

theorem bind {m : Build α} {f : α → Build β} {a : α} {b : β} {c d : Chunk} (h : Emits m s a c)
    (h' : Emits (f a) (s.append c) b d) : Emits (m >>= f) s b (c ++ d) := by
  change (m s >>= fun p => f p.1 p.2) = _
  rw [h, ← s.append_append]
  exact h'

theorem push (i : Instruction) : Emits (Build.push i) s () ⟨[i], []⟩ := by
  simp [Emits, Build.push, Builder.append, modify, modifyGet, MonadStateOf.modifyGet,
    StateT.modifyGet, Pure.pure, Except.pure]

theorem newTemp (origin : Option Origin) :
    Emits (Build.newTemp origin) s s.count ⟨[], [{ origin }]⟩ := by
  have happend : s.append ⟨[], [{ origin }]⟩ =
      { s.append {} with program := { (s.append {}).program with
        temps := s.program.temps.push { origin } } } := by
    simp [Builder.append]
  rw [Emits, happend, s.append_empty]
  rfl

theorem define (origin : Option Origin) (i : Temp → Instruction) :
    Emits (do
      let dst ← Build.newTemp origin
      Build.push (i dst)
      return dst) s s.count ⟨[i s.count], [{ origin }]⟩ := by
  simp [Emits, Build.push, Build.newTemp, Builder.append, Builder.count, modify, modifyGet,
    MonadStateOf.modifyGet, StateT.modifyGet, Pure.pure, Except.pure, Bind.bind, StateT.bind,
    Except.bind]
  rfl

end Emits

/-- If an action succeeds, it has added a piece of code and kept the formats of some events, and a
condition holds of the builder before it, the result and the piece. -/
def Lays {α : Type} (m : Build α) (Q : Builder → α → Chunk → Prop) : Prop :=
  ∀ s a s', m s = .ok (a, s') → ∃ c fs, s' = (s.append c).announce fs ∧ Q s a c

namespace Lays

variable {α β : Type} {m : Build α} {Q Q' : Builder → α → Chunk → Prop}

theorem of_emits {a : Builder → α} {c : Builder → Chunk} (h : ∀ s, Emits m s (a s) (c s))
    (hQ : ∀ s, Q s (a s) (c s)) : Lays m Q := by
  intro s b s' hrun
  obtain ⟨rfl, rfl⟩ := Prod.mk.inj (Except.ok.inj ((h s).symm.trans hrun))
  exact ⟨c s, #[], (Builder.announce_empty _).symm, hQ s⟩

protected theorem throw (e : CodeError) : Lays (throw e : Build α) Q := by
  rintro s a s' ⟨⟩

theorem mono (h : Lays m Q) (hQ : ∀ s a c, Q s a c → Q' s a c) : Lays m Q' := by
  intro s a s' hrun
  obtain ⟨c, fs, hs, hq⟩ := h s a s' hrun
  exact ⟨c, fs, hs, hQ s a c hq⟩

/-- The second action follows the first one, with the numbers of its temporaries. -/
protected theorem bind {f : α → Build β} {Q : Builder → β → Chunk → Prop}
    (h : Lays m fun s a c => Lays (f a) fun s' b d => s'.count = s.count + c.temps.length →
      Q s b (c ++ d)) : Lays (m >>= f) Q := by
  intro s b s' hrun
  obtain ⟨a, s₁, h₁, h₂⟩ := Build.ok_of_bind hrun
  obtain ⟨c, fs, rfl, hf⟩ := h s a s₁ h₁
  obtain ⟨d, gs, rfl, hq⟩ := hf _ b s' h₂
  refine ⟨c ++ d, fs ++ gs, ?_, hq (s.count_append c)⟩
  rw [Builder.announce_append, Builder.append_append, Builder.announce_announce]

theorem announce (f : EventFormat) {Q : Builder → Unit → Chunk → Prop} (h : ∀ s, Q s () {}) :
    Lays (modify fun s : Builder => { s with outputs := s.outputs.push f }) Q := by
  rintro s _ _ ⟨⟩
  refine ⟨{}, #[f], ?_, h s⟩
  rw [s.append_empty, Builder.announce]
  simp

end Lays

end TraceScript.Flow
