import Mathlib
import TraceScript.Kernel.DryRun
import TraceScript.Proofs.Prepared

namespace TraceScript

open TraceScript.Flow (State)

/-- Lowering preserves meaning as long as the frame takes less than `2 ^ 31` bytes. -/
theorem ofProbe_finishes_as_performAll {σ : Type} {k : Kernel σ} {options : Options}
    {source : Source} {typed placed : Probe} {bound table : Table}
    (h : Compile.Prepares k options source typed bound placed table)
    (htotal : placed.frameTotal table < 2 ^ 31) :
    ∃ built, Flow.ofProbe table placed = .ok built ∧
      ∀ w : World, w.Keeps bound → ∀ s : State, ∃ s' : State, built.program.Finishes w s s' ∧
        let done := Node.performAll w bound.scope typed.body ⟨table.contents s.frame, s.outside⟩
        s'.outside = done.outside ∧ table.contents s'.frame = done.vars := by
  obtain ⟨ks, hprep⟩ := h.prepared
  have hwhole := fun w => Flow.ofProbe_whole (w := w) hprep.ready_table hprep.placed hprep.statements
  obtain ⟨built, hbuilt, -⟩ := hwhole default
  refine ⟨built, hbuilt, fun w hw s => ?_⟩
  obtain ⟨built', hbuilt', hruns⟩ := hwhole w
  obtain rfl : built = built' := Except.ok.inj (hbuilt.symm.trans hbuilt')
  obtain ⟨s', hfinish, hsit⟩ := hruns.runs (hprep.framed htotal hw) s
  rw [hprep.steps.places.scope_eq, ← hprep.nodes] at hsit
  exact ⟨s', hfinish, congrArg Situation.outside hsit, congrArg Situation.vars hsit⟩

/-- An entry whose key is read from the same map. -/
def nestedReads : Source where
  name := "nested"
  lines :=
    ["probe p \x7b m[1] = 2; m[m[1]] = m[1] + pid(); if (m[2] > 1) \x7b out(\"%d\", m[1]); \x7d \x7d"]

/-- Process 7, with one map and one channel. -/
def nestedWorld : World where
  pid := 7
  tid := 8
  cpu := 0
  args _ := 0
  comm := []
  clock _ := 0
  created
    | ⟨3⟩ => some ⟨.hash, 8, 8, 1024⟩
    | ⟨4⟩ => some ⟨.perfEventArray, 4, 4, 1⟩
    | _ => none

/-- What the script does from empty maps. -/
def nestedTrace : List Effect :=
  [.update ⟨3⟩ (Bytes.ofWord 1) (Bytes.ofWord 2), .lookup ⟨3⟩ (Bytes.ofWord 1),
    .lookup ⟨3⟩ (Bytes.ofWord 1), .update ⟨3⟩ (Bytes.ofWord 2) (Bytes.ofWord 9),
    .lookup ⟨3⟩ (Bytes.ofWord 2), .lookup ⟨3⟩ (Bytes.ofWord 1), .event ⟨4⟩ (Bytes.ofWord 2)]

theorem nestedReads_finishes :
    ∃ typed bound placed table built s',
      Compile.Prepares DryRun.kernel {} nestedReads typed bound placed table ∧
      placed.frameTotal table < 2 ^ 31 ∧ nestedWorld.Keeps bound ∧
      Flow.ofProbe table placed = .ok built ∧
      built.program.Finishes nestedWorld ⟨fun _ => 0, fun _ => 0, { store := fun _ _ => none }⟩ s' ∧
      s'.outside.trace = nestedTrace := by
  have hprepares : ∃ typed bound placed table,
      Compile.Prepares DryRun.kernel {} nestedReads typed bound placed table ∧
      placed.frameTotal table < 2 ^ 31 ∧ nestedWorld.Keeps bound ∧
      (Node.performAll nestedWorld bound.scope typed.body
        ⟨table.contents fun _ => 0, { store := fun _ _ => none }⟩).outside.trace = nestedTrace := by
    apply Compile.exists_prepares (s := { kernel := {} })
    · conv => lhs; cbv
    · conv => lhs; cbv
    · exact rfl
    · exact ⟨by decide +kernel, ⟨by decide +kernel, by decide +kernel⟩, by decide +kernel⟩
  obtain ⟨typed, bound, placed, table, hp, htotal, hkeeps, htrace⟩ := hprepares
  obtain ⟨built, hbuilt, hruns⟩ := ofProbe_finishes_as_performAll hp htotal
  obtain ⟨s', hfinish, hout, -⟩ := hruns nestedWorld hkeeps ⟨fun _ => 0, fun _ => 0, _⟩
  exact ⟨typed, bound, placed, table, built, s', hp, htotal, hkeeps, hbuilt, hfinish,
    hout ▸ htrace⟩

end TraceScript
