import TraceScript.Proofs.Machine

namespace TraceScript

namespace Machine

open Bytecode (fetch)

variable {e : Env} {code : Array Slot} {i : Int} {ss ts : List Slot} {s : Slot} {m n k : State}

/-- Some slots lie in code from an index on. -/
def LiesAt (code : Array Slot) (i : Int) (ss : List Slot) : Prop :=
  ∀ (k : Nat) (s : Slot), ss[k]? = some s → fetch code (i + k) = some s

namespace LiesAt

theorem head (h : LiesAt code i (s :: ss)) : fetch code i = some s := by
  simpa using h 0 s rfl

theorem left (h : LiesAt code i (ss ++ ts)) : LiesAt code i ss := fun k s hs =>
  h k s (List.getElem?_append_left (List.getElem?_eq_some_iff.1 hs).1 ▸ hs)

theorem right (h : LiesAt code i (ss ++ ts)) : LiesAt code (i + ss.length) ts := by
  intro k s hs
  have hget : (ss ++ ts)[ss.length + k]? = some s := by
    rw [List.getElem?_append_right (Nat.le_add_right ..), Nat.add_sub_cancel_left]
    exact hs
  simpa [Int.add_assoc] using h _ s hget

end LiesAt

/-- Wherever the slots lie, the machine gets from the first one to the end of them. -/
def Runs (e : Env) (ss : List Slot) (m n : State) : Prop :=
  ∀ code i, LiesAt code i ss → Reaches e code ⟨i, m⟩ ⟨i + ss.length, n⟩

/-- The same by steps of some kind. -/
def RunsBy (T : Array Slot → Config → Config → Prop) (ss : List Slot) (m n : State) : Prop :=
  ∀ code i, LiesAt code i ss → Relation.ReflTransGen (T code) ⟨i, m⟩ ⟨i + ss.length, n⟩

namespace RunsBy

variable {T T' : Array Slot → Config → Config → Prop}

protected theorem nil (m : State) : RunsBy T [] m m := by
  intro code i _
  rw [List.length_nil, Int.natCast_zero, Int.add_zero]

protected theorem append (h : RunsBy T ss m n) (h' : RunsBy T ts n k) :
    RunsBy T (ss ++ ts) m k := by
  intro code i hl
  have hlen : i + (ss ++ ts).length = i + ss.length + ts.length := by
    rw [List.length_append]
    omega
  rw [hlen]
  exact (h code i hl.left).trans (h' code _ hl.right)

theorem mono (h : RunsBy T ss m n) (hT : ∀ code c d, T code c d → T' code c d) : RunsBy T' ss m n :=
  fun code i hl => Relation.ReflTransGen.mono (hT code) _ _ (h code i hl)

end RunsBy

/-- A step of any kind. -/
def Steps (e : Env) (code : Array Slot) (c d : Config) : Prop := step e code c = some d

theorem step_eq {a : Action} {d : Int} (hs : fetch code i = some s) (ha : s.action = some a)
    (hrun : a.run e (fetch code (i + 1)) m = some (n, d)) :
    step e code ⟨i, m⟩ = some ⟨i + d, n⟩ := by
  simp [step, hs, ha, hrun]

namespace Runs

protected theorem append (h : Runs e ss m n) (h' : Runs e ts n k) : Runs e (ss ++ ts) m k :=
  RunsBy.append h h'

theorem passing {a : Action} (ha : s.action = some a)
    (hrun : ∀ next, a.run e next m = some (n, 1 + (ss.length : Int))) : Runs e (s :: ss) m n := by
  intro code i hl
  have hlen : i + (s :: ss).length = i + (1 + ss.length) := by
    rw [List.length_cons]
    omega
  rw [hlen]
  exact .single (step_eq hl.head ha (hrun _))

theorem single {a : Action} (ha : s.action = some a) (hrun : ∀ next, a.run e next m = some (n, 1)) :
    Runs e [s] m n := passing ha hrun

theorem cons {a : Action} (ha : s.action = some a) (hrun : ∀ next, a.run e next m = some (n, 1))
    (h : Runs e ss n k) : Runs e (s :: ss) m k :=
  (single ha hrun).append h

theorem wide {s' : Slot} {a : Action} (ha : s.action = some a)
    (hrun : a.run e (some s') m = some (n, 2)) : Runs e [s, s'] m n := by
  intro code i hl
  have hnext : fetch code (i + 1) = some s' := hl 1 s' rfl
  exact .single (step_eq hl.head ha (hnext ▸ hrun))

end Runs

end Machine

namespace Emit

open Machine

variable {α β : Type} {T : Array Slot → Config → Config → Prop} {e : Env} {P Q R : State → Prop}
  {x : α} {y : β}

/-- If the action succeeds, its result is the given one, and the slots that it writes lead from every
state of one kind to a state of another kind, by some kind of steps. -/
structure CarriesBy (T : Array Slot → Config → Config → Prop) (P Q : State → Prop) (x : α)
    (m : Emit α) : Prop where
  made : ∀ ds y es, m ds = .ok y es → y = x ∧ ∃ ss, es.toList = ds.toList ++ ss.map draft ∧
    ∀ s, P s → ∃ s', RunsBy T ss s s' ∧ Q s'

abbrev Carries (e : Env) (P Q : State → Prop) (x : α) (m : Emit α) : Prop :=
  CarriesBy (Steps e) P Q x m

theorem append_ok [Ceiling] {d : Draft} {ds es : Array Draft} (h : append d ds = .ok () es) :
    es = ds.push d := by
  unfold append at h
  split at h
  · exact (EStateM.Result.ok.inj h).2.symm
  · split at h
    · exact (EStateM.Result.ok.inj h).2.symm
    · cases h

namespace CarriesBy

protected theorem pure (h : ∀ s, P s → Q s) : CarriesBy T P Q x (pure x) := by
  constructor
  rintro ds _ _ ⟨⟩
  exact ⟨rfl, [], (List.append_nil _).symm, fun s hs => ⟨s, .nil s, h s hs⟩⟩

protected theorem bind {m : Emit α} {f : α → Emit β} (hm : CarriesBy T P Q x m)
    (hf : CarriesBy T Q R y (f x)) : CarriesBy T P R y (m >>= f) := by
  constructor
  intro ds z es h
  obtain ⟨x', ds', hx, hrest⟩ := Run.estate_bind_ok.1 h
  obtain ⟨rfl, ss, hss, hrun⟩ := hm.made ds x' ds' hx
  obtain ⟨rfl, ts, hts, hrun'⟩ := hf.made ds' z es hrest
  refine ⟨rfl, ss ++ ts, by rw [hts, hss, List.map_append, List.append_assoc], fun s hs => ?_⟩
  obtain ⟨s', hs', hq⟩ := hrun s hs
  obtain ⟨s'', hs'', hr⟩ := hrun' s' hq
  exact ⟨s'', hs'.append hs'', hr⟩

/-- What is known of the steps, before and afterwards may be more than what is needed. -/
theorem imp {T' : Array Slot → Config → Config → Prop} {P' Q' : State → Prop} {m : Emit α}
    (h : CarriesBy T P Q x m) (hT : ∀ code c d, T code c d → T' code c d) (hP : ∀ s, P' s → P s)
    (hQ : ∀ s, Q s → Q' s) : CarriesBy T' P' Q' x m := by
  refine ⟨fun ds y es hrun => ?_⟩
  obtain ⟨hy, ss, hss, hall⟩ := h.made ds y es hrun
  refine ⟨hy, ss, hss, fun s hs => ?_⟩
  obtain ⟨s', hruns, hq⟩ := hall s (hP s hs)
  exact ⟨s', hruns.mono hT, hQ s' hq⟩

theorem weaken {P' : State → Prop} {m : Emit α} (h : CarriesBy T P Q x m)
    (hP : ∀ s, P' s → P s) : CarriesBy T P' Q x m :=
  h.imp (fun _ _ _ h => h) hP fun _ h => h

theorem mono {Q' : State → Prop} {m : Emit α} (h : CarriesBy T P Q x m) (hQ : ∀ s, Q s → Q' s) :
    CarriesBy T P Q' x m :=
  h.imp (fun _ _ _ h => h) (fun _ h => h) hQ

theorem offset {addr : Int} {f : Int16 → Emit β}
    (h : (Int16.ofInt addr).toInt = addr → CarriesBy T P Q y (f (Int16.ofInt addr))) :
    CarriesBy T P Q y (Emit.offset addr >>= f) := by
  unfold Emit.offset
  split
  · rename_i haddr
    exact .bind (.pure fun _ h => h) (h haddr)
  · exact ⟨nofun⟩

theorem slot [Ceiling] {s : Slot} (h : ∀ m, P m → ∃ m', RunsBy T [s] m m' ∧ Q m') :
    CarriesBy T P Q () (Emit.push s) := by
  refine ⟨fun ds y es hrun => ⟨rfl, [s], ?_, h⟩⟩
  rw [append_ok hrun, Array.toList_push]
  rfl

theorem pushAll {ss : List Slot} (h : ∀ s, P s → ∃ s', Runs e ss s s' ∧ Q s') :
    Carries e P Q () (Emit.pushAll ss) := by
  refine ⟨fun ds y es hrun => ⟨rfl, ss, ?_, h⟩⟩
  obtain rfl := (EStateM.Result.ok.inj ((run_pushAll ss ds).symm.trans hrun)).2
  exact Array.toList_append

theorem push {s : Slot} {a : Action} (ha : s.action = some a)
    (h : ∀ m, P m → ∃ m', (∀ next, a.run e next m = some (m', 1)) ∧ Q m') :
    Carries e P Q () (Emit.push s) := by
  refine slot fun m hm => ?_
  obtain ⟨m', hrun, hq⟩ := h m hm
  exact ⟨m', Runs.single ha hrun, hq⟩

end CarriesBy

/-- The widest access that fits some bytes and is aligned at their address. -/
structure Widest (addr : Int) (remaining width : Nat) : Prop where
  isWidth : IsWidth width
  fits : width ≤ remaining
  aligned : addr % width = 0
  widest : ∀ other, IsWidth other → other ≤ remaining → addr % other = 0 → other ≤ width

theorem widest_chunkWidth (addr : Int) {remaining : Nat} (h : 0 < remaining) :
    Widest addr remaining (chunkWidth addr remaining) := by
  unfold chunkWidth
  split
  · exact ⟨.inl rfl, by omega, by omega, fun other hother _ _ => by unfold IsWidth at hother; omega⟩
  split
  · refine ⟨.inr (.inl rfl), by omega, by omega, ?_⟩
    rintro other (rfl | rfl | rfl | rfl) <;> omega
  split
  · refine ⟨.inr (.inr (.inl rfl)), by omega, by omega, ?_⟩
    rintro other (rfl | rfl | rfl | rfl) <;> omega
  · refine ⟨.inr (.inr (.inr rfl)), by omega, by omega, ?_⟩
    rintro other (rfl | rfl | rfl | rfl) <;> omega

/-- The accesses to a region, one after another. The invariant tells what holds after some of its
bytes. -/
theorem carries_forChunks {I : Nat → State → Prop} {addr : Int} {size : Nat}
    {action : Nat → Nat → Emit Unit}
    (h : ∀ done width : Nat, Widest (addr + done) (size - done) width → done + width ≤ size →
      CarriesBy T (I done) (I (done + width)) () (action done width)) :
    CarriesBy T (I 0) (I size) () (forChunks addr size action) := by
  have hfrom : ∀ done ≤ size,
      CarriesBy T (I done) (I size) () (forChunksFrom addr size action done) := by
    intro done hle
    fun_induction forChunksFrom addr size action done with
    | case1 done hlt width ih =>
      have hwidest : Widest (addr + done) (size - done) width := widest_chunkWidth _ (by omega)
      have hfits : done + width ≤ size := by
        have := hwidest.fits
        omega
      exact .bind (h done width hwidest hfits) (ih hfits)
    | case2 done hge =>
      obtain rfl : done = size := by omega
      exact .pure fun _ h => h
  exact hfrom 0 (Nat.zero_le _)

end Emit

end TraceScript
