import TraceScript.Kernel.DryRun
import TraceScript.Proofs.Assembled
import TraceScript.Proofs.RecasedTrees
import TraceScript.Proofs.RelabeledFlow

namespace TraceScript

/-- The same error in the same place, with its names in lower case. -/
def CompileError.lower : CompileError → CompileError
  | syntactic e => syntactic { e with value := e.value.relabel .lower }
  | semantic e => semantic { e with value := e.value.relabel .lower }
  | code e => code (e.relabel .lower)
  | e => e

/-- The same probe with the names of its maps in lower case. -/
def CompiledProbe.lower (c : CompiledProbe) : CompiledProbe :=
  { c with maps := c.maps.map (Prod.map Name.lower id) }

theorem Symbol.relabel_lower (s : Symbol) : s.relabel .lower = { s with name := s.name.lower } := by
  have hid : (fun slot : MapSlot => { slot with id := slot.id.map id }) = id :=
    funext fun slot => by rw [Option.map_id]; rfl
  exact congrArg (fun map => { s with name := s.name.lower, map := map })
    ((congrArg (Option.map · s.map) hid).trans (congrFun Option.map_id s.map))

theorem Symbol.eq_of_lower {s s' : Symbol} (h : s'.relabel .lower = s.relabel .lower) :
    s'.name.lower = s.name.lower ∧ s'.kind = s.kind ∧ s'.facts = s.facts ∧ s'.addr = s.addr ∧
      s'.map = s.map := by
  rw [relabel_lower, relabel_lower] at h
  exact Symbol.mk.inj h

theorem Table.relabel_lower (t : Table) :
    t.relabel .lower = { t with symbols := t.symbols.map (Symbol.relabel .lower) } := by
  have hevents : t.events.relabel .lower = t.events := by cases t.events <;> rfl
  rw [relabel, hevents]

theorem Table.eq_of_lower {t t' : Table} (h : t'.relabel .lower = t.relabel .lower) :
    t'.symbols.map (Symbol.relabel .lower) = t.symbols.map (Symbol.relabel .lower) ∧
      t'.frame = t.frame ∧ t'.events = t.events := by
  rw [relabel_lower, relabel_lower] at h
  exact Table.mk.inj h

theorem Flow.ofProbe_lower (t : Table) (p : Probe) :
    ofProbe (t.relabel .lower) (p.relabel .lower) =
      (ofProbe t p).mapError (CodeError.relabel .lower) := by
  have hid : Built.rename Relabeling.lower.map = id := funext Built.rename_id
  rw [ofProbe_relabel, hid, Except.map_id]
  rfl

namespace Compile

variable {σ α β γ δ : Type}

/-- What is left of a compilation if case is disregarded: its result or its error, and the state of
the kernel. -/
def seen (h : α → β) : EStateM.Result CompileError (Session σ) α → Except CompileError β × σ
  | .ok a s => (.ok (h a), s.kernel)
  | .error e s => (.error e.lower, s.kernel)

/-- The same is seen of both actions, whatever was reported before. -/
def Alike (h : α → β) (m m' : Compile σ α) : Prop :=
  ∀ s s' : Session σ, s'.kernel = s.kernel → seen h (m' s') = seen h (m s)

namespace Alike

variable {h : α → β} {h' : γ → δ}

protected theorem pure {a a' : α} (ha : h a' = h a) :
    Alike h (pure a : Compile σ α) (pure a') := by
  intro s s' hs
  change (Except.ok (h a'), s'.kernel) = (Except.ok (h a), s.kernel)
  rw [ha, hs]

protected theorem throw {e e' : CompileError} (he : e'.lower = e.lower) :
    Alike h (throw e : Compile σ α) (throw e') := by
  intro s s' hs
  change (Except.error e'.lower, s'.kernel) = (Except.error e.lower, s.kernel)
  rw [he, hs]

protected theorem bind {m m' : Compile σ α} {f f' : α → Compile σ γ} (hm : Alike h m m')
    (hf : ∀ a a', h a' = h a → Alike h' (f a) (f' a')) : Alike h' (m >>= f) (m' >>= f') := by
  intro s s' hs
  have hends := hm s s' hs
  change seen h' (EStateM.bind m' f' s') = seen h' (EStateM.bind m f s)
  unfold EStateM.bind
  cases hrun : m s with
  | ok a t =>
    cases hrun' : m' s' with
    | ok a' t' =>
      rw [hrun, hrun'] at hends
      obtain ⟨ha, ht⟩ := Prod.mk.inj hends
      exact hf a a' (Except.ok.inj ha) t t' ht
    | error e' t' => rw [hrun, hrun'] at hends; cases (Prod.mk.inj hends).1
  | error e t =>
    cases hrun' : m' s' with
    | ok a' t' => rw [hrun, hrun'] at hends; cases (Prod.mk.inj hends).1
    | error e' t' =>
      rw [hrun, hrun'] at hends
      obtain ⟨he, ht⟩ := Prod.mk.inj hends
      exact Prod.ext (congrArg Except.error (Except.error.inj he)) ht

protected theorem bindEq {m m' : Compile σ α} {f f' : α → Compile σ γ} (hm : Alike id m m')
    (hf : ∀ a, Alike h' (f a) (f' a)) : Alike h' (m >>= f) (m' >>= f') :=
  hm.bind fun a a' (ha : a' = a) => ha ▸ hf a

theorem notes (ns ns' : Array Note) :
    Alike id (Compile.notes ns : Compile σ Unit) (Compile.notes ns') :=
  fun _ _ hs => congrArg (Prod.mk (Except.ok ())) hs

theorem note (n n' : Note) : Alike id (Compile.note n : Compile σ Unit) (Compile.note n') :=
  fun _ _ hs => congrArg (Prod.mk (Except.ok ())) hs

theorem call (k : Kernel σ) (c : Call) : Alike id (Compile.call k c) (Compile.call k c) := by
  intro s s' hs
  change seen id (orFail .kernel (k.answer c s'.kernel).result ⟨(k.answer c s'.kernel).state, _⟩) =
    seen id (orFail .kernel (k.answer c s.kernel).result ⟨(k.answer c s.kernel).state, _⟩)
  rw [hs]
  cases (k.answer c s.kernel).result <;> rfl

end Alike

theorem alike_annotate {p p' : Probe} (h : p.Alike p') :
    Alike (Prod.map (Probe.relabel .lower) (Table.relabel .lower))
      (annotate p : Compile σ (Probe × Table)) (annotate p') := by
  have hends : Annotate.relabelResult .lower (Probe.relabel .lower) (p'.annotate {}) =
      Annotate.relabelResult .lower (Probe.relabel .lower) (p.annotate {}) := by
    rw [← (Probe.commutes_annotate .lower p').run {}, ← (Probe.commutes_annotate .lower p).run {},
      show p'.relabel .lower = p.relabel .lower from h]
  unfold annotate EStateM.run
  cases hrun : p.annotate {} with
  | ok q t =>
    cases hrun' : p'.annotate {} with
    | ok q' t' =>
      rw [hrun, hrun'] at hends
      obtain ⟨hq, ht⟩ := EStateM.Result.ok.inj hends
      exact .bindEq (.notes _ _) fun _ => .pure (Prod.ext hq (congrArg Typing.table ht))
    | error e' t' => rw [hrun, hrun'] at hends; cases hends
  | error e t =>
    cases hrun' : p'.annotate {} with
    | ok q' t' => rw [hrun, hrun'] at hends; cases hends
    | error e' t' =>
      rw [hrun, hrun'] at hends
      obtain ⟨he, -⟩ := EStateM.Result.error.inj hends
      exact .bindEq (.notes _ _) fun _ => .throw (congrArg CompileError.semantic he)

theorem alike_createMaps (k : Kernel σ) (options : Options) (ss : List Symbol) : ∀ ss' : List Symbol,
    ss'.map (Symbol.relabel .lower) = ss.map (Symbol.relabel .lower) →
      Alike (List.map (Symbol.relabel .lower)) (createMaps k options ss) (createMaps k options ss') := by
  induction ss with
  | nil =>
    intro ss' h
    rw [List.map_eq_nil_iff.1 h]
    exact .pure rfl
  | cons s ss ih =>
    intro ss' h
    obtain ⟨s', ss', rfl, hs, hss⟩ := List.map_eq_cons_iff.1 h
    have htail (a a' : Symbol) (ha : a'.relabel .lower = a.relabel .lower) :
        Alike (List.map (Symbol.relabel .lower)) (do return a :: (← createMaps k options ss))
          (do return a' :: (← createMaps k options ss')) :=
      .bind (ih ss' hss) fun _ _ hrest => .pure (congrArg₂ List.cons ha hrest)
    obtain ⟨name, kind, facts, addr, map⟩ := s
    obtain ⟨name', kind, facts, addr, map⟩ := s'
    obtain ⟨hname, rfl, rfl, rfl, rfl⟩ := Symbol.eq_of_lower hs
    -- The request for a map tells sizes and no name, so both ask for the same map.
    cases map with
    | none => exact .bind (.pure hs) htail
    | some slot =>
      refine .bindEq (.call k _) fun id => .bind (.pure ?_) htail
      exact congrArg (Symbol.mk · kind facts addr _) hname

theorem alike_bindTable (k : Kernel σ) (options : Options) {t t' : Table}
    (h : t'.relabel .lower = t.relabel .lower) :
    Alike (Table.relabel .lower) (bindTable k options t) (bindTable k options t') := by
  obtain ⟨hsymbols, hframe, hevents⟩ := Table.eq_of_lower h
  refine .bind (alike_createMaps k options _ _ ?_) fun symbols symbols' h => ?_
  · rw [← Array.toList_map, ← Array.toList_map, hsymbols]
  have hbound (events : Channel) : Table.relabel .lower ⟨symbols'.toArray, t'.frame, events⟩ =
      Table.relabel .lower ⟨symbols.toArray, t.frame, events⟩ := by
    rw [Table.relabel_lower, Table.relabel_lower, List.map_toArray, List.map_toArray, h, hframe]
  unfold Table.needsEvents
  dsimp only
  rw [hevents]
  by_cases hsends : (t.events != .unused) = true
  · rw [if_pos hsends, if_pos hsends]
    exact .bindEq (.call k _) fun id => .pure (hbound (.bound id))
  · rw [if_neg hsends, if_neg hsends]
    exact .pure (hbound _)

theorem same_or_errors {ε ζ : Type} {f : ε → ζ} {x x' : Except ε α}
    (h : x'.mapError f = x.mapError f) :
    (∃ a, x = .ok a ∧ x' = .ok a) ∨ ∃ e e', x = .error e ∧ x' = .error e' ∧ f e' = f e := by
  cases x with
  | ok a =>
    cases x' with
    | ok a' => exact .inl ⟨a, rfl, congrArg Except.ok (Except.ok.inj h)⟩
    | error e' => cases h
  | error e =>
    cases x' with
    | ok a' => cases h
    | error e' => exact .inr ⟨e, e', rfl, rfl, Except.error.inj h⟩

theorem codeResult_lower (options : Options) {t t' : Table} {p p' : Probe}
    (ht : t'.relabel .lower = t.relabel .lower) (hp : p.Alike p') :
    (codeResult options t' p').mapError (CodeError.relabel .lower) =
      (codeResult options t p).mapError (CodeError.relabel .lower) := by
  obtain ⟨q, u, hplaced⟩ : ∃ q u, p.place.run t = (q, u) := ⟨_, _, rfl⟩
  obtain ⟨q', u', hplaced'⟩ : ∃ q' u', p'.place.run t' = (q', u') := ⟨_, _, rfl⟩
  obtain ⟨hq, hu⟩ : q'.relabel .lower = q.relabel .lower ∧ u'.relabel .lower = u.relabel .lower := by
    rw [← Prod.mk.injEq, ← Probe.place_relabel .lower hplaced, ← Probe.place_relabel .lower hplaced',
      ht, show p'.relabel .lower = p.relabel .lower from hp]
  obtain ⟨-, hframe, -⟩ := Table.eq_of_lower hu
  have hbuilt : (Flow.ofProbe u' q').mapError (CodeError.relabel .lower) =
      (Flow.ofProbe u q).mapError (CodeError.relabel .lower) := by
    rw [← Flow.ofProbe_lower, ← Flow.ofProbe_lower, hq, hu]
  unfold codeResult
  rw [hplaced, hplaced']
  dsimp only
  rw [hframe]
  obtain ⟨built, hrun, hrun'⟩ | ⟨e, e', hrun, hrun', he⟩ := same_or_errors hbuilt
  · rw [hrun, hrun']
  · rw [hrun, hrun']
    exact congrArg Except.error he

theorem alike_codeOf (options : Options) {t t' : Table} {p p' : Probe}
    (ht : t'.relabel .lower = t.relabel .lower) (hp : p.Alike p') :
    Alike id (codeOf options t p : Compile σ Code) (codeOf options t' p') := by
  intro s s' hs
  obtain ⟨notes, hrun⟩ := codeOf_eq options t p s
  obtain ⟨notes', hrun'⟩ := codeOf_eq options t' p' s'
  rw [hrun, hrun']
  obtain ⟨code, hcode, hcode'⟩ | ⟨e, e', hcode, hcode', he⟩ :=
    same_or_errors (codeResult_lower options ht hp)
  · rw [hcode, hcode']
    exact congrArg (Prod.mk _) hs
  · rw [hcode, hcode']
    exact Prod.ext (congrArg (Except.error ∘ CompileError.code) he) hs

theorem mapsOf_relabel (t : Table) :
    mapsOf (t.relabel .lower) = (mapsOf t).map (Prod.map Name.lower id) := by
  unfold mapsOf
  rw [Table.relabel, Array.toList_map, List.filterMap_map, List.map_filterMap]
  refine congrArg (List.filterMap · t.symbols.toList) (funext fun s => ?_)
  obtain ⟨name, kind, facts, addr, map⟩ := s
  rw [Function.comp, Symbol.relabel_lower]
  cases map with
  | none => rfl
  | some slot => obtain ⟨_, _, _, _ | id, _⟩ := slot <;> rfl

theorem alike_probe (k : Kernel σ) (options : Options) {p p' : Probe} (h : p.Alike p') :
    Alike CompiledProbe.lower (probe k options p) (probe k options p') := by
  have hname : p'.name.value = p.name.value := congrArg Located.value (Probe.mk.inj h).1
  unfold probe
  rw [hname]
  refine .bindEq (.note _ _) fun _ => .bind (alike_annotate h) ?_
  rintro ⟨q, t⟩ ⟨q', t'⟩ htyped
  obtain ⟨hq, ht⟩ := Prod.mk.inj htyped
  -- From here on both have one bytecode, and the calls are made with it and the name of the probe.
  refine .bindEq (.note _ _) fun _ => .bind (alike_bindTable k options ht) fun u u' hu => ?_
  refine .bindEq (alike_codeOf options hu hq) fun code => .bindEq (.call k _) fun handle => ?_
  refine .bindEq (.call k _) fun event => ?_
  refine .bindEq (.call k (.attach handle event)) fun _ => .bindEq (.note _ _) fun _ => .pure ?_
  have hmaps : (mapsOf u').map (Prod.map Name.lower id) = (mapsOf u).map (Prod.map Name.lower id) := by
    rw [← mapsOf_relabel, ← mapsOf_relabel, hu]
  obtain ⟨-, -, hevents⟩ := Table.eq_of_lower hu
  unfold CompiledProbe.lower
  dsimp only
  rw [hmaps, hevents]

theorem alike_probes (k : Kernel σ) (options : Options) (ps : List Probe) : ∀ ps' : List Probe,
    Probe.AlikeAll ps ps' →
      Alike (List.map CompiledProbe.lower) (probes k options ps) (probes k options ps') := by
  induction ps with
  | nil =>
    intro ps' h
    rw [List.map_eq_nil_iff.1 h]
    exact .pure rfl
  | cons p ps ih =>
    intro ps' h
    obtain ⟨p', ps', rfl, hp, hps⟩ := List.map_eq_cons_iff.1 h
    exact .bind (alike_probe k options hp) fun _ _ hfirst =>
      .bind (ih ps' hps) fun _ _ hothers => .pure (congrArg₂ List.cons hfirst hothers)

theorem alike_parseScript {a b : String} (h : Text.Recased a b) (name : String) :
    Alike (List.map (Probe.relabel .lower))
      (orFail id (parseScript (.ofText name a)) : Compile σ (List Probe))
      (orFail id (parseScript (.ofText name b))) := by
  unfold parseScript
  obtain ⟨es, ha, hb⟩ | ⟨ts, ts', ha, hb, hts⟩ := Token.ofSource_recased h name
  · rw [ha, hb]
    exact .throw rfl
  · rw [ha, hb]
    have hparsed := Probe.alike_ofTokens hts
    dsimp only [Except.mapError, bind, Except.bind]
    generalize Probe.ofTokens ts = x at hparsed ⊢
    generalize Probe.ofTokens ts' = x' at hparsed ⊢
    cases hparsed with
    | ok hps => exact .pure hps
    | error he => exact .throw (congrArg (fun e => CompileError.syntactic ⟨e, _⟩) he)

/-- A script in other letters makes the same calls and leaves the kernel in the same state. It compiles
if the script does, to the same code with the same homes and output formats, probe by probe; if not, it
fails in the same place with the same error. At most the names in them differ, and those in case. -/
theorem script_recased {a b : String} (h : Text.Recased a b) (k : Kernel σ) (options : Options)
    (name : String) (s : σ) :
    seen (List.map CompiledProbe.lower)
        (script k.recorded options (.ofText name b) { kernel := (s, #[]) }) =
      seen (List.map CompiledProbe.lower)
        (script k.recorded options (.ofText name a) { kernel := (s, #[]) }) := by
  have halike : Alike (List.map CompiledProbe.lower) (script k.recorded options (.ofText name a))
      (script k.recorded options (.ofText name b)) :=
    .bind (alike_parseScript h name) fun ps ps' hps => .bindEq (.note _ _) fun _ =>
      alike_probes k.recorded options ps ps' hps
  exact halike _ _ rfl

theorem script_recased_hits :
    let a := "probe Sys_open \x7b if (pid() > 7) \x7b hits[comm()] = 1; " ++
      "out(\"Hits: %d\", Hits[Comm()]); \x7d \x7d"
    let b := "PROBE Sys_open \x7b If (pID() > 7) \x7b Hits[COMM()] = 1; " ++
      "Out(\"Hits: %d\", hITS[comm()]); \x7d \x7d"
    Text.Recased a b ∧ seen (List.map CompiledProbe.lower)
        (script DryRun.kernel.recorded {} (.ofText "hits" b) { kernel := ({}, #[]) }) =
      seen (List.map CompiledProbe.lower)
        (script DryRun.kernel.recorded {} (.ofText "hits" a) { kernel := ({}, #[]) }) := by
  intro a b
  have hrecased : Text.Recased a b := ⟨by decide +kernel, by decide +kernel⟩
  exact ⟨hrecased, script_recased hrecased DryRun.kernel {} "hits" {}⟩

end Compile

end TraceScript
