import Mathlib
import TraceScript.Kernel.DryRun
import TraceScript.Proofs.Numbered
import TraceScript.Proofs.Pieces
import TraceScript.Proofs.Prepared

namespace TraceScript

open Run

/-- A map or a channel that was created, and what was asked for. -/
structure Grant where
  id : MapId
  request : MapRequest
deriving DecidableEq, Inhabited

namespace Call

/-- What a call has created. -/
def grants : (c : Call) → Except KernelError c.Reply → List Grant
  | .createMap r, .ok id => [⟨id, r⟩]
  | _, _ => []

end Call

/-- The same kernel with a record of all that it has created. -/
def Kernel.granting {σ : Type} (k : Kernel σ) : Kernel (σ × List Grant) where
  answer c s :=
    let a := k.answer c s.1
    { a with state := (a.state, s.2 ++ c.grants a.result) }

/-- The kernel keeps what it has created as it was asked for. -/
def World.Holds (w : World) (gs : List Grant) : Prop := ∀ g ∈ gs, w.created g.id = some g.request

namespace Compile

variable {σ : Type} {k : Kernel σ} {options : Options}

/-- A probe is prepared, and some maps are created for it on the way. -/
def Creates (k : Kernel σ) (options : Options) (source : Source) (typed : Probe) (bound : Table)
    (placed : Probe) (table : Table) (gs : List Grant) : Prop :=
  ∃ ps, parseScript source = .ok ps ∧ ∃ p ∈ ps, ∃ typing, p.annotate.run {} = .ok typed typing ∧
    (∃ s s', (bindTable k.granting options typing.table).run s = .ok bound s' ∧
      s'.kernel.2 = s.kernel.2 ++ gs) ∧
    typed.place.run bound = (placed, table)

theorem Creates.prepares {source : Source} {typed placed : Probe} {bound table : Table}
    {gs : List Grant} (h : Creates k options source typed bound placed table gs) :
    Prepares k.granting options source typed bound placed table := by
  obtain ⟨ps, hparse, p, hp, typing, htyped, ⟨s, s', hbound, -⟩, hplaced⟩ := h
  exact ⟨ps, hparse, p, hp, typing, htyped, ⟨s, s', hbound⟩, hplaced⟩

theorem call_createMap_ok {r : MapRequest} {s s' : Session (σ × List Grant)} {id : MapId}
    (h : call k.granting (.createMap r) s = .ok id s') :
    s'.kernel.2 = s.kernel.2 ++ [⟨id, r⟩] := by
  obtain ⟨s₁, s₂, hget, h⟩ := estate_bind_ok.1 h
  obtain ⟨rfl, rfl⟩ : s = s₁ ∧ s = s₂ := by
    cases hget
    exact ⟨rfl, rfl⟩
  obtain ⟨⟨⟩, s₃, hset, h⟩ := estate_bind_ok.1 h
  cases hset
  obtain ⟨hresult, rfl⟩ := orFail_ok h
  have hanswer : (k.answer (.createMap r) s.kernel.1).result = .ok id := hresult
  change s.kernel.2 ++ Call.grants _ (k.answer (.createMap r) s.kernel.1).result = _
  rw [hanswer]
  rfl

theorem createMaps_grants {ss ss' : List Symbol} {s s' : Session (σ × List Grant)}
    (h : createMaps k.granting options ss s = .ok ss' s') :
    ∃ gs, s'.kernel.2 = s.kernel.2 ++ gs ∧ ∀ x ∈ ss', ∀ slot ∈ x.map, ∀ id ∈ slot.id,
      ⟨id, ⟨.hash, slot.keySize, x.facts.size, options.mapEntries⟩⟩ ∈ gs := by
  induction ss generalizing ss' s with
  | nil =>
    rw [createMaps] at h
    obtain ⟨rfl, rfl⟩ := estate_pure_ok.1 h
    exact ⟨[], (List.append_nil _).symm, fun _ hx => (List.not_mem_nil hx).elim⟩
  | cons x ss ih =>
    rw [createMaps] at h
    cases hm : x.map with
    | none =>
      rw [hm] at h
      obtain ⟨x', s₁, hx, h₁⟩ := estate_bind_ok.1 h
      obtain ⟨rfl, rfl⟩ := estate_pure_ok.1 hx
      obtain ⟨rest, s₂, hrest, h₂⟩ := estate_bind_ok.1 h₁
      obtain ⟨rfl, rfl⟩ := estate_pure_ok.1 h₂
      obtain ⟨gs, hgs, hall⟩ := ih hrest
      refine ⟨gs, hgs, fun y hy slot hslot => ?_⟩
      rcases List.mem_cons.1 hy with rfl | hy
      · rw [hm] at hslot
        cases hslot
      · exact hall y hy slot hslot
    | some slot₀ =>
      rw [hm] at h
      obtain ⟨id₀, s₁, hcall, h₁⟩ := estate_bind_ok.1 h
      obtain ⟨x', s₂, hx, h₂⟩ := estate_bind_ok.1 h₁
      obtain ⟨rfl, rfl⟩ := estate_pure_ok.1 hx
      obtain ⟨rest, s₃, hrest, h₃⟩ := estate_bind_ok.1 h₂
      obtain ⟨rfl, rfl⟩ := estate_pure_ok.1 h₃
      obtain ⟨gs, hgs, hall⟩ := ih hrest
      rw [call_createMap_ok hcall, List.append_assoc] at hgs
      refine ⟨_, hgs, fun y hy slot hslot id hid => ?_⟩
      rcases List.mem_cons.1 hy with rfl | hy
      · cases hslot
        cases hid
        exact List.mem_cons_self
      · exact List.mem_cons_of_mem _ (hall y hy slot hslot id hid)

theorem bindTable_keeps {t bound : Table} {s s' : Session (σ × List Grant)} {gs : List Grant}
    (h : bindTable k.granting options t s = .ok bound s') (hgs : s'.kernel.2 = s.kernel.2 ++ gs)
    {w : World} (hw : w.Holds gs) : w.Keeps bound := by
  unfold bindTable at h
  obtain ⟨symbols, s₁, hmaps, h₁⟩ := estate_bind_ok.1 h
  obtain ⟨ms, hms, hall⟩ := createMaps_grants hmaps
  have hmap : ms ⊆ gs → ∀ x ∈ symbols, ∀ slot ∈ x.map, ∀ id ∈ slot.id,
      (w.created id).isSome ∧ w.keySize id = slot.keySize ∧ w.valueSize id = x.facts.size := by
    intro hsub x hx slot hslot id hid
    rw [World.keySize, World.valueSize, hw _ (hsub (hall x hx slot hslot id hid))]
    exact ⟨rfl, rfl, rfl⟩
  by_cases he : t.needsEvents
  · have he' : ({ t with symbols := symbols.toArray } : Table).needsEvents = true := he
    rw [if_pos he'] at h₁
    obtain ⟨id, s₂, hcall, h₂⟩ := estate_bind_ok.1 h₁
    obtain ⟨rfl, rfl⟩ := estate_pure_ok.1 h₂
    rw [call_createMap_ok hcall, hms, List.append_assoc, List.append_cancel_left_eq] at hgs
    subst hgs
    refine ⟨fun x hx => hmap (List.subset_append_left ..) x (by simpa [Table.bindEvents] using hx), ?_⟩
    rintro _ ⟨⟩
    rw [hw _ (List.mem_append_right _ List.mem_cons_self)]
    rfl
  · have he' : ¬({ t with symbols := symbols.toArray } : Table).needsEvents = true := he
    rw [if_neg he'] at h₁
    obtain ⟨rfl, rfl⟩ := estate_pure_ok.1 h₁
    rw [hms, List.append_cancel_left_eq] at hgs
    subst hgs
    refine ⟨fun x hx => hmap (fun _ h => h) x (by simpa using hx), fun id hid => ?_⟩
    have hnone : t.events = .unused := by simpa [Table.needsEvents] using he
    have hid' : id ∈ t.events.id? := hid
    rw [hnone] at hid'
    cases hid'

theorem Creates.keeps {source : Source} {typed placed : Probe} {bound table : Table}
    {gs : List Grant} (h : Creates k options source typed bound placed table gs) {w : World}
    (hw : w.Holds gs) : w.Keeps bound := by
  obtain ⟨_, -, _, -, _, -, ⟨s, s', hbound, hgs⟩, -⟩ := h
  exact bindTable_keeps hbound hgs hw

end Compile

namespace Flow

theorem Instruction.Fits.known {w : World} {i : Instruction} (h : i.Fits w) :
    ∀ m ∈ i.maps, (w.created m).isSome := by
  intro m hm
  cases i with
  | update map key value =>
    obtain rfl := List.mem_singleton.1 hm
    exact h
  | lookup map key value size =>
    obtain rfl := List.mem_singleton.1 hm
    exact h.1
  | call helper dst =>
    cases helper with
    | out addr size channel =>
      obtain rfl := List.mem_singleton.1 hm
      exact h.1
    | _ => cases hm
  | _ => cases hm

end Flow

/-- The same world, in which exactly some maps exist. -/
def World.only (w : World) (gs : List Grant) : World :=
  { w with created := fun id => (gs.find? (·.id = id)).map (·.request) }

namespace World

variable {w : World} {gs : List Grant}

theorem granted_of_only {id : MapId} {r : MapRequest} (h : (w.only gs).created id = some r) :
    ⟨id, r⟩ ∈ gs := by
  obtain ⟨g, hg, rfl⟩ := Option.map_eq_some_iff.1 h
  obtain rfl : g.id = id := by simpa using List.find?_some hg
  exact List.mem_of_find?_eq_some hg

theorem Holds.only (h : w.Holds gs) : (w.only gs).Holds gs := by
  intro g hg
  have hsome : (gs.find? (·.id = g.id)).isSome := List.find?_isSome.2 ⟨g, hg, by simp⟩
  obtain ⟨g', hg'⟩ := Option.isSome_iff_exists.1 hsome
  have hid : g'.id = g.id := by simpa using List.find?_some hg'
  -- What is kept under one name was asked for once.
  have hrequest : g'.request = g.request := by
    have hkept := h g' (List.mem_of_find?_eq_some hg')
    rw [hid, h g hg] at hkept
    exact (Option.some.inj hkept).symm
  change (gs.find? (·.id = g.id)).map (·.request) = _
  rw [hg', Option.map_some, hrequest]

theorem valueSize_of_created {id : MapId} {r : MapRequest} (h : w.created id = some r) :
    w.valueSize id = r.valueSize := by
  rw [valueSize, h]
  rfl

end World

namespace Flow

/-- Every access of a program stays inside one region that the frame handed out for a symbol or a
node, and every map is used with the sizes that it was created with. -/
theorem ofProbe_accesses_reserved {σ : Type} {k : Kernel σ} {options : Options} {source : Source}
    {typed placed : Probe} {bound table : Table} {gs : List Grant} {built : Built}
    (h : Compile.Creates k options source typed bound placed table gs)
    (htotal : placed.frameTotal table < 2 ^ 31) (hbuilt : ofProbe table placed = .ok built)
    {w : World} (hw : w.Holds gs) :
    (∃ sizes, (({} : Frame).reserveAll sizes).2 = table.frame ∧
      (table.regions ++ Node.bodyRegions placed.body).Perm (({} : Frame).reserveAll sizes).1) ∧
    ∀ i ∈ built.program.instructions,
      (∀ r ∈ i.ranges w, r.addr % 8 = 0 ∧ -(table.frame.usage : Int) ≤ r.addr ∧ r.addr + r.size ≤ 0 ∧
        ∃ q ∈ table.regions ++ Node.bodyRegions placed.body, q.addr ≤ r.addr ∧
          r.addr + r.size ≤ q.addr + q.size) ∧
      (∀ m ∈ i.maps, ∃ g ∈ gs, g.id = m) ∧
      ∀ map key value size, i = .lookup map key value size →
        ∃ g ∈ gs, g.id = map ∧ size = g.request.valueSize := by
  obtain ⟨ks, hprep⟩ := h.prepares.prepared
  refine ⟨hprep.reserved, fun i hi => ?_⟩
  obtain ⟨n, hn⟩ := List.mem_iff_getElem?.1 hi
  obtain ⟨b, c, d, hcode, -⟩ := Program.code_of_instruction hn
  have hi : i ∈ built.program.codeAt b := by rw [hcode]; exact List.mem_append_right _ List.mem_cons_self
  have hwhole := fun w => ofProbe_whole (w := w) hprep.ready_table hprep.placed hprep.statements
  have hsafe : ∀ w : World, w.Holds gs →
      i.Safe w (table.regions ++ Node.bodyRegions placed.body) := by
    intro w hw
    obtain ⟨built', hbuilt', hprogram⟩ := hwhole w
    obtain rfl : built = built' := Except.ok.inj (hbuilt.symm.trans hbuilt')
    rw [hprep.bodyRegions_eq]
    exact hprogram.safe (hprep.framed htotal (h.keeps hw)) b i hi
  have hpacked := (hprep.packed htotal).1
  rw [← hprep.bodyRegions_eq] at hpacked
  have hfits := (hsafe _ hw.only).fits
  refine ⟨fun r hr => ?_, fun m hm => ?_, ?_⟩
  · obtain ⟨q, hq, j, haddr, hsize⟩ := (hsafe w hw).inside r hr
    have hbounds := hpacked.bounds q hq
    have haligned := hpacked.aligned q hq
    have husage := hprep.usage_eq htotal
    exact ⟨by omega, by omega, by omega, q, hq, by omega, by omega⟩
  · obtain ⟨request, hrequest⟩ := Option.isSome_iff_exists.1 (hfits.known m hm)
    exact ⟨_, World.granted_of_only hrequest, rfl⟩
  · rintro map key value size rfl
    obtain ⟨request, hrequest⟩ := Option.isSome_iff_exists.1 hfits.1
    refine ⟨_, World.granted_of_only hrequest, rfl, ?_⟩
    rw [← World.valueSize_of_created hrequest]
    exact hfits.2

/-- Names as keys and as values. -/
def namedEntries : Source where
  name := "named"
  lines :=
    ["probe p \x7b m[\"ab\", pid()] = comm(); s = m[\"ab\", 1]; " ++
      "if (strcmp(s, \"x\")) \x7b out(\"%s %d\", m[\"cd\", 2], cpu()); \x7d \x7d"]

/-- The map of names and the channel, as they are created. -/
def namedWorld : World where
  pid := 7
  tid := 8
  cpu := 0
  args _ := 0
  comm := []
  clock _ := 0
  created
    | ⟨3⟩ => some ⟨.hash, 16, 16, 1024⟩
    | ⟨4⟩ => some ⟨.perfEventArray, 4, 4, 1⟩
    | _ => none

theorem namedEntries_accesses_reserved :
    ∃ typed bound placed table gs built,
      Compile.Creates DryRun.kernel {} namedEntries typed bound placed table gs ∧
      placed.frameTotal table < 2 ^ 31 ∧ ofProbe table placed = .ok built ∧ namedWorld.Holds gs ∧
      ∀ i ∈ built.program.instructions, ∀ r ∈ i.ranges namedWorld,
        r.addr % 8 = 0 ∧ -(table.frame.usage : Int) ≤ r.addr ∧ r.addr + r.size ≤ 0 := by
  have hcreates : ∃ typed bound placed table gs,
      Compile.Creates DryRun.kernel {} namedEntries typed bound placed table gs ∧
      placed.frameTotal table < 2 ^ 31 ∧ namedWorld.Holds gs := by
    refine ⟨?_, ?_, ?_, ?_, ?_, ⟨?_, ?_, ?_⟩, ?_⟩
    rotate_left 6
    · conv => lhs; cbv
    · refine ⟨_, List.mem_cons_self, ?_, ?_, ⟨{ kernel := ({}, []) }, ?_, ?_, ?_⟩, ?_⟩
      rotate_left 1
      · conv => lhs; cbv
      rotate_left 1
      · exact rfl
      · exact rfl
      · exact rfl
    · exact ⟨by decide +kernel, by unfold World.Holds; decide +kernel⟩
  obtain ⟨typed, bound, placed, table, gs, hcreates, htotal, hholds⟩ := hcreates
  obtain ⟨ks, hprep⟩ := hcreates.prepares.prepared
  obtain ⟨built, hbuilt, -⟩ :=
    ofProbe_whole (w := default) hprep.ready_table hprep.placed hprep.statements
  obtain ⟨-, hall⟩ := ofProbe_accesses_reserved hcreates htotal hbuilt hholds
  refine ⟨typed, bound, placed, table, gs, built, hcreates, htotal, hbuilt, hholds, ?_⟩
  intro i hi r hr
  obtain ⟨haligned, hlow, hhigh, -⟩ := (hall i hi).1 r hr
  exact ⟨haligned, hlow, hhigh⟩

end Flow

end TraceScript
