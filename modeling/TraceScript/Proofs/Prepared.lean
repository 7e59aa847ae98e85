import Mathlib.Algebra.Order.BigOperators.Group.List
import TraceScript.Proofs.Bound
import TraceScript.Proofs.Built
import TraceScript.Proofs.TypedProbes

namespace TraceScript

namespace Table

variable {t t' : Table}

theorem Places.lookup_eq (h : t.Places t') (name : Name) : t'.lookup name = t.lookup name := by
  have hnames : t'.symbols.map (·.name) = t.symbols.map (·.name) := by
    refine Array.ext_getElem? fun i => ?_
    rw [Array.getElem?_map, Array.getElem?_map]
    cases hs : t.symbols[i]? with
    | none =>
      rw [Array.getElem?_eq_none (h.size ▸ Array.getElem?_eq_none_iff.1 hs)]
    | some s =>
      obtain ⟨s', hs', hp⟩ := h.symbols i s hs
      rw [hs', Option.map_some, Option.map_some, hp.name]
  have hfind : ∀ u : Table, u.lookup name = (u.symbols.map (·.name)).findIdx? (·.same name) := by
    intro u
    rw [Array.findIdx?_map]
    rfl
  rw [hfind, hnames, hfind]

theorem Places.mapOf_eq (h : t.Places t') (name : Name) : t'.mapOf name = t.mapOf name := by
  have hfind : ∀ u : Table, u.find? name = (u.lookup name).bind (u.symbols[·]?) := fun u =>
    Array.find?_eq_bind_findIdx?_getElem?
  rw [mapOf, mapOf, hfind, hfind, h.lookup_eq]
  cases hi : t.lookup name with
  | none => rfl
  | some i =>
    obtain ⟨s', hs', hp⟩ := h.symbols i _ (names_of_lookup hi).symbol
    rw [Option.bind_some, Option.bind_some, hs', (names_of_lookup hi).symbol]
    generalize t.symbols.getD i default = s at hp
    cases hm : s.map with
    | none =>
      have hm' := hp.map_none hm
      simp [hm, hm']
    | some slot =>
      obtain ⟨slot', hm', -, hid, -⟩ := hp.map_some hm
      simp [hm, hm', hid, hp.facts]

theorem Places.scope_eq (h : t.Places t') : t'.scope = t.scope := by
  rw [scope, scope, h.events, funext h.lookup_eq, funext h.mapOf_eq]

end Table

/-- The kernel keeps the maps of a table with the sizes that the table gives them, and its
channel. -/
structure World.Keeps (w : World) (t : Table) : Prop where
  maps : ∀ s ∈ t.symbols.toList, ∀ slot ∈ s.map, ∀ id ∈ slot.id,
    (w.created id).isSome ∧ w.keySize id = slot.keySize ∧ w.valueSize id = s.facts.size
  channel : ∀ id ∈ t.events.id?, (w.created id).isSome

/-- The bytes that the symbols of a table and the nodes of a placed probe take in the frame. -/
def Probe.frameTotal (t : Table) (p : Probe) : Nat :=
  ((t.regions ++ Node.bodyRegions p.body).map Region.size).sum

/-- A probe of a script is typed on its own table, a kernel creates its maps, and it is placed. -/
def Compile.Prepares {σ : Type} (k : Kernel σ) (options : Options) (source : Source)
    (typed : Probe) (bound : Table) (placed : Probe) (table : Table) : Prop :=
  ∃ ps, parseScript source = .ok ps ∧ ∃ p ∈ ps, ∃ typing, p.annotate.run {} = .ok typed typing ∧
    (∃ s s', (Compile.bindTable k options typing.table).run s = .ok bound s') ∧
    typed.place.run bound = (placed, table)

/-- The first probe of a script is prepared by running the steps one after the other. -/
theorem Compile.exists_prepares {σ : Type} {k : Kernel σ} {options : Options} {source : Source}
    {s s' : Session σ} {p typed : Probe} {ps : List Probe} {typing : Typing} {bound : Table}
    {Q : Probe → Table → Probe → Table → Prop} (hparse : parseScript source = .ok (p :: ps))
    (htyped : p.annotate.run {} = .ok typed typing)
    (hbound : (Compile.bindTable k options typing.table).run s = .ok bound s')
    (h : Q typed bound (typed.place.run bound).1 (typed.place.run bound).2) :
    ∃ typed bound placed table, Compile.Prepares k options source typed bound placed table ∧
      Q typed bound placed table :=
  ⟨typed, bound, _, _,
    ⟨_, hparse, p, List.mem_cons_self, typing, htyped, ⟨s, s', hbound⟩, rfl⟩, h⟩

/-- What holds of a typed probe on its table and of the same probe after it has been placed. -/
structure Prepared (bound table : Table) (typed placed : Probe) (ks : List Placing) : Prop where
  ready : bound.Ready
  unplaced : bound.regions = []
  frame : bound.frame = {}
  nodes : typed.body = ks.map Placing.node
  placed : placed.body = ks.map Placing.placed
  steps : bound.Steps table (ks.flatMap Placing.regions)
  statements : ∀ k ∈ ks, PlacedStatement table k.node k.placed k.regions

/-- A typed probe becomes a prepared one when its maps exist and it is placed. -/
theorem Table.Bound.prepared {t bound table : Table} {typed placed : Probe} (hb : t.Bound bound)
    (ht : t.Sound) (hall : ∀ n ∈ typed.body, TypedStatement t n)
    (hplaced : typed.place.run bound = (placed, table)) :
    ∃ ks, Prepared bound table typed placed ks := by
  have hready := hb.ready ht
  obtain ⟨ks, hnodes, hprobe, hsteps, hks⟩ :=
    Probe.place_placed hready fun n hn => (hall n hn).mono hb.grows
  have hrun : typed.place bound = (placed, table) := hplaced
  rw [hrun] at hprobe hsteps hks
  refine ⟨ks, hready, hb.regions ht, hb.frame.trans ht.frame, hnodes, ?_, hsteps, hks⟩
  exact congrArg Probe.body hprobe

theorem Compile.Prepares.prepared {σ : Type} {k : Kernel σ} {options : Options} {source : Source}
    {typed placed : Probe} {bound table : Table}
    (h : Compile.Prepares k options source typed bound placed table) :
    ∃ ks, Prepared bound table typed placed ks := by
  obtain ⟨ps, hparse, p, hp, typing, htyped, ⟨s, s', hbound⟩, hplaced⟩ := h
  obtain ⟨hsound, -, hall⟩ := Probe.annotate_typed (parseScript_statements hparse p hp) htyped
  exact (Compile.bindTable_ok hbound).prepared hsound hall hplaced

namespace Prepared

variable {bound table : Table} {typed placed : Probe} {ks : List Placing}

theorem ready_table (h : Prepared bound table typed placed ks) : table.Ready :=
  h.ready.places h.steps.places

theorem bodyRegions_eq (h : Prepared bound table typed placed ks) :
    Node.bodyRegions placed.body = ks.flatMap Placing.regions := by
  rw [h.placed]
  exact Node.bodyRegions_map fun k hk => (h.statements k hk).regions_eq

theorem small (h : Prepared bound table typed placed ks) (htotal : placed.frameTotal table < 2 ^ 31) :
    ∀ r ∈ table.regions ++ ks.flatMap Placing.regions, r.size < 2 ^ 31 := by
  intro r hr
  rw [Probe.frameTotal, h.bodyRegions_eq] at htotal
  exact Nat.lt_of_le_of_lt (List.le_sum_of_mem (List.mem_map_of_mem hr)) htotal

theorem packed (h : Prepared bound table typed placed ks) (htotal : placed.frameTotal table < 2 ^ 31) :
    Packed table.frame.top (table.regions ++ ks.flatMap Placing.regions) ∧
      ∀ r ∈ table.regions ++ ks.flatMap Placing.regions, r.size % 8 = 0 := by
  have hpacked : Packed bound.frame.top (bound.regions ++ []) := by
    rw [h.unplaced, h.frame]
    exact .nil
  have hextend := h.steps.extend [] hpacked (by rw [h.unplaced]; exact nofun) (h.small htotal)
  rw [List.append_nil] at hextend
  exact hextend

/-- The frame has handed out exactly the regions of the symbols and of the nodes. -/
theorem reserved (h : Prepared bound table typed placed ks) :
    ∃ sizes, (({} : Frame).reserveAll sizes).2 = table.frame ∧
      (table.regions ++ Node.bodyRegions placed.body).Perm (({} : Frame).reserveAll sizes).1 := by
  obtain ⟨sizes, hframe, hperm⟩ := h.steps.takes
  rw [h.frame] at hframe hperm
  rw [h.unplaced, List.append_nil] at hperm
  exact ⟨sizes, hframe, h.bodyRegions_eq ▸ hperm⟩

theorem usage_eq (h : Prepared bound table typed placed ks) (htotal : placed.frameTotal table < 2 ^ 31) :
    table.frame.top = -(table.frame.usage : Int) := by
  have htop := (h.packed htotal).1.total
  rw [Frame.usage]
  omega

theorem keeps (h : Prepared bound table typed placed ks) {w : World} (hw : w.Keeps bound)
    {name : Name} {s : Symbol} {m : Flow.MapRef} (hm : table.MapAt name s m) :
    (w.created m.id).isSome ∧ w.keySize m.id = m.keySize ∧ w.valueSize m.id = m.valueSize := by
  obtain ⟨slot, hs, hid, -, -, hk⟩ := hm.slot
  obtain ⟨i, hn⟩ := hm.names
  have hplaces := h.steps.places
  have hi : i < bound.symbols.size :=
    hplaces.size ▸ (Array.getElem?_eq_some_iff.1 hn.symbol).1
  obtain ⟨s', hs', hp⟩ := hplaces.symbols i _ (Array.getElem?_eq_getElem hi)
  obtain rfl := Option.some.inj (hn.symbol.symm.trans hs')
  have hsome : (bound.symbols[i]).map.isSome := by
    rw [← hp.isMap, hs]
    rfl
  obtain ⟨slot₀, hs₀⟩ := Option.isSome_iff_exists.1 hsome
  obtain ⟨hk₀, hid₀, -⟩ := hp.slot slot₀ hs₀ slot hs
  have hmem : bound.symbols[i] ∈ bound.symbols.toList :=
    Array.mem_toList_iff.2 (Array.getElem_mem hi)
  obtain ⟨hknown, hkey, hvalue⟩ := hw.maps _ hmem slot₀ hs₀ m.id (hid₀ ▸ hid)
  exact ⟨hknown, by rw [hkey, ← hk₀, hk], by rw [hvalue, ← hm.valueSize, hp.facts]⟩

theorem framed (h : Prepared bound table typed placed ks)
    (htotal : placed.frameTotal table < 2 ^ 31) {w : World} (hw : w.Keeps bound) :
    Framed w table (ks.flatMap Placing.regions) where
  disjoint := (h.packed htotal).1.disjoint
  small := h.small htotal
  created _ _ _ hm := (h.keeps hw hm).2
  known _ _ _ hm := (h.keeps hw hm).1
  channel id hid := hw.channel id (h.steps.places.events ▸ hid)

end Prepared

end TraceScript
