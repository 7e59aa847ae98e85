import TraceScript.Flow.Build
import TraceScript.Proofs.Regions
import TraceScript.Proofs.Run
import TraceScript.Script.Layout

/-!
What placing establishes. Every node of a typed tree is related to the node that it becomes and to
the regions that it takes for itself, as opposed to those of the symbols, which all nodes share.
-/
namespace TraceScript

open TraceScript.Flow (MapRef)

/-- A symbol that can be placed: its shape is known, and its map exists. -/
structure Symbol.Ready (s : Symbol) : Prop where
  shape : ∃ sh, s.facts.shape = some sh ∧ sh.IsValue
  keySize : ∀ slot ∈ s.map, 0 < slot.keySize ∧ slot.keySize % 8 = 0
  bound : ∀ slot ∈ s.map, slot.id.isSome

structure Table.Ready (t : Table) : Prop where
  symbols : ∀ (i : Nat) (s : Symbol), t.symbols[i]? = some s → s.Ready
  channel : t.needsEvents = true → t.events.id?.isSome

theorem Table.Ready.shaped {t : Table} (h : t.Ready) : t.Shaped :=
  fun i s hs => (h.symbols i s hs).shape

theorem Symbol.Ready.size {s : Symbol} (h : s.Ready) : 0 < s.facts.size ∧ s.facts.size % 8 = 0 := by
  obtain ⟨sh, hsh, hv⟩ := h.shape
  rw [Facts.size_of_shape hsh]
  exact ⟨hv.size_pos, hv.size_mod⟩

theorem Symbol.Ready.places {s s' : Symbol} (h : s.Ready) (hp : s.Places s') : s'.Ready := by
  refine ⟨by rw [hp.facts]; exact h.shape, fun slot' hs' => ?_, fun slot' hs' => ?_⟩
  all_goals
    have hm : s.map.isSome := by rw [← hp.isMap, hs']; rfl
    obtain ⟨slot, hs⟩ := Option.isSome_iff_exists.1 hm
    obtain ⟨hk, hid, -⟩ := hp.slot slot hs slot' hs'
  · rw [hk]
    exact h.keySize slot hs
  · rw [hid]
    exact h.bound slot hs

theorem Table.Ready.places {t t' : Table} (h : t.Ready) (hp : t.Places t') : t'.Ready where
  symbols i s' hs' := by
    have hi : i < t.symbols.size := hp.size ▸ (Array.getElem?_eq_some_iff.1 hs').1
    obtain ⟨s'', hs'', hps⟩ := hp.symbols i _ (Array.getElem?_eq_getElem hi)
    obtain rfl := Option.some.inj (hs'.symm.trans hs'')
    exact (h.symbols i _ (Array.getElem?_eq_getElem hi)).places hps
  channel hn := by
    rw [hp.events]
    exact h.channel (by rw [needsEvents, ← hp.events]; exact hn)

theorem Table.Ready.names {t : Table} (h : t.Ready) {name : Name} {i : Nat} {s : Symbol}
    (hn : t.Names name i s) : s.Ready :=
  h.symbols i s hn.symbol

namespace Table

/-- A variable that has its place. -/
def VariableAt (t : Table) (name : Name) (i : Nat) (sh : Shape) (addr : Int) : Prop :=
  ∃ s, t.Names name i s ∧ s.map = none ∧ s.facts.shape = some sh ∧ s.addr = some addr

/-- A map that has its regions and its descriptor. -/
structure MapAt (t : Table) (name : Name) (s : Symbol) (m : MapRef) : Prop where
  names : ∃ i, t.Names name i s
  slot : ∃ slot, s.map = some slot ∧ slot.id = some m.id ∧ slot.keyAddr = some m.key ∧
    slot.valueAddr = some m.value ∧ slot.keySize = m.keySize
  valueSize : s.facts.size = m.valueSize

theorem VariableAt.places {t t' : Table} {name : Name} {i : Nat} {sh : Shape} {addr : Int}
    (h : t.VariableAt name i sh addr) (hp : t.Places t') : t'.VariableAt name i sh addr := by
  obtain ⟨s, hn, hm, hsh, ha⟩ := h
  obtain ⟨s', hn', hps⟩ := hp.names hn
  exact ⟨s', hn', hps.map_none hm, by rw [hps.facts]; exact hsh, hps.addr addr ha⟩

theorem MapAt.places {t t' : Table} {name : Name} {s : Symbol} {m : MapRef}
    (h : t.MapAt name s m) (hp : t.Places t') :
    ∃ s', t'.MapAt name s' m ∧ s'.facts = s.facts := by
  obtain ⟨i, hn⟩ := h.names
  obtain ⟨slot, hs, hid, hk, hv, hsize⟩ := h.slot
  obtain ⟨s', hn', hps⟩ := hp.names hn
  obtain ⟨slot', hs', hsize', hid', -, hk', hv'⟩ := hps.map_some hs
  exact ⟨s', ⟨⟨i, hn'⟩, ⟨slot', hs', hid'.trans hid, hk' _ hk, hv' _ hv, hsize'.trans hsize⟩,
    by rw [hps.facts]; exact h.valueSize⟩, hps.facts⟩

end Table

/-- A node, what it becomes and the regions that it takes. -/
structure Placing where
  node : Node
  placed : Node
  regions : List Region

/-- The region of a value that stands alone; a value that is built elsewhere needs none. -/
def ownRegion (alone : Bool) (addr : Int) (size : Nat) : List Region :=
  if alone then [⟨addr, size⟩] else []

/-- An expression, what it becomes when it is placed, alone or where its value is wanted, and the
regions that it takes. -/
inductive Placed (t : Table) : Bool → Node → Node → List Region → Prop
  | int {alone : Bool} {tag tag' : Tag} {n : Int64} : tag.facts.shape = some .int →
      tag'.facts.shape = some .int → Placed t alone (.int tag n) (.int tag' n) []
  | text {alone : Bool} {tag tag' : Tag} {s : String} {addr : Int} {sh : Shape} :
      sh = ⟨.str, align8 ((Text.utf8 s).length + 1)⟩ → tag.facts.shape = some sh →
      tag'.facts.shape = some sh → tag'.facts.addr = some addr →
      Placed t alone (.text tag s) (.text tag' s) (ownRegion alone addr sh.size)
  | var {alone : Bool} {tag tag' : Tag} {name : Name} {i : Nat} {sh : Shape} {addr : Int} :
      t.VariableAt name i sh addr → tag.facts.shape = some sh → tag'.facts.shape = some sh →
      tag'.facts.addr = some addr → Placed t alone (.var tag name) (.var tag' name) []
  /-- An entry that is read as an integer goes through the region of the map's values. -/
  | entry {alone : Bool} {tag tag' : Tag} {map : Name} {keys : List Placing} {s : Symbol}
      {m : MapRef} : t.MapAt map s m → m.keySize = Annotate.packedSize (keys.map Placing.node) →
      (∀ k ∈ keys, Placed t false k.node k.placed k.regions) → tag.facts.shape = some .int →
      tag'.facts.shape = some .int → tag'.facts.map = some m.id →
      Placed t alone (.mapAccess tag map (keys.map Placing.node))
        (.mapAccess tag' map (keys.map Placing.placed)) (keys.flatMap Placing.regions)
  | stringEntry {alone : Bool} {tag tag' : Tag} {map : Name} {keys : List Placing} {s : Symbol}
      {m : MapRef} {sh : Shape} {addr : Int} : t.MapAt map s m →
      m.keySize = Annotate.packedSize (keys.map Placing.node) →
      (∀ k ∈ keys, Placed t false k.node k.placed k.regions) → s.facts.shape = some sh →
      sh.type = .str → tag.facts.shape = some sh → tag'.facts.shape = some sh →
      tag'.facts.map = some m.id → tag'.facts.addr = some addr →
      Placed t alone (.mapAccess tag map (keys.map Placing.node))
        (.mapAccess tag' map (keys.map Placing.placed))
        (keys.flatMap Placing.regions ++ [⟨addr, sh.size⟩])
  | binary {alone : Bool} {tag tag' : Tag} {op : BinaryOp} {lhs lhs' rhs rhs' : Node}
      {rs qs : List Region} : Placed t true lhs lhs' rs → Placed t true rhs rhs' qs →
      lhs.facts.shape = some .int → rhs.facts.shape = some .int → tag.facts.shape = some .int →
      tag'.facts.shape = some .int →
      Placed t alone (.binary tag op lhs rhs) (.binary tag' op lhs' rhs') (rs ++ qs)
  | query {alone : Bool} {tag tag' : Tag} {function : Name} {b : Builtin} :
      Builtin.ofName? function = some b → b ∈ [Builtin.pid, .tid, .cpu, .ns] →
      tag.facts.shape = some .int → tag'.facts.shape = some .int →
      Placed t alone (.call tag function []) (.call tag' function []) []
  | arg {alone : Bool} {tag tag' index index' : Tag} {function : Name} {n : Int64} :
      Builtin.ofName? function = some .arg → 0 ≤ n.toInt → n.toInt < Builtin.maxArgs →
      tag.facts.shape = some .int → tag'.facts.shape = some .int →
      Placed t alone (.call tag function [.int index n]) (.call tag' function [.int index' n]) []
  | comm {alone : Bool} {tag tag' : Tag} {function : Name} {addr : Int} {sh : Shape} :
      Builtin.ofName? function = some .comm → sh = ⟨.str, Builtin.commSize⟩ →
      tag.facts.shape = some sh → tag'.facts.shape = some sh → tag'.facts.addr = some addr →
      Placed t alone (.call tag function []) (.call tag' function [])
        (ownRegion alone addr sh.size)
  | strcmp {alone : Bool} {tag tag' : Tag} {function : Name} {lhs lhs' rhs rhs' : Node}
      {rs qs : List Region} : Builtin.ofName? function = some .strcmp →
      Placed t true lhs lhs' rs → Placed t true rhs rhs' qs → lhs.facts.type = some .str →
      rhs.facts.type = some .str → tag.facts.shape = some .int → tag'.facts.shape = some .int →
      Placed t alone (.call tag function [lhs, rhs]) (.call tag' function [lhs', rhs']) (rs ++ qs)

/-- What a statement writes to, with its symbol. -/
inductive PlacedTarget (t : Table) (s : Symbol) : Node → Node → List Region → Prop
  | var {tag tag' : Tag} {name : Name} {i : Nat} {addr : Int} : t.Names name i s →
      s.map = none → s.addr = some addr → tag'.facts.addr = some addr →
      PlacedTarget t s (.var tag name) (.var tag' name) []
  | entry {tag tag' : Tag} {map : Name} {keys : List Placing} {m : MapRef} : t.MapAt map s m →
      m.keySize = Annotate.packedSize (keys.map Placing.node) →
      (∀ k ∈ keys, Placed t false k.node k.placed k.regions) → tag'.facts.map = some m.id →
      PlacedTarget t s (.mapAccess tag map (keys.map Placing.node))
        (.mapAccess tag' map (keys.map Placing.placed)) (keys.flatMap Placing.regions)

inductive PlacedStatement (t : Table) : Node → Node → List Region → Prop
  | declaration {tag : Tag} {target target' rhs rhs' : Node} {rs qs : List Region} {s : Symbol}
      {sh : Shape} : PlacedTarget t s target target' rs → s.facts.shape = some sh →
      Placed t false rhs rhs' qs → rhs.facts.shape = some sh →
      PlacedStatement t (.declaration tag target rhs) (.declaration tag target' rhs') (rs ++ qs)
  | assignment {tag : Tag} {op : ArithOp} {target target' rhs rhs' : Node} {rs qs : List Region}
      {s : Symbol} : PlacedTarget t s target target' rs →
      (s.map = none → s.facts.shape = some .int) → Placed t false rhs rhs' qs →
      rhs.facts.shape = some .int →
      PlacedStatement t (.assignment tag op target rhs) (.assignment tag op target' rhs') (rs ++ qs)
  | cond {tag : Tag} {condition condition' : Node} {rs : List Region} {yes no : List Placing} :
      Placed t true condition condition' rs → condition.facts.shape = some .int →
      (∀ k ∈ yes, PlacedStatement t k.node k.placed k.regions) →
      (∀ k ∈ no, PlacedStatement t k.node k.placed k.regions) →
      PlacedStatement t (.cond tag condition (yes.map Placing.node) (no.map Placing.node))
        (.cond tag condition' (yes.map Placing.placed) (no.map Placing.placed))
        (rs ++ (yes.flatMap Placing.regions ++ no.flatMap Placing.regions))
  | unroll {tag : Tag} {count : Nat} {body : List Placing} :
      (∀ k ∈ body, PlacedStatement t k.node k.placed k.regions) →
      PlacedStatement t (.unroll tag count (body.map Placing.node))
        (.unroll tag count (body.map Placing.placed)) (body.flatMap Placing.regions)
  | call {tag tag' : Tag} {function : Name} {args args' : List Node} {rs : List Region} :
      Placed t true (.call tag function args) (.call tag' function args') rs →
      PlacedStatement t (.call tag function args) (.call tag' function args') rs
  | out {tag formatTag recordTag recordTag' : Tag} {function : Name} {format : String}
      {members : List Placing} {cs : List Conversion} {channel : MapId} {addr : Int} {sh : Shape} :
      Builtin.ofName? function = some .out → formatTag.facts = {} → conversions format = .ok cs →
      cs.length = members.length → t.events.id? = some channel →
      sh = ⟨.record, max (Annotate.packedSize (members.map Placing.node)) 8⟩ →
      recordTag.facts.shape = some sh → recordTag'.facts.shape = some sh →
      recordTag'.facts.addr = some addr →
      (∀ k ∈ members, Placed t false k.node k.placed k.regions) →
      PlacedStatement t
        (.call tag function [.text formatTag format, .record recordTag (members.map Placing.node)])
        (.call tag function
          [.text formatTag format, .record recordTag' (members.map Placing.placed)])
        (⟨addr, sh.size⟩ :: members.flatMap Placing.regions)

namespace Placed

variable {t : Table} {alone : Bool} {n n' : Node} {rs : List Region}

theorem shapes (h : Placed t alone n n' rs) :
    ∃ sh, n.facts.shape = some sh ∧ n'.facts.shape = some sh := by
  cases h with
  | int hf hf' => exact ⟨_, hf, hf'⟩
  | text _ hf hf' _ => exact ⟨_, hf, hf'⟩
  | var _ hf hf' _ => exact ⟨_, hf, hf'⟩
  | entry _ _ _ hf hf' _ => exact ⟨_, hf, hf'⟩
  | stringEntry _ _ _ _ _ hf hf' _ _ => exact ⟨_, hf, hf'⟩
  | binary _ _ _ _ hf hf' => exact ⟨_, hf, hf'⟩
  | query _ _ hf hf' => exact ⟨_, hf, hf'⟩
  | arg _ _ _ hf hf' => exact ⟨_, hf, hf'⟩
  | comm _ _ hf hf' _ => exact ⟨_, hf, hf'⟩
  | strcmp _ _ _ _ _ hf hf' => exact ⟨_, hf, hf'⟩

theorem shape_eq (h : Placed t alone n n' rs) : n'.facts.shape = n.facts.shape := by
  obtain ⟨sh, hs, hs'⟩ := h.shapes
  rw [hs, hs']

theorem size_eq (h : Placed t alone n n' rs) : n'.facts.size = n.facts.size := by
  obtain ⟨sh, hs, hs'⟩ := h.shapes
  rw [Facts.size_of_shape hs, Facts.size_of_shape hs']

theorem isInt_of_str (h : Placed t alone n n' rs) (hstr : n.facts.type = some .str) :
    n'.facts.isInt = false := by
  obtain ⟨sh, hs, hs'⟩ := h.shapes
  rw [Facts.isInt_of_shape hs', Option.some.inj ((Facts.shape_eq_some.1 hs).1.symm.trans hstr)]
  rfl

end Placed

theorem packedSize_placed {t : Table} {ks : List Placing}
    (hks : ∀ k ∈ ks, Placed t false k.node k.placed k.regions) :
    Annotate.packedSize (ks.map Placing.placed) = Annotate.packedSize (ks.map Placing.node) := by
  rw [Annotate.packedSize, Annotate.packedSize, List.map_map, List.map_map]
  exact congrArg (List.foldr (· + ·) 0)
    (List.map_congr_left fun k hk => congrArg align8 (hks k hk).size_eq)

namespace Table

theorem places_reserve (t : Table) (size : Nat) : t.Places (t.reserve size).2 :=
  { Places.refl t with }

theorem Places.modify {t : Table} {i : Nat} {s : Symbol} {f : Symbol → Symbol}
    (hs : t.symbols[i]? = some s) (hp : s.Places (f s)) : t.Places (t.modify i f) := by
  refine ⟨by simp [Table.modify], fun j x hx => ?_, rfl⟩
  simp only [Table.modify, Array.getElem?_modify]
  by_cases hij : i = j
  · subst hij
    obtain rfl := Option.some.inj (hs.symm.trans hx)
    exact ⟨f s, by simp [hx], hp⟩
  · exact ⟨x, by simp [hij, hx], .refl x⟩

theorem symbol_modify {t : Table} {i : Nat} {s : Symbol} {f : Symbol → Symbol}
    (hs : t.symbols[i]? = some s) : (t.modify i f).symbols[i]? = some (f s) := by
  rw [Table.modify, Array.getElem?_modify, if_pos rfl, hs, Option.map_some]

theorem Names.modify {t : Table} {name : Name} {i : Nat} {s : Symbol} {f : Symbol → Symbol}
    (hn : t.Names name i s) (hp : s.Places (f s)) : (t.modify i f).Names name i (f s) := by
  obtain ⟨s', hn', -⟩ := (Places.modify hn.symbol hp).names hn
  exact ⟨hn'.lookup, symbol_modify hn.symbol⟩

theorem Names.reserve {t : Table} {name : Name} {i : Nat} {s : Symbol} (hn : t.Names name i s)
    (size : Nat) : (t.reserve size).2.Names name i s :=
  ⟨hn.lookup, hn.symbol⟩

theorem steps_reserve (t : Table) (size : Nat) (hpos : 0 < size) (hmod : size % 8 = 0) :
    t.Steps (t.reserve size).2 [⟨(t.reserve size).1, size⟩] where
  places := t.places_reserve size
  extend others hpack hm hsize := by
    have hlt : size < 2 ^ 31 :=
      hsize ⟨(t.reserve size).1, size⟩ (List.mem_append_right _ List.mem_cons_self)
    have hperm : (⟨(t.reserve size).1, size⟩ :: (t.regions ++ others)).Perm
        ((t.reserve size).2.regions ++ ([⟨(t.reserve size).1, size⟩] ++ others)) :=
      List.perm_middle.symm
    refine ⟨(hpack.reserve hm hmod hpos hlt).perm hperm, fun r hr => ?_⟩
    rcases List.mem_cons.1 (hperm.mem_iff.2 hr) with rfl | hr
    · exact hmod
    · exact hm r hr
  takes := ⟨[size], by rw [t.frame.reserveAll_one hpos hmod]; rfl, by
    rw [t.frame.reserveAll_one hpos hmod]
    exact List.perm_append_comm⟩

theorem Steps.adopt {t t' : Table} {rs : List Region} {i : Nat} {s : Symbol} {f : Symbol → Symbol}
    (h : t.Steps t' rs) (hs : t'.symbols[i]? = some s) (hp : s.Places (f s))
    (hregions : (f s).regions.Perm (rs ++ s.regions)) : t.Steps (t'.modify i f) [] where
  places := h.places.trans (.modify hs hp)
  extend others hpack hm hsize := by
    have hperm := regions_modify hs hregions
    obtain ⟨h1, hm1⟩ := h.extend others hpack hm fun r hr => by
      refine hsize r (List.mem_append_left _ (hperm.mem_iff.2 ?_))
      exact (List.perm_append_comm.mem_iff).1 hr
    have hperm' : (t'.regions ++ (rs ++ others)).Perm ((t'.modify i f).regions ++ ([] ++ others)) := by
      rw [← List.append_assoc, List.nil_append]
      exact (List.perm_append_comm.trans hperm.symm).append_right _
    exact ⟨h1.perm hperm', fun r hr => hm1 r (hperm'.mem_iff.2 hr)⟩
  takes := by
    obtain ⟨sizes, hframe, htaken⟩ := h.takes
    refine ⟨sizes, hframe, ?_⟩
    rw [List.append_nil]
    exact (regions_modify hs hregions).trans (List.perm_append_comm.trans htaken)

end Table

namespace Placement

/-- What an action of placing does to the table, and what it makes of a node. -/
def Lays (t₀ : Table) (alone : Bool) (n : Node) (place : Layout Node) : Prop :=
  ∀ t, t₀.Places t → ∃ rs, t.Steps (place t).2 rs ∧
    ∀ T, (place t).2.Places T → Placed T alone n (place t).1 rs

theorem variableAddr_of_some {t : Table} {name : Name} {i : Nat} {s : Symbol} {addr : Int}
    (hn : t.Names name i s) (ha : s.addr = some addr) :
    variableAddr name t = (some addr, t) := by
  rw [variableAddr, Run.state_get_bind, hn.lookup]
  dsimp only
  rw [hn.getD, ha]
  rfl

theorem variableAddr_of_none {t : Table} {name : Name} {i : Nat} {s : Symbol}
    (hn : t.Names name i s) (ha : s.addr = none) :
    variableAddr name t = (some (t.reserve s.facts.size).1,
      (t.reserve s.facts.size).2.modify i fun x =>
        { x with addr := some (t.reserve s.facts.size).1 }) := by
  rw [variableAddr, Run.state_get_bind, hn.lookup]
  dsimp only
  rw [hn.getD, ha]
  rfl

theorem variableAddr_places {t : Table} (ht : t.Ready) {name : Name} {i : Nat} {s : Symbol}
    {sh : Shape} (hn : t.Names name i s) (hm : s.map = none) (hsh : s.facts.shape = some sh) :
    ∃ addr, (variableAddr name t).1 = some addr ∧ t.Steps (variableAddr name t).2 [] ∧
      (variableAddr name t).2.VariableAt name i sh addr := by
  cases ha : s.addr with
  | some addr =>
    rw [variableAddr_of_some hn ha]
    exact ⟨addr, rfl, .refl t, s, hn, hm, hsh, ha⟩
  | none =>
    rw [variableAddr_of_none hn ha]
    obtain ⟨hpos, hmod⟩ := (ht.names hn).size
    have hplaces : s.Places { s with addr := some (t.reserve s.facts.size).1 } :=
      { Symbol.Places.refl s with addr := fun a h => by rw [ha] at h; cases h }
    have hsteps : t.Steps ((t.reserve s.facts.size).2.modify i fun x =>
        { x with addr := some (t.reserve s.facts.size).1 }) [] := by
      refine (t.steps_reserve _ hpos hmod).adopt hn.symbol hplaces ?_
      simp [Symbol.regions, hm, ha]
    exact ⟨_, rfl, hsteps, _, (hn.reserve _).modify hplaces, hm, hsh, rfl⟩

theorem orReserve_places (t : Table) (addr : Option Int) (size : Nat) (hpos : 0 < size)
    (hmod : size % 8 = 0) :
    ∃ a rs, (orReserve addr size t).1 = a ∧ (orReserve addr size t).2.symbols = t.symbols ∧
      t.Steps (orReserve addr size t).2 rs ∧ (∀ b ∈ addr, a = b) ∧
      rs ++ addr.toList.map (⟨·, size⟩) = [⟨a, size⟩] := by
  cases addr with
  | some b => exact ⟨b, [], rfl, rfl, .refl t, fun _ h => Option.some.inj h, rfl⟩
  | none => exact ⟨_, _, rfl, rfl, t.steps_reserve _ hpos hmod, nofun, rfl⟩

theorem mapRegions_run {t : Table} {i : Nat} {s : Symbol} {slot : MapSlot}
    (hs : t.symbols[i]? = some s) (hm : s.map = some slot) :
    mapRegions i t =
      let key := orReserve slot.keyAddr slot.keySize t
      let value := orReserve slot.valueAddr s.facts.size key.2
      (some (key.1, value.1), value.2.modify i fun x =>
        { x with map := some { slot with keyAddr := some key.1, valueAddr := some value.1 } }) := by
  have hget : t.symbols.getD i default = s := by
    rw [Array.getD_eq_getD_getElem?, hs]
    rfl
  rw [mapRegions, Run.state_get_bind, hget, hm]
  rfl

theorem mapRegions_places {t : Table} (ht : t.Ready) {name : Name} {i : Nat} {s : Symbol}
    {slot : MapSlot} (hn : t.Names name i s) (hm : s.map = some slot) :
    ∃ m : MapRef, (mapRegions i t).1 = some (m.key, m.value) ∧ t.Steps (mapRegions i t).2 [] ∧
      m.keySize = slot.keySize ∧ ∃ s', (mapRegions i t).2.MapAt name s' m ∧ s'.facts = s.facts := by
  obtain ⟨hpos, hmod⟩ := (ht.names hn).size
  obtain ⟨hkpos, hkmod⟩ := (ht.names hn).keySize slot hm
  obtain ⟨id, hid⟩ := Option.isSome_iff_exists.1 ((ht.names hn).bound slot hm)
  obtain ⟨key, ks, hkey, hksym, hkstep, hkold, hkrs⟩ := orReserve_places t slot.keyAddr _ hkpos hkmod
  obtain ⟨value, vs, hvalue, hvsym, hvstep, hvold, hvrs⟩ :=
    orReserve_places (orReserve slot.keyAddr slot.keySize t).2 slot.valueAddr _ hpos hmod
  rw [mapRegions_run hn.symbol hm]
  dsimp only
  rw [hkey, hvalue]
  set t₂ := (orReserve slot.valueAddr s.facts.size (orReserve slot.keyAddr slot.keySize t).2).2
  let slot' : MapSlot := { slot with keyAddr := some key, valueAddr := some value }
  have hs₂ : t₂.symbols[i]? = some s := by rw [hvsym, hksym]; exact hn.symbol
  have hplaces : s.Places { s with map := some slot' } := by
    refine { Symbol.Places.refl s with isMap := by rw [hm]; rfl, slot := ?_ }
    rintro x hx _ ⟨⟩
    obtain rfl := Option.some.inj (hm.symm.trans hx)
    exact ⟨rfl, rfl, rfl, fun a ha => congrArg some (hkold a ha),
      fun a ha => congrArg some (hvold a ha)⟩
  have hsteps : t.Steps (t₂.modify i fun x => { x with map := some slot' }) [] := by
    refine (hkstep.trans hvstep).adopt hs₂ hplaces ?_
    have hnew : ({ s with map := some slot' } : Symbol).regions =
        [⟨key, slot.keySize⟩] ++ [⟨value, s.facts.size⟩] := rfl
    have hold : s.regions = slot.keyAddr.toList.map (⟨·, slot.keySize⟩) ++
        slot.valueAddr.toList.map (⟨·, s.facts.size⟩) := by rw [Symbol.regions, hm]
    rw [hnew, hold, ← hkrs, ← hvrs]
    simp only [List.append_assoc]
    refine List.Perm.append_left ks ?_
    rw [← List.append_assoc, ← List.append_assoc]
    exact List.perm_append_comm.append_right _
  refine ⟨⟨id, key, slot.keySize, value, s.facts.size⟩, rfl, hsteps, rfl, ?_⟩
  have hn₂ : t₂.Names name i s := by
    obtain ⟨s', hn', -⟩ := (hkstep.trans hvstep).places.names hn
    obtain rfl := Option.some.inj (hs₂.symm.trans hn'.symbol)
    exact hn'
  exact ⟨_, ⟨⟨i, hn₂.modify hplaces⟩, ⟨slot', rfl, hid, rfl, rfl, rfl⟩, rfl⟩, rfl⟩

theorem packInto_places {t₀ : Table} {ns : List Node}
    (hns : ∀ n ∈ ns, ∀ addr, Lays t₀ false n (n.placement.into addr)) (addr : Int) {t : Table}
    (ht : t₀.Places t) :
    ∃ ps : List Placing, ps.map Placing.node = ns ∧
      (packInto addr (Node.placements ns) t).1 = ps.map Placing.placed ∧
      t.Steps (packInto addr (Node.placements ns) t).2 (ps.flatMap Placing.regions) ∧
      ∀ T, (packInto addr (Node.placements ns) t).2.Places T →
        ∀ p ∈ ps, Placed T false p.node p.placed p.regions := by
  induction ns generalizing addr t with
  | nil => exact ⟨[], rfl, rfl, .refl t, nofun⟩
  | cons n ns ih =>
    obtain ⟨rs, hstep, hplaced⟩ := hns n List.mem_cons_self addr t ht
    obtain ⟨ps, hnodes, hres, hsteps, hall⟩ := ih (fun n hn => hns n (List.mem_cons_of_mem _ hn))
      (addr + frameSize n.facts.size) (ht.trans hstep.places)
    refine ⟨⟨n, (n.placement.into addr t).1, rs⟩ :: ps, by rw [List.map_cons, hnodes],
      ?_, hstep.trans hsteps, fun T hT p hp => ?_⟩
    · rw [List.map_cons, ← hres]
      rfl
    · rcases List.mem_cons.1 hp with rfl | hp
      · exact hplaced T (hsteps.places.trans hT)
      · exact hall T hT p hp

theorem mapAccess_run {t : Table} {tag : Tag} {map : Name} {keys : List (Node × Placement)}
    {write : Bool} {i : Nat} {key value : Int} (hl : t.lookup map = some i)
    (hr : (mapRegions i t).1 = some (key, value)) :
    mapAccess tag map keys write t =
      let packed := packInto key keys (mapRegions i t).2
      let id := (packed.2.symbols.getD i default).map.bind MapSlot.id
      let addr := (if write || tag.facts.isInt then pure value
        else orReserve tag.facts.addr tag.facts.size : Layout Int) packed.2
      (.mapAccess { tag with
        facts := { tag.facts with storage := .stack, addr := some addr.1, map := id } }
        map packed.1, addr.2) := by
  rw [mapAccess, Run.state_get_bind, hl]
  dsimp only
  rw [Run.state_bind, hr]
  by_cases h : (write || tag.facts.isInt) = true
  · simp only [h, if_true]
    rfl
  · simp only [h]
    rfl

theorem mapAccess_places {t₀ : Table} (hready : t₀.Ready) {tag : Tag} {map : Name}
    {keys : List Node} {i : Nat} {s : Symbol} {slot : MapSlot} {sh : Shape} {write : Bool}
    (hn : t₀.Names map i s) (hm : s.map = some slot)
    (hkeys : ∀ n ∈ keys, ∀ addr, Lays t₀ false n (n.placement.into addr))
    (hf : tag.facts = .ofShape sh .stack) (hv : sh.IsValue) {t : Table} (ht : t₀.Places t) :
    ∃ (ps : List Placing) (tag' : Tag) (m : MapRef) (own : List Region),
      ps.map Placing.node = keys ∧
      (mapAccess tag map (Node.placements keys) write t).1 =
        .mapAccess tag' map (ps.map Placing.placed) ∧
      t.Steps (mapAccess tag map (Node.placements keys) write t).2
        (ps.flatMap Placing.regions ++ own) ∧
      tag'.facts.shape = some sh ∧ tag'.facts.map = some m.id ∧ m.keySize = slot.keySize ∧
      ∃ addr, tag'.facts.addr = some addr ∧
        own = (if write || sh.type == .int then [] else [⟨addr, sh.size⟩]) ∧
        (write = true → addr = m.value) ∧
        ∀ T, (mapAccess tag map (Node.placements keys) write t).2.Places T →
          (∀ p ∈ ps, Placed T false p.node p.placed p.regions) ∧
          ∃ s', T.MapAt map s' m ∧ s'.facts = s.facts := by
  obtain ⟨s₁, hn₁, hps⟩ := ht.names hn
  obtain ⟨slot₁, hm₁, hk₁, -⟩ := hps.map_some hm
  obtain ⟨m, hr, hstep, hksize, s₂, hat, hfacts⟩ := mapRegions_places (hready.places ht) hn₁ hm₁
  obtain ⟨ps, hnodes, hres, hpsteps, hall⟩ :=
    packInto_places hkeys m.key (ht.trans hstep.places)
  rw [mapAccess_run hn₁.lookup hr]
  dsimp only
  set t₂ := (packInto m.key (Node.placements keys) (mapRegions i t).2).2
  obtain ⟨s₃, hat₃, hfacts₃⟩ := hat.places hpsteps.places
  obtain ⟨j, hn₃⟩ := hat₃.names
  have hid : (t₂.symbols.getD i default).map.bind MapSlot.id = some m.id := by
    obtain ⟨s₄, hn₄, -⟩ := (hstep.places.trans hpsteps.places).names hn₁
    obtain ⟨rfl, rfl⟩ := hn₃.unique hn₄
    obtain ⟨slot₃, hs₃, hid₃, -⟩ := hat₃.slot
    rw [hn₃.getD, hs₃]
    exact hid₃
  have hisInt : tag.facts.isInt = (sh.type == .int) := by
    rw [hf]
    rfl
  rw [hid, hisInt]
  have hmap : ∀ T, t₂.Places T → ∃ s', T.MapAt map s' m ∧ s'.facts = s.facts := fun T hT => by
    obtain ⟨s', hat', hfacts'⟩ := hat₃.places hT
    exact ⟨s', hat', hfacts'.trans (hfacts₃.trans (hfacts.trans hps.facts))⟩
  have hshape : tag.facts.shape = some sh := by rw [hf]; rfl
  let tagAt (addr : Int) : Tag :=
    { tag with facts := { tag.facts with storage := .stack, addr := some addr, map := some m.id } }
  by_cases hw : (write || sh.type == .int) = true
  · rw [if_pos hw]
    refine ⟨ps, tagAt m.value, m, [], hnodes, by rw [hres]; rfl, ?_, hshape, rfl,
      hksize.trans hk₁, m.value, rfl, by rw [if_pos hw], fun _ => rfl,
      fun T hT => ⟨hall T hT, hmap T hT⟩⟩
    rw [List.append_nil]
    exact hstep.trans hpsteps
  · rw [if_neg hw]
    obtain ⟨a, rs, ha, -, hstep', -, hrs⟩ := orReserve_places t₂ tag.facts.addr
      tag.facts.size (by rw [hf]; exact hv.size_pos) (by rw [hf]; exact hv.size_mod)
    obtain rfl : rs = [⟨a, sh.size⟩] := by
      rw [hf] at hrs
      simpa [Facts.ofShape] using hrs
    refine ⟨ps, tagAt a, m, [⟨a, sh.size⟩], hnodes, by rw [hres, ha], ?_, hshape, rfl,
      hksize.trans hk₁, a, rfl, by rw [if_neg hw], fun h => ?_, fun T hT => ?_⟩
    · exact (hstep.trans hpsteps).trans hstep'
    · rw [h] at hw
      exact (hw rfl).elim
    · have hT' := hstep'.places.trans hT
      exact ⟨hall T hT', hmap T hT'⟩

theorem fixed_lays {t₀ : Table} {n : Node} {place : Layout Node}
    (h : ∀ alone, Lays t₀ alone n place) :
    Lays t₀ true n (fixed place).alone ∧ ∀ addr, Lays t₀ false n ((fixed place).into addr) :=
  ⟨h true, fun _ => h false⟩

theorem built_lays {t₀ : Table} {n : Node} {place : Int → Node} (haddr : n.facts.addr = none)
    (hpos : 0 < n.facts.size) (hmod : n.facts.size % 8 = 0)
    (h : ∀ T alone addr, Placed T alone n (place addr) (ownRegion alone addr n.facts.size)) :
    Lays t₀ true n (built n fun addr => return place addr).alone ∧
      ∀ addr, Lays t₀ false n ((built n fun addr => return place addr).into addr) := by
  refine ⟨fun t _ => ?_, fun addr t _ => ⟨[], .refl t, fun T _ => h T false addr⟩⟩
  have hrun : (built n fun addr => return place addr).alone t =
      (place (t.reserve n.facts.size).1, (t.reserve n.facts.size).2) := by
    unfold built
    dsimp only
    rw [haddr]
    rfl
  rw [hrun]
  exact ⟨_, t.steps_reserve _ hpos hmod, fun T _ => h T true _⟩

theorem call_placement {tag : Tag} {function : Name} {args : List Node} {b : Builtin}
    (hb : Builtin.ofName? function = some b) (hcomm : b ≠ .comm) (hout : b ≠ .out)
    (hint : tag.facts.isInt = true) :
    (Node.call tag function args).placement = fixed do
      let args ← allAlone (Node.placements args)
      return .call (stored tag .register) function args := by
  rw [Node.placement, hb]
  cases b with
  | comm => exact (hcomm rfl).elim
  | out => exact (hout rfl).elim
  | _ =>
    dsimp only
    rw [if_pos hint]

theorem lays_of_typed {t₀ : Table} (hready : t₀.Ready) {n : Node} (h : Typed t₀ n) :
    Lays t₀ true n n.placement.alone ∧ ∀ addr, Lays t₀ false n (n.placement.into addr) := by
  induction h with
  | int hf =>
    rw [Node.placement]
    refine fixed_lays fun alone t _ => ⟨[], .refl t, fun T _ => .int ?_ ?_⟩ <;>
      · simp only [stored, hf]
        rfl
  | text hf =>
    rw [Node.placement]
    refine built_lays ?_ ?_ ?_ fun T alone addr => ?_ <;>
      simp only [Node.facts, Node.tag, hf]
    · rfl
    · exact Nat.lt_of_lt_of_le (Nat.succ_pos _) (le_align8 _)
    · exact align8_mod _
    · exact .text rfl (by rw [hf]; rfl) (by simp only [stacked, hf]; rfl) rfl
  | var hn hm hs hf =>
    rw [Node.placement]
    refine fixed_lays fun alone t ht => ?_
    obtain ⟨s', hn', hps⟩ := ht.names hn
    obtain ⟨addr, hres, hstep, hat⟩ := variableAddr_places (hready.places ht) hn'
      (hps.map_none hm) (by rw [hps.facts]; exact hs)
    refine ⟨[], hstep, fun T hT => ?_⟩
    exact .var (hat.places hT) (by rw [hf]; rfl) (by simp only [hf]; rfl) hres
  | mapAccess hn hm hk hne _ hsize hsh hf ih =>
    rename_i tag map keys i s slot sh _
    rw [Node.placement]
    have hv : sh.IsValue := by
      rcases hsh with rfl | hs
      · exact .inl rfl
      · obtain ⟨sh', hsh', hv⟩ := (hready.names hn).shape
        exact Option.some.inj (hsh'.symm.trans hs) ▸ hv
    refine fixed_lays fun alone t ht => ?_
    obtain ⟨ps, tag', m, own, rfl, hres, hstep, hshape, hid, hksize, addr, haddr, hown, -, hT⟩ :=
      mapAccess_places hready hn hm (fun k hk => (ih k hk).2) hf hv ht
    refine ⟨_, hstep, fun T hplaces => ?_⟩
    obtain ⟨hall, s', hat, hfacts⟩ := hT T hplaces
    rw [hres, hown]
    have hshape₀ : tag.facts.shape = some sh := by rw [hf]; rfl
    by_cases hint : sh.type = .int
    · obtain rfl := hv.eq_int hint
      simp only [Bool.false_or, Shape.int, beq_self_eq_true, if_true, List.append_nil]
      exact .entry hat (hksize.trans hsize) hall hshape₀ hshape hid
    · have hstr : sh.type = .str := by
        rcases hv with rfl | ⟨hstr, -⟩
        · exact (hint rfl).elim
        · exact hstr
      have hsym : s'.facts.shape = some sh := by
        rcases hsh with rfl | hs
        · exact (hint rfl).elim
        · rw [hfacts]
          exact hs
      rw [hstr]
      exact .stringEntry hat (hksize.trans hsize) hall hsym hstr hshape₀ hshape hid haddr
  | binary _ _ hl hr hf ihl ihr =>
    rw [Node.placement]
    refine fixed_lays fun alone t ht => ?_
    obtain ⟨rs, hstep, hL⟩ := ihl.1 t ht
    obtain ⟨qs, hstep', hR⟩ := ihr.1 _ (ht.trans hstep.places)
    refine ⟨_, hstep.trans hstep', fun T hT => ?_⟩
    exact .binary (hL T (hstep'.places.trans hT)) (hR T hT) hl hr (by rw [hf]; rfl)
      (by simp only [stored, hf]; rfl)
  | query hb hmem hf =>
    rw [call_placement hb (by rintro rfl; simp at hmem) (by rintro rfl; simp at hmem)
      (by rw [hf]; rfl)]
    refine fixed_lays fun alone t _ => ⟨[], .refl t, fun T _ => ?_⟩
    exact .query hb hmem (by rw [hf]; rfl) (by simp only [stored, hf]; rfl)
  | arg hb h0 h6 hi hf =>
    rw [call_placement hb (by decide) (by decide) (by rw [hf]; rfl)]
    refine fixed_lays fun alone t _ => ⟨[], .refl t, fun T _ => ?_⟩
    exact .arg hb h0 h6 (by rw [hf]; rfl) (by simp only [stored, hf]; rfl)
  | comm hb hf =>
    rw [Node.placement, hb]
    refine built_lays ?_ ?_ ?_ fun T alone addr => ?_ <;>
      simp only [Node.facts, Node.tag, hf]
    · rfl
    · decide
    · decide
    · exact .comm hb rfl (by rw [hf]; rfl) (by simp only [stacked, hf]; rfl) rfl
  | strcmp hb _ _ hl hr hf ihl ihr =>
    rw [call_placement hb (by decide) (by decide) (by rw [hf]; rfl)]
    refine fixed_lays fun alone t ht => ?_
    obtain ⟨rs, hstep, hL⟩ := ihl.1 t ht
    obtain ⟨qs, hstep', hR⟩ := ihr.1 _ (ht.trans hstep.places)
    refine ⟨_, hstep.trans hstep', fun T hT => ?_⟩
    exact .strcmp hb (hL T (hstep'.places.trans hT)) (hR T hT) hl hr (by rw [hf]; rfl)
      (by simp only [stored, hf]; rfl)

end Placement

theorem Placed.of_int {t : Table} {alone : Bool} {n n' : Node} {rs : List Region}
    (h : Placed t alone n n' rs) (hint : n.facts.shape = some .int) (alone' : Bool) :
    Placed t alone' n n' rs := by
  cases h with
  | int hf hf' => exact .int hf hf'
  | text hsh hf hf' ha =>
    rw [Node.facts, Node.tag, hf, hsh] at hint
    cases hint
  | var hat hf hf' ha => exact .var hat hf hf' ha
  | entry hat hk hkeys hf hf' hid => exact .entry hat hk hkeys hf hf' hid
  | stringEntry hat hk hkeys hs hstr hf hf' hid ha =>
    exact .stringEntry hat hk hkeys hs hstr hf hf' hid ha
  | binary hl hr hli hri hf hf' => exact .binary hl hr hli hri hf hf'
  | query hb hm hf hf' => exact .query hb hm hf hf'
  | arg hb h0 h6 hf hf' => exact .arg hb h0 h6 hf hf'
  | comm hb hsh hf hf' ha =>
    rw [Node.facts, Node.tag, hf, hsh] at hint
    cases hint
  | strcmp hb hl hr hls hrs hf hf' => exact .strcmp hb hl hr hls hrs hf hf'

theorem Placed.of_call {t : Table} {alone : Bool} {tag : Tag} {function : Name} {args : List Node}
    {n : Node} {rs : List Region} (h : Placed t alone (.call tag function args) n rs) :
    ∃ tag' args', n = .call tag' function args' := by
  cases h <;> exact ⟨_, _, rfl⟩

namespace Node

open Placement

theorem placeTarget_mapAccess (tag : Tag) (map : Name) (keys : List Node) (t : Table) :
    placeTarget (.mapAccess tag map keys) t =
      (((Placement.mapAccess tag map (placements keys) true t).1,
        (Placement.mapAccess tag map (placements keys) true t).1.facts.addr),
        (Placement.mapAccess tag map (placements keys) true t).2) := rfl

theorem placeTarget_var (tag : Tag) (name : Name) (t : Table) : placeTarget (.var tag name) t =
    ((.var ((variableAddr name t).1.elim tag (stacked tag)) name, (variableAddr name t).1),
      (variableAddr name t).2) := by
  rw [placeTarget, Run.state_bind]
  cases (variableAddr name t).1 <;> rfl

theorem placeTarget_lays {t₀ : Table} (hready : t₀.Ready) {sh : Shape} {s : Symbol}
    {target : Node} (h : TypedTarget t₀ sh s target) (hv : sh.IsValue) {t : Table}
    (ht : t₀.Places t) :
    ∃ rs addr, (placeTarget target t).1.2 = some addr ∧ t.Steps (placeTarget target t).2 rs ∧
      ∀ T, (placeTarget target t).2.Places T → ∃ s',
        PlacedTarget T s' target (placeTarget target t).1.1 rs ∧ s'.facts = s.facts ∧
        s'.map.isSome = s.map.isSome := by
  cases h with
  | @var tag name i hn hm hf =>
    obtain ⟨s₁, hn₁, hps⟩ := ht.names hn
    obtain ⟨sh', hsh', -⟩ := (hready.names hn).shape
    obtain ⟨addr, hres, hstep, hat⟩ := variableAddr_places (hready.places ht) hn₁
      (hps.map_none hm) (by rw [hps.facts]; exact hsh')
    rw [placeTarget_var, hres]
    refine ⟨[], addr, rfl, hstep, fun T hT => ?_⟩
    obtain ⟨s', hn', hps'⟩ := (hstep.places.trans hT).names hn₁
    obtain ⟨s'', hn'', hm'', -, ha''⟩ := hat.places hT
    obtain ⟨-, rfl⟩ := hn'.unique hn''
    exact ⟨s', .var hn' hm'' ha'' rfl, hps'.facts.trans hps.facts, hps'.isMap.trans hps.isMap⟩
  | @mapAccess tag map keys i slot hn hm hk hne hkeys hsize hf =>
    obtain ⟨ps, tag', m, own, rfl, hres, hstep, -, hid, hksize, addr, haddr, hown, -, hT⟩ :=
      mapAccess_places hready hn hm (fun k hk => (lays_of_typed hready (hkeys k hk)).2) hf hv ht
    have hrun : placeTarget (.mapAccess tag map (ps.map Placing.node)) t =
        ((.mapAccess tag' map (ps.map Placing.placed), some addr),
          (Placement.mapAccess tag map (placements (ps.map Placing.node)) true t).2) := by
      rw [placeTarget_mapAccess, hres]
      exact congrArg (fun a => ((_, a), _)) haddr
    obtain rfl : own = [] := by rw [hown]; rfl
    rw [hrun]
    rw [List.append_nil] at hstep
    refine ⟨_, addr, rfl, hstep, fun T hplaces => ?_⟩
    obtain ⟨hall, s', hat, hfacts⟩ := hT T hplaces
    refine ⟨s', .entry hat (hksize.trans hsize) hall hid, hfacts, ?_⟩
    obtain ⟨slot', hs', -⟩ := hat.slot
    rw [hs', hm]
    rfl

theorem placeValue_lays {t₀ : Table} (hready : t₀.Ready) {n : Node} (h : Typed t₀ n) (addr : Int) :
    Lays t₀ false n (placeValue n (some addr)) := by
  obtain ⟨halone, hinto⟩ := lays_of_typed hready h
  intro t ht
  unfold placeValue
  by_cases hint : n.facts.isInt = true
  · simp only [hint, if_true]
    obtain ⟨rs, hstep, hplaced⟩ := halone t ht
    refine ⟨rs, hstep, fun T hT => (hplaced T hT).of_int ?_ false⟩
    obtain ⟨sh, hsh, hv⟩ := h.shape hready.shaped
    rw [Facts.isInt_of_shape hsh, beq_iff_eq] at hint
    rw [hsh, hv.eq_int hint]
  · simp only [hint]
    exact hinto addr t ht

def LaysStatement (t₀ : Table) (n : Node) (place : Layout Node) : Prop :=
  ∀ t, t₀.Places t → ∃ rs, t.Steps (place t).2 rs ∧
    ∀ T, (place t).2.Places T → PlacedStatement T n (place t).1 rs

theorem placeStatements_lays {t₀ : Table} {ns : List Node}
    (hns : ∀ n ∈ ns, LaysStatement t₀ n n.placeStatement) {t : Table} (ht : t₀.Places t) :
    ∃ ps : List Placing, ps.map Placing.node = ns ∧
      (placeStatements ns t).1 = ps.map Placing.placed ∧
      t.Steps (placeStatements ns t).2 (ps.flatMap Placing.regions) ∧
      ∀ T, (placeStatements ns t).2.Places T →
        ∀ p ∈ ps, PlacedStatement T p.node p.placed p.regions := by
  induction ns generalizing t with
  | nil => exact ⟨[], rfl, rfl, .refl t, nofun⟩
  | cons n ns ih =>
    obtain ⟨rs, hstep, hplaced⟩ := hns n List.mem_cons_self t ht
    obtain ⟨ps, hnodes, hres, hsteps, hall⟩ := ih (fun n hn => hns n (List.mem_cons_of_mem _ hn))
      (ht.trans hstep.places)
    refine ⟨⟨n, (n.placeStatement t).1, rs⟩ :: ps, by rw [List.map_cons, hnodes],
      ?_, hstep.trans hsteps, fun T hT p hp => ?_⟩
    · rw [List.map_cons, ← hres]
      rfl
    · rcases List.mem_cons.1 hp with rfl | hp
      · exact hplaced T (hsteps.places.trans hT)
      · exact hall T hT p hp

theorem placeStatement_call (tag : Tag) (function : Name) (args : List Node) :
    placeStatement (.call tag function args) = (Node.call tag function args).placement.alone := rfl

theorem placeStatement_out {tag formatTag recordTag : Tag} {function : Name} {format : String}
    {members : List Node} (hb : Builtin.ofName? function = some .out)
    (haddr : recordTag.facts.addr = none) (t : Table) :
    placeStatement (.call tag function [.text formatTag format, .record recordTag members]) t =
      let region := t.reserve recordTag.facts.size
      let values := packInto region.1 (placements members) region.2
      (.call tag function [.text formatTag format, .record (stacked recordTag region.1) values.1],
        values.2) := by
  rw [placeStatement_call, placement, hb]
  simp only [placements, placement, Placement.output, facts, Node.tag, haddr]
  rfl

theorem lays_of_typedStatement {t₀ : Table} (hready : t₀.Ready) {n : Node}
    (h : TypedStatement t₀ n) : LaysStatement t₀ n n.placeStatement := by
  induction h with
  | @declaration tag target rhs s sh htarget _ hs hv hsv =>
    intro t ht
    obtain ⟨sh', hsh', hv'⟩ := hv.shape hready.shaped
    obtain rfl := Option.some.inj (hsv.symm.trans hsh')
    obtain ⟨rs, addr, haddr, hstep, hT⟩ := placeTarget_lays hready htarget hv' ht
    obtain ⟨qs, hstep', hT'⟩ := placeValue_lays hready hv addr _ (ht.trans hstep.places)
    have hrun : placeStatement (.declaration tag target rhs) t =
        (.declaration tag (placeTarget target t).1.1
          (placeValue rhs (some addr) (placeTarget target t).2).1,
          (placeValue rhs (some addr) (placeTarget target t).2).2) := by
      rw [← haddr, placeStatement]
      rfl
    rw [hrun]
    refine ⟨_, hstep.trans hstep', fun T hplaces => ?_⟩
    obtain ⟨s', htar, hfacts, -⟩ := hT T (hstep'.places.trans hplaces)
    exact .declaration htar (by rw [hfacts]; exact hs) (hT' T hplaces) hsv
  | @assignment tag op target rhs s htarget hs hv hsv =>
    intro t ht
    obtain ⟨rs, addr, haddr, hstep, hT⟩ := placeTarget_lays hready htarget (.inl rfl) ht
    obtain ⟨qs, hstep', hT'⟩ := placeValue_lays hready hv addr _ (ht.trans hstep.places)
    have hrun : placeStatement (.assignment tag op target rhs) t =
        (.assignment tag op (placeTarget target t).1.1
          (placeValue rhs (some addr) (placeTarget target t).2).1,
          (placeValue rhs (some addr) (placeTarget target t).2).2) := by
      rw [← haddr, placeStatement]
      rfl
    rw [hrun]
    refine ⟨_, hstep.trans hstep', fun T hplaces => ?_⟩
    obtain ⟨s', htar, hfacts, hmap⟩ := hT T (hstep'.places.trans hplaces)
    refine .assignment htar (fun hnone => ?_) (hT' T hplaces) hsv
    rw [hfacts]
    refine hs (Option.isNone_iff_eq_none.1 ?_)
    rw [hnone] at hmap
    simpa using hmap.symm
  | @cond tag condition yes no hc hint _ _ ihy ihn =>
    intro t ht
    obtain ⟨rs, hstep, hC⟩ := (lays_of_typed hready hc).1 t ht
    obtain ⟨ys, rfl, hys, hystep, hY⟩ := placeStatements_lays ihy (ht.trans hstep.places)
    obtain ⟨ns, rfl, hns, hnstep, hN⟩ :=
      placeStatements_lays ihn (ht.trans (hstep.places.trans hystep.places))
    refine ⟨_, hstep.trans (hystep.trans hnstep), fun T hT => ?_⟩
    have h₁ := hnstep.places.trans hT
    have hcond : PlacedStatement T _
        (.cond tag _ (ys.map Placing.placed) (ns.map Placing.placed)) _ :=
      .cond (hC T (hystep.places.trans h₁)) hint (hY T h₁) (hN T hT)
    rw [← hys, ← hns] at hcond
    rw [placeStatement]
    exact hcond
  | @unroll tag count body _ ih =>
    intro t ht
    obtain ⟨ps, rfl, hres, hstep, hT⟩ := placeStatements_lays ih ht
    refine ⟨_, hstep, fun T hplaces => ?_⟩
    have hbody : PlacedStatement T _ (.unroll tag count (ps.map Placing.placed)) _ :=
      .unroll (hT T hplaces)
    rw [← hres] at hbody
    rw [placeStatement]
    exact hbody
  | @call tag function args hc =>
    intro t ht
    obtain ⟨rs, hstep, hT⟩ := (lays_of_typed hready hc).1 t ht
    refine ⟨rs, hstep, fun T hplaces => ?_⟩
    rw [placeStatement_call]
    have hplaced := hT T hplaces
    obtain ⟨tag', args', heq⟩ := hplaced.of_call
    rw [heq] at hplaced ⊢
    exact .call hplaced
  | @out tag formatTag recordTag function format members cs hb hf hff hcs hacc hm hr he =>
    intro t ht
    obtain ⟨channel, hchannel⟩ := Option.isSome_iff_exists.1 (hready.channel he)
    have hsize : recordTag.facts.size = max (Annotate.packedSize members) 8 := by
      rw [hr]
      rfl
    have hstep := t.steps_reserve recordTag.facts.size (by omega) (by
      have := packedSize_mod members
      omega)
    obtain ⟨ps, rfl, hres, hpstep, hT⟩ := packInto_places
      (fun m hmem => (lays_of_typed hready (hm m hmem)).2)
      (t.reserve recordTag.facts.size).1 (ht.trans hstep.places)
    rw [placeStatement_out hb (by rw [hr]; rfl)]
    dsimp only
    rw [hres]
    refine ⟨_, hstep.trans hpstep, fun T hplaces => ?_⟩
    have hev : T.events.id? = some channel := by
      rw [hplaces.events, hpstep.places.events]
      exact (congrArg _ ht.events).trans hchannel
    have hshape : recordTag.facts.shape = some ⟨.record, recordTag.facts.size⟩ := by
      rw [hr]
      rfl
    exact .out hb hff hcs (by simpa using hacc.length_eq) hev (congrArg (Shape.mk .record) hsize) hshape
      hshape rfl (hT T hplaces)

end Node

theorem Probe.place_placed {t : Table} (hready : t.Ready) {p : Probe}
    (hp : ∀ n ∈ p.body, TypedStatement t n) :
    ∃ ps : List Placing, p.body = ps.map Placing.node ∧
      (p.place t).1 = { p with body := ps.map Placing.placed } ∧
      t.Steps (p.place t).2 (ps.flatMap Placing.regions) ∧
      ∀ k ∈ ps, PlacedStatement (p.place t).2 k.node k.placed k.regions := by
  obtain ⟨ps, hnodes, hres, hstep, hall⟩ := Node.placeStatements_lays
    (fun n hn => Node.lays_of_typedStatement hready (hp n hn)) (.refl t)
  refine ⟨ps, hnodes.symm, ?_, hstep, hall _ (.refl _)⟩
  rw [← hres]
  rfl

namespace Tag

def region (tag : Tag) : List Region := tag.facts.addr.toList.map (⟨·, tag.facts.size⟩)

theorem region_of_addr {tag : Tag} {addr : Int} {sh : Shape} (ha : tag.facts.addr = some addr)
    (hs : tag.facts.shape = some sh) : tag.region = [⟨addr, sh.size⟩] := by
  rw [region, ha, Facts.size_of_shape hs]
  rfl

end Tag

namespace Node

mutual

/-- The regions that a placed expression takes for itself. -/
def regions (alone : Bool) : Node → List Region
  | .text tag _ => if alone then tag.region else []
  | .mapAccess tag _ keys =>
    allRegions false keys ++ if tag.facts.isInt then [] else tag.region
  | .binary _ _ lhs rhs => regions true lhs ++ regions true rhs
  | .call tag function args =>
    if Builtin.ofName? function = some .comm then if alone then tag.region else []
    else allRegions true args
  | .record tag members => tag.region ++ allRegions false members
  | _ => []

def allRegions (alone : Bool) : List Node → List Region
  | [] => []
  | n :: ns => regions alone n ++ allRegions alone ns

end

def targetRegions : Node → List Region
  | .mapAccess _ _ keys => allRegions false keys
  | _ => []

mutual

/-- The regions that a placed statement takes for itself. -/
def statementRegions : Node → List Region
  | .declaration _ target rhs => targetRegions target ++ regions false rhs
  | .assignment _ _ target rhs => targetRegions target ++ regions false rhs
  | .cond _ condition yes no => regions true condition ++ (bodyRegions yes ++ bodyRegions no)
  | .unroll _ _ body => bodyRegions body
  | n => regions true n

def bodyRegions : List Node → List Region
  | [] => []
  | n :: ns => statementRegions n ++ bodyRegions ns

end

theorem statementRegions_call (tag : Tag) (function : Name) (args : List Node) :
    statementRegions (.call tag function args) = regions true (.call tag function args) := rfl

theorem allRegions_map {alone : Bool} {ps : List Placing}
    (h : ∀ p ∈ ps, p.placed.regions alone = p.regions) :
    allRegions alone (ps.map Placing.placed) = ps.flatMap Placing.regions := by
  induction ps with
  | nil => rfl
  | cons p ps ih =>
    rw [List.map_cons, allRegions, List.flatMap_cons, h p List.mem_cons_self,
      ih fun q hq => h q (List.mem_cons_of_mem _ hq)]

theorem bodyRegions_map {ps : List Placing}
    (h : ∀ p ∈ ps, p.placed.statementRegions = p.regions) :
    bodyRegions (ps.map Placing.placed) = ps.flatMap Placing.regions := by
  induction ps with
  | nil => rfl
  | cons p ps ih =>
    rw [List.map_cons, bodyRegions, List.flatMap_cons, h p List.mem_cons_self,
      ih fun q hq => h q (List.mem_cons_of_mem _ hq)]

end Node

theorem Placed.regions_eq {t : Table} {alone : Bool} {n n' : Node} {rs : List Region}
    (h : Placed t alone n n' rs) : n'.regions alone = rs := by
  induction h with
  | int => rfl
  | text hsh hf hf' ha =>
    rw [Node.regions, Tag.region_of_addr ha hf']
    rfl
  | var => rfl
  | entry hat hk _ hf hf' hid ih =>
    rw [Node.regions, Node.allRegions_map ih, Facts.isInt_of_shape hf']
    exact List.append_nil _
  | stringEntry hat hk _ hs hstr hf hf' hid ha ih =>
    rw [Node.regions, Node.allRegions_map ih, Facts.isInt_of_shape hf', hstr,
      Tag.region_of_addr ha hf']
    rfl
  | binary _ _ _ _ _ _ ihl ihr => rw [Node.regions, ihl, ihr]
  | query hb hm _ _ =>
    rw [Node.regions, hb, if_neg]
    · rfl
    · rintro ⟨⟩
      simp at hm
  | arg hb _ _ _ _ =>
    rw [Node.regions, hb, if_neg nofun]
    rfl
  | comm hb hsh hf hf' ha =>
    rw [Node.regions, hb, if_pos rfl, Tag.region_of_addr ha hf']
    rfl
  | strcmp hb _ _ _ _ _ _ ihl ihr =>
    rw [Node.regions, hb, if_neg nofun, Node.allRegions, Node.allRegions, Node.allRegions, ihl, ihr,
      List.append_nil]

theorem PlacedTarget.regions_eq {t : Table} {s : Symbol} {n n' : Node} {rs : List Region}
    (h : PlacedTarget t s n n' rs) : n'.targetRegions = rs := by
  cases h with
  | var => rfl
  | entry hat hk hkeys hid => exact Node.allRegions_map fun k hk => (hkeys k hk).regions_eq

theorem PlacedStatement.regions_eq {t : Table} {n n' : Node} {rs : List Region}
    (h : PlacedStatement t n n' rs) : n'.statementRegions = rs := by
  induction h with
  | declaration htarget _ hv _ => rw [Node.statementRegions, htarget.regions_eq, hv.regions_eq]
  | assignment htarget _ hv _ => rw [Node.statementRegions, htarget.regions_eq, hv.regions_eq]
  | cond hc _ _ _ ihy ihn =>
    rw [Node.statementRegions, hc.regions_eq, Node.bodyRegions_map ihy, Node.bodyRegions_map ihn]
  | unroll _ ih => rw [Node.statementRegions, Node.bodyRegions_map ih]
  | call hc => exact hc.regions_eq
  | out hb hff _ _ _ hsh _ hf' ha hm =>
    rw [Node.statementRegions_call, Node.regions, hb, if_neg nofun, Node.allRegions, Node.allRegions,
      Node.allRegions, Node.regions, Node.regions, Tag.region_of_addr ha hf',
      Node.allRegions_map fun k hk => (hm k hk).regions_eq, Tag.region, hff]
    simp

end TraceScript
