import Mathlib
import TraceScript.Proofs.Placed
import TraceScript.Proofs.TypedProbes

namespace TraceScript

namespace Table

variable {t t' : Table}

theorem Places.lookup (h : t.Places t') (name : Name) : t'.lookup name = t.lookup name := by
  cases hl : t.lookup name with
  | some i =>
    obtain ⟨s', hn, -⟩ := h.names (names_of_lookup hl)
    exact hn.lookup
  | none =>
    apply Array.findIdx?_eq_none_iff.2
    intro s' hs'
    obtain ⟨i, hi⟩ := Array.mem_iff_getElem?.1 hs'
    have hlt : i < t.symbols.size := h.size ▸ (Array.getElem?_eq_some_iff.1 hi).1
    obtain ⟨s'', hs'', hp⟩ := h.symbols i _ (Array.getElem?_eq_getElem hlt)
    obtain rfl := Option.some.inj (hi.symm.trans hs'')
    rw [hp.name]
    exact Array.findIdx?_eq_none_iff.1 hl _ (Array.getElem_mem hlt)

theorem Places.mapId (h : t.Places t') {name : Name} {i : Nat} {s : Symbol}
    (hn : t.Names name i s) : (t'.symbols.getD i default).map.bind MapSlot.id =
      (t.symbols.getD i default).map.bind MapSlot.id := by
  obtain ⟨s', hn', hp⟩ := h.names hn
  rw [hn.getD, hn'.getD]
  cases hm : s.map with
  | none => rw [hp.map_none hm]
  | some slot =>
    obtain ⟨slot', hm', -, hid, -⟩ := hp.map_some hm
    rw [hm']
    exact hid

end Table

namespace Placement

variable {α β : Type} {t t' : Table}

/-- From a table on, an action gives this result and changes nothing. -/
def Rests (t : Table) (place : Layout α) (a : α) : Prop := ∀ T, t.Places T → place T = (a, T)

theorem Rests.mono {place : Layout α} {a : α} (h : Rests t place a) (ht : t.Places t') :
    Rests t' place a :=
  fun T hT => h T (ht.trans hT)

theorem Rests.pure (a : α) : Rests t (pure a) a := fun _ _ => rfl

theorem Rests.bind {place : Layout α} {f : α → Layout β} {a : α} {b : β} (h : Rests t place a)
    (hf : Rests t (f a) b) : Rests t (place >>= f) b := by
  intro T hT
  rw [Run.state_bind, h T hT]
  exact hf T hT

/-- An action that adds only addresses, and comes to rest at its result. -/
def Settles (place : α → Layout α) (a : α) : Prop :=
  ∀ t, t.Places (place a t).2 ∧ Rests (place a t).2 (place (place a t).1) (place a t).1

theorem variableAddr_rests (name : Name) (t : Table) :
    t.Places (variableAddr name t).2 ∧
      Rests (variableAddr name t).2 (variableAddr name) (variableAddr name t).1 := by
  cases hl : t.lookup name with
  | none =>
    have hunknown : ∀ T : Table, T.lookup name = none → variableAddr name T = (none, T) := by
      intro T hT
      rw [variableAddr, Run.state_get_bind, hT]
      rfl
    rw [hunknown t hl]
    exact ⟨.refl t, fun T hT => hunknown T ((hT.lookup name).trans hl)⟩
  | some i =>
    have hn := Table.names_of_lookup hl
    have hrests : ∀ {t' : Table} {s : Symbol} {addr : Int}, t'.Names name i s →
        s.addr = some addr → Rests t' (variableAddr name) (some addr) := by
      intro t' s addr hn ha T hT
      obtain ⟨s', hn', hp⟩ := hT.names hn
      exact variableAddr_of_some hn' (hp.addr addr ha)
    cases ha : (t.symbols.getD i default).addr with
    | some addr =>
      rw [variableAddr_of_some hn ha]
      exact ⟨.refl t, hrests hn ha⟩
    | none =>
      rw [variableAddr_of_none hn ha]
      have hplaces : (t.symbols.getD i default).Places { t.symbols.getD i default with
          addr := some (t.reserve (t.symbols.getD i default).facts.size).1 } :=
        { Symbol.Places.refl _ with addr := fun a h => by rw [ha] at h; cases h }
      refine ⟨(t.places_reserve _).trans (.modify (hn.reserve _).symbol hplaces), ?_⟩
      exact hrests ((hn.reserve _).modify hplaces) rfl

theorem places_orReserve (addr : Option Int) (size : Nat) (t : Table) :
    t.Places (orReserve addr size t).2 := by
  cases addr with
  | some addr => exact .refl t
  | none => exact t.places_reserve size

theorem symbols_orReserve (addr : Option Int) (size : Nat) (t : Table) :
    (orReserve addr size t).2.symbols = t.symbols := by
  cases addr <;> rfl

theorem mapRegions_of_none {i : Nat} {s : Symbol} (hs : t.symbols[i]? = some s)
    (hm : s.map = none) : mapRegions i t = (none, t) := by
  have hget : t.symbols.getD i default = s := by
    rw [Array.getD_eq_getD_getElem?, hs]
    rfl
  rw [mapRegions, Run.state_get_bind, hget, hm]
  rfl

theorem mapRegions_of_some {i : Nat} {s : Symbol} {slot : MapSlot} {key value : Int}
    (hs : t.symbols[i]? = some s) (hm : s.map = some slot) (hk : slot.keyAddr = some key)
    (hv : slot.valueAddr = some value) : mapRegions i t = (some (key, value), t) := by
  have hslot : { slot with keyAddr := some key, valueAddr := some value } = slot := by
    rw [← hk, ← hv]
  have hsame : t.modify i (fun x => { x with map := some slot }) = t :=
    Table.modify_eq_of_fixed hs (by rw [← hm])
  rw [mapRegions_run hs hm, hk, hv]
  change (some (key, value), t.modify i fun x =>
    { x with map := some { slot with keyAddr := some key, valueAddr := some value } }) = _
  rw [hslot, hsame]

theorem mapRegions_rests {name : Name} {i : Nat} {s : Symbol} (hn : t.Names name i s) :
    t.Places (mapRegions i t).2 ∧
      Rests (mapRegions i t).2 (mapRegions i) (mapRegions i t).1 := by
  cases hm : s.map with
  | none =>
    rw [mapRegions_of_none hn.symbol hm]
    refine ⟨.refl t, fun T hT => ?_⟩
    obtain ⟨s', hs', hp⟩ := hT.symbols i s hn.symbol
    exact mapRegions_of_none hs' (hp.map_none hm)
  | some slot =>
    rw [mapRegions_run hn.symbol hm]
    dsimp only
    set key := orReserve slot.keyAddr slot.keySize t with hkey
    set value := orReserve slot.valueAddr s.facts.size key.2 with hvalue
    have hreserved : t.Places value.2 :=
      (places_orReserve _ _ t).trans (places_orReserve _ _ _)
    have hs₂ : value.2.symbols[i]? = some s := by
      rw [hvalue, symbols_orReserve, hkey, symbols_orReserve]
      exact hn.symbol
    have hplaces : s.Places { s with
        map := some { slot with keyAddr := some key.1, valueAddr := some value.1 } } := by
      refine { Symbol.Places.refl s with isMap := by rw [hm]; rfl, slot := ?_ }
      rintro x hx _ ⟨⟩
      obtain rfl := Option.some.inj (hm.symm.trans hx)
      exact ⟨rfl, rfl, rfl, fun a ha => by rw [hkey, ha]; rfl, fun a ha => by rw [hvalue, ha]; rfl⟩
    refine ⟨hreserved.trans (.modify hs₂ hplaces), fun T hT => ?_⟩
    obtain ⟨s₁, hs₁, hp₁⟩ := hT.symbols i _ (Table.symbol_modify hs₂)
    obtain ⟨slot', hs', -, -, -, hk', hv'⟩ := hp₁.map_some rfl
    exact mapRegions_of_some hs₁ hs' (hk' _ rfl) (hv' _ rfl)

end Placement

namespace Node

open Placement

/-- Placing decides on the places of values, and not on their types and sizes. -/
structure SameShape (n n' : Node) : Prop where
  type : n'.facts.type = n.facts.type
  size : n'.facts.size = n.facts.size

structure Settled (n : Node) : Prop where
  alone : Settles (fun n => n.placement.alone) n
  into : ∀ addr, Settles (fun n => n.placement.into addr) n
  shape : ∀ t, n.SameShape (n.placement.alone t).1 ∧
    ∀ addr, n.SameShape (n.placement.into addr t).1

theorem Settled.of_fixed {n : Node} {place : Layout Node} (hn : n.placement = fixed place)
    (h : ∀ t, t.Places (place t).2 ∧ n.SameShape (place t).1 ∧
      ∃ again, (place t).1.placement = fixed again ∧ Rests (place t).2 again (place t).1) :
    n.Settled where
  alone t := by
    obtain ⟨hplaces, -, again, hagain, hrests⟩ := h t
    dsimp only
    rw [hn]
    refine ⟨hplaces, ?_⟩
    change Rests _ (place t).1.placement.alone _
    rw [hagain]
    exact hrests
  into addr t := by
    obtain ⟨hplaces, -, again, hagain, hrests⟩ := h t
    dsimp only
    rw [hn]
    refine ⟨hplaces, ?_⟩
    change Rests _ ((place t).1.placement.into addr) _
    rw [hagain]
    exact hrests
  shape t := by
    rw [hn]
    exact ⟨(h t).2.1, fun _ => (h t).2.1⟩

/-- A value that is built at an address has it afterwards, so that it asks for no other. -/
theorem Settled.of_built {n : Node} {into : Int → Layout Node} (hn : n.placement = built n into)
    (h : ∀ addr t, t.Places (into addr t).2 ∧ n.SameShape (into addr t).1 ∧
      (into addr t).1.facts.addr = some addr ∧ ∃ again,
        (into addr t).1.placement = built (into addr t).1 again ∧
        Rests (into addr t).2 (again addr) (into addr t).1) :
    n.Settled := by
  have hinto : ∀ addr t, Rests (into addr t).2 ((into addr t).1.placement.into addr)
      (into addr t).1 := by
    intro addr t
    obtain ⟨-, -, -, again, hagain, hrests⟩ := h addr t
    rw [hagain]
    exact hrests
  have halone : ∀ {m : Node} {again : Int → Layout Node} (t : Table), m.facts.addr.isSome = true →
      (built m again).alone t = (m, t) := by
    intro m again t hm
    unfold built
    dsimp only
    rw [if_pos hm]
    rfl
  have hreserve : n.facts.addr.isSome = false → ∀ t, (built n into).alone t =
      into (t.reserve n.facts.size).1 (t.reserve n.facts.size).2 := by
    intro hm t
    unfold built
    dsimp only
    rw [if_neg (by rw [hm]; decide)]
    rfl
  refine ⟨fun t => ?_, fun addr t => ?_, fun t => ?_⟩
  · dsimp only
    rw [hn]
    cases haddr : n.facts.addr.isSome with
    | true =>
      rw [halone t haddr]
      refine ⟨.refl t, fun T _ => ?_⟩
      rw [hn]
      exact halone T haddr
    | false =>
      rw [hreserve haddr]
      obtain ⟨hplaces, -, hset, again, hagain, -⟩ := h (t.reserve n.facts.size).1
        (t.reserve n.facts.size).2
      refine ⟨(t.places_reserve _).trans hplaces, fun T _ => ?_⟩
      rw [hagain]
      exact halone T (by rw [hset]; rfl)
  · dsimp only
    rw [hn]
    exact ⟨(h addr t).1, hinto addr t⟩
  · rw [hn]
    refine ⟨?_, fun addr => (h addr t).2.1⟩
    cases haddr : n.facts.addr.isSome with
    | true =>
      rw [halone t haddr]
      exact ⟨rfl, rfl⟩
    | false =>
      rw [hreserve haddr]
      exact (h _ _).2.1

theorem packInto_settles {ns : List Node} (hns : ∀ n ∈ ns, n.Settled) (addr : Int) :
    Settles (fun ns => packInto addr (placements ns)) ns := by
  induction ns generalizing addr with
  | nil => exact fun t => ⟨.refl t, .pure []⟩
  | cons n ns ih =>
    intro t
    have hn := hns n List.mem_cons_self
    obtain ⟨hplaces, hrests⟩ := hn.into addr t
    obtain ⟨hplaces', hrests'⟩ := ih (fun m hm => hns m (List.mem_cons_of_mem _ hm))
      (addr + frameSize n.facts.size) (n.placement.into addr t).2
    refine ⟨hplaces.trans hplaces', (hrests.mono hplaces').bind ?_⟩
    rw [((hn.shape t).2 addr).size]
    exact hrests'.bind (.pure _)

theorem allAlone_settles {ns : List Node} (hns : ∀ n ∈ ns, n.Settled) :
    Settles (fun ns => allAlone (placements ns)) ns := by
  induction ns with
  | nil => exact fun t => ⟨.refl t, .pure []⟩
  | cons n ns ih =>
    intro t
    obtain ⟨hplaces, hrests⟩ := (hns n List.mem_cons_self).alone t
    obtain ⟨hplaces', hrests'⟩ := ih (fun m hm => hns m (List.mem_cons_of_mem _ hm))
      (n.placement.alone t).2
    exact ⟨hplaces.trans hplaces', (hrests.mono hplaces').bind (hrests'.bind (.pure _))⟩

theorem map_fst_placements (ns : List Node) : (placements ns).map Prod.fst = ns := by
  induction ns with
  | nil => rfl
  | cons n ns ih => rw [placements, List.map_cons, ih]

theorem mapAccess_of_unknown {t : Table} {map : Name} (hl : t.lookup map = none) (tag : Tag)
    (keys : List Node) (write : Bool) :
    Placement.mapAccess tag map (placements keys) write t = (.mapAccess tag map keys, t) := by
  rw [Placement.mapAccess, map_fst_placements, Run.state_get_bind, hl]
  rfl

theorem mapAccess_of_variable {t : Table} {map : Name} {i : Nat} {s : Symbol}
    (hn : t.Names map i s) (hm : s.map = none) (tag : Tag) (keys : List Node) (write : Bool) :
    Placement.mapAccess tag map (placements keys) write t = (.mapAccess tag map keys, t) := by
  rw [Placement.mapAccess, map_fst_placements, Run.state_get_bind, hn.lookup]
  dsimp only
  rw [Run.state_bind, mapRegions_of_none hn.symbol hm]
  rfl

/-- An access to a map finds the map's regions, its descriptor and the place of its own value, and
its keys are packed where they were. -/
theorem mapAccess_rests {keys : List Node} (hkeys : ∀ k ∈ keys, k.Settled) (tag : Tag)
    (map : Name) (write : Bool) (t : Table) :
    ∃ tag' keys', (Placement.mapAccess tag map (placements keys) write t).1 =
        .mapAccess tag' map keys' ∧
      tag'.facts.type = tag.facts.type ∧ tag'.facts.size = tag.facts.size ∧
      t.Places (Placement.mapAccess tag map (placements keys) write t).2 ∧
      Rests (Placement.mapAccess tag map (placements keys) write t).2
        (Placement.mapAccess tag' map (placements keys') write) (.mapAccess tag' map keys') := by
  cases hl : t.lookup map with
  | none =>
    rw [mapAccess_of_unknown hl]
    exact ⟨tag, keys, rfl, rfl, rfl, .refl t, fun T hT =>
      mapAccess_of_unknown ((hT.lookup map).trans hl) ..⟩
  | some i =>
    have hn := Table.names_of_lookup hl
    cases hm : (t.symbols.getD i default).map with
    | none =>
      rw [mapAccess_of_variable hn hm]
      refine ⟨tag, keys, rfl, rfl, rfl, .refl t, fun T hT => ?_⟩
      obtain ⟨s', hn', hp⟩ := hT.names hn
      exact mapAccess_of_variable hn' (hp.map_none hm) ..
    | some slot =>
      obtain ⟨hplaces, hrests⟩ := mapRegions_rests hn
      obtain ⟨⟨key, value⟩, hr⟩ : ∃ r, (mapRegions i t).1 = some r := by
        rw [mapRegions_run hn.symbol hm]
        exact ⟨_, rfl⟩
      obtain ⟨hplaces₂, hrests₂⟩ := packInto_settles hkeys key (mapRegions i t).2
      rw [mapAccess_run hl hr]
      rw [hr] at hrests
      dsimp only at hplaces₂ hrests₂ ⊢
      set packed := packInto key (placements keys) (mapRegions i t).2
      set addr := (if write || tag.facts.isInt then pure value
        else orReserve tag.facts.addr tag.facts.size : Layout Int) packed.2 with haddr
      have hplaces₃ : packed.2.Places addr.2 := by
        rw [haddr]
        split
        · exact .refl _
        · exact places_orReserve ..
      refine ⟨_, packed.1, rfl, rfl, rfl, hplaces.trans (hplaces₂.trans hplaces₃), ?_⟩
      intro T hT
      have hregions := hrests T (hplaces₂.trans (hplaces₃.trans hT))
      have hkeys' := hrests₂ T (hplaces₃.trans hT)
      have hplacesT := hplaces.trans (hplaces₂.trans (hplaces₃.trans hT))
      have hid : (T.symbols.getD i default).map.bind MapSlot.id =
          (packed.2.symbols.getD i default).map.bind MapSlot.id := by
        obtain ⟨s', hn', -⟩ := (hplaces.trans hplaces₂).names hn
        exact (hplaces₃.trans hT).mapId hn'
      have haddr' : (if write || tag.facts.isInt then pure value
          else orReserve (some addr.1) tag.facts.size : Layout Int) T = (addr.1, T) := by
        rw [haddr]
        split <;> rfl
      rw [mapAccess_run ((hplacesT.lookup map).trans hl) (by rw [hregions])]
      dsimp only
      rw [hregions, hkeys', hid]
      exact congrArg (fun a : Int × Table => (Node.mapAccess { tag with facts := { tag.facts with
        storage := .stack, addr := some a.1, map := _ } } map packed.1, a.2)) haddr'

theorem Settled.of_call {tag : Tag} {function : Name} {args : List Node} {b : Builtin}
    (hb : Builtin.ofName? function = some b) (hcomm : b ≠ .comm) (hout : b ≠ .out)
    (hint : tag.facts.isInt = true) (hargs : ∀ n ∈ args, n.Settled) :
    (Node.call tag function args).Settled := by
  refine .of_fixed (call_placement hb hcomm hout hint) fun t => ?_
  obtain ⟨hplaces, hrests⟩ := allAlone_settles hargs t
  exact ⟨hplaces, ⟨rfl, rfl⟩, _, call_placement hb hcomm hout hint, hrests.bind (.pure _)⟩

theorem placement_int (tag : Tag) (value : Int64) :
    (int tag value).placement = fixed (return .int (stored tag .register) value) := by
  rw [placement]

theorem placement_text (tag : Tag) (value : String) : (text tag value).placement =
    built (.text tag value) fun addr => return .text (stacked tag addr) value := by
  rw [placement]

theorem placement_var (tag : Tag) (name : Name) : (var tag name).placement = fixed do
    let addr ← variableAddr name
    return .var { tag with facts := { tag.facts with storage := .stack, addr } } name := by
  rw [placement]

theorem placement_binary (tag : Tag) (op : BinaryOp) (lhs rhs : Node) :
    (binary tag op lhs rhs).placement = fixed do
      let lhs ← lhs.placement.alone
      let rhs ← rhs.placement.alone
      return .binary (stored tag .register) op lhs rhs := by
  rw [placement]

theorem placement_comm {function : Name} (hb : Builtin.ofName? function = some .comm) (tag : Tag)
    (args : List Node) : (call tag function args).placement =
      built (.call tag function args) fun addr => return .call (stacked tag addr) function args := by
  rw [placement, hb]

theorem settled_int (tag : Tag) (value : Int64) : (int tag value).Settled :=
  .of_fixed (placement_int ..) fun t =>
    ⟨.refl t, ⟨rfl, rfl⟩, _, placement_int .., .pure _⟩

theorem settled_of_typed {t₀ : Table} {n : Node} (h : Typed t₀ n) : n.Settled := by
  induction h with
  | int _ => exact settled_int ..
  | text _ =>
    exact .of_built (placement_text ..) fun addr t =>
      ⟨.refl t, ⟨rfl, rfl⟩, rfl, _, placement_text .., .pure _⟩
  | @var tag name _ _ _ _ _ _ _ =>
    refine .of_fixed (placement_var ..) fun t => ?_
    obtain ⟨hplaces, hrests⟩ := variableAddr_rests name t
    exact ⟨hplaces, ⟨rfl, rfl⟩, _, placement_var .., hrests.bind (.pure _)⟩
  | @mapAccess tag map _ _ _ _ _ _ _ _ _ _ _ _ _ ih =>
    refine .of_fixed (by rw [placement]) fun t => ?_
    obtain ⟨tag', keys', hres, htype, hsize, hplaces, hrests⟩ := mapAccess_rests ih tag map false t
    rw [hres]
    exact ⟨hplaces, ⟨htype, hsize⟩, _, by rw [placement], hrests⟩
  | binary _ _ _ _ _ ihl ihr =>
    refine .of_fixed (placement_binary ..) fun t => ?_
    obtain ⟨hplaces, hrests⟩ := ihl.alone t
    obtain ⟨hplaces', hrests'⟩ := ihr.alone _
    exact ⟨hplaces.trans hplaces', ⟨rfl, rfl⟩, _, placement_binary ..,
      (hrests.mono hplaces').bind (hrests'.bind (.pure _))⟩
  | query hb hmem hf =>
    exact .of_call hb (by rintro rfl; simp at hmem) (by rintro rfl; simp at hmem)
      (by rw [hf]; rfl) nofun
  | arg hb _ _ hi hf =>
    refine .of_call hb nofun nofun (by rw [hf]; rfl) fun n hn => ?_
    obtain rfl := List.mem_singleton.1 hn
    exact settled_int ..
  | comm hb _ =>
    exact .of_built (placement_comm hb ..) fun addr t =>
      ⟨.refl t, ⟨rfl, rfl⟩, rfl, _, placement_comm hb .., .pure _⟩
  | strcmp hb _ _ _ _ hf ihl ihr =>
    refine .of_call hb nofun nofun (by rw [hf]; rfl) fun n hn => ?_
    rcases List.mem_pair.1 hn with rfl | rfl
    · exact ihl
    · exact ihr

theorem placeTarget_rests {t₀ : Table} {sh : Shape} {s : Symbol} {target : Node}
    (h : TypedTarget t₀ sh s target) (t : Table) :
    t.Places (placeTarget target t).2 ∧
      Rests (placeTarget target t).2 (placeTarget (placeTarget target t).1.1)
        (placeTarget target t).1 := by
  cases h with
  | @var tag name _ _ _ _ =>
    obtain ⟨hplaces, hrests⟩ := variableAddr_rests name t
    rw [placeTarget_var]
    refine ⟨hplaces, fun T hT => ?_⟩
    rw [placeTarget_var, hrests T hT]
    cases (variableAddr name t).1 <;> rfl
  | @mapAccess tag map keys _ _ _ _ _ _ hkeys _ _ =>
    obtain ⟨tag', keys', hres, -, -, hplaces, hrests⟩ :=
      mapAccess_rests (fun k hk => settled_of_typed (hkeys k hk)) tag map true t
    rw [placeTarget_mapAccess, hres]
    exact ⟨hplaces, hrests.bind (.pure _)⟩

theorem placeValue_settles {n : Node} (h : n.Settled) (addr : Option Int) :
    Settles (fun n => placeValue n addr) n := by
  cases addr with
  | none => exact h.alone
  | some addr =>
    intro t
    obtain ⟨halone, hinto⟩ := h.shape t
    dsimp only [placeValue]
    by_cases hint : n.facts.isInt = true
    · have hint' : (n.placement.alone t).1.facts.isInt = true := by
        rw [Facts.isInt, halone.type]
        exact hint
      rw [if_pos hint, if_pos hint']
      exact h.alone t
    · have hint' : ¬(n.placement.into addr t).1.facts.isInt = true := by
        rw [Facts.isInt, (hinto addr).type]
        exact hint
      rw [if_neg hint, if_neg hint']
      exact h.into addr t

theorem placeStatements_settles {ns : List Node} (hns : ∀ n ∈ ns, Settles placeStatement n) :
    Settles placeStatements ns := by
  induction ns with
  | nil => exact fun t => ⟨.refl t, .pure []⟩
  | cons n ns ih =>
    intro t
    obtain ⟨hplaces, hrests⟩ := hns n List.mem_cons_self t
    obtain ⟨hplaces', hrests'⟩ := ih (fun m hm => hns m (List.mem_cons_of_mem _ hm))
      (placeStatement n t).2
    exact ⟨hplaces.trans hplaces', (hrests.mono hplaces').bind (hrests'.bind (.pure _))⟩

theorem alone_call (tag : Tag) (function : Name) (args : List Node) (t : Table) :
    ∃ tag' args', ((call tag function args).placement.alone t).1 = .call tag' function args' := by
  rw [placement]
  split
  · unfold built
    dsimp only
    split <;> exact ⟨_, _, rfl⟩
  · rcases args with _ | ⟨_, _ | ⟨_, _⟩⟩ <;> exact ⟨_, _, rfl⟩
  · exact ⟨_, _, rfl⟩

theorem placeStatement_output {function : Name} (hb : Builtin.ofName? function = some .out)
    (tag formatTag recordTag : Tag) (format : String) (members : List Node) :
    placeStatement (.call tag function [.text formatTag format, .record recordTag members]) = do
      let addr ← orReserve recordTag.facts.addr recordTag.facts.size
      let values ← packInto addr (placements members)
      return .call tag function
        [.text formatTag format, .record (stacked recordTag addr) values] := by
  rw [placeStatement_call, placement, hb]
  simp only [placements, placement, Placement.output, facts, Node.tag]
  rfl

theorem settles_of_typedStatement {t₀ : Table} {n : Node} (h : TypedStatement t₀ n) :
    Settles placeStatement n := by
  induction h with
  | declaration htarget _ _ hv _ =>
    intro t
    obtain ⟨hplaces, hrests⟩ := placeTarget_rests htarget t
    obtain ⟨hplaces', hrests'⟩ := placeValue_settles (settled_of_typed hv) _ (placeTarget _ t).2
    rw [placeStatement]
    refine ⟨hplaces.trans hplaces', ?_⟩
    change Rests _ (placeStatement (.declaration _ _ _)) _
    rw [placeStatement]
    exact (hrests.mono hplaces').bind (hrests'.bind (.pure _))
  | assignment htarget _ hv _ =>
    intro t
    obtain ⟨hplaces, hrests⟩ := placeTarget_rests htarget t
    obtain ⟨hplaces', hrests'⟩ := placeValue_settles (settled_of_typed hv) _ (placeTarget _ t).2
    rw [placeStatement]
    refine ⟨hplaces.trans hplaces', ?_⟩
    change Rests _ (placeStatement (.assignment _ _ _ _)) _
    rw [placeStatement]
    exact (hrests.mono hplaces').bind (hrests'.bind (.pure _))
  | cond hc _ _ _ ihy ihn =>
    intro t
    obtain ⟨hplaces, hrests⟩ := (settled_of_typed hc).alone t
    obtain ⟨hplaces₁, hrests₁⟩ := placeStatements_settles ihy _
    obtain ⟨hplaces₂, hrests₂⟩ := placeStatements_settles ihn _
    rw [placeStatement]
    refine ⟨hplaces.trans (hplaces₁.trans hplaces₂), ?_⟩
    change Rests _ (placeStatement (.cond _ _ _ _)) _
    rw [placeStatement]
    exact (hrests.mono (hplaces₁.trans hplaces₂)).bind
      ((hrests₁.mono hplaces₂).bind (hrests₂.bind (.pure _)))
  | unroll _ ih =>
    intro t
    obtain ⟨hplaces, hrests⟩ := placeStatements_settles ih t
    rw [placeStatement]
    refine ⟨hplaces, ?_⟩
    change Rests _ (placeStatement (.unroll _ _ _)) _
    rw [placeStatement]
    exact hrests.bind (.pure _)
  | @call tag function args hc =>
    intro t
    obtain ⟨hplaces, hrests⟩ := (settled_of_typed hc).alone t
    obtain ⟨tag', args', hres⟩ := alone_call tag function args t
    dsimp only at hplaces hrests
    rw [placeStatement_call]
    rw [hres] at hrests ⊢
    rw [placeStatement_call]
    exact ⟨hplaces, hrests⟩
  | @out tag formatTag recordTag function format members _ hb _ _ _ _ hm _ _ =>
    intro t
    obtain ⟨hplaces, hrests⟩ := packInto_settles (fun m hmem => settled_of_typed (hm m hmem))
      (orReserve recordTag.facts.addr recordTag.facts.size t).1
      (orReserve recordTag.facts.addr recordTag.facts.size t).2
    rw [placeStatement_output hb]
    refine ⟨(places_orReserve ..).trans hplaces, ?_⟩
    change Rests _ (placeStatement (.call _ _ [_, .record _ _])) _
    rw [placeStatement_output hb]
    exact (Rests.pure _).bind (hrests.bind (.pure _))

end Node

namespace Probe

theorem settles_of_typed {t₀ : Table} {p : Probe} (hp : ∀ n ∈ p.body, TypedStatement t₀ n) :
    Placement.Settles place p := by
  intro t
  obtain ⟨hplaces, hrests⟩ :=
    Node.placeStatements_settles (fun n hn => Node.settles_of_typedStatement (hp n hn)) t
  exact ⟨hplaces, hrests.bind (.pure _)⟩

/-- Whatever the table, with or without the descriptors of the maps, placing a typed probe only adds
addresses to it, and placing the result once more changes neither the probe nor the table. -/
theorem place_again {source : Source} {probes : List Probe} {p typed : Probe} {s : Typing}
    (hparse : parseScript source = .ok probes) (hp : p ∈ probes)
    (h : p.annotate {} = .ok typed s) (t : Table) :
    t.Places (typed.place t).2 ∧ (typed.place t).1.place (typed.place t).2 = typed.place t := by
  obtain ⟨-, -, hbody⟩ := annotate_typed (parseScript_statements hparse p hp) h
  obtain ⟨hplaces, hrests⟩ := settles_of_typed hbody t
  exact ⟨hplaces, hrests _ (.refl _)⟩

/-- A map of strings whose entries are read as a value and as a member of a record. -/
def greeting : Source where
  name := "greeting"
  lines := ["probe p \x7b m[comm()] = \"hello\"; s = m[comm()]; ",
    "out(\"%s %d\", m[comm()], strcmp(s, \"hi\")); \x7d"]

theorem greeting_placed_again : ∃ probes p typed s, parseScript greeting = .ok probes ∧
    p ∈ probes ∧ p.annotate {} = .ok typed s ∧
      let t := s.table.modify 0 fun m => { m with map := m.map.map ({ · with id := some ⟨3⟩ }) }
      (typed.place t).2.frame.usage = 72 ∧
        (typed.place t).1.place (typed.place t).2 = typed.place t := by
  have htyped : ∃ probes p typed s, parseScript greeting = .ok probes ∧ p ∈ probes ∧
      p.annotate {} = .ok typed s ∧ (typed.place (s.table.modify 0 fun m =>
        { m with map := m.map.map ({ · with id := some ⟨3⟩ }) })).2.frame.usage = 72 := by
    refine ⟨?_, ?_, ?_, ?_, ?_, ?_, ?_, ?_⟩
    rotate_left 4
    · conv => lhs; cbv
    · exact List.mem_cons_self
    · conv => lhs; cbv
    · decide +kernel
  obtain ⟨probes, p, typed, s, hparse, hp, h, husage⟩ := htyped
  exact ⟨probes, p, typed, s, hparse, hp, h, husage, (place_again hparse hp h _).2⟩

end Probe

end TraceScript
