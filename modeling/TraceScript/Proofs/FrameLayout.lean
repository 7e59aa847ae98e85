import Mathlib
import TraceScript.Kernel.DryRun
import TraceScript.Proofs.Allocated
import TraceScript.Proofs.Prepared

namespace TraceScript

open Placement

namespace Node

/-- A string or a process name that is wanted at an address is built there. -/
def BuiltAt (addr : Int) : Node → Prop
  | .text tag _ => tag.facts.addr = some addr
  | .call tag function _ => Builtin.ofName? function = some .comm → tag.facts.addr = some addr
  | _ => True

/-- Values that are wanted one after another, each where the one before it ends. -/
def BuiltFrom (addr : Int) : List Node → Prop
  | [] => True
  | n :: ns => n.BuiltAt addr ∧ BuiltFrom (addr + n.packedSize) ns

/-- A node that names a variable has the address of the variable's slot. -/
def AtVariable (t : Table) (tag : Tag) (name : Name) : Prop :=
  ∃ s addr, t.find? name = some s ∧ s.map = none ∧ s.addr = some addr ∧ tag.facts.addr = some addr

/-- The parts of a key fill the map's region for keys. -/
def KeysAt (t : Table) (map : Name) (keys : List Node) (value : Int) : Prop :=
  ∃ s slot key, t.find? map = some s ∧ s.map = some slot ∧ slot.keyAddr = some key ∧
    slot.valueAddr = some value ∧ BuiltFrom key keys ∧ Annotate.packedSize keys = slot.keySize

mutual

/-- A placed expression. -/
def Located (t : Table) : Node → Prop
  | .var tag name => AtVariable t tag name
  | .mapAccess tag map keys =>
    (∃ value, KeysAt t map keys value ∧ (tag.facts.isInt = true → tag.facts.addr = some value)) ∧
      LocatedAll t keys
  | .binary _ _ lhs rhs => Located t lhs ∧ Located t rhs
  | .call _ _ args => LocatedAll t args
  | .record tag members =>
    (∃ addr, tag.facts.addr = some addr ∧ BuiltFrom addr members ∧
      Annotate.packedSize members ≤ tag.facts.size) ∧ LocatedAll t members
  | _ => True

def LocatedAll (t : Table) : List Node → Prop
  | [] => True
  | n :: ns => Located t n ∧ LocatedAll t ns

end

/-- What a statement writes to, and the address of its value. -/
def LocatedTarget (t : Table) (addr : Int) : Node → Prop
  | .var tag name => AtVariable t tag name ∧ tag.facts.addr = some addr
  | .mapAccess tag map keys =>
    KeysAt t map keys addr ∧ tag.facts.addr = some addr ∧ LocatedAll t keys
  | _ => False

mutual

/-- A placed statement. A value that is not an integer is built where it is kept. -/
def LocatedStatement (t : Table) : Node → Prop
  | .declaration _ target value | .assignment _ _ target value =>
    ∃ addr, target.LocatedTarget t addr ∧ value.Located t ∧ value.BuiltAt addr
  | .cond _ condition yes no => condition.Located t ∧ LocatedBody t yes ∧ LocatedBody t no
  | .unroll _ _ body => LocatedBody t body
  | n => n.Located t

def LocatedBody (t : Table) : List Node → Prop
  | [] => True
  | n :: ns => LocatedStatement t n ∧ LocatedBody t ns

end

end Node

/-- The regions of the symbols are smaller than the range of an address. -/
def Table.Small (t : Table) : Prop := ∀ r ∈ t.regions, r.size < 2 ^ 31

theorem Table.MapAt.key_lt {t : Table} {name : Name} {s : Symbol} {m : Flow.MapRef}
    (h : t.MapAt name s m) (ht : t.Small) : m.keySize < 2 ^ 31 := by
  obtain ⟨i, hn⟩ := h.names
  obtain ⟨slot, hs, -, hk, -, hsize⟩ := h.slot
  refine hsize ▸ ht ⟨m.key, slot.keySize⟩ (List.mem_flatMap.2 ⟨s, ?_, ?_⟩)
  · exact Array.mem_toList_iff.2 (Array.mem_of_getElem? hn.symbol)
  · rw [Symbol.regions, hs]
    dsimp only
    rw [hk]
    exact List.mem_cons_self

theorem frameSize_of_packed {n : Node} (h : n.packedSize < 2 ^ 31) :
    frameSize n.facts.size = n.packedSize :=
  frameSize_of_align8 h

namespace Placement

/-- An expression is located in every table that comes after the one in which it was placed. -/
def Locates (t₀ : Table) (place : Layout Node) : Prop :=
  ∀ t, t₀.Places t → ∀ T, (place t).2.Places T → T.Small → (place t).1.Located T

/-- It is also built at an address. -/
def LocatesAt (t₀ : Table) (addr : Int) (place : Layout Node) : Prop :=
  Locates t₀ place ∧ ∀ t, t₀.Places t → (place t).1.BuiltAt addr

theorem packInto_located {t₀ : Table} {ns : List Node}
    (hlays : ∀ n ∈ ns, ∀ addr, Lays t₀ false n (n.placement.into addr))
    (hns : ∀ n ∈ ns, ∀ addr, LocatesAt t₀ addr (n.placement.into addr)) (addr : Int) {t : Table}
    (ht : t₀.Places t) (hsize : Annotate.packedSize ns < 2 ^ 31) :
    let packed := packInto addr (Node.placements ns) t
    Node.BuiltFrom addr packed.1 ∧ Annotate.packedSize packed.1 = Annotate.packedSize ns ∧
      ∀ T, packed.2.Places T → T.Small → Node.LocatedAll T packed.1 := by
  induction ns generalizing addr t with
  | nil => exact ⟨trivial, rfl, fun _ _ _ => trivial⟩
  | cons n ns ih =>
    have hcons : Annotate.packedSize (n :: ns) = n.packedSize + Annotate.packedSize ns := rfl
    obtain ⟨rs, hstep, hplaced⟩ := hlays n List.mem_cons_self addr t ht
    obtain ⟨hlocated, hbuilt⟩ := hns n List.mem_cons_self addr
    have hplaces := ht.trans hstep.places
    have hrest := ih (fun n hn => hlays n (List.mem_cons_of_mem _ hn))
      (fun n hn => hns n (List.mem_cons_of_mem _ hn)) (addr + frameSize n.facts.size) hplaces
      (by omega)
    obtain ⟨_, -, -, hsteps, -⟩ := packInto_places
      (fun n hn => hlays n (List.mem_cons_of_mem _ hn)) (addr + frameSize n.facts.size) hplaces
    have hpacked : (n.placement.into addr t).1.packedSize = n.packedSize := by
      rw [Node.packedSize, Node.packedSize, (hplaced _ (.refl _)).size_eq]
    obtain ⟨hfrom, hsum, hall⟩ := hrest
    refine ⟨⟨hbuilt t ht, ?_⟩, ?_, fun T hT hsmall => ⟨?_, hall T hT hsmall⟩⟩
    · rw [hpacked, ← frameSize_of_packed (by omega)]
      exact hfrom
    · exact hcons ▸ hpacked ▸ congrArg _ hsum
    · exact hlocated t ht T (hsteps.places.trans hT) hsmall

theorem fixed_locates {t₀ : Table} {place : Layout Node} (h : Locates t₀ place)
    (hbuilt : ∀ t, t₀.Places t → ∀ addr, (place t).1.BuiltAt addr) :
    Locates t₀ (fixed place).alone ∧ ∀ addr, LocatesAt t₀ addr ((fixed place).into addr) :=
  ⟨h, fun addr => ⟨h, fun t ht => hbuilt t ht addr⟩⟩

theorem built_locates {t₀ : Table} {n : Node} {place : Int → Node} (haddr : n.facts.addr = none)
    (hlocated : ∀ T addr, (place addr).Located T) (hbuilt : ∀ addr, (place addr).BuiltAt addr) :
    Locates t₀ (built n fun addr => return place addr).alone ∧
      ∀ addr, LocatesAt t₀ addr ((built n fun addr => return place addr).into addr) := by
  refine ⟨fun t _ T _ _ => ?_, fun addr => ⟨fun t _ T _ _ => hlocated T addr, fun _ _ => hbuilt addr⟩⟩
  have hrun : (built n fun addr => return place addr).alone t =
      (place (t.reserve n.facts.size).1, (t.reserve n.facts.size).2) := by
    unfold built
    dsimp only
    rw [haddr]
    rfl
  rw [hrun]
  exact hlocated T _

theorem mapAccess_located {t₀ : Table} (hready : t₀.Ready) {tag : Tag} {map : Name}
    {keys : List Node} {i : Nat} {s : Symbol} {slot : MapSlot} {write : Bool}
    (hn : t₀.Names map i s) (hm : s.map = some slot)
    (hlays : ∀ n ∈ keys, ∀ addr, Lays t₀ false n (n.placement.into addr))
    (hkeys : ∀ n ∈ keys, ∀ addr, LocatesAt t₀ addr (n.placement.into addr))
    (hsize : slot.keySize = Annotate.packedSize keys) {t : Table} (ht : t₀.Places t) {T : Table}
    (hT : (mapAccess tag map (Node.placements keys) write t).2.Places T) (hsmall : T.Small) :
    ∃ tag' keys' value, (mapAccess tag map (Node.placements keys) write t).1 =
        .mapAccess tag' map keys' ∧ Node.KeysAt T map keys' value ∧ Node.LocatedAll T keys' ∧
      tag'.facts.isInt = tag.facts.isInt ∧
      ((write || tag.facts.isInt) = true → tag'.facts.addr = some value) := by
  obtain ⟨s₁, hn₁, hps⟩ := ht.names hn
  obtain ⟨slot₁, hm₁, hk₁, -⟩ := hps.map_some hm
  obtain ⟨m, hr, hstep, hksize, s₂, hat, -⟩ := mapRegions_places (hready.places ht) hn₁ hm₁
  rw [mapAccess_run hn₁.lookup hr] at hT ⊢
  dsimp only at hT ⊢
  have hplaces := ht.trans hstep.places
  obtain ⟨_, -, -, hpsteps, -⟩ := packInto_places hlays m.key hplaces
  set packed := packInto m.key (Node.placements keys) (mapRegions i t).2 with hpacked
  set last := (if (write || tag.facts.isInt) = true then pure m.value
    else orReserve tag.facts.addr tag.facts.size : Layout Int) packed.2 with hlast
  have hlastPlaces : packed.2.Places last.2 := by
    rw [hlast]
    split
    · exact .refl _
    · cases tag.facts.addr with
      | some a => exact .refl _
      | none => exact { Table.Places.refl packed.2 with }
  have hT' := hlastPlaces.trans hT
  obtain ⟨s₃, hat₃, -⟩ := hat.places (hpsteps.places.trans hT')
  obtain ⟨j, hn₃⟩ := hat₃.names
  obtain ⟨slot₃, hs₃, -, hkey, hvalue, hk₃⟩ := hat₃.slot
  have hlt := hat₃.key_lt hsmall
  have hsum : m.keySize = Annotate.packedSize keys := hksize.trans (hk₁.trans hsize)
  obtain ⟨hfrom, hpackedSize, hall⟩ := packInto_located hlays hkeys m.key hplaces (hsum ▸ hlt)
  refine ⟨_, packed.1, m.value, rfl, ⟨s₃, slot₃, m.key, hn₃.find, hs₃, hkey, hvalue, hfrom, ?_⟩,
    hall T hT' hsmall, rfl, fun hw => ?_⟩
  · rw [hk₃, hsum]
    exact hpackedSize
  · rw [hlast, if_pos hw]
    rfl

theorem mapAccess_node {t₀ : Table} (hready : t₀.Ready) {tag : Tag} {map : Name}
    {keys : List (Node × Placement)} {i : Nat} {s : Symbol} {slot : MapSlot} {write : Bool}
    (hn : t₀.Names map i s) (hm : s.map = some slot) {t : Table} (ht : t₀.Places t) :
    ∃ tag' keys', (mapAccess tag map keys write t).1 = .mapAccess tag' map keys' := by
  obtain ⟨s₁, hn₁, hps⟩ := ht.names hn
  obtain ⟨slot₁, hm₁, -⟩ := hps.map_some hm
  obtain ⟨m, hr, -⟩ := mapRegions_places (hready.places ht) hn₁ hm₁
  rw [mapAccess_run hn₁.lookup hr]
  exact ⟨_, _, rfl⟩

theorem locates_of_typed {t₀ : Table} (hready : t₀.Ready) {n : Node} (h : Typed t₀ n) :
    Locates t₀ n.placement.alone ∧ ∀ addr, LocatesAt t₀ addr (n.placement.into addr) := by
  induction h with
  | int hf =>
    rw [Node.placement]
    exact fixed_locates (fun _ _ _ _ _ => trivial) fun _ _ _ => trivial
  | text hf =>
    rw [Node.placement]
    refine built_locates ?_ (fun _ _ => trivial) fun _ => rfl
    rw [Node.facts, Node.tag, hf]
    rfl
  | var hn hm hs hf =>
    rw [Node.placement]
    refine fixed_locates (fun t ht T hT _ => ?_) fun _ _ _ => trivial
    obtain ⟨s', hn', hps⟩ := ht.names hn
    obtain ⟨addr, hres, hstep, hat⟩ := variableAddr_places (hready.places ht) hn'
      (hps.map_none hm) (by rw [hps.facts]; exact hs)
    obtain ⟨s'', hn'', hm'', -, ha''⟩ := hat.places hT
    exact ⟨s'', addr, hn''.find, hm'', ha'', hres⟩
  | mapAccess hn hm hk hne hkeys hsize hsh hf ih =>
    rw [Node.placement]
    have hlays := fun k hk => (lays_of_typed hready (hkeys k hk)).2
    refine fixed_locates (fun t ht T hT hsmall => ?_) fun t ht addr => ?_
    · obtain ⟨tag', keys', value, hres, hat, hall, hint, haddr⟩ := mapAccess_located hready hn hm
        hlays (fun k hk => (ih k hk).2) hsize ht hT hsmall
      rw [hres]
      refine ⟨⟨value, hat, fun hi => haddr ?_⟩, hall⟩
      rw [← hint, hi, Bool.or_true]
    · obtain ⟨tag', keys', hres⟩ := mapAccess_node hready hn hm ht
      rw [hres]
      trivial
  | binary hlhs hrhs hl hr hf ihl ihr =>
    rw [Node.placement]
    refine fixed_locates (fun t ht T hT hsmall => ?_) fun _ _ _ => trivial
    obtain ⟨_, hstep, -⟩ := (lays_of_typed hready hlhs).1 t ht
    obtain ⟨_, hstep', -⟩ := (lays_of_typed hready hrhs).1 _ (ht.trans hstep.places)
    exact ⟨ihl.1 t ht T (hstep'.places.trans hT) hsmall,
      ihr.1 _ (ht.trans hstep.places) T hT hsmall⟩
  | query hb hmem hf =>
    rw [call_placement hb (by rintro rfl; simp at hmem) (by rintro rfl; simp at hmem)
      (by rw [hf]; rfl)]
    refine fixed_locates (fun _ _ _ _ _ => trivial) fun _ _ _ hcomm => ?_
    rw [hb] at hcomm
    obtain rfl := Option.some.inj hcomm
    simp at hmem
  | arg hb h0 h6 hi hf =>
    rw [call_placement hb (by decide) (by decide) (by rw [hf]; rfl)]
    refine fixed_locates (fun _ _ _ _ _ => ⟨trivial, trivial⟩) fun _ _ _ hcomm => ?_
    rw [hb] at hcomm
    cases hcomm
  | comm hb hf =>
    rw [Node.placement, hb]
    refine built_locates ?_ (fun _ _ => trivial) fun _ _ => rfl
    rw [Node.facts, Node.tag, hf]
    rfl
  | strcmp hb hlhs hrhs hl hr hf ihl ihr =>
    rw [call_placement hb (by decide) (by decide) (by rw [hf]; rfl)]
    refine fixed_locates (fun t ht T hT hsmall => ?_) fun _ _ _ hcomm => ?_
    · obtain ⟨_, hstep, -⟩ := (lays_of_typed hready hlhs).1 t ht
      obtain ⟨_, hstep', -⟩ := (lays_of_typed hready hrhs).1 _ (ht.trans hstep.places)
      exact ⟨ihl.1 t ht T (hstep'.places.trans hT) hsmall,
        ihr.1 _ (ht.trans hstep.places) T hT hsmall, trivial⟩
    · rw [hb] at hcomm
      cases hcomm

end Placement

namespace Node

/-- The regions of a placed statement are smaller than the range of an address. -/
def SmallRegions (n : Node) : Prop := ∀ r ∈ n.statementRegions, r.size < 2 ^ 31

def LocatesStatement (t₀ : Table) (place : Layout Node) : Prop :=
  ∀ t, t₀.Places t → ∀ T, (place t).2.Places T → T.Small → (place t).1.SmallRegions →
    (place t).1.LocatedStatement T

theorem placeTarget_located {t₀ : Table} (hready : t₀.Ready) {sh : Shape} {s : Symbol}
    {target : Node} (h : TypedTarget t₀ sh s target) {t : Table} (ht : t₀.Places t) {T : Table}
    (hT : (placeTarget target t).2.Places T) (hsmall : T.Small) :
    ∃ addr, (placeTarget target t).1.2 = some addr ∧
      (placeTarget target t).1.1.LocatedTarget T addr := by
  cases h with
  | @var tag name i hn hm hf =>
    obtain ⟨s₁, hn₁, hps⟩ := ht.names hn
    obtain ⟨sh', hsh', -⟩ := (hready.names hn).shape
    obtain ⟨addr, hres, hstep, hat⟩ := variableAddr_places (hready.places ht) hn₁
      (hps.map_none hm) (by rw [hps.facts]; exact hsh')
    rw [placeTarget_var, hres] at hT ⊢
    obtain ⟨s', hn', hm', -, ha'⟩ := hat.places hT
    exact ⟨addr, rfl, ⟨s', addr, hn'.find, hm', ha', rfl⟩, rfl⟩
  | @mapAccess tag map keys i slot hn hm hk hne hkeys hsize hf =>
    rw [placeTarget_mapAccess] at hT ⊢
    obtain ⟨tag', keys', value, hres, hat, hall, -, haddr⟩ := mapAccess_located hready hn hm
      (fun k hk => (lays_of_typed hready (hkeys k hk)).2)
      (fun k hk => (locates_of_typed hready (hkeys k hk)).2) hsize ht hT hsmall
    rw [hres]
    exact ⟨value, haddr rfl, hat, haddr rfl, hall⟩

theorem placeValue_eq {t₀ : Table} {n : Node} (h : Typed t₀ n) (addr : Int) :
    placeValue n (some addr) = n.placement.into addr := by
  rw [placeValue]
  split
  · rename_i hint
    cases h with
    | text hf =>
      rw [facts, Node.tag, hf] at hint
      cases hint
    | comm hb hf =>
      rw [facts, Node.tag, hf] at hint
      cases hint
    | query hb hmem hf =>
      rw [call_placement hb (by rintro rfl; simp at hmem) (by rintro rfl; simp at hmem)
        (by rw [hf]; rfl)]
      rfl
    | arg hb _ _ _ hf =>
      rw [call_placement hb (by decide) (by decide) (by rw [hf]; rfl)]
      rfl
    | strcmp hb _ _ _ _ hf =>
      rw [call_placement hb (by decide) (by decide) (by rw [hf]; rfl)]
      rfl
    | _ =>
      rw [placement]
      rfl
  · rfl

theorem placeStatements_located {t₀ : Table} {ns : List Node}
    (hlays : ∀ n ∈ ns, LaysStatement t₀ n n.placeStatement)
    (hns : ∀ n ∈ ns, LocatesStatement t₀ n.placeStatement) {t : Table} (ht : t₀.Places t)
    {T : Table} (hT : (placeStatements ns t).2.Places T) (hsmall : T.Small)
    (hregions : ∀ r ∈ bodyRegions (placeStatements ns t).1, r.size < 2 ^ 31) :
    LocatedBody T (placeStatements ns t).1 := by
  induction ns generalizing t with
  | nil => trivial
  | cons n ns ih =>
    obtain ⟨rs, hstep, -⟩ := hlays n List.mem_cons_self t ht
    have hplaces := ht.trans hstep.places
    have hlays' := fun n hn => hlays n (List.mem_cons_of_mem _ hn)
    obtain ⟨_, -, -, hsteps, -⟩ := placeStatements_lays hlays' hplaces
    refine ⟨hns n List.mem_cons_self t ht T (hsteps.places.trans hT) hsmall fun r hr => ?_,
      ih hlays' (fun n hn => hns n (List.mem_cons_of_mem _ hn)) hplaces hT fun r hr => ?_⟩
    · exact hregions r (List.mem_append_left _ hr)
    · exact hregions r (List.mem_append_right _ hr)

theorem locates_of_typedStatement {t₀ : Table} (hready : t₀.Ready) {n : Node}
    (h : TypedStatement t₀ n) : LocatesStatement t₀ n.placeStatement := by
  -- A declaration and an assignment place their target and then their value.
  have hwrite : ∀ {sh : Shape} {s : Symbol} {target value : Node}, TypedTarget t₀ sh s target →
      sh.IsValue → Typed t₀ value → ∀ t, t₀.Places t → ∀ T,
      (placeValue value (placeTarget target t).1.2 (placeTarget target t).2).2.Places T → T.Small →
      ∃ addr, (placeTarget target t).1.1.LocatedTarget T addr ∧
        (placeValue value (placeTarget target t).1.2 (placeTarget target t).2).1.Located T ∧
        (placeValue value (placeTarget target t).1.2 (placeTarget target t).2).1.BuiltAt addr := by
    intro sh s target value htarget hsh hv t ht T hT hsmall
    obtain ⟨rs, addr, haddr, hstep, -⟩ := placeTarget_lays hready htarget hsh ht
    have hplaces := ht.trans hstep.places
    rw [haddr, placeValue_eq hv] at hT ⊢
    obtain ⟨qs, hstep', -⟩ := (lays_of_typed hready hv).2 addr _ hplaces
    obtain ⟨addr', haddr', hlocated⟩ :=
      placeTarget_located hready htarget ht (hstep'.places.trans hT) hsmall
    obtain rfl := Option.some.inj (haddr.symm.trans haddr')
    obtain ⟨hvalue, hbuilt⟩ := (locates_of_typed hready hv).2 addr
    exact ⟨addr, hlocated, hvalue _ hplaces T hT hsmall, hbuilt _ hplaces⟩
  induction h with
  | @declaration tag target rhs s sh htarget _ hs hv hsv =>
    obtain ⟨sh', hsh', hv'⟩ := hv.shape hready.shaped
    obtain rfl := Option.some.inj (hsv.symm.trans hsh')
    intro t ht T hT hsmall _
    rw [placeStatement] at hT ⊢
    exact hwrite htarget hv' hv t ht T hT hsmall
  | @assignment tag op target rhs s htarget hs hv hsv =>
    intro t ht T hT hsmall _
    rw [placeStatement] at hT ⊢
    exact hwrite htarget (.inl rfl) hv t ht T hT hsmall
  | @cond tag condition yes no hc hint hyes hno ihy ihn =>
    intro t ht T hT hsmall hregions
    rw [placeStatement] at hT hregions ⊢
    obtain ⟨rs, hstep, -⟩ := (lays_of_typed hready hc).1 t ht
    have hplaces := ht.trans hstep.places
    have hlaysYes := fun n hn => lays_of_typedStatement hready (hyes n hn)
    have hlaysNo := fun n hn => lays_of_typedStatement hready (hno n hn)
    obtain ⟨_, -, -, hystep, -⟩ := placeStatements_lays hlaysYes hplaces
    obtain ⟨_, -, -, hnstep, -⟩ := placeStatements_lays hlaysNo (hplaces.trans hystep.places)
    have hlast := hnstep.places.trans hT
    refine ⟨(locates_of_typed hready hc).1 t ht T (hystep.places.trans hlast) hsmall,
      placeStatements_located hlaysYes ihy hplaces hlast hsmall fun r hr => ?_,
      placeStatements_located hlaysNo ihn (hplaces.trans hystep.places) hT hsmall fun r hr => ?_⟩
    · exact hregions r (List.mem_append_right _ (List.mem_append_left _ hr))
    · exact hregions r (List.mem_append_right _ (List.mem_append_right _ hr))
  | @unroll tag count body hbody ih =>
    intro t ht T hT hsmall hregions
    rw [placeStatement] at hT hregions ⊢
    exact placeStatements_located (fun n hn => lays_of_typedStatement hready (hbody n hn)) ih ht hT
      hsmall hregions
  | @call tag function args hc =>
    intro t ht T hT hsmall _
    rw [placeStatement_call] at hT ⊢
    have hlocated := (locates_of_typed hready hc).1 t ht T hT hsmall
    obtain ⟨rs, -, hplaced⟩ := (lays_of_typed hready hc).1 t ht
    obtain ⟨tag', args', heq⟩ := (hplaced T hT).of_call
    rw [heq] at hlocated ⊢
    exact hlocated
  | @out tag formatTag recordTag function format members cs hb hf hff hcs hacc hm hr he =>
    intro t ht T hT hsmall hregions
    rw [placeStatement_out hb (by rw [hr]; rfl)] at hT hregions ⊢
    dsimp only at hT hregions ⊢
    have hsize : recordTag.facts.size = max (Annotate.packedSize members) 8 := by
      rw [hr]
      rfl
    have hstep := t.steps_reserve recordTag.facts.size (by omega) (by
      have := packedSize_mod members
      omega)
    have hlt : recordTag.facts.size < 2 ^ 31 := by
      refine hregions ⟨(t.reserve recordTag.facts.size).1, recordTag.facts.size⟩ ?_
      simp [statementRegions, regions, allRegions, hb, Tag.region, stacked, Facts.onStack]
    obtain ⟨hfrom, hsum, hall⟩ := packInto_located
      (fun m hmem => (lays_of_typed hready (hm m hmem)).2)
      (fun m hmem => (locates_of_typed hready (hm m hmem)).2)
      (t.reserve recordTag.facts.size).1 (ht.trans hstep.places) (by omega)
    refine ⟨trivial, ⟨⟨_, rfl, hfrom, ?_⟩, hall T hT hsmall⟩, trivial⟩
    change _ ≤ recordTag.facts.size
    omega

end Node

namespace Compile.Prepares

variable {σ : Type} {k : Kernel σ} {options : Options} {source : Source} {typed placed : Probe}
  {bound table : Table}

theorem located (h : Prepares k options source typed bound placed table)
    (htotal : placed.frameTotal table < 2 ^ 31) : Node.LocatedBody table placed.body := by
  obtain ⟨ks, hprep⟩ := h.prepared
  obtain ⟨ps, hparse, p, hp, typing, htyped, ⟨s, s', hbound⟩, hplaced⟩ := h
  obtain ⟨-, -, hall⟩ := Probe.annotate_typed (parseScript_statements hparse p hp) htyped
  have hgrows := (bindTable_ok hbound).grows
  have hstatement := fun n hn => (hall n hn).mono hgrows
  have hrun : typed.place bound = (placed, table) := hplaced
  have hbody : placed.body = (Node.placeStatements typed.body bound).1 :=
    congrArg (Probe.body ·.1) hrun.symm
  have htable : table = (Node.placeStatements typed.body bound).2 := congrArg Prod.snd hrun.symm
  have hsmall := hprep.small htotal
  rw [← hprep.bodyRegions_eq] at hsmall
  rw [hbody]
  refine Node.placeStatements_located
    (fun n hn => Node.lays_of_typedStatement hprep.ready (hstatement n hn))
    (fun n hn => Node.locates_of_typedStatement hprep.ready (hstatement n hn)) (.refl bound)
    (by rw [← htable]; exact .refl _) (fun r hr => hsmall r (List.mem_append_left _ hr)) fun r hr => ?_
  rw [← hbody] at hr
  exact hsmall r (List.mem_append_right _ hr)

end Compile.Prepares

namespace Flow

/-- The regions of all that own a part of the frame: temporaries, symbols and nodes. -/
def ownedRegions (a : Allocation) (t : Table) (p : Probe) : List Region :=
  spillSlots a.homes ++ (t.regions ++ Node.bodyRegions p.body)

/-- All that own a part of the frame have it for themselves, and together they fill the frame.
Whatever is built in place lies where it belongs. -/
theorem allocate_fills_frame {σ : Type} {k : Kernel σ} {options : Options} {source : Source}
    {typed placed : Probe} {bound table : Table}
    (h : Compile.Prepares k options source typed bound placed table)
    (htotal : placed.frameTotal table < 2 ^ 31) :
    ∃ built, ofProbe table placed = .ok built ∧
      let allocated := built.program.twoAddress.analyze.allocate table.frame
      let owned := ownedRegions allocated.allocation table placed
      owned.Pairwise Region.Disjoint ∧ (∀ r ∈ owned, r.addr < 0 ∧ r.addr % 8 = 0 ∧ 0 < r.size) ∧
        (owned.map fun r => align8 r.size).sum = allocated.frame.usage ∧
        Node.LocatedBody table placed.body := by
  obtain ⟨ks, hprep⟩ := h.prepared
  obtain ⟨built, hbuilt, -⟩ :=
    ofProbe_whole (w := default) hprep.ready_table hprep.placed hprep.statements
  refine ⟨built, hbuilt, ?_⟩
  intro allocated owned
  obtain ⟨hpacked, hmod⟩ := hprep.packed htotal
  rw [← hprep.bodyRegions_eq] at hpacked hmod
  obtain ⟨sizes, -, hreserved⟩ := hprep.reserved
  obtain ⟨now, hfair⟩ := built.program.twoAddress.analyze.allocate_fair table.frame
  obtain ⟨hall, hallMod⟩ := hfair.slots _ hpacked hmod
  have hpos : ∀ r ∈ owned, 0 < r.size := by
    intro r hr
    rcases List.mem_append.1 hr with hr | hr
    · rw [size_of_spillSlots hr]
      decide
    · exact (Frame.size_of_reserveAll (hreserved.mem_iff.1 hr)).1
  refine ⟨hall.disjoint, fun r hr => ⟨?_, hall.aligned r hr, hpos r hr⟩, ?_, h.located htotal⟩
  · have := (hall.bounds r hr).2
    have := hpos r hr
    omega
  · have hround : (owned.map fun r => align8 r.size) = owned.map Region.size :=
      List.map_congr_left fun r hr => align8_of_mod (hallMod r hr)
    have htop : ((owned.map Region.size).sum : Int) = -allocated.frame.top := hall.total
    rw [hround, Frame.usage]
    omega

/-- More values at once than registers, and strings in all places. -/
def crowdedFrame : Source where
  name := "crowded"
  lines :=
    ["probe p \x7b x = pid() + (tid() + (cpu() + (ns() + pid()))); s = \"abc\"; " ++
      "m[s, \"d\", x] = comm(); if (strcmp(m[\"e\", \"f\", 1], comm())) \x7b out(\"%s %d\", \"g\", x); \x7d \x7d"]

theorem crowdedFrame_filled :
    ∃ typed bound placed table built,
      Compile.Prepares DryRun.kernel {} crowdedFrame typed bound placed table ∧
      placed.frameTotal table < 2 ^ 31 ∧ ofProbe table placed = .ok built ∧
      let allocated := built.program.twoAddress.analyze.allocate table.frame
      let owned := ownedRegions allocated.allocation table placed
      (spillSlots allocated.allocation.homes).length = 2 ∧ owned.Pairwise Region.Disjoint ∧
        (owned.map fun r => align8 r.size).sum = allocated.frame.usage ∧
        Node.LocatedBody table placed.body := by
  have hprepares : ∃ typed bound placed table,
      Compile.Prepares DryRun.kernel {} crowdedFrame typed bound placed table ∧
      placed.frameTotal table < 2 ^ 31 ∧
      (ofProbe table placed).toOption.any fun built =>
        let q := built.program.twoAddress.analyze
        (spillSlots (q.allocateAlong table.frame
          (q.ranges.insertionSort fun a b => a.le b)).homes).length = 2 := by
    apply Compile.exists_prepares (s := { kernel := {} })
    · conv => lhs; cbv
    · conv => lhs; cbv
    · exact rfl
    · exact ⟨by decide +kernel, by decide +kernel⟩
  obtain ⟨typed, bound, placed, table, hp, htotal, heval⟩ := hprepares
  obtain ⟨built, hbuilt, hdisjoint, -, hsum, hlocated⟩ := allocate_fills_frame hp htotal
  refine ⟨typed, bound, placed, table, built, hp, htotal, hbuilt, ?_, hdisjoint, hsum, hlocated⟩
  rw [hbuilt] at heval
  have hcount := of_decide_eq_true heval
  rw [← Program.intervals_eq] at hcount
  exact hcount

end Flow

end TraceScript
