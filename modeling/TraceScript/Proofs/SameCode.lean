import TraceScript.Proofs.Grammar
import TraceScript.Proofs.Protocol
import TraceScript.Proofs.Rebound

namespace TraceScript

open Run

theorem Channel.id?_rename (f : MapId → MapId) (c : Channel) : (c.rename f).id? = c.id?.map f := by
  cases c <;> rfl

namespace Table

/-- The descriptors of a table. -/
def ids (t : Table) : List MapId := (Compile.mapsOf t).map Prod.snd ++ t.events.id?.toList

theorem mem_ids {t : Table} {s : Symbol} (hs : s ∈ t.symbols) {slot : MapSlot}
    (hslot : s.map = some slot) {id : MapId} (hid : slot.id = some id) : id ∈ t.ids := by
  refine List.mem_append.2 (.inl (List.mem_map.2 ⟨(s.name, id), ?_, rfl⟩))
  refine List.mem_filterMap.2 ⟨s, Array.mem_toList_iff.2 hs, ?_⟩
  rw [hslot]
  change (slot.id.bind fun id => some (s.name, id)) = _
  rw [hid]
  rfl

theorem rename_eq_self {t : Table} {f : MapId → MapId} (h : ∀ x ∈ t.ids, f x = x) :
    t.rename f = t := by
  have hsymbols : t.symbols.map (Symbol.rename f) = t.symbols := by
    conv => rhs; rw [← Array.map_id t.symbols]
    refine Array.map_congr_left fun s hs => ?_
    obtain ⟨name, kind, facts, addr, map⟩ := s
    cases map with
    | none => rfl
    | some slot =>
      obtain ⟨keySize, keyAddr, valueAddr, slotId, provisional⟩ := slot
      cases slotId with
      | none => rfl
      | some id =>
        rw [Symbol.rename]
        dsimp only [Option.map_some]
        rw [h id (mem_ids hs rfl rfl)]
        rfl
  have hevents : t.events.rename f = t.events := by
    cases he : t.events with
    | bound id =>
      have hid : id ∈ t.ids := by
        refine List.mem_append.2 (.inr ?_)
        rw [he]
        exact List.mem_cons_self
      rw [Channel.rename, h id hid]
    | _ => rfl
  rw [rename, hsymbols, hevents]

theorem rename_id (t : Table) : t.rename id = t := rename_eq_self fun _ _ => rfl

theorem mapsOf_rename (f : MapId → MapId) (t : Table) :
    Compile.mapsOf (t.rename f) = (Compile.mapsOf t).map (Prod.map id f) := by
  rw [Compile.mapsOf, Compile.mapsOf, rename, Array.toList_map, List.filterMap_map,
    List.map_filterMap]
  congr 1
  funext s
  obtain ⟨name, kind, facts, addr, map⟩ := s
  cases map with
  | none => rfl
  | some slot =>
    obtain ⟨keySize, keyAddr, valueAddr, slotId, provisional⟩ := slot
    cases slotId <;> rfl

end Table

namespace Compile

/-- Numbers from one on take the place of the descriptors of maps. -/
def number (n : Int) : List Symbol → List Symbol
  | [] => []
  | s :: ss =>
    match s.map with
    | none => s :: number n ss
    | some slot => { s with map := some { slot with id := some ⟨n⟩ } } :: number (n + 1) ss

/-- The table with numbers for descriptors. The number of the channel is the last one. -/
def numbered (n : Int) (t : Table) : Table :=
  { t with
    symbols := (number n t.symbols.toList).toArray
    events :=
      if t.needsEvents then .bound ⟨n + t.symbols.toList.countP (·.map.isSome)⟩ else t.events }

/-- A change of descriptors that takes numbers from one on to the members of a list. -/
def Picks (n : Int) (ids : List MapId) (f : MapId → MapId) : Prop :=
  ∀ (j : Nat) (id : MapId), ids[j]? = some id → f ⟨n + j⟩ = id

/-- Numbers stand for the members of a list. -/
def pick (ids : List MapId) (x : MapId) : MapId := (ids[x.fd.toNat]?).getD x

theorem picks_pick (ids : List MapId) : Picks 0 ids (pick ids) := by
  intro j id hj
  rw [pick, Int.zero_add, Int.toNat_natCast, hj]
  rfl

variable {σ : Type} {k : Kernel σ} {options : Options}

theorem createMaps_numbered {ss ss' : List Symbol} {s s' : Session σ}
    (h : createMaps k options ss s = .ok ss' s') :
    ∃ ids : List MapId, ids.length = ss.countP (·.map.isSome) ∧
      ∀ n f, Picks n ids f → ss' = (number n ss).map (Symbol.rename f) := by
  induction ss generalizing ss' s with
  | nil =>
    rw [createMaps] at h
    obtain ⟨rfl, -⟩ := estate_pure_ok.1 h
    exact ⟨[], rfl, fun _ _ _ => rfl⟩
  | cons x ss ih =>
    rw [createMaps] at h
    cases hm : x.map with
    | none =>
      rw [hm] at h
      obtain ⟨x', s₁, hx, h₁⟩ := estate_bind_ok.1 h
      obtain ⟨rfl, rfl⟩ := estate_pure_ok.1 hx
      obtain ⟨rest, s₂, hrest, h₂⟩ := estate_bind_ok.1 h₁
      obtain ⟨rfl, rfl⟩ := estate_pure_ok.1 h₂
      obtain ⟨ids, hlength, hids⟩ := ih hrest
      refine ⟨ids, by rw [hlength, List.countP_cons, hm]; rfl, fun n f hf => ?_⟩
      have hself : x.rename f = x := by
        rw [Symbol.rename, hm]
        dsimp only [Option.map_none]
        rw [← hm]
      rw [number, hm]
      dsimp only
      rw [List.map_cons, hself, ← hids n f hf]
    | some slot =>
      rw [hm] at h
      obtain ⟨id, s₁, -, h₁⟩ := estate_bind_ok.1 h
      obtain ⟨x', s₂, hx, h₂⟩ := estate_bind_ok.1 h₁
      obtain ⟨rfl, rfl⟩ := estate_pure_ok.1 hx
      obtain ⟨rest, s₃, hrest, h₃⟩ := estate_bind_ok.1 h₂
      obtain ⟨rfl, rfl⟩ := estate_pure_ok.1 h₃
      obtain ⟨ids, hlength, hids⟩ := ih hrest
      refine ⟨id :: ids, by rw [List.length_cons, hlength, List.countP_cons, hm]; rfl,
        fun n f hf => ?_⟩
      have hfirst : f ⟨n⟩ = id := by
        have := hf 0 id rfl
        rwa [Nat.cast_zero, Int.add_zero] at this
      have hrest : Picks (n + 1) ids f := by
        intro j y hy
        have := hf (j + 1) y hy
        rwa [show n + ((j + 1 : Nat) : Int) = n + 1 + j by omega] at this
      rw [number, hm]
      dsimp only
      rw [List.map_cons, ← hids (n + 1) f hrest, Symbol.rename]
      dsimp only [Option.map_some]
      rw [hfirst]

theorem bindTable_numbered {t bound : Table} {s s' : Session σ}
    (h : bindTable k options t s = .ok bound s') :
    ∃ ids : List MapId, ∀ n f, Picks n ids f → bound = (numbered n t).rename f := by
  unfold bindTable at h
  obtain ⟨symbols, s₁, hmaps, h₁⟩ := estate_bind_ok.1 h
  obtain ⟨ids, hlength, hids⟩ := createMaps_numbered hmaps
  have hneeds : ({ t with symbols := symbols.toArray } : Table).needsEvents = t.needsEvents := rfl
  rw [hneeds] at h₁
  have hsymbols : ∀ n f, Picks n ids f →
      symbols.toArray = (number n t.symbols.toList).toArray.map (Symbol.rename f) := by
    intro n f hf
    rw [hids n f hf, List.map_toArray]
  cases hevents : t.needsEvents with
  | true =>
    rw [hevents, if_pos rfl] at h₁
    obtain ⟨id, s₂, -, h₂⟩ := estate_bind_ok.1 h₁
    obtain ⟨rfl, -⟩ := estate_pure_ok.1 h₂
    refine ⟨ids ++ [id], fun n f hf => ?_⟩
    have hmapIds : Picks n ids f := fun j y hy => hf j y (by
      rw [List.getElem?_append_left (List.getElem?_eq_some_iff.1 hy).1]
      exact hy)
    have hchannel : f ⟨n + t.symbols.toList.countP (·.map.isSome)⟩ = id := by
      rw [← hlength]
      exact hf ids.length id List.getElem?_concat_length
    rw [Table.rename, numbered]
    dsimp only
    rw [hevents, if_pos rfl, ← hsymbols n f hmapIds, Channel.rename, hchannel]
    rfl
  | false =>
    rw [hevents, if_neg Bool.false_ne_true] at h₁
    obtain ⟨rfl, -⟩ := estate_pure_ok.1 h₁
    refine ⟨ids, fun n f hf => ?_⟩
    have hunused : t.events = .unused := by
      rw [Table.needsEvents] at hevents
      simpa using hevents
    rw [Table.rename, numbered]
    dsimp only
    rw [hevents, if_neg Bool.false_ne_true, ← hsymbols n f hf, hunused]
    rfl

end Compile

namespace Flow

theorem ofProbe_erase (t : Table) (p : Probe) : ofProbe t p.erase = ofProbe t p := by
  have h := ofProbe_rename id t p
  rw [t.rename_id, p.rename_id, funext Built.rename_id] at h
  rw [h]
  cases ofProbe t p <;> rfl

theorem Program.assemble_rename {p : Program} {frame : Frame} {limit : Nat} {b : Bytecode}
    (f : MapId → MapId) (h : (p.rename f).assemble frame limit = .ok b) :
    let a := p.twoAddress.analyze.allocate frame
    Bytecode.Generated (a.program.rename f) a.allocation b.code ∧ b.stack = a.frame.usage := by
  unfold assemble at h
  rw [twoAddress_rename, analyze_rename, allocate_rename] at h
  exact ⟨(Bytecode.generate_ok h).1, (Bytecode.generate_ok h).2.2⟩

end Flow

theorem Probe.place_erase {p p' : Probe} {t t' : Table} (h : p.place.run t = (p', t')) :
    p.erase.place.run t = (p'.erase, t') := by
  have hid := Probe.place_rename id h
  rwa [t.rename_id, t'.rename_id, p.rename_id, p'.rename_id] at hid

namespace Compile

theorem codeResult_rename {options : Options} {typed placed : Probe} {t table : Table}
    {f : MapId → MapId} {code : Code} (hfix : typed.erase.rename f = typed.erase)
    (hplaced : typed.erase.place.run t = (placed, table))
    (h : codeResult options (t.rename f) typed = .ok code) :
    ∃ built, Flow.ofProbe table placed = .ok built ∧
      (built.program.rename f).assemble table.frame options.maxInstructions = .ok code.bytecode ∧
      code.allocation = (built.program.twoAddress.analyze.allocate table.frame).allocation ∧
      code.outputs = built.outputs := by
  obtain ⟨placed', table', hplaced'⟩ :
      ∃ placed' table', typed.place.run (t.rename f) = (placed', table') := ⟨_, _, rfl⟩
  have hrenamed := Probe.place_rename f hplaced
  rw [hfix, Probe.place_erase hplaced'] at hrenamed
  obtain ⟨hprobe, rfl⟩ := Prod.mk.inj hrenamed
  have hbuilt := Flow.ofProbe_rename f table placed
  rw [← hprobe, Flow.ofProbe_erase] at hbuilt
  cases hprogram : Flow.ofProbe table placed with
  | error e =>
    rw [hprogram] at hbuilt
    unfold codeResult at h
    rw [hplaced'] at h
    dsimp only at h
    rw [hbuilt] at h
    cases h
  | ok built =>
    rw [hprogram] at hbuilt
    rw [codeResult_of_built hplaced' hbuilt] at h
    obtain ⟨b, hb, rfl⟩ := except_map_ok.1 h
    refine ⟨built, rfl, hb, ?_, rfl⟩
    change ((built.program.rename f).twoAddress.analyze.allocate table.frame).allocation = _
    rw [Flow.Program.twoAddress_rename, Flow.Program.analyze_rename, Flow.Program.allocate_rename]

theorem mem_ids_of_ofProbe {p placed : Probe} {t table : Table} {built : Flow.Built}
    {i : Flow.Instruction} {x : MapId} (hfix : ∀ f, p.rename f = p)
    (hplaced : p.place.run t = (placed, table)) (hbuilt : Flow.ofProbe table placed = .ok built)
    (hi : i ∈ (built.program.twoAddress.analyze.allocate table.frame).program.instructions)
    (hx : x ∈ i.maps) : x ∈ t.ids := by
  -- a change of all other descriptors leaves the program as it is, by naturality
  let f : MapId → MapId := fun x => if x ∈ t.ids then x else ⟨x.fd + 1⟩
  have hrenamed := Probe.place_rename f hplaced
  rw [hfix f, Table.rename_eq_self fun x hx => if_pos hx, hplaced] at hrenamed
  obtain ⟨hprobe, htable⟩ := Prod.mk.inj hrenamed
  have hsame := Flow.ofProbe_rename f table placed
  rw [← hprobe, ← htable, hbuilt] at hsame
  have hprogram : built.program.rename f = built.program :=
    (congrArg Flow.Built.program (Except.ok.inj hsame)).symm
  have hallocated := Flow.Program.allocate_rename f built.program.twoAddress.analyze table.frame
  rw [← Flow.Program.analyze_rename, ← Flow.Program.twoAddress_rename, hprogram] at hallocated
  have hinstructions := congrArg (fun a : Flow.Allocated => a.program.instructions) hallocated
  dsimp only at hinstructions
  rw [Flow.Program.instructions_rename] at hinstructions
  have hfixed : i.rename f = i :=
    (List.map_inj_left.1 ((List.map_id _).trans hinstructions) i hi).symm
  by_contra hother
  have hmoved := Flow.Instruction.fixed_of_rename f hfixed x hx
  rw [show f x = ⟨x.fd + 1⟩ from if_neg hother] at hmoved
  have := congrArg MapId.fd hmoved
  dsimp only at this
  omega

end Compile

namespace CompiledProbe

/-- Descriptors of the same map, or of the channels. -/
def Corresponds (c c' : CompiledProbe) (id id' : MapId) : Prop :=
  (∃ (n : Nat) (name : Name), c.maps[n]? = some (name, id) ∧ c'.maps[n]? = some (name, id')) ∨
    c.events = some id ∧ c'.events = some id'

/-- The same probe up to the descriptors that its code loads. -/
structure SameCode (c c' : CompiledProbe) : Prop where
  name : c.name = c'.name
  symbols : c.maps.map Prod.fst = c'.maps.map Prod.fst
  length : c.bytecode.code.size = c'.bytecode.code.size
  stack : c.bytecode.stack = c'.bytecode.stack
  allocation : c.allocation = c'.allocation
  outputs : c.outputs = c'.outputs
  slots : Rebound (c.Corresponds c') Slot.loadId (¬Slot.LoadsMap ·) c.bytecode.code.toList c'.bytecode.code.toList

end CompiledProbe

namespace Compile

variable {σ σ' : Type} {k : Kernel σ} {k' : Kernel σ'} {options : Options}

/-- What comes of a probe that a kernel accepts. -/
structure Compiles (options : Options) (typed : Probe) (bound : Table) (c : CompiledProbe) : Prop where
  code : ∃ code, codeResult options bound typed = .ok code ∧ c.bytecode = code.bytecode ∧
    c.allocation = code.allocation ∧ c.outputs = code.outputs
  maps : c.maps = mapsOf bound
  events : c.events = bound.events.id?

theorem probe_ok {p : Probe} {c : CompiledProbe} {s s' : Session σ}
    (h : probe k options p s = .ok c s') :
    c.name = p.name.value ∧ ∃ typed typing bound, p.annotate.run {} = .ok typed typing ∧
      (∃ s₁ s₂, bindTable k options typing.table s₁ = .ok bound s₂) ∧
      Compiles options typed bound c := by
  unfold probe at h
  obtain ⟨_, s₁, -, h⟩ := estate_bind_ok.1 h
  obtain ⟨⟨typed, t⟩, s₂, hannotate, h⟩ := estate_bind_ok.1 h
  obtain ⟨typing, htyped, rfl⟩ := annotate_ok hannotate
  obtain ⟨_, s₃, -, h⟩ := estate_bind_ok.1 h
  obtain ⟨bound, s₄, hbound, h⟩ := estate_bind_ok.1 h
  obtain ⟨code, s₅, hcode, h⟩ := estate_bind_ok.1 h
  obtain ⟨handle, s₆, -, h⟩ := estate_bind_ok.1 h
  obtain ⟨event, s₇, -, h⟩ := estate_bind_ok.1 h
  obtain ⟨_, s₈, -, h⟩ := estate_bind_ok.1 h
  obtain ⟨_, s₉, -, h⟩ := estate_bind_ok.1 h
  obtain ⟨rfl, -⟩ := estate_pure_ok.1 h
  exact ⟨rfl, typed, typing, bound, htyped, ⟨s₃, s₄, hbound⟩,
    ⟨code, codeResult_of_codeOf hcode, rfl, rfl, rfl⟩, rfl, rfl⟩

theorem corresponds_of_mem {t : Table} {f f' : MapId → MapId} {c c' : CompiledProbe} {x : MapId}
    (hmaps : c.maps = mapsOf (t.rename f)) (hmaps' : c'.maps = mapsOf (t.rename f'))
    (hevents : c.events = (t.rename f).events.id?) (hevents' : c'.events = (t.rename f').events.id?)
    (hx : x ∈ t.ids) : c.Corresponds c' (f x) (f' x) := by
  rcases List.mem_append.1 hx with hx | hx
  · obtain ⟨⟨name, _⟩, hmem, rfl⟩ := List.mem_map.1 hx
    obtain ⟨n, hn⟩ := List.getElem?_of_mem hmem
    refine .inl ⟨n, name, ?_, ?_⟩
    · rw [hmaps, Table.mapsOf_rename, List.getElem?_map, hn]
      rfl
    · rw [hmaps', Table.mapsOf_rename, List.getElem?_map, hn]
      rfl
  · have hid : t.events.id? = some x := Option.mem_toList.1 hx
    refine .inr ⟨?_, ?_⟩
    · rw [hevents, Table.rename, Channel.id?_rename, hid]
      rfl
    · rw [hevents', Table.rename, Channel.id?_rename, hid]
      rfl

theorem Compiles.sameCode {typed typed' : Probe} {t : Table} {f f' : MapId → MapId}
    {c c' : CompiledProbe} (hname : c.name = c'.name) (herase : typed.erase = typed'.erase)
    (hfix : ∀ f, typed.erase.rename f = typed.erase) (h : Compiles options typed (t.rename f) c)
    (h' : Compiles options typed' (t.rename f') c') : c.SameCode c' := by
  obtain ⟨code, hcode, hbytes, halloc, hout⟩ := h.code
  obtain ⟨code', hcode', hbytes', halloc', hout'⟩ := h'.code
  obtain ⟨placed, table, hplaced⟩ : ∃ placed table, typed.erase.place.run t = (placed, table) :=
    ⟨_, _, rfl⟩
  obtain ⟨built, hbuilt, hassemble, ha, ho⟩ := codeResult_rename (hfix f) hplaced hcode
  obtain ⟨built', hbuilt', hassemble', ha', ho'⟩ :=
    codeResult_rename (herase ▸ hfix f') (herase ▸ hplaced) hcode'
  obtain rfl : built = built' := Except.ok.inj (hbuilt.symm.trans hbuilt')
  obtain ⟨hgenerated, hstack⟩ := Flow.Program.assemble_rename _ hassemble
  obtain ⟨hgenerated', hstack'⟩ := Flow.Program.assemble_rename _ hassemble'
  have hslots : Rebound (c.Corresponds c') Slot.loadId (¬Slot.LoadsMap ·) c.bytecode.code.toList
      c'.bytecode.code.toList := by
    rw [hbytes, hbytes']
    exact hgenerated.rebound hgenerated' fun i hi x hx =>
      corresponds_of_mem h.maps h'.maps h.events h'.events
        (mem_ids_of_ofProbe hfix hplaced hbuilt hi hx)
  exact {
    name := hname
    symbols := by
      rw [h.maps, h'.maps, Table.mapsOf_rename, Table.mapsOf_rename, List.map_map, List.map_map]
      rfl
    length := by simpa using hslots.length_eq fun _ _ _ => rfl
    stack := by rw [hbytes, hbytes', hstack, hstack']
    allocation := by rw [halloc, halloc', ha, ha']
    outputs := by rw [hout, hout', ho, ho']
    slots := hslots }

theorem probe_sameCode {p p' : Probe} {c c' : CompiledProbe} {s s₁ : Session σ} {s' s₁' : Session σ'}
    (hfix : ∀ f, p.erase.rename f = p.erase) (herase : p.erase = p'.erase)
    (h : probe k options p s = .ok c s₁) (h' : probe k' options p' s' = .ok c' s₁') :
    c.SameCode c' := by
  obtain ⟨hname, typed, typing, bound, htyped, ⟨_, _, hbound⟩, hc⟩ := probe_ok h
  obtain ⟨hname', typed', typing', bound', htyped', ⟨_, _, hbound'⟩, hc'⟩ := probe_ok h'
  have hrun := Probe.annotate_erase htyped
  have hrun' := Probe.annotate_erase htyped'
  rw [← herase, hrun] at hrun'
  obtain ⟨htree, rfl⟩ := EStateM.Result.ok.inj hrun'
  have hfixTyped : ∀ f, typed.erase.rename f = typed.erase := by
    intro f
    have hrenamed := Probe.annotate_rename f hrun
    rw [hfix f, hrun] at hrenamed
    exact (EStateM.Result.ok.inj hrenamed).1.symm
  obtain ⟨ids, hids⟩ := bindTable_numbered hbound
  obtain ⟨ids', hids'⟩ := bindTable_numbered hbound'
  rw [hids 0 _ (picks_pick ids)] at hc
  rw [hids' 0 _ (picks_pick ids')] at hc'
  have hprobe : p.name.value = p'.name.value := congrArg (·.name.value) herase
  exact Compiles.sameCode (by rw [hname, hname', hprobe]) htree hfixTyped hc hc'

end Compile

/-- The descriptor that a kernel has given. -/
def Exchange.mapId? : Exchange → Option MapId
  | ⟨.createMap _, .ok id⟩ => some id
  | _ => none

namespace Compile

theorem follows_createMaps_ids (k : Kernel σ) (options : Options) (ss : List Symbol) :
    Follows (createMaps k.logged options ss)
      (fun xs ss' => ∀ t : Table, t.symbols = ss'.toArray →
        xs.filterMap Exchange.mapId? = (mapsOf t).map Prod.snd) fun _ _ => True := by
  have hcons : ∀ (x : Symbol) (ss' : List Symbol) (t : Table), t.symbols = (x :: ss').toArray →
      mapsOf t = ((x.map.bind (·.id)).map (x.name, ·)).toList ++
        mapsOf { t with symbols := ss'.toArray } := by
    intro x ss' t ht
    rw [mapsOf, mapsOf, ht]
    dsimp only
    rw [List.filterMap_cons]
    obtain ⟨name, kind, facts, addr, map⟩ := x
    cases map with
    | none => rfl
    | some slot =>
      obtain ⟨keySize, keyAddr, valueAddr, slotId, provisional⟩ := slot
      cases slotId <;> rfl
  induction ss with
  | nil =>
    refine .pure fun t ht => ?_
    rw [mapsOf, ht]
    rfl
  | cons x ss ih =>
    unfold createMaps
    cases hm : x.map with
    | none =>
      refine .pure_bind (.bind ih (fun _ _ h => h) fun ss' xs h => .pure fun t ht => ?_)
      rw [List.append_nil, hcons x ss' t ht, hm]
      exact h _ rfl
    | some slot =>
      refine .bind (.call k _) (fun _ _ _ => trivial) ?_
      rintro id _ rfl
      refine .pure_bind (.bind ih (fun _ _ h => h) fun ss' xs h => .pure fun t ht => ?_)
      rw [List.append_nil, hcons _ ss' t ht, List.singleton_append, List.filterMap_cons]
      exact congrArg (id :: ·) (h _ rfl)

theorem follows_bindTable_ids (k : Kernel σ) (options : Options) (t : Table) :
    Follows (bindTable k.logged options t)
      (fun xs bound => xs.filterMap Exchange.mapId? = bound.ids) fun _ _ => True := by
  refine .bind (follows_createMaps_ids k options _) (fun _ _ h => h) fun symbols xs hxs => ?_
  dsimp only
  split
  · refine .bind (.call k _) (fun _ _ _ => trivial) ?_
    rintro id _ rfl
    refine .pure ?_
    rw [List.append_nil, List.filterMap_append, hxs { t with symbols := symbols.toArray } rfl]
    rfl
  · rename_i hevents
    refine .pure ?_
    have hunused : t.events = .unused := by simpa [Table.needsEvents] using hevents
    rw [List.append_nil, hxs { t with symbols := symbols.toArray } rfl, Table.ids]
    dsimp only
    rw [hunused]
    exact (List.append_nil _).symm

/-- The descriptors of the maps and the channel of a probe are the replies of the kernel, in
order. -/
theorem follows_probe_ids (k : Kernel σ) (options : Options) (p : Probe) :
    Follows (probe k.logged options p)
      (fun xs c => xs.filterMap Exchange.mapId? = c.maps.map Prod.snd ++ c.events.toList)
      fun _ _ => True := by
  refine .note_bind (.bind (.annotate p) (fun _ _ _ => trivial) ?_)
  rintro ⟨typed, t⟩ _ ⟨rfl, -⟩
  refine .note_bind (.bind (follows_bindTable_ids k options t) (fun _ _ h => h) fun bound xs hxs => ?_)
  refine .bind (.codeOf options bound typed) (fun _ _ _ => trivial) ?_
  rintro code _ rfl
  refine .bind (.call k _) (fun _ _ _ => trivial) ?_
  rintro h _ rfl
  refine .bind (.call k _) (fun _ _ _ => trivial) ?_
  rintro event _ rfl
  refine .bind (.call k _) (fun _ _ _ => trivial) ?_
  rintro ⟨⟩ _ rfl
  refine .note_bind (.pure ?_)
  rw [List.nil_append, List.nil_append, List.append_nil, List.filterMap_append, hxs]
  exact List.append_nil _

/-- A kernel has given all the descriptors of a probe that it compiles from some state. -/
def GivenBy (k : Kernel σ) (options : Options) (p : Probe) (state : σ) (c : CompiledProbe) : Prop :=
  ∃ s, (probe k.logged options p).run ⟨(state, []), #[]⟩ = .ok c s ∧
    s.kernel.2.filterMap Exchange.mapId? = c.maps.map Prod.snd ++ c.events.toList

theorem ending_ok {α : Type} {o : Outcome σ α} {notes : Array Note} {a : α} {s : Session σ}
    (h : o.ending notes = .ok a s) : o.result = .ok a ∧ s = ⟨o.state, notes⟩ := by
  unfold Outcome.ending at h
  cases hr : o.result with
  | ok b =>
    rw [hr] at h
    obtain ⟨rfl, rfl⟩ := EStateM.Result.ok.inj h
    exact ⟨rfl, rfl⟩
  | error e =>
    rw [hr] at h
    cases h

theorem givenBy_of_probe {p : Probe} {c : CompiledProbe} {s s' : Session σ}
    (h : probe k options p s = .ok c s') : GivenBy k options p s.kernel c := by
  obtain ⟨d, hd⟩ := spoken_probe options p
  obtain ⟨notes, hrun⟩ := hd σ k s
  obtain ⟨notes', hlogged⟩ := hd _ k.logged ⟨(s.kernel, []), #[]⟩
  obtain ⟨hresult, hstate⟩ := d.run_logged k s.kernel []
  dsimp only at hrun hlogged
  rw [h] at hrun
  rw [Outcome.ending, hresult, (ending_ok hrun.symm).1] at hlogged
  refine ⟨_, hlogged, ?_⟩
  have hfollows := follows_probe_ids k options p ⟨(s.kernel, []), #[]⟩
  rw [hlogged] at hfollows
  obtain ⟨xs, hxs, hids⟩ := hfollows
  rw [hxs]
  exact hids

theorem probes_ok {ps : List Probe} {cs : List CompiledProbe} {s s' : Session σ}
    (h : probes k options ps s = .ok cs s') :
    List.Forall₂ (fun p c => ∃ s₁ s₂, probe k options p s₁ = .ok c s₂) ps cs := by
  induction ps generalizing cs s s' with
  | nil =>
    rw [probes] at h
    obtain ⟨rfl, -⟩ := estate_pure_ok.1 h
    exact .nil
  | cons p ps ih =>
    rw [probes] at h
    obtain ⟨c, s₁, hc, h⟩ := estate_bind_ok.1 h
    obtain ⟨cs', s₂, hcs, h⟩ := estate_bind_ok.1 h
    obtain ⟨rfl, -⟩ := estate_pure_ok.1 h
    exact .cons ⟨s, s₁, hc⟩ (ih hcs)

theorem script_ok {source : Source} {ps : List Probe} {cs : List CompiledProbe} {s s' : Session σ}
    (hparse : parseScript source = .ok ps) (h : script k options source s = .ok cs s') {i : Nat}
    {p : Probe} (hp : ps[i]? = some p) :
    ∃ c s₁ s₂, cs[i]? = some c ∧ probe k options p s₁ = .ok c s₂ := by
  unfold script at h
  rw [hparse] at h
  obtain ⟨_, s₁, hps, h⟩ := estate_bind_ok.1 h
  obtain ⟨rfl, -⟩ := estate_pure_ok.1 hps
  obtain ⟨_, s₂, -, h⟩ := estate_bind_ok.1 h
  have hall := probes_ok h
  obtain ⟨hi, rfl⟩ := List.getElem?_eq_some_iff.1 hp
  have hi' : i < cs.length := hall.length_eq ▸ hi
  obtain ⟨s₃, s₄, hc⟩ := hall.get hi hi'
  exact ⟨_, s₃, s₄, List.getElem?_eq_getElem hi', hc⟩

/-- Kernels influence code through the descriptors of maps alone, and so do the other probes of a
script. -/
theorem code_depends_on_descriptors_alone (options : Options) (k : Kernel σ) (k' : Kernel σ') :
    (∀ (source : Source) (ps : List Probe), parseScript source = .ok ps → ∀ p ∈ ps,
      ∀ (s s₁ : Session σ) (s' s₁' : Session σ') (c c' : CompiledProbe),
      (probe k options p).run s = .ok c s₁ → (probe k' options p).run s' = .ok c' s₁' →
      c.SameCode c' ∧ GivenBy k options p s.kernel c ∧ GivenBy k' options p s'.kernel c') ∧
    ∀ (source source' : Source) (ps ps' : List Probe) (s s₁ : Session σ) (s' s₁' : Session σ')
      (cs cs' : List CompiledProbe), parseScript source = .ok ps → parseScript source' = .ok ps' →
      (script k options source).run s = .ok cs s₁ → (script k' options source').run s' = .ok cs' s₁' →
      ∀ (i j : Nat) (p p' : Probe), ps[i]? = some p → ps'[j]? = some p' → p.erase = p'.erase →
      ∃ c c', cs[i]? = some c ∧ cs'[j]? = some c' ∧ c.SameCode c' := by
  refine ⟨fun source ps hparse p hp s s₁ s' s₁' c c' h h' => ?_, ?_⟩
  · exact ⟨probe_sameCode (rename_of_parseScript hparse hp) rfl h h', givenBy_of_probe h,
      givenBy_of_probe h'⟩
  · intro source source' ps ps' s s₁ s' s₁' cs cs' hparse hparse' h h' i j p p' hp hp' herase
    obtain ⟨c, _, _, hc, hrun⟩ := script_ok hparse h hp
    obtain ⟨c', _, _, hc', hrun'⟩ := script_ok hparse' h' hp'
    have hfix := rename_of_parseScript hparse (List.mem_of_getElem? hp)
    exact ⟨c, c', hc, hc', probe_sameCode hfix herase hrun hrun'⟩

end Compile

theorem Spoken.other_notes {σ α : Type} {m : (σ : Type) → Kernel σ → Compile σ α} (hm : Spoken m)
    {k : Kernel σ} {state state' : σ} {notes notes' : Array Note} {a : α}
    (h : m σ k ⟨state, notes⟩ = .ok a ⟨state', notes'⟩) (other : Array Note) :
    ∃ other', m σ k ⟨state, other⟩ = .ok a ⟨state', other'⟩ := by
  obtain ⟨d, hd⟩ := hm
  obtain ⟨_, hrun⟩ := hd σ k ⟨state, notes⟩
  obtain ⟨other', hrun'⟩ := hd σ k ⟨state, other⟩
  rw [h] at hrun
  obtain ⟨hresult, hstate⟩ := Compile.ending_ok hrun.symm
  refine ⟨other', ?_⟩
  rw [hrun', Outcome.ending, hresult, (Session.mk.inj hstate).1]

/-- A kernel that refuses nothing, and whose descriptors are a fixed step apart. -/
def Kernel.counting (step : Int) : Kernel Int where
  answer
    | .createMap _, n => { result := .ok ⟨n⟩, state := n + step }
    | .loadProgram _ _, n => { result := .ok ⟨0⟩, state := n }
    | .traceEvent _, n => { result := .ok 0, state := n }
    | .attach _ _, n => { result := .ok (), state := n }

namespace Compile

theorem counting_probe {step n m : Int} {p typed placed : Probe} {typing : Typing}
    {bound table : Table} (htyped : p.annotate.run {} = .ok typed typing)
    (hbound : ∃ notes, bindTable (Kernel.counting step) {} typing.table ⟨n, #[]⟩ =
      .ok bound ⟨m, notes⟩)
    (hplaced : typed.place.run bound = (placed, table))
    (heval : (Flow.ofProbe table placed).toOption.any fun built =>
      (built.program.assembleInOrder table.frame 4096).toOption.any fun _ => true)
    (notes : Array Note) :
    ∃ c notes', probe (Kernel.counting step) {} p ⟨n, notes⟩ = .ok c ⟨m, notes'⟩ := by
  have hannotate : ∀ s : Session Int,
      annotate p s = .ok (typed, typing.table) { s with notes := s.notes ++ typing.notes } := by
    intro s
    unfold annotate
    rw [htyped]
    rfl
  obtain ⟨notes₀, hbound⟩ := hbound
  obtain ⟨notes₁, hnotes₁⟩ := (spoken_bindTable {} typing.table).other_notes hbound
    (((notes.push (Note.probe p.name.value)) ++ typing.notes).push
      (Note.annotated typing.table.symbols.size))
  obtain ⟨code, s, hcode, -⟩ := codeOf_of_evaluated {} (⟨m, notes₁⟩ : Session Int) hplaced heval
  obtain ⟨notes₂, hrun⟩ := codeOf_eq {} bound typed (⟨m, notes₁⟩ : Session Int)
  rw [codeResult_of_codeOf hcode] at hrun
  refine ⟨?_, ?_, ?_⟩
  rotate_left 2
  · unfold probe
    rw [note_bind]
    refine estate_bind_ok.2 ⟨_, _, hannotate _, ?_⟩
    dsimp only
    rw [note_bind]
    refine estate_bind_ok.2 ⟨bound, _, hnotes₁, estate_bind_ok.2 ⟨code, _, hrun, ?_⟩⟩
    exact rfl

/-- A script in which another probe comes first. -/
def countedLater : Source where
  name := "later"
  lines := "probe q \x7b y[0] = 1; \x7d" :: countedEvents.lines

/-- The last probe has the same code as on its own, although the descriptors of its map and its
channel are others. -/
theorem countedLater_sameCode :
    ∃ (cs cs' : List CompiledProbe) (s s' : Session Int),
      (script (Kernel.counting 1) {} countedLater).run ⟨3, #[]⟩ = .ok cs s ∧
      (script (Kernel.counting 5) {} countedEvents).run ⟨9, #[]⟩ = .ok cs' s' ∧
      (∃ c c', cs[1]? = some c ∧ cs'[0]? = some c' ∧ c.SameCode c') ∧
      ∃ (p : Probe) (c c' : CompiledProbe), c.SameCode c' ∧
        GivenBy (Kernel.counting 1) {} p 4 c ∧ GivenBy (Kernel.counting 5) {} p 9 c' := by
  have hprobes : ∃ q p p', parseScript countedLater = .ok [q, p] ∧
      parseScript countedEvents = .ok [p'] ∧ p.erase = p'.erase ∧
      (∀ notes, ∃ c notes', probe (Kernel.counting 1) {} q ⟨3, notes⟩ = .ok c ⟨4, notes'⟩) ∧
      (∀ notes, ∃ c notes', probe (Kernel.counting 1) {} p ⟨4, notes⟩ = .ok c ⟨6, notes'⟩) ∧
      (∀ notes, ∃ c notes', probe (Kernel.counting 5) {} p' ⟨9, notes⟩ = .ok c ⟨19, notes'⟩) ∧
      ∀ notes, ∃ c notes', probe (Kernel.counting 5) {} p ⟨9, notes⟩ = .ok c ⟨19, notes'⟩ := by
    refine ⟨?_, ?_, ?_, ?_, ?_, ?_, ?_, ?_, ?_, ?_⟩
    rotate_left 3
    · conv => lhs; cbv
    · conv => lhs; cbv
    · exact rfl
    · refine counting_probe (by conv => lhs; cbv) ⟨_, rfl⟩ rfl ?_
      decide +kernel
    · refine counting_probe (by conv => lhs; cbv) ⟨_, rfl⟩ rfl ?_
      decide +kernel
    · refine counting_probe (by conv => lhs; cbv) ⟨_, rfl⟩ rfl ?_
      decide +kernel
    · refine counting_probe (by conv => lhs; cbv) ⟨_, rfl⟩ rfl ?_
      decide +kernel
  obtain ⟨q, p, p', hparse, hparse', herase, hq, hp, hp', halone⟩ := hprobes
  obtain ⟨cq, notes₁, hq⟩ := hq #[.scriptParsed countedLater.name 2]
  obtain ⟨c, notes₂, hc⟩ := hp notes₁
  obtain ⟨c', notes₃, hc'⟩ := hp' #[.scriptParsed countedEvents.name 1]
  obtain ⟨c'', notes₄, hc''⟩ := halone #[]
  have hscript : (script (Kernel.counting 1) {} countedLater).run ⟨3, #[]⟩ =
      .ok [cq, c] ⟨6, notes₂⟩ := by
    unfold script
    rw [hparse]
    change probes _ _ [q, p] ⟨3, #[.scriptParsed countedLater.name 2]⟩ = _
    exact estate_bind_ok.2 ⟨cq, _, hq, estate_bind_ok.2
      ⟨[c], _, estate_bind_ok.2 ⟨c, _, hc, rfl⟩, rfl⟩⟩
  have hscript' : (script (Kernel.counting 5) {} countedEvents).run ⟨9, #[]⟩ =
      .ok [c'] ⟨19, notes₃⟩ := by
    unfold script
    rw [hparse']
    change probes _ _ [p'] ⟨9, #[.scriptParsed countedEvents.name 1]⟩ = _
    exact estate_bind_ok.2 ⟨c', _, hc', rfl⟩
  obtain ⟨hone, hall⟩ :=
    code_depends_on_descriptors_alone {} (Kernel.counting 1) (Kernel.counting 5)
  exact ⟨[cq, c], [c'], _, _, hscript, hscript',
    hall _ _ _ _ _ _ _ _ _ _ hparse hparse' hscript hscript' 1 0 p p' rfl rfl herase,
    p, c, c'', hone _ _ hparse p (List.mem_cons_of_mem _ List.mem_cons_self) _ _ _ _ c c'' hc hc''⟩

end Compile

end TraceScript
