import Mathlib
import TraceScript.Proofs.Agreement
import TraceScript.Proofs.Grammar
import TraceScript.Proofs.Retyped

namespace TraceScript

open Run

/-- A map that was assumed to hold integers was declared to hold values of another shape. -/
def Typing.Refined (s : Typing) (map : Name) (shape : Shape) : Prop :=
  Note.refinedValue map shape ∈ s.notes

def Typing.Unrefined (s : Typing) : Prop := ∀ map shape, ¬s.Refined map shape

namespace Node

/-- The variable or map that a place belongs to. -/
def root : Node → List Name
  | var _ name => [name]
  | mapAccess _ map _ => [map]
  | _ => []

mutual

/-- The variables and maps of compound assignments. -/
def assigned : Node → List Name
  | assignment _ _ target _ => target.root
  | cond _ _ yes no => assignedAll yes ++ assignedAll no
  | unroll _ _ body => assignedAll body
  | _ => []

def assignedAll : List Node → List Name
  | [] => []
  | n :: ns => n.assigned ++ assignedAll ns

end

end Node

namespace Table

/-- Every value has its place on the stack. -/
structure Stacked (t : Table) : Prop extends t.Sound where
  storage : ∀ (i : Nat) (s : Symbol), t.symbols[i]? = some s → s.facts.storage = .stack

theorem stacked_empty : Stacked {} where
  toSound := sound_empty
  storage i s h := by simp at h

/-- A name is settled on a shape. -/
def Holds (t : Table) (name : Name) (shape : Shape) : Prop :=
  ∃ i s, t.Names name i s ∧ s.Settled ∧ s.facts.shape = some shape

theorem Holds.mono {t t' : Table} {name : Name} {shape : Shape} (h : t.Holds name shape)
    (hg : t.Grows t') : t'.Holds name shape := by
  obtain ⟨i, s, hn, hset, hsh⟩ := h
  obtain ⟨s', hn', hgs⟩ := hg.names hn
  obtain ⟨hset', hsh'⟩ := hgs.settled hset
  exact ⟨i, s', hn', hset', hsh'.trans hsh⟩

theorem names_of_find {t : Table} {name : Name} {s : Symbol} (h : t.find? name = some s) :
    ∃ i, t.Names name i s := by
  have hfind : t.find? name = (t.lookup name).bind (t.symbols[·]?) :=
    Array.find?_eq_bind_findIdx?_getElem?
  rw [hfind] at h
  obtain ⟨i, hl, hs⟩ := Option.bind_eq_some_iff.1 h
  exact ⟨i, hl, hs⟩

theorem Sound.holds_int_iff {t : Table} (ht : t.Sound) (name : Name) :
    (∀ shape, t.Holds name shape → shape = .int) ↔
      ∀ s, t.find? name = some s → s.facts.shape = some .int := by
  constructor
  · intro h s hfind
    obtain ⟨i, hn⟩ := names_of_find hfind
    obtain ⟨shape, hsh, -⟩ := (ht.names hn).shape
    cases hp : s.map.any MapSlot.provisional with
    | false => rw [hsh, h shape ⟨i, s, hn, ⟨by rw [hsh]; rfl, hp⟩, hsh⟩]
    | true =>
      cases hm : s.map with
      | none =>
        rw [hm] at hp
        cases hp
      | some slot =>
        rw [hm] at hp
        exact (ht.names hn).assumed slot hm hp
  · rintro h shape ⟨i, s, hn, -, hsh⟩
    exact Option.some.inj (hsh.symm.trans (h s hn.find))

theorem Grows.lookup {t t' : Table} (hg : t.Grows t') {name : Name} {i : Nat}
    (h : t.lookup name = some i) : t'.lookup name = some i := by
  obtain ⟨s', hn', -⟩ := hg.names (names_of_lookup h)
  exact hn'.lookup

end Table

/-- Which compound assignments the assumptions and refinements so far come from. -/
structure Typing.Tracked (names : List Name) (s : Typing) : Prop where
  assumed : ∀ (i : Nat) (sym : Symbol), s.table.symbols[i]? = some sym →
    sym.map.any MapSlot.provisional = true → ∃ name ∈ names, s.table.lookup name = some i
  refined : ∀ map shape, s.Refined map shape →
    shape ≠ .int ∧ ∃ name ∈ names, s.table.Holds name shape

theorem Typing.tracked_empty : Typing.Tracked [] {} where
  assumed i sym h := by simp at h
  refined map shape h := by simp [Refined] at h

namespace Annotate

/-- What typing does while it meets compound assignments to these names. -/
structure Step (names : List Name) (s s' : Typing) : Prop where
  grows : s.table.Grows s'.table
  stacked : s'.table.Stacked
  agrees : s'.Unrefined → s.Unrefined ∧ s.table.Agrees s'.table
  tracked : ∀ before, s.Tracked before → s'.Tracked (before ++ names)
  ints : ∀ name ∈ names, ∀ shape, s.table.Holds name shape → shape = .int

theorem Step.refl {s : Typing} (hs : s.table.Stacked) : Step [] s s where
  grows := .refl _
  stacked := hs
  agrees h := ⟨h, .refl _⟩
  tracked before h := by rwa [List.append_nil]
  ints _ h := (List.not_mem_nil h).elim

theorem Step.trans {names names' : List Name} {a b c : Typing} (hab : Step names a b)
    (hbc : Step names' b c) : Step (names ++ names') a c where
  grows := hab.grows.trans hbc.grows
  stacked := hbc.stacked
  agrees h := by
    obtain ⟨hb, htb⟩ := hbc.agrees h
    obtain ⟨ha, hta⟩ := hab.agrees hb
    exact ⟨ha, hta.trans htb⟩
  tracked before h := by
    rw [← List.append_assoc]
    exact hbc.tracked _ (hab.tracked before h)
  ints name hname shape hshape := by
    rcases List.mem_append.1 hname with hn | hn
    · exact hab.ints name hn shape hshape
    · exact hbc.ints name hn shape (hshape.mono hab.grows)

/-- The step, from any table that agrees with what it leaves, has the same result and no effect. -/
def Retraces {α : Type} (names : List Name) (f : Annotate α) : Prop :=
  ∀ (s s' : Typing) (a : α), s.table.Stacked → f s = .ok a s' → Step names s s' ∧
    (s'.Unrefined → ∀ t notes, s'.table.Agrees t → f ⟨t, notes⟩ = .ok a ⟨t, notes⟩)

section

variable {α β : Type}

theorem Reads.retraces {f : Annotate α} (hf : Reads f) : Retraces [] f := by
  intro s s' a hs h
  obtain ⟨rfl, hagain⟩ := hf _ _ _ hs.toSound h
  exact ⟨.refl hs, fun _ => hagain⟩

theorem Retraces.bind {names names' : List Name} {x : Annotate α} {f : α → Annotate β}
    (hx : Retraces names x) (hf : ∀ a, Retraces names' (f a)) :
    Retraces (names ++ names') (x >>= f) := by
  intro s s' b hs h
  obtain ⟨a, s₁, h₁, h₂⟩ := estate_bind_ok.1 h
  obtain ⟨hstep, hx'⟩ := hx _ _ _ hs h₁
  obtain ⟨hstep', hf'⟩ := hf a _ _ _ hstep.stacked h₂
  refine ⟨hstep.trans hstep', fun hu t notes ht => ?_⟩
  obtain ⟨hu₁, hagrees⟩ := hstep'.agrees hu
  exact estate_bind_ok.2 ⟨a, _, hx' hu₁ t notes (hagrees.trans ht), hf' hu t notes ht⟩

theorem Reads.bind_retraces {names : List Name} {x : Annotate α} {f : α → Annotate β}
    (hx : Reads x) (hf : ∀ a, Retraces names (f a)) : Retraces names (x >>= f) :=
  hx.retraces.bind hf

theorem Retraces.pure_of {names : List Name} {x : Annotate α} (hx : Retraces names x)
    (f : α → β) : Retraces names (do let a ← x; return f a) := by
  have := hx.bind fun a => (Reads.pure (f a)).retraces
  rwa [List.append_nil] at this

end

/-- What a declaration or a compound assignment to a name does to its symbol: the symbol keeps what
is known of it, unless it was an assumption that the declaration refines. -/
structure Writes (names : List Name) (s s' : Typing) (name : Name) (i : Nat) (sym : Symbol) : Prop
    where
  updates : s.table.Updates name i sym s'.table
  sound : sym.Sound
  storage : sym.facts.storage = .stack
  assumed : sym.map.any MapSlot.provisional = true → name ∈ names
  outcome : (∀ map shape, s'.Refined map shape ↔ s.Refined map shape) ∧
      (∀ old, s.table.Names name i old → sym.facts = old.facts) ∨
    ∃ map shape old, (∀ m sh, s'.Refined m sh ↔ s.Refined m sh ∨ m = map ∧ sh = shape) ∧
      s.table.Names name i old ∧ old.map.any MapSlot.provisional = true ∧
      sym.Settled ∧ sym.facts.shape = some shape ∧ shape ≠ .int

variable {s s' : Typing} {name : Name} {i : Nat} {sym : Symbol} {sh : Shape} {u : Unit}

theorem Writes.agrees {names : List Name} (h : Writes names s s' name i sym) (hu : s'.Unrefined) :
    s.Unrefined ∧ s.table.Agrees s'.table := by
  rcases h.outcome with ⟨hsame, hfacts⟩ | ⟨map, shape, old, hrefined, -⟩
  · exact ⟨fun map shape hm => hu map shape ((hsame map shape).2 hm), h.updates.agrees hfacts⟩
  · exact (hu map shape ((hrefined map shape).2 (.inr ⟨rfl, rfl⟩))).elim

theorem Writes.tracked {names before : List Name} (h : Writes names s s' name i sym)
    (ht : s.Tracked before) :
    s'.Tracked (before ++ names) where
  assumed j x hx hp := by
    rcases h.updates.symbol_cases hx with ⟨rfl, rfl⟩ | hold
    · exact ⟨name, List.mem_append_right _ (h.assumed hp), h.updates.names.lookup⟩
    · obtain ⟨nm, hmem, hl⟩ := ht.assumed j x hold hp
      exact ⟨nm, List.mem_append_left _ hmem, h.updates.grows.lookup hl⟩
  refined map shape hm := by
    have hearlier : s.Refined map shape →
        shape ≠ .int ∧ ∃ nm ∈ before ++ names, s'.table.Holds nm shape := by
      intro hm
      obtain ⟨hne, nm, hmem, hholds⟩ := ht.refined map shape hm
      exact ⟨hne, nm, List.mem_append_left _ hmem, hholds.mono h.updates.grows⟩
    rcases h.outcome with ⟨hsame, -⟩ | ⟨map', shape', old, hrefined, hn, hp, hset, hsh, hne⟩
    · exact hearlier ((hsame map shape).1 hm)
    · rcases (hrefined map shape).1 hm with hm | ⟨rfl, rfl⟩
      · exact hearlier hm
      -- The assumption came from a compound assignment to the symbol that is refined now.
      · obtain ⟨nm, hmem, hl⟩ := ht.assumed i old hn.symbol hp
        exact ⟨hne, nm, List.mem_append_left _ hmem, i, sym,
          ⟨h.updates.grows.lookup hl, h.updates.symbol⟩, hset, hsh⟩

theorem Writes.step {names : List Name} (h : Writes names s s' name i sym) (hs : s.table.Stacked)
    (hints : ∀ nm ∈ names, ∀ shape, s.table.Holds nm shape → shape = .int) : Step names s s' where
  grows := h.updates.grows
  stacked :=
    { h.updates.sound hs.toSound h.sound with
      storage := fun j x hx => by
        rcases h.updates.symbol_cases hx with ⟨-, rfl⟩ | hold
        · exact h.storage
        · exact hs.storage j x hold }
  agrees := h.agrees
  tracked _ := h.tracked
  ints := hints

theorem refined_push {t : Table} {notes : Array Note} {n : Note} {map : Name} {shape : Shape} :
    Typing.Refined ⟨t, notes.push n⟩ map shape ↔
      Typing.Refined ⟨t, notes⟩ map shape ∨ .refinedValue map shape = n := by
  simp only [Typing.Refined, Array.mem_push]

/-- No refinement is reported. -/
def Silent {α : Type} (f : Annotate α) : Prop :=
  ∀ (s s' : Typing) (a : α), f s = .ok a s' →
    ∀ map shape, s'.Refined map shape ↔ s.Refined map shape

section

variable {α β : Type}

theorem Silent.bind {x : Annotate α} {f : α → Annotate β} (hx : Silent x)
    (hf : ∀ a, Silent (f a)) : Silent (x >>= f) := by
  intro s s' b h map shape
  obtain ⟨a, s₁, h₁, h₂⟩ := estate_bind_ok.1 h
  exact (hf a _ _ _ h₂ map shape).trans (hx _ _ _ h₁ map shape)

theorem Silent.pure (a : α) : Silent (pure a) := by
  intro s s' b h map shape
  obtain ⟨-, rfl⟩ := estate_pure_ok.1 h
  rfl

theorem Silent.fail (e : SemanticError) (span : Span) : Silent (fail e span : Annotate α) :=
  fun _ _ _ h => (fail_ok.1 h).elim

theorem Silent.table : Silent table := by
  rintro s _ _ ⟨⟩ map shape
  rfl

theorem Silent.modifyTable (f : Table → Table) : Silent (modifyTable f) := by
  rintro s _ _ ⟨⟩ map shape
  rfl

theorem Silent.symbol (i : Nat) : Silent (symbol i) := .bind .table fun _ => .pure _

theorem Silent.note {n : Note} (hn : ∀ map shape, .refinedValue map shape ≠ n) :
    Silent (note n) := by
  rintro s _ _ ⟨⟩ map shape
  exact refined_push.trans (or_iff_left (hn map shape))

theorem Silent.declare {n : Note} (hn : ∀ map shape, .refinedValue map shape ≠ n)
    (add : Table → Nat × Table) : Silent (declare n add) :=
  .bind (.note hn) fun _ => .bind .table fun _ => .bind (.modifyTable _) fun _ => .pure _

end

theorem silent_variableIndex (name : Name) (span : Span) (mayDeclare : Bool) :
    Silent (variableIndex name span mayDeclare) := by
  refine .bind .table fun t => ?_
  split
  · refine .bind (.symbol _) fun sym => ?_
    split
    · exact .pure _
    · exact .fail _ _
  · split
    · exact .declare (fun _ _ h => by cases h) _
    · exact .fail _ _

theorem silent_mapIndex (name : Name) (keySize : Nat) (span : Span) (mayDeclare : Bool) :
    Silent (mapIndex name keySize span mayDeclare) := by
  have hcheck : ∀ i, Silent (do checkKeySize name keySize span i; return i) := by
    refine fun i => .bind (.bind (.symbol i) fun sym => ?_) fun _ => .pure _
    dsimp only
    split
    · exact .modifyTable _
    · split
      · exact .fail _ _
      · exact .pure _
  refine .bind .table fun t => ?_
  split
  · refine .bind (.symbol _) fun sym => ?_
    split
    · exact .bind (.pure _) hcheck
    · exact .bind (.fail _ _) hcheck
  · split
    · exact .bind (.declare (fun _ _ h => by cases h) _) hcheck
    · exact .bind (.fail _ _) hcheck

theorem silent_bindValue (i : Nat) (value : Node) : Silent (bindValue i value) := by
  refine .bind (.symbol i) fun sym => .bind ?_ fun _ => .bind (.modifyTable _) fun _ => .pure _
  unfold orFail
  split
  · exact .pure _
  · exact .fail _ _

theorem silent_assumeInt (i : Nat) : Silent (assumeInt i) := by
  refine .bind (.symbol i) fun sym => ?_
  split
  · exact .bind (.modifyTable _) fun _ => .note nofun
  · exact .pure _

theorem refine_refined {map : Name} {shape : Shape} (hsym : s.table.symbols.getD i default = sym)
    (h : refine i map shape s = .ok u s') :
    sym.facts.shape = some shape ∧ (∀ m sh, s'.Refined m sh ↔ s.Refined m sh) ∨
      sym.facts.shape ≠ some shape ∧
        ∀ m sh, s'.Refined m sh ↔ s.Refined m sh ∨ m = map ∧ sh = shape := by
  unfold refine at h
  obtain ⟨x, s₁, ⟨⟩, h₁⟩ := estate_bind_ok.1 h
  rw [hsym] at h₁
  by_cases hsh : sym.facts.shape = some shape
  · rw [if_neg (not_not.2 hsh)] at h₁
    cases h₁
    exact .inl ⟨hsh, fun _ _ => .rfl⟩
  · rw [if_pos hsh] at h₁
    cases h₁
    refine .inr ⟨hsh, fun m sh => refined_push.trans (or_congr_right ?_)⟩
    rw [Note.refinedValue.injEq]

theorem bindValue_facts {value value' : Node} (hsym : s.table.symbols[i]? = some sym)
    (h : bindValue i value s = .ok value' s') :
    ∃ sym', s'.table.symbols[i]? = some sym' ∧ sym'.facts.storage = .stack ∧
      (sym.facts.shape ≠ none → sym'.facts = { sym.facts with storage := .stack }) := by
  obtain ⟨s, notes⟩ := s
  unfold bindValue at h
  obtain ⟨x, s₁, hx, h₁⟩ := estate_bind_ok.1 h
  rw [symbol_ok notes hsym] at hx
  cases hx
  obtain ⟨⟨left, right⟩, s₂, hu, h₂⟩ := estate_bind_ok.1 h₁
  obtain ⟨hunify, rfl⟩ := orFail_ok.1 hu
  obtain ⟨u, s₃, hmod, h₃⟩ := estate_bind_ok.1 h₂
  rw [modifySymbol_ok] at hmod
  cases hmod
  obtain ⟨-, rfl⟩ := estate_pure_ok.1 h₃
  refine ⟨{ sym with facts := { left with storage := .stack } }, ?_, rfl, fun hne => ?_⟩
  · simp [Table.modify, Array.getElem?_modify, hsym]
  · have hleft : left = sym.facts := by
      unfold Facts.unify at hunify
      split at hunify
      · split at hunify
        · cases hunify
          rfl
        · cases hunify
      · cases hunify
        rfl
      · exact (hne ‹_›).elim
      · cases hunify
        rfl
    rw [hleft]

theorem variableIndex_declared (span : Span) (h : s.table.lookup name = some i) :
    variableIndex name span true s = variableIndex name span false s := by
  simp only [variableIndex, bind, EStateM.bind, show table s = .ok s.table s from rfl, h]

theorem mapIndex_declared (keySize : Nat) (span : Span) (h : s.table.lookup name = some i) :
    mapIndex name keySize span true s = mapIndex name keySize span false s := by
  simp only [mapIndex, bind, EStateM.bind, show table s = .ok s.table s from rfl, h]

theorem variableIndex_old {span : Span} {old : Symbol} (hs : s.table.Sound)
    (h : variableIndex name span true s = .ok i s') (hup : s.table.Updates name i sym s'.table)
    (hn : s.table.Names name i old) : sym = old := by
  rw [variableIndex_declared _ hn.lookup] at h
  obtain ⟨rfl, -⟩ := reads_variableIndex _ _ _ _ _ hs h
  exact (hup.names.unique hn).2

theorem mapIndex_old {keySize : Nat} {span : Span} {old : Symbol} (hs : s.table.Sound)
    (h : mapIndex name keySize span true s = .ok i s') (hup : s.table.Updates name i sym s'.table)
    (hn : s.table.Names name i old) : sym = old := by
  rw [mapIndex_declared _ _ hn.lookup] at h
  obtain ⟨rfl, -⟩ := reads_mapIndex _ _ _ _ _ _ hs h
  exact (hup.names.unique hn).2

theorem packedSize_of_keys {keys keys' : List Node} (hs : s.table.Sound) (hne : keys ≠ [])
    (hkeys : ∀ k ∈ keys, Expression k) (h : expressions notRecord keys s = .ok keys' s') :
    0 < packedSize keys' ∧ packedSize keys' % 8 = 0 := by
  obtain ⟨-, hlen, hall⟩ := expressions_ok (fun k hk => types_of_expression (hkeys k hk)) hs h
  exact packedSize_of_typed hs.shaped (ne_nil_of_length_eq hlen hne) fun k hk => (hall k hk).1

theorem bindValue_writes {s₁ : Typing} {value value' : Node} (hs : s.table.Stacked)
    (hup : s.table.Updates name i sym s₁.table) (hold : ∀ old, s.table.Names name i old → sym = old)
    (hrefined : ∀ map shape, s₁.Refined map shape ↔ s.Refined map shape) (hsym : sym.Unplaced)
    (hmap : sym.map.any MapSlot.provisional = false) (hsh : value.facts.shape = some sh)
    (hv : sh.IsValue) (h : bindValue i value s₁ = .ok value' s') :
    value' = value ∧ ∃ sym', Writes [] s s' name i sym' ∧ sym'.map = sym.map ∧ sym'.Settled ∧
      sym'.facts.shape = some sh := by
  obtain ⟨rfl, sym', hup', hm', hsound, hset, hsh'⟩ := bindValue_updates hup hsym hmap hsh hv h
  obtain ⟨x, hx, hstorage, hfacts⟩ := bindValue_facts hup.symbol h
  obtain rfl := Option.some.inj (hup'.symbol.symm.trans hx)
  refine ⟨rfl, sym', ⟨hup', hsound, hstorage, fun hp => ?_, .inl ⟨?_, fun old hn => ?_⟩⟩, hm', hset,
    hsh'⟩
  · exact (Bool.false_ne_true (hset.2.symm.trans hp)).elim
  · exact fun map shape => (silent_bindValue _ _ _ _ _ h map shape).trans (hrefined map shape)
  · obtain rfl := hold old hn
    obtain ⟨sh₀, hsh₀, -⟩ := (hs.names hn).shape
    rw [hfacts (by rw [hsh₀]; nofun), ← hs.storage i sym hn.symbol]

theorem refine_writes {map : Name} {slot : MapSlot} (hs : s.table.Stacked)
    (hn : s.table.Names map i sym) (hm : sym.map = some slot) (hp : slot.provisional = true)
    (hv : sh.IsValue) (h : refine i map sh s = .ok u s') :
    ∃ sym' slot', Writes [] s s' map i sym' ∧ sym'.map = some slot' ∧
      slot'.keySize = slot.keySize ∧ sym'.Settled ∧ sym'.facts.shape = some sh := by
  have hsound := hs.names hn
  obtain ⟨sym', slot', hup, hm', hk, hsound', hset, hsh⟩ :=
    refine_updates hn.updates hsound hm hp hv h
  have hfacts : sym'.facts = { sym.facts.withShape sh with storage := .stack } := by
    have hsym' := hup.symbol
    rw [refine_ok h] at hsym'
    simp only [Table.modify, Array.getElem?_modify, if_true, hn.symbol, Option.map_some] at hsym'
    rw [← Option.some.inj hsym']
  refine ⟨sym', slot', ⟨hup, hsound', by rw [hfacts], fun hp' => ?_, ?_⟩, hm', hk, hset, hsh⟩
  · exact (Bool.false_ne_true (hset.2.symm.trans hp')).elim
  have hint := hsound.assumed slot hm hp
  rcases refine_refined hn.getD h with ⟨hsame, hrefined⟩ | ⟨hne, hrefined⟩
  · refine .inl ⟨hrefined, fun old hold => ?_⟩
    obtain ⟨-, rfl⟩ := hn.unique hold
    obtain ⟨htype, hsize⟩ := Facts.shape_eq_some.1 hsame
    rw [hfacts, Facts.withShape, ← htype, ← hsize, ← hs.storage i sym hn.symbol]
  · refine .inr ⟨map, sh, sym, hrefined, hn, by rw [hm]; exact hp, hset, hsh, ?_⟩
    rintro rfl
    exact hne hint

theorem declareMap_writes {s₁ : Typing} {map : Name} {keySize : Nat} {span : Span} {value : Node}
    (hs : s.table.Stacked) (hpos : 0 < keySize) (hmod : keySize % 8 = 0)
    (hsh : value.facts.shape = some sh) (hv : sh.IsValue)
    (hi : mapIndex map keySize span true s = .ok i s₁)
    (h : if (s₁.table.symbols.getD i default).map.any MapSlot.provisional then
        refine i map sh s₁ = .ok () s'
      else bindValue i value s₁ = .ok value s') :
    ∃ sym slot, Writes [] s s' map i sym ∧ sym.map = some slot ∧ slot.keySize = keySize ∧
      sym.Settled ∧ sym.facts.shape = some sh := by
  obtain ⟨sym, slot, hup, hm, hk, hcase⟩ := mapIndex_ok hs.toSound hi
  rw [hup.names.getD, hm, Option.any_some] at h
  cases hp : slot.provisional with
  | true =>
    rw [hp, if_pos rfl] at h
    rcases hcase with ⟨rfl, hn⟩ | ⟨-, rfl⟩
    · obtain ⟨sym', slot', hw, hm', hk', hset, hsh'⟩ := refine_writes hs hn hm hp hv h
      exact ⟨sym', slot', hw, hm', hk'.trans hk, hset, hsh'⟩
    · cases hm
      cases hp
  | false =>
    rw [hp, if_neg Bool.false_ne_true] at h
    have hsym : sym.Unplaced := by
      rcases hcase with ⟨-, hn⟩ | ⟨-, rfl⟩
      · exact (hs.names hn).toUnplaced
      · exact unplaced_fresh_map hpos hmod
    obtain ⟨-, sym', hw, hm', hset, hsh'⟩ := bindValue_writes hs hup
      (fun _ => mapIndex_old hs.toSound hi hup) (silent_mapIndex _ _ _ _ _ _ _ hi) hsym
      (by rw [hm]; exact hp) hsh hv h
    exact ⟨sym', slot, hw, hm'.trans hm, hk, hset, hsh'⟩

/-- What a declaration that is accepted has typed, and what it has written. -/
theorem declaration_ok {tag : Tag} {target value n : Node} (htarget : Place target)
    (hvalue : Expression value) (hs : s.table.Stacked)
    (h : declaration tag target value s = .ok n s') :
    ∃ value' sh i sym, expression value s = .ok value' s ∧ value'.facts.shape = some sh ∧
      sym.Settled ∧ sym.facts.shape = some sh ∧
      ((∃ place name, target = .var place name ∧ Writes [] s s' name i sym ∧ sym.map = none ∧
          n = .declaration tag (.var { place with facts := .ofShape sh .stack } name) value') ∨
        ∃ place map keys keys' slot, target = .mapAccess place map keys ∧
          expressions notRecord keys s = .ok keys' s ∧ 0 < packedSize keys' ∧
          Writes [] s s' map i sym ∧ sym.map = some slot ∧ slot.keySize = packedSize keys' ∧
          n = .declaration tag (.mapAccess { place with facts := .ofShape sh .stack } map keys')
            value') := by
  unfold declaration at h
  obtain ⟨value', s₁, hexp, h₁⟩ := estate_bind_ok.1 h
  obtain ⟨rfl, htv⟩ := types_of_expression hvalue _ _ _ hs.toSound hexp
  obtain ⟨sh, s₂, hshape, h₂⟩ := estate_bind_ok.1 h₁
  obtain ⟨hsh, rfl⟩ := shapeOf_ok.1 hshape
  have hv : sh.IsValue := by
    obtain ⟨sh', h', hv⟩ := htv.shape hs.shaped
    exact Option.some.inj (h'.symm.trans hsh) ▸ hv
  cases htarget with
  | var _ =>
    obtain ⟨i, s₃, hi, h₃⟩ := estate_bind_ok.1 h₂
    obtain ⟨value'', s₄, hbind, h₄⟩ := estate_bind_ok.1 h₃
    obtain ⟨rfl, rfl⟩ := estate_pure_ok.1 h₄
    obtain ⟨sym, hup, hm, hcase⟩ := variableIndex_ok hs.toSound hi
    have hsym : sym.Unplaced := by
      rcases hcase with ⟨-, hn⟩ | ⟨-, rfl⟩
      · exact (hs.names hn).toUnplaced
      · exact ⟨⟨nofun, nofun⟩, rfl, nofun, nofun⟩
    obtain ⟨rfl, sym', hw, hm', hset, hsh'⟩ := bindValue_writes hs hup
      (fun _ => variableIndex_old hs.toSound hi hup) (silent_variableIndex _ _ _ _ _ _ hi) hsym
      (by rw [hm]; rfl) hsh hv hbind
    exact ⟨_, sh, i, sym', hexp, hsh, hset, hsh', .inl ⟨_, _, rfl, hw, hm'.trans hm, rfl⟩⟩
  | @mapAccess place map keys _ hne hkeys =>
    obtain ⟨keys', s₃, hexps, h₃⟩ := estate_bind_ok.1 h₂
    obtain ⟨hpos, hmod⟩ := packedSize_of_keys hs.toSound hne hkeys hexps
    obtain ⟨rfl, -⟩ := reads_expressions notRecord _ _ _ _ hs.toSound hexps
    obtain ⟨i, s₄, hi, h₄⟩ := estate_bind_ok.1 h₃
    obtain ⟨x, s₅, ⟨⟩, h₅⟩ := estate_bind_ok.1 h₄
    obtain ⟨rfl, hbind⟩ : n = .declaration tag
          (.mapAccess { place with facts := .ofShape sh .stack } map keys') value' ∧
        if (s₄.table.symbols.getD i default).map.any MapSlot.provisional then
          refine i map sh s₄ = .ok () s'
        else bindValue i value' s₄ = .ok value' s' := by
      split at h₅
      · obtain ⟨u, s₆, hrefine, h₆⟩ := estate_bind_ok.1 h₅
        obtain ⟨rfl, rfl⟩ := estate_pure_ok.1 h₆
        rw [if_pos ‹_›]
        exact ⟨rfl, hrefine⟩
      · obtain ⟨value'', s₆, hbind, h₆⟩ := estate_bind_ok.1 h₅
        obtain ⟨rfl, rfl⟩ := estate_pure_ok.1 h₆
        obtain rfl := bindValue_retyped hsh hbind
        rw [if_neg ‹_›]
        exact ⟨rfl, hbind⟩
    obtain ⟨sym, slot, hw, hm, hk, hset, hsh'⟩ := declareMap_writes hs hpos hmod hsh hv hi hbind
    exact ⟨value', sh, i, sym, hexp, hsh, hset, hsh',
      .inr ⟨place, map, keys, keys', slot, rfl, hexps, hpos, hw, hm, hk, rfl⟩⟩

theorem declaration_retraces {tag : Tag} {target value : Node} (htarget : Place target)
    (hvalue : Expression value) : Retraces [] (declaration tag target value) := by
  intro s s' n hs h
  obtain ⟨value', sh, i, sym, hexp, hsh, hset, hsh', hcase⟩ := declaration_ok htarget hvalue hs h
  obtain ⟨-, hexp'⟩ := reads_expression value _ _ _ hs.toSound hexp
  rcases hcase with ⟨place, name, rfl, hw, hm, rfl⟩ |
    ⟨place, map, keys, keys', slot, rfl, hexps, hpos, hw, hm, hk, rfl⟩
  all_goals
    refine ⟨hw.step hs fun _ hmem => (List.not_mem_nil hmem).elim, fun hu t notes ht => ?_⟩
    obtain ⟨sym', hn, hg, hf⟩ := ht.names_facts hw.updates.names
    have hagrees := (hw.agrees hu).2.trans ht
  · exact declaration_var_again (hexp' t notes hagrees) hsh hn
      (hg.kind.trans (hw.sound.var_iff.2 hm)) (hf ▸ hsh') (hf ▸ hw.storage)
  · obtain ⟨-, hexps'⟩ := reads_expressions notRecord _ _ _ _ hs.toSound hexps
    obtain ⟨slot', hm', hk'⟩ := hg.map_some hm (by omega)
    exact declaration_map_again (hexp' t notes hagrees) hsh (hexps' t notes hagrees) hn
      (hg.kind.trans (hw.sound.kind.2 (by rw [hm]; rfl))) hm' (hk'.trans hk) hpos
      (hg.settled hset).1 (hf ▸ hsh') (hf ▸ hw.storage)

theorem Writes.step_int (h : Writes [name] s s' name i sym) (hs : s.table.Stacked)
    (hsh : sym.facts.shape = some .int) : Step [name] s s' := by
  refine h.step hs fun nm hmem shape ⟨j, old, hn, hset, hshape⟩ => ?_
  obtain rfl := List.mem_singleton.1 hmem
  obtain ⟨old', hn', -⟩ := h.updates.grows.names hn
  obtain ⟨rfl, -⟩ := h.updates.names.unique hn'
  rcases h.outcome with ⟨-, hfacts⟩ | ⟨map, shape', old, -, -, -, -, hsh', hne⟩
  · rw [← hfacts old hn, hsh] at hshape
    exact (Option.some.inj hshape).symm
  · exact (hne (Option.some.inj (hsh'.symm.trans hsh))).elim

theorem writes_existing (hs : s.table.Stacked) (hn : s.table.Names name i sym) :
    Writes [name] s s name i sym where
  updates := hn.updates
  sound := hs.names hn
  storage := hs.storage i sym hn.symbol
  assumed _ := List.mem_singleton_self _
  outcome := .inl ⟨fun _ _ => .rfl, fun _ hold => congrArg Symbol.facts (hn.unique hold).2⟩

theorem assumeInt_eq (hs : s.table.Sound) (hn : s.table.Names name i sym)
    (h : assumeInt i s = .ok u s') : s' = s := by
  obtain ⟨sh, hshape, -⟩ := (hs.names hn).shape
  rcases assumeInt_ok hn.getD h with ⟨-, rfl⟩ | ⟨hnone, -⟩
  · rfl
  · rw [hnone] at hshape
    cases hshape

theorem expectIntSymbol_int {span : Span} (hs : sym.Sound) (hn : s.table.Names name i sym)
    (h : expectIntSymbol i span s = .ok u s') : s' = s ∧ sym.facts.shape = some .int := by
  obtain ⟨rfl, hint⟩ := expectIntSymbol_ok hn.getD h
  obtain ⟨sh, hshape, -⟩ := hs.shape
  rw [hshape, Option.getD_some] at hint
  exact ⟨rfl, hint ▸ hshape⟩

theorem assumeInt_writes {s₁ : Typing} {map : Name} {keySize : Nat} {span : Span}
    (hs : s.table.Stacked) (hpos : 0 < keySize) (hmod : keySize % 8 = 0)
    (hi : mapIndex map keySize span true s = .ok i s₁) (h : assumeInt i s₁ = .ok u s') :
    ∃ sym slot, Writes [map] s s' map i sym ∧ sym.map = some slot ∧ slot.keySize = keySize ∧
      (s.table.Names map i sym ∨ s.table.lookup map = none ∧ slot.provisional = true) := by
  obtain ⟨sym, slot, hup, hm, hk, ⟨rfl, hn⟩ | ⟨-, rfl⟩⟩ := mapIndex_ok hs.toSound hi
  · obtain rfl := assumeInt_eq hs.toSound hn h
    exact ⟨sym, slot, writes_existing hs hn, hm, hk, .inl hn⟩
  · rcases assumeInt_ok hup.names.getD h with ⟨hsome, -⟩ | ⟨-, heq⟩
    · exact (hsome rfl).elim
    obtain ⟨sym', slot', hup', hm', hk', hp, hsound⟩ := assumeInt_updates hup hpos hmod
    have hfacts : sym'.facts = .ofShape .int .stack := by
      have hsym' := hup'.symbol
      simp only [Table.modify, Array.getElem?_modify, if_true, hup.symbol, Option.map_some] at hsym'
      rw [← Option.some.inj hsym']
    -- A map that was there has a shape.
    have hnew : ∀ old, ¬s.table.Names map i old := by
      intro old hn
      obtain rfl := mapIndex_old hs.toSound hi hup hn
      obtain ⟨sh, ⟨⟩, -⟩ := (hs.names hn).shape
    refine ⟨sym', slot', ⟨heq ▸ hup', hsound, by rw [hfacts]; rfl,
      fun _ => List.mem_singleton_self _, .inl ⟨fun m sh => ?_, fun old hn => (hnew old hn).elim⟩⟩,
      hm', hk', .inr ⟨?_, hp⟩⟩
    · exact (silent_assumeInt _ _ _ _ h m sh).trans (silent_mapIndex _ _ _ _ _ _ _ hi m sh)
    · cases hl : s.table.lookup map with
      | none => rfl
      | some j =>
        have hn := Table.names_of_lookup hl
        obtain ⟨x, hn', -⟩ := hup.grows.names hn
        obtain ⟨rfl, -⟩ := hn'.unique hup.names
        exact (hnew _ hn).elim

/-- What a compound assignment that is accepted has typed, and what it has written. -/
theorem assignment_ok {tag : Tag} {op : ArithOp} {target value n : Node} (htarget : Place target)
    (hs : s.table.Stacked) (h : assignment tag op target value s = .ok n s') :
    ∃ value' i sym, expression value s = .ok value' s ∧ expectInt value' s = .ok () s ∧
      sym.facts.shape = some .int ∧
      ((∃ place name, target = .var place name ∧ s' = s ∧ s.table.Names name i sym ∧
          sym.map = none ∧ n = .assignment tag op
            (.var { place with facts := .ofShape .int .stack } name) value') ∨
        ∃ place map keys keys' slot, target = .mapAccess place map keys ∧
          expressions notRecord keys s = .ok keys' s ∧ 0 < packedSize keys' ∧
          Writes [map] s s' map i sym ∧ sym.map = some slot ∧ slot.keySize = packedSize keys' ∧
          (s.table.Names map i sym ∨ s.table.lookup map = none ∧ slot.provisional = true) ∧
          n = .assignment tag op (.mapAccess { place with facts := .ofShape .int .stack } map keys')
            value') := by
  unfold assignment at h
  obtain ⟨value', s₁, hexp, h₁⟩ := estate_bind_ok.1 h
  obtain ⟨rfl, -⟩ := reads_expression value _ _ _ hs.toSound hexp
  obtain ⟨u, s₂, hexpect, h₂⟩ := estate_bind_ok.1 h₁
  obtain ⟨rfl, -⟩ := reads_expectInt _ _ _ _ hs.toSound hexpect
  cases htarget with
  | var _ =>
    obtain ⟨i, s₃, hi, h₃⟩ := estate_bind_ok.1 h₂
    obtain ⟨sym, hup, hm, ⟨rfl, hn⟩ | ⟨⟨⟩, -⟩⟩ := variableIndex_ok hs.toSound hi
    obtain ⟨u, s₄, hassume, h₄⟩ := estate_bind_ok.1 h₃
    obtain rfl := assumeInt_eq hs.toSound hn hassume
    obtain ⟨u, s₅, hint, h₅⟩ := estate_bind_ok.1 h₄
    obtain ⟨rfl, hshape⟩ := expectIntSymbol_int (hs.names hn) hn hint
    obtain ⟨rfl, rfl⟩ := estate_pure_ok.1 h₅
    exact ⟨value', i, sym, hexp, hexpect, hshape, .inl ⟨_, _, rfl, rfl, hn, hm, rfl⟩⟩
  | mapAccess _ hne hkeys =>
    obtain ⟨keys', s₃, hexps, h₃⟩ := estate_bind_ok.1 h₂
    obtain ⟨hpos, hmod⟩ := packedSize_of_keys hs.toSound hne hkeys hexps
    obtain ⟨rfl, -⟩ := reads_expressions notRecord _ _ _ _ hs.toSound hexps
    obtain ⟨i, s₄, hi, h₄⟩ := estate_bind_ok.1 h₃
    obtain ⟨u, s₅, hassume, h₅⟩ := estate_bind_ok.1 h₄
    obtain ⟨sym, slot, hw, hm, hk, hold⟩ := assumeInt_writes hs hpos hmod hi hassume
    obtain ⟨u, s₆, hint, h₆⟩ := estate_bind_ok.1 h₅
    obtain ⟨rfl, hshape⟩ := expectIntSymbol_int hw.sound hw.updates.names hint
    obtain ⟨rfl, rfl⟩ := estate_pure_ok.1 h₆
    exact ⟨value', i, sym, hexp, hexpect, hshape,
      .inr ⟨_, _, _, keys', slot, rfl, hexps, hpos, hw, hm, hk, hold, rfl⟩⟩

theorem assignment_retraces {tag : Tag} {op : ArithOp} {target value : Node}
    (htarget : Place target) : Retraces target.root (assignment tag op target value) := by
  intro s s' n hs h
  obtain ⟨value', i, sym, hexp, hexpect, hshape, hcase⟩ := assignment_ok htarget hs h
  obtain ⟨-, hexp'⟩ := reads_expression value _ _ _ hs.toSound hexp
  obtain ⟨-, hexpect'⟩ := reads_expectInt _ _ _ _ hs.toSound hexpect
  rcases hcase with ⟨place, name, rfl, rfl, hn, hm, rfl⟩ |
    ⟨place, map, keys, keys', slot, rfl, hexps, hpos, hw, hm, hk, -, rfl⟩
  · refine ⟨(writes_existing hs hn).step_int hs hshape, fun _ t notes ht => ?_⟩
    obtain ⟨sym', hn', hg, hf⟩ := ht.names_facts hn
    exact assignment_var_again (hexp' t notes ht) (hexpect' t notes ht) hn'
      (hg.kind.trans ((hs.names hn).var_iff.2 hm)) (hf ▸ hshape)
  · obtain ⟨-, hexps'⟩ := reads_expressions notRecord _ _ _ _ hs.toSound hexps
    refine ⟨hw.step_int hs hshape, fun hu t notes ht => ?_⟩
    obtain ⟨sym', hn', hg, hf⟩ := ht.names_facts hw.updates.names
    obtain ⟨slot', hm', hk'⟩ := hg.map_some hm (by omega)
    have hagrees := (hw.agrees hu).2.trans ht
    exact assignment_map_again (hexp' t notes hagrees) (hexpect' t notes hagrees)
      (hexps' t notes hagrees) hn' (hg.kind.trans (hw.sound.kind.2 (by rw [hm]; rfl))) hm'
      (hk'.trans hk) hpos (hf ▸ hshape)

theorem requestEvents_retraces : Retraces [] (modifyTable Table.requestEvents) := by
  rintro s _ _ hs ⟨⟩
  have hgrows := s.table.grows_requestEvents
  refine ⟨⟨hgrows, ⟨⟨hs.symbols, hs.frame⟩, hs.storage⟩, fun hu => ⟨hu, hgrows, ?_⟩, ?_, ?_⟩, ?_⟩
  · exact fun i sym sym' h h' => by rw [Option.some.inj (h.symm.trans h')]
  · intro before ht
    rw [List.append_nil]
    refine ⟨ht.assumed, fun map shape hm => ?_⟩
    obtain ⟨hne, name, hmem, hholds⟩ := ht.refined map shape hm
    exact ⟨hne, name, hmem, hholds.mono hgrows⟩
  · exact fun _ hmem => (List.not_mem_nil hmem).elim
  · intro _ t notes ht
    have hsame := Table.requestEvents_of_needsEvents (ht.events s.table.needsEvents_requestEvents)
    exact congrArg (fun t => EStateM.Result.ok () (Typing.mk t notes)) hsame

theorem output_retraces (span : Span) (args : List Node) : Retraces [] (output span args) := by
  unfold output
  split
  · exact (Reads.fail _ _).retraces
  · split
    · exact (Reads.fail _ _).retraces
    · refine (reads_expression _).bind_retraces fun record => ?_
      have hrest : ∀ (cs : List Conversion) (args' : List Node), Retraces [] (do
          checkConversions cs (members record)
          modifyTable Table.requestEvents
          return args') :=
        fun cs args' => (reads_checkConversions cs _).bind_retraces fun _ =>
          requestEvents_retraces.pure_of fun _ => args'
      dsimp only
      split
      · exact (Reads.fail _ _).bind_retraces fun _ => hrest _ _
      · exact hrest _ _
  · exact (Reads.fail _ _).retraces

theorem callStatement_retraces (tag : Tag) (function : Name) (args : List Node) :
    Retraces [] (callStatement tag function args) := by
  refine (reads_builtin _ _ _).bind_retraces fun b => ?_
  split
  · exact (output_retraces _ _).pure_of _
  · exact (reads_expression _).retraces

theorem statements_retraces {ns : List Node}
    (hns : ∀ n ∈ ns, Retraces n.assigned (statement n)) :
    Retraces (Node.assignedAll ns) (statements ns) := by
  induction ns with
  | nil => exact (Reads.pure _).retraces
  | cons n ns ih =>
    rw [statements, Node.assignedAll]
    exact .bind (hns n List.mem_cons_self) fun n' =>
      (ih fun m hm => hns m (List.mem_cons_of_mem _ hm)).pure_of _

theorem statement_retraces {n : Node} (h : Statement n) : Retraces n.assigned (statement n) := by
  induction h with
  | declaration htarget hvalue =>
    rw [statement]
    exact declaration_retraces htarget hvalue
  | assignment htarget _ =>
    rw [statement, Node.assigned]
    exact assignment_retraces htarget
  | cond _ _ _ ihy ihn =>
    rw [statement, Node.assigned]
    exact (reads_expression _).bind_retraces fun c => (reads_expectInt c).bind_retraces fun _ =>
      .bind (statements_retraces ihy) fun _ => (statements_retraces ihn).pure_of _
  | unroll _ ih =>
    rw [statement, Node.assigned]
    exact (statements_retraces ih).pure_of _
  | call _ _ =>
    rw [statement]
    exact callStatement_retraces _ _ _

theorem body_retraces {ns : List Node} (hns : ∀ n ∈ ns, Statement n) :
    Retraces (Node.assignedAll ns) (statements ns) :=
  statements_retraces fun n hn => statement_retraces (hns n hn)

theorem statements_step {ns ns' : List Node} (hns : ∀ n ∈ ns, Statement n) (hs : s.table.Stacked)
    (h : statements ns s = .ok ns' s') : Step (Node.assignedAll ns) s s' :=
  (body_retraces hns _ _ _ hs h).1

section

variable {ns ns' : List Node} {s : Typing}

theorem unrefined_iff_ints (hns : ∀ n ∈ ns, Statement n) (h : statements ns {} = .ok ns' s) :
    s.Unrefined ↔ ∀ name ∈ Node.assignedAll ns, ∀ shape, s.table.Holds name shape → shape = .int := by
  obtain ⟨hstep, hagain⟩ := body_retraces hns _ _ _ Table.stacked_empty h
  constructor
  · intro hu
    exact (statements_step (s := ⟨s.table, #[]⟩) hns hstep.stacked
      (hagain hu s.table #[] (.refl _))).ints
  · intro hints map shape hm
    obtain ⟨hne, name, hmem, hholds⟩ := (hstep.tracked [] Typing.tracked_empty).refined map shape hm
    exact hne (hints name hmem shape hholds)

theorem statements_again (hns : ∀ n ∈ ns, Statement n) (h : statements ns {} = .ok ns' s)
    (hu : s.Unrefined) (notes : Array Note) :
    statements ns' ⟨s.table, notes⟩ = .ok ns' ⟨s.table, notes⟩ := by
  rw [statements_retyped (fun n hn => statement_retyped (hns n hn)) h]
  exact (body_retraces hns _ _ _ Table.stacked_empty h).2 hu s.table notes (.refl _)

theorem unrefined_of_again (hns : ∀ n ∈ ns, Statement n) (h : statements ns {} = .ok ns' s)
    {notes : Array Note} {again : List Node} {s' : Typing}
    (hagain : statements ns' ⟨s.table, notes⟩ = .ok again s') : s.Unrefined := by
  have hstacked := (statements_step hns Table.stacked_empty h).stacked
  rw [statements_retyped (fun n hn => statement_retyped (hns n hn)) h] at hagain
  exact (unrefined_iff_ints hns h).2
    (statements_step (s := ⟨s.table, notes⟩) hns hstacked hagain).ints

end

end Annotate

namespace Probe

theorem annotate_eq_ok {p p' : Probe} {s s' : Typing} : p.annotate s = .ok p' s' ↔
    ∃ body s₁, Annotate.statements p.body s = .ok body s₁ ∧ p' = { p with body } ∧
      s' = ⟨s₁.table, s₁.notes.push
        (.annotationComplete s₁.table.symbols.size s₁.table.needsEvents)⟩ := by
  unfold annotate
  rw [estate_bind_ok]
  refine exists_congr fun body => exists_congr fun s₁ => and_congr_right fun _ => ?_
  constructor
  · rintro ⟨⟩
    exact ⟨rfl, rfl⟩
  · rintro ⟨rfl, rfl⟩
    rfl

/-- Typing a probe again succeeds if and only if no map that was assumed to hold integers was
declared to hold anything else, which is to say that all compound assignments are to what holds
integers in the end. It changes neither the tree nor the table. -/
theorem annotate_again {source : Source} {probes : List Probe} {p typed : Probe} {s : Typing}
    (hparse : parseScript source = .ok probes) (hp : p ∈ probes)
    (h : p.annotate {} = .ok typed s) (notes : Array Note) :
    ((∃ again s', typed.annotate ⟨s.table, notes⟩ = .ok again s') ↔
      ∀ map shape, shape ≠ .int → Note.refinedValue map shape ∉ s.notes) ∧
    ((∀ map shape, shape ≠ .int → Note.refinedValue map shape ∉ s.notes) ↔
      ∀ name ∈ Node.assignedAll p.body, ∀ sym, s.table.find? name = some sym →
        sym.facts.shape = some .int) ∧
    ∀ again s', typed.annotate ⟨s.table, notes⟩ = .ok again s' →
      again = typed ∧ s'.table = s.table := by
  have hns := parseScript_statements hparse p hp
  obtain ⟨body, s₁, hbody, rfl, rfl⟩ := annotate_eq_ok.1 h
  have hstep := Annotate.statements_step hns Table.stacked_empty hbody
  -- The notes of refinements are those of the statements, and none of them is to integers.
  have hrefined : (∀ map shape, shape ≠ .int → Note.refinedValue map shape ∉ s₁.notes.push
      (.annotationComplete s₁.table.symbols.size s₁.table.needsEvents)) ↔ s₁.Unrefined := by
    refine forall_congr' fun map => forall_congr' fun shape => ?_
    rw [Array.mem_push, or_iff_left (by nofun)]
    refine ⟨fun hnone hm => ?_, fun hnone _ => hnone⟩
    exact hnone ((hstep.tracked [] Typing.tracked_empty).refined map shape hm).1 hm
  have hagain : ∀ again s', annotate { p with body } ⟨s₁.table, notes⟩ = .ok again s' →
      s₁.Unrefined := by
    intro again s' h'
    obtain ⟨body', s₂, hbody', -, -⟩ := annotate_eq_ok.1 h'
    exact Annotate.unrefined_of_again hns hbody hbody'
  refine ⟨?_, ?_, ?_⟩
  · rw [hrefined]
    refine ⟨fun ⟨again, s', h'⟩ => hagain again s' h', fun hu => ?_⟩
    exact ⟨_, _, annotate_eq_ok.2 ⟨_, _, Annotate.statements_again hns hbody hu notes, rfl, rfl⟩⟩
  · rw [hrefined, Annotate.unrefined_iff_ints hns hbody]
    exact forall_congr' fun name => forall_congr' fun _ =>
      hstep.stacked.toSound.holds_int_iff name
  · intro again s' h'
    have hu := hagain again s' h'
    obtain ⟨body', s₂, hbody', rfl, rfl⟩ := annotate_eq_ok.1 h'
    rw [Annotate.statements_again hns hbody hu notes] at hbody'
    cases hbody'
    exact ⟨rfl, rfl⟩

/-- A map that is assumed to hold integers, and is then declared with this value. -/
def tally (value : String) : Source where
  name := "tally"
  lines := ["probe p \x7b m[pid()] += 2; m[1] = ", value, "; x = m[1]; out(\"%d\", pid()); \x7d"]

theorem tally_annotated_again :
    (∃ probes p typed s, parseScript (tally "3") = .ok probes ∧ p ∈ probes ∧
      p.annotate {} = .ok typed s ∧
      ∃ s', typed.annotate ⟨s.table, #[]⟩ = .ok typed s' ∧ s'.table = s.table) ∧
    ∃ probes p typed s, parseScript (tally "\"a\"") = .ok probes ∧ p ∈ probes ∧
      p.annotate {} = .ok typed s ∧ Note.refinedValue ⟨"m"⟩ ⟨.str, 8⟩ ∈ s.notes ∧
      ¬∃ again s', typed.annotate ⟨s.table, #[]⟩ = .ok again s' := by
  constructor
  · have htyped : ∃ probes p typed s, parseScript (tally "3") = .ok probes ∧ p ∈ probes ∧
        p.annotate {} = .ok typed s ∧ ∀ map shape, Note.refinedValue map shape ∉ s.notes := by
      refine ⟨?_, ?_, ?_, ?_, ?_, ?_, ?_, ?_⟩
      rotate_left 4
      · conv => lhs; cbv
      · exact List.mem_cons_self
      · conv => lhs; cbv
      · simp
    obtain ⟨probes, p, typed, s, hparse, hp, h, hnone⟩ := htyped
    obtain ⟨hagain, -, hsame⟩ := annotate_again hparse hp h #[]
    obtain ⟨again, s', h'⟩ := hagain.2 fun map shape _ => hnone map shape
    obtain ⟨rfl, htable⟩ := hsame again s' h'
    exact ⟨probes, p, again, s, hparse, hp, h, s', h', htable⟩
  · have htyped : ∃ probes p typed s, parseScript (tally "\"a\"") = .ok probes ∧ p ∈ probes ∧
        p.annotate {} = .ok typed s ∧ Note.refinedValue ⟨"m"⟩ ⟨.str, 8⟩ ∈ s.notes := by
      refine ⟨?_, ?_, ?_, ?_, ?_, ?_, ?_, ?_⟩
      rotate_left 4
      · conv => lhs; cbv
      · exact List.mem_cons_self
      · conv => lhs; cbv
      · simp
    obtain ⟨probes, p, typed, s, hparse, hp, h, hnote⟩ := htyped
    obtain ⟨hagain, -, -⟩ := annotate_again hparse hp h #[]
    exact ⟨probes, p, typed, s, hparse, hp, h, hnote, fun hrun =>
      hagain.1 hrun ⟨"m"⟩ ⟨.str, 8⟩ (by decide) hnote⟩

end Probe

end TraceScript
