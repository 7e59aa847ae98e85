import TraceScript.Proofs.Annotated

namespace TraceScript

open Run

namespace Table

/-- A later table in which the earlier symbols have the shapes and places that they had. -/
structure Agrees (t t' : Table) : Prop extends t.Grows t' where
  facts : ∀ (i : Nat) (s s' : Symbol), t.symbols[i]? = some s → t'.symbols[i]? = some s' →
    s'.facts = s.facts

theorem Agrees.refl (t : Table) : t.Agrees t where
  toGrows := .refl t
  facts i s s' h h' := by rw [Option.some.inj (h.symm.trans h')]

theorem Agrees.trans {a b c : Table} (hab : a.Agrees b) (hbc : b.Agrees c) : a.Agrees c where
  toGrows := hab.toGrows.trans hbc.toGrows
  facts i s s'' h h'' := by
    obtain ⟨s', h', -⟩ := hab.symbols i s h
    exact (hbc.facts i s' s'' h' h'').trans (hab.facts i s s' h h')

theorem Agrees.names_facts {t t' : Table} (ha : t.Agrees t') {name : Name} {i : Nat} {s : Symbol}
    (h : t.Names name i s) : ∃ s', t'.Names name i s' ∧ s.Grows s' ∧ s'.facts = s.facts := by
  obtain ⟨s', h', hg⟩ := ha.names h
  exact ⟨s', h', hg, ha.facts i s s' h.symbol h'.symbol⟩

theorem Updates.symbol_cases {t t' : Table} {name : Name} {i j : Nat} {s x : Symbol}
    (h : t.Updates name i s t') (hx : t'.symbols[j]? = some x) :
    j = i ∧ x = s ∨ t.symbols[j]? = some x := by
  cases h with
  | existing _ _ =>
    simp only [Table.modify, Array.getElem?_modify] at hx
    split at hx
    · rename_i hij
      obtain ⟨y, -, rfl⟩ := Option.map_eq_some_iff.1 hx
      exact .inl ⟨hij.symm, rfl⟩
    · exact .inr hx
  | fresh _ _ =>
    simp only [push, Array.getElem?_push] at hx
    split at hx
    · rename_i hj
      exact .inl ⟨hj, (Option.some.inj hx).symm⟩
    · exact .inr hx

theorem Updates.agrees {t t' : Table} {name : Name} {i : Nat} {s : Symbol}
    (h : t.Updates name i s t') (hs : ∀ old, t.Names name i old → s.facts = old.facts) :
    t.Agrees t' where
  toGrows := h.grows
  facts j x x' hx hx' := by
    rcases h.symbol_cases hx' with ⟨rfl, rfl⟩ | hsame
    · cases h with
      | existing hn _ =>
        obtain rfl := Option.some.inj (hn.symbol.symm.trans hx)
        exact hs _ hn
      | fresh _ _ => simp at hx
    · rw [Option.some.inj (hx.symm.trans hsame)]

theorem modify_eq_of_fixed {t : Table} {i : Nat} {s : Symbol} {f : Symbol → Symbol}
    (h : t.symbols[i]? = some s) (hf : f s = s) : t.modify i f = t := by
  have : t.symbols.modify i f = t.symbols := by
    apply Array.ext_getElem?
    intro j
    rw [Array.getElem?_modify]
    split
    · rename_i hij
      rw [← hij, h, Option.map_some, hf]
    · rfl
  rw [modify, this]

theorem requestEvents_of_needsEvents {t : Table} (h : t.needsEvents = true) :
    t.requestEvents = t := by
  obtain ⟨symbols, frame, events⟩ := t
  cases events with
  | unused => cases h
  | requested | bound _ => rfl

end Table

namespace Annotate

/-- Only the table is read, and any table that agrees with it will do. -/
def Reads {α : Type} (f : Annotate α) : Prop :=
  ∀ (s s' : Typing) (a : α), s.table.Sound → f s = .ok a s' →
    s' = s ∧ ∀ t notes, s.table.Agrees t → f ⟨t, notes⟩ = .ok a ⟨t, notes⟩

section

variable {α β : Type}

theorem Reads.pure (a : α) : Reads (pure a) := by
  intro s s' b _ h
  obtain ⟨rfl, rfl⟩ := estate_pure_ok.1 h
  exact ⟨rfl, fun _ _ _ => rfl⟩

theorem Reads.fail (e : SemanticError) (span : Span) : Reads (fail e span : Annotate α) :=
  fun _ _ _ _ h => (fail_ok.1 h).elim

theorem Reads.bind {x : Annotate α} {f : α → Annotate β} (hx : Reads x) (hf : ∀ a, Reads (f a)) :
    Reads (x >>= f) := by
  intro s s' b hs h
  obtain ⟨a, s₁, h₁, h₂⟩ := estate_bind_ok.1 h
  obtain ⟨rfl, hx'⟩ := hx _ _ _ hs h₁
  obtain ⟨rfl, hf'⟩ := hf a _ _ _ hs h₂
  exact ⟨rfl, fun t notes ht => estate_bind_ok.2 ⟨a, _, hx' t notes ht, hf' t notes ht⟩⟩

theorem Reads.orFail (span : Span) (x : Except SemanticError α) : Reads (orFail span x) := by
  cases x with
  | ok a => exact .pure a
  | error e => exact .fail e span

end

theorem symbol_ok {t : Table} {i : Nat} {sym : Symbol} (notes : Array Note)
    (h : t.symbols[i]? = some sym) : symbol i ⟨t, notes⟩ = .ok sym ⟨t, notes⟩ := by
  refine congrArg (EStateM.Result.ok · _) ?_
  rw [Array.getD_eq_getD_getElem?, h, Option.getD_some]

theorem variableIndex_of_names {t : Table} (notes : Array Note) {name : Name} {i : Nat}
    {sym : Symbol} (span : Span) (mayDeclare : Bool) (hn : t.Names name i sym)
    (hkind : sym.kind = .var) :
    variableIndex name span mayDeclare ⟨t, notes⟩ = .ok i ⟨t, notes⟩ := by
  refine estate_bind_ok.2 ⟨t, _, rfl, ?_⟩
  rw [hn.lookup]
  refine estate_bind_ok.2 ⟨sym, _, symbol_ok notes hn.symbol, ?_⟩
  rw [hkind]
  rfl

theorem mapIndex_of_names {t : Table} (notes : Array Note) {name : Name} {i : Nat} {sym : Symbol}
    {slot : MapSlot} (span : Span) (mayDeclare : Bool) (hn : t.Names name i sym)
    (hkind : sym.kind = .map) (hm : sym.map = some slot) (hk : slot.keySize ≠ 0) :
    mapIndex name slot.keySize span mayDeclare ⟨t, notes⟩ = .ok i ⟨t, notes⟩ := by
  have hsym := symbol_ok notes hn.symbol
  refine estate_bind_ok.2 ⟨t, _, rfl, ?_⟩
  rw [hn.lookup]
  refine estate_bind_ok.2 ⟨sym, _, hsym, ?_⟩
  rw [hkind]
  refine estate_bind_ok.2 ⟨i, _, rfl, estate_bind_ok.2 ⟨(), _, ?_, rfl⟩⟩
  refine estate_bind_ok.2 ⟨sym, _, hsym, ?_⟩
  rw [hm, Option.getD_some, if_neg hk, if_neg (not_not.2 rfl)]
  rfl

theorem reads_shapeOf (n : Node) : Reads (shapeOf n) := by
  unfold shapeOf
  split
  · exact .pure _
  · exact .fail _ _

theorem reads_expectInt (n : Node) : Reads (expectInt n) := by
  refine .bind (reads_shapeOf n) fun found => ?_
  split
  · exact .fail _ _
  · exact .pure _

theorem reads_variableIndex (name : Name) (span : Span) : Reads (variableIndex name span false) := by
  intro s s' i hs h
  obtain ⟨sym, -, hm, ⟨rfl, hn⟩ | ⟨⟨⟩, -⟩⟩ := variableIndex_ok hs h
  refine ⟨rfl, fun t notes ht => ?_⟩
  obtain ⟨sym', hn', hg⟩ := ht.names hn
  exact variableIndex_of_names notes span false hn'
    (hg.kind.trans ((hs.names hn).var_iff.2 hm))

theorem reads_mapIndex (name : Name) (keySize : Nat) (span : Span) :
    Reads (mapIndex name keySize span false) := by
  intro s s' i hs h
  obtain ⟨sym, slot, -, hm, rfl, ⟨rfl, hn⟩ | ⟨⟨⟩, -⟩⟩ := mapIndex_ok hs h
  have hk : slot.keySize ≠ 0 := Nat.ne_of_gt ((hs.names hn).keySize slot hm).1
  refine ⟨rfl, fun t notes ht => ?_⟩
  obtain ⟨sym', hn', hg⟩ := ht.names hn
  obtain ⟨slot', hm', hk'⟩ := hg.map_some hm hk
  rw [← hk']
  exact mapIndex_of_names notes span false hn'
    (hg.kind.trans ((hs.names hn).kind.2 (by rw [hm]; rfl))) hm' (by rwa [hk'])

theorem reads_declaredShape (i : Nat) (name : Name) (span : Span) :
    Reads (declaredShape i name span) := by
  intro s s' sh _ h
  obtain ⟨rfl, hsh⟩ := declaredShape_ok h
  refine ⟨rfl, fun t notes ht => ?_⟩
  -- A symbol that is not there has no shape.
  obtain ⟨sym, hsym⟩ : ∃ sym, s'.table.symbols[i]? = some sym := by
    refine Option.ne_none_iff_exists'.1 fun hnone => ?_
    rw [Array.getD_eq_getD_getElem?, hnone] at hsh
    cases hsh
  obtain ⟨sym', hsym', -⟩ := ht.symbols i sym hsym
  have hfacts := ht.facts i sym sym' hsym hsym'
  rw [Array.getD_eq_getD_getElem?, hsym, Option.getD_some, ← hfacts] at hsh
  refine estate_bind_ok.2 ⟨sym', _, symbol_ok notes hsym', ?_⟩
  rw [hsh]
  rfl

theorem reads_builtin (name : Name) (count : Nat) (span : Span) :
    Reads (builtin name count span) := by
  unfold builtin
  split
  · exact .fail _ _
  · split
    · exact .pure _
    · exact .fail _ _

theorem reads_argIndex (n : Node) : Reads (argIndex n) := by
  unfold argIndex
  split
  · split
    · exact .pure _
    · exact .fail _ _
  · exact .fail _ _

theorem Reads.mapM {α β : Type} {f : α → Annotate β} (hf : ∀ a, Reads (f a)) (as : List α) :
    Reads (as.mapM f) := by
  induction as with
  | nil => exact .pure _
  | cons a as ih =>
    rw [List.mapM_cons]
    exact .bind (hf a) fun _ => .bind ih fun _ => .pure _

mutual

theorem reads_expression : ∀ n : Node, Reads (expression n)
  | .int tag value => .pure _
  | .text tag value => .pure _
  | .var tag name => by
    rw [expression]
    exact .bind (reads_variableIndex _ _) fun i => .bind (reads_declaredShape i _ _) fun _ => .pure _
  | .mapAccess tag map keys => by
    rw [expression]
    exact .bind (reads_expressions _ keys) fun _ => .bind (reads_mapIndex _ _ _) fun i =>
      .bind (reads_declaredShape i _ _) fun _ => .pure _
  | .binary tag op lhs rhs => by
    rw [expression]
    exact .bind (reads_expression lhs) fun _ => .bind (reads_expression rhs) fun _ =>
      .bind (reads_expectInt _) fun _ => .bind (reads_expectInt _) fun _ => .pure _
  | .call tag function args => by
    rw [expression]
    refine .bind (reads_builtin _ _ _) fun b => ?_
    have hresult : ∀ args', Reads (match b.result with
        | some (shape, storage) => pure (.call (retag tag (.ofShape shape storage)) function args')
        | none => fail (.noValue b) tag.span : Annotate Node) := by
      intro args'
      split
      · exact .pure _
      · exact .fail _ _
    cases b with
    | arg => exact .bind (.mapM reads_argIndex args) hresult
    | strcmp => exact .bind (reads_expressions isString args) hresult
    | pid | tid | cpu | ns | comm | out => exact .bind (.pure args) hresult
  | .record tag members => by
    rw [expression]
    exact .bind (reads_expressions _ members) fun _ => .pure _
  | .declaration .. => .fail _ _
  | .assignment .. => .fail _ _
  | .cond .. => .fail _ _
  | .unroll .. => .fail _ _

theorem reads_expressions (check : Shape → Except SemanticError Unit) :
    ∀ ns : List Node, Reads (expressions check ns)
  | [] => .pure _
  | n :: ns => by
    rw [expressions]
    exact .bind (reads_expression n) fun n' => .bind (reads_shapeOf n') fun _ =>
      .bind (.orFail _ _) fun _ => .bind (reads_expressions check ns) fun _ => .pure _

end

theorem reads_checkConversions : ∀ (cs : List Conversion) (ns : List Node),
    Reads (checkConversions cs ns)
  | c :: cs, n :: ns => by
    rw [checkConversions]
    refine .bind (reads_shapeOf n) fun found => ?_
    split
    · exact reads_checkConversions cs ns
    · exact .fail _ _
  | [], _ => .pure _
  | _ :: _, [] => .pure _

theorem bindValue_again {t : Table} (notes : Array Note) {i : Nat} {sym : Symbol} {value : Node}
    {sh : Shape} (hsym : t.symbols[i]? = some sym) (hsh : sym.facts.shape = some sh)
    (hstorage : sym.facts.storage = .stack) (hvalue : value.facts.shape = some sh) :
    bindValue i value ⟨t, notes⟩ = .ok value ⟨t, notes⟩ := by
  have hunify : sym.facts.unify value.facts = .ok (sym.facts, value.facts) := by
    simp only [Facts.unify, hsh, hvalue, if_true]
  have hsame : t.modify i (fun s => { s with facts := { sym.facts with storage := .stack } }) = t :=
    Table.modify_eq_of_fixed hsym (by rw [← hstorage])
  have hself : value.withTag { value.tag with facts := value.facts } = value := by
    cases value <;> rfl
  refine estate_bind_ok.2 ⟨sym, _, symbol_ok notes hsym, estate_bind_ok.2
    ⟨(sym.facts, value.facts), _, orFail_ok.2 ⟨hunify, rfl⟩, estate_bind_ok.2
      ⟨(), _, modifySymbol_ok _ _ _, ?_⟩⟩⟩
  dsimp only
  rw [hself, hsame]
  rfl

theorem assumeInt_again {t : Table} (notes : Array Note) {i : Nat} {sym : Symbol}
    (hsym : t.symbols[i]? = some sym) (hsh : sym.facts.shape = some .int) :
    assumeInt i ⟨t, notes⟩ = .ok () ⟨t, notes⟩ := by
  refine estate_bind_ok.2 ⟨sym, _, symbol_ok notes hsym, ?_⟩
  rw [hsh]
  rfl

theorem expectIntSymbol_again {t : Table} (notes : Array Note) {i : Nat} {sym : Symbol}
    (span : Span) (hsym : t.symbols[i]? = some sym) (hsh : sym.facts.shape = some .int) :
    expectIntSymbol i span ⟨t, notes⟩ = .ok () ⟨t, notes⟩ := by
  refine estate_bind_ok.2 ⟨sym, _, symbol_ok notes hsym, ?_⟩
  rw [hsh]
  rfl

section

variable {t : Table} {notes : Array Note} {tag place : Tag} {op : ArithOp} {name : Name}
  {keys keys' : List Node} {value value' : Node} {i : Nat} {sym : Symbol} {slot : MapSlot}
  {sh : Shape}

theorem declaration_var_again (hvalue : expression value ⟨t, notes⟩ = .ok value' ⟨t, notes⟩)
    (hsh : value'.facts.shape = some sh) (hn : t.Names name i sym) (hkind : sym.kind = .var)
    (hshape : sym.facts.shape = some sh) (hstorage : sym.facts.storage = .stack) :
    declaration tag (.var place name) value ⟨t, notes⟩ =
      .ok (.declaration tag (.var { place with facts := .ofShape sh .stack } name) value')
        ⟨t, notes⟩ :=
  estate_bind_ok.2 ⟨value', _, hvalue, estate_bind_ok.2 ⟨sh, _, shapeOf_ok.2 ⟨hsh, rfl⟩,
    estate_bind_ok.2 ⟨i, _, variableIndex_of_names notes _ true hn hkind,
      estate_bind_ok.2 ⟨value', _, bindValue_again notes hn.symbol hshape hstorage hsh, rfl⟩⟩⟩⟩

theorem declaration_map_again (hvalue : expression value ⟨t, notes⟩ = .ok value' ⟨t, notes⟩)
    (hsh : value'.facts.shape = some sh)
    (hkeys : expressions notRecord keys ⟨t, notes⟩ = .ok keys' ⟨t, notes⟩)
    (hn : t.Names name i sym) (hkind : sym.kind = .map) (hm : sym.map = some slot)
    (hk : slot.keySize = packedSize keys')
    (hpos : 0 < packedSize keys') (hset : sym.Settled) (hshape : sym.facts.shape = some sh)
    (hstorage : sym.facts.storage = .stack) :
    declaration tag (.mapAccess place name keys) value ⟨t, notes⟩ =
      .ok (.declaration tag (.mapAccess { place with facts := .ofShape sh .stack } name keys')
        value') ⟨t, notes⟩ := by
  have hindex := mapIndex_of_names notes place.span true hn hkind hm (by omega)
  rw [hk] at hindex
  refine estate_bind_ok.2 ⟨value', _, hvalue, estate_bind_ok.2 ⟨sh, _, shapeOf_ok.2 ⟨hsh, rfl⟩,
    estate_bind_ok.2 ⟨keys', _, hkeys, estate_bind_ok.2 ⟨i, _, hindex,
      estate_bind_ok.2 ⟨sym, _, symbol_ok notes hn.symbol, ?_⟩⟩⟩⟩⟩
  rw [hset.2, if_neg Bool.false_ne_true]
  exact estate_bind_ok.2 ⟨value', _, bindValue_again notes hn.symbol hshape hstorage hsh, rfl⟩

theorem assignment_var_again (hvalue : expression value ⟨t, notes⟩ = .ok value' ⟨t, notes⟩)
    (hint : expectInt value' ⟨t, notes⟩ = .ok () ⟨t, notes⟩) (hn : t.Names name i sym)
    (hkind : sym.kind = .var) (hshape : sym.facts.shape = some .int) :
    assignment tag op (.var place name) value ⟨t, notes⟩ =
      .ok (.assignment tag op (.var { place with facts := .ofShape .int .stack } name) value')
        ⟨t, notes⟩ :=
  estate_bind_ok.2 ⟨value', _, hvalue, estate_bind_ok.2 ⟨(), _, hint,
    estate_bind_ok.2 ⟨i, _, variableIndex_of_names notes _ false hn hkind,
      estate_bind_ok.2 ⟨(), _, assumeInt_again notes hn.symbol hshape,
        estate_bind_ok.2 ⟨(), _, expectIntSymbol_again notes _ hn.symbol hshape, rfl⟩⟩⟩⟩⟩

theorem assignment_map_again (hvalue : expression value ⟨t, notes⟩ = .ok value' ⟨t, notes⟩)
    (hint : expectInt value' ⟨t, notes⟩ = .ok () ⟨t, notes⟩)
    (hkeys : expressions notRecord keys ⟨t, notes⟩ = .ok keys' ⟨t, notes⟩)
    (hn : t.Names name i sym) (hkind : sym.kind = .map) (hm : sym.map = some slot)
    (hk : slot.keySize = packedSize keys')
    (hpos : 0 < packedSize keys') (hshape : sym.facts.shape = some .int) :
    assignment tag op (.mapAccess place name keys) value ⟨t, notes⟩ =
      .ok (.assignment tag op
        (.mapAccess { place with facts := .ofShape .int .stack } name keys') value')
        ⟨t, notes⟩ := by
  have hindex := mapIndex_of_names notes place.span true hn hkind hm (by omega)
  rw [hk] at hindex
  exact estate_bind_ok.2 ⟨value', _, hvalue, estate_bind_ok.2 ⟨(), _, hint,
    estate_bind_ok.2 ⟨keys', _, hkeys, estate_bind_ok.2 ⟨i, _, hindex,
      estate_bind_ok.2 ⟨(), _, assumeInt_again notes hn.symbol hshape,
        estate_bind_ok.2 ⟨(), _, expectIntSymbol_again notes _ hn.symbol hshape, rfl⟩⟩⟩⟩⟩⟩

end

end Annotate

end TraceScript
