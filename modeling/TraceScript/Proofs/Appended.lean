import TraceScript.Proofs.Consistent
import TraceScript.Proofs.PlacedAgain
import TraceScript.Proofs.Prepared

namespace TraceScript

open Run

namespace Table

/-- A name has a symbol, and an address if that is a variable. -/
def Housed (t : Table) (name : Name) : Prop :=
  ∃ i s, t.Names name i s ∧ (s.map = none → s.addr.isSome)

theorem VariableAt.housed {t : Table} {name : Name} {i : Nat} {sh : Shape} {addr : Int}
    (h : t.VariableAt name i sh addr) : t.Housed name := by
  obtain ⟨s, hn, -, -, ha⟩ := h
  exact ⟨i, s, hn, fun _ => by rw [ha]; rfl⟩

theorem MapAt.housed {t : Table} {name : Name} {s : Symbol} {m : Flow.MapRef}
    (h : t.MapAt name s m) : t.Housed name := by
  obtain ⟨i, hn⟩ := h.names
  obtain ⟨slot, hm, -⟩ := h.slot
  refine ⟨i, s, hn, fun hnone => ?_⟩
  rw [hm] at hnone
  cases hnone

end Table

namespace Node

/-- All names in a tree are housed. -/
def HousedIn (t : Table) (role : Role) (n : Node) : Prop :=
  ∀ o ∈ n.occurrences role, ∀ name ∈ o.node.root, t.Housed name

variable {t : Table}

theorem housedIn_leaf {n : Node} {role : Role} (hone : n.occurrences role = [⟨role, n⟩])
    (hroot : ∀ name ∈ n.root, t.Housed name) : n.HousedIn t role := by
  intro o ho
  rw [hone] at ho
  rw [List.mem_singleton.1 ho]
  exact hroot

theorem housedIn_mapAccess {tag : Tag} {map : Name} {keys : List Placing} {role : Role}
    (hmap : t.Housed map) (hkeys : ∀ k ∈ keys, ∀ role, k.node.HousedIn t role) :
    (mapAccess tag map (keys.map Placing.node)).HousedIn t role := by
  intro o ho
  rcases List.mem_append.1 ho with ho | ho
  · obtain ⟨_, hmem, ho⟩ := mem_allOccurrences.1 ho
    obtain ⟨k, hk, rfl⟩ := List.mem_map.1 hmem
    exact hkeys k hk _ o ho
  · rw [List.mem_singleton.1 ho]
    intro name hname
    rw [List.mem_singleton.1 hname]
    exact hmap

theorem housed_of_placed {alone : Bool} {n n' : Node} {rs : List Region}
    (h : Placed t alone n n' rs) (role : Role) : n.HousedIn t role := by
  induction h generalizing role with
  | int _ _ | text _ _ _ _ => exact housedIn_leaf rfl nofun
  | var hv _ _ _ =>
    refine housedIn_leaf rfl fun name hname => ?_
    rw [List.mem_singleton.1 hname]
    exact hv.housed
  | entry hm _ _ _ _ _ ih => exact housedIn_mapAccess hm.housed ih
  | stringEntry hm _ _ _ _ _ _ _ _ ih => exact housedIn_mapAccess hm.housed ih
  | binary _ _ _ _ _ _ ihl ihr =>
    intro o ho
    rcases List.mem_append.1 ho with ho | ho
    · exact (List.mem_append.1 ho).elim (ihl _ o) (ihr _ o)
    · rw [List.mem_singleton.1 ho]
      exact nofun
  | query _ _ _ _ | comm _ _ _ _ _ => exact housedIn_leaf rfl nofun
  | arg _ _ _ _ _ =>
    intro o ho
    rcases List.mem_append.1 ho with ho | ho <;> rw [List.mem_singleton.1 ho] <;> exact nofun
  | strcmp _ _ _ _ _ _ _ ihl ihr =>
    intro o ho
    rcases List.mem_append.1 ho with ho | ho
    · obtain ⟨k, hmem, hk⟩ := mem_allOccurrences.1 ho
      rcases List.mem_pair.1 hmem with rfl | rfl
      · exact ihl _ o hk
      · exact ihr _ o hk
    · rw [List.mem_singleton.1 ho]
      exact nofun

theorem housed_of_placedTarget {s : Symbol} {n n' : Node} {rs : List Region}
    (h : PlacedTarget t s n n' rs) (role : Role) : n.HousedIn t role := by
  cases h with
  | var hn _ ha _ =>
    refine housedIn_leaf rfl fun name hname => ?_
    rw [List.mem_singleton.1 hname]
    exact ⟨_, s, hn, fun _ => by rw [ha]; rfl⟩
  | entry hm _ hkeys _ =>
    exact housedIn_mapAccess hm.housed fun k hk role => housed_of_placed (hkeys k hk) role

theorem housed_of_placedStatement {n n' : Node} {rs : List Region}
    (h : PlacedStatement t n n' rs) : n.HousedIn t .value := by
  have hwrite : ∀ {target target' rhs rhs' : Node} {rs qs : List Region} {s : Symbol} (role : Role),
      PlacedTarget t s target target' rs → Placed t false rhs rhs' qs → ∀ o,
      o ∈ rhs.occurrences .value ++ target.occurrences role → ∀ name ∈ o.node.root, t.Housed name :=
    fun role htarget hrhs o ho => (List.mem_append.1 ho).elim (housed_of_placed hrhs _ o)
      (housed_of_placedTarget htarget role o)
  induction h with
  | declaration htarget _ hrhs _ | assignment htarget _ hrhs _ =>
    intro o ho
    rcases List.mem_append.1 ho with ho | ho
    · exact hwrite _ htarget hrhs o ho
    · rw [List.mem_singleton.1 ho]
      rintro _ ⟨⟩
  | cond hc _ _ _ ihy ihn =>
    intro o ho
    simp only [occurrences, List.mem_append, mem_allOccurrences, List.mem_map,
      List.mem_singleton] at ho
    rcases ho with ((ho | ⟨_, ⟨k, hk, rfl⟩, ho⟩) | ⟨_, ⟨k, hk, rfl⟩, ho⟩) | rfl
    · exact housed_of_placed hc _ o ho
    · exact ihy k hk o ho
    · exact ihn k hk o ho
    · rintro _ ⟨⟩
  | unroll _ ih =>
    intro o ho
    simp only [occurrences, List.mem_append, mem_allOccurrences, List.mem_map,
      List.mem_singleton] at ho
    rcases ho with ⟨_, ⟨k, hk, rfl⟩, ho⟩ | rfl
    · exact ih k hk o ho
    · rintro _ ⟨⟩
  | call hc => exact housed_of_placed hc _
  | out _ _ _ _ _ _ _ _ _ hmembers =>
    intro o ho
    simp only [occurrences, allOccurrences, List.append_nil, List.mem_append, mem_allOccurrences,
      List.mem_map, List.mem_singleton] at ho
    rcases ho with (rfl | ⟨_, ⟨k, hk, rfl⟩, ho⟩ | rfl) | rfl
    · rintro _ ⟨⟩
    · exact housed_of_placed (hmembers k hk) _ o ho
    · rintro _ ⟨⟩
    · rintro _ ⟨⟩

end Node

namespace Prepared

variable {t bound table : Table} {typed placed : Probe} {ks : List Placing} {name : Name} {i : Nat}
  {s : Symbol}

theorem typed_variable (h : Prepared bound table typed placed ks) (hb : t.Bound bound)
    (hist : t.History (Node.allOccurrences typed.body)) (hn : table.Names name i s)
    (hm : s.map = none) :
    ∃ s₀, t.Names name i s₀ ∧ s₀.name = s.name ∧ s₀.facts = s.facts ∧ s₀.map = none := by
  have hi : i < bound.symbols.size := h.steps.places.size ▸ (Array.getElem?_eq_some_iff.1 hn.symbol).1
  obtain ⟨s', hs', hp⟩ := h.steps.places.symbols i _ (Array.getElem?_eq_getElem hi)
  obtain rfl := Option.some.inj (hn.symbol.symm.trans hs')
  obtain ⟨s₀, hs₀, hb₀⟩ := hb.symbol_of (Array.getElem?_eq_getElem hi)
  have hm₀ : s₀.map = none := by
    have hsome := hp.isMap.trans hb₀.grows.isMap
    rw [hm] at hsome
    exact Option.isNone_iff_eq_none.1 (by simpa using hsome.symm)
  rw [Symbol.Bound, hm₀] at hb₀
  dsimp only at hb₀
  rw [hb₀] at hp
  refine ⟨s₀, ⟨hist.unique hs₀ ?_, hs₀⟩, hp.name.symm, hp.facts.symm, hm₀⟩
  rw [← hp.name]
  exact hn.same

theorem addr_isSome (h : Prepared bound table typed placed ks) (hb : t.Bound bound) (ht : t.Sound)
    (hist : t.History (Node.allOccurrences typed.body)) (hn : table.Names name i s)
    (hm : s.map = none) : s.addr.isSome := by
  obtain ⟨s₀, hn₀, hname, -⟩ := h.typed_variable hb hist hn hm
  -- the shape of a symbol comes from somewhere
  obtain ⟨-, -, hne, -⟩ := (ht.names hn₀).shapes_of_run (hist.phases i s₀ hn₀.symbol)
  obtain ⟨o, ho⟩ := List.exists_mem_of_ne_nil _ hne
  obtain ⟨ho, hof⟩ := List.mem_filter.1 ho
  obtain ⟨name', hroot, hsame⟩ := List.any_eq_true.1 hof
  obtain ⟨n, hmem, ho⟩ := Node.mem_allOccurrences.1 ho
  rw [h.nodes] at hmem
  obtain ⟨k, hk, rfl⟩ := List.mem_map.1 hmem
  obtain ⟨j, s', hn', haddr⟩ := Node.housed_of_placedStatement (h.statements k hk) o ho name' hroot
  rw [hname] at hsame
  have hlookup : table.lookup name' = table.lookup name :=
    (Table.lookup_congr hsame table).symm.trans (Table.lookup_congr hn.same table)
  obtain ⟨-, rfl⟩ := hn.unique ⟨hlookup.symm.trans hn'.lookup, hn'.symbol⟩
  exact haddr hm

end Prepared

theorem Annotate.statements_append {ns ns' : List Node} {n n' : Node} {s s₁ s₂ : Typing}
    (h : statements ns s = .ok ns' s₁) (hn : statement n s₁ = .ok n' s₂) :
    statements (ns ++ [n]) s = .ok (ns' ++ [n']) s₂ := by
  induction ns generalizing s ns' with
  | nil =>
    rw [statements] at h
    obtain ⟨rfl, rfl⟩ := estate_pure_ok.1 h
    rw [List.nil_append, statements]
    exact estate_bind_ok.2 ⟨n', s₂, hn, estate_bind_ok.2 ⟨[], s₂, rfl, rfl⟩⟩
  | cons m ns ih =>
    obtain ⟨m', ms, s', hm, hms, rfl⟩ := statements_cons_ok h
    rw [List.cons_append, statements]
    exact estate_bind_ok.2 ⟨m', s', hm, estate_bind_ok.2 ⟨_, _, ih hms, rfl⟩⟩

theorem Node.placeStatements_append {ns ns' : List Node} {n n' : Node} {t t₁ t₂ : Table}
    (h : placeStatements ns t = (ns', t₁)) (hn : placeStatement n t₁ = (n', t₂)) :
    placeStatements (ns ++ [n]) t = (ns' ++ [n'], t₂) := by
  induction ns generalizing t ns' with
  | nil =>
    rw [placeStatements] at h
    obtain ⟨rfl, rfl⟩ := Prod.mk.inj h
    rw [List.nil_append, placeStatements, placeStatements]
    change (([(placeStatement n t).1], (placeStatement n t).2) : List Node × Table) = _
    rw [hn]
    rfl
  | cons m ns ih =>
    rw [placeStatements] at h
    obtain ⟨rfl, hlast⟩ := Prod.mk.inj h
    have hrest := ih (t := (placeStatement m t).2) (Prod.ext rfl hlast)
    rw [List.cons_append, placeStatements]
    change (((placeStatement m t).1 :: (placeStatements (ns ++ [n]) (placeStatement m t).2).1,
      (placeStatements (ns ++ [n]) (placeStatement m t).2).2) : List Node × Table) = _
    rw [hrest]
    rfl

theorem Flow.statements_append {t : Table} {ns : List Node} {n : Node} {s s₁ s₂ : Builder}
    (h : statements t ns s = .ok ((), s₁)) (hn : statement t n s₁ = .ok ((), s₂)) :
    statements t (ns ++ [n]) s = .ok ((), s₂) := by
  induction ns generalizing s with
  | nil =>
    rw [statements] at h
    obtain ⟨-, rfl⟩ := Prod.mk.inj (Except.ok.inj h)
    rw [List.nil_append, statements, Build.bind_of_ok hn, statements]
    rfl
  | cons m ns ih =>
    rw [statements] at h
    obtain ⟨⟨⟩, s', hm, h⟩ := Build.ok_of_bind h
    rw [List.cons_append, statements, Build.bind_of_ok hm]
    exact ih h

/-- A statement that gives a variable the result of an operation on itself and a constant, written in
full or as a compound assignment. -/
inductive Node.SelfUpdate (a : Name) (op : ArithOp) (value : Int64) : Node → Prop
  | declaration {tag target sum left right : Tag} : SelfUpdate a op value
      (.declaration tag (.var target a) (.binary sum (.arith op) (.var left a) (.int right value)))
  | assignment {tag target right : Tag} :
      SelfUpdate a op value (.assignment tag op (.var target a) (.int right value))

/-- A value that is declared is known to be an integer. -/
def Node.KnowsResult : Node → Prop
  | .declaration _ _ value => value.facts.isInt
  | _ => True

/-- The statement once the variable has its place. -/
inductive Node.UpdatesAt (op : ArithOp) (value : Int64) (addr : Int) : Node → Prop
  | declaration {tag target sum left right : Tag} {a b : Name} : target.facts.addr = some addr →
      sum.facts.isInt → left.facts.addr = some addr → UpdatesAt op value addr
        (.declaration tag (.var target a) (.binary sum (.arith op) (.var left b) (.int right value)))
  | assignment {tag target right : Tag} {a : Name} : target.facts.addr = some addr →
      UpdatesAt op value addr (.assignment tag op (.var target a) (.int right value))

namespace Annotate

variable {a : Name} {op : ArithOp} {value : Int64} {n : Node} {t : Table} {notes : Array Note}
  {i : Nat} {x : Symbol}

theorem expression_var_int (hn : t.Names a i x) (hkind : x.kind = .var)
    (hshape : x.facts.shape = some .int) (tag : Tag) : expression (.var tag a) ⟨t, notes⟩ =
      .ok (.var (retag tag (.ofShape .int .stack)) a) ⟨t, notes⟩ := by
  rw [expression]
  refine estate_bind_ok.2 ⟨i, _, variableIndex_of_names notes _ false hn hkind,
    estate_bind_ok.2 ⟨.int, _, estate_bind_ok.2 ⟨x, _, symbol_ok notes hn.symbol, ?_⟩, rfl⟩⟩
  rw [hshape]
  rfl

theorem expression_sum (hn : t.Names a i x) (hkind : x.kind = .var)
    (hshape : x.facts.shape = some .int) (sum left right : Tag) :
    expression (.binary sum (.arith op) (.var left a) (.int right value)) ⟨t, notes⟩ =
      .ok (.binary (retag sum (.ofShape .int .register)) (.arith op)
        (.var (retag left (.ofShape .int .stack)) a)
        (.int (retag right (.ofShape .int .register)) value)) ⟨t, notes⟩ := by
  rw [expression]
  exact estate_bind_ok.2 ⟨_, _, expression_var_int hn hkind hshape left, estate_bind_ok.2
    ⟨.int (retag right (.ofShape .int .register)) value, _, by rw [expression]; rfl, rfl⟩⟩

theorem statement_selfUpdate (notes : Array Note) (hn : t.Names a i x)
    (hkind : x.kind = .var) (hshape : x.facts.shape = some .int) (hstorage : x.facts.storage = .stack)
    (h : n.SelfUpdate a op value) :
    ∃ n', statement n ⟨t, notes⟩ = .ok n' ⟨t, notes⟩ ∧ n'.SelfUpdate a op value ∧ n'.KnowsResult := by
  cases h with
  | declaration =>
    rw [statement]
    exact ⟨_, declaration_var_again (expression_sum hn hkind hshape _ _ _) rfl hn hkind hshape hstorage,
      .declaration, rfl⟩
  | assignment =>
    rw [statement]
    exact ⟨_, assignment_var_again (by rw [expression]; rfl) rfl hn hkind hshape, .assignment, trivial⟩

end Annotate

theorem Placement.bind_of_eq {α β : Type} {t : Table} {place : Layout α} {b : α}
    (h : place t = (b, t)) (f : α → Layout β) : (place >>= f) t = f b t := by
  change f (place t).1 (place t).2 = _
  rw [h]

namespace Node

open Placement

variable {a : Name} {op : ArithOp} {value : Int64} {n : Node} {t : Table} {addr : Int}

theorem placeStatement_selfUpdate {i : Nat} {x : Symbol} (hn : t.Names a i x)
    (ha : x.addr = some addr) (h : n.SelfUpdate a op value) (hresult : n.KnowsResult) :
    ∃ n', placeStatement n t = (n', t) ∧ n'.UpdatesAt op value addr := by
  have hvar := variableAddr_of_some hn ha
  have htarget : ∀ tag : Tag, placeTarget (.var tag a) t =
      ((.var (stacked tag addr) a, some addr), t) := by
    intro tag
    rw [placeTarget_var, hvar]
    rfl
  have hint : ∀ tag : Tag, (int tag value).placement.alone t =
      (int (stored tag .register) value, t) := by
    intro tag
    rw [placement_int]
    rfl
  cases h with
  | @declaration tag target sum left right =>
    have hleft : (var left a).placement.alone t =
        (.var { left with facts := { left.facts with storage := .stack, addr := some addr } } a, t) := by
      rw [placement_var]
      exact bind_of_eq hvar _
    have hvalue : placeValue (.binary sum (.arith op) (.var left a) (.int right value)) (some addr) t =
        (.binary (stored sum .register) (.arith op)
          (.var { left with facts := { left.facts with storage := .stack, addr := some addr } } a)
          (.int (stored right .register) value), t) := by
      have hknown : (binary sum (.arith op) (var left a) (int right value)).facts.isInt = true := hresult
      rw [placeValue, if_pos hknown, placement_binary]
      exact (bind_of_eq hleft _).trans (bind_of_eq (hint right) _)
    rw [placeStatement]
    exact ⟨_, (bind_of_eq (htarget target) _).trans (bind_of_eq hvalue _),
      .declaration rfl hresult rfl⟩
  | @assignment tag target right =>
    have hvalue : placeValue (.int right value) (some addr) t =
        (.int (stored right .register) value, t) := by
      rw [placeValue, placement_int]
      split <;> rfl
    rw [placeStatement]
    exact ⟨_, (bind_of_eq (htarget target) _).trans (bind_of_eq hvalue _), .assignment rfl⟩

end Node

namespace Probe

variable {p typed placed : Probe} {typing : Typing} {bound table : Table} {a : Name} {op : ArithOp}
  {value : Int64} {n : Node} {i : Nat} {x : Symbol}

theorem annotate_history (hp : ∀ m ∈ p.body, Statement m) (h : p.annotate {} = .ok typed typing) :
    typing.table.Stacked ∧ typing.table.History (Node.allOccurrences typed.body) := by
  obtain ⟨body, s₁, hrun, rfl, rfl⟩ := annotate_eq_ok.1 h
  exact ⟨(Annotate.statements_step hp Table.stacked_empty hrun).stacked, Annotate.statements_record hp
    (fun m hm => Annotate.statement_records (hp m hm)) Table.stacked_empty hrun Table.history_empty⟩

theorem annotate_selfUpdate (h : p.annotate {} = .ok typed typing)
    (hstacked : typing.table.Stacked) (hn : typing.table.Names a i x) (hm : x.map = none)
    (hshape : x.facts.shape = some .int) (hupdate : n.SelfUpdate a op value) :
    ∃ n', { p with body := p.body ++ [n] }.annotate {} =
        .ok { typed with body := typed.body ++ [n'] } typing ∧
      n'.SelfUpdate a op value ∧ n'.KnowsResult := by
  obtain ⟨body, s₁, hrun, rfl, rfl⟩ := annotate_eq_ok.1 h
  obtain ⟨n', hn', hupdate', hresult⟩ := Annotate.statement_selfUpdate s₁.notes hn
    ((hstacked.names hn).var_iff.2 hm) hshape (hstacked.storage i x hn.symbol) hupdate
  exact ⟨n', annotate_eq_ok.2 ⟨_, s₁, Annotate.statements_append hrun hn', rfl, rfl⟩, hupdate', hresult⟩

theorem place_selfUpdate {addr : Int} (h : typed.place.run bound = (placed, table))
    (hn : table.Names a i x) (ha : x.addr = some addr) (hupdate : n.SelfUpdate a op value)
    (hresult : n.KnowsResult) :
    ∃ n', { typed with body := typed.body ++ [n] }.place.run bound =
        ({ placed with body := placed.body ++ [n'] }, table) ∧ n'.UpdatesAt op value addr := by
  obtain ⟨n', hn', hupdates⟩ := Node.placeStatement_selfUpdate hn ha hupdate hresult
  have hrun : ({ typed with body := (Node.placeStatements typed.body bound).1 },
      (Node.placeStatements typed.body bound).2) = (placed, table) := h
  obtain ⟨rfl, rfl⟩ := Prod.mk.inj hrun
  have hbody : Node.placeStatements typed.body bound = (_, _) := rfl
  have happend := Node.placeStatements_append hbody hn'
  refine ⟨n', ?_, hupdates⟩
  change (({ typed with body := (Node.placeStatements (typed.body ++ [n]) bound).1 },
    (Node.placeStatements (typed.body ++ [n]) bound).2) : Probe × Table) = _
  rw [happend]

end Probe

namespace Flow

open Build Evaluation

variable {op : ArithOp} {value : Int64} {n : Node} {addr : Int}

/-- A variable is loaded, changed and stored. -/
def updateChunk (t : Temp) (op : ArithOp) (value : Int32) (addr : Int) (origin : Option Origin) :
    Chunk where
  code := [.load t addr, .arith op (t + 1) t (.imm value), .store (t + 1) addr]
  temps := [{ origin }, {}]

theorem emits_updatesAt (h : n.UpdatesAt op value addr) (hfits : value.toInt32.toInt64 = value)
    (t : Table) (s : Builder) :
    ∃ origin, Emits (statement t n) s () (updateChunk s.count op value.toInt32 addr origin) := by
  have haddr : ∀ {tag : Tag}, tag.facts.addr = some addr → addrOf tag s = .ok (addr, s) := by
    intro tag htag
    rw [addrOf, htag]
    rfl
  have hload : ∀ origin, load addr origin s =
      .ok (s.count, s.append ⟨[.load s.count addr], [{ origin }]⟩) := fun origin =>
    Emits.define origin fun dst => .load dst addr
  have hoperand : ∀ (tag : Tag) (e : Evaluation) (s' : Builder),
      e.operand (.int tag value) s' = .ok (.imm value.toInt32, s') := by
    intro tag e s'
    rw [operand, if_pos hfits]
    rfl
  have htemp : ∀ origin, newTemp none (s.append ⟨[.load s.count addr], [{ origin }]⟩) =
      .ok (s.count + 1, s.append ⟨[.load s.count addr], [{ origin }, {}]⟩) := by
    intro origin
    refine (Emits.newTemp none).trans ?_
    rw [Builder.count_append, Builder.append_append]
    rfl
  have hpush : ∀ (i : Instruction) (c : List Instruction) (infos : List TempInfo),
      push i (s.append ⟨c, infos⟩) = .ok ((), s.append ⟨c ++ [i], infos⟩) := by
    intro i c infos
    refine (Emits.push i).trans ?_
    rw [Builder.append_append]
    exact congrArg (fun l => Except.ok ((), s.append ⟨c ++ [i], l⟩)) (List.append_nil infos)
  cases h with
  | @declaration tag target sum left right a b htarget hsum hleft =>
    refine ⟨(t.lookup b).map .symbol, ?_⟩
    have hvar : (evaluation t (.var left b)).scalar s = .ok (s.count,
        s.append ⟨[.load s.count addr], [{ origin := (t.lookup b).map .symbol }]⟩) := by
      rw [evaluation]
      exact (Build.bind_of_ok (haddr hleft)).trans (hload _)
    have hresult : (evaluation t
        (.binary sum (.arith op) (.var left b) (.int right value))).scalar s = .ok (s.count + 1,
          s.append ⟨[.load s.count addr, .arith op (s.count + 1) s.count (.imm value.toInt32)],
            [{ origin := (t.lookup b).map .symbol }, {}]⟩) := by
      rw [evaluation]
      exact (Build.bind_of_ok hvar).trans ((Build.bind_of_ok (hoperand ..)).trans
        ((Build.bind_of_ok (htemp _)).trans (Build.bind_of_ok (hpush ..))))
    -- an integer is computed in a temporary and then stored
    have hinto : ∀ e : Evaluation, e = evaluation t
        (.binary sum (.arith op) (.var left b) (.int right value)) →
        e.into addr = (do push (.store (← e.scalar) addr)) := by
      rintro _ rfl
      rw [evaluation]
      exact if_pos hsum
    rw [statement, declaration, Emits, Build.bind_of_ok (haddr htarget), hinto _ rfl,
      Build.bind_of_ok hresult, hpush]
    rfl
  | @assignment tag target right a htarget =>
    refine ⟨(t.lookup a).map .symbol, ?_⟩
    rw [statement, assignment, Emits, Build.bind_of_ok (haddr htarget), Build.bind_of_ok (hload _),
      Build.bind_of_ok (hoperand ..), Build.bind_of_ok (htemp _), Build.bind_of_ok (hpush ..), hpush]
    rfl

end Flow

end TraceScript
