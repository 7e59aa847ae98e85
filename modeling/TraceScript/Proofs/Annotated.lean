import Mathlib.Data.List.Basic
import Mathlib.Tactic.Common
import TraceScript.Proofs.Parsed
import TraceScript.Proofs.Run
import TraceScript.Proofs.Typed

namespace TraceScript

open Run

/-- A symbol before anything is placed. -/
structure Symbol.Unplaced (s : Symbol) : Prop where
  kind : s.kind = .map ↔ s.map.isSome
  unplaced : s.addr = none
  keySize : ∀ slot ∈ s.map, 0 < slot.keySize ∧ slot.keySize % 8 = 0
  noRegions : ∀ slot ∈ s.map, slot.keyAddr = none ∧ slot.valueAddr = none

/-- A symbol between statements: its shape is known. -/
structure Symbol.Sound (s : Symbol) : Prop extends s.Unplaced where
  shape : ∃ sh, s.facts.shape = some sh ∧ sh.IsValue
  assumed : ∀ slot ∈ s.map, slot.provisional = true → s.facts.shape = some .int

structure Table.Sound (t : Table) : Prop where
  symbols : ∀ (i : Nat) (s : Symbol), t.symbols[i]? = some s → s.Sound
  frame : t.frame = {}

theorem Table.sound_empty : Table.Sound {} where
  symbols i s h := by simp at h
  frame := rfl

theorem Symbol.Unplaced.var_iff {s : Symbol} (h : s.Unplaced) :
    s.kind = .var ↔ s.map = none := by
  rw [← Option.not_isSome_iff_eq_none, ← h.kind]
  cases s.kind with
  | var => exact ⟨fun _ => nofun, fun _ => rfl⟩
  | map => exact ⟨nofun, fun hne => (hne rfl).elim⟩

theorem Table.Sound.shaped {t : Table} (ht : t.Sound) : t.Shaped :=
  fun i s h => (ht.symbols i s h).shape

theorem Table.Sound.names {t : Table} (ht : t.Sound) {name : Name} {i : Nat} {s : Symbol}
    (h : t.Names name i s) : s.Sound :=
  ht.symbols i s h.symbol

namespace Table

variable {t t' : Table} {name : Name} {i : Nat} {s : Symbol}

/-- The table with one symbol of a name put in: a new one, or what an old one has become. -/
inductive Updates (t : Table) (name : Name) : Nat → Symbol → Table → Prop
  | existing {i : Nat} {s s' : Symbol} : t.Names name i s → s.Grows s' →
      Updates t name i s' (t.modify i fun _ => s')
  | fresh {s' : Symbol} : t.lookup name = none → s'.name = name →
      Updates t name t.symbols.size s' (t.push s').2

theorem modify_eq_self (h : t.symbols[i]? = some s) : t.modify i (fun _ => s) = t := by
  have : t.symbols.modify i (fun _ => s) = t.symbols := by
    apply Array.ext_getElem?
    intro j
    rw [Array.getElem?_modify]
    split
    · rename_i hij
      rw [← hij, h]
      rfl
    · rfl
  rw [modify, this]

theorem Names.updates (h : t.Names name i s) : t.Updates name i s t := by
  have := Updates.existing h (.refl s)
  rwa [modify_eq_self h.symbol] at this

theorem Updates.symbol (h : t.Updates name i s t') : t'.symbols[i]? = some s := by
  cases h with
  | existing hn _ => simp [modify, Array.getElem?_modify, hn.symbol]
  | fresh _ _ => simp [push]

theorem Updates.modify (h : t.Updates name i s t') {f : Symbol → Symbol} (hg : s.Grows (f s)) :
    t.Updates name i (f s) (t'.modify i f) := by
  cases h with
  | existing hn hs =>
    have h₂ : (t.modify i fun _ => s).modify i f = t.modify i fun _ => f s := by
      simp only [Table.modify, mk.injEq, and_self, and_true]
      apply Array.ext_getElem?
      intro j
      simp only [Array.getElem?_modify]
      split
      · cases t.symbols[j]? <;> rfl
      · rfl
    rw [h₂]
    exact .existing hn (hs.trans hg)
  | fresh hl hname =>
    have h₂ : (t.push s).2.modify t.symbols.size f = (t.push (f s)).2 := by
      simp only [Table.modify, push, mk.injEq, and_self, and_true]
      apply Array.ext_getElem?
      intro j
      simp only [Array.getElem?_modify, Array.getElem?_push]
      grind
    rw [h₂]
    exact .fresh hl (hg.name.trans hname)

theorem Updates.grows (h : t.Updates name i s t') : t.Grows t' := by
  cases h with
  | existing hn hs =>
    refine ⟨fun j x hx => ?_, id⟩
    simp only [Table.modify, Array.getElem?_modify]
    by_cases hij : i = j
    · subst hij
      obtain rfl := Option.some.inj (hn.symbol.symm.trans hx)
      rw [if_pos rfl, hx]
      exact ⟨s, rfl, hs⟩
    · rw [if_neg hij]
      exact ⟨x, hx, .refl x⟩
  | fresh _ _ =>
    refine ⟨fun j x hx => ⟨x, ?_, .refl x⟩, id⟩
    obtain ⟨hj, rfl⟩ := Array.getElem?_eq_some_iff.1 hx
    simp [push, Array.getElem?_push, Nat.ne_of_lt hj]

theorem Updates.names (h : t.Updates name i s t') : t'.Names name i s := by
  have hg := h.grows
  have hs := h.symbol
  cases h with
  | existing hn _ =>
    obtain ⟨s', hn', -⟩ := hg.names hn
    exact ⟨hn'.lookup, hs⟩
  | fresh hl hname =>
    refine ⟨?_, hs⟩
    rw [lookup, Array.findIdx?_eq_none_iff] at hl
    have hsame : s.name.same name = true := by rw [hname, Name.same_iff]
    simp only [lookup, push, Array.findIdx?_push, hsame, if_true]
    rw [Array.findIdx?_eq_none_iff.2 hl]
    rfl

theorem Updates.sound (h : t.Updates name i s t') (ht : t.Sound) (hs : s.Sound) : t'.Sound := by
  cases h with
  | existing hn _ =>
    refine ⟨fun j x hx => ?_, ht.frame⟩
    simp only [Table.modify, Array.getElem?_modify] at hx
    split at hx
    · obtain ⟨y, -, rfl⟩ := Option.map_eq_some_iff.1 hx
      exact hs
    · exact ht.symbols j x hx
  | fresh _ _ =>
    refine ⟨fun j x hx => ?_, ht.frame⟩
    simp only [push, Array.getElem?_push] at hx
    split at hx
    · exact Option.some.inj hx ▸ hs
    · exact ht.symbols j x hx

theorem needsEvents_requestEvents (t : Table) : t.requestEvents.needsEvents = true := by
  simp only [needsEvents, requestEvents]
  cases t.events <;> rfl

theorem grows_requestEvents (t : Table) : t.Grows t.requestEvents where
  symbols _ s h := ⟨s, h, .refl s⟩
  events _ := t.needsEvents_requestEvents

end Table

namespace Annotate

variable {s s' : Typing} {name : Name} {i : Nat} {span : Span} {sym : Symbol} {sh : Shape} {u : Unit}

theorem fail_ok {α : Type} {e : SemanticError} {a : α} : fail e span s = .ok a s' ↔ False := by
  constructor
  · intro h
    cases h
  · exact False.elim

theorem shapeOf_ok {n : Node} : shapeOf n s = .ok sh s' ↔ n.facts.shape = some sh ∧ s' = s := by
  unfold shapeOf
  cases h : n.facts.shape with
  | none => simp [fail_ok]
  | some shape => simp [estate_pure_ok, eq_comm]

theorem expectInt_ok {n : Node} (h : expectInt n s = .ok u s') :
    n.facts.shape = some .int ∧ s' = s := by
  obtain ⟨sh, s₁, hshape, hcheck⟩ := estate_bind_ok.1 h
  obtain ⟨hsh, rfl⟩ := shapeOf_ok.1 hshape
  by_cases hi : sh = .int
  · rw [if_neg (not_not.2 hi)] at hcheck
    obtain ⟨-, rfl⟩ := estate_pure_ok.1 hcheck
    exact ⟨hi ▸ hsh, rfl⟩
  · rw [if_pos hi] at hcheck
    exact (fail_ok.1 hcheck).elim

theorem modifySymbol_ok (i : Nat) (f : Symbol → Symbol) (s : Typing) :
    modifySymbol i f s = .ok () { s with table := s.table.modify i f } := rfl

theorem declare_ok (n : Note) (add : Table → Nat × Table) (s : Typing) :
    declare n add s =
      .ok (add s.table).1 { table := (add s.table).2, notes := s.notes.push n } := rfl

theorem orFail_ok {α : Type} {x : Except SemanticError α} {a : α} :
    orFail span x s = .ok a s' ↔ x = .ok a ∧ s' = s := by
  cases x with
  | error e => simp [orFail, fail_ok]
  | ok b => simp [orFail, estate_pure_ok, eq_comm]

/-- A symbol of the table, which stays as it is, or a new symbol that may be declared. -/
theorem variableIndex_ok {mayDeclare : Bool} (ht : s.table.Sound)
    (h : variableIndex name span mayDeclare s = .ok i s') :
    ∃ sym, s.table.Updates name i sym s'.table ∧ sym.map = none ∧
      (s' = s ∧ s.table.Names name i sym ∨ mayDeclare = true ∧ sym = { name }) := by
  unfold variableIndex at h
  obtain ⟨t, s₁, ⟨⟩, h₁⟩ := estate_bind_ok.1 h
  cases hl : s.table.lookup name with
  | none =>
    rw [hl] at h₁
    dsimp only at h₁
    cases mayDeclare with
    | false => exact (fail_ok.1 h₁).elim
    | true =>
      rw [if_pos rfl, declare_ok] at h₁
      cases h₁
      exact ⟨{ name }, .fresh hl rfl, rfl, .inr ⟨rfl, rfl⟩⟩
  | some j =>
    rw [hl] at h₁
    obtain ⟨sym, s₂, ⟨⟩, h₂⟩ := estate_bind_ok.1 h₁
    have hn := Table.names_of_lookup hl
    by_cases hk : (s.table.symbols.getD j default).kind = .var
    · rw [if_pos hk] at h₂
      obtain ⟨rfl, rfl⟩ := estate_pure_ok.1 h₂
      exact ⟨_, hn.updates, (ht.names hn).var_iff.1 hk, .inl ⟨rfl, hn⟩⟩
    · rw [if_neg hk] at h₂
      exact (fail_ok.1 h₂).elim

theorem checkKeySize_ok {keySize : Nat} {slot : MapSlot} (hs : s.table.symbols.getD i default = sym)
    (hm : sym.map = some slot) (h : checkKeySize name keySize span i s = .ok u s') :
    slot.keySize = 0 ∧
        s'.table = s.table.modify i (fun x => { x with map := some { slot with keySize } }) ∨
      slot.keySize ≠ 0 ∧ slot.keySize = keySize ∧ s' = s := by
  unfold checkKeySize at h
  obtain ⟨x, s₁, ⟨⟩, h₁⟩ := estate_bind_ok.1 h
  rw [hs, hm] at h₁
  dsimp only [Option.getD_some] at h₁
  by_cases h0 : slot.keySize = 0
  · rw [if_pos h0] at h₁
    rw [modifySymbol_ok] at h₁
    cases h₁
    exact .inl ⟨h0, rfl⟩
  · rw [if_neg h0] at h₁
    by_cases hk : slot.keySize = keySize
    · rw [if_neg (not_not.2 hk)] at h₁
      obtain ⟨-, rfl⟩ := estate_pure_ok.1 h₁
      exact .inr ⟨h0, hk, rfl⟩
    · rw [if_pos hk] at h₁
      exact (fail_ok.1 h₁).elim

theorem mapIndex_ok {keySize : Nat} {mayDeclare : Bool} (ht : s.table.Sound)
    (h : mapIndex name keySize span mayDeclare s = .ok i s') :
    ∃ sym slot, s.table.Updates name i sym s'.table ∧ sym.map = some slot ∧
      slot.keySize = keySize ∧ (s' = s ∧ s.table.Names name i sym ∨
        mayDeclare = true ∧ sym = { name, kind := .map, map := some { keySize } }) := by
  unfold mapIndex at h
  obtain ⟨t, s₁, ⟨⟩, h₁⟩ := estate_bind_ok.1 h
  cases hl : s.table.lookup name with
  | none =>
    rw [hl] at h₁
    cases mayDeclare with
    | false =>
      obtain ⟨j, s₂, h₂, -⟩ := estate_bind_ok.1 h₁
      exact (fail_ok.1 h₂).elim
    | true =>
      obtain ⟨j, s₂, h₂, h₃⟩ := estate_bind_ok.1 h₁
      rw [declare_ok] at h₂
      cases h₂
      obtain ⟨u, s₄, h₄, h₅⟩ := estate_bind_ok.1 h₃
      obtain ⟨rfl, rfl⟩ := estate_pure_ok.1 h₅
      have hup : s.table.Updates name s.table.symbols.size { name, kind := .map, map := some {} }
          (s.table.declareMap name).2 := .fresh hl rfl
      rcases checkKeySize_ok hup.names.getD rfl h₄ with ⟨-, heq⟩ | ⟨h0, -⟩
      · refine ⟨{ name, kind := .map, map := some { keySize } }, { keySize }, ?_, rfl, rfl,
          .inr ⟨rfl, rfl⟩⟩
        rw [heq]
        refine hup.modify (f := fun x => { x with map := some { ({} : MapSlot) with keySize } })
          ⟨rfl, rfl, rfl, ?_, fun _ hsh => .inl hsh, fun hset => ?_⟩
        · rintro _ ⟨⟩ hne
          exact (hne rfl).elim
        · cases hset.1
      · exact (h0 rfl).elim
  | some j =>
    rw [hl] at h₁
    obtain ⟨sym, s₂, ⟨⟩, h₂⟩ := estate_bind_ok.1 h₁
    have hn := Table.names_of_lookup hl
    by_cases hm : (s.table.symbols.getD j default).kind = .map
    · rw [if_pos hm] at h₂
      obtain ⟨_, s₃, ⟨⟩, h₃⟩ := estate_bind_ok.1 h₂
      obtain ⟨u, s₄, h₄, h₅⟩ := estate_bind_ok.1 h₃
      obtain ⟨slot, hslot⟩ := Option.isSome_iff_exists.1 ((ht.names hn).kind.1 hm)
      obtain ⟨rfl, rfl⟩ := estate_pure_ok.1 h₅
      have hpos := ((ht.names hn).keySize slot hslot).1
      rcases checkKeySize_ok rfl hslot h₄ with ⟨h0, -⟩ | ⟨-, hk, rfl⟩
      · omega
      · exact ⟨_, slot, hn.updates, hslot, hk, .inl ⟨rfl, hn⟩⟩
    · rw [if_neg hm] at h₂
      obtain ⟨_, s₃, h₃, -⟩ := estate_bind_ok.1 h₂
      exact (fail_ok.1 h₃).elim

theorem declaredShape_ok (h : declaredShape i name span s = .ok sh s') :
    s' = s ∧ (s.table.symbols.getD i default).facts.shape = some sh := by
  unfold declaredShape at h
  obtain ⟨sym, s₁, ⟨⟩, h₁⟩ := estate_bind_ok.1 h
  cases hs : (s.table.symbols.getD i default).facts.shape with
  | none =>
    rw [hs] at h₁
    exact (fail_ok.1 h₁).elim
  | some shape =>
    rw [hs] at h₁
    obtain ⟨rfl, rfl⟩ := estate_pure_ok.1 h₁
    exact ⟨rfl, rfl⟩

theorem builtin_ok {count : Nat} {b : Builtin} (h : builtin name count span s = .ok b s') :
    s' = s ∧ Builtin.ofName? name = some b ∧ b.arity.accepts count = true := by
  unfold builtin at h
  cases hb : Builtin.ofName? name with
  | none =>
    rw [hb] at h
    exact (fail_ok.1 h).elim
  | some b' =>
    rw [hb] at h
    dsimp only at h
    by_cases ha : b'.arity.accepts count
    · rw [if_pos ha] at h
      obtain ⟨rfl, rfl⟩ := estate_pure_ok.1 h
      exact ⟨rfl, rfl, ha⟩
    · rw [if_neg ha] at h
      exact (fail_ok.1 h).elim

theorem retag_facts {tag : Tag} (h : tag.facts = {}) (sh : Shape) (st : Storage) :
    (retag tag (.ofShape sh st)).facts = .ofShape sh st := by
  unfold retag
  rw [h]
  rfl

theorem argIndex_ok {n n' : Node} (h : argIndex n s = .ok n' s') :
    s' = s ∧ ∃ tag value, n' = .int tag value ∧ tag.facts = .ofShape .int .register ∧
      0 ≤ value.toInt ∧ value.toInt < Builtin.maxArgs := by
  unfold argIndex at h
  split at h
  · rename_i tag value
    by_cases hv : 0 ≤ value.toInt ∧ value.toInt < Builtin.maxArgs
    · rw [if_pos hv] at h
      obtain ⟨rfl, rfl⟩ := estate_pure_ok.1 h
      exact ⟨rfl, _, _, rfl, rfl, hv⟩
    · rw [if_neg hv] at h
      exact (fail_ok.1 h).elim
  · exact (fail_ok.1 h).elim

theorem isString_ok (sh : Shape) : isString sh = .ok () ↔ sh.type = .str := by
  unfold isString
  split <;> simp_all

/-- Typing an expression reads the table and leaves it as it is. -/
def Types (n : Node) : Prop :=
  ∀ (s s' : Typing) (n' : Node), s.table.Sound → expression n s = .ok n' s' →
    s' = s ∧ Typed s.table n'

theorem expressions_ok {check : Shape → Except SemanticError Unit} {ns : List Node}
    (hns : ∀ n ∈ ns, Types n) {ns' : List Node} (ht : s.table.Sound)
    (h : expressions check ns s = .ok ns' s') :
    s' = s ∧ ns'.length = ns.length ∧ ∀ n ∈ ns', Typed s.table n ∧
      ∃ sh, n.facts.shape = some sh ∧ check sh = .ok () := by
  induction ns generalizing ns' with
  | nil =>
    rw [expressions] at h
    obtain ⟨rfl, rfl⟩ := estate_pure_ok.1 h
    exact ⟨rfl, rfl, fun n hn => (List.not_mem_nil hn).elim⟩
  | cons n ns ih =>
    rw [expressions] at h
    obtain ⟨m, s₁, hm, h₁⟩ := estate_bind_ok.1 h
    obtain ⟨rfl, hmt⟩ := hns n List.mem_cons_self _ _ _ ht hm
    obtain ⟨sh, s₂, hsh, h₂⟩ := estate_bind_ok.1 h₁
    obtain ⟨hshape, rfl⟩ := shapeOf_ok.1 hsh
    obtain ⟨u, s₃, hcheck, h₃⟩ := estate_bind_ok.1 h₂
    obtain ⟨hok, rfl⟩ := orFail_ok.1 hcheck
    obtain ⟨ms, s₄, hms, h₄⟩ := estate_bind_ok.1 h₃
    obtain ⟨rfl, rfl⟩ := estate_pure_ok.1 h₄
    obtain ⟨rfl, hlen, hall⟩ := ih (fun n hn => hns n (List.mem_cons_of_mem _ hn)) hms
    refine ⟨rfl, by rw [List.length_cons, List.length_cons, hlen], fun k hk => ?_⟩
    rcases List.mem_cons.1 hk with rfl | hk
    · exact ⟨hmt, sh, hshape, hok⟩
    · exact hall k hk

theorem ne_nil_of_length_eq {α β : Type} {l : List α} {l' : List β} (h : l'.length = l.length)
    (hl : l ≠ []) : l' ≠ [] := by
  rintro rfl
  exact hl (List.length_eq_zero_iff.1 h.symm)

/-- A call that has a value: a function without arguments, one that takes a constant, or the
comparison of two expressions. -/
theorem call_args {tag : Tag} {function : Name} {args : List Node} {n : Node}
    (h : expression (.call tag function args) s = .ok n s') :
    ∃ b args' shape storage, Builtin.ofName? function = some b ∧ b.result = some (shape, storage) ∧
      n = .call (retag tag (.ofShape shape storage)) function args' ∧
      (b ∈ [Builtin.pid, .tid, .cpu, .ns, .comm] ∧ args' = [] ∧ s' = s ∨
        b = .arg ∧ s' = s ∧ (∃ index value, args' = [.int index value] ∧
          index.facts = .ofShape .int .register ∧ 0 ≤ value.toInt ∧
          value.toInt < Builtin.maxArgs) ∨
        b = .strcmp ∧ args.length = 2 ∧ expressions isString args s = .ok args' s') := by
  rw [expression] at h
  obtain ⟨b, s₁, hb, h₁⟩ := estate_bind_ok.1 h
  obtain ⟨rfl, hname, harity⟩ := builtin_ok hb
  have hnil : b.arity = .exactly 0 → args = [] := by
    intro hb
    rw [hb] at harity
    exact List.length_eq_zero_iff.1 (by simpa [Arity.accepts] using harity)
  cases b with
  | pid | tid | cpu | ns | comm =>
    obtain rfl := hnil rfl
    obtain ⟨args', s₂, hargs', h₂⟩ := estate_bind_ok.1 h₁
    obtain ⟨rfl, rfl⟩ := estate_pure_ok.1 hargs'
    obtain ⟨rfl, rfl⟩ := estate_pure_ok.1 h₂
    exact ⟨_, _, _, _, hname, rfl, rfl, .inl ⟨by decide, rfl, rfl⟩⟩
  | arg =>
    have hlen : args.length = 1 := by simpa [Builtin.arity, Arity.accepts] using harity
    obtain ⟨a, rfl⟩ := List.length_eq_one_iff.1 hlen
    obtain ⟨args', s₂, hargs', h₂⟩ := estate_bind_ok.1 h₁
    have hone : (do return [← argIndex a] : Annotate (List Node)) s₁ = .ok args' s₂ := by
      rw [← hargs']
      simp
    obtain ⟨a', s₃, ha, hpure⟩ := estate_bind_ok.1 hone
    obtain ⟨rfl, index, value, rfl, hfacts, h0, h6⟩ := argIndex_ok ha
    obtain ⟨rfl, rfl⟩ := estate_pure_ok.1 hpure
    obtain ⟨rfl, rfl⟩ := estate_pure_ok.1 h₂
    exact ⟨_, _, _, _, hname, rfl, rfl,
      .inr (.inl ⟨rfl, rfl, index, value, rfl, hfacts, h0, h6⟩)⟩
  | strcmp =>
    have hlen : args.length = 2 := by simpa [Builtin.arity, Arity.accepts] using harity
    obtain ⟨args', s₂, hargs', h₂⟩ := estate_bind_ok.1 h₁
    obtain ⟨rfl, rfl⟩ := estate_pure_ok.1 h₂
    exact ⟨_, _, _, _, hname, rfl, rfl, .inr (.inr ⟨rfl, hlen, hargs'⟩)⟩
  | out =>
    obtain ⟨_, _, _, h₂⟩ := estate_bind_ok.1 h₁
    exact (fail_ok.1 h₂).elim

theorem call_ok {tag : Tag} {function : Name} {args : List Node} (hf : tag.facts = {})
    (hargs : ∀ a ∈ args, Types a) {n' : Node} (ht : s.table.Sound)
    (h : expression (.call tag function args) s = .ok n' s') :
    s' = s ∧ Typed s.table n' ∧ ∃ tag' args', n' = .call tag' function args' := by
  obtain ⟨b, args', shape, storage, hname, hresult, rfl, hcase⟩ := call_args h
  rcases hcase with ⟨hmem, rfl, rfl⟩ | ⟨rfl, rfl, index, value, rfl, hfacts, h0, h6⟩ |
    ⟨rfl, hlen, hargs'⟩
  · refine ⟨rfl, ?_, _, _, rfl⟩
    cases b with
    | pid | tid | cpu | ns =>
      cases hresult
      exact .query hname (by decide) (retag_facts hf _ _)
    | comm =>
      cases hresult
      exact .comm hname (retag_facts hf _ _)
    | _ => simp at hmem
  · cases hresult
    exact ⟨rfl, .arg hname h0 h6 hfacts (retag_facts hf _ _), _, _, rfl⟩
  · cases hresult
    obtain ⟨rfl, hlen', hall⟩ := expressions_ok hargs ht hargs'
    obtain ⟨l, r, rfl⟩ := List.length_eq_two.1 (hlen'.trans hlen)
    obtain ⟨hl, shl, hshl, hstrl⟩ := hall l (by simp)
    obtain ⟨hr, shr, hshr, hstrr⟩ := hall r (by simp)
    rw [isString_ok] at hstrl hstrr
    refine ⟨rfl, .strcmp hname hl hr ?_ ?_ (retag_facts hf _ _), _, _, rfl⟩
    · rw [(Facts.shape_eq_some.1 hshl).1, hstrl]
    · rw [(Facts.shape_eq_some.1 hshr).1, hstrr]

theorem types_of_expression {n : Node} (h : Expression n) : Types n := by
  induction h with
  | int hf =>
    intro s s' n' ht h
    rw [expression] at h
    obtain ⟨rfl, rfl⟩ := estate_pure_ok.1 h
    exact ⟨rfl, .int (retag_facts hf _ _)⟩
  | text hf =>
    intro s s' n' ht h
    rw [expression] at h
    obtain ⟨rfl, rfl⟩ := estate_pure_ok.1 h
    exact ⟨rfl, .text (retag_facts hf _ _)⟩
  | var hf =>
    intro s s' n' ht h
    rw [expression] at h
    obtain ⟨i, s₁, hi, h₁⟩ := estate_bind_ok.1 h
    obtain ⟨sym, -, hm, ⟨rfl, hn⟩ | ⟨⟨⟩, -⟩⟩ := variableIndex_ok ht hi
    obtain ⟨sh, s₂, hsh, h₂⟩ := estate_bind_ok.1 h₁
    obtain ⟨rfl, hsh⟩ := declaredShape_ok hsh
    obtain ⟨rfl, rfl⟩ := estate_pure_ok.1 h₂
    rw [hn.getD] at hsh
    exact ⟨rfl, .var hn hm hsh (retag_facts hf _ _)⟩
  | mapAccess hf hne _ ih =>
    intro s s' n' ht h
    rw [expression] at h
    obtain ⟨keys', s₁, hkeys, h₁⟩ := estate_bind_ok.1 h
    obtain ⟨rfl, hlen, hall⟩ := expressions_ok ih ht hkeys
    obtain ⟨i, s₂, hi, h₂⟩ := estate_bind_ok.1 h₁
    obtain ⟨sym, slot, -, hm, hk, ⟨rfl, hn⟩ | ⟨⟨⟩, -⟩⟩ := mapIndex_ok ht hi
    obtain ⟨sh, s₃, hsh, h₃⟩ := estate_bind_ok.1 h₂
    obtain ⟨rfl, hsh⟩ := declaredShape_ok hsh
    obtain ⟨rfl, rfl⟩ := estate_pure_ok.1 h₃
    rw [hn.getD] at hsh
    have hpos := ((ht.names hn).keySize slot hm).1
    exact ⟨rfl, .mapAccess hn hm (by omega) (ne_nil_of_length_eq hlen hne)
      (fun k hk => (hall k hk).1) hk (.inr hsh) (retag_facts hf _ _)⟩
  | binary hf _ _ ihl ihr =>
    intro s s' n' ht h
    rw [expression] at h
    obtain ⟨l, s₁, hl, h₁⟩ := estate_bind_ok.1 h
    obtain ⟨rfl, hlt⟩ := ihl _ _ _ ht hl
    obtain ⟨r, s₂, hr, h₂⟩ := estate_bind_ok.1 h₁
    obtain ⟨rfl, hrt⟩ := ihr _ _ _ ht hr
    obtain ⟨u, s₃, hli, h₃⟩ := estate_bind_ok.1 h₂
    obtain ⟨hlint, rfl⟩ := expectInt_ok hli
    obtain ⟨u, s₄, hri, h₄⟩ := estate_bind_ok.1 h₃
    obtain ⟨hrint, rfl⟩ := expectInt_ok hri
    obtain ⟨rfl, rfl⟩ := estate_pure_ok.1 h₄
    exact ⟨rfl, .binary hlt hrt hlint hrint (retag_facts hf _ _)⟩
  | call hf _ ih =>
    intro s s' n' ht h
    obtain ⟨hs, htyped, -⟩ := call_ok hf ih ht h
    exact ⟨hs, htyped⟩

theorem bindValue_ok {value value' : Node} (hsh : value.facts.shape = some sh)
    (hs : s.table.symbols.getD i default = sym) (h : bindValue i value s = .ok value' s') :
    value' = value ∧ ∃ facts : Facts, facts.shape = some sh ∧
      (∀ sh', sym.facts.shape = some sh' → sh' = sh) ∧
      s'.table = s.table.modify i (fun x => { x with facts }) := by
  unfold bindValue at h
  obtain ⟨x, s₁, ⟨⟩, h₁⟩ := estate_bind_ok.1 h
  obtain ⟨⟨left, right⟩, s₂, hu, h₂⟩ := estate_bind_ok.1 h₁
  obtain ⟨hunify, rfl⟩ := orFail_ok.1 hu
  obtain ⟨u, s₃, hmod, h₃⟩ := estate_bind_ok.1 h₂
  rw [modifySymbol_ok] at hmod
  cases hmod
  obtain ⟨rfl, rfl⟩ := estate_pure_ok.1 h₃
  rw [hs, Facts.unify, hsh] at hunify
  have hself : value.withTag { value.tag with facts := value.facts } = value := by
    cases value <;> rfl
  cases hshape : sym.facts.shape with
  | none =>
    rw [hshape] at hunify
    cases hunify
    exact ⟨hself, _, rfl, fun _ h => (by cases h), rfl⟩
  | some sh' =>
    rw [hshape] at hunify
    dsimp only at hunify
    split at hunify
    · rename_i heq
      cases hunify
      refine ⟨hself, _, ?_, fun _ h => ?_, rfl⟩
      · rw [← heq, ← hshape]
        rfl
      · exact (Option.some.inj h).symm.trans heq
    · cases hunify

theorem bindValue_updates {t : Table} {value value' : Node} (hup : t.Updates name i sym s.table)
    (hsym : sym.Unplaced) (hmap : sym.map.any MapSlot.provisional = false)
    (hsh : value.facts.shape = some sh) (hv : sh.IsValue)
    (h : bindValue i value s = .ok value' s') :
    value' = value ∧ ∃ sym' : Symbol, t.Updates name i sym' s'.table ∧ sym'.map = sym.map ∧
      sym'.Sound ∧ sym'.Settled ∧ sym'.facts.shape = some sh := by
  obtain ⟨rfl, facts, hfacts, hold, htable⟩ := bindValue_ok hsh hup.names.getD h
  have hset : ({ sym with facts } : Symbol).Settled := ⟨by rw [hfacts]; rfl, hmap⟩
  have hg : sym.Grows { sym with facts } :=
    { Symbol.Grows.refl sym with
      shape := fun sh' h' => .inl (by rw [hfacts, hold sh' h'])
      settled := fun hsettled => by
        obtain ⟨sh', h'⟩ := Option.isSome_iff_exists.1 hsettled.1
        exact ⟨hset, by rw [hfacts, h', hold sh' h']⟩ }
  refine ⟨rfl, { sym with facts }, htable ▸ hup.modify (f := fun x => { x with facts }) hg, rfl, ?_,
    hset, hfacts⟩
  refine { hsym with shape := ⟨sh, hfacts, hv⟩, assumed := fun slot hslot hp => ?_ }
  have hno : sym.map.any MapSlot.provisional = true := by
    rw [show sym.map = some slot from hslot]
    exact hp
  rw [hmap] at hno
  cases hno

theorem refine_ok {map : Name} (h : refine i map sh s = .ok u s') :
    s'.table = s.table.modify i (fun x =>
      { x with
        facts := { x.facts.withShape sh with storage := .stack }
        map := x.map.map fun slot => { slot with provisional := false } }) := by
  unfold refine at h
  obtain ⟨x, s₁, ⟨⟩, h₁⟩ := estate_bind_ok.1 h
  by_cases hsh : (s.table.symbols.getD i default).facts.shape ≠ some sh
  · rw [if_pos hsh] at h₁
    cases h₁
    rfl
  · rw [if_neg hsh] at h₁
    cases h₁
    rfl

theorem refine_updates {t : Table} {map : Name} {slot : MapSlot}
    (hup : t.Updates name i sym s.table) (hsym : sym.Sound) (hslot : sym.map = some slot)
    (hp : slot.provisional = true) (hv : sh.IsValue) (h : refine i map sh s = .ok u s') :
    ∃ sym' slot', t.Updates name i sym' s'.table ∧ sym'.map = some slot' ∧
      slot'.keySize = slot.keySize ∧ sym'.Sound ∧ sym'.Settled ∧ sym'.facts.shape = some sh := by
  let f (x : Symbol) : Symbol :=
    { x with
      facts := { x.facts.withShape sh with storage := .stack }
      map := x.map.map fun slot => { slot with provisional := false } }
  have hmap : (f sym).map = some { slot with provisional := false } := by
    simp only [f, hslot, Option.map_some]
  have hset : (f sym).Settled := ⟨rfl, by rw [hmap]; rfl⟩
  have hg : sym.Grows (f sym) := by
    refine ⟨rfl, rfl, by rw [hmap, hslot]; rfl, ?_, ?_, ?_⟩
    · intro x hx _ x' hx'
      obtain rfl := Option.some.inj (hslot.symm.trans hx)
      obtain rfl := Option.some.inj (hmap.symm.trans hx')
      rfl
    · intro sh' hsh'
      have hint := hsym.assumed slot hslot hp
      exact .inr ⟨by rw [hslot]; rfl, Option.some.inj (hsh'.symm.trans hint)⟩
    · intro hsettled
      have hno := hsettled.2
      rw [hslot] at hno
      exact (Bool.false_ne_true (hno.symm.trans hp)).elim
  refine ⟨f sym, _, refine_ok h ▸ hup.modify hg, hmap, rfl, ?_, hset, rfl⟩
  have hkind : (f sym).kind = .map ↔ (f sym).map.isSome :=
    hsym.kind.trans (by rw [hslot, hmap]; rfl)
  refine ⟨⟨hkind, hsym.unplaced, fun x hx => ?_, fun x hx => ?_⟩, ⟨sh, rfl, hv⟩,
    fun x hx hpx => ?_⟩ <;> obtain rfl := Option.some.inj (hmap.symm.trans hx)
  · exact hsym.keySize slot hslot
  · exact hsym.noRegions slot hslot
  · cases hpx

theorem assumeInt_ok (hs : s.table.symbols.getD i default = sym) (h : assumeInt i s = .ok u s') :
    sym.facts.shape ≠ none ∧ s' = s ∨
      sym.facts.shape = none ∧ s'.table = s.table.modify i (fun x =>
        { x with
          facts := .ofShape .int .stack
          map := x.map.map fun slot => { slot with provisional := true } }) := by
  unfold assumeInt at h
  obtain ⟨x, s₁, ⟨⟩, h₁⟩ := estate_bind_ok.1 h
  rw [hs] at h₁
  by_cases hsh : sym.facts.shape.isNone
  · rw [if_pos hsh] at h₁
    cases h₁
    exact .inr ⟨Option.isNone_iff_eq_none.1 hsh, rfl⟩
  · rw [if_neg hsh] at h₁
    obtain ⟨-, rfl⟩ := estate_pure_ok.1 h₁
    exact .inl ⟨fun h => hsh (Option.isNone_iff_eq_none.2 h), rfl⟩

theorem assumeInt_updates {t t' : Table} {keySize : Nat}
    (hup : t.Updates name i { name, kind := .map, map := some { keySize } } t') (hpos : 0 < keySize)
    (hmod : keySize % 8 = 0) :
    ∃ sym' slot', t.Updates name i sym' (t'.modify i fun x =>
        { x with
          facts := .ofShape .int .stack
          map := x.map.map fun slot => { slot with provisional := true } }) ∧
      sym'.map = some slot' ∧ slot'.keySize = keySize ∧ slot'.provisional = true ∧
      sym'.Sound := by
  refine ⟨_, _, hup.modify ⟨rfl, rfl, rfl, ?_, nofun, fun h => ?_⟩, rfl, rfl, rfl, ?_⟩
  · rintro _ ⟨⟩ _ _ ⟨⟩
    rfl
  · cases h.1
  · refine ⟨⟨⟨fun _ => rfl, fun _ => rfl⟩, rfl, ?_, ?_⟩, ⟨.int, rfl, .inl rfl⟩, fun _ _ _ => rfl⟩ <;>
      rintro _ ⟨⟩
    · exact ⟨hpos, hmod⟩
    · exact ⟨rfl, rfl⟩

theorem expectIntSymbol_ok (hs : s.table.symbols.getD i default = sym)
    (h : expectIntSymbol i span s = .ok u s') : s' = s ∧ sym.facts.shape.getD .int = .int := by
  unfold expectIntSymbol at h
  obtain ⟨x, s₁, ⟨⟩, h₁⟩ := estate_bind_ok.1 h
  rw [hs] at h₁
  by_cases hi : sym.facts.shape.getD .int = .int
  · rw [if_neg (not_not.2 hi)] at h₁
    obtain ⟨-, rfl⟩ := estate_pure_ok.1 h₁
    exact ⟨rfl, hi⟩
  · rw [if_pos hi] at h₁
    exact (fail_ok.1 h₁).elim

theorem unplaced_fresh_map {keySize : Nat} (hpos : 0 < keySize) (hmod : keySize % 8 = 0) :
    ({ name, kind := .map, map := some { keySize } } : Symbol).Unplaced := by
  refine ⟨⟨fun _ => rfl, fun _ => rfl⟩, rfl, ?_, ?_⟩ <;> rintro _ ⟨⟩
  · exact ⟨hpos, hmod⟩
  · exact ⟨rfl, rfl⟩

theorem checkConversions_ok {cs : List Conversion} {ns : List Node}
    (h : checkConversions cs ns s = .ok u s') :
    s' = s ∧ (cs.length = ns.length → Accepts cs ns) := by
  induction cs generalizing ns with
  | nil =>
    refine ⟨(estate_pure_ok.1 h).2.symm, fun hlen => ?_⟩
    obtain rfl := List.length_eq_zero_iff.1 hlen.symm
    exact .nil
  | cons c cs ih =>
    cases ns with
    | nil => exact ⟨(estate_pure_ok.1 h).2.symm, nofun⟩
    | cons n ns =>
      rw [checkConversions] at h
      obtain ⟨found, s₁, hfound, h₁⟩ := estate_bind_ok.1 h
      obtain ⟨hshape, rfl⟩ := shapeOf_ok.1 hfound
      by_cases hc : c.accepts found.type
      · rw [if_pos hc] at h₁
        obtain ⟨rfl, hacc⟩ := ih h₁
        exact ⟨rfl, fun hlen =>
          .cons ⟨_, (Facts.shape_eq_some.1 hshape).1, hc⟩ (hacc (Nat.succ.inj hlen))⟩
      · rw [if_neg hc] at h₁
        exact (fail_ok.1 h₁).elim

theorem output_cases {args args' : List Node} (h : output span args s = .ok args' s') :
    ∃ tag format values cs record s₁, args = .text tag format :: values ∧
      conversions format = .ok cs ∧
      expression (pack span values) s = .ok record s₁ ∧ Accepts cs (members record) ∧
      args' = [.text tag format, record] ∧
      s' = { s₁ with table := s₁.table.requestEvents } := by
  unfold output at h
  split at h
  · exact (fail_ok.1 h).elim
  · rename_i tag format values
    cases hcs : conversions format with
    | error c =>
      rw [hcs] at h
      exact (fail_ok.1 h).elim
    | ok cs =>
      rw [hcs] at h
      obtain ⟨record, s₁, hrecord, h₁⟩ := estate_bind_ok.1 h
      by_cases hlen : cs.length = (members record).length
      · rw [if_neg (not_not.2 hlen)] at h₁
        obtain ⟨u, s₂, hcheck, h₂⟩ := estate_bind_ok.1 h₁
        obtain ⟨rfl, hacc⟩ := checkConversions_ok hcheck
        obtain ⟨u, s₃, ⟨⟩, h₃⟩ := estate_bind_ok.1 h₂
        obtain ⟨rfl, rfl⟩ := estate_pure_ok.1 h₃
        exact ⟨tag, format, values, cs, record, _, rfl, hcs, hrecord, hacc hlen, rfl, rfl⟩
      · rw [if_pos hlen] at h₁
        obtain ⟨u, s₂, hfail, -⟩ := estate_bind_ok.1 h₁
        exact (fail_ok.1 hfail).elim
  · exact (fail_ok.1 h).elim

theorem callStatement_cases {tag : Tag} {function : Name} {args : List Node} {n : Node}
    (h : callStatement tag function args s = .ok n s') :
    ∃ b, Builtin.ofName? function = some b ∧ b.arity.accepts args.length = true ∧
      ((∃ args', b = .out ∧ output tag.span args s = .ok args' s' ∧
          n = .call { tag with facts := {} } function args') ∨
        b ≠ .out ∧ expression (.call { tag with facts := {} } function args) s = .ok n s') := by
  unfold callStatement at h
  obtain ⟨b, s₁, hb, h₁⟩ := estate_bind_ok.1 h
  obtain ⟨rfl, hname, harity⟩ := builtin_ok hb
  refine ⟨b, hname, harity, ?_⟩
  by_cases hout : b = .out
  · rw [if_pos hout] at h₁
    obtain ⟨args', s₂, houtput, h₂⟩ := estate_bind_ok.1 h₁
    obtain ⟨rfl, rfl⟩ := estate_pure_ok.1 h₂
    exact .inl ⟨args', hout, houtput, rfl⟩
  · rw [if_neg hout] at h₁
    exact .inr ⟨hout, h₁⟩

theorem cond_ok {tag : Tag} {condition n : Node} {yes no : List Node}
    (h : statement (.cond tag condition yes no) s = .ok n s') : ∃ c ys ns s₁ s₂,
      expression condition s = .ok c s₁ ∧ c.facts.shape = some .int ∧
      statements yes s₁ = .ok ys s₂ ∧ statements no s₂ = .ok ns s' ∧ n = .cond tag c ys ns := by
  rw [statement] at h
  obtain ⟨c, s₁, hc, h₁⟩ := estate_bind_ok.1 h
  obtain ⟨u, s₂, hexpect, h₂⟩ := estate_bind_ok.1 h₁
  obtain ⟨hint, rfl⟩ := expectInt_ok hexpect
  obtain ⟨ys, s₃, hys, h₃⟩ := estate_bind_ok.1 h₂
  obtain ⟨ns, s₄, hns, h₄⟩ := estate_bind_ok.1 h₃
  obtain ⟨rfl, rfl⟩ := estate_pure_ok.1 h₄
  exact ⟨c, ys, ns, _, s₃, hc, hint, hys, hns, rfl⟩

theorem statements_cons_ok {n : Node} {ns ns' : List Node}
    (h : statements (n :: ns) s = .ok ns' s') : ∃ m ms s₁,
      statement n s = .ok m s₁ ∧ statements ns s₁ = .ok ms s' ∧ ns' = m :: ms := by
  rw [statements] at h
  obtain ⟨m, s₁, hm, h₁⟩ := estate_bind_ok.1 h
  obtain ⟨ms, s₂, hms, h₂⟩ := estate_bind_ok.1 h₁
  obtain ⟨rfl, rfl⟩ := estate_pure_ok.1 h₂
  exact ⟨m, ms, s₁, hm, hms, rfl⟩

end Annotate

end TraceScript
