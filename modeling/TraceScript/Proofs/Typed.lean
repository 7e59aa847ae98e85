import Mathlib.Data.List.Forall2
import TraceScript.Script.Typing

/-!
What typing establishes. A typed tree is described by the table alone, and stays typed as long as
the table only grows: symbols are added, and a map whose values were only assumed to be integers may
still be declared to hold something else.
-/
namespace TraceScript

theorem align8_mod (n : Nat) : align8 n % 8 = 0 := by
  unfold align8
  omega

theorem le_align8 (n : Nat) : n ≤ align8 n := by
  unfold align8
  omega

theorem align8_of_mod {n : Nat} (h : n % 8 = 0) : align8 n = n := by
  unfold align8
  omega

namespace Shape

/-- The shapes of integers and strings. A string takes a multiple of eight bytes. -/
def IsValue (s : Shape) : Prop := s = int ∨ s.type = .str ∧ 0 < s.size ∧ s.size % 8 = 0

theorem IsValue.size_pos {s : Shape} (h : s.IsValue) : 0 < s.size := by
  rcases h with rfl | ⟨-, h, -⟩
  · decide
  · exact h

theorem IsValue.size_mod {s : Shape} (h : s.IsValue) : s.size % 8 = 0 := by
  rcases h with rfl | ⟨-, -, h⟩
  · decide
  · exact h

theorem IsValue.eq_int {s : Shape} (h : s.IsValue) (ht : s.type = .int) : s = int := by
  rcases h with rfl | ⟨hs, -, -⟩
  · rfl
  · rw [hs] at ht
    cases ht

end Shape

namespace Facts

@[simp] theorem shape_ofShape (sh : Shape) (st : Storage) : (ofShape sh st).shape = some sh := rfl

@[simp] theorem size_ofShape (sh : Shape) (st : Storage) : (ofShape sh st).size = sh.size := rfl

theorem shape_eq_some {a : Facts} {sh : Shape} :
    a.shape = some sh ↔ a.type = some sh.type ∧ a.size = sh.size := by
  unfold shape
  constructor
  · intro h
    obtain ⟨type, ht, rfl⟩ := Option.map_eq_some_iff.1 h
    exact ⟨ht, rfl⟩
  · rintro ⟨ht, hs⟩
    rw [ht, hs]
    rfl

theorem size_of_shape {a : Facts} {sh : Shape} (h : a.shape = some sh) : a.size = sh.size :=
  (shape_eq_some.1 h).2

theorem isInt_of_shape {a : Facts} {sh : Shape} (h : a.shape = some sh) :
    a.isInt = (sh.type == .int) := by
  rw [isInt, (shape_eq_some.1 h).1]
  rfl

end Facts

namespace Symbol

/-- The shape of the symbol is known and can no longer change. -/
def Settled (s : Symbol) : Prop :=
  s.facts.shape.isSome ∧ s.map.any MapSlot.provisional = false

/-- What may happen to a symbol while the rest of a probe is typed. -/
structure Grows (s s' : Symbol) : Prop where
  name : s'.name = s.name
  kind : s'.kind = s.kind
  isMap : s'.map.isSome = s.map.isSome
  keySize : ∀ slot ∈ s.map, slot.keySize ≠ 0 → ∀ slot' ∈ s'.map, slot'.keySize = slot.keySize
  shape : ∀ sh, s.facts.shape = some sh → s'.facts.shape = some sh ∨ s.map.isSome ∧ sh = .int
  settled : s.Settled → s'.Settled ∧ s'.facts.shape = s.facts.shape

theorem Grows.refl (s : Symbol) : s.Grows s where
  name := rfl
  kind := rfl
  isMap := rfl
  keySize slot h _ slot' h' := by
    have := Option.some.inj (h.symm.trans h')
    rw [this]
  shape _ h := .inl h
  settled h := ⟨h, rfl⟩

theorem Grows.trans {a b c : Symbol} (hab : a.Grows b) (hbc : b.Grows c) : a.Grows c where
  name := hbc.name.trans hab.name
  kind := hbc.kind.trans hab.kind
  isMap := hbc.isMap.trans hab.isMap
  keySize slot h hne slot'' h'' := by
    have hb : b.map.isSome := by rw [hab.isMap, h]; rfl
    obtain ⟨slot', h'⟩ := Option.isSome_iff_exists.1 hb
    have hk := hab.keySize slot h hne slot' h'
    rw [hbc.keySize slot' h' (by rw [hk]; exact hne) slot'' h'', hk]
  shape sh h := by
    rcases hab.shape sh h with hb | hb
    · rcases hbc.shape sh hb with hc | ⟨hm, hi⟩
      · exact .inl hc
      · exact .inr ⟨by rw [← hab.isMap]; exact hm, hi⟩
    · exact .inr hb
  settled h := by
    obtain ⟨hb, hsb⟩ := hab.settled h
    obtain ⟨hc, hsc⟩ := hbc.settled hb
    exact ⟨hc, hsc.trans hsb⟩

theorem Grows.map_none {s s' : Symbol} (h : s.Grows s') (hs : s.map = none) : s'.map = none := by
  have := h.isMap
  rw [hs] at this
  exact Option.isNone_iff_eq_none.1 (by simpa using this)

theorem Grows.map_some {s s' : Symbol} {slot : MapSlot} (h : s.Grows s') (hs : s.map = some slot)
    (hne : slot.keySize ≠ 0) : ∃ slot', s'.map = some slot' ∧ slot'.keySize = slot.keySize := by
  have hm : s'.map.isSome := by rw [h.isMap, hs]; rfl
  obtain ⟨slot', h'⟩ := Option.isSome_iff_exists.1 hm
  exact ⟨slot', h', h.keySize slot hs hne slot' h'⟩

end Symbol

namespace Table

/-- A name, the index of the symbol that it names and the symbol. -/
structure Names (t : Table) (name : Name) (i : Nat) (s : Symbol) : Prop where
  lookup : t.lookup name = some i
  symbol : t.symbols[i]? = some s

theorem names_of_lookup {t : Table} {name : Name} {i : Nat} (h : t.lookup name = some i) :
    t.Names name i (t.symbols.getD i default) := by
  obtain ⟨hi, -, -⟩ := Array.findIdx?_eq_some_iff_getElem.1 h
  refine ⟨h, ?_⟩
  simp [Array.getD, hi]

theorem Names.unique {t : Table} {name : Name} {i j : Nat} {s s' : Symbol}
    (h : t.Names name i s) (h' : t.Names name j s') : i = j ∧ s = s' := by
  obtain rfl : i = j := Option.some.inj (h.lookup.symm.trans h'.lookup)
  exact ⟨rfl, Option.some.inj (h.symbol.symm.trans h'.symbol)⟩

theorem Names.getD {t : Table} {name : Name} {i : Nat} {s : Symbol} (h : t.Names name i s) :
    t.symbols.getD i default = s := by
  rw [Array.getD_eq_getD_getElem?, h.symbol]
  rfl

theorem Names.find {t : Table} {name : Name} {i : Nat} {s : Symbol} (h : t.Names name i s) :
    t.find? name = some s := by
  have hi : t.symbols.findIdx? (fun s => s.name.same name) = some i := h.lookup
  rw [find?, Array.find?_eq_getElem?_findIdx, Array.findIdx_eq_getD_findIdx?, hi]
  exact h.symbol

structure Grows (t t' : Table) : Prop where
  symbols : ∀ (i : Nat) (s : Symbol), t.symbols[i]? = some s →
    ∃ s' : Symbol, t'.symbols[i]? = some s' ∧ s.Grows s'
  events : t.needsEvents = true → t'.needsEvents = true

theorem Grows.refl (t : Table) : t.Grows t where
  symbols _ s h := ⟨s, h, .refl s⟩
  events h := h

theorem Grows.trans {a b c : Table} (hab : a.Grows b) (hbc : b.Grows c) : a.Grows c where
  symbols i s h := by
    obtain ⟨s', h', hs⟩ := hab.symbols i s h
    obtain ⟨s'', h'', hs'⟩ := hbc.symbols i s' h'
    exact ⟨s'', h'', hs.trans hs'⟩
  events h := hbc.events (hab.events h)

/-- A name goes on naming the same symbol, since all earlier symbols keep their names. -/
theorem Grows.names {t t' : Table} (hg : t.Grows t') {name : Name} {i : Nat} {s : Symbol}
    (h : t.Names name i s) : ∃ s', t'.Names name i s' ∧ s.Grows s' := by
  obtain ⟨s', h', hs⟩ := hg.symbols i s h.symbol
  refine ⟨s', ⟨?_, h'⟩, hs⟩
  obtain ⟨hi, hsame, hbefore⟩ := Array.findIdx?_eq_some_iff_getElem.1 h.lookup
  obtain ⟨hi', hget⟩ := Array.getElem?_eq_some_iff.1 h'
  refine Array.findIdx?_eq_some_iff_getElem.2 ⟨hi', ?_, fun j hj => ?_⟩
  · have hold : t.symbols[i] = s := (Array.getElem?_eq_some_iff.1 h.symbol).2
    rw [hget, hs.name, ← hold]
    exact hsame
  · obtain ⟨sj, hsj, hgj⟩ := hg.symbols j t.symbols[j] (Array.getElem?_eq_getElem _)
    obtain ⟨hj', hgetj⟩ := Array.getElem?_eq_some_iff.1 hsj
    rw [hgetj, hgj.name]
    exact hbefore j hj

end Table

/-- An expression after typing: every node has its shape, and no place yet. -/
inductive Typed (t : Table) : Node → Prop
  | int {tag : Tag} {value : Int64} : tag.facts = .ofShape .int .register →
      Typed t (.int tag value)
  | text {tag : Tag} {value : String} :
      tag.facts = .ofShape ⟨.str, align8 ((Text.utf8 value).length + 1)⟩ .stack →
      Typed t (.text tag value)
  | var {tag : Tag} {name : Name} {i : Nat} {s : Symbol} {sh : Shape} : t.Names name i s →
      s.map = none → s.facts.shape = some sh → tag.facts = .ofShape sh .stack →
      Typed t (.var tag name)
  /-- An entry that was read while the map was assumed to hold integers is an integer. -/
  | mapAccess {tag : Tag} {map : Name} {keys : List Node} {i : Nat} {s : Symbol} {slot : MapSlot}
      {sh : Shape} : t.Names map i s → s.map = some slot → slot.keySize ≠ 0 → keys ≠ [] →
      (∀ k ∈ keys, Typed t k) → slot.keySize = Annotate.packedSize keys →
      sh = .int ∨ s.facts.shape = some sh → tag.facts = .ofShape sh .stack →
      Typed t (.mapAccess tag map keys)
  | binary {tag : Tag} {op : BinaryOp} {lhs rhs : Node} : Typed t lhs → Typed t rhs →
      lhs.facts.shape = some .int → rhs.facts.shape = some .int →
      tag.facts = .ofShape .int .register → Typed t (.binary tag op lhs rhs)
  | query {tag : Tag} {function : Name} {b : Builtin} : Builtin.ofName? function = some b →
      b ∈ [Builtin.pid, .tid, .cpu, .ns] → tag.facts = .ofShape .int .register →
      Typed t (.call tag function [])
  | arg {tag index : Tag} {function : Name} {value : Int64} :
      Builtin.ofName? function = some .arg → 0 ≤ value.toInt → value.toInt < Builtin.maxArgs →
      index.facts = .ofShape .int .register → tag.facts = .ofShape .int .register →
      Typed t (.call tag function [.int index value])
  | comm {tag : Tag} {function : Name} : Builtin.ofName? function = some .comm →
      tag.facts = .ofShape ⟨.str, Builtin.commSize⟩ .stack → Typed t (.call tag function [])
  | strcmp {tag : Tag} {function : Name} {lhs rhs : Node} :
      Builtin.ofName? function = some .strcmp → Typed t lhs → Typed t rhs →
      lhs.facts.type = some .str → rhs.facts.type = some .str →
      tag.facts = .ofShape .int .register → Typed t (.call tag function [lhs, rhs])

/-- What a statement writes to after typing, with the symbol and its shape at that place. -/
inductive TypedTarget (t : Table) (sh : Shape) (s : Symbol) : Node → Prop
  | var {tag : Tag} {name : Name} {i : Nat} : t.Names name i s → s.map = none →
      tag.facts = .ofShape sh .stack → TypedTarget t sh s (.var tag name)
  | mapAccess {tag : Tag} {map : Name} {keys : List Node} {i : Nat} {slot : MapSlot} :
      t.Names map i s → s.map = some slot → slot.keySize ≠ 0 → keys ≠ [] →
      (∀ k ∈ keys, Typed t k) → slot.keySize = Annotate.packedSize keys →
      tag.facts = .ofShape sh .stack → TypedTarget t sh s (.mapAccess tag map keys)

/-- Conversions and members one for one, each member of a type that its conversion can show. -/
def Accepts (cs : List Conversion) (members : List Node) : Prop :=
  List.Forall₂ (fun c n => ∃ type, n.facts.type = some type ∧ c.accepts type = true) cs members

inductive TypedStatement (t : Table) : Node → Prop
  | declaration {tag : Tag} {target value : Node} {s : Symbol} {sh : Shape} :
      TypedTarget t sh s target → s.Settled → s.facts.shape = some sh → Typed t value →
      value.facts.shape = some sh → TypedStatement t (.declaration tag target value)
  | assignment {tag : Tag} {op : ArithOp} {target value : Node} {s : Symbol} :
      TypedTarget t .int s target → (s.map = none → s.facts.shape = some .int) → Typed t value →
      value.facts.shape = some .int → TypedStatement t (.assignment tag op target value)
  | cond {tag : Tag} {condition : Node} {yes no : List Node} : Typed t condition →
      condition.facts.shape = some .int → (∀ n ∈ yes, TypedStatement t n) →
      (∀ n ∈ no, TypedStatement t n) → TypedStatement t (.cond tag condition yes no)
  | unroll {tag : Tag} {count : Nat} {body : List Node} : (∀ n ∈ body, TypedStatement t n) →
      TypedStatement t (.unroll tag count body)
  | call {tag : Tag} {function : Name} {args : List Node} : Typed t (.call tag function args) →
      TypedStatement t (.call tag function args)
  | out {tag formatTag recordTag : Tag} {function : Name} {format : String} {members : List Node}
      {cs : List Conversion} : Builtin.ofName? function = some .out → tag.facts = {} →
      formatTag.facts = {} → conversions format = .ok cs → Accepts cs members →
      (∀ m ∈ members, Typed t m) →
      recordTag.facts = .ofShape ⟨.record, max (Annotate.packedSize members) 8⟩ .stack →
      t.needsEvents = true →
      TypedStatement t (.call tag function [.text formatTag format, .record recordTag members])

/-- Every symbol has the shape of a value. -/
def Table.Shaped (t : Table) : Prop :=
  ∀ (i : Nat) (s : Symbol), t.symbols[i]? = some s → ∃ sh, s.facts.shape = some sh ∧ sh.IsValue

theorem Typed.shape {t : Table} (ht : t.Shaped) {n : Node} (h : Typed t n) :
    ∃ sh, n.facts.shape = some sh ∧ sh.IsValue := by
  cases h with
  | int hf => exact ⟨.int, by simp [Node.facts, Node.tag, hf], .inl rfl⟩
  | text hf =>
    refine ⟨_, by simp [Node.facts, Node.tag, hf]; rfl, .inr ⟨rfl, ?_, align8_mod _⟩⟩
    exact Nat.lt_of_lt_of_le (Nat.succ_pos _) (le_align8 _)
  | var hn hm hs hf =>
    obtain ⟨sh, hsh, hv⟩ := ht _ _ hn.symbol
    obtain rfl := Option.some.inj (hsh.symm.trans hs)
    exact ⟨_, by simp [Node.facts, Node.tag, hf], hv⟩
  | mapAccess hn hm hk hne hkeys hsize hsh hf =>
    refine ⟨_, by simp [Node.facts, Node.tag, hf]; rfl, ?_⟩
    rcases hsh with rfl | hs
    · exact .inl rfl
    · obtain ⟨sh, hsh, hv⟩ := ht _ _ hn.symbol
      obtain rfl := Option.some.inj (hsh.symm.trans hs)
      exact hv
  | binary _ _ _ _ hf => exact ⟨.int, by simp [Node.facts, Node.tag, hf], .inl rfl⟩
  | query _ _ hf => exact ⟨.int, by simp [Node.facts, Node.tag, hf], .inl rfl⟩
  | arg _ _ _ _ hf => exact ⟨.int, by simp [Node.facts, Node.tag, hf], .inl rfl⟩
  | comm _ hf =>
    exact ⟨_, by simp [Node.facts, Node.tag, hf]; rfl, .inr ⟨rfl, by decide, by decide⟩⟩
  | strcmp _ _ _ _ _ hf => exact ⟨.int, by simp [Node.facts, Node.tag, hf], .inl rfl⟩

theorem packedSize_mod (ns : List Node) : Annotate.packedSize ns % 8 = 0 := by
  induction ns with
  | nil => rfl
  | cons n ns ih =>
    have := align8_mod n.facts.size
    simp only [Annotate.packedSize, List.map_cons, List.foldr_cons, Node.packedSize] at ih ⊢
    omega

theorem packedSize_of_typed {t : Table} (ht : t.Shaped) {ns : List Node} (hne : ns ≠ [])
    (h : ∀ n ∈ ns, Typed t n) :
    0 < Annotate.packedSize ns ∧ Annotate.packedSize ns % 8 = 0 := by
  refine ⟨?_, packedSize_mod ns⟩
  obtain ⟨n, ns, rfl⟩ := List.exists_cons_of_ne_nil hne
  obtain ⟨sh, hsh, hv⟩ := (h n List.mem_cons_self).shape ht
  have h1 := hv.size_pos
  have h2 := le_align8 n.facts.size
  rw [Facts.size_of_shape hsh] at h2
  simp only [Annotate.packedSize, List.map_cons, List.foldr_cons, Node.packedSize,
    Facts.size_of_shape hsh]
  omega

theorem Typed.mono {t t' : Table} (hg : t.Grows t') {n : Node} (h : Typed t n) : Typed t' n := by
  induction h with
  | int hf => exact .int hf
  | text hf => exact .text hf
  | var hn hm hs hf =>
    obtain ⟨s', hn', hgs⟩ := hg.names hn
    rcases hgs.shape _ hs with hs' | ⟨hm', -⟩
    · exact .var hn' (hgs.map_none hm) hs' hf
    · rw [hm] at hm'
      cases hm'
  | mapAccess hn hm hk hne _ hsize hsh hf ih =>
    obtain ⟨s', hn', hgs⟩ := hg.names hn
    obtain ⟨slot', hm', hk'⟩ := hgs.map_some hm hk
    refine .mapAccess hn' hm' (by rw [hk']; exact hk) hne ih (hk'.trans hsize) ?_ hf
    rcases hsh with hi | hs
    · exact .inl hi
    · exact (hgs.shape _ hs).symm.imp And.right id
  | binary _ _ hl hr hf ihl ihr => exact .binary ihl ihr hl hr hf
  | query hb hmem hf => exact .query hb hmem hf
  | arg hb h0 h6 hi hf => exact .arg hb h0 h6 hi hf
  | comm hb hf => exact .comm hb hf
  | strcmp hb _ _ hl hr hf ihl ihr => exact .strcmp hb ihl ihr hl hr hf

theorem TypedTarget.mono {t t' : Table} (hg : t.Grows t') {sh : Shape} {s : Symbol} {n : Node}
    (h : TypedTarget t sh s n) : ∃ s', TypedTarget t' sh s' n ∧ s.Grows s' := by
  cases h with
  | var hn hm hf =>
    obtain ⟨s', hn', hgs⟩ := hg.names hn
    exact ⟨s', .var hn' (hgs.map_none hm) hf, hgs⟩
  | mapAccess hn hm hk hne hkeys hsize hf =>
    obtain ⟨s', hn', hgs⟩ := hg.names hn
    obtain ⟨slot', hm', hk'⟩ := hgs.map_some hm hk
    exact ⟨s', .mapAccess hn' hm' (by rw [hk']; exact hk) hne (fun k hk => (hkeys k hk).mono hg)
      (hk'.trans hsize) hf, hgs⟩

theorem TypedStatement.mono {t t' : Table} (hg : t.Grows t') {n : Node}
    (h : TypedStatement t n) : TypedStatement t' n := by
  induction h with
  | declaration ht hset hs hv hsv =>
    obtain ⟨s', ht', hgs⟩ := ht.mono hg
    obtain ⟨hset', hshape⟩ := hgs.settled hset
    exact .declaration ht' hset' (hshape.trans hs) (hv.mono hg) hsv
  | assignment ht hs hv hsv =>
    obtain ⟨s', ht', hgs⟩ := ht.mono hg
    refine .assignment ht' (fun hm => ?_) (hv.mono hg) hsv
    have hm₀ : s'.map.isSome = false := by rw [hm]; rfl
    rw [hgs.isMap] at hm₀
    have hnone := Option.isNone_iff_eq_none.1 (by simpa using hm₀)
    rcases hgs.shape _ (hs hnone) with h | ⟨h, -⟩
    · exact h
    · rw [hnone] at h
      cases h
  | cond hc hs _ _ ihy ihn => exact .cond (hc.mono hg) hs ihy ihn
  | unroll _ ih => exact .unroll ih
  | call hc => exact .call (hc.mono hg)
  | out hb hf hff hcs hacc hm hr he =>
    exact .out hb hf hff hcs hacc (fun m hmem => (hm m hmem).mono hg) hr (hg.events he)

end TraceScript
