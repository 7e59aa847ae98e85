import Mathlib.Data.List.Forall2
import TraceScript.Proofs.Relabeled
import TraceScript.Script.Layout

namespace TraceScript

variable (r : Relabeling)

namespace Layout

/-- Over a relabeled table the second step does what the first does, relabeled. -/
structure Commutes {α β : Type} (h : α → β) (m : Layout α) (m' : Layout β) : Prop where
  run : ∀ t : Table, m' (t.relabel r) = (h (m t).1, (m t).2.relabel r)

namespace Commutes

variable {r} {α β γ δ : Type} {h : α → β} {h' : γ → δ}

protected theorem pure (a : α) : Commutes r h (pure a) (pure (h a)) := ⟨fun _ => rfl⟩

theorem done {a : α} {b : β} (hb : b = h a) : Commutes r h (pure a) (pure b) := hb ▸ .pure a

protected theorem bind {m : Layout α} {m' : Layout β} {f : α → Layout γ} {f' : β → Layout δ}
    (hm : Commutes r h m m') (hf : ∀ a, Commutes r h' (f a) (f' (h a))) :
    Commutes r h' (m >>= f) (m' >>= f') := by
  refine ⟨fun t => ?_⟩
  change f' (m' (t.relabel r)).1 (m' (t.relabel r)).2 = _
  rw [hm.run]
  exact (hf (m t).1).run (m t).2

theorem get : Commutes r (Table.relabel r) get get := ⟨fun _ => rfl⟩

theorem modifyGet {g : Table → α × Table} {g' : Table → β × Table}
    (hg : ∀ t, g' (t.relabel r) = (h (g t).1, (g t).2.relabel r)) :
    Commutes r h (modifyGet g) (modifyGet g') := ⟨hg⟩

theorem modify {g g' : Table → Table} (hg : ∀ t, g' (t.relabel r) = (g t).relabel r) :
    Commutes r id (modify g) (modify g') := ⟨fun t => congrArg (Prod.mk ()) (hg t)⟩

end Commutes

end Layout

theorem Tag.isInt_relabel (t : Tag) : (t.relabel r).facts.isInt = t.facts.isInt := rfl

theorem Table.reserve_relabel (t : Table) (size : Nat) :
    (t.relabel r).reserve size = ((t.reserve size).1, (t.reserve size).2.relabel r) := rfl

namespace Placement

/-- The two placements of a node give the same place, whatever its labels are. -/
structure Relabels (p p' : Placement) : Prop where
  alone : Layout.Commutes r (Node.relabel r) p.alone p'.alone
  into : ∀ addr, Layout.Commutes r (Node.relabel r) (p.into addr) (p'.into addr)

/-- A node with its placement, and the same with other labels. -/
structure Pairs (x x' : Node × Placement) : Prop where
  node : x'.1 = x.1.relabel r
  placement : x.2.Relabels r x'.2

variable {r}

theorem relabels_fixed {m m' : Layout Node} (h : Layout.Commutes r (Node.relabel r) m m') :
    (fixed m).Relabels r (fixed m') :=
  ⟨h, fun _ => h⟩

theorem commutes_reserve (size : Nat) : Layout.Commutes r id (reserve size) (reserve size) :=
  .modifyGet fun t => t.reserve_relabel r size

theorem relabels_built {n : Node} {into into' : Int → Layout Node}
    (h : ∀ addr, Layout.Commutes r (Node.relabel r) (into addr) (into' addr)) :
    (built n into).Relabels r (built (n.relabel r) into') := by
  refine ⟨?_, h⟩
  unfold built
  dsimp only
  rw [n.facts_relabel]
  split
  · exact .pure _
  · exact .bind (commutes_reserve _) fun addr => h addr

theorem commutes_orReserve (addr : Option Int) (size : Nat) :
    Layout.Commutes r id (orReserve addr size) (orReserve addr size) := by
  cases addr with
  | some addr => exact .pure _
  | none => exact commutes_reserve size

theorem commutes_variableAddr (name : Name) :
    Layout.Commutes r id (variableAddr name) (variableAddr (r.name name)) := by
  refine .bind .get fun t => ?_
  rw [t.lookup_relabel]
  split
  · exact .pure _
  · rename_i i _
    dsimp only
    rw [t.getD_relabel]
    dsimp only [Symbol.relabel]
    split
    · exact .pure _
    · exact .bind (commutes_reserve _) fun addr =>
        .bind (.modify fun t => t.modify_relabel r i fun _ => rfl) fun _ => .pure _

theorem commutes_mapRegions (i : Nat) :
    Layout.Commutes r id (mapRegions i) (mapRegions i) := by
  refine .bind .get fun t => ?_
  dsimp only
  rw [t.getD_relabel]
  generalize t.symbols.getD i default = s
  dsimp only [Symbol.relabel]
  cases s.map with
  | none => exact .pure _
  | some slot =>
    refine .bind (commutes_orReserve _ _) fun key => .bind (commutes_orReserve _ _) fun value => ?_
    exact .bind (.modify fun t => t.modify_relabel r i fun _ => rfl) fun _ => .pure _

section

variable {l l' : List (Node × Placement)}

theorem map_fst (h : List.Forall₂ (Pairs r) l l') :
    l'.map Prod.fst = (l.map Prod.fst).map (Node.relabel r) := by
  induction h with
  | nil => rfl
  | cons hx _ ih => rw [List.map_cons, ih, hx.node]; rfl

theorem commutes_packInto (h : List.Forall₂ (Pairs r) l l') (addr : Int) :
    Layout.Commutes r (List.map (Node.relabel r)) (packInto addr l) (packInto addr l') := by
  induction h generalizing addr with
  | nil => exact .pure _
  | @cons x x' l l' hx _ ih =>
    rw [packInto, packInto, hx.node, Node.facts_relabel]
    exact .bind (hx.placement.into addr) fun _ => .bind (ih _) fun _ => .pure _

theorem commutes_allAlone (h : List.Forall₂ (Pairs r) l l') :
    Layout.Commutes r (List.map (Node.relabel r)) (allAlone l) (allAlone l') := by
  induction h with
  | nil => exact .pure _
  | @cons x x' l l' hx _ ih =>
    rw [allAlone, allAlone]
    exact .bind hx.placement.alone fun _ => .bind ih fun _ => .pure _

theorem commutes_mapAccess (h : List.Forall₂ (Pairs r) l l') (tag : Tag) (map : Name) (write : Bool) :
    Layout.Commutes r (Node.relabel r) (Placement.mapAccess tag map l write)
      (Placement.mapAccess (tag.relabel r) (r.name map) l' write) := by
  have hunplaced : Node.mapAccess (tag.relabel r) (r.name map) (l'.map Prod.fst) =
      (Node.mapAccess tag map (l.map Prod.fst)).relabel r := by
    rw [Node.relabel_mapAccess, map_fst h]
  refine .bind .get fun t => ?_
  rw [t.lookup_relabel]
  split
  · exact .done hunplaced
  · rename_i i _
    refine .bind (commutes_mapRegions i) fun regions => ?_
    dsimp only [id]
    split
    · exact .done hunplaced
    · -- The descriptor comes from the table as it is after the keys were placed.
      refine .bind (commutes_packInto h _) fun keys => .bind .get fun t => ?_
      have hid : ((t.relabel r).symbols.getD i default).map.bind MapSlot.id =
          ((t.symbols.getD i default).map.bind MapSlot.id).map r.map := by
        rw [t.getD_relabel]
        generalize t.symbols.getD i default = s
        unfold Symbol.relabel
        cases s.map <;> rfl
      rw [hid, tag.isInt_relabel]
      have hplaced : ∀ addr : Int, Layout.Commutes r (Node.relabel r)
          (pure (Node.mapAccess { tag with facts := { tag.facts with
            storage := .stack
            addr := some addr
            map := (t.symbols.getD i default).map.bind MapSlot.id } } map keys) : Layout Node)
          (pure (Node.mapAccess { tag.relabel r with facts := { (tag.relabel r).facts with
            storage := .stack
            addr := some addr
            map := ((t.symbols.getD i default).map.bind MapSlot.id).map r.map } } (r.name map)
              (keys.map (Node.relabel r))) : Layout Node) := fun addr => by
        refine .done ?_
        rw [Node.relabel_mapAccess]
        rfl
      split
      · exact .bind (.pure _) hplaced
      · exact .bind (commutes_orReserve _ _) hplaced

theorem commutes_output (h : List.Forall₂ (Pairs r) l l') (tag : Tag) (function : Name) :
    Layout.Commutes r (Node.relabel r) (output tag function l)
      (output (tag.relabel r) (r.name function) l') := by
  have hunplaced : Node.call (tag.relabel r) (r.name function) (l'.map Prod.fst) =
      (Node.call tag function (l.map Prod.fst)).relabel r := by
    rw [Node.relabel_call, map_fst h]
  cases h with
  | nil => exact .done hunplaced
  | cons hformat hrest =>
    cases hrest with
    | nil => exact .done hunplaced
    | @cons x x' rest rest' hrecord hrest =>
      rw [output, output, hrecord.node, Node.facts_relabel]
      refine .bind (commutes_orReserve _ _) fun addr => .bind (hrecord.placement.into addr) fun record => ?_
      refine .done ?_
      rw [Node.relabel_call, List.map_cons, List.map_cons, map_fst hrest, hformat.node]

end

end Placement

namespace Node

open Placement

variable {r}

mutual

theorem relabels_placement : ∀ n : Node, (placement n).Relabels r (placement (n.relabel r))
  | .int tag value => relabels_fixed (.done rfl)
  | .text tag value => relabels_built (n := .text tag value) fun addr => .done rfl
  | .var tag name => relabels_fixed (.bind (commutes_variableAddr name) fun addr => .done rfl)
  | .mapAccess tag map keys => by
    rw [relabel_mapAccess, placement, placement]
    exact relabels_fixed (commutes_mapAccess (pairs_placements keys) tag map false)
  | .binary tag op lhs rhs => by
    rw [relabel, placement, placement]
    exact relabels_fixed (.bind (relabels_placement lhs).alone fun _ =>
      .bind (relabels_placement rhs).alone fun _ => .done rfl)
  | .call tag function args => by
    rw [relabel_call, placement, placement, r.ofName?_name]
    have hargs := pairs_placements args
    split
    · rw [← relabel_call]
      exact relabels_built fun addr => .done (relabel_call r (stacked tag addr) function args).symm
    · exact relabels_fixed (commutes_output hargs tag function)
    · refine relabels_fixed (.bind (commutes_allAlone hargs) fun args => .done ?_)
      rw [relabel_call, tag.isInt_relabel]
      split <;> rfl
  | .record tag members => by
    rw [relabel_record, placement, placement, ← relabel_record]
    exact relabels_built fun addr => .bind (commutes_packInto (pairs_placements members) addr)
      fun members => .done (relabel_record r (stacked tag addr) members).symm
  | .declaration .. => relabels_fixed (.done rfl)
  | .assignment .. => relabels_fixed (.done rfl)
  | .cond .. => relabels_fixed (.done rfl)
  | .unroll .. => relabels_fixed (.done rfl)

theorem pairs_placements : ∀ ns : List Node,
    List.Forall₂ (Pairs r) (placements ns) (placements (ns.map (relabel r)))
  | [] => .nil
  | n :: ns => .cons ⟨rfl, relabels_placement n⟩ (pairs_placements ns)

end

theorem commutes_placeTarget (n : Node) :
    Layout.Commutes r (Prod.map (relabel r) id) n.placeTarget (n.relabel r).placeTarget := by
  cases n with
  | var tag name =>
    refine .bind (commutes_variableAddr name) fun addr => ?_
    cases addr <;> exact .done rfl
  | mapAccess tag map keys =>
    rw [relabel_mapAccess]
    refine .bind (commutes_mapAccess (pairs_placements keys) tag map true) fun target => .done ?_
    rw [facts_relabel]
    rfl
  | _ => exact .done rfl

theorem commutes_placeValue (n : Node) (addr : Option Int) :
    Layout.Commutes r (relabel r) (n.placeValue addr) ((n.relabel r).placeValue addr) := by
  have h := relabels_placement (r := r) n
  cases addr with
  | none => exact h.alone
  | some addr =>
    have hint : (n.relabel r).facts.isInt = n.facts.isInt := by
      rw [facts_relabel]
      rfl
    unfold placeValue
    dsimp only
    rw [hint]
    cases n.facts.isInt with
    | true => exact h.alone
    | false => exact h.into addr

mutual

theorem commutes_placeStatement : ∀ n : Node,
    Layout.Commutes r (relabel r) (placeStatement n) (placeStatement (n.relabel r))
  | .declaration tag target value =>
    .bind (commutes_placeTarget target) fun x => .bind (commutes_placeValue value x.2) fun _ => .done rfl
  | .assignment tag op target value =>
    .bind (commutes_placeTarget target) fun x => .bind (commutes_placeValue value x.2) fun _ => .done rfl
  | .cond tag condition yes no => by
    rw [relabel_cond, placeStatement, placeStatement]
    exact .bind (relabels_placement condition).alone fun _ => .bind (commutes_placeStatements yes) fun _ =>
      .bind (commutes_placeStatements no) fun _ => .done (relabel_cond ..).symm
  | .unroll tag count body => by
    rw [relabel_unroll, placeStatement, placeStatement]
    exact .bind (commutes_placeStatements body) fun _ => .done (relabel_unroll ..).symm
  | .var tag name => (relabels_placement (.var tag name)).alone
  | .mapAccess tag map keys => (relabels_placement (.mapAccess tag map keys)).alone
  | .int tag value => (relabels_placement (.int tag value)).alone
  | .text tag value => (relabels_placement (.text tag value)).alone
  | .call tag function args => (relabels_placement (.call tag function args)).alone
  | .binary tag op lhs rhs => (relabels_placement (.binary tag op lhs rhs)).alone
  | .record tag members => (relabels_placement (.record tag members)).alone

theorem commutes_placeStatements : ∀ ns : List Node,
    Layout.Commutes r (List.map (relabel r)) (placeStatements ns)
      (placeStatements (ns.map (relabel r)))
  | [] => .done rfl
  | n :: ns => by
    rw [List.map_cons, placeStatements, placeStatements]
    exact .bind (commutes_placeStatement n) fun _ => .bind (commutes_placeStatements ns) fun _ => .done rfl

end

end Node

theorem Probe.place_relabel {p p' : Probe} {t t' : Table} (h : p.place.run t = (p', t')) :
    (p.relabel r).place.run (t.relabel r) = (p'.relabel r, t'.relabel r) := by
  have hcommutes : Layout.Commutes r (Probe.relabel r) p.place (p.relabel r).place :=
    .bind (Node.commutes_placeStatements p.body) fun _ => .done rfl
  have hrun := hcommutes.run t
  have hplace : p.place t = (p', t') := h
  rw [hplace] at hrun
  exact hrun

end TraceScript
