import Mathlib.Data.List.Pairwise
import TraceScript.Proofs.FlowRun
import TraceScript.Proofs.Meaning
import TraceScript.Proofs.Placed

/-!
Frames in which the symbols of a table and some nodes have disjoint regions. The contents of the
variables can be read off such a frame, and whatever happens in the regions of maps and nodes leaves
them as they are.
-/
namespace TraceScript

open TraceScript.Flow (MapRef)

namespace Symbol

/-- What a frame holds for a variable that has its place. -/
def contents (s : Symbol) (m : Memory) : List UInt8 :=
  match s.map, s.addr with
  | none, some addr => m.read addr s.facts.size
  | _, _ => []

end Symbol

namespace Table

/-- The contents of every variable in a frame. -/
def contents (t : Table) (m : Memory) : Variables := fun i =>
  (t.symbols[i]?.map (·.contents m)).getD []

def mapRegions (t : Table) : List Region :=
  t.symbols.toList.flatMap fun s => if s.map.isSome then s.regions else []

theorem mapRegions_subset (t : Table) : t.mapRegions ⊆ t.regions := by
  intro r hr
  obtain ⟨s, hs, hr⟩ := List.mem_flatMap.1 hr
  split at hr
  · exact List.mem_flatMap.2 ⟨s, hs, hr⟩
  · cases hr

/-- A part of a region of some map. -/
def InMap (t : Table) (r : Region) : Prop := ∃ q ∈ t.mapRegions, r.Inside q

theorem inMap_of_mem {t : Table} {r : Region} (h : r ∈ t.mapRegions) : t.InMap r := ⟨r, h, .refl r⟩

theorem InMap.inside {t : Table} {r : Region} (h : t.InMap r) (rs : List Region) :
    ∃ q ∈ t.regions ++ rs, r.Inside q := by
  obtain ⟨q, hq, hin⟩ := h
  exact ⟨q, List.mem_append_left _ (t.mapRegions_subset hq), hin⟩

theorem regions_of_variable {s : Symbol} {addr : Int} (hm : s.map = none)
    (ha : s.addr = some addr) : s.regions = [⟨addr, s.facts.size⟩] := by
  rw [Symbol.regions, hm, ha]
  rfl

namespace MapAt

variable {t : Table} {name : Name} {s : Symbol} {m : MapRef}

theorem regions (h : t.MapAt name s m) :
    s.regions = [⟨m.key, m.keySize⟩, ⟨m.value, m.valueSize⟩] := by
  obtain ⟨slot, hs, -, hk, hv, hsize⟩ := h.slot
  rw [Symbol.regions, hs]
  dsimp only
  rw [hk, hv, hsize, h.valueSize]
  rfl

theorem mem (h : t.MapAt name s m) : s ∈ t.symbols.toList := by
  obtain ⟨i, hn⟩ := h.names
  exact Array.mem_toList_iff.2 (Array.mem_of_getElem? hn.symbol)

theorem regions_subset (h : t.MapAt name s m) : s.regions ⊆ t.mapRegions := by
  intro r hr
  obtain ⟨slot, hs, -⟩ := h.slot
  exact List.mem_flatMap.2 ⟨s, h.mem, by rw [hs]; exact hr⟩

theorem key_mem (h : t.MapAt name s m) : ⟨m.key, m.keySize⟩ ∈ t.mapRegions :=
  h.regions_subset (by rw [h.regions]; exact List.mem_cons_self)

theorem value_mem (h : t.MapAt name s m) : ⟨m.value, m.valueSize⟩ ∈ t.mapRegions :=
  h.regions_subset (by rw [h.regions]; exact List.mem_cons_of_mem _ List.mem_cons_self)

end MapAt

theorem VariableAt.mem {t : Table} {name : Name} {i : Nat} {sh : Shape} {addr : Int}
    (h : t.VariableAt name i sh addr) : ⟨addr, sh.size⟩ ∈ t.regions := by
  obtain ⟨s, hn, hm, hsh, ha⟩ := h
  refine List.mem_flatMap.2 ⟨s, Array.mem_toList_iff.2 (Array.mem_of_getElem? hn.symbol), ?_⟩
  rw [regions_of_variable hm ha, Facts.size_of_shape hsh]
  exact List.mem_cons_self

theorem VariableAt.contents {t : Table} {name : Name} {i : Nat} {sh : Shape} {addr : Int}
    (h : t.VariableAt name i sh addr) (m : Memory) : t.contents m i = m.read addr sh.size := by
  obtain ⟨s, hn, hm, hsh, ha⟩ := h
  rw [Table.contents, hn.symbol, Option.map_some, Option.getD_some, Symbol.contents, hm, ha,
    Facts.size_of_shape hsh]

/-- A region that keeps its contents while maps are read: that of a variable, or a node's own. -/
def Standing (t : Table) (rs : List Region) (r : Region) : Prop :=
  r ∈ rs ∨ ∃ name i sh, t.VariableAt name i sh r.addr ∧ r.size = sh.size

theorem Standing.mem {t : Table} {rs : List Region} {r : Region} (h : t.Standing rs r) :
    r ∈ t.regions ++ rs := by
  rcases h with h | ⟨name, i, sh, hv, hsize⟩
  · exact List.mem_append_right _ h
  · have hmem := hv.mem
    rw [← hsize] at hmem
    exact List.mem_append_left _ hmem

end Table

/-- The regions of a table and of some nodes are disjoint, the maps were created with the sizes that
the table gives them, and the channel was created. -/
structure Framed (w : World) (t : Table) (rs : List Region) : Prop where
  disjoint : (t.regions ++ rs).Pairwise Region.Disjoint
  small : ∀ r ∈ t.regions ++ rs, r.size < 2 ^ 31
  created : ∀ name s m, t.MapAt name s m →
    w.keySize m.id = m.keySize ∧ w.valueSize m.id = m.valueSize
  known : ∀ name s m, t.MapAt name s m → (w.created m.id).isSome
  channel : ∀ id, t.events.id? = some id → (w.created id).isSome

namespace Framed

variable {w : World} {t : Table} {rs qs : List Region}

theorem sublist (h : Framed w t rs) (hs : qs.Sublist rs) : Framed w t qs where
  disjoint := h.disjoint.sublist ((List.Sublist.refl _).append hs)
  small r hr := h.small r (((List.Sublist.refl _).append hs).subset hr)
  created := h.created
  known := h.known
  channel := h.channel

theorem left (h : Framed w t (rs ++ qs)) : Framed w t rs := h.sublist (List.sublist_append_left ..)

theorem right (h : Framed w t (rs ++ qs)) : Framed w t qs := h.sublist (List.sublist_append_right ..)

theorem of_mem {ks : List Placing} {k : Placing} (h : Framed w t (ks.flatMap Placing.regions))
    (hk : k ∈ ks) : Framed w t k.regions :=
  h.sublist (List.sublist_flatten_of_mem (List.mem_map_of_mem hk))

theorem perm (h : Framed w t rs) (hp : rs.Perm qs) : Framed w t qs where
  disjoint := h.disjoint.perm (hp.append_left _) fun hd => hd.symm
  small r hr := h.small r ((hp.append_left _).mem_iff.2 hr)
  created := h.created
  known := h.known
  channel := h.channel

theorem apart (h : Framed w t (rs ++ qs)) {r q : Region} (hr : r ∈ rs) (hq : q ∈ qs) :
    r.Disjoint q :=
  (List.pairwise_append.1 (List.pairwise_append.1 h.disjoint).2.1).2.2 r hr q hq

theorem table_apart (h : Framed w t rs) {r q : Region} (hr : r ∈ t.regions) (hq : q ∈ rs) :
    r.Disjoint q :=
  (List.pairwise_append.1 h.disjoint).2.2 r hr q hq

theorem key_value (h : Framed w t rs) {name : Name} {s : Symbol} {m : MapRef}
    (hm : t.MapAt name s m) : (Region.mk m.key m.keySize).Disjoint ⟨m.value, m.valueSize⟩ := by
  have hpair := (List.pairwise_flatMap.1 (List.pairwise_append.1 h.disjoint).1).1 s hm.mem
  rw [hm.regions] at hpair
  exact List.rel_of_pairwise_cons hpair List.mem_cons_self

theorem symbols_apart (h : Framed w t rs) {i j : Nat} {s s' : Symbol}
    (hs : t.symbols[i]? = some s) (hs' : t.symbols[j]? = some s') (hij : i ≠ j) {r q : Region}
    (hr : r ∈ s.regions) (hq : q ∈ s'.regions) : r.Disjoint q := by
  have hpair := (List.pairwise_flatMap.1 (List.pairwise_append.1 h.disjoint).1).2
  rw [List.pairwise_iff_getElem] at hpair
  obtain ⟨hi, rfl⟩ := Array.getElem?_eq_some_iff.1 hs
  obtain ⟨hj, rfl⟩ := Array.getElem?_eq_some_iff.1 hs'
  rcases Nat.lt_or_gt_of_ne hij with hlt | hlt
  · exact hpair i j (by simpa using hi) (by simpa using hj) hlt r (by simpa using hr) q
      (by simpa using hq)
  · exact (hpair j i (by simpa using hj) (by simpa using hi) hlt q (by simpa using hq) r
      (by simpa using hr)).symm

theorem variable_apart_map (h : Framed w t rs) {i : Nat} {s : Symbol}
    (hs : t.symbols[i]? = some s) (hm : s.map = none) {r q : Region} (hr : r ∈ s.regions)
    (hq : q ∈ t.mapRegions) : r.Disjoint q := by
  obtain ⟨s', hs', hq⟩ := List.mem_flatMap.1 hq
  obtain ⟨j, hj⟩ := Array.mem_iff_getElem?.1 (Array.mem_toList_iff.1 hs')
  split at hq
  · rename_i hmap
    refine h.symbols_apart hs hj ?_ hr hq
    rintro rfl
    obtain rfl := Option.some.inj (hs.symm.trans hj)
    rw [hm] at hmap
    cases hmap
  · cases hq

theorem variable_apart (h : Framed w t rs) {i : Nat} {s : Symbol} (hs : t.symbols[i]? = some s)
    (hm : s.map = none) {r q : Region} (hr : r ∈ s.regions) (hq : q ∈ t.mapRegions ++ rs) :
    r.Disjoint q := by
  rcases List.mem_append.1 hq with hq | hq
  · exact h.variable_apart_map hs hm hr hq
  · refine h.table_apart ?_ hq
    exact List.mem_flatMap.2 ⟨s, Array.mem_toList_iff.2 (Array.mem_of_getElem? hs), hr⟩

/-- What stands in a frame is apart from the maps and from the regions of other nodes. -/
theorem standing_apart (h : Framed w t (rs ++ qs)) {r q : Region} (hr : t.Standing rs r)
    (hq : q ∈ t.mapRegions ++ qs) : r.Disjoint q := by
  rcases hr with hr | ⟨name, i, sh, hv, hsize⟩
  · rcases List.mem_append.1 hq with hq | hq
    · exact (h.left.table_apart (t.mapRegions_subset hq) hr).symm
    · exact h.apart hr hq
  · have hmem := hv.mem
    rw [← hsize] at hmem
    rcases List.mem_append.1 hq with hq | hq
    · obtain ⟨s, hn, hm, hsh, ha⟩ := hv
      refine h.variable_apart_map hn.symbol hm ?_ hq
      rw [Table.regions_of_variable hm ha, Facts.size_of_shape hsh, ← hsize]
      exact List.mem_cons_self
    · exact h.right.table_apart hmem hq

theorem standing_apart_inMap (h : Framed w t rs) {r q : Region} (hr : t.Standing rs r)
    (hq : t.InMap q) : q.Disjoint r := by
  obtain ⟨p, hp, hin⟩ := hq
  rw [← List.append_nil rs] at h
  exact hin.disjoint (h.standing_apart hr (List.mem_append_left _ hp)).symm

theorem inMap_small (h : Framed w t rs) {r : Region} (hr : t.InMap r) : r.size < 2 ^ 31 := by
  obtain ⟨q, hq, k, -, hle⟩ := hr
  have := h.small q (List.mem_append_left _ (t.mapRegions_subset hq))
  omega

theorem contents_eq (h : Framed w t rs) {m m' : Memory}
    (hc : Memory.ChangedIn (t.mapRegions ++ rs) m m') : t.contents m' = t.contents m := by
  funext i
  unfold Table.contents
  cases hs : t.symbols[i]? with
  | none => rfl
  | some s =>
    change s.contents m' = s.contents m
    unfold Symbol.contents
    split
    · rename_i addr hm ha
      refine hc.read fun r hr => h.variable_apart hs hm ?_ hr
      rw [Table.regions_of_variable hm ha]
      exact List.mem_cons_self
    · rfl

theorem contents_update (h : Framed w t rs) {name : Name} {i : Nat} {sh : Shape} {addr : Int}
    (hv : t.VariableAt name i sh addr) {m m' : Memory}
    (hc : Memory.ChangedIn (t.mapRegions ++ rs ++ [⟨addr, sh.size⟩]) m m') :
    t.contents m' = Function.update (t.contents m) i (m'.read addr sh.size) := by
  funext j
  by_cases hij : j = i
  · subst hij
    rw [hv.contents, Function.update_self]
  · rw [Function.update_of_ne hij]
    obtain ⟨s, hn, hm, hsh, ha⟩ := hv
    unfold Table.contents
    cases hs' : t.symbols[j]? with
    | none => rfl
    | some s' =>
      change s'.contents _ = s'.contents _
      unfold Symbol.contents
      split
      · rename_i addr' hm' ha'
        have hreg : ⟨addr', s'.facts.size⟩ ∈ s'.regions := by
          rw [Table.regions_of_variable hm' ha']
          exact List.mem_cons_self
        apply hc.read
        intro r hr
        rcases List.mem_append.1 hr with hr | hr
        · exact h.variable_apart hs' hm' hreg hr
        · obtain rfl := List.mem_singleton.1 hr
          refine h.symbols_apart hs' hn.symbol hij hreg ?_
          rw [Table.regions_of_variable hm ha, Facts.size_of_shape hsh]
          exact List.mem_cons_self
      · rfl

theorem eq_or_apart (h : Framed w t rs) {r q : Region} (hr : r ∈ t.regions ++ rs)
    (hq : q ∈ t.regions ++ rs) : r = q ∨ r.Disjoint q := by
  by_cases hrq : r = q
  · exact .inl hrq
  · exact .inr (h.disjoint.forall hr hq hrq)

end Framed

end TraceScript
