import TraceScript.Proofs.Assembled

namespace TraceScript.Flow

/-- The region of a home in the frame. -/
def Home.slots : Option Home → List Region
  | some (.spill addr) => [⟨addr, 8⟩]
  | _ => []

/-- The regions of the temporaries that live in the frame. -/
def spillSlots (homes : Array (Option Home)) : List Region := homes.toList.flatMap Home.slots

theorem size_of_spillSlots {homes : Array (Option Home)} {r : Region} (h : r ∈ spillSlots homes) :
    r.size = 8 := by
  obtain ⟨home, -, hr⟩ := List.mem_flatMap.1 h
  unfold Home.slots at hr
  split at hr
  · rw [List.mem_singleton.1 hr]
  · cases hr

theorem spillSlots_replicate (n : Nat) : spillSlots (Array.replicate n none) = [] := by
  simp [spillSlots, Home.slots]

theorem spillSlots_set {homes : Array (Option Home)} {t : Temp} {old new : Option Home}
    (hold : homes[t]? = some old) (hslots : Home.slots old = []) :
    (spillSlots (homes.setIfInBounds t new)).Perm (Home.slots new ++ spillSlots homes) := by
  have hlist : homes.toList[t]? = some old := by simpa using hold
  rw [spillSlots, Array.toList_setIfInBounds, List.set_eq_modify]
  exact Table.flatMap_modify_perm hlist (by rw [hslots, List.append_nil])

theorem slots_disjoint {homes : Array (Option Home)}
    (h : (spillSlots homes).Pairwise Region.Disjoint) {t u : Temp} {x y : Int} (htu : t ≠ u)
    (ht : homes[t]? = some (some (.spill x))) (hu : homes[u]? = some (some (.spill y))) :
    (Region.mk x 8).Disjoint ⟨y, 8⟩ := by
  have hpairs : homes.toList.Pairwise fun g h =>
      ∀ r ∈ Home.slots g, ∀ q ∈ Home.slots h, r.Disjoint q := (List.pairwise_flatMap.1 h).2
  rw [← Array.getElem?_toList] at ht hu
  obtain ⟨htlt, hteq⟩ := List.getElem?_eq_some_iff.1 ht
  obtain ⟨hult, hueq⟩ := List.getElem?_eq_some_iff.1 hu
  have hmem : ∀ z : Int, (⟨z, 8⟩ : Region) ∈ Home.slots (some (.spill z)) := fun z =>
    List.mem_singleton_self _
  rcases Nat.lt_or_gt_of_ne htu with hlt | hlt
  · have h := List.pairwise_iff_getElem.1 hpairs t u htlt hult hlt
    rw [hteq, hueq] at h
    exact h _ (hmem x) _ (hmem y)
  · have h := List.pairwise_iff_getElem.1 hpairs u t hult htlt hlt
    rw [hteq, hueq] at h
    exact (h _ (hmem y) _ (hmem x)).symm

namespace Pool

variable {p : Pool} {i : Nat}

theorem free_ok {wanted : Option Home} (h : p.free wanted = some i) :
    ∃ e, p[i]? = some e ∧ e.occupant = none := by
  unfold free at h
  have hfind : ∀ f : PoolEntry → Bool, (∀ e, f e = true → e.occupant = none) →
      p.findIdx? f = some i → ∃ e, p[i]? = some e ∧ e.occupant = none := by
    intro f hf hi
    obtain ⟨hlt, hfi, -⟩ := List.findIdx?_eq_some_iff_getElem.1 hi
    exact ⟨p[i], List.getElem?_eq_getElem hlt, hf _ hfi⟩
  rcases (Option.orElse_eq_some _ _ _).1 h with h | ⟨-, h⟩
  · refine hfind _ (fun e he => ?_) h
    rw [Bool.and_eq_true] at he
    exact Option.isNone_iff_eq_none.1 he.1
  · exact hfind _ (fun e he => Option.isNone_iff_eq_none.1 he) h

theorem longer_cases {best : Option (Nat × Interval)} {e : PoolEntry} {j : Nat}
    {r : Nat × Interval} (h : longer best e j = some r) :
    best = some r ∨ r.1 = j ∧ e.occupant = some r.2 := by
  unfold longer at h
  split at h
  · exact .inl h
  · rename_i o ho
    obtain rfl := Option.some.inj h
    exact .inr ⟨rfl, ho⟩
  · rename_i o ho
    split at h
    · obtain rfl := Option.some.inj h
      exact .inr ⟨rfl, ho⟩
    · exact .inl h

theorem victim_ok {o : Interval} (h : p.victim = some (i, o)) :
    ∃ e, p[i]? = some e ∧ e.occupant = some o := by
  have hfold : ∀ (l : List (PoolEntry × Nat)) (best : Option (Nat × Interval)),
      l.foldl (fun best x => longer best x.1 x.2) best = some (i, o) →
      best = some (i, o) ∨ ∃ e, (e, i) ∈ l ∧ e.occupant = some o := by
    intro l
    induction l with
    | nil => exact fun best h => .inl h
    | cons x l ih =>
      intro best h
      rcases ih _ h with h | ⟨e, he, ho⟩
      · rcases longer_cases h with h | ⟨rfl, ho⟩
        · exact .inl h
        · exact .inr ⟨x.1, List.mem_cons_self, ho⟩
      · exact .inr ⟨e, List.mem_cons_of_mem _ he, ho⟩
  rcases hfold _ _ h with h | ⟨e, he, ho⟩
  · cases h
  · exact ⟨e, List.mem_zipIdx_iff_getElem?.1 he, ho⟩

theorem getElem?_release (start : Nat) :
    (p.release start)[i]? = (p[i]?).map fun e =>
      if e.occupant.any (·.stop ≤ start) then { e with occupant := none } else e :=
  List.getElem?_map

end Pool

namespace Allocator

def homeOf (a : Allocator) (t : Temp) : Option Home := (a.homes[t]?).join

theorem homeOf_set {homes : Array (Option Home)} {t : Temp} (ht : t < homes.size) (h : Home)
    (u : Temp) :
    ((homes.setIfInBounds t (some h))[u]?).join = if u = t then some h else (homes[u]?).join := by
  rw [Array.getElem?_setIfInBounds]
  by_cases hu : t = u
  · subst hu
    simp [ht]
  · rw [if_neg hu, if_neg (Ne.symm hu)]

/-- The registers that are given out. -/
def registers : List Reg := [6, 7, 8]

/-- The state of an allocation that began in a frame with some number of temporaries, after some
ranges that start up to a place. -/
structure Fair (f : Frame) (n now : Nat) (done : List Interval) (a : Allocator) : Prop where
  size : a.homes.size = n
  fresh : ∀ t, (∀ v ∈ done, v.temp ≠ t) → a.homeOf t = none
  settled : ∀ v ∈ done, (a.homeOf v.temp).isSome
  started : ∀ v ∈ done, v.start ≤ now
  regs : a.pool.map PoolEntry.reg = registers
  pooled : ∀ t r, a.homeOf t = some (.reg r) → r ∈ registers
  occupied : ∀ (i : Nat) (e : PoolEntry) (o : Interval), a.pool[i]? = some e →
    e.occupant = some o → o ∈ done ∧ a.homeOf o.temp = some (.reg e.reg)
  held : ∀ v ∈ done, ∀ r, a.homeOf v.temp = some (.reg r) →
    v.stop ≤ now ∨ ∃ (i : Nat) (e : PoolEntry), a.pool[i]? = some e ∧ e.reg = r ∧ e.occupant = some v
  apart : ∀ u ∈ done, ∀ v ∈ done, u.temp ≠ v.temp → ∀ r, a.homeOf u.temp = some (.reg r) →
    a.homeOf v.temp = some (.reg r) → u.stop ≤ v.start ∨ v.stop ≤ u.start
  slots : ∀ rs, Packed f.top rs → (∀ r ∈ rs, r.size % 8 = 0) →
    Packed a.frame.top (spillSlots a.homes ++ rs) ∧
      ∀ r ∈ spillSlots a.homes ++ rs, r.size % 8 = 0

namespace Fair

variable {f : Frame} {n now : Nat} {done : List Interval} {a : Allocator}

theorem register_injective (h : a.Fair f n now done) {i j : Nat} {e e' : PoolEntry}
    (hi : a.pool[i]? = some e) (hj : a.pool[j]? = some e') (hreg : e.reg = e'.reg) : i = j := by
  have hnodup : (a.pool.map PoolEntry.reg).Nodup := by
    rw [h.regs]
    decide
  have hlt : i < (a.pool.map PoolEntry.reg).length := by
    rw [List.length_map]
    exact (List.getElem?_eq_some_iff.1 hi).1
  refine (List.getElem?_inj hlt hnodup).1 ?_
  rw [List.getElem?_map, List.getElem?_map, hi, hj]
  exact congrArg some hreg

theorem release (h : a.Fair f n now done) {start : Nat} (hnow : now ≤ start) :
    ({ a with pool := a.pool.release start } : Allocator).Fair f n start done where
  size := h.size
  fresh := h.fresh
  settled := h.settled
  started v hv := Nat.le_trans (h.started v hv) hnow
  regs := by
    rw [← h.regs, Pool.release, List.map_map]
    refine List.map_congr_left fun e _ => ?_
    simp only [Function.comp]
    split <;> rfl
  pooled := h.pooled
  occupied i e o hi ho := by
    rw [Pool.getElem?_release] at hi
    obtain ⟨e₀, hi₀, rfl⟩ := Option.map_eq_some_iff.1 hi
    split at ho
    · cases ho
    · rename_i hstay
      rw [if_neg hstay]
      exact h.occupied i e₀ o hi₀ ho
  held v hv r hr := by
    rcases h.held v hv r hr with hstop | ⟨i, e, hi, hreg, ho⟩
    · exact .inl (Nat.le_trans hstop hnow)
    · by_cases hend : v.stop ≤ start
      · exact .inl hend
      · refine .inr ⟨i, e, ?_, hreg, ho⟩
        rw [Pool.getElem?_release, hi, Option.map_some, ho, if_neg (by simpa using hend)]
  apart := h.apart
  slots := h.slots

theorem homes_of_fresh (h : a.Fair f n now done) {t : Temp} (ht : t < n)
    (hnew : ∀ u ∈ done, u.temp ≠ t) : a.homes[t]? = some none := by
  have hnone := h.fresh t hnew
  have hlt : t < a.homes.size := h.size ▸ ht
  rw [homeOf, Array.getElem?_eq_getElem hlt, Option.join_some] at hnone
  rw [Array.getElem?_eq_getElem hlt, hnone]

theorem occupy (h : a.Fair f n now done) {i : Nat} {e : PoolEntry} {v : Interval}
    (hi : a.pool[i]? = some e) (ho : e.occupant = none) (hv : v.temp < n)
    (hnew : ∀ u ∈ done, u.temp ≠ v.temp) (hstart : v.start = now) :
    (a.occupy i v).Fair f n now (v :: done) := by
  have hlt : v.temp < a.homes.size := h.size ▸ hv
  have hhome : ∀ u, (a.occupy i v).homeOf u =
      if u = v.temp then some (.reg e.reg) else a.homeOf u := by
    intro u
    rw [Allocator.occupy, hi]
    exact homeOf_set hlt _ u
  have hget : ∀ j, (a.occupy i v).pool[j]? =
      if i = j then some { e with occupant := some v } else a.pool[j]? := by
    intro j
    rw [Allocator.occupy, hi, List.getElem?_set]
    split
    · rw [if_pos (List.getElem?_eq_some_iff.1 hi).1]
    · rfl
  have hhomes : (a.occupy i v).homes = a.homes.setIfInBounds v.temp (some (.reg e.reg)) := by
    rw [Allocator.occupy, hi]
  have hframe : (a.occupy i v).frame = a.frame := by rw [Allocator.occupy, hi]
  have hold : ∀ u ∈ done, (a.occupy i v).homeOf u.temp = a.homeOf u.temp := fun u hu => by
    rw [hhome, if_neg (hnew u hu)]
  have hbefore : ∀ u ∈ done, a.homeOf u.temp = some (.reg e.reg) → u.stop ≤ v.start := by
    intro u hu hreg
    rcases h.held u hu _ hreg with hstop | ⟨j, e', hj, hreg', ho'⟩
    · exact hstart ▸ hstop
    · obtain rfl := h.register_injective hj hi hreg'
      obtain rfl := Option.some.inj (hj.symm.trans hi)
      rw [ho] at ho'
      cases ho'
  constructor
  case size => rw [hhomes, Array.size_setIfInBounds, h.size]
  case fresh =>
    intro t ht
    rw [hhome, if_neg (ht v List.mem_cons_self).symm]
    exact h.fresh t fun u hu => ht u (List.mem_cons_of_mem _ hu)
  case settled =>
    intro u hu
    rcases List.mem_cons.1 hu with rfl | hu
    · rw [hhome, if_pos rfl]
      rfl
    · rw [hold u hu]
      exact h.settled u hu
  case started =>
    intro u hu
    rcases List.mem_cons.1 hu with rfl | hu
    · exact Nat.le_of_eq hstart
    · exact h.started u hu
  case regs =>
    rw [← h.regs]
    refine List.ext_getElem? fun j => ?_
    rw [List.getElem?_map, List.getElem?_map, hget]
    split
    · rename_i hij
      rw [← hij, hi]
      rfl
    · rfl
  case pooled =>
    intro t r hr
    rw [hhome] at hr
    split at hr
    · cases hr
      rw [← h.regs]
      exact List.mem_map_of_mem (List.mem_of_getElem? hi)
    · exact h.pooled t r hr
  case occupied =>
    intro j e' o hj ho'
    rw [hget] at hj
    split at hj
    · obtain rfl := Option.some.inj hj
      obtain rfl := Option.some.inj ho'
      exact ⟨List.mem_cons_self, by rw [hhome, if_pos rfl]⟩
    · obtain ⟨hmem, hreg⟩ := h.occupied j e' o hj ho'
      exact ⟨List.mem_cons_of_mem _ hmem, by rw [hold o hmem, hreg]⟩
  case held =>
    intro u hu r hr
    rcases List.mem_cons.1 hu with rfl | hu
    · rw [hhome, if_pos rfl] at hr
      obtain rfl := Home.reg.inj (Option.some.inj hr)
      exact .inr ⟨i, _, (hget i).trans (if_pos rfl), rfl, rfl⟩
    · rw [hold u hu] at hr
      rcases h.held u hu r hr with hstop | ⟨j, e', hj, hreg', ho'⟩
      · exact .inl hstop
      · refine .inr ⟨j, e', ?_, hreg', ho'⟩
        have hij : i ≠ j := by
          rintro rfl
          obtain rfl := Option.some.inj (hj.symm.trans hi)
          rw [ho] at ho'
          cases ho'
        exact (hget j).trans ((if_neg hij).trans hj)
  case apart =>
    intro u hu w hw hne r hur hwr
    rcases List.mem_cons.1 hu with rfl | hu' <;> rcases List.mem_cons.1 hw with rfl | hw'
    · exact (hne rfl).elim
    · rw [hhome, if_pos rfl] at hur
      obtain rfl := Home.reg.inj (Option.some.inj hur)
      rw [hold w hw'] at hwr
      exact .inr (hbefore w hw' hwr)
    · rw [hhome, if_pos rfl] at hwr
      obtain rfl := Home.reg.inj (Option.some.inj hwr)
      rw [hold u hu'] at hur
      exact .inl (hbefore u hu' hur)
    · rw [hold u hu'] at hur
      rw [hold w hw'] at hwr
      exact h.apart u hu' w hw' hne r hur hwr
  case slots =>
    intro rs hpacked hmod
    obtain ⟨h₁, h₂⟩ := h.slots rs hpacked hmod
    have hset : (spillSlots (a.homes.setIfInBounds v.temp (some (.reg e.reg)))).Perm
        (spillSlots a.homes) := spillSlots_set (h.homes_of_fresh hv hnew) rfl
    have hperm := hset.symm.append_right rs
    rw [hhomes, hframe]
    exact ⟨h₁.perm hperm, fun r hr => h₂ r (hperm.mem_iff.2 hr)⟩

theorem slots_spill (h : a.Fair f n now done) {t : Temp} {old : Option Home}
    (ht : a.homes[t]? = some old) (hold : Home.slots old = []) :
    ∀ rs, Packed f.top rs → (∀ r ∈ rs, r.size % 8 = 0) →
      Packed (a.spill t).frame.top (spillSlots (a.spill t).homes ++ rs) ∧
        ∀ r ∈ spillSlots (a.spill t).homes ++ rs, r.size % 8 = 0 := by
  intro rs hpacked hmod
  obtain ⟨h₁, h₂⟩ := h.slots rs hpacked hmod
  have hset : (spillSlots (a.spill t).homes).Perm (⟨(a.frame.reserve 8).1, 8⟩ :: spillSlots a.homes) :=
    spillSlots_set ht hold
  have hperm := (hset.append_right rs).symm
  have hnew := h₁.reserve h₂ (by decide : 8 % 8 = 0) (by decide) (by decide)
  refine ⟨hnew.perm hperm, fun r hr => ?_⟩
  rcases List.mem_cons.1 (hperm.mem_iff.2 hr) with rfl | hr
  · exact Nat.mod_self 8
  · exact h₂ r hr

theorem homeOf_spill (a : Allocator) {t : Temp} (ht : t < a.homes.size) (u : Temp) :
    (a.spill t).homeOf u = if u = t then some (.spill (a.frame.reserve 8).1) else a.homeOf u :=
  homeOf_set ht _ u

theorem spill (h : a.Fair f n now done) {v : Interval} (hv : v.temp < n)
    (hnew : ∀ u ∈ done, u.temp ≠ v.temp) (hstart : v.start = now) :
    (a.spill v.temp).Fair f n now (v :: done) := by
  have hlt : v.temp < a.homes.size := h.size ▸ hv
  have hhome := homeOf_spill a hlt
  have hold : ∀ u ∈ done, (a.spill v.temp).homeOf u.temp = a.homeOf u.temp := fun u hu => by
    rw [hhome, if_neg (hnew u hu)]
  have hreg : ∀ t r, (a.spill v.temp).homeOf t = some (.reg r) →
      t ≠ v.temp ∧ a.homeOf t = some (.reg r) := by
    intro t r ht
    rw [hhome] at ht
    split at ht
    · cases ht
    · exact ⟨‹_›, ht⟩
  have hdone : ∀ u ∈ v :: done, u.temp ≠ v.temp → u ∈ done := by
    intro u hu hne
    rcases List.mem_cons.1 hu with rfl | hu
    · exact (hne rfl).elim
    · exact hu
  constructor
  case size => exact (Array.size_setIfInBounds ..).trans h.size
  case fresh =>
    intro t ht
    rw [hhome, if_neg (ht v List.mem_cons_self).symm]
    exact h.fresh t fun u hu => ht u (List.mem_cons_of_mem _ hu)
  case settled =>
    intro u hu
    rcases List.mem_cons.1 hu with rfl | hu
    · rw [hhome, if_pos rfl]
      rfl
    · rw [hold u hu]
      exact h.settled u hu
  case started =>
    intro u hu
    rcases List.mem_cons.1 hu with rfl | hu
    · exact Nat.le_of_eq hstart
    · exact h.started u hu
  case regs => exact h.regs
  case pooled => exact fun t r ht => h.pooled t r (hreg t r ht).2
  case occupied =>
    intro j e o hj ho
    obtain ⟨hmem, hhas⟩ := h.occupied j e o hj ho
    exact ⟨List.mem_cons_of_mem _ hmem, by rw [hold o hmem, hhas]⟩
  case held =>
    intro u hu r hr
    obtain ⟨hne, hr⟩ := hreg _ r hr
    exact h.held u (hdone u hu hne) r hr
  case apart =>
    intro u hu w hw hne r hur hwr
    obtain ⟨hu', hur⟩ := hreg _ r hur
    obtain ⟨hw', hwr⟩ := hreg _ r hwr
    exact h.apart u (hdone u hu hu') w (hdone w hw hw') hne r hur hwr
  case slots => exact h.slots_spill (h.homes_of_fresh hv hnew) rfl

theorem evict (h : a.Fair f n now done) {i : Nat} {e : PoolEntry} {o : Interval}
    (hi : a.pool[i]? = some e) (ho : e.occupant = some o) :
    (({ a with pool := a.pool.set i { e with occupant := none } } : Allocator).spill o.temp).Fair
      f n now done := by
  obtain ⟨hmem, hhas⟩ := h.occupied i e o hi ho
  have hlt : o.temp < a.homes.size := by
    by_contra hge
    rw [homeOf, Array.getElem?_eq_none (Nat.le_of_not_lt hge)] at hhas
    cases hhas
  have hget : ∀ j, (a.pool.set i { e with occupant := none })[j]? =
      if i = j then some { e with occupant := none } else a.pool[j]? := by
    intro j
    rw [List.getElem?_set]
    split
    · rw [if_pos (List.getElem?_eq_some_iff.1 hi).1]
    · rfl
  set b := ({ a with pool := a.pool.set i { e with occupant := none } } : Allocator)
  have hhome : ∀ u, (b.spill o.temp).homeOf u =
      if u = o.temp then some (.spill (a.frame.reserve 8).1) else a.homeOf u :=
    homeOf_spill b hlt
  have hreg : ∀ t r, (b.spill o.temp).homeOf t = some (.reg r) →
      t ≠ o.temp ∧ a.homeOf t = some (.reg r) := by
    intro t r ht
    rw [hhome] at ht
    split at ht
    · cases ht
    · exact ⟨‹_›, ht⟩
  constructor
  case size => exact (Array.size_setIfInBounds ..).trans h.size
  case fresh =>
    intro t ht
    rw [hhome, if_neg (ht o hmem).symm]
    exact h.fresh t ht
  case settled =>
    intro u hu
    rw [hhome]
    split
    · rfl
    · exact h.settled u hu
  case started => exact h.started
  case regs =>
    rw [← h.regs]
    refine List.ext_getElem? fun j => ?_
    change (List.map PoolEntry.reg (a.pool.set i { e with occupant := none }))[j]? = _
    rw [List.getElem?_map, List.getElem?_map, hget]
    split
    · rename_i hij
      rw [← hij, hi]
      rfl
    · rfl
  case pooled => exact fun t r ht => h.pooled t r (hreg t r ht).2
  case occupied =>
    intro j e' o' hj ho'
    have hj' := (hget j).symm.trans hj
    split at hj'
    · obtain rfl := Option.some.inj hj'
      cases ho'
    · rename_i hij
      obtain ⟨hmem', hhas'⟩ := h.occupied j e' o' hj' ho'
      refine ⟨hmem', ?_⟩
      rw [hhome, if_neg, hhas']
      intro htemp
      -- One temporary cannot hold two registers.
      rw [htemp, hhas] at hhas'
      exact hij (h.register_injective hi hj' (Home.reg.inj (Option.some.inj hhas')))
  case held =>
    intro u hu r hr
    obtain ⟨hne, hr⟩ := hreg _ r hr
    rcases h.held u hu r hr with hstop | ⟨j, e', hj, hreg', ho'⟩
    · exact .inl hstop
    · refine .inr ⟨j, e', (hget j).trans ((if_neg ?_).trans hj), hreg', ho'⟩
      rintro rfl
      obtain rfl := Option.some.inj (hj.symm.trans hi)
      obtain rfl := Option.some.inj (ho'.symm.trans ho)
      exact hne rfl
  case apart =>
    intro u hu w hw hne r hur hwr
    exact h.apart u hu w hw hne r (hreg _ r hur).2 (hreg _ r hwr).2
  case slots =>
    have hold : a.homes[o.temp]? = some (some (.reg e.reg)) := by
      rw [homeOf, Array.getElem?_eq_getElem hlt, Option.join_some] at hhas
      rw [Array.getElem?_eq_getElem hlt, hhas]
    exact h.slots_spill hold rfl

theorem occupy_evicted {i : Nat} {e : PoolEntry} (hi : a.pool[i]? = some e) (t : Temp)
    (v : Interval) :
    (({ a with pool := a.pool.set i { e with occupant := none } } : Allocator).spill t).occupy i v =
      (a.spill t).occupy i v := by
  have hlt := (List.getElem?_eq_some_iff.1 hi).1
  have hget : (a.pool.set i { e with occupant := none })[i]? = some { e with occupant := none } := by
    rw [List.getElem?_set, if_pos rfl, if_pos hlt]
  simp only [Allocator.occupy, Allocator.spill, hget, hi, List.set_set]

theorem allocate (h : a.Fair f n now done) {v : Interval} (hnow : now ≤ v.start) (hv : v.temp < n)
    (hnew : ∀ u ∈ done, u.temp ≠ v.temp) (hints : Array (Option Temp)) :
    (a.allocate hints v).Fair f n v.start (v :: done) := by
  have hreleased := h.release hnow
  unfold Allocator.allocate
  dsimp only
  split
  · rename_i i hfree
    obtain ⟨e, hi, ho⟩ := Pool.free_ok hfree
    exact hreleased.occupy hi ho hv hnew rfl
  · split
    · rename_i i o hvictim
      obtain ⟨e, hi, ho⟩ := Pool.victim_ok hvictim
      split
      · have hevicted := hreleased.evict hi ho
        have hget : (List.set (a.pool.release v.start) i { e with occupant := none })[i]? =
            some { e with occupant := none } := by
          rw [List.getElem?_set, if_pos rfl, if_pos (List.getElem?_eq_some_iff.1 hi).1]
        have hoccupied := hevicted.occupy hget rfl hv hnew rfl
        rw [occupy_evicted hi] at hoccupied
        exact hoccupied
      · exact hreleased.spill hv hnew rfl
    · exact hreleased.spill hv hnew rfl

theorem allocateAll (hints : Array (Option Temp)) {vs : List Interval} (h : a.Fair f n now done)
    (hsorted : vs.Pairwise (·.start ≤ ·.start)) (hnow : ∀ v ∈ vs, now ≤ v.start)
    (hv : ∀ v ∈ vs, v.temp < n) (honce : vs.Pairwise (·.temp ≠ ·.temp))
    (hnew : ∀ v ∈ vs, ∀ u ∈ done, u.temp ≠ v.temp) :
    ∃ now', (vs.foldl (Allocator.allocate hints) a).Fair f n now' (vs.reverse ++ done) := by
  induction vs generalizing a now done with
  | nil => exact ⟨now, h⟩
  | cons v vs ih =>
    rw [List.pairwise_cons] at hsorted honce
    have hstep := h.allocate (hnow v List.mem_cons_self) (hv v List.mem_cons_self)
      (hnew v List.mem_cons_self) hints
    rw [List.foldl_cons, List.reverse_cons, List.append_assoc]
    refine ih hstep hsorted.2 hsorted.1 (fun u hu => hv u (List.mem_cons_of_mem _ hu)) honce.2 ?_
    intro u hu w hw
    rcases List.mem_cons.1 hw with rfl | hw
    · exact honce.1 u hu
    · exact hnew u (List.mem_cons_of_mem _ hu) w hw

theorem start (temps : Array TempInfo) (f : Frame) (n : Nat) :
    ({ homes := Array.replicate n none, temps, frame := f } : Allocator).Fair f n 0 [] := by
  have hnone : ∀ t, ({ homes := Array.replicate n none, temps, frame := f } : Allocator).homeOf t =
      none := by
    intro t
    rw [homeOf, Array.getElem?_replicate]
    split <;> rfl
  constructor
  case size => exact Array.size_replicate
  case fresh => exact fun t _ => hnone t
  case regs => rfl
  case pooled =>
    intro t r ht
    rw [hnone] at ht
    cases ht
  case occupied =>
    intro i e o hi ho
    have hfree : ∀ e ∈ Pool.empty, e.occupant = none := by decide
    rw [hfree e (List.mem_of_getElem? hi)] at ho
    cases ho
  case slots =>
    intro rs hpacked hmod
    rw [spillSlots_replicate]
    exact ⟨hpacked, hmod⟩
  all_goals exact fun _ hv => (List.not_mem_nil hv).elim

end Fair

end Allocator

namespace Program

theorem mem_ranges {p : Program} {v : Interval} :
    v ∈ p.ranges ↔ ∃ info, p.temps[v.temp]? = some info ∧ info.firstDef = some v.start ∧
      info.stop = some v.stop := by
  have hinterval : ∀ (info : TempInfo) (t : Temp), Interval.ofTemp info t = some v ↔
      t = v.temp ∧ info.firstDef = some v.start ∧ info.stop = some v.stop := by
    intro info t
    obtain ⟨start, stop, temp⟩ := v
    unfold Interval.ofTemp
    cases info.firstDef <;> cases info.stop <;> simp [and_left_comm, and_comm, eq_comm]
  rw [ranges, List.mem_filterMap]
  constructor
  · rintro ⟨⟨info, t⟩, hmem, hv⟩
    obtain ⟨rfl, hstart, hstop⟩ := (hinterval info t).1 hv
    have hinfo := List.mem_zipIdx_iff_getElem?.1 hmem
    exact ⟨info, by simpa using hinfo, hstart, hstop⟩
  · rintro ⟨info, hinfo, hstart, hstop⟩
    refine ⟨(info, v.temp), List.mem_zipIdx_iff_getElem?.2 (by simpa using hinfo), ?_⟩
    exact (hinterval info v.temp).2 ⟨rfl, hstart, hstop⟩

theorem ranges_once (p : Program) : p.ranges.Pairwise (·.temp ≠ ·.temp) := by
  have htemp : ∀ (info : TempInfo) (t : Temp) (v : Interval), Interval.ofTemp info t = some v →
      v.temp = t := by
    intro info t v hv
    unfold Interval.ofTemp at hv
    cases hd : info.firstDef <;> cases hs : info.stop <;> simp [hd, hs] at hv
    rw [← hv]
  have hindex : (p.temps.toList.zipIdx).Pairwise (·.2 ≠ ·.2) := by
    rw [← List.pairwise_map (f := Prod.snd), List.zipIdx_map_snd]
    exact List.nodup_range'
  refine List.Pairwise.filterMap _ (fun x y hxy v hv w hw => ?_) hindex
  rw [htemp x.1 x.2 v hv, htemp y.1 y.2 w hw]
  exact hxy

theorem intervals_perm (p : Program) : p.intervals.Perm p.ranges := List.mergeSort_perm ..

theorem intervals_sorted (p : Program) : p.intervals.Pairwise (·.start ≤ ·.start) := by
  rw [intervals_eq]
  refine (List.pairwise_insertionSort _ _).imp fun {a b} h => ?_
  grind [Interval.le]

theorem intervals_temp_lt (p : Program) : ∀ v ∈ p.intervals, v.temp < p.temps.size := by
  intro v hv
  obtain ⟨info, hinfo, -⟩ := mem_ranges.1 (p.intervals_perm.mem_iff.1 hv)
  exact (Array.getElem?_eq_some_iff.1 hinfo).1

theorem intervals_once (p : Program) : p.intervals.Pairwise (·.temp ≠ ·.temp) :=
  (p.intervals_perm.symm.pairwise_iff fun h => h.symm).1 p.ranges_once

theorem allocate_fair (p : Program) (f : Frame) :
    ∃ now, (p.allocateAlong f p.intervals).Fair f p.temps.size now p.intervals.reverse := by
  obtain ⟨now, hfair⟩ := (Allocator.Fair.start p.temps f p.temps.size).allocateAll p.hints
    p.intervals_sorted (fun _ _ => Nat.zero_le _) p.intervals_temp_lt p.intervals_once
    (fun _ _ _ hu => (List.not_mem_nil hu).elim)
  rw [List.append_nil] at hfair
  exact ⟨now, hfair⟩

/-- After the analysis, exactly the temporaries with a definition have a range. -/
theorem exists_range_iff (p : Program) (t : Temp) : (∃ v ∈ p.analyze.intervals, v.temp = t) ↔
    t < p.temps.size ∧ ∃ i ∈ p.instructions, i.def? = some t := by
  have hnumbered := p.numbered_analyze
  have hfind : (∃ i ∈ p.instructions, i.def? = some t) ↔
      (p.instructions.findIdx? fun i => i.def? = some t).isSome := by
    rw [List.findIdx?_isSome, List.any_eq_true]
    simp only [decide_eq_true_eq]
  constructor
  · rintro ⟨v, hv, rfl⟩
    have hlt : v.temp < p.temps.size := hnumbered.size ▸ p.analyze.intervals_temp_lt v hv
    obtain ⟨info, hinfo, hstart, -⟩ := mem_ranges.1 (p.analyze.intervals_perm.mem_iff.1 hv)
    refine ⟨hlt, hfind.2 ?_⟩
    rw [← hnumbered.firstDef v.temp hlt]
    exact Option.isSome_iff_exists.2 ⟨v.start, Option.bind_eq_some_iff.2 ⟨info, hinfo, hstart⟩⟩
  · rintro ⟨hlt, hdef⟩
    obtain ⟨k, hk⟩ := Option.isSome_iff_exists.1 (hfind.1 hdef)
    obtain ⟨info, hinfo, hstart⟩ :=
      Option.bind_eq_some_iff.1 ((hnumbered.firstDef t hlt).trans hk)
    obtain ⟨stop, hstop⟩ : ∃ stop, info.stop = some stop := by
      unfold TempInfo.stop
      rw [hstart]
      cases info.lastUse <;> exact ⟨_, rfl⟩
    have hrange : (⟨k, stop, t⟩ : Interval) ∈ p.analyze.ranges :=
      mem_ranges.2 ⟨info, hinfo, hstart, hstop⟩
    exact ⟨_, p.analyze.intervals_perm.mem_iff.2 hrange, rfl⟩

end Program

end TraceScript.Flow
