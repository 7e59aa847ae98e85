import Mathlib.Data.Finset.Card
import Mathlib.Data.Finset.Order
import Mathlib.Order.Bounds.Basic
import TraceScript.Proofs.Homes

namespace TraceScript.Flow

namespace Pool

variable {p : Pool} {i : Nat}

theorem occupied_of_free {wanted : Option Home} (h : p.free wanted = none) :
    ∀ e ∈ p, ∃ o, e.occupant = some o := by
  intro e he
  unfold free at h
  have hnone : p.findIdx? (·.occupant.isNone) = none := by
    cases hwanted : p.findIdx? fun e => e.occupant.isNone && wanted == some (.reg e.reg) with
    | none => rwa [hwanted] at h
    | some i => simp [hwanted] at h
  have hsome := List.findIdx?_eq_none_iff.1 hnone e he
  exact Option.isSome_iff_exists.1 (by simpa using hsome)

theorem lt_of_release {start : Nat} {e : PoolEntry} {o : Interval} (he : e ∈ p.release start)
    (ho : e.occupant = some o) : start < o.stop := by
  obtain ⟨e₀, -, rfl⟩ := List.mem_map.1 he
  split at ho
  · cases ho
  · rename_i hstay
    rw [ho] at hstay
    simpa using hstay

theorem longer_mono {best : Option (Nat × Interval)} {e : PoolEntry} {j : Nat} {o : Interval}
    (h : (∃ r, best = some r ∧ o.stop ≤ r.2.stop) ∨ e.occupant = some o) :
    ∃ r, longer best e j = some r ∧ o.stop ≤ r.2.stop := by
  unfold longer
  split
  · rename_i hnone
    rw [hnone] at h
    exact h.resolve_right nofun
  · rename_i o' ho'
    rw [ho'] at h
    rcases h with ⟨r, hr, -⟩ | h
    · cases hr
    · obtain rfl := Option.some.inj h
      exact ⟨_, rfl, Nat.le_refl _⟩
  · rename_i k best o' ho'
    rw [ho'] at h
    have hle : o.stop ≤ max best.stop o'.stop := by
      rcases h with ⟨r, hr, hle⟩ | h
      · obtain rfl := Option.some.inj hr
        exact Nat.le_trans hle (Nat.le_max_left ..)
      · obtain rfl := Option.some.inj h
        exact Nat.le_max_right ..
    split
    · exact ⟨_, rfl, by dsimp only; omega⟩
    · exact ⟨_, rfl, by dsimp only; omega⟩

theorem exists_victim {e : PoolEntry} {o : Interval} (he : e ∈ p) (ho : e.occupant = some o) :
    ∃ r, p.victim = some r ∧ o.stop ≤ r.2.stop := by
  have hfold : ∀ (l : List (PoolEntry × Nat)) (best : Option (Nat × Interval)),
      (∃ r, best = some r ∧ o.stop ≤ r.2.stop) ∨ (∃ x ∈ l, x.1.occupant = some o) →
      ∃ r, l.foldl (fun best x => longer best x.1 x.2) best = some r ∧ o.stop ≤ r.2.stop := by
    intro l
    induction l with
    | nil => exact fun best h => h.resolve_right (by simp)
    | cons x l ih =>
      intro best h
      refine ih _ ?_
      rcases h with h | ⟨y, hy, hoy⟩
      · exact .inl (longer_mono (.inl h))
      · rcases List.mem_cons.1 hy with rfl | hy
        · exact .inl (longer_mono (.inr hoy))
        · exact .inr ⟨y, hy, hoy⟩
  obtain ⟨i, hi⟩ := List.getElem?_of_mem he
  exact hfold _ _ (.inr ⟨(e, i), List.mem_zipIdx_iff_getElem?.2 hi, ho⟩)

end Pool

namespace Allocator

/-- A temporary has a register for its home. -/
def keeps (a : Allocator) (t : Temp) : Bool := (a.homeOf t).any fun h => !h.isSpill

/-- The ranges in the pool. -/
def occupants (a : Allocator) : List Interval := a.pool.filterMap PoolEntry.occupant

/-- What is done for a range after those that have ended gave their registers back. -/
def settle (a : Allocator) (wanted : Option Home) (v : Interval) : Allocator :=
  match a.pool.free wanted with
  | some index => a.occupy index v
  | none =>
    match a.pool.victim with
    | some (index, o) => if v.stop < o.stop then (a.spill o.temp).occupy index v else a.spill v.temp
    | none => a.spill v.temp

theorem allocate_eq (hints : Array (Option Temp)) (a : Allocator) (v : Interval) :
    a.allocate hints v = settle { a with pool := a.pool.release v.start }
      ((hints[v.temp]?).join.bind (a.homes[·]?)).join v := rfl

theorem lt_of_homeOf {a : Allocator} {t : Temp} {home : Home} (h : a.homeOf t = some home) :
    t < a.homes.size := by
  by_contra hge
  rw [homeOf, Array.getElem?_eq_none (Nat.le_of_not_lt hge)] at h
  cases h

theorem size_spill (a : Allocator) (t : Temp) : (a.spill t).homes.size = a.homes.size :=
  Array.size_setIfInBounds ..

namespace Fair

variable {f : Frame} {n now : Nat} {done : List Interval} {a : Allocator}

theorem three_occupants (h : a.Fair f n now done) (hfull : ∀ e ∈ a.pool, ∃ o, e.occupant = some o) :
    a.occupants.length = 3 ∧ a.occupants.Nodup ∧
      ∀ o ∈ a.occupants, o ∈ done ∧ a.keeps o.temp := by
  have hoccupied : ∀ e ∈ a.pool, ∀ o, e.occupant = some o →
      o ∈ done ∧ a.homeOf o.temp = some (.reg e.reg) := by
    intro e he o ho
    obtain ⟨i, hi⟩ := List.getElem?_of_mem he
    exact h.occupied i e o hi ho
  have hlength : a.pool.length = 3 := by
    rw [← List.length_map (f := PoolEntry.reg), h.regs]
    rfl
  have hregs : a.pool.Pairwise fun e e' => e.reg ≠ e'.reg := by
    rw [← List.pairwise_map, h.regs]
    decide
  refine ⟨?_, ?_, fun o ho => ?_⟩
  · rw [occupants, ← hlength, List.length_filterMap_eq_countP, List.countP_eq_length]
    exact fun e he => Option.isSome_iff_exists.2 (hfull e he)
  · -- A range that stood twice would have two registers.
    have hdistinct : a.pool.Pairwise fun e e' => ∀ o, e.occupant = some o → e'.occupant ≠ some o := by
      refine hregs.imp_of_mem fun {e e'} he he' hne o ho ho' => hne ?_
      have hhome := (hoccupied e he o ho).2
      rw [(hoccupied e' he' o ho').2] at hhome
      exact (Home.reg.inj (Option.some.inj hhome)).symm
    refine List.Pairwise.filterMap _ (fun e e' hne o ho o' ho' => ?_) hdistinct
    rintro rfl
    exact hne o ho ho'
  · obtain ⟨e, he, ho⟩ := List.mem_filterMap.1 ho
    obtain ⟨hmem, hhome⟩ := hoccupied e he o ho
    exact ⟨hmem, by rw [keeps, hhome]; rfl⟩

end Fair

section

variable {f : Frame} {n now : Nat} {done : List Interval} {a : Allocator} {v : Interval}

theorem keeps_occupy {i : Nat} {e : PoolEntry} (hi : a.pool[i]? = some e) (hv : v.temp < a.homes.size)
    (t : Temp) : (a.occupy i v).keeps t = (decide (t = v.temp) || a.keeps t) := by
  have hhome : (a.occupy i v).homeOf t = if t = v.temp then some (.reg e.reg) else a.homeOf t := by
    rw [Allocator.occupy, hi]
    exact homeOf_set hv _ t
  rw [keeps, hhome]
  split
  · rename_i ht
    simp [ht, Home.isSpill]
  · rename_i ht
    simp [ht, keeps]

theorem keeps_spill {t : Temp} (ht : t < a.homes.size) (u : Temp) :
    (a.spill t).keeps u = (decide (u ≠ t) && a.keeps u) := by
  rw [keeps, Fair.homeOf_spill a ht]
  split
  · rename_i hu
    simp [hu, Home.isSpill]
  · rename_i hu
    simp [hu, keeps]

/-- What giving a home to a range means for the temporaries that are kept. Either a register is free,
or the new range competes with the three in the pool, and the one that ends last is given up. -/
theorem keeps_settle (h : a.Fair f n v.start done) (hv : v.temp < n)
    (hnew : ∀ u ∈ done, u.temp ≠ v.temp) (wanted : Option Home) :
    (∀ t, (a.settle wanted v).keeps t = (decide (t = v.temp) || a.keeps t)) ∨
    (∀ e ∈ a.pool, ∃ o, e.occupant = some o) ∧
    ∃ x, (x = v ∨ x ∈ a.occupants) ∧ v.stop ≤ x.stop ∧ (∀ o ∈ a.occupants, o.stop ≤ x.stop) ∧
      ∀ t, (a.settle wanted v).keeps t =
        (decide (t ≠ x.temp) && (decide (t = v.temp) || a.keeps t)) := by
  have hlt : v.temp < a.homes.size := h.size ▸ hv
  unfold settle
  split
  · rename_i i hfree
    obtain ⟨e, hi, -⟩ := Pool.free_ok hfree
    exact .inl (keeps_occupy hi hlt)
  · rename_i hfree
    have hfull := Pool.occupied_of_free hfree
    refine .inr ⟨hfull, ?_⟩
    split
    · rename_i i x hvictim
      obtain ⟨e, hi, hx⟩ := Pool.victim_ok hvictim
      have hmem : x ∈ a.occupants := List.mem_filterMap.2 ⟨e, List.mem_of_getElem? hi, hx⟩
      have hlongest : ∀ o ∈ a.occupants, o.stop ≤ x.stop := by
        intro o ho
        obtain ⟨e, he, ho⟩ := List.mem_filterMap.1 ho
        obtain ⟨r, hr, hle⟩ := Pool.exists_victim he ho
        obtain rfl := Option.some.inj (hr.symm.trans hvictim)
        exact hle
      split
      · rename_i hlonger
        refine ⟨x, .inr hmem, Nat.le_of_lt hlonger, hlongest, fun t => ?_⟩
        obtain ⟨hdone, hhome⟩ := h.occupied i e x hi hx
        have hne : v.temp ≠ x.temp := (hnew x hdone).symm
        have hx : x.temp < a.homes.size := lt_of_homeOf hhome
        rw [keeps_occupy (a := a.spill x.temp) hi (by rw [size_spill]; exact hlt), keeps_spill hx]
        by_cases ht : t = v.temp
        · simp [ht, hne]
        · simp [ht]
      · rename_i hshorter
        have hle := Nat.le_of_not_lt hshorter
        refine ⟨v, .inl rfl, Nat.le_refl _, fun o ho => Nat.le_trans (hlongest o ho) hle, fun t => ?_⟩
        rw [keeps_spill hlt]
        by_cases ht : t = v.temp <;> simp [ht]
    · rename_i hvictim
      obtain ⟨o, ho⟩ := List.exists_mem_of_length_pos (l := a.occupants) (by
        rw [(h.three_occupants hfull).1]
        decide)
      obtain ⟨e, he, ho⟩ := List.mem_filterMap.1 ho
      obtain ⟨r, hr, -⟩ := Pool.exists_victim he ho
      rw [hvictim] at hr
      cases hr

end

end Allocator

/-- The number of chosen ranges that have ended by a place. -/
def ended (vs : List Interval) (chosen : Temp → Bool) (place : Nat) : Nat :=
  vs.countP fun v => chosen v.temp && decide (v.stop ≤ place)

/-- The number of chosen ranges that a place lies in. -/
def holding (vs : List Interval) (chosen : Temp → Bool) (place : Nat) : Nat :=
  vs.countP fun v => chosen v.temp && decide (v.start ≤ place ∧ place < v.stop)

section

variable {vs : List Interval} {chosen chosen' : Temp → Bool} {v x : Interval} {place : Nat}

theorem ended_cons (v : Interval) (vs : List Interval) (chosen : Temp → Bool) (place : Nat) :
    ended (v :: vs) chosen place =
      ended vs chosen place + if chosen v.temp && decide (v.stop ≤ place) then 1 else 0 :=
  List.countP_cons

theorem holding_cons (v : Interval) (vs : List Interval) (chosen : Temp → Bool) (place : Nat) :
    holding (v :: vs) chosen place = holding vs chosen place +
      if chosen v.temp && decide (v.start ≤ place ∧ place < v.stop) then 1 else 0 :=
  List.countP_cons

theorem ended_congr (h : ∀ v ∈ vs, v.stop ≤ place → chosen v.temp = chosen' v.temp) :
    ended vs chosen place = ended vs chosen' place := by
  refine List.countP_congr fun v hv => ?_
  by_cases hstop : v.stop ≤ place
  · rw [h v hv hstop]
  · simp [hstop]

theorem ended_le_add_holding {start : Nat} (h : ∀ v ∈ vs, v.start ≤ start) (place : Nat) :
    ended vs chosen place ≤ ended vs chosen start + holding vs chosen start := by
  induction vs with
  | nil => exact Nat.le_refl _
  | cons v vs ih =>
    have hrest := ih fun u hu => h u (List.mem_cons_of_mem _ hu)
    have hstart := h v List.mem_cons_self
    rw [ended_cons, ended_cons, holding_cons]
    rcases Bool.eq_false_or_eq_true (chosen v.temp) with hc | hc
    · simp only [hc, Bool.true_and, decide_eq_true_eq]
      split <;> split <;> split <;> omega
    · simp only [hc, Bool.false_and, Bool.false_eq_true, if_false]
      omega

theorem add_length_le_ended {start : Nat} {os : List Interval} (hnodup : os.Nodup)
    (hos : ∀ o ∈ os, o ∈ vs ∧ chosen o.temp ∧ start < o.stop ∧ o.stop ≤ place)
    (hle : start ≤ place) : ended vs chosen start + os.length ≤ ended vs chosen place := by
  have hpart : os.length ≤ vs.countP fun v =>
      chosen v.temp && decide (start < v.stop ∧ v.stop ≤ place) := by
    rw [List.countP_eq_length_filter]
    refine (hnodup.subperm fun o ho => ?_).length_le
    obtain ⟨hmem, hc, hlate, hstop⟩ := hos o ho
    simp [hmem, hc, hlate, hstop]
  refine Nat.le_trans (Nat.add_le_add_left hpart _) ?_
  clear hpart hos hnodup
  induction vs with
  | nil => exact Nat.le_refl _
  | cons v vs ih =>
    rw [ended_cons, ended_cons, List.countP_cons]
    rcases Bool.eq_false_or_eq_true (chosen v.temp) with hc | hc
    · simp only [hc, Bool.true_and, decide_eq_true_eq]
      split <;> split <;> split <;> omega
    · simp only [hc, Bool.false_and, Bool.false_eq_true, if_false]
      omega

theorem eq_of_temp (honce : (vs.map Interval.temp).Nodup) (hv : v ∈ vs) (hx : x ∈ vs)
    (h : v.temp = x.temp) : v = x :=
  List.inj_on_of_nodup_map honce hv hx h

theorem ended_le_ended_ne (honce : (vs.map Interval.temp).Nodup) (chosen : Temp → Bool)
    (place : Nat) (t : Temp) :
    ended vs chosen place ≤ ended vs (fun u => decide (u ≠ t) && chosen u) place + 1 := by
  have hcount : (vs.countP fun v => decide (v.temp = t)) ≤ 1 := by
    have := List.nodup_iff_count_le_one.mp honce t
    rwa [List.count, List.countP_map] at this
  refine Nat.le_trans ?_ (Nat.add_le_add_left hcount _)
  clear hcount honce
  induction vs with
  | nil => exact Nat.le_refl _
  | cons v vs ih =>
    rw [ended_cons, ended_cons, List.countP_cons]
    by_cases ht : v.temp = t
    · simp only [ht, decide_true, if_true]
      split <;> split <;> omega
    · have hne : decide (v.temp = t) = false := decide_eq_false ht
      rw [decide_eq_true ht, Bool.true_and, hne]
      simp only [Bool.false_eq_true, if_false]
      omega

end

/-- However the ranges were chosen so that no four of them meet, as many of the ranges in registers
have ended by any later place. -/
def Ahead (now : Nat) (done : List Interval) (a : Allocator) : Prop :=
  ∀ chosen : Temp → Bool, (∀ i, holding done chosen i ≤ 3) →
    ∀ place, now ≤ place → ended done chosen place ≤ ended done a.keeps place

section

variable {f : Frame} {n now : Nat} {done : List Interval} {a : Allocator} {v : Interval}

/-- Setting the next range in its place stays ahead. Where the pool was full, a range that ends at
the latest is given up: before its end nothing is lost, and from its end on the three ranges that
the registers hold have ended as well, while a choice had three ranges at most at this place. -/
theorem Ahead.allocate (h : a.Fair f n now done) (hahead : Ahead now done a)
    (hnow : now ≤ v.start) (hv : v.temp < n) (hproper : v.start < v.stop)
    (honce : ((v :: done).map Interval.temp).Nodup) (hints : Array (Option Temp)) :
    Ahead v.start (v :: done) (a.allocate hints v) := by
  intro chosen hfits place hplace
  have hnew : ∀ u ∈ done, u.temp ≠ v.temp := by
    intro u hu he
    exact (List.nodup_cons.mp honce).1 (List.mem_map.mpr ⟨u, hu, he⟩)
  have hfits' : ∀ i, holding done chosen i ≤ 3 := by
    intro i
    have := hfits i
    rw [holding_cons] at this
    omega
  -- counting the range besides all that was kept
  have hkept : ∀ e, ended done (fun t => decide (t = v.temp) || a.keeps t) e =
      ended done a.keeps e :=
    fun e => ended_congr fun u hu _ => by simp [hnew u hu]
  have hgain : ∀ e, v.start ≤ e → ended (v :: done) chosen e ≤
      ended (v :: done) (fun t => decide (t = v.temp) || a.keeps t) e := by
    intro e he
    have hdone := hahead chosen hfits' e (Nat.le_trans hnow he)
    rw [ended_cons, ended_cons, hkept]
    simp only [decide_true, Bool.true_or, Bool.true_and, Bool.and_eq_true, decide_eq_true_eq]
    split <;> split <;> omega
  rw [Allocator.allocate_eq]
  have hrel := h.release hnow
  rcases Allocator.keeps_settle hrel hv hnew ((hints[v.temp]?).join.bind (a.homes[·]?)).join with
    hkeep | ⟨hfull, x, hx, hvx, hlatest, hkeep⟩
  · rw [funext hkeep]
    exact hgain place hplace
  · obtain ⟨hthree, hnodup, hoccupants⟩ := hrel.three_occupants hfull
    rw [funext hkeep]
    by_cases hlate : x.stop ≤ place
    · have hocc : ∀ o ∈ Allocator.occupants { a with pool := a.pool.release v.start },
          o ∈ done ∧ a.keeps o.temp ∧ v.start < o.stop ∧ o.stop ≤ place := by
        intro o ho
        obtain ⟨hdone, hkept⟩ := hoccupants o ho
        obtain ⟨e, he, heo⟩ := List.mem_filterMap.mp ho
        exact ⟨hdone, hkept, Pool.lt_of_release he heo, Nat.le_trans (hlatest o ho) hlate⟩
      have hall : ∀ u ∈ v :: done, u.start ≤ v.start := by
        intro u hu
        rcases List.mem_cons.mp hu with rfl | hu
        · exact Nat.le_refl _
        · exact hrel.started u hu
      have hlost := ended_le_ended_ne honce (fun t => decide (t = v.temp) || a.keeps t) place
        x.temp
      rw [ended_cons, hkept, if_pos (by simpa using Nat.le_trans hvx hlate)] at hlost
      calc ended (v :: done) chosen place
          ≤ ended (v :: done) chosen v.start + holding (v :: done) chosen v.start :=
            ended_le_add_holding hall place
        _ ≤ ended done chosen v.start + 3 := by
            have hholding := hfits v.start
            rw [ended_cons, if_neg (by simp; omega)]
            omega
        _ ≤ ended done a.keeps v.start + 3 :=
            Nat.add_le_add_right (hahead chosen hfits' v.start hnow) 3
        _ ≤ ended done a.keeps place := hthree ▸ add_length_le_ended hnodup hocc hplace
        _ ≤ _ := Nat.le_of_succ_le_succ hlost
    · -- the range that is given up has not ended, so it is not counted
      have hmem : x ∈ v :: done := by
        rcases hx with rfl | hx
        · exact List.mem_cons_self
        · exact List.mem_cons_of_mem _ (hoccupants x hx).1
      refine Nat.le_trans (hgain place hplace) (Nat.le_of_eq (ended_congr fun u hu hstop => ?_))
      have hne : u.temp ≠ x.temp := by
        intro he
        obtain rfl := eq_of_temp honce hu hmem he
        exact hlate hstop
      simp [hne]
      rfl

theorem Ahead.allocateAll (hints : Array (Option Temp)) {vs : List Interval}
    (h : a.Fair f n now done) (hahead : Ahead now done a)
    (hsorted : vs.Pairwise (·.start ≤ ·.start)) (hnow : ∀ v ∈ vs, now ≤ v.start)
    (hv : ∀ v ∈ vs, v.temp < n) (hproper : ∀ v ∈ vs, v.start < v.stop)
    (honce : ((vs.reverse ++ done).map Interval.temp).Nodup) :
    ∃ now', Ahead now' (vs.reverse ++ done) (vs.foldl (Allocator.allocate hints) a) := by
  induction vs generalizing a now done with
  | nil => exact ⟨now, hahead⟩
  | cons v vs ih =>
    rw [List.reverse_cons, List.append_assoc, List.singleton_append] at honce ⊢
    rw [List.pairwise_cons] at hsorted
    have hlater : ((v :: done).map Interval.temp).Nodup := by
      rw [List.map_append] at honce
      exact (List.nodup_append.mp honce).2.1
    have hnew : ∀ u ∈ done, u.temp ≠ v.temp := fun u hu he =>
      (List.nodup_cons.mp hlater).1 (List.mem_map.mpr ⟨u, hu, he⟩)
    have hfirst := hnow v List.mem_cons_self
    exact ih (h.allocate hfirst (hv v List.mem_cons_self) hnew hints)
      (hahead.allocate h hfirst (hv v List.mem_cons_self) (hproper v List.mem_cons_self) hlater
        hints)
      hsorted.2 hsorted.1 (fun u hu => hv u (List.mem_cons_of_mem _ hu))
      (fun u hu => hproper u (List.mem_cons_of_mem _ hu)) honce

end

/-- The temporaries whose home is a register. -/
def Allocation.inRegisters (a : Allocation) : Finset Temp :=
  (Finset.range a.homes.size).filter fun t => (a.home t).any fun h => !h.isSpill

namespace Program

/-- A place lies in the range of a temporary. -/
def needs (p : Program) (place : Nat) (t : Temp) : Bool :=
  (p.temps[t]?).any fun info => info.firstDef.any (· ≤ place) && info.stop.any (place < ·)

/-- Every value is used after the place that defines it. -/
def Used (p : Program) : Prop :=
  ∀ info ∈ p.temps.toList, info.firstDef.all fun first => info.lastUse.any (first < ·)

instance (p : Program) : Decidable p.Used :=
  inferInstanceAs (Decidable (∀ info ∈ p.temps.toList, _))

/-- Temporaries of a program that three registers could keep: each is defined, and no four of them
are needed at one place. -/
structure Keepable (p : Program) (kept : Finset Temp) : Prop where
  defined : ∀ t ∈ kept, t < p.temps.size ∧ ∃ i ∈ p.instructions, i.def? = some t
  fits : ∀ place, (kept.filter fun t => p.analyze.needs place t).card ≤ 3

theorem Used.proper {p : Program} (h : p.Used) : ∀ v ∈ p.intervals, v.start < v.stop := by
  intro v hv
  obtain ⟨info, hinfo, hstart, hstop⟩ := mem_ranges.1 (p.intervals_perm.mem_iff.1 hv)
  have hused := h info (Array.mem_toList_iff.2 (Array.mem_of_getElem? hinfo))
  rw [hstart, Option.all_some] at hused
  cases hlast : info.lastUse with
  | none => simp [hlast] at hused
  | some last =>
    have hlt : v.start < last := by simpa [hlast] using hused
    have hmax : max v.start last = v.stop := by
      simpa [TempInfo.stop, hstart, hlast] using hstop
    omega

theorem needs_interval {p : Program} {v : Interval} (hv : v ∈ p.intervals) (place : Nat) :
    p.needs place v.temp = decide (v.start ≤ place ∧ place < v.stop) := by
  obtain ⟨info, hinfo, hstart, hstop⟩ := mem_ranges.1 (p.intervals_perm.mem_iff.1 hv)
  simp [needs, hinfo, hstart, hstop]

theorem countP_intervals (p : Program) (chosen : Temp → Bool) :
    p.intervals.reverse.countP (fun v => chosen v.temp) =
      ((p.intervals.map Interval.temp).toFinset.filter fun t => chosen t).card := by
  have hnodup : (p.intervals.map Interval.temp).Nodup := List.pairwise_map.2 p.intervals_once
  rw [(List.reverse_perm _).countP_eq, ← List.toFinset_filter,
    List.toFinset_card_of_nodup (hnodup.filter _), ← List.countP_eq_length_filter, List.countP_map]
  rfl

theorem mem_temps_intervals (p : Program) (t : Temp) :
    t ∈ (p.analyze.intervals.map Interval.temp).toFinset ↔
      t < p.temps.size ∧ ∃ i ∈ p.instructions, i.def? = some t := by
  rw [List.mem_toFinset, List.mem_map, ← exists_range_iff]

theorem allocate_ahead (p : Program) (f : Frame) (hused : p.Used) (chosen : Temp → Bool)
    (hfits : ∀ i, holding p.intervals.reverse chosen i ≤ 3) :
    (p.intervals.reverse.countP fun v => chosen v.temp) ≤
      p.intervals.reverse.countP fun v => (p.allocateAlong f p.intervals).keeps v.temp := by
  have hstart : Ahead 0 []
      { homes := Array.replicate p.temps.size none, temps := p.temps, frame := f } :=
    fun _ _ _ _ => Nat.le_refl _
  have honce : ((p.intervals.reverse ++ []).map Interval.temp).Nodup := by
    rw [List.append_nil, List.map_reverse, List.nodup_reverse]
    exact List.pairwise_map.2 p.intervals_once
  obtain ⟨now, hahead⟩ := Ahead.allocateAll p.hints (Allocator.Fair.start p.temps f p.temps.size)
    hstart p.intervals_sorted (fun _ _ => Nat.zero_le _) p.intervals_temp_lt hused.proper honce
  rw [List.append_nil] at hahead
  -- at a place after every end, all the chosen ranges are counted
  obtain ⟨place, hplace⟩ := (now :: p.intervals.map Interval.stop).toFinset.exists_le
  have hall : ∀ c : Temp → Bool,
      ended p.intervals.reverse c place = p.intervals.reverse.countP fun v => c v.temp := by
    intro c
    refine List.countP_congr fun v hv => ?_
    have hstop : v.stop ≤ place :=
      hplace _ (by simpa using .inr ⟨v, List.mem_reverse.1 hv, rfl⟩)
    simp [hstop]
  have hend := hahead chosen hfits place (hplace _ (by simp))
  rwa [hall, hall] at hend

theorem exists_interval_of_home (p : Program) (f : Frame) {t : Temp} {home : Home}
    (h : (p.allocateAlong f p.intervals).homeOf t = some home) : ∃ v ∈ p.intervals, v.temp = t := by
  obtain ⟨now, hfair⟩ := p.allocate_fair f
  by_contra hnone
  rw [hfair.fresh t fun v hv he => hnone ⟨v, List.mem_reverse.1 hv, he⟩] at h
  cases h

theorem inRegisters_eq (p : Program) (f : Frame) :
    (p.allocate f).allocation.inRegisters = (p.intervals.map Interval.temp).toFinset.filter
      fun t => (p.allocateAlong f p.intervals).keeps t := by
  ext t
  have hkeeps : ((p.allocate f).allocation.home t).any (fun h => !h.isSpill) =
    (p.allocateAlong f p.intervals).keeps t := rfl
  rw [Allocation.inRegisters, Finset.mem_filter, Finset.mem_filter, hkeeps, Finset.mem_range,
    List.mem_toFinset, List.mem_map]
  refine and_congr_left fun hkept => ?_
  obtain ⟨home, hhome, -⟩ := (Option.any_eq_true _ _).1 hkept
  exact iff_of_true (Allocator.lt_of_homeOf hhome) (p.exists_interval_of_home f hhome)

theorem exists_register {a : Allocator} {t : Temp} (h : a.keeps t) :
    ∃ r, a.homeOf t = some (.reg r) := by
  obtain ⟨home, hhome, hreg⟩ := (Option.any_eq_true _ _).1 h
  cases home with
  | reg r => exact ⟨r, hhome⟩
  | spill addr => cases hreg

theorem Keepable.card_le {p : Program} {kept : Finset Temp} (h : p.Keepable kept)
    (hused : p.analyze.Used) (f : Frame) :
    kept.card ≤ (p.analyze.allocate f).allocation.inRegisters.card := by
  have hfits : ∀ i, holding p.analyze.intervals.reverse (fun t => decide (t ∈ kept)) i ≤ 3 := by
    intro i
    have hcongr : holding p.analyze.intervals.reverse (fun t => decide (t ∈ kept)) i =
        p.analyze.intervals.reverse.countP fun v =>
          decide (v.temp ∈ kept) && p.analyze.needs i v.temp :=
      List.countP_congr fun v hv => by rw [needs_interval (List.mem_reverse.1 hv)]
    rw [hcongr, p.analyze.countP_intervals fun t => decide (t ∈ kept) && p.analyze.needs i t]
    refine (Finset.card_le_card fun t ht => ?_).trans (h.fits i)
    simpa using (Finset.mem_filter.1 ht).2
  have hcount := p.analyze.allocate_ahead f hused _ hfits
  rw [p.analyze.countP_intervals fun t => decide (t ∈ kept), p.analyze.countP_intervals,
    ← inRegisters_eq] at hcount
  refine Nat.le_trans (Finset.card_le_card fun t ht => ?_) hcount
  rw [Finset.mem_filter, mem_temps_intervals]
  exact ⟨h.defined t ht, decide_eq_true ht⟩

/-- Three registers keep what the allocation keeps: values needed at one place differ in their
registers. -/
theorem keepable_inRegisters (p : Program) (f : Frame) :
    p.Keepable (p.analyze.allocate f).allocation.inRegisters where
  defined t ht := by
    rw [inRegisters_eq, Finset.mem_filter] at ht
    exact (p.mem_temps_intervals t).1 ht.1
  fits place := by
    obtain ⟨now, hfair⟩ := p.analyze.allocate_fair f
    rw [inRegisters_eq]
    refine (Finset.card_le_card_of_injOn (p.analyze.allocateAlong f p.analyze.intervals).homeOf
      (t := (Allocator.registers.map fun r => some (Home.reg r)).toFinset) ?_ ?_).trans (by decide)
    · intro t ht
      obtain ⟨r, hr⟩ := exists_register (Finset.mem_filter.1 (Finset.mem_filter.1 ht).1).2
      rw [hr]
      exact List.mem_toFinset.2 (List.mem_map.2 ⟨r, hfair.pooled t r hr, rfl⟩)
    · intro t ht u hu he
      obtain ⟨ht, htplace⟩ := Finset.mem_filter.1 ht
      obtain ⟨hu, huplace⟩ := Finset.mem_filter.1 hu
      obtain ⟨r, hr⟩ := exists_register (Finset.mem_filter.1 ht).2
      obtain ⟨v, hv, rfl⟩ := p.analyze.exists_interval_of_home f hr
      rw [hr] at he
      obtain ⟨w, hw, rfl⟩ := p.analyze.exists_interval_of_home f he.symm
      rw [needs_interval hv, decide_eq_true_eq] at htplace
      rw [needs_interval hw, decide_eq_true_eq] at huplace
      by_contra hne
      have := hfair.apart v (List.mem_reverse.2 hv) w (List.mem_reverse.2 hw) hne r hr he.symm
      omega

/-- The allocation keeps as many values in registers as three registers could keep, and it spills
nothing where no four values are needed at one place. -/
theorem allocate_keeps_most (p : Program) (f : Frame) (hused : p.analyze.Used) :
    IsGreatest { n | ∃ kept, p.Keepable kept ∧ kept.card = n }
        (p.analyze.allocate f).allocation.inRegisters.card ∧
      ((∀ place, ((Finset.range p.temps.size).filter fun t => p.analyze.needs place t).card ≤ 3) →
        (p.analyze.allocate f).allocation.spilled = 0) := by
  refine ⟨⟨⟨_, p.keepable_inRegisters f, rfl⟩, ?_⟩, ?_⟩
  · rintro n ⟨kept, hkept, rfl⟩
    exact hkept.card_le hused f
  · intro hfits
    have hall : p.Keepable (p.analyze.intervals.map Interval.temp).toFinset := by
      refine ⟨fun t => (p.mem_temps_intervals t).1, fun place => ?_⟩
      refine (Finset.card_le_card (Finset.filter_subset_filter _ fun t ht => ?_)).trans
        (hfits place)
      exact Finset.mem_range.2 ((p.mem_temps_intervals t).1 ht).1
    have hsub : (p.analyze.allocate f).allocation.inRegisters ⊆
        (p.analyze.intervals.map Interval.temp).toFinset := by
      rw [inRegisters_eq]
      exact Finset.filter_subset ..
    have heq := Finset.eq_of_subset_of_card_le hsub (hall.card_le hused f)
    -- a temporary with a slot would be one that has a range and no register
    refine Array.countP_eq_zero.2 fun home hmem hspill => ?_
    obtain ⟨t, ht⟩ := Array.getElem?_of_mem hmem
    obtain ⟨slot, rfl, hslot⟩ := (Option.any_eq_true _ _).1 hspill
    have hhome : (p.analyze.allocateAlong f p.analyze.intervals).homeOf t = some slot :=
      congrArg Option.join ht
    obtain ⟨v, hv, rfl⟩ := p.analyze.exists_interval_of_home f hhome
    have hkept : v.temp ∈ (p.analyze.allocate f).allocation.inRegisters := by
      rw [heq]
      exact List.mem_toFinset.2 (List.mem_map_of_mem hv)
    rw [inRegisters_eq, Finset.mem_filter, Allocator.keeps, hhome] at hkept
    simp [hslot] at hkept

/-- Of four values three are kept. -/
theorem crowded_keeps_most : crowded.analyze.Used ∧
    IsGreatest { n | ∃ kept, crowded.Keepable kept ∧ kept.card = n } 3 := by
  have heval : (crowded.analyze.allocateAlong ⟨-8⟩
      (crowded.analyze.ranges.insertionSort fun a b => a.le b)).homes =
      #[some (.spill (-16)), some (.reg 7), some (.reg 8), some (.reg 6)] := by decide +kernel
  rw [← intervals_eq] at heval
  have hkept : (crowded.analyze.allocate ⟨-8⟩).allocation.inRegisters =
      Allocation.inRegisters ⟨_⟩ := congrArg (fun homes => Allocation.inRegisters ⟨homes⟩) heval
  have hused : crowded.analyze.Used := by decide +kernel
  have hmost := (crowded.allocate_keeps_most ⟨-8⟩ hused).1
  rw [hkept] at hmost
  exact ⟨hused, hmost⟩

end Program

end TraceScript.Flow
