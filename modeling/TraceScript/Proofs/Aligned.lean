import TraceScript.Proofs.FewestSpills
import TraceScript.Proofs.RangeInsertion

namespace TraceScript.Flow

namespace Pool

variable {p : Pool} {k : Nat}

def shift (k : Nat) (p : Pool) : Pool :=
  p.map fun e => { e with occupant := e.occupant.map (Interval.shift k) }

theorem getElem_shift (p : Pool) (k i : Nat) : (p.shift k)[i]? =
    p[i]?.map fun e => { e with occupant := e.occupant.map (Interval.shift k) } :=
  List.getElem?_map ..

theorem release_shift (p : Pool) (k start : Nat) :
    (p.shift k).release (start + k) = (p.release start).shift k := by
  rw [release, shift, release, shift, List.map_map, List.map_map]
  refine List.map_congr_left fun e _ => ?_
  cases ho : e.occupant with
  | none => simp [ho]
  | some o =>
    by_cases hstop : o.stop ≤ start
    · simp [ho, hstop, Interval.shift]
    · simp [ho, hstop, Interval.shift]

theorem free_shift (p : Pool) (k : Nat) (wanted : Option Home) :
    (p.shift k).free wanted = p.free wanted := by
  rw [free, free, shift, List.findIdx?_map, List.findIdx?_map]
  simp only [Function.comp_def, Option.isNone_map]

theorem longer_shift (best : Option (Nat × Interval)) (e : PoolEntry) (i k : Nat) :
    longer (best.map fun r => (r.1, r.2.shift k))
        { e with occupant := e.occupant.map (Interval.shift k) } i =
      (longer best e i).map fun r => (r.1, r.2.shift k) := by
  cases ho : e.occupant with
  | none => cases best <;> simp [longer, ho]
  | some o =>
    cases best with
    | none => simp [longer, ho]
    | some r =>
      by_cases hle : r.2.stop ≤ o.stop
      · simp [longer, ho, hle, Interval.shift]
      · simp [longer, ho, hle, Interval.shift]

theorem victim_shift (p : Pool) (k : Nat) :
    (p.shift k).victim = p.victim.map fun r => (r.1, r.2.shift k) := by
  have hfold : ∀ (l : List (PoolEntry × Nat)) (best : Option (Nat × Interval)),
      (l.map fun x => ({ x.1 with occupant := x.1.occupant.map (Interval.shift k) }, x.2)).foldl
          (fun best x => longer best x.1 x.2) (best.map fun r => (r.1, r.2.shift k)) =
        (l.foldl (fun best x => longer best x.1 x.2) best).map fun r => (r.1, r.2.shift k) := by
    intro l
    induction l with
    | nil => exact fun _ => rfl
    | cons x l ih =>
      intro best
      rw [List.map_cons, List.foldl_cons, List.foldl_cons, longer_shift]
      exact ih _
  have hzip : (p.shift k).zipIdx = p.zipIdx.map fun x =>
      ({ x.1 with occupant := x.1.occupant.map (Interval.shift k) }, x.2) := by
    rw [shift, List.zipIdx_map]
    rfl
  rw [victim, hzip]
  exact hfold _ none

end Pool

/-- Two allocators with the same homes for a number of temporaries and the same frame, of which the
second has its ranges moved. The temporaries that only the second has got homes are not in the pool. -/
structure Aligned (n k : Nat) (own : Temp → Option Home) (a b : Allocator) : Prop where
  size : a.homes.size = n
  count : n ≤ b.homes.size
  homes : ∀ t, b.homeOf t = if t < n then a.homeOf t else own t
  frame : b.frame = a.frame
  pool : b.pool = a.pool.shift k
  tenants : ∀ e ∈ a.pool, ∀ o, e.occupant = some o → o.temp < n

namespace Aligned

variable {n k : Nat} {own : Temp → Option Home} {a b : Allocator}

theorem release (h : Aligned n k own a b) (start : Nat) :
    Aligned n k own { a with pool := a.pool.release start }
      { b with pool := b.pool.release (start + k) } where
  size := h.size
  count := h.count
  homes := h.homes
  frame := h.frame
  pool := by
    dsimp only
    rw [h.pool, Pool.release_shift]
  tenants e he o ho := by
    obtain ⟨e', he', rfl⟩ := List.mem_map.1 he
    split at ho
    · cases ho
    · exact h.tenants e' he' o ho

theorem homes_set (h : Aligned n k own a b) {t : Temp} (ht : t < n) (home : Home) (u : Temp) :
    ((b.homes.setIfInBounds t (some home))[u]?).join =
      if u < n then ((a.homes.setIfInBounds t (some home))[u]?).join else own u := by
  have hhome : (b.homes[u]?).join = if u < n then (a.homes[u]?).join else own u := h.homes u
  rw [Allocator.homeOf_set (ht.trans_le h.count), Allocator.homeOf_set (h.size.symm ▸ ht), hhome]
  by_cases hu : u = t
  · rw [if_pos hu, if_pos (hu ▸ ht), if_pos hu]
  · rw [if_neg hu, if_neg hu]

theorem spill (h : Aligned n k own a b) {t : Temp} (ht : t < n) :
    Aligned n k own (a.spill t) (b.spill t) where
  size := (Allocator.size_spill a t).trans h.size
  count := h.count.trans_eq (Allocator.size_spill b t).symm
  homes u := by
    have hset := h.homes_set ht (.spill (a.frame.reserve 8).1) u
    have hb : (b.spill t).homes = b.homes.setIfInBounds t (some (.spill (a.frame.reserve 8).1)) := by
      rw [← h.frame]
      rfl
    rw [Allocator.homeOf, hb]
    exact hset
  frame := congrArg (fun f : Frame => (f.reserve 8).2) h.frame
  pool := h.pool
  tenants := h.tenants

theorem occupy (h : Aligned n k own a b) (i : Nat) {v : Interval} (hv : v.temp < n) :
    Aligned n k own (a.occupy i v) (b.occupy i (v.shift k)) := by
  have hentry := h.pool ▸ Pool.getElem_shift a.pool k i
  rw [Allocator.occupy, Allocator.occupy, hentry]
  cases hi : a.pool[i]? with
  | none => exact h
  | some e =>
    refine ⟨?_, ?_, h.homes_set hv _, h.frame, ?_, fun x hx o ho => ?_⟩
    · exact (Array.size_setIfInBounds ..).trans h.size
    · exact h.count.trans_eq (Array.size_setIfInBounds ..).symm
    · dsimp only
      rw [h.pool, Pool.shift, Pool.shift, List.map_set]
      rfl
    · rcases List.mem_or_eq_of_mem_set hx with hx | rfl
      · exact h.tenants x hx o ho
      · obtain rfl := Option.some.inj ho
        exact hv

/-- The same register is free in both pools, or the same range is given up. -/
theorem settle (h : Aligned n k own a b) (wanted : Option Home) {v : Interval} (hv : v.temp < n) :
    Aligned n k own (a.settle wanted v) (b.settle wanted (v.shift k)) := by
  rw [Allocator.settle, Allocator.settle, h.pool, Pool.free_shift, Pool.victim_shift]
  cases a.pool.free wanted with
  | some i => exact h.occupy i hv
  | none =>
    cases hvictim : a.pool.victim with
    | none => exact h.spill hv
    | some r =>
      obtain ⟨i, o⟩ := r
      obtain ⟨e, hi, ho⟩ := Pool.victim_ok hvictim
      have hshorter : (v.shift k).stop < (o.shift k).stop ↔ v.stop < o.stop :=
        Nat.add_lt_add_iff_right
      simp only [Option.map_some, hshorter]
      split
      · exact (h.spill (h.tenants e (List.mem_of_getElem? hi) o ho)).occupy i hv
      · exact h.spill hv

end Aligned

/-- The allocators are aligned when the ranges that have ended by any later place are dropped. -/
def AlignedFrom (now n k : Nat) (own : Temp → Option Home) (a b : Allocator) : Prop :=
  ∀ start, now ≤ start → Aligned n k own { a with pool := a.pool.release start }
    { b with pool := b.pool.release (start + k) }

namespace AlignedFrom

variable {now n k : Nat} {own : Temp → Option Home} {a b : Allocator}

theorem start {m : Nat} (hle : n ≤ m) (temps temps' : Array TempInfo) (f : Frame) :
    AlignedFrom 0 n 0 (fun _ => none)
      { homes := Array.replicate n none, temps, frame := f }
      { homes := Array.replicate m none, temps := temps', frame := f } := by
  intro start _
  refine Aligned.release ?_ start
  refine ⟨Array.size_replicate, hle.trans_eq Array.size_replicate.symm, fun t => ?_, rfl, rfl,
    fun e he o ho => ?_⟩
  · have hnone : ∀ j : Nat, ((Array.replicate j (none : Option Home))[t]?).join = none := by
      intro j
      rw [Array.getElem?_replicate]
      split <;> rfl
    change ((Array.replicate m none)[t]?).join = if t < n then _ else _
    rw [hnone m]
    split
    · exact (hnone n).symm
    · rfl
  · simp only [Pool.empty, List.mem_cons, List.not_mem_nil, or_false] at he
    rcases he with rfl | rfl | rfl <;> cases ho

variable {hints hints' : Array (Option Temp)}

/-- The next range is treated alike. What it might share a register with is a temporary of both. -/
theorem allocate (h : AlignedFrom now n k own a b) {v : Interval} (hnow : now ≤ v.start)
    (hv : v.temp < n) (hhint : (hints'[v.temp]?).join = (hints[v.temp]?).join)
    (hsource : ∀ src, (hints[v.temp]?).join = some src → src < n) :
    AlignedFrom v.start n k own (a.allocate hints v) (b.allocate hints' (v.shift k)) := by
  have hreleased := h v.start hnow
  have hwanted : ((hints'[v.temp]?).join.bind (b.homes[·]?)).join =
      ((hints[v.temp]?).join.bind (a.homes[·]?)).join := by
    rw [hhint]
    cases hsrc : (hints[v.temp]?).join with
    | none => rfl
    | some src => exact (hreleased.homes src).trans (if_pos (hsource src hsrc))
  intro start _
  rw [Allocator.allocate_eq, Allocator.allocate_eq]
  refine Aligned.release ?_ start
  change Aligned n k own _ (Allocator.settle _ ((hints'[v.temp]?).join.bind _).join _)
  rw [hwanted]
  exact hreleased.settle _ hv

theorem mono (h : AlignedFrom now n k own a b) {later : Nat} (hle : now ≤ later) :
    AlignedFrom later n k own a b :=
  fun start hstart => h start (hle.trans hstart)

theorem allocateAll (h : AlignedFrom now n k own a b) {vs : List Interval} (last : Nat)
    (hsorted : vs.Pairwise (·.start ≤ ·.start)) (hnow : ∀ v ∈ vs, now ≤ v.start)
    (hlast : now ≤ last ∧ ∀ v ∈ vs, v.start ≤ last) (hvs : ∀ v ∈ vs, v.temp < n)
    (hhint : ∀ t < n, (hints'[t]?).join = (hints[t]?).join)
    (hsource : ∀ t < n, ∀ src, (hints[t]?).join = some src → src < n) :
    AlignedFrom last n k own (vs.foldl (Allocator.allocate hints) a)
      ((vs.map (Interval.shift k)).foldl (Allocator.allocate hints') b) := by
  induction vs generalizing now a b with
  | nil => exact h.mono hlast.1
  | cons v vs ih =>
    rw [List.pairwise_cons] at hsorted
    have hv := hvs v List.mem_cons_self
    have hstep := h.allocate (hnow v List.mem_cons_self) hv (hhint _ hv) (hsource _ hv)
    exact ih hstep hsorted.2 hsorted.1 ⟨hlast.2 v List.mem_cons_self, fun u hu =>
      hlast.2 u (List.mem_cons_of_mem _ hu)⟩ fun u hu => hvs u (List.mem_cons_of_mem _ hu)

end AlignedFrom

namespace Pool

theorem release_eq_empty {p : Pool} (hregs : p.map PoolEntry.reg = Allocator.registers) {start : Nat}
    (hended : ∀ e ∈ p, ∀ o, e.occupant = some o → o.stop ≤ start) : p.release start = empty := by
  have hfree : p.release start = (p.map PoolEntry.reg).map fun r => { reg := r } := by
    rw [release, List.map_map]
    refine List.map_congr_left fun e he => ?_
    cases ho : e.occupant with
    | none =>
      obtain ⟨reg, occupant⟩ := e
      obtain rfl : occupant = none := ho
      rfl
    | some o => simp [hended e he o ho]
  rw [hfree, hregs]
  rfl

end Pool

namespace Allocator

theorem settle_of_empty {a : Allocator} (hpool : a.pool = .empty) {wanted : Option Home}
    (hwanted : wanted = none ∨ wanted = some (.reg 6)) (v : Interval) :
    a.settle wanted v =
      { a with
        pool := [⟨6, some v⟩, ⟨7, none⟩, ⟨8, none⟩]
        homes := a.homes.setIfInBounds v.temp (some (.reg 6)) } := by
  have hfree : Pool.empty.free wanted = some 0 := by
    rcases hwanted with rfl | rfl <;> rfl
  rw [settle, hpool, hfree]
  dsimp only
  rw [occupy, hpool]
  rfl

theorem allocateAll_unchanged {α : Type} {f : Allocator → α}
    (hpool : ∀ (a : Allocator) pool, f { a with pool } = f a)
    (hoccupy : ∀ (a : Allocator) i v, f (a.occupy i v) = f a)
    (hspill : ∀ (a : Allocator) t, f (a.spill t) = f a) (hints : Array (Option Temp))
    (vs : List Interval) (a : Allocator) : f (vs.foldl (allocate hints) a) = f a := by
  have hsettle : ∀ (a : Allocator) wanted v, f (a.settle wanted v) = f a := by
    intro a wanted v
    rw [settle]
    split
    · exact hoccupy ..
    · split
      · split
        · rw [hoccupy, hspill]
        · exact hspill ..
      · exact hspill ..
  induction vs generalizing a with
  | nil => rfl
  | cons v vs ih => rw [List.foldl_cons, ih, allocate_eq, hsettle, hpool]

theorem size_allocateAll (hints : Array (Option Temp)) (vs : List Interval) (a : Allocator) :
    (vs.foldl (allocate hints) a).homes.size = a.homes.size := by
  refine allocateAll_unchanged (f := (·.homes.size)) (fun _ _ => rfl) (fun a i v => ?_)
    (fun a t => a.size_spill t) hints vs a
  rw [occupy]
  split
  · rfl
  · exact Array.size_setIfInBounds ..

theorem size_temps_allocateAll (hints : Array (Option Temp)) (vs : List Interval) (a : Allocator) :
    (vs.foldl (allocate hints) a).temps.size = a.temps.size := by
  refine allocateAll_unchanged (f := (·.temps.size)) (fun _ _ => rfl) (fun a i v => ?_)
    (fun a t => Array.size_modify) hints vs a
  rw [occupy]
  split <;> rfl

end Allocator

/-- A range that takes over the register of a range before it, after all others have ended. When both
are over, the allocation goes on as if they had not been there. -/
theorem AlignedFrom.two_ranges {now n : Nat} {own : Temp → Option Home} {a b : Allocator}
    {hints : Array (Option Temp)} (h : AlignedFrom now n 0 own a b)
    (hregs : a.pool.map PoolEntry.reg = Allocator.registers)
    (hended : ∀ e ∈ a.pool, ∀ o, e.occupant = some o → o.stop ≤ now)
    (hcount : b.homes.size = n + 2) (hfirst : (hints[n]?).join = none)
    (hsecond : (hints[n + 1]?).join = some n) :
    let b' := [⟨now, now + 1, n⟩, ⟨now + 1, now + 3, n + 1⟩].foldl (Allocator.allocate hints) b
    b'.homeOf n = some (.reg 6) ∧ b'.homeOf (n + 1) = some (.reg 6) ∧
      AlignedFrom now n 4 b'.homeOf a b' := by
  have hfree : ∀ start, now ≤ start → a.pool.release start = .empty := fun start hstart =>
    Pool.release_eq_empty hregs fun e he o ho => (hended e he o ho).trans hstart
  have hn : n < b.homes.size := by omega
  have hn' : n + 1 < (b.homes.setIfInBounds n (some (.reg 6))).size := by
    rw [Array.size_setIfInBounds]
    omega
  have hnow := h now (Nat.le_refl _)
  have hempty : b.pool.release now = .empty := by
    have hpool := hnow.pool
    dsimp only at hpool
    rw [Nat.add_zero, hfree now (Nat.le_refl _)] at hpool
    exact hpool
  -- the first range finds all registers free
  have hstep₁ : b.allocate hints ⟨now, now + 1, n⟩ =
      { b with
        pool := [⟨6, some ⟨now, now + 1, n⟩⟩, ⟨7, none⟩, ⟨8, none⟩]
        homes := b.homes.setIfInBounds n (some (.reg 6)) } := by
    rw [Allocator.allocate_eq, Allocator.settle_of_empty hempty (.inl (by rw [hfirst]; rfl))]
  -- the second one starts where the first one ends, and wants its register
  have hstep₂ : Allocator.allocate hints
      { b with
        pool := [⟨6, some ⟨now, now + 1, n⟩⟩, ⟨7, none⟩, ⟨8, none⟩]
        homes := b.homes.setIfInBounds n (some (.reg 6)) } ⟨now + 1, now + 3, n + 1⟩ =
      { b with
        pool := [⟨6, some ⟨now + 1, now + 3, n + 1⟩⟩, ⟨7, none⟩, ⟨8, none⟩]
        homes := (b.homes.setIfInBounds n (some (.reg 6))).setIfInBounds (n + 1)
          (some (.reg 6)) } := by
    have hreleased : Pool.release [⟨6, some ⟨now, now + 1, n⟩⟩, ⟨7, none⟩, ⟨8, none⟩] (now + 1) =
        .empty := by
      simp [Pool.release, Pool.empty]
    have hwanted : (((hints[n + 1]?).join.bind fun t =>
        (b.homes.setIfInBounds n (some (.reg 6)))[t]?).join) = some (.reg 6) := by
      rw [hsecond, Option.bind_some, Allocator.homeOf_set hn, if_pos rfl]
    rw [Allocator.allocate_eq, Allocator.settle_of_empty hreleased (.inr hwanted)]
  intro b'
  have hb' : b' = _ := (congrArg (Allocator.allocate hints · _) hstep₁).trans hstep₂
  have hhome : ∀ t, b'.homeOf t =
      if t = n + 1 then some (.reg 6) else if t = n then some (.reg 6) else b.homeOf t := by
    intro t
    rw [hb', Allocator.homeOf, Allocator.homeOf_set hn', Allocator.homeOf_set hn]
    rfl
  refine ⟨by simp [hhome], by simp [hhome], fun start hstart => ?_⟩
  have hreleased : b'.pool.release (start + 4) = .empty := by
    rw [hb']
    have hlate : now + 3 ≤ start + 4 := by omega
    simp [Pool.release, Pool.empty, hlate]
  have hold := h start hstart
  refine ⟨hold.size, ?_, fun t => ?_, ?_, ?_, ?_⟩
  · rw [hb']
    simp [hcount]
  · change b'.homeOf t = if t < n then a.homeOf t else b'.homeOf t
    split
    · rename_i ht
      rw [hhome, if_neg (Nat.ne_of_lt (Nat.lt_succ_of_lt ht)), if_neg (Nat.ne_of_lt ht)]
      exact (hold.homes t).trans (if_pos ht)
    · rfl
  · rw [hb']
    exact hold.frame
  · dsimp only
    rw [hreleased, hfree start hstart]
    rfl
  · exact hold.tenants

/-- Reads a variable, changes it by a constant and writes it back. -/
def selfUpdate (t : Temp) (op : ArithOp) (value : Int32) (addr : Int) : List Instruction :=
  [.load t addr, .move (t + 1) t, .arith op (t + 1) (t + 1) (.imm value), .store (t + 1) addr]

namespace Program.Inserts

variable {p q : Program} {before after : List Instruction} {op : ArithOp} {value : Int32}
  {addr : Int}

theorem ownRanges_selfUpdate (hcount : q.temps.size = p.temps.size + 2) :
    ownRanges p q (selfUpdate p.temps.size op value addr) =
      [⟨0, 1, p.temps.size⟩, ⟨1, 3, p.temps.size + 1⟩] := by
  rw [ownRanges, hcount, Nat.add_sub_cancel_left]
  simp [List.range', spanOf, selfUpdate, lastRead, Instruction.def?, Instruction.uses,
    Operand.temps, List.findIdx?_cons]

section

variable {added : List Instruction}

theorem stop_lt (h : Inserts p q before added after) {v : Interval}
    (hv : v ∈ p.analyze.intervals) (hstart : v.start < before.length) : v.stop < before.length := by
  have hmem := p.analyze.intervals_perm.mem_iff.1 hv
  rw [ranges_analyze h.oldLocal, h.old] at hmem
  obtain ⟨t, -, hspan⟩ := List.mem_filterMap.1 hmem
  by_cases hmentions : Mentions before t
  · rw [spanOf_append_left (h.apart t hmentions)] at hspan
    obtain ⟨first, hfirst, rfl⟩ := Option.map_eq_some_iff.1 hspan
    refine max_lt hstart ?_
    cases hread : lastRead t before with
    | none => exact hstart
    | some last =>
      obtain ⟨⟨i, hi, -⟩, -⟩ := lastRead_spec hread
      exact (List.getElem?_eq_some_iff.1 hi).1
  · rw [spanOf_append_right hmentions] at hspan
    obtain ⟨w, -, rfl⟩ := Option.map_eq_some_iff.1 hspan
    exact (Nat.not_lt.2 (Nat.le_add_left ..) hstart).elim

theorem allocateAlong_append (p : Program) (f : Frame) (vs ws : List Interval) :
    p.allocateAlong f (vs ++ ws) =
      ws.foldl (Allocator.allocate p.hints) (p.allocateAlong f vs) :=
  List.foldl_append

theorem temp_lt_of_mem {v : Interval} (hv : v ∈ p.analyze.intervals) : v.temp < p.temps.size := by
  rw [← size_temps_analyze]
  exact p.analyze.intervals_temp_lt v hv

theorem aligned_early (h : Inserts p q before added after) (f : Frame) :
    AlignedFrom before.length p.temps.size 0 (fun _ => none)
      (p.analyze.allocateAlong f (p.analyze.intervals.filter (·.start < before.length)))
      (q.analyze.allocateAlong f (p.analyze.intervals.filter (·.start < before.length))) := by
  have hmem : ∀ v ∈ p.analyze.intervals.filter (·.start < before.length),
      v ∈ p.analyze.intervals ∧ v.start < before.length := fun v hv =>
    ⟨(List.mem_filter.1 hv).1, of_decide_eq_true (List.mem_filter.1 hv).2⟩
  have hstart := AlignedFrom.start h.count p.analyze.temps q.analyze.temps f
  have hrun := hstart.allocateAll before.length (p.analyze.intervals_sorted.filter _)
    (fun _ _ => Nat.zero_le _) ⟨Nat.zero_le _, fun v hv => (hmem v hv).2.le⟩
    (fun v hv => temp_lt_of_mem (hmem v hv).1) (fun t ht => h.hint_old ht)
    fun t ht src => h.hint_lt ht
  rw [List.map_congr_left fun v _ => v.shift_zero, List.map_id'] at hrun
  rw [allocateAlong, allocateAlong, size_temps_analyze, size_temps_analyze]
  exact hrun

theorem ended_early (h : Inserts p q before added after) (f : Frame) :
    let a := p.analyze.allocateAlong f (p.analyze.intervals.filter (·.start < before.length))
    a.pool.map PoolEntry.reg = Allocator.registers ∧
      ∀ e ∈ a.pool, ∀ o, e.occupant = some o → o.stop ≤ before.length := by
  obtain ⟨now, hfair⟩ :=
    (Allocator.Fair.start p.analyze.temps f p.analyze.temps.size).allocateAll p.analyze.hints
      (p.analyze.intervals_sorted.filter (·.start < before.length)) (fun _ _ => Nat.zero_le _)
      (fun v hv => p.analyze.intervals_temp_lt v (List.mem_filter.1 hv).1)
      (p.analyze.intervals_once.filter _) fun v _ u hu => (List.not_mem_nil hu).elim
  refine ⟨hfair.regs, fun e he o ho => ?_⟩
  obtain ⟨i, hi⟩ := List.getElem?_of_mem he
  have hdone := (hfair.occupied i e o hi ho).1
  rw [List.append_nil, List.mem_reverse, List.mem_filter] at hdone
  exact (h.stop_lt hdone.1 (of_decide_eq_true hdone.2)).le

end

/-- The two new temporaries share the first register one after the other. Before them everything is
as it was, and after them the registers are as free as they were. -/
theorem allocate_selfUpdate
    (h : Inserts p q before (selfUpdate p.temps.size op value addr) after)
    (hcount : q.temps.size = p.temps.size + 2) (f : Frame) :
    let a := p.analyze.allocate f
    let b := q.analyze.allocate f
    b.frame = a.frame ∧ (∀ t < p.temps.size, b.allocation.home t = a.allocation.home t) ∧
      b.allocation.home p.temps.size = some (.reg 6) ∧
      b.allocation.home (p.temps.size + 1) = some (.reg 6) := by
  have hown : ownRanges p q (selfUpdate p.temps.size op value addr) = _ := ownRanges_selfUpdate hcount
  have hintervals := h.intervals_eq (by rw [hown]; simp [Interval.le])
  have hmoved : [⟨0, 1, p.temps.size⟩, ⟨1, 3, p.temps.size + 1⟩].map
      (Interval.shift before.length) = [⟨before.length, before.length + 1, p.temps.size⟩,
        ⟨before.length + 1, before.length + 3, p.temps.size + 1⟩] := by
    simp [Interval.shift, Nat.add_comm]
  have hlength : (selfUpdate p.temps.size op value addr).length = 4 := rfl
  rw [hown, hmoved, hlength] at hintervals
  have hhint : (q.analyze.hints[p.temps.size]?).join = none := by
    rw [h.hint_own (Nat.le_refl _) (hcount.symm ▸ Nat.lt_add_of_pos_right Nat.two_pos)]
    simp [selfUpdate, List.findSome?_cons, movedTo?]
  have hhint' : (q.analyze.hints[p.temps.size + 1]?).join = some p.temps.size := by
    rw [h.hint_own (Nat.le_succ _) (hcount.symm ▸ Nat.lt_succ_self _)]
    simp [selfUpdate, List.findSome?_cons, movedTo?]
  -- the ranges before the place come first, then the two new ones, then the others
  obtain ⟨hregs, hended⟩ := h.ended_early f
  obtain ⟨hload, hmove, hsecond⟩ := (h.aligned_early f).two_ranges hregs hended
    (by rw [allocateAlong, Allocator.size_allocateAll, Array.size_replicate, size_temps_analyze,
      hcount]) hhint hhint'
  have hmem : ∀ v ∈ p.analyze.intervals.filter (before.length ≤ ·.start),
      v ∈ p.analyze.intervals ∧ before.length ≤ v.start := fun v hv =>
    ⟨(List.mem_filter.1 hv).1, of_decide_eq_true (List.mem_filter.1 hv).2⟩
  obtain ⟨last, hlast⟩ := (before.length :: p.analyze.intervals.map Interval.start).toFinset.exists_le
  have hthird := hsecond.allocateAll last (p.analyze.intervals_sorted.filter _)
    (fun v hv => (hmem v hv).2)
    ⟨hlast _ (by simp), fun v hv => hlast _ (by simpa using .inr ⟨v, (hmem v hv).1, rfl⟩)⟩
    (fun v hv => temp_lt_of_mem (hmem v hv).1) (fun t ht => h.hint_old ht)
    fun t ht src => h.hint_lt ht
  rw [← allocateAlong_append p.analyze, ← intervals_split, ← allocateAlong_append q.analyze,
    ← allocateAlong_append q.analyze, List.append_assoc, ← hintervals] at hthird
  rw [← allocateAlong_append] at hload hmove
  have haligned := hthird last (Nat.le_refl _)
  refine ⟨haligned.frame, fun t ht => (haligned.homes t).trans (if_pos ht), ?_, ?_⟩
  · exact (haligned.homes _).trans ((if_neg (Nat.lt_irrefl _)).trans hload)
  · exact (haligned.homes _).trans ((if_neg (Nat.not_lt.2 (Nat.le_succ _))).trans hmove)

end Program.Inserts

end TraceScript.Flow
