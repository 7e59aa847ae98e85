import TraceScript.Proofs.ExactRanges
import TraceScript.Proofs.FewestSpills

namespace TraceScript.Flow

/-- The last place at which code reads a temporary. -/
def lastRead (t : Temp) : List Instruction → Option Nat
  | [] => none
  | i :: code =>
    match lastRead t code with
    | some k => some (k + 1)
    | none => if t ∈ i.uses then some 0 else none

/-- The range of a temporary in code. -/
def spanOf (code : List Instruction) (t : Temp) : Option Interval :=
  (code.findIdx? fun i => i.def? = some t).map fun first =>
    ⟨first, max first ((lastRead t code).getD first), t⟩

/-- Code defines a temporary or reads it. -/
def Mentions (code : List Instruction) (t : Temp) : Prop := t ∈ defs code ∨ t ∈ reads code

theorem mentions_append {c d : List Instruction} {t : Temp} :
    Mentions (c ++ d) t ↔ Mentions c t ∨ Mentions d t := by
  simp only [Mentions, defs_append, reads, List.flatMap_append, List.mem_append]
  tauto

section

variable {t : Temp} {code : List Instruction}

theorem lastRead_eq_none : lastRead t code = none ↔ t ∉ reads code := by
  induction code with
  | nil => simp [lastRead, reads]
  | cons i code ih =>
    have hcons : reads (i :: code) = i.uses ++ reads code := List.flatMap_cons ..
    rw [hcons, List.mem_append, not_or, ← ih, lastRead]
    cases lastRead t code with
    | none => simp
    | some k => simp

theorem lastRead_spec {k : Nat} (h : lastRead t code = some k) :
    (∃ i, code[k]? = some i ∧ t ∈ i.uses) ∧
      ∀ (j : Nat) (i : Instruction), code[j]? = some i → t ∈ i.uses → j ≤ k := by
  induction code generalizing k with
  | nil => cases h
  | cons x code ih =>
    rw [lastRead] at h
    cases hlast : lastRead t code with
    | some l =>
      rw [hlast] at h
      obtain rfl := Option.some.inj h
      obtain ⟨⟨i, hi, hu⟩, hmax⟩ := ih hlast
      refine ⟨⟨i, by rwa [List.getElem?_cons_succ], hu⟩, fun j y hj hy => ?_⟩
      cases j with
      | zero => exact Nat.zero_le _
      | succ j =>
        rw [List.getElem?_cons_succ] at hj
        exact Nat.succ_le_succ (hmax j y hj hy)
    | none =>
      rw [hlast] at h
      dsimp only at h
      split at h
      · rename_i hu
        obtain rfl := Option.some.inj h
        refine ⟨⟨x, rfl, hu⟩, fun j y hj hy => ?_⟩
        cases j with
        | zero => exact Nat.le_refl _
        | succ j =>
          rw [List.getElem?_cons_succ] at hj
          exact (lastRead_eq_none.1 hlast
            (List.mem_flatMap.2 ⟨y, List.mem_of_getElem? hj, hy⟩)).elim
      · cases h

theorem lastRead_append (t : Temp) (c d : List Instruction) :
    lastRead t (c ++ d) = ((lastRead t d).map (· + c.length)).or (lastRead t c) := by
  induction c with
  | nil => cases hd : lastRead t d <;> simp [lastRead, hd]
  | cons i c ih =>
    rw [List.cons_append, lastRead, ih, lastRead]
    cases lastRead t d with
    | none => simp
    | some k => simp; omega

theorem findIdx_def_eq_none : (code.findIdx? fun i => i.def? = some t) = none ↔ t ∉ defs code := by
  rw [List.findIdx?_eq_none_iff, mem_defs]
  simp

theorem findIdx_def_lt {k : Nat} (h : (code.findIdx? fun i => i.def? = some t) = some k) :
    k < code.length :=
  (List.findIdx?_eq_some_iff_getElem.1 h).1

end

namespace Interval

def shift (k : Nat) (v : Interval) : Interval := ⟨v.start + k, v.stop + k, v.temp⟩

/-- The range after some instructions have been put in at a place. -/
def move (place k : Nat) (v : Interval) : Interval := if v.start < place then v else v.shift k

@[simp] theorem shift_zero (v : Interval) : v.shift 0 = v := rfl

theorem shift_shift (j k : Nat) (v : Interval) : (v.shift j).shift k = v.shift (j + k) := by
  simp [shift, Nat.add_assoc]

theorem le_shift (k : Nat) (v w : Interval) : (v.shift k).le (w.shift k) = v.le w := by
  grind [le, shift]

end Interval

section

variable {t : Temp} {before added after : List Instruction}

theorem spanOf_append_left (h : ¬Mentions after t) : spanOf (before ++ after) t = spanOf before t := by
  obtain ⟨hdefs, hreads⟩ := not_or.1 h
  rw [spanOf, spanOf, List.findIdx?_append, findIdx_def_eq_none.2 hdefs, lastRead_append,
    lastRead_eq_none.2 hreads]
  simp

theorem spanOf_append_right (h : ¬Mentions before t) :
    spanOf (before ++ after) t = (spanOf after t).map (Interval.shift before.length) := by
  obtain ⟨hdefs, hreads⟩ := not_or.1 h
  rw [spanOf, spanOf, List.findIdx?_append, findIdx_def_eq_none.2 hdefs, lastRead_append,
    lastRead_eq_none.2 hreads, Option.none_or, Option.or_none, Option.map_map, Option.map_map]
  refine Option.map_congr fun first _ => ?_
  cases lastRead t after with
  | none => simp [Interval.shift]
  | some last => simp [Interval.shift]

theorem spanOf_insert (hadded : ¬Mentions added t)
    (hapart : Mentions before t → ¬Mentions after t) :
    spanOf (before ++ (added ++ after)) t =
      (spanOf (before ++ after) t).map (Interval.move before.length added.length) := by
  by_cases hb : Mentions before t
  · have hafter := hapart hb
    have hboth : ¬Mentions (added ++ after) t := fun hmentions =>
      (mentions_append.1 hmentions).elim hadded hafter
    rw [spanOf_append_left hboth, spanOf_append_left hafter]
    cases hspan : spanOf before t with
    | none => rfl
    | some v =>
      obtain ⟨first, hfirst, rfl⟩ := Option.map_eq_some_iff.1 hspan
      rw [Option.map_some, Interval.move, if_pos (findIdx_def_lt hfirst)]
  · rw [spanOf_append_right hb, spanOf_append_right hadded, spanOf_append_right hb, Option.map_map,
      Option.map_map]
    refine Option.map_congr fun v _ => ?_
    have hlate : ¬(v.shift before.length).start < before.length := by
      simp [Interval.shift]
    rw [Function.comp, Function.comp, Interval.move, if_neg hlate, Interval.shift_shift,
      Interval.shift_shift, Nat.add_comm]

end

namespace Program

theorem ofTemp_eq_spanOf {code : List Instruction} {info : TempInfo} {t : Temp}
    (hfirst : info.firstDef = code.findIdx? fun i => i.def? = some t)
    (hlast : info.lastUse = lastRead t code) : Interval.ofTemp info t = spanOf code t := by
  rw [Interval.ofTemp, spanOf, TempInfo.stop, ← hfirst, ← hlast]
  cases info.firstDef with
  | none => rfl
  | some first =>
    cases info.lastUse with
    | none => simp
    | some last => simp

/-- Where nothing is live between blocks, the ranges are those in the whole code. -/
theorem ranges_analyze {p : Program} (hout : ∀ b, (p.analyze.liveOutAt b).isEmpty) :
    p.analyze.ranges = (List.range p.temps.size).filterMap (spanOf p.instructions) := by
  have hnumbered := p.numbered_analyze
  have hlength : p.analyze.temps.toList.length = p.temps.size := by
    rw [Array.length_toList, size_temps_analyze]
  have hzip : p.analyze.temps.toList.zipIdx =
      (List.range p.temps.size).map fun t => (p.analyze.temps.getD t default, t) := by
    refine List.ext_getElem (by simp [size_temps_analyze]) fun k hk _ => ?_
    rw [List.length_zipIdx, Array.length_toList] at hk
    simp [hk]
  rw [ranges, hzip, List.filterMap_map]
  refine List.filterMap_congr fun t ht => ?_
  have hlt := List.mem_range.1 ht
  have hinfo : p.analyze.temps[t]? = some (p.analyze.temps.getD t default) := by
    rw [size_temps_analyze p |>.symm] at hlt
    simp [hlt]
  rw [Function.comp]
  generalize p.analyze.temps.getD t default = info at hinfo ⊢
  have hfirst : info.firstDef = p.instructions.findIdx? fun i => i.def? = some t := by
    rw [← hnumbered.firstDef t hlt, Numbering.firstDef, hinfo]
    rfl
  refine ofTemp_eq_spanOf hfirst ?_
  have hused : ∀ k, info.lastUse = some k → ∃ i, p.instructions[k]? = some i ∧ t ∈ i.uses := by
    intro k hk
    refine (lastUses_analyze hout).used t k ?_
    rw [Numbering.lastUse, hinfo, Option.bind_some, hk]
  cases hread : lastRead t p.instructions with
  | none =>
    refine Option.eq_none_iff_forall_ne_some.2 fun k hk => lastRead_eq_none.1 hread ?_
    obtain ⟨i, hi, hu⟩ := hused k hk
    exact List.mem_flatMap.2 ⟨i, List.mem_of_getElem? hi, hu⟩
  | some k =>
    obtain ⟨⟨i, hi, hu⟩, hmax⟩ := lastRead_spec hread
    obtain ⟨last, hlast, hle⟩ := hnumbered.lastUse k i hi t hu hlt
    rw [hinfo, Option.bind_some] at hlast
    obtain ⟨j, hj, hju⟩ := hused last hlast
    rw [hlast, Nat.le_antisymm (hmax last j hj hju) hle]

theorem intervals_le (p : Program) : p.intervals.Pairwise fun a b => a.le b := by
  rw [intervals_eq]
  exact List.pairwise_insertionSort _ _

theorem intervals_split (p : Program) (place : Nat) :
    p.intervals = p.intervals.filter (·.start < place) ++ p.intervals.filter (place ≤ ·.start) := by
  refine List.Perm.eq_of_pairwise' p.intervals_le ?_ ?_
  · refine List.pairwise_append.2 ⟨p.intervals_le.filter _, p.intervals_le.filter _,
      fun v hv w hw => ?_⟩
    have hv' : v.start < place := of_decide_eq_true (List.mem_filter.1 hv).2
    have hw' : place ≤ w.start := of_decide_eq_true (List.mem_filter.1 hw).2
    simp [Interval.le, hv'.trans_le hw']
  · have hrest : (p.intervals.filter fun v => !decide (v.start < place)) =
        p.intervals.filter (place ≤ ·.start) := by
      refine List.filter_congr fun v _ => ?_
      rw [← decide_not]
      exact decide_eq_decide.2 Nat.not_lt
    have hperm := List.filter_append_perm (fun v : Interval => v.start < place) p.intervals
    rw [hrest] at hperm
    exact hperm.symm

/-- One program is the other with some code put in between two parts that share no temporaries. The
code has temporaries of its own. -/
structure Inserts (p q : Program) (before added after : List Instruction) : Prop where
  old : p.instructions = before ++ after
  new : q.instructions = before ++ (added ++ after)
  apart : ∀ t, Mentions before t → ¬Mentions after t
  bounded : ∀ t, Mentions before t ∨ Mentions after t → t < p.temps.size
  own : ∀ t, Mentions added t → p.temps.size ≤ t
  count : p.temps.size ≤ q.temps.size
  oldLocal : ∀ b, (p.analyze.liveOutAt b).isEmpty
  newLocal : ∀ b, (q.analyze.liveOutAt b).isEmpty

namespace Inserts

variable {p q : Program} {before added after : List Instruction}

/-- The ranges of the temporaries that come with the code. -/
def ownRanges (p q : Program) (added : List Instruction) : List Interval :=
  (List.range' p.temps.size (q.temps.size - p.temps.size)).filterMap (spanOf added)

theorem ranges_eq (h : Inserts p q before added after) :
    q.analyze.ranges = p.analyze.ranges.map (Interval.move before.length added.length) ++
      (ownRanges p q added).map (Interval.shift before.length) := by
  rw [ranges_analyze h.newLocal, ranges_analyze h.oldLocal, h.old, h.new, ownRanges,
    List.map_filterMap, List.map_filterMap]
  obtain ⟨m, hm⟩ := Nat.exists_eq_add_of_le h.count
  rw [hm, Nat.add_sub_cancel_left, List.range_eq_range', ← List.range'_append_1, Nat.zero_add,
    List.filterMap_append, ← List.range_eq_range']
  -- the temporaries of both programs, then those of the new code
  congr 1
  · refine List.filterMap_congr fun t ht => spanOf_insert (fun hadded => ?_) (h.apart t)
    exact Nat.not_le_of_lt (List.mem_range.1 ht) (h.own t hadded)
  · refine List.filterMap_congr fun t ht => ?_
    have hge := (List.mem_range'_1.1 ht).1
    have hbefore : ¬Mentions before t := fun hb =>
      Nat.not_le_of_lt (h.bounded t (.inl hb)) hge
    have hafter : ¬Mentions after t := fun ha => Nat.not_le_of_lt (h.bounded t (.inr ha)) hge
    rw [spanOf_append_right hbefore, spanOf_append_left hafter]

theorem start_ownRanges (v : Interval) (hv : v ∈ ownRanges p q added) : v.start < added.length := by
  obtain ⟨t, -, ht⟩ := List.mem_filterMap.1 hv
  obtain ⟨first, hfirst, rfl⟩ := Option.map_eq_some_iff.1 ht
  exact findIdx_def_lt hfirst

/-- Ranges that start before a place, others that start there, and those that follow it. -/
theorem intervals_eq (h : Inserts p q before added after)
    (hown : (ownRanges p q added).Pairwise (·.le ·)) :
    q.analyze.intervals = p.analyze.intervals.filter (·.start < before.length) ++
      ((ownRanges p q added).map (Interval.shift before.length) ++
        (p.analyze.intervals.filter (before.length ≤ ·.start)).map (Interval.shift added.length)) := by
  have hle : ∀ {v w : Interval}, v.start < w.start → v.le w := fun hlt => by simp [Interval.le, hlt]
  have hearly : ∀ v ∈ p.analyze.intervals.filter (·.start < before.length),
      v.start < before.length := fun v hv => of_decide_eq_true (List.mem_filter.1 hv).2
  have hlate : ∀ v ∈ p.analyze.intervals.filter (before.length ≤ ·.start),
      before.length ≤ v.start := fun v hv => of_decide_eq_true (List.mem_filter.1 hv).2
  refine List.Perm.eq_of_pairwise' q.analyze.intervals_le ?_ ?_
  · -- each part is sorted, and the parts follow each other
    refine List.pairwise_append.2 ⟨p.analyze.intervals_le.filter _, List.pairwise_append.2
      ⟨?_, ?_, fun v hv w hw => ?_⟩, fun v hv w hw => ?_⟩
    · exact List.pairwise_map.2 (hown.imp fun hle => by rwa [Interval.le_shift])
    · refine List.pairwise_map.2 ((p.analyze.intervals_le.filter _).imp fun hle => ?_)
      rwa [Interval.le_shift]
    · obtain ⟨v₀, hv₀, rfl⟩ := List.mem_map.1 hv
      obtain ⟨w₀, hw₀, rfl⟩ := List.mem_map.1 hw
      have hfirst := start_ownRanges v₀ hv₀
      have hsecond := hlate w₀ hw₀
      refine hle ?_
      simp only [Interval.shift]
      omega
    · have hfirst := hearly v hv
      refine hle ?_
      rcases List.mem_append.1 hw with hw | hw
      · obtain ⟨w₀, -, rfl⟩ := List.mem_map.1 hw
        simp only [Interval.shift]
        omega
      · obtain ⟨w₀, hw₀, rfl⟩ := List.mem_map.1 hw
        have hsecond := hlate w₀ hw₀
        simp only [Interval.shift]
        omega
  · have hsplit : (p.analyze.ranges.map (Interval.move before.length added.length)).Perm
        (p.analyze.intervals.filter (·.start < before.length) ++
          (p.analyze.intervals.filter (before.length ≤ ·.start)).map
            (Interval.shift added.length)) := by
      refine (p.analyze.intervals_perm.symm.map _).trans (.of_eq ?_)
      conv => lhs; rw [p.analyze.intervals_split before.length]
      rw [List.map_append]
      congr 1
      · refine (List.map_congr_left fun v hv => ?_).trans (List.map_id _)
        exact if_pos (hearly v hv)
      · refine List.map_congr_left fun v hv => ?_
        exact if_neg (Nat.not_lt.2 (hlate v hv))
    refine (q.analyze.intervals_perm.trans (.of_eq h.ranges_eq)).trans ?_
    refine (hsplit.append_right _).trans ?_
    rw [List.append_assoc]
    exact List.perm_append_comm.append_left _

end Inserts

/-- The temporary that an instruction moves to another one. -/
def movedTo? (t : Temp) : Instruction → Option Temp
  | .move dst src => if dst = t then some src else none
  | _ => none

/-- Keeps the source of a move unless an earlier one is kept. -/
def noteMove (hints : Array (Option Temp)) : Instruction → Array (Option Temp)
  | .move dst src => hints.modify dst (· <|> some src)
  | _ => hints

theorem hints_eq_foldl (p : Program) :
    p.hints = p.instructions.foldl noteMove (Array.replicate p.temps.size none) := rfl

theorem size_noteMove (hints : Array (Option Temp)) (i : Instruction) :
    (noteMove hints i).size = hints.size := by
  cases i with
  | move dst src => exact Array.size_modify
  | _ => rfl

theorem join_noteMove {hints : Array (Option Temp)} {t : Temp} (ht : t < hints.size)
    (i : Instruction) :
    ((noteMove hints i)[t]?).join = (hints[t]?).join.or (movedTo? t i) := by
  cases i with
  | move dst src =>
    rw [noteMove, Array.getElem?_modify, movedTo?, Array.getElem?_eq_getElem ht]
    split
    · cases hints[t] <;> rfl
    · exact (Option.or_none).symm
  | _ => exact (Option.or_none).symm

theorem hint_eq (p : Program) {t : Temp} (ht : t < p.temps.size) :
    (p.hints[t]?).join = p.instructions.findSome? (movedTo? t) := by
  have hfold : ∀ (code : List Instruction) (hints : Array (Option Temp)), t < hints.size →
      ((code.foldl noteMove hints)[t]?).join =
        (hints[t]?).join.or (code.findSome? (movedTo? t)) := by
    intro code
    induction code with
    | nil => exact fun hints _ => (Option.or_none).symm
    | cons i code ih =>
      intro hints hlt
      rw [List.foldl_cons, ih _ (by rwa [size_noteMove]), join_noteMove hlt, Option.or_assoc,
        List.findSome?_cons]
      cases movedTo? t i <;> rfl
  rw [hints_eq_foldl, hfold _ _ (by simpa using ht)]
  simp [ht]

theorem movedTo_eq_none {code : List Instruction} {t : Temp} (h : t ∉ defs code) :
    code.findSome? (movedTo? t) = none := by
  refine List.findSome?_eq_none_iff.2 fun i hi => ?_
  cases i with
  | move dst src =>
    rw [movedTo?, if_neg]
    rintro rfl
    exact h (mem_defs.2 ⟨_, hi, rfl⟩)
  | _ => rfl

namespace Inserts

variable {p q : Program} {before added after : List Instruction}

theorem hint_old (h : Inserts p q before added after) {t : Temp} (ht : t < p.temps.size) :
    (q.analyze.hints[t]?).join = (p.analyze.hints[t]?).join := by
  have hadded : t ∉ defs added := fun hd => Nat.not_le_of_lt ht (h.own t (.inl hd))
  rw [hint_eq _ (by rw [size_temps_analyze]; exact ht.trans_le h.count),
    hint_eq _ (by rwa [size_temps_analyze]), instructions_analyze, instructions_analyze, h.old, h.new,
    List.findSome?_append, List.findSome?_append, List.findSome?_append, movedTo_eq_none hadded,
    Option.none_or]

theorem hint_own (h : Inserts p q before added after) {t : Temp} (hge : p.temps.size ≤ t)
    (ht : t < q.temps.size) : (q.analyze.hints[t]?).join = added.findSome? (movedTo? t) := by
  have hbefore : t ∉ defs before := fun hd => Nat.not_le_of_lt (h.bounded t (.inl (.inl hd))) hge
  have hafter : t ∉ defs after := fun hd => Nat.not_le_of_lt (h.bounded t (.inr (.inl hd))) hge
  rw [hint_eq _ (by rwa [size_temps_analyze]), instructions_analyze, h.new, List.findSome?_append,
    List.findSome?_append, movedTo_eq_none hbefore, movedTo_eq_none hafter, Option.none_or,
    Option.or_none]

theorem hint_lt (h : Inserts p q before added after) {t src : Temp} (ht : t < p.temps.size)
    (hsrc : (p.analyze.hints[t]?).join = some src) : src < p.temps.size := by
  rw [hint_eq _ (by rwa [size_temps_analyze]), instructions_analyze, h.old] at hsrc
  obtain ⟨i, hi, hmove⟩ := List.exists_of_findSome?_eq_some hsrc
  have hread : src ∈ i.uses := by
    cases i with
    | move dst s =>
      rw [movedTo?] at hmove
      split at hmove
      · obtain rfl := Option.some.inj hmove
        exact List.mem_cons_self
      · cases hmove
    | _ => cases hmove
  refine h.bounded src ((List.mem_append.1 hi).imp (fun hi => .inr ?_) fun hi => .inr ?_)
  · exact List.mem_flatMap.2 ⟨i, hi, hread⟩
  · exact List.mem_flatMap.2 ⟨i, hi, hread⟩

end Inserts

end Program

end TraceScript.Flow
