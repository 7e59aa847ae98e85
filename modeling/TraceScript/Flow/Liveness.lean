import TraceScript.Flow.Program
import TraceScript.Note

/-!
Liveness. A temporary is live at the start of a block if some path from there reads it before it is
given a value. The live sets are found by looking at blocks again until nothing changes, and the
ranges of temporaries follow, as places in the emitted order.
-/
namespace TraceScript.Flow

/-- The temporaries that code gives a value, and those it reads before it does. -/
structure LocalSets where
  defined : TempSet := ∅
  exposed : TempSet := ∅

namespace LocalSets

def step (s : LocalSets) (i : Instruction) : LocalSets where
  exposed := i.uses.foldl (fun e t => if s.defined.contains t then e else e.insert t) s.exposed
  defined := match i.def? with
    | some t => s.defined.insert t
    | none => s.defined

def ofCode (code : Array Instruction) : LocalSets := code.foldl step {}

end LocalSets

/-- What liveness depends on at a block: its own sets, and the blocks after and before it. -/
structure Junction extends LocalSets where
  succs : Array BlockId := #[]
  preds : Array BlockId := #[]

namespace Junction

def ofBlock (b : Block) : Junction :=
  { LocalSets.ofCode b.code with succs := b.succs, preds := b.preds }

/-- What is live at the end of a block, by what is live at the starts of blocks. -/
def liveOut (j : Junction) (live : Array TempSet) : TempSet :=
  j.succs.foldl (fun acc q => acc ∪ live.getD q ∅) ∅

/-- What is live at the start of a block, by what is live at its end. -/
def liveIn (j : Junction) (out : TempSet) : TempSet := j.exposed ∪ (out \ j.defined)

theorem mem_liveOut {j : Junction} {live : Array TempSet} {t : Temp} :
    t ∈ j.liveOut live ↔ ∃ q : Nat, q ∈ j.succs ∧ t ∈ live.getD q ∅ := by
  have hfold : ∀ (qs : List BlockId) (acc : TempSet),
      t ∈ qs.foldl (fun acc q => acc ∪ live.getD q ∅) acc ↔
        t ∈ acc ∨ ∃ q : Nat, q ∈ qs ∧ t ∈ live.getD q ∅ := by
    intro qs
    induction qs with
    | nil => simp
    | cons q qs ih =>
      intro acc
      rw [List.foldl_cons, ih, Std.TreeSet.mem_union_iff]
      simp [or_assoc]
  rw [liveOut, ← Array.foldl_toList, hfold]
  simp

theorem mem_liveIn {j : Junction} {out : TempSet} {t : Temp} :
    t ∈ j.liveIn out ↔ t ∈ j.exposed ∨ t ∈ out ∧ t ∉ j.defined := by
  rw [liveIn, Std.TreeSet.mem_union_iff, Std.TreeSet.mem_diff_iff]

end Junction

/-- The live sets found so far, the blocks that wait for another look, and which blocks wait. -/
structure Worklist where
  liveIn : Array TempSet
  liveOut : Array TempSet
  queue : List BlockId
  queued : Array Bool

namespace Worklist

/-- All blocks wait, and the last is the first to be looked at. -/
def start (count : Nat) : Worklist where
  liveIn := Array.replicate count ∅
  liveOut := Array.replicate count ∅
  queue := (List.range count).reverse
  queued := Array.replicate count true

def enqueue (w : Worklist) (b : BlockId) : Worklist :=
  if w.queued.getD b true then w
  else { w with queue := w.queue ++ [b], queued := w.queued.setIfInBounds b true }

/-- What the equations of liveness give for the start of a block. -/
def transfer (js : Array Junction) (live : Array TempSet) (b : BlockId) : TempSet :=
  (js.getD b {}).liveIn ((js.getD b {}).liveOut live)

/-- Looks at the first block that waits. If the set at its start changes, the blocks before it
wait again. -/
def visit (js : Array Junction) (w : Worklist) (b : BlockId) (rest : List BlockId) : Worklist :=
  let j := js.getD b {}
  let live := transfer js w.liveIn b
  let seen := { w with
    queue := rest
    queued := w.queued.setIfInBounds b false
    liveOut := w.liveOut.setIfInBounds b (j.liveOut w.liveIn) }
  if live == w.liveIn.getD b ∅ then seen
  else j.preds.foldl enqueue { seen with liveIn := w.liveIn.setIfInBounds b live }

/-! ### The sets grow -/

theorem mem_transfer {js : Array Junction} {live : Array TempSet} {b : BlockId} {t : Temp} :
    t ∈ transfer js live b ↔ t ∈ (js.getD b {}).exposed ∨
      (∃ q : Nat, q ∈ (js.getD b {}).succs ∧ t ∈ live.getD q ∅) ∧ t ∉ (js.getD b {}).defined := by
  rw [transfer, Junction.mem_liveIn, Junction.mem_liveOut]

/-- More at the starts of blocks gives more. -/
theorem transfer_mono {js : Array Junction} {live live' : Array TempSet} {t : Temp}
    (h : ∀ b : Nat, t ∈ live.getD b ∅ → t ∈ live'.getD b ∅) {b : BlockId}
    (ht : t ∈ transfer js live b) : t ∈ transfer js live' b := by
  rw [mem_transfer] at ht ⊢
  exact ht.imp_right fun ⟨⟨q, hq, ht⟩, hd⟩ => ⟨⟨q, hq, h q ht⟩, hd⟩

theorem getD_setIfInBounds (live : Array TempSet) (b : BlockId) (x : TempSet) (q : BlockId) :
    (live.setIfInBounds b x).getD q ∅ = if b = q ∧ b < live.size then x else live.getD q ∅ := by
  simp only [Array.getD_eq_getD_getElem?, Array.getElem?_setIfInBounds]
  by_cases hbq : b = q
  · subst hbq
    by_cases hb : b < live.size
    · simp [hb]
    · simp [hb]
  · simp [hbq]

/-- Sets that the equations can only make larger, with nothing live that is not read anywhere. -/
structure Ascending (js : Array Junction) (live : Array TempSet) : Prop where
  size : live.size = js.size
  grows : ∀ (b : BlockId) (t : Temp), t ∈ live.getD b ∅ → t ∈ transfer js live b
  exposed : ∀ (b : BlockId) (t : Temp), t ∈ live.getD b ∅ → ∃ q : Nat, t ∈ (js.getD q {}).exposed

namespace Ascending

variable {js : Array Junction} {live : Array TempSet}

theorem start (js : Array Junction) : Ascending js (Worklist.start js.size).liveIn := by
  have hnone : ∀ (b : BlockId) (t : Temp), t ∉ (Worklist.start js.size).liveIn.getD b ∅ := by
    intro b t
    simp only [Worklist.start, Array.getD_eq_getD_getElem?, Array.getElem?_replicate]
    split <;> simp
  exact ⟨by simp [Worklist.start], fun b t h => (hnone b t h).elim, fun b t h => (hnone b t h).elim⟩

/-- Storing what the equations give for a block loses nothing. -/
theorem le_set (h : Ascending js live) (b q : BlockId) (t : Temp) (ht : t ∈ live.getD q ∅) :
    t ∈ (live.setIfInBounds b (transfer js live b)).getD q ∅ := by
  rw [getD_setIfInBounds]
  split
  · rename_i hb
    obtain ⟨rfl, -⟩ := hb
    exact h.grows b t ht
  · exact ht

theorem mem_transfer_of_set (h : Ascending js live) {b q : BlockId} {t : Temp}
    (ht : t ∈ (live.setIfInBounds b (transfer js live b)).getD q ∅) : t ∈ transfer js live q := by
  rw [getD_setIfInBounds] at ht
  split at ht
  · rename_i hb
    obtain ⟨rfl, -⟩ := hb
    exact ht
  · exact h.grows q t ht

theorem set (h : Ascending js live) (b : BlockId) :
    Ascending js (live.setIfInBounds b (transfer js live b)) where
  size := by rw [Array.size_setIfInBounds, h.size]
  grows q t ht := transfer_mono (fun q => h.le_set b q t) (h.mem_transfer_of_set ht)
  exposed q t ht := by
    rcases mem_transfer.1 (h.mem_transfer_of_set ht) with ht | ⟨⟨r, -, ht⟩, -⟩
    · exact ⟨q, ht⟩
    · exact h.exposed r t ht

/-- A set that changes gains a temporary. -/
theorem exists_gained (h : Ascending js live) {b : BlockId}
    (hne : ¬(transfer js live b == live.getD b ∅) = true) :
    ∃ t, t ∈ transfer js live b ∧ t ∉ live.getD b ∅ := by
  apply Classical.byContradiction
  intro hnone
  refine hne (Std.TreeSet.Equiv.beq (.of_forall_mem_iff fun t => ⟨fun ht => ?_, h.grows b t⟩))
  exact Decidable.byContradiction fun hnot => hnone ⟨t, ht, hnot⟩

end Ascending

@[simp] theorem liveIn_enqueue (w : Worklist) (b : BlockId) : (w.enqueue b).liveIn = w.liveIn := by
  unfold enqueue
  split <;> rfl

theorem liveIn_enqueueAll (w : Worklist) (bs : Array BlockId) :
    (bs.foldl enqueue w).liveIn = w.liveIn := by
  rw [← Array.foldl_toList]
  induction bs.toList generalizing w with
  | nil => rfl
  | cons b bs ih => rw [List.foldl_cons, ih, liveIn_enqueue]

theorem Ascending.visit {js : Array Junction} {w : Worklist} (h : Ascending js w.liveIn)
    (b : BlockId) (rest : List BlockId) : Ascending js (w.visit js b rest).liveIn := by
  unfold Worklist.visit
  dsimp only
  split
  · exact h
  · rw [liveIn_enqueueAll]
    exact h.set b

/-! ### The looking ends -/

/-- The temporaries that may become live, each with every block. -/
def candidates (js : Array Junction) : List (BlockId × Temp) :=
  (List.range js.size).flatMap fun b =>
    (js.toList.flatMap (·.exposed.toList)).map fun t => (b, t)

/-- How many temporaries are not live yet, over all blocks. -/
def missing (js : Array Junction) (live : Array TempSet) : Nat :=
  (candidates js).countP fun x => !(live.getD x.1 ∅).contains x.2

def edges (js : Array Junction) : Nat := (js.toList.map (·.preds.toList)).flatten.length

/-- A bound for the number of looks that are still to come. Each temporary that becomes live may
make all blocks before the block wait. -/
def bound (js : Array Junction) (w : Worklist) : Nat :=
  missing js w.liveIn * (edges js + 1) + w.queue.length

theorem countP_lt_countP {α : Type} {p q : α → Bool} {l : List α} {a : α}
    (h : ∀ x ∈ l, p x → q x) (ha : a ∈ l) (hp : p a = false) (hq : q a = true) :
    l.countP p < l.countP q := by
  obtain ⟨c, d, rfl⟩ := List.append_of_mem ha
  have hc : c.countP p ≤ c.countP q :=
    List.countP_mono_left fun x hx => h x (List.mem_append_left _ hx)
  have hd : d.countP p ≤ d.countP q :=
    List.countP_mono_left fun x hx => h x (List.mem_append_right _ (List.mem_cons_of_mem _ hx))
  simp only [List.countP_append, List.countP_cons, hp, hq]
  simp
  omega

theorem preds_size_le_edges (js : Array Junction) (b : BlockId) :
    (js.getD b {}).preds.size ≤ edges js := by
  cases hb : js[b]? with
  | none => simp [Array.getD_eq_getD_getElem?, hb]
  | some j =>
    have hj : j.preds.toList ∈ js.toList.map (·.preds.toList) :=
      List.mem_map_of_mem (Array.mem_toList_iff.2 (Array.mem_of_getElem? hb))
    have hle := (List.sublist_flatten_of_mem hj).length_le
    simpa [Array.getD_eq_getD_getElem?, hb, edges] using hle

theorem length_enqueueAll_le (w : Worklist) (bs : Array BlockId) :
    (bs.foldl enqueue w).queue.length ≤ w.queue.length + bs.size := by
  rw [← Array.foldl_toList, ← Array.length_toList]
  induction bs.toList generalizing w with
  | nil => simp
  | cons b bs ih =>
    have hone : (w.enqueue b).queue.length ≤ w.queue.length + 1 := by
      unfold enqueue
      split <;> simp
    have hrest := ih (w.enqueue b)
    rw [List.foldl_cons, List.length_cons]
    omega

theorem Ascending.missing_set_lt {js : Array Junction} {live : Array TempSet}
    (h : Ascending js live) {b : BlockId}
    (hne : ¬(transfer js live b == live.getD b ∅) = true) :
    missing js (live.setIfInBounds b (transfer js live b)) < missing js live := by
  obtain ⟨t, ht, hnot⟩ := h.exists_gained hne
  have hb : b < js.size := by
    refine Nat.lt_of_not_le fun hge => ?_
    have hnone : js.getD b {} = {} := by simp [Array.getD_eq_getD_getElem?, hge]
    rw [mem_transfer, hnone] at ht
    simp at ht
  have hset : t ∈ (live.setIfInBounds b (transfer js live b)).getD b ∅ := by
    rw [getD_setIfInBounds, if_pos ⟨rfl, h.size ▸ hb⟩]
    exact ht
  obtain ⟨q, hq⟩ := (h.set b).exposed b t hset
  have hread : t ∈ js.toList.flatMap (·.exposed.toList) := by
    cases hj : js[q]? with
    | none => simp [Array.getD_eq_getD_getElem?, hj] at hq
    | some j =>
      refine List.mem_flatMap.2 ⟨j, Array.mem_toList_iff.2 (Array.mem_of_getElem? hj), ?_⟩
      simpa [Array.getD_eq_getD_getElem?, hj] using hq
  refine countP_lt_countP (a := (b, t)) (fun x _ hx => ?_) ?_ ?_ ?_
  · rw [Bool.not_eq_true'] at hx ⊢
    rw [← Bool.not_eq_true, ← Std.TreeSet.mem_iff_contains] at hx ⊢
    exact fun hmem => hx (h.le_set b x.1 x.2 hmem)
  · exact List.mem_flatMap.2 ⟨b, List.mem_range.2 hb, List.mem_map.2 ⟨t, hread, rfl⟩⟩
  · simpa using hset
  · rw [Bool.not_eq_true', ← Bool.not_eq_true, ← Std.TreeSet.mem_iff_contains]
    exact hnot

/-- Each look leaves fewer to come. -/
theorem bound_visit_lt {js : Array Junction} {w : Worklist} (h : Ascending js w.liveIn)
    {b : BlockId} {rest : List BlockId} (hq : w.queue = b :: rest) :
    bound js (w.visit js b rest) < bound js w := by
  unfold bound visit
  dsimp only
  rw [hq, List.length_cons]
  split
  · exact Nat.lt_succ_self _
  · rename_i hne
    rw [liveIn_enqueueAll]
    dsimp only
    have hless := Nat.mul_le_mul_right (edges js + 1) (h.missing_set_lt hne)
    have hqueue := length_enqueueAll_le
      { w with
        queue := rest
        queued := w.queued.setIfInBounds b false
        liveOut := w.liveOut.setIfInBounds b ((js.getD b {}).liveOut w.liveIn)
        liveIn := w.liveIn.setIfInBounds b (transfer js w.liveIn b) } (js.getD b {}).preds
    have hpreds := preds_size_le_edges js b
    rw [Nat.succ_mul] at hless
    dsimp only at hqueue
    omega

/-- Looks at blocks until none waits. -/
def run (js : Array Junction) (w : Worklist) (h : Ascending js w.liveIn) : Worklist :=
  match _hq : w.queue with
  | [] => w
  | b :: rest => run js (w.visit js b rest) (h.visit b rest)
termination_by bound js w
decreasing_by exact bound_visit_lt h _hq

end Worklist

namespace TempInfo

def unknown (i : TempInfo) : TempInfo := { origin := i.origin }

def definedAt (i : TempInfo) (index : Nat) : TempInfo :=
  { i with firstDef := i.firstDef <|> some index }

def usedAt (i : TempInfo) (index : Nat) : TempInfo :=
  { i with lastUse := some (max (i.lastUse.getD index) index) }

end TempInfo

/-- The ranges found so far and the place of the next instruction. -/
structure Numbering where
  temps : Array TempInfo
  index : Nat := 0

namespace Numbering

def use (n : Numbering) (index : Nat) (t : Temp) : Numbering :=
  { n with temps := n.temps.modify t (·.usedAt index) }

def define (n : Numbering) : Option Temp → Numbering
  | some t => { n with temps := n.temps.modify t (·.definedAt n.index) }
  | none => n

def instruction (n : Numbering) (i : Instruction) : Numbering :=
  let n := i.uses.foldl (fun n t => n.use n.index t) (n.define i.def?)
  { n with index := n.index + 1 }

/-- What is live at the end of a block is used up to its last instruction. -/
def block (n : Numbering) (b : Block) : Numbering :=
  let n := b.code.foldl instruction n
  if n.index = 0 then n else b.liveOut.toList.foldl (fun n t => n.use (n.index - 1) t) n

end Numbering

namespace Program

/-- Finds the live sets of every block and the range of every temporary. -/
def analyze (p : Program) : Program :=
  let js := p.blocks.map Junction.ofBlock
  let found := Worklist.run js (.start js.size) (.start js)
  let blocks := p.blocks.mapIdx fun i b =>
    { b with
      defined := (js.getD i {}).defined
      liveIn := found.liveIn.getD i ∅
      liveOut := found.liveOut.getD i ∅ }
  let numbering := blocks.foldl Numbering.block { temps := p.temps.map TempInfo.unknown }
  { p with blocks, temps := numbering.temps }

def analyzedNote (p : Program) : Note := .livenessNumbered p.size

end Program

end TraceScript.Flow
