import Mathlib.Data.List.Chain
import TraceScript.Proofs.Graph
import TraceScript.Proofs.Numbered

/-!
Liveness is exact. The sets that are found at the starts of blocks hold the temporaries that some
path reads before any definition, and those at the ends are the unions over the blocks that follow,
on all graphs whose edges are recorded at both ends, cycles included.
-/
namespace TraceScript.Flow

/-- Code reads a temporary before it gives it a value. -/
def ReadsFirst (code : List Instruction) (t : Temp) : Prop :=
  ∃ c i d, code = c ++ i :: d ∧ t ∈ i.uses ∧ t ∉ defs c

theorem readsFirst_append_one {code : List Instruction} {i : Instruction} {t : Temp} :
    ReadsFirst (code ++ [i]) t ↔ ReadsFirst code t ∨ t ∈ i.uses ∧ t ∉ defs code := by
  constructor
  · rintro ⟨c, j, d, heq, hu, hd⟩
    rcases List.eq_nil_or_concat' d with rfl | ⟨e, k, rfl⟩
    · obtain ⟨rfl, hi⟩ := List.append_inj' heq rfl
      obtain rfl := List.singleton_inj.1 hi
      exact .inr ⟨hu, hd⟩
    · rw [← List.cons_append, ← List.append_assoc] at heq
      exact .inl ⟨c, j, e, (List.append_inj' heq rfl).1, hu, hd⟩
  · rintro (⟨c, j, d, rfl, hu, hd⟩ | ⟨hu, hd⟩)
    · exact ⟨c, j, d ++ [i], by simp, hu, hd⟩
    · exact ⟨code, i, [], rfl, hu, hd⟩

namespace LocalSets

/-- What has been recorded after some instructions. -/
structure Records (s : LocalSets) (done : List Instruction) : Prop where
  defined : ∀ t : Temp, t ∈ s.defined ↔ t ∈ defs done
  exposed : ∀ t : Temp, t ∈ s.exposed ↔ ReadsFirst done t

theorem mem_insertUses {s : LocalSets} {us : List Temp} {e : TempSet} {t : Temp} :
    t ∈ us.foldl (fun e t => if s.defined.contains t then e else e.insert t) e ↔
      t ∈ e ∨ t ∈ us ∧ t ∉ s.defined := by
  induction us generalizing e with
  | nil => simp
  | cons u us ih =>
    rw [List.foldl_cons, ih, List.mem_cons]
    split
    · rename_i hu
      rw [← Std.TreeSet.mem_iff_contains] at hu
      grind
    · rename_i hu
      rw [← Std.TreeSet.mem_iff_contains] at hu
      rw [Std.TreeSet.mem_insert, compare_eq_iff_eq]
      grind

theorem Records.step {s : LocalSets} {done : List Instruction} (h : s.Records done)
    (i : Instruction) : (s.step i).Records (done ++ [i]) where
  defined t := by
    rw [LocalSets.step, defs_append, List.mem_append, ← h.defined]
    cases hd : i.def? with
    | none => simp [defs, hd]
    | some d =>
      dsimp only
      rw [Std.TreeSet.mem_insert, compare_eq_iff_eq]
      simp [defs, hd, or_comm, eq_comm]
  exposed t := by
    rw [LocalSets.step, readsFirst_append_one, mem_insertUses, h.exposed, h.defined]

theorem records_ofCode (code : Array Instruction) : (ofCode code).Records code.toList := by
  have hall : ∀ (todo done : List Instruction) (s : LocalSets), s.Records done →
      (todo.foldl LocalSets.step s).Records (done ++ todo) := by
    intro todo
    induction todo with
    | nil =>
      intro done s h
      rwa [List.append_nil]
    | cons i todo ih =>
      intro done s h
      have hrest := ih _ _ (h.step i)
      rwa [List.append_assoc] at hrest
  have hnone : ∀ t, ¬ReadsFirst [] t := by
    rintro t ⟨c, i, d, heq, -⟩
    cases c <;> cases heq
  have hstart : ({} : LocalSets).Records [] :=
    ⟨fun t => by simp [defs], fun t => by simp [hnone t]⟩
  rw [ofCode, ← Array.foldl_toList]
  exact hall code.toList [] {} hstart

end LocalSets

namespace Program

/-- The junctions of all blocks. -/
def junctions (p : Program) : Array Junction := p.blocks.map Junction.ofBlock

@[simp] theorem size_junctions (p : Program) : p.junctions.size = p.blocks.size := Array.size_map

def junctionAt (p : Program) (b : BlockId) : Junction := p.junctions.getD b {}

section

variable {p : Program} {b : BlockId}

theorem junctionAt_of_none (h : p.blocks[b]? = none) : p.junctionAt b = {} := by
  simp [junctionAt, junctions, Array.getD_eq_getD_getElem?, h]

theorem junctionAt_of_some {block : Block} (h : p.blocks[b]? = some block) :
    p.junctionAt b = Junction.ofBlock block := by
  simp [junctionAt, junctions, Array.getD_eq_getD_getElem?, h]

theorem mem_defined_junctionAt {t : Temp} :
    t ∈ (p.junctionAt b).defined ↔ t ∈ defs (p.codeAt b) := by
  cases h : p.blocks[b]? with
  | none => simp [junctionAt_of_none h, codeAt, h, defs]
  | some block =>
    rw [junctionAt_of_some h, codeAt, h]
    exact (LocalSets.records_ofCode block.code).defined t

theorem mem_exposed_junctionAt {t : Temp} :
    t ∈ (p.junctionAt b).exposed ↔ ReadsFirst (p.codeAt b) t := by
  cases h : p.blocks[b]? with
  | none =>
    have hnone : ¬ReadsFirst [] t := by
      rintro ⟨c, i, d, heq, -⟩
      cases c <;> cases heq
    simp [junctionAt_of_none h, codeAt, h, hnone]
  | some block =>
    rw [junctionAt_of_some h, codeAt, h]
    exact (LocalSets.records_ofCode block.code).exposed t

theorem mem_succs_junctionAt {q : Nat} : q ∈ (p.junctionAt b).succs ↔ q ∈ p.succsAt b := by
  cases h : p.blocks[b]? with
  | none => simp [junctionAt_of_none h, succsAt, edgesAt, h]
  | some block => simp [junctionAt_of_some h, succsAt, edgesAt, h, Junction.ofBlock]

theorem mem_preds_junctionAt {q : Nat} : q ∈ (p.junctionAt b).preds ↔ q ∈ p.predsAt b := by
  cases h : p.blocks[b]? with
  | none => simp [junctionAt_of_none h, predsAt, edgesAt, h]
  | some block => simp [junctionAt_of_some h, predsAt, edgesAt, h, Junction.ofBlock]

end

/-- A path along edges leads from a block to one that reads the temporary before it gives it a
value, and no block before that one gives it a value. -/
def LiveAt (p : Program) (t : Temp) (b : BlockId) : Prop :=
  ∃ (path : List Nat) (last : Nat), (path ++ [last]).head? = some b ∧
    List.IsChain (fun x y => y ∈ p.succsAt x) (path ++ [last]) ∧
    (∀ c ∈ path, t ∉ defs (p.codeAt c)) ∧ ReadsFirst (p.codeAt last) t

/-- The blocks recorded before a block are those that it is recorded after. -/
def Reversible (p : Program) : Prop := ∀ b q : Nat, q ∈ p.predsAt b ↔ b ∈ p.succsAt q

def liveInAt (p : Program) (b : BlockId) : TempSet := ((p.blocks[b]?).map Block.liveIn).getD ∅

def liveOutAt (p : Program) (b : BlockId) : TempSet := ((p.blocks[b]?).map Block.liveOut).getD ∅

theorem LiveAt.of_readsFirst {p : Program} {t : Temp} {b : BlockId}
    (h : ReadsFirst (p.codeAt b) t) : p.LiveAt t b :=
  ⟨[], b, rfl, .singleton b, nofun, h⟩

theorem LiveAt.of_succ {p : Program} {t : Temp} {b q : BlockId} (hq : q ∈ p.succsAt b)
    (hd : t ∉ defs (p.codeAt b)) (h : p.LiveAt t q) : p.LiveAt t b := by
  obtain ⟨path, last, hhead, hchain, hkeeps, hread⟩ := h
  refine ⟨b :: path, last, rfl, ?_, ?_, hread⟩
  · rw [List.cons_append]
    refine hchain.cons ?_
    rintro x hx
    rw [hhead] at hx
    obtain rfl := Option.some.inj hx
    exact hq
  · rintro c hc
    rcases List.mem_cons.1 hc with rfl | hc
    · exact hd
    · exact hkeeps c hc

/-- Whatever holds where a temporary is read first, and goes back along edges past blocks that do not
define it, holds wherever the temporary is live. -/
theorem LiveAt.induct {p : Program} {t : Temp} {motive : BlockId → Prop}
    (hread : ∀ b, ReadsFirst (p.codeAt b) t → motive b)
    (hback : ∀ b q, q ∈ p.succsAt b → t ∉ defs (p.codeAt b) → motive q → motive b) {b : BlockId}
    (h : p.LiveAt t b) : motive b := by
  obtain ⟨path, last, hhead, hchain, hkeeps, hlast⟩ := h
  induction path generalizing b with
  | nil =>
    obtain rfl := Option.some.inj hhead
    exact hread _ hlast
  | cons c path ih =>
    obtain rfl := Option.some.inj hhead
    rw [List.cons_append, List.isChain_cons] at hchain
    obtain ⟨q, hq⟩ : ∃ q, (path ++ [last]).head? = some q := by
      cases path <;> exact ⟨_, rfl⟩
    exact hback _ q (hchain.1 q hq) (hkeeps _ List.mem_cons_self)
      (ih hq hchain.2 fun c hc => hkeeps c (List.mem_cons_of_mem _ hc))

end Program

namespace Worklist

theorem mem_transfer_junctions {p : Program} {live : Array TempSet} {b : BlockId} {t : Temp} :
    t ∈ transfer p.junctions live b ↔ ReadsFirst (p.codeAt b) t ∨
      (∃ q ∈ p.succsAt b, t ∈ live.getD q ∅) ∧ t ∉ defs (p.codeAt b) := by
  have hmem : t ∈ transfer p.junctions live b ↔ _ := mem_transfer
  change _ ↔ t ∈ (p.junctionAt b).exposed ∨
    (∃ q : Nat, q ∈ (p.junctionAt b).succs ∧ _) ∧ t ∉ (p.junctionAt b).defined at hmem
  simpa only [Program.mem_exposed_junctionAt, Program.mem_succs_junctionAt,
    Program.mem_defined_junctionAt] using hmem

theorem run_induct {js : Array Junction} {motive : Worklist → Prop}
    (hvisit : ∀ (w : Worklist) (b : BlockId) (rest : List BlockId), Ascending js w.liveIn →
      w.queue = b :: rest → motive w → motive (w.visit js b rest)) (w : Worklist)
    (h : Ascending js w.liveIn) (hw : motive w) :
    motive (run js w h) ∧ (run js w h).queue = [] := by
  fun_induction run js w h with
  | case1 w h hq => exact ⟨hw, hq⟩
  | case2 w h b rest hq ih => exact ih (hvisit w b rest h hq hw)

/-- Every block that is marked as waiting stands in the queue. -/
structure Marked (count : Nat) (w : Worklist) : Prop where
  size : w.queued.size = count
  waits : ∀ b < count, w.queued.getD b true = true → b ∈ w.queue

theorem getD_queued {queued : Array Bool} {b : BlockId} (hb : b < queued.size) (x : Bool)
    (q : BlockId) :
    (queued.setIfInBounds b x).getD q true = if b = q then x else queued.getD q true := by
  simp only [Array.getD_eq_getD_getElem?, Array.getElem?_setIfInBounds, if_pos hb]
  split <;> rfl

namespace Marked

variable {count : Nat} {w : Worklist}

theorem enqueue (h : w.Marked count) (b : BlockId) :
    (w.enqueue b).Marked count ∧ w.queue ⊆ (w.enqueue b).queue ∧
      (b < count → b ∈ (w.enqueue b).queue) := by
  unfold Worklist.enqueue
  split
  · rename_i hb
    exact ⟨h, fun _ hq => hq, fun hlt => h.waits b hlt hb⟩
  · rename_i hb
    have hlt : b < w.queued.size := by
      by_contra hge
      exact hb (by simp [Array.getD_eq_getD_getElem?, hge])
    refine ⟨⟨by rw [Array.size_setIfInBounds, h.size], fun q hq hmark => ?_⟩,
      List.subset_append_left .., fun _ => List.mem_append_right _ List.mem_cons_self⟩
    rw [getD_queued hlt] at hmark
    split at hmark
    · rename_i heq
      exact heq ▸ List.mem_append_right _ List.mem_cons_self
    · exact List.mem_append_left _ (h.waits q hq hmark)

theorem enqueueAll (h : w.Marked count) (bs : List BlockId) :
    (bs.foldl Worklist.enqueue w).Marked count ∧ w.queue ⊆ (bs.foldl Worklist.enqueue w).queue ∧
      ∀ b ∈ bs, b < count → b ∈ (bs.foldl Worklist.enqueue w).queue := by
  induction bs generalizing w with
  | nil => exact ⟨h, fun _ hq => hq, nofun⟩
  | cons b bs ih =>
    obtain ⟨hb, hsub, hin⟩ := h.enqueue b
    obtain ⟨hmarked, hsub', hall⟩ := ih hb
    refine ⟨hmarked, List.Subset.trans hsub hsub', fun q hq hlt => ?_⟩
    rcases List.mem_cons.1 hq with rfl | hq
    · exact hsub' (hin hlt)
    · exact hall q hq hlt

end Marked

theorem liveOut_enqueueAll (w : Worklist) (bs : List BlockId) :
    (bs.foldl enqueue w).liveOut = w.liveOut := by
  induction bs generalizing w with
  | nil => rfl
  | cons b bs ih =>
    rw [List.foldl_cons, ih]
    unfold enqueue
    split <;> rfl

/-- The equations hold at a block. -/
structure Solved (js : Array Junction) (w : Worklist) (b : BlockId) : Prop where
  liveIn : ∀ t, t ∈ transfer js w.liveIn b → t ∈ w.liveIn.getD b ∅
  liveOut : ∀ t, t ∈ w.liveOut.getD b ∅ ↔ t ∈ (js.getD b {}).liveOut w.liveIn

/-- The equations hold at all blocks that do not wait, and what is live is so on some path. -/
structure Valid (p : Program) (w : Worklist) : Prop where
  size : w.liveOut.size = p.junctions.size
  marked : w.Marked p.junctions.size
  solved : ∀ b < p.junctions.size, b ∉ w.queue → w.Solved p.junctions b
  onPath : ∀ (b : BlockId) (t : Temp), t ∈ w.liveIn.getD b ∅ → p.LiveAt t b

theorem valid_start (p : Program) : (start p.junctions.size).Valid p where
  size := by simp [start]
  marked := ⟨by simp [start], fun b hb _ => by simpa [start] using hb⟩
  solved b hb hq := (hq (by simpa [start] using hb)).elim
  onPath b t ht := by
    simp only [start, Array.getD_eq_getD_getElem?, Array.getElem?_replicate] at ht
    split at ht <;> simp at ht

theorem mem_liveOut_set {j : Junction} {live : Array TempSet} {b : Nat} {x : TempSet} {t : Temp}
    (hb : b ∉ j.succs) : t ∈ j.liveOut (live.setIfInBounds b x) ↔ t ∈ j.liveOut live := by
  rw [Junction.mem_liveOut, Junction.mem_liveOut]
  refine exists_congr fun q => and_congr_right fun hq => ?_
  have hne : b ≠ q := fun heq => hb (heq ▸ hq)
  rw [getD_setIfInBounds, if_neg fun h => hne h.1]

namespace Valid

variable {p : Program} {w : Worklist}

theorem liveAt_of_transfer (h : w.Valid p) {b : BlockId} {t : Temp}
    (ht : t ∈ transfer p.junctions w.liveIn b) : p.LiveAt t b := by
  rcases mem_transfer_junctions.1 ht with hread | ⟨⟨q, hq, ht⟩, hd⟩
  · exact .of_readsFirst hread
  · exact .of_succ hq hd (h.onPath q t ht)

theorem marked_pop (h : w.Valid p) {b : BlockId} {rest : List BlockId} (hq : w.queue = b :: rest)
    (out : Array TempSet) (live : Array TempSet) :
    Marked p.junctions.size ⟨live, out, rest, w.queued.setIfInBounds b false⟩ := by
  refine ⟨by rw [Array.size_setIfInBounds, h.marked.size], fun q hlt hmark => ?_⟩
  have hne : b ≠ q := by
    rintro rfl
    rw [getD_queued (h.marked.size ▸ hlt), if_pos rfl] at hmark
    cases hmark
  have hold : w.queued.getD q true = true := by
    rw [Array.getD_eq_getD_getElem?, Array.getElem?_setIfInBounds_ne hne] at hmark
    rw [Array.getD_eq_getD_getElem?]
    exact hmark
  have hmem := h.marked.waits q hlt hold
  rw [hq] at hmem
  exact (List.mem_cons.1 hmem).resolve_left hne.symm

/-- After a look at a block, the equations hold at every block that does not wait and whose end sees
no change. -/
theorem solved_after (h : w.Valid p) {b : BlockId} {rest : List BlockId} (hq : w.queue = b :: rest)
    {live : Array TempSet} {queue : List BlockId} {queued : Array Bool} {q : BlockId}
    (hlt : q < p.junctions.size) (hrest : q ∉ rest)
    (hend : ∀ t, t ∈ (p.junctionAt q).liveOut live ↔ t ∈ (p.junctionAt q).liveOut w.liveIn)
    (hhere : q = b → ∀ t, t ∈ transfer p.junctions w.liveIn b → t ∈ live.getD b ∅)
    (hthere : q ≠ b → live.getD q ∅ = w.liveIn.getD q ∅) :
    Solved p.junctions ⟨live, w.liveOut.setIfInBounds b ((p.junctionAt b).liveOut w.liveIn), queue,
      queued⟩ q := by
  have htransfer : ∀ t, t ∈ transfer p.junctions live q → t ∈ transfer p.junctions w.liveIn q := by
    intro t ht
    rw [transfer, Junction.mem_liveIn] at ht ⊢
    exact ht.imp_right fun ht => ⟨(hend t).1 ht.1, ht.2⟩
  by_cases hne : q = b
  · subst hne
    refine ⟨fun t ht => hhere rfl t (htransfer t ht), fun t => ?_⟩
    dsimp only
    rw [getD_setIfInBounds, if_pos ⟨rfl, h.size ▸ hlt⟩]
    exact (hend t).symm
  · have hsolved : w.Solved p.junctions q := by
      refine h.solved q hlt ?_
      rw [hq]
      exact fun hmem => (List.mem_cons.1 hmem).elim hne hrest
    refine ⟨fun t ht => ?_, fun t => ?_⟩
    · dsimp only
      rw [hthere hne]
      exact hsolved.liveIn t (htransfer t ht)
    · dsimp only
      rw [getD_setIfInBounds, if_neg fun hb => hne hb.1.symm, hsolved.liveOut]
      exact (hend t).symm

theorem visit (h : w.Valid p) (hup : Ascending p.junctions w.liveIn) (hp : p.Reversible)
    {b : BlockId} {rest : List BlockId} (hq : w.queue = b :: rest) :
    (w.visit p.junctions b rest).Valid p := by
  have hsize : (w.liveOut.setIfInBounds b ((p.junctionAt b).liveOut w.liveIn)).size =
      p.junctions.size := by
    rw [Array.size_setIfInBounds, h.size]
  unfold Worklist.visit
  dsimp only
  split
  · rename_i hsame
    have hhere : ∀ t, t ∈ transfer p.junctions w.liveIn b → t ∈ w.liveIn.getD b ∅ := fun t =>
      (Std.TreeSet.equiv_of_beq hsame).mem_iff.1
    exact ⟨hsize, h.marked_pop hq _ _, fun q hlt hnot =>
      h.solved_after hq hlt hnot (fun _ => Iff.rfl) (fun _ => hhere) fun _ => rfl, h.onPath⟩
  · let live := w.liveIn.setIfInBounds b (transfer p.junctions w.liveIn b)
    let out := w.liveOut.setIfInBounds b ((p.junctionAt b).liveOut w.liveIn)
    let popped : Worklist := ⟨live, out, rest, w.queued.setIfInBounds b false⟩
    change ((p.junctionAt b).preds.foldl enqueue popped).Valid p
    have hlive : ∀ q, live.getD q ∅ = _ := getD_setIfInBounds w.liveIn b _
    have hin := popped.liveIn_enqueueAll (p.junctionAt b).preds
    rw [← Array.foldl_toList] at hin ⊢
    have hout := popped.liveOut_enqueueAll (p.junctionAt b).preds.toList
    obtain ⟨hmarked, hsub, hall⟩ :=
      (h.marked_pop hq out live).enqueueAll (p.junctionAt b).preds.toList
    generalize (p.junctionAt b).preds.toList.foldl enqueue popped = w' at *
    obtain ⟨liveIn, liveOut, queue, queued⟩ := w'
    obtain rfl : liveIn = live := hin
    obtain rfl : liveOut = out := hout
    refine ⟨hsize, hmarked, fun q hlt hnot => ?_, fun q t ht => ?_⟩
    · -- A block that does not wait now is not before the block that was looked at.
      have hbefore : b ∉ (p.junctionAt q).succs := by
        rw [Program.mem_succs_junctionAt, ← hp, ← Program.mem_preds_junctionAt,
          ← Array.mem_toList_iff]
        exact fun hmem => hnot (hall q hmem hlt)
      refine h.solved_after hq hlt (fun hmem => hnot (hsub hmem)) (fun t => mem_liveOut_set hbefore)
        ?_ ?_
      · rintro rfl t ht
        rw [hlive, if_pos ⟨rfl, hup.size ▸ hlt⟩]
        exact ht
      · intro hne
        rw [hlive, if_neg fun hb => hne hb.1.symm]
    · dsimp only at ht
      rw [hlive] at ht
      split at ht
      · rename_i hb
        obtain ⟨rfl, -⟩ := hb
        exact h.liveAt_of_transfer ht
      · exact h.onPath q t ht

end Valid

/-- One look, if a block waits. -/
def advance (js : Array Junction) (w : Worklist) : Worklist :=
  match w.queue with
  | [] => w
  | b :: rest => w.visit js b rest

theorem run_eq_iterate (js : Array Junction) (w : Worklist) (h : Ascending js w.liveIn) :
    ∃ n ≤ bound js w, (advance js)^[n] w = run js w h := by
  fun_induction run js w h with
  | case1 w h hq => exact ⟨0, Nat.zero_le _, rfl⟩
  | case2 w h b rest hq ih =>
    obtain ⟨n, hn, hrun⟩ := ih
    have hstep : advance js w = w.visit js b rest := by rw [advance, hq]
    have hless := bound_visit_lt h hq
    refine ⟨n + 1, by omega, ?_⟩
    rw [Function.iterate_succ_apply, hstep, hrun]

end Worklist

namespace Program

/-- The worklist at the end of the analysis. -/
def settled (p : Program) : Worklist :=
  Worklist.run p.junctions (.start p.junctions.size) (.start p.junctions)

theorem liveInAt_analyze {p : Program} {b : BlockId} (hb : b < p.blocks.size) :
    p.analyze.liveInAt b = p.settled.liveIn.getD b ∅ := by
  simp only [liveInAt, analyze, Array.getElem?_mapIdx, Array.getElem?_eq_getElem hb]
  rfl

theorem liveOutAt_analyze {p : Program} {b : BlockId} (hb : b < p.blocks.size) :
    p.analyze.liveOutAt b = p.settled.liveOut.getD b ∅ := by
  simp only [liveOutAt, analyze, Array.getElem?_mapIdx, Array.getElem?_eq_getElem hb]
  rfl

theorem settled_valid {p : Program} (h : p.Reversible) :
    p.settled.Valid p ∧ p.settled.queue = [] :=
  Worklist.run_induct (fun _ _ _ hup hq hw => hw.visit hup h hq) _ _ (Worklist.valid_start p)

theorem lt_size_of_readsFirst {p : Program} {b : BlockId} {t : Temp}
    (h : ReadsFirst (p.codeAt b) t) : b < p.blocks.size := by
  obtain ⟨c, i, d, hcode, -⟩ := h
  by_contra hge
  rw [codeAt, Array.getElem?_eq_none (Nat.le_of_not_lt hge)] at hcode
  cases c <;> cases hcode

theorem lt_size_of_mem_edgesAt {p : Program} {f : Block → Array BlockId} {b : BlockId} {q : Nat}
    (h : q ∈ p.edgesAt f b) : b < p.blocks.size := by
  by_contra hge
  rw [edgesAt, Array.getElem?_eq_none (Nat.le_of_not_lt hge)] at h
  cases h

section

variable {p : Program} {b : BlockId} {t : Temp}

theorem lt_size_of_mem_liveInAt (h : t ∈ p.analyze.liveInAt b) : b < p.blocks.size := by
  by_contra hge
  rw [liveInAt, Array.getElem?_eq_none (p.size_analyze ▸ Nat.le_of_not_lt hge)] at h
  simp at h

theorem lt_size_of_mem_liveOutAt (h : t ∈ p.analyze.liveOutAt b) : b < p.blocks.size := by
  by_contra hge
  rw [liveOutAt, Array.getElem?_eq_none (p.size_analyze ▸ Nat.le_of_not_lt hge)] at h
  simp at h

theorem Reversible.solved (h : p.Reversible) (hb : b < p.blocks.size) :
    p.settled.Solved p.junctions b := by
  obtain ⟨hvalid, hempty⟩ := p.settled_valid h
  refine hvalid.solved b (by rwa [size_junctions]) ?_
  rw [hempty]
  exact List.not_mem_nil

theorem LiveAt.mem_settled (ht : p.LiveAt t b) (h : p.Reversible) :
    b < p.blocks.size ∧ t ∈ p.settled.liveIn.getD b ∅ := by
  refine LiveAt.induct (motive := fun b => b < p.blocks.size ∧ t ∈ p.settled.liveIn.getD b ∅)
    (fun b hread => ?_) (fun b q hq hd hlive => ?_) ht
  · have hb := lt_size_of_readsFirst hread
    exact ⟨hb, (h.solved hb).liveIn t (Worklist.mem_transfer_junctions.2 (.inl hread))⟩
  · have hb := lt_size_of_mem_edgesAt hq
    exact ⟨hb, (h.solved hb).liveIn t
      (Worklist.mem_transfer_junctions.2 (.inr ⟨⟨q, hq, hlive.2⟩, hd⟩))⟩

/-- A temporary is found live at the start of a block iff some path reads it before any definition. -/
theorem mem_liveInAt_analyze (h : p.Reversible) : t ∈ p.analyze.liveInAt b ↔ p.LiveAt t b := by
  constructor
  · intro ht
    rw [liveInAt_analyze (lt_size_of_mem_liveInAt ht)] at ht
    exact (p.settled_valid h).1.onPath b t ht
  · intro ht
    obtain ⟨hb, hmem⟩ := ht.mem_settled h
    rwa [liveInAt_analyze hb]

/-- What is found live at the end of a block is what is live at the start of some block after it. -/
theorem mem_liveOutAt_analyze (h : p.Reversible) :
    t ∈ p.analyze.liveOutAt b ↔ ∃ q ∈ p.succsAt b, t ∈ p.analyze.liveInAt q := by
  have hinside : ∀ q ∈ p.succsAt b, q < p.blocks.size := fun q hq =>
    lt_size_of_mem_edgesAt ((h q b).2 hq)
  have hend : b < p.blocks.size → (t ∈ p.analyze.liveOutAt b ↔
      ∃ q ∈ p.succsAt b, t ∈ p.settled.liveIn.getD q ∅) := by
    intro hb
    rw [liveOutAt_analyze hb, (h.solved hb).liveOut]
    change t ∈ (p.junctionAt b).liveOut _ ↔ _
    simp only [Junction.mem_liveOut, mem_succs_junctionAt]
  constructor
  · intro ht
    obtain ⟨q, hq, hmem⟩ := (hend (lt_size_of_mem_liveOutAt ht)).1 ht
    exact ⟨q, hq, by rwa [liveInAt_analyze (hinside q hq)]⟩
  · rintro ⟨q, hq, hmem⟩
    rw [liveInAt_analyze (hinside q hq)] at hmem
    exact (hend (lt_size_of_mem_edgesAt hq)).2 ⟨q, hq, hmem⟩

end

/-- On every graph whose edges are recorded at both ends, after finitely many looks no block waits,
and the sets that were found are exact: a temporary is live at the start of a block iff a path from
there reads it before any definition, and live at the end iff it is so at the start of a block that
follows. -/
theorem analyze_live_iff_path {p : Program} (h : p.Reversible) :
    (∃ n, let w := (Worklist.advance p.junctions)^[n] (.start p.junctions.size)
      w.queue = [] ∧ ∀ b < p.blocks.size, p.analyze.liveInAt b = w.liveIn.getD b ∅ ∧
        p.analyze.liveOutAt b = w.liveOut.getD b ∅) ∧
    (∀ (b : BlockId) (t : Temp), t ∈ p.analyze.liveInAt b ↔ p.LiveAt t b) ∧
    ∀ (b : BlockId) (t : Temp), t ∈ p.analyze.liveOutAt b ↔
      ∃ q ∈ p.succsAt b, t ∈ p.analyze.liveInAt q := by
  refine ⟨?_, fun b t => mem_liveInAt_analyze h, fun b t => mem_liveOutAt_analyze h⟩
  obtain ⟨n, -, hrun⟩ := Worklist.run_eq_iterate p.junctions (.start p.junctions.size) (.start _)
  refine ⟨n, ?_⟩
  rw [hrun]
  exact ⟨(p.settled_valid h).2, fun b hb => ⟨liveInAt_analyze hb, liveOutAt_analyze hb⟩⟩

/-- A block that repeats itself, and a way back to it from the block behind it. -/
def countdown : Program where
  name := "countdown"
  blocks := #[
    { code := #[.imm 0 9, .imm 1 1, .jump 1], succs := #[1] },
    { code := #[.arith .sub 0 0 (.temp 1), .branch 0 1 2], preds := #[0, 1, 2], succs := #[1, 2] },
    { code := #[.move 2 1, .branch 2 1 3], preds := #[1], succs := #[1, 3] },
    { code := #[.store 0 (-8), .ret], preds := #[2] }]
  temps := #[{}, {}, {}]

theorem countdown_reversible : countdown.Reversible := by
  rintro (_ | _ | _ | _ | b) (_ | _ | _ | _ | q) <;>
    simp [predsAt, succsAt, edgesAt, countdown]

/-- Behind the repeated block both the count and the step are live, and before it the copy is not. -/
theorem countdown_live :
    countdown.Reversible ∧ 0 ∈ countdown.analyze.liveInAt 2 ∧ 1 ∈ countdown.analyze.liveOutAt 2 ∧
      ¬countdown.LiveAt 2 1 := by
  obtain ⟨-, hin, hout⟩ := analyze_live_iff_path countdown_reversible
  have hcount : countdown.LiveAt 0 2 := by
    refine .of_succ (q := 3) (by decide) (by decide) (.of_readsFirst ?_)
    exact ⟨[], .store 0 (-8), [.ret], rfl, by decide, by decide⟩
  have hstep : countdown.LiveAt 1 1 := by
    refine .of_readsFirst ⟨[], .arith .sub 0 0 (.temp 1), [.branch 0 1 2], rfl, by decide, by decide⟩
  have hcopy : 2 ∉ countdown.analyze.liveInAt 1 := by decide +kernel
  exact ⟨countdown_reversible, (hin 2 0).2 hcount, (hout 2 1).2 ⟨1, by decide, (hin 1 1).2 hstep⟩,
    fun hlive => hcopy ((hin 1 2).2 hlive)⟩

end Program

end TraceScript.Flow
