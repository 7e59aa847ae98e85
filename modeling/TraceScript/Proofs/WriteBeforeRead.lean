import Mathlib.Data.Set.Lattice
import TraceScript.Proofs.Performed

namespace TraceScript

def Region.bytes (r : Region) : Set Int := { x | r.Contains x }

namespace Region

theorem bytes_subset {a b : Nat} {addr : Int} (h : a ≤ b) :
    (mk addr a).bytes ⊆ (mk addr b).bytes := by
  rintro x ⟨h₁, h₂⟩
  exact ⟨h₁, by dsimp only at *; omega⟩

theorem bytes_append (addr : Int) (a b : Nat) :
    (mk addr (a + b)).bytes = (mk addr a).bytes ∪ (mk (addr + a) b).bytes := by
  ext x
  simp only [bytes, Contains, Set.mem_union, Set.mem_ofPred_eq]
  omega

theorem bytes_zero (addr : Int) : (mk addr 0).bytes = ∅ := by
  ext x
  simp only [bytes, Contains, Set.mem_ofPred_eq, Set.mem_empty_iff_false, iff_false]
  omega

end Region

/-- The regions of the variables of a table. -/
def Table.variableRegions (t : Table) : List Region :=
  t.symbols.toList.flatMap fun s => if s.map.isNone then s.regions else []

namespace Flow

open Evaluation

def Helper.reads : Helper → List Region
  | strcmp lhs rhs size => [⟨lhs, size⟩, ⟨rhs, size⟩]
  | out addr size _ => [⟨addr, size⟩]
  | _ => []

namespace Instruction

/-- The parts of the frame that an instruction reads. -/
def reads (w : World) : Instruction → List Region
  | load _ addr => [⟨addr, 8⟩]
  | copy _ source size => [⟨source, size⟩]
  | update map key value => [⟨key, w.keySize map⟩, ⟨value, w.valueSize map⟩]
  | lookup map key _ _ => [⟨key, w.keySize map⟩]
  | call helper _ => helper.reads
  | _ => []

/-- The parts of the frame that an instruction writes in any case. A lookup may find nothing. -/
def writes : Instruction → List Region
  | store _ addr => [⟨addr, 8⟩]
  | zero addr size => [⟨addr, size⟩]
  | bytes addr data => [⟨addr, data.length⟩]
  | copy dest _ size => [⟨dest, size⟩]
  | call (.comm addr size) _ => [⟨addr, size⟩]
  | _ => []

/-- The part of the frame that a lookup may write. -/
def fills : Instruction → List Region
  | lookup _ _ value size => [⟨value, size⟩]
  | _ => []

/-- An instruction that writes no part of some regions, except for all of one. -/
def Spares (vs : List Region) (i : Instruction) : Prop :=
  ∀ q ∈ i.writes ++ i.fills, ∀ v ∈ vs, q.Disjoint v ∨ q = v ∧ q ∈ i.writes

end Instruction

open Instruction

/-- The bytes that code writes in any case. -/
def written (code : List Instruction) : Set Int :=
  { x | ∃ i ∈ code, ∃ r ∈ i.writes, r.Contains x }

theorem written_nil : written [] = ∅ := by simp [written]

theorem written_append (c d : List Instruction) : written (c ++ d) = written c ∪ written d := by
  ext x
  simp only [written, List.mem_append, Set.mem_union, Set.mem_ofPred_eq]
  grind

/-- Code that reads only some bytes and what it has written before. -/
def Clean (w : World) (W : Set Int) : List Instruction → Prop
  | [] => True
  | i :: code => (∀ r ∈ i.reads w, r.bytes ⊆ W) ∧ Clean w (W ∪ written [i]) code

namespace Clean

variable {w : World} {W W' : Set Int} {c d : List Instruction}

theorem mono (h : Clean w W c) (hsub : W ⊆ W') : Clean w W' c := by
  induction c generalizing W W' with
  | nil => trivial
  | cons i c ih =>
    exact ⟨fun r hr => (h.1 r hr).trans hsub, ih h.2 (Set.union_subset_union_left _ hsub)⟩

theorem append (h : Clean w W c) (h' : Clean w (W ∪ written c) d) : Clean w W (c ++ d) := by
  induction c generalizing W with
  | nil => exact h'.mono (by rw [written_nil, Set.union_empty])
  | cons i c ih =>
    refine ⟨h.1, ih h.2 (h'.mono ?_)⟩
    rw [← List.singleton_append, written_append, Set.union_assoc]

theorem seq (h : Clean w W c) (h' : Clean w W d) : Clean w W (c ++ d) :=
  h.append (h'.mono Set.subset_union_left)

theorem reads {i : Instruction} (h : Clean w W (c ++ i :: d)) :
    ∀ r ∈ i.reads w, r.bytes ⊆ W ∪ written c := by
  induction c generalizing W with
  | nil => exact fun r hr => (h.1 r hr).trans Set.subset_union_left
  | cons j c ih =>
    have hrest := ih h.2
    rwa [Set.union_assoc, ← written_append] at hrest

end Clean

/-- If an action succeeds on top of some bytes, it has added straight code that is clean and spares
some regions, and then a condition holds on the result and on the bytes that are written by then. -/
def Tidy {α : Type} (w : World) (vs : List Region) (W : Set Int) (m : Build α)
    (Q : α → Set Int → Prop) : Prop :=
  Lays m fun _ a c => Clean w W c.code ∧ (∀ i ∈ c.code, i.Spares vs) ∧ Q a (W ∪ written c.code)

namespace Tidy

variable {α β : Type} {w : World} {vs : List Region} {W : Set Int} {Q : α → Set Int → Prop}

protected theorem pure {a : α} (h : Q a W) : Tidy w vs W (pure a) Q := by
  refine .of_emits (fun _ => .pure a) fun _ => ⟨trivial, nofun, ?_⟩
  rw [written_nil, Set.union_empty]
  exact h

protected theorem bind {m : Build α} {f : α → Build β} {Q : β → Set Int → Prop}
    (h : Tidy w vs W m fun a W' => Tidy w vs W' (f a) Q) : Tidy w vs W (m >>= f) Q := by
  refine Lays.bind (h.mono fun _ a c hm => hm.2.2.mono fun _ b d hd _ => ⟨hm.1.append hd.1,
    fun i hi => (List.mem_append.1 hi).elim (hm.2.1 i) (hd.2.1 i), ?_⟩)
  rw [Chunk.code_append, written_append, ← Set.union_assoc]
  exact hd.2.2

theorem push {i : Instruction} {Q : Unit → Set Int → Prop} (hreads : ∀ r ∈ i.reads w, r.bytes ⊆ W)
    (hspares : i.Spares vs) (h : Q () (W ∪ written [i])) : Tidy w vs W (Build.push i) Q :=
  .of_emits (fun _ => .push i) fun _ => ⟨⟨hreads, trivial⟩, List.forall_mem_singleton.2 hspares, h⟩

theorem newTemp (origin : Option Origin) {Q : Temp → Set Int → Prop} (h : ∀ a, Q a W) :
    Tidy w vs W (Build.newTemp origin) Q := by
  refine .of_emits (fun _ => .newTemp origin) fun s => ⟨trivial, nofun, ?_⟩
  rw [written_nil, Set.union_empty]
  exact h s.count

theorem announce (f : EventFormat) {Q : Unit → Set Int → Prop} (h : Q () W) :
    Tidy w vs W (modify fun s : Builder => { s with outputs := s.outputs.push f }) Q := by
  refine Lays.announce f fun _ => ⟨trivial, nofun, ?_⟩
  rw [written_nil, Set.union_empty]
  exact h

theorem mono {m : Build α} {Q' : α → Set Int → Prop} (h : Tidy w vs W m Q)
    (hQ : ∀ a W', W ⊆ W' → Q a W' → Q' a W') : Tidy w vs W m Q' :=
  Lays.mono h fun _ a _ hm => ⟨hm.1, hm.2.1, hQ a _ Set.subset_union_left hm.2.2⟩

end Tidy

section

variable {w : World} {t : Table}

/-- The bytes of all variables are among some bytes. -/
def Covers (t : Table) (W : Set Int) : Prop := ∀ v ∈ t.variableRegions, v.bytes ⊆ W

theorem Covers.mono {W W' : Set Int} (h : Covers t W) (hsub : W ⊆ W') : Covers t W' :=
  fun v hv => (h v hv).trans hsub

/-- A place that is no part of a variable, except for all of one. -/
def Apart (t : Table) (q : Region) : Prop := ∀ v ∈ t.variableRegions, q.Disjoint v ∨ q = v

theorem spares_of_writes {i : Instruction} {q : Region} (hw : i.writes = [q]) (hf : i.fills = [])
    (h : Apart t q) : i.Spares t.variableRegions := by
  intro r hr v hv
  rw [hf, List.append_nil, hw] at hr
  obtain rfl := List.mem_singleton.1 hr
  exact (h v hv).imp id fun heq => ⟨heq, by rw [hw]; exact List.mem_cons_self⟩

theorem spares_of_none {i : Instruction} {vs : List Region} (hw : i.writes = [])
    (hf : i.fills = []) : i.Spares vs := by
  intro r hr
  rw [hw, hf] at hr
  cases hr

theorem bytes_subset_written {W : Set Int} {i : Instruction} {q : Region} (hw : i.writes = [q]) :
    q.bytes ⊆ W ∪ written [i] := by
  intro x hx
  exact .inr ⟨i, List.mem_cons_self, q, by rw [hw]; exact List.mem_cons_self, hx⟩

theorem mem_variableRegions {v : Region} (hv : v ∈ t.variableRegions) :
    ∃ (i : Nat) (s : Symbol), t.symbols[i]? = some s ∧ s.map = none ∧ v ∈ s.regions := by
  obtain ⟨s, hs, hv⟩ := List.mem_flatMap.1 hv
  obtain ⟨i, hi⟩ := Array.mem_iff_getElem?.1 (Array.mem_toList_iff.1 hs)
  split at hv
  · rename_i hm
    exact ⟨i, s, hi, Option.isNone_iff_eq_none.1 hm, hv⟩
  · cases hv

theorem variableRegions_subset (t : Table) : t.variableRegions ⊆ t.regions := by
  intro v hv
  obtain ⟨i, s, hs, -, hv⟩ := mem_variableRegions hv
  exact List.mem_flatMap.2 ⟨s, Array.mem_toList_iff.2 (Array.mem_of_getElem? hs), hv⟩

theorem mem_of_variableAt {name : Name} {i : Nat} {sh : Shape} {addr : Int}
    (h : t.VariableAt name i sh addr) : ⟨addr, sh.size⟩ ∈ t.variableRegions := by
  obtain ⟨s, hn, hm, hsh, ha⟩ := h
  refine List.mem_flatMap.2 ⟨s, Array.mem_toList_iff.2 (Array.mem_of_getElem? hn.symbol), ?_⟩
  rw [hm, if_pos Option.isNone_none, Table.regions_of_variable hm ha, Facts.size_of_shape hsh]
  exact List.mem_cons_self

section

variable {rs : List Region} (hf : Framed w t rs)

include hf

theorem disjoint_of_inMap {q : Region} (hq : t.InMap q) : ∀ v ∈ t.variableRegions, q.Disjoint v := by
  intro v hv
  obtain ⟨i, s, hs, hm, hv⟩ := mem_variableRegions hv
  obtain ⟨p, hp, hin⟩ := hq
  exact hin.disjoint (hf.variable_apart_map hs hm hv hp).symm

theorem disjoint_of_own {q : Region} (hq : q ∈ rs) : ∀ v ∈ t.variableRegions, q.Disjoint v :=
  fun _ hv => (hf.table_apart (variableRegions_subset t hv) hq).symm

theorem apart_of_variable {name : Name} {i : Nat} {sh : Shape} {addr : Int}
    (hat : t.VariableAt name i sh addr) : Apart t ⟨addr, sh.size⟩ := by
  intro v hv
  have hv' := List.mem_append_left rs (variableRegions_subset t hv)
  exact (hf.eq_or_apart (List.mem_append_left _ hat.mem) hv').symm

end

/-- What the three uses of a placed value read and write. -/
structure Neat (w : World) (t : Table) (n : Node) (alone : Bool) : Prop where
  shape : ∃ sh, n.facts.shape = some sh ∧ sh.IsValue
  scalar : n.facts.isInt = true → ∀ W, Covers t W →
    Tidy w t.variableRegions W (evaluation t n).scalar fun _ _ => True
  into : ∀ W, Covers t W → ∀ dest, Apart t ⟨dest, n.facts.size⟩ →
    Tidy w t.variableRegions W ((evaluation t n).into dest) fun _ W' =>
      (Region.mk dest n.facts.size).bytes ⊆ W'
  slot : n.facts.isInt = false → (alone || n.isEntry) = true → ∀ W, Covers t W →
    Tidy w t.variableRegions W (evaluation t n).slot fun addr W' =>
      (Region.mk addr n.facts.size).bytes ⊆ W'

namespace Neat

variable {n : Node} {alone : Bool}

theorem size_mod (h : Neat w t n alone) : n.facts.size % 8 = 0 := by
  obtain ⟨sh, hsh, hv⟩ := h.shape
  rw [Facts.size_of_shape hsh]
  exact hv.size_mod

theorem size_of_int (h : Neat w t n alone) (hint : n.facts.isInt = true) : n.facts.size = 8 := by
  obtain ⟨sh, hsh, hv⟩ := h.shape
  rw [Facts.isInt_of_shape hsh, beq_iff_eq] at hint
  rw [Facts.size_of_shape hsh, hv.eq_int hint]
  rfl

theorem of_int (hsh : n.facts.shape = some .int)
    (hscalar : ∀ W, Covers t W → Tidy w t.variableRegions W (evaluation t n).scalar fun _ _ => True) :
    Neat w t n alone where
  shape := ⟨.int, hsh, .inl rfl⟩
  scalar _ := hscalar
  into W hW dest hd := by
    have hint : n.facts.isInt = true := by rw [Facts.isInt_of_shape hsh]; rfl
    rw [into_of_int hint, Facts.size_of_shape hsh]
    rw [Facts.size_of_shape hsh] at hd
    refine .bind ((hscalar W hW).mono fun src W' _ _ => ?_)
    exact .push nofun (spares_of_writes rfl rfl hd) (bytes_subset_written rfl)
  slot h := by
    rw [Facts.isInt_of_shape hsh] at h
    cases h

theorem of_built {tag : Tag} {sh : Shape} (addr : Int) {i : Int → Instruction}
    (htag : n.tag = tag) (hsh : tag.facts.shape = some sh) (hv : sh.IsValue) (hstr : sh.type = .str)
    (hentry : n.isEntry = false)
    (hown : alone = true → Apart t ⟨addr, sh.size⟩)
    (hinto : ∀ dest, (evaluation t n).into dest = Build.push (i dest))
    (hslot : (evaluation t n).slot = do Build.push (i addr); return addr)
    (hi : ∀ dest, (i dest).reads w = [] ∧ (i dest).writes = [⟨dest, sh.size⟩] ∧
      (i dest).fills = []) : Neat w t n alone where
  shape := ⟨sh, by rw [Node.facts, htag, hsh], hv⟩
  scalar h := by
    rw [Node.facts, htag, Facts.isInt_of_shape hsh, hstr] at h
    cases h
  into W hW dest hd := by
    rw [Node.facts, htag, Facts.size_of_shape hsh] at hd ⊢
    obtain ⟨hr, hw, hfills⟩ := hi dest
    rw [hinto]
    exact .push (by rw [hr]; exact List.forall_mem_nil _) (spares_of_writes hw hfills hd) (bytes_subset_written hw)
  slot _ h W hW := by
    rw [hentry, Bool.or_false] at h
    obtain ⟨hr, hw, hfills⟩ := hi addr
    rw [hslot, Node.facts, htag, Facts.size_of_shape hsh]
    refine .bind (.push (by rw [hr]; exact List.forall_mem_nil _) (spares_of_writes hw hfills (hown h)) ?_)
    exact .pure (bytes_subset_written hw)

end Neat

/-- A value that is kept for later: a word, a written part of the frame, or none yet. -/
def KeptBytes (W : Set Int) (n : Node) : Staged → Prop
  | .temp _ => n.facts.size = 8
  | .slot addr => (Region.mk addr n.facts.size).bytes ⊆ W
  | .deferred => True

theorem KeptBytes.mono {W W' : Set Int} {n : Node} {st : Staged} (h : KeptBytes W n st)
    (hsub : W ⊆ W') : KeptBytes W' n st := by
  cases st with
  | temp _ => exact h
  | slot addr => exact Set.Subset.trans h hsub
  | deferred => trivial

theorem Neat.stage {n : Node} (h : Neat w t n false) {W : Set Int} (hW : Covers t W) :
    Tidy w t.variableRegions W (Evaluation.stage n (evaluation t n)) fun st W' =>
      KeptBytes W' n st := by
  cases hint : n.facts.isInt with
  | true =>
    unfold Evaluation.stage
    rw [if_pos hint]
    refine .bind ((h.scalar hint W hW).mono fun _ W' _ _ => .pure ?_)
    exact h.size_of_int hint
  | false =>
    cases hentry : n.isEntry with
    | true =>
      rw [stage_of_entry hint hentry]
      refine .bind ((h.slot hint (by rw [hentry]; rfl) W hW).mono fun addr W' _ hbytes => ?_)
      exact .pure hbytes
    | false =>
      rw [stage_of_not_entry hint hentry]
      exact .pure trivial

theorem Neat.unstage {n : Node} (h : Neat w t n false) {W : Set Int} (hW : Covers t W) {st : Staged}
    (hst : KeptBytes W n st) {dest : Int} (hd : Apart t ⟨dest, n.facts.size⟩) :
    Tidy w t.variableRegions W (Evaluation.unstage n (evaluation t n) dest st) fun _ _ => True := by
  cases st with
  | temp src =>
    have hsize : n.facts.size = 8 := hst
    rw [hsize] at hd
    exact .push nofun (spares_of_writes rfl rfl hd) trivial
  | slot source =>
    refine .push (fun r hr => ?_) (spares_of_writes rfl rfl hd) trivial
    obtain rfl := List.mem_singleton.1 hr
    exact hst
  | deferred => exact (h.into W hW dest hd).mono fun _ _ _ _ => trivial

variable {ns : List Node}

theorem tidy_stageAll (hns : ∀ n ∈ ns, Neat w t n false) {W : Set Int} (hW : Covers t W) :
    Tidy w t.variableRegions W (stageAll (evaluations t ns)) fun sts W' =>
      List.Forall₂ (KeptBytes W') ns sts := by
  induction ns generalizing W with
  | nil => exact .pure List.Forall₂.nil
  | cons n ns ih =>
    refine .bind (((hns n List.mem_cons_self).stage hW).mono fun st W₁ h₁ hst => ?_)
    refine .bind ((ih (fun m hm => hns m (List.mem_cons_of_mem _ hm)) (hW.mono h₁)).mono ?_)
    exact fun sts W₂ h₂ hsts => .pure (.cons (hst.mono h₂) hsts)

theorem apart_cons {n : Node} (hn : Neat w t n false) {addr : Int}
    (hd : ∀ v ∈ t.variableRegions,
      (Region.mk addr (Annotate.packedSize (n :: ns))).Disjoint v)
    (hlt : Annotate.packedSize (n :: ns) < 2 ^ 31) :
    Apart t ⟨addr, n.facts.size⟩ ∧ frameSize n.facts.size = n.facts.size ∧
      Annotate.packedSize (n :: ns) = n.facts.size + Annotate.packedSize ns ∧
      ∀ v ∈ t.variableRegions,
        (Region.mk (addr + frameSize n.facts.size) (Annotate.packedSize ns)).Disjoint v := by
  have hsum : Annotate.packedSize (n :: ns) = n.facts.size + Annotate.packedSize ns :=
    congrArg (· + _) (align8_of_mod hn.size_mod)
  have hsize := frameSize_of_lt hn.size_mod (by omega)
  refine ⟨fun v hv => .inl ?_, hsize, hsum, fun v hv => ?_⟩ <;>
    · have := hd v hv
      simp only [Region.Disjoint, hsize] at this ⊢
      omega

theorem tidy_unstageAll (hns : ∀ n ∈ ns, Neat w t n false) {W : Set Int} (hW : Covers t W)
    {sts : List Staged} (hsts : List.Forall₂ (KeptBytes W) ns sts) {addr : Int}
    (hd : ∀ v ∈ t.variableRegions, (Region.mk addr (Annotate.packedSize ns)).Disjoint v)
    (hlt : Annotate.packedSize ns < 2 ^ 31) :
    Tidy w t.variableRegions W (unstageAll addr (evaluations t ns) sts) fun _ _ => True := by
  induction ns generalizing W addr sts with
  | nil =>
    rw [evaluations, unstageAll]
    · exact .pure trivial
    · rintro _ _ _ _ _ ⟨⟩
  | cons n ns ih =>
    cases hsts with
    | @cons _ st _ sts hst hsts =>
      have hn := hns n List.mem_cons_self
      obtain ⟨hfirst, -, hsum, hrest⟩ := apart_cons hn hd hlt
      refine .bind ((hn.unstage hW hst hfirst).mono fun _ W' hsub _ => ?_)
      exact ih (fun m hm => hns m (List.mem_cons_of_mem _ hm)) (hW.mono hsub)
        (hsts.imp fun _ _ h => h.mono hsub) hrest (by omega)

theorem tidy_packInto (hns : ∀ n ∈ ns, Neat w t n false) {W : Set Int} (hW : Covers t W) {addr : Int}
    (hd : ∀ v ∈ t.variableRegions, (Region.mk addr (Annotate.packedSize ns)).Disjoint v)
    (hlt : Annotate.packedSize ns < 2 ^ 31) :
    Tidy w t.variableRegions W (packInto addr (evaluations t ns)) fun _ W' =>
      (Region.mk addr (Annotate.packedSize ns)).bytes ⊆ W' := by
  induction ns generalizing W addr with
  | nil =>
    refine .pure ?_
    change (Region.mk addr 0).bytes ⊆ W
    rw [Region.bytes_zero]
    exact Set.empty_subset _
  | cons n ns ih =>
    have hn := hns n List.mem_cons_self
    obtain ⟨hfirst, hsize, hsum, hrest⟩ := apart_cons hn hd hlt
    refine .bind ((hn.into W hW addr hfirst).mono fun _ W₁ h₁ hbytes => ?_)
    refine (ih (fun m hm => hns m (List.mem_cons_of_mem _ hm)) (hW.mono h₁) hrest (by omega)).mono ?_
    intro _ W₂ h₂ hothers
    rw [hsum, Region.bytes_append]
    rw [hsize] at hothers
    exact Set.union_subset (hbytes.trans h₂) hothers

section

variable {rs : List Region} {map : Name} {sym : Symbol} {m : MapRef} {keys : List Node}
  (hf : Framed w t rs) (hm : t.MapAt map sym m) (hk : m.keySize = Annotate.packedSize keys)
  (hkeys : ∀ n ∈ keys, Neat w t n false)

include hf hm hk hkeys

/-- The regions of an access are cleared before the key is written, so no byte of them is left. -/
theorem tidy_writeKey {W : Set Int} (hW : Covers t W) {sts : List Staged}
    (hsts : List.Forall₂ (KeptBytes W) keys sts) {dest : Int}
    (hd : ∀ v ∈ t.variableRegions, (Region.mk dest m.valueSize).Disjoint v) :
    Tidy w t.variableRegions W (writeKey m dest (evaluations t keys) sts) fun _ W' =>
      (Region.mk m.key m.keySize).bytes ⊆ W' ∧ (Region.mk dest m.valueSize).bytes ⊆ W' := by
  have hkey := disjoint_of_inMap hf (Table.inMap_of_mem hm.key_mem)
  have hsmall := hf.inMap_small (Table.inMap_of_mem hm.key_mem)
  refine .bind (.push nofun (spares_of_writes rfl rfl fun v hv => .inl (hkey v hv)) ?_)
  refine .bind (.push nofun (spares_of_writes rfl rfl fun v hv => .inl (hd v hv)) ?_)
  have hsub : W ⊆ W ∪ written [.zero m.key m.keySize] ∪ written [.zero dest m.valueSize] :=
    Set.subset_union_left.trans Set.subset_union_left
  rw [hk] at hkey hsmall
  refine (tidy_unstageAll hkeys (hW.mono hsub) (hsts.imp fun _ _ h => h.mono hsub) hkey hsmall).mono
    fun _ W' h _ => ⟨?_, (bytes_subset_written rfl).trans h⟩
  exact ((bytes_subset_written rfl).trans Set.subset_union_left).trans h

theorem tidy_readMap {W : Set Int} (hW : Covers t W) {dest : Int}
    (hd : ∀ v ∈ t.variableRegions, (Region.mk dest m.valueSize).Disjoint v) :
    Tidy w t.variableRegions W (readMap m (evaluations t keys) dest) fun _ W' =>
      (Region.mk dest m.valueSize).bytes ⊆ W' := by
  rw [readMap_eq]
  refine .bind ((tidy_stageAll hkeys hW).mono fun sts W₁ h₁ hsts => ?_)
  refine .bind ((tidy_writeKey hf hm hk hkeys (hW.mono h₁) hsts hd).mono fun _ W₂ _ h => ?_)
  refine .push (fun r hr => ?_) (fun q hq v hv => ?_) (h.2.trans Set.subset_union_left)
  · obtain rfl := List.mem_singleton.1 hr
    rw [(hf.created _ _ _ hm).1]
    exact h.1
  · obtain rfl := List.mem_singleton.1 hq
    exact .inl (hd v hv)

end

theorem Neat.operand {alone : Bool} {n : Node} (h : Neat w t n alone) (hint : n.facts.isInt = true)
    {W : Set Int} (hW : Covers t W) :
    Tidy w t.variableRegions W (Evaluation.operand n (evaluation t n)) fun _ _ => True := by
  have hscalar := h.scalar hint W hW
  unfold Evaluation.operand
  split
  · split
    · exact .pure trivial
    · exact .bind (hscalar.mono fun _ _ _ _ => .pure trivial)
  · exact .bind (hscalar.mono fun _ _ _ _ => .pure trivial)

variable (w t) in
/-- The arguments of a call are computed, and the helper reads only what has been written. -/
def NeatHelper (tag : Tag) (args : List Node) (b : Builtin) : Prop :=
  ∀ W, Covers t W → Tidy w t.variableRegions W (helper tag (evaluations t args) b) fun h W' =>
    ∃ f : Helper, h = some f ∧ (∀ r ∈ f.reads, r.bytes ⊆ W') ∧
      ∀ dst, (Instruction.call f dst).Spares t.variableRegions

namespace NeatHelper

variable {tag : Tag} {function : Name} {args : List Node} {b : Builtin}

theorem neat {alone : Bool} (h : NeatHelper w t tag args b) (hb : Builtin.ofName? function = some b)
    (hs : tag.facts.shape = some .int) : Neat w t (.call tag function args) alone := by
  refine .of_int hs fun W hW => ?_
  rw [call_scalar hb (by rw [Facts.isInt_of_shape hs]; rfl)]
  refine .bind ((h W hW).mono fun _ W' _ hpost => ?_)
  obtain ⟨f, rfl, hreads, hspares⟩ := hpost
  exact .bind (.newTemp _ fun dst => .bind (.push hreads (hspares _) (.pure trivial)))

theorem statement (h : NeatHelper w t tag args b) (hb : Builtin.ofName? function = some b)
    {W : Set Int} (hW : Covers t W) :
    Tidy w t.variableRegions W (Flow.statement t (.call tag function args)) fun _ _ => True := by
  rw [statement_call hb]
  refine .bind ((h W hW).mono fun _ W' _ hpost => ?_)
  obtain ⟨f, rfl, hreads, hspares⟩ := hpost
  exact .push hreads (hspares _) trivial

end NeatHelper

theorem neatHelper_query {tag : Tag} {b : Builtin} (hmem : b ∈ [Builtin.pid, .tid, .cpu, .ns]) :
    NeatHelper w t tag [] b := by
  intro W _
  rcases query_cases hmem with rfl | rfl | rfl | rfl <;>
    exact .pure ⟨_, rfl, nofun, fun _ => spares_of_none rfl rfl⟩

theorem neatHelper_arg {tag index : Tag} {v : Int64} :
    NeatHelper w t tag [.int index v] .arg :=
  fun _ _ => .pure ⟨_, rfl, nofun, fun _ => spares_of_none rfl rfl⟩

theorem neatHelper_comm {tag : Tag} {addr : Int} {sh : Shape}
    (hf : Framed w t [⟨addr, sh.size⟩]) (hs : tag.facts.shape = some sh)
    (ha : tag.facts.addr = some addr) : NeatHelper w t tag [] .comm := by
  intro W _
  simp only [helper, addrOf_of_addr ha, pure_bind, Facts.size_of_shape hs]
  refine .pure ⟨_, rfl, List.forall_mem_nil _, fun _ => spares_of_writes rfl rfl fun v hv => .inl ?_⟩
  exact disjoint_of_own hf List.mem_cons_self v hv

theorem neatHelper_strcmp {tag : Tag} {lhs rhs : Node} (hl : Neat w t lhs true)
    (hr : Neat w t rhs true) (hil : lhs.facts.isInt = false) (hir : rhs.facts.isInt = false) :
    NeatHelper w t tag [lhs, rhs] .strcmp := by
  intro W hW
  refine .bind ((hl.slot hil rfl W hW).mono fun left W₁ h₁ hleft => ?_)
  refine .bind ((hr.slot hir rfl W₁ (hW.mono h₁)).mono fun right W₂ h₂ hright => ?_)
  refine .pure ⟨_, rfl, fun r hr => ?_, fun _ => spares_of_none rfl rfl⟩
  rcases List.mem_cons.1 hr with rfl | hr
  · exact ((Region.bytes_subset (Nat.min_le_left ..)).trans hleft).trans h₂
  · obtain rfl := List.mem_singleton.1 hr
    exact (Region.bytes_subset (Nat.min_le_right ..)).trans hright

section

variable {rs : List Region} {alone : Bool}

theorem neat_text {tag : Tag} {x : String} {addr : Int} {sh : Shape}
    (hf : Framed w t (ownRegion alone addr sh.size))
    (hsh : sh = ⟨.str, align8 ((Text.utf8 x).length + 1)⟩) (hs : tag.facts.shape = some sh)
    (ha : tag.facts.addr = some addr) : Neat w t (.text tag x) alone := by
  have hlt : (Text.utf8 x).length < sh.size := by
    rw [hsh]
    exact le_align8 _
  have hint : tag.facts.isInt = false := by
    rw [Facts.isInt_of_shape hs, hsh]
    rfl
  refine .of_built addr (i := fun dest => .bytes dest (padded x sh.size)) rfl hs
    (.inr ⟨by rw [hsh], Nat.zero_lt_of_lt hlt, by rw [hsh]; exact align8_mod _⟩) (by rw [hsh]) rfl
    (fun halone => ?_) (fun dest => ?_) ?_ fun dest => ⟨rfl, ?_, rfl⟩
  · subst halone
    exact fun v hv => .inl (disjoint_of_own hf List.mem_cons_self v hv)
  · simp only [evaluation, built, storing, hint, Facts.size_of_shape hs]
    rfl
  · simp only [evaluation, built, storing, hint, addrOf_of_addr ha, pure_bind,
      Facts.size_of_shape hs]
    rfl
  · rw [writes, padded_eq hlt, Bytes.length_extend]

theorem neat_comm {tag : Tag} {function : Name} {addr : Int} {sh : Shape}
    (hf : Framed w t (ownRegion alone addr sh.size)) (hb : Builtin.ofName? function = some .comm)
    (hsh : sh = ⟨.str, Builtin.commSize⟩) (hs : tag.facts.shape = some sh)
    (ha : tag.facts.addr = some addr) : Neat w t (.call tag function []) alone := by
  have hint : tag.facts.isInt = false := by
    rw [Facts.isInt_of_shape hs, hsh]
    rfl
  refine .of_built addr (i := fun dest => .call (.comm dest sh.size) none) rfl hs
    (.inr ⟨by rw [hsh], by rw [hsh]; decide, by rw [hsh]; decide⟩) (by rw [hsh]) rfl
    (fun halone => ?_) (fun dest => ?_) ?_ fun dest => ⟨rfl, rfl, rfl⟩
  · subst halone
    exact fun v hv => .inl (disjoint_of_own hf List.mem_cons_self v hv)
  · simp only [evaluation, built, storing, hint, hb, if_true, Facts.size_of_shape hs]
    rfl
  · simp only [evaluation, built, storing, hint, addrOf_of_addr ha, pure_bind, hb, if_true,
      Facts.size_of_shape hs]
    rfl

theorem neat_of_standing {n : Node} {sh : Shape} (hs : n.facts.shape = some sh) (hv : sh.IsValue)
    (hinto : n.facts.isInt = false → ∀ dest, (evaluation t n).into dest = (do
      let source ← (evaluation t n).slot
      if source ≠ dest then Build.push (.copy dest source n.facts.size)))
    (hscalar : n.facts.isInt = true → ∀ W, Covers t W →
      Tidy w t.variableRegions W (evaluation t n).scalar fun _ _ => True)
    (hslot : n.facts.isInt = false → ∀ W, Covers t W →
      Tidy w t.variableRegions W (evaluation t n).slot fun addr W' =>
        (Region.mk addr n.facts.size).bytes ⊆ W') : Neat w t n alone := by
  cases hint : n.facts.isInt with
  | true =>
    refine .of_int ?_ (hscalar hint)
    rw [Facts.isInt_of_shape hs, beq_iff_eq] at hint
    rw [hs, hv.eq_int hint]
  | false =>
    refine ⟨⟨sh, hs, hv⟩, hscalar, fun W hW dest hd => ?_, fun h _ => hslot h⟩
    rw [hinto hint]
    refine .bind ((hslot hint W hW).mono fun source W' _ hbytes => ?_)
    by_cases heq : source = dest
    · rw [if_neg (not_not.2 heq)]
      exact .pure (heq ▸ hbytes)
    · rw [if_pos heq]
      refine .push (fun r hr => ?_) (spares_of_writes rfl rfl hd) (bytes_subset_written rfl)
      obtain rfl := List.mem_singleton.1 hr
      exact hbytes

theorem neat_var {tag : Tag} {name : Name} {i : Nat} {sh : Shape} {addr : Int} (ht : t.Ready)
    (hvar : t.VariableAt name i sh addr) (hs : tag.facts.shape = some sh)
    (ha : tag.facts.addr = some addr) : Neat w t (.var tag name) alone := by
  have hv : sh.IsValue := by
    obtain ⟨s, hn, -, hsh, -⟩ := hvar
    obtain ⟨sh', hsh', hv⟩ := (ht.names hn).shape
    obtain rfl := Option.some.inj (hsh.symm.trans hsh')
    exact hv
  have hmem := mem_of_variableAt hvar
  refine neat_of_standing hs hv (fun hint dest => ?_) (fun hint W hW => ?_) fun _ W hW => ?_
  · have hint' : tag.facts.isInt = false := hint
    simp only [evaluation, standing, storing, hint']
    rfl
  · have hint' : tag.facts.isInt = true := hint
    simp only [evaluation, standing, addrOf_of_addr ha, pure_bind]
    refine .bind (.newTemp _ fun dst => .bind (.push (fun r hr => ?_) (spares_of_none rfl rfl)
      (.pure trivial)))
    obtain rfl := List.mem_singleton.1 hr
    rw [Facts.isInt_of_shape hs, beq_iff_eq] at hint'
    rw [hv.eq_int hint'] at hmem
    exact hW _ hmem
  · simp only [evaluation, standing, addrOf_of_addr ha]
    refine .pure ?_
    change (Region.mk addr tag.facts.size).bytes ⊆ W
    rw [Facts.size_of_shape hs]
    exact hW _ hmem

theorem neat_entry {tag : Tag} {map : Name} {keys : List Node} {sym : Symbol} {m : MapRef}
    (ht : t.Ready) (hf : Framed w t rs) (hm : t.MapAt map sym m)
    (hk : m.keySize = Annotate.packedSize keys) (hkeys : ∀ n ∈ keys, Neat w t n false)
    (hs : tag.facts.shape = some .int) (hid : tag.facts.map = some m.id) :
    Neat w t (.mapAccess tag map keys) alone := by
  refine .of_int hs fun W hW => ?_
  have hvalue := disjoint_of_inMap hf (Table.inMap_of_mem hm.value_mem)
  simp only [evaluation, standing, mapRef_of_mapAt hm hid, pure_bind]
  refine .bind ((tidy_readMap hf hm hk hkeys hW hvalue).mono fun _ W' _ hbytes => ?_)
  refine .bind (.newTemp _ fun dst => .bind (.push (fun r hr => ?_) (spares_of_none rfl rfl)
    (.pure trivial)))
  obtain rfl := List.mem_singleton.1 hr
  exact (Region.bytes_subset (hm.valueSize_ge ht)).trans hbytes

theorem neat_stringEntry {tag : Tag} {map : Name} {keys : List Node} {sym : Symbol} {m : MapRef}
    {sh : Shape} {addr : Int} (ht : t.Ready) (hf : Framed w t (rs ++ [⟨addr, sh.size⟩]))
    (hm : t.MapAt map sym m) (hk : m.keySize = Annotate.packedSize keys)
    (hkeys : ∀ n ∈ keys, Neat w t n false) (hsym : sym.facts.shape = some sh)
    (hstr : sh.type = .str) (hs : tag.facts.shape = some sh) (hid : tag.facts.map = some m.id)
    (ha : tag.facts.addr = some addr) : Neat w t (.mapAccess tag map keys) alone := by
  have hvsize : m.valueSize = sh.size := by rw [← hm.valueSize, Facts.size_of_shape hsym]
  have hv : sh.IsValue := by
    obtain ⟨i, hn⟩ := hm.names
    obtain ⟨sh', hsh', hv⟩ := (ht.names hn).shape
    obtain rfl := Option.some.inj (hsym.symm.trans hsh')
    exact hv
  refine neat_of_standing hs hv (fun hint dest => into_of_entry hint rfl dest) (fun hint => ?_)
    fun _ W hW => ?_
  · have hint' : tag.facts.isInt = true := hint
    rw [Facts.isInt_of_shape hs, hstr] at hint'
    cases hint'
  · have hown := disjoint_of_own hf (List.mem_append_right _ List.mem_cons_self)
    rw [← hvsize] at hown
    simp only [evaluation, standing, mapRef_of_mapAt hm hid, addrOf_of_addr ha, pure_bind]
    refine .bind ((tidy_readMap hf hm hk hkeys hW hown).mono fun _ W' _ hbytes => .pure ?_)
    change (Region.mk addr tag.facts.size).bytes ⊆ W'
    rwa [Facts.size_of_shape hs, ← hvsize]

theorem neat_binary {tag : Tag} {op : BinaryOp} {lhs rhs : Node} (hl : Neat w t lhs true)
    (hr : Neat w t rhs true) (hil : lhs.facts.isInt = true) (hir : rhs.facts.isInt = true)
    (hs : tag.facts.shape = some .int) : Neat w t (.binary tag op lhs rhs) alone := by
  refine .of_int hs fun W hW => ?_
  simp only [evaluation, standing]
  refine .bind ((hl.scalar hil W hW).mono fun l W₁ h₁ _ => ?_)
  refine .bind ((hr.operand hir (hW.mono h₁)).mono fun x W₂ _ _ => ?_)
  refine .bind (.newTemp _ fun dst => ?_)
  cases op with
  | arith op => exact .bind (.push nofun (spares_of_none rfl rfl) (.pure trivial))
  | compare op => exact .bind (.push nofun (spares_of_none rfl rfl) (.pure trivial))

theorem neat_of_placed (ht : t.Ready) {n n' : Node} (h : Placed t alone n n' rs)
    (hf : Framed w t rs) : Neat w t n' alone := by
  induction h with
  | @int _ _ tag' v _ hs' =>
    refine .of_int hs' fun W _ => ?_
    simp only [evaluation, standing]
    exact .bind (.newTemp _ fun dst => .bind (.push (List.forall_mem_nil _) (spares_of_none rfl rfl) (.pure trivial)))
  | text hsh _ hs' ha => exact neat_text hf hsh hs' ha
  | var hvar _ hs' ha => exact neat_var ht hvar hs' ha
  | entry hm hk hkeys _ hs' hid ih =>
    refine neat_entry ht hf hm (hk.trans (packedSize_placed hkeys).symm) ?_ hs' hid
    rintro _ hn
    obtain ⟨k, hk, rfl⟩ := List.mem_map.1 hn
    exact ih k hk (hf.of_mem hk)
  | stringEntry hm hk hkeys hsym hstr _ hs' hid ha ih =>
    refine neat_stringEntry ht hf hm (hk.trans (packedSize_placed hkeys).symm) ?_ hsym
      hstr hs' hid ha
    rintro _ hn
    obtain ⟨k, hk, rfl⟩ := List.mem_map.1 hn
    exact ih k hk (hf.left.of_mem hk)
  | binary hpl hpr hsl hsr _ hs' ihl ihr =>
    refine neat_binary (ihl hf.left) (ihr hf.right) ?_ ?_ hs'
    · rw [Facts.isInt_of_shape (hpl.shape_eq.trans hsl)]
      rfl
    · rw [Facts.isInt_of_shape (hpr.shape_eq.trans hsr)]
      rfl
  | query hb hmem _ hs' => exact (neatHelper_query hmem).neat hb hs'
  | arg hb _ _ _ hs' => exact neatHelper_arg.neat hb hs'
  | comm hb hsh _ hs' ha => exact neat_comm hf hb hsh hs' ha
  | strcmp hb hpl hpr hsl hsr _ hs' ihl ihr =>
    exact (neatHelper_strcmp (ihl hf.left) (ihr hf.right) (hpl.isInt_of_str hsl)
      (hpr.isInt_of_str hsr)).neat hb hs'

theorem neatHelper_of_placed (ht : t.Ready) {tag tag' : Tag} {function : Name}
    {args args' : List Node}
    (h : Placed t true (.call tag function args) (.call tag' function args') rs)
    (hf : Framed w t rs) :
    ∃ b, Builtin.ofName? function = some b ∧ NeatHelper w t tag' args' b := by
  cases h with
  | query hb hmem _ _ => exact ⟨_, hb, neatHelper_query hmem⟩
  | arg hb _ _ _ _ => exact ⟨_, hb, neatHelper_arg⟩
  | comm hb _ _ hs' ha => exact ⟨_, hb, neatHelper_comm hf hs' ha⟩
  | strcmp hb hpl hpr hsl hsr _ _ =>
    exact ⟨_, hb, neatHelper_strcmp (neat_of_placed ht hpl hf.left) (neat_of_placed ht hpr hf.right)
      (hpl.isInt_of_str hsl) (hpr.isInt_of_str hsr)⟩

end

end

end Flow

end TraceScript
