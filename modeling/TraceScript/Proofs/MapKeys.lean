import TraceScript.Proofs.Effects

namespace TraceScript

namespace Node

/-- The value of an expression in a state of a program. -/
def valueIn (w : World) (t : Table) (n : Node) (σ : Flow.State) : List UInt8 × Outside :=
  n.value w t.scope (t.contents σ.frame) σ.outside

def packedIn (w : World) (t : Table) (ns : List Node) (σ : Flow.State) : List UInt8 × Outside :=
  packed w t.scope (t.contents σ.frame) ns σ.outside

def isEntry : Node → Bool
  | .mapAccess .. => true
  | _ => false

end Node

namespace Flow

open Instruction Evaluation

/-- Somewhere to build a value: inside a known region, and apart from whatever stands elsewhere. -/
structure Room (t : Table) (rs ps : List Region) (r : Region) : Prop where
  subset : t.regions ++ rs ⊆ ps
  inside : ∃ q ∈ ps, r.Inside q
  apart : ∀ q, t.Standing rs q → q.addr = r.addr ∨ r.Disjoint q

section

variable (w : World) (t : Table) (n n' : Node) (rs : List Region)

/-- The value can be computed in a temporary. -/
def LowersScalar : Prop :=
  ∀ s : Builder, ∃ (dst : Nat) (c : Chunk), Adds w (Framed w t rs) (t.regions ++ rs)
    (evaluation t n').scalar s dst c ∧ dst < s.count + c.temps.length ∧
    (Framed w t rs → ∀ σ, Evolves (t.mapRegions ++ rs) s.count (n.valueIn w t σ).2 σ
      (runAll w c.code σ) ∧ (runAll w c.code σ).temps dst = Bytes.toWord (n.valueIn w t σ).1)

/-- The value can be read from where it stands. -/
def LowersSlot : Prop :=
  ∀ s : Builder, ∃ addr c, Adds w (Framed w t rs) (t.regions ++ rs)
    (evaluation t n').slot s addr c ∧ t.Standing rs ⟨addr, n.facts.size⟩ ∧
    (Framed w t rs → ∀ σ, Evolves (t.mapRegions ++ rs) s.count (n.valueIn w t σ).2 σ
      (runAll w c.code σ) ∧ (runAll w c.code σ).frame.read addr n.facts.size = (n.valueIn w t σ).1)

/-- The value depends on variables only and can be written in one go. -/
structure LowersDeferred : Prop where
  pure : ∃ f : Variables → List UInt8, ∀ vars o, n.value w t.scope vars o = (f vars, o)
  into : ∀ (ps : List Region) (dest : Int) (s : Builder), ∃ c,
    Adds w (Room t rs ps ⟨dest, n.facts.size⟩) ps ((evaluation t n').into dest) s () c ∧
    ∀ σ, runAll w c.code σ = σ.write dest (n.valueIn w t σ).1

/-- The value can be written to an address. -/
def LowersInto : Prop :=
  ∀ (ps : List Region) (dest : Int) (s : Builder), ∃ c,
    Adds w (Framed w t rs ∧ Room t rs ps ⟨dest, n.facts.size⟩) ps
      ((evaluation t n').into dest) s () c ∧
    (Framed w t rs → ∀ σ, Evolves (t.mapRegions ++ rs ++ [⟨dest, n.facts.size⟩]) s.count
      (n.valueIn w t σ).2 σ (runAll w c.code σ) ∧
      (runAll w c.code σ).frame.read dest n.facts.size = (n.valueIn w t σ).1)

/-- An expression is computed in each way in which its value may be wanted. -/
structure Lowers (alone : Bool) : Prop where
  shape : ∃ sh, n.facts.shape = some sh ∧ n'.facts.shape = some sh ∧ sh.IsValue
  length : ∀ σ, (n.valueIn w t σ).1.length = n.facts.size
  scalar : n.facts.shape = some .int → LowersScalar w t n n' rs
  slot : n.facts.type = some .str → alone = true ∨ n'.isEntry = true → LowersSlot w t n n' rs
  deferred : n.facts.type = some .str → n'.isEntry = false → LowersDeferred w t n n' rs

end

namespace Lowers

variable {w : World} {t : Table} {n n' : Node} {rs : List Region} {alone : Bool}

theorem cases (h : Lowers w t n n' rs alone) :
    n.facts.shape = some .int ∧ n'.facts.isInt = true ∨
      n.facts.type = some .str ∧ n'.facts.isInt = false := by
  obtain ⟨sh, hn, hn', hv⟩ := h.shape
  rw [Facts.isInt_of_shape hn']
  rcases hv with rfl | ⟨hstr, -, -⟩
  · exact .inl ⟨hn, rfl⟩
  · refine .inr ⟨(Facts.shape_eq_some.1 hn).1.trans (congrArg some hstr), ?_⟩
    rw [hstr]
    rfl

theorem size_eq (h : Lowers w t n n' rs alone) : n'.facts.size = n.facts.size := by
  obtain ⟨sh, hn, hn', -⟩ := h.shape
  rw [Facts.size_of_shape hn, Facts.size_of_shape hn']

theorem size_mod (h : Lowers w t n n' rs alone) : n.facts.size % 8 = 0 := by
  obtain ⟨sh, hn, -, hv⟩ := h.shape
  rw [Facts.size_of_shape hn]
  exact hv.size_mod

theorem packedSize_eq (h : Lowers w t n n' rs alone) : n.packedSize = n.facts.size :=
  align8_of_mod h.size_mod

theorem extend_value (h : Lowers w t n n' rs alone) (σ : State) :
    Bytes.extend n.packedSize (n.valueIn w t σ).1 = (n.valueIn w t σ).1 :=
  Bytes.extend_of_length (by rw [h.packedSize_eq, h.length])

theorem packedIn_cons (h : Lowers w t n n' rs alone) {qs : List Region} {m : Nat} {σ σ₁ : State}
    {ns : List Node} (hf : Framed w t qs)
    (he : Evolves (t.mapRegions ++ qs) m (n.valueIn w t σ).2 σ σ₁) :
    Node.packedIn w t (n :: ns) σ =
      ((n.valueIn w t σ).1 ++ (Node.packedIn w t ns σ₁).1, (Node.packedIn w t ns σ₁).2) := by
  rw [Node.packedIn, Node.packed_cons, ← Node.valueIn, h.extend_value, Node.packedIn,
    hf.contents_eq he.frame, he.outside]

end Lowers

namespace Evaluation.Staged

/-- Where a value was put aside. -/
def Kept (t : Table) (k : Placing) (hi : Nat) : Staged → Prop
  | temp u => k.node.facts.shape = some .int ∧ u < hi
  | slot addr => t.Standing k.regions ⟨addr, k.node.facts.size⟩
  | deferred => k.node.facts.type = some .str ∧ k.placed.isEntry = false

/-- What was put aside is a given value. -/
structure Holds (w : World) (t : Table) (σ : State) (k : Placing) (st : Staged)
    (v : List UInt8) : Prop where
  length : v.length = k.node.facts.size
  content : match st with
    | temp u => σ.temps u = Bytes.toWord v
    | slot addr => σ.frame.read addr k.node.facts.size = v
    | deferred => ∀ o, k.node.value w t.scope (t.contents σ.frame) o = (v, o)

theorem Kept.mono {t : Table} {k : Placing} {hi hi' : Nat} {st : Staged}
    (h : st.Kept t k hi) (hhi : hi ≤ hi') : st.Kept t k hi' := by
  cases st with
  | temp u => exact ⟨h.1, Nat.lt_of_lt_of_le h.2 hhi⟩
  | slot addr => exact h
  | deferred => exact h

theorem Holds.evolve {w : World} {t : Table} {σ σ' : State} {k : Placing} {st : Staged}
    {v : List UInt8} {hi : Nat} {qs : List Region} {o : Outside} (h : Holds w t σ k st v)
    (hk : st.Kept t k hi) (hf : Framed w t (k.regions ++ qs))
    (he : Evolves (t.mapRegions ++ qs) hi o σ σ') : Holds w t σ' k st v := by
  refine ⟨h.length, ?_⟩
  have hcontent := h.content
  cases st with
  | temp u => exact (he.temps u hk.2).trans hcontent
  | slot addr => exact (he.frame.read fun r hr => hf.standing_apart hk hr).trans hcontent
  | deferred =>
    intro o'
    rw [hf.right.contents_eq he.frame]
    exact hcontent o'

end Evaluation.Staged

theorem stage_of_entry {n : Node} {e : Evaluation} (hint : n.facts.isInt = false)
    (h : n.isEntry = true) : stage n e = (do return .slot (← e.slot)) := by
  unfold stage
  rw [if_neg (by rw [hint]; exact Bool.false_ne_true)]
  cases n with
  | mapAccess => rfl
  | _ => cases h

theorem stage_of_not_entry {n : Node} {e : Evaluation} (hint : n.facts.isInt = false)
    (h : n.isEntry = false) : stage n e = Pure.pure .deferred := by
  unfold stage
  rw [if_neg (by rw [hint]; exact Bool.false_ne_true)]
  cases n with
  | mapAccess => cases h
  | _ => rfl

section

variable {w : World} {t : Table} {k : Placing}

theorem stage_adds (h : Lowers w t k.node k.placed k.regions false) (s : Builder) :
    ∃ st c, Adds w (Framed w t k.regions) (t.regions ++ k.regions)
      (stage k.placed (evaluation t k.placed)) s st c ∧
      st.Kept t k (s.count + c.temps.length) ∧
      (Framed w t k.regions → ∀ σ, Evolves (t.mapRegions ++ k.regions) s.count
        (k.node.valueIn w t σ).2 σ (runAll w c.code σ) ∧
        Staged.Holds w t (runAll w c.code σ) k st (k.node.valueIn w t σ).1) := by
  rcases h.cases with ⟨hint, hint'⟩ | ⟨hstr, hint'⟩
  · obtain ⟨dst, c, hadds, hhi, hrun⟩ := h.scalar hint s
    refine ⟨.temp dst, c ++ {}, ?_, ⟨hint, by simpa using hhi⟩, fun hf σ => ?_⟩
    · unfold stage
      simp only [hint', if_true]
      exact hadds.bind (.pure _)
    · obtain ⟨hevolves, hvalue⟩ := hrun hf σ
      simp only [Chunk.code_append, runAll_append, runAll_nil]
      exact ⟨hevolves, h.length σ, hvalue⟩
  · by_cases hentry : k.placed.isEntry = true
    · obtain ⟨addr, c, hadds, hstands, hrun⟩ := h.slot hstr (.inr hentry) s
      refine ⟨.slot addr, c ++ {}, ?_, hstands, fun hf σ => ?_⟩
      · rw [stage_of_entry hint' hentry]
        exact hadds.bind (.pure _)
      · obtain ⟨hevolves, hvalue⟩ := hrun hf σ
        simp only [Chunk.code_append, runAll_append, runAll_nil]
        exact ⟨hevolves, h.length σ, hvalue⟩
    · have hentry' : k.placed.isEntry = false := Bool.eq_false_iff.2 hentry
      obtain ⟨f, hpure⟩ := (h.deferred hstr hentry').pure
      refine ⟨.deferred, {}, ?_, ⟨hstr, hentry'⟩, fun hf σ => ⟨?_, h.length σ, fun o => ?_⟩⟩
      · rw [stage_of_not_entry hint' hentry']
        exact .pure _
      · rw [Node.valueIn, hpure]
        exact .refl ..
      · rw [Node.valueIn, hpure, runAll_nil, hpure]

theorem unstage_adds (h : Lowers w t k.node k.placed k.regions false) {st : Staged} {hi : Nat}
    (hk : st.Kept t k hi) (dest : Int) (s : Builder) :
    ∃ c, Adds w (Framed w t k.regions ∧ t.InMap ⟨dest, k.node.facts.size⟩)
      (t.regions ++ k.regions) (unstage k.placed (evaluation t k.placed) dest st) s () c ∧
      ∀ σ v, Staged.Holds w t σ k st v → runAll w c.code σ = σ.write dest v := by
  cases st with
  | temp u =>
    have hsize : k.node.facts.size = 8 := Facts.size_of_shape hk.1
    refine ⟨_, .push ?_, fun σ v hv => ?_⟩
    · rintro ⟨-, hin⟩
      refine ⟨?_, trivial⟩
      rintro r (_ | ⟨_, ⟨⟩⟩)
      rw [hsize] at hin
      exact hin.inside _
    · have htemp : σ.temps u = Bytes.toWord v := hv.content
      have hlen : v.length = 8 := hv.length.trans hsize
      simp only [runAll_cons, runAll_nil, run, htemp, Bytes.ofWord_toWord hlen]
  | slot addr =>
    refine ⟨_, .push ?_, fun σ v hv => ?_⟩
    · rintro ⟨hf, hin⟩
      rw [h.size_eq]
      refine ⟨?_, hf.standing_apart_inMap hk hin⟩
      rintro r (_ | ⟨_, _ | ⟨_, ⟨⟩⟩⟩)
      · exact hin.inside _
      · exact ⟨_, hk.mem, .refl _⟩
    · have hread : σ.frame.read addr k.node.facts.size = v := hv.content
      simp only [runAll_cons, runAll_nil, run, h.size_eq, hread]
  | deferred =>
    obtain ⟨c, hadds, hrun⟩ := (h.deferred hk.1 hk.2).into (t.regions ++ k.regions) dest s
    refine ⟨c, hadds.mono ?_ fun _ => List.Subset.refl _, fun σ v hv => ?_⟩
    · rintro ⟨hf, hin⟩
      exact ⟨List.Subset.refl _, hin.inside _, fun p hp => .inr (hf.standing_apart_inMap hp hin)⟩
    · have hvalue : k.node.valueIn w t σ = (v, σ.outside) := hv.content σ.outside
      rw [hrun, hvalue]

end

namespace Evaluation.Staged

def KeptAll (t : Table) (hi : Nat) : List Placing → List Staged → Prop :=
  List.Forall₂ fun k st => st.Kept t k hi

/-- What was put aside are some values, which follow one another. -/
inductive HoldsAll (w : World) (t : Table) (σ : State) :
    List Placing → List Staged → List UInt8 → Prop
  | nil : HoldsAll w t σ [] [] []
  | cons {k : Placing} {st : Staged} {v data : List UInt8} {ks : List Placing}
      {sts : List Staged} : st.Holds w t σ k v → HoldsAll w t σ ks sts data →
      HoldsAll w t σ (k :: ks) (st :: sts) (v ++ data)

theorem KeptAll.mono {t : Table} {hi hi' : Nat} {ks : List Placing} {sts : List Staged}
    (h : KeptAll t hi ks sts) (hhi : hi ≤ hi') : KeptAll t hi' ks sts :=
  List.Forall₂.imp (fun _ _ hk => hk.mono hhi) h

theorem HoldsAll.evolve {w : World} {t : Table} {σ σ' : State} {ks : List Placing}
    {sts : List Staged} {data : List UInt8} {hi : Nat} {qs : List Region} {o : Outside}
    (h : HoldsAll w t σ ks sts data) (hk : KeptAll t hi ks sts)
    (hf : Framed w t (ks.flatMap Placing.regions ++ qs))
    (he : Evolves (t.mapRegions ++ qs) hi o σ σ') : HoldsAll w t σ' ks sts data := by
  induction h with
  | nil => exact .nil
  | @cons k st v data ks sts hv _ ih =>
    obtain ⟨hk₁, hks⟩ := List.forall₂_cons.1 hk
    rw [List.flatMap_cons, List.append_assoc] at hf
    refine .cons (hv.evolve hk₁ (hf.sublist ?_) he) (ih hks hf.right)
    exact (List.Sublist.refl _).append (List.sublist_append_right ..)

theorem HoldsAll.length {w : World} {t : Table} {σ : State} {ks : List Placing}
    {sts : List Staged} {data : List UInt8} (h : HoldsAll w t σ ks sts data)
    (hks : ∀ k ∈ ks, Lowers w t k.node k.placed k.regions false) :
    data.length = Annotate.packedSize (ks.map Placing.node) := by
  induction h with
  | nil => rfl
  | @cons k st v data ks sts hv _ ih =>
    rw [List.length_append, hv.length, ih fun k hk => hks k (List.mem_cons_of_mem _ hk),
      ← (hks k List.mem_cons_self).packedSize_eq]
    rfl

end Evaluation.Staged

open Evaluation.Staged

section

variable {w : World} {t : Table} {ks : List Placing}

theorem stageAll_adds (hks : ∀ k ∈ ks, Lowers w t k.node k.placed k.regions false) (s : Builder) :
    ∃ sts c, Adds w (Framed w t (ks.flatMap Placing.regions))
      (t.regions ++ ks.flatMap Placing.regions)
      (stageAll (evaluations t (ks.map Placing.placed))) s sts c ∧
      KeptAll t (s.count + c.temps.length) ks sts ∧
      (Framed w t (ks.flatMap Placing.regions) → ∀ σ,
        Evolves (t.mapRegions ++ ks.flatMap Placing.regions) s.count
          (Node.packedIn w t (ks.map Placing.node) σ).2 σ (runAll w c.code σ) ∧
        HoldsAll w t (runAll w c.code σ) ks sts
          (Node.packedIn w t (ks.map Placing.node) σ).1) := by
  induction ks generalizing s with
  | nil => exact ⟨[], {}, .pure _, .nil, fun _ σ => ⟨.refl .., .nil⟩⟩
  | cons k ks ih =>
    have hk := hks k List.mem_cons_self
    obtain ⟨st, c, hadds, hkept, hrun⟩ := stage_adds hk s
    obtain ⟨sts, d, hadds', hkept', hrun'⟩ :=
      ih (fun k hk => hks k (List.mem_cons_of_mem _ hk)) (s.append c)
    simp only [Builder.count_append] at hkept' hrun'
    have hfst : (k.regions).Sublist (k.regions ++ ks.flatMap Placing.regions) :=
      List.sublist_append_left ..
    have hsnd : (ks.flatMap Placing.regions).Sublist (k.regions ++ ks.flatMap Placing.regions) :=
      List.sublist_append_right ..
    refine ⟨st :: sts, c ++ (d ++ {}), ?_, ?_, fun hf σ => ?_⟩
    · exact (hadds.sublist hfst).bind ((hadds'.sublist hsnd).bind (.pure _))
    · refine .cons (hkept.mono ?_) (hkept'.mono ?_)
      · simp only [Chunk.temps_append, List.length_append]
        omega
      · simp only [Chunk.temps_append, List.length_append, List.length_nil]
        omega
    · simp only [List.flatMap_cons] at hf ⊢
      obtain ⟨he₁, hv⟩ := hrun hf.left σ
      obtain ⟨he₂, hvs⟩ := hrun' hf.right (runAll w c.code σ)
      simp only [Chunk.code_append, runAll_append, runAll_nil]
      generalize runAll w c.code σ = σ₁ at he₁ hv he₂ hvs ⊢
      rw [List.map_cons, hk.packedIn_cons hf.left he₁]
      exact ⟨(he₁.sublist hfst (Nat.le_refl _)).trans (he₂.sublist hsnd (Nat.le_add_right ..)),
        .cons (hv.evolve hkept hf he₂) hvs⟩

theorem unstageAll_adds (hks : ∀ k ∈ ks, Lowers w t k.node k.placed k.regions false)
    {sts : List Staged} {hi : Nat} (hk : KeptAll t hi ks sts) (addr : Int) (s : Builder) :
    ∃ c, Adds w (Framed w t (ks.flatMap Placing.regions) ∧
        t.InMap ⟨addr, Annotate.packedSize (ks.map Placing.node)⟩)
      (t.regions ++ ks.flatMap Placing.regions)
      (unstageAll addr (evaluations t (ks.map Placing.placed)) sts) s () c ∧
      (Framed w t (ks.flatMap Placing.regions) →
        t.InMap ⟨addr, Annotate.packedSize (ks.map Placing.node)⟩ →
        ∀ σ data, HoldsAll w t σ ks sts data → runAll w c.code σ = σ.write addr data) := by
  induction ks generalizing s sts addr with
  | nil =>
    cases hk
    refine ⟨{}, .pure _, fun _ _ σ data hdata => ?_⟩
    cases hdata
    simp [State.write, Memory.write_nil]
  | cons k ks ih =>
    cases hk with
    | @cons _ st _ sts hk₁ hks₁ =>
      have hlow := hks k List.mem_cons_self
      have hrest := fun k hk => hks k (List.mem_cons_of_mem _ hk)
      have hsize : Annotate.packedSize ((k :: ks).map Placing.node) =
          k.node.facts.size + Annotate.packedSize (ks.map Placing.node) := by
        rw [← hlow.packedSize_eq]
        rfl
      -- The address of the rest is exact, since the key is smaller than any frame size.
      have hnext : Framed w t (k.regions ++ ks.flatMap Placing.regions) →
          t.InMap ⟨addr, Annotate.packedSize ((k :: ks).map Placing.node)⟩ →
          addr + frameSize k.placed.facts.size = addr + (k.node.facts.size : Int) ∧
          t.InMap ⟨addr, k.node.facts.size⟩ ∧
          t.InMap ⟨addr + k.node.facts.size, Annotate.packedSize (ks.map Placing.node)⟩ := by
        rintro hf ⟨q, hq, hin⟩
        rw [hsize] at hin
        have hhead : t.InMap ⟨addr, k.node.facts.size⟩ := ⟨q, hq, hin.head⟩
        refine ⟨?_, hhead, q, hq, hin.tail hlow.size_mod⟩
        rw [hlow.size_eq, frameSize_of_lt hlow.size_mod (hf.inMap_small hhead)]
      obtain ⟨c, hadds, hrun⟩ := unstage_adds hlow hk₁ addr s
      obtain ⟨d, hadds', hrun'⟩ := ih hrest hks₁ (addr + frameSize k.placed.facts.size) (s.append c)
      have hfst : (k.regions).Sublist (k.regions ++ ks.flatMap Placing.regions) :=
        List.sublist_append_left ..
      have hsnd : (ks.flatMap Placing.regions).Sublist
          (k.regions ++ ks.flatMap Placing.regions) := List.sublist_append_right ..
      refine ⟨c ++ d, ?_, fun hf hin σ data hdata => ?_⟩
      · refine (hadds.mono ?_ fun _ => ((List.Sublist.refl _).append hfst).subset).bind
          (hadds'.mono ?_ fun _ => ((List.Sublist.refl _).append hsnd).subset)
        · rintro ⟨hf, hin⟩
          exact ⟨hf.left, (hnext hf hin).2.1⟩
        · rintro ⟨hf, hin⟩
          rw [(hnext hf hin).1]
          exact ⟨hf.right, (hnext hf hin).2.2⟩
      · obtain ⟨haddr, hhead, htail⟩ := hnext hf hin
        rw [haddr] at hrun'
        cases hdata with
        | @cons _ _ v rest _ _ hv hvs =>
          simp only [Chunk.code_append, runAll_append]
          rw [hrun σ v hv]
          have hstep : Evolves (t.mapRegions ++ []) hi σ.outside σ (σ.write addr v) := by
            obtain ⟨q, hq, hin⟩ := hhead
            rw [← hv.length] at hin
            exact .write_inside (List.mem_append_left _ hq) σ hin hi
          have hframed : Framed w t (ks.flatMap Placing.regions ++ []) := by
            rw [List.append_nil]
            exact hf.right
          rw [hrun' hf.right htail _ _ (hvs.evolve hks₁ hframed hstep), ← hv.length]
          simp only [State.write, Memory.write_append]

end

/-- Clears the regions of an access and writes the key. -/
def writeKey (m : MapRef) (dest : Int) (keys : List (Node × Evaluation)) (staged : List Staged) :
    Build Unit := do
  Build.push (.zero m.key m.keySize)
  Build.push (.zero dest m.valueSize)
  unstageAll m.key keys staged

theorem readMap_eq (m : MapRef) (keys : List (Node × Evaluation)) (dest : Int) :
    readMap m keys dest = (do
      let staged ← stageAll keys
      writeKey m dest keys staged
      Build.push (.lookup m.id m.key dest m.valueSize)) := by
  simp only [readMap, writeKey, bind_assoc]

section

variable {w : World} {t : Table} {name : Name} {sym : Symbol} {m : MapRef} {ks : List Placing}
  {qs : List Region} {dest : Int}

/-- The value region of a map or a region of its own, where an entry may be read to. -/
def Landing (m : MapRef) (qs : List Region) (dest : Int) : Prop :=
  dest = m.value ∨ ⟨dest, m.valueSize⟩ ∈ qs

theorem Landing.mem (h : Landing m qs dest) (hm : t.MapAt name sym m) :
    ⟨dest, m.valueSize⟩ ∈ t.mapRegions ++ qs := by
  rcases h with rfl | h
  · exact List.mem_append_left _ hm.value_mem
  · exact List.mem_append_right _ h

theorem Landing.apart (h : Landing m qs dest) (hm : t.MapAt name sym m) (hf : Framed w t qs) :
    (Region.mk m.key m.keySize).Disjoint ⟨dest, m.valueSize⟩ := by
  rcases h with rfl | h
  · exact hf.key_value hm
  · exact hf.table_apart (t.mapRegions_subset hm.key_mem) h

theorem writeKey_adds (hm : t.MapAt name sym m)
    (hsize : m.keySize = Annotate.packedSize (ks.map Placing.node))
    (hks : ∀ k ∈ ks, Lowers w t k.node k.placed k.regions false) {sts : List Staged} {hi : Nat}
    (hk : KeptAll t hi ks sts) (hdest : Landing m qs dest) (s : Builder) :
    ∃ c, Adds w (Framed w t (ks.flatMap Placing.regions ++ qs))
      (t.regions ++ (ks.flatMap Placing.regions ++ qs))
      (writeKey m dest (evaluations t (ks.map Placing.placed)) sts) s () c ∧
      (Framed w t (ks.flatMap Placing.regions ++ qs) → ∀ σ data, HoldsAll w t σ ks sts data →
        (∀ n, Evolves (t.mapRegions ++ qs) n σ.outside σ (runAll w c.code σ)) ∧
        (runAll w c.code σ).frame.read m.key m.keySize = data ∧
        (runAll w c.code σ).frame.read dest m.valueSize = List.replicate m.valueSize 0) := by
  have hkey := hm.key_mem
  have hland := hdest.mem hm
  obtain ⟨c, hadds, hrun⟩ := unstageAll_adds hks hk m.key
    ((s.append ⟨[.zero m.key m.keySize], []⟩).append ⟨[.zero dest m.valueSize], []⟩)
  have hin : t.InMap ⟨m.key, Annotate.packedSize (ks.map Placing.node)⟩ := by
    rw [← hsize]
    exact Table.inMap_of_mem hkey
  refine ⟨_, .bind (.push fun hf => ⟨?_, trivial⟩) (.bind (.push fun hf => ⟨?_, trivial⟩)
    (hadds.mono (fun hf => ⟨Framed.left hf, hin⟩) fun _ => ?_)), fun hf σ data hdata => ?_⟩
  · rintro r (_ | ⟨_, ⟨⟩⟩)
    exact (Table.inMap_of_mem hkey).inside _
  · rintro r (_ | ⟨_, ⟨⟩⟩)
    refine ⟨_, ?_, .refl _⟩
    rcases List.mem_append.1 hland with h | h
    · exact List.mem_append_left _ (t.mapRegions_subset h)
    · exact List.mem_append_right _ (List.mem_append_right _ h)
  · exact ((List.Sublist.refl _).append (List.sublist_append_left ..)).subset
  · simp only [Chunk.code_append, runAll_append, runAll_cons, runAll_nil, run]
    have hlen : data.length = m.keySize := (hdata.length hks).trans hsize.symm
    have hclear : ∀ n, Evolves (t.mapRegions ++ qs) n σ.outside σ
        ((σ.write m.key (List.replicate m.keySize 0)).write dest
          (List.replicate m.valueSize 0)) := by
      intro n
      refine Evolves.trans (.write_inside (List.mem_append_left _ hkey) σ ?_ n)
        (.write_inside hland (σ.write m.key (List.replicate m.keySize 0)) ?_ n)
      · rw [List.length_replicate]
        exact .refl _
      · rw [List.length_replicate]
        exact .refl _
    rw [hrun hf.left hin _ data (hdata.evolve hk hf (hclear hi))]
    refine ⟨fun n => (hclear n).trans (.write_inside (List.mem_append_left _ hkey) ((σ.write m.key
      (List.replicate m.keySize 0)).write dest (List.replicate m.valueSize 0)) ?_ n), ?_, ?_⟩
    · rw [hlen]
      exact .refl _
    · exact Memory.read_write _ m.key hlen
    · rw [State.frame_write, (Memory.changedIn_write _ m.key data).read]
      · exact Memory.read_write _ dest List.length_replicate
      · intro r hr
        obtain rfl := List.mem_singleton.1 hr
        rw [hlen]
        exact (hdest.apart hm hf.right).symm

theorem run_lookup (hm : t.MapAt name sym m) (hf : Framed w t qs) {rs : List Region}
    (hmem : ⟨dest, m.valueSize⟩ ∈ rs) {σ : State} {data : List UInt8}
    (hkey : σ.frame.read m.key m.keySize = data)
    (hzero : σ.frame.read dest m.valueSize = List.replicate m.valueSize 0) (n : Nat) :
    Evolves rs n (σ.outside.log (.lookup m.id data)) σ
      ((lookup m.id m.key dest m.valueSize).run w σ) ∧
    ((lookup m.id m.key dest m.valueSize).run w σ).frame.read dest m.valueSize =
      Bytes.extend m.valueSize ((σ.outside.store m.id data).getD []) := by
  simp only [run, Outside.find, (hf.created _ _ _ hm).1, hkey]
  cases hentry : σ.outside.store m.id data with
  | none =>
    refine ⟨⟨.refl rs σ.frame, fun _ _ => rfl, rfl⟩, ?_⟩
    rw [hzero, Option.getD_none, Bytes.extend_nil]
  | some v =>
    have hwrite : Evolves rs n σ.outside σ (σ.write dest (Bytes.extend m.valueSize v)) := by
      refine .write_inside hmem σ ?_ n
      rw [Bytes.length_extend]
      exact .refl _
    exact ⟨⟨hwrite.frame, hwrite.temps, rfl⟩, Memory.read_write σ.frame dest (Bytes.length_extend ..)⟩

theorem readMap_adds (hm : t.MapAt name sym m)
    (hsize : m.keySize = Annotate.packedSize (ks.map Placing.node))
    (hks : ∀ k ∈ ks, Lowers w t k.node k.placed k.regions false) (hdest : Landing m qs dest)
    (s : Builder) :
    ∃ c, Adds w (Framed w t (ks.flatMap Placing.regions ++ qs))
      (t.regions ++ (ks.flatMap Placing.regions ++ qs))
      (readMap m (evaluations t (ks.map Placing.placed)) dest) s () c ∧
      (Framed w t (ks.flatMap Placing.regions ++ qs) → ∀ σ,
        let key := Node.packedIn w t (ks.map Placing.node) σ
        Evolves (t.mapRegions ++ (ks.flatMap Placing.regions ++ qs)) s.count
          (key.2.log (.lookup m.id key.1)) σ (runAll w c.code σ) ∧
        (runAll w c.code σ).frame.read dest m.valueSize =
          Bytes.extend m.valueSize ((key.2.store m.id key.1).getD [])) := by
  obtain ⟨sts, c, hadds, hkept, hrun⟩ := stageAll_adds hks s
  obtain ⟨d, hadds', hrun'⟩ := writeKey_adds hm hsize hks hkept hdest (s.append c)
  have hsub : (ks.flatMap Placing.regions).Sublist (ks.flatMap Placing.regions ++ qs) :=
    List.sublist_append_left ..
  refine ⟨c ++ (d ++ ⟨[.lookup m.id m.key dest m.valueSize], []⟩), ?_, fun hf σ => ?_⟩
  · rw [readMap_eq]
    refine (hadds.sublist hsub).bind (hadds'.bind (.push fun hf => ⟨?_, ?_⟩))
    · rintro r (_ | ⟨_, _ | ⟨_, ⟨⟩⟩⟩)
      · rw [(hf.created _ _ _ hm).1]
        exact (Table.inMap_of_mem hm.key_mem).inside _
      · refine ⟨_, ?_, .refl _⟩
        rcases List.mem_append.1 (hdest.mem hm) with h | h
        · exact List.mem_append_left _ (t.mapRegions_subset h)
        · exact List.mem_append_right _ (List.mem_append_right _ h)
    · exact ⟨hf.known _ _ _ hm, (hf.created _ _ _ hm).2.symm⟩
  · dsimp only
    obtain ⟨he₁, hdata⟩ := hrun hf.left σ
    generalize Node.packedIn w t (ks.map Placing.node) σ = key at he₁ hdata ⊢
    obtain ⟨he₂, hkey, hzero⟩ := hrun' hf _ _ hdata
    simp only [Chunk.code_append, runAll_append, runAll_cons, runAll_nil]
    generalize runAll w c.code σ = σ₁ at he₁ hdata he₂ hkey hzero ⊢
    have he := (he₁.sublist hsub (Nat.le_refl _)).trans ((he₂ s.count).sublist
      (List.sublist_append_right (ks.flatMap Placing.regions) qs) (Nat.le_refl _))
    generalize runAll w d.code σ₁ = σ₂ at he₂ hkey hzero he ⊢
    have hout : σ₂.outside = key.2 := by rw [(he₂ 0).outside, he₁.outside]
    have hmem : ⟨dest, m.valueSize⟩ ∈ t.mapRegions ++ (ks.flatMap Placing.regions ++ qs) := by
      rcases List.mem_append.1 (hdest.mem hm) with h | h
      · exact List.mem_append_left _ h
      · exact List.mem_append_right _ (List.mem_append_right _ h)
    obtain ⟨he₃, hread⟩ := run_lookup hm hf hmem hkey hzero s.count
    rw [hout] at he₃ hread
    exact ⟨he.trans he₃, hread⟩

end

end Flow

end TraceScript
