import TraceScript.Proofs.Lowered

namespace TraceScript

/-- The situation that a state of a program stands for. -/
def Table.situation (t : Table) (σ : Flow.State) : Situation := ⟨t.contents σ.frame, σ.outside⟩

namespace Flow

open Instruction Evaluation Evaluation.Staged

/-- An action adds straight code that performs a statement. -/
structure Straight (w : World) (t : Table) (n : Node) (rs : List Region) (m : Build Unit)
    (s : Builder) (c : Chunk) (fs : Array EventFormat) : Prop where
  run : m s = .ok ((), (s.append c).announce fs)
  safe : Framed w t rs → ∀ i ∈ c.code, i.Safe w (t.regions ++ rs)
  meaning : Framed w t rs → ∀ σ,
    t.situation (runAll w c.code σ) = n.perform w t.scope (t.situation σ)

theorem Straight.of_adds {w : World} {t : Table} {n : Node} {rs : List Region} {m : Build Unit}
    {s : Builder} {c : Chunk} (h : Adds w (Framed w t rs) (t.regions ++ rs) m s () c)
    (hmeaning : Framed w t rs → ∀ σ,
      t.situation (runAll w c.code σ) = n.perform w t.scope (t.situation σ)) :
    Straight w t n rs m s c #[] where
  run := by
    have hrun : m s = .ok ((), s.append c) := h.emits
    rw [hrun, Builder.announce_empty]
  safe := h.safe
  meaning := hmeaning

section

variable {w : World} {t : Table}

theorem room_of_variable {rs : List Region} {name : Name} {i : Nat} {sh : Shape} {addr : Int}
    (hvar : t.VariableAt name i sh addr) (hf : Framed w t rs) :
    Room t rs (t.regions ++ rs) ⟨addr, sh.size⟩ where
  subset := List.Subset.refl _
  inside := ⟨_, List.mem_append_left _ hvar.mem, .refl _⟩
  apart q hq := by
    rcases hf.eq_or_apart hq.mem (List.mem_append_left _ hvar.mem) with h | h
    · exact .inl (congrArg Region.addr h)
    · exact .inr h.symm

theorem straight_declare_variable {tag tagAt tagAt' : Tag} {rhs rhs' : Node} {qs : List Region}
    {name : Name} {i : Nat} {sh : Shape} {addr : Int} (hvar : t.VariableAt name i sh addr)
    (ha : tagAt'.facts.addr = some addr) (hv : Lowers w t rhs rhs' qs false)
    (hs : rhs.facts.shape = some sh) (s : Builder) :
    ∃ c, Straight w t (.declaration tag (.var tagAt name) rhs) qs
      (declaration t (.var tagAt' name) rhs') s c #[] := by
  have hsize : rhs.facts.size = sh.size := Facts.size_of_shape hs
  obtain ⟨c, hadds, hrun⟩ := hv.into (t.regions ++ qs) addr s
  rw [hsize] at hadds hrun
  refine ⟨c, .of_adds ?_ fun hf σ => ?_⟩
  · simp only [declaration, addrOf_of_addr ha, pure_bind]
    exact hadds.mono (fun hf => ⟨hf, room_of_variable hvar hf⟩) fun _ => List.Subset.refl _
  · obtain ⟨he, hread⟩ := hrun hf σ
    rw [Table.situation, hf.contents_update hvar he.frame, hread, he.outside, Node.perform,
      Node.declare, hvar.index]
    rfl

theorem assignment_variable {tagAt : Tag} {name : Name} {addr : Int}
    (ha : tagAt.facts.addr = some addr) (op : ArithOp) (value : Node) :
    assignment t op (.var tagAt name) value = (do
      let current ← Build.load addr ((t.lookup name).map .symbol)
      let y ← operand value (evaluation t value)
      let dst ← (do
        let dst ← Build.newTemp none
        Build.push (.arith op dst current y)
        return dst)
      Build.push (.store dst addr)) := by
  simp only [assignment, addrOf_of_addr ha, pure_bind, bind_assoc]

theorem straight_assign_variable {tag tagAt tagAt' : Tag} {op : ArithOp} {rhs rhs' : Node}
    {qs : List Region} {name : Name} {i : Nat} {addr : Int}
    (hvar : t.VariableAt name i .int addr) (ha : tagAt'.facts.addr = some addr)
    (hp : Placed t false rhs rhs' qs) (hv : Lowers w t rhs rhs' qs false)
    (hs : rhs.facts.shape = some .int) (s : Builder) :
    ∃ c, Straight w t (.assignment tag op (.var tagAt name) rhs) qs
      (assignment t op (.var tagAt' name) rhs') s c #[] := by
  have hin : ∃ q ∈ t.regions ++ qs, (Region.mk addr 8).Inside q :=
    ⟨_, List.mem_append_left _ hvar.mem, .refl _⟩
  have hload : Adds w (Framed w t qs) (t.regions ++ qs)
      (Build.load addr ((t.lookup name).map .symbol)) s s.count
      ⟨[.load s.count addr], [{ origin := (t.lookup name).map .symbol }]⟩ := by
    refine .define fun _ => ⟨?_, trivial⟩
    rintro r (_ | ⟨_, ⟨⟩⟩)
    exact hin
  obtain ⟨x, d, hadds, -, hrun⟩ := operand_adds hp hv hs (s.append
    ⟨[.load s.count addr], [{ origin := (t.lookup name).map .symbol }]⟩)
  rw [s.count_append, List.length_singleton] at hrun
  generalize hnext : ((s.append ⟨[.load s.count addr],
    [{ origin := (t.lookup name).map .symbol }]⟩).append d).count = dst
  refine ⟨_, .of_adds (c := ⟨[.load s.count addr], [{ origin := (t.lookup name).map .symbol }]⟩ ++
    (d ++ (⟨[.arith op dst s.count x], [{ origin := none }]⟩ ++ ⟨[.store dst addr], []⟩))) ?_
    fun hf σ => ?_⟩
  · rw [assignment_variable ha]
    subst hnext
    refine hload.bind (hadds.bind (.bind (.define fun _ => safe_of_untouched rfl trivial)
      (.push fun _ => ⟨?_, trivial⟩)))
    rintro r (_ | ⟨_, ⟨⟩⟩)
    exact hin
  · simp only [Chunk.code_append, runAll_append, runAll_cons, runAll_nil, run]
    obtain ⟨he, hval⟩ := hrun hf (σ.set s.count (Bytes.toWord (σ.frame.read addr 8)))
    generalize runAll w d.code _ = σ₁ at he hval ⊢
    have hcurrent : σ₁.temps s.count = Bytes.toWord (t.contents σ.frame i) := by
      rw [he.temps s.count (Nat.lt_succ_self _), State.temps_set, hvar.contents]
      rfl
    have hword : (Bytes.ofWord (op.apply (σ₁.temps s.count) (x.value σ₁.temps))).length =
        Shape.int.size := Bytes.length_ofWord _
    have hstore := he.then_write addr hword
    have hcontents := hf.contents_update hvar hstore.frame
    rw [State.temps_set]
    simp only [Table.situation, State.outside_write, State.outside_set, State.frame_write,
      State.frame_set]
    simp only [State.frame_write, State.frame_set] at hcontents
    rw [hcontents, Memory.read_write _ addr hword, he.outside, hcurrent, hval, Node.perform,
      Node.assign, hvar.index]
    rfl

section Entry

variable {tag tagAt tagAt' : Tag} {map : Name} {keys : List Placing} {sym : Symbol} {m : MapRef}
  {rhs rhs' : Node} {qs : List Region}

theorem declaration_entry (hm : t.MapAt map sym m) (hid : tagAt.facts.map = some m.id)
    (keys : List Node) (value : Node) :
    declaration t (.mapAccess tagAt map keys) value = (do
      let staged ← stageAll (evaluations t keys)
      let stagedValue ← stage value (evaluation t value)
      writeKey m m.value (evaluations t keys) staged
      unstage value (evaluation t value) m.value stagedValue
      Build.push (.update m.id m.key m.value)) := by
  simp only [declaration, mapRef_of_mapAt hm hid, pure_bind, clearRegions, writeKey, bind_assoc]

theorem assignment_entry (hm : t.MapAt map sym m) (hid : tagAt.facts.map = some m.id) (op : ArithOp)
    (keys : List Node) (value : Node) :
    assignment t op (.mapAccess tagAt map keys) value = (do
      let staged ← stageAll (evaluations t keys)
      let y ← operand value (evaluation t value)
      writeKey m m.value (evaluations t keys) staged
      Build.push (.lookup m.id m.key m.value m.valueSize)
      let current ← Build.load m.value none
      let dst ← (do
        let dst ← Build.newTemp none
        Build.push (.arith op dst current y)
        return dst)
      Build.push (.store dst m.value)
      Build.push (.update m.id m.key m.value)) := by
  simp only [assignment, mapRef_of_mapAt hm hid, pure_bind, clearRegions, writeKey, bind_assoc]

theorem straight_declare_entry {sh : Shape} (hm : t.MapAt map sym m)
    (hk : m.keySize = Annotate.packedSize (keys.map Placing.node))
    (hkeys : ∀ k ∈ keys, Lowers w t k.node k.placed k.regions false)
    (hid : tagAt'.facts.map = some m.id) (hsym : sym.facts.shape = some sh)
    (hv : Lowers w t rhs rhs' qs false) (hs : rhs.facts.shape = some sh) (s : Builder) :
    ∃ c, Straight w t (.declaration tag (.mapAccess tagAt map (keys.map Placing.node)) rhs)
      (keys.flatMap Placing.regions ++ qs)
      (declaration t (.mapAccess tagAt' map (keys.map Placing.placed)) rhs') s c #[] := by
  have hsize : rhs.facts.size = m.valueSize := by
    rw [Facts.size_of_shape hs, ← hm.valueSize, Facts.size_of_shape hsym]
  obtain ⟨sts, c, hadds, hkept, hrun⟩ := stageAll_adds hkeys s
  obtain ⟨st, d, hadds₁, hkept₁, hrun₁⟩ := stage_adds (k := ⟨rhs, rhs', qs⟩) hv (s.append c)
  rw [s.count_append] at hkept₁ hrun₁
  have hvalue : Landing m [] m.value := .inl rfl
  obtain ⟨e, hadds₂, hrun₂⟩ := writeKey_adds hm hk hkeys hkept hvalue ((s.append c).append d)
  obtain ⟨f, hadds₃, hrun₃⟩ := unstage_adds (k := ⟨rhs, rhs', qs⟩) hv hkept₁ m.value
    (((s.append c).append d).append e)
  rw [List.append_nil] at hadds₂ hrun₂
  have hfst : (keys.flatMap Placing.regions).Sublist (keys.flatMap Placing.regions ++ qs) :=
    List.sublist_append_left ..
  have hsnd : qs.Sublist (keys.flatMap Placing.regions ++ qs) := List.sublist_append_right ..
  have hland : t.InMap ⟨m.value, rhs.facts.size⟩ := by
    rw [hsize]
    exact Table.inMap_of_mem hm.value_mem
  refine ⟨_, .of_adds (c := c ++ (d ++ (e ++ (f ++ ⟨[.update m.id m.key m.value], []⟩)))) ?_
    fun hf σ => ?_⟩
  · rw [declaration_entry hm hid]
    refine (hadds.sublist hfst).bind ((hadds₁.sublist hsnd).bind ((hadds₂.sublist hfst).bind
      ((hadds₃.mono (fun hf => ⟨Framed.sublist hf hsnd, hland⟩)
        fun _ => ((List.Sublist.refl _).append hsnd).subset).bind
      (.push fun hf => ⟨?_, hf.known _ _ _ hm⟩))))
    rintro r (_ | ⟨_, _ | ⟨_, ⟨⟩⟩⟩)
    · rw [(hf.created _ _ _ hm).1]
      exact (Table.inMap_of_mem hm.key_mem).inside _
    · rw [(hf.created _ _ _ hm).2]
      exact (Table.inMap_of_mem hm.value_mem).inside _
  · obtain ⟨he₁, hdata⟩ := hrun hf.left σ
    simp only [Chunk.code_append, runAll_append, runAll_cons, runAll_nil]
    generalize runAll w c.code σ = σ₁ at he₁ hdata ⊢
    obtain ⟨he₂, hvalue⟩ := hrun₁ hf.right σ₁
    generalize runAll w d.code σ₁ = σ₂ at he₂ hvalue ⊢
    obtain ⟨he₃, hkey, -⟩ := hrun₂ hf.left σ₂ _ (hdata.evolve hkept hf he₂)
    generalize runAll w e.code σ₂ = σ₃ at he₃ hkey ⊢
    have hframed : Framed w t (qs ++ []) := by
      rw [List.append_nil]
      exact hf.right
    have hvalue₃ := hvalue.evolve hkept₁ hframed (he₃ _)
    have hwrite : runAll w f.code σ₃ = σ₃.write m.value (rhs.valueIn w t σ₁).1 :=
      hrun₃ σ₃ _ hvalue₃
    have hlen : (rhs.valueIn w t σ₁).1.length = m.valueSize := (hv.length σ₁).trans hsize
    have he : Evolves (t.mapRegions ++ (keys.flatMap Placing.regions ++ qs)) 0
        (rhs.valueIn w t σ₁).2 σ (σ₃.write m.value (rhs.valueIn w t σ₁).1) := by
      refine ((he₁.sublist hfst (Nat.zero_le _)).trans (he₂.sublist hsnd (Nat.zero_le _))).trans ?_
      have hstep := (he₃ 0).sublist (List.nil_sublist (keys.flatMap Placing.regions ++ qs))
        (Nat.le_refl _)
      rw [he₂.outside] at hstep
      refine hstep.trans ?_
      rw [← hstep.outside]
      refine .write_inside (List.mem_append_left _ hm.value_mem) σ₃ ?_ 0
      rw [hlen]
      exact .refl _
    have hkey₄ : (σ₃.write m.value (rhs.valueIn w t σ₁).1).frame.read m.key m.keySize =
        (Node.packedIn w t (keys.map Placing.node) σ).1 := by
      refine (Memory.changedIn_write _ _ _ |>.read fun r hr => ?_).trans hkey
      obtain rfl := List.mem_singleton.1 hr
      rw [hlen]
      exact hf.key_value hm
    have hvalue₄ : (σ₃.write m.value (rhs.valueIn w t σ₁).1).frame.read m.value m.valueSize =
        (rhs.valueIn w t σ₁).1 := Memory.read_write _ m.value hlen
    rw [hwrite]
    simp only [run, Table.situation, (hf.created _ _ _ hm).1, (hf.created _ _ _ hm).2]
    rw [hkey₄, hvalue₄, hf.contents_eq he.frame, he.outside, Node.perform, Node.declare, hm.scope,
      Node.valueIn, hf.left.contents_eq he₁.frame, he₁.outside]
    rfl

theorem run_change (op : ArithOp) {rs : List Region} {σ : State} {cur : Temp} (new : Temp)
    {x : Operand} {data old : List UInt8} {v : UInt64} (hm : t.MapAt map sym m) (hf : Framed w t rs)
    (hsize : 8 ≤ m.valueSize) (hkey : σ.frame.read m.key m.keySize = data)
    (hold : σ.frame.read m.value m.valueSize = old) (hx : ∀ u, x.value (σ.set cur u).temps = v) :
    let σ' := runAll w [.load cur m.value, .arith op new cur x, .store new m.value,
      .update m.id m.key m.value] σ
    Memory.ChangedIn [⟨m.value, m.valueSize⟩] σ.frame σ'.frame ∧
      σ'.outside = σ.outside.put m.id data
        (Bytes.ofWord (op.apply (Bytes.toWord (old.take 8)) v) ++ old.drop 8) := by
  have hword : σ.frame.read m.value 8 = old.take 8 := by rw [← hold, Memory.take_read _ _ hsize]
  simp only [runAll_cons, runAll_nil, run, State.temps_set, hx, State.frame_write, State.frame_set,
    State.outside_write, State.outside_set, hword, (hf.created _ _ _ hm).1,
    (hf.created _ _ _ hm).2]
  generalize op.apply (Bytes.toWord (old.take 8)) v = result
  refine ⟨(σ.frame.changedIn_write m.value _).widen fun r hr => ?_, ?_⟩
  · obtain rfl := List.mem_singleton.1 hr
    refine ⟨_, List.mem_cons_self, 0, by simp, ?_⟩
    rw [Bytes.length_ofWord]
    simpa using hsize
  · rw [Memory.read_write_head _ m.value (by rw [Bytes.length_ofWord]; exact hsize), hold,
      Bytes.length_ofWord, (σ.frame.changedIn_write m.value _).read, hkey]
    intro r hr
    obtain rfl := List.mem_singleton.1 hr
    rw [Bytes.length_ofWord]
    rcases hf.key_value hm with h | h
    · exact .inl h
    · right
      dsimp only at h ⊢
      omega

theorem straight_assign_entry {op : ArithOp} (ht : t.Ready) (hm : t.MapAt map sym m)
    (hk : m.keySize = Annotate.packedSize (keys.map Placing.node))
    (hkeys : ∀ k ∈ keys, Lowers w t k.node k.placed k.regions false)
    (hid : tagAt'.facts.map = some m.id) (hp : Placed t false rhs rhs' qs)
    (hv : Lowers w t rhs rhs' qs false) (hs : rhs.facts.shape = some .int) (s : Builder) :
    ∃ c, Straight w t (.assignment tag op (.mapAccess tagAt map (keys.map Placing.node)) rhs)
      (keys.flatMap Placing.regions ++ qs)
      (assignment t op (.mapAccess tagAt' map (keys.map Placing.placed)) rhs') s c #[] := by
  obtain ⟨sts, c, hadds, hkept, hrun⟩ := stageAll_adds hkeys s
  obtain ⟨x, d, hadds₁, hx, hrun₁⟩ := operand_adds hp hv hs (s.append c)
  rw [s.count_append] at hx hrun₁
  have hland : Landing m [] m.value := .inl rfl
  obtain ⟨e, hadds₂, hrun₂⟩ := writeKey_adds hm hk hkeys hkept hland ((s.append c).append d)
  rw [List.append_nil] at hadds₂ hrun₂
  let find : Chunk := ⟨[.lookup m.id m.key m.value m.valueSize], []⟩
  generalize hcur : ((((s.append c).append d).append e).append find).count = cur
  let get : Chunk := ⟨[.load cur m.value], [{ origin := none }]⟩
  generalize hnew : (((((s.append c).append d).append e).append find).append get).count = new
  have hcur' : cur = s.count + c.temps.length + d.temps.length + e.temps.length := by
    rw [← hcur]
    simp [find]
  have hfst : (keys.flatMap Placing.regions).Sublist (keys.flatMap Placing.regions ++ qs) :=
    List.sublist_append_left ..
  have hsnd : qs.Sublist (keys.flatMap Placing.regions ++ qs) := List.sublist_append_right ..
  have hword : ∃ q ∈ t.regions ++ (keys.flatMap Placing.regions ++ qs),
      (Region.mk m.value 8).Inside q := by
    refine ⟨_, List.mem_append_left _ (t.mapRegions_subset hm.value_mem), 0, by simp, ?_⟩
    have := hm.valueSize_ge ht
    simpa using this
  refine ⟨_, .of_adds (c := c ++ (d ++ (e ++ (find ++ (get ++
    (⟨[.arith op new cur x], [{ origin := none }]⟩ ++ (⟨[.store new m.value], []⟩ ++
    ⟨[.update m.id m.key m.value], []⟩))))))) ?_ fun hf σ => ?_⟩
  · rw [assignment_entry hm hid]
    subst hnew hcur
    refine (hadds.sublist hfst).bind ((hadds₁.sublist hsnd).bind ((hadds₂.sublist hfst).bind
      (.bind (.push fun hf => ⟨?_, hf.known _ _ _ hm, (hf.created _ _ _ hm).2.symm⟩)
      (.bind (.define fun _ => ⟨?_, trivial⟩)
      (.bind (.define fun _ => safe_of_untouched rfl trivial)
      (.bind (.push fun _ => ⟨?_, trivial⟩) (.push fun hf => ⟨?_, hf.known _ _ _ hm⟩)))))))
    · rintro r (_ | ⟨_, _ | ⟨_, ⟨⟩⟩⟩)
      · rw [(hf.created _ _ _ hm).1]
        exact (Table.inMap_of_mem hm.key_mem).inside _
      · exact (Table.inMap_of_mem hm.value_mem).inside _
    · rintro r (_ | ⟨_, ⟨⟩⟩)
      exact hword
    · rintro r (_ | ⟨_, ⟨⟩⟩)
      exact hword
    · rintro r (_ | ⟨_, _ | ⟨_, ⟨⟩⟩⟩)
      · rw [(hf.created _ _ _ hm).1]
        exact (Table.inMap_of_mem hm.key_mem).inside _
      · rw [(hf.created _ _ _ hm).2]
        exact (Table.inMap_of_mem hm.value_mem).inside _
  · obtain ⟨he₁, hdata⟩ := hrun hf.left σ
    simp only [Chunk.code_append, runAll_append]
    generalize runAll w c.code σ = σ₁ at he₁ hdata ⊢
    obtain ⟨he₂, hvalue⟩ := hrun₁ hf.right σ₁
    generalize runAll w d.code σ₁ = σ₂ at he₂ hvalue ⊢
    obtain ⟨he₃, hkey, hzero⟩ := hrun₂ hf.left σ₂ _ (hdata.evolve hkept hf he₂)
    generalize runAll w e.code σ₂ = σ₃ at he₃ hkey hzero ⊢
    have hmem : Region.mk m.value m.valueSize ∈ [Region.mk m.value m.valueSize] := List.mem_cons_self
    obtain ⟨he₄, hentry⟩ := run_lookup hm hf hmem hkey hzero cur
    simp only [find, get, runAll_cons, runAll_nil]
    generalize (lookup m.id m.key m.value m.valueSize).run w σ₃ = σ₄ at he₄ hentry ⊢
    have hout : σ₃.outside = (rhs.valueIn w t σ₁).2 := (he₃ 0).outside.trans he₂.outside
    rw [hout] at he₄ hentry
    have hkey₄ : σ₄.frame.read m.key m.keySize =
        (Node.packedIn w t (keys.map Placing.node) σ).1 := by
      refine (he₄.frame.read fun r hr => ?_).trans hkey
      obtain rfl := List.mem_singleton.1 hr
      exact hf.key_value hm
    have hx₄ : ∀ v, x.value (σ₄.set cur v).temps = Bytes.toWord (rhs.valueIn w t σ₁).1 := by
      intro v
      rw [← hvalue]
      refine Operand.value_congr fun u hu => ?_
      have hlt := hx u hu
      have hne : u ≠ cur := Nat.ne_of_lt (by omega)
      rw [State.temps_set_of_ne _ _ hne, he₄.temps u (by omega), (he₃ cur).temps u (by omega)]
    obtain ⟨hframe, houtside⟩ := run_change op new hm hf (hm.valueSize_ge ht) hkey₄ hentry hx₄
    have he : Evolves (t.mapRegions ++ (keys.flatMap Placing.regions ++ qs)) 0 _ σ σ₄ :=
      (((he₁.sublist hfst (Nat.zero_le _)).trans (he₂.sublist hsnd (Nat.zero_le _))).trans
        ((he₃ 0).sublist (List.nil_sublist _) (Nat.le_refl _))).trans
        (he₄.mono (List.cons_subset.2 ⟨List.mem_append_left _ hm.value_mem, List.nil_subset _⟩)
          (Nat.zero_le _))
    have hcontents := hf.contents_eq (he.frame.trans (hframe.mono
      (List.cons_subset.2 ⟨List.mem_append_left _ hm.value_mem, List.nil_subset _⟩)))
    simp only [runAll_cons, runAll_nil] at hcontents houtside
    rw [Table.situation, hcontents, houtside, he.outside, Node.perform, Node.assign, hm.scope,
      Node.valueIn, hf.left.contents_eq he₁.frame, he₁.outside]
    rfl

end Entry

theorem lowersHelper_of_placed (ht : t.Ready) {tag tag' : Tag} {function : Name}
    {args args' : List Node} {rs : List Region}
    (h : Placed t true (.call tag function args) (.call tag' function args') rs) :
    ∃ b, Builtin.ofName? function = some b ∧ b ≠ .out ∧
      LowersHelper w t (.call tag function args) tag' args' b rs := by
  cases h with
  | query hb hmem _ _ =>
    refine ⟨_, hb, ?_, lowersHelper_query hb hmem⟩
    rintro rfl
    simp at hmem
  | arg hb h0 h6 _ _ => exact ⟨_, hb, nofun, lowersHelper_arg hb h0 h6⟩
  | comm hb hsh hs hs' ha => exact ⟨_, hb, nofun, lowersHelper_comm hb hsh hs hs' ha⟩
  | strcmp hb hl hr hsl hsr _ _ =>
    exact ⟨_, hb, nofun, lowersHelper_strcmp hb (lowers_of_placed ht hl) (lowers_of_placed ht hr)
      hsl hsr⟩

theorem statement_call {tag : Tag} {function : Name} {b : Builtin}
    (hb : Builtin.ofName? function = some b) (args : List Node) :
    statement t (.call tag function args) = (do
      match ← helper tag (evaluations t args) b with
      | some f => Build.push (.call f none)
      | none => output t (evaluations t args)) := by
  simp only [statement, Evaluation.call, hb, bind_assoc]
  congr 1
  funext r
  cases r with
  | none => simp
  | some f => simp

theorem straight_call (ht : t.Ready) {tag tag' : Tag} {function : Name} {args args' : List Node}
    {rs : List Region} (h : Placed t true (.call tag function args) (.call tag' function args') rs)
    (s : Builder) :
    ∃ c, Straight w t (.call tag function args) rs (statement t (.call tag' function args')) s c
      #[] := by
  obtain ⟨b, hb, hout, hlow⟩ := lowersHelper_of_placed (w := w) ht h
  obtain ⟨f, c, hadds, hsafe, hrun⟩ := hlow s
  refine ⟨c ++ ⟨[.call f none], []⟩, .of_adds ?_ fun hf σ => ?_⟩
  · rw [statement_call hb]
    exact hadds.bind (.push fun hf => hsafe hf none nofun)
  · obtain ⟨he, -⟩ := hrun hf σ
    simp only [Chunk.code_append, runAll_append, runAll_cons, runAll_nil, run, keep]
    rw [Table.situation, hf.contents_eq he.frame, he.outside, Node.perform, hb,
      if_neg fun h => hout (Option.some.inj h)]
    rfl

theorem packInto_adds {ks : List Placing}
    (hks : ∀ k ∈ ks, Lowers w t k.node k.placed k.regions false) (q : Region) (addr : Int)
    (s : Builder) :
    ∃ c, Adds w (Framed w t (q :: ks.flatMap Placing.regions) ∧
        (Region.mk addr (Annotate.packedSize (ks.map Placing.node))).Inside q)
      (t.regions ++ q :: ks.flatMap Placing.regions)
      (packInto addr (evaluations t (ks.map Placing.placed))) s () c ∧
      (Framed w t (q :: ks.flatMap Placing.regions) →
        (Region.mk addr (Annotate.packedSize (ks.map Placing.node))).Inside q → ∀ σ,
        Evolves (t.mapRegions ++ ks.flatMap Placing.regions ++
          [⟨addr, Annotate.packedSize (ks.map Placing.node)⟩]) s.count
          (Node.packedIn w t (ks.map Placing.node) σ).2 σ (runAll w c.code σ) ∧
        (runAll w c.code σ).frame.read addr (Annotate.packedSize (ks.map Placing.node)) =
          (Node.packedIn w t (ks.map Placing.node) σ).1) := by
  induction ks generalizing addr s with
  | nil => exact ⟨{}, .pure _, fun _ _ σ => ⟨.refl .., rfl⟩⟩
  | cons k ks ih =>
    have hlow := hks k List.mem_cons_self
    have hsize : Annotate.packedSize ((k :: ks).map Placing.node) =
        k.node.facts.size + Annotate.packedSize (ks.map Placing.node) := by
      rw [← hlow.packedSize_eq]
      rfl
    rw [hsize, List.flatMap_cons]
    have hnext : Framed w t (q :: (k.regions ++ ks.flatMap Placing.regions)) →
        (Region.mk addr (k.node.facts.size + Annotate.packedSize (ks.map Placing.node))).Inside q →
        addr + frameSize k.placed.facts.size = addr + (k.node.facts.size : Int) := by
      intro hf hin
      have hlt := hf.small q (List.mem_append_right _ List.mem_cons_self)
      obtain ⟨j, -, hle⟩ := hin
      dsimp only at hle
      rw [hlow.size_eq, frameSize_of_lt hlow.size_mod (by omega)]
    obtain ⟨c, hadds, hrun⟩ := hlow.into
      (t.regions ++ q :: (k.regions ++ ks.flatMap Placing.regions)) addr s
    obtain ⟨d, hadds', hrun'⟩ := ih (fun k hk => hks k (List.mem_cons_of_mem _ hk))
      (addr + frameSize k.placed.facts.size) (s.append c)
    rw [s.count_append] at hrun'
    have hfst : (q :: k.regions).Sublist (q :: (k.regions ++ ks.flatMap Placing.regions)) :=
      (List.sublist_append_left ..).cons_cons q
    have hsnd : (q :: ks.flatMap Placing.regions).Sublist
        (q :: (k.regions ++ ks.flatMap Placing.regions)) := (List.sublist_append_right ..).cons_cons q
    refine ⟨c ++ d, ?_, fun hf hin σ => ?_⟩
    · refine (hadds.mono ?_ fun _ => List.Subset.refl _).bind (hadds'.mono ?_
        fun _ => ((List.Sublist.refl _).append hsnd).subset)
      · rintro ⟨hf, hin⟩
        have hframed := Framed.sublist hf hfst
        refine ⟨hframed.sublist (List.sublist_cons_self ..), ?_, ⟨q, ?_, hin.head⟩, fun r hr => ?_⟩
        · exact ((List.Sublist.refl _).append ((List.sublist_cons_self ..).trans hfst)).subset
        · exact List.mem_append_right _ List.mem_cons_self
        · have hcomm : Framed w t (k.regions ++ [q]) :=
            hframed.perm (List.perm_append_singleton ..).symm
          exact .inr (hin.head.disjoint (hcomm.standing_apart hr
            (List.mem_append_right _ List.mem_cons_self)).symm)
      · rintro ⟨hf, hin⟩
        rw [hnext hf hin]
        exact ⟨Framed.sublist hf hsnd, hin.tail hlow.size_mod⟩
    · rw [hnext hf hin] at hrun'
      have hframed := hf.sublist hfst
      obtain ⟨he₁, hv₁⟩ := hrun (hframed.sublist (List.sublist_cons_self ..)) σ
      obtain ⟨he₂, hv₂⟩ := hrun' (hf.sublist hsnd) (hin.tail hlow.size_mod) (runAll w c.code σ)
      simp only [Chunk.code_append, runAll_append]
      generalize runAll w c.code σ = σ₁ at he₁ hv₁ he₂ hv₂ ⊢
      generalize runAll w d.code σ₁ = σ₂ at he₂ hv₂ ⊢
      have hwide : Evolves (t.mapRegions ++ (q :: k.regions)) s.count (k.node.valueIn w t σ).2 σ
          σ₁ := by
        refine he₁.widen fun r hr => ?_
        rcases List.mem_append.1 hr with hr | hr
        · refine ⟨r, ?_, .refl r⟩
          exact ((List.Sublist.refl _).append (List.sublist_cons_self ..)).subset hr
        · obtain rfl := List.mem_singleton.1 hr
          exact ⟨q, List.mem_append_right _ List.mem_cons_self, hin.head⟩
      rw [List.map_cons, hlow.packedIn_cons hframed hwide]
      -- The first member stays while the others are written.
      have hkeep : σ₂.frame.read addr k.node.facts.size = (k.node.valueIn w t σ).1 := by
        refine (he₂.frame.read fun r hr => ?_).trans hv₁
        rcases List.mem_append.1 hr with hr | hr
        · rcases List.mem_append.1 hr with hr | hr
          · exact hin.head.disjoint (hf.table_apart (t.mapRegions_subset hr)
              List.mem_cons_self).symm
          · have hsplit : Framed w t ([q] ++ (k.regions ++ ks.flatMap Placing.regions)) := hf
            exact hin.head.disjoint (hsplit.apart List.mem_cons_self (List.mem_append_right _ hr))
        · obtain rfl := List.mem_singleton.1 hr
          exact .inl (Int.le_refl _)
      refine ⟨?_, by rw [Memory.read_add, hkeep, hv₂]⟩
      refine (he₁.widen fun r hr => ?_).trans ((he₂.mono (List.Subset.refl _)
        (Nat.le_add_right ..)).widen fun r hr => ?_)
      · rcases List.mem_append.1 hr with hr | hr
        · refine ⟨r, List.mem_append_left _ ?_, .refl r⟩
          exact ((List.Sublist.refl _).append (List.sublist_append_left ..)).subset hr
        · obtain rfl := List.mem_singleton.1 hr
          exact ⟨_, List.mem_append_right _ List.mem_cons_self, (Region.Inside.refl _).head⟩
      · rcases List.mem_append.1 hr with hr | hr
        · refine ⟨r, List.mem_append_left _ ?_, .refl r⟩
          exact ((List.Sublist.refl _).append (List.sublist_append_right ..)).subset hr
        · obtain rfl := List.mem_singleton.1 hr
          exact ⟨_, List.mem_append_right _ List.mem_cons_self,
            (Region.Inside.refl _).tail hlow.size_mod⟩

section Event

variable {recordTag recordTag' : Tag} {members : List Placing} {addr : Int} {sh : Shape}

theorem packedSize_ge {k : Placing} {ks : List Placing}
    (h : Lowers w t k.node k.placed k.regions false) :
    8 ≤ Annotate.packedSize ((k :: ks).map Placing.node) := by
  obtain ⟨shape, hs, -, hv⟩ := h.shape
  have hpos := hv.size_pos
  have hmod := hv.size_mod
  have hsize : Annotate.packedSize ((k :: ks).map Placing.node) =
      k.node.packedSize + Annotate.packedSize (ks.map Placing.node) := rfl
  rw [hsize, h.packedSize_eq, Facts.size_of_shape hs]
  omega

theorem record_into (hrecord : sh.type = .record) (hs : recordTag.facts.shape = some sh)
    (members : List Node) :
    (evaluation t (.record recordTag members)).into addr =
      if members.isEmpty then Build.push (.zero addr sh.size)
      else packInto addr (evaluations t members) := by
  have hint : recordTag.facts.isInt = false := by
    rw [Facts.isInt_of_shape hs, hrecord]
    rfl
  simp only [evaluation, built, storing, hint, Facts.size_of_shape hs]
  rfl

theorem record_adds (addr : Int)
    (hsh : sh = ⟨.record, max (Annotate.packedSize (members.map Placing.node)) 8⟩)
    (hs : recordTag.facts.shape = some sh) (hs' : recordTag'.facts.shape = some sh)
    (hm : ∀ k ∈ members, Lowers w t k.node k.placed k.regions false) (s : Builder) :
    ∃ c, Adds w (Framed w t (⟨addr, sh.size⟩ :: members.flatMap Placing.regions))
      (t.regions ++ ⟨addr, sh.size⟩ :: members.flatMap Placing.regions)
      ((evaluation t (.record recordTag' (members.map Placing.placed))).into addr) s () c ∧
      (Framed w t (⟨addr, sh.size⟩ :: members.flatMap Placing.regions) → ∀ σ,
        Evolves (t.mapRegions ++ members.flatMap Placing.regions ++ [⟨addr, sh.size⟩]) s.count
          ((Node.record recordTag (members.map Placing.node)).valueIn w t σ).2 σ
          (runAll w c.code σ) ∧
        (runAll w c.code σ).frame.read addr sh.size =
          ((Node.record recordTag (members.map Placing.node)).valueIn w t σ).1) := by
  have hvalue : ∀ σ, (Node.record recordTag (members.map Placing.node)).valueIn w t σ =
      (Bytes.extend sh.size (Node.packedIn w t (members.map Placing.node) σ).1,
        (Node.packedIn w t (members.map Placing.node) σ).2) := by
    intro σ
    rw [Node.valueIn, Node.value, Facts.size_of_shape hs]
    rfl
  rw [record_into (by rw [hsh]) hs']
  cases members with
  | nil =>
    refine ⟨⟨[.zero addr sh.size], []⟩, ?_, fun _ σ => ?_⟩
    · refine .push fun _ => ⟨?_, trivial⟩
      rintro r (_ | ⟨_, ⟨⟩⟩)
      exact ⟨_, List.mem_append_right _ List.mem_cons_self, .refl _⟩
    · rw [hvalue]
      simp only [runAll_cons, runAll_nil, run]
      refine ⟨(Evolves.refl _ _ σ).then_write addr List.length_replicate, ?_⟩
      rw [State.frame_write, Memory.read_write _ addr List.length_replicate]
      exact (Bytes.extend_nil _).symm
  | cons k ks =>
    have hsize : sh.size = Annotate.packedSize ((k :: ks).map Placing.node) := by
      rw [hsh]
      exact Nat.max_eq_left (packedSize_ge (hm k List.mem_cons_self))
    obtain ⟨c, hadds, hrun⟩ := packInto_adds hm ⟨addr, sh.size⟩ addr s
    rw [← hsize] at hadds hrun
    refine ⟨c, hadds.mono (fun hf => ⟨hf, .refl _⟩) fun _ => List.Subset.refl _, fun hf σ => ?_⟩
    obtain ⟨he, hread⟩ := hrun hf (.refl _) σ
    rw [hvalue, ← hread, Bytes.extend_of_length (Memory.length_read ..)]
    exact ⟨he, rfl⟩

theorem statement_out {tag formatTag : Tag} {function : Name} {format : String}
    {cs : List Conversion} {channel : MapId} (hb : Builtin.ofName? function = some .out)
    (hcs : conversions format = .ok cs) (hchannel : t.events.id? = some channel)
    (hs : recordTag.facts.shape = some sh) (ha : recordTag.facts.addr = some addr)
    (members : List Node) :
    statement t (.call tag function [.text formatTag format, .record recordTag members]) = (do
      ((evaluation t (.record recordTag members)).into addr >>= fun _ =>
        Build.push (.call (.out addr sh.size channel) none))
      modify fun s => { s with
        outputs := s.outputs.push ⟨format, eventFields 0 cs members, sh.size⟩ }) := by
  simp only [statement, Evaluation.call, hb, helper, evaluations, output, hchannel,
    addrOf_of_addr ha, hcs, Facts.size_of_shape hs, pure_bind, bind_assoc]
  rfl

theorem straight_out {tag formatTag : Tag} {function : Name} {format : String}
    {cs : List Conversion} {channel : MapId} (hb : Builtin.ofName? function = some .out)
    (hcs : conversions format = .ok cs) (hchannel : t.events.id? = some channel)
    (hsh : sh = ⟨.record, max (Annotate.packedSize (members.map Placing.node)) 8⟩)
    (hs : recordTag.facts.shape = some sh) (hs' : recordTag'.facts.shape = some sh)
    (ha : recordTag'.facts.addr = some addr)
    (hm : ∀ k ∈ members, Lowers w t k.node k.placed k.regions false) (s : Builder) :
    ∃ c, Straight w t
      (.call tag function [.text formatTag format, .record recordTag (members.map Placing.node)])
      (⟨addr, sh.size⟩ :: members.flatMap Placing.regions)
      (statement t (.call tag function
        [.text formatTag format, .record recordTag' (members.map Placing.placed)])) s
      (c ++ ⟨[.call (.out addr sh.size channel) none], []⟩)
      #[⟨format, eventFields 0 cs (members.map Placing.placed), sh.size⟩] := by
  obtain ⟨c, hadds, hrun⟩ := record_adds addr hsh hs hs' hm s
  let send : Instruction := .call (.out addr sh.size channel) none
  let announced : EventFormat :=
    ⟨format, eventFields 0 cs (members.map Placing.placed), sh.size⟩
  have hall := hadds.bind (f := fun _ => Build.push send)
    (.push fun hf => ⟨?_, hf.channel _ hchannel, rfl⟩)
  · refine ⟨c, ?_, hall.safe, fun hf σ => ?_⟩
    · have hemits : (_ : Build Unit) s = _ := hall.emits
      rw [statement_out hb hcs hchannel hs' ha]
      change (do
        let r ← (do
          (evaluation t (.record recordTag' (members.map Placing.placed))).into addr
          Build.push send : Build Unit) s
        pure ((), { r.2 with outputs := r.2.outputs.push announced }) :
          Except CodeError (Unit × Builder)) = _
      rw [hemits]
      rfl
    · obtain ⟨he, hread⟩ := hrun hf σ
      simp only [Chunk.code_append, runAll_append, runAll_cons, runAll_nil, run, keep,
        Helper.run]
      have hcontents := hf.contents_eq (he.frame.mono ?_)
      · rw [Table.situation, hcontents, hread, he.outside, Node.perform, hb, if_pos rfl,
          Node.emit_of_channel hchannel]
        rfl
      · intro r hr
        simp only [List.mem_append, List.mem_cons, List.not_mem_nil, or_false] at hr ⊢
        tauto
  · rintro r (_ | ⟨_, ⟨⟩⟩)
    exact ⟨_, List.mem_append_right _ List.mem_cons_self, .refl _⟩

end Event

section

variable {target target' rhs rhs' : Node} {rs qs : List Region} {sym : Symbol} {tag : Tag}

theorem straight_declaration (ht : t.Ready) {sh : Shape}
    (htarget : PlacedTarget t sym target target' rs) (hsym : sym.facts.shape = some sh)
    (hp : Placed t false rhs rhs' qs) (hs : rhs.facts.shape = some sh) (s : Builder) :
    ∃ c, Straight w t (.declaration tag target rhs) (rs ++ qs)
      (statement t (.declaration tag target' rhs')) s c #[] := by
  have hv : Lowers w t rhs rhs' qs false := lowers_of_placed ht hp
  cases htarget with
  | var hn hm ha ha' => exact straight_declare_variable ⟨sym, hn, hm, hsym, ha⟩ ha' hv hs s
  | entry hm hk hkeys hid =>
    exact straight_declare_entry hm hk (fun k hk => lowers_of_placed ht (hkeys k hk)) hid hsym hv hs s

theorem straight_assignment (ht : t.Ready) {op : ArithOp}
    (htarget : PlacedTarget t sym target target' rs)
    (hsym : sym.map = none → sym.facts.shape = some .int) (hp : Placed t false rhs rhs' qs)
    (hs : rhs.facts.shape = some .int) (s : Builder) :
    ∃ c, Straight w t (.assignment tag op target rhs) (rs ++ qs)
      (statement t (.assignment tag op target' rhs')) s c #[] := by
  have hv : Lowers w t rhs rhs' qs false := lowers_of_placed ht hp
  cases htarget with
  | var hn hm ha ha' =>
    exact straight_assign_variable ⟨sym, hn, hm, hsym hm, ha⟩ ha' hp hv hs s
  | entry hm hk hkeys hid =>
    exact straight_assign_entry ht hm hk (fun k hk => lowers_of_placed ht (hkeys k hk)) hid hp hv hs s

end

end

end Flow

end TraceScript
