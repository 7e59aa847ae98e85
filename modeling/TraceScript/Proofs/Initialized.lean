import TraceScript.Proofs.Assembled
import TraceScript.Proofs.FrameSafety
import TraceScript.Proofs.Graph
import TraceScript.Proofs.WriteBeforeRead

namespace TraceScript.Flow

open Instruction Evaluation

section

variable {w : World} {t : Table} {target target' rhs rhs' : Node} {rs qs : List Region}
  {sym : Symbol} {W : Set Int}

theorem neat_of_keys (ht : t.Ready) {ks : List Placing}
    (hks : ∀ k ∈ ks, Placed t false k.node k.placed k.regions)
    (hf : Framed w t (ks.flatMap Placing.regions)) :
    ∀ n ∈ ks.map Placing.placed, Neat w t n false := by
  intro n hn
  obtain ⟨k, hk, rfl⟩ := List.mem_map.1 hn
  exact neat_of_placed ht (hks k hk) (hf.of_mem hk)

theorem tidy_update {map : Name} {m : MapRef} (hf : Framed w t rs) (hm : t.MapAt map sym m)
    (hkey : (Region.mk m.key m.keySize).bytes ⊆ W)
    (hvalue : (Region.mk m.value m.valueSize).bytes ⊆ W) :
    Tidy w t.variableRegions W (Build.push (.update m.id m.key m.value)) fun _ _ => True := by
  obtain ⟨hkeySize, hvalueSize⟩ := hf.created _ _ _ hm
  refine .push (fun r hr => ?_) (spares_of_none rfl rfl) trivial
  rcases List.mem_cons.1 hr with rfl | hr
  · rwa [hkeySize]
  · obtain rfl := List.mem_singleton.1 hr
    rwa [hvalueSize]

theorem tidy_declaration (ht : t.Ready) {sh : Shape} (hf : Framed w t (rs ++ qs))
    (htarget : PlacedTarget t sym target target' rs) (hsym : sym.facts.shape = some sh)
    (hp : Placed t false rhs rhs' qs) (hs : rhs.facts.shape = some sh) (hW : Covers t W) :
    Tidy w t.variableRegions W (declaration t target' rhs') fun _ _ => True := by
  have hv := neat_of_placed ht hp hf.right
  have hsize : rhs'.facts.size = sh.size := Facts.size_of_shape (hp.shape_eq.trans hs)
  cases htarget with
  | var hn hm ha ha' =>
    simp only [declaration, addrOf_of_addr ha', pure_bind]
    refine (hv.into W hW _ ?_).mono fun _ _ _ _ => trivial
    rw [hsize]
    exact apart_of_variable hf ⟨sym, hn, hm, hsym, ha⟩
  | @entry _ _ _ keys m hm hk hkeys hid =>
    have hneat := neat_of_keys ht hkeys hf.left
    have hvalue := disjoint_of_inMap hf (Table.inMap_of_mem hm.value_mem)
    rw [← packedSize_placed hkeys] at hk
    rw [declaration_entry hm hid]
    refine .bind ((tidy_stageAll hneat hW).mono fun sts W₁ h₁ hsts => ?_)
    refine .bind ((hv.stage (hW.mono h₁)).mono fun st W₂ h₂ hst => ?_)
    refine .bind ((tidy_writeKey hf hm hk hneat (hW.mono (h₁.trans h₂))
      (hsts.imp fun _ _ h => h.mono h₂) hvalue).mono fun _ W₃ h₃ hwritten => ?_)
    refine .bind ((hv.unstage (hW.mono ((h₁.trans h₂).trans h₃)) (hst.mono h₃) ?_).mono ?_)
    · rw [hsize, ← Facts.size_of_shape hsym, hm.valueSize]
      exact fun v hv => .inl (hvalue v hv)
    · exact fun _ W₄ h₄ _ => tidy_update hf hm (hwritten.1.trans h₄) (hwritten.2.trans h₄)

theorem tidy_assignment (ht : t.Ready) {op : ArithOp} (hf : Framed w t (rs ++ qs))
    (htarget : PlacedTarget t sym target target' rs)
    (hsym : sym.map = none → sym.facts.shape = some .int) (hp : Placed t false rhs rhs' qs)
    (hs : rhs.facts.shape = some .int) (hW : Covers t W) :
    Tidy w t.variableRegions W (assignment t op target' rhs') fun _ _ => True := by
  have hv := neat_of_placed ht hp hf.right
  have hint : rhs'.facts.isInt = true := by
    rw [Facts.isInt_of_shape (hp.shape_eq.trans hs)]
    rfl
  have hload : ∀ {W : Set Int} {addr : Int} (dst : Temp), (Region.mk addr 8).bytes ⊆ W →
      ∀ r ∈ (Instruction.load dst addr).reads w, r.bytes ⊆ W := by
    rintro W addr dst h r (_ | ⟨_, ⟨⟩⟩)
    exact h
  cases htarget with
  | var hn hm ha ha' =>
    have hat : t.VariableAt _ _ .int _ := ⟨sym, hn, hm, hsym hm, ha⟩
    rw [assignment_variable ha']
    refine .bind (.bind (.newTemp _ fun current => .bind (.push (hload _ ?_)
      (spares_of_none rfl rfl) (.pure ?_))))
    · exact hW _ (mem_of_variableAt hat)
    refine .bind ((hv.operand hint (hW.mono Set.subset_union_left)).mono fun y W₁ _ _ => ?_)
    refine .bind (.bind (.newTemp _ fun dst => .bind (.push nofun (spares_of_none rfl rfl)
      (.pure ?_))))
    exact .push nofun (spares_of_writes rfl rfl (apart_of_variable hf hat)) trivial
  | @entry _ _ _ keys m hm hk hkeys hid =>
    have hneat := neat_of_keys ht hkeys hf.left
    have hvalue := disjoint_of_inMap hf (Table.inMap_of_mem hm.value_mem)
    have hword : (Region.mk m.value 8).bytes ⊆ (Region.mk m.value m.valueSize).bytes :=
      Region.bytes_subset (hm.valueSize_ge ht)
    rw [← packedSize_placed hkeys] at hk
    rw [assignment_entry hm hid]
    refine .bind ((tidy_stageAll hneat hW).mono fun sts W₁ h₁ hsts => ?_)
    refine .bind ((hv.operand hint (hW.mono h₁)).mono fun y W₂ h₂ _ => ?_)
    refine .bind ((tidy_writeKey hf hm hk hneat (hW.mono (h₁.trans h₂))
      (hsts.imp fun _ _ h => h.mono h₂) hvalue).mono fun _ W₃ _ hwritten => ?_)
    refine .bind (.push (fun r hr => ?_) (fun q hq v hv => ?_) ?_)
    · obtain rfl := List.mem_singleton.1 hr
      rw [(hf.created _ _ _ hm).1]
      exact hwritten.1
    · obtain rfl := List.mem_singleton.1 hq
      exact .inl (hvalue v hv)
    refine .bind (.bind (.newTemp _ fun current => .bind (.push (hload _ ?_)
      (spares_of_none rfl rfl) (.pure ?_))))
    · exact (hword.trans hwritten.2).trans Set.subset_union_left
    refine .bind (.bind (.newTemp _ fun dst => .bind (.push nofun (spares_of_none rfl rfl)
      (.pure ?_))))
    refine .bind (.push nofun (spares_of_writes rfl rfl fun v hv => .inl ?_) ?_)
    · refine disjoint_of_inMap hf ⟨_, hm.value_mem, 0, by simp, ?_⟩ v hv
      simpa using hm.valueSize_ge ht
    · have hsub : W₃ ⊆ W₃ ∪ written [.lookup m.id m.key m.value m.valueSize] ∪
          written [.load current m.value] ∪ written [.arith op dst current y] ∪
          written [.store dst m.value] := by
        intro x hx
        exact .inl (.inl (.inl (.inl hx)))
      exact tidy_update hf hm (hwritten.1.trans hsub) (hwritten.2.trans hsub)

theorem tidy_out (ht : t.Ready) {tag formatTag recordTag : Tag} {function : Name} {format : String}
    {members : List Placing} {cs : List Conversion} {channel : MapId} {addr : Int} {sh : Shape}
    (hf : Framed w t (⟨addr, sh.size⟩ :: members.flatMap Placing.regions))
    (hb : Builtin.ofName? function = some .out) (hcs : conversions format = .ok cs)
    (hchannel : t.events.id? = some channel)
    (hsh : sh = ⟨.record, max (Annotate.packedSize (members.map Placing.node)) 8⟩)
    (hs : recordTag.facts.shape = some sh) (ha : recordTag.facts.addr = some addr)
    (hm : ∀ k ∈ members, Placed t false k.node k.placed k.regions) (hW : Covers t W) :
    Tidy w t.variableRegions W (statement t (.call tag function
      [.text formatTag format, .record recordTag (members.map Placing.placed)]))
      fun _ _ => True := by
  have hown := disjoint_of_own hf List.mem_cons_self
  rw [statement_out hb hcs hchannel hs ha]
  refine .bind (.bind (Tidy.mono (Q := fun _ W' => (Region.mk addr sh.size).bytes ⊆ W') ?_ ?_))
  · rw [record_into (by rw [hsh]) hs]
    cases members with
    | nil =>
      exact .push nofun (spares_of_writes rfl rfl fun v hv => .inl (hown v hv))
        (bytes_subset_written rfl)
    | cons k ks =>
      have hsmall := hf.small ⟨addr, sh.size⟩ (List.mem_append_right _ List.mem_cons_self)
      have hsize : sh.size = Annotate.packedSize ((k :: ks).map Placing.placed) := by
        rw [packedSize_placed hm, hsh]
        exact Nat.max_eq_left (packedSize_ge (lowers_of_placed (w := w) ht (hm k List.mem_cons_self)))
      dsimp only at hsmall
      rw [hsize] at hown hsmall ⊢
      exact tidy_packInto (neat_of_keys ht hm (hf.sublist (List.sublist_cons_self ..))) hW hown hsmall
  · intro _ W' _ hbytes
    refine .push (fun r hr => ?_) (spares_of_none rfl rfl) (.announce _ trivial)
    obtain rfl := List.mem_singleton.1 hr
    exact hbytes

end

section

variable (w : World) (t : Table)

/-- The bytes of all variables. -/
def variableBytes : Set Int := { x | ∃ v ∈ t.variableRegions, v.Contains x }

theorem covers_variableBytes : Covers t (variableBytes t) := fun v hv _ hx => ⟨v, hv, hx⟩

/-- Code that reads only variables and what it has written itself. -/
structure Orderly (code : List Instruction) : Prop where
  clean : Clean w (variableBytes t) code
  spares : ∀ i ∈ code, i.Spares t.variableRegions

/-- All blocks are orderly. -/
def Program.Tidied (p : Program) : Prop := ∀ b, Orderly w t (p.codeAt b)

end

section

variable {w : World} {t : Table} {s s' : Builder}

theorem Orderly.append {c d : List Instruction} (hc : Orderly w t c) (hd : Orderly w t d) :
    Orderly w t (c ++ d) where
  clean := hc.clean.seq hd.clean
  spares i hi := (List.mem_append.1 hi).elim (hc.spares i) (hd.spares i)

theorem Orderly.flatMap {p : Program} (h : p.Tidied w t) (bs : List Nat) :
    Orderly w t (bs.flatMap p.codeAt) := by
  induction bs with
  | nil => exact ⟨trivial, nofun⟩
  | cons b bs ih => exact (h b).append ih

theorem orderly_single {i : Instruction} (hr : i.reads w = []) (hw : i.writes = [])
    (hf : i.fills = []) : Orderly w t [i] where
  clean := ⟨by rw [hr]; exact nofun, trivial⟩
  spares j hj := by
    obtain rfl := List.mem_singleton.1 hj
    exact spares_of_none hw hf

theorem tidied_leaves {i : Instruction} {size next : Nat} (h : s.program.Tidied w t)
    (hl : s.Leaves s' i size next) (hi : Orderly w t [i]) : s'.program.Tidied w t := by
  intro b
  have hcode : s'.program.codeAt b = _ := hl.code b
  rw [hcode]
  split
  · exact (h b).append hi
  · exact h b

theorem tidied_of_tidy {α : Type} {m : Build α} {Q : α → Set Int → Prop} {a : α}
    (hm : Tidy w t.variableRegions (variableBytes t) m Q) (hs : s.Open)
    (hrun : m s = .ok (a, s')) (h : s.program.Tidied w t) : s'.program.Tidied w t := by
  obtain ⟨c, fs, rfl, hclean, hspares, -⟩ := hm s a s' hrun
  intro b
  have hcode : ((s.append c).announce fs).program.codeAt b = _ :=
    Builder.codeAt_append hs.current c b
  rw [hcode]
  split
  · exact (h b).append ⟨hclean, hspares⟩
  · exact h b

variable (w t) in
/-- The action keeps all blocks orderly. -/
abbrev KeepsTidied (m : Build Unit) : Prop := Keeps (Program.Tidied w t) m

theorem keepsTidied_branch {condition : Node} {yes no : List Node}
    (hcond : Tidy w t.variableRegions (variableBytes t) (evaluation t condition).scalar
      fun _ _ => True)
    (hyes : KeepsTidied w t (statements t yes)) (hno : KeepsTidied w t (statements t no)) :
    KeepsTidied w t (branch t condition (statements t yes) (statements t no)) := by
  refine keeps_branch (fun s s₁ cond hs hs₁ h₁ htidy => ?_) (fun s merge next hs htidy => ?_) hyes hno
  · exact tidied_leaves (tidied_of_tidy hcond hs h₁ htidy) (Builder.fork_leaves hs₁.current cond)
      (orderly_single rfl rfl rfl)
  · exact tidied_leaves htidy (Builder.leave_leaves hs.current ..) (orderly_single rfl rfl rfl)

theorem keepsTidied_statements {ns : List Node} (h : ∀ n ∈ ns, KeepsTidied w t (statement t n)) :
    KeepsTidied w t (statements t ns) := by
  induction ns with
  | nil => exact keeps_nil
  | cons n ns ih =>
    exact keeps_cons (h n List.mem_cons_self) (ih fun m hm => h m (List.mem_cons_of_mem _ hm))

theorem keepsTidied_of_placed (ht : t.Ready) {n n' : Node} {rs : List Region}
    (h : PlacedStatement t n n' rs) (hf : Framed w t rs) : KeepsTidied w t (statement t n') := by
  have hW := covers_variableBytes t
  have hbody : ∀ {ks : List Placing}, Framed w t (ks.flatMap Placing.regions) →
      (∀ k ∈ ks, Framed w t k.regions → KeepsTidied w t (statement t k.placed)) →
      KeepsTidied w t (statements t (ks.map Placing.placed)) := by
    intro ks hf hks
    refine keepsTidied_statements fun n hn => ?_
    obtain ⟨k, hk, rfl⟩ := List.mem_map.1 hn
    exact hks k hk (hf.of_mem hk)
  induction h with
  | declaration htarget hsym hp hs =>
    exact fun _ _ => tidied_of_tidy (tidy_declaration ht hf htarget hsym hp hs hW)
  | assignment htarget hsym hp hs =>
    exact fun _ _ => tidied_of_tidy (tidy_assignment ht hf htarget hsym hp hs hW)
  | cond hp hs _ _ ihyes ihno =>
    have hint := Facts.isInt_of_shape (hp.shape_eq.trans hs)
    exact keepsTidied_branch ((neat_of_placed ht hp hf.left).scalar hint _ hW)
      (hbody hf.right.left ihyes) (hbody hf.right.right ihno)
  | unroll _ ih => exact keeps_times (hbody hf ih) _
  | call hp =>
    obtain ⟨b, hb, hhelper⟩ := neatHelper_of_placed ht hp hf
    exact fun _ _ => tidied_of_tidy (hhelper.statement hb hW)
  | out hb _ hcs _ hchannel hsh _ hs' ha hm =>
    exact fun _ _ => tidied_of_tidy (tidy_out ht hf hb hcs hchannel hsh hs' ha hm hW)

theorem ofProbe_tidied (ht : t.Ready) {p : Probe} {ks : List Placing} {built : Built}
    (hp : p.body = ks.map Placing.placed)
    (hks : ∀ k ∈ ks, PlacedStatement t k.node k.placed k.regions)
    (hf : Framed w t (ks.flatMap Placing.regions)) (h : ofProbe t p = .ok built) :
    built.program.Tidied w t := by
  obtain ⟨s, hs, hbuilt⟩ := ofProbe_statements h
  have hstart : (Builder.start p.name.value).program.Tidied w t := fun b => by
    rw [Builder.codeAt_start]
    exact ⟨trivial, nofun⟩
  have hbody : KeepsTidied w t (statements t p.body) := by
    rw [hp]
    refine keepsTidied_statements fun n hn => ?_
    obtain ⟨k, hk, rfl⟩ := List.mem_map.1 hn
    exact keepsTidied_of_placed ht (hks k hk) (hf.of_mem hk)
  have hopen := Builder.open_start p.name.value
  have htidy := hbody _ s hopen hs hstart
  have hcurrent := ((shaped_statements t p.body _ s hs).opens hopen).1.current
  rw [hbuilt]
  intro b
  have hcode : (s.finish .ret).program.codeAt b = _ := Builder.codeAt_finish hcurrent .ret b
  rw [hcode]
  split
  · exact (htidy b).append (orderly_single rfl rfl rfl)
  · exact htidy b

end

/-- Along blocks in any order, and so along every path, a byte that is read has been written before,
unless it belongs to a variable of which nothing has been written before. -/
theorem ofProbe_reads_written {σ : Type} {k : Kernel σ} {options : Options} {source : Source}
    {typed placed : Probe} {bound table : Table} {gs : List Grant} {built : Built}
    (h : Compile.Creates k options source typed bound placed table gs)
    (htotal : placed.frameTotal table < 2 ^ 31) (hbuilt : ofProbe table placed = .ok built)
    {w : World} (hw : w.Holds gs) {bs : List Nat} {c d : List Instruction} {i : Instruction}
    (hpath : bs.flatMap built.program.codeAt = c ++ i :: d) {r : Region} (hr : r ∈ i.reads w)
    {x : Int} (hx : r.Contains x) :
    x ∈ written c ∨ ∃ v ∈ table.variableRegions, v.Contains x ∧
      ∀ j ∈ c, ∀ q ∈ j.writes ++ j.fills, q.Disjoint v := by
  obtain ⟨ks, hprep⟩ := h.prepares.prepared
  have hf := hprep.framed htotal (h.keeps hw)
  have horderly := Orderly.flatMap
    (ofProbe_tidied hprep.ready_table hprep.placed hprep.statements hf hbuilt) bs
  rw [hpath] at horderly
  rcases horderly.clean.reads r hr hx with ⟨v, hv, hxv⟩ | hwritten
  · by_cases hnone : ∀ j ∈ c, ∀ q ∈ j.writes ++ j.fills, q.Disjoint v
    · exact .inr ⟨v, hv, hxv, hnone⟩
    · -- Whoever writes some of the variable writes all of it.
      simp only [not_forall] at hnone
      obtain ⟨j, hj, q, hq, hmeet⟩ := hnone
      obtain ⟨rfl, hq⟩ :=
        (horderly.spares j (List.mem_append_left _ hj) q hq v hv).resolve_left hmeet
      exact .inl ⟨j, hj, q, hq, hxv⟩
  · exact .inl hwritten

/-- A variable that both cases of a branch assign. -/
def assignedTwice : Source where
  name := "assigned"
  lines := ["probe p \x7b if (pid()) \x7b x = 1; \x7d else \x7b x = 2; \x7d out(\"%d\", x); \x7d"]

/-- A channel and nothing else, as it is created. -/
def eventWorld : World where
  pid := 7
  tid := 8
  cpu := 0
  args _ := 0
  comm := []
  clock _ := 0
  created
    | ⟨3⟩ => some ⟨.perfEventArray, 4, 4, 1⟩
    | _ => none

theorem assignedTwice_reads_written :
    ∃ typed bound placed table gs built,
      Compile.Creates DryRun.kernel {} assignedTwice typed bound placed table gs ∧
      placed.frameTotal table < 2 ^ 31 ∧ ofProbe table placed = .ok built ∧ eventWorld.Holds gs ∧
      ∃ c d, [0, 2, 3].flatMap built.program.codeAt = c ++ .load 3 (-8) :: d ∧ -8 ∈ written c := by
  let before : List Instruction :=
    [.call .pid (some 0), .branch 0 1 2, .imm 2 2, .store 2 (-8), .jump 3]
  have hcreates : ∃ typed bound placed table gs,
      Compile.Creates DryRun.kernel {} assignedTwice typed bound placed table gs ∧
      placed.frameTotal table < 2 ^ 31 ∧ eventWorld.Holds gs ∧
      (ofProbe table placed).toOption.any fun built =>
        [0, 2, 3].flatMap built.program.codeAt = before ++ .load 3 (-8) ::
          [.store 3 (-16), .call (.out (-16) 8 ⟨3⟩) none, .ret] := by
    refine ⟨?_, ?_, ?_, ?_, ?_, ⟨?_, ?_, ?_⟩, ?_⟩
    rotate_left 6
    · conv => lhs; cbv
    · refine ⟨_, List.mem_cons_self, ?_, ?_, ⟨{ kernel := ({}, []) }, ?_, ?_, ?_⟩, ?_⟩
      rotate_left 1
      · conv => lhs; cbv
      rotate_left 1
      · exact rfl
      · exact rfl
      · exact rfl
    · refine ⟨by decide +kernel, by unfold World.Holds; decide +kernel, ?_⟩
      decide +kernel
  obtain ⟨typed, bound, placed, table, gs, hcreates, htotal, hholds, hcode⟩ := hcreates
  obtain ⟨built, hbuilt, hcode⟩ := Run.except_ok_of_any hcode
  have hpath := of_decide_eq_true hcode
  refine ⟨typed, bound, placed, table, gs, built, hcreates, htotal, hbuilt, hholds, before, _, hpath,
    ?_⟩
  have hread : Region.mk (-8) 8 ∈ (Instruction.load 3 (-8)).reads eventWorld := List.mem_cons_self
  rcases ofProbe_reads_written hcreates htotal hbuilt hholds hpath hread
    (x := -8) (by simp [Region.Contains]) with hwritten | ⟨v, -, hv, hnone⟩
  · exact hwritten
  · -- The second case of the branch has stored the variable.
    have hapart := hnone (.store 2 (-8)) (by decide) ⟨-8, 8⟩ (by decide)
    simp only [Region.Disjoint, Region.Contains] at hapart hv
    omega

/-- A variable that one case of a branch assigns. -/
def assignedOnce : Source where
  name := "once"
  lines := ["probe p \x7b if (pid()) \x7b x = 1; \x7d out(\"%d\", x); \x7d"]

/-- Its code is generated, and the path through the other case reads a variable that nothing has
written. -/
theorem assignedOnce_unwritten :
    ∃ typed bound placed table code built, ∃ s s' : Session DryRun,
      Compile.Prepares DryRun.kernel {} assignedOnce typed bound placed table ∧
      (Compile.codeOf {} bound typed).run s = .ok code s' ∧ ofProbe table placed = .ok built ∧
      ∃ (bs : List Nat) (c d : List Instruction) (i : Instruction),
        bs.head? = some 0 ∧ bs.IsChain built.program.Goes ∧
        bs.flatMap built.program.codeAt = c ++ i :: (d ++ [.ret]) ∧
        ∀ w, ∃ r ∈ i.reads w, ∃ x, r.Contains x ∧ x ∉ written c := by
  have hprepares : ∃ typed bound placed table,
      Compile.Prepares DryRun.kernel {} assignedOnce typed bound placed table ∧
      typed.place.run bound = (placed, table) ∧
      ((ofProbe table placed).toOption.any fun built =>
        built.program.codeAt 0 = [.call .pid (some 0), .branch 0 1 2] ∧
        built.program.codeAt 2 = [.jump 3] ∧
        built.program.codeAt 3 = [.load 2 (-8), .store 2 (-16), .call (.out (-16) 8 ⟨3⟩) none, .ret]) ∧
      (ofProbe table placed).toOption.any fun built =>
        (built.program.assembleInOrder table.frame 4096).toOption.any fun _ => true := by
    apply Compile.exists_prepares (s := { kernel := {} })
    · conv => lhs; cbv
    · conv => lhs; cbv
    · exact rfl
    · exact ⟨rfl, by decide +kernel, by decide +kernel⟩
  obtain ⟨typed, bound, placed, table, hp, hplaced, hcode, heval⟩ := hprepares
  obtain ⟨code, s', hrun, -⟩ :=
    Compile.codeOf_of_evaluated {} { kernel := ({} : DryRun) } hplaced heval
  obtain ⟨built, hbuilt, hcode⟩ := Run.except_ok_of_any hcode
  obtain ⟨h₀, h₂, h₃⟩ := of_decide_eq_true hcode
  refine ⟨typed, bound, placed, table, code, built, _, s', hp, hrun, hbuilt, [0, 2, 3],
    [.call .pid (some 0), .branch 0 1 2, .jump 3],
    [.store 2 (-16), .call (.out (-16) 8 ⟨3⟩) none], .load 2 (-8), rfl, ?_, ?_, fun w => ?_⟩
  · have hgoes : ∀ {b k : Nat} {i : Instruction}, i ∈ built.program.codeAt b → k ∈ i.targets →
        built.program.Goes b k := fun hi hk => ⟨_, hi, hk⟩
    refine .cons_cons (hgoes (i := .branch 0 1 2) ?_ (by decide))
      (.cons_cons (hgoes (i := .jump 3) ?_ (by decide)) (.singleton _))
    · rw [h₀]
      decide
    · rw [h₂]
      decide
  · simp [h₀, h₂, h₃]
  · refine ⟨⟨-8, 8⟩, List.mem_cons_self, -8, by simp [Region.Contains], ?_⟩
    simp [written, writes]

end TraceScript.Flow
