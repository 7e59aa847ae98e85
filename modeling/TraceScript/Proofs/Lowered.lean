import Mathlib.Tactic.IntervalCases
import TraceScript.Proofs.MapKeys

namespace TraceScript

open TraceScript.Flow (MapRef)

theorem Table.VariableAt.index {t : Table} {name : Name} {i : Nat} {sh : Shape} {addr : Int}
    (h : t.VariableAt name i sh addr) : t.scope.index name = some i := by
  obtain ⟨s, hn, -⟩ := h
  exact hn.lookup

theorem Table.MapAt.scope {t : Table} {name : Name} {s : Symbol} {m : MapRef}
    (h : t.MapAt name s m) : t.scope.map name = some (m.id, m.valueSize) := by
  obtain ⟨i, hn⟩ := h.names
  obtain ⟨slot, hs, hid, -⟩ := h.slot
  change t.mapOf name = _
  simp only [Table.mapOf, hn.find, hs, hid, h.valueSize, Option.bind_eq_bind, Option.bind_some]
  rfl

theorem Table.MapAt.valueSize_ge {t : Table} {name : Name} {s : Symbol} {m : MapRef}
    (h : t.MapAt name s m) (ht : t.Ready) : 8 ≤ m.valueSize := by
  obtain ⟨i, hn⟩ := h.names
  obtain ⟨hpos, hmod⟩ := (ht.names hn).size
  rw [h.valueSize] at hpos hmod
  omega

namespace Flow

open Instruction Evaluation

theorem addrOf_of_addr {tag : Tag} {addr : Int} (h : tag.facts.addr = some addr) :
    Build.addrOf tag = pure addr := by
  rw [Build.addrOf, h]

theorem mapRef_of_mapAt {t : Table} {name : Name} {s : Symbol} {m : MapRef} {tag : Tag}
    (h : t.MapAt name s m) (htag : tag.facts.map = some m.id) : mapRef t tag name = pure m := by
  obtain ⟨i, hn⟩ := h.names
  obtain ⟨slot, hs, hid, hk, hv, hsize⟩ := h.slot
  unfold mapRef
  simp only [hn.find, hs, htag, hk, hv, hsize, h.valueSize, Option.bind_eq_bind, Option.bind_some]
  rfl

theorem into_of_int {t : Table} {n : Node} (h : n.facts.isInt = true) (dest : Int) :
    (evaluation t n).into dest = (do
      let src ← (evaluation t n).scalar
      Build.push (.store src dest)) := by
  cases n <;> simp only [evaluation, standing, built, storing] <;> exact if_pos h

theorem into_of_entry {t : Table} {n : Node} (h : n.facts.isInt = false) (he : n.isEntry = true)
    (dest : Int) :
    (evaluation t n).into dest = (do
      let source ← (evaluation t n).slot
      if source ≠ dest then Build.push (.copy dest source n.facts.size)) := by
  cases n with
  | mapAccess tag map keys =>
    have h' : tag.facts.isInt = false := h
    simp only [evaluation, standing, storing]
    exact if_neg (by rw [h']; exact Bool.false_ne_true)
  | _ => cases he

theorem call_scalar {t : Table} {tag : Tag} {function : Name} {args : List Node} {b : Builtin}
    (hb : Builtin.ofName? function = some b) (hint : tag.facts.isInt = true) :
    (evaluation t (.call tag function args)).scalar = (do
      match ← helper tag (evaluations t args) b with
      | some h =>
        let dst ← Build.newTemp (some (.builtin b))
        Build.push (.call h (some dst))
        return dst
      | none =>
        output t (evaluations t args)
        Build.fault .noCallValue) := by
  simp only [evaluation, built, Evaluation.call, hb, hint, bind_assoc]
  congr 1
  funext r
  cases r with
  | none => simp
  | some h => simp

namespace Lowers

variable {w : World} {t : Table} {n n' : Node} {rs : List Region} {alone : Bool}

theorem of_int (hs : n.facts.shape = some .int) (hs' : n'.facts.shape = some .int)
    (hlen : ∀ σ, (n.valueIn w t σ).1.length = 8) (hscalar : LowersScalar w t n n' rs) :
    Lowers w t n n' rs alone where
  shape := ⟨.int, hs, hs', .inl rfl⟩
  length σ := (hlen σ).trans (Facts.size_of_shape hs).symm
  scalar _ := hscalar
  slot h := by
    rw [(Facts.shape_eq_some.1 hs).1] at h
    cases h
  deferred h := by
    rw [(Facts.shape_eq_some.1 hs).1] at h
    cases h

theorem of_built {sh : Shape} {addr : Int} {v : List UInt8} {i : Int → Instruction}
    (hs : n.facts.shape = some sh) (hs' : n'.facts.shape = some sh) (hv : sh.IsValue)
    (hstr : sh.type = .str) (hne : n'.isEntry = false) (hlen : v.length = sh.size)
    (hvalue : ∀ vars o, n.value w t.scope vars o = (v, o))
    (hinto : ∀ dest, (evaluation t n').into dest = Build.push (i dest))
    (hslot : (evaluation t n').slot = (do
      (evaluation t n').into addr
      return addr))
    (hranges : ∀ dest, (i dest).ranges w = [⟨dest, sh.size⟩] ∧ (i dest).Fits w)
    (hrun : ∀ dest σ, (i dest).run w σ = σ.write dest v) :
    Lowers w t n n' (ownRegion alone addr sh.size) alone := by
  have hsize : n.facts.size = sh.size := Facts.size_of_shape hs
  have hpush : ∀ (dest : Int) (s : Builder) (G : Prop) (ps : List Region),
      (G → ∃ q ∈ ps, (Region.mk dest sh.size).Inside q) →
      Adds w G ps ((evaluation t n').into dest) s () ⟨[i dest], []⟩ := by
    intro dest s G ps hG
    rw [hinto]
    refine .push fun hg => ⟨?_, (hranges dest).2⟩
    rw [(hranges dest).1]
    rintro r (_ | ⟨_, ⟨⟩⟩)
    exact hG hg
  refine ⟨⟨sh, hs, hs', hv⟩, fun σ => ?_, fun h => ?_, fun _ halone s => ?_, fun _ _ => ?_⟩
  · rw [Node.valueIn, hvalue, hsize, hlen]
  · obtain rfl := Option.some.inj (hs.symm.trans h)
    cases hstr
  · obtain rfl : alone = true := halone.resolve_right (by rw [hne]; exact Bool.false_ne_true)
    have hmem : Region.mk addr sh.size ∈ ownRegion true addr sh.size := List.mem_cons_self
    refine ⟨addr, ⟨[i addr], []⟩ ++ {}, ?_, .inl (by rw [hsize]; exact hmem), fun _ σ => ?_⟩
    · rw [hslot]
      exact (hpush addr s _ _ fun _ => ⟨_, List.mem_append_right _ hmem, .refl _⟩).bind (.pure _)
    · simp only [Chunk.code_append, runAll_append, runAll_cons, runAll_nil, hrun, Node.valueIn,
        hvalue, hsize]
      refine ⟨.write_inside (List.mem_append_right _ hmem) σ ?_ _, Memory.read_write _ addr hlen⟩
      rw [hlen]
      exact .refl _
  · refine ⟨⟨fun _ => v, hvalue⟩, fun ps dest s => ⟨_, hpush dest s _ ps fun hroom => ?_,
      fun σ => ?_⟩⟩
    · rw [← hsize]
      exact hroom.inside
    · simp only [runAll_cons, runAll_nil, hrun, Node.valueIn, hvalue]

end Lowers

section

variable {w : World} {t : Table}

theorem lowers_int {alone : Bool} {tag tag' : Tag} {v : Int64} (hs : tag.facts.shape = some .int)
    (hs' : tag'.facts.shape = some .int) :
    Lowers w t (.int tag v) (.int tag' v) [] alone := by
  refine .of_int hs hs' (fun σ => Bytes.length_ofWord _) fun s => ?_
  refine ⟨s.count, ⟨[.imm s.count v], [{ origin := none }]⟩, ?_, Nat.lt_succ_self _,
    fun _ σ => ⟨.set .., ?_⟩⟩
  · simp only [evaluation, standing]
    exact .define fun _ => safe_of_untouched rfl trivial
  · simp [run, Node.valueIn, Node.value]

theorem padded_eq {x : String} {size : Nat} (h : (Text.utf8 x).length < size) :
    padded x size = Bytes.extend size (Text.utf8 x) := by
  have hmax : max size ((Text.utf8 x).length + 1) = size := by omega
  simp only [padded, hmax, Bytes.extend]
  rw [List.take_append, List.take_of_length_le (by omega), List.take_replicate,
    Nat.min_eq_left (by omega)]

theorem lowers_text {alone : Bool} {tag tag' : Tag} {x : String} {addr : Int} {sh : Shape}
    (hsh : sh = ⟨.str, align8 ((Text.utf8 x).length + 1)⟩) (hs : tag.facts.shape = some sh)
    (hs' : tag'.facts.shape = some sh) (ha : tag'.facts.addr = some addr) :
    Lowers w t (.text tag x) (.text tag' x) (ownRegion alone addr sh.size) alone := by
  have hlt : (Text.utf8 x).length < sh.size := by
    rw [hsh]
    exact le_align8 _
  have hint : tag'.facts.isInt = false := by
    rw [Facts.isInt_of_shape hs', hsh]
    rfl
  have hinto : ∀ dest, (evaluation t (.text tag' x)).into dest =
      Build.push (.bytes dest (padded x tag'.facts.size)) := by
    intro dest
    simp only [evaluation, built, storing, hint]
    rfl
  refine .of_built (v := padded x sh.size) (i := fun dest => .bytes dest (padded x sh.size)) hs hs'
    (.inr ⟨?_, Nat.zero_lt_of_lt hlt, ?_⟩) ?_ rfl ?_ (fun vars o => ?_) (fun dest => ?_) ?_
    (fun dest => ⟨?_, trivial⟩) fun dest σ => rfl
  · rw [hsh]
  · rw [hsh]
    exact align8_mod _
  · rw [hsh]
  · rw [padded_eq hlt, Bytes.length_extend]
  · rw [padded_eq hlt, Node.value, Facts.size_of_shape hs]
  · rw [hinto, Facts.size_of_shape hs']
  · rw [hinto]
    simp only [evaluation, built, storing, hint, addrOf_of_addr ha, pure_bind]
    rfl
  · rw [ranges, padded_eq hlt, Bytes.length_extend]

theorem lowers_comm {alone : Bool} {tag tag' : Tag} {function : Name} {addr : Int} {sh : Shape}
    (hb : Builtin.ofName? function = some .comm) (hsh : sh = ⟨.str, Builtin.commSize⟩)
    (hs : tag.facts.shape = some sh) (hs' : tag'.facts.shape = some sh)
    (ha : tag'.facts.addr = some addr) :
    Lowers w t (.call tag function []) (.call tag' function []) (ownRegion alone addr sh.size)
      alone := by
  have hint : tag'.facts.isInt = false := by
    rw [Facts.isInt_of_shape hs', hsh]
    rfl
  have hinto : ∀ dest, (evaluation t (.call tag' function [])).into dest =
      Build.push (.call (.comm dest sh.size) none) := by
    intro dest
    simp only [evaluation, built, storing, hint, hb, if_true, Facts.size_of_shape hs']
    rfl
  refine .of_built (v := Bytes.extend sh.size w.comm)
    (i := fun dest => .call (.comm dest sh.size) none) hs hs' (.inr ⟨?_, ?_, ?_⟩) ?_ rfl
    (Bytes.length_extend ..) (fun vars o => ?_) hinto ?_ (fun dest => ⟨rfl, rfl⟩) fun dest σ => rfl
  · rw [hsh]
  · rw [hsh]
    decide
  · rw [hsh]
    decide
  · rw [hsh]
  · simp only [Node.value, hb, Facts.size_of_shape hs]
  · rw [hinto]
    simp only [evaluation, built, storing, hint, addrOf_of_addr ha, pure_bind, hb, if_true,
      Facts.size_of_shape hs']
    rfl

theorem lowers_var {alone : Bool} {tag tag' : Tag} {name : Name} {i : Nat} {sh : Shape} {addr : Int}
    (ht : t.Ready) (hvar : t.VariableAt name i sh addr) (hs : tag.facts.shape = some sh)
    (hs' : tag'.facts.shape = some sh) (ha : tag'.facts.addr = some addr) :
    Lowers w t (.var tag name) (.var tag' name) [] alone := by
  have hvalue : ∀ σ, (Node.var tag name).valueIn w t σ = (σ.frame.read addr sh.size, σ.outside) := by
    intro σ
    rw [Node.valueIn, Node.value_var hvar.index, hvar.contents]
  have hvalueShape : sh.IsValue := by
    obtain ⟨s, hn, -, hsh, -⟩ := hvar
    obtain ⟨sh', hsh', hv⟩ := (ht.names hn).shape
    obtain rfl := Option.some.inj (hsh.symm.trans hsh')
    exact hv
  have hsize : (Node.var tag name).facts.size = sh.size := Facts.size_of_shape hs
  refine ⟨⟨sh, hs, hs', hvalueShape⟩, fun σ => ?_, fun hint s => ?_, fun hstr _ s => ?_,
    fun hstr _ => ⟨⟨fun vars => vars i, fun vars o => Node.value_var hvar.index⟩, ?_⟩⟩
  · rw [hvalue, hsize, Memory.length_read]
  · obtain rfl := Option.some.inj (hs.symm.trans hint)
    refine ⟨s.count, ⟨[.load s.count addr], [{ origin := (t.lookup name).map .symbol }]⟩, ?_,
      Nat.lt_succ_self _, fun _ σ => ?_⟩
    · simp only [evaluation, standing, addrOf_of_addr ha, pure_bind]
      refine .define fun _ => ⟨?_, trivial⟩
      rintro r (_ | ⟨_, ⟨⟩⟩)
      exact ⟨_, List.mem_append_left _ hvar.mem, .refl _⟩
    · rw [hvalue]
      simp only [runAll_cons, runAll_nil, run, State.temps_set]
      exact ⟨.set .., rfl⟩
  · refine ⟨addr, {}, ?_, .inr ⟨name, i, sh, hvar, hsize⟩, fun _ σ => ?_⟩
    · simp only [evaluation, standing, addrOf_of_addr ha]
      exact .pure _
    · rw [hvalue, hsize, runAll_nil]
      exact ⟨.refl .., rfl⟩
  · intro ps dest s
    have hint : tag'.facts.isInt = false := by
      have htype : tag.facts.type = some sh.type := (Facts.shape_eq_some.1 hs).1
      rw [Facts.isInt_of_shape hs', Option.some.inj (htype.symm.trans hstr)]
      rfl
    have hinto : (evaluation t (.var tag' name)).into dest =
        if addr ≠ dest then Build.push (.copy dest addr sh.size) else pure () := by
      simp only [evaluation, standing, storing, hint, addrOf_of_addr ha, pure_bind,
        Facts.size_of_shape hs']
      rfl
    rw [hinto]
    by_cases hdest : addr = dest
    · subst hdest
      refine ⟨{}, ?_, fun σ => ?_⟩
      · rw [if_neg (not_not.2 rfl)]
        exact .pure _
      · rw [hvalue, runAll_nil, State.write, Memory.write_read]
    · refine ⟨⟨[.copy dest addr sh.size], []⟩, ?_, fun σ => ?_⟩
      · rw [if_pos hdest]
        have hmem : Region.mk addr sh.size ∈ t.regions := hvar.mem
        refine .push fun hroom => ⟨?_, ?_⟩
        · rintro r (_ | ⟨_, _ | ⟨_, ⟨⟩⟩⟩)
          · rw [← hsize]
            exact hroom.inside
          · exact ⟨_, hroom.subset (List.mem_append_left _ hmem), .refl _⟩
        · have := hroom.apart ⟨addr, sh.size⟩ (.inr ⟨name, i, sh, hvar, rfl⟩)
          rw [hsize] at this
          exact this.resolve_left hdest
      · rw [hvalue]
        rfl

section Entry

variable {alone : Bool} {tag tag' : Tag} {map : Name} {keys : List Placing} {sym : Symbol}
  {m : MapRef}

theorem valueIn_entry (hm : t.MapAt map sym m) (σ : State) :
    (Node.mapAccess tag map (keys.map Placing.node)).valueIn w t σ =
      let key := Node.packedIn w t (keys.map Placing.node) σ
      (Bytes.extend tag.facts.size ((key.2.store m.id key.1).getD []),
        key.2.log (.lookup m.id key.1)) :=
  Node.value_mapAccess hm.scope

theorem lowers_entry (ht : t.Ready) (hm : t.MapAt map sym m)
    (hk : m.keySize = Annotate.packedSize (keys.map Placing.node))
    (hkeys : ∀ k ∈ keys, Lowers w t k.node k.placed k.regions false)
    (hs : tag.facts.shape = some .int) (hs' : tag'.facts.shape = some .int)
    (hid : tag'.facts.map = some m.id) :
    Lowers w t (.mapAccess tag map (keys.map Placing.node))
      (.mapAccess tag' map (keys.map Placing.placed)) (keys.flatMap Placing.regions) alone := by
  have hsize : tag.facts.size = 8 := Facts.size_of_shape hs
  refine .of_int hs hs' (fun σ => ?_) fun s => ?_
  · rw [valueIn_entry hm, hsize]
    exact Bytes.length_extend ..
  · have hland : Landing m [] m.value := .inl rfl
    obtain ⟨c, hadds, hrun⟩ := readMap_adds hm hk hkeys hland s
    rw [List.append_nil] at hadds hrun
    refine ⟨s.count + c.temps.length, c ++ ⟨[.load (s.count + c.temps.length) m.value],
      [{ origin := (t.lookup map).map .symbol }]⟩, ?_, ?_, fun hf σ => ?_⟩
    · simp only [evaluation, standing, mapRef_of_mapAt hm hid, pure_bind]
      rw [← s.count_append]
      refine hadds.bind (.define fun _ => ⟨?_, trivial⟩)
      rintro r (_ | ⟨_, ⟨⟩⟩)
      refine ⟨_, List.mem_append_left _ (t.mapRegions_subset hm.value_mem), 0, by simp, ?_⟩
      have := hm.valueSize_ge ht
      simpa using this
    · simp
    · obtain ⟨he, hread⟩ := hrun hf σ
      simp only [Chunk.code_append, runAll_append, runAll_cons, runAll_nil, run, State.temps_set,
        valueIn_entry hm, hsize]
      refine ⟨⟨he.frame, fun u hu => ?_, he.outside⟩, ?_⟩
      · have hne : u ≠ s.count + c.temps.length := by omega
        rw [State.temps_set_of_ne _ _ hne]
        exact he.temps u hu
      · rw [← Memory.take_read _ _ (hm.valueSize_ge ht), hread,
          Bytes.take_extend (hm.valueSize_ge ht)]

theorem lowers_stringEntry {sh : Shape} {addr : Int} (ht : t.Ready) (hm : t.MapAt map sym m)
    (hk : m.keySize = Annotate.packedSize (keys.map Placing.node))
    (hkeys : ∀ k ∈ keys, Lowers w t k.node k.placed k.regions false)
    (hsym : sym.facts.shape = some sh) (hstr : sh.type = .str) (hs : tag.facts.shape = some sh)
    (hs' : tag'.facts.shape = some sh) (hid : tag'.facts.map = some m.id)
    (ha : tag'.facts.addr = some addr) :
    Lowers w t (.mapAccess tag map (keys.map Placing.node))
      (.mapAccess tag' map (keys.map Placing.placed))
      (keys.flatMap Placing.regions ++ [⟨addr, sh.size⟩]) alone := by
  have hsize : tag.facts.size = sh.size := Facts.size_of_shape hs
  have hvsize : m.valueSize = sh.size := by rw [← hm.valueSize, Facts.size_of_shape hsym]
  have hvalue : sh.IsValue := by
    obtain ⟨i, hn⟩ := hm.names
    obtain ⟨sh', hsh', hv⟩ := (ht.names hn).shape
    obtain rfl := Option.some.inj (hsym.symm.trans hsh')
    exact hv
  refine ⟨⟨sh, hs, hs', hvalue⟩, fun σ => ?_, fun hint => ?_, fun _ _ s => ?_, nofun⟩
  · rw [valueIn_entry hm]
    exact Bytes.length_extend ..
  · obtain rfl := Option.some.inj (hs.symm.trans hint)
    cases hstr
  · have hmem : Region.mk addr sh.size ∈ [Region.mk addr sh.size] := List.mem_cons_self
    have hland : Landing m [⟨addr, sh.size⟩] addr := .inr (by rw [hvsize]; exact hmem)
    obtain ⟨c, hadds, hrun⟩ := readMap_adds hm hk hkeys hland s
    refine ⟨addr, c ++ {}, ?_, .inl ?_, fun hf σ => ?_⟩
    · simp only [evaluation, standing, mapRef_of_mapAt hm hid, addrOf_of_addr ha, pure_bind]
      exact hadds.bind (.pure _)
    · change Region.mk addr tag.facts.size ∈ _
      rw [hsize]
      exact List.mem_append_right _ hmem
    · obtain ⟨he, hread⟩ := hrun hf σ
      simp only [Chunk.code_append, runAll_append, runAll_nil, valueIn_entry hm]
      refine ⟨he, ?_⟩
      rw [Node.facts, Node.tag, hsize, ← hvsize, hread]

end Entry

theorem operand_adds {alone : Bool} {n n' : Node} {rs : List Region} (hp : Placed t alone n n' rs)
    (h : Lowers w t n n' rs alone) (hint : n.facts.shape = some .int) (s : Builder) :
    ∃ x c, Adds w (Framed w t rs) (t.regions ++ rs) (operand n' (evaluation t n')) s x c ∧
      (∀ u : Nat, u ∈ x.temps → u < s.count + c.temps.length) ∧
      (Framed w t rs → ∀ σ, Evolves (t.mapRegions ++ rs) s.count (n.valueIn w t σ).2 σ
        (runAll w c.code σ) ∧
        x.value (runAll w c.code σ).temps = Bytes.toWord (n.valueIn w t σ).1) := by
  by_cases hsmall : ∃ tag' v, n' = .int tag' v ∧ v.toInt32.toInt64 = v
  · obtain ⟨tag', v, rfl, hv⟩ := hsmall
    cases hp with
    | int =>
      refine ⟨.imm v.toInt32, {}, ?_, nofun, fun _ σ => ⟨.refl .., ?_⟩⟩
      · unfold operand
        simp only [hv, if_true]
        exact .pure _
      · simp [Operand.value, hv, Node.valueIn, Node.value]
  · have hscalar : operand n' (evaluation t n') = (do
        return .temp (← (evaluation t n').scalar)) := by
      unfold operand
      split
      · rename_i tag' v
        exact if_neg fun hv => hsmall ⟨tag', v, rfl, hv⟩
      · rfl
    obtain ⟨dst, c, hadds, hhi, hrun⟩ := h.scalar hint s
    refine ⟨.temp dst, c ++ {}, ?_, ?_, fun hf σ => ?_⟩
    · rw [hscalar]
      exact hadds.bind (.pure _)
    · rintro u (_ | ⟨_, ⟨⟩⟩)
      simpa using hhi
    · simp only [Chunk.code_append, runAll_append, runAll_nil]
      exact hrun hf σ

/-- The instruction of an operation on two values. -/
def Instruction.ofBinary (dst lhs : Temp) (rhs : Operand) : BinaryOp → Instruction
  | .arith op => .arith op dst lhs rhs
  | .compare op => .compare op dst lhs rhs

theorem scalar_binary (tag : Tag) (op : BinaryOp) (lhs rhs : Node) :
    (evaluation t (.binary tag op lhs rhs)).scalar = (do
      let l ← (evaluation t lhs).scalar
      let r ← operand rhs (evaluation t rhs)
      let dst ← Build.newTemp none
      Build.push (.ofBinary dst l r op)
      return dst) := by
  cases op <;> simp only [evaluation, standing, Instruction.ofBinary]

theorem lowers_binary {alone : Bool} {tag tag' : Tag} {op : BinaryOp} {lhs lhs' rhs rhs' : Node}
    {rs qs : List Region} (hpr : Placed t true rhs rhs' qs) (hl : Lowers w t lhs lhs' rs true)
    (hr : Lowers w t rhs rhs' qs true) (hsl : lhs.facts.shape = some .int)
    (hsr : rhs.facts.shape = some .int) (hs : tag.facts.shape = some .int)
    (hs' : tag'.facts.shape = some .int) :
    Lowers w t (.binary tag op lhs rhs) (.binary tag' op lhs' rhs') (rs ++ qs) alone := by
  refine .of_int hs hs' (fun σ => ?_) fun s => ?_
  · rw [Node.valueIn, Node.value_binary, Bytes.length_ofWord]
  · obtain ⟨l, c, hadds, hhi, hrun⟩ := hl.scalar hsl s
    obtain ⟨x, d, hadds', -, hrun'⟩ := operand_adds hpr hr hsr (s.append c)
    rw [s.count_append] at hrun'
    let i : Temp → Instruction := fun dst => .ofBinary dst l x op
    have hfst : rs.Sublist (rs ++ qs) := List.sublist_append_left ..
    have hsnd : qs.Sublist (rs ++ qs) := List.sublist_append_right ..
    refine ⟨((s.append c).append d).count,
      c ++ (d ++ ⟨[i ((s.append c).append d).count], [{ origin := none }]⟩), ?_, ?_,
      fun hf σ => ?_⟩
    · rw [scalar_binary]
      refine (hadds.sublist hfst).bind ((hadds'.sublist hsnd).bind (.define (i := i) fun _ => ?_))
      cases op <;> exact safe_of_untouched rfl trivial
    · simp only [Builder.count_append, Chunk.temps_append, List.length_append, List.length_cons,
        List.length_nil]
      omega
    · obtain ⟨he₁, hv₁⟩ := hrun hf.left σ
      obtain ⟨he₂, hv₂⟩ := hrun' hf.right (runAll w c.code σ)
      simp only [Chunk.code_append, runAll_append, runAll_cons, runAll_nil]
      generalize runAll w c.code σ = σ₁ at he₁ hv₁ he₂ hv₂ ⊢
      generalize runAll w d.code σ₁ = σ₂ at he₂ hv₂ ⊢
      have hval : (Node.binary tag op lhs rhs).valueIn w t σ =
          (Bytes.ofWord (op.apply (Bytes.toWord (lhs.valueIn w t σ).1)
            (Bytes.toWord (rhs.valueIn w t σ₁).1)), (rhs.valueIn w t σ₁).2) := by
        simp only [Node.valueIn]
        rw [Node.value_binary, he₁.outside, hf.left.contents_eq he₁.frame, Node.valueIn]
      have hstep : (i ((s.append c).append d).count).run w σ₂ =
          σ₂.set ((s.append c).append d).count (op.apply (σ₂.temps l) (x.value σ₂.temps)) := by
        cases op <;> rfl
      rw [hval, hstep, State.temps_set, Bytes.toWord_ofWord, hv₂, he₂.temps l hhi, hv₁]
      have he := (he₁.sublist hfst (Nat.le_refl _)).trans (he₂.sublist hsnd (Nat.le_add_right ..))
      refine ⟨⟨he.frame, fun u hu => ?_, he.outside⟩, rfl⟩
      have hne : u ≠ ((s.append c).append d).count := by
        simp only [Builder.count_append]
        omega
      rw [State.temps_set_of_ne _ _ hne]
      exact he.temps u hu

variable (w t) in
/-- The arguments of a call are computed, and the helper that is then called gives its value. -/
def LowersHelper (n : Node) (tag' : Tag) (args' : List Node) (b : Builtin) (rs : List Region) :
    Prop :=
  ∀ s : Builder, ∃ h c, Adds w (Framed w t rs) (t.regions ++ rs)
    (helper tag' (evaluations t args') b) s (some h) c ∧
    (Framed w t rs → ∀ dst, (dst ≠ none → n.facts.shape = some .int) →
      (Instruction.call h dst).Safe w (t.regions ++ rs)) ∧
    (Framed w t rs → ∀ σ, Evolves (t.mapRegions ++ rs) s.count (n.valueIn w t σ).2 σ
      (h.run w (runAll w c.code σ)).2 ∧
      (n.facts.shape = some .int →
        (h.run w (runAll w c.code σ)).1 = some (Bytes.toWord (n.valueIn w t σ).1)))

theorem LowersHelper.scalar {tag tag' : Tag} {function : Name} {args args' : List Node}
    {b : Builtin} {rs : List Region} (h : LowersHelper w t (.call tag function args) tag' args' b rs)
    (hb : Builtin.ofName? function = some b) (hs : tag.facts.shape = some .int)
    (hs' : tag'.facts.shape = some .int) :
    LowersScalar w t (.call tag function args) (.call tag' function args') rs := by
  intro s
  obtain ⟨f, c, hadds, hsafe, hrun⟩ := h s
  refine ⟨(s.append c).count, c ++ ⟨[.call f (some (s.append c).count)],
    [{ origin := some (.builtin b) }]⟩, ?_, ?_, fun hf σ => ?_⟩
  · rw [call_scalar hb (Facts.isInt_of_shape hs')]
    exact hadds.bind (.define (i := fun dst => .call f (some dst)) fun hf => hsafe hf _ fun _ => hs)
  · simp
  · obtain ⟨he, hv⟩ := hrun hf σ
    have hresult := hv hs
    simp only [Chunk.code_append, runAll_append, runAll_cons, runAll_nil, run]
    generalize f.run w (runAll w c.code σ) = r at he hresult ⊢
    obtain ⟨result, σ'⟩ := r
    dsimp only at he hresult
    subst hresult
    refine ⟨⟨he.frame, fun u hu => ?_, he.outside⟩, State.temps_set ..⟩
    have hne : u ≠ (s.append c).count := by
      rw [s.count_append]
      omega
    exact (State.temps_set_of_ne _ _ hne).trans (he.temps u hu)

theorem query_cases {b : Builtin} (h : b ∈ [Builtin.pid, .tid, .cpu, .ns]) :
    b = .pid ∨ b = .tid ∨ b = .cpu ∨ b = .ns := by
  simpa using h

theorem lowersHelper_query {tag tag' : Tag} {function : Name} {b : Builtin}
    (hb : Builtin.ofName? function = some b) (hmem : b ∈ [Builtin.pid, .tid, .cpu, .ns]) :
    LowersHelper w t (.call tag function []) tag' [] b [] := by
  intro s
  rcases query_cases hmem with rfl | rfl | rfl | rfl
  case inl | inr.inl | inr.inr.inl =>
    refine ⟨_, {}, .pure _, fun _ _ _ => safe_of_untouched rfl trivial,
      fun _ σ => ⟨?_, fun _ => ?_⟩⟩
    · simp only [Node.valueIn, Node.value, hb]
      exact .refl ..
    · simp only [Node.valueIn, Node.value, hb, Bytes.toWord_ofWord]
      rfl
  case inr.inr.inr =>
    refine ⟨_, {}, .pure _, fun _ _ _ => safe_of_untouched rfl trivial,
      fun _ σ => ⟨?_, fun _ => ?_⟩⟩
    · simp only [Node.valueIn, Node.value, hb]
      exact ⟨Memory.ChangedIn.refl _ _, fun _ _ => rfl, rfl⟩
    · simp only [Node.valueIn, Node.value, hb, Bytes.toWord_ofWord]
      rfl

theorem toNat_argument {v : Int64} (h0 : 0 ≤ v.toInt) (h6 : v.toInt < Builtin.maxArgs) :
    v.toInt8.toUInt8.toNat = v.toInt.toNat := by
  have hv : v = Int64.ofInt v.toInt := (Int64.ofInt_toInt v).symm
  have hmax : v.toInt < 6 := h6
  generalize v.toInt = k at *
  subst hv
  interval_cases k <;> rfl

theorem lowersHelper_arg {tag tag' index index' : Tag} {function : Name} {v : Int64}
    (hb : Builtin.ofName? function = some .arg) (h0 : 0 ≤ v.toInt)
    (h6 : v.toInt < Builtin.maxArgs) :
    LowersHelper w t (.call tag function [.int index v]) tag' [.int index' v] .arg [] := by
  intro s
  refine ⟨.arg v.toInt8.toUInt8, {}, ?_, fun _ _ _ => safe_of_untouched rfl trivial,
    fun _ σ => ⟨?_, fun _ => ?_⟩⟩
  · exact .pure _
  · simp only [Node.valueIn, Node.value, hb]
    exact .refl ..
  · simp only [Node.valueIn, Node.value, hb, Bytes.toWord_ofWord, Helper.run, toNat_argument h0 h6]

theorem lowersHelper_comm {tag tag' : Tag} {function : Name} {addr : Int} {sh : Shape}
    (hb : Builtin.ofName? function = some .comm) (hsh : sh = ⟨.str, Builtin.commSize⟩)
    (hs : tag.facts.shape = some sh) (hs' : tag'.facts.shape = some sh)
    (ha : tag'.facts.addr = some addr) :
    LowersHelper w t (.call tag function []) tag' [] .comm [⟨addr, sh.size⟩] := by
  intro s
  have hstr : tag.facts.shape ≠ some .int := by
    rw [hs, hsh]
    exact nofun
  refine ⟨.comm addr sh.size, {}, ?_, fun _ dst hd => ⟨?_, ?_⟩,
    fun _ σ => ⟨?_, fun h => (hstr h).elim⟩⟩
  · simp only [helper, addrOf_of_addr ha, pure_bind, Facts.size_of_shape hs']
    exact .pure _
  · rintro r (_ | ⟨_, ⟨⟩⟩)
    exact ⟨_, List.mem_append_right _ List.mem_cons_self, .refl _⟩
  · exact not_not.1 fun hne => hstr (hd hne)
  · simp only [Node.valueIn, Node.value, hb]
    refine .write_inside (List.mem_append_right _ List.mem_cons_self) σ ?_ _
    rw [Bytes.length_extend]
    exact .refl _

theorem lowersHelper_strcmp {tag tag' : Tag} {function : Name} {lhs lhs' rhs rhs' : Node}
    {rs qs : List Region} (hb : Builtin.ofName? function = some .strcmp)
    (hl : Lowers w t lhs lhs' rs true) (hr : Lowers w t rhs rhs' qs true)
    (hsl : lhs.facts.type = some .str) (hsr : rhs.facts.type = some .str) :
    LowersHelper w t (.call tag function [lhs, rhs]) tag' [lhs', rhs'] .strcmp (rs ++ qs) := by
  intro s
  obtain ⟨left, c, hadds, hstands, hrun⟩ := hl.slot hsl (.inl rfl) s
  obtain ⟨right, d, hadds', hstands', hrun'⟩ := hr.slot hsr (.inl rfl) (s.append c)
  rw [s.count_append] at hrun'
  have hfst : rs.Sublist (rs ++ qs) := List.sublist_append_left ..
  have hsnd : qs.Sublist (rs ++ qs) := List.sublist_append_right ..
  refine ⟨.strcmp left right (min lhs'.facts.size rhs'.facts.size), c ++ (d ++ {}), ?_,
    fun _ _ _ => ⟨?_, trivial⟩, fun hf σ => ?_⟩
  · exact (hadds.sublist hfst).bind ((hadds'.sublist hsnd).bind (.pure _))
  · rw [hl.size_eq, hr.size_eq]
    rintro r (_ | ⟨_, _ | ⟨_, ⟨⟩⟩⟩)
    · refine ⟨_, ((List.Sublist.refl _).append hfst).subset hstands.mem, 0, by simp, ?_⟩
      simp
    · refine ⟨_, ((List.Sublist.refl _).append hsnd).subset hstands'.mem, 0, by simp, ?_⟩
      simp
  · obtain ⟨he₁, hv₁⟩ := hrun hf.left σ
    obtain ⟨he₂, hv₂⟩ := hrun' hf.right (runAll w c.code σ)
    simp only [Chunk.code_append, runAll_append, runAll_nil]
    generalize runAll w c.code σ = σ₁ at he₁ hv₁ he₂ hv₂ ⊢
    generalize runAll w d.code σ₁ = σ₂ at he₂ hv₂ ⊢
    -- The left operand still stands where it was when the right one has been computed.
    have hleft : σ₂.frame.read left lhs.facts.size = (lhs.valueIn w t σ).1 :=
      (he₂.frame.read fun r hr => hf.standing_apart hstands hr).trans hv₁
    have hfirst : lhs.value w t.scope (t.contents σ.frame) σ.outside =
        ((lhs.valueIn w t σ).1, (lhs.valueIn w t σ).2) := rfl
    have hsecond : rhs.value w t.scope (t.contents σ.frame) (lhs.valueIn w t σ).2 =
        ((rhs.valueIn w t σ₁).1, (rhs.valueIn w t σ₁).2) := by
      rw [← hf.left.contents_eq he₁.frame, ← he₁.outside]
      rfl
    rw [Node.valueIn, Node.value_strcmp hb hfirst hsecond]
    refine ⟨(he₁.sublist hfst (Nat.le_refl _)).trans (he₂.sublist hsnd (Nat.le_add_right ..)),
      fun _ => ?_⟩
    rw [Bytes.toWord_ofWord, hl.length, hr.length, ← hleft, ← hv₂,
      Memory.take_read _ _ (Nat.min_le_left ..), Memory.take_read _ _ (Nat.min_le_right ..),
      hl.size_eq, hr.size_eq]
    rfl

theorem lowers_of_placed (ht : t.Ready) {alone : Bool} {n n' : Node} {rs : List Region}
    (h : Placed t alone n n' rs) : Lowers w t n n' rs alone := by
  induction h with
  | int hs hs' => exact lowers_int hs hs'
  | text hsh hs hs' ha => exact lowers_text hsh hs hs' ha
  | var hvar hs hs' ha => exact lowers_var ht hvar hs hs' ha
  | entry hm hk _ hs hs' hid ih => exact lowers_entry ht hm hk ih hs hs' hid
  | stringEntry hm hk _ hsym hstr hs hs' hid ha ih =>
    exact lowers_stringEntry ht hm hk ih hsym hstr hs hs' hid ha
  | binary _ hpr hsl hsr hs hs' ihl ihr => exact lowers_binary hpr ihl ihr hsl hsr hs hs'
  | query hb hmem hs hs' =>
    refine .of_int hs hs' (fun σ => ?_) ((lowersHelper_query hb hmem).scalar hb hs hs')
    rcases query_cases hmem with rfl | rfl | rfl | rfl <;>
      simp only [Node.valueIn, Node.value, hb, Bytes.length_ofWord]
  | arg hb h0 h6 hs hs' =>
    refine .of_int hs hs' (fun σ => ?_) ((lowersHelper_arg hb h0 h6).scalar hb hs hs')
    simp only [Node.valueIn, Node.value, hb, Bytes.length_ofWord]
  | comm hb hsh hs hs' ha => exact lowers_comm hb hsh hs hs' ha
  | strcmp hb _ _ hsl hsr hs hs' ihl ihr =>
    refine .of_int hs hs' (fun σ => ?_) ((lowersHelper_strcmp hb ihl ihr hsl hsr).scalar hb hs hs')
    rw [Node.valueIn, Node.value_strcmp hb rfl rfl, Bytes.length_ofWord]

theorem Lowers.into {alone : Bool} {n n' : Node} {rs : List Region}
    (h : Lowers w t n n' rs alone) : LowersInto w t n n' rs := by
  intro ps dest s
  rcases h.cases with ⟨hint, hint'⟩ | ⟨hstr, hint'⟩
  · have hsize : n.facts.size = 8 := Facts.size_of_shape hint
    obtain ⟨dst, c, hadds, -, hrun⟩ := h.scalar hint s
    refine ⟨c ++ ⟨[.store dst dest], []⟩, ?_, fun hf σ => ?_⟩
    · rw [into_of_int hint']
      refine (hadds.mono And.left fun hG => hG.2.subset).bind (.push fun hG => ⟨?_, trivial⟩)
      rintro r (_ | ⟨_, ⟨⟩⟩)
      rw [← hsize]
      exact hG.2.inside
    · obtain ⟨he, hv⟩ := hrun hf σ
      simp only [Chunk.code_append, runAll_append, runAll_cons, runAll_nil, run, hv,
        Bytes.ofWord_toWord ((h.length σ).trans hsize)]
      exact ⟨he.then_write dest (h.length σ), Memory.read_write _ dest (h.length σ)⟩
  · by_cases hentry : n'.isEntry = true
    · obtain ⟨addr, c, hadds, hstands, hrun⟩ := h.slot hstr (.inr hentry) s
      have hslot : Adds w (Framed w t rs ∧ Room t rs ps ⟨dest, n.facts.size⟩) ps
          (evaluation t n').slot s addr c := hadds.mono And.left fun hG => hG.2.subset
      rw [into_of_entry hint' hentry, h.size_eq]
      by_cases haddr : addr = dest
      · subst haddr
        refine ⟨c ++ {}, hslot.bind ?_, fun hf σ => ?_⟩
        · rw [if_neg (not_not.2 rfl)]
          exact .pure _
        · obtain ⟨he, hv⟩ := hrun hf σ
          simp only [Chunk.code_append, runAll_append, runAll_nil]
          exact ⟨he.mono (List.subset_append_left ..) (Nat.le_refl _), hv⟩
      · refine ⟨c ++ ⟨[.copy dest addr n.facts.size], []⟩, hslot.bind ?_, fun hf σ => ?_⟩
        · rw [if_pos haddr]
          refine .push fun hG => ⟨?_, (hG.2.apart _ hstands).resolve_left haddr⟩
          rintro r (_ | ⟨_, _ | ⟨_, ⟨⟩⟩⟩)
          · exact hG.2.inside
          · exact ⟨_, hG.2.subset hstands.mem, .refl _⟩
        · obtain ⟨he, hv⟩ := hrun hf σ
          simp only [Chunk.code_append, runAll_append, runAll_cons, runAll_nil, run, hv]
          exact ⟨he.then_write dest (h.length σ), Memory.read_write _ dest (h.length σ)⟩
    · have hdeferred := h.deferred hstr (Bool.eq_false_iff.2 hentry)
      obtain ⟨c, hadds, hrun⟩ := hdeferred.into ps dest s
      obtain ⟨f, hpure⟩ := hdeferred.pure
      refine ⟨c, hadds.mono And.right fun _ => List.Subset.refl _, fun hf σ => ?_⟩
      rw [hrun]
      have hout : (n.valueIn w t σ).2 = σ.outside := by rw [Node.valueIn, hpure]
      rw [hout]
      exact ⟨(Evolves.refl _ _ σ).then_write dest (h.length σ),
        Memory.read_write _ dest (h.length σ)⟩

end

end Flow

end TraceScript
